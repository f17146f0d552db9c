import Esc.Office.Creations

/-!
# The length of the message in preparation

The office appends the transactions of its clients to a buffer, and the server makes a message
of the buffer when it is ready for one: it adds a connection entry unless the buffer begins
with one, and the head. The office limits the number of the transactions in the buffer but not
their length, while a message has a length of 24 bits.

Between two submissions the message fits exactly as long as every transaction that is
accepted still finds room.
-/

namespace Esc

open Lib

/-- `message::max_length`, the limit of the length field and of other nodes. -/
def maxLength : Nat := 0xffffff

/-- The length of the message that `write_message` builds from the buffer. -/
def builtLength (message : List UserTxs) : Nat :=
  4 + 64 + 10 + (message.map UserTxs.size).sum +
    if message.head?.any (·.ttype = .con) then 0 else txslen .con

/-- An empty buffer is not sent. -/
def OfficeState.Fits (o : OfficeState) : Prop :=
  o.message = [] ∨ builtLength o.message ≤ maxLength

inductive OfficeEvent where
  /-- A client command from the request to the answer. -/
  | command (env : OfficeEnv) (t : Command)
  /-- An account request of another node. -/
  | remote (env : OfficeEnv) (bbank : UInt16) (buser : UInt32) (pkey : Hash)
  /-- `update_connection_info` with an outdated address. The buffer was empty when the office
  looked at it, but need not be when the entry is added. -/
  | connection (port : UInt16) (ipv4 : UInt32)
  /-- `write_message` takes the buffer. -/
  | send

def connectionTxs (port : UInt16) (ipv4 : UInt32) : UserTxs where
  ttype := .con
  abank := port
  auser := ipv4

namespace OfficeState

/-- One step of the office. A transaction waits while the buffer holds too many of them. -/
def step (o : OfficeState) : OfficeEvent → OfficeState
  | .command env t =>
    if o.messageTnum < messageTnumMax then (Handler.execute env o t).2 else o
  | .remote env bbank buser pkey =>
    if o.messageTnum < messageTnumMax then (o.addRemoteUser env bbank buser pkey).2 else o
  | .connection port ipv4 =>
    { o with
      message := o.message ++ [connectionTxs port ipv4]
      messageTnum := o.messageTnum + 1 }
  | .send => { o with message := [], messageTnum := 0 }

def runEvents (o : OfficeState) (events : List OfficeEvent) : OfficeState := events.foldl step o

/-- A command is accepted when it is answered without an error, and the request of another node
when it is confirmed in the message. -/
def Accepts (o : OfficeState) : OfficeEvent → Prop
  | .command env t => o.messageTnum < messageTnumMax ∧ (Handler.execute env o t).1 = none
  | .remote env bbank buser pkey =>
    o.messageTnum < messageTnumMax ∧
      (o.addRemoteUser env bbank buser pkey).2.message ≠ o.message
  | _ => True

/-- The message has room for the transaction. -/
def HasRoom (o : OfficeState) : OfficeEvent → Prop
  | .command _ t => builtLength (o.message ++ [t.toUserTxs]) ≤ maxLength
  | .remote env bbank buser pkey =>
    builtLength (o.message ++ [o.uokTxs env 0 bbank buser pkey]) ≤ maxLength
  | .connection port ipv4 => builtLength (o.message ++ [connectionTxs port ipv4]) ≤ maxLength
  | .send => True

/-- A property of every step of a run. -/
def AllSteps (P : OfficeState → OfficeEvent → Prop) : OfficeState → List OfficeEvent → Prop
  | _, [] => True
  | o, e :: events => P o e ∧ AllSteps P (o.step e) events

end OfficeState

/-! ## What a command appends -/

/-- The transaction takes as much of a message as the other one. -/
structure SameLength (t t' : UserTxs) : Prop where
  size : t'.size = t.size
  ttype : t'.ttype = t.ttype

theorem SameLength.refl (t : UserTxs) : SameLength t t := ⟨rfl, rfl⟩

theorem builtLength_append {message : List UserTxs} {t t' : UserTxs} (h : SameLength t t') :
    builtLength (message ++ [t']) = builtLength (message ++ [t]) := by
  cases message with
  | nil => simp [builtLength, h.size, h.ttype]
  | cons t₀ message => simp [builtLength, h.size]

/-- The office has one more transaction in its message. -/
def Appended (message : List UserTxs) (t : UserTxs) (o : OfficeState) : Prop :=
  ∃ t', SameLength t t' ∧ o.message = message ++ [t']

namespace Handler

variable {env : OfficeEnv} {o o' : OfficeState} {usera nu : User} {t t' : UserTxs}

/-- A handler that answers without an error has appended the transaction. -/
def AppendsOnce (message : List UserTxs) (t : UserTxs) (r : Reply) : Prop :=
  r.1 = none → Appended message t r.2

theorem appended_of_submit (h : submit env o nu t' = .ok o') (hshape : SameLength t t') :
    Appended o.message t o' := by
  unfold submit OfficeState.addMsg at h
  split at h
  · cases h
  · rename_i o₁ hadd
    split at hadd
    · cases h
      cases hadd
      exact ⟨t', hshape, rfl⟩
    · cases hadd

theorem reply_appends {message : List UserTxs} {x : Except ErrorCode OfficeState}
    (h : ∀ o', x = .ok o' → Appended message t o') : AppendsOnce message t (reply o x) := by
  intro hnone
  cases x with
  | error e => cases hnone
  | ok o' => exact h o' rfl

theorem createAccount_appends (hbro : t.ttype = .usr) :
    AppendsOnce o.message t (createAccount env o usera t) := by
  unfold createAccount
  split
  · have hmessage := (Creations.addUser_message env o t.abank t.npkey t.ttime).1
    dsimp only
    split
    · intro hnone
      cases hnone
    · rw [← hmessage]
      exact reply_appends fun _ h => appended_of_submit h ⟨by simp [UserTxs.size, hbro], rfl⟩
  · exact reply_appends fun _ h => appended_of_submit h (.refl t)

theorem changeNodeKey_appends (hbky : t.ttype = .bky) :
    AppendsOnce o.message t (changeNodeKey env o usera t) := by
  have hshape : ∀ opkey, SameLength t { t with opkey := opkey } := fun _ =>
    ⟨by simp [UserTxs.size, hbky], rfl⟩
  unfold changeNodeKey
  split
  · split
    · intro hnone
      cases hnone
    · exact reply_appends fun _ h => appended_of_submit h (hshape _)
  · exact reply_appends fun _ h => appended_of_submit (o := { o with pkey := t.key }) h (hshape _)

theorem changeStatus_message {f : UInt16 → UInt16} {buser : UInt32}
    (h : o.changeStatus buser f = some o') : o'.message = o.message := by
  unfold OfficeState.changeStatus at h
  split at h
  · cases h
  · cases h
    rfl

theorem changeAccountStatus_appends {f : UInt16 → UInt16} :
    AppendsOnce o.message t (changeAccountStatus env o usera t (·.changeStatus t.buser f)) := by
  intro hnone
  unfold changeAccountStatus OfficeState.addMsg at hnone ⊢
  by_cases hsubmits : (o.run && env.opens) = true
  · simp only [if_pos hsubmits] at hnone ⊢
    split at hnone
    · cases hnone
    · rename_i o' hchange
      exact ⟨t, .refl t, changeStatus_message hchange⟩
  · simp only [if_neg hsubmits] at hnone
    cases hnone

theorem sendOne_appends : AppendsOnce o.message t (sendOne env o usera t) := by
  refine reply_appends fun o' h => ?_
  obtain ⟨o₁, hcommit, h⟩ := Lib.bind_eq_ok h
  obtain ⟨t', hshape, hmessage⟩ := appended_of_submit hcommit (.refl t)
  cases h
  refine ⟨t', hshape, ?_⟩
  split
  · exact hmessage
  · exact hmessage

theorem addDeposits_message (targets : List ToAddress) (o : OfficeState) :
    (targets.foldl (fun o a =>
      if a.tbank = o.svid ∧ 0 ≤ a.tmass then o.addDeposit a.tuser a.tmass else o) o).message =
      o.message := by
  induction targets generalizing o with
  | nil => rfl
  | cons a targets ih =>
      rw [List.foldl_cons, ih]
      split
      · rfl
      · rfl

theorem sendMany_appends : AppendsOnce o.message t (sendMany env o usera t) := by
  refine reply_appends fun o' h => ?_
  obtain ⟨_, -, h⟩ := Lib.bind_eq_ok h
  obtain ⟨o₁, hcommit, h⟩ := Lib.bind_eq_ok h
  obtain ⟨t', hshape, hmessage⟩ := appended_of_submit hcommit (.refl t)
  cases h
  exact ⟨t', hshape, (addDeposits_message t.toaddresses o₁).trans hmessage⟩

theorem onExecute_appends : AppendsOnce o.message t (onExecute env o usera t) := by
  unfold onExecute
  split
  · rename_i husr
    exact createAccount_appends husr
  · rename_i hbky
    exact changeNodeKey_appends hbky
  · exact changeAccountStatus_appends
  · exact changeAccountStatus_appends
  · exact sendOne_appends
  · exact sendMany_appends
  · exact reply_appends fun _ h => appended_of_submit h (.refl t)
  · exact reply_appends fun _ h => appended_of_submit h (.refl t)

/-- A command that is answered without an error is in the message, with the length that it
came with. -/
theorem execute_appends (t : Command) : AppendsOnce o.message t.toUserTxs (execute env o t) := by
  unfold execute
  split
  · intro hnone
    cases hnone
  · exact onExecute_appends

end Handler

namespace OfficeState

variable {env : OfficeEnv} {o : OfficeState} {bbank : UInt16} {buser : UInt32} {pkey : Hash}

theorem tryAccount_message : (o.tryAccount pkey).2.message = o.message := by
  unfold tryAccount
  split
  · rfl
  · split
    · rfl
    · rfl

theorem openRemote_appends (h : (o.openRemote env bbank buser pkey).2.message ≠ o.message) :
    Appended o.message (o.uokTxs env 0 bbank buser pkey) (o.openRemote env bbank buser pkey).2 := by
  have hmessage := (Creations.addUser_message env o bbank pkey env.time).1
  unfold openRemote addMsg at h ⊢
  dsimp only at h ⊢
  generalize o.addUser env bbank pkey env.time = r at h hmessage ⊢
  by_cases hzero : r.1 = 0
  · rw [if_pos hzero] at h
    exact absurd hmessage h
  · rw [if_neg hzero] at h ⊢
    by_cases hsubmits : (r.2.run && env.opens) = true
    · rw [if_pos hsubmits]
      exact ⟨r.2.uokTxs env r.1 bbank buser pkey, ⟨rfl, rfl⟩, congrArg (· ++ [_]) hmessage⟩
    · rw [if_neg hsubmits] at h
      exact absurd hmessage h

theorem addRemoteUser_appends (h : (o.addRemoteUser env bbank buser pkey).2.message ≠ o.message) :
    Appended o.message (o.uokTxs env 0 bbank buser pkey)
      (o.addRemoteUser env bbank buser pkey).2 := by
  have hmessage : (o.tryAccount pkey).2.message = o.message := tryAccount_message
  unfold addRemoteUser at h ⊢
  split at h
  · exact absurd rfl h
  · rename_i hreadonly
    rw [if_neg hreadonly]
    split at h
    · rename_i htry
      rw [if_pos htry]
      rw [← hmessage] at h
      obtain ⟨t', hshape, happend⟩ := openRemote_appends h
      exact ⟨t', ⟨hshape.size, hshape.ttype⟩, hmessage ▸ happend⟩
    · exact absurd hmessage h

/-! ## Runs -/

theorem fits_iff_of_appended {t : UserTxs} {o' : OfficeState} (h : Appended o.message t o') :
    o'.Fits ↔ builtLength (o.message ++ [t]) ≤ maxLength := by
  obtain ⟨t', hshape, hmessage⟩ := h
  unfold Fits
  rw [hmessage, builtLength_append hshape]
  simp

theorem step_fits_iff {e : OfficeEvent} (h : o.Accepts e) : (o.step e).Fits ↔ o.HasRoom e := by
  cases e with
  | command env t =>
      rw [step, if_pos h.1]
      exact fits_iff_of_appended (Handler.execute_appends t h.2)
  | remote env bbank buser pkey =>
      rw [step, if_pos h.1]
      exact fits_iff_of_appended (addRemoteUser_appends h.2)
  | connection port ipv4 =>
      exact fits_iff_of_appended ⟨connectionTxs port ipv4, .refl _, rfl⟩
  | send => exact iff_of_true (.inl rfl) trivial

theorem run_fits_iff (o : OfficeState) (events : List OfficeEvent) (h : AllSteps Accepts o events) :
    (∀ es, es <+: events → (o.runEvents es).Fits) ↔ o.Fits ∧ AllSteps HasRoom o events := by
  induction events generalizing o with
  | nil =>
      constructor
      · intro hfits
        exact ⟨hfits [] (List.prefix_refl []), trivial⟩
      · rintro ⟨hfits, -⟩ es hes
        rw [List.prefix_nil.mp hes]
        exact hfits
  | cons e events ih =>
      obtain ⟨haccept, h⟩ := h
      have hrest := ih (o.step e) h
      constructor
      · intro hfits
        have hnext := hrest.mp fun es hes => hfits (e :: es) ((List.prefix_cons_inj e).mpr hes)
        exact ⟨hfits [] (List.nil_prefix), (step_fits_iff haccept).mp hnext.1, hnext.2⟩
      · rintro ⟨hfits, hroom, hroomAll⟩ es hes
        cases es with
        | nil => exact hfits
        | cons e' es =>
            obtain ⟨rfl, hrun⟩ := List.cons_prefix_cons.mp hes
            exact hrest.mpr ⟨(step_fits_iff haccept).mpr hroom, hroomAll⟩ es hrun

end OfficeState

namespace Sample

def richUser : User := { msid := 1, weight := 1000000000000 }

/-- An office of many accounts that can all pay for a broadcast. -/
def richOffice : OfficeState where
  svid := 1
  users := 1024
  offifd := ⟨1024, fun k => if k < 1024 then richUser else default, fun _ h => if_neg h.not_gt⟩
  onFile := le_rfl
  deleted := by simp

/-- The longest broadcast, from an account that has sent nothing so far. -/
def longBroadcast (auser : UInt32) : Command where
  ttype := .bro
  abank := 1
  auser := auser
  amsid := 1
  bbank := 32000
  text := List.replicate 32000 0
  addresses := by simp
  broadcast := fun _ => List.length_replicate.trans (by decide)
  modifying := rfl

/-- One long broadcast of each of the accounts from a first one on. -/
def longBroadcasts (first n : Nat) : List OfficeEvent :=
  (List.range' first n).map fun k => .command openDisk (longBroadcast (UInt32.ofNat k))

/-- The accounts up to a first one have sent a long broadcast, and the others nothing. -/
structure Sent (first : Nat) (o : OfficeState) : Prop where
  svid : o.svid = 1
  users : o.users = 1024
  run : o.run = true
  readonly : o.readonly = false
  tnum : o.messageTnum + 1 = first
  message : o.message.map UserTxs.size = List.replicate o.messageTnum 32081
  types : ∀ t ∈ o.message, t.ttype = .bro
  unsent : ∀ k < 1024, first ≤ k → o.offifd.get k = richUser

theorem sent_start : Sent 1 richOffice where
  svid := rfl
  users := rfl
  run := rfl
  readonly := rfl
  tnum := rfl
  message := rfl
  types _ hmem := (List.not_mem_nil hmem).elim
  unsent _ hk _ := if_pos hk

theorem deny_bind {α : Type} {p : Prop} [Decidable p] {e : ErrorCode}
    {f : Unit → Except ErrorCode α}
    {x : Except ErrorCode α} (hp : ¬ p) (hf : f () = x) : (Handler.deny p e >>= f) = x := by
  rw [Handler.deny, if_neg hp]
  exact hf

section LongBroadcast

variable {o : OfficeState} {first : Nat}

theorem toNat_account (hlt : first < 1024) : (UInt32.ofNat first).toNat = first := by
  simp only [UInt32.toNat_ofNat']
  omega

theorem getUser_of_sent (h : Sent first o) (hlt : first < 1024) :
    o.getUser openDisk 1 (UInt32.ofNat first) = some richUser := by
  have huser : o.user (UInt32.ofNat first) = richUser := by
    rw [OfficeState.user, toNat_account hlt]
    exact h.unsent first hlt le_rfl
  rw [OfficeState.getUser, h.svid, if_neg (by decide), if_neg (by decide), OfficeState.localUser,
    huser, h.users, if_neg]
  simp [UInt32.le_iff_toNat_le, toNat_account hlt, richUser]
  omega

theorem availableBalance_longBroadcast (hpos : 0 < first) (hlt : first < 1024) :
    Handler.availableBalance openDisk richUser
      (longBroadcast (UInt32.ofNat first)).toUserTxs = 999980000000 := by
  have hmass : Handler.minMass (UInt32.ofNat first) = userMinMass := if_neg fun hzero => by
    have hnat := toNat_account hlt
    rw [hzero] at hnat
    exact hpos.ne hnat
  have hdue : ¬ (openDisk.last.now + 2 * blockSec) / blockSec % blockDiv = 0 := by decide
  rw [Handler.availableBalance]
  show (if _ then _ else richUser.weight - Handler.minMass (UInt32.ofNat first)) = _
  rw [hmass, if_neg fun hand => hdue hand.1]
  decide

theorem validate_longBroadcast (h : Sent first o) (hpos : 0 < first) (hlt : first < 1024) :
    Handler.validate openDisk o (longBroadcast (UInt32.ofNat first)).toUserTxs = .ok richUser := by
  have hcommon : Handler.performCommonValidation openDisk o richUser
      (longBroadcast (UInt32.ofNat first)).toUserTxs = .ok () := by
    refine deny_bind (show ¬ (!true) = true by decide) ?_
    refine deny_bind (show ¬ 3 < ((0 : UInt32) - 0).toInt32 by decide) ?_
    rw [h.svid]
    exact if_neg (show ¬ (1 : UInt16) ≠ 1 by decide)
  have hmodifying : Handler.validateModifyingCommand openDisk o richUser
      (longBroadcast (UInt32.ofNat first)).toUserTxs = .ok () := by
    rw [Handler.validateModifyingCommand, h.svid, h.readonly,
      availableBalance_longBroadcast hpos hlt]
    refine deny_bind (by decide) (deny_bind (by decide) ?_)
    refine deny_bind (show ¬ (1 : UInt32) ≠ 1 by decide) ?_
    refine deny_bind (show ¬ (0 : Int64) < 0 by decide) ?_
    refine deny_bind (show ¬ txsBroFee (Int64.ofNat 32000) < 0 by decide) ?_
    exact if_neg (show ¬ (999980000000 : Int64) < 0 + txsBroFee (Int64.ofNat 32000) by decide)
  have hown : Handler.onValidate openDisk o (longBroadcast (UInt32.ofNat first)).toUserTxs =
      .ok () := by
    show Handler.deny (maxBroadcastLength < 32000) .broadcastMaxLength = .ok ()
    exact if_neg (by decide)
  have hget : o.getUser openDisk (longBroadcast (UInt32.ofNat first)).abank
      (longBroadcast (UInt32.ofNat first)).auser = some richUser := getUser_of_sent h hlt
  simp only [Handler.validate, hget, hcommon, hmodifying, hown]
  rfl

theorem size_longBroadcast (auser : UInt32) : (longBroadcast auser).size = 32081 := by
  have hsize : txslen .bro + 64 + (32000 : UInt16).toNat = 32081 := by decide
  exact hsize

theorem sent_step (h : Sent first o) (hpos : 0 < first) (hlt : first < 1024) :
    o.Accepts (.command openDisk (longBroadcast (UInt32.ofNat first))) ∧
      Sent (first + 1) (o.step (.command openDisk (longBroadcast (UInt32.ofNat first)))) := by
  have htnum : o.messageTnum < messageTnumMax := by
    have := h.tnum
    unfold messageTnumMax
    omega
  have hexecute : Handler.execute openDisk o (longBroadcast (UInt32.ofNat first)) =
      Handler.reply o (Handler.commitChanges openDisk o richUser
        (longBroadcast (UInt32.ofNat first)).toUserTxs) := by
    rw [Handler.execute, validate_longBroadcast h hpos hlt]
    rfl
  have hsubmits : Handler.submits openDisk o = true := by
    rw [Handler.submits, h.run]
    rfl
  rw [OfficeState.Accepts, OfficeState.step, if_pos htnum, hexecute, Handler.commitChanges,
    Handler.submit, Handler.addMsg_of_submits hsubmits]
  refine ⟨⟨htnum, rfl⟩, h.svid, h.users, h.run, h.readonly, ?_, ?_, ?_, ?_⟩
  · show o.messageTnum + 1 + 1 = first + 1
    rw [h.tnum]
  · show (o.message ++ [_]).map UserTxs.size = List.replicate (o.messageTnum + 1) 32081
    rw [List.map_append, h.message, List.replicate_succ', List.map_singleton, size_longBroadcast]
  · intro t hmem
    obtain hmem | hmem := List.mem_append.mp hmem
    · exact h.types t hmem
    · rw [List.mem_singleton.mp hmem]
      rfl
  · intro k hk hle
    show (o.offifd.set (UInt32.ofNat first).toNat _).get k = richUser
    rw [toNat_account hlt, Table.get_set_ne _ _ (by omega)]
    exact h.unsent k hk (by omega)

end LongBroadcast

theorem sent_run {first : Nat} (n : Nat) {o : OfficeState} (h : Sent first o) (hpos : 0 < first)
    (hle : first + n ≤ 1024) :
    o.AllSteps OfficeState.Accepts (longBroadcasts first n) ∧
      Sent (first + n) (o.runEvents (longBroadcasts first n)) := by
  induction n generalizing first o with
  | zero => exact ⟨trivial, h⟩
  | succ n ih =>
      obtain ⟨haccept, hstep⟩ := sent_step h hpos (by omega)
      obtain ⟨hrest, hsent⟩ := ih hstep (by omega) (by omega)
      refine ⟨⟨haccept, hrest⟩, ?_⟩
      rwa [Nat.add_right_comm] at hsent

/-- The message built from broadcasts only. -/
theorem builtLength_broadcasts {message : List UserTxs} {n : Nat}
    (hsize : message.map UserTxs.size = List.replicate n 32081)
    (htypes : ∀ t ∈ message, t.ttype = .bro) : builtLength message = 101 + 32081 * n := by
  have hhead : ¬ (message.head?.any (·.ttype = .con)) = true := by
    cases message with
    | nil => simp
    | cons t message =>
        have htype := htypes t List.mem_cons_self
        simp [htype]
  rw [builtLength, if_neg hhead, hsize, List.sum_replicate]
  simp only [txslen, smul_eq_mul]
  omega

/-- There is room for 522 broadcasts. -/
theorem hasRoom_run {first : Nat} (n : Nat) {o : OfficeState} (h : Sent first o)
    (hpos : 0 < first) (hle : first + n ≤ 523) :
    o.AllSteps OfficeState.HasRoom (longBroadcasts first n) := by
  induction n generalizing first o with
  | zero => exact trivial
  | succ n ih =>
      obtain ⟨-, hstep⟩ := sent_step h hpos (by omega)
      refine ⟨?_, ih hstep (by omega) (by omega)⟩
      have htnum := h.tnum
      show builtLength (o.message ++ [(longBroadcast (UInt32.ofNat first)).toUserTxs]) ≤ maxLength
      rw [@builtLength_broadcasts _ first, maxLength]
      · omega
      · rw [List.map_append, h.message, List.map_singleton, ← htnum, List.replicate_succ',
          size_longBroadcast]
      · intro t ht
        obtain ht | ht := List.mem_append.mp ht
        · exact h.types t ht
        · rw [List.mem_singleton.mp ht]
          rfl

end Sample

namespace OfficeState

/-- From one submission on, the message fits after every step exactly when every step finds
room for what it appends. -/
theorem message_fits_iff (o : OfficeState) (events : List OfficeEvent) (hempty : o.message = [])
    (haccept : AllSteps Accepts o events) :
    (∀ es, es <+: events → (o.runEvents es).Fits) ↔ AllSteps HasRoom o events := by
  rw [run_fits_iff o events haccept]
  exact and_iff_right (.inl hempty)

/-- Five hundred and twenty-two accepted broadcasts fit. -/
theorem message_fits_broadcasts :
    Sample.richOffice.message = [] ∧
      ∀ es, es <+: Sample.longBroadcasts 1 522 → (Sample.richOffice.runEvents es).Fits :=
  ⟨rfl, (message_fits_iff Sample.richOffice _ rfl
    (Sample.sent_run 522 Sample.sent_start (by decide) (by decide)).1).mpr
    (Sample.hasRoom_run 522 Sample.sent_start (by decide) (by decide))⟩

/-- Five hundred and twenty-three accepted broadcasts make a message too long for its length
field. -/
theorem message_too_long :
    Sample.richOffice.message = [] ∧
      AllSteps Accepts Sample.richOffice (Sample.longBroadcasts 1 523) ∧
      ¬ (Sample.richOffice.runEvents (Sample.longBroadcasts 1 523)).Fits := by
  obtain ⟨haccept, hsent⟩ :=
    Sample.sent_run 523 Sample.sent_start (by decide) (by decide)
  refine ⟨rfl, haccept, ?_⟩
  have hlength := Sample.builtLength_broadcasts hsent.message hsent.types
  have htnum := hsent.tnum
  rintro (hempty | hle)
  · have hcount := congrArg List.length hsent.message
    rw [hempty, List.length_replicate] at hcount
    simp at hcount
    omega
  · rw [hlength, maxLength] at hle
    omega

end OfficeState

end Esc
