import Esc.Office.Office

/-!
# Client commands

A command handler checks a command against the office and then carries it out. The
checks never touch the office. The execution appends the transaction to the message
and stores the new account record, but four handlers have effects of their own
around the append: a new account is taken before it, the node key is replaced before
it, and an account status is changed after it.

`execute_unchanged_iff` says for every command when an error leaves the office as it
was.
-/

namespace Esc

open Lib

/-- The error codes that a handler of a modifying command can answer with. -/
inductive ErrorCode where
  | bankNotFound | bankIncorrect | getUserFail | lowBalance | readOnlyMode | badMsgId
  | createAccountBadTiming | createAccountFail | messageSubmitFail | wrongSignature
  | duplicatedTarget | amountBelowZero | amountNotPositive | userBadTarget | nodeBadTarget
  | timeInFuture | matchSecretKeyNotFound | setKeyRemoteBankFail | badUser | authorizationError
  | statusSubmitFail | noNodeStatusChangeAuth | accountStatusOnRemoteNode | broadcastMaxLength
  | feeBelowZero
deriving DecidableEq, Repr

/-- The transactions that a client can ask for. -/
def TxsType.modifying : TxsType → Bool
  | .bro | .put | .mpt | .usr | .bnk | .get | .key | .bky | .sus | .sbs | .uus | .ubs | .sav => true
  | .non | .con | .uok | .inf => false

/-- A modifying command: the transaction as the client sent it. -/
structure Command extends UserTxs where
  modifying : ttype.modifying

/-- Fee of a multiple transfer, computed without sign. -/
def sendManyFee (t : UserTxs) : UInt64 :=
  let fee := t.toaddresses.foldl (fun fee a =>
    let fee := fee + (txsMptFee a.tmass).toUInt64
    if t.abank ≠ a.tbank then fee + (txsLngFee a.tmass).toUInt64 else fee) 0
  let least := (txsMinMptFee (Int64.ofNat t.toaddresses.length)).toUInt64
  if fee < least then least else fee

def UserTxs.getFee (t : UserTxs) : Int64 :=
  match t.ttype with
  | .bro => txsBroFee (Int64.ofNat t.bbank.toNat)
  | .put =>
      let fee := txsPutFee t.tmass + if t.abank ≠ t.bbank then txsLngFee t.tmass else 0
      if fee < txsMinFee then txsMinFee else fee
  | .mpt => (sendManyFee t).toInt64
  | .usr => if t.abank = t.bbank then txsUsrFee else txsUsrFee + txsRusFee
  | .bnk => txsBnkFee
  | .get => txsGetFee
  | .key => txsKeyFee
  | .bky => txsBkyFee
  | .sus => txsSusFee
  | .sbs => txsSbsFee
  | .uus => txsUusFee
  | .ubs => txsUbsFee
  | .sav => txsSavFee
  | _ => 0

def UserTxs.getDeduct (t : UserTxs) : Int64 :=
  match t.ttype with
  | .put => t.tmass
  | .mpt => t.toaddresses.foldl (fun deduct a => deduct + a.tmass) 0
  | .usr => userMinMass
  | .bnk => bankMinUmass + bankMinTmass
  | _ => 0

/-- The status bits of a status command. -/
def UserTxs.status (t : UserTxs) : UInt32 := t.tmass.toUInt64.toUInt32

namespace Handler

/-- A failing check ends the command. -/
def deny (p : Prop) [Decidable p] (e : ErrorCode) : Except ErrorCode Unit :=
  if p then .error e else .ok ()

@[simp] theorem deny_eq_ok {p : Prop} [Decidable p] {e : ErrorCode} {x : Unit} :
    deny p e = .ok x ↔ ¬ p := by
  unfold deny
  split <;> simp_all

/-- What an account has to keep. -/
def minMass (uid : UInt32) : Int64 := if uid = 0 then bankMinUmass else userMinMass

section Handlers

variable (env : OfficeEnv) (o : OfficeState)

def performCommonValidation (usera : User) (t : UserTxs) : Except ErrorCode Unit := do
  deny (!env.checkSignature t usera.hash usera.pkey) .wrongSignature
  deny (3 < (t.ttime - env.time).toInt32) .timeInFuture
  deny (t.abank ≠ o.svid) .bankNotFound

/-- The balance that a command may spend, less the dormant fee that is due soon. -/
def availableBalance (usera : User) (t : UserTxs) : Int64 :=
  let nextNow := env.last.now + 2 * blockSec
  let available := usera.weight - minMass t.auser
  if nextNow / blockSec % blockDiv = 0 ∧
      (usera.lpath.toNat : Int) < nextNow.toNat - accountDormantAge.toNat then
    available - txsGokFee usera.weight
  else available

def validateModifyingCommand (usera : User) (t : UserTxs) : Except ErrorCode Unit := do
  deny (o.svid = 0) .bankIncorrect
  deny o.readonly .readOnlyMode
  deny (usera.msid ≠ t.amsid) .badMsgId
  deny (t.getDeduct < 0) .amountBelowZero
  deny (t.getFee < 0) .feeBelowZero
  deny (availableBalance env usera t < t.getDeduct + t.getFee) .lowBalance

/-- Targets of a multiple transfer are different and the amounts positive. -/
def checkForDuplicates : List ToAddress → List (UInt16 × UInt32) → Except ErrorCode Unit
  | [], _ => .ok ()
  | a :: rest, seen => do
      deny ((a.tbank, a.tuser) ∈ seen) .duplicatedTarget
      deny (a.tmass ≤ 0) .amountNotPositive
      checkForDuplicates rest ((a.tbank, a.tuser) :: seen)

def validateAccountStatus (t : UserTxs) : Except ErrorCode Unit := do
  deny (!o.checkUser env t.bbank t.buser) .userBadTarget
  deny (t.bbank ≠ o.svid) .accountStatusOnRemoteNode
  deny (t.status.toUInt16 &&& 1 ≠ 0) .authorizationError
  deny (t.auser ≠ 0 ∧ t.auser ≠ t.buser ∧ t.status.toUInt16 &&& 0xFFF0 ≠ 0) .authorizationError

def validateNodeStatus (t : UserTxs) : Except ErrorCode Unit := do
  deny (!o.checkUser env t.bbank 0) .nodeBadTarget
  deny (t.auser ≠ 0) .noNodeStatusChangeAuth
  deny (t.status &&& 7 ≠ 0) .authorizationError

/-- The checks of the single handlers. -/
def onValidate (t : UserTxs) : Except ErrorCode Unit :=
  match t.ttype with
  | .put => deny (!o.checkUser env t.bbank t.buser) .userBadTarget
  | .mpt => checkForDuplicates t.toaddresses []
  | .bro => deny (maxBroadcastLength < t.bbank) .broadcastMaxLength
  | .usr =>
      deny (t.bbank ≠ o.svid ∧ blockSec / 2 < env.time % blockSec) .createAccountBadTiming
  | .get => do
      deny (t.abank = t.bbank) .bankIncorrect
      deny (!o.checkUser env t.bbank t.buser) .userBadTarget
  | .bky => do
      deny (t.bbank = 0 ∧ !env.findKey t.key) .matchSecretKeyNotFound
      deny (t.auser ≠ 0) .badUser
  | .sus | .uus => validateAccountStatus env o t
  | .sbs | .ubs => validateNodeStatus env o t
  | _ => .ok ()

/-- All checks before the execution; the result is the record of the sender. -/
def validate (t : UserTxs) : Except ErrorCode User := do
  match o.getUser env t.abank t.auser with
  | none => .error .getUserFail
  | some usera =>
      performCommonValidation env o usera t
      validateModifyingCommand env o usera t
      onValidate env o t
      return usera

/-- The record of the sender after a command. -/
def committedUser (usera : User) (t : UserTxs) : User :=
  { usera with
    msid := usera.msid + 1
    time := t.ttime
    lpath := env.time - env.time % blockSec
    node := 0
    user := 0
    hash := env.sha256 (bytesLE 32 usera.hash.toNat ++
      bytesLE 32 (env.sha256 (bytesLE 64 t.sig.toNat)).toNat) }

/-- A new key keeps the lock of the account, which other commands clear. -/
def rekeyedUser (usera : User) (t : UserTxs) : User :=
  { committedUser env usera t with node := usera.node, user := usera.user, pkey := t.key }

/-- Append the transaction to the message and store the record of the sender. -/
def submit (nu : User) (t : UserTxs) : Except ErrorCode OfficeState :=
  match o.addMsg env t with
  | none => .error .messageSubmitFail
  | some o => .ok (o.setUser t.auser nu (t.getDeduct + t.getFee))

def commitChanges (usera : User) (t : UserTxs) : Except ErrorCode OfficeState :=
  submit env o (committedUser env usera t) t

end Handlers

/-- The answer to the client and the office after the command. -/
abbrev Reply := Option ErrorCode × OfficeState

/-- A submission that fails leaves the office that it was tried on. -/
def reply (o : OfficeState) : Except ErrorCode OfficeState → Reply
  | .error e => (some e, o)
  | .ok o' => (none, o')

section Handlers

variable (env : OfficeEnv) (o : OfficeState) (usera : User) (t : UserTxs)

def createAccount : Reply :=
  if t.bbank = o.svid then
    let nuser := (o.addUser env t.abank t.npkey t.ttime).1
    let o := (o.addUser env t.abank t.npkey t.ttime).2
    if nuser = 0 then (some .createAccountFail, o)
    else reply o (commitChanges env o usera { t with nuser := nuser })
  else reply o (commitChanges env o usera t)

def changeNodeKey : Reply :=
  if t.bbank ≠ 0 then
    if env.last.nodes.size ≤ t.bbank.toNat then (some .setKeyRemoteBankFail, o)
    else reply o (commitChanges env o usera { t with opkey := (env.last.node t.bbank).pk })
  else
    let rekeyed := { o with pkey := t.key }
    reply rekeyed (commitChanges env rekeyed usera { t with opkey := o.pkey })

/-- The transaction is in the message before the status is tried. -/
def changeAccountStatus (change : OfficeState → Option OfficeState) : Reply :=
  match o.addMsg env t with
  | none => (some .messageSubmitFail, o)
  | some o =>
      match change o with
      | none => (some .statusSubmitFail, o)
      | some o => (none, o.setUser t.auser (committedUser env usera t) (t.getDeduct + t.getFee))

def setAccountStatus : Reply :=
  changeAccountStatus env o usera t (·.setAccountStatus t.buser t.status.toUInt16)

def unsetAccountStatus : Reply :=
  changeAccountStatus env o usera t (·.unsetAccountStatus t.buser t.status.toUInt16)

def sendOne : Reply :=
  reply o do
    let o ← commitChanges env o usera t
    return if t.abank = t.bbank ∧ 0 ≤ t.getDeduct then o.addDeposit t.buser t.getDeduct else o

/-- The targets of a multiple transfer exist and get something. -/
def checkTargets : List ToAddress → Except ErrorCode Unit
  | [] => .ok ()
  | a :: rest => do
      deny (!o.checkUser env a.tbank a.tuser) .userBadTarget
      deny (a.tmass ≤ 0) .amountNotPositive
      checkTargets rest

def sendMany : Reply :=
  reply o do
    checkTargets env o t.toaddresses
    let o ← commitChanges env o usera t
    return t.toaddresses.foldl (fun o a =>
      if a.tbank = o.svid ∧ 0 ≤ a.tmass then o.addDeposit a.tuser a.tmass else o) o

/-- The executions of the single handlers. -/
def onExecute : Reply :=
  match t.ttype with
  | .usr => createAccount env o usera t
  | .bky => changeNodeKey env o usera t
  | .sus => setAccountStatus env o usera t
  | .uus => unsetAccountStatus env o usera t
  | .put => sendOne env o usera t
  | .mpt => sendMany env o usera t
  | .key => reply o (submit env o (rekeyedUser env usera t) t)
  | _ => reply o (commitChanges env o usera t)

/-- A client command from the request to the answer. -/
def execute (t : Command) : Reply :=
  match validate env o t.toUserTxs with
  | .error e => (some e, o)
  | .ok usera => onExecute env o usera t.toUserTxs

/-- The office can append a transaction to its message. -/
def submits : Bool := o.run && env.opens

/-- When the execution of a command that passed the checks keeps the office on an
error. A local account request needs an id other than 0 and a message that accepts
it, or no id and no deleted account to take from the list; a change of the own node
key needs the message or the present key; a status change needs an account with a
message id. -/
def Clean : Prop :=
  match t.ttype with
  | .usr => t.bbank = o.svid →
      match o.queue t.ttime with
      | nuser :: _ => nuser ≠ 0 ∧ submits env o = true
      | [] => if o.users < maxUsers then submits env o = true else o.deletedUsers = []
  | .bky => t.bbank = 0 → submits env o = true ∨ t.key = o.pkey
  | .sus | .uus => submits env o → (o.user t.buser).msid ≠ 0
  | _ => True

end Handlers

/-- An error leaves the office as it was. -/
def Unchanged (o : OfficeState) (r : Reply) : Prop := r.1 ≠ none → r.2 = o

section Unchanged

variable {env : OfficeEnv} {o : OfficeState} {usera : User} {t : UserTxs}

theorem addMsg_of_submits (h : submits env o = true) :
    o.addMsg env t =
      some { o with message := o.message ++ [t], messageTnum := o.messageTnum + 1 } :=
  if_pos h

theorem addMsg_of_not_submits (h : ¬ submits env o = true) : o.addMsg env t = none :=
  if_neg h

theorem reply_unchanged (x : Except ErrorCode OfficeState) : Unchanged o (reply o x) := by
  intro herror
  cases x with
  | error e => rfl
  | ok o' => exact absurd rfl herror

/-- A submission on an office that the handler has changed already is reported as an
error exactly when the message does not take it. -/
theorem reply_commitChanges_unchanged_iff {o' : OfficeState} (hne : o' ≠ o) :
    Unchanged o (reply o' (commitChanges env o' usera t)) ↔ submits env o' = true := by
  unfold commitChanges submit
  by_cases h : submits env o' = true
  · rw [addMsg_of_submits h]
    exact ⟨fun _ => h, fun _ herror => absurd rfl herror⟩
  · rw [addMsg_of_not_submits h]
    exact ⟨fun hsame => absurd (hsame nofun) hne, fun hsubmits => absurd hsubmits h⟩

theorem changeNodeKey_unchanged_iff :
    Unchanged o (changeNodeKey env o usera t) ↔
      (t.bbank = 0 → submits env o ∨ t.key = o.pkey) := by
  unfold changeNodeKey
  by_cases hbank : t.bbank = 0
  · simp only [hbank, ne_eq, not_true_eq_false, if_false, forall_const]
    by_cases hkey : t.key = o.pkey
    · have hsame : { o with pkey := t.key } = o := by rw [hkey]
      rw [hsame]
      exact iff_of_true (reply_unchanged _) (Or.inr hkey)
    · rw [reply_commitChanges_unchanged_iff fun heq => hkey (congrArg OfficeState.pkey heq)]
      simp only [hkey, or_false]
      rfl
  · simp only [hbank, ne_eq, not_false_eq_true, if_true, false_implies, iff_true]
    split
    · exact fun _ => rfl
    · exact reply_unchanged _

theorem changeStatus_eq_none_iff {f : UInt16 → UInt16} {buser : UInt32} :
    o.changeStatus buser f = none ↔ (o.user buser).msid = 0 := by
  unfold OfficeState.changeStatus
  split <;> simp_all

theorem changeAccountStatus_unchanged_iff {f : UInt16 → UInt16} :
    Unchanged o (changeAccountStatus env o usera t (·.changeStatus t.buser f)) ↔
      (submits env o → (o.user t.buser).msid ≠ 0) := by
  unfold changeAccountStatus
  by_cases h : submits env o = true
  · rw [addMsg_of_submits h]
    simp only [h, forall_const]
    generalize ho' : ({ o with
      message := o.message ++ [t], messageTnum := o.messageTnum + 1 } : OfficeState) = o'
    have huser : o'.user t.buser = o.user t.buser := by rw [← ho']; rfl
    have hne : o' ≠ o := by
      rintro rfl
      have hlength := congrArg (List.length ∘ OfficeState.message) ho'
      simp at hlength
    cases hstatus : o'.changeStatus t.buser f with
    | none =>
        rw [changeStatus_eq_none_iff, huser] at hstatus
        exact iff_of_false (fun hsame => hne (hsame (by simp))) (not_not_intro hstatus)
    | some o'' =>
        refine iff_of_true (fun herror => absurd rfl herror) fun hmsid => ?_
        rw [← huser] at hmsid
        rw [changeStatus_eq_none_iff.mpr hmsid] at hstatus
        cases hstatus
  · rw [addMsg_of_not_submits h]
    exact ⟨fun _ hsubmits => absurd hsubmits h, fun _ _ => rfl⟩

theorem createAccount_unchanged_iff (hpos : o.users ≠ 0) :
    Unchanged o (createAccount env o usera t) ↔
      (t.bbank = o.svid →
        match o.queue t.ttime with
        | nuser :: _ => nuser ≠ 0 ∧ submits env o = true
        | [] => if o.users < maxUsers then submits env o = true else o.deletedUsers = []) := by
  unfold createAccount
  by_cases hbank : t.bbank = o.svid
  · simp only [hbank, if_true, forall_const]
    cases hqueue : o.queue t.ttime with
    | cons nuser rest =>
        rw [OfficeState.addUser_of_cons hqueue]
        have hne : ∀ u, o.reuse u hqueue ≠ o := fun u heq =>
          (OfficeState.length_lt_of_queue hqueue).ne
            (congrArg (List.length ∘ OfficeState.deletedUsers) heq)
        by_cases hzero : nuser = 0
        · subst hzero
          simp only [if_true, ne_eq, not_true_eq_false, false_and, iff_false]
          exact fun hsame => hne _ (hsame (by simp))
        · simp only [hzero, if_false, ne_eq, not_false_eq_true, true_and]
          exact reply_commitChanges_unchanged_iff (hne _)
    | nil =>
        by_cases hmax : o.users < maxUsers
        · rw [OfficeState.addUser_of_nil hqueue hmax]
          simp only [hpos, if_false, hmax, if_true]
          refine reply_commitChanges_unchanged_iff fun heq => ?_
          have husers : o.users + 1 = o.users := congrArg OfficeState.users heq
          simp at husers
        · rw [OfficeState.addUser_of_full hqueue hmax]
          simp only [if_true, hmax, if_false]
          constructor
          · exact fun hsame => (congrArg OfficeState.deletedUsers (hsame (by simp))).symm
          · intro hdeleted _
            cases o
            simp_all
  · simp only [hbank, if_false, false_implies, iff_true]
    exact reply_unchanged _

/-- A command that passed the checks comes from an account of the node. -/
theorem users_ne_zero_of_validate (h : validate env o t = .ok usera) : o.users ≠ 0 := by
  unfold validate at h
  split at h
  · cases h
  · rename_i u hget
    obtain ⟨_, hcommon, h⟩ := Lib.bind_eq_ok h
    obtain ⟨_, hmodifying, h⟩ := Lib.bind_eq_ok h
    obtain ⟨_, -, hcommon⟩ := Lib.bind_eq_ok hcommon
    obtain ⟨_, -, hcommon⟩ := Lib.bind_eq_ok hcommon
    obtain ⟨_, hsvid, -⟩ := Lib.bind_eq_ok hmodifying
    have hbank : t.abank = o.svid := not_not.mp (deny_eq_ok.mp hcommon)
    have hsvid : o.svid ≠ 0 := deny_eq_ok.mp hsvid
    simp only [OfficeState.getUser, hbank, ne_eq, not_true_eq_false, if_false, hsvid,
      OfficeState.localUser] at hget
    split at hget
    · cases hget
    · rintro hzero
      simp_all

theorem onExecute_unchanged_iff (hpos : o.users ≠ 0) :
    Unchanged o (onExecute env o usera t) ↔ Clean env o t := by
  unfold onExecute Clean
  cases htype : t.ttype <;> simp only
  case usr => exact createAccount_unchanged_iff hpos
  case bky => exact changeNodeKey_unchanged_iff
  case sus => exact changeAccountStatus_unchanged_iff
  case uus => exact changeAccountStatus_unchanged_iff
  all_goals exact iff_true_intro (reply_unchanged _)

/-- For every office and every modifying command: an error leaves the office
unchanged exactly when the command fails a check before its execution or its
execution is clean. -/
theorem execute_unchanged_iff (env : OfficeEnv) (o : OfficeState) (t : Command) :
    ((execute env o t).1 ≠ none → (execute env o t).2 = o) ↔
      ((validate env o t.toUserTxs).isOk → Clean env o t.toUserTxs) := by
  unfold execute
  cases hvalid : validate env o t.toUserTxs with
  | error e => simp [Except.isOk, Except.toBool]
  | ok usera =>
      simp only [Except.isOk, Except.toBool, forall_const]
      exact onExecute_unchanged_iff (users_ne_zero_of_validate hvalid)

end Unchanged

end Handler

namespace Sample

/-- An office of one account on a disk that takes no further message file. -/
def fullDisk : OfficeEnv where
  sha256 _ := 0
  checkSignature _ _ _ := true
  last := {}
  getUserGlobal _ _ := none
  findKey _ := true
  time := 0
  opens := false

def smallOffice : OfficeState where
  svid := 1
  users := 1
  offifd := Table.ofList [{ msid := 1, weight := 1000000000000 }]
  onFile := by decide
  deleted := by simp

def accountRequest : Command where
  ttype := .usr
  abank := 1
  bbank := 1
  amsid := 1
  modifying := rfl

end Sample

/-- A local account request whose transaction cannot be appended is answered with an
error, and the office has the new account. -/
theorem Handler.execute_error_account_added :
    (execute Sample.fullDisk Sample.smallOffice Sample.accountRequest).1 =
        some .messageSubmitFail ∧
      Sample.smallOffice.users = 1 ∧
      (execute Sample.fullDisk Sample.smallOffice Sample.accountRequest).2.users = 2 := by
  decide +kernel

end Esc
