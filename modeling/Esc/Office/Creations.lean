import Esc.Office.Handlers
import Esc.Server.LoopSpec

/-!
# New account ids in the message

A client that creates an account takes an id from the office in one locked step and
appends its transaction in a later one; a remote request does both in one step. The
network accepts the message only when every new id is at most the number of accounts
it has counted so far, so the ids have to appear in the order they were handed out.

`Creations.run_ordered` proves this for the runs in which a fresh id is appended only
when no older fresh id is outstanding, and its append never fails. That no id is given
twice holds in every run.
-/

namespace Esc

open Lib

variable {o : OfficeState} {a b first nuser time : UInt32} {u : User} {issued : List UInt32}
  {s : Creations} {c : Nat}

/-- The test of a new account id against the accounts counted so far. -/
def nextUsers (users nuser : UInt32) : Option UInt32 :=
  if users < nuser then none else if nuser < users then some users else some (users + 1)

/-- The account count after the creations of a list of transactions. -/
def countUsers (users : UInt32) (txs : List UserTxs) : Option UInt32 :=
  (txs.filterMap UserTxs.created).foldlM nextUsers users

/-- `nextUsers` is the test that processing makes: without it the creation is
rejected at once, and with it the count goes on from its value. -/
theorem createAccount_nextUsers (c : Ctx) (L : Loop) (nuser : UInt32) (mass : Int64)
    (pkey : Hash) (time : UInt32) :
    match nextUsers L.users nuser with
    | none => createAccount c L nuser mass pkey time = .error L
    | some users => ∀ L', createAccount c L nuser mass pkey time = .ok L' → L'.users = users := by
  unfold nextUsers createAccount
  by_cases hgt : L.users < nuser
  · simp only [hgt, if_true]
  · by_cases hlt : nuser < L.users
    · simp only [hgt, hlt, if_true, if_false]
      intro L' h
      split at h
      · cases h
      · cases h
        unfold Loop.fetch
        split <;> rfl
    · simp only [hgt, hlt, if_false]
      intro L' h
      cases h
      rfl

/-- The office, the clients between their two steps, the transactions of the messages
that were sent, and every id that was handed out. -/
structure Creations where
  office : OfficeState
  pending : Nat → Option (User × UserTxs) := fun _ => none
  sent : List UserTxs := []
  issued : List UInt32 := []

inductive CreationEvent where
  /-- A client takes an account id. -/
  | addUser (client : Nat) (env : OfficeEnv) (usera : User) (t : UserTxs)
  /-- A client appends its transaction. -/
  | addMsg (client : Nat) (env : OfficeEnv)
  /-- A remote request. -/
  | addRemoteUser (env : OfficeEnv) (bbank : UInt16) (buser : UInt32) (pkey : Hash)
  /-- The server takes the message. -/
  | send

namespace Creations

/-- The office with an empty message and no client between its steps. -/
def start (o : OfficeState) : Creations where
  office := { o with message := [], messageTnum := 0 }

/-- Hand out an id; 0 is none. -/
def issue (s : Creations) (nuser : UInt32) : List UInt32 :=
  if nuser = 0 then s.issued else nuser :: s.issued

def setPending (s : Creations) (client : Nat) (p : Option (User × UserTxs)) :
    Nat → Option (User × UserTxs) :=
  fun c => if c = client then p else s.pending c

/-- The first step of a local account request. -/
def takeUser (s : Creations) (client : Nat) (env : OfficeEnv) (usera : User) (t : UserTxs) :
    Creations :=
  let r := s.office.addUser env t.abank t.npkey t.ttime
  { s with
    office := r.2
    issued := s.issue r.1
    pending := if r.1 = 0 then s.pending
      else s.setPending client (some (usera, { t with nuser := r.1 })) }

/-- One locked step. An event that does not fit its client, or that waits for room in
the message, changes nothing. -/
def step (s : Creations) : CreationEvent → Creations
  | .addUser client env usera t =>
      if s.pending client = none ∧ t.ttype = .usr ∧ t.abank = s.office.svid ∧
          t.bbank = s.office.svid then s.takeUser client env usera t
      else s
  | .addMsg client env =>
      match s.pending client with
      | some (usera, t) =>
          if s.office.messageTnum < messageTnumMax then
            { s with
              office := (Handler.reply s.office
                (Handler.commitChanges env s.office usera t)).2
              pending := s.setPending client none }
          else s
      | none => s
  | .addRemoteUser env bbank buser pkey =>
      if s.office.messageTnum < messageTnumMax then
        let r := s.office.addRemoteUser env bbank buser pkey
        { s with office := r.2, issued := s.issue r.1 }
      else s
  | .send =>
      { s with
        sent := s.sent ++ s.office.message
        office := { s.office with message := [], messageTnum := 0 } }

def run (s : Creations) (events : List CreationEvent) : Creations := events.foldl step s

/-- The transactions of the node so far, in the order of its messages. -/
def stream (s : Creations) : List UserTxs := s.sent ++ s.office.message

/-- The ids handed out so far: each belongs to a living account and none was given
twice, and only accounts older than the run wait for reuse. -/
structure Issued (first : UInt32) (o : OfficeState) (issued : List UInt32) : Prop where
  first_le : first ≤ o.users
  deleted_lt : ∀ uid ∈ o.deletedUsers, uid < first
  lt : ∀ uid ∈ issued, uid < o.users
  alive : ∀ uid ∈ issued, (o.user uid).stat &&& userStatDeleted = 0
  nodup : issued.Nodup

/-- Steps that keep the accounts, apart from what else their records hold. -/
theorem Issued.congr {o' : OfficeState} (h : Issued first o issued) (husers : o'.users = o.users)
    (hdeleted : o'.deletedUsers = o.deletedUsers)
    (hstat : ∀ uid, (o'.user uid).stat = (o.user uid).stat) : Issued first o' issued where
  first_le := husers ▸ h.first_le
  deleted_lt := hdeleted ▸ h.deleted_lt
  lt := husers ▸ h.lt
  alive := fun uid hmem => (hstat uid) ▸ h.alive uid hmem
  nodup := h.nodup

theorem user_reuse {rest : List UInt32} (h : o.queue time = nuser :: rest) (uid : UInt32) :
    (o.reuse u h).user uid = if uid = nuser then u else o.user uid := by
  have hlt : nuser < o.users :=
    o.deleted _ (OfficeState.mem_of_mem_queue (h ▸ List.mem_cons_self))
  have hsize : nuser.toNat < o.offifd.size :=
    lt_of_lt_of_le (UInt32.lt_iff_toNat_lt.mp hlt) o.onFile
  show (o.offifd.set nuser.toNat u).get uid.toNat = _
  simp only [Table.get_set, hsize, and_true, UInt32.toNat_inj]
  rfl

theorem user_grow (h : o.users < maxUsers) (uid : UInt32) :
    (o.grow u h).user uid = if uid = o.users then u else o.user uid := by
  show (o.offifd.write o.users.toNat u).get uid.toNat = _
  simp only [Table.get_write, UInt32.toNat_inj]
  rfl

theorem setUser_stat (o : OfficeState) (auser : UInt32) (nu : User) (deduct : Int64)
    (uid : UInt32) : ((o.setUser auser nu deduct).user uid).stat = (o.user uid).stat := by
  show ((o.offifd.set auser.toNat _).get uid.toNat).stat = (o.offifd.get uid.toNat).stat
  rw [Table.get_set]
  split
  · rename_i heq
    exact congrArg (fun i => (o.offifd.get i).stat) heq.1.symm
  · rfl

theorem lt_add_one_of_lt_maxUsers (hab : a ≤ b) (h : b < maxUsers) : a < b + 1 := by
  rw [UInt32.lt_iff_toNat_lt, OfficeState.toNat_add_one_of_lt_maxUsers h]
  exact Nat.lt_succ_of_le (UInt32.le_iff_toNat_le.mp hab)

theorem add_one_le_iff (h : a < b) (c : UInt32) : a + 1 ≤ c ↔ a < c := by
  rw [UInt32.lt_iff_toNat_lt] at h ⊢
  simp only [UInt32.le_iff_toNat_le, UInt32.toNat_add, UInt32.reduceToNat]
  have := b.toNat_lt
  omega

theorem lt_or_eq_of_lt_add_one (hab : a < b + 1) (h : b < maxUsers) : a < b ∨ a = b := by
  rw [UInt32.lt_iff_toNat_lt, OfficeState.toNat_add_one_of_lt_maxUsers h] at hab
  rw [UInt32.lt_iff_toNat_lt, ← UInt32.toNat_inj]
  omega

/-- The account at the head of the queue is marked deleted. -/
theorem deleted_of_queue {rest : List UInt32} (h : o.queue time = nuser :: rest) :
    (o.user nuser).stat &&& userStatDeleted ≠ 0 := by
  have hreusable := OfficeState.reusable_of_queue h
  intro hzero
  simp [OfficeState.reusable, hzero] at hreusable

theorem newUser_alive {env : OfficeEnv} {abank : UInt16} {pk : Hash} {uid : UInt32} :
    (o.newUser env abank pk time uid).stat &&& userStatDeleted = 0 := by
  show (0 : UInt16) &&& userStatDeleted = 0
  decide

theorem Issued.cons {uid : UInt32} (h : Issued first o issued) (hlt : uid < o.users)
    (halive : (o.user uid).stat &&& userStatDeleted = 0) (hnew : uid ∉ issued) :
    Issued first o (uid :: issued) where
  first_le := h.first_le
  deleted_lt := h.deleted_lt
  lt := List.forall_mem_cons.mpr ⟨hlt, h.lt⟩
  alive := List.forall_mem_cons.mpr ⟨halive, h.alive⟩
  nodup := List.nodup_cons.mpr ⟨hnew, h.nodup⟩

/-- Taking an id: it is new among those handed out. -/
theorem Issued.addUser (h : Issued first o issued) (env : OfficeEnv) (abank : UInt16) (pk : Hash)
    (time : UInt32) :
    Issued first (o.addUser env abank pk time).2
        (if (o.addUser env abank pk time).1 = 0 then issued
          else (o.addUser env abank pk time).1 :: issued) ∧
      ((o.addUser env abank pk time).1 ≠ 0 → (o.addUser env abank pk time).1 ∉ issued) := by
  cases hqueue : o.queue time with
  | cons nuser rest =>
      rw [OfficeState.addUser_of_cons hqueue]
      have hmem : nuser ∈ o.deletedUsers :=
        OfficeState.mem_of_mem_queue (hqueue ▸ List.mem_cons_self)
      have hnew : nuser ∉ issued := fun hissued =>
        deleted_of_queue hqueue (h.alive nuser hissued)
      have hkeep : Issued first (o.reuse (o.newUser env abank pk time nuser) hqueue) issued := {
        first_le := h.first_le
        deleted_lt := fun uid huid => h.deleted_lt uid
          (OfficeState.mem_of_mem_queue (hqueue ▸ List.mem_cons_of_mem _ huid))
        lt := h.lt
        alive := fun uid huid => by
          rw [user_reuse, if_neg (ne_of_mem_of_not_mem huid hnew)]
          exact h.alive uid huid
        nodup := h.nodup }
      refine ⟨?_, fun _ => hnew⟩
      split
      · exact hkeep
      · refine hkeep.cons (o.deleted nuser hmem) ?_ hnew
        rw [user_reuse, if_pos rfl]
        exact newUser_alive
  | nil =>
      by_cases hmax : o.users < maxUsers
      · rw [OfficeState.addUser_of_nil hqueue hmax]
        have hnew : o.users ∉ issued := fun hissued => UInt32.lt_irrefl _ (h.lt _ hissued)
        have hkeep : Issued first (o.grow (o.newUser env abank pk time o.users) hmax) issued := {
          first_le := UInt32.le_of_lt (lt_add_one_of_lt_maxUsers h.first_le hmax)
          deleted_lt := by simp [OfficeState.grow]
          lt := fun uid huid => lt_add_one_of_lt_maxUsers (UInt32.le_of_lt (h.lt uid huid)) hmax
          alive := fun uid huid => by
            rw [user_grow, if_neg (ne_of_mem_of_not_mem huid hnew)]
            exact h.alive uid huid
          nodup := h.nodup }
        refine ⟨?_, fun _ => hnew⟩
        split
        · exact hkeep
        · refine hkeep.cons (lt_add_one_of_lt_maxUsers (UInt32.le_refl _) hmax) ?_ hnew
          rw [user_grow, if_pos rfl]
          exact newUser_alive
      · rw [OfficeState.addUser_of_full hqueue hmax]
        exact ⟨{ h with deleted_lt := by simp }, fun hne => absurd rfl hne⟩

/-- What taking an id does besides writing a record: the id is old, or it is the
count of accounts and that grows. The message stays. -/
theorem addUser_cases (h : Issued first o issued) (env : OfficeEnv) (abank : UInt16) (pk : Hash)
    (time : UInt32) :
    ((o.addUser env abank pk time).1 < first ∨ (o.addUser env abank pk time).1 = 0) ∧
        (o.addUser env abank pk time).2.users = o.users ∨
      o.queue time = [] ∧ o.users < maxUsers ∧ (o.addUser env abank pk time).1 = o.users ∧
        (o.addUser env abank pk time).2.users = o.users + 1 := by
  cases hqueue : o.queue time with
  | cons nuser rest =>
      rw [OfficeState.addUser_of_cons hqueue]
      refine Or.inl ⟨Or.inl (h.deleted_lt nuser ?_), rfl⟩
      exact OfficeState.mem_of_mem_queue (hqueue ▸ List.mem_cons_self)
  | nil =>
      by_cases hmax : o.users < maxUsers
      · rw [OfficeState.addUser_of_nil hqueue hmax]
        exact Or.inr ⟨rfl, hmax, rfl, rfl⟩
      · rw [OfficeState.addUser_of_full hqueue hmax]
        exact Or.inl ⟨Or.inr rfl, rfl⟩

theorem addUser_message (env : OfficeEnv) (o : OfficeState) (abank : UInt16) (pk : Hash)
    (time : UInt32) :
    (o.addUser env abank pk time).2.message = o.message ∧
      (o.addUser env abank pk time).2.run = o.run := by
  unfold OfficeState.addUser
  split
  · exact ⟨rfl, rfl⟩
  · split <;> exact ⟨rfl, rfl⟩

theorem countUsers_append {txs : List UserTxs} {t : UserTxs} (h : t.created = some nuser) :
    countUsers first (txs ++ [t]) = (countUsers first txs).bind (nextUsers · nuser) := by
  simp [countUsers, List.filterMap_append, h, List.foldlM_append]

/-- The clients between their steps hold different ids that were handed out. -/
structure Holding (s : Creations) : Prop where
  created : ∀ c u t, s.pending c = some (u, t) → t.created = some t.nuser
  issued : ∀ c u t, s.pending c = some (u, t) → t.nuser ∈ s.issued
  inj : ∀ c c' u u' t t', s.pending c = some (u, t) → s.pending c' = some (u', t') →
    t.nuser = t'.nuser → c = c'

/-- The network's count after the stream is `users`, and the fresh ids from there on
are those that clients hold. -/
structure Counted (first users : UInt32) (s : Creations) : Prop where
  count : countUsers first s.stream = some users
  first_le : first ≤ users
  le : users ≤ s.office.users
  held : ∀ n, users ≤ n → n < s.office.users → ∃ c u t, s.pending c = some (u, t) ∧ t.nuser = n
  fresh : ∀ c u t, s.pending c = some (u, t) → first ≤ t.nuser → users ≤ t.nuser

/-- A fresh id is appended only when no older fresh id is outstanding, and its append
succeeds. -/
def Admits (first : UInt32) (s : Creations) : CreationEvent → Prop
  | .addMsg client env => ∀ u t, s.pending client = some (u, t) → first ≤ t.nuser →
      Handler.submits env s.office = true ∧
        ∀ c u' t', s.pending c = some (u', t') → first ≤ t'.nuser → t.nuser ≤ t'.nuser
  | .addRemoteUser env _ _ _ => s.office.queue env.time = [] →
      Handler.submits env s.office = true ∧
        ∀ c u t, s.pending c = some (u, t) → t.nuser < first
  | .addUser .. | .send => True

theorem setPending_eq_some {client : Nat} {p : Option (User × UserTxs)} {q : User × UserTxs} :
    s.setPending client p c = some q ↔
      c = client ∧ p = some q ∨ c ≠ client ∧ s.pending c = some q := by
  unfold setPending
  by_cases h : c = client <;> simp [h]

theorem users_ne_zero (hpos : first ≠ 0) (hids : Issued first s.office s.issued) :
    s.office.users ≠ 0 := by
  intro hzero
  have hle := hids.first_le
  rw [hzero] at hle
  exact hpos (UInt32.le_zero_iff.mp hle)

section TakeUser

variable {users : UInt32} {client : Nat} {env : OfficeEnv} {usera : User} {t : UserTxs}

theorem takeUser_holding (hids : Issued first s.office s.issued) (h : Holding s)
    (htype : t.ttype = .usr) (hbank : t.abank = t.bbank) :
    Holding (s.takeUser client env usera t) := by
  have hnew := (hids.addUser env t.abank t.npkey t.ttime).2
  unfold takeUser issue
  generalize s.office.addUser env t.abank t.npkey t.ttime = r at hnew
  by_cases hzero : r.1 = 0
  · simp only [hzero, if_true]
    exact ⟨h.created, h.issued, h.inj⟩
  · simp only [hzero, if_false]
    constructor
    · rintro c u t' hp
      obtain ⟨-, heq⟩ | ⟨-, hp⟩ := setPending_eq_some.mp hp
      · cases heq
        simp [UserTxs.created, htype, hbank]
      · exact h.created c u t' hp
    · rintro c u t' hp
      obtain ⟨-, heq⟩ | ⟨-, hp⟩ := setPending_eq_some.mp hp
      · cases heq
        exact List.mem_cons_self
      · exact List.mem_cons_of_mem _ (h.issued c u t' hp)
    · rintro c c' u u' t₁ t₂ hp hp' heq
      obtain ⟨rfl, h₁⟩ | ⟨-, hq⟩ := setPending_eq_some.mp hp <;>
        obtain ⟨rfl, h₂⟩ | ⟨-, hq'⟩ := setPending_eq_some.mp hp'
      · rfl
      · cases h₁
        have heq : r.1 = t₂.nuser := heq
        exact absurd (heq ▸ h.issued c' u' t₂ hq') (hnew hzero)
      · cases h₂
        have heq : t₁.nuser = r.1 := heq
        exact absurd (heq ▸ h.issued c u t₁ hq) (hnew hzero)
      · exact h.inj c c' u u' t₁ t₂ hq hq' heq

theorem takeUser_pending_of_some (hnone : s.pending client = none) {p : User × UserTxs}
    (hp : s.pending c = some p) :
    (s.takeUser client env usera t).pending c = some p := by
  unfold takeUser
  dsimp only
  split
  · exact hp
  · refine setPending_eq_some.mpr (Or.inr ⟨?_, hp⟩)
    rintro rfl
    cases hnone.symm.trans hp

/-- The new client holds the id that the office gave. -/
theorem takeUser_pending_cases {t' : UserTxs}
    (hp : (s.takeUser client env usera t).pending c = some (u, t')) :
    s.pending c = some (u, t') ∨
      c = client ∧ (s.office.addUser env t.abank t.npkey t.ttime).1 ≠ 0 ∧
        t'.nuser = (s.office.addUser env t.abank t.npkey t.ttime).1 := by
  unfold takeUser at hp
  dsimp only at hp
  split at hp
  · exact Or.inl hp
  · rename_i hne
    obtain ⟨hc, heq⟩ | ⟨-, hp⟩ := setPending_eq_some.mp hp
    · cases heq
      exact Or.inr ⟨hc, hne, rfl⟩
    · exact Or.inl hp

theorem takeUser_counted (hpos : first ≠ 0) (hids : Issued first s.office s.issued)
    (h : Counted first users s) (hnone : s.pending client = none) :
    Counted first users (s.takeUser client env usera t) := by
  have hstream : (s.takeUser client env usera t).stream = s.stream :=
    congrArg (s.sent ++ ·) (addUser_message env s.office t.abank t.npkey t.ttime).1
  have hoffice : (s.takeUser client env usera t).office =
    (s.office.addUser env t.abank t.npkey t.ttime).2 := rfl
  have hheld : ∀ n, users ≤ n → n < s.office.users →
      ∃ c u t', (s.takeUser client env usera t).pending c = some (u, t') ∧ t'.nuser = n := by
    intro n hn hlt
    obtain ⟨c, u, t', hp, hnuser⟩ := h.held n hn hlt
    exact ⟨c, u, t', takeUser_pending_of_some hnone hp, hnuser⟩
  obtain ⟨hold, husers⟩ | ⟨-, hmax, hid, husers⟩ := addUser_cases hids env t.abank t.npkey t.ttime
  · refine ⟨hstream ▸ h.count, h.first_le, ?_, ?_, ?_⟩
    · rw [hoffice, husers]
      exact h.le
    · rw [hoffice, husers]
      exact hheld
    · intro c u t' hp hfresh
      obtain hp | ⟨-, hne, hid⟩ := takeUser_pending_cases hp
      · exact h.fresh c u t' hp hfresh
      · rw [hid] at hfresh
        exact absurd hfresh (UInt32.not_le.mpr (hold.resolve_right hne))
  · have hne : s.office.users ≠ 0 := users_ne_zero hpos hids
    refine ⟨hstream ▸ h.count, h.first_le, ?_, ?_, ?_⟩
    · rw [hoffice, husers]
      exact UInt32.le_of_lt (lt_add_one_of_lt_maxUsers h.le hmax)
    · rw [hoffice, husers]
      intro n hn hlt
      rcases lt_or_eq_of_lt_add_one hlt hmax with hlt | rfl
      · exact hheld n hn hlt
      · refine ⟨client, usera, { t with nuser := s.office.users }, ?_, rfl⟩
        unfold takeUser
        simp only [hid, hne, if_false]
        exact setPending_eq_some.mpr (Or.inl ⟨rfl, rfl⟩)
    · intro c u t' hp hfresh
      obtain hp | ⟨-, -, hid'⟩ := takeUser_pending_cases hp
      · exact h.fresh c u t' hp hfresh
      · rw [hid', hid]
        exact h.le

end TakeUser

section AddMsg

variable {users : UInt32} {client : Nat} {env : OfficeEnv} {usera : User} {t : UserTxs}

/-- The office after a client has tried to append its transaction. -/
def committed (s : Creations) (env : OfficeEnv) (usera : User) (t : UserTxs) : OfficeState :=
  (Handler.reply s.office (Handler.commitChanges env s.office usera t)).2

theorem committed_of_submits (h : Handler.submits env s.office = true) :
    s.committed env usera t =
      OfficeState.setUser
        { s.office with
          message := s.office.message ++ [t]
          messageTnum := s.office.messageTnum + 1 }
        t.auser (Handler.committedUser env usera t) (t.getDeduct + t.getFee) := by
  unfold committed Handler.commitChanges Handler.submit
  rw [Handler.addMsg_of_submits h]
  rfl

theorem committed_of_not_submits (h : ¬ Handler.submits env s.office = true) :
    s.committed env usera t = s.office := by
  unfold committed Handler.commitChanges Handler.submit
  rw [Handler.addMsg_of_not_submits h]
  rfl

theorem committed_users : (s.committed env usera t).users = s.office.users := by
  by_cases h : Handler.submits env s.office = true
  · rw [committed_of_submits h]
    rfl
  · rw [committed_of_not_submits h]

theorem committed_issued (h : Issued first s.office s.issued) :
    Issued first (s.committed env usera t) s.issued := by
  by_cases hsubmits : Handler.submits env s.office = true
  · rw [committed_of_submits hsubmits]
    exact h.congr rfl rfl fun uid => setUser_stat _ _ _ _ uid
  · rw [committed_of_not_submits hsubmits]
    exact h

theorem drop_holding (h : Holding s) :
    Holding { s with office := o, pending := s.setPending client none } := by
  have hold : ∀ {c p}, s.setPending client none c = some p → s.pending c = some p := by
    intro c p hp
    obtain ⟨-, heq⟩ | ⟨-, hp⟩ := setPending_eq_some.mp hp
    · cases heq
    · exact hp
  exact ⟨fun c u t hp => h.created c u t (hold hp), fun c u t hp => h.issued c u t (hold hp),
    fun c c' u u' t t' hp hp' => h.inj c c' u u' t t' (hold hp) (hold hp')⟩

/-- A fresh id that another client holds is still held. -/
theorem held_of_ne (hp : s.pending client = some (usera, t)) {n : UInt32} (hne : t.nuser ≠ n)
    (h : ∃ c u t', s.pending c = some (u, t') ∧ t'.nuser = n) :
    ∃ c u t', s.setPending client none c = some (u, t') ∧ t'.nuser = n := by
  obtain ⟨c, u, t', hp', hnuser⟩ := h
  refine ⟨c, u, t', setPending_eq_some.mpr (Or.inr ⟨?_, hp'⟩), hnuser⟩
  rintro rfl
  cases hp.symm.trans hp'
  exact hne hnuser

theorem stream_committed (h : Handler.submits env s.office = true) (p) :
    stream { s with office := s.committed env usera t, pending := p } = s.stream ++ [t] := by
  rw [committed_of_submits h]
  exact (List.append_assoc _ _ _).symm

theorem nextUsers_of_lt {n : UInt32} (h : n < users) : nextUsers users n = some users := by
  unfold nextUsers
  rw [if_neg (UInt32.not_lt.mpr (UInt32.le_of_lt h)), if_pos h]

theorem nextUsers_self (n : UInt32) : nextUsers n n = some (n + 1) := by
  simp [nextUsers]

/-- Appending an id that is not fresh, or losing it, does not change the count. -/
theorem addMsg_counted_of_old (h : Counted first users s) (hhold : Holding s)
    (hp : s.pending client = some (usera, t)) (hlt : t.nuser < first) :
    Counted first users
      { s with office := s.committed env usera t, pending := s.setPending client none } := by
  have hltusers : t.nuser < users := UInt32.lt_of_lt_of_le hlt h.first_le
  refine ⟨?_, h.first_le, ?_, ?_, ?_⟩
  · by_cases hsubmits : Handler.submits env s.office = true
    · rw [stream_committed hsubmits, countUsers_append (hhold.created _ _ _ hp), h.count]
      exact nextUsers_of_lt hltusers
    · rw [committed_of_not_submits hsubmits]
      exact h.count
  · rw [committed_users]
    exact h.le
  · intro n hn hlt'
    rw [committed_users] at hlt'
    refine held_of_ne hp ?_ (h.held n hn hlt')
    rintro rfl
    exact absurd hn (UInt32.not_le.mpr hltusers)
  · intro c u t' hp' hfresh
    obtain ⟨-, heq⟩ | ⟨-, hp'⟩ := setPending_eq_some.mp hp'
    · cases heq
    · exact h.fresh c u t' hp' hfresh

/-- Appending the oldest outstanding fresh id raises the count by one. -/
theorem addMsg_counted_of_fresh (h : Counted first users s) (hids : Issued first s.office s.issued)
    (hhold : Holding s)
    (hp : s.pending client = some (usera, t)) (hfresh : first ≤ t.nuser)
    (hsubmits : Handler.submits env s.office = true)
    (holdest : ∀ c u t', s.pending c = some (u, t') → first ≤ t'.nuser → t.nuser ≤ t'.nuser) :
    Counted first (users + 1)
      { s with office := s.committed env usera t, pending := s.setPending client none } := by
  have hlt : t.nuser < s.office.users := hids.lt _ (hhold.issued _ _ _ hp)
  have hle : users ≤ t.nuser := h.fresh _ _ _ hp hfresh
  obtain rfl : t.nuser = users := by
    obtain ⟨c, u, t', hp', hnuser⟩ := h.held users (UInt32.le_refl _)
      (UInt32.lt_of_le_of_lt hle hlt)
    refine UInt32.le_antisymm ?_ hle
    exact hnuser ▸ holdest c u t' hp' (hnuser ▸ h.first_le)
  have hsucc : ∀ n, t.nuser < n ↔ t.nuser + 1 ≤ n := fun n => (add_one_le_iff hlt n).symm
  refine ⟨?_, ?_, ?_, ?_, ?_⟩
  · rw [stream_committed hsubmits, countUsers_append (hhold.created _ _ _ hp), h.count]
    exact nextUsers_self _
  · exact UInt32.le_trans h.first_le (UInt32.le_of_lt ((hsucc _).mpr (UInt32.le_refl _)))
  · rw [committed_users]
    exact (hsucc _).mp hlt
  · intro n hn hlt'
    rw [committed_users] at hlt'
    have hlt'' := (hsucc n).mpr hn
    refine held_of_ne hp (UInt32.ne_of_lt hlt'') (h.held n (UInt32.le_of_lt hlt'') hlt')
  · intro c u t' hp' hfresh'
    obtain ⟨-, heq⟩ | ⟨hne, hp'⟩ := setPending_eq_some.mp hp'
    · cases heq
    · refine (hsucc _).mp (UInt32.lt_of_le_of_ne (h.fresh c u t' hp' hfresh') fun heq => hne ?_)
      exact hhold.inj c client u usera t' t hp' hp heq.symm

end AddMsg

section Remote

variable {users : UInt32} {env : OfficeEnv} {bbank : UInt16} {buser : UInt32} {pkey : Hash}

theorem tryAccount_eq (o : OfficeState) (key : Hash) :
    ∃ accounts, (o.tryAccount key).2 = { o with accounts := accounts } := by
  unfold OfficeState.tryAccount
  split
  · exact ⟨_, rfl⟩
  · split
    · exact ⟨_, rfl⟩
    · exact ⟨_, rfl⟩

/-- A remote request takes an id as a local one does and may append its
confirmation; the accounts stay as the id left them. -/
theorem openRemote_eq (env : OfficeEnv) (o : OfficeState) (bbank : UInt16) (buser : UInt32)
    (pkey : Hash) :
    (o.openRemote env bbank buser pkey).1 = (o.addUser env bbank pkey env.time).1 ∧
    ∃ txs tnum accounts, (o.openRemote env bbank buser pkey).2 =
        { (o.addUser env bbank pkey env.time).2 with
          message := o.message ++ txs, messageTnum := tnum, accounts := accounts } ∧
      (txs = [] ∧ ((o.addUser env bbank pkey env.time).1 = 0 ∨ ¬ Handler.submits env o = true) ∨
        ∃ t, txs = [t] ∧ t.created = some (o.addUser env bbank pkey env.time).1) := by
  obtain ⟨hmessage, hrun⟩ := addUser_message env o bbank pkey env.time
  unfold OfficeState.openRemote
  dsimp only
  generalize o.addUser env bbank pkey env.time = r at hmessage hrun
  by_cases hzero : r.1 = 0
  · rw [if_pos hzero]
    refine ⟨hzero.symm, [], r.2.messageTnum, r.2.accounts, ?_, Or.inl ⟨rfl, Or.inl hzero⟩⟩
    rw [List.append_nil, ← hmessage]
  · rw [if_neg hzero]
    by_cases hsubmits : Handler.submits env r.2 = true
    · rw [Handler.addMsg_of_submits hsubmits]
      refine ⟨rfl, [r.2.uokTxs env r.1 bbank buser pkey], r.2.messageTnum + 1,
        (pkey, r.1) :: r.2.accounts, ?_, Or.inr ⟨_, rfl, rfl⟩⟩
      rw [← hmessage]
    · rw [Handler.addMsg_of_not_submits hsubmits]
      refine ⟨rfl, [], r.2.messageTnum, r.2.accounts, ?_, Or.inl ⟨rfl, Or.inr ?_⟩⟩
      · rw [List.append_nil, ← hmessage]
      · rwa [Handler.submits, hrun] at hsubmits

theorem openRemote_counted (hpos : first ≠ 0) (hids : Issued first s.office s.issued)
    (h : Counted first users s)
    (hadmits : s.office.queue env.time = [] → Handler.submits env s.office = true ∧
      ∀ c u t, s.pending c = some (u, t) → t.nuser < first) (issued : List UInt32) :
    ∃ users', Counted first users'
      { s with office := (s.office.openRemote env bbank buser pkey).2, issued := issued } := by
  obtain ⟨-, txs, tnum, accounts, hoffice, htxs⟩ := openRemote_eq env s.office bbank buser pkey
  rw [hoffice]
  have hstream : s.sent ++ (s.office.message ++ txs) = s.stream ++ txs :=
    (List.append_assoc _ _ _).symm
  obtain ⟨hold, husers⟩ | ⟨hqueue, hmax, hid, husers⟩ := addUser_cases hids env bbank pkey env.time
  · refine ⟨users, ?_, h.first_le, husers.symm ▸ h.le, ?_, h.fresh⟩
    · show countUsers first (s.sent ++ (s.office.message ++ txs)) = some users
      rw [hstream]
      obtain ⟨rfl, -⟩ | ⟨t, rfl, hcreated⟩ := htxs
      · rw [List.append_nil]
        exact h.count
      · have hlt : (s.office.addUser env bbank pkey env.time).1 < first := by
          obtain hlt | hzero := hold
          · exact hlt
          · rw [hzero]
            exact UInt32.pos_iff_ne_zero.mpr hpos
        rw [countUsers_append hcreated, h.count]
        exact nextUsers_of_lt (UInt32.lt_of_lt_of_le hlt h.first_le)
    · intro n hn hlt
      exact h.held n hn (husers ▸ hlt)
  · obtain ⟨hsubmits, hnofresh⟩ := hadmits hqueue
    obtain rfl : users = s.office.users := by
      refine UInt32.le_antisymm h.le (UInt32.not_lt.mp fun hlt => ?_)
      obtain ⟨c, u, t, hp, hnuser⟩ := h.held users (UInt32.le_refl _) hlt
      have hfresh := hnofresh c u t hp
      rw [hnuser] at hfresh
      exact absurd h.first_le (UInt32.not_le.mpr hfresh)
    have hlt := lt_add_one_of_lt_maxUsers (UInt32.le_refl s.office.users) hmax
    refine ⟨s.office.users + 1, ?_, UInt32.le_trans h.first_le (UInt32.le_of_lt hlt), ?_, ?_, ?_⟩
    · show countUsers first (s.sent ++ (s.office.message ++ txs)) = some (s.office.users + 1)
      rw [hstream]
      obtain ⟨-, hfail⟩ | ⟨t, rfl, hcreated⟩ := htxs
      · obtain hzero | hnot := hfail
        · exact absurd (hid.symm.trans hzero) (users_ne_zero hpos hids)
        · exact absurd hsubmits hnot
      · rw [countUsers_append hcreated, h.count, hid]
        exact nextUsers_self _
    · exact husers ▸ UInt32.le_refl _
    · intro n hn hlt'
      exact absurd hn (UInt32.not_le.mpr (husers ▸ hlt'))
    · intro c u t hp hfresh
      exact absurd hfresh (UInt32.not_le.mpr (hnofresh c u t hp))

end Remote

/-- What holds in every run: ids are handed out once, and the clients hold
different ones. -/
structure Distinct (first : UInt32) (s : Creations) : Prop where
  ids : Issued first s.office s.issued
  holding : Holding s

theorem start_pending (o : OfficeState) (c : Nat) (p : User × UserTxs) :
    (start o).pending c ≠ some p :=
  (Option.some_ne_none p).symm

theorem start_distinct (o : OfficeState) : Distinct o.users (start o) where
  ids := ⟨UInt32.le_refl _, o.deleted, by simp [start], by simp [start], List.nodup_nil⟩
  holding := ⟨fun c _ _ hp => absurd hp (start_pending o c _),
    fun c _ _ hp => absurd hp (start_pending o c _),
    fun c _ _ _ _ _ hp => absurd hp (start_pending o c _)⟩

theorem Holding.mono (h : Holding s) (hsub : ∀ uid ∈ s.issued, uid ∈ issued) :
    Holding { s with office := o, issued := issued } :=
  ⟨h.created, fun c u t hp => hsub _ (h.issued c u t hp), h.inj⟩

theorem subset_issue (s : Creations) (nuser : UInt32) : ∀ uid ∈ s.issued, uid ∈ s.issue nuser := by
  intro uid hmem
  unfold issue
  split
  · exact hmem
  · exact List.mem_cons_of_mem _ hmem

section Step

variable {users : UInt32}

theorem addRemoteUser_cases (env : OfficeEnv) (o : OfficeState) (bbank : UInt16) (buser : UInt32)
    (pkey : Hash) :
    ∃ accounts, o.addRemoteUser env bbank buser pkey = (0, { o with accounts := accounts }) ∨
      o.addRemoteUser env bbank buser pkey =
        { o with accounts := accounts }.openRemote env bbank buser pkey := by
  unfold OfficeState.addRemoteUser
  obtain ⟨accounts, heq⟩ := tryAccount_eq o pkey
  split
  · exact ⟨o.accounts, Or.inl rfl⟩
  · refine ⟨accounts, ?_⟩
    rw [heq]
    split
    · exact Or.inr rfl
    · exact Or.inl rfl

theorem openRemote_issued (h : Issued first o issued) (env : OfficeEnv) (bbank : UInt16)
    (buser : UInt32) (pkey : Hash) :
    Issued first (o.openRemote env bbank buser pkey).2
      (if (o.openRemote env bbank buser pkey).1 = 0 then issued
        else (o.openRemote env bbank buser pkey).1 :: issued) := by
  obtain ⟨hid, txs, tnum, accounts, hoffice, -⟩ := openRemote_eq env o bbank buser pkey
  rw [hid, hoffice]
  exact (h.addUser env bbank pkey env.time).1.congr rfl rfl fun _ => rfl

theorem step_distinct (h : Distinct first s) (event : CreationEvent) :
    Distinct first (s.step event) := by
  cases event with
  | addUser client env usera t =>
      simp only [step]
      split
      · rename_i hfits
        refine ⟨(h.ids.addUser env t.abank t.npkey t.ttime).1, ?_⟩
        exact takeUser_holding h.ids h.holding hfits.2.1 (hfits.2.2.1.trans hfits.2.2.2.symm)
      · exact h
  | addMsg client env =>
      simp only [step]
      split
      · split
        · exact ⟨committed_issued h.ids, drop_holding h.holding⟩
        · exact h
      · exact h
  | addRemoteUser env bbank buser pkey =>
      simp only [step]
      split
      · refine ⟨?_, h.holding.mono (subset_issue s _)⟩
        obtain ⟨accounts, heq | heq⟩ := addRemoteUser_cases env s.office bbank buser pkey
        · rw [heq]
          exact h.ids.congr rfl rfl fun _ => rfl
        · rw [heq]
          have hids : Issued first { s.office with accounts := accounts } s.issued :=
            h.ids.congr rfl rfl fun _ => rfl
          exact openRemote_issued hids env bbank buser pkey
      · exact h
  | send =>
    exact ⟨h.ids.congr rfl rfl fun _ => rfl, h.holding.created, h.holding.issued, h.holding.inj⟩

theorem step_counted (hpos : first ≠ 0) (hdistinct : Distinct first s) (h : Counted first users s)
    {event : CreationEvent} (hadmits : s.Admits first event) :
    ∃ users', Counted first users' (s.step event) := by
  cases event with
  | addUser client env usera t =>
      simp only [step]
      split
      · rename_i hfits
        exact ⟨users, takeUser_counted hpos hdistinct.ids h hfits.1⟩
      · exact ⟨users, h⟩
  | addMsg client env =>
      simp only [step]
      split
      · rename_i usera t hp
        split
        · by_cases hfresh : first ≤ t.nuser
          · obtain ⟨hsubmits, holdest⟩ := hadmits usera t hp hfresh
            exact ⟨users + 1, addMsg_counted_of_fresh h hdistinct.ids hdistinct.holding hp hfresh
              hsubmits holdest⟩
          · exact ⟨users, addMsg_counted_of_old h hdistinct.holding hp (UInt32.not_le.mp hfresh)⟩
        · exact ⟨users, h⟩
      · exact ⟨users, h⟩
  | addRemoteUser env bbank buser pkey =>
      simp only [step]
      split
      · obtain ⟨accounts, heq | heq⟩ := addRemoteUser_cases env s.office bbank buser pkey
        · rw [heq]
          exact ⟨users, h.count, h.first_le, h.le, h.held, h.fresh⟩
        · rw [heq]
          have hids : Issued first { s.office with accounts := accounts } s.issued :=
            hdistinct.ids.congr rfl rfl fun _ => rfl
          exact openRemote_counted
            (s := { s with office := { s.office with accounts := accounts } })
            hpos hids ⟨h.count, h.first_le, h.le, h.held, h.fresh⟩ hadmits _
      · exact ⟨users, h⟩
  | send =>
      refine ⟨users, ?_, h.first_le, h.le, h.held, h.fresh⟩
      show countUsers first (s.sent ++ s.office.message ++ []) = some users
      rw [List.append_nil]
      exact h.count

end Step

/-- In every run of account creations in which a fresh id is appended only when no
older fresh id is outstanding, and its append succeeds: the network's test accepts
every new id of the node's messages, and no id was handed out twice. -/
theorem run_ordered (o : OfficeState) (hpos : o.users ≠ 0) (events : List CreationEvent)
    (hadmits : ∀ pre event post, events = pre ++ event :: post →
      ((start o).run pre).Admits o.users event) :
    (countUsers o.users ((start o).run events).stream).isSome ∧
      ((start o).run events).issued.Nodup := by
  have hinv : Distinct o.users ((start o).run events) ∧
      ∃ users, Counted o.users users ((start o).run events) := by
    refine foldl_reached (fun s => Distinct o.users s ∧ ∃ users, Counted o.users users s)
      ⟨start_distinct o, o.users, ?_⟩ ?_
    · exact ⟨rfl, UInt32.le_refl _, UInt32.le_refl _,
        fun n hn hlt => absurd hn (UInt32.not_le.mpr hlt),
        fun c _ _ hp => absurd hp (start_pending o c _)⟩
    · rintro pre event post hevents ⟨hdistinct, users, hcounted⟩
      exact ⟨step_distinct hdistinct event,
        step_counted hpos hdistinct hcounted (hadmits pre event post hevents)⟩
  obtain ⟨hdistinct, users, hcounted⟩ := hinv
  exact ⟨by rw [hcounted.count]; rfl, hdistinct.ids.nodup⟩

end Creations

namespace Sample

def openDisk : OfficeEnv := { fullDisk with opens := true }

/-- A client takes an account id. -/
def takes (client : Nat) : CreationEvent :=
  .addUser client openDisk (smallOffice.user 0) accountRequest.toUserTxs

end Sample

namespace Creations

/-- What two clients hold that have taken their ids one after the other. -/
theorem pending_takes {t : UserTxs}
   
    (h : ((start Sample.smallOffice).run [Sample.takes 0, Sample.takes 1]).pending c =
      some (u, t)) :
    c = 0 ∧ t.nuser = 1 ∨ c = 1 ∧ t.nuser = 2 := by
  obtain h | ⟨hc, -, hid⟩ := takeUser_pending_cases h
  · obtain hnone | ⟨hc, -, hid⟩ := takeUser_pending_cases h
    · exact absurd hnone (start_pending _ _ _)
    · exact .inl ⟨hc, hid⟩
  · exact .inr ⟨hc, hid⟩

/-- Two clients that take ids and append them in the same order. -/
theorem run_ordered_two :
    (countUsers 1 ((start Sample.smallOffice).run
        [Sample.takes 0, Sample.takes 1, .addMsg 0 Sample.openDisk,
          .addMsg 1 Sample.openDisk]).stream).isSome ∧
      ((start Sample.smallOffice).run
        [Sample.takes 0, Sample.takes 1, .addMsg 0 Sample.openDisk,
          .addMsg 1 Sample.openDisk]).issued.Nodup := by
  refine run_ordered Sample.smallOffice (by decide) _ ?_
  rintro pre event post hevents
  rcases pre with _ | ⟨_, _ | ⟨_, _ | ⟨_, _ | ⟨_, _ | _⟩⟩⟩⟩ <;> cases hevents
  · trivial
  · trivial
  · intro u t hp hfresh
    refine ⟨rfl, fun c u' t' hp' hfresh' => ?_⟩
    obtain ⟨-, hid⟩ | ⟨hc, -⟩ := pending_takes hp
    · rw [hid]
      exact hfresh'
    · cases hc
  · intro u t hp hfresh
    -- the first client has appended, so only the second one holds an id
    have hheld {c : Nat} {u : User} {t : UserTxs} (h : ((start Sample.smallOffice).run
        [Sample.takes 0, Sample.takes 1, .addMsg 0 Sample.openDisk]).pending c = some (u, t)) :
        t.nuser = 2 := by
      obtain ⟨-, hnone⟩ | ⟨hc, h⟩ := setPending_eq_some.mp h
      · cases hnone
      · obtain ⟨hc', -⟩ | ⟨-, hid⟩ := pending_takes h
        · exact absurd hc' hc
        · exact hid
    refine ⟨by decide +kernel, fun c u' t' hp' _ => ?_⟩
    rw [hheld hp, hheld hp']
    exact UInt32.le_refl _

/-- Two clients take ids and the second one appends first: the network's test rejects
the message. -/
theorem run_not_ordered :
    countUsers Sample.smallOffice.users ((start Sample.smallOffice).run
      [Sample.takes 0, Sample.takes 1, .addMsg 1 Sample.openDisk]).stream = none := by
  decide +kernel

end Creations

end Esc
