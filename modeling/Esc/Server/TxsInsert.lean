import Esc.Lib.Neighbours
import Esc.Message.Wire

/-!
# Messages on their way into a block

`txs_msgs_` holds, in the order of a 64-bit key, the announced and the received
messages of the block. The key ends in one byte of the message hash, so several
versions of one message can be stored, next to each other. `txs_insert` compares a
new version with a neighbour, and two full versions make the node a double spender.

Queues, files and the list of bad messages are left out.
-/

namespace Esc

open Lib

def headerLength : Nat := 8

/-- An entry of `txs_msgs_`. It has its data exactly when it is longer than a
header. -/
structure TxsMsg where
  svid : UInt16
  msid : UInt32
  /-- The byte `hash.dat[0]`. -/
  hashval : UInt8
  sigh : Hash
  len : Nat
  /-- The node that sent it. -/
  peer : UInt16
  /-- `MSGSTAT_COM`: committed. -/
  com : Bool := false
  /-- `MSGSTAT_VAL`: validated. -/
  val : Bool := false
deriving DecidableEq, Repr

namespace TxsMsg

/-- `hash.num`: the bytes are the hash byte, the type, the message id and the node id. -/
def num (m : TxsMsg) : UInt64 :=
  .ofNat (m.hashval.toNat + 2 ^ 8 * msgtypeMsg.toNat + 2 ^ 16 * m.msid.toNat +
    2 ^ 48 * m.svid.toNat)

abbrev full (m : TxsMsg) : Prop := headerLength < m.len

def update (osg msg : TxsMsg) : TxsMsg :=
  { osg with len := msg.len, sigh := msg.sigh, peer := msg.peer }

end TxsMsg

/-- The test for two versions of one message. -/
def sameMessage (a b : UInt64) : Bool := a &&& 0xFFFFFFFFFFFF0000 == b &&& 0xFFFFFFFFFFFF0000

/-- The byte of a message hash that the node puts into keys. -/
def Txs.hashval (mysvid : UInt16) (sigh : Hash) : UInt8 :=
  (hashBytes sigh).getD (mysvid.toNat % 32) 0

/-- How an insertion can end the process. -/
inductive TxsStop where
  | assertion
  /-- The node's own double spend. -/
  | exit
deriving DecidableEq, Repr

/-- The state that insertions use, outside sync mode and within one block. -/
structure Txs where
  /-- `opts_.svid`. -/
  own : UInt16
  /-- `last_srvs_.nodes[].msid`. -/
  lastMsid : UInt16 → UInt32
  /-- The double spend bit of `last_srvs_.nodes[].status`. -/
  lastDbl : UInt16 → Bool
  /-- `srvs_.nodes[].msid`. -/
  msid : UInt16 → UInt32
  /-- `txs_msgs_`. -/
  msgs : Map UInt64 TxsMsg
  /-- `dbl_srvs_`. -/
  dblSrvs : UInt16 → Bool

namespace Txs

variable (s : Txs)

def knownDbl (svid : UInt16) : Bool := s.dblSrvs svid

/-- The versions that the loop of `message_svidmsid` meets. They are adjacent. -/
def versions (svid : UInt16) (msid : UInt32) : List TxsMsg :=
  (s.msgs.filter fun _ m => m.svid = svid ∧ m.msid = msid).toList.map Prod.snd

def messageSvidmsid (svid : UInt16) (msid : UInt32) : Option TxsMsg :=
  match (s.versions svid msid).find? (·.com) with
  | some m => some m
  | none => (s.versions svid msid).foldl
      (fun me m => if m.full ∨ me.isNone then some m else me) none

/-- The version is found and has its data or is validated. -/
def hasPrevious (svid : UInt16) (msid : UInt32) : Bool :=
  (s.messageSvidmsid svid (msid - 1)).any fun m => m.full ∨ m.val

def createDoubleSpendProof (msg1 msg2 : TxsMsg) : Except TxsStop Txs :=
  if msg1.svid ≠ msg2.svid ∨ msg1.msid ≠ msg2.msid ∨ msg1.sigh = msg2.sigh then .error .assertion
  else if msg2.svid = s.own then .error .exit
  else if s.knownDbl msg2.svid then .ok s
  else if msg1.msid ≤ s.lastMsid msg1.svid then .ok s
  else if msg2.msid = 1 ∨ msg2.msid - 1 = s.lastMsid msg2.svid ∨ s.hasPrevious msg2.svid msg2.msid
  then .ok { s with dblSrvs := Function.update s.dblSrvs msg1.svid true }
  else .ok s

/-- The neighbour that `check_dbl` compares with: the one before when it is a version
of the same message, else the one after. -/
def examined (num : UInt64) : Option TxsMsg :=
  match (s.msgs.before num).filter (sameMessage ·.1 num) with
  | some pre => some pre.2
  | none => ((s.msgs.after num).filter (sameMessage ·.1 num)).map Prod.snd

def checkDbl (msg : TxsMsg) : Except TxsStop (Txs × Int) :=
  match s.examined msg.num with
  | none => .ok (s, 0)
  | some other =>
    if other.full ∧ msg.full then do .ok (← s.createDoubleSpendProof other msg, -1)
    else .ok (s, 1)

def insertMsg (msg : TxsMsg) : Txs := { s with msgs := s.msgs.insert msg.num msg }

def txsInsert (msg : TxsMsg) : Except TxsStop (Txs × Int) :=
  if s.lastDbl msg.svid then .ok (s, 0)
  else
    match s.msgs[msg.num]? with
    | some osg =>
      if msg.full ∧ osg.len = headerLength then
        if osg.val ∧ osg.sigh ≠ msg.sigh then .ok (s, 0)
        else do
          let (s, dbl) ← (s.insertMsg (osg.update msg)).checkDbl (osg.update msg)
          if dbl < 0 then .ok (s, if s.knownDbl msg.svid then 1 else -1)
          else .ok (s, 1)
      else .ok (s, 0)
    | none =>
      if msg.len = headerLength then do
        let (s, dbl) ← (s.insertMsg msg).checkDbl msg
        if dbl ≠ 0 then .ok (s, if s.knownDbl msg.svid then 1 else -1)
        else .ok (s, 1)
      else if msg.svid = s.own then
        if msg.peer = msg.svid then .ok (s.insertMsg msg, 1) else .error .assertion
      else .ok (s, -1)

/-- The tests of `handle_read_body` on the ids of a received message. -/
def timely (svid : UInt16) (msid : UInt32) : Bool :=
  s.lastMsid svid < msid ∧
    (s.msid svid = msid - 1 ∨ s.hasPrevious svid msid ∨ s.lastMsid svid = msid - 1)

end Txs

/-- What reaches `txs_insert`, and the processing of a received message. -/
inductive TxsEvent where
  /-- A peer announces a message. -/
  | header (peer svid : UInt16) (msid : UInt32) (hashval : UInt8)
  /-- A peer sends a message whose signature is valid. -/
  | body (peer svid : UInt16) (msid : UInt32) (sigh : Hash) (len : Nat)
  /-- The node writes a message of its own. -/
  | own (msid : UInt32) (sigh : Hash) (len : Nat)
  /-- `process_message` accepts a stored message. -/
  | processed (num : UInt64)

/-- The message that the node makes of received data. -/
def TxsMsg.received (mysvid peer svid : UInt16) (msid : UInt32) (sigh : Hash) (len : Nat) :
    TxsMsg :=
  { svid, msid, hashval := Txs.hashval mysvid sigh, sigh, len, peer }

def Txs.step (s : Txs) : TxsEvent → Except TxsStop Txs
  | .header peer svid msid hashval => do
    let (s, _) ← s.txsInsert { svid, msid, hashval, sigh := 0, len := headerLength, peer }
    .ok s
  | .body peer svid msid sigh len =>
    -- A node does not connect to itself.
    if headerLength < len ∧ peer ≠ s.own ∧ s.timely svid msid then do
      let (s, _) ← s.txsInsert (.received s.own peer svid msid sigh len)
      .ok s
    else .ok s
  | .own msid sigh len =>
    if headerLength < len then do
      let (s, _) ← s.txsInsert (.received s.own s.own s.own msid sigh len)
      .ok s
    else .ok s
  | .processed num =>
    match s.msgs[num]? with
    | some m =>
      if m.full then
        .ok { s with
          msid := Function.update s.msid m.svid m.msid
          msgs := s.msgs.insert num { m with com := true } }
      else .ok s
    | none => .ok s

def Txs.run (s : Txs) (events : List TxsEvent) : Except TxsStop Txs := events.foldlM Txs.step s

/-- Two full versions of one message make their node a double spender. -/
def Txs.Detected (s : Txs) : Prop :=
  ∀ m₁ m₂ : TxsMsg, s.msgs[m₁.num]? = some m₁ → s.msgs[m₂.num]? = some m₂ → m₁.full → m₂.full →
    m₁.svid = m₂.svid → m₁.msid = m₂.msid → m₁.num ≠ m₂.num → s.knownDbl m₁.svid

/-- Another full version of the message is stored. -/
def Txs.HasOther (s : Txs) (msg : TxsMsg) : Prop :=
  ∃ other : TxsMsg, s.msgs[other.num]? = some other ∧ other.full ∧ other.svid = msg.svid ∧
    other.msid = msg.msid ∧ other.num ≠ msg.num

/-- When an insertion detects what it has to: the version that a body is compared with
is full if any other version is. An own message is compared only if it was announced. -/
def Txs.Admits (s : Txs) : TxsEvent → Prop
  | .body peer svid msid sigh len =>
    s.HasOther (.received s.own peer svid msid sigh len) →
      ∀ other ∈ s.examined (TxsMsg.received s.own peer svid msid sigh len).num, other.full
  | .own msid sigh len =>
    s.HasOther (.received s.own s.own s.own msid sigh len) →
      (TxsMsg.received s.own s.own s.own msid sigh len).num ∈ s.msgs ∧
      ∀ other ∈ s.examined (TxsMsg.received s.own s.own s.own msid sigh len).num, other.full
  | _ => True

theorem TxsMsg.toNat_num (m : TxsMsg) : m.num.toNat =
    m.hashval.toNat + 2 ^ 8 * msgtypeMsg.toNat + 2 ^ 16 * m.msid.toNat + 2 ^ 48 * m.svid.toNat := by
  have htype : msgtypeMsg.toNat = 3 := rfl
  have hhash := m.hashval.toNat_lt
  have hmsid := m.msid.toNat_lt
  have hsvid := m.svid.toNat_lt
  rw [num, UInt64.toNat_ofNat_of_lt']
  rw [htype]
  change _ < 2 ^ 64
  omega

theorem toNat_and_versionMask (a : UInt64) :
    (a &&& 0xFFFFFFFFFFFF0000).toNat = a.toNat / 2 ^ 16 * 2 ^ 16 := by
  have hmask : (0xFFFFFFFFFFFF0000 : UInt64).toNat = (2 ^ 48 - 1) <<< 16 := rfl
  rw [UInt64.toNat_and, hmask, ← Nat.shiftRight_eq_div_pow, ← Nat.shiftLeft_eq]
  apply Nat.eq_of_testBit_eq
  intro i
  simp only [Nat.testBit_and, Nat.testBit_shiftLeft, Nat.testBit_shiftRight,
    Nat.testBit_two_pow_sub_one]
  by_cases hlow : 16 ≤ i
  · by_cases hhigh : i < 64
    · simp [hlow, show i - 16 < 48 by omega]
    · have hbit : a.toNat.testBit i = false := Nat.testBit_lt_two_pow
        (a.toNat_lt.trans_le (Nat.pow_le_pow_right (by decide) (Nat.not_lt.mp hhigh)))
      simp [hlow, hbit]
  · simp [hlow]

theorem sameMessage_iff {a b : UInt64} :
    sameMessage a b ↔ a.toNat / 2 ^ 16 = b.toNat / 2 ^ 16 := by
  rw [sameMessage, beq_iff_eq, ← UInt64.toNat_inj, toNat_and_versionMask, toNat_and_versionMask]
  omega

theorem TxsMsg.sameMessage_num {m m' : TxsMsg} :
    sameMessage m.num m'.num ↔ m.svid = m'.svid ∧ m.msid = m'.msid := by
  have htype : msgtypeMsg.toNat = 3 := rfl
  have hhash := m.hashval.toNat_lt
  have hmsid := m.msid.toNat_lt
  have hhash' := m'.hashval.toNat_lt
  have hmsid' := m'.msid.toNat_lt
  rw [sameMessage_iff, toNat_num, toNat_num, htype, ← UInt16.toNat_inj, ← UInt32.toNat_inj]
  omega

/-- The versions of a message are adjacent in key order. -/
theorem sameMessage_of_between {a b c : UInt64} (hab : a ≤ b) (hbc : b ≤ c)
    (h : sameMessage a c) : sameMessage b a ∧ sameMessage b c := by
  rw [UInt64.le_iff_toNat_le] at hab hbc
  rw [sameMessage_iff] at h
  have hlow := Nat.div_le_div_right (c := 2 ^ 16) hab
  have hhigh := Nat.div_le_div_right (c := 2 ^ 16) hbc
  constructor <;> rw [sameMessage_iff] <;> omega

namespace Txs

variable {s s' : Txs}

/-- Only double spenders have been added. -/
structure Frame (s s' : Txs) : Prop where
  own : s'.own = s.own
  lastMsid : s'.lastMsid = s.lastMsid
  msid : s'.msid = s.msid
  msgs : s'.msgs = s.msgs
  known : ∀ svid, s.knownDbl svid → s'.knownDbl svid

theorem Frame.refl (s : Txs) : Frame s s := ⟨rfl, rfl, rfl, rfl, fun _ h => h⟩

/-- What holds between the events of a block. -/
structure Sound (s : Txs) : Prop where
  keyed : ∀ k (m : TxsMsg), s.msgs[k]? = some m → m.num = k
  committed : ∀ (k : UInt64) (m : TxsMsg), s.msgs[k]? = some m → m.com → m.full
  /-- The last processed message of a node is stored, or belongs to an earlier block. -/
  processed : ∀ svid, s.msid svid = s.lastMsid svid ∨
    ∃ m : TxsMsg, s.msgs[m.num]? = some m ∧ m.full ∧ m.svid = svid ∧ m.msid = s.msid svid
  detected : s.Detected

theorem examined_insertMsg (s : Txs) (m : TxsMsg) :
    (s.insertMsg m).examined m.num = s.examined m.num := by
  have hne : ∀ q, compare q m.num ≠ .eq → (s.insertMsg m).msgs[q]? = s.msgs[q]? := fun q hq =>
    Map.getElem?_insert_ne _ _ fun heq => hq (Std.compare_eq_iff_eq.mpr heq)
  have hbefore : (s.insertMsg m).msgs.before m.num = s.msgs.before m.num :=
    Map.before_congr fun q hq => hne q (by rw [hq]; decide)
  have hafter : (s.insertMsg m).msgs.after m.num = s.msgs.after m.num :=
    Map.after_congr fun q hq => hne q (by rw [hq]; decide)
  rw [examined, examined, hbefore, hafter]

/-- If another version is stored, a neighbour is a version of the message too. -/
theorem exists_examined {num : UInt64} {k : UInt64} {other : TxsMsg} (hk : s.msgs[k]? = some other)
    (hsame : sameMessage k num) (hne : k ≠ num) : ∃ e, s.examined num = some e := by
  rw [examined]
  split
  · exact ⟨_, rfl⟩
  · rename_i hbefore
    rcases UInt64.lt_or_lt_of_ne hne with hlt | hgt
    · obtain ⟨p, hp, hle⟩ := Map.exists_before hk (Std.compare_eq_lt.mpr hlt)
      have hple : k ≤ p.1 := by
        rcases hle with heq | hlt
        · exact UInt64.le_of_eq heq
        · exact UInt64.le_of_lt (Std.compare_eq_lt.mp hlt)
      have hpnum := UInt64.le_of_lt (Std.compare_eq_lt.mp (Map.before_eq_some hp).2)
      have hpsame := (sameMessage_of_between hple hpnum hsame).2
      rw [hp, Option.filter_some, if_pos hpsame] at hbefore
      cases hbefore
    · obtain ⟨p, hp, hle⟩ := Map.exists_after hk (Std.compare_eq_gt.mpr hgt)
      have hple : p.1 ≤ k := by
        rcases hle with heq | hlt
        · exact UInt64.le_of_eq heq.symm
        · exact UInt64.le_of_lt (Std.compare_eq_lt.mp hlt)
      have hpnum := UInt64.le_of_lt (Std.compare_eq_gt.mp (Map.after_eq_some hp).2)
      have hsame' : sameMessage num k := by
        rw [sameMessage_iff] at hsame ⊢
        exact hsame.symm
      have hpsame := (sameMessage_of_between hpnum hple hsame').1
      rw [hp, Option.filter_some, if_pos hpsame]
      exact ⟨_, rfl⟩

theorem mem_versions {svid : UInt16} {msid : UInt32} {m : TxsMsg} :
    m ∈ s.versions svid msid ↔ (∃ k : UInt64, s.msgs[k]? = some m) ∧ m.svid = svid ∧
      m.msid = msid := by
  rw [versions, List.mem_map]
  constructor
  · rintro ⟨p, hp, rfl⟩
    rw [Map.mem_toList, Std.ExtTreeMap.getElem?_filter', Option.filter_eq_some_iff,
      decide_eq_true_eq] at hp
    exact ⟨⟨p.1, hp.1⟩, hp.2⟩
  · rintro ⟨⟨k, hk⟩, hids⟩
    refine ⟨(k, m), ?_, rfl⟩
    rw [Map.mem_toList, Std.ExtTreeMap.getElem?_filter', Option.filter_eq_some_iff,
      decide_eq_true_eq]
    exact ⟨hk, hids⟩

/-- A stored version of one message does not change what is found of another. -/
theorem hasPrevious_insertMsg {m : TxsMsg}
    (hold : ∀ o, s.msgs[m.num]? = some o → o.msid = m.msid) (svid : UInt16)
    {msid : UInt32} (hne : m.msid ≠ msid - 1) :
    (s.insertMsg m).hasPrevious svid msid = s.hasPrevious svid msid := by
  have hversions : (s.insertMsg m).versions svid (msid - 1) = s.versions svid (msid - 1) := by
    rw [versions, versions]
    congr 2
    apply Std.ExtTreeMap.ext_getElem?
    intro k
    rw [Std.ExtTreeMap.getElem?_filter', Std.ExtTreeMap.getElem?_filter', insertMsg,
      Map.getElem?_insert]
    split
    · rename_i hk
      rw [hk, Option.filter_some_neg (by simp [hne])]
      cases hm : s.msgs[m.num]? with
      | none => rfl
      | some o =>
          rw [Option.filter_some_neg]
          rw [decide_eq_false_iff_not, hold o hm]
          exact fun h => hne h.2
    · rfl
  rw [hasPrevious, hasPrevious, messageSvidmsid, messageSvidmsid, hversions]

theorem hasPrevious_of_full (hs : s.Sound) {m : TxsMsg} (hm : s.msgs[m.num]? = some m)
    (hfull : m.full) {msid : UInt32} (hmsid : m.msid = msid - 1) : s.hasPrevious m.svid msid := by
  have hmem : m ∈ s.versions m.svid (msid - 1) := mem_versions.mpr ⟨⟨_, hm⟩, rfl, hmsid⟩
  rw [hasPrevious, messageSvidmsid]
  cases hcom : (s.versions m.svid (msid - 1)).find? (·.com) with
  | some c =>
      obtain ⟨k, hk⟩ := (mem_versions.mp (List.mem_of_find?_eq_some hcom)).1
      have hfull := hs.committed k c hk (List.find?_some hcom)
      simp [hfull]
  | none =>
      -- Once a full version is met, only full versions replace it.
      have hloop : ∀ (ms : List TxsMsg) (me : Option TxsMsg),
          (me.any fun c => decide c.full) ∨ (∃ c ∈ ms, c.full) →
          (ms.foldl (fun me m => if m.full ∨ me.isNone then some m else me) me).any
            fun c => decide (c.full ∨ c.val) := by
        intro ms
        induction ms with
        | nil =>
            rintro me (hme | ⟨c, hc, -⟩)
            · cases me with
              | none => cases hme
              | some c => simpa using Or.inl (of_decide_eq_true hme)
            · cases hc
        | cons x ms ih =>
            rintro me h
            rw [List.foldl_cons]
            apply ih
            by_cases hx : x.full
            · rw [if_pos (Or.inl hx)]
              exact Or.inl (decide_eq_true hx)
            · rcases h with hme | ⟨c, hc, hcfull⟩
              · cases me with
                | none => cases hme
                | some c =>
                    rw [if_neg (by simpa using hx)]
                    exact Or.inl hme
              · rcases List.mem_cons.mp hc with rfl | hc
                · exact absurd hcfull hx
                · exact Or.inr ⟨c, hc, hcfull⟩
      exact hloop _ none (Or.inr ⟨m, hmem, hfull⟩)

/-- A proof against another node can be made: the message is of the present block and
its predecessor is known. -/
def Provable (s : Txs) (svid : UInt16) (msid : UInt32) : Prop :=
  svid ≠ s.own → s.lastMsid svid < msid ∧
    (msid - 1 = s.lastMsid svid ∨ s.hasPrevious svid msid)

theorem ne_sub_one (msid : UInt32) : msid ≠ msid - 1 := by
  intro h
  grind

theorem createDoubleSpendProof_spec {m₁ m₂ : TxsMsg}
    (h : s.createDoubleSpendProof m₁ m₂ = .ok s') :
    Frame s s' ∧ (s.Provable m₂.svid m₂.msid → s'.knownDbl m₂.svid) := by
  rw [createDoubleSpendProof] at h
  split at h
  · cases h
  rename_i hsame
  simp only [not_or, not_not] at hsame
  obtain ⟨hsvid, hmsid, -⟩ := hsame
  split at h
  · cases h
  rename_i hown
  split at h
  · rename_i hknown
    cases h
    exact ⟨.refl s, fun _ => hknown⟩
  split at h
  · rename_i hold
    cases h
    rw [hsvid, hmsid] at hold
    exact ⟨.refl s, fun hprov => absurd hold (UInt32.not_le.mpr (hprov hown).1)⟩
  split at h
  · cases h
    refine ⟨⟨rfl, rfl, rfl, rfl, fun svid hknown => ?_⟩, fun _ => ?_⟩
    · change Function.update s.dblSrvs m₁.svid true svid
      rw [Function.update_apply]
      split
      · rfl
      · exact hknown
    · change Function.update s.dblSrvs m₁.svid true m₂.svid
      rw [← hsvid, Function.update_self]
  · rename_i hnone
    cases h
    exact ⟨.refl s, fun hprov => absurd (Or.inr (hprov hown).2) hnone⟩

theorem checkDbl_spec {msg : TxsMsg} {r : Int} (h : s.checkDbl msg = .ok (s', r)) :
    Frame s s' ∧ ∀ other, s.examined msg.num = some other → other.full → msg.full →
      s.Provable msg.svid msg.msid → s'.knownDbl msg.svid := by
  rw [checkDbl] at h
  cases hother : s.examined msg.num with
  | none =>
      rw [hother] at h
      cases h
      exact ⟨.refl s, fun _ hnone => by cases hnone⟩
  | some other =>
      simp only [hother] at h
      split at h
      · obtain ⟨s₁, hproof, hret⟩ := Lib.bind_eq_ok h
        cases hret
        obtain ⟨hframe, hknown⟩ := createDoubleSpendProof_spec hproof
        exact ⟨hframe, fun _ _ _ _ => hknown⟩
      · rename_i hfull
        cases h
        refine ⟨.refl s, fun e he hefull hmsg => ?_⟩
        obtain rfl : other = e := Option.some.inj he
        exact absurd ⟨hefull, hmsg⟩ hfull

/-- Storing a version, or its body, keeps the state sound if a second full version is
detected. -/
theorem Sound.insertMsg (hs : s.Sound) {m : TxsMsg}
    (hold : ∀ o, s.msgs[m.num]? = some o → ¬ o.full) (hcom : m.com → m.full)
    (hframe : Frame (s.insertMsg m) s') (hknown : m.full → s.HasOther m → s'.knownDbl m.svid) :
    s'.Sound := by
  have hget : ∀ k, s'.msgs[k]? = if k = m.num then some m else s.msgs[k]? := fun k => by
    rw [hframe.msgs, Txs.insertMsg, Map.getElem?_insert]
  have hkeep : ∀ o : TxsMsg, s.msgs[o.num]? = some o → o.full → s'.msgs[o.num]? = some o := by
    intro o ho hfull
    rw [hget, if_neg]
    · exact ho
    · rintro hnum
      rw [hnum] at ho
      exact hold o ho hfull
  refine ⟨?_, ?_, ?_, ?_⟩
  · intro k o ho
    rw [hget] at ho
    split at ho
    · cases ho
      exact Eq.symm ‹_›
    · exact hs.keyed k o ho
  · intro k o ho
    rw [hget] at ho
    split at ho
    · cases ho
      exact hcom
    · exact hs.committed k o ho
  · intro svid
    have hmsid : s'.msid = s.msid := hframe.msid
    have hlast : s'.lastMsid = s.lastMsid := hframe.lastMsid
    rw [hmsid, hlast]
    rcases hs.processed svid with heq | ⟨o, ho, hfull, hids⟩
    · exact Or.inl heq
    · exact Or.inr ⟨o, hkeep o ho hfull, hfull, hids⟩
  · -- A pair of full versions either was there before or has the new one in it.
    rintro m₁ m₂ h₁ h₂ hfull₁ hfull₂ hsvid hmsid hne
    rw [hget] at h₁ h₂
    split at h₁
    · rename_i hnum₁
      obtain rfl := Option.some.inj h₁
      rw [if_neg (fun h => hne h.symm)] at h₂
      exact hknown hfull₁ ⟨m₂, h₂, hfull₂, hsvid.symm, hmsid.symm, hne.symm⟩
    · split at h₂
      · obtain rfl := Option.some.inj h₂
        rw [hsvid]
        exact hknown hfull₂ ⟨m₁, h₁, hfull₁, hsvid, hmsid, hne⟩
      · exact hframe.known _ (hs.detected m₁ m₂ h₁ h₂ hfull₁ hfull₂ hsvid hmsid hne)

/-- `txs_insert` keeps the state sound if it can detect a second full version. -/
theorem Sound.txsInsert (hs : s.Sound) {msg : TxsMsg} {r : Int} (hcom : msg.com = false)
    (h : s.txsInsert msg = .ok (s', r))
    (hdetect : msg.full → s.HasOther msg →
      (msg.svid = s.own → msg.peer = s.own → msg.num ∈ s.msgs) ∧
      (∀ other ∈ s.examined msg.num, other.full) ∧ s.Provable msg.svid msg.msid) :
    s'.Sound := by
  rw [Txs.txsInsert] at h
  split at h
  · cases h
    exact hs
  cases hget : s.msgs[msg.num]? with
  | none =>
      simp only [hget] at h
      have hnone : ∀ o, s.msgs[msg.num]? = some o → ¬ o.full := fun o ho => by
        rw [hget] at ho
        cases ho
      split at h
      · rename_i hheader
        obtain ⟨⟨s₁, dbl⟩, hcheck, hret⟩ := Lib.bind_eq_ok h
        obtain rfl : s₁ = s' := by
          simp only at hret
          split at hret <;> exact congrArg Prod.fst (Except.ok.inj hret)
        refine hs.insertMsg hnone (by simp [hcom]) (checkDbl_spec hcheck).1 fun hfull => ?_
        exact absurd hfull (by rw [TxsMsg.full, hheader]; exact Nat.lt_irrefl _)
      · split at h
        · rename_i hown
          split at h
          · rename_i hpeer
            cases h
            refine hs.insertMsg hnone (by simp [hcom]) (.refl _) fun hfull hother => ?_
            have hmem := (hdetect hfull hother).1 hown (hpeer.trans hown)
            rw [Std.ExtTreeMap.mem_iff_isSome_getElem?, hget] at hmem
            cases hmem
          · cases h
        · cases h
          exact hs
  | some osg =>
      simp only [hget] at h
      split at h
      · rename_i hbody
        split at h
        · cases h
          exact hs
        · obtain ⟨⟨s₁, dbl⟩, hcheck, hret⟩ := Lib.bind_eq_ok h
          obtain rfl : s₁ = s' := by
            simp only at hret
            split at hret <;> exact congrArg Prod.fst (Except.ok.inj hret)
          have hnum : (osg.update msg).num = msg.num := by
            change osg.num = msg.num
            exact hs.keyed _ _ hget
          obtain ⟨hsvid, hmsid⟩ := TxsMsg.sameMessage_num.mp (sameMessage_iff.mpr
            (congrArg (fun n : UInt64 => n.toNat / 2 ^ 16) hnum))
          have hold : ∀ o, s.msgs[(osg.update msg).num]? = some o → o = osg := fun o ho => by
            rw [hnum, hget] at ho
            exact (Option.some.inj ho).symm
          have hfull : (osg.update msg).full := hbody.1
          refine hs.insertMsg (fun o ho => ?_) (fun _ => hfull) (checkDbl_spec hcheck).1 ?_
          · rw [hold o ho, TxsMsg.full, hbody.2]
            exact Nat.lt_irrefl _
          rintro - ⟨other, hother, hothfull, hothsvid, hothmsid, hothne⟩
          rw [hsvid] at hothsvid
          rw [hmsid] at hothmsid
          rw [hnum] at hothne
          obtain ⟨-, hexamined, hprov⟩ :=
            hdetect hbody.1 ⟨other, hother, hothfull, hothsvid, hothmsid, hothne⟩
          obtain ⟨e, he⟩ := exists_examined hother
            (TxsMsg.sameMessage_num.mpr ⟨hothsvid, hothmsid⟩) hothne
          refine (checkDbl_spec hcheck).2 e ?_ (hexamined e he) hfull ?_
          · rw [examined_insertMsg, hnum, he]
          · rw [hsvid, hmsid]
            intro hown
            rw [hasPrevious_insertMsg (fun o ho => by rw [hold o ho]; rfl) _ ?_]
            · exact hprov hown
            · rw [hmsid]
              exact ne_sub_one _
      · cases h
        exact hs

/-- What `handle_read_body` lets through can be proved. -/
theorem Sound.provable (hs : s.Sound) {svid : UInt16} {msid : UInt32}
    (htimely : s.timely svid msid) : s.Provable svid msid := by
  rw [timely, decide_eq_true_eq] at htimely
  obtain ⟨hlt, hprev⟩ := htimely
  refine fun _ => ⟨hlt, ?_⟩
  rcases hprev with hmsid | hprev | hlast
  · rcases hs.processed svid with heq | ⟨m, hm, hfull, rfl, hm'⟩
    · exact Or.inl (hmsid.symm.trans heq)
    · exact Or.inr (hasPrevious_of_full hs hm hfull (hm'.trans hmsid))
  · exact Or.inr hprev
  · exact Or.inl hlast.symm

theorem Sound.processMessage (hs : s.Sound) {num : UInt64} {m : TxsMsg}
    (hm : s.msgs[num]? = some m) (hfull : m.full) :
    Sound { s with
      msid := Function.update s.msid m.svid m.msid
      msgs := s.msgs.insert num { m with com := true } } := by
  obtain rfl : m.num = num := hs.keyed _ _ hm
  -- Every entry after the step has an entry of the same message and length before it.
  have hget : ∀ (k : UInt64) (o : TxsMsg),
      (s.msgs.insert m.num { m with com := true })[k]? = some o →
      (k = m.num ∧ o = { m with com := true }) ∨ s.msgs[k]? = some o := by
    intro k o ho
    rw [Map.getElem?_insert] at ho
    split at ho
    · exact Or.inl ⟨‹_›, (Option.some.inj ho).symm⟩
    · exact Or.inr ho
  have hbefore : ∀ o : TxsMsg,
      (s.msgs.insert m.num { m with com := true })[o.num]? = some o →
      ∃ o' : TxsMsg, s.msgs[o'.num]? = some o' ∧ o'.num = o.num ∧ o'.svid = o.svid ∧
        o'.msid = o.msid ∧ o'.len = o.len := by
    intro o ho
    rcases hget _ _ ho with ⟨-, rfl⟩ | hold
    · exact ⟨m, hm, rfl, rfl, rfl, rfl⟩
    · exact ⟨o, hold, rfl, rfl, rfl, rfl⟩
  refine ⟨?_, ?_, ?_, ?_⟩
  · intro k o ho
    rcases hget k o ho with ⟨rfl, rfl⟩ | hold
    · rfl
    · exact hs.keyed k o hold
  · intro k o ho
    rcases hget k o ho with ⟨rfl, rfl⟩ | hold
    · exact fun _ => hfull
    · exact hs.committed k o hold
  · intro svid
    by_cases hsvid : svid = m.svid
    · subst hsvid
      refine Or.inr ⟨{ m with com := true }, ?_, hfull, rfl, ?_⟩
      · exact Map.getElem?_insert_same _ _ _
      · exact (Function.update_self m.svid m.msid s.msid).symm
    · change Function.update s.msid m.svid m.msid svid = s.lastMsid svid ∨ _
      rw [Function.update_of_ne hsvid]
      rcases hs.processed svid with heq | ⟨o, ho, hofull, hosvid, homsid⟩
      · exact Or.inl heq
      · refine Or.inr ⟨o, ?_, hofull, hosvid, ?_⟩
        · refine (Map.getElem?_insert_ne _ _ ?_).trans ho
          intro hnum
          rw [hnum, hm] at ho
          exact hsvid (hosvid.symm.trans (congrArg TxsMsg.svid (Option.some.inj ho)).symm)
        · exact homsid.trans (Function.update_of_ne hsvid m.msid s.msid).symm
  · rintro m₁ m₂ h₁ h₂ hfull₁ hfull₂ hsvid hmsid hne
    obtain ⟨o₁, ho₁, hn₁, hs₁, hm₁, hl₁⟩ := hbefore m₁ h₁
    obtain ⟨o₂, ho₂, hn₂, hs₂, hm₂, hl₂⟩ := hbefore m₂ h₂
    have hknown := hs.detected o₁ o₂ ho₁ ho₂ (by rwa [TxsMsg.full, hl₁]) (by rwa [TxsMsg.full, hl₂])
      (by rw [hs₁, hs₂, hsvid]) (by rw [hm₁, hm₂, hmsid]) (by rwa [hn₁, hn₂])
    rwa [hs₁] at hknown

theorem Sound.step (hs : s.Sound) {event : TxsEvent} (hadmits : s.Admits event)
    (h : s.step event = .ok s') : s'.Sound := by
  cases event with
  | header peer svid msid hashval =>
      obtain ⟨⟨s₁, r⟩, hinsert, hret⟩ := Lib.bind_eq_ok h
      cases hret
      exact hs.txsInsert rfl hinsert fun hfull => absurd hfull (Nat.lt_irrefl _)
  | body peer svid msid sigh len =>
      rw [Txs.step] at h
      split at h
      · rename_i hguard
        obtain ⟨⟨s₁, r⟩, hinsert, hret⟩ := Lib.bind_eq_ok h
        cases hret
        exact hs.txsInsert rfl hinsert fun hfull hother =>
          ⟨fun _ hpeer => absurd hpeer hguard.2.1, hadmits hother, hs.provable hguard.2.2⟩
      · cases h
        exact hs
  | own msid sigh len =>
      rw [Txs.step] at h
      split at h
      · obtain ⟨⟨s₁, r⟩, hinsert, hret⟩ := Lib.bind_eq_ok h
        cases hret
        refine hs.txsInsert rfl hinsert fun hfull hother => ?_
        obtain ⟨hmem, hexamined⟩ := hadmits hother
        exact ⟨fun _ _ => hmem, hexamined, fun hne => absurd rfl hne⟩
      · cases h
        exact hs
  | processed num =>
      rw [Txs.step] at h
      split at h
      · rename_i m hm
        split at h
        · cases h
          exact hs.processMessage hm ‹_›
        · cases h
          exact hs
      · cases h
        exact hs

end Txs

/-- In a run whose insertions are all admitted, two full versions of one message that
are stored at the same time have made their node a double spender. -/
theorem Txs.run_detected {s₀ s : Txs} (hs : s₀.Sound) (events : List TxsEvent)
    (hadmits : ∀ pre event post s₁, events = pre ++ event :: post → s₀.run pre = .ok s₁ →
      s₁.Admits event)
    (hrun : s₀.run events = .ok s) : s.Detected := by
  have hsound : s.Sound := foldlM_reached (f := Txs.step) Txs.Sound hs
    (fun pre event post s₁ s₂ hevents hpre hsound hstep =>
      hsound.step (hadmits pre event post s₁ hevents hpre) hstep) hrun
  exact hsound.detected

/-- The state at the start of a block. -/
def Txs.start (own : UInt16) (lastMsid : UInt16 → UInt32) : Txs :=
  { own, lastMsid, lastDbl := fun _ => false, msid := lastMsid, msgs := ∅,
    dblSrvs := fun _ => false }

theorem Txs.sound_start (own : UInt16) (lastMsid : UInt16 → UInt32) :
    (Txs.start own lastMsid).Sound where
  keyed k m hm := by simp [Txs.start] at hm
  committed k m hm := by simp [Txs.start] at hm
  processed _ := Or.inl rfl
  detected m₁ m₂ h₁ := by simp [Txs.start] at h₁

namespace Sample

/-- Node 1 at the start of the first block. -/
def firstBlock : Txs := .start 1 fun _ => 0

/-- Peer 3 announces and sends a version of message 1 of node 2 with the given byte of
the message hash. -/
def announced (byte : UInt8) : TxsEvent := .header 3 2 1 byte

def sent (byte : UInt8) : TxsEvent := .body 3 2 1 (BitVec.ofNat 256 (256 * byte.toNat)) 100

def stored (byte : UInt8) : TxsMsg := .received 1 3 2 1 (BitVec.ofNat 256 (256 * byte.toNat)) 100

theorem admits_sent {pre : List TxsEvent} {s : Txs} {byte : UInt8}
    (hpre : firstBlock.run pre = .ok s)
    (hfull : succeeds (firstBlock.run pre) fun s => decide (s.own = 1 ∧
      ∀ other ∈ s.examined (stored byte).num, other.full)) : s.Admits (sent byte) := by
  obtain ⟨s', hs', hexamined⟩ := exists_of_succeeds hfull
  obtain rfl : s' = s := Except.ok.inj (hs'.symm.trans hpre)
  obtain ⟨hown, hexamined⟩ := of_decide_eq_true hexamined
  intro _
  rw [hown]
  exact hexamined

end Sample

/-- Two versions of a message arrive one after the other. -/
theorem Txs.run_detected_pair :
    ∃ s, Sample.firstBlock.run [Sample.announced 20, Sample.sent 20, Sample.announced 10,
      Sample.sent 10] = .ok s ∧ s.Detected ∧ s.knownDbl 2 := by
  obtain ⟨s, hrun, hknown⟩ := exists_of_succeeds (x := Sample.firstBlock.run [Sample.announced 20,
    Sample.sent 20, Sample.announced 10, Sample.sent 10]) (p := fun s => s.knownDbl 2)
    (by decide +kernel)
  refine ⟨s, hrun, Txs.run_detected (Txs.sound_start 1 fun _ => 0) _ ?_ hrun, hknown⟩
  rintro pre event post s₁ hevents hpre
  rcases pre with _ | ⟨_, _ | ⟨_, _ | ⟨_, _ | ⟨_, pre⟩⟩⟩⟩
  · cases hevents
    trivial
  · cases hevents
    exact Sample.admits_sent hpre (by decide +kernel)
  · cases hevents
    trivial
  · cases hevents
    exact Sample.admits_sent hpre (by decide +kernel)
  · exact absurd (congrArg List.length hevents) (by simp)

/-- Between two full versions stands one of which only the header is known: the two
are not compared. -/
theorem Txs.run_not_detected :
    ∃ s, Sample.firstBlock.run [Sample.announced 20, Sample.announced 10, Sample.sent 10,
      Sample.announced 30, Sample.sent 30] = .ok s ∧ ¬ s.Detected := by
  obtain ⟨s, hrun, hstored⟩ := exists_of_succeeds (x := Sample.firstBlock.run [Sample.announced 20,
    Sample.announced 10, Sample.sent 10, Sample.announced 30, Sample.sent 30])
    (p := fun s => decide (s.msgs[(Sample.stored 10).num]? = some (Sample.stored 10) ∧
      s.msgs[(Sample.stored 30).num]? = some (Sample.stored 30) ∧ s.knownDbl 2 = false))
    (by decide +kernel)
  obtain ⟨h10, h30, hunknown⟩ := of_decide_eq_true hstored
  refine ⟨s, hrun, fun hdetected => ?_⟩
  have hknown := hdetected _ _ h10 h30 (by decide) (by decide) rfl rfl (by decide)
  exact absurd hknown (by rw [show (Sample.stored 10).svid = 2 from rfl, hunknown]; decide)

end Esc
