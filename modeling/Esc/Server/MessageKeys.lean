import Esc.Server.BlockCleanup

/-!
# The keys of the messages

A message is stored in `txs_msgs_` under `hash.num`, which ends in a byte of the message
hash. All steps keep the entries under the keys of their messages but one: an own message
that is signed again gets a new hash and stays where it was.
-/

namespace Esc

open Lib

variable {msid ntime : UInt32} {m : BlockMsg} {ts : BlockEntries}

/-- Every entry is stored under the key of its message, where a lookup by that key finds
it. -/
def Keyed (msgs : Map UInt64 BlockMsg) : Prop := ∀ (k : UInt64) m, msgs[k]? = some m → m.num = k

/-- The same for a list of entries. -/
def KeyedEntries (ts : BlockEntries) : Prop := ∀ t ∈ ts, t.2.num = t.1

section Maps

variable {msgs : Map UInt64 BlockMsg}

theorem Keyed.empty : Keyed ∅ := by
  intro k m h
  simp at h

theorem Keyed.insert (h : Keyed msgs) {k : UInt64} (hm : m.num = k) : Keyed (msgs.insert k m) := by
  intro k' m' hk'
  rw [Map.getElem?_insert] at hk'
  split at hk'
  · rename_i heq
    cases hk'
    exact hm.trans heq.symm
  · exact h k' m' hk'

theorem Keyed.insertIfNew (h : Keyed msgs) {k : UInt64} (hm : m.num = k) :
    Keyed (msgs.insertIfNew k m) := by
  intro k' m' hk'
  rw [Map.getElem?_insertIfNew] at hk'
  split at hk'
  · rename_i heq
    subst heq
    cases hold : msgs[k']? with
    | none =>
        rw [hold] at hk'
        cases hk'
        exact hm
    | some m₀ =>
        rw [hold] at hk'
        cases hk'
        exact h k' m₀ hold
  · exact h k' m' hk'

theorem Keyed.foldl_insert (h : Keyed msgs) (hts : KeyedEntries ts) :
    Keyed (ts.foldl (fun m t => m.insert t.1 t.2) msgs) := by
  induction ts generalizing msgs with
  | nil => exact h
  | cons t ts ih =>
      exact ih (h.insert (hts t List.mem_cons_self))
        fun t' ht' => hts t' (List.mem_cons_of_mem _ ht')

/-- A loop of writes under different keys leaves what it wrote. -/
theorem getElem?_foldl_insert (hnodup : (ts.map Prod.fst).Nodup) {t : UInt64 × BlockMsg}
    (ht : t ∈ ts) :
    (ts.foldl (fun m t => m.insert t.1 t.2) msgs)[t.1]? = some t.2 := by
  have hother : ∀ (us : BlockEntries) (msgs : Map UInt64 BlockMsg) (k : UInt64),
      k ∉ us.map Prod.fst →
        (us.foldl (fun m t => m.insert t.1 t.2) msgs)[k]? = msgs[k]? := by
    intro us
    induction us with
    | nil => exact fun _ _ _ => rfl
    | cons u us ih =>
        intro msgs k hk
        rw [List.map_cons, List.mem_cons, not_or] at hk
        rw [List.foldl_cons, ih _ k hk.2, Map.getElem?_insert_ne _ _ hk.1]
  induction ts generalizing msgs with
  | nil => cases ht
  | cons u us ih =>
      obtain ⟨hu, hus⟩ := List.nodup_cons.mp hnodup
      rcases List.mem_cons.mp ht with rfl | ht
      · rw [List.foldl_cons, hother us _ t.1 hu, Map.getElem?_insert_same]
      · exact ih hus ht

theorem Keyed.foldl_insertIfNew (h : Keyed msgs) (hts : KeyedEntries ts) :
    Keyed (ts.foldl (fun m t => m.insertIfNew t.1 t.2) msgs) := by
  induction ts generalizing msgs with
  | nil => exact h
  | cons t ts ih =>
      exact ih (h.insertIfNew (hts t List.mem_cons_self))
        fun t' ht' => hts t' (List.mem_cons_of_mem _ ht')

theorem keyed_iff_entries : Keyed msgs ↔ KeyedEntries msgs.toList := by
  constructor
  · intro h t ht
    exact h t.1 t.2 (Map.mem_toList.mp ht)
  · intro h k m hk
    exact h (k, m) (Map.mem_toList.mpr hk)

end Maps

section Entries

variable {t : UInt64 × BlockMsg} {us : BlockEntries}

theorem keyedEntries_nil : KeyedEntries [] := by
  intro t ht
  cases ht

theorem keyedEntries_cons : KeyedEntries (t :: ts) ↔ t.2.num = t.1 ∧ KeyedEntries ts :=
  List.forall_mem_cons

theorem keyedEntries_append : KeyedEntries (ts ++ us) ↔ KeyedEntries ts ∧ KeyedEntries us :=
  List.forall_mem_append

end Entries

namespace BlockEnd

variable {e : BlockEnd}

theorem badVersion_keyed (k : UInt64) {t : UInt64 × BlockMsg} (ht : t.2.num = t.1) :
    (badVersion k t).2.num = (badVersion k t).1 := by
  rw [badVersion]
  split
  · exact ht
  · exact ht

theorem badVersions_keyed (k : UInt64) (h : KeyedEntries ts) :
    KeyedEntries (badVersions k ts).1 ∧ KeyedEntries (badVersions k ts).2 := by
  induction ts with
  | nil => exact ⟨keyedEntries_nil, keyedEntries_nil⟩
  | cons t ts ih =>
      obtain ⟨ht, hts⟩ := keyedEntries_cons.mp h
      obtain ⟨hfirst, hrest⟩ := ih hts
      rw [badVersions]
      split
      · exact ⟨keyedEntries_cons.mpr ⟨ht, hfirst⟩, hrest⟩
      · exact ⟨keyedEntries_nil, h⟩

/-- An agreed message takes the place of a stored one with the same key only. -/
theorem agree_num {stored msg : BlockMsg} (h : msg.num = stored.num) :
    (e.agree stored msg).num = stored.num := by
  rw [agree]
  split
  · rfl
  · split
    · rfl
    · exact h

theorem mergeMsgs_keyed (prev : Option UInt64) (ls ts : BlockEntries) (hls : KeyedEntries ls)
    (hts : KeyedEntries ts) :
    KeyedEntries (e.mergeMsgs prev ls ts).1 ∧ KeyedEntries (e.mergeMsgs prev ls ts).2 := by
  induction prev, ls, ts using mergeMsgs.induct e with
  | case1 prev ts =>
      rw [mergeMsgs]
      refine ⟨?_, keyedEntries_nil⟩
      cases prev with
      | none => exact hts
      | some k => exact keyedEntries_append.mpr (badVersions_keyed k hts)
  | case2 prev k m ls ih =>
      obtain ⟨hm, hls⟩ := keyedEntries_cons.mp hls
      obtain ⟨hstored, hadded⟩ := ih hls keyedEntries_nil
      rw [mergeMsgs]
      exact ⟨hstored, keyedEntries_cons.mpr ⟨hm, hadded⟩⟩
  | case3 prev k m ls t ts hlt ih =>
      obtain ⟨hm, hls⟩ := keyedEntries_cons.mp hls
      obtain ⟨ht, hts⟩ := keyedEntries_cons.mp hts
      obtain ⟨hstored, hadded⟩ :=
        ih hls (keyedEntries_cons.mpr ⟨badVersion_keyed k ht, hts⟩)
      rw [mergeMsgs, if_pos hlt]
      exact ⟨hstored, keyedEntries_cons.mpr ⟨hm, hadded⟩⟩
  | case4 prev m ls t ts hlt ih =>
      obtain ⟨hm, hls⟩ := keyedEntries_cons.mp hls
      obtain ⟨ht, hts⟩ := keyedEntries_cons.mp hts
      obtain ⟨hfirst, hrest⟩ := badVersions_keyed t.1 hts
      obtain ⟨hstored, hadded⟩ := ih hls hrest
      rw [mergeMsgs, if_neg hlt, if_pos rfl]
      refine ⟨keyedEntries_cons.mpr ⟨?_, keyedEntries_append.mpr ⟨hfirst, hstored⟩⟩, hadded⟩
      exact (agree_num (hm.trans ht.symm)).trans ht
  | case5 prev k m ls t ts hlt hne ih =>
      obtain ⟨ht, hts⟩ := keyedEntries_cons.mp hts
      obtain ⟨hstored, hadded⟩ := ih hls hts
      rw [mergeMsgs, if_neg hlt, if_neg hne]
      exact ⟨keyedEntries_cons.mpr ⟨badVersion_keyed k ht, hstored⟩, hadded⟩

theorem merged_keyed {msgs final : Map UInt64 BlockMsg} (hmsgs : Keyed msgs)
    (hfinal : Keyed final) : Keyed (e.merged msgs final) := by
  obtain ⟨hstored, hadded⟩ := @mergeMsgs_keyed e none final.toList msgs.toList
    (keyed_iff_entries.mp hfinal) (keyed_iff_entries.mp hmsgs)
  exact (Keyed.empty.foldl_insert hstored).foldl_insertIfNew hadded

theorem final_keyed {final : Map UInt64 BlockMsg} (h : e.final = some final) : Keyed final := by
  rw [BlockEnd.final] at h
  split at h
  · cases h
  · cases h
    have hkept : Keyed (e.tmp.foldl
        (fun final _ m => final.insertIfNew m.num { m with val := true }) ∅) :=
      Map.foldl_invariant (fun _ final => Keyed final) Keyed.empty
        fun _ _ m _ _ _ hfinal => hfinal.insertIfNew rfl
    refine foldl_invariant (fun _ final => Keyed final) hkept ?_
    intro _ a _ final _ hfinal
    exact hfinal.insert rfl

theorem queued_num (m : BlockMsg) : (e.queued m).num = m.num := by
  rw [queued]
  split
  · split
    · rfl
    · split
      · rfl
      · cases e.bad m.sigh with
        | none => rfl
        | some b =>
            dsimp only
            split
            · rename_i hnum
              exact hnum
            · rfl
  · rfl

/-- What is left of a message has its key. -/
theorem fate_num {r : BlockMsg} (h : e.fate m = .ok (some r)) : r.num = m.num := by
  rw [fate] at h
  split at h
  · cases h
  split at h
  · cases h
  split at h
  · split at h
    · split at h
      · cases h
        rfl
      · cases h
    · cases h
      rfl
  split at h
  · split at h
    · split at h
      · cases h
      · cases h
    · cases h
      rfl
  · cases h
    exact queued_num m

theorem clean_keyed {msgs : Map UInt64 BlockMsg} {sign : List UInt64} {w : Walk}
    (h : e.clean { msgs := msgs, sign := sign } = .ok w) (hmsgs : Keyed msgs) : Keyed w.msgs := by
  intro k r hk
  rcases (clean_walked h).getElem? k with ⟨m, hm, hfate⟩ | ⟨-, hnone⟩
  · rw [hk] at hfate
    rw [fate_num hfate]
    exact hmsgs k m hm
  · rw [hk] at hnone
    cases hnone

end BlockEnd

namespace MsgStore

variable {env : StoreEnv} {s s' : MsgStore}

theorem txsInsert_keyed {now : UInt32} {msg : BlockMsg} (h : s.txsInsert env now msg = some s')
    (hs : Keyed s.msgs) : Keyed s'.msgs := by
  rw [txsInsert] at h
  split at h
  · cases h
  split at h
  · cases h
    exact hs
  cases hold : s.msgs[msg.num]? with
  | some osg =>
      rw [hold] at h
      dsimp only at h
      split at h
      · cases h
        exact hs.insert (hs _ osg hold)
      · cases h
        exact hs
  | none =>
      rw [hold] at h
      dsimp only at h
      split at h
      · cases h
        exact hs.insert rfl
      split at h
      · cases h
        exact hs.insert rfl
      · cases h
        exact hs

theorem lastBlockFinal_keyed {e : BlockEnd} (h : s.lastBlockFinal e = some s')
    (hs : Keyed s.msgs) : Keyed s'.msgs := by
  obtain ⟨final, hfinal, h⟩ := Option.bind_eq_some_iff.mp h
  cases hclean : e.clean { msgs := e.merged s.msgs final, sign := s.sign } with
  | error f =>
      rw [hclean] at h
      cases h
  | ok w =>
      rw [hclean] at h
      cases h
      exact BlockEnd.clean_keyed hclean (BlockEnd.merged_keyed hs (BlockEnd.final_keyed hfinal))

/-- The messages that are signed again. -/
def signRange (own : UInt16) (ts : BlockEntries) : BlockEntries :=
  ts.takeWhile fun t => t.2.svid = own

/-- The assertions of the loop: the numbers follow each other and the types are right. -/
def InSequence (msid : UInt32) : BlockEntries → Prop
  | t :: ts => msid + 1 = t.2.msid ∧ t.2.type = msgtypeMsg ∧ InSequence (msid + 1) ts
  | [] => True

/-- The new hashes have the old key bytes. -/
def KeepsBytes (env : StoreEnv) (ntime : UInt32) : BlockEntries → Prop
  | t :: ts => Txs.hashval env.own (env.hashTree t.2 ntime) = t.2.hashval ∧
      KeepsBytes env (ntime + 1) ts
  | [] => True

theorem hashNum_inj {a b : UInt8} {type : UInt8} {svid : UInt16} :
    hashNum a type msid svid = hashNum b type msid svid ↔ a = b := by
  refine ⟨fun h => ?_, fun h => h ▸ rfl⟩
  have hnat := congrArg UInt64.toNat h
  rw [toNat_hashNum, toNat_hashNum] at hnat
  rw [← UInt8.toNat_inj]
  omega

/-- A message keeps its key when it is signed again exactly when it keeps the byte. -/
theorem signNewTime_num (hown : m.svid = env.own) :
    (signNewTime env m ntime).num = m.num ↔
      Txs.hashval env.own (env.hashTree m ntime) = m.hashval := by
  rw [signNewTime, BlockMsg.num, BlockMsg.num, hown]
  exact hashNum_inj

theorem signMsgs_total (msid ntime : UInt32) (ts : BlockEntries) :
    (∃ rs, signMsgs env msid ntime ts = some rs) ↔ InSequence msid (signRange env.own ts) := by
  induction ts generalizing msid ntime with
  | nil => exact ⟨fun _ => trivial, fun _ => ⟨[], rfl⟩⟩
  | cons t ts ih =>
      rw [signMsgs, signRange, List.takeWhile_cons]
      by_cases hown : t.2.svid = env.own
      · rw [if_neg (not_not.mpr hown), decide_eq_true hown, if_pos rfl, InSequence, ← signRange,
          ← ih (msid + 1) (ntime + 1)]
        split
        · rename_i hstop
          constructor
          · rintro ⟨rs, hrs⟩
            cases hrs
          · rintro ⟨hmsid, htype, -⟩
            exact absurd htype (hstop.resolve_left (not_not.mpr hmsid))
        · rename_i hgo
          rw [not_or, not_not, not_not] at hgo
          constructor
          · rintro ⟨rs, hrs⟩
            obtain ⟨rs', hrs', -⟩ := Option.map_eq_some_iff.mp hrs
            exact ⟨hgo.1, hgo.2, rs', hrs'⟩
          · rintro ⟨-, -, rs', hrs'⟩
            exact ⟨_, Option.map_eq_some_iff.mpr ⟨rs', hrs', rfl⟩⟩
      · rw [if_pos hown, decide_eq_false hown, if_neg Bool.false_ne_true]
        exact ⟨fun _ => trivial, fun _ => ⟨[], rfl⟩⟩

theorem signMsgs_signed {rs : BlockEntries} (h : signMsgs env msid ntime ts = some rs) :
    rs.map Prod.fst = (signRange env.own ts).map Prod.fst ∧
      (KeyedEntries ts → (KeyedEntries rs ↔ KeepsBytes env ntime (signRange env.own ts))) := by
  induction ts generalizing msid ntime rs with
  | nil =>
      cases h
      exact ⟨rfl, fun _ => ⟨fun _ => trivial, fun _ => keyedEntries_nil⟩⟩
  | cons t ts ih =>
      rw [signMsgs] at h
      rw [signRange, List.takeWhile_cons]
      by_cases hown : t.2.svid = env.own
      · rw [if_neg (not_not.mpr hown)] at h
        split at h
        · cases h
        obtain ⟨rs', hrs', rfl⟩ := Option.map_eq_some_iff.mp h
        obtain ⟨hkeys, hkeyed⟩ := ih hrs'
        rw [decide_eq_true hown, if_pos rfl, ← signRange]
        refine ⟨by rw [List.map_cons, List.map_cons, hkeys], fun hts => ?_⟩
        obtain ⟨ht, hts⟩ := keyedEntries_cons.mp hts
        rw [keyedEntries_cons, KeepsBytes, hkeyed hts]
        refine and_congr_left fun _ => ?_
        dsimp only
        rw [← ht]
        exact signNewTime_num hown
      · rw [if_pos hown] at h
        cases h
        rw [decide_eq_false hown, if_neg Bool.false_ne_true]
        exact ⟨rfl, fun _ => ⟨fun _ => trivial, fun _ => keyedEntries_nil⟩⟩

theorem signFrom_suffix (s : MsgStore) : s.signFrom <:+ s.msgs.toList := by
  rw [signFrom]
  cases s.sign with
  | nil => exact List.nil_suffix
  | cons front _ => exact List.dropWhile_suffix _

theorem signlater_keyed_iff (h : s.signlater env msid ntime = some s') (hs : Keyed s.msgs) :
    Keyed s'.msgs ↔ KeepsBytes env ntime (signRange env.own s.signFrom) := by
  obtain ⟨rs, hrs, h⟩ := Option.bind_eq_some_iff.mp h
  cases h
  obtain ⟨hkeys, hkeyed⟩ := signMsgs_signed hrs
  have hsuffix := s.signFrom_suffix
  have hentries : KeyedEntries s.signFrom := fun t ht =>
    keyed_iff_entries.mp hs t (hsuffix.subset ht)
  have hnodup : (rs.map Prod.fst).Nodup := by
    rw [hkeys]
    have hsub : (signRange env.own s.signFrom).Sublist s.msgs.toList :=
      (List.takeWhile_sublist _).trans hsuffix.sublist
    exact (Map.nodup_keys s.msgs).sublist (hsub.map _)
  rw [← hkeyed hentries]
  constructor
  · intro hafter t ht
    exact hafter t.1 t.2 (getElem?_foldl_insert hnodup ht)
  · intro hsigned
    exact hs.foldl_insert hsigned

/-- The condition on a step: messages that are signed again keep the bytes in their keys. -/
def Keeps (env : StoreEnv) (s : MsgStore) : StoreEvent → Prop
  | .signlater msid ntime => InSequence msid (signRange env.own s.signFrom) →
      KeepsBytes env ntime (signRange env.own s.signFrom)
  | _ => True

theorem step_keyed_iff {event : StoreEvent} (h : s.step env event = some s') (hs : Keyed s.msgs) :
    Keyed s'.msgs ↔ Keeps env s event := by
  cases event with
  | insert now msg => exact iff_of_true (txsInsert_keyed h hs) trivial
  | final e => exact iff_of_true (lastBlockFinal_keyed h hs) trivial
  | signlater msid ntime =>
      obtain ⟨rs, hrs, -⟩ := Option.bind_eq_some_iff.mp h
      have hsequence := (signMsgs_total msid ntime s.signFrom).mp ⟨rs, hrs⟩
      rw [signlater_keyed_iff h hs, Keeps]
      exact ⟨fun hkeeps _ => hkeeps, fun hkeeps => hkeeps hsequence⟩
  | mark key dat com val bad path =>
      refine iff_of_true ?_ trivial
      rw [step] at h
      cases hold : s.msgs[key]? with
      | none =>
          rw [hold] at h
          cases h
          exact hs
      | some m =>
          rw [hold] at h
          cases h
          exact hs.insert (hs key m hold)

/-- A step without a state after it: an assertion failed or the walk left C++. -/
theorem keeps_of_none {event : StoreEvent} (h : s.step env event = none) : Keeps env s event := by
  cases event with
  | signlater msid ntime =>
      intro hsequence
      obtain ⟨rs, hrs⟩ := (signMsgs_total msid ntime s.signFrom).mpr hsequence
      have hsome : s.signlater env msid ntime = some _ :=
        Option.bind_eq_some_iff.mpr ⟨rs, hrs, rfl⟩
      rw [step, hsome] at h
      cases h
  | insert now msg => trivial
  | final e => trivial
  | mark key dat com val bad path => trivial

theorem run_concat (env : StoreEnv) (s : MsgStore) (pre : List StoreEvent) (event : StoreEvent) :
    s.run env (pre ++ [event]) = (s.run env pre).bind fun s₁ => s₁.step env event := by
  rw [run, List.foldlM_append]
  refine congrArg _ (funext fun s₁ => ?_)
  rw [List.foldlM_cons]
  cases s₁.step env event with
  | none => rfl
  | some s₂ => rfl

/-- The entries are under the keys of their messages in every state of a run exactly when all
messages that are signed again keep the bytes in their keys. -/
theorem run_keyed_iff (env : StoreEnv) (hs : Keyed s.msgs) (events : List StoreEvent) :
    (∀ pre post s', events = pre ++ post → s.run env pre = some s' → Keyed s'.msgs) ↔
      ∀ pre event post s', events = pre ++ event :: post → s.run env pre = some s' →
        Keeps env s' event := by
  constructor
  · intro hkeyed pre event post s' hsplit hrun
    cases hstep : s'.step env event with
    | none => exact keeps_of_none hstep
    | some s'' =>
        have hnext : s.run env (pre ++ [event]) = some s'' := by
          rw [run_concat, hrun]
          exact hstep
        have hafter := hkeyed (pre ++ [event]) post s'' (by simp [hsplit]) hnext
        exact (step_keyed_iff hstep (hkeyed pre _ s' hsplit hrun)).mp hafter
  · intro hkeeps pre
    induction pre using List.reverseRecOn with
    | nil =>
        intro post s' _ hrun
        cases hrun
        exact hs
    | append_singleton pre event ih =>
        intro post s' hsplit hrun
        rw [run_concat] at hrun
        obtain ⟨s₁, hrun₁, hstep⟩ := Option.bind_eq_some_iff.mp hrun
        rw [List.append_assoc] at hsplit
        have hbefore := ih _ s₁ hsplit hrun₁
        exact (step_keyed_iff hstep hbefore).mpr (hkeeps pre event post s₁ hsplit hrun₁)

instance decidableInSequence :
    (msid : UInt32) → (ts : BlockEntries) → Decidable (InSequence msid ts)
  | _, [] => .isTrue trivial
  | msid, _ :: ts =>
    have := decidableInSequence (msid + 1) ts
    inferInstanceAs (Decidable (_ ∧ _ ∧ _))

instance decidableKeepsBytes (env : StoreEnv) :
    (ntime : UInt32) → (ts : BlockEntries) → Decidable (KeepsBytes env ntime ts)
  | _, [] => .isTrue trivial
  | ntime, _ :: ts =>
    have := decidableKeepsBytes env (ntime + 1) ts
    inferInstanceAs (Decidable (_ ∧ _))

/-- Node 1, with a hash that depends on the time only. -/
def ownEnv : StoreEnv where
  own := 1
  lastDbl _ := false
  hashTree _ ntime := BitVec.ofNat 256 (256 * ntime.toNat)

def ownMsg : BlockMsg :=
  { svid := 1, msid := 1, hashval := 7, sigh := BitVec.ofNat 256 (256 * 7), len := 100, peer := 1
    now := 7, dat := true }

/-- A block ends without the message. -/
def missedBlock : BlockEnd where
  own := 1
  block := 512
  lastNow := 0
  lastNodes := 2
  lastMsid _ := 0

/-- The node stores and processes its message, the block goes without it and it is signed
again. -/
def missedRun : List StoreEvent :=
  [.insert 512 ownMsg, .mark ownMsg.num true true false false 512, .final missedBlock,
    .signlater 0 600]

/-- The message is then not found under its key. -/
theorem signlater_loses_key : ∃ s, MsgStore.run ownEnv {} missedRun = some s ∧ ¬Keyed s.msgs := by
  have hrun : (MsgStore.run ownEnv {} missedRun).any
      (fun s => s.msgs.toList.any fun t => t.2.num != t.1) = true := by decide +kernel
  cases hs : MsgStore.run ownEnv {} missedRun with
  | none =>
      rw [hs] at hrun
      cases hrun
  | some s =>
      rw [hs] at hrun
      refine ⟨s, rfl, fun hkeyed => ?_⟩
      obtain ⟨t, ht, hne⟩ := List.any_eq_true.mp hrun
      exact bne_iff_ne.mp hne (keyed_iff_entries.mp hkeyed t ht)

def resigned : MsgStore where
  msgs := (∅ : Map UInt64 BlockMsg).insert ownMsg.num ownMsg
  sign := [ownMsg.num]

/-- A new time with the same byte. -/
theorem signlater_keeps_key :
    Keyed resigned.msgs ∧ ∀ pre post s, [.signlater 0 263] = pre ++ post →
      resigned.run ownEnv pre = some s → Keyed s.msgs := by
  have hkeyed : Keyed resigned.msgs := Keyed.empty.insert rfl
  refine ⟨hkeyed, (run_keyed_iff ownEnv hkeyed _).mpr ?_⟩
  intro pre event post s hsplit hrun
  cases pre with
  | nil =>
      cases hrun
      cases hsplit
      intro _
      decide +kernel
  | cons _ pre => simp at hsplit

end MsgStore

end Esc
