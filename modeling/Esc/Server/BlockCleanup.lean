import Esc.Server.BlockMsgs

/-!
# The walk over the messages at the end of a block

Every message of the map has a fate that depends on the message alone: the thresholds that
the walk carries from message to message are zero, since the node table is read for nodes
that are not in it. From the fates follow the map behind the walk and the faults in it.
-/

namespace Esc

open Lib

namespace BlockEnd

variable (e : BlockEnd)

/-- The message that is queued. -/
def queued (m : BlockMsg) : BlockMsg :=
  if m.val ∧ m.com = false then
    if m.msid = dblMsid then { m with com := true }
    else if m.dat then m
    else
      match e.bad m.sigh with
      | some b => if b.num = m.num then { b.move e.block with val := true, bad := false } else m
      | none => m
  else m

/-- What the walk makes of a message; `none` is an entry that is erased. -/
def fate (m : BlockMsg) : Except WalkFault (Option BlockMsg) :=
  if m.msid = 0 then .ok none
  else if m.bad then .error .erasedRead
  else if m.val = false ∧ m.com then
    if m.now < e.block then
      if m.svid = e.own then .ok (some { m with com := false, bad := true }) else .ok none
    else .ok (some { m.move (e.block + blockSec) with com := false })
  else if m.val = false ∧ m.path ≠ 0 ∧ m.path ≤ e.block then
    if m.now < e.lastNow then
      if m.svid = e.own then .error .erasedRead else .error .erasedTwice
    else .ok (some (m.move (e.block + blockSec)))
  else .ok (some (e.queued m))

/-- The walk behind the message `m` with the key `k`, of which it makes `r`. -/
structure Cleaned (w : Walk) (k : UInt64) (m : BlockMsg) (r : Option BlockMsg) (w' : Walk) :
    Prop where
  lastsvid : w'.lastsvid = m.svid
  minmsid : w'.minmsid = 0
  msgs : ∀ k', w'.msgs[k']? = if k' = k then r else w.msgs[k']?

variable {e} {w w' : Walk} {k : UInt64} {m : BlockMsg}

theorem enterNode_eq_ok {w₁ : Walk} (hmin : w.minmsid = 0) (h : e.enterNode w m = .ok w₁) :
    (m.svid ≠ w.lastsvid → m.svid.toNat < e.lastNodes) ∧
      w₁ = { w with lastsvid := m.svid, minmsid := 0 } := by
  rw [enterNode] at h
  split at h
  · rename_i hsvid
    cases h
    refine ⟨fun hne => absurd hsvid hne, ?_⟩
    rw [hsvid, ← hmin]
  · split at h
    · cases h
    · rename_i hlt
      cases h
      exact ⟨fun _ => Nat.lt_of_not_le hlt, rfl⟩

theorem enterNode_total (h : m.svid ≠ w.lastsvid → m.svid.toNat < e.lastNodes) :
    ∃ w₁, e.enterNode w m = .ok w₁ := by
  rw [enterNode]
  split
  · exact ⟨w, rfl⟩
  · rename_i hne
    rw [if_neg (Nat.not_le.mpr (h hne))]
    exact ⟨_, rfl⟩

theorem queueMsg_msgs (hk : w.msgs[k]? = some m) (k' : UInt64) :
    (e.queueMsg w k m).msgs[k']? = if k' = k then some (e.queued m) else w.msgs[k']? := by
  have hsame : w.msgs[k']? = if k' = k then some m else w.msgs[k']? := by
    split
    · rename_i heq
      rw [heq, hk]
    · rfl
  rw [queueMsg, queued]
  split
  · split
    · exact Map.getElem?_insert ..
    · split
      · exact hsame
      · cases e.bad m.sigh with
        | none => exact hsame
        | some b =>
            dsimp only
            split
            · exact Map.getElem?_insert ..
            · exact hsame
  · exact hsame

theorem queueMsg_vars (w : Walk) (k : UInt64) (m : BlockMsg) :
    (e.queueMsg w k m).lastsvid = w.lastsvid ∧ (e.queueMsg w k m).minmsid = w.minmsid := by
  rw [queueMsg]
  repeat' split
  all_goals exact ⟨rfl, rfl⟩

theorem Cleaned.insert (w : Walk) (k : UInt64) (m r : BlockMsg) (sign : List UInt64) :
    Cleaned w k m (some r)
      { msgs := w.msgs.insert k r, lastsvid := m.svid, minmsid := 0, sign := sign } :=
  ⟨rfl, rfl, fun k' => Map.getElem?_insert w.msgs k k' r⟩

theorem Cleaned.erase (w : Walk) (k : UInt64) (m : BlockMsg) :
    Cleaned w k m none { w with msgs := w.msgs.erase k, lastsvid := m.svid, minmsid := 0 } :=
  ⟨rfl, rfl, fun k' => Map.getElem?_erase w.msgs k k'⟩

/-- Behind the test of its node, a message meets its fate. -/
theorem cleanMsg_fate (hk : w.msgs[k]? = some m)
    (henter : e.enterNode w m = .ok { w with lastsvid := m.svid, minmsid := 0 }) :
    Both (fun f => e.fate m = .error f) (fun w' => ∃ r, e.fate m = .ok r ∧ Cleaned w k m r w')
      (e.cleanMsg w (k, m)) := by
  have hzero : m.msid ≤ 0 ↔ m.msid = 0 :=
    ⟨fun hle => UInt32.le_antisymm hle UInt32.zero_le, fun heq => heq ▸ UInt32.le_refl _⟩
  have hinsert : ∀ r₁ r₂ : BlockMsg, (w.msgs.insert k r₁).insert k r₂ = w.msgs.insert k r₂ := by
    intro r₁ r₂
    refine Std.ExtTreeMap.ext_getElem? fun k' => ?_
    rw [Map.getElem?_insert, Map.getElem?_insert, Map.getElem?_insert]
    split <;> rfl
  have herase : ∀ r : BlockMsg, (w.msgs.insert k r).erase k = w.msgs.erase k :=
    Map.erase_insert w.msgs k
  simp only [cleanMsg, henter, fate, bind, Except.bind, hzero, hinsert, herase]
  split
  · exact ⟨none, rfl, .erase w k m⟩
  split
  · exact rfl
  split
  · split
    · split
      · exact ⟨_, rfl, .insert w k m _ _⟩
      · exact ⟨_, rfl, .erase w k m⟩
    · exact ⟨_, rfl, .insert w k m _ _⟩
  split
  · split
    · split
      · exact rfl
      · exact rfl
    · exact ⟨_, rfl, .insert w k m _ _⟩
  · obtain ⟨hlast, hmin⟩ :=
      @queueMsg_vars e { w with lastsvid := m.svid, minmsid := 0 } k m
    exact ⟨_, rfl, hlast, hmin,
      @queueMsg_msgs e { w with lastsvid := m.svid, minmsid := 0 } k m hk⟩

/-- The walk goes on behind a message exactly when its node is in the table, or is the node
of the message before, and its fate is no fault. -/
theorem cleanMsg_eq_ok (hmin : w.minmsid = 0) (hk : w.msgs[k]? = some m)
    (h : e.cleanMsg w (k, m) = .ok w') :
    (m.svid ≠ w.lastsvid → m.svid.toNat < e.lastNodes) ∧
      ∃ r, e.fate m = .ok r ∧ Cleaned w k m r w' := by
  obtain ⟨w₁, henter, -⟩ := Lib.bind_eq_ok h
  obtain ⟨hnode, rfl⟩ := enterNode_eq_ok hmin henter
  exact ⟨hnode, (cleanMsg_fate hk henter).ok h⟩

theorem cleanMsg_total (hmin : w.minmsid = 0) (hk : w.msgs[k]? = some m)
    (hnode : m.svid ≠ w.lastsvid → m.svid.toNat < e.lastNodes) {r : Option BlockMsg}
    (hfate : e.fate m = .ok r) : ∃ w', e.cleanMsg w (k, m) = .ok w' ∧ Cleaned w k m r w' := by
  obtain ⟨w₁, henter⟩ := enterNode_total hnode
  obtain ⟨-, rfl⟩ := enterNode_eq_ok hmin henter
  have hboth := cleanMsg_fate hk henter
  cases hclean : e.cleanMsg w (k, m) with
  | error f =>
      have herror := hboth.error hclean
      rw [hfate] at herror
      cases herror
  | ok w' =>
      obtain ⟨r', hr', hcleaned⟩ := hboth.ok hclean
      rw [hfate] at hr'
      cases hr'
      exact ⟨w', rfl, hcleaned⟩

/-- The messages in the order of the walk. -/
def walkOrder (msgs : Map UInt64 BlockMsg) : BlockEntries := msgs.toList.reverse

theorem mem_walkOrder {msgs : Map UInt64 BlockMsg} {t : UInt64 × BlockMsg} :
    t ∈ walkOrder msgs ↔ msgs[t.1]? = some t.2 := by
  rw [walkOrder, List.mem_reverse, Map.mem_toList]

theorem nodup_walkOrder (msgs : Map UInt64 BlockMsg) : ((walkOrder msgs).map Prod.fst).Nodup := by
  rw [walkOrder, List.map_reverse, List.nodup_reverse]
  exact Map.nodup_keys msgs

/-- The node of the last message. -/
def lastSvid (pre : BlockEntries) : UInt16 := (pre.getLast?.map fun t => t.2.svid).getD 0

/-- The walk over `msgs` behind the messages `pre`. -/
structure Walked (e : BlockEnd) (msgs : Map UInt64 BlockMsg) (pre : BlockEntries) (w : Walk) :
    Prop where
  minmsid : w.minmsid = 0
  lastsvid : w.lastsvid = lastSvid pre
  node : ∀ pre' t post', pre = pre' ++ t :: post' → t.2.svid ≠ lastSvid pre' →
    t.2.svid.toNat < e.lastNodes
  fates : ∀ t ∈ pre, e.fate t.2 = .ok w.msgs[t.1]?
  others : ∀ k, k ∉ pre.map Prod.fst → w.msgs[k]? = msgs[k]?

variable {msgs : Map UInt64 BlockMsg} {pre : BlockEntries}

theorem Walked.step {t : UInt64 × BlockMsg} (h : Walked e msgs pre w)
    (hnew : t.1 ∉ pre.map Prod.fst)
    (hnode : t.2.svid ≠ w.lastsvid → t.2.svid.toNat < e.lastNodes) {r : Option BlockMsg}
    (hfate : e.fate t.2 = .ok r) (hcleaned : Cleaned w t.1 t.2 r w') :
    Walked e msgs (pre ++ [t]) w' := by
  refine ⟨hcleaned.minmsid, ?_, ?_, ?_, ?_⟩
  · rw [hcleaned.lastsvid, lastSvid, List.getLast?_concat]
    rfl
  · intro pre' t' post' hsplit
    rcases List.eq_nil_or_concat post' with rfl | ⟨post', x, rfl⟩
    · obtain ⟨rfl, heq⟩ := List.append_inj' hsplit rfl
      cases heq
      rw [← h.lastsvid]
      exact hnode
    · rw [List.concat_eq_append, ← List.cons_append, ← List.append_assoc] at hsplit
      obtain ⟨rfl, -⟩ := List.append_inj' hsplit rfl
      exact h.node pre' t' post' rfl
  · intro t' ht'
    rw [hcleaned.msgs]
    rcases List.mem_append.mp ht' with ht' | ht'
    · have hne : t'.1 ≠ t.1 := fun heq => hnew (heq ▸ List.mem_map.mpr ⟨t', ht', rfl⟩)
      rw [if_neg hne]
      exact h.fates t' ht'
    · cases List.mem_singleton.mp ht'
      rw [if_pos rfl]
      exact hfate
  · intro k hk
    rw [List.map_append, List.mem_append, not_or, List.map_singleton, List.mem_singleton] at hk
    rw [hcleaned.msgs, if_neg hk.2, h.others k hk.1]

theorem Walked.init (e : BlockEnd) (msgs : Map UInt64 BlockMsg) (sign : List UInt64) :
    Walked e msgs [] { msgs := msgs, sign := sign } :=
  ⟨rfl, rfl, by simp, by simp, fun _ _ => rfl⟩

theorem not_mem_of_walkOrder {t : UInt64 × BlockMsg} {post : BlockEntries}
    (h : pre ++ t :: post = walkOrder msgs) : t.1 ∉ pre.map Prod.fst := by
  have hnodup := nodup_walkOrder msgs
  rw [← h, List.map_append, List.map_cons] at hnodup
  intro hmem
  exact (List.nodup_append.mp hnodup).2.2 t.1 hmem t.1 List.mem_cons_self rfl

theorem Walked.stored (h : Walked e msgs pre w) {t : UInt64 × BlockMsg} {post : BlockEntries}
    (hsplit : pre ++ t :: post = walkOrder msgs) :
    msgs[t.1]? = some t.2 ∧ w.msgs[t.1]? = some t.2 := by
  have ht : msgs[t.1]? = some t.2 := by
    rw [← mem_walkOrder, ← hsplit]
    exact List.mem_append_right _ List.mem_cons_self
  exact ⟨ht, (h.others t.1 (not_mem_of_walkOrder hsplit)).trans ht⟩

/-- A walk that meets no fault. -/
theorem clean_walked {sign : List UInt64} (h : e.clean { msgs := msgs, sign := sign } = .ok w') :
    Walked e msgs (walkOrder msgs) w' := by
  refine foldlM_invariant (Walked e msgs) (Walked.init e msgs sign) ?_ h
  intro pre t post w w' hsplit hwalked hstep
  obtain ⟨-, hw⟩ := hwalked.stored hsplit
  obtain ⟨hnode, r, hfate, hcleaned⟩ := cleanMsg_eq_ok hwalked.minmsid hw hstep
  exact hwalked.step (not_mem_of_walkOrder hsplit) hnode hfate hcleaned

/-- The walk meets no fault when the nodes and the fates allow it. -/
theorem clean_total (sign : List UInt64)
    (hnode : ∀ pre t post, walkOrder msgs = pre ++ t :: post → t.2.svid ≠ lastSvid pre →
      t.2.svid.toNat < e.lastNodes)
    (hfate : ∀ t ∈ walkOrder msgs, ∃ r, e.fate t.2 = .ok r) :
    ∃ w', e.clean { msgs := msgs, sign := sign } = .ok w' := by
  have hwalk : ∀ post pre w, pre ++ post = walkOrder msgs → Walked e msgs pre w →
      ∃ w', post.foldlM e.cleanMsg w = .ok w' := by
    intro post
    induction post with
    | nil => exact fun _ w _ _ => ⟨w, rfl⟩
    | cons t post ih =>
        intro pre w hsplit hwalked
        obtain ⟨ht, hw⟩ := hwalked.stored hsplit
        obtain ⟨r, hr⟩ := hfate t (mem_walkOrder.mpr ht)
        have hnode' : t.2.svid ≠ w.lastsvid → t.2.svid.toNat < e.lastNodes := by
          rw [hwalked.lastsvid]
          exact hnode pre t post hsplit.symm
        obtain ⟨w₁, hstep, hcleaned⟩ := cleanMsg_total hwalked.minmsid hw hnode' hr
        have hnext := hwalked.step (not_mem_of_walkOrder hsplit) hnode' hr hcleaned
        obtain ⟨w', hrest⟩ := ih (pre ++ [t]) w₁ (by rw [← hsplit, List.append_assoc]; rfl) hnext
        exact ⟨w', by rw [List.foldlM_cons, hstep]; exact hrest⟩
  exact hwalk _ [] _ rfl (Walked.init e msgs sign)

/-- The messages that the walk handles without a fault. -/
def Safe (e : BlockEnd) (m : BlockMsg) : Prop :=
  m.msid = 0 ∨ m.bad = false ∧
    (m.val = true ∨ m.com = true ∨ m.path = 0 ∨ e.block < m.path ∨ e.lastNow ≤ m.now)

/-- The messages that stay in the map. -/
def Stays (e : BlockEnd) (m : BlockMsg) : Prop :=
  m.msid ≠ 0 ∧ (m.val = true ∨ m.com = false ∨ e.block ≤ m.now ∨ m.svid = e.own)

theorem num_inj {m m' : BlockMsg} (h : m.num = m'.num) : m.svid = m'.svid ∧ m.msid = m'.msid := by
  have hnat := congrArg UInt64.toNat h
  rw [BlockMsg.num, BlockMsg.num, toNat_hashNum, toNat_hashNum] at hnat
  have hhash := m.hashval.toNat_lt
  have hhash' := m'.hashval.toNat_lt
  have htype := m.type.toNat_lt
  have htype' := m'.type.toNat_lt
  have hmsid := m.msid.toNat_lt
  have hmsid' := m'.msid.toNat_lt
  rw [← UInt16.toNat_inj, ← UInt32.toNat_inj]
  omega

theorem queued_ids (e : BlockEnd) (m : BlockMsg) :
    (e.queued m).svid = m.svid ∧ (e.queued m).msid = m.msid := by
  rw [queued]
  split
  · split
    · exact ⟨rfl, rfl⟩
    · split
      · exact ⟨rfl, rfl⟩
      · cases e.bad m.sigh with
        | none => exact ⟨rfl, rfl⟩
        | some b =>
            dsimp only
            split
            · rename_i hnum
              exact num_inj hnum
            · exact ⟨rfl, rfl⟩
  · exact ⟨rfl, rfl⟩

/-- What can become of a message. -/
theorem fate_cases (e : BlockEnd) (m : BlockMsg) :
    (∃ r, e.fate m = .ok (some r) ∧ r.svid = m.svid ∧ r.msid = m.msid ∧ e.Safe m ∧ e.Stays m) ∨
      (e.fate m = .ok none ∧ e.Safe m ∧ ¬e.Stays m) ∨ ((∃ f, e.fate m = .error f) ∧ ¬e.Safe m) := by
  rw [fate]
  split
  · rename_i hmsid
    exact Or.inr (Or.inl ⟨rfl, Or.inl hmsid, fun h => h.1 hmsid⟩)
  rename_i hmsid
  split
  · rename_i hbad
    refine Or.inr (Or.inr ⟨⟨_, rfl⟩, ?_⟩)
    rintro (h | ⟨h, -⟩)
    · exact hmsid h
    · rw [hbad] at h
      cases h
  rename_i hbad
  rw [Bool.not_eq_true] at hbad
  split
  · rename_i hundo
    have hsafe : e.Safe m := Or.inr ⟨hbad, Or.inr (Or.inl hundo.2)⟩
    split
    · rename_i hlate
      split
      · rename_i hown
        exact Or.inl ⟨_, rfl, rfl, rfl, hsafe, hmsid, by simp [hown]⟩
      · rename_i hown
        refine Or.inr (Or.inl ⟨rfl, hsafe, ?_⟩)
        rintro ⟨-, h | h | h | h⟩
        · rw [hundo.1] at h
          cases h
        · rw [hundo.2] at h
          cases h
        · exact UInt32.not_lt.mpr h hlate
        · exact hown h
    · rename_i hlate
      exact Or.inl ⟨_, rfl, rfl, rfl, hsafe, hmsid, by simp [UInt32.not_lt.mp hlate]⟩
  rename_i hundo
  split
  · rename_i hmove
    have hcom : m.com = false := by
      rw [← Bool.not_eq_true]
      exact fun hcom => hundo ⟨hmove.1, hcom⟩
    split
    · rename_i hlate
      refine Or.inr (Or.inr ⟨?_, ?_⟩)
      · split
        · exact ⟨_, rfl⟩
        · exact ⟨_, rfl⟩
      · rintro (h | ⟨-, h | h | h | h | h⟩)
        · exact hmsid h
        · rw [hmove.1] at h
          cases h
        · rw [hcom] at h
          cases h
        · exact hmove.2.1 h
        · exact UInt32.not_lt.mpr hmove.2.2 h
        · exact UInt32.not_lt.mpr h hlate
    · rename_i hlate
      exact Or.inl ⟨_, rfl, rfl, rfl, Or.inr ⟨hbad, by simp [UInt32.not_lt.mp hlate]⟩, hmsid,
        by simp [hcom]⟩
  · rename_i hmove
    obtain ⟨hsvid, hmsid'⟩ := e.queued_ids m
    refine Or.inl ⟨_, rfl, hsvid, hmsid', ?_⟩
    cases hval : m.val with
    | true => exact ⟨Or.inr ⟨hbad, Or.inl hval⟩, hmsid, Or.inl hval⟩
    | false =>
        have hcom : m.com = false := by
          rw [← Bool.not_eq_true]
          exact fun hcom => hundo ⟨hval, hcom⟩
        have hpath : m.path = 0 ∨ e.block < m.path := by
          by_cases hpath : m.path = 0
          · exact Or.inl hpath
          · exact Or.inr (UInt32.not_le.mp fun hle => hmove ⟨hval, hpath, hle⟩)
        refine ⟨Or.inr ⟨hbad, ?_⟩, hmsid, Or.inr (Or.inl hcom)⟩
        exact Or.inr (Or.inr (hpath.imp_right Or.inl))

/-- What the walk is for: it ends without a fault, and no message that is not newer than the
last one of its node in the last block is left. -/
def Forgets (e : BlockEnd) (msgs : Map UInt64 BlockMsg) (sign : List UInt64) : Prop :=
  ∃ w, e.clean { msgs := msgs, sign := sign } = .ok w ∧
    ∀ (k : UInt64) m, w.msgs[k]? = some m → e.lastMsid m.svid < m.msid

/-- The maps for which it does that. -/
structure Forgettable (e : BlockEnd) (msgs : Map UInt64 BlockMsg) : Prop where
  node : ∀ pre t post, walkOrder msgs = pre ++ t :: post → t.2.svid ≠ lastSvid pre →
    t.2.svid.toNat < e.lastNodes
  safe : ∀ (k : UInt64) m, msgs[k]? = some m → e.Safe m
  newer : ∀ (k : UInt64) m, msgs[k]? = some m → e.Stays m → e.lastMsid m.svid < m.msid

/-- The map behind the walk. -/
theorem Walked.getElem? (h : Walked e msgs (walkOrder msgs) w) (k : UInt64) :
    (∃ m, msgs[k]? = some m ∧ e.fate m = .ok w.msgs[k]?) ∨ msgs[k]? = none ∧ w.msgs[k]? = none := by
  cases hk : msgs[k]? with
  | none =>
      refine Or.inr ⟨rfl, ?_⟩
      rw [h.others k, hk]
      intro hmem
      obtain ⟨t, ht, rfl⟩ := List.mem_map.mp hmem
      rw [mem_walkOrder.mp ht] at hk
      cases hk
  | some m => exact Or.inl ⟨m, rfl, h.fates (k, m) (mem_walkOrder.mpr hk)⟩

/-- The walk cleans the map exactly when all messages are of known nodes, none is bad or late
and all that stay are newer than the last block. -/
theorem forgets_iff (e : BlockEnd) (msgs : Map UInt64 BlockMsg) (sign : List UInt64) :
    e.Forgets msgs sign ↔ e.Forgettable msgs := by
  constructor
  · rintro ⟨w, hclean, hnewer⟩
    have hwalked := clean_walked hclean
    refine ⟨hwalked.node, fun k m hk => ?_, fun k m hk hstays => ?_⟩
    · have hfate := hwalked.fates (k, m) (mem_walkOrder.mpr hk)
      rcases e.fate_cases m with ⟨r, -, -, -, hsafe, -⟩ | ⟨-, hsafe, -⟩ | ⟨⟨f, hf⟩, -⟩
      · exact hsafe
      · exact hsafe
      · rw [hf] at hfate
        cases hfate
    · have hfate := hwalked.fates (k, m) (mem_walkOrder.mpr hk)
      rcases e.fate_cases m with ⟨r, hr, hsvid, hmsid, -, -⟩ | ⟨-, -, hgone⟩ | ⟨⟨f, hf⟩, -⟩
      · rw [hr] at hfate
        have hleft := hnewer k r (Except.ok.inj hfate).symm
        rwa [hsvid, hmsid] at hleft
      · exact absurd hstays hgone
      · rw [hf] at hfate
        cases hfate
  · rintro ⟨hnode, hsafe, hnewer⟩
    have hfate : ∀ t ∈ walkOrder msgs, ∃ r, e.fate t.2 = .ok r := by
      intro t ht
      rcases e.fate_cases t.2 with ⟨r, hr, -⟩ | ⟨hr, -⟩ | ⟨-, hunsafe⟩
      · exact ⟨_, hr⟩
      · exact ⟨_, hr⟩
      · exact absurd (hsafe t.1 t.2 (mem_walkOrder.mp ht)) hunsafe
    obtain ⟨w, hclean⟩ := clean_total sign hnode hfate
    refine ⟨w, hclean, fun k r hk => ?_⟩
    rcases (clean_walked hclean).getElem? k with ⟨m, hm, hfate⟩ | ⟨-, hnone⟩
    · rw [hk] at hfate
      rcases e.fate_cases m with ⟨r', hr', hsvid, hmsid, -, hstays⟩ | ⟨hr', -⟩ | ⟨⟨f, hf⟩, -⟩
      · rw [hr'] at hfate
        cases hfate
        rw [hsvid, hmsid]
        exact hnewer k m hm hstays
      · rw [hr'] at hfate
        cases hfate
      · rw [hf] at hfate
        cases hfate
    · rw [hk] at hnone
      cases hnone

/-- Two nodes; the last message of node 1 in the last block has the number 5. -/
def oldBlock : BlockEnd where
  own := 1
  block := 0x60000000
  lastNow := 0x5FFFFE00
  lastNodes := 2
  lastMsid svid := if svid = 1 then 5 else 0

def oldMsg : BlockMsg :=
  { svid := 1, msid := 5, hashval := 0, dat := true, com := true, val := true }

def badMsg : BlockMsg := { svid := 1, msid := 6, hashval := 0, dat := true, bad := true }

def single (m : BlockMsg) : Map UInt64 BlockMsg := (∅ : Map UInt64 BlockMsg).insert m.num m

/-- The message that is to be forgotten stays, and a bad one is read after it was erased. -/
theorem clean_keeps_old :
    ¬oldBlock.Forgets (single oldMsg) [] ∧ ¬oldBlock.Forgets (single badMsg) [] := by
  constructor
  · rintro ⟨w, hclean, hnewer⟩
    have hkept : succeeds (oldBlock.clean { msgs := single oldMsg, sign := [] })
        fun w => w.msgs[oldMsg.num]? == some oldMsg := by decide +kernel
    obtain ⟨w', hclean', hmem⟩ := exists_of_succeeds hkept
    rw [hclean'] at hclean
    cases hclean
    exact absurd (hnewer _ _ (eq_of_beq hmem)) (by decide)
  · rintro ⟨w, hclean, -⟩
    have hfault : succeeds (oldBlock.clean { msgs := single badMsg, sign := [] })
        (fun _ => true) = false := by decide +kernel
    rw [hclean] at hfault
    cases hfault

end BlockEnd

end Esc
