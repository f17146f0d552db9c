import Esc.Message.Positions
import Esc.Server.NodeKey

/-!
# Keys of the block maps

A transaction that waits for the end of the block is stored in one of seven maps under
a key made of its position in the message, the distance of the message from the last
one of the previous block, the sending bank and a second bank. Position and distance
have 16 bits each.

A `BlockTrace` follows the messages of a block, processed, rejected and undone. When no
message is longer and no node sends more messages than the key can count, the keys are
different and the maps hold exactly the transactions of the block.
-/

namespace Esc

open Lib

variable {env : Env} {c : Ctx} {s s' : State} {L : Loop} {t : UserTxs} {msg : Message}
  {pos : UInt32} {x : BlockSlot} {u u' : Undo} {i : Nat} {block : List Ctx}

/-- The maps that collect transactions until the end of the block. -/
inductive BlockMap where
  | bnk | get | usr | uok | sbs | ubs | bky
deriving DecidableEq, Repr

/-- A place in the block maps. -/
abbrev BlockSlot := BlockMap × UInt64

def Requests.Has (r : Requests) (k : UInt64) : BlockMap → Prop
  | .bnk => k ∈ r.bnk
  | .get => k ∈ r.get
  | .usr => k ∈ r.usr
  | .uok => k ∈ r.uok
  | .sbs => k ∈ r.sbs
  | .ubs => k ∈ r.ubs
  | .bky => False

/-- The place is taken. -/
def State.Stores (s : State) (x : BlockSlot) : Prop :=
  s.blk.Has x.2 x.1 ∨ x.1 = .bky ∧ x.2 ∈ s.blkBky

namespace UserTxs

/-- The place of a transaction of a message; most transactions have none. Key changes
wait only when they are for a closed node. -/
def slot (t : UserTxs) (c : Ctx) (pos : UInt32) : Option BlockSlot :=
  let own := c.keyAt pos c.msg.svid
  let other := c.keyAt pos t.bbank
  let voting := hasBit (c.s.last.node c.msg.svid).status serverVip || t.abank = t.bbank
  match t.ttype with
  | .usr => if t.abank = t.bbank then none else some (.usr, own)
  | .uok => some (.uok, own)
  | .bnk => some (.bnk, own)
  | .get => some (.get, other)
  | .sbs => if voting then some (.sbs, other) else none
  | .ubs => if voting then some (.ubs, other) else none
  | .bky =>
      if t.rekeyed c ≠ 0 && hasBit (c.s.last.node (t.rekeyed c)).status serverDbl then
        some (.bky, c.keyAt pos (t.rekeyed c))
      else none
  | _ => none

end UserTxs

/-- The part of a key that tells transactions apart: position, message and node. -/
def Ctx.mark (c : Ctx) (pos : UInt32) : Nat :=
  pos.toNat % 2 ^ 16 + 2 ^ 16 * ((c.msg.msid - c.omsid).toNat % 2 ^ 16) +
    2 ^ 32 * c.msg.svid.toNat

theorem Ctx.keyAt_mod (c : Ctx) (pos : UInt32) (bbank : UInt16) :
    (c.keyAt pos bbank).toNat % 2 ^ 48 = c.mark pos := by
  have hsvid := c.msg.svid.toNat_lt
  rw [Ctx.keyAt, toNat_makePpi, Ctx.mark]
  omega

theorem UserTxs.slot_eq_bky_iff {k : UInt64} :
    t.slot c pos = some (.bky, k) ↔
      t.rekeyed c ≠ 0 ∧ hasBit (c.s.last.node (t.rekeyed c)).status serverDbl = true ∧
        k = c.keyAt pos (t.rekeyed c) := by
  by_cases hty : t.ttype = .bky
  · unfold UserTxs.slot
    simp only [hty]
    split
    · rename_i h
      simp only [ne_eq, Bool.and_eq_true, decide_eq_true_eq] at h
      simp [h.1, h.2, eq_comm]
    · rename_i h
      simp only [ne_eq, Bool.and_eq_true, decide_eq_true_eq, not_and] at h
      simp only [reduceCtorEq, false_iff, not_and]
      exact fun hne hdbl => absurd hdbl (h hne)
  · have hzero : t.rekeyed c = 0 := if_neg hty
    simp only [hzero, ne_eq, not_true_eq_false, false_and, iff_false]
    unfold UserTxs.slot
    cases hty' : t.ttype <;> simp_all

/-- A request of a transaction is stored at its place, and nowhere else. -/
theorem UserTxs.request_has (t : UserTxs) (c : Ctx) (pos : UInt32) (pkey : Hash) (r : Requests)
    (x : BlockSlot) :
    (t.request c pos pkey r).Has x.2 x.1 ↔
      r.Has x.2 x.1 ∨ t.slot c pos = some x ∧ x.1 ≠ .bky := by
  obtain ⟨m, k⟩ := x
  unfold UserTxs.request UserTxs.slot
  cases t.ttype <;> simp only
  all_goals try split
  all_goals cases m <;> simp [Requests.Has, or_comm]

/-- The places of the first transactions of a message. -/
def Ctx.slotsOf (c : Ctx) (txs : List UserTxs) : List BlockSlot :=
  txs.zipIdx.filterMap fun x => x.1.slot c (UInt32.ofNat (x.2 + 1))

/-- The places of a message. -/
def Ctx.slots (c : Ctx) : List BlockSlot := c.slotsOf c.msg.txs

theorem Ctx.mem_slotsOf {txs : List UserTxs} :
    x ∈ c.slotsOf txs ↔ ∃ (i : Nat) (t : UserTxs), txs[i]? = some t ∧
      t.slot c (UInt32.ofNat (i + 1)) = some x := by
  simp only [Ctx.slotsOf, List.mem_filterMap, Prod.exists, List.mem_zipIdx_iff_getElem?]
  exact ⟨fun ⟨t, i, h⟩ => ⟨i, t, h⟩, fun ⟨i, t, h⟩ => ⟨t, i, h⟩⟩

theorem Ctx.slotsOf_concat (c : Ctx) (pre : List UserTxs) (t : UserTxs) :
    c.slotsOf (pre ++ [t]) =
      c.slotsOf pre ++ (t.slot c (UInt32.ofNat (pre.length + 1))).toList := by
  simp only [Ctx.slotsOf, List.zipIdx_append, List.filterMap_append, List.zipIdx_singleton,
    Nat.zero_add]
  rw [List.filterMap_cons, List.filterMap_nil]
  cases t.slot c (UInt32.ofNat (pre.length + 1)) <;> rfl

/-- The loop stores each transaction at its place. -/
structure Placed (c : Ctx) (pre : List UserTxs) (L : Loop) : Prop where
  tmpos : L.tmpos = UInt32.ofNat pre.length
  has : ∀ x : BlockSlot, L.txs.Has x.2 x.1 ↔ x ∈ c.slotsOf pre ∧ x.1 ≠ .bky
  bky : ∀ k, k ∈ L.txsBky ∧ hasBit (c.s.last.node (ppiBbank k)).status serverDbl = true ↔
    (BlockMap.bky, k) ∈ c.slotsOf pre

theorem processTx_placed {pre : List UserTxs} {L' : Loop} (h : Placed c pre L)
    (hstep : processTx c L t = .ok L') : Placed c (pre ++ [t]) L' := by
  have hspec := processTx_spec hstep
  have hpos : L.tmpos + 1 = UInt32.ofNat (pre.length + 1) := by
    rw [h.tmpos, UInt32.ofNat_add]
    rfl
  refine ⟨?_, ?_, ?_⟩
  · rw [hspec.tmpos, hpos, List.length_append]
    rfl
  · intro x
    rw [hspec.txs, UserTxs.request_has, h.has, hpos, c.slotsOf_concat, List.mem_append,
      Option.mem_toList, or_and_right]
  · intro k
    rw [hspec.txsBky, UserTxs.rekey, hpos, c.slotsOf_concat, List.mem_append, Option.mem_toList,
      ← h.bky, UserTxs.slot_eq_bky_iff]
    split
    · rename_i hzero
      simp [hzero]
    · rename_i hne
      rw [Map.mem_insert_iff]
      constructor
      · rintro ⟨rfl | hmem, hdbl⟩
        · rw [Ctx.keyAt, ppiBbank_makePpi] at hdbl
          exact Or.inr ⟨hne, hdbl, rfl⟩
        · exact Or.inl ⟨hmem, hdbl⟩
      · rintro (⟨hmem, hdbl⟩ | ⟨-, hdbl, rfl⟩)
        · exact ⟨Or.inr hmem, hdbl⟩
        · refine ⟨Or.inl rfl, ?_⟩
          rw [Ctx.keyAt, ppiBbank_makePpi]
          exact hdbl

theorem foldlM_processTx_placed (h : c.msg.txs.foldlM (processTx c) c.init = .ok L) :
    Placed c c.msg.txs L := by
  refine foldlM_invariant (Placed c) ⟨rfl, ?_, ?_⟩ ?_ h
  · intro x
    obtain ⟨m, k⟩ := x
    cases m <;> simp [Ctx.init, Requests.Has, Ctx.slotsOf]
  · intro k
    simp [Ctx.init, Ctx.slotsOf]
  · intro pre t post L L' _ hpre hstep
    exact processTx_placed hpre hstep

theorem bkyFold_blkBky {changes : List (UInt64 × Hash)}
    (h : changes.foldlM (bkyStep env) s = some s') (k : UInt64) :
    k ∈ s'.blkBky ↔ k ∈ s.blkBky ∨ k ∈ changes.map Prod.fst ∧
      hasBit (s.last.node (ppiBbank k)).status serverDbl = true := by
  induction changes generalizing s with
  | nil =>
      cases h
      simp
  | cons change changes ih =>
      rw [List.foldlM_cons] at h
      obtain ⟨s₁, hfirst, hrest⟩ := Option.bind_eq_some_iff.mp h
      have hlast := (bkyStep_frame hfirst).last
      have hblk : s₁.blkBky = if hasBit (s.last.node (ppiBbank change.1)).status serverDbl
          then s.blkBky.insert change.1 (ppiBbank change.1) else s.blkBky := by
        unfold bkyStep at hfirst
        dsimp only at hfirst
        split at hfirst
        · obtain ⟨skey, -, rfl⟩ := Option.map_eq_some_iff.mp hfirst
          rfl
        · cases hfirst
          rfl
      rw [ih hrest, hlast, hblk, List.map_cons, List.mem_cons]
      split
      · rename_i hdbl
        rw [Map.mem_insert_iff]
        constructor
        · rintro ((rfl | hmem) | hmem)
          · exact Or.inr ⟨Or.inl rfl, hdbl⟩
          · exact Or.inl hmem
          · exact Or.inr ⟨Or.inr hmem.1, hmem.2⟩
        · rintro (hmem | ⟨rfl | hmem, hdbl'⟩)
          · exact Or.inl (Or.inr hmem)
          · exact Or.inl (Or.inl rfl)
          · exact Or.inr ⟨hmem, hdbl'⟩
      · rename_i hdbl
        constructor
        · rintro (hmem | hmem)
          · exact Or.inl hmem
          · exact Or.inr ⟨Or.inr hmem.1, hmem.2⟩
        · rintro (hmem | ⟨rfl | hmem, hdbl'⟩)
          · exact Or.inl hmem
          · exact absurd hdbl' hdbl
          · exact Or.inr ⟨hmem, hdbl'⟩

theorem Requests.has_insert (blk txs : Requests) (x : BlockSlot) :
    (blk.insert txs).Has x.2 x.1 ↔ blk.Has x.2 x.1 ∨ txs.Has x.2 x.1 := by
  obtain ⟨m, k⟩ := x
  cases m <;> simp [Requests.Has, Requests.insert, or_comm]

/-- An accepted message adds its transactions to the block maps. -/
theorem processMessage_stores {rs : List Receipt} (h : processMessage env s msg = .accept s' rs)
    (x : BlockSlot) :
    s'.Stores x ↔ s.Stores x ∨ x ∈ Ctx.slots ⟨env, s, msg⟩ := by
  obtain ⟨-, -, L, hloop, hcommit, -⟩ := processMessage_accept h
  have hplaced := foldlM_processTx_placed hloop
  obtain ⟨hbky, -, htxs, -⟩ := commitLocal_keys ⟨env, s, msg⟩ L
  obtain ⟨s₁, hfold, rfl⟩ := commitMessage_ok hcommit
  have hmap : x.2 ∈ s₁.blkBky ↔ x.2 ∈ s.blkBky ∨ (BlockMap.bky, x.2) ∈
      Ctx.slots ⟨env, s, msg⟩ := by
    rw [bkyFold_blkBky hfold, Std.ExtTreeMap.map_fst_toList_eq_keys, Std.ExtTreeMap.mem_keys, hbky]
    exact or_congr Iff.rfl (hplaced.bky x.2)
  have hhas : (s.blk.insert (commitLocal ⟨env, s, msg⟩ L).txs).Has x.2 x.1 ↔
      s.blk.Has x.2 x.1 ∨ x ∈ Ctx.slots ⟨env, s, msg⟩ ∧ x.1 ≠ .bky := by
    rw [Requests.has_insert, htxs, hplaced.has]
    rfl
  show _ ∨ x.1 = .bky ∧ x.2 ∈ s₁.blkBky ↔ _
  rw [hhas, hmap]
  obtain ⟨m, k⟩ := x
  by_cases hm : m = .bky
  · subst hm
    simp [State.Stores, or_assoc]
  · simp [State.Stores, hm]

/-- What stays the same during a block, as far as the keys depend on it. -/
structure SameBlock (s s' : State) : Prop where
  last : s'.last = s.last
  status : ∀ b, (s'.srvs.node b).status = (s.srvs.node b).status

theorem SameBlock.refl (s : State) : SameBlock s s := ⟨rfl, fun _ => rfl⟩

theorem SameBlock.trans {s₁ s₂ : State} (h : SameBlock s s₁) (h' : SameBlock s₁ s₂) :
    SameBlock s s₂ :=
  ⟨h'.last.trans h.last, fun b => (h'.status b).trans (h.status b)⟩

theorem SameBlock.rekeyed (h : SameBlock s s') (env : Env) (msg : Message) (t : UserTxs) :
    t.rekeyed ⟨env, s', msg⟩ = t.rekeyed ⟨env, s, msg⟩ := by
  simp only [UserTxs.rekeyed, bkyNode, h.last, h.status]

theorem SameBlock.keyAt (h : SameBlock s s') (env : Env) (msg : Message) (pos : UInt32)
    (bank : UInt16) :
    Ctx.keyAt ⟨env, s', msg⟩ pos bank = Ctx.keyAt ⟨env, s, msg⟩ pos bank := by
  simp only [Ctx.keyAt, Ctx.omsid, h.last]

/-- The place that undoing a transaction clears, whether it was taken or not. -/
def UserTxs.cleared (t : UserTxs) (c : Ctx) (pos : UInt32) : Option BlockSlot :=
  let own := c.keyAt pos c.msg.svid
  let other := c.keyAt pos t.bbank
  match t.ttype with
  | .usr => some (.usr, own)
  | .uok => some (.uok, own)
  | .bnk => some (.bnk, own)
  | .get => some (.get, other)
  | .sbs => some (.sbs, other)
  | .ubs => some (.ubs, other)
  | .bky => if t.rekeyed c = 0 then none else some (.bky, c.keyAt pos (t.rekeyed c))
  | _ => none

theorem UserTxs.cleared_of_slot (h : t.slot c pos = some x) : t.cleared c pos = some x := by
  unfold UserTxs.slot at h
  unfold UserTxs.cleared
  cases hty : t.ttype <;> simp only [hty] at h ⊢
  all_goals try split at h
  all_goals cases h
  all_goals simp_all

theorem UserTxs.cleared_mark (h : t.cleared c pos = some x) : x.2.toNat % 2 ^ 48 = c.mark pos := by
  have hkey : ∃ bank, x.2 = c.keyAt pos bank := by
    unfold UserTxs.cleared at h
    cases hty : t.ttype <;> simp only [hty] at h
    all_goals try split at h
    all_goals cases h <;> exact ⟨_, rfl⟩
  obtain ⟨bank, hkey⟩ := hkey
  rw [hkey, Ctx.keyAt_mod]

theorem SameBlock.cleared (h : SameBlock s s') (env : Env) (msg : Message) (t : UserTxs)
    (pos : UInt32) :
    t.cleared ⟨env, s', msg⟩ pos = t.cleared ⟨env, s, msg⟩ pos := by
  simp only [UserTxs.cleared, h.keyAt, h.rekeyed]

theorem stores_modifyBlk {f : Requests → Requests} {m : BlockMap} {k : UInt64}
    (h : ∀ x : BlockSlot, (f u.s.blk).Has x.2 x.1 ↔ u.s.blk.Has x.2 x.1 ∧ (m, k) ≠ x)
    (hm : m ≠ .bky) (x : BlockSlot) :
    (u.modifyBlk f).s.Stores x ↔ u.s.Stores x ∧ some (m, k) ≠ some x := by
  have hbky : x.1 = .bky → (m, k) ≠ x := by
    rintro hx rfl
    exact hm hx
  show (f u.s.blk).Has x.2 x.1 ∨ x.1 = .bky ∧ x.2 ∈ u.s.blkBky ↔ _
  rw [h x, State.Stores, ne_eq (some _), Option.some_inj]
  tauto

/-- A change of one node keeps what it does not touch. -/
theorem State.modifyNode_field {α : Type} {g : Node → α} (s : State) (b b' : UInt16)
    {f : Node → Node} (h : ∀ n, g (f n) = g n) :
    g ((s.modifyNode b f).srvs.node b') = g (s.srvs.node b') := by
  show g ((s.srvs.nodes.modify b.toNat f).get b'.toNat) = g (s.srvs.nodes.get b'.toNat)
  rw [Table.get_modify]
  split
  · rename_i heq
    rw [h, heq.1]
  · rfl

/-- A key given back. -/
theorem restoreKey_same {node : UInt16} (h : u.restoreKey env t node = some u') :
    SameBlock u.s u'.s ∧ (∀ b, (u'.s.srvs.node b).msid = (u.s.srvs.node b).msid) ∧
      u'.tmpos = u.tmpos ∧ u'.s.blk = u.s.blk ∧ u'.s.blkBky = u.s.blkBky := by
  have hnode : ∀ b, (u'.s.srvs.node b) =
      ((u.s.modifyNode node fun n => { n with pk := t.opkey }).srvs.node b) ∧
      u'.s.last = u.s.last ∧ u'.tmpos = u.tmpos ∧ u'.s.blk = u.s.blk ∧
      u'.s.blkBky = u.s.blkBky := by
    intro b
    unfold Undo.restoreKey at h
    dsimp only at h
    split at h
    · obtain ⟨skey, -, rfl⟩ := Option.map_eq_some_iff.mp h
      exact ⟨rfl, rfl, rfl, rfl, rfl⟩
    · cases h
      exact ⟨rfl, rfl, rfl, rfl, rfl⟩
  refine ⟨⟨(hnode 0).2.1, fun b => ?_⟩, fun b => ?_, (hnode 0).2.2⟩
  · rw [(hnode b).1]
    exact u.s.modifyNode_field node b fun _ => rfl
  · rw [(hnode b).1]
    exact u.s.modifyNode_field node b fun _ => rfl

theorem undoBky_stores (hty : t.ttype = .bky)
    (h : undoBky env msg { u with tmpos := u.tmpos + 1 } t = some u') :
    SameBlock u.s u'.s ∧ (∀ b, (u'.s.srvs.node b).msid = (u.s.srvs.node b).msid) ∧
      u'.tmpos = u.tmpos + 1 ∧
      ∀ x, u'.s.Stores x ↔
        u.s.Stores x ∧ t.cleared ⟨env, u.s, msg⟩ (u.tmpos + 1) ≠ some x := by
  have hrekeyed : t.rekeyed ⟨env, u.s, msg⟩ = bkyNode u.s msg.svid t := if_pos hty
  simp only [UserTxs.cleared, hty, hrekeyed]
  unfold undoBky at h
  dsimp only at h
  split at h
  · rename_i hzero
    cases h
    rw [if_pos hzero]
    exact ⟨.refl _, fun _ => rfl, rfl, fun x => (and_iff_left nofun).symm⟩
  · rename_i hne
    rw [if_neg hne]
    obtain ⟨u₁, ⟨hblock, hmsid, hpos, hblk, hblkBky⟩, rfl⟩ : ∃ u₁ : Undo,
        (SameBlock u.s u₁.s ∧ (∀ b, (u₁.s.srvs.node b).msid = (u.s.srvs.node b).msid) ∧
          u₁.tmpos = u.tmpos + 1 ∧ u₁.s.blk = u.s.blk ∧ u₁.s.blkBky = u.s.blkBky) ∧
        u' = { u₁ with s := { u₁.s with
          blkBky := u₁.s.blkBky.erase (u₁.ppb msg (bkyNode u.s msg.svid t)) } } := by
      split at h
      · exact ⟨{ u with tmpos := u.tmpos + 1 }, ⟨.refl _, fun _ => rfl, rfl, rfl, rfl⟩,
          (Option.some.inj h).symm⟩
      · obtain ⟨u₁, hu₁, heq⟩ := Option.bind_eq_some_iff.mp h
        exact ⟨u₁, restoreKey_same hu₁, (Option.some.inj heq).symm⟩
    refine ⟨⟨hblock.last, hblock.status⟩, hmsid, hpos, fun x => ?_⟩
    have hkey : u₁.ppb msg (bkyNode u.s msg.svid t) =
        Ctx.keyAt ⟨env, u.s, msg⟩ (u.tmpos + 1) (bkyNode u.s msg.svid t) := by
      rw [Undo.ppb, hpos, hblock.last]
      rfl
    show u₁.s.blk.Has x.2 x.1 ∨ x.1 = .bky ∧ x.2 ∈ u₁.s.blkBky.erase _ ↔ _
    rw [hkey, hblk, hblkBky, Std.ExtTreeMap.mem_erase, ne_eq, Std.compare_eq_iff_eq]
    obtain ⟨m, k⟩ := x
    by_cases hm : m = .bky
    · subst hm
      simp [State.Stores, Requests.Has, and_comm]
    · simp [State.Stores, hm, Ne.symm hm]

/-- One transaction taken back: its place is cleared. -/
theorem undoTx_stores (h : undoTx env msg u t = some u') :
    SameBlock u.s u'.s ∧ (∀ b, (u'.s.srvs.node b).msid = (u.s.srvs.node b).msid) ∧
      u'.tmpos = u.tmpos + 1 ∧
      ∀ x, u'.s.Stores x ↔
        u.s.Stores x ∧ t.cleared ⟨env, u.s, msg⟩ (u.tmpos + 1) ≠ some x := by
  have same_of_s : ∀ {v : Undo}, v.s = u.s → v.tmpos = u.tmpos + 1 →
      t.cleared ⟨env, u.s, msg⟩ (u.tmpos + 1) = none → SameBlock u.s v.s ∧
      (∀ b, (v.s.srvs.node b).msid = (u.s.srvs.node b).msid) ∧ v.tmpos = u.tmpos + 1 ∧
      ∀ x, v.s.Stores x ↔ u.s.Stores x ∧ t.cleared ⟨env, u.s, msg⟩ (u.tmpos + 1) ≠ some x := by
    intro v hs hpos hnone
    rw [hs, hnone]
    exact ⟨.refl _, fun _ => rfl, hpos, fun x => (and_iff_left nofun).symm⟩
  unfold undoTx at h
  cases hty : t.ttype <;> simp only [hty] at h
  case inf => cases h
  case bky => exact undoBky_stores hty h
  case put =>
    obtain rfl := Option.some.inj h
    refine same_of_s (Undo.debit_s ..) ?_ (by simp [UserTxs.cleared, hty])
    unfold Undo.debit
    split <;> rfl
  case mpt =>
    obtain rfl := Option.some.inj h
    obtain ⟨hs, hpos⟩ := Undo.foldl_debit_s { u with tmpos := u.tmpos + 1 } t.abank t.toaddresses
    exact same_of_s hs hpos (by simp [UserTxs.cleared, hty])
  case bnk | get | usr | uok | sbs | ubs =>
    cases h
    refine ⟨⟨rfl, fun _ => rfl⟩, fun _ => rfl, rfl, ?_⟩
    simp only [UserTxs.cleared, hty]
    apply stores_modifyBlk ?_ (by simp)
    rintro ⟨m, k⟩
    cases m <;> simp [Requests.Has, and_comm, Undo.ppb, Ctx.keyAt, Ctx.omsid]
  all_goals
    cases h
    exact same_of_s rfl rfl (by simp [UserTxs.cleared, hty])

theorem foldlM_undoTx_stores {txs : List UserTxs} (h : txs.foldlM (undoTx env msg) u = some u') :
    SameBlock u.s u'.s ∧ (∀ b, (u'.s.srvs.node b).msid = (u.s.srvs.node b).msid) ∧
      ∀ x, u'.s.Stores x ↔ u.s.Stores x ∧ ∀ (i : Nat) (t : UserTxs), txs[i]? = some t →
        t.cleared ⟨env, u.s, msg⟩ (u.tmpos + UInt32.ofNat (i + 1)) ≠ some x := by
  induction txs generalizing u with
  | nil =>
      cases h
      exact ⟨.refl _, fun _ => rfl, fun x => by simp⟩
  | cons t txs ih =>
      rw [List.foldlM_cons] at h
      obtain ⟨u₁, hfirst, hrest⟩ := Option.bind_eq_some_iff.mp h
      obtain ⟨hblock, hmsid, hpos, hstores⟩ := undoTx_stores hfirst
      obtain ⟨hblock', hmsid', hstores'⟩ := ih hrest
      refine ⟨hblock.trans hblock', fun b => (hmsid' b).trans (hmsid b), fun x => ?_⟩
      have hshift : ∀ i : Nat, u₁.tmpos + UInt32.ofNat (i + 1) =
          u.tmpos + UInt32.ofNat (i + 1 + 1) := by
        intro i
        rw [hpos, UInt32.ofNat_add (i + 1) 1, UInt32.add_assoc, UInt32.add_comm 1]
        rfl
      simp only [hstores', hstores, hblock.cleared, hshift, and_assoc]
      refine and_congr_right fun _ => ⟨?_, ?_⟩
      · rintro ⟨hhead, htail⟩ (_ | i) t' ht'
        · cases ht'
          exact hhead
        · exact htail i t' ht'
      · intro hall
        exact ⟨hall 0 t rfl, fun i t' ht' => hall (i + 1) t' ht'⟩

theorem MessageUndo.restore_status (m : MessageUndo) (s : State) (msg : Message) (b : UInt16) :
    ((m.restore s msg).srvs.node b).status = (s.srvs.node b).status := by
  unfold MessageUndo.restore
  exact s.modifyNode_field msg.svid b fun _ => rfl

theorem MessageUndo.restore_msid (m : MessageUndo) (s : State) (msg : Message) (b : UInt16) :
    ((m.restore s msg).srvs.node b).msid = (s.srvs.node b).msid ∨
      b = msg.svid ∧ ((m.restore s msg).srvs.node b).msid = msg.msid - 1 := by
  unfold MessageUndo.restore State.modifyNode
  simp only [State.setFile, Servers.node, Table.get_modify]
  split
  · rename_i heq
    exact Or.inr ⟨UInt16.toNat_inj.mp heq.1, rfl⟩
  · exact Or.inl rfl

/-- A message taken back: the places of its transactions are cleared and its node goes
back by one message. -/
theorem undoMessage_stores (h : undoMessage env s msg = some s') :
    SameBlock s s' ∧
      (∀ b, (s'.srvs.node b).msid = (s.srvs.node b).msid ∨
        b = msg.svid ∧ (s'.srvs.node b).msid = msg.msid - 1) ∧
      ∀ x, s'.Stores x ↔ s.Stores x ∧ ∀ (i : Nat) (t : UserTxs), msg.txs[i]? = some t →
        t.cleared ⟨env, s, msg⟩ (UInt32.ofNat (i + 1)) ≠ some x := by
  unfold undoMessage at h
  obtain ⟨u, hfold, h⟩ := Option.bind_eq_some_iff.mp h
  obtain ⟨m, -, h⟩ := Option.bind_eq_some_iff.mp h
  obtain rfl := Option.some.inj h
  obtain ⟨hblock, hmsid, hstores⟩ := foldlM_undoTx_stores hfold
  have hnode : ∀ b, (u.s.srvs.node b).msid = (s.srvs.node b).msid := hmsid
  refine ⟨⟨hblock.last, fun b => ?_⟩, fun b => ?_, fun x => ?_⟩
  · exact (m.restore_status _ msg b).trans (hblock.status b)
  · rw [← hnode b]
    exact m.restore_msid _ msg b
  · refine (hstores x).trans ?_
    simp only [UInt32.zero_add]

/-- The next message of a node, accepted. -/
theorem validate_stores (hsvid : msg.svid.toNat < s.srvs.nodes.size)
    (h : validate env s msg = some s') :
    SameBlock s s' ∧ (s.srvs.node msg.svid).msid.toNat + 1 = msg.msid.toNat ∧
      (∀ b, (s'.srvs.node b).msid = if b = msg.svid then msg.msid else (s.srvs.node b).msid) ∧
      ∀ x, s'.Stores x ↔ s.Stores x ∨ x ∈ Ctx.slots ⟨env, s, msg⟩ := by
  unfold validate at h
  split at h
  · cases h
  · rename_i hnext
    obtain ⟨hlt, hmsid⟩ := not_or.mp hnext
    split at h
    · rename_i s₁ rs hprocess
      obtain rfl := Option.some.inj h
      obtain ⟨-, -, L, -, hcommit, -⟩ := processMessage_accept hprocess
      have hframe := commitMessage_frame hsvid hcommit
      have hsize : msg.svid.toNat < s₁.srvs.nodes.size := hframe.size.symm ▸ hsvid
      have hnode : ∀ b, (s₁.srvs.node b).status = (s.srvs.node b).status ∧
          (s₁.srvs.node b).msid = (s.srvs.node b).msid := by
        intro b
        by_cases hb : b = msg.svid
        · rw [hb, hframe.node]
          exact ⟨rfl, rfl⟩
        · rw [hframe.node_ne b hb]
          exact ⟨rfl, rfl⟩
      refine ⟨⟨hframe.last, fun b => ?_⟩, ?_, fun b => ?_, ?_⟩
      · rw [← (hnode b).1]
        exact s₁.modifyNode_field msg.svid b fun _ => rfl
      · have hlt := UInt32.lt_iff_toNat_lt.mp (UInt32.not_le.mp hlt)
        rw [not_not.mp hmsid] at hlt ⊢
        rw [UInt32.toNat_sub_of_le _ _ (UInt32.le_iff_toNat_le.mpr (by
          simp only [UInt32.reduceToNat]; omega))] at hlt ⊢
        simp only [UInt32.reduceToNat] at hlt ⊢
        omega
      · by_cases hb : b = msg.svid
        · rw [if_pos hb, hb, State.node_modifyNode _ _ _ hsize]
        · rw [if_neg hb, State.node_modifyNode_ne _ _ hb]
          exact (hnode b).2
      · exact fun x => processMessage_stores hprocess x
    · cases h

theorem processMessage_reject_effects (h : processMessage env s msg = .reject s') :
    s' = s ∨ ∃ L : Loop, s' = L.effects ⟨env, s, msg⟩ := by
  simp only [processMessage] at h
  split at h
  · cases h
    exact Or.inl rfl
  split at h
  · cases h
    exact Or.inl rfl
  split at h
  · cases h
    exact Or.inr ⟨_, rfl⟩
  · split at h
    · cases h
      exact Or.inr ⟨_, rfl⟩
    · split at h <;> cases h

/-- A rejected message leaves the block maps alone. -/
theorem reject_stores (h : processMessage env s msg = .reject s') :
    SameBlock s s' ∧ (∀ b, (s'.srvs.node b).msid = (s.srvs.node b).msid) ∧
      ∀ x, s'.Stores x ↔ s.Stores x := by
  obtain rfl | ⟨L, rfl⟩ := processMessage_reject_effects h
  · exact ⟨.refl _, fun _ => rfl, fun _ => Iff.rfl⟩
  · refine ⟨⟨rfl, fun b => ?_⟩, fun b => ?_, fun _ => Iff.rfl⟩
    · exact s.modifyNode_field msg.svid b fun _ => rfl
    · exact s.modifyNode_field msg.svid b fun _ => rfl

/-- The messages of a block: each was processed in the state kept with it. The last
message of a node may be undone. A message has no more transactions, and its node no
more messages in the block, than a key can count. -/
inductive BlockTrace (env : Env) (s₀ : State) : List Ctx → State → Prop where
  | start : BlockTrace env s₀ [] s₀
  | accept {block : List Ctx} {s s' : State} {msg : Message} (h : BlockTrace env s₀ block s)
      (hsvid : msg.svid.toNat < s.srvs.nodes.size) (hvalidate : validate env s msg = some s')
      (hshort : msg.txs.length ≤ 2 ^ 16)
      (hfew : msg.msid.toNat - (s.last.node msg.svid).msid.toNat ≤ 2 ^ 16) :
      BlockTrace env s₀ (⟨env, s, msg⟩ :: block) s'
  | reject {block : List Ctx} {s s' : State} {msg : Message} (h : BlockTrace env s₀ block s)
      (hreject : processMessage env s msg = .reject s') : BlockTrace env s₀ block s'
  | undo {pre post : List Ctx} {c : Ctx} {s s' : State}
      (h : BlockTrace env s₀ (pre ++ c :: post) s)
      (hlast : (s.srvs.node c.msg.svid).msid = c.msg.msid)
      (hundo : undoMessage env s c.msg = some s') : BlockTrace env s₀ (pre ++ post) s'

/-- A message of the block, in range of the keys. -/
structure InBlock (env : Env) (s : State) (c : Ctx) : Prop where
  env_eq : c.env = env
  same : SameBlock c.s s
  lower : (s.last.node c.msg.svid).msid.toNat < c.msg.msid.toNat
  upper : c.msg.msid.toNat ≤ (s.srvs.node c.msg.svid).msid.toNat
  short : c.msg.txs.length ≤ 2 ^ 16
  few : c.msg.msid.toNat - (s.last.node c.msg.svid).msid.toNat ≤ 2 ^ 16

/-- Different messages of one node have different numbers. -/
def Apart (c c' : Ctx) : Prop := c.msg.svid = c'.msg.svid → c.msg.msid ≠ c'.msg.msid

theorem InBlock.mark_eq (h : InBlock env s c) (hi : i < c.msg.txs.length) :
    c.mark (UInt32.ofNat (i + 1)) = (i + 1) % 2 ^ 16 +
      2 ^ 16 * ((c.msg.msid.toNat - (s.last.node c.msg.svid).msid.toNat) % 2 ^ 16) +
        2 ^ 32 * c.msg.svid.toNat := by
  have homsid : c.omsid = (s.last.node c.msg.svid).msid := by
    rw [Ctx.omsid, h.same.last]
  have hle : c.omsid ≤ c.msg.msid := by
    rw [UInt32.le_iff_toNat_le, homsid]
    exact h.lower.le
  have hshort := h.short
  rw [Ctx.mark, UInt32.toNat_sub_of_le _ _ hle, homsid, UInt32.toNat_ofNat_of_lt' (by
    simp only [UInt32.size]
    omega)]

/-- Position, message and node can be read off a mark. -/
theorem InBlock.mark_inj {c' : Ctx} (h : InBlock env s c) (h' : InBlock env s c') {i' : Nat}
    (hi : i < c.msg.txs.length) (hi' : i' < c'.msg.txs.length)
    (heq : c.mark (UInt32.ofNat (i + 1)) = c'.mark (UInt32.ofNat (i' + 1))) :
    i = i' ∧ c.msg.svid = c'.msg.svid ∧ c.msg.msid = c'.msg.msid := by
  rw [h.mark_eq hi, h'.mark_eq hi'] at heq
  have hsvid : c.msg.svid = c'.msg.svid := by
    apply UInt16.toNat_inj.mp
    omega
  have hshort := h.short
  have hshort' := h'.short
  have hlower := h.lower
  have hlower' := h'.lower
  have hfew := h.few
  have hfew' := h'.few
  rw [hsvid] at heq hlower hfew
  refine ⟨by omega, hsvid, UInt32.toNat_inj.mp (by omega)⟩

/-- Places of different transactions of a block are different. -/
theorem InBlock.cleared_inj {c' : Ctx} (h : InBlock env s c) (h' : InBlock env s c') {i' : Nat}
    {t' : UserTxs} (hi : c.msg.txs[i]? = some t) (hi' : c'.msg.txs[i']? = some t')
    (hx : t.cleared c (UInt32.ofNat (i + 1)) = some x)
    (hx' : t'.cleared c' (UInt32.ofNat (i' + 1)) = some x) :
    i = i' ∧ c.msg.svid = c'.msg.svid ∧ c.msg.msid = c'.msg.msid := by
  refine h.mark_inj h' (List.getElem?_eq_some_iff.mp hi).1 (List.getElem?_eq_some_iff.mp hi').1 ?_
  rw [← UserTxs.cleared_mark hx, UserTxs.cleared_mark hx']

/-- What holds during a block. -/
structure BlockInv (env : Env) (block : List Ctx) (s : State) : Prop where
  lower : ∀ b, (s.last.node b).msid.toNat ≤ (s.srvs.node b).msid.toNat
  inBlock : ∀ c ∈ block, InBlock env s c
  apart : block.Pairwise Apart
  stores : ∀ x, s.Stores x ↔ ∃ c ∈ block, x ∈ c.slots

theorem InBlock.congr (h : InBlock env s c) (hsame : SameBlock s s')
    (hupper : c.msg.msid.toNat ≤ (s'.srvs.node c.msg.svid).msid.toNat) : InBlock env s' c where
  env_eq := h.env_eq
  same := h.same.trans hsame
  lower := by rw [hsame.last]; exact h.lower
  upper := hupper
  short := h.short
  few := by rw [hsame.last]; exact h.few

theorem BlockInv.reject (h : BlockInv env block s) (hsame : SameBlock s s')
    (hmsid : ∀ b, (s'.srvs.node b).msid = (s.srvs.node b).msid)
    (hstores : ∀ x, s'.Stores x ↔ s.Stores x) : BlockInv env block s' where
  lower b := by
    rw [hsame.last, hmsid]
    exact h.lower b
  inBlock c hc := by
    refine (h.inBlock c hc).congr hsame ?_
    rw [hmsid]
    exact (h.inBlock c hc).upper
  apart := h.apart
  stores x := (hstores x).trans (h.stores x)

theorem BlockInv.accept (h : BlockInv env block s) (hsvid : msg.svid.toNat < s.srvs.nodes.size)
    (hvalidate : validate env s msg = some s') (hshort : msg.txs.length ≤ 2 ^ 16)
    (hfew : msg.msid.toNat - (s.last.node msg.svid).msid.toNat ≤ 2 ^ 16) :
    BlockInv env (⟨env, s, msg⟩ :: block) s' := by
  obtain ⟨hsame, hnext, hmsid, hstores⟩ := validate_stores hsvid hvalidate
  have hmono : ∀ b, (s.srvs.node b).msid.toNat ≤ (s'.srvs.node b).msid.toNat := by
    intro b
    rw [hmsid b]
    split
    · rename_i hb
      rw [hb]
      omega
    · exact le_rfl
  refine ⟨fun b => ?_, ?_, ?_, fun x => ?_⟩
  · rw [hsame.last]
    exact (h.lower b).trans (hmono b)
  · intro c hc
    obtain rfl | hc := List.mem_cons.mp hc
    · have hlower := h.lower msg.svid
      refine ⟨rfl, hsame, ?_, ?_, hshort, ?_⟩
      · rw [hsame.last]
        show (s.last.node msg.svid).msid.toNat < msg.msid.toNat
        omega
      · rw [hmsid, if_pos rfl]
      · rw [hsame.last]
        exact hfew
    · exact (h.inBlock c hc).congr hsame ((h.inBlock c hc).upper.trans (hmono _))
  · refine List.pairwise_cons.mpr ⟨fun c hc hsvid' heq => ?_, h.apart⟩
    have hupper := (h.inBlock c hc).upper
    rw [← hsvid', ← heq] at hupper
    simp only at hupper
    omega
  · rw [hstores, h.stores, or_comm]
    simp only [List.mem_cons, exists_eq_or_imp]

theorem InBlock.cleared_eq (h : InBlock env s c) (t : UserTxs) (pos : UInt32) :
    t.cleared ⟨env, s, c.msg⟩ pos = t.cleared c pos := by
  obtain ⟨env', s', msg⟩ := c
  obtain rfl : env' = env := h.env_eq
  exact h.same.cleared env' msg t pos

theorem BlockInv.undo {pre post : List Ctx} (h : BlockInv env (pre ++ c :: post) s)
    (hlast : (s.srvs.node c.msg.svid).msid = c.msg.msid)
    (hundo : undoMessage env s c.msg = some s') : BlockInv env (pre ++ post) s' := by
  obtain ⟨hsame, hmsid, hstores⟩ := undoMessage_stores hundo
  have hc := h.inBlock c (List.mem_append_right _ List.mem_cons_self)
  have hsub : (pre ++ post).Sublist (pre ++ c :: post) :=
    (List.sublist_cons_self c post).append_left pre
  have hapart : ∀ c' ∈ pre ++ post, c'.msg.svid = c.msg.svid → c'.msg.msid ≠ c.msg.msid := by
    intro c' hc' hsvid heq
    obtain ⟨-, hpost, hpre⟩ := List.pairwise_append.mp h.apart
    obtain hmem | hmem := List.mem_append.mp hc'
    · exact hpre c' hmem c List.mem_cons_self hsvid heq
    · exact (List.pairwise_cons.mp hpost).1 c' hmem hsvid.symm heq.symm
  have hpred : (c.msg.msid - 1).toNat = c.msg.msid.toNat - 1 := by
    have hlower := hc.lower
    rw [UInt32.toNat_sub_of_le _ _ (UInt32.le_iff_toNat_le.mpr (by
      simp only [UInt32.reduceToNat]; omega))]
    rfl
  refine ⟨fun b => ?_, fun c' hc' => ?_, h.apart.sublist hsub, fun x => ?_⟩
  · rw [hsame.last]
    obtain heq | ⟨rfl, heq⟩ := hmsid b
    · rw [heq]
      exact h.lower b
    · rw [heq, hpred]
      have hlower := hc.lower
      omega
  · have hin := h.inBlock c' (hsub.subset hc')
    refine hin.congr hsame ?_
    obtain heq | ⟨hb, heq⟩ := hmsid c'.msg.svid
    · rw [heq]
      exact hin.upper
    · have hupper := hin.upper
      have hne := hapart c' hc' hb
      rw [hb, hlast] at hupper
      rw [heq, hpred]
      have hne' : c'.msg.msid.toNat ≠ c.msg.msid.toNat := fun heq' => hne (UInt32.toNat_inj.mp heq')
      omega
  · rw [hstores, h.stores]
    simp only [hc.cleared_eq]
    constructor
    · rintro ⟨⟨c', hc', hx⟩, hclear⟩
      obtain hmem | hmem := List.mem_append.mp hc'
      · exact ⟨c', List.mem_append_left _ hmem, hx⟩
      · obtain rfl | hmem := List.mem_cons.mp hmem
        · obtain ⟨i, t, ht, hslot⟩ := Ctx.mem_slotsOf.mp hx
          exact absurd (UserTxs.cleared_of_slot hslot) (hclear i t ht)
        · exact ⟨c', List.mem_append_right _ hmem, hx⟩
    · rintro ⟨c', hc', hx⟩
      refine ⟨⟨c', hsub.subset hc', hx⟩, fun i t ht hclear => ?_⟩
      obtain ⟨i', t', ht', hslot⟩ := Ctx.mem_slotsOf.mp hx
      obtain ⟨-, hsvid, hmsid'⟩ := hc.cleared_inj (h.inBlock c' (hsub.subset hc')) ht ht' hclear
        (UserTxs.cleared_of_slot hslot)
      exact hapart c' hc' hsvid.symm hmsid'.symm

theorem BlockTrace.inv {s₀ : State} (hstart : ∀ b, (s₀.srvs.node b).msid = (s₀.last.node b).msid)
    (hempty : ∀ x, ¬ s₀.Stores x) (h : BlockTrace env s₀ block s) : BlockInv env block s := by
  induction h with
  | start =>
      exact ⟨fun b => (congrArg UInt32.toNat (hstart b)).ge, by simp, List.Pairwise.nil,
        fun x => by simp [hempty x]⟩
  | accept _ hsvid hvalidate hshort hfew ih => exact ih.accept hsvid hvalidate hshort hfew
  | reject _ hreject ih =>
      obtain ⟨hsame, hmsid, hstores⟩ := reject_stores hreject
      exact ih.reject hsame hmsid hstores
  | undo _ hlast hundo ih => exact ih.undo hlast hundo

/-- The places of one message are different. -/
theorem InBlock.nodup_slots (h : InBlock env s c) : c.slots.Nodup := by
  unfold Ctx.slots Ctx.slotsOf List.Nodup
  rw [List.pairwise_filterMap, List.pairwise_iff_getElem]
  intro j k hj hk hjk x hx x' hx' heq
  simp only [List.getElem_zipIdx, Nat.zero_add] at hx hx'
  rw [List.length_zipIdx] at hj hk
  obtain ⟨rfl, -⟩ := h.cleared_inj h (List.getElem?_eq_getElem hj) (List.getElem?_eq_getElem hk)
    (UserTxs.cleared_of_slot hx) (heq ▸ UserTxs.cleared_of_slot hx')
  exact Nat.lt_irrefl _ hjk

theorem BlockInv.nodup_slots (h : BlockInv env block s) : (block.flatMap Ctx.slots).Nodup := by
  refine List.nodup_flatMap.mpr ⟨fun c hc => (h.inBlock c hc).nodup_slots, ?_⟩
  refine h.apart.imp_of_mem ?_
  intro c c' hc hc' hapart x hx hx'
  obtain ⟨i, t, ht, hslot⟩ := Ctx.mem_slotsOf.mp hx
  obtain ⟨i', t', ht', hslot'⟩ := Ctx.mem_slotsOf.mp hx'
  obtain ⟨-, hsvid, hmsid⟩ := (h.inBlock c hc).cleared_inj (h.inBlock c' hc') ht ht'
    (UserTxs.cleared_of_slot hslot) (UserTxs.cleared_of_slot hslot')
  exact hapart hsvid hmsid

/-- Transaction ids. In a message with a hash tree the ids of the transactions are
different exactly when there are at most `2 ^ 16` of them. In a block whose messages
stay within that length, and whose nodes send at most `2 ^ 16` messages each, the keys
in the block maps are different, and the maps hold exactly the transactions of the
messages of the block. -/
theorem transaction_ids_unique (c : Crypto) (env : Env) :
    (∀ (d : Bytes) (len : Nat) (svid : UInt16) (msid : UInt32) (h : Hash),
      hashTreeFast c d len svid msid = .ok h →
      ∃ parts, txsParts c d len (len + 1) (4 + 64 + 10) = .ok (parts, len) ∧
        h = HashTree.finish c ((txsLeaves c svid msid 1 parts).foldl (HashTree.update c)
          (HashTree.empty.update c (c.sha256 ((d.skip (4 + 64)).take 10)))) ∧
        ((txsIds svid msid parts.length).Nodup ↔ parts.length ≤ 2 ^ 16)) ∧
    ∀ (s₀ s : State) (block : List Ctx),
      (∀ b, (s₀.srvs.node b).msid = (s₀.last.node b).msid) → (∀ x, ¬ s₀.Stores x) →
      BlockTrace env s₀ block s →
      (block.flatMap Ctx.slots).Nodup ∧ ∀ x, s.Stores x ↔ x ∈ block.flatMap Ctx.slots := by
  refine ⟨fun d len svid msid h hok => ?_, fun s₀ s block hstart hempty hrun => ?_⟩
  · obtain ⟨parts, hparts, htree⟩ := hashTreeFast_parts hok
    exact ⟨parts, hparts, htree, nodup_txsIds_iff svid msid parts.length⟩
  · have hinv := hrun.inv hstart hempty
    refine ⟨hinv.nodup_slots, fun x => ?_⟩
    rw [hinv.stores, List.mem_flatMap]

namespace Sample

/-- The tree of a message of `n` placeholders. -/
theorem hashTreeFast_placeholders {n : Nat} (hpos : 0 < n) (hcount : 1 + UInt16.ofNat n ≠ 0) :
    ∃ h, hashTreeFast plainCrypto placeholders (4 + 64 + 10 + 4 * n) 1 1 = .ok h := by
  obtain ⟨parts, hlength, hparts⟩ := @txsParts_placeholders plainCrypto n (4 + 64 + 10)
    (4 + 64 + 10 + 4 * n + 1) (by omega) (by omega)
  exact hashTreeFast_of_parts ⟨rfl, by decide, by decide⟩ (by omega) hparts (hlength ▸ hcount)

def placeholder : UserTxs where
  ttype := .non

theorem sum_placeholders (n : Nat) :
    ((List.replicate n placeholder).map UserTxs.size).sum = n * 4 := by
  rw [List.map_replicate, List.sum_replicate, smul_eq_mul]
  rfl

def placeholderMessage (n : Nat) (h : 78 + n * 4 < 2 ^ 24) : Message where
  svid := 1
  msid := 1
  now := 0x60000000
  txs := List.replicate n placeholder
  bounded := by rwa [sum_placeholders]

theorem len_placeholderMessage (n : Nat) (h : 78 + n * 4 < 2 ^ 24) :
    (placeholderMessage n h).len = 78 + n * 4 :=
  congrArg (78 + ·) (sum_placeholders n)

/-- A message of one placeholder more than there are positions. -/
def longMessage : Message := placeholderMessage (2 ^ 16 + 1) (by norm_num)

theorem foldlM_placeholders (c : Ctx) (L : Loop) (n : Nat) :
    (List.replicate n placeholder).foldlM (processTx c) L =
      .ok { L with tmpos := L.tmpos + UInt32.ofNat n } := by
  induction n generalizing L with
  | zero =>
      rw [List.replicate_zero, List.foldlM_nil, show UInt32.ofNat 0 = 0 from rfl, UInt32.add_zero]
      rfl
  | succ n ih =>
      rw [List.replicate_succ, List.foldlM_cons]
      show ((List.replicate n placeholder).foldlM (processTx c)
        { L with tmpos := L.tmpos + 1 }) = _
      rw [ih, UInt32.ofNat_add, UInt32.add_assoc, UInt32.add_comm 1]
      rfl

/-- A message without key changes whose loop succeeds is accepted when no signatures are
checked. -/
theorem processMessage_of_loop (hnow : ¬ msg.now < s.last.now)
    (hfee : ¬ (readUser (s.usr msg.svid) 0 env.junk).weight < messageFee msg.len)
    (hloop : msg.txs.foldlM (processTx ⟨env, s, msg⟩) (Ctx.init ⟨env, s, msg⟩) = .ok L)
    (hsig : Ctx.checkSig ⟨env, s, msg⟩ = false) (hbky : L.txsBky = ∅) :
    ∃ s' rs, processMessage env s msg = .accept s' rs := by
  have hbky' : (commitLocal ⟨env, s, msg⟩ L).txsBky = ∅ := by
    rw [(commitLocal_keys _ L).1, hbky]
  unfold processMessage
  dsimp only
  rw [if_neg hnow, if_neg hfee, hloop]
  dsimp only
  rw [if_neg (by rw [hsig]; exact Bool.false_ne_true)]
  unfold commitMessage
  rw [hbky']
  exact ⟨_, _, rfl⟩

theorem processMessage_longMessage :
    ∃ s' rs, processMessage keyEnv keyState longMessage = .accept s' rs := by
  refine processMessage_of_loop (by decide) ?_ (foldlM_placeholders _ _ _) rfl rfl
  rw [longMessage, len_placeholderMessage]
  decide +kernel

/-- A vote of node 1 on its own status, and a second one. -/
def voteTx : UserTxs where
  ttype := .sbs
  abank := 1
  bbank := 1
  amsid := 1
  ttime := 0x60000000
  tmass := 8

def voteMessage : Message where
  svid := 1
  msid := 1
  now := 0x60000000
  txs := [voteTx, { voteTx with amsid := 2 }]
  bounded := by simp [voteTx, UserTxs.size, txslen]

theorem keyState_start (b : UInt16) :
    (keyState.srvs.node b).msid = (keyState.last.node b).msid := by
  have hsrvs : (keyState.srvs.node b).msid = 0 :=
    @Table.ofList_forall _ _ (fun n : Node => n.msid = 0) _ rfl (by simp) b.toNat
  have hlast : (keyState.last.node b).msid = 0 :=
    @Table.ofList_forall _ _ (fun n : Node => n.msid = 0) _ rfl (by simp) b.toNat
  rw [hsrvs, hlast]

theorem keyState_empty (x : BlockSlot) : ¬ keyState.Stores x := by
  obtain ⟨m, k⟩ := x
  cases m <;> simp [State.Stores, Requests.Has, keyState]

end Sample

/-- Three placeholders have different ids, and two votes are stored at their places. -/
theorem transaction_ids_unique_small :
    (∃ h, hashTreeFast Sample.plainCrypto Sample.placeholders (4 + 64 + 10 + 4 * 3) 1 1 = .ok h ∧
      ∃ parts, txsParts Sample.plainCrypto Sample.placeholders (4 + 64 + 10 + 4 * 3)
          (4 + 64 + 10 + 4 * 3 + 1) (4 + 64 + 10) = .ok (parts, 4 + 64 + 10 + 4 * 3) ∧
        ((txsIds 1 1 parts.length).Nodup ↔ parts.length ≤ 2 ^ 16)) ∧
    ∃ s', validate Sample.keyEnv Sample.keyState Sample.voteMessage = some s' ∧
      s'.Stores (.sbs, makePpi 1 0 1 1 1) ∧ s'.Stores (.sbs, makePpi 2 0 1 1 1) := by
  obtain ⟨h, htree⟩ := @Sample.hashTreeFast_placeholders 3 (by decide) (by decide)
  obtain ⟨parts, hparts, -, hiff⟩ :=
    (transaction_ids_unique Sample.plainCrypto Sample.keyEnv).1 _ _ _ _ _ htree
  refine ⟨⟨h, htree, parts, hparts, hiff⟩, ?_⟩
  obtain ⟨s', hs'⟩ := Option.isSome_iff_exists.mp
    (show (validate Sample.keyEnv Sample.keyState Sample.voteMessage).isSome = true by
      decide +kernel)
  refine ⟨s', hs', ?_⟩
  have hrun := BlockTrace.accept BlockTrace.start (by decide) hs' (by decide) (by decide)
  have hstores := ((transaction_ids_unique Sample.plainCrypto Sample.keyEnv).2 _ _ _
    Sample.keyState_start Sample.keyState_empty hrun).2
  rw [hstores, hstores]
  decide +kernel

/-- A message with one transaction more than there are positions: its hash tree is
built, it is accepted, and its first and its last transaction have the same id. -/
theorem transaction_ids_repeat :
    ∃ h s' rs, hashTreeFast Sample.plainCrypto Sample.placeholders
        (4 + 64 + 10 + 4 * (2 ^ 16 + 1)) 1 1 = .ok h ∧
      processMessage Sample.keyEnv Sample.keyState Sample.longMessage = .accept s' rs ∧
      Sample.longMessage.txs.length = 2 ^ 16 + 1 ∧ ¬ (txsIds 1 1 (2 ^ 16 + 1)).Nodup := by
  obtain ⟨h, htree⟩ := @Sample.hashTreeFast_placeholders (2 ^ 16 + 1) (by decide) (by decide)
  obtain ⟨s', rs, haccept⟩ := Sample.processMessage_longMessage
  refine ⟨h, s', rs, htree, haccept, List.length_replicate, ?_⟩
  rw [nodup_txsIds_iff]
  decide

end Esc
