import Esc.Server.CommitSpec
import Esc.Server.EffectSpec
import Esc.Server.UndoMessage

/-!
# The own node key

A server keeps three copies of its node key: the entry of the node table, the key
pair it signs with, and the copy of its office. Key changes of a message reach the
office inside the transaction loop, in the order of the transactions, and the other
two at the commit, in the order of the block map. Undoing a key change reaches the
second and third copy only if the transaction names the node.
-/

namespace Esc

open Lib

variable {env : Env} {c : Ctx} {s s' : State} {t : UserTxs} {msg : Message} {svid : UInt16}
  {changes : List (UInt64 × Hash)} {key : Hash}

/-- The copies of the own node key agree, and the secret key belongs to it. -/
structure OwnKey (env : Env) (s : State) : Prop where
  own : env.svid.toNat < s.srvs.nodes.size
  pkey : s.pkey = (s.srvs.node env.svid).pk
  skey : env.findKey s.pkey = some s.skey
  office : s.office.pkey = (s.srvs.node env.svid).pk

/-- The key of a node after a list of key changes. -/
def keyAfter (svid : UInt16) (changes : List (UInt64 × Hash)) (key : Hash) : Hash :=
  changes.foldl (fun key change => if ppiBbank change.1 = svid then change.2 else key) key

/-- The entry of a map of key changes that counts for a node is the last one in key
order; without an entry the node keeps its key. -/
def LatestKey (svid : UInt16) (m : Map UInt64 Hash) (old key : Hash) : Prop :=
  (∃ k, m[k]? = some key ∧ ppiBbank k = svid ∧
    ∀ k', k' ∈ m → ppiBbank k' = svid → k'.toNat ≤ k.toNat) ∨
  ((∀ k', k' ∈ m → ppiBbank k' ≠ svid) ∧ key = old)

theorem keyAfter_of_forall_ne (key : Hash) (h : ∀ change ∈ changes, ppiBbank change.1 ≠ svid) :
    keyAfter svid changes key = key := by
  induction changes with
  | nil => rfl
  | cons change changes ih =>
    rw [keyAfter, List.foldl_cons, if_neg (h change List.mem_cons_self)]
    exact ih fun x hx => h x (List.mem_cons_of_mem _ hx)

theorem keyAfter_of_latest {k : UInt64} (old : Hash)
    (hsorted : changes.Pairwise fun a b => a.1.toNat < b.1.toNat) (hmem : (k, key) ∈ changes)
    (hk : ppiBbank k = svid)
    (hlatest : ∀ change ∈ changes, ppiBbank change.1 = svid → change.1.toNat ≤ k.toNat) :
    keyAfter svid changes old = key := by
  induction changes generalizing old with
  | nil => cases hmem
  | cons change changes ih =>
    obtain ⟨hhead, htail⟩ := List.pairwise_cons.mp hsorted
    rw [keyAfter, List.foldl_cons]
    rcases List.mem_cons.mp hmem with rfl | hmem
    · rw [if_pos hk]
      apply keyAfter_of_forall_ne
      intro x hx hsvid
      have hle := hlatest x (List.mem_cons_of_mem _ hx) hsvid
      exact absurd (hhead x hx) (Nat.not_lt.mpr hle)
    · exact ih _ htail hmem fun x hx => hlatest x (List.mem_cons_of_mem _ hx)

theorem pairwise_toList (m : Map UInt64 Hash) :
    m.toList.Pairwise fun a b => a.1.toNat < b.1.toNat := by
  have hordered := Std.ExtTreeMap.ordered_keys_toList (t := m)
  refine hordered.imp ?_
  intro a b hlt
  exact UInt64.lt_iff_toNat_lt.mp (Std.compare_eq_lt.mp hlt)

theorem LatestKey.keyAfter {m : Map UInt64 Hash} {old : Hash} (h : LatestKey svid m old key) :
    keyAfter svid m.toList old = key := by
  rcases h with ⟨k, hk, hsvid, hlatest⟩ | ⟨hnone, rfl⟩
  · refine keyAfter_of_latest old (pairwise_toList m) (Map.mem_toList.mpr hk) hsvid ?_
    intro change hchange
    apply hlatest
    rw [Std.ExtTreeMap.mem_iff_isSome_getElem?, Map.mem_toList.mp hchange]
    rfl
  · apply keyAfter_of_forall_ne
    intro change hchange
    apply hnone
    rw [Std.ExtTreeMap.mem_iff_isSome_getElem?, Map.mem_toList.mp hchange]
    rfl

theorem LatestKey.insert_of_ne {m : Map UInt64 Hash} {old key' : Hash} {k : UInt64}
    (h : LatestKey svid m old key) (hk : ppiBbank k ≠ svid) :
    LatestKey svid (m.insert k key') old key := by
  have hmem : ∀ k', k' ∈ m.insert k key' → ppiBbank k' = svid → k' ∈ m := by
    intro k' hk' hsvid
    rcases Map.mem_insert_iff.mp hk' with rfl | hk'
    · exact absurd hsvid hk
    · exact hk'
  rcases h with ⟨k₀, hk₀, hsvid, hlatest⟩ | ⟨hnone, hold⟩
  · have hne : k₀ ≠ k := by
      rintro rfl
      exact hk hsvid
    refine .inl ⟨k₀, ?_, hsvid, fun k' hk' hk'svid => hlatest k' (hmem k' hk' hk'svid) hk'svid⟩
    rw [Map.getElem?_insert_ne _ _ hne, hk₀]
  · exact .inr ⟨fun k' hk' hk'svid => hnone k' (hmem k' hk' hk'svid) hk'svid, hold⟩

/-! ## The transaction loop -/

theorem Ctx.toNat_keyAt_mono {pos pos' : UInt32} (bbank : UInt16) (hle : pos ≤ pos')
    (hlt : pos'.toNat < 2 ^ 16) :
    (c.keyAt pos bbank).toNat ≤ (c.keyAt pos' bbank).toNat := by
  rw [Ctx.keyAt, Ctx.keyAt, toNat_makePpi, toNat_makePpi]
  have hnat := UInt32.le_iff_toNat_le.mp hle
  omega

/-- The office has the key that the collected key changes give the own node, if those
changes do not run past the positions that a block key can tell apart. -/
structure KeysInOrder (c : Ctx) (pre : List UserTxs) (L : Loop) : Prop where
  tmpos : L.tmpos = UInt32.ofNat pre.length
  latest : LatestKey c.env.svid L.txsBky c.s.office.pkey L.office.pkey
  bounded : ∀ k, k ∈ L.txsBky → ppiBbank k = c.env.svid →
    pre.length < 2 ^ 16 → k.toNat ≤ (c.keyAt L.tmpos c.env.svid).toNat

theorem UserTxs.notify_pkey (o : Office) (h : ¬(t.rekeyed c ≠ 0 ∧ t.rekeyed c = c.env.svid)) :
    (t.notify c o).pkey = o.pkey := by
  rw [UserTxs.notify, if_neg h]
  split <;> rfl

theorem UserTxs.notify_own (o : Office) (hne : t.rekeyed c ≠ 0) (hown : t.rekeyed c = c.env.svid) :
    (t.notify c o).pkey = t.key := by
  have hty : t.ttype = .bky := by
    by_contra hty
    exact hne (if_neg hty)
  rw [UserTxs.notify, if_neg (by simp [hty]), if_pos ⟨hne, hown⟩]

theorem processTx_keysInOrder {pre post : List UserTxs} {L L' : Loop}
    (hmsg : pre ++ t :: post = c.msg.txs)
    (hfew : (∃ t ∈ c.msg.txs, t.rekeyed c = c.env.svid) → c.msg.txs.length < 2 ^ 16)
    (hL : KeysInOrder c pre L) (h : processTx c L t = .ok L') : KeysInOrder c (pre ++ [t]) L' := by
  have hspec := processTx_spec h
  have hpos : L'.tmpos = UInt32.ofNat (pre ++ [t]).length := by
    rw [hspec.tmpos, hL.tmpos, List.length_append]
    exact (UInt32.ofNat_add _ _).symm
  have hnext : (pre ++ [t]).length < 2 ^ 16 →
      L'.tmpos.toNat = pre.length + 1 ∧ L.tmpos.toNat = pre.length := by
    intro hlt
    rw [hpos, hL.tmpos, UInt32.toNat_ofNat', UInt32.toNat_ofNat']
    rw [List.length_append, List.length_singleton] at hlt ⊢
    omega
  have hgrow : ∀ k, k ∈ L.txsBky → ppiBbank k = c.env.svid → (pre ++ [t]).length < 2 ^ 16 →
      k.toNat ≤ (c.keyAt L'.tmpos c.env.svid).toNat := by
    intro k hk hsvid hlt
    obtain ⟨hafter, hbefore⟩ := hnext hlt
    rw [List.length_append, List.length_singleton] at hlt
    refine (hL.bounded k hk hsvid (by omega)).trans (Ctx.toNat_keyAt_mono _ ?_ (by omega))
    exact UInt32.le_iff_toNat_le.mpr (by omega)
  by_cases hnone : t.rekeyed c = 0
  · have hmap : L'.txsBky = L.txsBky := by rw [hspec.txsBky, UserTxs.rekey, if_pos hnone]
    have hkey : L'.office.pkey = L.office.pkey := by
      rw [hspec.office]
      exact UserTxs.notify_pkey _ fun hown => hown.1 hnone
    exact ⟨hpos, by rw [hmap, hkey]; exact hL.latest, by rw [hmap]; exact hgrow⟩
  · have hmap : L'.txsBky = L.txsBky.insert (c.keyAt L'.tmpos (t.rekeyed c)) t.key := by
      rw [hspec.txsBky, UserTxs.rekey, if_neg hnone, hspec.tmpos]
    have hbank : ppiBbank (c.keyAt L'.tmpos (t.rekeyed c)) = t.rekeyed c := ppiBbank_makePpi ..
    by_cases hown : t.rekeyed c = c.env.svid
    · have hlt : (pre ++ [t]).length < 2 ^ 16 := by
        have hmem : t ∈ c.msg.txs := hmsg ▸ List.mem_append_right pre List.mem_cons_self
        have hlen := hfew ⟨t, hmem, hown⟩
        rw [← hmsg] at hlen
        simp only [List.length_append, List.length_cons] at hlen ⊢
        simp
        omega
      have hkey : L'.office.pkey = t.key := by
        rw [hspec.office]
        exact UserTxs.notify_own _ hnone hown
      rw [hown] at hmap hbank
      have hbounded : ∀ k, k ∈ L'.txsBky → ppiBbank k = c.env.svid →
          k.toNat ≤ (c.keyAt L'.tmpos c.env.svid).toNat := by
        intro k hk hsvid
        rw [hmap] at hk
        rcases Map.mem_insert_iff.mp hk with rfl | hk
        · exact le_rfl
        · exact hgrow k hk hsvid hlt
      refine ⟨hpos, .inl ⟨c.keyAt L'.tmpos c.env.svid, ?_, hbank, hbounded⟩,
        fun k hk hsvid _ => hbounded k hk hsvid⟩
      rw [hmap, hkey, Map.getElem?_insert_same]
    · have hkey : L'.office.pkey = L.office.pkey := by
        rw [hspec.office]
        exact UserTxs.notify_pkey _ fun h => hown h.2
      refine ⟨hpos, ?_, ?_⟩
      · rw [hmap, hkey]
        exact hL.latest.insert_of_ne (by rw [hbank]; exact hown)
      · intro k hk hsvid hlt
        rw [hmap] at hk
        rcases Map.mem_insert_iff.mp hk with rfl | hk
        · exact absurd (hbank.symm.trans hsvid) hown
        · exact hgrow k hk hsvid hlt

/-! ## The commit and the undo -/

theorem commitDsu_keys (c : Ctx) (acc : Loop × User) (uid : UInt32) (d : Dsu) :
    (commitDsu c acc uid d).1.txsBky = acc.1.txsBky ∧
      (commitDsu c acc uid d).1.office = acc.1.office ∧
      (commitDsu c acc uid d).1.txs = acc.1.txs ∧ (commitDsu c acc uid d).1.bro = acc.1.bro := by
  rw [commitDsu]
  dsimp only
  split <;> exact ⟨rfl, rfl, rfl, rfl⟩

theorem commitLocal_keys (c : Ctx) (L : Loop) :
    (commitLocal c L).txsBky = L.txsBky ∧ (commitLocal c L).office = L.office ∧
      (commitLocal c L).txs = L.txs ∧ (commitLocal c L).bro = L.bro := by
  rw [commitLocal]
  refine Map.foldl_invariant (fun _ (acc : Loop × User) =>
    acc.1.txsBky = L.txsBky ∧ acc.1.office = L.office ∧ acc.1.txs = L.txs ∧ acc.1.bro = L.bro)
    ⟨rfl, rfl, rfl, rfl⟩ ?_
  intro pre uid d acc _ _ h
  obtain ⟨hbky, hoffice, htxs, hbro⟩ := commitDsu_keys c acc uid d
  exact ⟨hbky.trans h.1, hoffice.trans h.2.1, htxs.trans h.2.2.1, hbro.trans h.2.2.2⟩

/-- A key change reaches the node table and the key pair together. -/
theorem bkyStep_own {change : UInt64 × Hash} (hown : env.svid.toNat < s.srvs.nodes.size)
    (hpkey : s.pkey = (s.srvs.node env.svid).pk) (hskey : env.findKey s.pkey = some s.skey)
    (h : bkyStep env s change = some s') :
    s'.pkey = (s'.srvs.node env.svid).pk ∧ env.findKey s'.pkey = some s'.skey ∧
      (s'.srvs.node env.svid).pk =
        if ppiBbank change.1 = env.svid then change.2 else (s.srvs.node env.svid).pk := by
  rw [bkyStep] at h
  by_cases hnode : ppiBbank change.1 = env.svid
  · simp only [if_pos hnode] at h ⊢
    obtain ⟨skey, hfind, rfl⟩ := Option.map_eq_some_iff.mp h
    have hpk : ((s.modifyNode (ppiBbank change.1) fun n => { n with pk := change.2 }).srvs.node
        env.svid).pk = change.2 := by
      rw [hnode, State.node_modifyNode _ _ _ hown]
    exact ⟨hpk.symm, hfind, hpk⟩
  · simp only [if_neg hnode] at h ⊢
    cases h
    have hpk : (s.modifyNode (ppiBbank change.1) fun n => { n with pk := change.2 }).srvs.node
        env.svid = s.srvs.node env.svid := s.node_modifyNode_ne _ (Ne.symm hnode)
    refine ⟨?_, hskey, ?_⟩
    · exact hpkey.trans (congrArg Node.pk hpk).symm
    · exact congrArg Node.pk hpk

theorem bkyFold_own (hown : env.svid.toNat < s.srvs.nodes.size)
    (hpkey : s.pkey = (s.srvs.node env.svid).pk) (hskey : env.findKey s.pkey = some s.skey)
    (h : changes.foldlM (bkyStep env) s = some s') :
    s'.pkey = (s'.srvs.node env.svid).pk ∧ env.findKey s'.pkey = some s'.skey ∧
      (s'.srvs.node env.svid).pk = keyAfter env.svid changes (s.srvs.node env.svid).pk := by
  induction changes generalizing s with
  | nil =>
    cases h
    exact ⟨hpkey, hskey, rfl⟩
  | cons change changes ih =>
    rw [List.foldlM_cons] at h
    obtain ⟨s₁, hfirst, hrest⟩ := Option.bind_eq_some_iff.mp h
    obtain ⟨hpkey₁, hskey₁, hpk₁⟩ := bkyStep_own hown hpkey hskey hfirst
    have hown₁ : env.svid.toNat < s₁.srvs.nodes.size := by
      rw [(bkyStep_frame hfirst).size]
      exact hown
    rw [keyAfter, List.foldl_cons, ← hpk₁]
    exact ih hown₁ hpkey₁ hskey₁ hrest

theorem Loop.commitBank_pk (L : Loop) (h : c.msg.svid.toNat < c.s.srvs.nodes.size) (b : UInt16) :
    ((L.commitBank c).srvs.node b).pk = (c.s.srvs.node b).pk := by
  by_cases hb : b = c.msg.svid
  · rw [hb, L.commitBank_node h]
  · have hnode : (L.commitBank c).srvs.node b = c.s.srvs.node b :=
      ((L.effects c).node_modifyNode_ne _ hb).trans (L.effects_node_ne hb)
    rw [hnode]

/-- An accepted message keeps the copies of the own key together. -/
theorem processMessage_ownKey {rs : List Receipt} (hs : OwnKey env s)
    (hsvid : msg.svid.toNat < s.srvs.nodes.size)
    (hfew : (∃ t ∈ msg.txs, t.rekeyed ⟨env, s, msg⟩ = env.svid) → msg.txs.length < 2 ^ 16)
    (h : processMessage env s msg = .accept s' rs) : OwnKey env s' := by
  obtain ⟨-, -, L, hloop, hcommit, -⟩ := processMessage_accept h
  have hkeys : KeysInOrder ⟨env, s, msg⟩ msg.txs L := by
    refine foldlM_invariant (KeysInOrder ⟨env, s, msg⟩) ?_ ?_ hloop
    · refine ⟨rfl, .inr ⟨fun k hk => ?_, rfl⟩, fun k hk => ?_⟩
      · exact absurd hk Std.ExtTreeMap.not_mem_empty
      · exact absurd hk Std.ExtTreeMap.not_mem_empty
    · intro pre t post L₁ L₂ hmsg hL₁ hstep
      exact processTx_keysInOrder hmsg hfew hL₁ hstep
  obtain ⟨hbky, hoffice, -, -⟩ := commitLocal_keys ⟨env, s, msg⟩ L
  have hframe := commitMessage_frame hsvid hcommit
  obtain ⟨s₁, hfold, heq⟩ := commitMessage_ok hcommit
  have hbank := Loop.commitBank_pk (c := ⟨env, s, msg⟩) (commitLocal ⟨env, s, msg⟩ L) hsvid env.svid
  rw [hbky] at hfold
  obtain ⟨hpkey, hskey, hpk⟩ := bkyFold_own (by exact hs.own)
    (by exact hs.pkey.trans hbank.symm) (by exact hs.skey) hfold
  have hlatest := hkeys.latest.keyAfter
  rw [heq]
  refine ⟨(bkyFold_frame hfold).size ▸ hs.own, hpkey, hskey, ?_⟩
  show s₁.office.pkey = (s₁.srvs.node env.svid).pk
  rw [hpk, (bkyFold_frame hfold).office]
  show (commitLocal ⟨env, s, msg⟩ L).office.pkey = keyAfter env.svid L.txsBky.toList
    (((commitLocal ⟨env, s, msg⟩ L).commitBank ⟨env, s, msg⟩).srvs.node env.svid).pk
  rw [hoffice, hbank, ← hlatest, hs.office]

theorem Undo.restoreKey_ownKey {u u' : Undo} {node : UInt16} (hu : OwnKey env u.s)
    (hnamed : node = env.svid → t.bbank ≠ 0) (h : u.restoreKey env t node = some u') :
    OwnKey env u'.s := by
  rw [Undo.restoreKey] at h
  by_cases hnode : node = env.svid
  · rw [if_pos ⟨hnode, hnamed hnode⟩] at h
    obtain ⟨skey, hfind, rfl⟩ := Option.map_eq_some_iff.mp h
    have hpk : ((u.s.modifyNode node fun n => { n with pk := t.opkey }).srvs.node env.svid).pk =
        t.opkey := by
      rw [hnode, State.node_modifyNode _ _ _ hu.own]
    exact ⟨hu.own, hpk.symm, hfind, hpk.symm⟩
  · rw [if_neg fun hboth => hnode hboth.1] at h
    cases h
    have hpk : (u.s.modifyNode node fun n => { n with pk := t.opkey }).srvs.node env.svid =
        u.s.srvs.node env.svid := u.s.node_modifyNode_ne _ (Ne.symm hnode)
    refine ⟨hu.own, ?_, hu.skey, ?_⟩
    · exact hu.pkey.trans (congrArg Node.pk hpk).symm
    · exact hu.office.trans (congrArg Node.pk hpk).symm

theorem OwnKey.congr (h : OwnKey env s) (hsrvs : s'.srvs = s.srvs) (hpkey : s'.pkey = s.pkey)
    (hskey : s'.skey = s.skey) (hoffice : s'.office = s.office) :
    OwnKey env s' where
  own := by rw [hsrvs]; exact h.own
  pkey := by rw [hpkey, hsrvs]; exact h.pkey
  skey := by rw [hpkey, hskey]; exact h.skey
  office := by rw [hoffice, hsrvs]; exact h.office

theorem Undo.debit_s (u : Undo) (abank bank : UInt16) (user : UInt32) (mass : Int64) :
    (u.debit abank bank user mass).s = u.s := by
  rw [Undo.debit]
  split <;> rfl

theorem Undo.foldl_debit_s (u : Undo) (abank : UInt16) (as : List ToAddress) :
    (as.foldl (fun u a => u.debit abank a.tbank a.tuser a.tmass) u).s = u.s ∧
      (as.foldl (fun u a => u.debit abank a.tbank a.tuser a.tmass) u).tmpos = u.tmpos := by
  induction as generalizing u with
  | nil => exact ⟨rfl, rfl⟩
  | cons a as ih =>
      obtain ⟨hs, hpos⟩ := ih (u.debit abank a.tbank a.tuser a.tmass)
      rw [List.foldl_cons]
      refine ⟨hs.trans (u.debit_s ..), hpos.trans ?_⟩
      unfold Undo.debit
      split <;> rfl

theorem undoTx_ownKey {u u' : Undo} (hu : OwnKey env u.s)
    (hnamed : msg.svid = env.svid → t.ttype = .bky → t.bbank ≠ 0)
    (h : undoTx env msg u t = some u') : OwnKey env u'.s := by
  cases hty : t.ttype <;> simp only [undoTx, hty] at h
  case bky =>
    rw [undoBky] at h
    dsimp only at h
    split at h
    · cases h
      exact hu
    split at h
    · cases h
      exact hu.congr rfl rfl rfl rfl
    · obtain ⟨u₁, hrestore, heq⟩ := Option.bind_eq_some_iff.mp h
      cases heq
      have hu₁ : OwnKey env u₁.s := by
        refine Undo.restoreKey_ownKey (u := { u with tmpos := u.tmpos + 1 }) hu ?_ hrestore
        intro hown hzero
        rw [bkyNode, if_pos hzero] at hown
        exact hnamed hown hty hzero
      exact hu₁.congr rfl rfl rfl rfl
  case inf => cases h
  case put =>
    cases h
    rw [Undo.debit_s]
    exact hu
  case mpt =>
    cases h
    refine Lib.foldl_invariant (fun _ (v : Undo) => OwnKey env v.s) hu ?_
    intro pre a post v _ hv
    rw [Undo.debit_s]
    exact hv
  all_goals
    cases h
    exact hu.congr rfl rfl rfl rfl

theorem MessageUndo.restore_pk (m : MessageUndo) (s : State) (msg : Message) (b : UInt16) :
    ((m.restore s msg).srvs.node b).pk = (s.srvs.node b).pk := by
  simp only [MessageUndo.restore, State.setFile, State.modifyNode, Servers.node, Table.get_modify]
  split
  · rename_i h
    rw [h.1]
  · rfl

/-- Undoing a message keeps the copies together if each key change of an own message
names the node. -/
theorem undoMessage_ownKey (hs : OwnKey env s)
    (hnamed : msg.svid = env.svid → ∀ t ∈ msg.txs, t.ttype = .bky → t.bbank ≠ 0)
    (h : undoMessage env s msg = some s') : OwnKey env s' := by
  rw [undoMessage] at h
  obtain ⟨u, hloop, h⟩ := Option.bind_eq_some_iff.mp h
  obtain ⟨m, -, h⟩ := Option.bind_eq_some_iff.mp h
  cases h
  have hu : OwnKey env u.s := by
    refine foldlM_option_invariant (fun v : Undo => OwnKey env v.s) hs ?_ hloop
    intro t ht v v' hv hstep
    exact undoTx_ownKey hv (fun hown => hnamed hown t ht) hstep
  refine ⟨hu.own, ?_, hu.skey, ?_⟩
  · exact hu.pkey.trans (m.restore_pk _ msg env.svid).symm
  · exact hu.office.trans (m.restore_pk _ msg env.svid).symm

/-- Accepted messages and undone messages. A message with a key change of the own node
has fewer transactions than a block key can count, and an undone message of the own node
changes no key without naming the node. -/
inductive KeyStep (env : Env) : State → State → Prop where
  | process {s s' : State} {msg : Message} {rs : List Receipt}
      (hsvid : msg.svid.toNat < s.srvs.nodes.size)
      (hfew : (∃ t ∈ msg.txs, t.rekeyed ⟨env, s, msg⟩ = env.svid) → msg.txs.length < 2 ^ 16)
      (h : processMessage env s msg = .accept s' rs) : KeyStep env s s'
  | undo {s s' : State} {msg : Message}
      (hnamed : msg.svid = env.svid → ∀ t ∈ msg.txs, t.ttype = .bky → t.bbank ≠ 0)
      (h : undoMessage env s msg = some s') : KeyStep env s s'

/-- The copies of the own key agree in every state that such steps reach. -/
theorem ownKey_of_run {env : Env} {s s' : State} (hs : OwnKey env s)
    (hrun : Relation.ReflTransGen (KeyStep env) s s') : OwnKey env s' := by
  induction hrun with
  | refl => exact hs
  | tail _ hstep ih =>
    cases hstep with
    | process hsvid hfew h => exact processMessage_ownKey ih hsvid hfew h
    | undo hnamed h => exact undoMessage_ownKey ih hnamed h

namespace Sample

/-- Node 1, which has a secret key for every key. -/
def keyEnv : Env where
  svid := 1
  sha256 _ := 0
  signOpenBatch2 _ := true
  findKey key := some key
  junk := {}

/-- Bank 1 with its owner account; all keys are zero. -/
def keyState : State where
  srvs := { now := 0x60000000, nodes := Table.ofList [{}, { users := 1 }] }
  last := { now := 0x5FFFFE00, nodes := Table.ofList [{}, { users := 1 }] }
  usr b :=
    if b = 1 then Table.ofList
      [{ msid := 1, weight := 1000000000000, lpath := 0x60000000, rpath := 0x60000000 }]
    else Table.empty

/-- A change of the own node key to 5. -/
def rekeyTx : UserTxs where
  ttype := .bky
  abank := 1
  auser := 0
  amsid := 1
  ttime := 0x60000000
  key := 5

def rekeyMessage : Message where
  svid := 1
  msid := 1
  now := 0x60000000
  txs := [rekeyTx]
  bounded := by simp [rekeyTx, UserTxs.size, txslen]

theorem ownKey_keyState : OwnKey keyEnv keyState where
  own := by decide
  pkey := by decide +kernel
  skey := rfl
  office := by decide +kernel

end Sample

/-- The key change itself keeps the copies together. -/
theorem ownKey_of_run_rekey :
    ∃ s' rs, processMessage Sample.keyEnv Sample.keyState Sample.rekeyMessage = .accept s' rs ∧
      OwnKey Sample.keyEnv s' := by
  obtain ⟨s', rs, haccept, -⟩ := Outcome.exists_of_accepts
    (o := processMessage Sample.keyEnv Sample.keyState Sample.rekeyMessage)
    (p := fun _ _ => true) (by decide +kernel)
  refine ⟨s', rs, haccept, ownKey_of_run Sample.ownKey_keyState (.single ?_)⟩
  exact .process (by decide) (fun _ => by decide) haccept

/-- Undoing it gives the node table the old key back while the server signs with the new
one. -/
theorem undoMessage_splits_ownKey :
    ∃ s₁ rs s₂, OwnKey Sample.keyEnv Sample.keyState ∧
      processMessage Sample.keyEnv Sample.keyState Sample.rekeyMessage = .accept s₁ rs ∧
      undoMessage Sample.keyEnv s₁ Sample.rekeyMessage = some s₂ ∧
      s₂.pkey ≠ (s₂.srvs.node Sample.keyEnv.svid).pk ∧
      s₂.office.pkey ≠ (s₂.srvs.node Sample.keyEnv.svid).pk := by
  obtain ⟨s₁, rs, haccept, htest⟩ := Outcome.exists_of_accepts
    (o := processMessage Sample.keyEnv Sample.keyState Sample.rekeyMessage)
    (p := fun s₁ _ => (undoMessage Sample.keyEnv s₁ Sample.rekeyMessage).any fun s₂ =>
      s₂.pkey != (s₂.srvs.node Sample.keyEnv.svid).pk &&
        s₂.office.pkey != (s₂.srvs.node Sample.keyEnv.svid).pk) (by decide +kernel)
  obtain ⟨s₂, hundo, hkeys⟩ := (Option.any_eq_true _ _).mp htest
  rw [Bool.and_eq_true, bne_iff_ne, bne_iff_ne] at hkeys
  exact ⟨s₁, rs, s₂, Sample.ownKey_keyState, haccept, hundo, hkeys⟩

end Esc
