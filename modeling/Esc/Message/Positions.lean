import Esc.Message.Wire

/-!
# Positions in the hash tree

The loop of `hash_tree_fast` numbers the transactions of a message with a 16-bit
counter that starts at 1, and mixes the number into each leaf. The loop is rewritten
here as a split of the message into its transactions followed by the leaves of their
ids, so that the ids can be compared. They are different exactly in the messages with
at most `2 ^ 16` transactions.
-/

namespace Esc

open Lib

/-- The split of the bytes from offset `p` on into transactions, and where it ends. -/
def txsParts (c : Crypto) (d : Bytes) (len : Nat) :
    Nat → Nat → Except Stop (List (List UInt8) × Nat)
  | 0, _ => .error .abort
  | fuel + 1, p =>
    if len ≤ p then .ok ([], p)
    else
      match getSize c (d.skip p) with
      | none => .error .fail
      | some l => (txsParts c d len fuel (p + l)).map fun r => ((d.skip p).take l :: r.1, r.2)

/-- The transaction counter at the `n` transactions from `tnum` on. -/
def positions (tnum : UInt16) (n : Nat) : List UInt16 :=
  (List.range n).map fun i => tnum + UInt16.ofNat i

theorem positions_succ (tnum : UInt16) (n : Nat) :
    positions tnum (n + 1) = tnum :: positions (tnum + 1) n := by
  unfold positions
  rw [List.range_succ_eq_map, List.map_cons, List.map_map]
  congr 1
  · simp
  · apply List.map_congr_left
    intro i _
    simp only [Function.comp_apply, Nat.succ_eq_add_one, UInt16.ofNat_add]
    rw [UInt16.add_assoc, UInt16.add_comm 1]
    rfl

/-- The leaves of a list of transactions. -/
def txsLeaves (c : Crypto) (svid : UInt16) (msid : UInt32) (tnum : UInt16)
    (parts : List (List UInt8)) : List Hash :=
  List.zipWith (fun txs pos => txsLeaf c txs svid msid pos) parts (positions tnum parts.length)

/-- The loop of the hash tree: split, then update the tree with every leaf. -/
theorem hashTxs_eq (c : Crypto) (d : Bytes) (len : Nat) (svid : UInt16) (msid : UInt32)
    (fuel p : Nat) (tnum : UInt16) (tree : HashTree) :
    hashTxs c d len svid msid fuel p tnum tree =
      (txsParts c d len fuel p).map fun r =>
        (r.2, tnum + UInt16.ofNat r.1.length,
          (txsLeaves c svid msid tnum r.1).foldl (HashTree.update c) tree) := by
  induction fuel generalizing p tnum tree with
  | zero => rfl
  | succ fuel ih =>
      simp only [hashTxs, txsParts]
      split
      · simp [Except.map, txsLeaves, positions]
      · cases getSize c (d.skip p) with
        | none => rfl
        | some l =>
            simp only [ih]
            cases txsParts c d len fuel (p + l) with
            | error e => rfl
            | ok r =>
                simp only [Except.map, txsLeaves, List.length_cons, positions_succ,
                  List.zipWith_cons_cons, List.foldl_cons, UInt16.ofNat_add]
                rw [UInt16.add_assoc, UInt16.add_comm 1]
                rfl

/-- The ids of the transactions of a message in its hash tree. -/
def txsIds (svid : UInt16) (msid : UInt32) (n : Nat) : List (UInt16 × UInt32 × UInt16) :=
  (positions 1 n).map fun pos => (svid, msid, pos)

theorem nodup_positions_iff (tnum : UInt16) (n : Nat) :
    (positions tnum n).Nodup ↔ n ≤ 2 ^ 16 := by
  rw [positions, List.nodup_map_iff_inj_on List.nodup_range]
  constructor
  · intro hinj
    by_contra hlt
    have heq := hinj 0 (List.mem_range.mpr (by omega)) (2 ^ 16) (List.mem_range.mpr (by omega)) rfl
    omega
  · intro hle i hi j hj heq
    rw [List.mem_range] at hi hj
    have hnat := congrArg UInt16.toNat ((UInt16.add_right_inj tnum).mp heq)
    rw [UInt16.toNat_ofNat', UInt16.toNat_ofNat'] at hnat
    omega

theorem nodup_txsIds_iff (svid : UInt16) (msid : UInt32) (n : Nat) :
    (txsIds svid msid n).Nodup ↔ n ≤ 2 ^ 16 := by
  rw [txsIds, List.nodup_map_iff fun a b h => (Prod.mk.inj (Prod.mk.inj h).2).2]
  exact nodup_positions_iff 1 n

/-- A message with a hash tree splits into transactions up to its end, and the tree is
built from the leaves with their ids. -/
theorem hashTreeFast_parts {c : Crypto} {d : Bytes} {len : Nat} {svid : UInt16} {msid : UInt32}
    {h : Hash} (hok : hashTreeFast c d len svid msid = .ok h) :
    ∃ parts, txsParts c d len (len + 1) (4 + 64 + 10) = .ok (parts, len) ∧
      h = HashTree.finish c ((txsLeaves c svid msid 1 parts).foldl (HashTree.update c)
        (HashTree.empty.update c (c.sha256 ((d.skip (4 + 64)).take 10)))) := by
  unfold hashTreeFast at hok
  simp only [require_bind_eq_ok, hashTxs_eq] at hok
  obtain ⟨-, -, hok⟩ := hok
  cases hparts : txsParts c d len (len + 1) (4 + 64 + 10) with
  | error e =>
      rw [hparts] at hok
      cases hok
  | ok r =>
      rw [hparts] at hok
      obtain ⟨hnonempty, hend, hfinish⟩ : _ ∧ r.2 = len ∧ _ = _ := by
        simpa only [require_bind_eq_ok] using
          (show (require (1 + UInt16.ofNat r.1.length ≠ 0) .fail >>= fun _ =>
            require (r.2 = len) .fail >>= fun _ => pure _) = Except.ok h from hok)
      refine ⟨r.1, by rw [← hend], ?_⟩
      exact (Except.ok.inj hfinish).symm

/-- A message that splits up to its end has a hash tree, unless the counter comes back
to 0 behind its last transaction. -/
theorem hashTreeFast_of_parts {c : Crypto} {d : Bytes} {len : Nat} {svid : UInt16} {msid : UInt32}
    {parts : List (List UInt8)} (hhead : d 0 = msgtypeMsg ∧ svid ≠ 0 ∧ msid ≠ 0)
    (hlen : 4 + 64 + 10 < len)
    (hparts : txsParts c d len (len + 1) (4 + 64 + 10) = .ok (parts, len))
    (hcount : 1 + UInt16.ofNat parts.length ≠ 0) :
    ∃ h, hashTreeFast c d len svid msid = .ok h := by
  unfold hashTreeFast
  simp only [hashTxs_eq, hparts, require_bind_eq_ok]
  exact ⟨_, hhead, hlen, require_bind_eq_ok.mpr ⟨hcount, require_bind_eq_ok.mpr ⟨rfl, rfl⟩⟩⟩

namespace Sample

def plainCrypto : Crypto where
  sha256 _ := 0
  signOpen _ _ _ := true
  strayLength _ := none

/-- A message of empty placeholders. -/
def placeholders : Bytes := fun i => if i = 0 then msgtypeMsg else 0

theorem placeholders_apply {i : Nat} (h : i ≠ 0) : placeholders i = 0 := if_neg h

theorem getSize_placeholders (c : Crypto) {p : Nat} (hp : p ≠ 0) :
    getSize c (placeholders.skip p) = some 4 := by
  have hzero : placeholders.skip p = fun _ => 0 := by
    funext i
    exact placeholders_apply (by omega)
  rw [hzero]
  rfl

theorem txsParts_placeholders (c : Crypto) {n p fuel : Nat} (hp : p ≠ 0) (hfuel : n < fuel) :
    ∃ parts, parts.length = n ∧
      txsParts c placeholders (p + 4 * n) fuel p = .ok (parts, p + 4 * n) := by
  induction n generalizing p fuel with
  | zero =>
      obtain ⟨fuel, rfl⟩ := Nat.exists_eq_add_of_lt hfuel
      exact ⟨[], rfl, by simp [txsParts]⟩
  | succ n ih =>
      obtain ⟨fuel, rfl⟩ : ∃ k, fuel = k + 1 := ⟨fuel - 1, by omega⟩
      obtain ⟨parts, hlength, hparts⟩ := @ih (p + 4) fuel (by omega) (by omega)
      refine ⟨(placeholders.skip p).take 4 :: parts, by simp [hlength], ?_⟩
      have hlen : p + 4 * (n + 1) = p + 4 + 4 * n := by ring
      rw [txsParts, if_neg (by omega), getSize_placeholders c hp, hlen]
      dsimp only
      rw [hparts]
      rfl

end Sample

end Esc
