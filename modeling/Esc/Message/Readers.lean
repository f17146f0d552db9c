import Esc.Message.Reads

/-!
# How the readers of a message cut it

Three loops walk over the transactions of a message: `hash_tree_fast` with `get_size`, the
loop of `process_message` with `usertxs::parse`, and `GetMessage::toJson` of the client with
the size of the command that its factory makes. Each adds the size that it computes to its
pointer.

The loops differ in the size only. They cut a message in the same way exactly when the
sizes agree on every transaction that the first loop cuts.
-/

namespace Esc

open Lib

variable {c : Crypto} {fuel len pos : Nat} {p : Int} {cuts : List Cut} {d txs : Bytes}

/-- A transaction as a loop cuts it: position in the message, offset and size. -/
structure Cut where
  pos : Nat
  off : Int
  size : Int
deriving DecidableEq, Repr

/-- A loop over the transactions of a message that takes the size of each from the reader,
given the position and the offset. A pointer below the buffer is not followed further. -/
def readerCuts (size : Nat → Nat → Option Int) (len : Nat) : Nat → Nat → Int → Option (List Cut)
  | 0, _, _ => none
  | fuel + 1, pos, p =>
    if (len : Int) ≤ p then some []
    else if p < 0 then none
    else do
      let l ← size pos p.toNat
      let cuts ← readerCuts size len fuel (pos + 1) (p + l)
      return ⟨pos, p, l⟩ :: cuts

/-- The loop ends, with these transactions cut. -/
def CutsInto (size : Nat → Nat → Option Int) (len : Nat) (cuts : List Cut) : Prop :=
  ∃ fuel, readerCuts size len fuel 1 (4 + 64 + 10) = some cuts

/-- The size that `usertxs::parse` sets, if it accepts the type. -/
def parseSize (txs : Bytes) : Option Nat :=
  let ttype := (txs 0).toNat
  let bbank := (txs.skip (1 + 14)).uint16.toNat
  if 28 ≤ ttype then none
  else if ttype = 0 then some (max 4 (txs.skip 1).uint24)
  else if ttype = 15 then some (txslenTable.getD ttype 0 + 64 + 128)
  else
    let size := txslenTable.getD ttype 0 + 64
    match ttype with
    | 1 => some (txslenTable.getD 1 0)
    | 2 => some (txslenTable.getD 2 0)
    | 10 => some (size + 32)
    | 6 => some (size + (4 + 32))
    | 3 => some (size + bbank)
    | 5 => some (size + bbank * (6 + 8))
    | _ => some size

/-- What the client reads from variables that it has not set: the upper byte of the length
of a placeholder, and the version in the object made for a log request. -/
structure Unset where
  messageSize : UInt8 := 0
  version : UInt32 := 0

/-- `TransactionFailed::getDataSize`: three bytes are copied into an unset 32-bit number,
which is returned as a signed one. -/
def failedDataSize (u : Unset) (txs : Bytes) : Int :=
  ((txs.skip 1).uint24 + 2 ^ 24 * u.messageSize.toNat : Nat).toInt32.toInt

/-- `getBlockMessageSize` of the command that `factory::makeCommand` makes for the type:
data, signature and additional data. -/
def blockMessageSize (u : Unset) (txs : Bytes) : Option Int :=
  let bbank := (txs.skip (1 + 14)).uint16.toNat
  match (txs 0).toNat with
  | 0 => some (failedDataSize u txs)
  | 1 => some 23
  | 2 => some 53
  | 3 => some (17 + 64 + bbank)
  | 4 => some (61 + 64)
  | 5 => some (17 + 64 + bbank * 14)
  | 6 => some (17 + 64 + 36)
  | 7 => some (15 + 64)
  | 8 => some (21 + 64)
  | 9 => some (47 + 64)
  | 10 => some 145
  | 11 => some (23 + 64)
  | 12 => some (21 + 64)
  | 13 => some (23 + 64)
  | 14 => some (21 + 64)
  | 15 => some (15 + 64 + 128)
  | 16 => some (17 + 64)
  | 17 => some (18 - (if u.version = 1 then 7 else 0) + 64)
  | 18 => some (15 + 64)
  | 19 => some (19 + 64)
  | 20 => some (19 + 64)
  | 21 => some (43 + 64)
  | 22 => some (15 + 64)
  | 23 => some (15 + 64)
  | 24 => some (17 + 64)
  | 25 => some (15 + 64)
  | 26 => some (21 + 64)
  | 27 => some (17 + 64)
  | _ => none

/-- The loop of `hash_tree_fast`. -/
def walkReader (c : Crypto) (d : Bytes) (_pos off : Nat) : Option Int :=
  (getSize c (d.skip off)).map Int.ofNat

/-- The loop of `process_message`. -/
def parseReader (d : Bytes) (_pos off : Nat) : Option Int :=
  (parseSize (d.skip off)).map Int.ofNat

/-- The loop of `GetMessage::toJson`; the unset variables are those of the command made for
the position. -/
def jsonReader (u : Nat → Unset) (d : Bytes) (pos off : Nat) : Option Int :=
  blockMessageSize (u pos) (d.skip off)

/-! ## Two loops -/

section Loops

variable {size size' : Nat → Nat → Option Int}

theorem readerCuts_succ :
    readerCuts size len (fuel + 1) pos p = some cuts ↔
      ((len : Int) ≤ p ∧ cuts = []) ∨
        (p < len ∧ 0 ≤ p ∧ ∃ l rest, size pos p.toNat = some l ∧
          readerCuts size len fuel (pos + 1) (p + l) = some rest ∧
          ⟨pos, p, l⟩ :: rest = cuts) := by
  rw [readerCuts]
  by_cases hend : (len : Int) ≤ p
  · simp [hend, eq_comm]
  · by_cases hneg : p < 0
    · simp [hend, hneg]
    · simp [hend, hneg, not_le.mp hend, not_lt.mp hneg, Option.bind_eq_some_iff]

/-- More rounds change nothing once the loop has ended. -/
theorem readerCuts_mono (h : readerCuts size len fuel pos p = some cuts) :
    readerCuts size len (fuel + 1) pos p = some cuts := by
  induction fuel generalizing pos p cuts with
  | zero => cases h
  | succ fuel ih =>
    rcases readerCuts_succ.mp h with hend | ⟨hlt, hpos, l, rest, hl, hrest, hcuts⟩
    · exact readerCuts_succ.mpr (.inl hend)
    · exact readerCuts_succ.mpr (.inr ⟨hlt, hpos, l, rest, hl, ih hrest, hcuts⟩)

/-- A second loop cuts the same exactly when it finds the size of every transaction. -/
theorem readerCuts_iff (h : readerCuts size len fuel pos p = some cuts) :
    readerCuts size' len fuel pos p = some cuts ↔
      ∀ t ∈ cuts, size' t.pos t.off.toNat = some t.size := by
  induction fuel generalizing pos p cuts with
  | zero => cases h
  | succ fuel ih =>
    rcases readerCuts_succ.mp h with ⟨hend, rfl⟩ | ⟨hlt, hpos, l, rest, hl, hrest, rfl⟩
    · exact iff_of_true (readerCuts_succ.mpr (.inl ⟨hend, rfl⟩)) (by simp)
    · rw [readerCuts_succ, List.forall_mem_cons, ← ih hrest]
      constructor
      · rintro (⟨hend, -⟩ | ⟨-, -, l', rest', hl', hrest', hcuts⟩)
        · omega
        · cases hcuts
          exact ⟨hl', hrest'⟩
      · rintro ⟨hl', hrest'⟩
        exact .inr ⟨hlt, hpos, l, rest, hl', hrest', rfl⟩

theorem readerCuts_le {fuel' : Nat} (h : readerCuts size len fuel pos p = some cuts)
    (hle : fuel ≤ fuel') :
    readerCuts size len fuel' pos p = some cuts :=
  Nat.le_induction h (fun _ _ ih => readerCuts_mono ih) fuel' hle

theorem CutsInto.unique {cuts' : List Cut} (h : CutsInto size len cuts)
    (h' : CutsInto size len cuts') : cuts = cuts' := by
  obtain ⟨fuel, hcuts⟩ := h
  obtain ⟨fuel', hcuts'⟩ := h'
  have hmax := readerCuts_le hcuts (Nat.le_max_left fuel fuel')
  have hmax' := readerCuts_le hcuts' (Nat.le_max_right fuel fuel')
  exact Option.some.inj (hmax.symm.trans hmax')

theorem CutsInto.iff (h : CutsInto size len cuts) :
    CutsInto size' len cuts ↔ ∀ t ∈ cuts, size' t.pos t.off.toNat = some t.size := by
  obtain ⟨fuel, hcuts⟩ := h
  constructor
  · rintro ⟨fuel', hcuts'⟩
    have hmax := readerCuts_le hcuts (Nat.le_max_left fuel fuel')
    exact (readerCuts_iff hmax).mp (readerCuts_le hcuts' (Nat.le_max_right fuel fuel'))
  · exact fun hsizes => ⟨fuel, (readerCuts_iff hcuts).mpr hsizes⟩

end Loops

/-! ## The sizes -/

/-- A transaction of a known type whose size the client computes as the node does. -/
structure Readable (u : Unset) (txs : Bytes) : Prop where
  known : txs 0 < 28
  listed : (txs 0).toNat ≠ 17 ∧ (txs 0).toNat ≠ 20 ∧ (txs 0).toNat ≠ 27
  placeholder : (txs 0).toNat = 0 → 4 ≤ (txs.skip 1).uint24 ∧ u.messageSize = 0

theorem parseSize_eq (c : Crypto) (hknown : txs 0 < 28) : parseSize txs = getSize c txs := by
  have hlt : (txs 0).toNat < 28 := UInt8.lt_iff_toNat_lt.mp hknown
  rw [parseSize, getSize, txsSize]
  generalize (txs 0).toNat = n at hlt
  interval_cases n <;> simp [txslenTable]

theorem parseSize_of_unknown (h : ¬ txs 0 < 28) : parseSize txs = none := by
  have hle : 28 ≤ (txs 0).toNat := UInt8.le_iff_toNat_le.mp (UInt8.not_lt.mp h)
  simp [parseSize, hle]

/-- The length of a placeholder is the announced one if that is at least four and the upper
byte is clear. -/
theorem failedDataSize_iff (u : Unset) (txs : Bytes) :
    failedDataSize u txs = (max 4 (txs.skip 1).uint24 : Nat) ↔
      4 ≤ (txs.skip 1).uint24 ∧ u.messageSize = 0 := by
  have hlen := Bytes.uint24_lt (txs.skip 1)
  have hbyte := u.messageSize.toNat_lt
  have hzero : u.messageSize = 0 ↔ u.messageSize.toNat = 0 := by
    rw [← UInt8.toNat_inj]
    rfl
  rw [failedDataSize, hzero]
  generalize (txs.skip 1).uint24 = n at hlen ⊢
  generalize u.messageSize.toNat = g at hbyte ⊢
  have hint :
      ((n + 2 ^ 24 * g : Nat).toInt32).toInt = ((n + 2 ^ 24 * g : Nat) : Int).bmod (2 ^ 32) :=
    Int32.toInt_ofNat' 
  rw [hint, Int.bmod]
  omega

theorem blockMessageSize_iff {u : Unset} {l : Nat} (hknown : txs 0 < 28)
    (hsize : getSize c txs = some l) :
    blockMessageSize u txs = some (l : Int) ↔ Readable u txs := by
  have hreadable : Readable u txs ↔
      ((txs 0).toNat ≠ 17 ∧ (txs 0).toNat ≠ 20 ∧ (txs 0).toNat ≠ 27) ∧
        ((txs 0).toNat = 0 → 4 ≤ (txs.skip 1).uint24 ∧ u.messageSize = 0) :=
    ⟨fun h => ⟨h.listed, h.placeholder⟩, fun h => ⟨hknown, h.1, h.2⟩⟩
  have hlt : (txs 0).toNat < 28 := UInt8.lt_iff_toNat_lt.mp hknown
  rw [hreadable]
  rw [getSize, txsSize] at hsize
  rw [blockMessageSize]
  generalize (txs 0).toNat = n at hlt hsize
  interval_cases n <;> simp [txslenTable] at hsize <;> subst hsize <;> simp
  · simpa using failedDataSize_iff u txs
  · split <;> decide

/-- The node's and the client's loop find the size of the walk exactly on readable
transactions. -/
theorem sizes_iff {u : Unset} {l : Nat} (hsize : getSize c txs = some l) :
    (parseSize txs).map Int.ofNat = some (l : Int) ∧ blockMessageSize u txs = some (l : Int) ↔
      Readable u txs := by
  by_cases hknown : txs 0 < 28
  · rw [parseSize_eq c hknown, hsize, blockMessageSize_iff hknown hsize]
    exact and_iff_right rfl
  · rw [parseSize_of_unknown hknown]
    exact iff_of_false (fun h => by simp at h) fun h => hknown h.known

/-! ## The readers -/

/-- The cuts of the walk, with positions. -/
theorem readerCuts_of_txsCuts {p q : Nat} {cuts : List (Nat × Nat)} (pos : Nat)
    (h : txsCuts c d len fuel p = .ok (cuts, q)) :
    ∃ cuts', readerCuts (walkReader c d) len fuel pos p = some cuts' := by
  induction fuel generalizing pos p q cuts with
  | zero => cases h
  | succ fuel ih =>
    rw [txsCuts] at h
    split at h
    · rename_i hend
      exact ⟨[], readerCuts_succ.mpr (.inl ⟨by exact_mod_cast hend, rfl⟩)⟩
    · rename_i hend
      cases hsize : getSize c (d.skip p) with
      | none =>
        rw [hsize] at h
        cases h
      | some l =>
        rw [hsize] at h
        dsimp only at h
        cases hrest : txsCuts c d len fuel (p + l) with
        | error e =>
          rw [hrest] at h
          cases h
        | ok r =>
          obtain ⟨rest, hrest'⟩ := ih (pos + 1) hrest
          refine ⟨⟨pos, p, l⟩ :: rest, readerCuts_succ.mpr (.inr ⟨?_, Int.natCast_nonneg p,
            l, rest, ?_, by exact_mod_cast hrest', rfl⟩)⟩
          · exact_mod_cast Nat.lt_of_not_le hend
          · rw [walkReader, Int.toNat_natCast, hsize]
            rfl

/-- An accepted message is cut by the loop of `hash_tree_fast`. -/
theorem cutsInto_of_hashTreeFast {svid : UInt16} {msid : UInt32} {h : Hash}
    (hok : hashTreeFast c d len svid msid = .ok h) :
    ∃ cuts, CutsInto (walkReader c d) len cuts := by
  rw [hashTreeFast_eq_cuts] at hok
  cases hcuts : treeCuts c d len svid msid with
  | error e =>
    rw [hcuts] at hok
    cases hok
  | ok cuts =>
    obtain ⟨-, -, -, hwalk⟩ := treeCuts_eq_ok.mp hcuts
    obtain ⟨cuts', hcuts'⟩ := readerCuts_of_txsCuts 1 hwalk
    exact ⟨cuts', len + 1, hcuts'⟩

theorem walkReader_of_cut (h : CutsInto (walkReader c d) len cuts) {t : Cut} (ht : t ∈ cuts) :
    ∃ l : Nat, t.size = l ∧ getSize c (d.skip t.off.toNat) = some l := by
  have hsize := h.iff.mp h t ht
  rw [walkReader, Option.map_eq_some_iff] at hsize
  obtain ⟨l, hl, hsize⟩ := hsize
  exact ⟨l, hsize.symm, hl⟩

/-- A message that `hash_tree_fast` accepts is cut into the same transactions, at the same
positions, by the node and by the client exactly when the client knows the sizes of all of
them: no request for a log, a transaction or a fields list, no type above the table, and no
placeholder shorter than four bytes or read with a stray upper byte. -/
theorem readers_agree_iff (c : Crypto) (u : Nat → Unset) (d : Bytes) (len : Nat)
    (svid : UInt16) (msid : UInt32) (h : Hash) (hok : hashTreeFast c d len svid msid = .ok h) :
    (∃ cuts, CutsInto (walkReader c d) len cuts ∧ CutsInto (parseReader d) len cuts ∧
        CutsInto (jsonReader u d) len cuts) ↔
      ∀ cuts, CutsInto (walkReader c d) len cuts →
        ∀ t ∈ cuts, Readable (u t.pos) (d.skip t.off.toNat) := by
  constructor
  · rintro ⟨cuts, hwalk, hparse, hjson⟩ cuts' hwalk' t ht
    cases hwalk.unique hwalk'
    obtain ⟨l, hl, hsize⟩ := walkReader_of_cut hwalk ht
    have hparse' := hwalk.iff.mp hparse t ht
    have hjson' := hwalk.iff.mp hjson t ht
    rw [hl] at hparse' hjson'
    exact (sizes_iff hsize).mp ⟨hparse', hjson'⟩
  · intro hreadable
    obtain ⟨cuts, hwalk⟩ := cutsInto_of_hashTreeFast hok
    have hsizes : ∀ t ∈ cuts, parseReader d t.pos t.off.toNat = some t.size ∧
        jsonReader u d t.pos t.off.toNat = some t.size := by
      intro t ht
      obtain ⟨l, hl, hsize⟩ := walkReader_of_cut hwalk ht
      rw [hl]
      exact (sizes_iff hsize).mpr (hreadable cuts hwalk t ht)
    refine ⟨cuts, hwalk, hwalk.iff.mpr ?_, hwalk.iff.mpr ?_⟩
    · exact fun t ht => (hsizes t ht).1
    · exact fun t ht => (hsizes t ht).2

/-- A placeholder of four bytes and a connection entry are cut by all three. -/
theorem readers_agree_row :
    ∃ cuts, CutsInto (parseReader (Sample.bodyMessage Sample.txsRow)) 105 cuts ∧
      CutsInto (jsonReader (fun _ => {}) (Sample.bodyMessage Sample.txsRow)) 105 cuts := by
  obtain ⟨h, hok, -⟩ := exists_of_succeeds
    (x := hashTreeFast Sample.plainCrypto (Sample.bodyMessage Sample.txsRow) 105 1 1)
    (p := fun _ => true) (by decide +kernel)
  have hwalk : CutsInto (walkReader Sample.plainCrypto (Sample.bodyMessage Sample.txsRow)) 105
      [⟨1, 78, 4⟩, ⟨2, 82, 23⟩] := ⟨3, by decide +kernel⟩
  obtain ⟨cuts, -, hparse, hjson⟩ := (readers_agree_iff Sample.plainCrypto (fun _ => {})
    (Sample.bodyMessage Sample.txsRow) 105 1 1 h hok).mpr fun cuts hcuts t ht => by
      cases hcuts.unique hwalk
      rw [List.mem_pair] at ht
      obtain rfl | rfl := ht
      · exact ⟨by decide +kernel, by decide +kernel, by decide +kernel⟩
      · exact ⟨by decide +kernel, by decide +kernel, by decide +kernel⟩
  exact ⟨cuts, hparse, hjson⟩

/-- A placeholder that announces no length holds the client's loop up for ever. -/
theorem readerCuts_json_endless (fuel pos : Nat) :
    readerCuts (jsonReader (fun _ => {}) (Sample.bodyMessage [0, 0, 0, 0])) 82 fuel pos 78 =
      none := by
  have hsize (pos : Nat) : jsonReader (fun _ => {}) (Sample.bodyMessage [0, 0, 0, 0]) pos 78 =
      some 0 := by
    rw [jsonReader]
    decide +kernel
  induction fuel generalizing pos with
  | zero => rfl
  | succ fuel ih =>
    rw [readerCuts, if_neg (by decide), if_neg (by decide)]
    change ((jsonReader _ _ pos 78).bind fun l => _) = none
    rw [hsize, Option.bind_some, Int.add_zero, ih]
    rfl

/-- A placeholder that announces no length is accepted and cut by the node, and the client
does not end. A log request of 81 bytes is cut as one of 82 by the client. -/
theorem readers_disagree :
    (∃ h, hashTreeFast Sample.plainCrypto (Sample.bodyMessage [0, 0, 0, 0]) 82 1 1 = .ok h) ∧
      CutsInto (parseReader (Sample.bodyMessage [0, 0, 0, 0])) 82 [⟨1, 78, 4⟩] ∧
      (¬ ∃ cuts, CutsInto (jsonReader (fun _ => {}) (Sample.bodyMessage [0, 0, 0, 0])) 82 cuts) ∧
      (∃ h, hashTreeFast Sample.plainCrypto
        (Sample.bodyMessage (17 :: List.replicate 80 0)) 159 1 1 = .ok h) ∧
      CutsInto (parseReader (Sample.bodyMessage (17 :: List.replicate 80 0))) 159
        [⟨1, 78, 81⟩] ∧
      CutsInto (jsonReader (fun _ => {}) (Sample.bodyMessage (17 :: List.replicate 80 0))) 159
        [⟨1, 78, 82⟩] := by
  refine ⟨?_, ⟨2, by decide +kernel⟩, ?_, ?_, ⟨2, by decide +kernel⟩, ⟨2, by decide +kernel⟩⟩
  · obtain ⟨h, hok, -⟩ := exists_of_succeeds
      (x := hashTreeFast Sample.plainCrypto (Sample.bodyMessage [0, 0, 0, 0]) 82 1 1)
      (p := fun _ => true) (by decide +kernel)
    exact ⟨h, hok⟩
  · rintro ⟨cuts, fuel, hcuts⟩
    rw [show (4 + 64 + 10 : Int) = 78 from rfl, readerCuts_json_endless] at hcuts
    cases hcuts
  · obtain ⟨h, hok, -⟩ := exists_of_succeeds
      (x := hashTreeFast Sample.plainCrypto
        (Sample.bodyMessage (17 :: List.replicate 80 0)) 159 1 1)
      (p := fun _ => true) (by decide +kernel)
    exact ⟨h, hok⟩

end Esc
