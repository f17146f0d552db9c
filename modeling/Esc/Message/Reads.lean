import Esc.Message.HashTree

/-!
# What the walk over a message reads

`hash_tree_fast` finds the transactions of a received message before anything has been
checked about them. It hashes each transaction with the length that its first bytes
announce and compares with the end of the message afterwards, and `get_size` takes the
type for a signed number.

The reads are listed beside the walk. They stay in the buffer and in the table of lengths
exactly when the message is a row of whole transactions that ends at its end or at a byte
that is no type.
-/

namespace Esc

open Lib

variable {c : Crypto} {type : UInt8} {d e : Bytes} {l len p : Nat}

/-- A read of the walk: bytes of the buffer, or an entry of `txslen`. -/
inductive Access where
  | bytes (off n : Nat)
  | txslen (i : Int)
deriving DecidableEq, Repr

def Access.InBounds (len : Nat) : Access → Prop
  | .bytes off n => off + n ≤ len
  | .txslen i => 0 ≤ i ∧ i < 28 + 1

/-- The bytes of a read are the same in two buffers. -/
def Access.Same (d e : Bytes) : Access → Prop
  | .bytes off n => (d.skip off).take n = (e.skip off).take n
  | .txslen _ => True

/-- The reads of `get_size` at offset `p`. -/
def getSizeReads (d : Bytes) (p : Nat) : List Access :=
  .bytes p 1 ::
    if 28 ≤ (d p).toInt8.toInt then []
    else
      match (d p).toNat with
      | 0 => [.bytes (p + 1) 3]
      | 3 => [.bytes (p + 1 + 14) 2, .txslen 3]
      | 5 => [.bytes (p + 1 + 14) 2, .txslen 5]
      | _ => [.txslen (d p).toInt8.toInt]

/-- The reads of the loop of `hash_tree_fast`. -/
def hashTxsReads (c : Crypto) (d : Bytes) (len : Nat) : Nat → Nat → List Access
  | 0, _ => []
  | fuel + 1, p =>
    if len ≤ p then []
    else
      getSizeReads d p ++
        match getSize c (d.skip p) with
        | none => []
        | some l => .bytes p l :: hashTxsReads c d len fuel (p + l)

/-- The reads of `hash_tree_fast`. -/
def hashTreeFastReads (c : Crypto) (d : Bytes) (len : Nat) (svid : UInt16) (msid : UInt32) :
    List Access :=
  .bytes 0 1 ::
    if d 0 = msgtypeMsg ∧ svid ≠ 0 ∧ msid ≠ 0 then
      .bytes (4 + 64) 10 ::
        if 4 + 64 + 10 < len then hashTxsReads c d len (len + 1) (4 + 64 + 10) else []
    else []

/-- A whole transaction: of a known type, and of the length that its bytes announce. -/
structure IsTxs (c : Crypto) (t : List UInt8) : Prop where
  known : Bytes.ofList t (fun _ => 0) 0 < 28
  size : getSize c (Bytes.ofList t fun _ => 0) = some t.length

/-- A row of whole transactions up to the end, or up to a byte that is no type. -/
def TxsRow (c : Crypto) (body : List UInt8) : Prop :=
  ∃ (parts : List (List UInt8)) (rest : List UInt8),
    body = parts.flatten ++ rest ∧ (∀ t ∈ parts, IsTxs c t) ∧
    (rest = [] ∨ ∃ type tail, rest = type :: tail ∧ 28 ≤ type ∧ type < 128)

theorem toInt8_of_lt (h : type < 128) : type.toInt8.toInt = type.toNat := by
  revert type
  decide +kernel

theorem toInt8_neg (h : 128 ≤ type) : type.toInt8.toInt < 0 := by
  revert type
  decide +kernel

/-- The size of a transaction of a known type covers the bytes that it is read from. -/
theorem txsSize_of_lt (c : Crypto) (h : type < 28) (count len : Nat) :
    ∃ l, txsSize c type count len = some l ∧ 4 ≤ l ∧
      (type.toNat = 3 ∨ type.toNat = 5 → 1 + 14 + 2 ≤ l) := by
  have hlt : type.toNat < 28 := UInt8.lt_iff_toNat_lt.mp h
  have hsigned : ¬ 128 ≤ type.toNat := by omega
  have htable : ¬ txslenTable.length ≤ type.toNat := by simpa [txslenTable] using hlt
  rw [txsSize, if_neg hsigned, if_neg htable]
  generalize type.toNat = n at hlt
  interval_cases n <;> simp [txslenTable] <;> omega

theorem take_zero_or_cons (e : Bytes) (n : Nat) :
    n = 0 ∨ e.take n = e 0 :: (e.skip 1).take (n - 1) := by
  cases n with
  | zero => exact .inl rfl
  | succ n =>
    refine .inr ?_
    rw [Nat.add_comm, Bytes.take_add, Nat.add_sub_cancel_left]
    rfl

theorem txsRow_nil (c : Crypto) : TxsRow c [] := ⟨[], [], rfl, by simp, .inl rfl⟩

theorem txsRow_of_unknown (c : Crypto) (tail : List UInt8) (hmax : 28 ≤ type)
    (hsigned : type < 128) : TxsRow c (type :: tail) :=
  ⟨[], type :: tail, rfl, by simp, .inr ⟨type, tail, rfl, hmax, hsigned⟩⟩

/-- The first transaction of a row. -/
theorem txsRow_cons {tail : List UInt8} (h : TxsRow c (type :: tail)) :
    (28 ≤ type ∧ type < 128) ∨
      ∃ t rest, type :: tail = t ++ rest ∧ IsTxs c t ∧ TxsRow c rest := by
  obtain ⟨parts, rest, hbody, htxs, hrest⟩ := h
  cases parts with
  | nil =>
    rcases hrest with rfl | ⟨type', tail', rfl, hmax, hsigned⟩
    · cases hbody
    · cases hbody
      exact .inl ⟨hmax, hsigned⟩
  | cons t parts =>
    refine .inr ⟨t, parts.flatten ++ rest, ?_, htxs t (by simp), parts, rest, rfl, ?_, hrest⟩
    · rw [hbody, List.flatten_cons, List.append_assoc]
    · exact fun t' ht' => htxs t' (by simp [ht'])

theorem IsTxs.append {t rest : List UInt8} (ht : IsTxs c t) (h : TxsRow c rest) :
    TxsRow c (t ++ rest) := by
  obtain ⟨parts, tail, rfl, htxs, htail⟩ := h
  refine ⟨t :: parts, tail, by simp, ?_, htail⟩
  intro t' ht'
  rcases List.mem_cons.mp ht' with rfl | ht'
  · exact ht
  · exact htxs t' ht'

theorem IsTxs.length_pos {t : List UInt8} (h : IsTxs c t) : 0 < t.length := by
  obtain ⟨l, hl, hfour, -⟩ := txsSize_of_lt c h.known _ _
  have := h.size.symm.trans hl
  cases this
  omega

/-- The bytes of a whole transaction at the front of a buffer. -/
theorem isTxs_take (hknown : e 0 < 28) (hsize : getSize c e = some l) : IsTxs c (e.take l) := by
  obtain ⟨l', hl', hfour, -⟩ := txsSize_of_lt c hknown (e.skip (1 + 14)).uint16.toNat
    (e.skip 1).uint24
  cases hsize.symm.trans hl'
  have hsame : ∀ i < l, e i = Bytes.ofList (e.take l) (fun _ => 0) i := fun i hi =>
    (Bytes.ofList_take e _ hi).symm
  refine ⟨hsame 0 (by omega) ▸ hknown, ?_⟩
  rw [Bytes.length_take]
  exact getSize_congr (hsame 0 (by omega)) hsize hsame

/-- A row that starts with a known type: its transaction fits, and a row follows. -/
theorem txsRow_take_iff {n : Nat} (hn : n ≠ 0) (hknown : e 0 < 28) (hsize : getSize c e = some l) :
    TxsRow c (e.take n) ↔ l ≤ n ∧ TxsRow c ((e.skip l).take (n - l)) := by
  constructor
  · intro hrow
    have hcons := (take_zero_or_cons e n).resolve_left hn
    rw [hcons] at hrow
    rcases txsRow_cons hrow with ⟨hmax, -⟩ | ⟨t, rest, hbody, ht, hrest⟩
    · exact absurd hknown (UInt8.not_lt.mpr hmax)
    rw [← hcons] at hbody
    have hlength : n = t.length + rest.length := by
      rw [← List.length_append, ← hbody, Bytes.length_take]
    have hsplit : e.take t.length ++ (e.skip t.length).take rest.length = t ++ rest := by
      rw [← Bytes.take_add, ← hlength, hbody]
    obtain ⟨htake, hskip⟩ := List.append_inj hsplit (Bytes.length_take e _)
    have hsame : ∀ i < t.length, Bytes.ofList t (fun _ => 0) i = e i := by
      intro i hi
      rw [← htake, Bytes.ofList_take e _ hi]
    have hl := getSize_congr (hsame 0 ht.length_pos) ht.size hsame
    cases hsize.symm.trans hl
    rw [hlength, Nat.add_sub_cancel_left, hskip]
    exact ⟨Nat.le_add_right _ _, hrest⟩
  · rintro ⟨hle, hrest⟩
    have hsplit : e.take n = e.take l ++ (e.skip l).take (n - l) := by
      rw [← Bytes.take_add, Nat.add_sub_of_le hle]
    rw [hsplit]
    exact (isTxs_take hknown hsize).append hrest

/-- The reads of the size of a known type are inside the transaction. -/
theorem getSizeReads_inBounds (hknown : d p < 28) (hsize : getSize c (d.skip p) = some l)
    (hle : p + l ≤ len) :
    ∀ a ∈ getSizeReads d p, a.InBounds len := by
  obtain ⟨l', hl', hfour, hcount⟩ := txsSize_of_lt c hknown
    ((d.skip p).skip (1 + 14)).uint16.toNat ((d.skip p).skip 1).uint24
  cases hsize.symm.trans hl'
  have hlt := UInt8.lt_iff_toNat_lt.mp hknown
  have hindex : (d p).toInt8.toInt = (d p).toNat :=
    toInt8_of_lt (UInt8.lt_trans hknown (by decide))
  intro a ha
  rw [getSizeReads, hindex, if_neg (by exact_mod_cast Nat.not_le.mpr hlt)] at ha
  rcases List.mem_cons.mp ha with rfl | ha
  · simp only [Access.InBounds]
    omega
  · split at ha
    · rw [List.mem_singleton.mp ha, Access.InBounds]
      omega
    · rename_i htype
      have := hcount (.inl htype)
      rcases List.mem_cons.mp ha with rfl | ha
      · simp only [Access.InBounds]
        omega
      · rw [List.mem_singleton.mp ha, Access.InBounds]
        omega
    · rename_i htype
      have := hcount (.inr htype)
      rcases List.mem_cons.mp ha with rfl | ha
      · simp only [Access.InBounds]
        omega
      · rw [List.mem_singleton.mp ha, Access.InBounds]
        omega
    · rw [List.mem_singleton.mp ha, Access.InBounds]
      have : (d p).toNat < 28 := hlt
      omega

theorem getSize_of_unknown (hmax : 28 ≤ e 0) (hsigned : e 0 < 128) : getSize c e = none := by
  have hmax' : 28 ≤ (e 0).toNat := UInt8.le_iff_toNat_le.mp hmax
  have hsigned' : (e 0).toNat < 128 := UInt8.lt_iff_toNat_lt.mp hsigned
  rw [getSize, txsSize, if_neg (by omega), if_pos (by simpa [txslenTable] using hmax')]

/-- The reads of the loop from an offset on. The induction is on the rounds: a whole
transaction moves the offset by at least four bytes. -/
theorem hashTxsReads_inBounds_iff (c : Crypto) (d : Bytes) {fuel : Nat} (hfuel : len - p < fuel) :
    (∀ a ∈ hashTxsReads c d len fuel p, a.InBounds len) ↔
      TxsRow c ((d.skip p).take (len - p)) := by
  induction fuel generalizing p with
  | zero => omega
  | succ fuel ih =>
    rw [hashTxsReads]
    by_cases hend : len ≤ p
    · rw [if_pos hend, Nat.sub_eq_zero_of_le hend]
      exact iff_of_true (by simp) (txsRow_nil c)
    rw [if_neg hend]
    have hn : len - p ≠ 0 := by omega
    have hcons := (take_zero_or_cons (d.skip p) (len - p)).resolve_left hn
    by_cases hknown : d p < 28
    · obtain ⟨l, hl, hfour, -⟩ := txsSize_of_lt c hknown
        ((d.skip p).skip (1 + 14)).uint16.toNat ((d.skip p).skip 1).uint24
      have hsize : getSize c (d.skip p) = some l := hl
      rw [hsize, txsRow_take_iff hn hknown hsize, Bytes.skip_skip, Nat.sub_sub,
        ← ih (by omega)]
      dsimp only
      constructor
      · intro hbounds
        have hread := hbounds (.bytes p l) (by simp)
        simp only [Access.InBounds] at hread
        exact ⟨by omega, fun a ha => hbounds a (by simp [ha])⟩
      · rintro ⟨hle, hrest⟩ a ha
        rcases List.mem_append.mp ha with ha | ha
        · exact getSizeReads_inBounds hknown hsize (by omega) a ha
        · rcases List.mem_cons.mp ha with rfl | ha
          · simp only [Access.InBounds]
            omega
          · exact hrest a ha
    · have hmax : 28 ≤ d p := UInt8.not_lt.mp hknown
      by_cases hsigned : d p < 128
      · rw [getSize_of_unknown hmax hsigned, hcons, getSizeReads, toInt8_of_lt hsigned,
          if_pos (by exact_mod_cast UInt8.le_iff_toNat_le.mp hmax)]
        refine iff_of_true ?_ (txsRow_of_unknown c _ hmax hsigned)
        intro a ha
        rw [List.append_nil] at ha
        rw [List.mem_singleton.mp ha, Access.InBounds]
        omega
      · have hneg := toInt8_neg (UInt8.not_lt.mp hsigned)
        refine iff_of_false (fun hbounds => ?_) (fun hrow => ?_)
        · have hread := hbounds (.txslen (d p).toInt8.toInt) ?_
          · exact absurd hread.1 (not_le.mpr hneg)
          · have htype : (d p).toNat ≠ 0 ∧ (d p).toNat ≠ 3 ∧ (d p).toNat ≠ 5 := by
              have := UInt8.le_iff_toNat_le.mp hmax
              simp only [UInt8.reduceToNat] at this
              omega
            apply List.mem_append_left
            rw [getSizeReads, if_neg (by omega)]
            split <;> simp_all
        · rw [hcons] at hrow
          rcases txsRow_cons hrow with ⟨-, hlt⟩ | ⟨t, rest, hbody, ht, -⟩
          · exact hsigned hlt
          · have hpos := ht.length_pos
            have hhead : Bytes.ofList t (fun _ => 0) 0 = d p := by
              cases t with
              | nil => simp at hpos
              | cons x t => exact (List.cons.inj hbody).1.symm
            exact hknown (hhead ▸ ht.known)

/-- A byte listed as read is the same in two buffers that agree on the reads. -/
theorem Access.Same.eq {off n : Nat} (h : (Access.bytes off n).Same d e) (hn : 0 < n) :
    e off = d off := by
  have hbyte := Bytes.eq_of_take_eq (d := d.skip off) (e := e.skip off) h hn
  exact hbyte.symm

/-- The size that `get_size` returns is a function of the bytes listed as read. -/
theorem getSize_reads (hsame : ∀ a ∈ getSizeReads d p, a.Same d e) :
    getSize c (e.skip p) = getSize c (d.skip p) := by
  have hbyte : e p = d p := (hsame (.bytes p 1) (by simp [getSizeReads])).eq Nat.one_pos
  rw [getSizeReads] at hsame
  by_cases hmax : 28 ≤ (d p).toInt8.toInt
  · have hsigned : d p < 128 := by
      by_contra hge
      have := toInt8_neg (UInt8.not_lt.mp hge)
      omega
    have hknown : 28 ≤ d p := by
      rw [toInt8_of_lt hsigned] at hmax
      exact UInt8.le_iff_toNat_le.mpr (by exact_mod_cast hmax)
    have hknown' : 28 ≤ e.skip p 0 := by rwa [← hbyte] at hknown
    have hsigned' : e.skip p 0 < 128 := by rwa [← hbyte] at hsigned
    rw [getSize_of_unknown hknown' hsigned',
      getSize_of_unknown (e := d.skip p) hknown hsigned]
  · rw [if_neg hmax] at hsame
    rw [getSize, getSize, Bytes.skip_apply, Bytes.skip_apply, Nat.add_zero, hbyte, txsSize, txsSize]
    split
    · rfl
    split
    · rfl
    dsimp only
    split <;> rename_i htype <;> simp only [htype] at hsame
    · have hlen : (d.skip (p + 1)).take 3 = (e.skip (p + 1)).take 3 :=
        hsame (.bytes (p + 1) 3) (by simp)
      rw [Bytes.skip_skip, Bytes.skip_skip, Bytes.uint24_congr hlen]
    · rfl
    · rfl
    · have hcount : (d.skip (p + (1 + 14))).take 2 = (e.skip (p + (1 + 14))).take 2 :=
        hsame (.bytes (p + 1 + 14) 2) (by simp)
      rw [Bytes.skip_skip, Bytes.skip_skip, Bytes.uint16_congr hcount]
    · have hcount : (d.skip (p + (1 + 14))).take 2 = (e.skip (p + (1 + 14))).take 2 :=
        hsame (.bytes (p + 1 + 14) 2) (by simp)
      rw [Bytes.skip_skip, Bytes.skip_skip, Bytes.uint16_congr hcount]
    all_goals rfl

/-- The loop is a function of the bytes listed as read. -/
theorem hashTxs_reads {fuel : Nat} (svid : UInt16) (msid : UInt32) (tnum : UInt16) (tree : HashTree)
    (hsame : ∀ a ∈ hashTxsReads c d len fuel p, a.Same d e) :
    hashTxs c e len svid msid fuel p tnum tree = hashTxs c d len svid msid fuel p tnum tree := by
  induction fuel generalizing p tnum tree with
  | zero => rfl
  | succ fuel ih =>
    rw [hashTxsReads] at hsame
    rw [hashTxs, hashTxs]
    split
    · rfl
    · rename_i hend
      rw [if_neg hend] at hsame
      rw [getSize_reads fun a ha => hsame a (List.mem_append_left _ ha)]
      cases hsize : getSize c (d.skip p) with
      | none => rfl
      | some l =>
        rw [hsize] at hsame
        dsimp only at hsame ⊢
        have hbytes : (d.skip p).take l = (e.skip p).take l := hsame (.bytes p l) (by simp)
        rw [← hbytes]
        exact ih _ _ fun a ha => hsame a (by simp [ha])

/-- The list of reads is complete: `hash_tree_fast` gives the same on every buffer with the
same bytes at the places read. -/
theorem hashTreeFast_reads {svid : UInt16} {msid : UInt32}
    (hsame : ∀ a ∈ hashTreeFastReads c d len svid msid, a.Same d e) :
    hashTreeFast c e len svid msid = hashTreeFast c d len svid msid := by
  have htype : e 0 = d 0 :=
    (hsame (.bytes 0 1) (by simp [hashTreeFastReads])).eq Nat.one_pos
  rw [hashTreeFastReads] at hsame
  rw [hashTreeFast, hashTreeFast, htype]
  by_cases hhead : d 0 = msgtypeMsg ∧ svid ≠ 0 ∧ msid ≠ 0
  · rw [if_pos hhead] at hsame
    by_cases hlen : 4 + 64 + 10 < len
    · rw [if_pos hlen] at hsame
      have hids : (d.skip (4 + 64)).take 10 = (e.skip (4 + 64)).take 10 :=
        hsame (.bytes (4 + 64) 10) (by simp)
      have hloop (tree : HashTree) :
          hashTxs c e len svid msid (len + 1) (4 + 64 + 10) 1 tree =
            hashTxs c d len svid msid (len + 1) (4 + 64 + 10) 1 tree :=
        hashTxs_reads svid msid 1 tree fun a ha =>
          hsame a (List.mem_cons_of_mem _ (List.mem_cons_of_mem _ ha))
      simp only [← hids, hloop]
    · simp only [require, if_neg hlen]
      rfl
  · simp only [require, if_neg hhead]
    rfl

/-- A message longer than its head is walked inside the buffer and inside the table of
lengths exactly when it is a row of whole transactions that ends at its end or at a byte that
is no type. A message without node or message id stops on an assertion before the walk. -/
theorem hashTreeFast_inBounds_iff (c : Crypto) (d : Bytes) (len : Nat) (svid : UInt16)
    (msid : UInt32) (hmsg : d 0 = msgtypeMsg) (hlen : 4 + 64 + 10 < len) :
    (∀ a ∈ hashTreeFastReads c d len svid msid, a.InBounds len) ↔
      svid = 0 ∨ msid = 0 ∨ TxsRow c ((d.skip (4 + 64 + 10)).take (len - (4 + 64 + 10))) := by
  rw [← hashTxsReads_inBounds_iff c d (show len - (4 + 64 + 10) < len + 1 by omega)]
  have hfirst : Access.InBounds len (.bytes 0 1) := by
    simp only [Access.InBounds]
    omega
  have hids : Access.InBounds len (.bytes (4 + 64) 10) := by
    simp only [Access.InBounds]
    omega
  rw [hashTreeFastReads, List.forall_mem_cons]
  by_cases hhead : d 0 = msgtypeMsg ∧ svid ≠ 0 ∧ msid ≠ 0
  · rw [if_pos hhead, if_pos hlen, List.forall_mem_cons]
    simp only [hfirst, hids, true_and, hhead.2.1, hhead.2.2, false_or]
  · rw [if_neg hhead]
    refine iff_of_true ⟨hfirst, by simp⟩ ?_
    by_contra hnot
    rw [not_or, not_or] at hnot
    exact hhead ⟨hmsg, hnot.1, hnot.2.1⟩

/-- A message that consists of its head and a body. -/
def Sample.bodyMessage (body : List UInt8) : Bytes :=
  Bytes.ofList (msgtypeMsg :: List.replicate 77 0 ++ body) fun _ => 0

/-- A placeholder and a connection entry. -/
def Sample.txsRow : List UInt8 := [0, 4, 0, 0] ++ 1 :: List.replicate 22 0

/-- A message of a placeholder and a connection entry is read inside its 105 bytes. -/
theorem hashTreeFast_inBounds_row :
    TxsRow Sample.plainCrypto Sample.txsRow ∧
      ∀ a ∈ hashTreeFastReads Sample.plainCrypto (Sample.bodyMessage Sample.txsRow) 105 1 1,
        a.InBounds 105 := by
  have hrow : TxsRow Sample.plainCrypto Sample.txsRow := by
    refine ⟨[[0, 4, 0, 0], 1 :: List.replicate 22 0], [], rfl, ?_, .inl rfl⟩
    intro t ht
    rw [List.mem_pair] at ht
    obtain rfl | rfl := ht
    · exact ⟨by decide, rfl⟩
    · exact ⟨by decide, rfl⟩
  exact ⟨hrow, (hashTreeFast_inBounds_iff Sample.plainCrypto (Sample.bodyMessage Sample.txsRow)
    105 1 1 rfl (by decide)).mpr (.inr (.inr hrow))⟩

/-- A connection entry of one byte is hashed with the 23 bytes of a whole one, and the type
`0x80` takes the length at index -128 of the table. -/
theorem hashTreeFast_out_of_bounds :
    (∃ a ∈ hashTreeFastReads Sample.plainCrypto (Sample.bodyMessage [1]) 79 1 1,
      ¬ a.InBounds 79) ∧
    .txslen (-128) ∈ hashTreeFastReads Sample.plainCrypto (Sample.bodyMessage [0x80]) 79 1 1 ∧
      ¬ Access.InBounds 79 (.txslen (-128)) := by
  refine ⟨⟨.bytes 78 23, by decide +kernel, ?_⟩, by decide +kernel, ?_⟩ <;>
    simp [Access.InBounds]

end Esc
