import Esc.Helper.Amount

/-!
# Addresses with a checksum

An address is printed as `NNNN-UUUUUUUU-XXXX`: node, account, and a checksum of 16 bits over the
six bytes of both. The digits of node and account are the bytes of the checksum in their order.

A step of the checksum loses nothing: from the new state and the old one the byte can be found
again, and from the new state and the byte the old state. A change of two bytes next to each other
is therefore always found, and with it a change of a digit and a swap of two digits.
-/

namespace Esc

variable {a b : UInt16} {x y : UInt8} {c : Char} {ds s : Text} {n : Nat}

/-! ## The checksum -/

/-- A round of the loop of `crc16`. -/
def crcStep (crc : UInt16) (byte : UInt8) : UInt16 :=
  let x := (crc >>> 8).toUInt8 ^^^ byte
  let x := x ^^^ (x >>> 4)
  (crc <<< 8) ^^^ (x.toUInt16 <<< 12) ^^^ (x.toUInt16 <<< 5) ^^^ x.toUInt16

def crc16 (data : List UInt8) : UInt16 := data.foldl crcStep 0x1D0F

/-- `crc_acnt`: the bytes of the two numbers, the highest first. -/
def crcAcnt (node : UInt16) (user : UInt32) : UInt16 :=
  crc16 [(node >>> 8).toUInt8, node.toUInt8, (user >>> 24).toUInt8, (user >>> 16).toUInt8,
    (user >>> 8).toUInt8, user.toUInt8]

/-- What a round adds to the shifted state. -/
def crcMix (x : UInt8) : UInt16 :=
  let x := x ^^^ (x >>> 4)
  (x.toUInt16 <<< 12) ^^^ (x.toUInt16 <<< 5) ^^^ x.toUInt16

theorem crcStep_eq (crc : UInt16) (byte : UInt8) :
    crcStep crc byte = (crc <<< 8) ^^^ crcMix ((crc >>> 8).toUInt8 ^^^ byte) := by
  simp only [crcStep, crcMix, UInt16.xor_assoc]

/-- The low byte of what is added tells what it was made of. -/
theorem crcMix_inj (h : (crcMix x).toUInt8 = (crcMix y).toUInt8) : x = y := by
  have hall : ∀ x y : Fin (2 ^ 8), (crcMix (.ofNat x)).toUInt8 = (crcMix (.ofNat y)).toUInt8 →
      x = y := by decide +kernel
  have hxy := hall ⟨x.toNat, x.toNat_lt⟩ ⟨y.toNat, y.toNat_lt⟩ (by simpa using h)
  exact UInt8.toNat_inj.mp (congrArg Fin.val hxy)

theorem toUInt8_crcStep (crc : UInt16) (byte : UInt8) :
    (crcStep crc byte).toUInt8 = (crcMix ((crc >>> 8).toUInt8 ^^^ byte)).toUInt8 := by
  have hlow : (crc <<< 8).toUInt8 = 0 := by
    apply UInt8.toNat_inj.mp
    rw [UInt16.toNat_toUInt8, UInt16.toNat_shiftLeft]
    show (crc.toNat <<< 8 % 2 ^ 16) % 2 ^ 8 = 0
    rw [Nat.shiftLeft_eq]
    omega
  rw [crcStep_eq, UInt16.toUInt8_xor, hlow, UInt8.zero_xor]

/-- The bytes of a state. -/
theorem eq_of_bytes (hhigh : (a >>> 8).toUInt8 = (b >>> 8).toUInt8) (hlow : a.toUInt8 = b.toUInt8) :
    a = b := by
  have hvalue (c : UInt16) : (c >>> 8).toUInt8.toNat = c.toNat / 256 := by
    rw [UInt16.toNat_toUInt8, UInt16.toNat_shiftRight]
    show c.toNat >>> 8 % 2 ^ 8 = _
    have hlt := c.toNat_lt
    rw [Nat.shiftRight_eq_div_pow]
    omega
  have hhigh := congrArg UInt8.toNat hhigh
  have hlow := congrArg UInt8.toNat hlow
  rw [hvalue, hvalue] at hhigh
  rw [UInt16.toNat_toUInt8, UInt16.toNat_toUInt8] at hlow
  apply UInt16.toNat_inj.mp
  omega

/-- Equal states come from the same low byte, and from high bytes that differ as the bytes do. -/
theorem crcStep_inj (h : crcStep a x = crcStep b y) :
    (a >>> 8).toUInt8 ^^^ x = (b >>> 8).toUInt8 ^^^ y ∧ a.toUInt8 = b.toUInt8 := by
  have hmix : (a >>> 8).toUInt8 ^^^ x = (b >>> 8).toUInt8 ^^^ y := by
    apply crcMix_inj
    rw [← toUInt8_crcStep, ← toUInt8_crcStep, h]
  refine ⟨hmix, ?_⟩
  rw [crcStep_eq, crcStep_eq, hmix, UInt16.xor_left_inj] at h
  have hnat := congrArg UInt16.toNat h
  rw [UInt16.toNat_shiftLeft, UInt16.toNat_shiftLeft] at hnat
  replace hnat : a.toNat <<< 8 % 2 ^ 16 = b.toNat <<< 8 % 2 ^ 16 := hnat
  rw [Nat.shiftLeft_eq, Nat.shiftLeft_eq] at hnat
  apply UInt8.toNat_inj.mp
  rw [UInt16.toNat_toUInt8, UInt16.toNat_toUInt8]
  omega

/-- Rounds with the same bytes keep different states apart. -/
theorem foldl_crcStep_inj (data : List UInt8) (h : data.foldl crcStep a = data.foldl crcStep b) :
    a = b := by
  induction data generalizing a b with
  | nil => exact h
  | cons x data ih =>
    obtain ⟨hmix, hlow⟩ := crcStep_inj (ih h)
    exact eq_of_bytes ((UInt8.xor_left_inj x).mp hmix) hlow

theorem crcStep_byte_inj {crc : UInt16} (h : crcStep crc x = crcStep crc y) : x = y :=
  (UInt8.xor_right_inj _).mp (crcStep_inj h).1

/-- Two rounds keep different pairs of bytes apart. -/
theorem crcStep_pair_inj {crc : UInt16} {x' y' : UInt8}
    (h : crcStep (crcStep crc x) y = crcStep (crcStep crc x') y') : x = x' ∧ y = y' := by
  obtain ⟨-, hlow⟩ := crcStep_inj h
  rw [toUInt8_crcStep, toUInt8_crcStep] at hlow
  have hx : x = x' := (UInt8.xor_right_inj _).mp (crcMix_inj hlow)
  subst hx
  exact ⟨rfl, crcStep_byte_inj h⟩

/-! ## Digits as bytes -/

/-- Two hexadecimal digits make a byte. -/
def packDigits : List Nat → List UInt8
  | a :: b :: ds => UInt8.ofNat (16 * a + b) :: packDigits ds
  | _ => []

theorem packByte_inj {a b a' b' : Nat} (ha : a < 16) (hb : b < 16) (ha' : a' < 16) (hb' : b' < 16)
    (h : UInt8.ofNat (16 * a + b) = UInt8.ofNat (16 * a' + b')) : a = a' ∧ b = b' := by
  have hnat := congrArg UInt8.toNat h
  rw [UInt8.toNat_ofNat', UInt8.toNat_ofNat'] at hnat
  omega

/-- A change of two digits next to each other changes the checksum. -/
theorem crc_digits_inj {pre post : List Nat} {a b a' b' : Nat} (crc : UInt16)
    (heven : (pre ++ a :: b :: post).length % 2 = 0)
    (hlt : ∀ d ∈ pre ++ a :: b :: post, d < 16) (ha' : a' < 16) (hb' : b' < 16)
    (h : (packDigits (pre ++ a :: b :: post)).foldl crcStep crc =
      (packDigits (pre ++ a' :: b' :: post)).foldl crcStep crc) : a = a' ∧ b = b' := by
  induction pre using packDigits.induct generalizing crc with
  | case1 p q pre ih =>
    simp only [List.cons_append, packDigits, List.foldl_cons] at h
    refine ih _ ?_ ?_ h
    · simp only [List.cons_append, List.length_cons] at heven ⊢
      omega
    · intro d hd
      exact hlt d (List.mem_cons_of_mem _ (List.mem_cons_of_mem _ hd))
  | case2 pre hpre =>
    cases pre with
    | nil =>
      simp only [List.nil_append, packDigits, List.foldl_cons] at h
      have hbyte := crcStep_byte_inj (foldl_crcStep_inj (packDigits post) h)
      exact packByte_inj (hlt a (by simp)) (hlt b (by simp)) ha' hb' hbyte
    | cons p pre =>
      cases pre with
      | nil =>
        -- the two digits are in different bytes, with one digit more behind them
        cases post with
        | nil => simp at heven
        | cons q post =>
          have hp := hlt p (by simp)
          have hq := hlt q (by simp)
          simp only [List.cons_append, List.nil_append, packDigits, List.foldl_cons] at h
          obtain ⟨hfirst, hsecond⟩ := crcStep_pair_inj (foldl_crcStep_inj (packDigits post) h)
          exact ⟨(packByte_inj hp (hlt a (by simp)) hp ha' hfirst).2,
            (packByte_inj (hlt b (by simp)) hq hb' hq hsecond).1⟩
      | cons q pre => exact absurd rfl (hpre p q pre)

/-! ## Text -/

/-- The value of a hexadecimal digit. -/
def hexVal (c : Char) : Option Nat :=
  if '0' ≤ c ∧ c ≤ '9' then some (c.toNat - '0'.toNat)
  else if 'A' ≤ c ∧ c ≤ 'F' then some (c.toNat - 'A'.toNat + 10)
  else if 'a' ≤ c ∧ c ≤ 'f' then some (c.toNat - 'a'.toNat + 10)
  else none

def isHex (c : Char) : Bool := (hexVal c).isSome

/-- The number that a row of digits writes. -/
def hexNat (s : Text) : Nat := s.foldl (fun n c => 16 * n + (hexVal c).getD 0) 0

/-- The digits that `printf` makes with `%X` and zeros up to a width that is enough. -/
def hexText (width n : Nat) : Text :=
  (List.range width).map fun i => "0123456789ABCDEF".toList.getD (n / 16 ^ (width - 1 - i) % 16) '0'

def printAddress (node : UInt16) (user : UInt32) : Text :=
  hexText 4 node.toNat ++ '-' :: (hexText 8 user.toNat ++ '-' ::
    hexText 4 (crcAcnt node user).toNat)

/-- A hexadecimal number may start with `0x`. -/
def skipHexMark : Text → Text
  | '0' :: 'x' :: c :: t => if isHex c then c :: t else '0' :: 'x' :: c :: t
  | '0' :: 'X' :: c :: t => if isHex c then c :: t else '0' :: 'X' :: c :: t
  | t => t

/-- `strtol` to the base 16 on the text up to a zero byte; `endptr` is what it has not read. -/
def strtolHex (s : Text) : Strtoll :=
  let (sign, t) := takeSign ((cStr s).dropWhile isspace)
  let t := skipHexMark t
  let digits := t.takeWhile isHex
  if digits = [] then ⟨0, cStr s, false⟩
  else strtollValue (signed sign (hexNat digits)) (t.dropWhile isHex)

/-- A number that takes the whole of a text of a given length. -/
def readHex (s : Text) (info : Text) : Except Text Int64 :=
  let r := strtolHex s
  if r.errno = true ∨ r.endptr ≠ [] ∨ (cStr s).length ≠ s.length then .error info
  else .ok r.value

/-- The text of an error in a field. -/
def acntInfo (field info : Text) : Text := "parse_acnt(".toList ++ field ++ ") ".toList ++ info

/-- `settings::parse_acnt`. The checksum `XXXX` stands for any. -/
def parseAcnt (s field : Text) : Except Text (UInt16 × UInt32) := do
  if s.length ≠ 18 then .error (acntInfo field "bad length (required 18)".toList)
  if s[4]? ≠ some '-' ∨ s[13]? ≠ some '-' then
    .error (acntInfo field "bad format (required NNNN-UUUUUUUU-XXXX)".toList)
  let bank ← readHex (s.take 4) (acntInfo field "bad bank".toList)
  let user ← readHex ((s.drop 5).take 8) (acntInfo field "bad user".toList)
  let toBank := bank.toUInt64.toUInt16
  let toUser := user.toUInt64.toUInt32
  if s.drop 14 = "XXXX".toList then return (toBank, toUser)
  let csum ← readHex (s.drop 14) (acntInfo field "bad checksum".toList)
  if csum.toUInt64.toUInt16 ≠ crcAcnt toBank toUser then
    .error (acntInfo field ("bad checksum (expected ".toList ++
      Nat.toDigits 16 (crcAcnt toBank toUser).toNat ++ [')']))
  return (toBank, toUser)

/-! ## Reading digits -/

def HexDigits (s : Text) : Prop := ∀ c ∈ s, isHex c = true

theorem hexVal_lt {d : Nat} (h : hexVal c = some d) : d < 16 := by
  rw [hexVal] at h
  split at h
  · rename_i hc
    have hle : c.toNat ≤ '9'.toNat := hc.2
    cases h
    have h0 : '0'.toNat = 48 := rfl
    have h9 : '9'.toNat = 57 := rfl
    omega
  · split at h
    · rename_i hc
      have hle : c.toNat ≤ 'F'.toNat := hc.2
      cases h
      have hA : 'A'.toNat = 65 := rfl
      have hF : 'F'.toNat = 70 := rfl
      omega
    · split at h
      · rename_i hc
        have hle : c.toNat ≤ 'f'.toNat := hc.2
        cases h
        have ha : 'a'.toNat = 97 := rfl
        have hf : 'f'.toNat = 102 := rfl
        omega
      · cases h

/-- The value of a digit, 0 for another character. -/
def digitVal (c : Char) : Nat := (hexVal c).getD 0

theorem digitVal_lt (c : Char) : digitVal c < 16 := by
  rw [digitVal]
  cases h : hexVal c with
  | none => decide
  | some d => exact hexVal_lt h

theorem ne_of_isHex {d : Char} (h : isHex c = true) (hd : isHex d = false) : c ≠ d := by
  rintro rfl
  rw [h] at hd
  cases hd

theorem isspace_of_isHex (h : isHex c = true) : isspace c = false := by
  by_contra hspace
  rw [Bool.not_eq_false, isspace, Bool.or_eq_true, Bool.and_eq_true, decide_eq_true_eq,
    decide_eq_true_eq, decide_eq_true_eq] at hspace
  rcases hspace with rfl | ⟨-, hle⟩
  · cases h
  · have hlt : c.toNat ≤ 13 := hle
    have hdigit : ¬ ('0' ≤ c ∧ c ≤ '9') := fun hc => by
      have hge : 48 ≤ c.toNat := hc.1
      omega
    have hupper : ¬ ('A' ≤ c ∧ c ≤ 'F') := fun hc => by
      have hge : 65 ≤ c.toNat := hc.1
      omega
    have hlower : ¬ ('a' ≤ c ∧ c ≤ 'f') := fun hc => by
      have hge : 97 ≤ c.toNat := hc.1
      omega
    rw [isHex, hexVal, if_neg hdigit, if_neg hupper, if_neg hlower] at h
    cases h

theorem skipHexMark_digits (h : HexDigits s) : skipHexMark s = s := by
  unfold skipHexMark
  split
  · exact absurd (h 'x' (by simp)) (by decide)
  · exact absurd (h 'X' (by simp)) (by decide)
  · rfl

theorem hexNat_eq (s : Text) : hexNat s = s.foldl (fun n c => 16 * n + digitVal c) 0 := rfl

theorem hexNat_concat (s : Text) (c : Char) : hexNat (s ++ [c]) = 16 * hexNat s + digitVal c := by
  rw [hexNat_eq, List.foldl_append]
  rfl

theorem hexNat_lt (s : Text) : hexNat s < 16 ^ s.length := by
  induction s using List.reverseRecOn with
  | nil => exact Nat.one_pos
  | append_singleton s c ih =>
    have hc := digitVal_lt c
    rw [hexNat_concat, List.length_append, List.length_singleton, pow_succ]
    omega

theorem strtolHex_digits (h : HexDigits s) (hne : s ≠ []) :
    strtolHex s = strtollValue (hexNat s) [] := by
  have hcStr : cStr s = s := by
    apply List.takeWhile_eq_self_iff.mpr
    intro c hc
    exact decide_eq_true (ne_of_isHex (h c hc) rfl)
  have hspace : s.dropWhile isspace = s := by
    cases s with
    | nil => rfl
    | cons c s =>
      have hc := isspace_of_isHex (h c List.mem_cons_self)
      exact List.dropWhile_cons_of_neg (by rw [hc]; exact Bool.false_ne_true)
  have hsign : takeSign s = ([], s) := by
    cases s with
    | nil => rfl
    | cons c s =>
      have hc := h c List.mem_cons_self
      exact takeSign_of_ne (ne_of_isHex hc rfl) (ne_of_isHex hc rfl) s
  have htake : s.takeWhile isHex = s := List.takeWhile_eq_self_iff.mpr h
  have hdrop : s.dropWhile isHex = [] := List.dropWhile_eq_nil_iff.mpr h
  simp only [strtolHex, hcStr, hspace, hsign, skipHexMark_digits h, htake, hdrop, if_neg hne]
  rfl

/-- A short row of digits is read as its number. -/
theorem readHex_digits (h : HexDigits s) (hne : s ≠ []) (hlength : s.length ≤ 8) (info : Text) :
    ∃ v : Int64, readHex s info = .ok v ∧ v.toUInt64.toUInt16 = .ofNat (hexNat s) ∧
      v.toUInt64.toUInt32 = .ofNat (hexNat s) := by
  have hlt : hexNat s < 2 ^ 32 :=
    (hexNat_lt s).trans_le (Nat.pow_le_pow_right (by decide) hlength)
  have hv : (Int64.ofInt (hexNat s)).toInt = hexNat s :=
    Int64.toInt_ofInt_of_le (by omega) (by omega)
  have hcStr : cStr s = s := by
    apply List.takeWhile_eq_self_iff.mpr
    intro c hc
    exact decide_eq_true (ne_of_isHex (h c hc) rfl)
  have hnat : (Int64.ofInt (hexNat s)).toUInt64.toNat = hexNat s := by
    show ((Int64.ofInt (hexNat s)).toBitVec).toNat = hexNat s
    rw [Int64.toBitVec_ofInt, BitVec.toNat_ofInt]
    omega
  refine ⟨.ofInt (hexNat s), ?_, ?_, ?_⟩
  · rw [readHex, strtolHex_digits h hne, strtollValue_of_toInt hv, hcStr]
    simp
  · apply UInt16.toNat_inj.mp
    rw [UInt64.toNat_toUInt16, hnat, UInt16.toNat_ofNat']
  · apply UInt32.toNat_inj.mp
    rw [UInt64.toNat_toUInt32, hnat, UInt32.toNat_ofNat']

theorem parseAcnt_digits {nd ud cd : Text} (hnd : HexDigits nd) (hud : HexDigits ud)
    (hcd : HexDigits cd) (hnode : nd.length = 4) (huser : ud.length = 8) (hcrc : cd.length = 4)
    (field : Text) :
    parseAcnt (nd ++ '-' :: (ud ++ '-' :: cd)) field =
      if UInt16.ofNat (hexNat cd) ≠ crcAcnt (.ofNat (hexNat nd)) (.ofNat (hexNat ud)) then
        .error (acntInfo field ("bad checksum (expected ".toList ++
          Nat.toDigits 16 (crcAcnt (.ofNat (hexNat nd)) (.ofNat (hexNat ud))).toNat ++ [')']))
      else .ok (.ofNat (hexNat nd), .ofNat (hexNat ud)) := by
  have hlength : (nd ++ '-' :: (ud ++ '-' :: cd)).length = 18 := by
    simp [hnode, huser, hcrc]
  have hdash4 : (nd ++ '-' :: (ud ++ '-' :: cd))[4]? = some '-' := by
    rw [List.getElem?_append_right (by omega), hnode]
    rfl
  have hdash13 : (nd ++ '-' :: (ud ++ '-' :: cd))[13]? = some '-' := by
    rw [List.getElem?_append_right (by omega), hnode]
    show (ud ++ '-' :: cd)[8]? = some '-'
    rw [List.getElem?_append_right (by omega), huser]
    rfl
  have hbank : (nd ++ '-' :: (ud ++ '-' :: cd)).take 4 = nd := List.take_left' hnode
  have hdrop : (nd ++ '-' :: (ud ++ '-' :: cd)).drop 5 = ud ++ '-' :: cd := by
    rw [List.append_cons nd '-' _]
    exact List.drop_left' (by simp [hnode])
  have hdrop14 : (nd ++ '-' :: (ud ++ '-' :: cd)).drop 14 = cd := by
    rw [show 14 = 5 + 9 from rfl, ← List.drop_drop, hdrop, List.append_cons ud '-' _]
    exact List.drop_left' (by simp [huser])
  have hX : cd ≠ "XXXX".toList := by
    rintro rfl
    exact absurd (hcd 'X' (by decide)) (by decide)
  have hne {s : Text} {n : Nat} (h : s.length = n + 1) : s ≠ [] :=
    List.ne_nil_of_length_eq_add_one h
  obtain ⟨bank, hbank', hbank16, -⟩ := readHex_digits hnd (hne hnode) (by omega)
    (acntInfo field "bad bank".toList)
  obtain ⟨user, huser', -, huser32⟩ := readHex_digits hud (hne huser) (by omega)
    (acntInfo field "bad user".toList)
  obtain ⟨csum, hcsum', hcsum16, -⟩ := readHex_digits hcd (hne hcrc) (by omega)
    (acntInfo field "bad checksum".toList)
  simp only [parseAcnt, hlength, hdash4, hdash13, hbank, hdrop, hdrop14,
    List.take_left' huser, hbank', huser', hcsum', hbank16, huser32, hcsum16, hX, bind, Except.bind,
    ne_eq, not_true_eq_false, or_self, if_false]
  rfl

/-! ## Printing digits -/

theorem length_hexText (width n : Nat) : (hexText width n).length = width := by
  rw [hexText, List.length_map, List.length_range]

/-- The digit that is printed for a number. -/
theorem hexChar_spec {d : Nat} (hd : d < 16) :
    hexVal ("0123456789ABCDEF".toList.getD d '0') = some d := by
  have hall : ∀ d : Fin 16, hexVal ("0123456789ABCDEF".toList.getD d '0') = some d.val := by decide
  exact hall ⟨d, hd⟩

theorem hexDigits_hexText (width n : Nat) : HexDigits (hexText width n) := by
  intro c hc
  obtain ⟨i, -, rfl⟩ := List.mem_map.mp hc
  rw [isHex, hexChar_spec (Nat.mod_lt _ (by decide))]
  rfl

theorem hexText_succ (width n : Nat) :
    hexText (width + 1) n =
      hexText width (n / 16) ++ ["0123456789ABCDEF".toList.getD (n % 16) '0'] := by
  rw [hexText, hexText, List.range_succ, List.map_append, List.map_singleton]
  congr 1
  · apply List.map_congr_left
    intro i hi
    rw [List.mem_range] at hi
    rw [Nat.div_div_eq_div_mul, ← pow_succ', show width + 1 - 1 - i = width - 1 - i + 1 by omega]
  · rw [Nat.add_sub_cancel, Nat.sub_self, pow_zero, Nat.div_one]

theorem hexNat_hexText {width : Nat} (h : n < 16 ^ width) : hexNat (hexText width n) = n := by
  induction width generalizing n with
  | zero =>
    rw [pow_zero] at h
    rw [Nat.lt_one_iff.mp h]
    rfl
  | succ width ih =>
    rw [pow_succ] at h
    rw [hexText_succ, hexNat_concat, ih (by omega), digitVal,
      hexChar_spec (Nat.mod_lt _ (by decide)), Option.getD_some]
    omega

/-! ## The digits of an address -/

/-- Digits of node and account with a checksum. -/
def digitText (ds cd : Text) : Text := ds.take 4 ++ '-' :: (ds.drop 4 ++ '-' :: cd)

/-- The checksum of the digits of node and account. -/
def digitCrc (ds : Text) : UInt16 := (packDigits (ds.map digitVal)).foldl crcStep 0x1D0F

theorem packDigits_append {s t : List Nat} (h : s.length % 2 = 0) :
    packDigits (s ++ t) = packDigits s ++ packDigits t := by
  induction s using packDigits.induct with
  | case1 a b s ih =>
    simp only [List.cons_append, packDigits]
    rw [ih]
    simp only [List.length_cons] at h
    omega
  | case2 s hs =>
    cases s with
    | nil => rfl
    | cons a s =>
      cases s with
      | nil => simp at h
      | cons b s => exact absurd rfl (hs a b s)

/-- The bytes of a row of digits are those of its number, the highest first. -/
theorem packDigits_hexNat (h : s.length = 2 * n) :
    packDigits (s.map digitVal) =
      (List.range n).map fun k => UInt8.ofNat (hexNat s / 256 ^ (n - 1 - k)) := by
  induction n generalizing s with
  | zero =>
    rw [List.eq_nil_of_length_eq_zero h]
    rfl
  | succ n ih =>
    obtain ⟨s, x, y, rfl⟩ : ∃ t x y, s = t ++ [x] ++ [y] := by
      rcases List.eq_nil_or_concat' s with rfl | ⟨t, y, rfl⟩
      · simp at h
      · rcases List.eq_nil_or_concat' t with rfl | ⟨t, x, rfl⟩
        · simp only [List.nil_append, List.length_singleton] at h
          omega
        · exact ⟨t, x, y, rfl⟩
    simp only [List.length_append, List.length_singleton] at h
    have hnumber : hexNat (s ++ [x] ++ [y]) = 256 * hexNat s + (16 * digitVal x + digitVal y) := by
      rw [hexNat_concat, hexNat_concat]
      ring
    have hx := digitVal_lt x
    have hy := digitVal_lt y
    rw [List.map_append, List.map_append, List.append_assoc,
      packDigits_append (by rw [List.length_map]; omega), ih (by omega), List.range_succ,
      List.map_append, hnumber]
    congr 1
    · apply List.map_congr_left
      intro k hk
      rw [List.mem_range] at hk
      rw [show n + 1 - 1 - k = 1 + (n - 1 - k) by omega, pow_add, pow_one,
        ← Nat.div_div_eq_div_mul]
      congr 2
      omega
    · show [UInt8.ofNat (16 * digitVal x + digitVal y)] = _
      rw [List.map_singleton, Nat.add_sub_cancel, Nat.sub_self, pow_zero, Nat.div_one]
      congr 1
      apply UInt8.toNat_inj.mp
      rw [UInt8.toNat_ofNat', UInt8.toNat_ofNat']
      omega

theorem nodeByte {k : Nat} (hn : n < 2 ^ 16) (hk : k < 16) :
    (UInt16.ofNat n >>> UInt16.ofNat k).toUInt8 = .ofNat (n / 2 ^ k) := by
  apply UInt8.toNat_inj.mp
  rw [UInt16.toNat_toUInt8, UInt16.toNat_shiftRight, UInt16.toNat_ofNat', UInt16.toNat_ofNat',
    UInt8.toNat_ofNat', Nat.mod_eq_of_lt hn, Nat.mod_eq_of_lt (show k < 2 ^ 16 by omega),
    Nat.mod_eq_of_lt hk, Nat.shiftRight_eq_div_pow]

theorem userByte {k : Nat} (hn : n < 2 ^ 32) (hk : k < 32) :
    (UInt32.ofNat n >>> UInt32.ofNat k).toUInt8 = .ofNat (n / 2 ^ k) := by
  apply UInt8.toNat_inj.mp
  rw [UInt32.toNat_toUInt8, UInt32.toNat_shiftRight, UInt32.toNat_ofNat', UInt32.toNat_ofNat',
    UInt8.toNat_ofNat', Nat.mod_eq_of_lt hn, Nat.mod_eq_of_lt (show k < 2 ^ 32 by omega),
    Nat.mod_eq_of_lt hk, Nat.shiftRight_eq_div_pow]

theorem crcAcnt_digits {nd ud : Text} (hnode : nd.length = 4) (huser : ud.length = 8) :
    crcAcnt (.ofNat (hexNat nd)) (.ofNat (hexNat ud)) = digitCrc (nd ++ ud) := by
  have hn : hexNat nd < 2 ^ 16 := by
    have h := hexNat_lt nd
    rw [hnode] at h
    exact h
  have hu : hexNat ud < 2 ^ 32 := by
    have h := hexNat_lt ud
    rw [huser] at h
    exact h
  rw [digitCrc, List.map_append, packDigits_append (by rw [List.length_map, hnode]),
    packDigits_hexNat (n := 2) hnode, packDigits_hexNat (n := 4) huser, crcAcnt, crc16]
  have h0 : (UInt16.ofNat (hexNat nd)).toUInt8 = .ofNat (hexNat nd / 2 ^ 0) := by
    rw [← nodeByte hn (by decide)]
    exact congrArg UInt16.toUInt8 UInt16.shiftRight_zero.symm
  have h1 : (UInt16.ofNat (hexNat nd) >>> 8).toUInt8 = .ofNat (hexNat nd / 2 ^ 8) :=
    nodeByte hn (by decide)
  have hu0 : (UInt32.ofNat (hexNat ud)).toUInt8 = .ofNat (hexNat ud / 2 ^ 0) := by
    rw [← userByte hu (by decide)]
    exact congrArg UInt32.toUInt8 UInt32.shiftRight_zero.symm
  have hu1 : (UInt32.ofNat (hexNat ud) >>> 8).toUInt8 = .ofNat (hexNat ud / 2 ^ 8) :=
    userByte hu (by decide)
  have hu2 : (UInt32.ofNat (hexNat ud) >>> 16).toUInt8 = .ofNat (hexNat ud / 2 ^ 16) :=
    userByte hu (by decide)
  have hu3 : (UInt32.ofNat (hexNat ud) >>> 24).toUInt8 = .ofNat (hexNat ud / 2 ^ 24) :=
    userByte hu (by decide)
  rw [h0, h1, hu0, hu1, hu2, hu3]
  rfl

/-- A change of two digits next to each other changes the checksum. -/
theorem digitCrc_set_pair (hlength : ds.length % 2 = 0) {j : Nat} (hj : j + 1 < ds.length)
    {x y : Char} (h : digitCrc ((ds.set j x).set (j + 1) y) = digitCrc ds) :
    digitVal x = digitVal ds[j] ∧ digitVal y = digitVal ds[j + 1] := by
  have hold : ds = ds.take j ++ ds[j] :: ds[j + 1] :: ds.drop (j + 2) := by
    rw [List.getElem_cons_drop, List.getElem_cons_drop, List.take_append_drop]
  have hset : ds.set j x = ds.take j ++ x :: ds.drop (j + 1) := by
    rw [List.set_eq_take_append_cons_drop, if_pos (by omega)]
  have hnew : (ds.set j x).set (j + 1) y = ds.take j ++ x :: y :: ds.drop (j + 2) := by
    rw [hset, List.set_append_right _ _ (by rw [List.length_take]; omega), List.length_take,
      Nat.min_eq_left (by omega), Nat.add_sub_cancel_left, List.set_cons_succ,
      ← List.getElem_cons_drop hj, List.set_cons_zero]
  have hcrc : digitCrc (ds.take j ++ ds[j] :: ds[j + 1] :: ds.drop (j + 2)) =
      digitCrc (ds.take j ++ x :: y :: ds.drop (j + 2)) := by
    rw [← hold, ← hnew, h]
  simp only [digitCrc, List.map_append, List.map_cons] at hcrc
  have hdigits := crc_digits_inj 0x1D0F ?_ ?_ (digitVal_lt x) (digitVal_lt y) hcrc
  · exact ⟨hdigits.1.symm, hdigits.2.symm⟩
  · rw [← List.map_cons, ← List.map_cons, ← List.map_append, List.length_map, ← hold]
    exact hlength
  · intro d hd
    rw [← List.map_cons, ← List.map_cons, ← List.map_append] at hd
    obtain ⟨c, -, rfl⟩ := List.mem_map.mp hd
    exact digitVal_lt c

/-- A digit of another value changes the checksum. -/
theorem digitCrc_set (hlength : ds.length = 12) {j : Nat} (hj : j < ds.length) {x : Char}
    (h : digitCrc (ds.set j x) = digitCrc ds) : digitVal x = digitVal ds[j] := by
  by_cases hlast : j + 1 < ds.length
  · have hset : (ds.set j x).set (j + 1) ds[j + 1] = ds.set j x := by
      rw [List.set_comm _ _ (by omega), List.set_getElem_self]
    rw [← hset] at h
    exact (digitCrc_set_pair (by omega) hlast h).1
  · obtain ⟨i, rfl⟩ : ∃ i, j = i + 1 := ⟨j - 1, by omega⟩
    have hset : (ds.set i ds[i]).set (i + 1) x = ds.set (i + 1) x := by
      rw [List.set_getElem_self]
    rw [← hset] at h
    exact (digitCrc_set_pair (by omega) hj h).2

theorem parseAcnt_digitText {cd : Text} (hds : HexDigits ds) (hcd : HexDigits cd)
    (hlength : ds.length = 12) (hcrc : cd.length = 4) (field : Text) :
    (digitCrc ds = .ofNat (hexNat cd) → parseAcnt (digitText ds cd) field =
      .ok (.ofNat (hexNat (ds.take 4)), .ofNat (hexNat (ds.drop 4)))) ∧
    (digitCrc ds ≠ .ofNat (hexNat cd) → ∃ info,
      parseAcnt (digitText ds cd) field = .error info) := by
  have hnode : (ds.take 4).length = 4 := by
    rw [List.length_take]
    omega
  have huser : (ds.drop 4).length = 8 := by
    rw [List.length_drop]
    omega
  have hparse := parseAcnt_digits (fun c hc => hds c (List.mem_of_mem_take hc))
    (fun c hc => hds c (List.mem_of_mem_drop hc)) hcd hnode huser hcrc field
  rw [crcAcnt_digits hnode huser, List.take_append_drop] at hparse
  constructor
  · intro h
    rw [digitText, hparse, if_neg (not_not.mpr h.symm)]
  · intro h
    rw [digitText, hparse, if_pos h.symm]
    exact ⟨_, rfl⟩

/-- The places of the digits of node and account in an address. -/
def DigitPlace (i : Nat) : Prop := i < 4 ∨ 5 ≤ i ∧ i < 13

/-- Which digit is at a place. -/
def digitIndex (i : Nat) : Nat := if i < 4 then i else i - 1

section Places

variable (hlength : ds.length = 12) (cd : Text) {i : Nat} (hi : DigitPlace i)

include hlength hi

theorem digitText_set (c : Char) :
    (digitText ds cd).set i c = digitText (ds.set (digitIndex i) c) cd := by
  have htake : (ds.take 4).length = 4 := by
    rw [List.length_take]
    omega
  rcases hi with hlt | ⟨hge, hlt⟩
  · rw [digitIndex, if_pos hlt, digitText, digitText, List.set_append_left _ _ (by omega),
      List.take_set, List.drop_set_of_lt hlt]
  · obtain ⟨k, rfl⟩ : ∃ k, i = k + 5 := ⟨i - 5, by omega⟩
    have hdrop : (ds.drop 4).length = 8 := by
      rw [List.length_drop]
      omega
    rw [digitIndex, if_neg (by omega), digitText, digitText,
      List.set_append_right _ _ (by omega), htake, show k + 5 - 4 = k + 1 by omega,
      List.set_cons_succ, List.set_append_left _ _ (by omega), List.take_set_of_le (by omega),
      List.drop_set, if_neg (by omega), show k + 5 - 1 - 4 = k by omega]

theorem digitText_getElem? : (digitText ds cd)[i]? = ds[digitIndex i]? := by
  have htake : (ds.take 4).length = 4 := by
    rw [List.length_take]
    omega
  rcases hi with hlt | ⟨hge, hlt⟩
  · rw [digitIndex, if_pos hlt, digitText, List.getElem?_append_left (by omega),
      List.getElem?_take_of_lt hlt]
  · obtain ⟨k, rfl⟩ : ∃ k, i = k + 5 := ⟨i - 5, by omega⟩
    have hdrop : (ds.drop 4).length = 8 := by
      rw [List.length_drop]
      omega
    rw [digitIndex, if_neg (by omega), digitText, List.getElem?_append_right (by omega), htake,
      show k + 5 - 4 = k + 1 by omega, List.getElem?_cons_succ,
      List.getElem?_append_left (by omega), List.getElem?_drop]
    congr 1
    omega

theorem digitIndex_lt : digitIndex i < ds.length := by
  rw [digitIndex]
  rcases hi with hlt | ⟨hge, hlt⟩
  · rw [if_pos hlt]
    omega
  · rw [if_neg (by omega)]
    omega

end Places

/-- The digits of node and account. -/
def addressDigits (node : UInt16) (user : UInt32) : Text :=
  hexText 4 node.toNat ++ hexText 8 user.toNat

section Address

variable (node : UInt16) (user : UInt32)

theorem length_addressDigits : (addressDigits node user).length = 12 := by
  rw [addressDigits, List.length_append, length_hexText, length_hexText]

theorem printAddress_eq :
    printAddress node user =
      digitText (addressDigits node user) (hexText 4 (crcAcnt node user).toNat) := by
  rw [printAddress, digitText, addressDigits, List.take_left' (length_hexText 4 _),
    List.drop_left' (length_hexText 4 _)]

theorem hexDigits_addressDigits : HexDigits (addressDigits node user) := by
  intro c hc
  rcases List.mem_append.mp hc with hc | hc <;> exact hexDigits_hexText _ _ c hc

theorem digitCrc_addressDigits :
    digitCrc (addressDigits node user) =
      .ofNat (hexNat (hexText 4 (crcAcnt node user).toNat)) := by
  rw [addressDigits, ← crcAcnt_digits (length_hexText 4 _) (length_hexText 8 _),
    hexNat_hexText node.toNat_lt, hexNat_hexText user.toNat_lt,
    hexNat_hexText (crcAcnt node user).toNat_lt, UInt16.ofNat_toNat, UInt32.ofNat_toNat,
    UInt16.ofNat_toNat]

/-- Printed digits of one value are the same character. -/
theorem eq_of_digitVal_eq {a b : Char} (ha : a ∈ addressDigits node user)
    (hb : b ∈ addressDigits node user) (h : digitVal a = digitVal b) : a = b := by
  have hchar {c : Char} (hc : c ∈ addressDigits node user) :
      c = "0123456789ABCDEF".toList.getD (digitVal c) '0' := by
    obtain ⟨d, hd, rfl⟩ : ∃ d < 16, c = "0123456789ABCDEF".toList.getD d '0' := by
      rcases List.mem_append.mp hc with hc | hc <;>
        obtain ⟨i, -, rfl⟩ := List.mem_map.mp hc <;>
        exact ⟨_, Nat.mod_lt _ (by decide), rfl⟩
    rw [digitVal, hexChar_spec hd, Option.getD_some]
  rw [hchar ha, hchar hb, h]

/-- Every address is read back, and no address is accepted in which one digit of node or account
was changed to another value, or two different digits next to each other were swapped. -/
theorem parseAcnt_address (field : Text) :
    parseAcnt (printAddress node user) field = .ok (node, user) ∧
      (∀ i c d, DigitPlace i → hexVal c = some d →
        (printAddress node user)[i]?.bind hexVal ≠ some d →
        ∃ info, parseAcnt ((printAddress node user).set i c) field = .error info) ∧
      ∀ i a b, DigitPlace i → DigitPlace (i + 1) → (printAddress node user)[i]? = some a →
        (printAddress node user)[i + 1]? = some b → a ≠ b →
        ∃ info, parseAcnt (((printAddress node user).set i b).set (i + 1) a) field =
          .error info := by
  have hlength := length_addressDigits node user
  have hds := hexDigits_addressDigits node user
  have hcrc := digitCrc_addressDigits node user
  rw [printAddress_eq]
  generalize hcd : hexText 4 (crcAcnt node user).toNat = cd at hcrc ⊢
  have hcdHex : HexDigits cd := hcd ▸ hexDigits_hexText _ _
  have hcdLength : cd.length = 4 := hcd ▸ length_hexText _ _
  have hsetHex {ds : Text} (hds : HexDigits ds) {j : Nat} {c : Char} (hc : isHex c = true) :
      HexDigits (ds.set j c) := by
    intro x hx
    rcases List.mem_or_eq_of_mem_set hx with hx | rfl
    · exact hds x hx
    · exact hc
  refine ⟨?_, ?_, ?_⟩
  · rw [(parseAcnt_digitText hds hcdHex hlength hcdLength field).1 hcrc, addressDigits,
      List.take_left' (length_hexText 4 _), List.drop_left' (length_hexText 4 _),
      hexNat_hexText node.toNat_lt, hexNat_hexText user.toNat_lt, UInt16.ofNat_toNat,
      UInt32.ofNat_toNat]
  · intro i c d hi hc hne
    have hj := digitIndex_lt hlength hi
    rw [digitText_getElem? hlength cd hi, List.getElem?_eq_getElem hj] at hne
    rw [digitText_set hlength cd hi]
    apply (parseAcnt_digitText (hsetHex hds (by rw [isHex, hc]; rfl)) hcdHex
      (by rw [List.length_set, hlength]) hcdLength field).2
    intro h
    have hval := digitCrc_set hlength hj (h.trans hcrc.symm)
    apply hne
    obtain ⟨d', hd'⟩ := Option.isSome_iff_exists.mp (hds _ (List.getElem_mem hj))
    rw [digitVal, hc, digitVal, hd', Option.getD_some, Option.getD_some] at hval
    rw [Option.bind_some, hd', hval]
  · intro i a b hi hi' ha hb hab
    have hnext : digitIndex (i + 1) = digitIndex i + 1 := by
      rw [digitIndex, digitIndex]
      rcases hi with hlt | ⟨hge, -⟩
      · rcases hi' with hlt' | ⟨hge', -⟩
        · rw [if_pos hlt', if_pos hlt]
        · omega
      · rw [if_neg (by omega), if_neg (by omega)]
        omega
    have hj := digitIndex_lt hlength hi'
    rw [hnext] at hj
    rw [digitText_getElem? hlength cd hi, List.getElem?_eq_getElem (by omega)] at ha
    rw [digitText_getElem? hlength cd hi', hnext, List.getElem?_eq_getElem hj] at hb
    have hmema := List.mem_of_getElem (Option.some.inj ha)
    have hmemb := List.mem_of_getElem (Option.some.inj hb)
    rw [digitText_set hlength cd hi,
      digitText_set (by rw [List.length_set, hlength]) cd hi', hnext]
    apply (parseAcnt_digitText (hsetHex (hsetHex hds (hds b hmemb)) (hds a hmema)) hcdHex
      (by rw [List.length_set, List.length_set, hlength]) hcdLength field).2
    intro h
    have hval := (digitCrc_set_pair (by omega) hj (h.trans hcrc.symm)).1
    rw [Option.some.inj ha] at hval
    exact hab (eq_of_digitVal_eq node user hmemb hmema hval).symm

end Address

/-- The first account of the first node, with a changed and with two swapped digits. -/
theorem parseAcnt_address_first :
    (∃ info, parseAcnt ((printAddress 1 1).set 3 '2') [] = .error info) ∧
      ∃ info, parseAcnt (((printAddress 1 1).set 11 '1').set 12 '0') [] = .error info :=
  ⟨(parseAcnt_address 1 1 []).2.1 3 '2' 2 (.inl (by decide)) (by decide) (by decide),
    (parseAcnt_address 1 1 []).2.2 11 '0' '1' (.inr (by decide)) (.inr (by decide)) (by decide)
      (by decide) (by decide)⟩

end Esc
