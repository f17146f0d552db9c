import Mathlib.Data.List.TakeWhile
import Mathlib.Data.Rat.Cast.Order
import Mathlib.Tactic

/-!
# Amounts as text

An amount is a number of 64 bits that counts units of which `10 ^ 11` make one coin. It is printed
with eleven digits behind the point. `parse_amount` takes the point out of a text, fills it up with
zeros and leaves the rest to `strtoll`, which also accepts white space in front of a number.
-/

namespace Esc

variable {c : Char} {ds pre s sign : Text} {v : Int64}

/-- A string, byte by byte. -/
abbrev Text := List Char

def amountDecimals : Nat := 11

/-! ## The conversions -/

def isspace (c : Char) : Bool := c = ' ' || ('\t' ≤ c && c ≤ '\r')

/-- What a pointer to the characters of a string shows: the bytes before the first zero. -/
def cStr (s : Text) : Text := s.takeWhile (· ≠ '\x00')

/-- The sign of a number and what follows. -/
def takeSign : Text → Text × Text
  | '-' :: t => (['-'], t)
  | '+' :: t => (['+'], t)
  | t => ([], t)

/-- A number with its sign. -/
def signed (sign : Text) (n : Nat) : Int := if sign = ['-'] then -n else n

/-- What `strtoll` returns: the number, the text from `endptr` on, and whether it sets `errno`. -/
structure Strtoll where
  value : Int64
  endptr : Text
  errno : Bool

/-- The number of 64 bits, or the nearest one with an error. -/
def strtollValue (n : Int) (endptr : Text) : Strtoll :=
  if n < Int64.minValue.toInt then ⟨.minValue, endptr, true⟩
  else if Int64.maxValue.toInt < n then ⟨.maxValue, endptr, true⟩
  else ⟨.ofInt n, endptr, false⟩

/-- `strtoll` to the base 10. Without a digit it returns where it started. -/
def strtoll (s : Text) : Strtoll :=
  let (sign, t) := takeSign (s.dropWhile isspace)
  let digits := t.takeWhile Char.isDigit
  if digits = [] then ⟨0, s, false⟩
  else strtollValue (signed sign (Nat.ofDigitChars 10 digits 0)) (t.dropWhile Char.isDigit)

/-- The end of `parse_amount`. -/
def readAmount (s : Text) : Option Int64 :=
  let r := strtoll (cStr s)
  if r.endptr ≠ [] ∨ r.errno = true then none else some r.value

def parseAmount (s : Text) : Option Int64 :=
  let dotPos := s.findIdx (· = '.')
  if dotPos = s.length then readAmount (s ++ List.replicate amountDecimals '0')
  else
    let afterDot := s.length - dotPos - 1
    if afterDot = 0 ∨ amountDecimals < afterDot then none
    else readAmount (s.eraseIdx dotPos ++ List.replicate (amountDecimals - afterDot) '0')

/-- `std::to_string`. -/
def toText (amount : Int64) : Text :=
  if amount < 0 then '-' :: Nat.toDigits 10 amount.toInt.natAbs
  else Nat.toDigits 10 amount.toInt.natAbs

def printAmount (amount : Int64) : Text :=
  let isNeg := if amount < 0 then 1 else 0
  let s := toText amount
  let s :=
    if s.length < amountDecimals + 1 + isNeg then
      s.take isNeg ++ List.replicate (amountDecimals + 1 + isNeg - s.length) '0' ++ s.drop isNeg
    else s
  s.take (s.length - amountDecimals) ++ '.' :: s.drop (s.length - amountDecimals)

/-! ## Decimal numbers -/

/-- The texts of a sign. -/
def signs : List Text := [[], ['+'], ['-']]

def Digits (s : Text) : Prop := ∀ c ∈ s, c.isDigit = true

/-- The number that is written with these digits before and behind a point. -/
def decimalValue (whole fraction : Text) : ℚ :=
  Nat.ofDigitChars 10 whole 0 + Nat.ofDigitChars 10 fraction 0 / 10 ^ fraction.length

/-- A text of an amount: an optional sign, digits, and at most one point with one to eleven digits
behind it. The number that it writes is the amount in coins. -/
def AmountText (s : Text) (amount : Int64) : Prop :=
  ∃ sign ∈ signs, ∃ whole fraction : Text,
    (s = sign ++ whole ∧ fraction = [] ∨ s = sign ++ whole ++ '.' :: fraction ∧ fraction ≠ []) ∧
    Digits (whole ++ fraction) ∧ whole ++ fraction ≠ [] ∧ fraction.length ≤ amountDecimals ∧
    (amount.toInt : ℚ) =
      (if sign = ['-'] then -1 else 1) * decimalValue whole fraction * 10 ^ amountDecimals

/-- A text without white space and zero bytes that has a digit and no sign behind a leading
point. -/
def PlainText (s : Text) : Prop :=
  (∀ c ∈ s, c ≠ '\x00' ∧ isspace c = false) ∧ (∃ c ∈ s, c.isDigit = true) ∧
    ¬ ['.', '+'] <+: s ∧ ¬ ['.', '-'] <+: s

/-! ## Reading a number -/

theorem isspace_of_isDigit (h : c.isDigit = true) : isspace c = false := by
  simp only [Char.isDigit, Bool.and_eq_true, decide_eq_true_eq, UInt32.le_iff_toNat_le] at h
  simp only [isspace, Char.le_def, UInt32.le_iff_toNat_le, Bool.or_eq_false_iff,
    Bool.and_eq_false_iff, decide_eq_false_iff_not]
  refine ⟨?_, .inr ?_⟩
  · rintro rfl
    revert h
    decide
  · have hr : ('\r'.val.toNat) = 13 := rfl
    have h0 : ('0'.val.toNat) = 48 := rfl
    omega

theorem ne_of_isDigit {d : Char} (h : c.isDigit = true) (hd : d.isDigit = false) : c ≠ d := by
  rintro rfl
  rw [h] at hd
  cases hd

theorem digits_replicate (n : Nat) : Digits (List.replicate n '0') := by
  intro c hc
  rw [List.eq_of_mem_replicate hc]
  rfl

theorem digits_append {t : Text} : Digits (s ++ t) ↔ Digits s ∧ Digits t :=
  List.forall_mem_append

theorem takeSign_of_ne (hminus : c ≠ '-') (hplus : c ≠ '+') (s : Text) :
    takeSign (c :: s) = ([], c :: s) := by
  unfold takeSign
  split
  · rename_i h
    exact absurd (List.cons.inj h).1 hminus
  · rename_i h
    exact absurd (List.cons.inj h).1 hplus
  · rfl

theorem takeSign_spec (s : Text) :
    (takeSign s).1 ∈ signs ∧ (takeSign s).1 ++ (takeSign s).2 = s := by
  unfold takeSign
  split <;> simp [signs]

/-- The sign is at the front. -/
theorem takeSign_append (h : s ≠ []) (t : Text) :
    takeSign (s ++ t) = ((takeSign s).1, (takeSign s).2 ++ t) := by
  cases s with
  | nil => exact absurd rfl h
  | cons c s =>
    by_cases hminus : c = '-'
    · rw [hminus]
      rfl
    · by_cases hplus : c = '+'
      · rw [hplus]
        rfl
      · rw [List.cons_append, takeSign_of_ne hminus hplus, takeSign_of_ne hminus hplus]
        rfl

theorem takeSign_digits (hsign : sign ∈ signs) (hds : Digits ds) :
    takeSign (sign ++ ds) = (sign, ds) := by
  simp only [signs, List.mem_cons, List.not_mem_nil, or_false] at hsign
  rcases hsign with rfl | rfl | rfl
  · cases ds with
    | nil => rfl
    | cons c ds =>
      have hc := hds c List.mem_cons_self
      exact takeSign_of_ne (ne_of_isDigit hc rfl) (ne_of_isDigit hc rfl) ds
  · rfl
  · rfl

theorem strtoll_digits (hsign : sign ∈ signs) (hds : Digits ds) (hne : ds ≠ []) :
    strtoll (sign ++ ds) = strtollValue (signed sign (Nat.ofDigitChars 10 ds 0)) [] := by
  have hspace : (sign ++ ds).dropWhile isspace = sign ++ ds := by
    simp only [signs, List.mem_cons, List.not_mem_nil, or_false] at hsign
    rcases hsign with rfl | rfl | rfl
    · cases ds with
      | nil => rfl
      | cons c ds =>
        have hc := isspace_of_isDigit (hds c List.mem_cons_self)
        exact List.dropWhile_cons_of_neg (by rw [hc]; exact Bool.false_ne_true)
    · rfl
    · rfl
  have htake : ds.takeWhile Char.isDigit = ds := List.takeWhile_eq_self_iff.mpr hds
  have hdrop : ds.dropWhile Char.isDigit = [] := List.dropWhile_eq_nil_iff.mpr hds
  rw [strtoll, hspace, takeSign_digits hsign hds]
  simp only [htake, hdrop, if_neg hne]

/-- Where `strtoll` comes to the end of a text without white space. -/
theorem exists_of_endptr (hspace : ∀ c ∈ s, isspace c = false) (hne : s ≠ [])
    (hend : (strtoll s).endptr = []) :
    ∃ sign ∈ signs, ∃ ds, s = sign ++ ds ∧ Digits ds ∧ ds ≠ [] := by
  have hdrop : s.dropWhile isspace = s := by
    cases s with
    | nil => rfl
    | cons c s =>
      exact List.dropWhile_cons_of_neg (by
        rw [hspace c List.mem_cons_self]
        exact Bool.false_ne_true)
  obtain ⟨hsign, happend⟩ := takeSign_spec s
  rw [strtoll, hdrop] at hend
  dsimp only at hend
  split at hend
  · exact absurd hend hne
  · rename_i hdigits
    have hrest : (takeSign s).2.dropWhile Char.isDigit = [] := by
      rw [strtollValue] at hend
      split at hend
      · exact hend
      · split at hend <;> exact hend
    refine ⟨_, hsign, _, happend.symm, List.dropWhile_eq_nil_iff.mp hrest, fun hnil => ?_⟩
    rw [hnil] at hdigits
    exact hdigits rfl

theorem strtollValue_of_toInt {n : Int} (h : v.toInt = n) (endptr : Text) :
    strtollValue n endptr = ⟨v, endptr, false⟩ := by
  have hmin := v.minValue_le_toInt
  have hmax := v.toInt_le
  rw [strtollValue, if_neg (by omega), if_neg (by omega), ← h, Int64.ofInt_toInt]

theorem toInt_of_strtollValue {n : Int} {endptr : Text}
    (h : (strtollValue n endptr).errno = false) : (strtollValue n endptr).value.toInt = n := by
  rw [strtollValue] at h ⊢
  split at h
  · cases h
  · split at h
    · cases h
    · rename_i hmin hmax
      have hminValue : Int64.minValue.toInt = -2 ^ 63 := rfl
      have hmaxValue : Int64.maxValue.toInt = 2 ^ 63 - 1 := rfl
      rw [if_neg hmin, if_neg hmax]
      exact Int64.toInt_ofInt_of_le (by omega) (by omega)

/-- A text without white space and zero bytes is read as a number with a sign. -/
theorem readAmount_iff (hplain : ∀ c ∈ s, c ≠ '\x00' ∧ isspace c = false) (hne : s ≠ []) :
    readAmount s = some v ↔ ∃ sign ∈ signs, ∃ ds, s = sign ++ ds ∧ Digits ds ∧ ds ≠ [] ∧
      v.toInt = signed sign (Nat.ofDigitChars 10 ds 0) := by
  have hcStr : cStr s = s := by
    apply List.takeWhile_eq_self_iff.mpr
    intro c hc
    exact decide_eq_true (hplain c hc).1
  rw [readAmount, hcStr]
  constructor
  · intro h
    split at h
    · cases h
    · rename_i hok
      obtain ⟨hend, herrno⟩ := not_or.mp hok
      obtain ⟨sign, hsign, ds, rfl, hds, hdne⟩ :=
        exists_of_endptr (fun c hc => (hplain c hc).2) hne (not_not.mp hend)
      refine ⟨sign, hsign, ds, rfl, hds, hdne, ?_⟩
      rw [strtoll_digits hsign hds hdne] at herrno h
      rw [← Option.some.inj h]
      exact toInt_of_strtollValue (Bool.eq_false_iff.mpr herrno)
  · rintro ⟨sign, hsign, ds, rfl, hds, hdne, hv⟩
    rw [strtoll_digits hsign hds hdne, strtollValue_of_toInt hv]
    rfl

/-! ## The point -/

theorem parseAmount_of_not_mem (h : '.' ∉ s) :
    parseAmount s = readAmount (s ++ List.replicate amountDecimals '0') := by
  have hfind : s.findIdx (· = '.') = s.length := by
    apply List.findIdx_eq_length_of_false
    intro c hc
    exact decide_eq_false fun heq => h (heq ▸ hc)
  simp only [parseAmount, hfind, if_true]

theorem findIdx_point (h : '.' ∉ pre) (post : Text) :
    (pre ++ '.' :: post).findIdx (· = '.') = pre.length := by
  have hfind : pre.findIdx (· = '.') = pre.length := by
    apply List.findIdx_eq_length_of_false
    intro c hc
    exact decide_eq_false fun heq => h (heq ▸ hc)
  rw [List.findIdx_append, hfind, if_neg (lt_irrefl _), List.findIdx_cons]
  simp

theorem parseAmount_point (h : '.' ∉ pre) (post : Text) :
    parseAmount (pre ++ '.' :: post) =
      if post.length = 0 ∨ amountDecimals < post.length then none
      else readAmount (pre ++ (post ++ List.replicate (amountDecimals - post.length) '0')) := by
  have hafter : (pre ++ '.' :: post).length - pre.length - 1 = post.length := by
    rw [List.length_append, List.length_cons]
    omega
  have herase : (pre ++ '.' :: post).eraseIdx pre.length = pre ++ post := by
    rw [List.eraseIdx_append_of_length_le le_rfl, Nat.sub_self]
    rfl
  simp only [parseAmount, findIdx_point h, hafter, herase, List.append_assoc]
  rw [if_neg (by simp)]

/-- The first point of a text is where it is. -/
theorem append_point_inj {a a' b b' : Text} (ha : '.' ∉ a) (ha' : '.' ∉ a')
    (h : a ++ '.' :: b = a' ++ '.' :: b') : a = a' ∧ b = b' := by
  have hlength : a.length = a'.length := by rw [← findIdx_point ha b, h, findIdx_point ha' b']
  obtain ⟨rfl, htail⟩ := List.append_inj h hlength
  exact ⟨rfl, (List.cons.inj htail).2⟩

theorem ofDigitChars_replicate (s : Text) (n : Nat) :
    Nat.ofDigitChars 10 (s ++ List.replicate n '0') 0 = Nat.ofDigitChars 10 s 0 * 10 ^ n := by
  induction n with
  | zero => simp
  | succ n ih =>
    rw [List.replicate_succ', ← List.append_assoc, Nat.ofDigitChars_append, ih, pow_succ]
    show 10 * _ + ('0'.toNat - '0'.toNat) = _
    rw [Nat.sub_self]
    ring

/-- The digits with the zeros write the number in units. -/
theorem cast_ofDigitChars {whole fraction : Text} (h : fraction.length ≤ amountDecimals) :
    ((Nat.ofDigitChars 10 (whole ++ (fraction ++
      List.replicate (amountDecimals - fraction.length) '0')) 0 : Nat) : ℚ) =
      decimalValue whole fraction * 10 ^ amountDecimals := by
  have hpow : (10 : ℚ) ^ amountDecimals =
      10 ^ fraction.length * 10 ^ (amountDecimals - fraction.length) := by
    rw [← pow_add, Nat.add_sub_cancel' h]
  rw [← List.append_assoc, ofDigitChars_replicate, Nat.ofDigitChars_append,
    Nat.ofDigitChars_eq_ofDigitChars_zero, decimalValue, hpow]
  push_cast
  field_simp

theorem toInt_eq_signed {n : Nat} :
    v.toInt = signed sign n ↔ (v.toInt : ℚ) = (if sign = ['-'] then -1 else 1) * (n : ℚ) := by
  rw [signed]
  split
  · rw [neg_one_mul]
    exact_mod_cast Iff.rfl
  · rw [one_mul]
    exact_mod_cast Iff.rfl

/-! ## Which texts are accepted -/

theorem not_mem_of_digits (hsign : sign ∈ signs) (hds : Digits ds) : '.' ∉ sign ++ ds := by
  intro h
  rcases List.mem_append.mp h with h | h
  · simp only [signs, List.mem_cons, List.not_mem_nil, or_false] at hsign
    rcases hsign with rfl | rfl | rfl <;> simp at h
  · exact absurd (hds _ h) (by decide)

theorem plain_of_mem (h : c.isDigit = true ∨ c ∈ ['+', '-', '.']) :
    c ≠ '\x00' ∧ isspace c = false := by
  rcases h with h | h
  · exact ⟨ne_of_isDigit h rfl, isspace_of_isDigit h⟩
  · simp only [List.mem_cons, List.not_mem_nil, or_false] at h
    rcases h with rfl | rfl | rfl <;> decide

theorem mem_of_mem_signs (hsign : sign ∈ signs) (hc : c ∈ sign) : c = '+' ∨ c = '-' := by
  simp only [signs, List.mem_cons, List.not_mem_nil, or_false] at hsign
  rcases hsign with rfl | rfl | rfl
  · cases hc
  · exact .inl (List.mem_singleton.mp hc)
  · exact .inr (List.mem_singleton.mp hc)

/-- A text around the place of the point, filled up with zeros: the sign is in front of it. -/
theorem readAmount_around {post : Text} (v : Int64) {n : Nat} (hne : pre ++ post ≠ [])
    (hplain : ∀ c ∈ pre ++ post, c ≠ '\x00' ∧ isspace c = false)
    (hsign : pre = [] → takeSign post = ([], post)) (hn : 0 < post.length + n) :
    readAmount (pre ++ (post ++ List.replicate n '0')) = some v ↔
      ∃ sign ∈ signs, ∃ whole, pre = sign ++ whole ∧ Digits (whole ++ post) ∧
        v.toInt = signed sign
          (Nat.ofDigitChars 10 (whole ++ (post ++ List.replicate n '0')) 0) := by
  have hzeros : ∀ c ∈ pre ++ (post ++ List.replicate n '0'), c ≠ '\x00' ∧ isspace c = false := by
    intro c hc
    rw [← List.append_assoc] at hc
    rcases List.mem_append.mp hc with hc | hc
    · exact hplain c hc
    · exact plain_of_mem (.inl (digits_replicate n c hc))
  have htail : post ++ List.replicate n '0' ≠ [] := by
    apply List.ne_nil_of_length_pos
    rw [List.length_append, List.length_replicate]
    exact hn
  rw [readAmount_iff hzeros (List.append_ne_nil_of_right_ne_nil _ htail)]
  constructor
  · rintro ⟨sign, hmem, ds, heq, hds, -, hv⟩
    have htake : takeSign (pre ++ (post ++ List.replicate n '0')) = (sign, ds) := by
      rw [heq, takeSign_digits hmem hds]
    obtain ⟨whole, hpre, rfl⟩ : ∃ whole, pre = sign ++ whole ∧
        ds = whole ++ (post ++ List.replicate n '0') := by
      by_cases hnil : pre = []
      · subst hnil
        rw [List.nil_append, takeSign_append (List.nil_append post ▸ hne), hsign rfl,
          Prod.mk.injEq] at htake
        exact ⟨[], by rw [← htake.1]; rfl, htake.2.symm⟩
      · rw [takeSign_append hnil, Prod.mk.injEq] at htake
        refine ⟨(takeSign pre).2, ?_, htake.2.symm⟩
        rw [← htake.1, (takeSign_spec pre).2]
    refine ⟨sign, hmem, whole, hpre, ?_, hv⟩
    rw [← List.append_assoc, digits_append] at hds
    exact hds.1
  · rintro ⟨sign, hmem, whole, rfl, hdigits, hv⟩
    refine ⟨sign, hmem, _, List.append_assoc .., ?_, List.append_ne_nil_of_right_ne_nil _ htail, hv⟩
    rw [← List.append_assoc]
    exact digits_append.mpr ⟨hdigits, digits_replicate n⟩

theorem amountText_point {post : Text} (hpre : '.' ∉ pre) :
    AmountText (pre ++ '.' :: post) v ↔
      ¬ (post.length = 0 ∨ amountDecimals < post.length) ∧
        ∃ sign ∈ signs, ∃ whole, pre = sign ++ whole ∧ Digits (whole ++ post) ∧
          v.toInt = signed sign (Nat.ofDigitChars 10
            (whole ++ (post ++ List.replicate (amountDecimals - post.length) '0')) 0) := by
  constructor
  · rintro ⟨sign, hsign, whole, fraction, hs, hdigits, -, hlength, hv⟩
    have hwhole := (digits_append.mp hdigits).1
    rcases hs with ⟨hs, -⟩ | ⟨hs, hne⟩
    · have hmem : '.' ∈ sign ++ whole := by
        rw [← hs]
        exact List.mem_append_right _ List.mem_cons_self
      exact absurd hmem (not_mem_of_digits hsign hwhole)
    · obtain ⟨rfl, rfl⟩ := append_point_inj hpre (not_mem_of_digits hsign hwhole) hs
      rw [mul_assoc, ← cast_ofDigitChars hlength, ← toInt_eq_signed] at hv
      refine ⟨not_or.mpr ⟨fun hnil => hne (List.length_eq_zero_iff.mp hnil), by omega⟩, ?_⟩
      exact ⟨sign, hsign, whole, rfl, hdigits, hv⟩
  · rintro ⟨hlength, sign, hsign, whole, rfl, hdigits, hv⟩
    obtain ⟨hpos, hle⟩ := not_or.mp hlength
    have hne : post ≠ [] := fun hnil => hpos (by rw [hnil]; rfl)
    refine ⟨sign, hsign, whole, post, .inr ⟨rfl, hne⟩, hdigits,
      List.append_ne_nil_of_right_ne_nil _ hne, not_lt.mp hle, ?_⟩
    rw [mul_assoc, ← cast_ofDigitChars (not_lt.mp hle), ← toInt_eq_signed]
    exact hv

theorem amountText_of_not_mem (hdot : '.' ∉ s) (hdigit : ∃ c ∈ s, c.isDigit = true) :
    AmountText s v ↔ ∃ sign ∈ signs, ∃ whole, s = sign ++ whole ∧ Digits (whole ++ []) ∧
      v.toInt = signed sign (Nat.ofDigitChars 10
        (whole ++ ([] ++ List.replicate amountDecimals '0')) 0) := by
  constructor
  · rintro ⟨sign, hsign, whole, fraction, hs, hdigits, -, -, hv⟩
    rcases hs with ⟨rfl, rfl⟩ | ⟨rfl, -⟩
    · refine ⟨sign, hsign, whole, rfl, hdigits, ?_⟩
      rw [mul_assoc, ← cast_ofDigitChars (Nat.zero_le _), ← toInt_eq_signed] at hv
      exact hv
    · exact absurd (List.mem_append_right _ List.mem_cons_self) hdot
  · rintro ⟨sign, hsign, whole, rfl, hdigits, hv⟩
    refine ⟨sign, hsign, whole, [], .inl ⟨rfl, rfl⟩, hdigits, ?_, Nat.zero_le _, ?_⟩
    · rw [List.append_nil]
      rintro rfl
      obtain ⟨c, hc, hdigit⟩ := hdigit
      rw [List.append_nil] at hc
      rcases mem_of_mem_signs hsign hc with rfl | rfl <;> cases hdigit
    · rw [mul_assoc, ← cast_ofDigitChars (Nat.zero_le _), ← toInt_eq_signed]
      exact hv

/-- A plain text is accepted as the amount that it writes. -/
theorem parseAmount_iff (h : PlainText s) : parseAmount s = some v ↔ AmountText s v := by
  obtain ⟨hplain, hdigit, hplus, hminus⟩ := h
  by_cases hdot : '.' ∈ s
  · obtain ⟨pre, post, rfl, hpre⟩ := List.eq_append_cons_of_mem hdot
    rw [parseAmount_point hpre, amountText_point hpre]
    split
    · rename_i hlength
      exact iff_of_false (by simp) fun h => h.1 hlength
    · rename_i hlength
      have hpost : post ≠ [] := fun hnil => hlength (.inl (by rw [hnil]; rfl))
      refine (readAmount_around v (List.append_ne_nil_of_right_ne_nil _ hpost) ?_ ?_ ?_).trans
        (and_iff_right hlength).symm
      · intro c hc
        apply hplain
        rcases List.mem_append.mp hc with hc | hc
        · exact List.mem_append_left _ hc
        · exact List.mem_append_right _ (List.mem_cons_of_mem _ hc)
      · rintro rfl
        cases post with
        | nil => rfl
        | cons c post =>
          apply takeSign_of_ne
          · rintro rfl
            exact hminus ⟨post, rfl⟩
          · rintro rfl
            exact hplus ⟨post, rfl⟩
      · exact Nat.add_pos_left (List.length_pos_iff.mpr hpost) _
  · obtain ⟨c, hc, -⟩ := id hdigit
    have hsne : s ≠ [] := List.ne_nil_of_mem hc
    rw [parseAmount_of_not_mem hdot, amountText_of_not_mem hdot hdigit]
    exact readAmount_around v (by rwa [List.append_nil]) (by rwa [List.append_nil])
      (fun hnil => absurd hnil hsne) (Nat.add_pos_right _ (show 0 < amountDecimals by decide))

/-- No other character stands behind a leading point. -/
theorem AmountText.digit_behind_point (h : AmountText s v) (hc : c.isDigit = false) :
    ¬ ['.', c] <+: s := by
  rintro ⟨t, rfl⟩
  replace h : AmountText ([] ++ '.' :: c :: t) v := h
  obtain ⟨-, sign, hsign, whole, hnil, hdigits, -⟩ := (amountText_point List.not_mem_nil).mp h
  have hwhole : whole = [] := (List.append_eq_nil_iff.mp hnil.symm).2
  have hdigit := hdigits c (by rw [hwhole]; exact List.mem_cons_self)
  rw [hc] at hdigit
  cases hdigit

/-- The text of an amount is plain. -/
theorem AmountText.plainText (h : AmountText s v) : PlainText s := by
  refine ⟨?_, ?_, h.digit_behind_point rfl, h.digit_behind_point rfl⟩
  all_goals obtain ⟨sign, hsign, whole, fraction, hs, hdigits, hne, -, -⟩ := h
  · intro c hc
    apply plain_of_mem
    have hmem : c ∈ sign ∨ c ∈ whole ++ fraction ∨ c = '.' := by
      rcases hs with ⟨rfl, rfl⟩ | ⟨rfl, -⟩
      · rw [List.append_nil]
        exact (List.mem_append.mp hc).imp_right .inl
      · simp only [List.mem_append, List.mem_cons] at hc ⊢
        tauto
    rcases hmem with hmem | hmem | rfl
    · rcases mem_of_mem_signs hsign hmem with rfl | rfl <;> decide
    · exact .inl (hdigits c hmem)
    · decide
  · obtain ⟨c, hc⟩ := List.exists_mem_of_ne_nil _ hne
    refine ⟨c, ?_, hdigits c hc⟩
    rcases hs with ⟨rfl, rfl⟩ | ⟨rfl, -⟩
    · rw [List.append_nil] at hc
      exact List.mem_append_right _ hc
    · simp only [List.mem_append, List.mem_cons] at hc ⊢
      tauto

/-! ## Printing -/

/-- The digits of an amount, at least one before the point. -/
def amountDigits (amount : Int64) : Text :=
  let digits := Nat.toDigits 10 amount.toInt.natAbs
  List.replicate (amountDecimals + 1 - digits.length) '0' ++ digits

def amountSign (amount : Int64) : Text := if amount < 0 then ['-'] else []

theorem length_amountDigits (amount : Int64) : amountDecimals < (amountDigits amount).length := by
  rw [amountDigits, List.length_append, List.length_replicate]
  omega

theorem digits_amountDigits (amount : Int64) : Digits (amountDigits amount) :=
  digits_append.mpr ⟨digits_replicate _, fun _ hc =>
    Nat.isDigit_of_mem_toDigits (by decide) (by decide) hc⟩

theorem ofDigitChars_amountDigits (amount : Int64) :
    Nat.ofDigitChars 10 (amountDigits amount) 0 = amount.toInt.natAbs := by
  have hzero : Nat.ofDigitChars 10 (List.replicate (amountDecimals + 1 -
      (Nat.toDigits 10 amount.toInt.natAbs).length) '0') 0 = 0 := by
    have hnil := ofDigitChars_replicate [] (amountDecimals + 1 -
      (Nat.toDigits 10 amount.toInt.natAbs).length)
    rw [List.nil_append] at hnil
    rw [hnil]
    exact Nat.zero_mul _
  rw [amountDigits, Nat.ofDigitChars_append, hzero,
    Nat.ofDigitChars_toDigits (by decide) (by decide)]

theorem toText_eq (amount : Int64) :
    toText amount = amountSign amount ++ Nat.toDigits 10 amount.toInt.natAbs := by
  rw [toText, amountSign]
  split <;> rfl

theorem length_amountSign (amount : Int64) :
    (amountSign amount).length = if amount < 0 then 1 else 0 := by
  rw [amountSign]
  split <;> rfl

/-- Zeros go behind the sign. -/
theorem pad_toText (amount : Int64) :
    (if (toText amount).length < amountDecimals + 1 + (amountSign amount).length then
      (toText amount).take (amountSign amount).length ++
        List.replicate (amountDecimals + 1 + (amountSign amount).length -
          (toText amount).length) '0' ++ (toText amount).drop (amountSign amount).length
    else toText amount) = amountSign amount ++ amountDigits amount := by
  rw [toText_eq, List.take_left, List.drop_left, List.length_append, amountDigits,
    List.append_assoc]
  split
  · congr 3
    omega
  · rw [Nat.sub_eq_zero_of_le (by omega), List.replicate_zero, List.nil_append]

theorem printAmount_eq (amount : Int64) :
    printAmount amount = amountSign amount ++
      (amountDigits amount).take ((amountDigits amount).length - amountDecimals) ++
      '.' :: (amountDigits amount).drop ((amountDigits amount).length - amountDecimals) := by
  have hlength := length_amountDigits amount
  have hpad := pad_toText amount
  rw [length_amountSign] at hpad
  have hcut : (amountSign amount ++ amountDigits amount).length - amountDecimals =
      (amountSign amount).length + ((amountDigits amount).length - amountDecimals) := by
    rw [List.length_append]
    omega
  simp only [printAmount, hpad, hcut, List.take_length_add_append, List.drop_length_add_append]

/-- The printed text writes the amount. -/
theorem amountText_printAmount (amount : Int64) : AmountText (printAmount amount) amount := by
  have hlength := length_amountDigits amount
  have hsign : amountSign amount ∈ signs := by
    rw [amountSign]
    split <;> simp [signs]
  have hdot : '.' ∉ amountSign amount ++
      (amountDigits amount).take ((amountDigits amount).length - amountDecimals) :=
    not_mem_of_digits hsign fun c hc => digits_amountDigits amount c (List.mem_of_mem_take hc)
  have hdrop : ((amountDigits amount).drop
      ((amountDigits amount).length - amountDecimals)).length = amountDecimals := by
    rw [List.length_drop]
    omega
  rw [printAmount_eq, amountText_point hdot, hdrop]
  refine ⟨by decide, _, hsign, _, rfl, ?_, ?_⟩
  · rw [List.take_append_drop]
    exact digits_amountDigits amount
  · rw [Nat.sub_self, List.replicate_zero, List.append_nil, List.take_append_drop,
      ofDigitChars_amountDigits, signed, amountSign]
    have hiff : amount < 0 ↔ amount.toInt < 0 := Int64.lt_iff_toInt_lt
    by_cases hneg : amount < 0
    · have hlt := hiff.mp hneg
      rw [if_pos hneg, if_pos rfl]
      omega
    · have hge := mt hiff.mpr hneg
      rw [if_neg hneg, if_neg (by decide)]
      omega

/-- Every printed amount is read back, and a text that is accepted is the text of the amount if
and only if it is plain. -/
theorem parseAmount_exact (s : Text) (amount : Int64) :
    parseAmount (printAmount amount) = some amount ∧
      (parseAmount s = some amount → (AmountText s amount ↔ PlainText s)) := by
  refine ⟨?_, fun h => ⟨AmountText.plainText, fun hplain => ?_⟩⟩
  · have htext := amountText_printAmount amount
    exact (parseAmount_iff htext.plainText).mpr htext
  · exact (parseAmount_iff hplain).mp h

theorem parseAmount_plain : AmountText ['1', '.', '5'] 150000000000 := by
  refine ((parseAmount_exact _ _).2 (by decide +kernel)).mpr ⟨?_, ⟨'1', ?_, rfl⟩, ?_, ?_⟩
  · simp only [List.forall_mem_cons, List.not_mem_nil, false_implies, implies_true, and_true]
    decide
  · exact List.mem_cons_self
  · decide
  · decide

/-- The zeros that are filled in are taken for digits of the text, the text loses the point in
front of its sign, and white space is skipped. -/
theorem parseAmount_not_plain :
    (parseAmount [] = some 0 ∧ ¬ AmountText [] 0) ∧
      (parseAmount ['-'] = some 0 ∧ ¬ AmountText ['-'] 0) ∧
      (parseAmount ['.', '-', '5'] = some (-5000000000) ∧
        ¬ AmountText ['.', '-', '5'] (-5000000000)) ∧
      (parseAmount ['\n', '1'] = some 100000000000 ∧ ¬ AmountText ['\n', '1'] 100000000000) := by
  refine ⟨⟨by decide +kernel, fun h => ?_⟩, ⟨by decide +kernel, fun h => ?_⟩,
    ⟨by decide +kernel, fun h => ?_⟩, ⟨by decide +kernel, fun h => ?_⟩⟩
  · obtain ⟨c, hc, -⟩ := h.plainText.2.1
    cases hc
  · obtain ⟨c, hc, hdigit⟩ := h.plainText.2.1
    rw [List.mem_singleton.mp hc] at hdigit
    cases hdigit
  · exact h.plainText.2.2.2 ⟨['5'], rfl⟩
  · exact absurd (h.plainText.1 '\n' List.mem_cons_self).2 (by decide)

end Esc
