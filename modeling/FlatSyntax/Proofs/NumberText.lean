import Mathlib
import FlatSyntax.Proofs.Index
import FlatSyntax.Proofs.Json

/-!
# Printed numbers are read back

The text of a number is a numeral: a sign, digits and digits after a point, with no exponent. It
denotes the shortest decimal of the number, so reading it gives the number again.
-/

namespace FlatSyntax

/-! ## Numerals -/

/-- A number in positional notation. -/
structure Numeral where
  /-- Whether there is a sign. -/
  negative : Bool
  /-- The digits before the point, as a number. -/
  whole : Nat
  /-- The characters after the point. -/
  fraction : List Char
  /-- The characters after the point are digits. -/
  isDigit : ∀ c ∈ fraction, c.isDigit = true

namespace Numeral

/-- The text without the sign: there is no point without digits after it. -/
def unsigned (n : Numeral) : List Char :=
  Nat.toDigits 10 n.whole ++ if n.fraction = [] then [] else '.' :: n.fraction

/-- The text of a numeral. -/
def chars (n : Numeral) : List Char := if n.negative then '-' :: n.unsigned else n.unsigned

/-- The number that a numeral denotes, without its sign. -/
def magnitude (n : Numeral) : ℚ :=
  Nat.ofDigitChars 10 (Nat.toDigits 10 n.whole ++ n.fraction) 0 * 10 ^ (-n.fraction.length : ℤ)

end Numeral

namespace Json

/-- No number goes on into a text. -/
def Ended (rest : List Char) : Prop :=
  ∀ c ∈ rest.head?, c.isDigit = false ∧ c ≠ '.' ∧ c ≠ 'e' ∧ c ≠ 'E'

theorem strip?_eq_none {w : Char} {word cs : List Char} (h : cs.head? ≠ some w) :
    strip? (w :: word) cs = none := by
  cases cs with
  | nil => rfl
  | cons c cs =>
    have hne : w ≠ c := fun heq => h (congrArg some heq.symm)
    rw [strip?, if_neg hne]

theorem takeWhile_isDigit_append {digits rest : List Char} (hdigits : ∀ c ∈ digits, c.isDigit = true)
    (hrest : ∀ c ∈ rest.head?, c.isDigit = false) :
    (digits ++ rest).takeWhile Char.isDigit = digits ∧
      (digits ++ rest).dropWhile Char.isDigit = rest := by
  rw [List.takeWhile_append_of_pos hdigits, List.dropWhile_append_of_pos hdigits]
  cases rest with
  | nil => simp
  | cons c cs => simp [hrest c rfl]

theorem fraction?_append {digits rest : List Char} (hdigits : ∀ c ∈ digits, c.isDigit = true)
    (hrest : Ended rest) :
    fraction? ((if digits = [] then [] else '.' :: digits) ++ rest) = some (digits, rest) := by
  unfold fraction?
  by_cases hnil : digits = []
  · have hpoint : strip? ['.'] rest = none := strip?_eq_none fun h => (hrest '.' h).2.1 rfl
    simp [hnil, hpoint]
  · have hpoint : strip? ['.'] ('.' :: digits ++ rest) = some (digits ++ rest) :=
      strip?_eq_some_iff.mpr rfl
    obtain ⟨htake, hdrop⟩ := takeWhile_isDigit_append hdigits fun c hc => (hrest c hc).1
    rw [if_neg hnil, hpoint]
    dsimp only
    rw [htake, hdrop, if_neg hnil]

theorem exponent?_of_ended {rest : List Char} (hrest : Ended rest) :
    exponent? rest = some (0, rest) := by
  have hlower : strip? ['e'] rest = none := strip?_eq_none fun h => (hrest 'e' h).2.2.1 rfl
  have hupper : strip? ['E'] rest = none := strip?_eq_none fun h => (hrest 'E' h).2.2.2 rfl
  simp [exponent?, hlower, hupper]

end Json

namespace Numeral

variable {n : Numeral} {c : Char} {rest : List Char}

theorem isDigit_of_mem_toDigits {k : Nat} (h : c ∈ Nat.toDigits 10 k) : c.isDigit = true :=
  Nat.isDigit_of_mem_toDigits (by decide) (by decide) h

/-- A numeral begins with a digit after its sign. -/
theorem exists_unsigned_cons (n : Numeral) :
    ∃ c cs, n.unsigned = c :: cs ∧ c.isDigit = true := by
  obtain ⟨c, cs, hcs⟩ := List.exists_cons_of_ne_nil (Nat.toDigits_ne_nil (n := n.whole) (b := 10))
  refine ⟨c, _, by rw [unsigned, hcs, List.cons_append], isDigit_of_mem_toDigits (k := n.whole) ?_⟩
  rw [hcs]
  exact List.mem_cons_self

theorem exists_chars_cons (n : Numeral) :
    ∃ c cs, n.chars = c :: cs ∧ (c = '-' ∨ c.isDigit = true) := by
  unfold chars
  split
  · exact ⟨'-', _, rfl, .inl rfl⟩
  · obtain ⟨c, cs, hcs, hdigit⟩ := n.exists_unsigned_cons
    exact ⟨c, cs, hcs, .inr hdigit⟩

theorem mem_chars (h : c ∈ n.chars) : c = '-' ∨ c = '.' ∨ c.isDigit = true := by
  have hunsigned : c ∈ n.unsigned → c = '.' ∨ c.isDigit = true := by
    intro hmem
    rcases List.mem_append.mp hmem with hmem | hmem
    · exact .inr (isDigit_of_mem_toDigits hmem)
    · split at hmem
      · cases hmem
      · exact (List.mem_cons.mp hmem).imp_right (n.isDigit c)
  unfold chars at h
  split at h
  · exact (List.mem_cons.mp h).imp_right hunsigned
  · exact .inr (hunsigned h)

theorem sign_chars (n : Numeral) (rest : List Char) :
    Json.sign (n.chars ++ rest) = (n.negative, n.unsigned ++ rest) := by
  unfold chars Json.sign
  cases n.negative with
  | true => rfl
  | false =>
    obtain ⟨c, cs, hcs, hdigit⟩ := n.exists_unsigned_cons
    have hplain : Json.strip? ['-'] (n.unsigned ++ rest) = none := by
      refine Json.strip?_eq_none fun h => ?_
      rw [hcs] at h
      cases h
      cases hdigit
    simp [hplain]

/-- Reading a numeral gives the number nearest to what it denotes. -/
theorem number?_chars (n : Numeral) (hrest : Json.Ended rest) :
    Json.number? (n.chars ++ rest) =
      (Double.nearest? n.negative n.magnitude).map fun x => (x, rest) := by
  have htail : ∀ c ∈ ((if n.fraction = [] then [] else '.' :: n.fraction) ++ rest).head?,
      c.isDigit = false := by
    split
    · exact fun c hc => (hrest c hc).1
    · rintro c ⟨⟩
      rfl
  obtain ⟨htake, hdrop⟩ :=
    Json.takeWhile_isDigit_append (fun c => isDigit_of_mem_toDigits (k := n.whole)) htail
  have hwhole : Nat.toDigits 10 n.whole ≠ [] ∧
      ((Nat.toDigits 10 n.whole).head? = some '0' → Nat.toDigits 10 n.whole = ['0']) := by
    refine ⟨Nat.toDigits_ne_nil, fun hhead => ?_⟩
    rcases Nat.eq_zero_or_pos n.whole with hzero | hpos
    · rw [hzero, Nat.toDigits_zero]
    · exact absurd hhead (Text.head?_toDigits hpos)
  unfold Json.number?
  rw [sign_chars, unsigned, List.append_assoc]
  dsimp only
  rw [htake, hdrop, if_pos hwhole, Json.fraction?_append n.isDigit hrest]
  simp [Json.exponent?_of_ended hrest, magnitude]

end Numeral

/-! ## Texts of numbers -/

namespace Decimal

theorem toList_toString (n : Nat) : (toString n).toList = Nat.toDigits 10 n :=
  Text.eq_toString_iff.mp rfl

theorem length_padded {width n : Nat} (hwidth : 0 < width) (h : n < 10 ^ width) :
    (padded width n).length = width := by
  have hle := (Nat.length_toDigits_le_iff (b := 10) (by decide) hwidth).mpr h
  simp only [padded, toList_toString, List.length_append, List.length_replicate]
  omega

theorem ofDigitChars_padded (width n start : Nat) (hwidth : 0 < width) (h : n < 10 ^ width) :
    Nat.ofDigitChars 10 (padded width n) start = start * 10 ^ width + n := by
  rw [Nat.ofDigitChars_eq_ofDigitChars_zero, length_padded hwidth h, padded, toList_toString,
    Nat.ofDigitChars_append, Nat.ofDigitChars_replicate_zero, Nat.mul_zero,
    Nat.ofDigitChars_ten_toDigits, Nat.mul_comm]

theorem isDigit_of_mem_padded {width n : Nat} {c : Char} (h : c ∈ padded width n) :
    c.isDigit = true := by
  rw [padded, toList_toString] at h
  rcases List.mem_append.mp h with h | h
  · rw [List.eq_of_mem_replicate h]
    rfl
  · exact Numeral.isDigit_of_mem_toDigits h

/-- Digits without the zeros at their end. -/
def stripped (cs : List Char) : List Char := (cs.reverse.dropWhile (· == '0')).reverse

theorem exists_eq_stripped_append (cs : List Char) :
    ∃ zeros, cs = stripped cs ++ List.replicate zeros '0' := by
  refine ⟨(cs.reverse.takeWhile (· == '0')).length, ?_⟩
  have hzeros : cs.reverse.takeWhile (· == '0') =
      List.replicate (cs.reverse.takeWhile (· == '0')).length '0' :=
    List.eq_replicate_iff.mpr ⟨rfl, fun c hc => by simpa using List.mem_takeWhile_imp hc⟩
  rw [stripped, ← List.reverse_replicate, ← hzeros, ← List.reverse_append,
    List.takeWhile_append_dropWhile, List.reverse_reverse]

variable {d : Decimal}

theorem toList_text_of_nonneg (h : 0 ≤ d.exponent) :
    d.text.toList = Nat.toDigits 10 (d.digits * 10 ^ d.exponent.toNat) := by
  rw [text, if_pos h, toList_toString]
  rfl

theorem toList_text_of_neg (h : d.exponent < 0) {places : Nat}
    (hplaces : (-d.exponent).toNat = places) :
    d.text.toList = Nat.toDigits 10 (d.digits / 10 ^ places) ++
      if stripped (padded places (d.digits % 10 ^ places)) = [] then []
      else '.' :: stripped (padded places (d.digits % 10 ^ places)) := by
  rw [text, if_neg (Int.not_le.mpr h), hplaces]
  simp only [Nat.pow_eq, stripped, List.isEmpty_iff, List.reverse_eq_nil_iff]
  split
  · rw [toList_toString, List.append_nil]
  · simp only [String.toList_append, toList_toString, String.toList_ofList, List.append_assoc]
    rfl

/-- The text of a decimal is a numeral that denotes it. -/
theorem exists_numeral (d : Decimal) (negative : Bool) :
    ∃ n : Numeral, n.negative = negative ∧ n.unsigned = d.text.toList ∧
      n.magnitude = d.digits * 10 ^ d.exponent := by
  by_cases hexponent : 0 ≤ d.exponent
  · refine ⟨⟨negative, d.digits * 10 ^ d.exponent.toNat, [], by simp⟩, rfl, ?_, ?_⟩
    · rw [Numeral.unsigned, if_pos rfl, List.append_nil, toList_text_of_nonneg hexponent]
    · have hpower : (10 : ℚ) ^ d.exponent = 10 ^ d.exponent.toNat := by
        rw [← zpow_natCast, Int.toNat_of_nonneg hexponent]
      simp [Numeral.magnitude, Nat.ofDigitChars_ten_toDigits, hpower]
  · have hneg : d.exponent < 0 := Int.not_le.mp hexponent
    obtain ⟨places, hplaces⟩ : ∃ places, (-d.exponent).toNat = places := ⟨_, rfl⟩
    have hpos : 0 < places := by omega
    have hlt : d.digits % 10 ^ places < 10 ^ places := Nat.mod_lt _ (by positivity)
    obtain ⟨zeros, hzeros⟩ := exists_eq_stripped_append (padded places (d.digits % 10 ^ places))
    have hlength := length_padded hpos hlt
    have hvalue := ofDigitChars_padded places _ (d.digits / 10 ^ places) hpos hlt
    have hdigits : ∀ c ∈ padded places (d.digits % 10 ^ places), c.isDigit = true := fun _ =>
      isDigit_of_mem_padded
    have htext := toList_text_of_neg hneg hplaces
    generalize stripped (padded places (d.digits % 10 ^ places)) = fraction at hzeros htext
    rw [hzeros] at hlength hvalue hdigits
    refine ⟨⟨negative, d.digits / 10 ^ places, fraction,
      fun c hc => hdigits c (List.mem_append_left _ hc)⟩, rfl, htext.symm, ?_⟩
    rw [Nat.ofDigitChars_append, Nat.ofDigitChars_replicate_zero, Nat.div_add_mod'] at hvalue
    rw [List.length_append, List.length_replicate] at hlength
    have hsum : d.exponent = -(fraction.length + zeros : ℤ) := by omega
    have hcast : (d.digits : ℚ) =
        10 ^ zeros * Nat.ofDigitChars 10 fraction (d.digits / 10 ^ places) := by
      exact_mod_cast hvalue.symm
    rw [Numeral.magnitude, Nat.ofDigitChars_append, Nat.ofDigitChars_ten_toDigits, hcast, hsum,
      neg_add, zpow_add₀ (by norm_num), zpow_neg, zpow_neg, zpow_natCast, zpow_natCast]
    field_simp

end Decimal

namespace Double

/-- The text of a number is a numeral. -/
theorem exists_numeral_text (x : Double) :
    ∃ n : Numeral, n.chars = x.text.toList ∧
      (x.isFinite = true → nearest? n.negative n.magnitude = some x) := by
  have hspelled : ∃ n : Numeral, n.negative = x.isNegative ∧
      n.unsigned = (if x.isZero then "0" else (Decimal.shortest x).text).toList ∧
      (x.isFinite = true → nearest? n.negative n.magnitude = some x) := by
    cases hzero : x.isZero with
    | true =>
      refine ⟨⟨x.isNegative, 0, [], by simp⟩, rfl, by simp [Numeral.unsigned], fun hfinite => ?_⟩
      refine nearest?_of_pattern hfinite ?_
      rw [magnitude_of_isZero hzero]
      simp [Numeral.magnitude, nearestPattern, Nat.ofDigitChars_cons]
    | false =>
      obtain ⟨n, hnegative, hunsigned, hmagnitude⟩ :=
        (Decimal.shortest x).exists_numeral x.isNegative
      refine ⟨n, hnegative, hunsigned, fun hfinite => ?_⟩
      rw [hnegative, hmagnitude]
      exact Decimal.nearest?_shortest hfinite hzero
  obtain ⟨n, hnegative, hunsigned, hnearest⟩ := hspelled
  refine ⟨n, ?_, hnearest⟩
  rw [Numeral.chars, hnegative, hunsigned, text]
  cases x.isNegative with
  | true => simp [String.toList_append]
  | false => rfl

/-- The text of a finite number is read as the number. -/
theorem number?_text {x : Double} (hfinite : x.isFinite = true) {rest : List Char}
    (hrest : Json.Ended rest) : Json.number? (x.text.toList ++ rest) = some (x, rest) := by
  obtain ⟨n, hchars, hnearest⟩ := x.exists_numeral_text
  rw [← hchars, n.number?_chars hrest, hnearest hfinite]
  rfl

end Double

end FlatSyntax
