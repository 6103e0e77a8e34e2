import Mathlib
import FlatSyntax.Number.Decimal

/-!
# Decimals and the numbers nearest to them

A decimal is read as the number nearest to it, and of two equally near the one with the even
significand. The decimals that are read as a given number form an interval around it, which is the
interval that the printer searches: so what it finds there is read as the number it was given. The
search finds something, since the decimals it tries last are closer together than the interval is
wide.
-/

namespace FlatSyntax

namespace Double

/-! ## Rounding -/

/-- The whole number nearest to a number that is not negative, the even one of two. -/
def roundEven (r : ℚ) : Nat :=
  let below := ⌊r⌋₊
  if r - below < 1 / 2 then below
  else if 1 / 2 < r - below then below + 1
  else if below % 2 = 0 then below else below + 1

/-- The power of two that the numbers around a positive number are multiples of. -/
def lastPlace (r : ℚ) : Int := max (-1074) (Int.log 2 r - 52)

/-- The pattern of the number nearest to a number that is not negative. A significand that is rounded
up to the next power of two carries over into the exponent. -/
def nearestPattern (r : ℚ) : Nat :=
  if r = 0 then 0
  else (lastPlace r + 1074).toNat * fractionModulus + roundEven (r / 2 ^ lastPlace r)

/-- The number nearest to a magnitude with a sign, unless it is infinite. -/
def nearest? (negative : Bool) (r : ℚ) : Option Double :=
  if nearestPattern r < 2047 * fractionModulus then
    some ⟨UInt64.ofNat (nearestPattern r + if negative then signWeight else 0)⟩
  else none

/-- A number is within half of a whole number, and no further than the ends that belong to it. -/
structure Around (n : Nat) (r : ℚ) : Prop where
  low : (n : ℚ) - 1 / 2 ≤ r
  high : r ≤ n + 1 / 2
  odd : n % 2 = 1 → (n : ℚ) - 1 / 2 < r ∧ r < n + 1 / 2

theorem Around.roundEven_eq {n : Nat} {r : ℚ} (h : Around n r) (hr : 0 ≤ r) : roundEven r = n := by
  obtain ⟨hlow, hhigh, hodd⟩ := h
  unfold roundEven
  rcases le_or_gt (n : ℚ) r with hle | hlt
  · have hfloor : ⌊r⌋₊ = n := (Nat.floor_eq_iff hr).mpr ⟨hle, by linarith⟩
    simp only [hfloor]
    split_ifs with hnear hfar heven
    · rfl
    · linarith
    · rfl
    · have := hodd (by omega)
      linarith
  · -- the whole number is above, so it is not zero
    have hpos : 0 < n := by
      rcases Nat.eq_zero_or_pos n with rfl | hpos
      · rw [Nat.cast_zero] at hlt
        linarith
      · exact hpos
    have hcast : ((n - 1 : Nat) : ℚ) = n - 1 := by
      rw [Nat.cast_sub hpos, Nat.cast_one]
    have hfloor : ⌊r⌋₊ = n - 1 :=
      (Nat.floor_eq_iff hr).mpr ⟨by rw [hcast]; linarith, by rw [hcast]; linarith⟩
    simp only [hfloor, hcast]
    split_ifs with hnear hfar heven
    · linarith
    · omega
    · have := hodd (by omega)
      linarith
    · omega

/-! ## Significand and exponent -/

variable {x : Double}

/-- The pattern without its sign. -/
def magnitude (x : Double) : Nat := x.exponentField * fractionModulus + x.fraction

theorem bits_eq (x : Double) :
    x.bits.toNat = x.magnitude + if x.isNegative then signWeight else 0 := by
  have hlt : x.bits.toNat < 18446744073709551616 := x.bits.toNat_lt
  unfold magnitude exponentField fraction isNegative fractionModulus signWeight
  rw [Nat.testBit_eq_decide_div_mod_eq]
  simp only [decide_eq_true_eq]
  split <;> omega

theorem exponentField_lt (h : x.isFinite = true) : x.exponentField < 2047 := by
  have hne : x.exponentField ≠ 2047 := by simpa [isFinite] using h
  have hlt : x.exponentField < 2048 := Nat.mod_lt _ (by decide)
  omega

theorem fraction_lt (x : Double) : x.fraction < 4503599627370496 := Nat.mod_lt _ (by decide)

theorem nearest?_of_pattern (h : x.isFinite = true) {r : ℚ} (hr : nearestPattern r = x.magnitude) :
    nearest? x.isNegative r = some x := by
  have hfield := exponentField_lt h
  have hfraction := x.fraction_lt
  have hlt : x.magnitude < 2047 * fractionModulus := by
    unfold magnitude fractionModulus
    omega
  unfold nearest?
  rw [hr, if_pos hlt, ← bits_eq, UInt64.ofNat_toNat]

theorem magnitude_of_isZero (h : x.isZero = true) : x.magnitude = 0 := by
  obtain ⟨hfield, hfraction⟩ : x.exponentField = 0 ∧ x.fraction = 0 := by simpa [isZero] using h
  unfold magnitude
  rw [hfield, hfraction]
  rfl

/-- What significand and exponent of a finite number can be. -/
structure Scaled (m : Nat) (q : Int) : Prop where
  significand_lt : m < 9007199254740992
  exponent_ge : -1074 ≤ q
  exponent_le : q ≤ 971
  /-- There is a leading bit, unless the exponent is the smallest. -/
  leading : -1074 < q → 4503599627370496 ≤ m

theorem scaled (h : x.isFinite = true) : Scaled x.significand x.exponent := by
  have hfield := exponentField_lt h
  have hfraction := x.fraction_lt
  unfold significand exponent fractionModulus
  split
  · constructor <;> omega
  · constructor <;> omega

theorem significand_pos (h : x.isZero = false) : 0 < x.significand := by
  have hnot : x.exponentField = 0 → x.fraction ≠ 0 := by simpa [isZero] using h
  unfold significand fractionModulus
  split
  · exact Nat.pos_of_ne_zero (hnot ‹_›)
  · omega

theorem magnitude_eq (x : Double) :
    x.magnitude = (x.exponent + 1074).toNat * fractionModulus + x.significand := by
  unfold magnitude significand exponent
  split
  · rename_i hzero
    simp [hzero]
  · rename_i hpos
    have hplace : ((max x.exponentField 1 : Nat) - 1075 + 1074 : Int).toNat = x.exponentField - 1 := by
      omega
    rw [hplace, Nat.sub_mul]
    have := Nat.le_mul_of_pos_left fractionModulus (Nat.pos_of_ne_zero hpos)
    omega

/-! ## The numbers that are read as a given one -/

/-- The numbers around `m * 2 ^ q` that are nearest to it: half a place up, and as much down, or half
of that below a power of two, where the places are half as wide. -/
structure Surrounds (m : Nat) (q : Int) (r : ℚ) : Prop where
  around : Around m (r / 2 ^ q)
  halved : m = 4503599627370496 → -1074 < q → (m : ℚ) - 1 / 4 ≤ r / 2 ^ q

theorem log_eq {r : ℚ} (hr : 0 < r) {z : Int} (hlow : (2 : ℚ) ^ z ≤ r) (hhigh : r < 2 ^ (z + 1)) :
    Int.log 2 r = z := by
  have hle := (Int.zpow_le_iff_le_log (by decide : 1 < 2) hr).mp (by exact_mod_cast hlow)
  have hlt := (Int.lt_zpow_iff_log_lt (by decide : 1 < 2) hr).mp (by exact_mod_cast hhigh)
  omega

/-- What surrounds a number is read as it. -/
theorem Surrounds.nearestPattern_eq {m : Nat} {q : Int} {r : ℚ} (h : Surrounds m q r)
    (hs : Scaled m q) (hr : 0 < r) :
    nearestPattern r = (q + 1074).toNat * fractionModulus + m := by
  obtain ⟨hm, hge, -, hleading⟩ := hs
  have hunit : (0 : ℚ) < 2 ^ q := by positivity
  have hquotient : 0 < r / 2 ^ q := div_pos hr hunit
  have hr_eq : r = r / 2 ^ q * 2 ^ q := by field_simp
  have hm' : (m : ℚ) ≤ 9007199254740991 := by
    have hle : m ≤ 9007199254740991 := by omega
    exact_mod_cast hle
  have htop : r < 2 ^ (q + 53) := by
    rw [zpow_add₀ two_ne_zero, mul_comm]
    rw [hr_eq]
    refine mul_lt_mul_of_pos_right ?_ hunit
    have := h.around.high
    norm_num
    linarith
  have hlog : Int.log 2 r < q + 53 :=
    (Int.lt_zpow_iff_log_lt (by decide : 1 < 2) hr).mp (by exact_mod_cast htop)
  unfold nearestPattern
  rw [if_neg hr.ne']
  by_cases hbelow : -1074 < q ∧ r / 2 ^ q < 4503599627370496
  · -- below a power of two: the places are half as wide, and rounding carries over
    obtain ⟨hq, hbelow⟩ := hbelow
    have hpower : m = 4503599627370496 := by
      have hlow := h.around.low
      have hlt : (m : ℚ) < 4503599627370497 := by linarith
      have hlt : m < 4503599627370497 := by exact_mod_cast hlt
      have := hleading hq
      omega
    have hhalved := h.halved hpower hq
    have hcast : (m : ℚ) = 4503599627370496 := by rw [hpower]; norm_num
    have hhalf : (2 : ℚ) ^ q = 2 ^ (q - 1) * 2 := by
      rw [← zpow_add_one₀ two_ne_zero]
      congr 1
      omega
    have hdouble : r / 2 ^ (q - 1) = r / 2 ^ q * 2 := by
      rw [hhalf]
      field_simp
    have hexact : Int.log 2 r = q + 51 := by
      refine log_eq hr ?_ ?_
      · rw [zpow_add₀ two_ne_zero, mul_comm, hr_eq]
        refine mul_le_mul_of_nonneg_right ?_ hunit.le
        norm_num
        linarith
      · rw [show q + 51 + 1 = q + 52 by ring, zpow_add₀ two_ne_zero, mul_comm, hr_eq]
        refine mul_lt_mul_of_pos_right ?_ hunit
        norm_num
        linarith
    have hplace : lastPlace r = q - 1 := by
      unfold lastPlace
      omega
    have hround : roundEven (r / 2 ^ (q - 1)) = 2 * m := by
      refine Around.roundEven_eq ⟨?_, ?_, fun hodd => by omega⟩ (by rw [hdouble]; positivity)
      · rw [hdouble]
        push_cast
        linarith
      · rw [hdouble]
        push_cast
        linarith
    rw [hplace, hround]
    unfold fractionModulus
    omega
  · have hplace : lastPlace r = q := by
      unfold lastPlace
      by_cases hq : -1074 < q
      · have hle : (4503599627370496 : ℚ) ≤ r / 2 ^ q := by
          by_contra hlt
          exact hbelow ⟨hq, lt_of_not_ge hlt⟩
        have hexact : Int.log 2 r = q + 52 := by
          refine log_eq hr ?_ (by rwa [show q + 52 + 1 = q + 53 by ring])
          rw [zpow_add₀ two_ne_zero, mul_comm, hr_eq]
          refine mul_le_mul_of_nonneg_right ?_ hunit.le
          norm_num
          exact hle
        omega
      · omega
    rw [hplace, h.around.roundEven_eq hquotient.le]

end Double

/-! ## The decimals that the printer tries -/

namespace Decimal

namespace Interval

/-- The interval has a number. -/
def Holds (i : Interval) (r : ℚ) : Prop :=
  if i.closed then i.low * 2 ^ i.unit ≤ r ∧ r ≤ i.high * 2 ^ i.unit
  else i.low * 2 ^ i.unit < r ∧ r < i.high * 2 ^ i.unit

/-- A power with a whole exponent is a quotient of powers with natural exponents. -/
theorem zpow_eq_div {b : ℚ} (hb : b ≠ 0) (z : Int) : b ^ z = b ^ z.toNat / b ^ (-z).toNat := by
  rw [← zpow_natCast, ← zpow_natCast, ← zpow_sub₀ hb]
  congr 1
  omega

/-- The factors that the printer compares with stand for a power of two and a power of ten, on one
scale. -/
theorem exists_scale (u k : Int) :
    ∃ c : ℚ, 0 < c ∧ ((Nat.pow 2 u.toNat * Nat.pow 10 (-k).toNat : Nat) : ℚ) = 2 ^ u * c ∧
      ((Nat.pow 10 k.toNat * Nat.pow 2 (-u).toNat : Nat) : ℚ) = 10 ^ k * c := by
  refine ⟨2 ^ (-u).toNat * 10 ^ (-k).toNat, by positivity, ?_, ?_⟩
  · rw [zpow_eq_div two_ne_zero]
    simp only [Nat.pow_eq]
    push_cast
    field_simp
  · rw [zpow_eq_div (by norm_num : (10 : ℚ) ≠ 0)]
    simp only [Nat.pow_eq]
    push_cast
    field_simp

variable {i : Interval} {k : Int} {d : Nat}

theorem nearest?_holds (h : i.nearest? k = some d) : i.Holds (d * 10 ^ k) := by
  unfold nearest? at h
  obtain ⟨c, hc, ha, hb⟩ := exists_scale i.unit k
  generalize Nat.pow 2 i.unit.toNat * Nat.pow 10 (-k).toNat = a at h ha
  generalize Nat.pow 10 k.toNat * Nat.pow 2 (-i.unit).toNat = b at h hb
  have hle : ∀ m n : Nat, m * a ≤ n * b ↔ (m : ℚ) * 2 ^ i.unit ≤ n * 10 ^ k := by
    intro m n
    rw [← Nat.cast_le (α := ℚ), Nat.cast_mul, Nat.cast_mul, ha, hb, ← mul_assoc, ← mul_assoc,
      mul_le_mul_iff_left₀ hc]
  have hge : ∀ m n : Nat, n * b ≤ m * a ↔ (n : ℚ) * 10 ^ k ≤ m * 2 ^ i.unit := by
    intro m n
    rw [← Nat.cast_le (α := ℚ), Nat.cast_mul, Nat.cast_mul, ha, hb, ← mul_assoc, ← mul_assoc,
      mul_le_mul_iff_left₀ hc]
  have hinside : ∀ n : Nat,
      (if i.closed = true then decide (i.low * a ≤ n * b) && decide (n * b ≤ i.high * a)
        else decide (i.low * a < n * b) && decide (n * b < i.high * a)) = true →
      i.Holds (n * 10 ^ k) := by
    intro n hn
    unfold Holds
    split at hn
    · rename_i hclosed
      rw [if_pos hclosed]
      simpa [hle, hge] using hn
    · rename_i hopen
      rw [if_neg hopen]
      simpa [← not_le, hle, hge] using hn
  dsimp only at h
  split at h
  · split at h
    · cases h
      exact hinside _ ‹_›
    · cases h
      exact hinside _ ‹_›
  · cases h
    exact hinside _ ‹_›
  · cases h
    exact hinside _ ‹_›
  · cases h

/-- A grid that is no wider than the unit has a multiple in the interval. -/
theorem nearest?_isSome (hlow : i.low < i.mid) (hhigh : i.mid < i.high)
    (hk : (10 : ℚ) ^ k ≤ 2 ^ i.unit) : (i.nearest? k).isSome = true := by
  unfold nearest?
  obtain ⟨c, hc, ha, hb⟩ := exists_scale i.unit k
  generalize Nat.pow 2 i.unit.toNat * Nat.pow 10 (-k).toNat = a at ha
  generalize Nat.pow 10 k.toNat * Nat.pow 2 (-i.unit).toNat = b at hb
  have hgrid : b ≤ a := by
    rw [← Nat.cast_le (α := ℚ), ha, hb]
    exact mul_le_mul_of_nonneg_right hk hc.le
  have hpos : 0 < b := by
    rw [← Nat.cast_pos (α := ℚ), hb]
    positivity
  have hfloor : i.mid * a / b * b ≤ i.mid * a := Nat.div_mul_le_self ..
  have hceil : i.mid * a < i.mid * a / b * b + b := Nat.lt_div_mul_add hpos
  have hleft : i.low * a + a ≤ i.mid * a := by
    rw [← Nat.succ_mul]
    exact Nat.mul_le_mul_right a hlow
  have hright : i.mid * a + a ≤ i.high * a := by
    rw [← Nat.succ_mul]
    exact Nat.mul_le_mul_right a hhigh
  have hinside : (if i.closed = true then
        decide (i.low * a ≤ i.mid * a / b * b) && decide (i.mid * a / b * b ≤ i.high * a)
      else decide (i.low * a < i.mid * a / b * b) && decide (i.mid * a / b * b < i.high * a)) =
      true := by
    split <;> rw [Bool.and_eq_true, decide_eq_true_iff, decide_eq_true_iff] <;> omega
  dsimp only
  rw [hinside]
  split
  · split <;> rfl
  · rfl
  · rfl
  · contradiction

end Interval

variable {x : Double}

/-- The last power of ten that is tried is no larger than the unit of the interval. -/
theorem finest_le {q k : Int} (hge : -1074 ≤ q) (hle : q ≤ 971)
    (hk : k ≤ (q + 53) * 30103 / 100000 - 18) : (10 : ℚ) ^ k ≤ 2 ^ (q - 2) := by
  have htable : ∀ e : Nat, e < 2046 →
      Nat.pow 10 (((e : Int) - 1021) * 30103 / 100000 - 18).toNat *
          Nat.pow 2 (-((e : Int) - 1076)).toNat ≤
        Nat.pow 2 ((e : Int) - 1076).toNat *
          Nat.pow 10 (-(((e : Int) - 1021) * 30103 / 100000 - 18)).toNat := by
    decide +kernel
  have hrow := htable (q + 1074).toNat (by omega)
  rw [show (((q + 1074).toNat : Nat) : Int) - 1021 = q + 53 by omega,
    show (((q + 1074).toNat : Nat) : Int) - 1076 = q - 2 by omega] at hrow
  obtain ⟨c, hc, ha, hb⟩ := Interval.exists_scale (q - 2) ((q + 53) * 30103 / 100000 - 18)
  rw [← Nat.cast_le (α := ℚ), ha, hb, mul_le_mul_iff_left₀ hc] at hrow
  exact (zpow_le_zpow_right₀ (by norm_num) hk).trans hrow

theorem log2_lt {m : Nat} (h : m < 9007199254740992) : m.log2 < 53 := by
  rcases Nat.eq_zero_or_pos m with rfl | hpos
  · decide
  · exact (Nat.log2_lt hpos.ne').mpr h

/-- The shortest decimal is in the interval. -/
theorem shortest_holds (hfinite : x.isFinite = true) (hzero : x.isZero = false) :
    (Interval.ofDouble x).Holds ((shortest x).digits * 10 ^ (shortest x).exponent) := by
  have hscaled := Double.scaled hfinite
  have hpos := Double.significand_pos hzero
  have hlog := log2_lt hscaled.significand_lt
  have hlast : ((Interval.ofDouble x).nearest? (bound x - (19 : Nat))).isSome = true := by
    refine Interval.nearest?_isSome ?_ ?_ (finest_le hscaled.exponent_ge hscaled.exponent_le ?_)
    · change 4 * x.significand - _ < 4 * x.significand
      split <;> omega
    · change 4 * x.significand < 4 * x.significand + 2
      omega
    · unfold bound
      omega
  have hfound : ((List.range 20).findSome? fun (step : Nat) =>
      ((Interval.ofDouble x).nearest? (bound x - step)).map
        fun d => Decimal.mk d (bound x - step)).isSome = true := by
    refine List.findSome?_isSome_iff.mpr ⟨19, by decide, ?_⟩
    rw [Option.isSome_map]
    exact hlast
  obtain ⟨decimal, hdecimal⟩ := Option.isSome_iff_exists.mp hfound
  have heq : shortest x = decimal := by
    unfold shortest
    dsimp only
    rw [hdecimal]
    rfl
  obtain ⟨step, _, hstep⟩ := List.exists_of_findSome?_eq_some hdecimal
  obtain ⟨d, hd, rfl⟩ := Option.map_eq_some_iff.mp hstep
  rw [heq]
  exact Interval.nearest?_holds hd

theorem Interval.Holds.bounds {i : Interval} {r : ℚ} (h : i.Holds r) :
    i.low * 2 ^ i.unit ≤ r ∧ r ≤ i.high * 2 ^ i.unit ∧
      (i.closed = false → i.low * 2 ^ i.unit < r ∧ r < i.high * 2 ^ i.unit) := by
  unfold Holds at h
  split at h
  · rename_i hclosed
    exact ⟨h.1, h.2, fun hopen => by simp [hclosed] at hopen⟩
  · exact ⟨h.1.le, h.2.le, fun _ => h⟩

/-- The interval of a number has what surrounds it. -/
theorem Interval.Holds.surrounds {r : ℚ} (h : (ofDouble x).Holds r) (hzero : x.isZero = false) :
    Double.Surrounds x.significand x.exponent r ∧ 0 < r := by
  have hpos : (1 : ℚ) ≤ x.significand := by exact_mod_cast Double.significand_pos hzero
  have hplace : (0 : ℚ) < 2 ^ x.exponent := by positivity
  -- in places of the number, a unit is a quarter
  have hquarter : (2 : ℚ) ^ (ofDouble x).unit = 1 / 4 * 2 ^ x.exponent := by
    change (2 : ℚ) ^ (x.exponent - 2) = _
    rw [zpow_sub₀ two_ne_zero]
    norm_num
    ring
  obtain ⟨hlow, hhigh, hopen⟩ := h.bounds
  rw [hquarter, ← mul_assoc, ← le_div_iff₀ hplace] at hlow
  rw [hquarter, ← mul_assoc, ← div_le_iff₀ hplace] at hhigh
  rw [hquarter, ← mul_assoc, ← mul_assoc, ← lt_div_iff₀ hplace, ← div_lt_iff₀ hplace] at hopen
  have hhigh_eq : ((ofDouble x).high : ℚ) = 4 * x.significand + 2 := by
    change ((4 * x.significand + 2 : Nat) : ℚ) = _
    push_cast
    rfl
  have hlow_eq : ((ofDouble x).low : ℚ) =
      4 * x.significand - if x.fraction = 0 ∧ 1 < x.exponentField then 1 else 2 := by
    change ((4 * x.significand - _ : Nat) : ℚ) = _
    have hle : (if x.fraction = 0 ∧ 1 < x.exponentField then 1 else 2) ≤ 4 * x.significand := by
      have := Double.significand_pos hzero
      split <;> omega
    rw [Nat.cast_sub hle]
    push_cast
    rfl
  have hclosed : x.significand % 2 = 1 → (ofDouble x).closed = false := by
    intro hodd
    change (x.significand % 2 == 0) = false
    rw [hodd]
    rfl
  rw [hlow_eq] at hlow hopen
  rw [hhigh_eq] at hhigh hopen
  have hmost : (if x.fraction = 0 ∧ 1 < x.exponentField then (1 : ℚ) else 2) ≤ 2 := by
    split <;> norm_num
  have hquotient : 0 < r / 2 ^ x.exponent := by linarith
  refine ⟨⟨⟨by linarith, by linarith, fun hodd => ?_⟩, fun hpower hexponent => ?_⟩, ?_⟩
  · obtain ⟨hlow', hhigh'⟩ := hopen (hclosed hodd)
    constructor <;> linarith
  · have hnext : x.fraction = 0 ∧ 1 < x.exponentField := by
      have hfraction := x.fraction_lt
      unfold Double.significand Double.fractionModulus at hpower
      unfold Double.exponent at hexponent
      split at hpower <;> omega
    rw [if_pos hnext] at hlow
    linarith
  · rwa [lt_div_iff₀ hplace, zero_mul] at hquotient

/-- A number is the one nearest to its shortest decimal. -/
theorem nearest?_shortest (hfinite : x.isFinite = true) (hzero : x.isZero = false) :
    Double.nearest? x.isNegative ((shortest x).digits * 10 ^ (shortest x).exponent) = some x := by
  obtain ⟨hsurrounds, hpos⟩ := (shortest_holds hfinite hzero).surrounds hzero
  refine Double.nearest?_of_pattern hfinite ?_
  rw [hsurrounds.nearestPattern_eq (Double.scaled hfinite) hpos, Double.magnitude_eq]

end Decimal

end FlatSyntax
