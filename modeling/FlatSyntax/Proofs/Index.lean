import Mathlib
import FlatSyntax.Text.Index

/-!
# Indices and their decimal texts

Reading an index from a text and printing a number are inverse to each other: a text is read as an
index exactly if it is the decimal text of a number below `2 ^ 64`. A sign, a leading zero, a digit
that is not ASCII or a number that is too large makes it an ordinary text.
-/

namespace FlatSyntax.Text

theorem digit?_eq_some_iff {c : Char} {d : Nat} :
    digit? c = some d ↔ (48 ≤ c.toNat ∧ c.toNat ≤ 57) ∧ d = c.toNat - 48 := by
  have hrange : ('0' ≤ c ∧ c ≤ '9') ↔ (48 ≤ c.toNat ∧ c.toNat ≤ 57) := Iff.rfl
  have hzero : '0'.toNat = 48 := rfl
  unfold digit?
  simp only [hrange, hzero]
  split
  · rename_i hc
    simp [hc, eq_comm]
  · rename_i hc
    simp [hc]

theorem digitChar_sub {c : Char} (h : 48 ≤ c.toNat ∧ c.toNat ≤ 57) :
    Nat.digitChar (c.toNat - 48) = c := by
  apply Char.toNat_inj.mp
  rw [Nat.toNat_digitChar_of_lt_ten (by omega)]
  omega

/-- Reading digits that follow those of a number gives a number that has all of them. -/
theorem toDigits_of_digitsOnto? {start n : Nat} {chars : List Char} (hstart : 0 < start)
    (h : digitsOnto? start chars = some n) :
    Nat.toDigits 10 start ++ chars = Nat.toDigits 10 n := by
  induction chars generalizing start with
  | nil =>
    cases h
    exact List.append_nil _
  | cons c rest ih =>
    rw [digitsOnto?] at h
    obtain ⟨d, hd, hrest⟩ := Option.bind_eq_some_iff.mp h
    obtain ⟨hc, rfl⟩ := digit?_eq_some_iff.mp hd
    have hlt : c.toNat - 48 < 10 := by omega
    have hstep : Nat.toDigits 10 start ++ [c] = Nat.toDigits 10 (10 * start + (c.toNat - 48)) := by
      rw [← Nat.toDigits_append_toDigits (by decide) hstart hlt, Nat.toDigits_of_lt_base hlt,
        digitChar_sub hc]
    calc Nat.toDigits 10 start ++ c :: rest
        = (Nat.toDigits 10 start ++ [c]) ++ rest := by simp
      _ = Nat.toDigits 10 (10 * start + (c.toNat - 48)) ++ rest := by rw [hstep]
      _ = Nat.toDigits 10 n := ih (by omega) hrest

/-- Digits are read as the number they denote. -/
theorem digitsOnto?_eq {chars : List Char} (h : ∀ c ∈ chars, c.isDigit = true) (start : Nat) :
    digitsOnto? start chars = some (Nat.ofDigitChars 10 chars start) := by
  induction chars generalizing start with
  | nil => rfl
  | cons c rest ih =>
    have hc : 48 ≤ c.toNat ∧ c.toNat ≤ 57 := by
      have hdigit : 48 ≤ c.val ∧ c.val ≤ 57 := by simpa [Char.isDigit] using h c List.mem_cons_self
      exact hdigit
    have hd : digit? c = some (c.toNat - 48) := digit?_eq_some_iff.mpr ⟨hc, rfl⟩
    rw [digitsOnto?, hd, Nat.ofDigitChars_cons]
    exact ih (fun d hd => h d (List.mem_cons_of_mem c hd)) _

/-- The digits of a number other than zero do not begin with a zero. -/
theorem head?_toDigits {n : Nat} (h : 0 < n) : (Nat.toDigits 10 n).head? ≠ some '0' := by
  induction n using Nat.strong_induction_on with
  | _ n ih =>
    by_cases hlt : n < 10
    · rw [Nat.toDigits_of_lt_base hlt]
      intro heq
      have hchar : n.digitChar.toNat = 48 := congrArg Char.toNat (Option.some.inj heq)
      rw [Nat.toNat_digitChar_of_lt_ten hlt] at hchar
      omega
    · rw [Nat.toDigits_of_base_le (by decide) (by omega),
        List.head?_append_of_ne_nil _ Nat.toDigits_ne_nil]
      exact ih (n / 10) (by omega) (by omega)

/-- Digits that do not begin with a zero, or are one zero alone, are those of the number they are read
as. -/
theorem toDigits_of_canonical {c : Char} {rest : List Char} {n : Nat} (hlead : c ≠ '0' ∨ rest = [])
    (h : digitsOnto? 0 (c :: rest) = some n) : c :: rest = Nat.toDigits 10 n := by
  rw [digitsOnto?] at h
  obtain ⟨d, hd, hrest⟩ := Option.bind_eq_some_iff.mp h
  obtain ⟨hc, rfl⟩ := digit?_eq_some_iff.mp hd
  have hone : Nat.toDigits 10 (c.toNat - 48) = [c] := by
    rw [Nat.toDigits_of_lt_base (by omega), digitChar_sub hc]
  rw [Nat.mul_zero, Nat.zero_add] at hrest
  by_cases hzero : c = '0'
  · -- only the text of zero begins with a zero
    have hnil : rest = [] := hlead.resolve_left (absurd hzero)
    subst hnil
    cases hrest
    exact hone.symm
  · have hpos : 0 < c.toNat - 48 := by
      have hne : c.toNat ≠ 48 := fun heq => hzero (Char.toNat_inj.mp heq)
      omega
    have hall := toDigits_of_digitsOnto? hpos hrest
    rw [hone] at hall
    exact hall

theorem eq_toString_iff {text : String} {n : Nat} :
    text = toString n ↔ text.toList = Nat.toDigits 10 n := by
  rw [Nat.toString_eq_ofList_toDigits]
  exact ⟨fun h => by rw [h, String.toList_ofList], fun h => by rw [← h, String.ofList_toList]⟩

/-- A text is read as an index iff it is the decimal text of a number of 64 bits. -/
theorem index?_eq_some_iff {text : String} {n : Nat} :
    index? text = some n ↔ n < longModulus ∧ text = toString n := by
  rw [eq_toString_iff]
  unfold index?
  cases hchars : text.toList with
  | nil => simp [Nat.toDigits_ne_nil.symm]
  | cons c rest =>
    constructor
    · intro h
      simp only [Option.bind_eq_bind, Option.bind_eq_some_iff, Option.guard_eq_some'] at h
      obtain ⟨_, hlead, m, hread, _, hlt, hm⟩ := h
      cases hm
      exact ⟨hlt, toDigits_of_canonical hlead hread⟩
    · rintro ⟨hlt, hdigits⟩
      have hread : digitsOnto? 0 (c :: rest) = some n := by
        rw [hdigits,
          digitsOnto?_eq fun d hd => Nat.isDigit_of_mem_toDigits (by decide) (by decide) hd,
          Nat.ofDigitChars_ten_toDigits]
      have hlead : c ≠ '0' ∨ rest = [] := by
        rcases Nat.eq_zero_or_pos n with rfl | hpos
        · rw [Nat.toDigits_zero] at hdigits
          exact .inr (List.cons.inj hdigits).2
        · refine .inl fun hc => head?_toDigits hpos ?_
          rw [← hdigits, hc]
          rfl
      simp [hread, hlead, hlt]

theorem index?_eq_none_iff {text : String} :
    index? text = none ↔ ∀ n < longModulus, text ≠ toString n := by
  rw [Option.eq_none_iff_forall_ne_some]
  constructor
  · intro h n hn heq
    exact h n (index?_eq_some_iff.mpr ⟨hn, heq⟩)
  · intro h n heq
    obtain ⟨hn, htext⟩ := index?_eq_some_iff.mp heq
    exact h n hn htext

/-- What can keep a text from denoting an index. -/
inductive NoIndex (text : String) : Prop where
  /-- There is nothing in it. -/
  | empty (h : text = "")
  /-- A character is none of the ten digits: a sign, a blank, a digit of another script. -/
  | stray {c : Char} (mem : c ∈ text.toList) (h : c.isDigit = false)
  /-- A zero stands before other characters. -/
  | leadingZero {rest : List Char} (more : rest ≠ []) (h : text.toList = '0' :: rest)
  /-- The number is too large. -/
  | tooLarge {n : Nat} (large : longModulus ≤ n) (h : text = toString n)

theorem NoIndex.ne_toString {text : String} (h : NoIndex text) {n : Nat} (hn : n < longModulus) :
    text ≠ toString n := by
  intro heq
  have hdigits := eq_toString_iff.mp heq
  cases h with
  | empty h =>
    rw [h, String.toList_empty] at hdigits
    exact Nat.toDigits_ne_nil hdigits.symm
  | stray mem h =>
    rw [hdigits] at mem
    rw [Nat.isDigit_of_mem_toDigits (by decide) (by decide) mem] at h
    cases h
  | leadingZero more h =>
    rw [h] at hdigits
    rcases Nat.eq_zero_or_pos n with rfl | hpos
    · rw [Nat.toDigits_zero] at hdigits
      exact more (List.cons.inj hdigits).2
    · refine head?_toDigits hpos ?_
      rw [← hdigits]
      rfl
  | tooLarge large h =>
    have hsame : n = _ := Nat.repr_inj.mp (heq.symm.trans h)
    omega

/-- A text denotes no index for one of four reasons, and for no other. -/
theorem index?_eq_none_iff_noIndex {text : String} : index? text = none ↔ NoIndex text := by
  rw [index?_eq_none_iff]
  refine ⟨fun h => ?_, fun h n hn => h.ne_toString hn⟩
  by_cases hstray : ∃ c ∈ text.toList, c.isDigit = false
  · obtain ⟨c, hmem, hc⟩ := hstray
    exact .stray hmem hc
  have hall : ∀ c ∈ text.toList, c.isDigit = true := by simpa using hstray
  have hread := digitsOnto?_eq hall 0
  cases hchars : text.toList with
  | nil => exact .empty (String.toList_eq_nil_iff.mp hchars)
  | cons c rest =>
    by_cases hlead : c ≠ '0' ∨ rest = []
    · rw [hchars] at hread
      have htext := eq_toString_iff.mpr (hchars.trans (toDigits_of_canonical hlead hread))
      exact .tooLarge (Nat.le_of_not_lt fun hlt => h _ hlt htext) htext
    · rw [not_or, not_not] at hlead
      exact .leadingZero hlead.2 (hchars.trans (hlead.1 ▸ rfl))

end FlatSyntax.Text
