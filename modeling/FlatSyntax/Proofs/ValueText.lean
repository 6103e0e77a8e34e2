import Mathlib
import FlatSyntax.Proofs.Entries
import FlatSyntax.Proofs.NumberText
import FlatSyntax.Value.Printer

/-!
# Printed values are read back

The text of a plain value is a JSON document, and reading it gives the value again. Strings and keys
are read back character by character: an escape is read as the character that it was written for.
Arrays and objects are read back item by item: the text of an item is followed by a comma or a closing
bracket, with which no number goes on.

Control characters and line separators are always escaped, so none of them stands in the text.
-/

namespace FlatSyntax

/-! ## Escapes -/

namespace Text

open Json

variable {c d : Char} {rest : List Char}

/-- A character is neither a control character nor one of the line separators. -/
def Visible (c : Char) : Prop := isControl c = false ∧ c.toNat ≠ 0x2028 ∧ c.toNat ≠ 0x2029

instance : DecidablePred Visible := fun _ => inferInstanceAs (Decidable (_ ∧ _ ∧ _))

theorem visible_of_toNat (h : 0x20 ≤ c.toNat) (h' : c.toNat < 0x7f) : Visible c := by
  refine ⟨?_, by omega, by omega⟩
  simp only [isControl, Bool.or_eq_false_iff, Bool.and_eq_false_iff, decide_eq_false_iff_not]
  omega

theorem visible_of_hexDigit? (h : (hexDigit? c).isSome = true) : Visible c := by
  have hrange : ∀ low high : Char, 0x20 ≤ low.toNat → high.toNat < 0x7f → low ≤ c ∧ c ≤ high →
      Visible c := fun _ _ hlow hhigh hc =>
    visible_of_toNat (Nat.le_trans hlow hc.1) (Nat.lt_of_le_of_lt hc.2 hhigh)
  unfold hexDigit? at h
  split_ifs at h with hdecimal hlower hupper
  · exact hrange '0' '9' (by decide) (by decide) hdecimal
  · exact hrange 'a' 'f' (by decide) (by decide) hlower
  · exact hrange 'A' 'F' (by decide) (by decide) hupper
  · cases h

/-- What is written by code point is read back from four digits. -/
theorem hexOnto?_hex4 {n : Nat} (h : n < 160 ∨ n = 0x2028 ∨ n = 0x2029) :
    hexOnto? 0 (hex4 n) = some n ∧ (hex4 n).length = 4 := by
  have hcontrol : ∀ n < 160, hexOnto? 0 (hex4 n) = some n ∧ (hex4 n).length = 4 := by
    decide +kernel
  rcases h with h | rfl | rfl
  · exact hcontrol n h
  · decide
  · decide

theorem unit?_hex4 {n : Nat} (h : n < 160 ∨ n = 0x2028 ∨ n = 0x2029) :
    unit? (hex4 n ++ rest) = some (n, rest) := by
  obtain ⟨hread, hlength⟩ := hexOnto?_hex4 h
  have htake : (hex4 n ++ rest).take 4 = hex4 n := hlength ▸ List.take_left
  have hdrop : (hex4 n ++ rest).drop 4 = rest := hlength ▸ List.drop_left
  rw [unit?, if_pos (by rw [List.length_append]; omega), htake, hdrop, hread]
  rfl

theorem toNat_of_escaped (h : (c.toNat = 0x2028 || c.toNat = 0x2029 || isControl c) = true) :
    c.toNat < 160 ∨ c.toNat = 0x2028 ∨ c.toNat = 0x2029 := by
  simp only [isControl, Bool.or_eq_true, Bool.and_eq_true, decide_eq_true_eq] at h
  omega

/-- An escape is read as its character. -/
theorem character?_escape (c : Char) (rest : List Char) :
    character? (escape c ++ rest) = some (c, rest) := by
  unfold escape
  split_ifs with hquote hbackslash hnewline hreturn htab hunit
  · rw [hquote]
    rfl
  · rw [hbackslash]
    rfl
  · rw [hnewline]
    rfl
  · rw [hreturn]
    rfl
  · rw [htab]
    rfl
  · have hrange := toNat_of_escaped hunit
    have hstrip : strip? ['u'] ('u' :: (hex4 c.toNat ++ rest)) = some (hex4 c.toNat ++ rest) :=
      strip?_eq_some_iff.mpr rfl
    have hhigh : ¬(0xd800 ≤ c.toNat ∧ c.toNat < 0xdc00) := by omega
    have hscalar : c.toNat < 0xdc00 ∨ 0xe000 ≤ c.toNat := by omega
    rw [List.cons_append, List.cons_append, character?, if_pos rfl, escaped?, hstrip]
    simp [unit?_hex4 hrange, hhigh, hscalar]
  · have hcontrol : ¬(c = '"' ∨ c.toNat < 0x20) := by
      simp only [isControl, Bool.or_eq_true, decide_eq_true_eq, not_or] at hunit
      exact fun h => h.elim hquote hunit.2.1
    rw [List.singleton_append, character?, if_neg hbackslash, if_neg hcontrol]

theorem strip?_quote_escape (c : Char) (rest : List Char) :
    strip? ['"'] (escape c ++ rest) = none := by
  refine strip?_eq_none fun h => ?_
  unfold escape at h
  split_ifs at h with hquote <;> first | exact hquote (Option.some.inj h) | cases h

/-- The characters of a text are read back. -/
theorem string?_flatMap_escape (text rest : List Char) :
    string? (text.flatMap escape ++ '"' :: rest) = some (text, rest) := by
  induction text with
  | nil =>
    have hclosed : strip? ['"'] ('"' :: rest) = some rest := strip?_eq_some_iff.mpr rfl
    rw [List.flatMap_nil, List.nil_append, string?, hclosed]
  | cons c text ih =>
    rw [List.flatMap_cons, List.append_assoc, string?, strip?_quote_escape]
    dsimp only
    split
    · rename_i hnone
      rw [character?_escape] at hnone
      cases hnone
    · rename_i c' rest' hsome
      rw [character?_escape] at hsome
      cases hsome
      rw [ih]
      rfl

theorem visible_of_mem_escape (h : d ∈ escape c) : Visible d := by
  have hshort : ∀ letter : Char, 0x20 ≤ letter.toNat → letter.toNat < 0x7f →
      d ∈ ['\\', letter] → Visible d := by
    intro letter hlow hhigh hmem
    rcases List.mem_cons.mp hmem with rfl | hmem
    · decide
    · rw [List.mem_singleton.mp hmem]
      exact visible_of_toNat hlow hhigh
  unfold escape at h
  split_ifs at h with hquote hbackslash hnewline hreturn htab hunit
  · exact hshort '"' (by decide) (by decide) h
  · exact hshort '\\' (by decide) (by decide) h
  · exact hshort 'n' (by decide) (by decide) h
  · exact hshort 'r' (by decide) (by decide) h
  · exact hshort 't' (by decide) (by decide) h
  · obtain ⟨hread, _⟩ := hexOnto?_hex4 (toNat_of_escaped hunit)
    rcases List.mem_cons.mp h with rfl | h
    · decide
    · rcases List.mem_cons.mp h with rfl | h
      · decide
      · exact visible_of_hexDigit? (isSome_hexDigit? hread d h)
  · simp only [Bool.or_eq_true, decide_eq_true_eq, not_or, Bool.not_eq_true] at hunit
    rw [List.mem_singleton.mp h]
    exact ⟨hunit.2, hunit.1⟩

theorem visible_of_mem_quoted {text : String} (h : c ∈ quoted text) : Visible c := by
  rw [quoted, List.cons_append, List.mem_cons, List.mem_append, List.mem_singleton] at h
  rcases h with rfl | h | rfl
  · decide
  · obtain ⟨d, _, hmem⟩ := List.mem_flatMap.mp h
    exact visible_of_mem_escape hmem
  · decide

end Text

/-! ## Values and their parts -/

namespace Value

open Json

/-- Induction over a value: what holds of an array or an object if it holds of the values in it. -/
theorem inductionOn {motive : Value → Prop} (v : Value) (null : motive .null)
    (boolean : ∀ b, motive (.boolean b)) (number : ∀ x, motive (.number x))
    (string : ∀ text, motive (.string text))
    (array : ∀ items, (∀ item ∈ items, motive item) → motive (.array items))
    (object : ∀ entries, (∀ key item, (key, item) ∈ entries → motive item) → motive (.object entries)) :
    motive v :=
  match v with
  | .null => null
  | .boolean b => boolean b
  | .number x => number x
  | .string text => string text
  | .array items =>
    array items fun item _ => item.inductionOn null boolean number string array object
  | .object entries =>
    object entries fun _ item _ => item.inductionOn null boolean number string array object
termination_by sizeOf v
decreasing_by
  · rename_i hmem
    have := List.sizeOf_lt_of_mem hmem
    simp only [Value.array.sizeOf_spec]
    omega
  · rename_i hmem
    have := List.sizeOf_lt_of_mem hmem
    simp only [Value.object.sizeOf_spec, Prod.mk.sizeOf_spec] at this ⊢
    omega

/-- A value is another, or stands in it at any depth. -/
inductive PartOf (v : Value) : Value → Prop where
  | refl : PartOf v v
  | item {item : Value} {items : List Value} (hmem : item ∈ items) (h : PartOf v item) :
      PartOf v (.array items)
  | entry {key : String} {item : Value} {entries : List (String × Value)}
      (hmem : (key, item) ∈ entries) (h : PartOf v item) : PartOf v (.object entries)

/-- No number in a value is infinite or a NaN. -/
def Finite (v : Value) : Prop := ∀ x, PartOf (.number x) v → x.isFinite = true

/-- The entries of every object in a value are sorted by key, each key once. -/
def Ordered (v : Value) : Prop := ∀ entries, PartOf (.object entries) v → Entries.Sorted entries

variable {v : Value} {items : List Value} {entries : List (String × Value)} {rest : List Char}

@[simp]
theorem partOf_array : PartOf v (.array items) ↔ v = .array items ∨ ∃ item ∈ items, PartOf v item := by
  constructor
  · rintro (_ | ⟨hmem, h⟩)
    · exact .inl rfl
    · exact .inr ⟨_, hmem, h⟩
  · rintro (rfl | ⟨item, hmem, h⟩)
    · exact .refl
    · exact .item hmem h

@[simp]
theorem partOf_object :
    PartOf v (.object entries) ↔ v = .object entries ∨ ∃ entry ∈ entries, PartOf v entry.2 := by
  constructor
  · rintro (_ | _ | ⟨hmem, h⟩)
    · exact .inl rfl
    · exact .inr ⟨_, hmem, h⟩
  · rintro (rfl | ⟨entry, hmem, h⟩)
    · exact .refl
    · exact .entry hmem h

/-- Nothing stands in what is neither an array nor an object. -/
theorem partOf_leaf {w : Value} (harray : w.array? = none) (hobject : w.object? = none) :
    PartOf v w ↔ v = w := by
  constructor
  · rintro (_ | _ | _)
    · rfl
    · cases harray
    · cases hobject
  · rintro rfl
    exact .refl

@[simp]
theorem partOf_null : PartOf v .null ↔ v = .null := partOf_leaf rfl rfl

@[simp]
theorem partOf_boolean {b : Bool} : PartOf v (.boolean b) ↔ v = .boolean b := partOf_leaf rfl rfl

@[simp]
theorem partOf_number {x : Double} : PartOf v (.number x) ↔ v = .number x := partOf_leaf rfl rfl

@[simp]
theorem partOf_string {text : String} : PartOf v (.string text) ↔ v = .string text :=
  partOf_leaf rfl rfl

/-! ## Text of arrays and objects -/

theorem itemsOnto_eq (h : ∀ item ∈ items, ∀ rest, item.charsOnto rest = item.chars ++ rest)
    (rest : List Char) : itemsOnto items rest = itemsOnto items [] ++ rest := by
  induction items with
  | nil => rfl
  | cons item more ih =>
    have hitem := h item List.mem_cons_self
    cases more with
    | nil => simp [itemsOnto, hitem]
    | cons next more =>
      have hmore := ih fun other hother => h other (List.mem_cons_of_mem _ hother)
      rw [itemsOnto, itemsOnto, hitem, hitem, hmore]
      simp

theorem entriesOnto_eq
    (h : ∀ key item, (key, item) ∈ entries → ∀ rest, item.charsOnto rest = item.chars ++ rest)
    (rest : List Char) : entriesOnto entries rest = entriesOnto entries [] ++ rest := by
  induction entries with
  | nil => rfl
  | cons entry more ih =>
    obtain ⟨key, item⟩ := entry
    have hitem := h key item List.mem_cons_self
    cases more with
    | nil => simp [entriesOnto, hitem]
    | cons next more =>
      have hmore := ih fun key' other hother => h key' other (List.mem_cons_of_mem _ hother)
      rw [entriesOnto, entriesOnto, hitem, hitem, hmore]
      simp

theorem charsOnto_eq (v : Value) (rest : List Char) : v.charsOnto rest = v.chars ++ rest := by
  induction v using inductionOn generalizing rest with
  | null => rfl
  | boolean b => simp [chars, charsOnto]
  | number x => simp [chars, charsOnto]
  | string text => simp [chars, charsOnto]
  | array items ih =>
    rw [chars, charsOnto, charsOnto, itemsOnto_eq ih rest]
    rfl
  | object entries ih =>
    rw [chars, charsOnto, charsOnto, entriesOnto_eq ih rest]
    rfl

theorem itemsOnto_singleton (item : Value) (rest : List Char) :
    itemsOnto [item] rest = item.chars ++ ']' :: rest := by
  rw [itemsOnto, charsOnto_eq]

theorem itemsOnto_cons_cons (item next : Value) (more : List Value) (rest : List Char) :
    itemsOnto (item :: next :: more) rest =
      item.chars ++ ',' :: itemsOnto (next :: more) rest := by
  rw [itemsOnto, charsOnto_eq]

theorem entriesOnto_singleton (key : String) (item : Value) (rest : List Char) :
    entriesOnto [(key, item)] rest = Text.quoted key ++ ':' :: (item.chars ++ '\x7d' :: rest) := by
  rw [entriesOnto, charsOnto_eq]

theorem entriesOnto_cons_cons (key : String) (item : Value) (next : String × Value)
    (more : List (String × Value)) (rest : List Char) :
    entriesOnto ((key, item) :: next :: more) rest =
      Text.quoted key ++ ':' :: (item.chars ++ ',' :: entriesOnto (next :: more) rest) := by
  rw [entriesOnto, charsOnto_eq]

/-! ## Reading back -/

/-- What the text of a value begins with cannot be taken for a blank or for the end of an array. -/
theorem exists_chars_cons (v : Value) :
    ∃ c cs, v.chars = c :: cs ∧ isBlank c = false ∧ c ≠ ']' := by
  have hdigit : ∀ c : Char, c.isDigit = true → isBlank c = false ∧ c ≠ ']' := by
    intro c hc
    have hne : ∀ d : Char, d.isDigit = false → c ≠ d := by
      rintro d hd rfl
      rw [hc] at hd
      cases hd
    simp [isBlank, hne ' ' rfl, hne '\t' rfl, hne '\n' rfl, hne '\r' rfl, hne ']' rfl]
  cases v with
  | null => exact ⟨'n', _, rfl, rfl, by decide⟩
  | boolean b =>
    cases b
    · exact ⟨'f', _, rfl, rfl, by decide⟩
    · exact ⟨'t', _, rfl, rfl, by decide⟩
  | number x =>
    cases hfinite : x.isFinite with
    | true =>
      obtain ⟨n, hchars, _⟩ := x.exists_numeral_text
      obtain ⟨c, cs, hcs, hc⟩ := n.exists_chars_cons
      refine ⟨c, cs, by simp [chars, charsOnto, hfinite, ← hchars, hcs], ?_⟩
      rcases hc with rfl | hc
      · decide
      · exact hdigit c hc
    | false => exact ⟨'n', _, by simp [chars, charsOnto, hfinite]; rfl, rfl, by decide⟩
  | string text => exact ⟨'"', _, rfl, rfl, by decide⟩
  | array items => exact ⟨'[', _, rfl, rfl, by decide⟩
  | object entries => exact ⟨'\x7b', _, rfl, rfl, by decide⟩

theorem skip_chars (v : Value) (rest : List Char) : skip (v.chars ++ rest) = v.chars ++ rest := by
  obtain ⟨c, cs, hcs, hblank, _⟩ := v.exists_chars_cons
  simp [hcs, skip, hblank]

/-- The text of a value is read back, whatever it is followed by. -/
def ReadsBack (v : Value) : Prop :=
  ∀ (steps : Nat) (rest : List Char), v.chars.length ≤ steps → Ended rest →
    value? steps (v.chars ++ rest) = some (v, rest)

theorem items?_itemsOnto {steps : Nat} (hne : items ≠ []) (h : ∀ item ∈ items, item.ReadsBack)
    (hsteps : (itemsOnto items []).length ≤ steps) :
    items? steps (itemsOnto items rest) = some (items, rest) := by
  induction items generalizing steps with
  | nil => exact absurd rfl hne
  | cons item more ih =>
    have hitem : item.ReadsBack := h item List.mem_cons_self
    cases more with
    | nil =>
      rw [itemsOnto_singleton, List.length_append, List.length_singleton] at hsteps
      obtain ⟨steps, rfl⟩ : ∃ n, steps = n + 1 := ⟨steps - 1, by omega⟩
      rw [items?, itemsOnto_singleton, skip_chars, hitem _ _ (by omega) (by simp [Ended])]
      rfl
    | cons next more =>
      have hothers : ∀ other ∈ next :: more, other.ReadsBack := fun other hother =>
        h other (List.mem_cons_of_mem _ hother)
      rw [itemsOnto_cons_cons, List.length_append, List.length_cons] at hsteps
      obtain ⟨steps, rfl⟩ : ∃ n, steps = n + 1 := ⟨steps - 1, by omega⟩
      rw [items?, itemsOnto_cons_cons, skip_chars, hitem _ _ (by omega) (by simp [Ended])]
      change (items? steps (itemsOnto (next :: more) rest)).map _ = _
      rw [ih (by simp) hothers (by omega)]
      rfl

/-- A key and its value are read back, whether or not another entry follows. -/
theorem entries?_quoted {steps : Nat} {key : String} {item : Value} (hitem : item.ReadsBack)
    (hsteps : item.chars.length ≤ steps) (rest : List Char) :
    entries? (steps + 1) (Text.quoted key ++ ':' :: (item.chars ++ '\x7d' :: rest)) =
        some ([(key, item)], rest) ∧
      entries? (steps + 1) (Text.quoted key ++ ':' :: (item.chars ++ ',' :: rest)) =
        (entries? steps rest).map fun more => ((key, item) :: more.1, more.2) := by
  have hopened : ∀ after, strip? ['"'] (skip (Text.quoted key ++ after)) =
      some (key.toList.flatMap Text.escape ++ '"' :: after) := by
    simp [Text.quoted, skip, isBlank, strip?]
  have hcolon : ∀ after, strip? [':'] (skip (':' :: after)) = some after := fun _ => rfl
  constructor
  · simp only [entries?, hopened, Text.string?_flatMap_escape, hcolon, skip_chars,
      hitem steps ('\x7d' :: rest) hsteps (by simp [Ended]), Option.bind_eq_bind, Option.bind_some,
      String.ofList_toList]
    rfl
  · simp only [entries?, hopened, Text.string?_flatMap_escape, hcolon, skip_chars,
      hitem steps (',' :: rest) hsteps (by simp [Ended]), Option.bind_eq_bind, Option.bind_some,
      String.ofList_toList]
    rfl

theorem entries?_entriesOnto {steps : Nat} (hne : entries ≠ [])
    (h : ∀ key item, (key, item) ∈ entries → item.ReadsBack)
    (hsteps : (entriesOnto entries []).length ≤ steps) :
    entries? steps (entriesOnto entries rest) = some (entries, rest) := by
  induction entries generalizing steps with
  | nil => exact absurd rfl hne
  | cons entry more ih =>
    obtain ⟨key, item⟩ := entry
    have hitem : item.ReadsBack := h key item List.mem_cons_self
    cases more with
    | nil =>
      rw [entriesOnto_singleton, List.length_append, List.length_cons, List.length_append] at hsteps
      obtain ⟨steps, rfl⟩ : ∃ n, steps = n + 1 := ⟨steps - 1, by omega⟩
      rw [entriesOnto_singleton]
      exact (entries?_quoted hitem (by omega) rest).1
    | cons next more =>
      have hothers : ∀ key' other, (key', other) ∈ next :: more → other.ReadsBack :=
        fun key' other hother => h key' other (List.mem_cons_of_mem _ hother)
      rw [entriesOnto_cons_cons, List.length_append, List.length_cons, List.length_append,
        List.length_cons] at hsteps
      obtain ⟨steps, rfl⟩ : ∃ n, steps = n + 1 := ⟨steps - 1, by omega⟩
      rw [entriesOnto_cons_cons, (entries?_quoted hitem (by omega) _).2,
        ih (by simp) hothers (by omega)]
      rfl

theorem value?_number {steps : Nat} {x : Double} (hfinite : x.isFinite = true) (hrest : Ended rest) :
    value? (steps + 1) (x.text.toList ++ rest) = some (.number x, rest) := by
  have hnumber := Double.number?_text hfinite hrest
  obtain ⟨n, hchars, _⟩ := x.exists_numeral_text
  obtain ⟨c, cs, hcs, hc⟩ := n.exists_chars_cons
  have hne : ∀ d : Char, d ≠ '-' → d.isDigit = false → c ≠ d := by
    rintro d hminus hdigit rfl
    rcases hc with hc | hc
    · exact hminus hc
    · rw [hdigit] at hc
      cases hc
  rw [← hchars, hcs] at hnumber ⊢
  rw [List.cons_append] at hnumber ⊢
  rw [value?, if_neg (hne '"' (by decide) rfl), if_neg (hne '[' (by decide) rfl),
    if_neg (hne '\x7b' (by decide) rfl), if_neg (hne 'n' (by decide) rfl),
    if_neg (hne 't' (by decide) rfl), if_neg (hne 'f' (by decide) rfl), hnumber]
  rfl

theorem value?_array {steps : Nat} (h : ∀ item ∈ items, item.ReadsBack)
    (hsteps : (itemsOnto items []).length ≤ steps) :
    value? (steps + 1) ('[' :: itemsOnto items rest) = some (.array items, rest) := by
  rw [value?, if_neg (by decide), if_pos rfl]
  cases items with
  | nil => rfl
  | cons item more =>
    have hopen : strip? [']'] (skip (itemsOnto (item :: more) rest)) = none := by
      obtain ⟨tail, htail⟩ : ∃ tail, itemsOnto (item :: more) rest = item.chars ++ tail := by
        cases more with
        | nil => exact ⟨_, itemsOnto_singleton ..⟩
        | cons next more => exact ⟨_, itemsOnto_cons_cons ..⟩
      obtain ⟨c, cs, hcs, _, hc⟩ := item.exists_chars_cons
      rw [htail, skip_chars, hcs]
      exact strip?_eq_none (by simpa using hc)
    rw [hopen, items?_itemsOnto (by simp) h hsteps]
    rfl

theorem value?_object {steps : Nat} (hsorted : Entries.Sorted entries)
    (h : ∀ key item, (key, item) ∈ entries → item.ReadsBack)
    (hsteps : (entriesOnto entries []).length ≤ steps) :
    value? (steps + 1) ('\x7b' :: entriesOnto entries rest) = some (.object entries, rest) := by
  rw [value?, if_neg (by decide), if_neg (by decide), if_pos rfl]
  cases entries with
  | nil => rfl
  | cons entry more =>
    have hopen : strip? ['\x7d'] (skip (entriesOnto (entry :: more) rest)) = none := by
      cases more with
      | nil => rfl
      | cons next more => rfl
    rw [hopen, entries?_entriesOnto (by simp) h hsteps]
    simp [Entries.ofList_of_sorted hsorted]

theorem readsBack (hfinite : v.Finite) (hordered : v.Ordered) : v.ReadsBack := by
  induction v using inductionOn with
  | null =>
    rintro (_ | steps) rest hsteps _
    · cases hsteps
    · rfl
  | boolean b =>
    rintro (_ | steps) rest hsteps _
    · cases b <;> cases hsteps
    · cases b <;> rfl
  | number x =>
    have hx : x.isFinite = true := hfinite x .refl
    have hchars : (Value.number x).chars = x.text.toList := by simp [chars, charsOnto, hx]
    rintro (_ | steps) rest hsteps hrest
    · obtain ⟨c, cs, hcs, _⟩ := (Value.number x).exists_chars_cons
      rw [hcs] at hsteps
      cases hsteps
    · rw [hchars]
      exact value?_number hx hrest
  | string text =>
    have hchars : ∀ rest, (Value.string text).chars ++ rest =
        '"' :: (text.toList.flatMap Text.escape ++ '"' :: rest) := by
      simp [chars, charsOnto, Text.quoted]
    rintro (_ | steps) rest hsteps _
    · cases hsteps
    · rw [hchars, value?, if_pos rfl, Text.string?_flatMap_escape]
      simp
  | array items ih =>
    have hitems : ∀ item ∈ items, item.ReadsBack := fun item hmem =>
      ih item hmem (fun x hx => hfinite x (.item hmem hx))
        fun entries hentries => hordered entries (.item hmem hentries)
    rintro (_ | steps) rest hsteps _
    · cases hsteps
    · rw [← charsOnto_eq]
      exact value?_array hitems (Nat.le_of_succ_le_succ hsteps)
  | object entries ih =>
    have hitems : ∀ key item, (key, item) ∈ entries → item.ReadsBack := fun key item hmem =>
      ih key item hmem (fun x hx => hfinite x (.entry hmem hx))
        fun entries hentries => hordered entries (.entry hmem hentries)
    rintro (_ | steps) rest hsteps _
    · cases hsteps
    · rw [← charsOnto_eq]
      exact value?_object (hordered entries .refl) hitems (Nat.le_of_succ_le_succ hsteps)

theorem parse_text (hfinite : v.Finite) (hordered : v.Ordered) : parse v.text = some v := by
  have hlength : v.text.length = v.chars.length := by
    simp [text]
  have hread := readsBack hfinite hordered v.chars.length [] (Nat.le_refl _) (by simp [Ended])
  have hskip := v.skip_chars []
  rw [List.append_nil] at hread hskip
  rw [parse, hlength, text, String.toList_ofList, hskip, hread]
  rfl

/-! ## Visible characters -/

theorem forall_visible_itemsOnto (h : ∀ item ∈ items, ∀ c ∈ item.chars, Text.Visible c) :
    ∀ c ∈ itemsOnto items [], Text.Visible c := by
  induction items with
  | nil => exact List.forall_mem_singleton.mpr (by decide)
  | cons item more ih =>
    have hitem := h item List.mem_cons_self
    cases more with
    | nil =>
      rw [itemsOnto_singleton]
      exact List.forall_mem_append.mpr ⟨hitem, List.forall_mem_singleton.mpr (by decide)⟩
    | cons next more =>
      have hmore := ih fun other hother => h other (List.mem_cons_of_mem _ hother)
      rw [itemsOnto_cons_cons]
      exact List.forall_mem_append.mpr ⟨hitem, List.forall_mem_cons.mpr ⟨by decide, hmore⟩⟩

theorem forall_visible_entriesOnto
    (h : ∀ key item, (key, item) ∈ entries → ∀ c ∈ item.chars, Text.Visible c) :
    ∀ c ∈ entriesOnto entries [], Text.Visible c := by
  induction entries with
  | nil => exact List.forall_mem_singleton.mpr (by decide)
  | cons entry more ih =>
    obtain ⟨key, item⟩ := entry
    have hkey : ∀ c ∈ Text.quoted key, Text.Visible c := fun _ => Text.visible_of_mem_quoted
    have hitem := h key item List.mem_cons_self
    cases more with
    | nil =>
      rw [entriesOnto_singleton]
      refine List.forall_mem_append.mpr ⟨hkey, List.forall_mem_cons.mpr ⟨by decide, ?_⟩⟩
      exact List.forall_mem_append.mpr ⟨hitem, List.forall_mem_singleton.mpr (by decide)⟩
    | cons next more =>
      have hmore := ih fun key' other hother => h key' other (List.mem_cons_of_mem _ hother)
      rw [entriesOnto_cons_cons]
      refine List.forall_mem_append.mpr ⟨hkey, List.forall_mem_cons.mpr ⟨by decide, ?_⟩⟩
      exact List.forall_mem_append.mpr ⟨hitem, List.forall_mem_cons.mpr ⟨by decide, hmore⟩⟩

theorem forall_visible_chars (v : Value) : ∀ c ∈ v.chars, Text.Visible c := by
  have hword : ∀ word : String, word.toList.all (fun c => decide (Text.Visible c)) = true →
      ∀ c ∈ word.toList, Text.Visible c := fun word h c hc =>
    of_decide_eq_true (List.all_eq_true.mp h c hc)
  induction v using inductionOn with
  | null => exact hword "null" (by decide)
  | boolean b =>
    rw [chars, charsOnto, List.append_nil]
    cases b with
    | false => exact hword "false" (by decide)
    | true => exact hword "true" (by decide)
  | number x =>
    rw [chars, charsOnto, List.append_nil]
    split
    · intro c hc
      obtain ⟨n, hchars, _⟩ := x.exists_numeral_text
      rcases n.mem_chars (hchars ▸ hc) with rfl | rfl | hdigit
      · decide
      · decide
      · have hrange : 48 ≤ c.val ∧ c.val ≤ 57 := by simpa [Char.isDigit] using hdigit
        have hlow : 48 ≤ c.toNat := hrange.1
        have hhigh : c.toNat ≤ 57 := hrange.2
        exact Text.visible_of_toNat (by omega) (by omega)
    · exact hword "null" (by decide)
  | string text =>
    rw [chars, charsOnto, List.append_nil]
    exact fun _ => Text.visible_of_mem_quoted
  | array items ih => exact List.forall_mem_cons.mpr ⟨by decide, forall_visible_itemsOnto ih⟩
  | object entries ih => exact List.forall_mem_cons.mpr ⟨by decide, forall_visible_entriesOnto ih⟩

/-! ## Texts are documents -/

/-- What the text of a value is. -/
structure PrintsJson (v : Value) : Prop where
  /-- It is a JSON document. -/
  document : IsElement v.text.toList
  /-- It holds no control character and no line separator. -/
  visible : ∀ c ∈ v.text.toList, Text.Visible c
  /-- Reading it gives the value again. -/
  parsed : parse v.text = some v
  /-- No other value has it. -/
  unique : ∀ w : Value, w.Finite → w.Ordered → w.text = v.text → w = v

theorem printsJson (hfinite : v.Finite) (hordered : v.Ordered) : v.PrintsJson where
  document := isElement_of_parse (parse_text hfinite hordered)
  visible := by
    rw [text, String.toList_ofList]
    exact v.forall_visible_chars
  parsed := parse_text hfinite hordered
  unique := by
    intro w hw hw' htext
    have hparsed := parse_text hw hw'
    rw [htext, parse_text hfinite hordered] at hparsed
    exact (Option.some.inj hparsed).symm

/-- Entries with empty parts, a key to be escaped, characters of all kinds, a negative zero and the
smallest positive number. -/
def intricate : List (String × Value) := [
  ("", .array []),
  ("\"\\\u2028", .array [.null, .boolean true, .string "\x00\n/\x7f\u0085é😀", .object []]),
  ("zero", .array [.number ⟨0x8000000000000000⟩, .number ⟨1⟩])]

theorem printsJson_intricate : (Value.object intricate).Finite ∧ (Value.object intricate).Ordered ∧
    (Value.object intricate).PrintsJson := by
  have hfinite : (Value.object intricate).Finite := by
    intro x hx
    have hcases : x = ⟨0x8000000000000000⟩ ∨ x = ⟨1⟩ := by
      simpa [intricate] using hx
    rcases hcases with rfl | rfl <;> decide
  have hordered : (Value.object intricate).Ordered := by
    intro entries hentries
    have hcases : entries = intricate ∨ entries = [] := by
      simpa [intricate] using hentries
    have hkeys : (intricate.map Prod.fst).Pairwise (· < ·) := by decide
    rcases hcases with rfl | rfl
    · exact List.pairwise_map.mp hkeys
    · exact .nil
  exact ⟨hfinite, hordered, printsJson hfinite hordered⟩

end Value

end FlatSyntax
