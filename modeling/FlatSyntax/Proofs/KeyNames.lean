import Mathlib
import FlatSyntax.Proofs.SequenceEdits

/-!
# What a name given to a sequence means

A name is one of three things: the decimal text of an index, the name of the length, or a name in
its own right. The first is taken as the index, and differs from it in nothing. The last gets a note
of its own and is listed among the keys, whatever it looks like: `-1`, `007` or a number past the
largest index are names like any other.
-/

namespace FlatSyntax.Session

variable {s : Session} {item : Link}

theorem notes_withNotes (hi : s.heap.Live item) (changed : Notes) :
    (s.withNotes item changed).notes item = changed := by
  obtain ⟨o, hget, _⟩ := hi
  unfold notes
  rw [get?_withNotes, if_pos rfl, hget]
  rfl

/-- Assigning to the text of an index is assigning to the index. -/
theorem exec_setNamed_text (s : Session) (item : Link) (index : UInt64) (value : Value) :
    s.exec (edit item (.setNamed (toString index.toNat) value)) =
      s.exec (edit item (.set index value)) := by
  have hsame : (s.notes item).edit item.extent.count (.setNamed (toString index.toNat) value) =
      (s.notes item).edit item.extent.count (.set index value) :=
    Notes.setNamed_text index.toNat_lt
  rw [exec_edit, exec_edit, hsame]

/-- A value is noted under a name, which is listed then, and nothing else is noted. -/
structure NotedAs (s t : Session) (item : Link) (name : String) (value : Value) : Prop where
  noted : (t.notes item).get? (.named name) = some value
  listed : .named name ∈ (t.notes item).keys item.extent.count
  rest : ∀ key, key ≠ .named name → (t.notes item).get? key = (s.notes item).get? key

theorem exec_setNamed_word (hi : s.heap.Live item) {name : String} (hother : name ≠ "length")
    (hword : ∀ n < longModulus, name ≠ toString n) (value : Value) :
    ∃ t, s.exec (edit item (.setNamed name value)) = (.ok (), t) ∧
      s.NotedAs t item name value := by
  have hassigns : Edit.Assigns (.setNamed name value) (.named name) value := .name value hword
  have hedit : (s.notes item).edit item.extent.count (.setNamed name value) =
      .ok (Entries.insert (.named name) value (s.notes item)) :=
    (Notes.edit_of_assigns hassigns).mpr ⟨.name hother hword, rfl⟩
  refine ⟨_, by rw [exec_edit, hedit], ?_⟩
  have hnoted := Notes.get?_edit_of_assigns hedit hassigns
  constructor <;> rw [notes_withNotes hi]
  · exact hnoted
  · have hname : SequenceKey.named name ∈ (Notes.names _).map .named :=
      List.mem_map_of_mem (Notes.mem_names.mpr (Option.isSome_of_eq_some hnoted))
    rw [← Notes.filter_named_eq] at hname
    exact List.mem_append_right _ hname
  · intro key hkey
    refine Notes.get?_edit_of_not_assigns hedit fun v hv => hkey ?_
    exact (hv.unique hassigns).1

/-- What the names given to a sequence mean. -/
structure TakesNames (s : Session) (item : Link) : Prop where
  /-- A text denotes an index iff it is the text of the index. -/
  denotes : ∀ (text : String) (index : UInt64),
    Text.index? text = some index.toNat ↔ text = (SequenceKey.index index.toNat).text
  /-- Indices are all that texts denote. -/
  bounded : ∀ {text : String} {n : Nat}, Text.index? text = some n → n < longModulus
  /-- A text is none of an index iff it is empty, has a character that is no digit, has a leading
  zero, or is the text of a larger number. -/
  others : ∀ text : String,
    (∀ index : UInt64, text ≠ (SequenceKey.index index.toNat).text) ↔ Text.NoIndex text
  /-- Assigning to the text of an index ends as assigning to the index does, in the same session. -/
  index : ∀ (index : UInt64) (value : Value),
    s.exec (edit item (.setNamed (SequenceKey.index index.toNat).text value)) =
      s.exec (edit item (.set index value))
  /-- Assigning to any other name than that of the length notes the value under the name. -/
  name : ∀ (name : String) (value : Value), name ≠ SequenceKey.length.text →
    (∀ index : UInt64, name ≠ (SequenceKey.index index.toNat).text) →
    ∃ t, s.exec (edit item (.setNamed name value)) = (.ok (), t) ∧
      s.NotedAs t item name value

theorem takesNames_of_live (hi : s.heap.Live item) : s.TakesNames item := by
  have hword : ∀ {text : String}, (∀ index : UInt64, text ≠ (SequenceKey.index index.toNat).text) ↔
      ∀ n < longModulus, text ≠ toString n := by
    intro text
    exact ⟨fun h n hn => h (UInt64.ofNatLT n hn), fun h index => h index.toNat index.toNat_lt⟩
  constructor
  · intro text index
    rw [Text.index?_eq_some_iff]
    exact and_iff_right index.toNat_lt
  · exact fun h => (Text.index?_eq_some_iff.mp h).1
  · intro text
    rw [hword, ← Text.index?_eq_none_iff, Text.index?_eq_none_iff_noIndex]
  · exact exec_setNamed_text s item
  · intro name value hother hindex
    exact exec_setNamed_word hi hother (hword.mp hindex) value

/-- A number one past the largest index is a name. -/
theorem takesNames_past_largest :
    holdingNumbers.heap.Live numbers ∧ Text.index? "18446744073709551616" = none ∧
      ∃ t, holdingNumbers.exec (edit numbers (.setNamed "18446744073709551616" .null)) =
          (.ok (), t) ∧
        holdingNumbers.NotedAs t numbers "18446744073709551616" .null := by
  have hnone : Text.index? "18446744073709551616" = none := by decide +kernel
  have hnames := takesNames_of_live numbers_live
  refine ⟨numbers_live, hnone, hnames.name _ _ (by decide) fun index htext => ?_⟩
  have hsome := (hnames.denotes _ index).mpr htext
  rw [hnone] at hsome
  cases hsome

end FlatSyntax.Session
