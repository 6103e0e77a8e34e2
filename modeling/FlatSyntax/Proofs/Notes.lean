import Mathlib
import FlatSyntax.Proofs.Entries
import FlatSyntax.Proofs.Index
import FlatSyntax.Proofs.Strings
import FlatSyntax.Sequence.Notes

/-!
# What can be noted beside a sequence

A change is either an assignment to a free key, an index past the end or a name that means nothing
else, or it is refused. From this: which keys are ever stored, which value a key has after an
assignment, and in what order the keys are listed.
-/

namespace FlatSyntax

/-! ## The order of texts -/

namespace Utf8

theorem cons_lt_of_lt {m n : Nat} (x y : List UInt8) (hn : n < 256) (h : m < n) :
    UInt8.ofNat m :: x < UInt8.ofNat n :: y := by
  refine List.cons_lt_cons_iff.mpr (.inl ?_)
  rw [UInt8.lt_iff_toNat_lt, UInt8.toNat_ofNat', UInt8.toNat_ofNat']
  omega

theorem cons_lt_of_le {m n : Nat} {x y : List UInt8} (hn : n < 256) (hle : m ≤ n)
    (hrest : m = n → x < y) : UInt8.ofNat m :: x < UInt8.ofNat n :: y := by
  rcases hle.lt_or_eq with hlt | rfl
  · exact cons_lt_of_lt x y hn hlt
  · exact List.cons_lt_cons_iff.mpr (.inr ⟨rfl, hrest rfl⟩)

/-- The bytes of a smaller character are smaller, whatever follows them. -/
theorem encodeChar_append_lt {a b : Char} (h : a < b) (x y : List UInt8) :
    String.utf8EncodeChar a ++ x < String.utf8EncodeChar b ++ y := by
  have hlt : a.val.toNat < b.val.toNat := UInt32.lt_iff_toNat_lt.mp h
  have hmost : b.val.toNat < 0x110000 := by
    rcases b.valid with hb | hb
    · exact hb.trans (by decide)
    · exact hb.2
  simp only [String.utf8EncodeChar]
  generalize a.val.toNat = m at hlt
  generalize b.val.toNat = n at hlt hmost
  -- a longer character begins with a greater byte; in characters of one length the bytes are the
  -- digits of the code point to the base 64
  by_cases hn₁ : n ≤ 127
  · rw [if_pos hn₁, if_pos (by omega)]
    exact cons_lt_of_lt _ _ (by omega) hlt
  rw [if_neg hn₁]
  by_cases hn₂ : n ≤ 2047
  · rw [if_pos hn₂]
    by_cases hm₁ : m ≤ 127
    · rw [if_pos hm₁]
      exact cons_lt_of_lt _ _ (by omega) (by omega)
    rw [if_neg hm₁, if_pos (by omega)]
    exact cons_lt_of_le (by omega) (by omega) fun _ => cons_lt_of_lt _ _ (by omega) (by omega)
  rw [if_neg hn₂]
  by_cases hn₃ : n ≤ 65535
  · rw [if_pos hn₃]
    by_cases hm₁ : m ≤ 127
    · rw [if_pos hm₁]
      exact cons_lt_of_lt _ _ (by omega) (by omega)
    rw [if_neg hm₁]
    by_cases hm₂ : m ≤ 2047
    · rw [if_pos hm₂]
      exact cons_lt_of_lt _ _ (by omega) (by omega)
    rw [if_neg hm₂, if_pos (by omega)]
    exact cons_lt_of_le (by omega) (by omega) fun _ => cons_lt_of_le (by omega) (by omega)
      fun _ => cons_lt_of_lt _ _ (by omega) (by omega)
  rw [if_neg hn₃]
  by_cases hm₁ : m ≤ 127
  · rw [if_pos hm₁]
    exact cons_lt_of_lt _ _ (by omega) (by omega)
  rw [if_neg hm₁]
  by_cases hm₂ : m ≤ 2047
  · rw [if_pos hm₂]
    exact cons_lt_of_lt _ _ (by omega) (by omega)
  rw [if_neg hm₂]
  by_cases hm₃ : m ≤ 65535
  · rw [if_pos hm₃]
    exact cons_lt_of_lt _ _ (by omega) (by omega)
  rw [if_neg hm₃]
  exact cons_lt_of_le (by omega) (by omega) fun _ => cons_lt_of_le (by omega) (by omega)
    fun _ => cons_lt_of_le (by omega) (by omega) fun _ => cons_lt_of_lt _ _ (by omega) (by omega)

/-- Texts in the order of their characters are in the order of their bytes. -/
theorem encode_lt {s t : String} (h : s < t) : encode s < encode t := by
  have h : List.Lex (· < ·) s.toList t.toList := String.lt_iff_toList_lt.mp h
  rw [encode_eq, encode_eq]
  generalize s.toList = a at h
  generalize t.toList = b at h
  induction h with
  | @nil c rest =>
    rw [List.flatMap_nil, List.flatMap_cons]
    cases hc : String.utf8EncodeChar c with
    | nil => exact absurd hc String.utf8EncodeChar_ne_nil
    | cons byte bytes => exact List.nil_lt_cons ..
  | rel hab =>
    rw [List.flatMap_cons, List.flatMap_cons]
    exact encodeChar_append_lt hab _ _
  | cons _ ih =>
    rw [List.flatMap_cons, List.flatMap_cons]
    exact List.append_left_lt ih

end Utf8

/-! ## The order of keys -/

namespace SequenceKey

variable {a b c : SequenceKey}

theorem index_lt_index {m n : Nat} : index m < index n ↔ m < n := by
  change less (index m) (index n) = true ↔ m < n
  simp [less]

theorem named_lt_named {s t : String} : named s < named t ↔ s < t := by
  change less (named s) (named t) = true ↔ s < t
  simp [less]

theorem less_irrefl (a : SequenceKey) : ¬ a < a := by
  cases a with
  | index n => exact fun h => Nat.lt_irrefl n (index_lt_index.mp h)
  | length => exact Bool.false_ne_true
  | named s => exact fun h => lt_irrefl s (named_lt_named.mp h)

theorem less_trans (hab : a < b) (hbc : b < c) : a < c := by
  change less a b = true at hab
  change less b c = true at hbc
  change less a c = true
  cases a <;> cases b <;> cases c <;> simp_all only [less, decide_eq_true_eq, Bool.false_eq_true]
  · exact hab.trans hbc
  · exact lt_trans hab hbc

theorem less_trichotomous (a b : SequenceKey) (hab : ¬ a < b) (hba : ¬ b < a) : a = b := by
  cases a with
  | index m =>
    cases b with
    | index n =>
      rw [index_lt_index] at hab hba
      rw [show m = n by omega]
    | length => exact absurd rfl hab
    | named t => exact absurd rfl hab
  | length =>
    cases b with
    | index n => exact absurd rfl hba
    | length => rfl
    | named t => exact absurd rfl hab
  | named s =>
    cases b with
    | index n => exact absurd rfl hba
    | length => exact absurd rfl hba
    | named t =>
      rw [named_lt_named] at hab hba
      rw [le_antisymm (not_lt.mp hba) (not_lt.mp hab)]

instance : IsStrictTotalOrder SequenceKey (· < ·) where
  irrefl := less_irrefl
  trans _ _ _ := less_trans
  trichotomous := less_trichotomous

/-- The keys that values can be noted under, beside `count` elements. -/
inductive Free (count : Nat) : SequenceKey → Prop where
  /-- An index past the end. -/
  | past {n : Nat} (past : count ≤ n) (bounded : n < longModulus) : Free count (.index n)
  /-- A name that is neither that of the length nor the decimal text of an index. -/
  | name {name : String} (other : name ≠ "length")
      (word : ∀ n < longModulus, name ≠ toString n) : Free count (.named name)

theorem toString_ne_length (n : Nat) : toString n ≠ "length" := by
  intro h
  have hdigits : ∀ d ∈ (toString n).toList, d.isDigit = true := by
    intro d hd
    rw [Nat.toString_eq_repr, Nat.toList_repr] at hd
    exact Nat.isDigit_of_mem_toDigits (by decide) (by decide) hd
  have hl := hdigits 'l' (by rw [h]; decide)
  exact absurd hl (by decide)

/-- A key whose text means it and no other key. -/
def Plain : SequenceKey → Prop
  | .index n => n < longModulus
  | .length => True
  | .named name => name ≠ "length" ∧ ∀ n < longModulus, name ≠ toString n

theorem Free.plain {count : Nat} (h : Free count a) : a.Plain := by
  cases h with
  | past _ bounded => exact bounded
  | name other word => exact ⟨other, word⟩

theorem eq_of_text_eq (ha : a.Plain) (hb : b.Plain) (h : a.text = b.text) : a = b := by
  cases a with
  | index m =>
    cases b with
    | index n => rw [Nat.repr_inj.mp h]
    | length => exact absurd h (toString_ne_length m)
    | named t => exact absurd h.symm (hb.2 m ha)
  | length =>
    cases b with
    | index n => exact absurd h.symm (toString_ne_length n)
    | length => rfl
    | named t => exact absurd h.symm hb.1
  | named s =>
    cases b with
    | index n => exact absurd h (ha.2 n hb)
    | length => exact absurd h ha.1
    | named t => exact congrArg named h

end SequenceKey

open SequenceKey

/-! ## Changes -/

/-- A change assigns a value to a key. By name, the decimal text of an index is that index. -/
inductive Edit.Assigns : Edit → SequenceKey → Value → Prop where
  | index (index : UInt64) (value : Value) : Assigns (.set index value) (.index index.toNat) value
  | text (index : UInt64) (value : Value) :
      Assigns (.setNamed (toString index.toNat) value) (.index index.toNat) value
  | name {name : String} (value : Value) (word : ∀ n < longModulus, name ≠ toString n) :
      Assigns (.setNamed name value) (.named name) value

theorem Edit.Assigns.unique {e : Edit} {key key' : SequenceKey} {value value' : Value}
    (h : e.Assigns key value) (h' : e.Assigns key' value') : key = key' ∧ value = value' := by
  cases h with
  | index => cases h'; exact ⟨rfl, rfl⟩
  | text index =>
    generalize hname : toString index.toNat = name at h'
    cases h' with
    | text =>
      rw [Nat.repr_inj.mp hname]
      exact ⟨rfl, rfl⟩
    | name _ word => exact absurd hname.symm (word index.toNat index.toNat_lt)
  | name _ word =>
    cases h' with
    | text index => exact absurd rfl (word index.toNat index.toNat_lt)
    | name => exact ⟨rfl, rfl⟩

namespace Notes

variable {count : Nat} {notes changed : Notes} {e : Edit} {key : SequenceKey} {value : Value}

theorem set_eq_ok_iff {index : Nat} (hindex : index < longModulus) :
    notes.set count index value = .ok changed ↔
      Free count (.index index) ∧ changed = Entries.insert (.index index) value notes := by
  unfold set
  split
  · rename_i hlt
    refine ⟨fun h => (by cases h), fun ⟨hfree, _⟩ => ?_⟩
    cases hfree with
    | past past => omega
  · rename_i hge
    rw [Except.ok.injEq, eq_comm]
    exact ⟨fun h => ⟨.past (by omega) hindex, h⟩, And.right⟩

theorem setNamed_text {index : Nat} (hindex : index < longModulus) :
    notes.setNamed count (toString index) value = notes.set count index value := by
  unfold setNamed
  rw [if_neg (toString_ne_length index), Text.index?_eq_some_iff.mpr ⟨hindex, rfl⟩]

theorem setNamed_eq_ok_iff {name : String} (word : ∀ n < longModulus, name ≠ toString n) :
    notes.setNamed count name value = .ok changed ↔
      Free count (.named name) ∧ changed = Entries.insert (.named name) value notes := by
  unfold setNamed
  rw [Text.index?_eq_none_iff.mpr word]
  split
  · rename_i hlength
    refine ⟨fun h => (by cases h), fun ⟨hfree, _⟩ => ?_⟩
    cases hfree with
    | name other => exact absurd hlength other
  · rename_i hother
    rw [Except.ok.injEq, eq_comm]
    exact ⟨fun h => ⟨.name hother word, h⟩, And.right⟩

/-- A change that assigns is made if and only if the key is free. -/
theorem edit_of_assigns (h : e.Assigns key value) :
    notes.edit count e = .ok changed ↔
      Free count key ∧ changed = Entries.insert key value notes := by
  cases h with
  | index index => exact set_eq_ok_iff index.toNat_lt
  | text index =>
    change notes.setNamed count (toString index.toNat) value = .ok changed ↔ _
    rw [setNamed_text index.toNat_lt]
    exact set_eq_ok_iff index.toNat_lt
  | name _ word => exact setNamed_eq_ok_iff word

theorem assigns_of_edit_eq_ok (h : notes.edit count e = .ok changed) :
    ∃ key value, e.Assigns key value := by
  cases e with
  | set index value => exact ⟨_, _, .index index value⟩
  | setNamed name value =>
    cases hindex : Text.index? name with
    | none => exact ⟨_, _, .name value (Text.index?_eq_none_iff.mp hindex)⟩
    | some n =>
      obtain ⟨hn, rfl⟩ := Text.index?_eq_some_iff.mp hindex
      have htext := Edit.Assigns.text (UInt64.ofNatLT n hn) value
      exact ⟨_, _, htext⟩
  | setLength length => cases h
  | push value => cases h
  | pop => cases h
  | insert index value => cases h
  | remove index => cases h
  | reverse => cases h
  | sort => cases h

/-- The changes that are made are the assignments to free keys. -/
theorem edit_eq_ok_iff :
    notes.edit count e = .ok changed ↔
      ∃ key value, e.Assigns key value ∧ Free count key ∧
        changed = Entries.insert key value notes := by
  constructor
  · intro h
    obtain ⟨key, value, hassigns⟩ := assigns_of_edit_eq_ok h
    exact ⟨key, value, hassigns, (edit_of_assigns hassigns).mp h⟩
  · rintro ⟨key, value, hassigns, hmade⟩
    exact (edit_of_assigns hassigns).mpr hmade

theorem get?_edit_of_assigns (h : notes.edit count e = .ok changed) (ha : e.Assigns key value) :
    changed.get? key = some value := by
  obtain ⟨_, rfl⟩ := (edit_of_assigns ha).mp h
  unfold get?
  rw [Entries.get?_insert, if_pos rfl]

theorem get?_edit_of_not_assigns (h : notes.edit count e = .ok changed)
    (ha : ∀ value, ¬ e.Assigns key value) : changed.get? key = notes.get? key := by
  obtain ⟨key', value, hassigns, _, rfl⟩ := edit_eq_ok_iff.mp h
  unfold get?
  rw [Entries.get?_insert, if_neg]
  rintro rfl
  exact ha value hassigns

/-- The value that was assigned to a key last, by changes that were made or refused, the latest
first. -/
inductive LastAssigned (key : SequenceKey) (value : Value) :
    List (Edit × Except Fault Unit) → Prop where
  /-- The latest change assigns the value. -/
  | here {e : Edit} {log : List (Edit × Except Fault Unit)} (assigns : e.Assigns key value) :
      LastAssigned key value ((e, .ok ()) :: log)
  /-- The latest change was refused or assigns to another key. -/
  | earlier {e : Edit} {outcome : Except Fault Unit} {log : List (Edit × Except Fault Unit)}
      (other : outcome = .ok () → ∀ v, ¬ e.Assigns key v) (before : LastAssigned key value log) :
      LastAssigned key value ((e, outcome) :: log)

variable {log : List (Edit × Except Fault Unit)}

theorem lastAssigned_refused {fault : Fault} :
    LastAssigned key value ((e, .error fault) :: log) ↔ LastAssigned key value log := by
  constructor
  · intro h
    cases h with
    | earlier _ before => exact before
  · exact .earlier fun h => by cases h

theorem get?_edit_iff (h : notes.edit count e = .ok changed)
    (hlog : notes.get? key = some value ↔ LastAssigned key value log) :
    changed.get? key = some value ↔ LastAssigned key value ((e, .ok ()) :: log) := by
  by_cases ha : ∃ v, e.Assigns key v
  · obtain ⟨v, hv⟩ := ha
    rw [get?_edit_of_assigns h hv, Option.some.injEq]
    constructor
    · rintro rfl
      exact .here hv
    · intro hlast
      cases hlast with
      | here assigns => exact (hv.unique assigns).2
      | earlier other _ => exact absurd hv (other rfl v)
  · have ha : ∀ v, ¬ e.Assigns key v := not_exists.mp ha
    rw [get?_edit_of_not_assigns h ha, hlog]
    constructor
    · exact .earlier fun _ => ha
    · intro hlast
      cases hlast with
      | here assigns => exact absurd assigns (ha value)
      | earlier _ before => exact before

/-! ## Notes that changes lead to -/

/-- Notes in the order of their keys, under free keys only. -/
structure Proper (count : Nat) (notes : Notes) : Prop where
  sorted : Entries.Sorted notes
  free : ∀ entry ∈ notes, Free count entry.1

theorem Proper.nil (count : Nat) : Proper count [] := ⟨.nil, by simp⟩

theorem Proper.edit (h : Proper count notes) (he : notes.edit count e = .ok changed) :
    Proper count changed := by
  obtain ⟨key, value, _, hfree, rfl⟩ := edit_eq_ok_iff.mp he
  refine ⟨Entries.sorted_insert h.sorted key value, fun entry hentry => ?_⟩
  rcases Entries.mem_insert hentry with rfl | hentry
  · exact hfree
  · exact h.free entry hentry

theorem isSome_get?_iff : (notes.get? key).isSome ↔ key ∈ notes.map Prod.fst := by
  unfold get?
  exact Entries.isSome_get?_iff

theorem Proper.free_of_isSome (h : Proper count notes) (hkey : (notes.get? key).isSome) :
    Free count key := by
  obtain ⟨entry, hentry, rfl⟩ := List.mem_map.mp (isSome_get?_iff.mp hkey)
  exact h.free entry hentry

/-! ## Keys -/

/-- The indices that values are noted under. -/
def indices (notes : Notes) : List Nat :=
  notes.filterMap fun entry => match entry.1 with | .index n => some n | _ => none

/-- The names that values are noted under. -/
def names (notes : Notes) : List String :=
  notes.filterMap fun entry => match entry.1 with | .named name => some name | _ => none

/-- The keys of a sequence of `count` elements, in the order they are listed. -/
structure Listing (count : Nat) (notes : Notes) (indices : List Nat) (names : List String) :
    Prop where
  /-- The elements, the notes past the end, the length, and the notes under names. -/
  keys : notes.keys count =
    (List.range count).map .index ++ indices.map .index ++ [.length] ++ names.map .named
  /-- The notes past the end are listed by size. -/
  ascending : indices.Pairwise (· < ·)
  /-- The names are listed in the order of their bytes. -/
  bytewise : names.Pairwise fun a b => Utf8.encode a < Utf8.encode b
  index : ∀ n, n ∈ indices ↔ (notes.get? (.index n)).isSome
  name : ∀ name, name ∈ names ↔ (notes.get? (.named name)).isSome

theorem filter_index_eq (notes : Notes) :
    (notes.map Prod.fst).filter (fun key => key matches .index _) = notes.indices.map .index := by
  induction notes with
  | nil => rfl
  | cons entry rest ih =>
    obtain ⟨key, value⟩ := entry
    cases key <;> simpa [indices] using ih

theorem filter_named_eq (notes : Notes) :
    (notes.map Prod.fst).filter (fun key => key matches .named _) = notes.names.map .named := by
  induction notes with
  | nil => rfl
  | cons entry rest ih =>
    obtain ⟨key, value⟩ := entry
    cases key <;> simpa [names] using ih

theorem mem_indices {n : Nat} : n ∈ notes.indices ↔ (notes.get? (.index n)).isSome := by
  have hmem : SequenceKey.index n ∈ notes.indices.map .index ↔ n ∈ notes.indices :=
    List.mem_map_of_injective fun _ _ h => SequenceKey.index.inj h
  rw [isSome_get?_iff, ← hmem, ← filter_index_eq, List.mem_filter]
  exact and_iff_left rfl

theorem mem_names {name : String} : name ∈ notes.names ↔ (notes.get? (.named name)).isSome := by
  have hmem : SequenceKey.named name ∈ notes.names.map .named ↔ name ∈ notes.names :=
    List.mem_map_of_injective fun _ _ h => SequenceKey.named.inj h
  rw [isSome_get?_iff, ← hmem, ← filter_named_eq, List.mem_filter]
  exact and_iff_left rfl

theorem Proper.listing (h : Proper count notes) :
    Listing count notes notes.indices notes.names where
  keys := by
    rw [← filter_index_eq, ← filter_named_eq]
    rfl
  ascending := by
    have hsorted := (List.pairwise_map.mpr h.sorted).filter fun key => key matches .index _
    rw [filter_index_eq, List.pairwise_map] at hsorted
    exact hsorted.imp index_lt_index.mp
  bytewise := by
    have hsorted := (List.pairwise_map.mpr h.sorted).filter fun key => key matches .named _
    rw [filter_named_eq, List.pairwise_map] at hsorted
    exact hsorted.imp fun hlt => Utf8.encode_lt (named_lt_named.mp hlt)
  index _ := mem_indices
  name _ := mem_names

theorem Proper.mem_keys_iff (h : Proper count notes) :
    key ∈ notes.keys count ↔
      (∃ n < count, key = .index n) ∨ key = .length ∨ (notes.get? key).isSome := by
  rw [h.listing.keys]
  cases key with
  | index n => simp [mem_indices]
  | length => simp
  | named name => simp [mem_names]

theorem Proper.keys_sorted (h : Proper count notes) : (notes.keys count).Pairwise (· < ·) := by
  have hlisting := h.listing
  have hindices : (notes.indices.map SequenceKey.index).Pairwise (· < ·) :=
    List.pairwise_map.mpr (hlisting.ascending.imp index_lt_index.mpr)
  have hnames : (notes.names.map SequenceKey.named).Pairwise (· < ·) := by
    have hsorted := (List.pairwise_map.mpr h.sorted).filter fun key => key matches .named _
    rwa [filter_named_eq] at hsorted
  have helements : ((List.range count).map SequenceKey.index).Pairwise (· < ·) :=
    List.pairwise_map.mpr (List.pairwise_lt_range.imp index_lt_index.mpr)
  rw [hlisting.keys, List.pairwise_append, List.pairwise_append, List.pairwise_append]
  refine ⟨⟨⟨helements, hindices, ?_⟩, List.pairwise_singleton .., ?_⟩, hnames, ?_⟩
  · intro a ha b hb
    obtain ⟨m, hm, rfl⟩ := List.mem_map.mp ha
    obtain ⟨n, hn, rfl⟩ := List.mem_map.mp hb
    cases h.free_of_isSome (mem_indices.mp hn) with
    | past past => exact index_lt_index.mpr ((List.mem_range.mp hm).trans_le past)
  · intro a ha b hb
    rw [List.mem_singleton.mp hb]
    rw [← List.map_append] at ha
    obtain ⟨m, _, rfl⟩ := List.mem_map.mp ha
    rfl
  · intro a ha b hb
    obtain ⟨name, _, rfl⟩ := List.mem_map.mp hb
    rcases List.mem_append.mp ha with ha | ha
    · rw [← List.map_append] at ha
      obtain ⟨m, _, rfl⟩ := List.mem_map.mp ha
      rfl
    · rw [List.mem_singleton.mp ha]
      rfl

theorem Proper.nodup_keys (h : Proper count notes) : (notes.keys count).Nodup := by
  refine h.keys_sorted.imp ?_
  rintro a b hlt rfl
  exact less_irrefl a hlt

theorem Proper.nodup_texts (h : Proper count notes) (hcount : count ≤ longModulus) :
    ((notes.keys count).map SequenceKey.text).Nodup := by
  have hplain : ∀ key ∈ notes.keys count, key.Plain := by
    intro key hkey
    rcases h.mem_keys_iff.mp hkey with ⟨n, hn, rfl⟩ | rfl | hsome
    · exact hn.trans_le hcount
    · trivial
    · exact (h.free_of_isSome hsome).plain
  exact h.nodup_keys.map_on fun a ha b hb htext => eq_of_text_eq (hplain a ha) (hplain b hb) htext

/-! ## Permissions -/

theorem Proper.isSome_permissions?_iff (h : Proper count notes) :
    (notes.permissions? count key).isSome ↔ key ∈ notes.keys count := by
  rw [h.mem_keys_iff]
  cases key with
  | index n => by_cases hn : n < count <;> simp [permissions?, hn]
  | length => simp [permissions?]
  | named name => simp [permissions?]

theorem Proper.writable_iff (h : Proper count notes) :
    (∃ p, notes.permissions? count key = some p ∧ p.writable = true) ↔
      (notes.get? key).isSome := by
  cases key with
  | index n =>
    by_cases hn : n < count
    · have hnone : ¬ (notes.get? (.index n)).isSome := by
        intro hsome
        cases h.free_of_isSome hsome with
        | past past => omega
      simp [permissions?, hn, hnone, Permissions.element]
    · simp [permissions?, hn, Permissions.note]
  | length =>
    have hnone : ¬ (notes.get? .length).isSome := fun hsome => by cases h.free_of_isSome hsome
    simp [permissions?, hnone, Permissions.length]
  | named name => simp [permissions?, Permissions.note]

end Notes

end FlatSyntax
