import Mathlib
import FlatSyntax.Proofs.Bytes
import FlatSyntax.Proofs.Truncation

/-!
# Faults of reads

A fault of a read says what is wrong. It names a range that ends past the buffer, with the size of
the buffer, or a tag that was found where nothing declares it. An optional value is never blamed for the
tag that stands for its absence, and no field of the schema lacks an encoding for absence.
-/

namespace FlatSyntax

/-- Every optional value in the layout has an encoding for its absence. -/
def Layout.Supported : Layout → Bool
  | .boxed target => target.Supported
  | .sequence element => element.Supported
  | .optional value => value.absence != .unsupported && value.Supported
  | _ => true

/-- What is at the place has only supported layouts. -/
def Place.Supported : Place → Prop
  | .view _ _ => True
  | .sequence element _ => element.Supported = true

/-- Every field of the schema can be read. -/
theorem ViewKind.supported {kind : ViewKind} {field : Field} (h : field ∈ kind.fields) :
    field.layout.Supported = true := by
  have hnodes : ∀ k ∈ NodeKind.all, ∀ f ∈ (ViewKind.node k).fields, f.layout.Supported = true := by
    decide +kernel
  have hrecords : ∀ k ∈ RecordKind.all, ∀ f ∈ (ViewKind.record k).fields,
      f.layout.Supported = true := by decide +kernel
  cases kind with
  | node k => exact hnodes k k.mem_all field h
  | record k => exact hrecords k k.mem_all field h

/-- The tag that stands for an absent union is its tag byte. -/
theorem UnionKind.absence_reserved (kind : UnionKind) :
    kind.absence = .unsupported ∨ ∃ tag, kind.absence = .reservedTag 0 tag := by
  cases kind with
  | expression | assignmentTargetMaybeDefault | statement | declaration | forStatementInit
  | moduleExportName | jsxAttributeValue => exact .inr ⟨_, rfl⟩
  | _ => exact .inl rfl

theorem ChoiceKind.absence_reserved (kind : ChoiceKind) :
    kind.absence = .unsupported ∨ ∃ tag, kind.absence = .reservedTag 0 tag := by
  cases kind with
  | importPhase => exact .inr ⟨_, rfl⟩
  | _ => exact .inl rfl

namespace Document

variable {doc : Document} {field type : String} {layout : Layout} {pos : Nat} {tag : UInt8}

/-! ## Single reads -/

/-- An offset that can be read from. -/
def Addressable (doc : Document) (pos : Nat) : Prop := doc.offset pos 0 = pos

theorem addressable_offset (doc : Document) (pos distance : Nat) :
    doc.Addressable (doc.offset pos distance) := by
  unfold Addressable offset Addressing.add
  cases doc.addressing with
  | saturating => exact Nat.min_eq_left (Nat.min_le_right _ _)
  | exact => rfl

theorem addressable_of_lt (doc : Document) (h : pos < wordModulus) : doc.Addressable pos := by
  unfold Addressable offset Addressing.add
  cases doc.addressing with
  | saturating =>
    refine Nat.min_eq_left ?_
    unfold wordModulus at h
    unfold largestWord
    omega
  | exact => rfl

theorem check_yields (pos length : Nat) :
    Yields doc.Overruns (fun _ => True) (doc.check pos length) := by
  unfold check
  split
  · trivial
  · exact ⟨pos, length, by omega, rfl⟩

theorem bytes_yields (pos length : Nat) :
    Yields doc.Overruns (fun _ => True) (doc.bytes pos length) :=
  (check_yields pos length).bind fun _ _ => trivial

theorem byte_yields (pos : Nat) :
    Yields doc.Overruns (fun tag => doc.byte pos = .ok tag) (doc.byte pos) := by
  refine .self ?_
  exact (bytes_yields pos 1).bind fun _ _ => trivial

theorem word_yields (pos : Nat) :
    Yields doc.Overruns (fun n => doc.word pos = .ok n) (doc.word pos) := by
  refine .self ?_
  exact (bytes_yields pos 4).bind fun _ _ => trivial

theorem long_yields (pos : Nat) : Yields doc.Overruns (fun _ => True) (doc.long pos) :=
  (bytes_yields pos 8).bind fun _ _ => trivial

theorem span_yields (pos : Nat) : Yields doc.Overruns (fun _ => True) (doc.span pos) :=
  (word_yields pos).bind fun _ _ => (word_yields _).bind fun _ _ => trivial

theorem text_yields (pos : Nat) : Yields doc.Overruns (fun _ => True) (doc.text pos) := by
  rw [text_eq]
  refine (word_yields _).bind fun length _ => ?_
  split
  · trivial
  · refine (word_yields pos).bind fun pointer _ => ?_
    unfold textAt
    split
    · trivial
    · exact (bytes_yields pointer length).map fun _ _ => trivial

theorem isAbsent_yields (field : String) (h : layout.absence ≠ .unsupported) (pos : Nat) :
    Yields doc.Overruns (fun absent => doc.isAbsent field layout pos = .ok absent)
      (doc.isAbsent field layout pos) := by
  refine .self ?_
  unfold isAbsent
  cases habsence : layout.absence with
  | nullPointer distance => exact (long_yields _).bind fun _ _ => trivial
  | reservedTag distance tag => exact (byte_yields _).bind fun _ _ => trivial
  | emptyText =>
    refine (long_yields pos).bind fun pointer _ => ?_
    split
    · exact (word_yields _).bind fun _ _ => trivial
    · trivial
  | unsupported => exact absurd habsence h

/-- Opening a place fails only if its bytes are not in the buffer. -/
theorem openPlace_yields (place : Place) :
    Yields doc.Overruns (fun item => item.place = place ∧ doc.extent place = .ok item.extent)
      (doc.openPlace place) := by
  have hextent : Yields doc.Overruns (fun _ => True) (doc.extent place) := by
    cases place with
    | view kind pos => exact (check_yields pos kind.size).bind fun _ _ => trivial
    | sequence element pos =>
      refine (word_yields pos).bind fun pointer _ => ?_
      refine (word_yields _).bind fun length _ => ?_
      exact (check_yields pointer _).bind fun _ _ => trivial
  exact hextent.self.bind fun extent hextent => ⟨rfl, hextent⟩

/-! ## Layouts -/

/-- The tag that a layout has at an offset is not declared. -/
inductive Mistagged (doc : Document) : Layout → Nat → String → UInt8 → Prop where
  /-- No member of the choice has the tag. -/
  | choice {kind : ChoiceKind} {pos : Nat} {tag : UInt8} (found : doc.byte pos = .ok tag)
      (undeclared : ∀ member ∈ kind.members, member.tag ≠ tag) :
      Mistagged doc (.choice kind) pos kind.name tag
  /-- No variant of the union has the tag. -/
  | union {kind : UnionKind} {pos : Nat} {tag : UInt8} (found : doc.byte pos = .ok tag)
      (undeclared : ∀ v ∈ kind.variants, v.tag ≠ tag) :
      Mistagged doc (.union kind) pos kind.name tag
  /-- No case of the name slot has the tag. -/
  | slot {kind : SlotKind} {pos : Nat} {tag : UInt8} (found : doc.byte pos = .ok tag)
      (undeclared : ∀ c ∈ kind.cases, c.tag ≠ tag) :
      Mistagged doc (.slot kind) pos kind.name tag
  /-- The tag is that of the value that is pointed to. -/
  | boxed {target : Layout} {pos pointer : Nat} {type : String} {tag : UInt8}
      (found : doc.word pos = .ok pointer) (mistagged : Mistagged doc target pointer type tag) :
      Mistagged doc (.boxed target) pos type tag
  /-- The tag is that of the optional value, and it is not the one that stands for absence. -/
  | optional {value : Layout} {pos : Nat} {type : String} {tag : UInt8}
      (mistagged : Mistagged doc value pos type tag)
      (present : ∀ distance, value.absence ≠ .reservedTag distance tag) :
      Mistagged doc (.optional value) pos type tag

/-- A fault of reading a layout at an offset says what is wrong there. -/
def Justifies (doc : Document) (layout : Layout) (pos : Nat) (fault : Fault) : Prop :=
  doc.Overruns fault ∨
    ∃ type tag, fault = .unexpectedTag type tag ∧ doc.Mistagged layout pos type tag

/-- A value that is not absent does not have at its start the tag that stands for absence. -/
theorem not_reserved_of_present
    (h : layout.absence = .unsupported ∨ ∃ reserved, layout.absence = .reservedTag 0 reserved)
    (haddress : doc.Addressable pos) (habsent : doc.isAbsent field layout pos = .ok false)
    (hfound : doc.byte pos = .ok tag) (distance : Nat) :
    layout.absence ≠ .reservedTag distance tag := by
  intro hreserved
  rcases h with h | ⟨reserved, h⟩
  · rw [h] at hreserved
    cases hreserved
  · have heq := h.symm.trans hreserved
    cases heq
    unfold isAbsent at habsent
    rw [h] at habsent
    simp only at habsent
    rw [haddress, hfound] at habsent
    have hself : (tag == tag) = false := Except.ok.inj habsent
    simp at hself

theorem Mistagged.present (h : doc.Mistagged layout pos type tag) (haddress : doc.Addressable pos)
    (habsent : doc.isAbsent field layout pos = .ok false) (distance : Nat) :
    layout.absence ≠ .reservedTag distance tag := by
  cases h with
  | @choice kind _ _ found _ =>
    refine not_reserved_of_present ?_ haddress habsent found distance
    exact kind.absence_reserved
  | @union kind _ _ found _ =>
    refine not_reserved_of_present ?_ haddress habsent found distance
    exact kind.absence_reserved
  | slot => exact Absence.noConfusion
  | boxed => exact Absence.noConfusion
  | optional => exact Absence.noConfusion

theorem Justifies.optional {fault : Fault} (h : doc.Justifies layout pos fault)
    (haddress : doc.Addressable pos) (habsent : doc.isAbsent field layout pos = .ok false) :
    doc.Justifies (.optional layout) pos fault := by
  rcases h with h | ⟨type, tag, rfl, h⟩
  · exact .inl h
  · exact .inr ⟨type, tag, rfl, .optional h (h.present haddress habsent)⟩

theorem Justifies.boxed {pointer : Nat} {fault : Fault} (h : doc.Justifies layout pointer fault)
    (hpointer : doc.word pos = .ok pointer) : doc.Justifies (.boxed layout) pos fault := by
  rcases h with h | ⟨type, tag, rfl, h⟩
  · exact .inl h
  · exact .inr ⟨type, tag, rfl, .boxed hpointer h⟩

/-- The view or sequence in a datum has only supported layouts. -/
def LeadsOn (d : Datum Place) : Prop := ∀ place, d.object? = some place → place.Supported

theorem map_scalar_yields {α : Type} {x : Except Fault α} {Q : α → Prop} {f : α → Datum Place}
    (hx : Yields doc.Overruns Q x) (hf : ∀ a, (f a).object? = none) :
    Yields (doc.Justifies layout pos) LeadsOn (f <$> x) := by
  refine (hx.mono (fun _ => .inl) fun _ => id).map fun a _ place hplace => ?_
  rw [hf a] at hplace
  cases hplace

/-- Reading a layout up to the view or sequence in it. -/
theorem locate_yields (field : String) (h : layout.Supported = true)
    (haddress : doc.Addressable pos) :
    Yields (doc.Justifies layout pos) LeadsOn (doc.locate field layout pos) := by
  have htag : ∀ {layout : Layout} {pos : Nat},
      Yields (doc.Justifies layout pos) (fun tag => doc.byte pos = .ok tag) (doc.byte pos) :=
    fun {_ pos} => (byte_yields pos).mono (fun _ => .inl) fun _ => id
  induction layout generalizing pos with
  | byte => exact map_scalar_yields (byte_yields pos) fun _ => rfl
  | word => exact map_scalar_yields (word_yields pos) fun _ => rfl
  | double =>
    have hdouble : Yields doc.Overruns (fun _ => True) (doc.double pos) :=
      (long_yields pos).bind fun _ _ => trivial
    exact map_scalar_yields hdouble fun _ => rfl
  | flag =>
    have hflag : Yields doc.Overruns (fun _ => True) (doc.flag pos) :=
      (byte_yields pos).bind fun _ _ => trivial
    exact map_scalar_yields hflag fun _ => rfl
  | span => exact map_scalar_yields (span_yields pos) fun _ => rfl
  | regExpFlags => exact map_scalar_yields (byte_yields pos) fun _ => rfl
  | text => exact map_scalar_yields (text_yields pos) fun _ => rfl
  | choice kind =>
    refine htag.bind fun tag hfound => ?_
    cases hm : kind.member? tag with
    | some member => exact fun place hplace => by cases hplace
    | none =>
      refine .inr ⟨_, _, rfl, .choice hfound fun member hmember => ?_⟩
      simpa using List.find?_eq_none.mp hm member hmember
  | view kind =>
    intro place hplace
    cases hplace
    trivial
  | union kind =>
    refine htag.bind fun tag hfound => ?_
    cases hv : kind.variant? tag with
    | some v =>
      have htarget : Yields doc.Overruns (fun _ => True) (doc.target v (doc.offset pos 8)) := by
        unfold target
        split
        · trivial
        · exact (word_yields _).mono (fun _ => id) fun _ _ => trivial
      refine (htarget.mono (fun _ => .inl) fun _ => id).bind fun target _ place hplace => ?_
      cases hplace
      trivial
    | none =>
      refine .inr ⟨_, _, rfl, .union hfound fun v hmem => ?_⟩
      simpa using List.find?_eq_none.mp hv v hmem
  | slot kind =>
    refine htag.bind fun tag hfound => ?_
    cases hc : kind.case? tag with
    | some c =>
      simp only
      cases c.payload with
      | nothing => exact fun place hplace => by cases hplace
      | range =>
        refine ((span_yields _).mono (fun _ => .inl) fun _ => id).bind fun span _ place hplace => ?_
        cases hplace
      | name =>
        intro place hplace
        cases hplace
        trivial
    | none =>
      refine .inr ⟨_, _, rfl, .slot hfound fun c hmem => ?_⟩
      simpa using List.find?_eq_none.mp hc c hmem
  | boxed target ih =>
    refine ((word_yields pos).mono (fun _ => .inl) fun _ => id).bind fun pointer hpointer => ?_
    have hbelow := ih h (doc.addressable_of_lt (word_lt hpointer))
    exact hbelow.mono (fun _ hf => hf.boxed hpointer) fun _ => id
  | sequence element =>
    intro place hplace
    cases hplace
    exact h
  | optional value ih =>
    have hvalue : value.absence ≠ .unsupported ∧ value.Supported = true := by
      simpa [Layout.Supported] using h
    refine ((isAbsent_yields field hvalue.1 pos).mono (fun _ => .inl) fun _ => id).bind
      fun absent habsent => ?_
    cases absent with
    | true => exact fun place hplace => by cases hplace
    | false =>
      exact (ih hvalue.2 haddress).mono (fun _ hf => hf.optional haddress habsent) fun _ => id

/-- Opening what was located. -/
theorem traverse_yields {d : Datum Place} (hd : LeadsOn d) :
    Yields doc.Overruns (fun e => ∀ item, e.object? = some item →
        d.object? = some item.place ∧ item.place.Supported ∧
          doc.extent item.place = .ok item.extent)
      (d.traverse doc.openPlace) := by
  cases ho : d.object? with
  | none =>
    rw [Datum.traverse_of_none ho _ fun place => ⟨place, ⟨0, 0⟩, ()⟩]
    intro item hitem
    rw [Datum.object?_map, ho] at hitem
    cases hitem
  | some place =>
    rw [Datum.traverse_of_some ho]
    refine (openPlace_yields place).map fun item hitem other hother => ?_
    rw [Datum.object?_map, ho] at hother
    obtain rfl : item = other := Option.some.inj hother
    obtain ⟨rfl, hextent⟩ := hitem
    exact ⟨rfl, hd _ ho, hextent⟩

/-- Reading a layout: a fault says what is wrong, and a view or sequence is what was located. -/
theorem read_yields (field : String) (h : layout.Supported = true)
    (haddress : doc.Addressable pos) :
    Yields (doc.Justifies layout pos)
      (fun e => ∀ item, e.object? = some item →
        ∃ d, doc.locate field layout pos = .ok d ∧ d.object? = some item.place ∧
          item.place.Supported ∧ doc.extent item.place = .ok item.extent)
      (doc.read field layout pos) := by
  have hlocate := locate_yields field h haddress
  unfold read
  cases hl : doc.locate field layout pos with
  | error fault => exact hlocate.of_error hl
  | ok d =>
    refine (traverse_yields (hlocate.of_ok hl)).mono (fun _ => .inl) fun e he item hitem => ?_
    exact ⟨d, rfl, he item hitem⟩

end Document

end FlatSyntax
