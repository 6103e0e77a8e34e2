import Mathlib
import FlatSyntax.Proofs.FaultSites
import FlatSyntax.Proofs.Footprint

/-!
# Reads in place

The bytes of a view, or of a run of elements, are checked when it is opened. So however a view was
come by, what is stored in place can be read from it: its source range, its scalars and the views
nested in it. A read that runs out of the buffer does so somewhere else, where the view points to.
-/

namespace FlatSyntax

/-- No field has the name of the source range that every node has. -/
theorem NodeKind.findIdx?_span (kind : NodeKind) :
    ((ViewKind.node kind).fields.findIdx? fun field => field.key == "$span") = none := by
  have htable : ∀ kind ∈ all,
      ((ViewKind.node kind).fields.findIdx? fun field => field.key == "$span") = none := by
    decide +kernel
  exact htable kind kind.mem_all

namespace Datum

variable {τ : Type} {d : Datum (Item τ)}

theorem eq_span_of_erase {span : Span} (h : d.erase = .span span) : d = .span span := by
  cases d with
  | span _ =>
    cases h
    rfl
  | slot k c content => cases content <;> cases h
  | _ => cases h

theorem eq_object_of_erase {item : Item Unit} (h : d.erase = .object item) :
    ∃ child, d = .object child ∧ child.place = item.place := by
  cases d with
  | object child =>
    cases h
    exact ⟨child, rfl, rfl⟩
  | slot k c content => cases content <;> cases h
  | _ => cases h

end Datum

namespace Document

variable {doc doc' : Document} {pos : Nat}

/-- The run of a sequence that was opened is in the buffer. -/
theorem extent_sequence {element : Layout} {extent : Extent}
    (h : doc.extent (.sequence element pos) = .ok extent) :
    extent.base + extent.count * element.size ≤ doc.size := by
  obtain ⟨pointer, _, h⟩ := ok_of_bind h
  obtain ⟨length, _, h⟩ := ok_of_bind h
  obtain ⟨_, hcheck, h⟩ := ok_of_bind h
  cases h
  exact check_ok hcheck

/-- The offset that an element is read at. -/
def elementPos (doc : Document) (extent : Extent) (element : Layout) (index : Nat) : Nat :=
  doc.offset extent.base (doc.addressing.scale index element.size)

theorem elementPos_le (doc : Document) (extent : Extent) (element : Layout) (index : Nat) :
    doc.elementPos extent element index ≤ extent.base + index * element.size := by
  have hscale : doc.addressing.scale index element.size ≤ index * element.size := by
    cases doc.addressing with
    | saturating => exact Nat.min_le_left _ _
    | exact => exact Nat.le_refl _
  have hoffset := doc.offset_le extent.base (doc.addressing.scale index element.size)
  unfold elementPos
  omega

/-- Offsets reach every element of a run that is in a buffer shorter than their range. -/
theorem elementPos_eq {extent : Extent} {element : Layout} {index : Nat}
    (hsize : doc.size < wordModulus)
    (h : extent.base + index * element.size + element.size ≤ doc.size) :
    doc.elementPos extent element index = extent.base + index * element.size := by
  have hproduct : index * element.size ≤ largestWord := by
    unfold largestWord wordModulus at *
    omega
  unfold elementPos
  rw [Addressing.scale_of_le hproduct, offset_of_lt (by omega)]

/-- What is in place in a view is the same in both documents. -/
structure AlikeAt (doc doc' : Document) (kind : ViewKind) (pos : Nat) : Prop where
  /-- The source range of a node. -/
  span : ∀ k, kind = .node k → doc.span pos = doc'.span pos
  /-- A field that is no string. -/
  read : ∀ field ∈ kind.fields, field.layout.IsText = false →
    doc.read field.key field.layout (doc.offset pos field.offset) =
      doc'.read field.key field.layout (doc'.offset pos field.offset)
  /-- The pointer and the length of a string. -/
  header : ∀ field ∈ kind.fields, field.layout.IsText = true →
    doc.word (doc.offset pos field.offset) = doc'.word (doc'.offset pos field.offset) ∧
      doc.word (doc.offset (doc.offset pos field.offset) 8) =
        doc'.word (doc'.offset (doc'.offset pos field.offset) 8)
  /-- Whether a field is absent. -/
  absent : ∀ field ∈ kind.fields, ∀ value, field.layout = .optional value →
    doc.isAbsent field.key value (doc.offset pos field.offset) =
      doc'.isAbsent field.key value (doc'.offset pos field.offset)

theorem SameOn.alikeAt {kind : ViewKind} (h : doc.SameOn doc' pos (pos + kind.size))
    (haddress : doc.Addressable pos) : doc.AlikeAt doc' kind pos where
  span k hk := by
    subst hk
    have hsize := k.size_ge
    exact h.span_eq haddress (Nat.le_refl pos) (by omega)
  read field hfield htext := by
    have hfits := (ViewKind.encloses hfield).fits
    have hupper := doc.offset_le pos field.offset
    rw [← h.offset_eq]
    exact h.read_eq field.key (ViewKind.encloses hfield).compact htext
      (doc.addressable_offset pos field.offset) (le_offset haddress field.offset) (by omega)
  header field hfield htext := by
    have hfits := (ViewKind.encloses hfield).fits
    have hsize := field.layout.size_of_isText htext
    have hlower := le_offset haddress field.offset
    have hupper := doc.offset_le pos field.offset
    have hlower' := le_offset (doc.addressable_offset pos field.offset) 8
    have hupper' := doc.offset_le (doc.offset pos field.offset) 8
    simp only [← h.offset_eq]
    refine ⟨h.word_eq hlower (by omega), h.word_eq (hlower.trans hlower') (by omega)⟩
  absent field hfield value hvalue := by
    have hfits := (ViewKind.encloses hfield).fits
    have hcompact := (ViewKind.encloses hfield).compact
    rw [hvalue] at hfits hcompact
    have hreach := (Layout.compact_of_optional hcompact).1
    have hsize : field.offset + value.size ≤ kind.size := hfits
    have hupper := doc.offset_le pos field.offset
    rw [← h.offset_eq]
    exact h.isAbsent_eq field.key (doc.addressable_offset pos field.offset)
      (le_offset haddress field.offset) (by omega)

theorem read_view_of_le {kind : ViewKind} (field : String) (h : pos + kind.size ≤ doc.size) :
    doc.read field (.view kind) pos =
      .ok (.object ⟨.view kind pos, ⟨pos, kind.fields.length⟩, ()⟩) := by
  have hcheck : doc.check pos kind.size = .ok () := if_pos h
  simp only [read, locate, bind, Except.bind, Datum.traverse, openPlace, extent, hcheck]
  rfl

theorem follow_span {d : Datum (Item Unit)} {kind : NodeKind} {item : Item Unit} {span : Span}
    (hd : d.view? = some (.node kind, pos, item)) (hspan : doc.span pos = .ok span) :
    Path.follow doc doc.access d [.key "$span"] = .ok (some (.span span)) := by
  have hchild : Path.child doc doc.access d (.key "$span") = .ok (some (.span span)) := by
    unfold Path.child Path.field
    simp only [hd, kind.findIdx?_span, Session.ofExcept_except, property, hspan]
    rfl
  unfold Path.follow
  rw [hchild]
  rfl

end Document

namespace Session

variable {doc : Document} {s : Session}

/-- What is stored in place in the views and sequences of a session can be read. -/
structure InPlace (doc : Document) (s : Session) : Prop where
  /-- The bytes of a view are in the buffer, and those of its fields are among them. -/
  enclosed : ∀ {item : Link} {kind : ViewKind} {pos : Nat}, s.heap.Live item →
    item.place = .view kind pos →
    pos + kind.size ≤ doc.size ∧ ∀ field ∈ kind.fields, kind.Encloses field
  /-- No other bytes are read in place. -/
  alike : ∀ {item : Link} {kind : ViewKind} {pos : Nat}, s.heap.Live item →
    item.place = .view kind pos → doc.Addressable pos →
    ∀ doc', doc.SameOn doc' pos (pos + kind.size) → doc.AlikeAt doc' kind pos
  /-- A node has a source range. -/
  span : ∀ {d : Datum Link} {item : Link} {kind : NodeKind} {pos : Nat}, s.heap.Holds d →
    d.view? = some (.node kind, pos, item) →
    ∃ span, doc.span pos = .ok span ∧
      (s.exec (follow d [.key "$span"])).1 = .ok (some (.span span))
  /-- Scalars and views in place can be read. -/
  direct : ∀ {item : Link} {kind : ViewKind} {pos index : Nat} {field : Field},
    s.heap.Live item → item.place = .view kind pos → kind.fields[index]? = some field →
    field.layout.Direct = true → ∃ d, (s.exec (slot item index)).1 = .ok d
  /-- A choice fails for its tag only. -/
  choice : ∀ {item : Link} {kind : ViewKind} {pos index : Nat} {field : Field} {fault : Fault},
    s.heap.Live item → item.place = .view kind pos → kind.fields[index]? = some field →
    field.layout.IsChoice = true → (s.exec (slot item index)).1 = .error fault →
    ∃ type tag, fault = .unexpectedTag type tag
  /-- A range that is not in the buffer is one that the field points to. -/
  pointed : ∀ {item : Link} {kind : ViewKind} {pos index start length size : Nat} {field : Field},
    s.heap.Live item → item.place = .view kind pos → kind.fields[index]? = some field →
    (s.exec (slot item index)).1 = .error (.outOfBounds start length size) →
    size = doc.size ∧ doc.size < start + length ∧
      doc.PointsTo field.layout (doc.offset pos field.offset) start length
  /-- The bytes of the elements of a sequence are in the buffer. -/
  elements : ∀ {item : Link} {element : Layout} {pos index : Nat}, s.heap.Live item →
    item.place = .sequence element pos → index < item.extent.count →
    item.extent.base + index * element.size + element.size ≤ doc.size ∧
      doc.elementPos item.extent element index + element.size ≤ doc.size ∧
      (doc.size < wordModulus →
        doc.elementPos item.extent element index = item.extent.base + index * element.size)
  /-- A sequence of views has a view at each index. -/
  get : ∀ {item : Link} {kind : ViewKind} {pos index : Nat}, s.heap.Live item →
    item.place = .sequence (.view kind) pos → index < item.extent.count →
    ∃ child : Link, (s.exec ((Session.elements item).get? index)).1 = .ok (some (.object child)) ∧
      child.place = .view kind (doc.elementPos item.extent (.view kind) index)

theorem extent_of_live (hs : s.Sound) {item : Link} {place : Place} (hi : s.heap.Live item)
    (hplace : item.place = place) : s.document.extent place = .ok item.extent :=
  hplace ▸ (reached_of_live hs hi).2

theorem size_le_of_live (hs : s.Sound) {item : Link} {kind : ViewKind} {pos : Nat}
    (hi : s.heap.Live item) (hplace : item.place = .view kind pos) :
    pos + kind.size ≤ s.document.size :=
  Document.check_ok (Document.extent_view (extent_of_live hs hi hplace)).1

theorem element_le_of_live (hs : s.Sound) {item : Link} {element : Layout} {pos index : Nat}
    (hi : s.heap.Live item) (hplace : item.place = .sequence element pos)
    (hindex : index < item.extent.count) :
    item.extent.base + index * element.size + element.size ≤ s.document.size := by
  have hrun := Document.extent_sequence (extent_of_live hs hi hplace)
  have hnext : (index + 1) * element.size ≤ item.extent.count * element.size :=
    Nat.mul_le_mul_right _ hindex
  rw [Nat.succ_mul] at hnext
  omega

theorem span_of_holds (hs : s.Sound) {d : Datum Link} {item : Link} {kind : NodeKind} {pos : Nat}
    (hd : s.heap.Holds d) (hview : d.view? = some (.node kind, pos, item)) :
    ∃ span, s.document.span pos = .ok span ∧
      (s.exec (follow d [.key "$span"])).1 = .ok (some (.span span)) := by
  obtain ⟨hitem, hplace⟩ := Datum.object?_of_view? hview
  have hcheck : s.document.check pos (ViewKind.node kind).size = .ok () := by
    unfold Document.check
    rw [if_pos (size_le_of_live hs (hd item hitem) hplace)]
  obtain ⟨span, hspan⟩ := Document.span_of_check hcheck
  have herased : d.erase.view? = some (.node kind, pos, item.erase) := by
    rw [Datum.view?_erase, hview]
    rfl
  obtain ⟨found, hfound, hagrees⟩ :=
    (follow_reading hs hd [.key "$span"]).outcome.of_ok (Document.follow_span herased hspan)
  refine ⟨span, hspan, ?_⟩
  cases hagrees with
  | some h =>
    rw [hfound, Datum.eq_span_of_erase h.2]

section Fields

variable {item : Link} {kind : ViewKind} {pos index : Nat} {field : Field}

/-- A field of a live view is read from bytes that are in the buffer. -/
theorem field_outcome (hs : s.Sound) (hi : s.heap.Live item) (hplace : item.place = .view kind pos)
    (hfield : kind.fields[index]? = some field) :
    Matches (s.exec (slot item index)).2.Agrees (s.exec (slot item index)).1
        (s.document.read field.key field.layout (s.document.offset pos field.offset)) ∧
      s.document.offset pos field.offset + field.layout.size ≤ s.document.size := by
  have houtcome := (slot_reading hs hi index).outcome
  rw [Document.slot_field hplace (reached_of_live hs hi).2 hfield] at houtcome
  have hview := size_le_of_live hs hi hplace
  have hfits := (ViewKind.encloses (List.mem_of_getElem? hfield)).fits
  have hoffset := s.document.offset_le pos field.offset
  exact ⟨houtcome, by omega⟩

theorem field_direct (hs : s.Sound) (hi : s.heap.Live item) (hplace : item.place = .view kind pos)
    (hfield : kind.fields[index]? = some field) (hdirect : field.layout.Direct = true) :
    ∃ d, (s.exec (slot item index)).1 = .ok d := by
  obtain ⟨houtcome, hinside⟩ := field_outcome hs hi hplace hfield
  have hdeclared := List.mem_of_getElem? hfield
  obtain ⟨e, he⟩ := Document.read_direct field.key (ViewKind.supported hdeclared)
    (ViewKind.encloses hdeclared).compact hdirect (s.document.addressable_offset ..) hinside
  obtain ⟨d, hd, _⟩ := houtcome.of_ok he
  exact ⟨d, hd⟩

/-- The fault of a field is that of a tag, or of a range that the field points to. -/
theorem field_fault (hs : s.Sound) (hi : s.heap.Live item) (hplace : item.place = .view kind pos)
    (hfield : kind.fields[index]? = some field) {fault : Fault}
    (hfault : (s.exec (slot item index)).1 = .error fault) :
    (∃ type tag, fault = .unexpectedTag type tag) ∨
      ∃ start length, fault = .outOfBounds start length s.document.size ∧
        s.document.size < start + length ∧
        s.document.PointsTo field.layout (s.document.offset pos field.offset) start length := by
  obtain ⟨houtcome, hinside⟩ := field_outcome hs hi hplace hfield
  have hread := houtcome.of_error hfault
  have hdeclared := List.mem_of_getElem? hfield
  have hsupported := ViewKind.supported hdeclared
  have hyields := Document.read_yields field.key hsupported
    (s.document.addressable_offset pos field.offset)
  rcases hyields.of_error hread with ⟨start, length, hpast, rfl⟩ | ⟨type, tag, rfl, _⟩
  · refine .inr ⟨start, length, rfl, hpast, ?_⟩
    exact (Document.read_inside field.key hsupported (ViewKind.encloses hdeclared).compact
      hinside).of_error hread start length _ rfl
  · exact .inl ⟨type, tag, rfl⟩

end Fields

theorem get_of_live (hs : s.Sound) {item : Link} {kind : ViewKind} {pos index : Nat}
    (hi : s.heap.Live item) (hplace : item.place = .sequence (.view kind) pos)
    (hindex : index < item.extent.count) :
    ∃ child : Link, (s.exec ((Session.elements item).get? index)).1 = .ok (some (.object child)) ∧
      child.place = .view kind (s.document.elementPos item.extent (.view kind) index) := by
  have hinside := element_le_of_live hs hi hplace hindex
  have hpos := s.document.elementPos_le item.extent (.view kind) index
  have hsize : (Layout.view kind).size = kind.size := rfl
  have hread : s.document.access.slot item.erase index =
      .ok (.object ⟨.view kind (s.document.elementPos item.extent (.view kind) index),
        ⟨s.document.elementPos item.extent (.view kind) index, kind.fields.length⟩, ()⟩) := by
    rw [Document.slot_element hplace hindex]
    refine Document.read_view_of_le _ ?_
    change s.document.elementPos item.extent (.view kind) index + kind.size ≤ s.document.size
    omega
  have hget : s.Reading ((Session.elements item).get? index) fun t r =>
      Matches (Option.Rel t.Agrees) r (some <$> s.document.access.slot item.erase index) := by
    have hslot : (Session.elements item).get? index = some <$> slot item index := if_pos hindex
    rw [hslot]
    exact (slot_reading hs hi index).map_matches fun _ _ _ _ hab => .some hab
  obtain ⟨found, hfound, hagrees⟩ := hget.outcome.of_ok (congrArg (some <$> ·) hread)
  cases hagrees with
  | some h =>
    obtain ⟨child, rfl, hchild⟩ := Datum.eq_object_of_erase h.2
    exact ⟨child, hfound, hchild⟩

/-- Whatever has happened in a session, what is stored in place can be read. -/
theorem inPlace_of_reachable (h : Reachable doc s) : s.InPlace doc := by
  obtain ⟨rfl, hs, _⟩ := h.sound
  constructor
  · intro item kind pos hi hplace
    exact ⟨size_le_of_live hs hi hplace, fun field => ViewKind.encloses⟩
  · intro item kind pos hi hplace haddress doc' hsame
    exact hsame.alikeAt haddress
  · intro d item kind pos hd hview
    exact span_of_holds hs hd hview
  · intro item kind pos index field hi hplace hfield hdirect
    exact field_direct hs hi hplace hfield hdirect
  · intro item kind pos index field fault hi hplace hfield hchoice hfault
    rcases field_fault hs hi hplace hfield hfault with htag | ⟨start, length, _, _, hpoints⟩
    · exact htag
    · exact absurd hpoints (Document.not_pointsTo (by rw [hchoice, Bool.or_true]) start length)
  · intro item kind pos index start length size field hi hplace hfield hfault
    rcases field_fault hs hi hplace hfield hfault with
      ⟨type, tag, heq⟩ | ⟨_, _, heq, hpast, hpoints⟩
    · cases heq
    · cases heq
      exact ⟨rfl, hpast, hpoints⟩
  · intro item element pos index hi hplace hindex
    have hle := element_le_of_live hs hi hplace hindex
    have hpos := s.document.elementPos_le item.extent element index
    exact ⟨hle, by omega, fun hsize => Document.elementPos_eq hsize hle⟩
  · intro item kind pos index hi hplace hindex
    exact get_of_live hs hi hplace hindex

/-- In the middle of a run, the node that was entered has its source range. -/
theorem inPlace_insideNode : insideNode.InPlace (.zeros 64) ∧
    (insideNode.exec (follow (.object innerNode) [.key "$span"])).1 =
      .ok (some (.span ⟨0, 0⟩)) := by
  have hinPlace := inPlace_of_reachable insideNode_reachable
  have hholds : insideNode.heap.Holds (.object innerNode) := by
    intro item hitem
    cases hitem
    exact innerNode_live
  obtain ⟨span, hspan, hfollow⟩ := hinPlace.span hholds rfl
  have hzero : (Document.zeros 64).span 0 = .ok ⟨0, 0⟩ := by decide +kernel
  cases hzero.symm.trans hspan
  exact ⟨hinPlace, hfollow⟩

end Session

end FlatSyntax
