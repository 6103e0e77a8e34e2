import Mathlib
import FlatSyntax.Proofs.Faults

/-!
# The bytes of a layout

The fields of a view, with the tags, pointers and headers in them, are among the bytes of the view.
So a layout whose bytes are in the buffer fails only for a tag that nothing declares, or for a range
somewhere else that it points to, and what is read in place depends on no other bytes.
-/

namespace FlatSyntax

/-! ## The schema -/

/-- How far the bytes go that tell whether a value is absent, from the start of the value. -/
def Absence.reach : Absence → Nat
  | .nullPointer distance => distance + 8
  | .reservedTag distance _ => distance + 1
  | .emptyText => 12
  | .unsupported => 0

namespace Layout

/-- A pointer leads to a view, and the bytes that tell whether an optional value is absent are bytes
of the value. -/
def Compact : Layout → Bool
  | .boxed (.view _) => true
  | .boxed _ => false
  | .optional value => decide (value.absence.reach ≤ value.size) && value.Compact
  | _ => true

/-- A value that is read in place and for which every byte will do. -/
def Direct : Layout → Bool
  | .byte | .word | .double | .flag | .span | .regExpFlags | .view _ => true
  | .optional value => value.Direct
  | _ => false

/-- A choice, which may be absent. -/
def IsChoice : Layout → Bool
  | .choice _ => true
  | .optional value => value.IsChoice
  | _ => false

/-- A string, which may be absent. -/
def IsText : Layout → Bool
  | .text => true
  | .optional value => value.IsText
  | _ => false

theorem size_of_isText (layout : Layout) (h : layout.IsText = true) : layout.size = 16 := by
  induction layout with
  | text => rfl
  | optional value ih => exact ih h
  | _ => cases h

theorem compact_of_boxed {target : Layout} (h : (Layout.boxed target).Compact = true) :
    ∃ kind, target = .view kind := by
  cases target with
  | view kind => exact ⟨kind, rfl⟩
  | _ => cases h

theorem compact_of_optional {value : Layout} (h : (Layout.optional value).Compact = true) :
    value.absence.reach ≤ value.size ∧ value.Compact = true := by
  simpa [Compact] using h

end Layout

/-- A field lies in the bytes of its view. -/
structure ViewKind.Encloses (kind : ViewKind) (field : Field) : Prop where
  fits : field.offset + field.layout.size ≤ kind.size
  compact : field.layout.Compact = true

theorem ViewKind.encloses {kind : ViewKind} {field : Field} (h : field ∈ kind.fields) :
    kind.Encloses field := by
  have hnodes : ∀ k ∈ NodeKind.all, ∀ f ∈ (ViewKind.node k).fields,
      f.offset + f.layout.size ≤ (ViewKind.node k).size ∧ f.layout.Compact = true := by
    decide +kernel
  have hrecords : ∀ k ∈ RecordKind.all, ∀ f ∈ (ViewKind.record k).fields,
      f.offset + f.layout.size ≤ (ViewKind.record k).size ∧ f.layout.Compact = true := by
    decide +kernel
  cases kind with
  | node k =>
    obtain ⟨hfits, hcompact⟩ := hnodes k k.mem_all field h
    exact ⟨hfits, hcompact⟩
  | record k =>
    obtain ⟨hfits, hcompact⟩ := hrecords k k.mem_all field h
    exact ⟨hfits, hcompact⟩

theorem Variant.size_le_foldl (variants : List Variant) (n : Nat) :
    n ≤ variants.foldl (fun largest v => max largest v.size) n ∧
      ∀ v ∈ variants, v.size ≤ variants.foldl (fun largest v => max largest v.size) n := by
  induction variants generalizing n with
  | nil => exact ⟨Nat.le_refl n, by simp⟩
  | cons first rest ih =>
    obtain ⟨hstart, hrest⟩ := ih (max n first.size)
    rw [List.foldl_cons]
    refine ⟨(Nat.le_max_left ..).trans hstart, fun v hv => ?_⟩
    rcases List.mem_cons.mp hv with rfl | hv
    · exact (Nat.le_max_right ..).trans hstart
    · exact hrest v hv

/-- The payload of every variant lies in the bytes of the union. -/
theorem UnionKind.payload_le {kind : UnionKind} {v : Variant} (h : v ∈ kind.variants) :
    8 + v.size ≤ kind.size := by
  have hpayload := (Variant.size_le_foldl kind.variants 0).2 v h
  unfold UnionKind.size
  omega

theorem UnionKind.size_ge (kind : UnionKind) : 8 ≤ kind.size := Nat.le_add_right ..

namespace Document

variable {doc doc' : Document} {field : String} {layout : Layout} {pos : Nat}

/-! ## Ranges that are pointed to -/

/-- A range somewhere else that a layout at an offset points to. -/
inductive PointsTo (doc : Document) : Layout → Nat → Nat → Nat → Prop where
  /-- The bytes of a string. -/
  | text {pos pointer length : Nat} (found : doc.word pos = .ok pointer)
      (measured : doc.word (doc.offset pos 8) = .ok length) : PointsTo doc .text pos pointer length
  /-- The run of a sequence. -/
  | run {element : Layout} {pos pointer length : Nat} (found : doc.word pos = .ok pointer)
      (measured : doc.word (doc.offset pos 8) = .ok length) :
      PointsTo doc (.sequence element) pos pointer (length * element.size)
  /-- A view. -/
  | target {kind : ViewKind} {pos pointer : Nat} (found : doc.word pos = .ok pointer) :
      PointsTo doc (.boxed (.view kind)) pos pointer kind.size
  /-- The node of a variant that is not stored in place. -/
  | variant {kind : UnionKind} {pos pointer : Nat} {tag : UInt8} {v : Variant}
      (tagged : doc.byte pos = .ok tag) (selected : kind.variant? tag = some v)
      (elsewhere : v.inline = false) (found : doc.word (doc.offset pos 8) = .ok pointer) :
      PointsTo doc (.union kind) pos pointer (ViewKind.node v.node).size
  /-- What an optional value points to. -/
  | optional {value : Layout} {pos pointer length : Nat}
      (found : PointsTo doc value pos pointer length) :
      PointsTo doc (.optional value) pos pointer length

/-- Scalars, views in place and choices point nowhere. -/
theorem not_pointsTo (h : (layout.Direct || layout.IsChoice) = true) (start length : Nat) :
    ¬ doc.PointsTo layout pos start length := by
  intro hpoints
  induction hpoints with
  | optional _ ih => exact ih h
  | _ => cases h

theorem not_mistagged_of_direct (h : layout.Direct = true) (type : String) (tag : UInt8) :
    ¬ doc.Mistagged layout pos type tag := by
  intro hmistagged
  induction hmistagged with
  | optional _ _ ih => exact ih h
  | _ => cases h

/-- A fault that is not for bytes in place: if it is that of a range, the layout points to the
range. -/
def Elsewhere (doc : Document) (layout : Layout) (pos : Nat) (fault : Fault) : Prop :=
  ∀ start length size, fault = .outOfBounds start length size → doc.PointsTo layout pos start length

/-! ## Reads that stay in the buffer -/

section Inside

variable {P : Fault → Prop}

theorem bytes_inside {length : Nat} (h : pos + length ≤ doc.size) :
    Yields P (fun _ => True) (doc.bytes pos length) := by
  rw [bytes_of_le h]
  trivial

theorem byte_inside (h : pos + 1 ≤ doc.size) :
    Yields P (fun tag => doc.byte pos = .ok tag) (doc.byte pos) := by
  refine .self ?_
  exact (bytes_inside h).bind fun _ _ => trivial

theorem word_inside (h : pos + 4 ≤ doc.size) :
    Yields P (fun n => doc.word pos = .ok n) (doc.word pos) := by
  refine .self ?_
  exact (bytes_inside h).bind fun _ _ => trivial

theorem long_inside (h : pos + 8 ≤ doc.size) : Yields P (fun _ => True) (doc.long pos) :=
  (bytes_inside h).bind fun _ _ => trivial

theorem span_inside (h : pos + 8 ≤ doc.size) :
    Yields P (fun span => doc.span pos = .ok span) (doc.span pos) := by
  have hstop := doc.offset_le pos 4
  refine .self ?_
  refine (word_inside (by omega)).bind fun _ _ => ?_
  exact (word_inside (by omega)).bind fun _ _ => trivial

theorem isAbsent_inside (field : String) (hsupported : layout.absence ≠ .unsupported)
    (h : pos + layout.absence.reach ≤ doc.size) :
    Yields P (fun _ => True) (doc.isAbsent field layout pos) := by
  unfold isAbsent
  cases habsence : layout.absence with
  | nullPointer distance =>
    rw [habsence] at h
    have hsentinel := doc.offset_le pos distance
    have hreach : pos + (distance + 8) ≤ doc.size := h
    exact (long_inside (by omega)).bind fun _ _ => trivial
  | reservedTag distance tag =>
    rw [habsence] at h
    have hsentinel := doc.offset_le pos distance
    have hreach : pos + (distance + 1) ≤ doc.size := h
    exact (byte_inside (by omega)).bind fun _ _ => trivial
  | emptyText =>
    rw [habsence] at h
    have hsentinel := doc.offset_le pos 8
    have hreach : pos + 12 ≤ doc.size := h
    refine (long_inside (by omega)).bind fun pointer _ => ?_
    split
    · exact (word_inside (by omega)).bind fun _ _ => trivial
    · trivial
  | unsupported => exact absurd habsence hsupported

end Inside

theorem elsewhere_of_check {start length : Nat} (h : doc.PointsTo layout pos start length) :
    Yields (doc.Elsewhere layout pos) (fun _ => True) (doc.check start length) := by
  unfold check
  split
  · trivial
  · intro start' length' size heq
    cases heq
    exact h

/-- A place that was located in a layout: in its bytes, or where it points to. -/
def InReach (doc : Document) (layout : Layout) (pos : Nat) : Place → Prop
  | .view kind start =>
    start + kind.size ≤ doc.size ∨ doc.PointsTo layout pos start kind.size
  | .sequence element start =>
    start + 24 ≤ doc.size ∧ ∀ pointer length, doc.word start = .ok pointer →
      doc.word (doc.offset start 8) = .ok length →
      doc.PointsTo layout pos pointer (length * element.size)

theorem InReach.optional {place : Place} (h : doc.InReach layout pos place) :
    doc.InReach (.optional layout) pos place := by
  cases place with
  | view kind start => exact h.imp_right .optional
  | sequence element start => exact ⟨h.1, fun _ _ hp hl => .optional (h.2 _ _ hp hl)⟩

/-- What a layout in the buffer leads to, and the faults that are left to it. -/
abbrev Locates (doc : Document) (layout : Layout) (pos : Nat) (r : Except Fault (Datum Place)) :
    Prop :=
  Yields (doc.Elsewhere layout pos)
    (fun d => ∀ place, d.object? = some place → doc.InReach layout pos place) r

theorem Locates.of_scalar {α : Type} {x : Except Fault α} {Q : α → Prop} {f : α → Datum Place}
    (hx : Yields (doc.Elsewhere layout pos) Q x) (hf : ∀ a, (f a).object? = none) :
    doc.Locates layout pos (f <$> x) := by
  refine hx.map fun a _ place hplace => ?_
  rw [hf a] at hplace
  cases hplace

theorem elsewhere_unexpectedTag (type : String) (tag : UInt8) :
    doc.Elsewhere layout pos (.unexpectedTag type tag) := by
  intro _ _ _ heq
  cases heq

theorem text_locates (h : pos + 16 ≤ doc.size) :
    Yields (doc.Elsewhere .text pos) (fun _ => True) (doc.text pos) := by
  have hlength := doc.offset_le pos 8
  rw [text_eq]
  refine (word_inside (by omega)).bind fun length hlength => ?_
  split
  · trivial
  · refine (word_inside (by omega)).bind fun pointer hpointer => ?_
    unfold textAt
    split
    · trivial
    · refine Yields.map (Q := fun _ => True) ?_ fun _ _ => trivial
      exact (elsewhere_of_check (.text hpointer hlength)).bind fun _ _ => trivial

theorem union_locates {kind : UnionKind} (h : pos + kind.size ≤ doc.size) :
    doc.Locates (.union kind) pos (doc.locate field (.union kind) pos) := by
  have hsize := kind.size_ge
  have hpayload := doc.offset_le pos 8
  refine (byte_inside (by omega)).bind fun tag htag => ?_
  cases hv : kind.variant? tag with
  | none => exact elsewhere_unexpectedTag _ _
  | some v =>
    have hfits := UnionKind.payload_le (UnionKind.mem_of_variant? hv)
    simp only
    unfold target
    cases hinline : v.inline with
    | true =>
      have hsize : v.size = (ViewKind.node v.node).size := by simp [Variant.size, hinline]
      intro place hplace
      cases hplace
      exact .inl (by omega)
    | false =>
      have hsize : v.size = 8 := by simp [Variant.size, hinline]
      refine (word_inside (by omega)).bind fun pointer hpointer place hplace => ?_
      cases hplace
      exact .inr (.variant htag hv hinline hpointer)

theorem slot_locates {kind : SlotKind} (h : pos + 32 ≤ doc.size) :
    doc.Locates (.slot kind) pos (doc.locate field (.slot kind) pos) := by
  have hpayload := doc.offset_le pos 8
  refine (byte_inside (by omega)).bind fun tag _ => ?_
  cases hc : kind.case? tag with
  | none => exact elsewhere_unexpectedTag _ _
  | some c =>
    simp only
    cases c.payload with
    | nothing => exact fun place hplace => by cases hplace
    | range =>
      refine (span_inside (by omega)).bind fun span _ place hplace => ?_
      cases hplace
    | name =>
      have hname : (ViewKind.record .nameSpan).size = 24 := rfl
      intro place hplace
      cases hplace
      exact .inl (by omega)

/-- Reading a layout whose bytes are in the buffer, up to the view or sequence in it. -/
theorem locate_inside (field : String) (hsupported : layout.Supported = true)
    (hcompact : layout.Compact = true) (h : pos + layout.size ≤ doc.size) :
    doc.Locates layout pos (doc.locate field layout pos) := by
  induction layout with
  | byte => exact .of_scalar (byte_inside h) fun _ => rfl
  | word => exact .of_scalar (word_inside h) fun _ => rfl
  | double =>
    have hdouble : Yields (doc.Elsewhere .double pos) (fun _ => True) (doc.double pos) :=
      (long_inside h).bind fun _ _ => trivial
    exact .of_scalar hdouble fun _ => rfl
  | flag =>
    have hflag : Yields (doc.Elsewhere .flag pos) (fun _ => True) (doc.flag pos) :=
      (byte_inside h).bind fun _ _ => trivial
    exact .of_scalar hflag fun _ => rfl
  | span => exact .of_scalar (span_inside h) fun _ => rfl
  | regExpFlags => exact .of_scalar (byte_inside h) fun _ => rfl
  | text => exact .of_scalar (text_locates h) fun _ => rfl
  | choice kind =>
    refine (byte_inside h).bind fun tag _ => ?_
    cases kind.member? tag with
    | some member => exact fun place hplace => by cases hplace
    | none => exact elsewhere_unexpectedTag _ _
  | view kind =>
    intro place hplace
    cases hplace
    exact .inl h
  | union kind => exact union_locates h
  | slot kind => exact slot_locates h
  | boxed target =>
    obtain ⟨kind, rfl⟩ := Layout.compact_of_boxed hcompact
    have hpointer : pos + 8 ≤ doc.size := h
    refine (word_inside (by omega)).bind fun pointer hpointer place hplace => ?_
    cases hplace
    exact .inr (.target hpointer)
  | sequence element =>
    intro place hplace
    cases hplace
    exact ⟨h, fun _ _ => .run⟩
  | optional value ih =>
    obtain ⟨hreach, hvalue⟩ := Layout.compact_of_optional hcompact
    have hsize : pos + value.size ≤ doc.size := h
    have hsupports : value.absence ≠ .unsupported ∧ value.Supported = true := by
      simpa [Layout.Supported] using hsupported
    refine (isAbsent_inside field hsupports.1 (by omega)).bind fun absent _ => ?_
    cases absent with
    | true => exact fun place hplace => by cases hplace
    | false =>
      refine (ih hsupports.2 hvalue h).mono (fun fault hf start length size heq => ?_)
        fun d hd place hplace => (hd place hplace).optional
      exact .optional (hf start length size heq)

theorem openPlace_inReach {place : Place} (h : doc.InReach layout pos place) :
    Yields (doc.Elsewhere layout pos) (fun _ => True) (doc.openPlace place) := by
  cases place with
  | view kind start =>
    have hcheck : Yields (doc.Elsewhere layout pos) (fun _ => True)
        (doc.check start kind.size) := by
      rcases h with h | h
      · unfold check
        rw [if_pos h]
        trivial
      · exact elsewhere_of_check h
    refine Yields.bind (Q := fun _ => True) ?_ fun _ _ => trivial
    exact hcheck.bind fun _ _ => trivial
  | sequence element start =>
    obtain ⟨hheader, hrun⟩ := h
    have hlength := doc.offset_le start 8
    refine Yields.bind (Q := fun _ => True) ?_ fun _ _ => trivial
    refine (word_inside (by omega)).bind fun pointer hpointer => ?_
    refine (word_inside (by omega)).bind fun length hlength => ?_
    exact (elsewhere_of_check (hrun pointer length hpointer hlength)).bind fun _ _ => trivial

/-- Reading a layout whose bytes are in the buffer fails for a tag, or for a range elsewhere. -/
theorem read_inside (field : String) (hsupported : layout.Supported = true)
    (hcompact : layout.Compact = true) (h : pos + layout.size ≤ doc.size) :
    Yields (doc.Elsewhere layout pos) (fun _ => True) (doc.read field layout pos) := by
  refine (locate_inside field hsupported hcompact h).bind fun d hd => ?_
  cases ho : d.object? with
  | none =>
    rw [Datum.traverse_of_none ho _ fun place => ⟨place, ⟨0, 0⟩, ()⟩]
    trivial
  | some place =>
    rw [Datum.traverse_of_some ho]
    exact (openPlace_inReach (hd place ho)).map fun _ _ => trivial

/-- A value that every byte will do for can be read. -/
theorem read_direct (field : String) (hsupported : layout.Supported = true)
    (hcompact : layout.Compact = true) (hdirect : layout.Direct = true)
    (haddress : doc.Addressable pos) (h : pos + layout.size ≤ doc.size) :
    ∃ d, doc.read field layout pos = .ok d := by
  cases hr : doc.read field layout pos with
  | ok d => exact ⟨d, rfl⟩
  | error fault =>
    rcases (read_yields field hsupported haddress).of_error hr with ⟨start, length, _, rfl⟩ | hjust
    · have helsewhere := (read_inside field hsupported hcompact h).of_error hr
      have hpoints := helsewhere start length doc.size rfl
      exact absurd hpoints (not_pointsTo (by rw [hdirect, Bool.true_or]) start length)
    · obtain ⟨type, tag, rfl, hmistagged⟩ := hjust
      exact absurd hmistagged (not_mistagged_of_direct hdirect type tag)

/-! ## Bytes that are read in place -/

/-- Two documents with as many bytes, of which those from `start` up to `stop` are the same. -/
structure SameOn (doc doc' : Document) (start stop : Nat) : Prop where
  addressing : doc.addressing = doc'.addressing
  size : doc.size = doc'.size
  bytes : ∀ i, start ≤ i → i < stop → doc.buffer[i]? = doc'.buffer[i]?

theorem le_offset (h : doc.Addressable pos) (distance : Nat) : pos ≤ doc.offset pos distance := by
  unfold Addressable at h
  unfold offset Addressing.add at *
  cases haddress : doc.addressing with
  | saturating =>
    rw [haddress] at h
    simp only at h ⊢
    omega
  | exact => exact Nat.le_add_right ..

namespace SameOn

variable {start stop : Nat}

theorem offset_eq (h : doc.SameOn doc' start stop) (pos distance : Nat) :
    doc.offset pos distance = doc'.offset pos distance := by
  unfold offset
  rw [h.addressing]

theorem bytes_eq (h : doc.SameOn doc' start stop) {length : Nat} (hstart : start ≤ pos)
    (hstop : pos + length ≤ stop) : doc.bytes pos length = doc'.bytes pos length := by
  have hsize := h.size
  by_cases hle : pos + length ≤ doc.size
  · rw [bytes_of_le hle, bytes_of_le (by omega)]
    refine congrArg Except.ok (List.ext_getElem? fun i => ?_)
    simp only [List.getElem?_take, List.getElem?_drop]
    split
    · simpa using h.bytes (pos + i) (by omega) (by omega)
    · rfl
  · rw [bytes_of_gt doc (by omega), bytes_of_gt doc' (by omega), hsize]

theorem byte_eq (h : doc.SameOn doc' start stop) (hstart : start ≤ pos) (hstop : pos + 1 ≤ stop) :
    doc.byte pos = doc'.byte pos := by
  unfold byte
  rw [h.bytes_eq hstart hstop]

theorem word_eq (h : doc.SameOn doc' start stop) (hstart : start ≤ pos) (hstop : pos + 4 ≤ stop) :
    doc.word pos = doc'.word pos := by
  unfold word
  rw [h.bytes_eq hstart hstop]

theorem long_eq (h : doc.SameOn doc' start stop) (hstart : start ≤ pos) (hstop : pos + 8 ≤ stop) :
    doc.long pos = doc'.long pos := by
  unfold long
  rw [h.bytes_eq hstart hstop]

theorem span_eq (h : doc.SameOn doc' start stop) (haddress : doc.Addressable pos)
    (hstart : start ≤ pos) (hstop : pos + 8 ≤ stop) : doc.span pos = doc'.span pos := by
  have hlower := le_offset haddress 4
  have hupper := doc.offset_le pos 4
  have hfirst := h.word_eq hstart (show pos + 4 ≤ stop by omega)
  have hsecond := h.word_eq (hstart.trans hlower) (show doc.offset pos 4 + 4 ≤ stop by omega)
  unfold span
  rw [← h.offset_eq, hfirst, hsecond]

theorem isAbsent_eq (h : doc.SameOn doc' start stop) (field : String)
    (haddress : doc.Addressable pos) (hstart : start ≤ pos) (hstop : pos + layout.absence.reach ≤ stop) :
    doc.isAbsent field layout pos = doc'.isAbsent field layout pos := by
  unfold isAbsent
  cases habsence : layout.absence with
  | nullPointer distance =>
    rw [habsence] at hstop
    have hreach : pos + (distance + 8) ≤ stop := hstop
    have hlower := le_offset haddress distance
    have hupper := doc.offset_le pos distance
    simp only
    rw [← h.offset_eq, h.long_eq (hstart.trans hlower) (by omega)]
  | reservedTag distance tag =>
    rw [habsence] at hstop
    have hreach : pos + (distance + 1) ≤ stop := hstop
    have hlower := le_offset haddress distance
    have hupper := doc.offset_le pos distance
    simp only
    rw [← h.offset_eq, h.byte_eq (hstart.trans hlower) (by omega)]
  | emptyText =>
    rw [habsence] at hstop
    have hreach : pos + 12 ≤ stop := hstop
    have hlower := le_offset haddress 8
    have hupper := doc.offset_le pos 8
    simp only
    rw [← h.offset_eq, h.long_eq hstart (by omega), h.word_eq (hstart.trans hlower) (by omega)]
  | unsupported => rfl

theorem openPlace_view_eq (h : doc.SameOn doc' start stop) (kind : ViewKind) (pos : Nat) :
    doc.openPlace (.view kind pos) = doc'.openPlace (.view kind pos) := by
  unfold openPlace extent check
  rw [h.size]

theorem openPlace_sequence_eq (h : doc.SameOn doc' start stop) (element : Layout)
    (haddress : doc.Addressable pos) (hstart : start ≤ pos) (hstop : pos + 24 ≤ stop) :
    doc.openPlace (.sequence element pos) = doc'.openPlace (.sequence element pos) := by
  have hlower := le_offset haddress 8
  have hupper := doc.offset_le pos 8
  have hpointer := h.word_eq hstart (show pos + 4 ≤ stop by omega)
  have hlength := h.word_eq (hstart.trans hlower) (show doc.offset pos 8 + 4 ≤ stop by omega)
  unfold openPlace extent check
  simp only
  rw [← h.offset_eq, hpointer, hlength, h.size]

/-- The node of a variant is where it is in the other document. -/
theorem read_union_eq (h : doc.SameOn doc' start stop) (field : String) {kind : UnionKind}
    (haddress : doc.Addressable pos) (hstart : start ≤ pos) (hstop : pos + kind.size ≤ stop) :
    doc.read field (.union kind) pos = doc'.read field (.union kind) pos := by
  have hsize := kind.size_ge
  have hlower := le_offset haddress 8
  have hupper := doc.offset_le pos 8
  have htag := h.byte_eq hstart (show pos + 1 ≤ stop by omega)
  simp only [read, locate, ← h.offset_eq, htag]
  cases doc'.byte pos with
  | error fault => rfl
  | ok tag =>
    simp only [bind, Except.bind]
    cases hv : kind.variant? tag with
    | none => rfl
    | some v =>
      have hfits := UnionKind.payload_le (UnionKind.mem_of_variant? hv)
      have hview := h.openPlace_view_eq (.node v.node)
      simp only [target]
      cases hinline : v.inline with
      | true => exact congrArg (Datum.variant kind v <$> ·) (hview _)
      | false =>
        have hpayload : v.size = 8 := by simp [Variant.size, hinline]
        have hpointer := h.word_eq (hstart.trans hlower) (show doc.offset pos 8 + 4 ≤ stop by omega)
        simp only [Bool.false_eq_true, if_false, hpointer]
        cases doc'.word (doc.offset pos 8) with
        | error fault => rfl
        | ok pointer => exact congrArg (Datum.variant kind v <$> ·) (hview pointer)

theorem read_slot_eq (h : doc.SameOn doc' start stop) (field : String) {kind : SlotKind}
    (haddress : doc.Addressable pos) (hstart : start ≤ pos) (hstop : pos + 32 ≤ stop) :
    doc.read field (.slot kind) pos = doc'.read field (.slot kind) pos := by
  have hlower := le_offset haddress 8
  have hupper := doc.offset_le pos 8
  have htag := h.byte_eq hstart (show pos + 1 ≤ stop by omega)
  simp only [read, locate, ← h.offset_eq, htag]
  cases doc'.byte pos with
  | error fault => rfl
  | ok tag =>
    simp only [bind, Except.bind]
    cases kind.case? tag with
    | none => rfl
    | some c =>
      simp only
      cases c.payload with
      | nothing => rfl
      | range =>
        have hspan := h.span_eq (doc.addressable_offset pos 8) (hstart.trans hlower) (by omega)
        simp only [hspan]
        cases doc'.span (doc.offset pos 8) <;> rfl
      | name =>
        exact congrArg ((fun o => Datum.slot kind c (.name o)) <$> ·) (h.openPlace_view_eq _ _)

/-- A layout that is no string is read alike if its bytes are the same. -/
theorem read_eq (h : doc.SameOn doc' start stop) (field : String) (hcompact : layout.Compact = true)
    (htext : layout.IsText = false) (haddress : doc.Addressable pos) (hstart : start ≤ pos)
    (hstop : pos + layout.size ≤ stop) :
    doc.read field layout pos = doc'.read field layout pos := by
  induction layout with
  | byte | flag | regExpFlags =>
    simp only [read, locate, flag, h.byte_eq hstart hstop]
    cases doc'.byte pos <;> rfl
  | word =>
    simp only [read, locate, h.word_eq hstart hstop]
    cases doc'.word pos <;> rfl
  | double =>
    simp only [read, locate, double, h.long_eq hstart hstop]
    cases doc'.long pos <;> rfl
  | span =>
    simp only [read, locate, h.span_eq haddress hstart hstop]
    cases doc'.span pos <;> rfl
  | text => cases htext
  | choice kind =>
    simp only [read, locate, h.byte_eq hstart hstop]
    cases doc'.byte pos with
    | error fault => rfl
    | ok tag =>
      simp only [bind, Except.bind]
      cases kind.member? tag <;> rfl
  | view kind => exact congrArg (Datum.object <$> ·) (h.openPlace_view_eq kind pos)
  | union kind => exact h.read_union_eq field haddress hstart hstop
  | slot kind => exact h.read_slot_eq field haddress hstart hstop
  | boxed target =>
    obtain ⟨kind, rfl⟩ := Layout.compact_of_boxed hcompact
    have hpointer : pos + 8 ≤ stop := hstop
    simp only [read, locate, h.word_eq hstart (show pos + 4 ≤ stop by omega)]
    cases doc'.word pos with
    | error fault => rfl
    | ok pointer => exact congrArg (Datum.object <$> ·) (h.openPlace_view_eq kind pointer)
  | sequence element =>
    exact congrArg (Datum.object <$> ·) (h.openPlace_sequence_eq element haddress hstart hstop)
  | optional value ih =>
    obtain ⟨hreach, hvalue⟩ := Layout.compact_of_optional hcompact
    have hsize : pos + value.size ≤ stop := hstop
    have hsentinel : pos + value.absence.reach ≤ stop := by omega
    have habsent := h.isAbsent_eq field haddress hstart hsentinel
    have hread := ih hvalue htext hstop
    simp only [read, locate, habsent] at hread ⊢
    cases doc'.isAbsent field value pos with
    | error fault => rfl
    | ok absent =>
      cases absent with
      | true => rfl
      | false => exact hread

end SameOn

end Document

end FlatSyntax
