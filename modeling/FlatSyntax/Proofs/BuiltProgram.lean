import Mathlib
import FlatSyntax.Proofs.Builder
import FlatSyntax.Proofs.InPlace

/-!
# Programs from a builder

A program that a builder has written is read back from the finished buffer: the trailer names its
root record, and the parts of the root record and of the program are what the builder was given.
-/

namespace FlatSyntax

namespace Document

variable {doc : Document} {pos : Nat}

/-! ## Steps of a path -/

/-- A view that has been opened. -/
def viewItem (kind : ViewKind) (pos : Nat) : Item Unit :=
  ⟨.view kind pos, ⟨pos, kind.fields.length⟩, ()⟩

/-- A sequence that has been opened. -/
def sequenceItem (element : Layout) (pos run count : Nat) : Item Unit :=
  ⟨.sequence element pos, ⟨run, count⟩, ()⟩

theorem follow_key {kind : ViewKind} {name : String} {index : Nat} {field : Field}
    (hindex : (kind.fields.findIdx? fun field => field.key == name) = some index)
    (hfield : kind.fields[index]? = some field) (rest : List Segment) :
    Path.follow doc doc.access (.object (viewItem kind pos)) (.key name :: rest) = (do
      let d ← doc.read field.key field.layout (doc.offset pos field.offset)
      Path.follow doc doc.access d rest) := by
  have hchild : Path.child doc doc.access (.object (viewItem kind pos)) (.key name) =
      some <$> doc.read field.key field.layout (doc.offset pos field.offset) := by
    unfold Path.child Path.field
    simp only [Datum.view?, viewItem, hindex, access, slot?, hfield]
    rfl
  rw [Path.follow, hchild]
  cases doc.read field.key field.layout (doc.offset pos field.offset) <;> rfl

theorem follow_index {element : Layout} {run count index : Nat} (hindex : index < count)
    (rest : List Segment) :
    Path.follow doc doc.access (.object (sequenceItem element pos run count))
      (.index index :: rest) = (do
      let d ← doc.read element.name element (doc.elementPos ⟨run, count⟩ element index)
      Path.follow doc doc.access d rest) := by
  have hslot : doc.access.slot (sequenceItem element pos run count) index =
      doc.read element.name element (doc.elementPos ⟨run, count⟩ element index) :=
    slot_element rfl hindex
  have hchild : Path.child doc doc.access (.object (sequenceItem element pos run count))
      (.index index) =
      some <$> doc.read element.name element (doc.elementPos ⟨run, count⟩ element index) := by
    rw [← hslot]
    exact if_pos hindex
  rw [Path.follow, hchild]
  cases doc.read element.name element (doc.elementPos ⟨run, count⟩ element index) <;> rfl

theorem read_sequence_of_words {element : Layout} {run count : Nat} (field : String)
    (hrun : doc.word pos = .ok run) (hcount : doc.word (doc.offset pos 8) = .ok count)
    (hle : run + count * element.size ≤ doc.size) :
    doc.read field (.sequence element) pos =
      .ok (.object (sequenceItem element pos run count)) := by
  have hcheck : doc.check run (count * element.size) = .ok () := if_pos hle
  simp only [read, locate, bind, Except.bind, Datum.traverse, openPlace, extent, hrun, hcount,
    hcheck]
  rfl

/-- What a statement with a tag and a pointer is: the node that the tag declares, if it is in the
buffer where the pointer leads. -/
def statement (doc : Document) (tag : UInt8) (target : Nat) : Except Fault (Datum (Item Unit)) :=
  match UnionKind.statement.variant? tag with
  | none => .error (.unexpectedTag "Statement" tag)
  | some v =>
    if target + (ViewKind.node v.node).size ≤ doc.size then
      .ok (.variant .statement v (viewItem (.node v.node) target))
    else .error (.outOfBounds target (ViewKind.node v.node).size doc.size)

/-- No statement is stored in place. -/
theorem statement_pointed {tag : UInt8} {v : Variant}
    (h : UnionKind.statement.variant? tag = some v) : v.inline = false := by
  have htable : ∀ v ∈ UnionKind.statement.variants, v.inline = false := by decide
  exact htable v (UnionKind.mem_of_variant? h)

theorem read_statement {tag : UInt8} {target : Nat} (field : String) (htag : doc.byte pos = .ok tag)
    (htarget : doc.word (doc.offset pos 8) = .ok target) :
    doc.read field (.union .statement) pos = doc.statement tag target := by
  unfold statement
  simp only [read, locate, htag, bind, Except.bind]
  cases hv : UnionKind.statement.variant? tag with
  | none => rfl
  | some v =>
    simp only [Document.target, statement_pointed hv, htarget]
    change Datum.variant .statement v <$> doc.openPlace (.view (.node v.node) target) = _
    simp only [openPlace, extent, check]
    split <;> rfl

/-! ## Programs -/

section Program

variable {root run start stop : Nat} {items : List (UInt8 × Nat)}

/-- The way from the root record to a part of its program. -/
theorem follow_program (hroot : root + 280 ≤ doc.size) (hsize : doc.size < wordModulus)
    (rest : List Segment) :
    Path.follow doc doc.access (.object (viewItem (.record .root) root)) (.key "program" :: rest) =
      Path.follow doc doc.access (.object (viewItem (.node .program) root)) rest := by
  have hprogram : (ViewKind.node .program).size = 128 := rfl
  have hoffset : doc.offset root 0 = root := offset_of_lt (by omega)
  rw [follow_key rfl rfl, hoffset, read_view_of_le _ (by omega)]
  rfl

theorem follow_span_of_hasProgram (h : Builder.HasProgram doc.buffer root run start stop items)
    (hsize : doc.size < wordModulus) (hstart : start < wordModulus) (hstop : stop < wordModulus) :
    Path.follow doc doc.access (.object (viewItem (.record .root) root))
      [.key "program", .key "$span"] = .ok (some (.span ⟨start, stop⟩)) := by
  have hroot : root + 280 ≤ doc.size := h.fits
  have hspan : doc.span root = .ok ⟨start, stop⟩ := by
    unfold span
    rw [word_of_stored h.spanStart (by omega) hstart, offset_of_lt (by omega),
      word_of_stored h.spanStop (by omega) hstop]
    rfl
  rw [follow_program hroot hsize]
  exact follow_span rfl hspan

theorem follow_hashbang (h : Builder.HasProgram doc.buffer root run start stop items)
    (hsize : doc.size < wordModulus) :
    Path.follow doc doc.access (.object (viewItem (.record .root) root))
      [.key "program", .key "hashbang"] = .ok (some .absent) := by
  have hroot : root + 280 ≤ doc.size := h.fits
  have hlong : doc.long (doc.offset (doc.offset root 48) 8) = .ok 0 := by
    rw [offset_of_lt (show root + 48 < wordModulus by omega),
      offset_of_lt (show root + 48 + 8 < wordModulus by omega)]
    exact long_of_zeros h.hashbang (by omega)
  have habsent : doc.isAbsent "hashbang" (.node .hashbang) (doc.offset root 48) = .ok true := by
    change (doc.long (doc.offset (doc.offset root 48) 8) >>= _) = _
    rw [hlong]
    rfl
  have hread : doc.read "hashbang" (.optional (.node .hashbang)) (doc.offset root 48) =
      .ok .absent := by
    simp only [read, locate, habsent]
    rfl
  rw [follow_program hroot hsize, follow_key rfl rfl]
  change (doc.read "hashbang" (.optional (.node .hashbang)) (doc.offset root 48) >>= _) = _
  rw [hread]
  rfl

theorem follow_sourceType (h : Builder.HasProgram doc.buffer root run start stop items)
    (hsize : doc.size < wordModulus) :
    Path.follow doc doc.access (.object (viewItem (.record .root) root))
      [.key "program", .key "sourceType", .key "sourceType"] =
        .ok (some (.choice .moduleKind ⟨"Module", 1, "module"⟩)) := by
  have hroot : root + 280 ≤ doc.size := h.fits
  have hrecord : (ViewKind.record .sourceType).size = 2 := rfl
  have hbyte : doc.byte (doc.offset (root + 124) 1) = .ok 1 := by
    rw [offset_of_lt (by omega)]
    exact byte_of_stored h.sourceType (by omega)
  have hread : doc.read "sourceType" (.choice .moduleKind) (doc.offset (root + 124) 1) =
      .ok (.choice .moduleKind ⟨"Module", 1, "module"⟩) := by
    simp only [read, locate, hbyte]
    rfl
  rw [follow_program hroot hsize, follow_key rfl rfl]
  change (doc.read "sourceType" (.record .sourceType) (doc.offset root 124) >>= _) = _
  rw [offset_of_lt (by omega), read_view_of_le _ (by omega)]
  change Path.follow doc doc.access (.object (viewItem (.record .sourceType) (root + 124))) _ = _
  rw [follow_key rfl rfl]
  change (doc.read "sourceType" (.choice .moduleKind) (doc.offset (root + 124) 1) >>= _) = _
  rw [hread]
  rfl

/-- A sequence whose header is zeros is empty. -/
theorem read_sequence_of_zeros {element : Layout} (field : String)
    (h : Stored doc.buffer pos (List.replicate 24 0)) (hle : pos + 24 ≤ doc.size)
    (hsize : doc.size < wordModulus) :
    doc.read field (.sequence element) pos = .ok (.object (sequenceItem element pos 0 0)) := by
  have hcount : doc.word (doc.offset pos 8) = .ok 0 := by
    rw [offset_of_lt (by omega)]
    exact word_of_zeros (h.part (by omega) (by omega)) (by omega)
  have hrun : doc.word pos = .ok 0 := word_of_zeros (h.part (Nat.le_refl pos) (by omega)) (by omega)
  exact read_sequence_of_words field hrun hcount (by omega)

/-- A sequence of the root record is empty if its header is zeros. -/
theorem follow_zeros {name : String} {index distance : Nat} {role : Role} {element : Layout}
    (hindex : ((ViewKind.record .root).fields.findIdx? fun field => field.key == name) = some index)
    (hfield : (ViewKind.record .root).fields[index]? =
      some ⟨role, name, distance, .sequence element⟩)
    (h : Stored doc.buffer (root + distance) (List.replicate 24 0))
    (hle : root + distance + 24 ≤ doc.size) (hsize : doc.size < wordModulus) :
    Path.follow doc doc.access (.object (viewItem (.record .root) root)) [.key name] =
      .ok (some (.object (sequenceItem element (root + distance) 0 0))) := by
  rw [follow_key hindex hfield, offset_of_lt (by simp only; omega),
    read_sequence_of_zeros _ h hle hsize]
  rfl

theorem read_body (h : Builder.HasProgram doc.buffer root run start stop items)
    (hsize : doc.size < wordModulus) :
    doc.read "body" (.sequence (.union .statement)) (root + 96) =
      .ok (.object (sequenceItem (.union .statement) (root + 96) run items.length)) := by
  have hroot : root + 280 ≤ doc.size := h.fits
  have hrun : run + 16 * items.length ≤ doc.size := h.runFits
  have hstride : (Layout.union .statement).size = 16 := by decide
  refine read_sequence_of_words "body" (word_of_pointer h.body (by omega) (by omega)) ?_ ?_
  · rw [offset_of_lt (by omega)]
    exact word_of_stored h.bodyCount (by omega) (by omega)
  · rw [hstride]
    omega

theorem follow_body (h : Builder.HasProgram doc.buffer root run start stop items)
    (hsize : doc.size < wordModulus) (rest : List Segment) :
    Path.follow doc doc.access (.object (viewItem (.record .root) root))
      (.key "program" :: .key "body" :: rest) =
        Path.follow doc doc.access
          (.object (sequenceItem (.union .statement) (root + 96) run items.length)) rest := by
  have hroot : root + 280 ≤ doc.size := h.fits
  rw [follow_program hroot hsize, follow_key rfl rfl]
  change (doc.read "body" (.sequence (.union .statement)) (doc.offset root 96) >>= _) = _
  rw [offset_of_lt (by omega), read_body h hsize]
  rfl

theorem follow_statement (h : Builder.HasProgram doc.buffer root run start stop items)
    (hsize : doc.size < wordModulus) {i : Nat} {tag : UInt8} {target : Nat}
    (hi : items[i]? = some (tag, target)) (htarget : target < wordModulus) :
    Path.follow doc doc.access (.object (viewItem (.record .root) root))
      [.key "program", .key "body", .index i] = some <$> doc.statement tag target := by
  have hlt := (List.getElem?_eq_some_iff.mp hi).1
  have hrun : run + 16 * items.length ≤ doc.size := h.runFits
  have hstride : (Layout.union .statement).size = 16 := by decide
  have hpos : doc.elementPos ⟨run, items.length⟩ (.union .statement) i = run + 16 * i := by
    rw [elementPos_eq hsize]
    · simp only [hstride]
      omega
    · simp only [hstride]
      omega
  obtain ⟨htag, hpointer⟩ := h.statements i (tag, target) hi
  change Stored doc.buffer (run + 16 * i) [tag] at htag
  change Stored doc.buffer (run + 16 * i + 8) (Builder.encode 8 (wordModulus + target)) at hpointer
  have hread : doc.read "Statement" (.union .statement) (run + 16 * i) =
      doc.statement tag target := by
    refine read_statement _ (byte_of_stored htag (by omega)) ?_
    rw [offset_of_lt (by omega)]
    exact word_of_pointer hpointer (by omega) htarget
  rw [follow_body h hsize, follow_index hlt, hpos]
  change (doc.read "Statement" (.union .statement) (run + 16 * i) >>= _) = _
  rw [hread]
  cases doc.statement tag target <;> rfl

end Program

/-! ## Opening -/

/-- The root record of the document, as its trailer has it, is the one at an offset. -/
structure RootedAt (doc : Document) (root : Nat) : Prop where
  /-- Opening by the trailer is opening at that offset. -/
  same : ∀ token, Session.ofTrailer doc token = Session.ofRoot doc token root
  /-- The record is there. -/
  opened : ∀ token, ∃ s, Session.ofTrailer doc token = .ok s ∧ s.rootPos? = some root

/-- What the root record at an offset and its program are, with the statements given by their tags
and pointers. -/
structure ShowsProgram (doc : Document) (root start stop : Nat) (items : List (UInt8 × Nat)) :
    Prop where
  span : ∀ token, Session.askRoot doc token root [.key "program", .key "$span"] .datum =
    .ok (.datum (.span ⟨start, stop⟩))
  hashbang : ∀ token, Session.askRoot doc token root [.key "program", .key "hashbang"] .datum =
    .ok (.datum .absent)
  sourceType : ∀ token, Session.askRoot doc token root
      [.key "program", .key "sourceType", .key "sourceType"] .datum =
    .ok (.datum (.choice .moduleKind ⟨"Module", 1, "module"⟩))
  comments : ∃ item : Item Unit, item.place = .sequence (.record .comment) (root + 128) ∧
    item.extent.count = 0 ∧
    ∀ token, Session.askRoot doc token root [.key "comments"] .datum = .ok (.datum (.object item))
  errors : ∃ item : Item Unit, item.place = .sequence (.record .diagnostic) (root + 256) ∧
    item.extent.count = 0 ∧
    ∀ token, Session.askRoot doc token root [.key "errors"] .datum = .ok (.datum (.object item))
  body : ∃ item : Item Unit, item.place = .sequence (.union .statement) (root + 96) ∧
    item.extent.count = items.length ∧
    ∀ token, Session.askRoot doc token root [.key "program", .key "body"] .datum =
      .ok (.datum (.object item))
  statement : ∀ {i : Nat} {tag : UInt8} {target : Nat}, items[i]? = some (tag, target) →
    ∀ token, Session.askRoot doc token root [.key "program", .key "body", .index i] .datum =
      Answer.datum <$> doc.statement tag target

theorem askRoot_of_follow {root : Nat} {path : List Segment} {r : Except Fault (Datum (Item Unit))}
    (hroot : root + 280 ≤ doc.size)
    (h : Path.follow doc doc.access (.object (viewItem (.record .root) root)) path = some <$> r)
    (token : UInt32) : Session.askRoot doc token root path .datum = Answer.datum <$> r := by
  rw [Session.askRoot_eq, read_view_of_le _ hroot]
  change doc.ask path .datum (.object (viewItem (.record .root) root)) = _
  unfold ask
  rw [h]
  cases r <;> rfl

theorem askRoot_of_found {root : Nat} {path : List Segment} {d : Datum (Item Unit)}
    (hroot : root + 280 ≤ doc.size)
    (h : Path.follow doc doc.access (.object (viewItem (.record .root) root)) path = .ok (some d))
    (token : UInt32) : Session.askRoot doc token root path .datum = .ok (.datum d) :=
  askRoot_of_follow (r := .ok d) hroot h token

theorem showsProgram_of_hasProgram {root run start stop : Nat} {items : List (UInt8 × Nat)}
    (h : Builder.HasProgram doc.buffer root run start stop items) (hsize : doc.size < wordModulus)
    (hstart : start < wordModulus) (hstop : stop < wordModulus)
    (htargets : ∀ item ∈ items, item.2 < wordModulus) :
    doc.ShowsProgram root start stop items where
  span := askRoot_of_found h.fits (follow_span_of_hasProgram h hsize hstart hstop)
  hashbang := askRoot_of_found h.fits (follow_hashbang h hsize)
  sourceType := askRoot_of_found h.fits (follow_sourceType h hsize)
  comments := by
    have hroot : root + 280 ≤ doc.size := h.fits
    exact ⟨_, rfl, rfl,
      askRoot_of_found hroot (follow_zeros rfl rfl h.comments (by omega) hsize)⟩
  errors := by
    have hroot : root + 280 ≤ doc.size := h.fits
    exact ⟨_, rfl, rfl, askRoot_of_found hroot (follow_zeros rfl rfl h.errors (by omega) hsize)⟩
  body := ⟨sequenceItem (.union .statement) (root + 96) run items.length, rfl, rfl,
    askRoot_of_found h.fits (follow_body h hsize [])⟩
  statement hi := askRoot_of_follow h.fits
    (follow_statement h hsize hi (htargets _ (List.mem_of_getElem? hi)))

theorem trailerRoot_of_finishes {b : Builder} {root : Nat} (h : b.Finishes doc.buffer)
    (hroot : b.root = some root) (hlt : root < wordModulus) : doc.trailerRoot = .ok root := by
  have hlonger : b.length + 16 ≤ doc.size := h.longer
  have htrailer : trailerSize = 16 := rfl
  unfold trailerRoot
  rw [if_neg (by omega)]
  exact word_of_stored (h.trailer root hroot) (by omega) hlt

end Document

namespace Session

/-- A root record whose bytes are in the buffer can be opened. -/
theorem ofRoot_of_le {doc : Document} {root : Nat} (h : root + 280 ≤ doc.size) (token : UInt32) :
    ∃ s, ofRoot doc token root = .ok s ∧ s.rootPos? = some root := by
  have hread : doc.read "root" (.record .root) root =
      .ok (.object (Document.viewItem (.record .root) root)) := Document.read_view_of_le _ h
  have hout := (decode_reading (.start doc token) "root" (.record .root) root).outcome
  obtain ⟨d, hd, hagrees⟩ := hout.of_ok hread
  obtain ⟨item, rfl, hplace⟩ := Datum.eq_object_of_erase hagrees.2
  refine ⟨((start doc token).exec (decode "root" (.record .root) root)).2.save rootHandle
    (.object item), ?_, ?_⟩
  · change Except.map _ ((start doc token).exec (decode "root" (.record .root) root)).1 = _
    rw [hd]
    rfl
  · simp [rootPos?, save, handle?, Datum.object?, hplace, Document.viewItem, Place.pos]

end Session

theorem Document.rootedAt_of_trailer {doc : Document} {root : Nat} (h : root + 280 ≤ doc.size)
    (htrailer : doc.trailerRoot = .ok root) : doc.RootedAt root := by
  have hsame : ∀ token, Session.ofTrailer doc token = Session.ofRoot doc token root := by
    intro token
    unfold Session.ofTrailer
    rw [htrailer]
    rfl
  refine ⟨hsame, fun token => ?_⟩
  rw [hsame]
  exact Session.ofRoot_of_le h token

namespace Builder

/-- What becomes of a program that was just written at an offset, in finished buffers with offsets
of 32 bits: at once, and after further calls. -/
structure ReadsBack (written : Nat × Builder) (start stop : Nat) (items : List (UInt8 × Nat))
    (after : List BuildCall) : Prop where
  program : ∀ doc : Document, doc.buffer = written.2.finish → doc.size < wordModulus →
    doc.RootedAt written.1 ∧ doc.ShowsProgram written.1 start stop items
  last : ∀ doc : Document, doc.buffer = (written.2.callAll after).finish → doc.size < wordModulus →
    doc.RootedAt written.1

/-- Whatever a builder has done before, a program that it writes is read back, and it is the one
that the trailer names until another is written. -/
theorem program_readsBack (source : String) (before after : List BuildCall) (start stop : UInt32)
    (items : List (UInt8 × UInt32)) (hafter : ∀ c ∈ after, c.WritesRoot = false) :
    ReadsBack (((ofSource source).callAll before).program start.toNat stop.toNat
        (items.map fun item => (item.1, item.2.toNat)))
      start.toNat stop.toNat (items.map fun item => (item.1, item.2.toNat)) after := by
  generalize (ofSource source).callAll before = b
  generalize hitems : (items.map fun item => (item.1, item.2.toNat)) = pairs
  obtain ⟨run, hprogram⟩ := b.hasProgram_program start.toNat stop.toNat pairs
  have hroot := b.root_program start.toNat stop.toNat pairs
  generalize b.program start.toNat stop.toNat pairs = written at hprogram hroot ⊢
  have hfits : written.1 + 280 ≤ written.2.length := hprogram.fits
  constructor
  · intro doc hbuffer hsize
    have hfinishes := written.2.finish_finishes
    rw [← hbuffer] at hfinishes
    have hlonger : written.2.length + 16 ≤ doc.size := hfinishes.longer
    have hbuilt : HasProgram doc.buffer written.1 run start.toNat stop.toNat pairs :=
      hprogram.mono (by change written.2.length ≤ doc.size; omega) hfinishes.kept
    refine ⟨Document.rootedAt_of_trailer (by omega)
      (Document.trailerRoot_of_finishes hfinishes hroot (by omega)), ?_⟩
    refine Document.showsProgram_of_hasProgram hbuilt hsize start.toNat_lt stop.toNat_lt ?_
    intro item hitem
    rw [← hitems] at hitem
    obtain ⟨original, _, rfl⟩ := List.mem_map.mp hitem
    exact original.2.toNat_lt
  · intro doc hbuffer hsize
    have hcontinues := written.2.callAll_continues hafter
    have hfinishes := (written.2.callAll after).finish_finishes
    rw [← hbuffer] at hfinishes
    have hlonger : (written.2.callAll after).length + 16 ≤ doc.size := hfinishes.longer
    have hgrown := hcontinues.longer
    exact Document.rootedAt_of_trailer (by omega)
      (Document.trailerRoot_of_finishes hfinishes (hcontinues.root.trans hroot) (by omega))

/-- A program of one statement behind three bytes. -/
def oneStatement : Nat × Builder :=
  ((ofSource "").callAll [.alloc 3]).program 1 4 [(3, 0)]

/-- The finished buffer of that program. -/
def oneStatementDocument : Document where
  buffer := oneStatement.2.finish
  sourceText := ""
  sourceIsAscii := true
  sourceLength := 0
  options := {}

theorem oneStatement_readsBack :
    ReadsBack oneStatement 1 4 [(3, 0)] [.byte 0 7] ∧ oneStatementDocument.RootedAt 8 ∧
      oneStatementDocument.ShowsProgram 8 1 4 [(3, 0)] := by
  have hback : ReadsBack oneStatement 1 4 [(3, 0)] [.byte 0 7] :=
    program_readsBack "" [.alloc 3] [.byte 0 7] 1 4 [(3, 0)] (by decide)
  have hroot : oneStatement.1 = 8 := by decide +kernel
  have hsize : oneStatementDocument.size < wordModulus := by decide +kernel
  have hbuffer : oneStatementDocument.buffer = oneStatement.2.finish := by
    simp only [oneStatementDocument]
  have hprogram := hback.program oneStatementDocument hbuffer hsize
  rw [hroot] at hprogram
  exact ⟨hback, hprogram⟩

end Builder

end FlatSyntax
