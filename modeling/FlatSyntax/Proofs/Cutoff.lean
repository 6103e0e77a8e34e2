import Mathlib
import FlatSyntax.Document.Path
import FlatSyntax.Proofs.DocumentReads
import FlatSyntax.Proofs.Needed
import FlatSyntax.Proofs.Strings
import FlatSyntax.Proofs.Walk

/-!
# Cutting off

Two computations go side by side, and the first may end early, in a fault of a given sort, where the
second goes on. Until then they do the same, so what the first gives is what the second gives, and
what it has recorded is where the second starts. The relation is kept by sequencing. Hence a document
whose single reads are cut off from those of another has its projections, its paths and its walks cut
off from those of the other. The sort of fault is left open: reads are cut off when a buffer is
shorter, and projections and walks when they may nest less deep.
-/

namespace FlatSyntax

variable {cut : Fault → Prop}

/-- `r` is `r'`, or a fault of the given sort in place of it. -/
def Cutoff {α : Type} (cut : Fault → Prop) (r r' : Except Fault α) : Prop :=
  r = r' ∨ ∃ f, cut f ∧ r = .error f

namespace Cutoff

variable {α β : Type} {r r' : Except Fault α}

theorem refl (r : Except Fault α) : Cutoff cut r r := .inl rfl

theorem of_fault {f : Fault} (h : cut f) (r' : Except Fault α) : Cutoff cut (.error f) r' :=
  .inr ⟨f, h, rfl⟩

theorem eq_of_ok {a : α} (h : Cutoff cut r r') (hr : r = .ok a) : r' = .ok a := by
  rcases h with rfl | ⟨f, _, hf⟩
  · exact hr
  · rw [hr] at hf
    cases hf

theorem bind_of_ok {f g : α → Except Fault β} (h : Cutoff cut r r')
    (hf : ∀ a, r = .ok a → Cutoff cut (f a) (g a)) : Cutoff cut (r >>= f) (r' >>= g) := by
  rcases h with rfl | ⟨fault, hfault, rfl⟩
  · cases r with
    | error fault => exact .refl _
    | ok a => exact hf a rfl
  · exact of_fault hfault _

theorem bind {f g : α → Except Fault β} (h : Cutoff cut r r') (hf : ∀ a, Cutoff cut (f a) (g a)) :
    Cutoff cut (r >>= f) (r' >>= g) :=
  h.bind_of_ok fun a _ => hf a

theorem map (f : α → β) (h : Cutoff cut r r') : Cutoff cut (f <$> r) (f <$> r') := by
  rcases h with rfl | ⟨fault, hfault, rfl⟩
  · exact .refl _
  · exact of_fault hfault _

theorem mapM {f g : α → Except Fault β} (l : List α) (hf : ∀ a, Cutoff cut (f a) (g a)) :
    Cutoff cut (l.mapM f) (l.mapM g) := by
  induction l with
  | nil => exact .refl _
  | cons a rest ih =>
    rw [List.mapM_cons, List.mapM_cons]
    exact (hf a).bind fun b => ih.bind fun bs => .refl _

theorem foldlM {f g : β → α → Except Fault β} (l : List α) (b : β)
    (hf : ∀ b a, Cutoff cut (f b a) (g b a)) : Cutoff cut (l.foldlM f b) (l.foldlM g b) := by
  induction l generalizing b with
  | nil => exact .refl _
  | cons a rest ih =>
    rw [List.foldlM_cons, List.foldlM_cons]
    exact (hf b a).bind fun c => ih c

end Cutoff

/-! ## Reads -/

theorem ViewKind.size_pos (kind : ViewKind) : 0 < kind.size := by
  have hnodes : ∀ k ∈ NodeKind.all, 0 < (ViewKind.node k).size := by decide
  have hrecords : ∀ k ∈ RecordKind.all, 0 < (ViewKind.record k).size := by decide
  cases kind with
  | node k => exact hnodes k k.mem_all
  | record k => exact hrecords k k.mem_all

namespace Document

/-- The buffer ends before the largest offset, and the fault of reading there is of the given
sort. -/
def Ends (cut : Fault → Prop) (doc : Document) : Prop :=
  ∀ pos length, largestWord ≤ pos → 0 < length → ∃ f, cut f ∧ doc.check pos length = .error f

/-- An offset in `doc` and one in `doc'` that a read goes on at: the same, or one where the read in
`doc` is cut off. -/
def Near (cut : Fault → Prop) (doc : Document) (pos pos' : Nat) : Prop :=
  pos = pos' ∨ (largestWord ≤ pos ∧ doc.Ends cut)

theorem Near.refl {doc : Document} (pos : Nat) : doc.Near cut pos pos := .inl rfl

theorem Near.eq_of_check {doc : Document} {pos pos' length : Nat} (h : doc.Near cut pos pos')
    (hlength : 0 < length) (hcheck : doc.check pos length = .ok ()) : pos = pos' := by
  rcases h with heq | ⟨hlarge, hends⟩
  · exact heq
  · obtain ⟨f, _, hf⟩ := hends pos length hlarge hlength
    rw [hcheck] at hf
    cases hf

/-- Single reads of `doc` are those of `doc'` cut off, with the same source, and at the same offsets
up to where the buffer has ended. -/
structure CutFrom (cut : Fault → Prop) (doc doc' : Document) : Prop where
  addressing : doc'.addressing = doc.addressing ∨ doc.Ends cut
  check : ∀ pos length, Cutoff cut (doc.check pos length) (doc'.check pos length)
  bytes : ∀ pos length, Cutoff cut (doc.bytes pos length) (doc'.bytes pos length)
  windows : ∀ pointer length, doc'.windowFor? pointer length = doc.windowFor? pointer length
  sources : ∀ span, doc'.sourceOf span = doc.sourceOf span

namespace CutFrom

variable {doc doc' : Document} {pos pos' : Nat}

theorem refl (doc : Document) : CutFrom cut doc doc where
  addressing := .inl rfl
  check _ _ := .refl _
  bytes _ _ := .refl _
  windows _ _ := rfl
  sources _ := rfl

/-! Sums and products of offsets -/

theorem offset (h : CutFrom cut doc doc') (hpos : doc.Near cut pos pos') (distance : Nat) :
    doc.Near cut (doc.offset pos distance) (doc'.offset pos' distance) := by
  rcases hpos with rfl | ⟨hlarge, hends⟩
  · rcases h.addressing with heq | hends
    · left
      unfold Document.offset
      rw [heq]
    · by_cases hle : pos + distance ≤ largestWord
      · exact .inl ((Addressing.add_of_le hle).trans (Addressing.add_of_le hle).symm)
      · exact .inr ⟨Addressing.le_add (by omega), hends⟩
  · exact .inr ⟨Addressing.le_add (by omega), hends⟩

/-- The offset of a single element. -/
theorem element (h : CutFrom cut doc doc') (base index size : Nat) :
    doc.Near cut (doc.offset base (doc.addressing.scale index size))
      (doc'.offset base (doc'.addressing.scale index size)) := by
  rcases h.addressing with heq | hends
  · left
    unfold Document.offset
    rw [heq]
  · by_cases hle : index * size ≤ largestWord
    · rw [Addressing.scale_of_le hle, Addressing.scale_of_le hle]
      exact h.offset (.refl base) _
    · have hscale := doc.addressing.le_scale (show largestWord ≤ index * size by omega)
      exact .inr ⟨Addressing.le_add (by omega), hends⟩

/-- The offset of an element in a walk over a run that is in the buffer: the product does not wrap
around, since the run has ended before. -/
theorem walked (h : CutFrom cut doc doc') {pointer length index size : Nat}
    (hrun : doc.check pointer (length * size) = .ok ()) (hindex : index < length) :
    doc.Near cut (doc.offset pointer (doc.addressing.stride index size))
      (doc'.offset pointer (doc'.addressing.stride index size)) := by
  rcases h.addressing with heq | hends
  · left
    unfold Document.offset
    rw [heq]
  · have hsize : doc.size < wordModulus := by
      obtain ⟨f, _, hf⟩ := hends largestWord 1 (Nat.le_refl _) Nat.one_pos
      by_contra hlong
      unfold Document.check at hf
      rw [if_pos (by unfold largestWord wordModulus at *; omega)] at hf
      cases hf
    have hbound := check_ok hrun
    have hprod : index * size ≤ length * size := Nat.mul_le_mul_right size hindex.le
    have hlt : index * size < wordModulus := by omega
    rw [Addressing.stride_of_lt hlt, Addressing.stride_of_lt hlt]
    exact h.offset (.refl pointer) _

/-! Reads at two offsets -/

theorem checkAt (h : CutFrom cut doc doc') (hpos : doc.Near cut pos pos') {length : Nat}
    (hlength : 0 < length) : Cutoff cut (doc.check pos length) (doc'.check pos' length) := by
  rcases hpos with rfl | ⟨hlarge, hends⟩
  · exact h.check pos length
  · obtain ⟨f, hf, hcheck⟩ := hends pos length hlarge hlength
    rw [hcheck]
    exact .of_fault hf _

theorem bytesAt (h : CutFrom cut doc doc') (hpos : doc.Near cut pos pos') {length : Nat}
    (hlength : 0 < length) : Cutoff cut (doc.bytes pos length) (doc'.bytes pos' length) := by
  rcases hpos with rfl | ⟨hlarge, hends⟩
  · exact h.bytes pos length
  · obtain ⟨f, hf, hcheck⟩ := hends pos length hlarge hlength
    unfold Document.bytes
    rw [hcheck]
    exact .of_fault hf _

theorem byte (h : CutFrom cut doc doc') (hpos : doc.Near cut pos pos') :
    Cutoff cut (doc.byte pos) (doc'.byte pos') :=
  (h.bytesAt hpos (by decide)).bind fun _ => .refl _

theorem word (h : CutFrom cut doc doc') (hpos : doc.Near cut pos pos') :
    Cutoff cut (doc.word pos) (doc'.word pos') :=
  (h.bytesAt hpos (by decide)).bind fun _ => .refl _

theorem long (h : CutFrom cut doc doc') (hpos : doc.Near cut pos pos') :
    Cutoff cut (doc.long pos) (doc'.long pos') :=
  (h.bytesAt hpos (by decide)).bind fun _ => .refl _

theorem span (h : CutFrom cut doc doc') (hpos : doc.Near cut pos pos') :
    Cutoff cut (doc.span pos) (doc'.span pos') :=
  (h.word hpos).bind fun _ => (h.word (h.offset hpos 4)).bind fun _ => .refl _

theorem text (h : CutFrom cut doc doc') (hpos : doc.Near cut pos pos') :
    Cutoff cut (doc.text pos) (doc'.text pos') := by
  rw [text_eq, text_eq]
  refine (h.word (h.offset hpos 8)).bind fun length => ?_
  split
  · exact .refl _
  · refine (h.word hpos).bind fun pointer => ?_
    unfold textAt
    rw [h.windows]
    split
    · exact .refl _
    · exact (h.bytes pointer length).map _

theorem isAbsent (h : CutFrom cut doc doc') (field : String) (layout : Layout)
    (hpos : doc.Near cut pos pos') :
    Cutoff cut (doc.isAbsent field layout pos) (doc'.isAbsent field layout pos') := by
  unfold Document.isAbsent
  cases layout.absence with
  | nullPointer distance => exact (h.long (h.offset hpos distance)).bind fun _ => .refl _
  | reservedTag distance tag => exact (h.byte (h.offset hpos distance)).bind fun _ => .refl _
  | emptyText =>
    refine (h.long hpos).bind fun pointer => ?_
    split
    · exact (h.word (h.offset hpos 8)).bind fun _ => .refl _
    · exact .refl _
  | unsupported => exact .refl _

/-- A view that is opened is at the same offset in both documents. -/
theorem openView (h : CutFrom cut doc doc') (kind : ViewKind) (hpos : doc.Near cut pos pos') :
    Cutoff cut (doc.openPlace (.view kind pos)) (doc'.openPlace (.view kind pos')) := by
  simp only [Document.openPlace, Document.extent, bind_assoc]
  refine (h.checkAt hpos kind.size_pos).bind_of_ok fun _ hcheck => ?_
  obtain rfl := hpos.eq_of_check kind.size_pos hcheck
  exact .refl _

theorem openSequence (h : CutFrom cut doc doc') (element : Layout) (hpos : doc.Near cut pos pos') :
    Cutoff cut (doc.openPlace (.sequence element pos))
      (doc'.openPlace (.sequence element pos')) := by
  rcases hpos with rfl | ⟨hlarge, hends⟩
  · refine Cutoff.bind ?_ fun extent => .refl _
    refine (h.word (.refl pos)).bind fun pointer => ?_
    refine (h.word (h.offset (.refl pos) 8)).bind fun length => ?_
    exact (h.check pointer _).bind fun _ => .refl _
  · obtain ⟨f, hf, hcheck⟩ := hends pos 4 hlarge (by decide)
    simp only [Document.openPlace, Document.extent, Document.word, Document.bytes, hcheck]
    exact .of_fault hf _

/-- A read that comes to no view and no sequence. -/
theorem scalar {α : Type} {r r' : Except Fault α} (hr : Cutoff cut r r') {f : α → Datum Place}
    (hf : ∀ a, (f a).object? = none) :
    Cutoff cut ((f <$> r) >>= Datum.traverse doc.openPlace)
      ((f <$> r') >>= Datum.traverse doc'.openPlace) := by
  refine (hr.map f).bind_of_ok fun d hd => ?_
  obtain ⟨a, _, rfl⟩ := ok_of_map hd
  rw [Datum.traverse_of_none (hf a) _ fun place => ⟨place, ⟨0, 0⟩, ()⟩,
    Datum.traverse_of_none (hf a) _ fun place => ⟨place, ⟨0, 0⟩, ()⟩]
  exact .refl _

theorem read (h : CutFrom cut doc doc') (field : String) (layout : Layout)
    (hpos : doc.Near cut pos pos') :
    Cutoff cut (doc.read field layout pos) (doc'.read field layout pos') := by
  unfold Document.read
  induction layout generalizing pos pos' with
  | byte => exact scalar (h.byte hpos) fun _ => rfl
  | word => exact scalar (h.word hpos) fun _ => rfl
  | double => exact scalar ((h.long hpos).bind fun _ => .refl _) fun _ => rfl
  | flag => exact scalar ((h.byte hpos).bind fun _ => .refl _) fun _ => rfl
  | span => exact scalar (h.span hpos) fun _ => rfl
  | regExpFlags => exact scalar (h.byte hpos) fun _ => rfl
  | text => exact scalar (h.text hpos) fun _ => rfl
  | choice kind =>
    simp only [Document.locate, bind_assoc]
    refine (h.byte hpos).bind fun tag => ?_
    cases kind.member? tag <;> exact .refl _
  | view kind => exact (h.openView kind hpos).map _
  | union kind =>
    simp only [Document.locate, bind_assoc]
    refine (h.byte hpos).bind fun tag => ?_
    cases kind.variant? tag with
    | none => exact .refl _
    | some v =>
      simp only [Document.target]
      split
      · exact (h.openView _ (h.offset hpos 8)).map _
      · simp only [bind_assoc]
        exact (h.word (h.offset hpos 8)).bind fun target => (h.openView _ (.refl target)).map _
  | slot kind =>
    simp only [Document.locate, bind_assoc]
    refine (h.byte hpos).bind fun tag => ?_
    cases kind.case? tag with
    | none => exact .refl _
    | some c =>
      simp only
      cases c.payload with
      | nothing => exact .refl _
      | range =>
        simp only [bind_assoc]
        exact (h.span (h.offset hpos 8)).bind fun span => .refl _
      | name => exact (h.openView _ (h.offset hpos 8)).map _
  | boxed layout ih =>
    simp only [Document.locate, bind_assoc]
    exact (h.word hpos).bind fun target => ih (.refl target)
  | sequence element => exact (h.openSequence element hpos).map _
  | optional layout ih =>
    simp only [Document.locate, bind_assoc]
    refine (h.isAbsent field layout hpos).bind fun absent => ?_
    cases absent with
    | true => exact .refl _
    | false => exact ih hpos

theorem slot (h : CutFrom cut doc doc') (item : Item Unit) (index : Nat) :
    Cutoff cut (doc.access.slot item index) (doc'.access.slot item index) := by
  obtain ⟨place, extent, mark⟩ := item
  cases place with
  | view kind pos =>
    simp only [Document.access, slot?]
    cases kind.fields[index]? with
    | none => exact .refl _
    | some field => exact h.read field.key field.layout (h.offset (.refl extent.base) field.offset)
  | sequence element pos =>
    simp only [Document.access, slot?]
    by_cases hindex : index < extent.count
    · simp only [hindex, guard, if_true]
      exact h.read element.name element (h.element extent.base index element.size)
    · simp only [hindex, guard, if_false]
      exact .refl _

/-! ## Projections -/

theorem slotParts (h : CutFrom cut doc doc') (content : SlotContent (Item Unit)) :
    Cutoff cut (Projection.slotParts doc.access content)
      (Projection.slotParts doc'.access content) := by
  cases content with
  | nothing => exact .refl _
  | range span => exact .refl _
  | name item =>
    refine (h.slot item 0).bind fun text => (h.slot item 1).bind fun start => ?_
    exact (h.slot item 2).bind fun stop => .refl _

section Values

variable {view view' : Item Unit → Except Fault Value}

theorem single (h : CutFrom cut doc doc') (hview : ∀ item, Cutoff cut (view item) (view' item))
    (d : Datum (Item Unit)) :
    Cutoff cut (Projection.single doc.access view d) (Projection.single doc'.access view' d) := by
  cases d with
  | object item => exact hview item
  | variant k v item => exact hview item
  | slot k c content => exact (h.slotParts content).bind fun parts => .refl _
  | _ => exact .refl _

theorem datum (h : CutFrom cut doc doc') (hview : ∀ item, Cutoff cut (view item) (view' item))
    (layout : Layout) (d : Datum (Item Unit)) :
    Cutoff cut (Projection.datum doc.access view layout d)
      (Projection.datum doc'.access view' layout d) := by
  induction layout generalizing d with
  | boxed layout ih => exact ih d
  | optional layout ih =>
    rw [datum_optional, datum_optional]
    exact ih d
  | sequence element ih =>
    cases d with
    | object item =>
      refine Cutoff.bind (.mapM _ fun index => ?_) fun values => .refl _
      exact (h.slot item index).bind fun d => ih d
    | _ => exact h.single hview _
  | _ => exact h.single hview d

theorem fields (h : CutFrom cut doc doc') (hview : ∀ item, Cutoff cut (view item) (view' item))
    (kind : ViewKind) (item : Item Unit) :
    Cutoff cut (Projection.fields doc.access view kind item)
      (Projection.fields doc'.access view' kind item) := by
  refine .foldlM _ _ fun entries entry => ?_
  refine (h.slot item entry.2).bind fun d => ?_
  exact (h.datum hview entry.1.layout d).bind fun value => .refl _

end Values

end CutFrom

/-- With `depth` levels left in `doc` and `depth'` in `doc'`: as many and with the same limit, or no
more and running out of them is a fault of the given sort. -/
def Levels (cut : Fault → Prop) (doc doc' : Document) (depth depth' : Nat) : Prop :=
  (depth = depth' ∧ doc.options.maxDepth = doc'.options.maxDepth) ∨
    (depth ≤ depth' ∧ cut (.tooDeep doc.options.maxDepth))

theorem Levels.succ {doc doc' : Document} {depth depth' : Nat}
    (h : Levels cut doc doc' (depth + 1) depth') :
    ∃ below, depth' = below + 1 ∧ Levels cut doc doc' depth below := by
  refine ⟨depth' - 1, ?_⟩
  rcases h with ⟨heq, hlimit⟩ | ⟨hle, hcut⟩
  · exact ⟨by omega, .inl ⟨by omega, hlimit⟩⟩
  · exact ⟨by omega, .inr ⟨by omega, hcut⟩⟩

namespace CutFrom

variable {doc doc' : Document}

theorem view (h : CutFrom cut doc doc') {depth depth' : Nat}
    (hlevels : Levels cut doc doc' depth depth') (item : Item Unit) :
    Cutoff cut (Projection.view doc doc.access depth item)
      (Projection.view doc' doc'.access depth' item) := by
  induction depth generalizing depth' item with
  | zero =>
    rcases hlevels with ⟨rfl, hlimit⟩ | ⟨_, hcut⟩
    · unfold Projection.view
      rw [hlimit]
      exact .refl _
    · exact .of_fault hcut _
  | succ depth ih =>
    obtain ⟨below, rfl, hbelow⟩ := hlevels.succ
    obtain ⟨place, extent, mark⟩ := item
    cases place with
    | sequence element pos => exact .refl _
    | view kind pos =>
      cases kind with
      | record kind =>
        exact (h.fields (ih hbelow) (.record kind) _).bind fun entries => .refl _
      | node kind =>
        refine (h.fields (ih hbelow) (.node kind) _).bind fun entries => ?_
        have hspan : Cutoff cut (MonadExcept.ofExcept (doc.span pos) : Except Fault Span)
            (MonadExcept.ofExcept (doc'.span pos)) := by
          rw [Session.ofExcept_except, Session.ofExcept_except]
          exact h.span (.refl pos)
        exact hspan.bind fun span => .refl _

theorem project (h : CutFrom cut doc doc')
    (hlevels : Levels cut doc doc' doc.options.maxDepth doc'.options.maxDepth) (layout : Layout)
    (d : Datum (Item Unit)) :
    Cutoff cut (Projection.project doc doc.access layout d)
      (Projection.project doc' doc'.access layout d) :=
  h.datum (h.view hlevels) layout d

/-! ## Paths -/

theorem nodeText (h : CutFrom cut doc doc') (pos : Nat) :
    Cutoff cut (doc.nodeText pos) (doc'.nodeText pos) := by
  refine (h.span (.refl pos)).bind fun span => ?_
  rw [h.sources]
  exact .refl _

theorem property {ω : Type} (h : CutFrom cut doc doc') (kind : NodeKind) (pos : Nat)
    (name : String) :
    Cutoff cut (doc.property kind pos name : Except Fault (Option (Datum ω)))
      (doc'.property kind pos name) := by
  unfold Document.property
  split
  · exact (h.span (.refl pos)).bind fun span => .refl _
  · exact (h.span (.refl pos)).bind fun span => .refl _
  · exact (h.span (.refl pos)).bind fun span => .refl _
  · exact (h.nodeText pos).bind fun text => .refl _
  · exact .refl _
  · exact .refl _

theorem field (h : CutFrom cut doc doc') (kind : ViewKind) (pos : Nat) (item : Item Unit)
    (name : String) :
    Cutoff cut (Path.field doc doc.access kind pos item name)
      (Path.field doc' doc'.access kind pos item name) := by
  unfold Path.field
  cases kind.fields.findIdx? fun field => field.key == name with
  | some index => exact (h.slot item index).map _
  | none =>
    cases kind with
    | record kind => exact .refl _
    | node kind =>
      simp only [Session.ofExcept_except]
      exact h.property kind pos name

theorem child (h : CutFrom cut doc doc') (d : Datum (Item Unit)) (segment : Segment) :
    Cutoff cut (Path.child doc doc.access d segment) (Path.child doc' doc'.access d segment) := by
  cases segment with
  | key name =>
    unfold Path.child
    cases d.view? with
    | none => exact .refl _
    | some found => exact h.field found.1 found.2.1 found.2.2 name
  | index n =>
    unfold Path.child
    cases d.sequence? with
    | none => exact .refl _
    | some found =>
      change Cutoff cut
        (if n < found.2.extent.count then some <$> doc.access.slot found.2 n else pure none)
        (if n < found.2.extent.count then some <$> doc'.access.slot found.2 n else pure none)
      split
      · exact (h.slot found.2 n).map _
      · exact .refl _

theorem follow (h : CutFrom cut doc doc') (d : Datum (Item Unit)) (path : List Segment) :
    Cutoff cut (Path.follow doc doc.access d path) (Path.follow doc' doc'.access d path) := by
  induction path generalizing d with
  | nil => exact .refl _
  | cons segment rest ih =>
    refine (h.child d segment).bind fun next => ?_
    cases next with
    | none => exact .refl _
    | some next => exact ih next

end CutFrom

end Document

/-! ## Walks -/

namespace Trace

variable {α β : Type}

/-- A trace is another one, or its beginning up to a fault of the given sort. -/
def CutFrom (cut : Fault → Prop) (t u : Trace α) : Prop :=
  t = u ∨ ∃ f, cut f ∧ t.result = .error f ∧ t.events <+: u.events

theorem CutFrom.refl (t : Trace α) : CutFrom cut t t := .inl rfl

theorem CutFrom.ofExcept {r r' : Except Fault α} (h : Cutoff cut r r') :
    CutFrom cut (Trace.ofExcept r) (Trace.ofExcept r') := by
  rcases h with rfl | ⟨f, hf, rfl⟩
  · exact .refl _
  · exact .inr ⟨f, hf, rfl, List.nil_prefix⟩

theorem CutFrom.bind_of_ok {t u : Trace α} {f g : α → Trace β} (h : CutFrom cut t u)
    (hf : ∀ a, t.result = .ok a → CutFrom cut (f a) (g a)) :
    CutFrom cut (t >>= f) (u >>= g) := by
  rcases h with rfl | ⟨fault, hfault, hresult, hevents⟩
  · obtain ⟨events, result⟩ := t
    cases result with
    | error fault => exact .refl _
    | ok a =>
      rw [bind_ok, bind_ok]
      rcases hf a rfl with heq | ⟨fault, hfault, hresult, hevents⟩
      · rw [heq]
        exact .refl _
      · exact .inr ⟨fault, hfault, hresult, (List.prefix_append_right_inj _).mpr hevents⟩
  · -- the second trace may go on
    have hprefix : u.events <+: (u >>= g).events := by
      obtain ⟨events, result⟩ := u
      cases result with
      | error fault => exact List.prefix_refl _
      | ok a => exact List.prefix_append ..
    obtain ⟨events, result⟩ := t
    simp only at hresult hevents
    subst hresult
    exact .inr ⟨fault, hfault, rfl, hevents.trans hprefix⟩

theorem CutFrom.bind {t u : Trace α} {f g : α → Trace β} (h : CutFrom cut t u)
    (hf : ∀ a, CutFrom cut (f a) (g a)) : CutFrom cut (t >>= f) (u >>= g) :=
  h.bind_of_ok fun a _ => hf a

theorem CutFrom.forM {f g : α → Trace Unit} (l : List α)
    (hf : ∀ a ∈ l, CutFrom cut (f a) (g a)) : CutFrom cut (l.forM f) (l.forM g) := by
  induction l with
  | nil => exact .refl _
  | cons a rest ih =>
    have hrest := ih fun b hb => hf b (List.mem_cons_of_mem a hb)
    exact (hf a List.mem_cons_self).bind fun _ => hrest

/-- A part of a walk that is made only if a layout is worth it. -/
theorem CutFrom.guarded (plan : Plan) (layout : Layout) {t u : Trace Unit} (h : CutFrom cut t u) :
    CutFrom cut (do if ← (Walk.Guide.ofPlan plan).reaches layout then t)
      (do if ← (Walk.Guide.ofPlan plan).reaches layout then u) := by
  refine (CutFrom.refl _).bind fun worth => ?_
  cases worth
  · exact .refl _
  · exact h

end Trace

namespace Walk

open Trace

variable {doc doc' : Document} {plan : Plan}

theorem value_cutFrom (h : doc.CutFrom cut doc') {view view' : ViewKind → Nat → Trace Unit}
    (hview : ∀ kind {pos pos'}, doc.Near cut pos pos' →
      CutFrom cut (view kind pos) (view' kind pos'))
    (layout : Layout) {pos pos' : Nat} (hpos : doc.Near cut pos pos') :
    CutFrom cut (value doc (.ofPlan plan) view layout pos)
      (value doc' (.ofPlan plan) view' layout pos') := by
  induction layout generalizing pos pos' with
  | view kind => exact hview kind hpos
  | union kind =>
    unfold value
    refine .guarded plan _ ((CutFrom.ofExcept (h.byte hpos)).bind fun tag => ?_)
    have hpayload := h.offset hpos 8
    cases kind.variant? tag with
    | none => exact .refl _
    | some v =>
      simp only
      split
      · exact hview _ hpayload
      · refine .guarded plan _ ((CutFrom.ofExcept (h.word hpayload)).bind fun target => ?_)
        exact hview _ (.refl target)
  | boxed layout ih =>
    unfold value
    exact .guarded plan _ ((CutFrom.ofExcept (h.word hpos)).bind fun target => ih (.refl target))
  | sequence element ih =>
    unfold value
    refine .guarded plan _ ((CutFrom.ofExcept (h.word hpos)).bind fun pointer => ?_)
    refine (CutFrom.ofExcept (h.word (h.offset hpos 8))).bind fun length => ?_
    refine (CutFrom.ofExcept (h.check pointer _)).bind_of_ok fun _ hrun => ?_
    exact .forM _ fun index hindex => ih (h.walked hrun (List.mem_range.mp hindex))
  | optional layout ih =>
    unfold value
    refine .guarded plan _ ?_
    refine (CutFrom.ofExcept (h.isAbsent layout.name layout hpos)).bind fun absent => ?_
    cases absent
    · exact ih hpos
    · exact .refl _
  | _ => exact .refl _

theorem children_cutFrom (h : doc.CutFrom cut doc') {view view' : ViewKind → Nat → Trace Unit}
    (hview : ∀ kind {pos pos'}, doc.Near cut pos pos' →
      CutFrom cut (view kind pos) (view' kind pos'))
    (kind : ViewKind) (pos : Nat) :
    CutFrom cut (children doc (.ofPlan plan) view kind pos)
      (children doc' (.ofPlan plan) view' kind pos) :=
  .forM _ fun field _ => value_cutFrom h hview field.layout (h.offset (.refl pos) field.offset)

theorem viewVia_cutFrom (h : doc.CutFrom cut doc') {node node' : NodeKind → Nat → Trace Unit}
    (hnode : ∀ kind {pos pos'}, doc.Near cut pos pos' →
      CutFrom cut (node kind pos) (node' kind pos'))
    (kind : ViewKind) {pos pos' : Nat} (hpos : doc.Near cut pos pos') :
    CutFrom cut (viewVia doc (.ofPlan plan) node kind pos)
      (viewVia doc' (.ofPlan plan) node' kind pos') := by
  have hrecord : ∀ level kind {pos pos'}, doc.Near cut pos pos' →
      CutFrom cut (record doc (.ofPlan plan) node level kind pos)
        (record doc' (.ofPlan plan) node' level kind pos') := by
    intro level
    induction level with
    | zero => exact fun _ _ _ _ => .refl _
    | succ level ih =>
      intro kind pos pos' hpos
      have hsize := (ViewKind.record kind).size_pos
      refine .guarded plan _ ((CutFrom.ofExcept (h.checkAt hpos hsize)).bind_of_ok fun _ hc => ?_)
      obtain rfl := hpos.eq_of_check hsize hc
      refine children_cutFrom h (fun inner p p' hp => ?_) (.record kind) pos
      cases inner with
      | node inner => exact hnode inner hp
      | record inner => exact ih inner hp
  cases kind with
  | node kind => exact hnode kind hpos
  | record kind => exact hrecord _ kind hpos

theorem node_cutFrom (h : doc.CutFrom cut doc') {depth depth' : Nat}
    (hlevels : doc.Levels cut doc' depth depth') (kind : NodeKind) {pos pos' : Nat}
    (hpos : doc.Near cut pos pos') :
    CutFrom cut (node doc (.ofPlan plan) depth kind pos)
      (node doc' (.ofPlan plan) depth' kind pos') := by
  by_cases hk : plan.needed.contains kind = true
  · induction depth generalizing depth' kind pos pos' with
    | zero =>
      have hcheck := CutFrom.ofExcept (h.checkAt hpos (ViewKind.node kind).size_pos)
      rw [node_zero hk]
      rcases hlevels with ⟨rfl, hlimit⟩ | ⟨_, hcut⟩
      · rw [node_zero hk, hlimit]
        exact hcheck.bind fun _ => .refl _
      · -- both check the bytes first, and only then does the first run out of levels
        obtain ⟨rest, hrest⟩ : ∃ rest, node doc' (.ofPlan plan) depth' kind pos' = (do
            Trace.ofExcept (doc'.check pos' (ViewKind.node kind).size)
            rest) := by
          cases depth' with
          | zero => exact ⟨_, node_zero hk⟩
          | succ below => exact ⟨_, node_succ hk below⟩
        rw [hrest]
        refine hcheck.bind fun _ => ?_
        exact .inr ⟨_, hcut, rfl, List.nil_prefix⟩
    | succ depth ih =>
      obtain ⟨below, rfl, hbelow⟩ := hlevels.succ
      have hnode : ∀ kind {pos pos'}, doc.Near cut pos pos' →
          CutFrom cut (node doc (.ofPlan plan) depth kind pos)
            (node doc' (.ofPlan plan) below kind pos') := by
        intro kind pos pos' hpos
        by_cases hk : plan.needed.contains kind = true
        · exact ih hbelow kind hpos hk
        · rw [node_of_not_needed hk, node_of_not_needed hk]
          exact .refl _
      have hsize := (ViewKind.node kind).size_pos
      rw [node_succ hk, node_succ hk]
      refine (CutFrom.ofExcept (h.checkAt hpos hsize)).bind_of_ok fun _ hc => ?_
      obtain rfl := hpos.eq_of_check hsize hc
      refine (CutFrom.refl _).bind fun _ => ?_
      refine (children_cutFrom h (viewVia_cutFrom h hnode) (.node kind) pos).bind fun _ => ?_
      exact .refl _
  · rw [node_of_not_needed hk, node_of_not_needed hk]
    exact .refl _

end Walk

theorem Document.CutFrom.walk {doc doc' : Document} (h : doc.CutFrom cut doc')
    (hlevels : doc.Levels cut doc' doc.options.maxDepth doc'.options.maxDepth) (plan : Plan)
    (kind : ViewKind) {pos pos' : Nat} (hpos : doc.Near cut pos pos') :
    (doc.walk plan kind pos).CutFrom cut (doc'.walk plan kind pos') :=
  Walk.viewVia_cutFrom h (Walk.node_cutFrom h hlevels) kind hpos

end FlatSyntax
