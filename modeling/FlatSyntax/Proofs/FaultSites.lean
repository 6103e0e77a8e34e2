import Mathlib
import FlatSyntax.Proofs.Faults
import FlatSyntax.Proofs.Operation

/-!
# Where faults come from

Projections, paths and walks go from slot to slot. A fault that ends one of them is the fault of a
range that ends past the buffer, or of a tag in a slot that the way has led to, or says that the
nesting is too deep.
-/

namespace FlatSyntax

namespace Document

variable {doc : Document} {start place : Place} {layout : Layout} {pos : Nat} {fault : Fault}

/-! ## Slots below a place -/

/-- A layout that is read at a place, and the offset it is read at. -/
inductive SlotAt (doc : Document) : Place → Layout → Nat → Prop where
  /-- A field of a view. -/
  | field {kind : ViewKind} {pos : Nat} {field : Field} (declared : field ∈ kind.fields) :
      SlotAt doc (.view kind pos) field.layout (doc.offset pos field.offset)
  /-- An element of a sequence, read by itself. -/
  | element {element : Layout} {pos index : Nat} {extent : Extent}
      (opened : doc.extent (.sequence element pos) = .ok extent) (inside : index < extent.count) :
      SlotAt doc (.sequence element pos) element
        (doc.offset extent.base (doc.addressing.scale index element.size))
  /-- An element of a sequence, on a walk through all of them. -/
  | strided {element : Layout} {pos index : Nat} {extent : Extent}
      (opened : doc.extent (.sequence element pos) = .ok extent) (inside : index < extent.count) :
      SlotAt doc (.sequence element pos) element
        (doc.offset extent.base (doc.addressing.stride index element.size))

/-- The places that the slots of a place lead to, and theirs. -/
inductive Below (doc : Document) (start : Place) : Place → Prop where
  | refl : Below doc start start
  | step {place next : Place} {layout : Layout} {pos : Nat} {field : String} {d : Datum Place}
      (above : Below doc start place) (slot : doc.SlotAt place layout pos)
      (located : doc.locate field layout pos = .ok d) (found : d.object? = some next) :
      Below doc start next

/-- A fault of a range that ends past the buffer, or of a tag in a slot below a place. -/
def FaultBelow (doc : Document) (start : Place) (fault : Fault) : Prop :=
  doc.Overruns fault ∨
    ∃ place layout pos type tag, doc.Below start place ∧ doc.SlotAt place layout pos ∧
      doc.Mistagged layout pos type tag ∧ fault = .unexpectedTag type tag

theorem SlotAt.supported (h : doc.SlotAt place layout pos) (hplace : place.Supported) :
    layout.Supported = true := by
  cases h with
  | field declared => exact ViewKind.supported declared
  | element => exact hplace
  | strided => exact hplace

theorem SlotAt.addressable (h : doc.SlotAt place layout pos) : doc.Addressable pos := by
  cases h with
  | field => exact addressable_offset ..
  | element => exact addressable_offset ..
  | strided => exact addressable_offset ..

theorem Below.supported (h : doc.Below start place) (hstart : start.Supported) :
    place.Supported := by
  induction h with
  | refl => exact hstart
  | @step place next layout pos field d _ slot located found ih =>
    exact (locate_yields field (slot.supported ih) slot.addressable).of_ok located next found

theorem faultBelow_of_justifies (hplace : doc.Below start place)
    (hslot : doc.SlotAt place layout pos) (h : doc.Justifies layout pos fault) :
    doc.FaultBelow start fault := by
  rcases h with h | ⟨type, tag, rfl, h⟩
  · exact .inl h
  · exact .inr ⟨place, layout, pos, type, tag, hplace, hslot, h, rfl⟩

/-! ## Reading slots -/

/-- An item that a place leads to. -/
def Reached (doc : Document) (start : Place) (item : Item Unit) : Prop :=
  doc.Below start item.place ∧ doc.extent item.place = .ok item.extent

/-- A slot of an item is read as a slot of its place. -/
theorem slotAt_of_slot? {τ : Type} {item : Item τ} {index : Nat} {r : SlotReading}
    (hextent : doc.extent item.place = .ok item.extent) (hr : doc.slot? item index = some r) :
    doc.SlotAt item.place r.layout r.pos := by
  obtain ⟨place, extent, mark⟩ := item
  cases place with
  | view kind pos =>
    obtain ⟨_, rfl⟩ := extent_view hextent
    obtain ⟨field, hfield, hr⟩ := Option.bind_eq_some_iff.mp hr
    cases hr
    exact .field (List.mem_of_getElem? hfield)
  | sequence element pos =>
    obtain ⟨_, hguard, hr⟩ := Option.bind_eq_some_iff.mp hr
    cases hr
    exact .element hextent ((Option.guard_eq_some' _).mp hguard)

theorem slot_yields (hstart : start.Supported) {item : Item Unit} (hitem : doc.Reached start item)
    (index : Nat) :
    Yields (doc.FaultBelow start)
      (fun d => ∀ next, d.object? = some next → doc.Reached start next)
      (doc.access.slot item index) := by
  unfold access
  simp only
  cases hr : doc.slot? item index with
  | none =>
    intro next hnext
    cases hnext
  | some r =>
    have hslot := slotAt_of_slot? hitem.2 hr
    have hsupported := hslot.supported (hitem.1.supported hstart)
    refine (read_yields r.field hsupported hslot.addressable).mono
      (fun _ => faultBelow_of_justifies hitem.1 hslot) fun d hd next hnext => ?_
    obtain ⟨e, hlocated, hfound, _, hextent⟩ := hd next hnext
    exact ⟨.step hitem.1 hslot hlocated hfound, hextent⟩

theorem slot_field {item : Item Unit} {kind : ViewKind} {index : Nat} {field : Field}
    (hplace : item.place = .view kind pos) (hextent : doc.extent item.place = .ok item.extent)
    (hfield : kind.fields[index]? = some field) :
    doc.access.slot item index =
      doc.read field.key field.layout (doc.offset pos field.offset) := by
  obtain ⟨_, hbase⟩ := extent_view (hplace ▸ hextent)
  simp [access, slot?, hplace, hfield, hbase]

theorem slot_element {item : Item Unit} {element : Layout} {index : Nat}
    (hplace : item.place = .sequence element pos) (hindex : index < item.extent.count) :
    doc.access.slot item index = doc.read element.name element
      (doc.offset item.extent.base (doc.addressing.scale index element.size)) := by
  simp [access, slot?, hplace, hindex]

/-- A datum whose view or sequence is below a place. -/
def ReachedBy (doc : Document) (start : Place) (d : Datum (Item Unit)) : Prop :=
  ∀ item, d.object? = some item → doc.Reached start item

/-! ## Projections -/

/-- The faults of projections and walks: those of slots, and that the nesting is too deep. -/
def DeepFault (doc : Document) (start : Place) (fault : Fault) : Prop :=
  doc.FaultBelow start fault ∨ fault = .tooDeep doc.options.maxDepth

section Projection

open Projection

variable {view : Item Unit → Except Fault Value} {item : Item Unit} {d : Datum (Item Unit)}

theorem slot_deep (hstart : start.Supported) (hitem : doc.Reached start item) (index : Nat) :
    Yields (doc.DeepFault start) (doc.ReachedBy start) (doc.access.slot item index) :=
  (slot_yields hstart hitem index).mono (fun _ => .inl) fun _ => id

theorem slotParts_yields (hstart : start.Supported) {content : SlotContent (Item Unit)}
    (hcontent : ∀ item, content = .name item → doc.Reached start item) :
    Yields (doc.FaultBelow start) (fun _ => True) (slotParts doc.access content) := by
  cases content with
  | nothing => trivial
  | range span => trivial
  | name item =>
    have hitem := hcontent item rfl
    refine (slot_yields hstart hitem 0).bind fun _ _ => ?_
    refine (slot_yields hstart hitem 1).bind fun _ _ => ?_
    exact (slot_yields hstart hitem 2).bind fun _ _ => trivial

theorem single_yields (hstart : start.Supported) (hd : doc.ReachedBy start d)
    (hview : ∀ item, doc.Reached start item →
      Yields (doc.DeepFault start) (fun _ => True) (view item)) :
    Yields (doc.DeepFault start) (fun _ => True) (single doc.access view d) := by
  cases d with
  | object item => exact hview item (hd item rfl)
  | variant k v item => exact hview item (hd item rfl)
  | slot k c content =>
    have hparts : Yields (doc.FaultBelow start) (fun _ => True) (slotParts doc.access content) := by
      refine slotParts_yields hstart ?_
      rintro item rfl
      exact hd item rfl
    exact (hparts.mono (fun _ => .inl) fun _ => id).bind fun _ _ => trivial
  | _ => trivial

theorem datum_yields (hstart : start.Supported) (hd : doc.ReachedBy start d)
    (hview : ∀ item, doc.Reached start item →
      Yields (doc.DeepFault start) (fun _ => True) (view item)) (layout : Layout) :
    Yields (doc.DeepFault start) (fun _ => True) (datum doc.access view layout d) := by
  induction layout generalizing d with
  | boxed target ih => exact ih hd
  | optional value ih =>
    rw [datum_optional]
    exact ih hd
  | sequence element ih =>
    cases d with
    | object item =>
      have hitem := hd item rfl
      have hvalues : Yields (doc.DeepFault start) (fun _ => True)
          ((List.range item.extent.count).mapM fun index => do
            datum doc.access view element (← doc.access.slot item index)) :=
        (Yields.mapM _ fun index _ => (slot_deep hstart hitem index).bind fun _ he => ih he).mono
          (fun _ => id) fun _ _ => trivial
      exact hvalues.bind fun _ _ => trivial
    | _ => exact single_yields hstart hd hview
  | _ => exact single_yields hstart hd hview

theorem fields_yields (hstart : start.Supported) (hitem : doc.Reached start item)
    (hview : ∀ item, doc.Reached start item →
      Yields (doc.DeepFault start) (fun _ => True) (view item)) (kind : ViewKind) :
    Yields (doc.DeepFault start) (fun _ => True) (fields doc.access view kind item) := by
  refine Yields.foldlM _ _ fun entries entry _ => ?_
  refine (slot_deep hstart hitem entry.2).bind fun d hd => ?_
  exact (datum_yields hstart hd hview entry.1.layout).bind fun _ _ => trivial

theorem view_yields (hstart : start.Supported) (hitem : doc.Reached start item) (depth : Nat) :
    Yields (doc.DeepFault start) (fun _ => True) (Projection.view doc doc.access depth item) := by
  induction depth generalizing item with
  | zero => exact .inr rfl
  | succ depth ih =>
    have hfields := fields_yields hstart hitem fun _ => ih
    unfold Projection.view
    simp only [access]
    cases item.place with
    | sequence element pos => trivial
    | view kind pos =>
      cases kind with
      | record kind => exact (hfields _).bind fun _ _ => trivial
      | node kind =>
        refine (hfields _).bind fun entries _ => ?_
        rw [Session.ofExcept_except]
        have hspan : Yields (doc.DeepFault start) (fun _ => True) (doc.span pos) :=
          (span_yields pos).mono (fun _ hf => .inl (.inl hf)) fun _ => id
        exact hspan.bind fun _ _ => trivial

/-- The plain value of what a place leads to. -/
theorem project_yields (hstart : start.Supported) (hd : doc.ReachedBy start d) (layout : Layout) :
    Yields (doc.DeepFault start) (fun _ => True) (Projection.project doc doc.access layout d) :=
  datum_yields hstart hd (fun _ hitem => view_yields hstart hitem _) layout

end Projection

/-! ## Paths -/

section Path

open FlatSyntax.Path

variable {item : Item Unit} {d : Datum (Item Unit)}

/-- What may come of following a path. -/
abbrev PathYields (doc : Document) (start : Place)
    (r : Except Fault (Option (Datum (Item Unit)))) : Prop :=
  Yields (doc.FaultBelow start) (fun found => ∀ d, found = some d → doc.ReachedBy start d) r

/-- What every node has, its source text apart. -/
theorem property_yields (kind : NodeKind) (pos : Nat) {name : String} (hname : name ≠ "$text") :
    doc.PathYields start (doc.property kind pos name) := by
  have hspan : Yields (doc.FaultBelow start) (fun _ => True) (doc.span pos) :=
    (span_yields pos).mono (fun _ => .inl) fun _ => id
  have hscalar : ∀ {d : Datum (Item Unit)}, d.object? = none →
      ∀ e, some d = some e → doc.ReachedBy start e := by
    intro d hd e he item hitem
    cases he
    rw [hd] at hitem
    cases hitem
  unfold property
  split
  · exact hspan.bind fun _ _ => hscalar rfl
  · exact hspan.bind fun _ _ => hscalar rfl
  · exact hspan.bind fun _ _ => hscalar rfl
  · exact absurd rfl hname
  · exact hscalar rfl
  · exact fun d hd => by cases hd

theorem field_yields (hstart : start.Supported) (hitem : doc.Reached start item) (kind : ViewKind)
    (pos : Nat) {name : String} (hname : name ≠ "$text") :
    doc.PathYields start (field doc doc.access kind pos item name) := by
  unfold field
  split
  · refine (slot_yields hstart hitem _).map fun d hd e he => ?_
    cases he
    exact hd
  · cases kind with
    | node k =>
      simp only [Session.ofExcept_except]
      exact property_yields k pos hname
    | record k => exact fun d hd => by cases hd

theorem child_yields (hstart : start.Supported) (hd : doc.ReachedBy start d) {segment : Segment}
    (hsegment : segment ≠ .key "$text") :
    doc.PathYields start (child doc doc.access d segment) := by
  cases segment with
  | key name =>
    unfold child
    cases hv : d.view? with
    | none => exact fun e he => by cases he
    | some found =>
      obtain ⟨kind, pos, item⟩ := found
      have hitem := hd item (Datum.object?_of_view? hv).1
      exact field_yields hstart hitem kind pos fun hname => hsegment (hname ▸ rfl)
  | index n =>
    unfold child
    cases hq : d.sequence? with
    | none => exact fun e he => by cases he
    | some found =>
      have hitem := hd found.2 (Datum.object?_of_sequence? hq)
      simp only
      unfold Elements.get?
      split
      · refine (slot_yields hstart hitem n).map fun e he e' heq => ?_
        cases heq
        exact he
      · exact fun e he => by cases he

/-- Following a path that asks for no source text. -/
theorem follow_yields (hstart : start.Supported) (hd : doc.ReachedBy start d) {path : List Segment}
    (hpath : Segment.key "$text" ∉ path) :
    doc.PathYields start (follow doc doc.access d path) := by
  induction path generalizing d with
  | nil =>
    intro e he
    cases he
    exact hd
  | cons segment rest ih =>
    rw [List.mem_cons, not_or] at hpath
    refine (child_yields hstart hd (Ne.symm hpath.1)).bind fun found hfound => ?_
    cases found with
    | none => exact fun e he => by cases he
    | some next => exact ih (hfound next rfl) hpath.2

end Path

/-! ## Walks -/

section Walk

open Walk

variable {plan : Plan}

theorem result_bind {α β : Type} (t : Trace α) (f : α → Trace β) :
    (t >>= f).result = t.result >>= fun a => (f a).result := by
  obtain ⟨events, result⟩ := t
  cases result <;> rfl

/-- A walk ends in a fault that comes from below a place, if in any. -/
def WalkYields (doc : Document) (start : Place) {α : Type} (Q : α → Prop) (t : Trace α) : Prop :=
  Yields (doc.DeepFault start) Q t.result

theorem WalkYields.bind {α β : Type} {Q : α → Prop} {R : β → Prop} {t : Trace α} {f : α → Trace β}
    (h : doc.WalkYields start Q t) (hf : ∀ a, Q a → doc.WalkYields start R (f a)) :
    doc.WalkYields start R (t >>= f) := by
  unfold WalkYields
  rw [result_bind]
  exact Yields.bind h hf

theorem WalkYields.read {α : Type} {Q : α → Prop} {r : Except Fault α}
    (h : Yields doc.Overruns Q r) : doc.WalkYields start Q (Trace.ofExcept r) :=
  h.mono (fun _ hf => .inl (.inl hf)) fun _ => id

theorem WalkYields.forM {α : Type} {f : α → Trace Unit} (l : List α)
    (hf : ∀ a ∈ l, doc.WalkYields start (fun _ => True) (f a)) :
    doc.WalkYields start (fun _ => True) (l.forM f) := by
  induction l with
  | nil => trivial
  | cons a rest ih =>
    have hrest := ih fun b hb => hf b (List.mem_cons_of_mem a hb)
    exact (hf a List.mem_cons_self).bind fun _ _ => hrest

theorem WalkYields.guarded (plan : Plan) (layout : Layout) {t : Trace Unit}
    (h : doc.WalkYields start (fun _ => True) t) :
    doc.WalkYields start (fun _ => True)
      (do if ← (Guide.ofPlan plan).reaches layout then t) := by
  have hreaches : doc.WalkYields start (fun _ => True) ((Guide.ofPlan plan).reaches layout) :=
    trivial
  refine hreaches.bind fun answer _ => ?_
  cases answer
  · trivial
  · exact h

/-- A layout at an offset is a part of a slot below a place, behind pointers and options: its faults
are those of the slot, and what it leads to is what the slot leads to. -/
structure Within (doc : Document) (start : Place) (layout : Layout) (pos : Nat) : Prop where
  supported : layout.Supported = true
  addressable : doc.Addressable pos
  blames : ∀ fault, doc.Justifies layout pos fault → doc.FaultBelow start fault
  leads : ∀ field {d next}, doc.locate field layout pos = .ok d → d.object? = some next →
    doc.Below start next

theorem Within.of_slotAt (hstart : start.Supported) (hplace : doc.Below start place)
    (hslot : doc.SlotAt place layout pos) : doc.Within start layout pos where
  supported := hslot.supported (hplace.supported hstart)
  addressable := hslot.addressable
  blames _ := faultBelow_of_justifies hplace hslot
  leads _ _ _ hlocated hfound := .step hplace hslot hlocated hfound

theorem Within.boxed (h : doc.Within start (.boxed layout) pos) {pointer : Nat}
    (hpointer : doc.word pos = .ok pointer) : doc.Within start layout pointer where
  supported := h.supported
  addressable := doc.addressable_of_lt (word_lt hpointer)
  blames _ hf := h.blames _ (hf.boxed hpointer)
  leads field _ _ hlocated hfound := by
    refine h.leads field ?_ hfound
    rw [locate, hpointer]
    exact hlocated

theorem Within.optional (h : doc.Within start (.optional layout) pos) {field : String}
    (habsent : doc.isAbsent field layout pos = .ok false) : doc.Within start layout pos where
  supported := ((Bool.and_eq_true _ _).mp h.supported).2
  addressable := h.addressable
  blames _ hf := h.blames _ (hf.optional h.addressable habsent)
  leads other _ _ hlocated hfound := by
    refine h.leads other ?_ hfound
    rw [locate, isAbsent_ok habsent other]
    exact hlocated

theorem value_yields (hstart : start.Supported) {view : ViewKind → Nat → Trace Unit}
    (hview : ∀ kind pos, doc.Below start (.view kind pos) →
      doc.WalkYields start (fun _ => True) (view kind pos))
    (h : doc.Within start layout pos) :
    doc.WalkYields start (fun _ => True) (value doc (.ofPlan plan) view layout pos) := by
  -- along the layout: a pointer or an option stays in the slot, an element is a slot of its own
  induction layout generalizing pos with
  | view kind => exact hview kind pos (h.leads "" rfl rfl)
  | union kind =>
    refine .guarded plan (.union kind) ?_
    refine (WalkYields.read (byte_yields pos)).bind fun tag htag => ?_
    cases hv : kind.variant? tag with
    | none =>
      refine .inl (h.blames _ (.inr ⟨_, _, rfl, .union htag fun v hmem => ?_⟩))
      simpa using List.find?_eq_none.mp hv v hmem
    | some v =>
      have hlocate : ∀ target, doc.target v (doc.offset pos 8) = .ok target →
          doc.Below start (.view (.node v.node) target) := by
        intro target htarget
        have hlocated : doc.locate "" (.union kind) pos =
            .ok (.variant kind v (.view (.node v.node) target)) := by
          simp only [locate, htag, hv, htarget, bind, Except.bind, pure, Except.pure]
        exact h.leads "" hlocated rfl
      simp only
      cases hinline : v.inline with
      | true =>
        refine hview _ _ (hlocate _ ?_)
        unfold target
        rw [hinline]
        rfl
      | false =>
        refine .guarded plan (.node v.node) ?_
        refine (WalkYields.read (word_yields _)).bind fun target htarget => ?_
        refine hview _ _ (hlocate target ?_)
        unfold Document.target
        rw [hinline]
        exact htarget
  | boxed target ih =>
    refine .guarded plan target ?_
    exact (WalkYields.read (word_yields pos)).bind fun pointer hpointer => ih (h.boxed hpointer)
  | sequence element ih =>
    refine .guarded plan element ?_
    refine (WalkYields.read (word_yields pos)).bind fun pointer hpointer => ?_
    refine (WalkYields.read (word_yields _)).bind fun length hlength => ?_
    refine (WalkYields.read (check_yields pointer _).self).bind fun _ hcheck => ?_
    have hextent : doc.extent (.sequence element pos) = .ok ⟨pointer, length⟩ := by
      simp only [extent, hpointer, hlength, hcheck, bind, Except.bind, pure, Except.pure]
    refine .forM _ fun index hindex => ih ?_
    exact .of_slotAt hstart (h.leads "" rfl rfl) (.strided hextent (List.mem_range.mp hindex))
  | optional value ih =>
    have habsence : value.absence ≠ .unsupported := by
      simpa using ((Bool.and_eq_true _ _).mp h.supported).1
    refine .guarded plan value ?_
    refine (WalkYields.read (isAbsent_yields value.name habsence pos)).bind fun absent habsent => ?_
    cases absent with
    | true => trivial
    | false => exact ih (h.optional habsent)
  | _ => trivial

theorem children_yields (hstart : start.Supported) {view : ViewKind → Nat → Trace Unit}
    (hview : ∀ kind pos, doc.Below start (.view kind pos) →
      doc.WalkYields start (fun _ => True) (view kind pos))
    {kind : ViewKind} (h : doc.Below start (.view kind pos)) :
    doc.WalkYields start (fun _ => True) (children doc (.ofPlan plan) view kind pos) :=
  .forM _ fun _ hfield => value_yields hstart hview
    (.of_slotAt hstart h (.field (List.mem_of_mem_filter hfield)))

theorem record_yields (hstart : start.Supported) {node : NodeKind → Nat → Trace Unit}
    (hnode : ∀ kind pos, doc.Below start (.view (.node kind) pos) →
      doc.WalkYields start (fun _ => True) (node kind pos))
    (level : Nat) {kind : RecordKind} (h : doc.Below start (.view (.record kind) pos)) :
    doc.WalkYields start (fun _ => True) (record doc (.ofPlan plan) node level kind pos) := by
  induction level generalizing kind pos with
  | zero => trivial
  | succ level ih =>
    unfold record
    refine .guarded plan (.record kind) ?_
    refine (WalkYields.read (check_yields pos _)).bind fun _ _ => ?_
    refine children_yields hstart (fun inner p hinner => ?_) h
    cases inner with
    | node inner => exact hnode inner p hinner
    | record inner => exact ih hinner

theorem viewVia_yields (hstart : start.Supported) {node : NodeKind → Nat → Trace Unit}
    (hnode : ∀ kind pos, doc.Below start (.view (.node kind) pos) →
      doc.WalkYields start (fun _ => True) (node kind pos))
    {kind : ViewKind} (h : doc.Below start (.view kind pos)) :
    doc.WalkYields start (fun _ => True) (viewVia doc (.ofPlan plan) node kind pos) := by
  cases kind with
  | node kind => exact hnode kind pos h
  | record kind => exact record_yields hstart hnode _ h

theorem announce_yields (phase : Phase) (kind : NodeKind) (pos : Nat) :
    doc.WalkYields start (fun _ => True) (announce (.ofPlan plan) phase kind pos) := by
  unfold announce
  split <;> trivial

theorem node_yields (hstart : start.Supported) (depth : Nat) {kind : NodeKind}
    (h : doc.Below start (.view (.node kind) pos)) :
    doc.WalkYields start (fun _ => True) (node doc (.ofPlan plan) depth kind pos) := by
  induction depth generalizing kind pos with
  | zero =>
    by_cases hneeded : plan.needed.contains kind = true
    · rw [node_zero hneeded]
      exact (WalkYields.read (check_yields pos _)).bind fun _ _ => .inr rfl
    · rw [node_of_not_needed hneeded]
      trivial
  | succ depth ih =>
    by_cases hneeded : plan.needed.contains kind = true
    · rw [node_succ hneeded]
      refine (WalkYields.read (check_yields pos _)).bind fun _ _ => ?_
      refine (announce_yields .enter kind pos).bind fun _ _ => ?_
      refine (children_yields hstart (fun inner p => ?_) h).bind fun _ _ => announce_yields ..
      exact viewVia_yields hstart fun _ _ => ih
    · rw [node_of_not_needed hneeded]
      trivial

/-- A walk ends in a fault that comes from below the view it starts at, if in any. -/
theorem walk_yields (doc : Document) (plan : Plan) (kind : ViewKind) (pos : Nat) :
    doc.WalkYields (.view kind pos) (fun _ => True) (doc.walk plan kind pos) := by
  have hstart : (Place.view kind pos).Supported := trivial
  exact viewVia_yields hstart (fun _ _ => node_yields hstart _) .refl

end Walk

end Document

/-! ## Sessions -/

namespace Session

variable {doc : Document} {s : Session}

/-- Faults in a session of a document say what is wrong. -/
structure Candid (doc : Document) (s : Session) : Prop where
  /-- Reading a field. -/
  field : ∀ {item : Link} {kind : ViewKind} {pos index : Nat} {field : Field} {fault : Fault},
    s.heap.Live item → item.place = .view kind pos → kind.fields[index]? = some field →
    (s.exec (slot item index)).1 = .error fault →
    doc.Justifies field.layout (doc.offset pos field.offset) fault
  /-- Reading elements of a sequence, one or all. -/
  element : ∀ {item : Link} {element : Layout} {pos : Nat} {query : Query} {fault : Fault},
    s.heap.Live item → item.place = .sequence element pos → element.Supported = true →
    (s.exec (Session.query item query)).1 = .error fault →
    ∃ index < item.extent.count, doc.Justifies element
      (doc.offset item.extent.base (doc.addressing.scale index element.size)) fault
  /-- Following a path that asks for no source text. -/
  path : ∀ {d : Datum Link} {item : Link} {path : List Segment} {fault : Fault},
    s.heap.Holds d → d.object? = some item → item.place.Supported →
    Segment.key "$text" ∉ path → (s.exec (follow d path)).1 = .error fault →
    doc.FaultBelow item.place fault
  /-- Reading the name and the source range in a name slot. -/
  parts : ∀ {kind : SlotKind} {c : SlotCase} {item : Link} {fault : Fault},
    s.heap.Holds (.slot kind c (.name item)) → item.place.Supported →
    (s.exec (slotParts (.name item))).1 = .error fault → doc.FaultBelow item.place fault
  /-- Projecting. -/
  project : ∀ {layout : Layout} {d : Datum Link} {item : Link} {fault : Fault},
    s.heap.Holds d → d.object? = some item → item.place.Supported →
    (s.exec (project layout d)).1 = .error fault → doc.DeepFault item.place fault
  /-- Running a visitor. -/
  run : ∀ {α : Type} {visitor : Visitor} {callback : Event → Link → StateM Session α}
    {item : Link} {kind : ViewKind} {pos : Nat} {fault : Fault}, item.place = .view kind pos →
    ((run visitor callback item).run s).1.fault = some fault → doc.DeepFault item.place fault

/-- A live object is reached from its own place. -/
theorem reached_of_live (hs : s.Sound) {item : Link} (hi : s.heap.Live item) :
    s.document.Reached item.place item.erase := by
  obtain ⟨o, hget, hplace, hextent⟩ := hi
  refine ⟨.refl, ?_⟩
  change s.document.extent item.place = .ok item.extent
  rw [← hplace, ← hextent]
  exact hs.heap.opened hget

theorem reachedBy_of_holds (hs : s.Sound) {d : Datum Link} {item : Link} (hd : s.heap.Holds d)
    (ho : d.object? = some item) : s.document.ReachedBy item.place d.erase := by
  intro other hother
  rw [Datum.erase, Datum.object?_map, ho] at hother
  cases hother
  exact reached_of_live hs (hd item ho)

theorem run_fault {α : Type} (visitor : Visitor) (callback : Event → Link → StateM Session α)
    {item : Link} {kind : ViewKind} {pos : Nat} (hplace : item.place = .view kind pos) :
    ((run visitor callback item).run s).1.fault =
      (s.document.walk visitor.plan kind pos).fault? := by
  rw [run_eq hplace]

/-- Whatever has happened in a session of a document, a fault says what is wrong. -/
theorem candid_of_reachable (h : Reachable doc s) : s.Candid doc := by
  obtain ⟨rfl, hs, hdepth⟩ := h.sound
  constructor
  · intro item kind pos index field fault hi hplace hfield hfault
    have hslot := (slot_reading hs hi index).outcome.of_error hfault
    rw [Document.slot_field hplace (reached_of_live hs hi).2 hfield] at hslot
    have hdeclared := ViewKind.supported (List.mem_of_getElem? hfield)
    exact (Document.read_yields field.key hdeclared (Document.addressable_offset ..)).of_error hslot
  · intro item element pos q fault hi hplace hsupported hfault
    have hblame : ElementsBlame s.document item fun fault => ∃ index < item.extent.count,
        s.document.Justifies element (s.document.offset item.extent.base
          (s.document.addressing.scale index element.size)) fault := by
      intro index hindex
      rw [Document.slot_element hplace hindex]
      have hread := Document.read_yields element.name hsupported (s.document.addressable_offset
        item.extent.base (s.document.addressing.scale index element.size))
      exact hread.mono (fun _ hjustified => ⟨index, hindex, hjustified⟩) fun _ _ => trivial
    exact (query_blaming hblame hs hi q).outcome.of_error hfault
  · intro d item path fault hd ho hsupported hpath hfault
    have hfollow := (follow_reading hs hd path).outcome.of_error hfault
    exact (Document.follow_yields hsupported (reachedBy_of_holds hs hd ho) hpath).of_error hfollow
  · intro kind c item fault hd hsupported hfault
    have hparts := (slotParts_reading hs rfl hd rfl).outcome.of_error hfault
    refine (Document.slotParts_yields hsupported fun other hother => ?_).of_error hparts
    cases hother
    exact reached_of_live hs (hd item rfl)
  · intro layout d item fault hd ho hsupported hfault
    have hproject := (project_reading hs hdepth layout hd).outcome.of_error hfault
    have hreached := reachedBy_of_holds hs hd ho
    exact (Document.project_yields hsupported hreached layout).of_error hproject
  · intro α visitor callback item kind pos fault hplace hfault
    rw [run_fault visitor callback hplace] at hfault
    rw [hplace]
    exact (s.document.walk_yields visitor.plan kind pos).of_error (Trace.result_of_some hfault)

/-- A visitor of literals. -/
def literalVisitor : Visitor := { plan := .ofKeys [⟨.booleanLiteral, .enter⟩] }

/-- A block whose literal lies outside of the buffer, in the middle of a run: another run that looks
for literals finds the fault, and it comes from below the block. -/
theorem candid_insideBlock :
    (insideBlock 4096 256).Candid (.block 4096 256) ∧
    ((run literalVisitor (carryOut fun _ _ => []) blockNode).run (insideBlock 4096 256)).1.fault =
      some (.outOfBounds 4096 12 112) ∧
    (Document.block 4096 256).DeepFault blockNode.place (.outOfBounds 4096 12 112) := by
  have hcandid := candid_of_reachable (insideBlock_reachable 4096 256)
  have hfault : ((run literalVisitor (carryOut fun _ _ => []) blockNode).run
      (insideBlock 4096 256)).1.fault = some (.outOfBounds 4096 12 112) := by decide +kernel
  exact ⟨hcandid, hfault, hcandid.run rfl hfault⟩

end Session

end FlatSyntax
