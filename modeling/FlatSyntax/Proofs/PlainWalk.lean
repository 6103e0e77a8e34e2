import Mathlib
import FlatSyntax.Proofs.DocumentReads
import FlatSyntax.Proofs.Entries
import FlatSyntax.Proofs.History
import FlatSyntax.Proofs.Pruning
import FlatSyntax.Proofs.Schema

/-!
# Walks over the buffer and walks over plain values

If a view has a plain value, the walk over the buffer and the walk over that value meet the same
nodes in the same order. The first follows the schema and skips layouts, the second knows nothing but
tags and keys; they are compared layout by layout, along the projection that made the value.
-/

namespace FlatSyntax

/-! ## Events that are about the same nodes -/

/-- An event of a walk over the buffer and one of a walk over a plain value are about the same node:
the object has the source range that the buffer has. -/
structure Event.Meets (doc : Document) (e : Event) (p : PlainEvent) : Prop where
  phase : e.phase = p.phase
  kind : e.kind = p.kind
  span : ∃ span, doc.span e.pos = .ok span ∧
    p.object.get? "start" = some (.ofNat span.start) ∧
    p.object.get? "end" = some (.ofNat span.stop)

namespace Trace

variable {doc : Document} {α : Type}

/-- A walk ends well, and its events are those of a walk over a plain value. -/
def Shows (doc : Document) (t : Trace Unit) (events : List PlainEvent) : Prop :=
  t.result = .ok () ∧ List.Forall₂ (Event.Meets doc) t.events events

theorem Shows.nothing : Shows doc (pure ()) [] := ⟨rfl, .nil⟩

theorem Shows.bind {t : Trace Unit} {f : Unit → Trace Unit} {events events' : List PlainEvent}
    (ht : t.Shows doc events) (hf : (f ()).Shows doc events') :
    (t >>= f).Shows doc (events ++ events') := by
  obtain ⟨own, result⟩ := t
  obtain ⟨hresult, hevents⟩ := ht
  simp only at hresult hevents
  subst hresult
  rw [bind_ok]
  exact ⟨hf.1, List.rel_append hevents hf.2⟩

/-- A read that succeeds records nothing. -/
theorem Shows.read {r : Except Fault α} {a : α} (h : r = .ok a) {f : α → Trace Unit}
    {events : List PlainEvent} (hf : (f a).Shows doc events) :
    (ofExcept r >>= f).Shows doc events := by
  subst h
  exact hf

theorem Shows.forM {f : α → Trace Unit} {g : α → List PlainEvent} (l : List α)
    (hf : ∀ a ∈ l, (f a).Shows doc (g a)) : (l.forM f).Shows doc (l.flatMap g) := by
  induction l with
  | nil => exact .nothing
  | cons a rest ih =>
    have hrest := ih fun b hb => hf b (List.mem_cons_of_mem a hb)
    exact (hf a List.mem_cons_self).bind hrest

theorem Shows.guarded {plan : Plan} {layout : Layout} {t : Trace Unit} {events : List PlainEvent}
    (ht : t.Shows doc events) (hskip : plan.reaches layout ≠ true → events = []) :
    Shows doc (do if ← (Walk.Guide.ofPlan plan).reaches layout then t) events := by
  change Shows doc (if plan.reaches layout = true then t else pure ()) events
  split
  · exact ht
  · rename_i h
    rw [hskip h]
    exact .nothing

end Trace

/-! ## Walks over plain values -/

namespace PlainWalk

variable (plan : Plan)

theorem valueOfItems_eq (items : List Value) :
    valueOfItems plan items = items.flatMap (value plan) := by
  induction items with
  | nil => rw [valueOfItems, List.flatMap_nil]
  | cons item rest ih => rw [valueOfItems, ih, List.flatMap_cons]

theorem valueOfEntries_eq (entries : List (String × Value)) :
    valueOfEntries plan entries = entries.map fun entry => (entry.1, value plan entry.2) := by
  induction entries with
  | nil => rw [valueOfEntries, List.map_nil]
  | cons entry rest ih => rw [valueOfEntries, ih, List.map_cons]

theorem value_array (items : List Value) :
    value plan (.array items) = items.flatMap (value plan) := by
  rw [value, valueOfItems_eq]

variable {plan} {entries : List (String × Value)}

/-- An object without the tag of a node is walked through in the order of its keys. -/
theorem value_untagged (h : (Value.object entries).typeTag?.bind NodeKind.ofTag? = none) :
    value plan (.object entries) = entries.flatMap fun entry => value plan entry.2 := by
  rw [value, object, h, valueOfEntries_eq, List.flatMap_map]

theorem get?_valueOfEntries (key : String) :
    Entries.get? (valueOfEntries plan entries) key =
      (Entries.get? entries key).map (value plan) := by
  rw [valueOfEntries_eq]
  unfold Entries.get?
  induction entries with
  | nil => rfl
  | cons entry rest ih =>
    by_cases h : entry.1 = key
    · simp [h]
    · simpa [h] using ih

/-- An object with the tag of a node is that node. -/
theorem value_tagged {kind : NodeKind}
    (h : (Value.object entries).typeTag?.bind NodeKind.ofTag? = some kind) :
    value plan (.object entries) =
      if plan.needed.contains kind then
        announce plan .enter kind (.object entries) ++
          kind.visitKeys.flatMap
            (fun key => ((Entries.get? entries key).map (value plan)).getD []) ++
          announce plan .exit kind (.object entries)
      else [] := by
  rw [value, object, h]
  simp only [get?_valueOfEntries]

end PlainWalk

/-! ## Layouts -/

section Layouts

open Trace PlainWalk

variable {doc : Document} {plan : Plan} {walk : ViewKind → Nat → Trace Unit}
  {project : Item Unit → Except Fault Value}

theorem value_ofList_silent {pairs : List (String × Value)} (hkeys : (pairs.map Prod.fst).Nodup)
    (htype : "type" ∉ pairs.map Prod.fst) (hsilent : ∀ pair ∈ pairs, value plan pair.2 = []) :
    value plan (.object (Entries.ofList pairs)) = [] := by
  have htag : (Value.object (Entries.ofList pairs)).typeTag? = none := by
    change (Entries.get? (Entries.ofList pairs) "type").bind Value.string? = none
    rw [Entries.get?_ofList_eq_none hkeys htype]
    rfl
  rw [value_untagged (by rw [htag]; rfl), List.flatMap_eq_nil_iff]
  exact fun pair hpair => hsilent pair ((Entries.ofList_perm hkeys).mem_iff.mp hpair)

/-- A datum without a view in it has a value without events. -/
theorem single_silent {d : Datum (Item Unit)} {v : Value}
    (h : Projection.single doc.access project d = .ok v) (hobject : ∀ item, d ≠ .object item)
    (hvariant : ∀ k w item, d ≠ .variant k w item) : value plan v = [] := by
  have hnumber : ∀ n, value plan (.ofNat n) = [] := fun n => by rw [Value.ofNat, value]
  cases d with
  | object item => exact absurd rfl (hobject item)
  | variant k w item => exact absurd rfl (hvariant k w item)
  | slot k c content =>
    obtain ⟨⟨name, span⟩, _, h⟩ := ok_of_bind h
    cases h
    refine value_ofList_silent (by simp) (by simp) ?_
    cases name <;> cases span <;> simp [value, hnumber]
  | span s =>
    cases h
    refine value_ofList_silent (by simp) (by simp) ?_
    simp [hnumber]
  | _ =>
    cases h
    simp [Datum.scalar, value, hnumber]

variable (doc plan) in
/-- A walk of what has a layout and the plain value of it: the walk shows the events of the value, and
there are none if the layout is worth nothing. -/
structure Agree (layout : Layout) (t : Trace Unit) (v : Value) : Prop where
  shows_events : t.Shows doc (value plan v)
  unreached : plan.reaches layout ≠ true → value plan v = []

theorem Agree.nothing {layout : Layout} {v : Value} (h : value plan v = []) :
    Agree doc plan layout (pure ()) v where
  shows_events := by
    rw [h]
    exact .nothing
  unreached _ := h

variable (doc plan walk project) in
/-- Views are walked as they are projected. -/
def ViewsAgree : Prop :=
  ∀ {kind pos item v}, doc.openPlace (.view kind pos) = .ok item → project item = .ok v →
    Agree doc plan (.view kind) (walk kind pos) v

/-- If views are walked as they are projected, so is every value made of views. -/
theorem value_agree (hsize : doc.size < wordModulus) (hviews : ViewsAgree doc plan walk project)
    {layout : Layout} {field : String} {pos : Nat} {d : Datum (Item Unit)} {v : Value}
    (hread : doc.read field layout pos = .ok d)
    (hv : Projection.datum doc.access project layout d = .ok v) :
    Agree doc plan layout (Walk.value doc (.ofPlan plan) walk layout pos) v := by
  induction layout generalizing field pos d v with
  | byte | word | double | flag | span | regExpFlags | text =>
    obtain ⟨e, he, hread⟩ := ok_of_bind hread
    obtain ⟨x, _, rfl⟩ := ok_of_map he
    cases hread
    exact .nothing (single_silent hv (by simp) (by simp))
  | choice kind =>
    obtain ⟨member, _, rfl⟩ := read_choice hread
    exact .nothing (single_silent hv (by simp) (by simp))
  | slot kind =>
    obtain ⟨c, content, rfl⟩ := read_slot hread
    exact .nothing (single_silent hv (by simp) (by simp))
  | view kind =>
    obtain ⟨item, hitem, rfl⟩ := read_view hread
    exact hviews hitem hv
  | union kind =>
    obtain ⟨tag, w, target, item, htag, hw, htarget, hitem, rfl⟩ := read_union hread
    -- a union is worth walking if the node that was found in it is
    have hnode := hviews hitem hv
    have hskip : plan.reaches (.union kind) ≠ true → value plan v = [] := fun h =>
      hnode.unreached fun hreach =>
        h (Plan.reaches_of_variant (UnionKind.mem_of_variant? hw) hreach)
    refine ⟨.guarded (.read htag ?_) hskip, hskip⟩
    rw [hw]
    unfold Document.target at htarget
    simp only
    split at htarget
    · rename_i hinline
      cases htarget
      rw [if_pos hinline]
      exact hnode.shows_events
    · rename_i hinline
      rw [if_neg hinline]
      exact .guarded (.read htarget hnode.shows_events) hnode.unreached
  | boxed layout ih =>
    obtain ⟨target, htarget, hread⟩ := read_boxed hread
    have htargeted := ih hread hv
    exact ⟨.guarded (.read htarget htargeted.shows_events) htargeted.unreached,
      htargeted.unreached⟩
  | sequence element ih =>
    obtain ⟨pointer, length, hpointer, hlength, hcheck, rfl⟩ := read_sequence hread
    obtain ⟨hall, rfl⟩ := elements_ok hv
    have helement : ∀ index ∈ List.range length, Agree doc plan element
        (Walk.value doc (.ofPlan plan) walk element
          (doc.offset pointer (doc.addressing.stride index element.size)))
        (valueOf (elementValue doc project element pointer index)) := by
      intro index hindex
      have hlt : index < length := List.mem_range.mp hindex
      obtain ⟨d, hd, hvalue⟩ := ok_of_bind (hall index hlt)
      -- walking and reading multiply in different ways, but the run lies in the buffer
      rw [Document.stride_eq_scale hsize hcheck hlt]
      exact ih hd hvalue
    have hskip : plan.reaches element ≠ true → value plan (.array ((List.range length).map
        fun index => valueOf (elementValue doc project element pointer index))) = [] := by
      intro h
      rw [value_array, List.flatMap_map, List.flatMap_eq_nil_iff]
      exact fun index hindex => (helement index hindex).unreached h
    refine ⟨.guarded (.read hpointer (.read hlength (.read hcheck ?_))) hskip, hskip⟩
    rw [value_array, List.flatMap_map]
    exact .forM _ fun index hindex => (helement index hindex).shows_events
  | optional layout ih =>
    rw [datum_optional] at hv
    -- the walk blames another field for a missing encoding of absence, but here there is one
    rcases read_optional hread with ⟨habsent, rfl⟩ | ⟨habsent, hread⟩
    · rw [datum_absent] at hv
      cases hv
      have hnull : value plan .null = [] := by rw [value]
      refine ⟨.guarded (.read (isAbsent_ok habsent _) ?_) fun _ => hnull, fun _ => hnull⟩
      rw [hnull]
      exact .nothing
    · have hpresent := ih hread hv
      exact ⟨.guarded (.read (isAbsent_ok habsent _) hpresent.shows_events) hpresent.unreached,
        hpresent.unreached⟩

theorem field_agree (hsize : doc.size < wordModulus) (hviews : ViewsAgree doc plan walk project)
    {pos : Nat} {f : Field}
    (h : fieldValue doc project pos f = .ok (valueOf (fieldValue doc project pos f))) :
    Agree doc plan f.layout
      (Walk.value doc (.ofPlan plan) walk f.layout (doc.offset pos f.offset))
      (valueOf (fieldValue doc project pos f)) := by
  obtain ⟨d, hread, hv⟩ := ok_of_bind h
  exact value_agree hsize hviews hread hv

/-- The children of a view, walked in the order of the schema. -/
theorem children_shows (hsize : doc.size < wordModulus) (hviews : ViewsAgree doc plan walk project)
    {kind : ViewKind} {pos : Nat} (h : FieldsOk doc project kind pos) :
    (Walk.children doc (.ofPlan plan) walk kind pos).Shows doc
      (kind.children.flatMap fun f => value plan (valueOf (fieldValue doc project pos f))) :=
  .forM _ fun f hf => (field_agree hsize hviews (h f (List.mem_of_mem_filter hf))).shows_events

/-- A field that is a choice has the text of one of its members. -/
theorem choice_value {pos : Nat} {f : Field} {kind : ChoiceKind} (hlayout : f.layout = .choice kind)
    (h : fieldValue doc project pos f = .ok (valueOf (fieldValue doc project pos f))) :
    ∃ member ∈ kind.members, valueOf (fieldValue doc project pos f) = .string member.text := by
  obtain ⟨d, hread, hv⟩ := ok_of_bind h
  rw [hlayout] at hread hv
  obtain ⟨member, hmember, rfl⟩ := read_choice hread
  exact ⟨member, hmember, (Except.ok.inj hv).symm⟩

end Layouts

/-! ## Objects -/

section Objects

open PlainWalk

variable {doc : Document} {plan : Plan} {project : Item Unit → Except Fault Value} {kind : ViewKind}
  {pos : Nat} {f : Field}

theorem nodup_fieldPairs : ((fieldPairs doc project kind pos).map Prod.fst).Nodup := by
  unfold fieldPairs
  rw [List.map_map]
  exact kind.nodup_keys

theorem get?_fieldPairs (hf : f ∈ kind.fields) :
    Entries.get? (Entries.ofList (fieldPairs doc project kind pos)) f.key =
      some (valueOf (fieldValue doc project pos f)) :=
  Entries.get?_ofList nodup_fieldPairs (List.mem_map_of_mem hf)

variable (doc project kind pos) in
/-- What is under the key of a tag: nothing, or the value of the field with that key. -/
theorem get?_type : Entries.get? (Entries.ofList (fieldPairs doc project kind pos)) "type" = none ∨
    ∃ f ∈ kind.fields, f.key = "type" ∧
      Entries.get? (Entries.ofList (fieldPairs doc project kind pos)) "type" =
        some (valueOf (fieldValue doc project pos f)) := by
  by_cases h : "type" ∈ kind.fields.map Field.key
  · obtain ⟨f, hf, hkey⟩ := List.mem_map.mp h
    exact .inr ⟨f, hf, hkey, hkey ▸ get?_fieldPairs hf⟩
  · refine .inl (Entries.get?_ofList_eq_none nodup_fieldPairs ?_)
    unfold fieldPairs
    rwa [List.map_map]

/-- A record is not taken for a node. -/
theorem tag_record {kind : RecordKind} (h : FieldsOk doc project (.record kind) pos) :
    (Value.object (Entries.ofList (fieldPairs doc project (.record kind) pos))).typeTag?.bind
      NodeKind.ofTag? = none := by
  change ((Entries.get? _ "type").bind Value.string?).bind NodeKind.ofTag? = none
  rcases get?_type doc project (.record kind) pos with hnone | ⟨f, hf, hkey, hsome⟩
  · rw [hnone]
    rfl
  · obtain ⟨c, hlayout, hmembers⟩ := RecordKind.tag_field hf hkey
    obtain ⟨member, hmember, hvalue⟩ := choice_value hlayout (h f hf)
    rw [hsome, hvalue]
    exact hmembers member hmember

theorem get?_tagged {kind : NodeKind} {span : Span} {entries : List (String × Value)} {key : String}
    (h : key ≠ "type" ∧ key ≠ "start" ∧ key ≠ "end") :
    Entries.get? (Projection.tagged kind span entries) key = Entries.get? entries key := by
  obtain ⟨htype, hstart, hend⟩ := h
  unfold Projection.tagged
  rw [Entries.get?_insert, if_neg hend.symm, Entries.get?_insert, if_neg hstart.symm]
  split
  · rfl
  · rw [Entries.get?_insert, if_neg htype.symm]

/-- A node is taken for one of its kind, also if a field tells the type. -/
theorem tag_node {kind : NodeKind} {span : Span} (h : FieldsOk doc project (.node kind) pos) :
    (Value.object (Projection.tagged kind span
      (Entries.ofList (fieldPairs doc project (.node kind) pos)))).typeTag?.bind
        NodeKind.ofTag? = some kind := by
  change ((Entries.get? (Projection.tagged ..) "type").bind Value.string?).bind
    NodeKind.ofTag? = some kind
  unfold Projection.tagged
  rw [Entries.get?_insert, if_neg (by decide), Entries.get?_insert, if_neg (by decide)]
  rcases get?_type doc project (.node kind) pos with hnone | ⟨f, hf, hkey, hsome⟩
  · rw [hnone, if_neg (by simp), Entries.get?_insert, if_pos rfl]
    exact kind.ofTag?_name
  · obtain ⟨c, hlayout, hmembers⟩ := NodeKind.tag_field hf hkey
    obtain ⟨member, hmember, hvalue⟩ := choice_value hlayout (h f hf)
    rw [if_pos (by rw [hsome]; rfl), hsome, hvalue]
    exact hmembers member hmember

end Objects

/-! ## Records -/

namespace Walk

variable {m : Type → Type} [Monad m] {doc : Document} {guide : Guide m}
  {node : NodeKind → Nat → m Unit}

/-- A walk of a value depends only on the walks of nodes and of the records its layout is about. -/
theorem value_congr {view view' : ViewKind → Nat → m Unit} {layout : Layout}
    (hnode : ∀ kind pos, view (.node kind) pos = view' (.node kind) pos)
    (hrecord : ∀ kind pos, layout.core = .record kind →
      view (.record kind) pos = view' (.record kind) pos) (pos : Nat) :
    value doc guide view layout pos = value doc guide view' layout pos := by
  induction layout generalizing pos with
  | view kind =>
    cases kind with
    | node kind => exact hnode kind pos
    | record kind => exact hrecord kind pos rfl
  | union kind =>
    unfold value
    simp only [hnode]
  | boxed layout ih =>
    unfold value
    simp only [ih hrecord]
  | sequence element ih =>
    unfold value
    simp only [ih hrecord]
  | optional layout ih =>
    unfold value
    simp only [ih hrecord]
  | _ => rfl

theorem children_congr {view view' : ViewKind → Nat → m Unit} {kind : ViewKind}
    (hnode : ∀ inner pos, view (.node inner) pos = view' (.node inner) pos)
    (hrecord : ∀ f ∈ kind.children, ∀ inner pos, f.layout.core = .record inner →
      view (.record inner) pos = view' (.record inner) pos) (pos : Nat) :
    children doc guide view kind pos = children doc guide view' kind pos := by
  unfold children
  have hvalue : ∀ f ∈ kind.children, value doc guide view f.layout (doc.offset pos f.offset) =
      value doc guide view' f.layout (doc.offset pos f.offset) :=
    fun f hf => value_congr hnode (hrecord f hf) _
  generalize kind.children = fields at hvalue
  induction fields with
  | nil => rfl
  | cons f rest ih =>
    have hrest := ih fun g hg => hvalue g (List.mem_cons_of_mem f hg)
    change (value doc guide view f.layout (doc.offset pos f.offset) >>= fun _ => rest.forM _) = _
    rw [hvalue f List.mem_cons_self, hrest]
    rfl

/-- The bound on the nesting of records does not show, as long as it is not below the rank. -/
theorem record_level {level level' : Nat} {kind : RecordKind} (h : kind.rank < level)
    (h' : kind.rank < level') (pos : Nat) :
    record doc guide node level kind pos = record doc guide node level' kind pos := by
  induction level generalizing level' kind pos with
  | zero => omega
  | succ level ih =>
    obtain ⟨level', rfl⟩ : ∃ n, level' = n + 1 := ⟨level' - 1, by omega⟩
    unfold record
    refine bind_congr fun answer => ?_
    cases answer with
    | false => rfl
    | true =>
      refine bind_congr fun _ => children_congr ?_ ?_ pos
      · exact fun _ _ => rfl
      intro f hf inner p hcore
      have hrank := RecordKind.rank_lt hf hcore
      exact ih (by omega) (by omega) p

/-- A record is walked by its children. -/
theorem viewVia_record (kind : RecordKind) (pos : Nat) :
    viewVia doc guide node (.record kind) pos = (do
      if ← guide.reaches (.record kind) then
        guide.read (doc.check pos (ViewKind.record kind).size)
        children doc guide (viewVia doc guide node) (.record kind) pos) := by
  conv_lhs => unfold viewVia record
  refine bind_congr fun answer => ?_
  cases answer with
  | false => rfl
  | true =>
    refine bind_congr fun _ => children_congr ?_ ?_ pos
    · exact fun _ _ => rfl
    intro f hf inner p hcore
    have hrank := RecordKind.rank_lt hf hcore
    exact record_level (by omega) (by omega) p

end Walk

/-! ## Views -/

section Views

open Trace PlainWalk

variable {doc : Document} {plan : Plan} {walk : ViewKind → Nat → Trace Unit}
  {project : Item Unit → Except Fault Value} {pos : Nat}

theorem announce_shows {span : Span} (hspan : doc.span pos = .ok span) (phase : Phase)
    (kind : NodeKind) (entries : List (String × Value)) :
    (Walk.announce (.ofPlan plan) phase kind pos).Shows doc
      (announce plan phase kind (.object (Projection.tagged kind span entries))) := by
  unfold Walk.announce announce
  change Shows doc
    (if plan.registered.contains kind then Trace.emit ⟨phase, kind, pos⟩ else pure ()) _
  split
  · refine ⟨rfl, .cons ⟨rfl, rfl, span, hspan, ?_, ?_⟩ .nil⟩
    · change Entries.get? (Projection.tagged kind span entries) "start" = _
      unfold Projection.tagged
      rw [Entries.get?_insert, if_neg (by decide), Entries.get?_insert, if_pos rfl]
    · change Entries.get? (Projection.tagged kind span entries) "end" = _
      unfold Projection.tagged
      rw [Entries.get?_insert, if_pos rfl]
  · exact .nothing

/-- The children of a node under its visit keys are its children in the order of the schema. -/
theorem visitKeys_flatMap {kind : NodeKind} {span : Span} :
    (kind.visitKeys.flatMap fun key =>
      ((Entries.get? (Projection.tagged kind span
        (Entries.ofList (fieldPairs doc project (.node kind) pos))) key).map
          (value plan)).getD []) =
      (ViewKind.node kind).children.flatMap fun f =>
        value plan (valueOf (fieldValue doc project pos f)) := by
  unfold NodeKind.visitKeys
  rw [List.flatMap_map]
  refine List.flatMap_congr fun f hf => ?_
  rw [get?_tagged (NodeKind.child_key hf), get?_fieldPairs (List.mem_of_mem_filter hf)]
  rfl

/-- A node is walked as it is projected, if what is below it is. -/
theorem node_agree (hsize : doc.size < wordModulus) {depth : Nat}
    (hviews : ViewsAgree doc plan
      (Walk.viewVia doc (.ofPlan plan) (Walk.node doc (.ofPlan plan) depth)) project)
    {kind : NodeKind} {span : Span}
    (hcheck : doc.check pos (ViewKind.node kind).size = .ok ()) (hspan : doc.span pos = .ok span)
    (h : FieldsOk doc project (.node kind) pos) :
    Agree doc plan (.node kind) (Walk.node doc (.ofPlan plan) (depth + 1) kind pos)
      (.object (Projection.tagged kind span
        (Entries.ofList (fieldPairs doc project (.node kind) pos)))) := by
  set object := Value.object (Projection.tagged kind span
    (Entries.ofList (fieldPairs doc project (.node kind) pos))) with hobject
  have hvalue : value plan object = _ := value_tagged (tag_node h)
  by_cases hk : plan.needed.contains kind = true
  · rw [if_pos hk, visitKeys_flatMap] at hvalue
    refine ⟨?_, fun hskip => absurd (Plan.reaches_node.mpr hk) hskip⟩
    rw [hvalue, Walk.node_succ hk, List.append_assoc]
    exact .read hcheck ((announce_shows hspan .enter kind _).bind
      ((children_shows hsize hviews h).bind (announce_shows hspan .exit kind _)))
  · rw [if_neg hk] at hvalue
    rw [Walk.node_of_not_needed hk]
    exact .nothing hvalue

/-- Going through a record in the order of its keys is going through its children in the order of the
schema: nothing else in it has events. -/
theorem record_flatMap (hsize : doc.size < wordModulus) (hviews : ViewsAgree doc plan walk project)
    {kind : RecordKind} (h : FieldsOk doc project (.record kind) pos) :
    value plan (.object (Entries.ofList (fieldPairs doc project (.record kind) pos))) =
      (ViewKind.record kind).children.flatMap fun f =>
        value plan (valueOf (fieldValue doc project pos f)) := by
  set keys := (ViewKind.record kind).children.map Field.key with hkeys
  have hcounted : (fieldPairs doc project (.record kind) pos).filter (fun pair => pair.1 ∈ keys) =
      (ViewKind.record kind).children.map fun f =>
        (f.key, valueOf (fieldValue doc project pos f)) := by
    unfold fieldPairs
    rw [List.filter_map, ← ViewKind.filter_key_mem_children]
    rfl
  rw [value_untagged (tag_record h),
    Entries.flatMap_ofList nodup_fieldPairs (fun pair => pair.1 ∈ keys), hcounted, List.flatMap_map]
  · rw [hcounted]
    exact List.pairwise_map.mpr (List.pairwise_map.mp kind.sorted_children)
  · intro pair hpair hcounts
    -- what is not a child comes between the children in the order of keys
    obtain ⟨f, hf, rfl⟩ := List.mem_map.mp hpair
    have hdetail : f ∉ (ViewKind.record kind).children := by
      rw [← ViewKind.key_mem_children hf]
      exact of_decide_eq_false hcounts
    refine (field_agree hsize hviews (h f hf)).unreached fun hreach => ?_
    obtain ⟨k, hk, _⟩ := Plan.reaches_iff.mp hreach
    rw [RecordKind.detail_reach hf hdetail] at hk
    exact absurd (hk.symm.trans (KindSet.contains_empty k)) (by simp)

/-- A record is walked as it is projected, if what is in it is. -/
theorem record_agree (hplan : plan.Coherent) (hsize : doc.size < wordModulus)
    {node : NodeKind → Nat → Trace Unit}
    (hviews : ViewsAgree doc plan (Walk.viewVia doc (.ofPlan plan) node) project)
    {kind : RecordKind} (hcheck : doc.check pos (ViewKind.record kind).size = .ok ())
    (h : FieldsOk doc project (.record kind) pos) :
    Agree doc plan (.record kind) (Walk.viewVia doc (.ofPlan plan) node (.record kind) pos)
      (.object (Entries.ofList (fieldPairs doc project (.record kind) pos))) := by
  have hskip : plan.reaches (.record kind) ≠ true →
      value plan (.object (Entries.ofList (fieldPairs doc project (.record kind) pos))) = [] := by
    intro hskip
    rw [record_flatMap hsize hviews h, List.flatMap_eq_nil_iff]
    exact fun f hf => (field_agree hsize hviews (h f (List.mem_of_mem_filter hf))).unreached
      (hplan.child_unreached hskip hf)
  refine ⟨?_, hskip⟩
  rw [Walk.viewVia_record]
  refine .guarded (.read hcheck ?_) hskip
  rw [record_flatMap hsize hviews h]
  exact children_shows hsize hviews h

/-- Views are walked as they are projected. A projection counts records among its levels and a walk
does not, so the walk may be given more levels than the projection. -/
theorem views_agree (hplan : plan.Coherent) (hsize : doc.size < wordModulus) {depth levels : Nat}
    (h : depth ≤ levels) :
    ViewsAgree doc plan (Walk.viewVia doc (.ofPlan plan) (Walk.node doc (.ofPlan plan) levels))
      (Projection.view doc doc.access depth) := by
  induction depth generalizing levels with
  | zero => exact fun _ hv => nomatch hv
  | succ depth ih =>
    intro kind pos item v hitem hv
    obtain ⟨hcheck, rfl⟩ := openPlace_view hitem
    cases kind with
    | node kind =>
      obtain ⟨levels, rfl⟩ : ∃ n, levels = n + 1 := ⟨levels - 1, by omega⟩
      obtain ⟨entries, hentries, hv⟩ := ok_of_bind hv
      obtain ⟨span, hspan, hv⟩ := ok_of_bind hv
      rw [Session.ofExcept_except] at hspan
      cases hv
      obtain ⟨hfields, rfl⟩ := fields_ok rfl rfl hentries
      exact node_agree hsize (ih (by omega)) hcheck hspan hfields
    | record kind =>
      obtain ⟨entries, hentries, hv⟩ := ok_of_bind hv
      cases hv
      obtain ⟨hfields, rfl⟩ := fields_ok rfl rfl hentries
      exact record_agree hplan hsize (ih (by omega)) hcheck hfields

theorem walk_agree (hplan : plan.Coherent) (hsize : doc.size < wordModulus) {kind : ViewKind}
    {item : Item Unit} {v : Value} (hitem : doc.openPlace (.view kind pos) = .ok item)
    (hv : Projection.project doc doc.access (.view kind) (.object item) = .ok v) :
    Agree doc plan (.view kind) (doc.walk plan kind pos) v :=
  views_agree hplan hsize (Nat.le_refl doc.options.maxDepth) hitem hv

end Views

/-! ## Runs -/

/-- A line of a log: which key was called for what, and the source range seen there. -/
structure LogLine where
  key : Nat
  phase : Phase
  kind : NodeKind
  start : Value
  stop : Value

/-- The line of a call that saw the source range of its node. -/
def Call.line? (call : Call Sight) : Option LogLine :=
  match call.seen with
  | .span (.ok span) =>
    some ⟨call.key, call.event.phase, call.event.kind, .ofNat span.start, .ofNat span.stop⟩
  | _ => none

/-- The line of a call for a node object that has a source range. -/
def PlainEvent.line? (key : Nat) (event : PlainEvent) : Option LogLine := do
  return ⟨key, event.phase, event.kind, ← event.object.get? "start", ← event.object.get? "end"⟩

/-- Events about the same nodes make the same lines. -/
theorem lines_of_meets {doc : Document} (plan : Plan) {events : List Event}
    {objects : List PlainEvent} (h : List.Forall₂ (Event.Meets doc) events objects) :
    ∃ lines : List LogLine,
      (plan.calls (Detail.span.sight doc) events).map Call.line? = lines.map some ∧
        (objects.flatMap fun event => (plan.callbacks event.phase event.kind).map fun key =>
          (key, event)).map (fun call => call.2.line? call.1) = lines.map some := by
  induction h with
  | nil => exact ⟨[], rfl, rfl⟩
  | @cons event object events objects hmeets _ ih =>
    obtain ⟨lines, hcalls, hobjects⟩ := ih
    obtain ⟨hphase, hkind, span, hspan, hstart, hstop⟩ := hmeets
    refine ⟨(plan.callbacks event.phase event.kind).map (fun key =>
      ⟨key, event.phase, event.kind, .ofNat span.start, .ofNat span.stop⟩) ++ lines, ?_, ?_⟩
    · unfold Plan.calls at hcalls ⊢
      rw [List.flatMap_cons, List.map_append, List.map_append, hcalls, List.map_map, List.map_map]
      simp only [Function.comp_def, Call.line?, Detail.sight, hspan]
    · rw [List.flatMap_cons, List.map_append, List.map_append, hobjects, List.map_map, List.map_map,
        ← hphase, ← hkind]
      simp only [Function.comp_def, PlainEvent.line?, hstart, hstop, ← hphase, ← hkind]
      rfl

namespace Session

/-- A run over the buffer beside the log of a run over a plain value. -/
structure AgreesWith (outcome : Outcome Sight) (log : List (Nat × PlainEvent)) : Prop where
  /-- The run ends well. -/
  ok : outcome.fault = none
  /-- Both make the same lines, none of them without a source range. -/
  lines : ∃ lines : List LogLine, outcome.calls.map Call.line? = lines.map some ∧
    log.map (fun call => call.2.line? call.1) = lines.map some

/-- If a view has a plain value, running a visitor on the view and running it on that value gives the
same log. The view may be projected in one session and walked in another. -/
theorem run_agreesWith_plainLog {doc : Document} {s s' t : Session} (hs : Reachable doc s)
    (ht : Reachable doc t) (hsize : doc.size < wordModulus) {kind : ViewKind} {pos : Nat}
    {item twin : Link} (hi : s.heap.Live item) (hplace : item.place = .view kind pos)
    (htwin : t.heap.Live twin) (hplace' : twin.place = .view kind pos) {p : Value}
    (hp : s.exec (project (.view kind) (.object item)) = (.ok p, s')) {keys : List String}
    {fresh visitor : Visitor} (hkeys : Visitor.compile keys = .ok fresh)
    (hreused : fresh.Reused visitor) :
    AgreesWith ((run visitor Detail.span.look twin).run t).1 (visitor.plan.plainLog p) := by
  obtain ⟨hsdoc, hssound, hsdepth⟩ := hs.sound
  obtain ⟨htdoc, htsound, htdepth⟩ := ht.sound
  obtain ⟨_, hcalls, hfault⟩ := run_run (look_answers t.document .span) htsound htdepth htwin
    hplace' visitor
  obtain ⟨hplan, _⟩ := Plan.compile_eq hkeys
  rw [← hreused.plan_eq] at hplan
  rw [htdoc] at hcalls hfault
  -- the plain value is that of the document alone
  have hholds : s.heap.Holds (.object item) := fun other hother => Option.some.inj hother ▸ hi
  have hvalue := (project_reading hssound hsdepth (.view kind) hholds).outcome.eq_of_eq
  rw [hp, hsdoc] at hvalue
  have hopen := hssound.heap.openPlace_eq hi
  rw [hplace, hsdoc] at hopen
  obtain ⟨hresult, hevents⟩ := (walk_agree hplan hsize hopen hvalue.symm).shows_events
  refine ⟨?_, ?_⟩
  · rw [hfault, Trace.fault?, hresult]
  · rw [hcalls]
    exact lines_of_meets visitor.plan hevents

/-- A value that is to be had from the document is to be had in its sessions. -/
theorem exec_project_of_reachable {doc : Document} {s : Session} (h : Reachable doc s)
    {layout : Layout} {d : Datum Link} (hd : s.heap.Holds d) {p : Value}
    (hp : Projection.project doc doc.access layout d.erase = .ok p) :
    ∃ t, s.exec (project layout d) = (.ok p, t) := by
  obtain ⟨rfl, hs, hdepth⟩ := h.sound
  have hvalue := (project_reading hs hdepth layout hd).outcome.eq_of_eq
  exact ⟨_, Prod.ext (hvalue.trans hp) rfl⟩

/-- The plain value of the block. -/
def blockValue : Value :=
  let literal := Projection.tagged .booleanLiteral ⟨2, 6⟩ [("value", .boolean true)]
  let first := Projection.tagged .expressionStatement ⟨2, 7⟩ [("expression", .object literal)]
  let second := Projection.tagged .debuggerStatement ⟨8, 16⟩ []
  .object (Projection.tagged .blockStatement ⟨0, 18⟩
    [("body", .array [.object first, .object second])])

set_option maxRecDepth 4000 in
theorem project_block : Projection.project (.block 88 256) (Document.block 88 256).access
    (.view (.node .blockStatement)) (.object blockNode.erase) = .ok blockValue := rfl

/-- A block that is projected and walked where another walk is inside of it. The literal in it is in
the plain value, and neither walk goes there. -/
theorem run_agreesWith_plainLog_block :
    AgreesWith
      ((run statementsVisitor Detail.span.look blockNode).run (insideBlock 88 256)).1
      (statementsVisitor.plan.plainLog blockValue) ∧
    ((run statementsVisitor Detail.span.look blockNode).run (insideBlock 88 256)).1.log =
      [(1, ⟨.enter, .debuggerStatement, 104⟩), (0, ⟨.exit, .blockStatement, 0⟩)] := by
  have hreachable := insideBlock_reachable 88 256
  have hlive := blockNode_live 88 256
  have hholds : (insideBlock 88 256).heap.Holds (.object blockNode) :=
    fun item hitem => Option.some.inj hitem ▸ hlive
  obtain ⟨t, hproject⟩ := exec_project_of_reachable hreachable hholds project_block
  refine ⟨?_, by decide +kernel⟩
  exact run_agreesWith_plainLog hreachable hreachable (by decide) hlive rfl hlive rfl hproject
    statementsVisitor_compiled .refl

end Session

end FlatSyntax
