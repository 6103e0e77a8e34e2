import Mathlib
import FlatSyntax.Proofs.Schema
import FlatSyntax.Proofs.VisitorKeys
import FlatSyntax.Proofs.Walk

/-!
# The kinds worth descending into, exactly

Two relations say what the schema allows, without sets and without a search. A value holds a node
*nearest* if no other node is around it: pointers, runs, options, unions and records are passed
through. The kinds that can be nearest below a node are its children, and going from a node to a
child again and again leads to whatever a node can hold *at any depth*.

The search for needed kinds adds kinds round by round until a round adds none. It ends, since there
are finitely many kinds, and it ends with the kinds from which a registered kind can be reached and
no others: everything that is added leads to a registered kind, and a set that a round does not
change has everything that leads to it. So a visitor descends into a value iff the value can hold,
at any depth, a node of a registered kind.
-/

namespace FlatSyntax

/-! ## What the schema allows -/

/-- A value of the layout can hold a node of the kind with no other node around it. -/
inductive Layout.Nearest : Layout → NodeKind → Prop where
  /-- The node itself. -/
  | node (kind : NodeKind) : Nearest (.node kind) kind
  /-- In a child of a record. -/
  | record {kind : RecordKind} {f : Field} {goal : NodeKind}
      (hf : f ∈ (ViewKind.record kind).children) (h : Nearest f.layout goal) :
      Nearest (.record kind) goal
  /-- In a variant of a union. -/
  | union {kind : UnionKind} {v : Variant} {goal : NodeKind} (hv : v ∈ kind.variants)
      (h : Nearest v.layout goal) : Nearest (.union kind) goal
  /-- Behind a pointer. -/
  | boxed {target : Layout} {goal : NodeKind} (h : Nearest target goal) :
      Nearest (.boxed target) goal
  /-- In an element of a run. -/
  | sequence {element : Layout} {goal : NodeKind} (h : Nearest element goal) :
      Nearest (.sequence element) goal
  /-- In a value that is present. -/
  | optional {value : Layout} {goal : NodeKind} (h : Nearest value goal) :
      Nearest (.optional value) goal

/-- A node of the first kind can have a node of the second one nearest below it. -/
def NodeKind.Child (kind child : NodeKind) : Prop :=
  ∃ f ∈ (ViewKind.node kind).children, f.layout.Nearest child

/-- A node of the first kind can have one of the second below it, or is one. -/
abbrev NodeKind.LeadsTo : NodeKind → NodeKind → Prop := Relation.ReflTransGen NodeKind.Child

/-- A value of the layout can hold a node of the kind, at any depth. -/
inductive Layout.CanHold : Layout → NodeKind → Prop where
  /-- The node itself. -/
  | node (kind : NodeKind) : CanHold (.node kind) kind
  /-- In a field of a node or a record, whether or not walks descend into it. -/
  | field {kind : ViewKind} {f : Field} {goal : NodeKind} (hf : f ∈ kind.fields)
      (h : CanHold f.layout goal) : CanHold (.view kind) goal
  /-- In a variant of a union. -/
  | union {kind : UnionKind} {v : Variant} {goal : NodeKind} (hv : v ∈ kind.variants)
      (h : CanHold v.layout goal) : CanHold (.union kind) goal
  /-- Behind a pointer. -/
  | boxed {target : Layout} {goal : NodeKind} (h : CanHold target goal) :
      CanHold (.boxed target) goal
  /-- In an element of a run. -/
  | sequence {element : Layout} {goal : NodeKind} (h : CanHold element goal) :
      CanHold (.sequence element) goal
  /-- In a value that is present. -/
  | optional {value : Layout} {goal : NodeKind} (h : CanHold value goal) :
      CanHold (.optional value) goal

/-! ## The sets of nearest nodes -/

variable {record : RecordKind → KindSet} {goal : NodeKind}

theorem Variant.nearest_layout (v : Variant) : v.layout.Nearest v.node := by
  unfold Variant.layout
  split
  · exact .node v.node
  · exact .boxed (.node v.node)

theorem Variant.node_of_nearest {v : Variant} (h : v.layout.Nearest goal) : v.node = goal := by
  unfold Variant.layout at h
  split at h
  · cases h
    rfl
  · cases h with
    | boxed h =>
      cases h
      rfl

theorem ViewKind.contains_reachVia {kind : ViewKind} :
    (kind.reachVia record).contains goal = true ↔
      ∃ f ∈ kind.children, (f.layout.reachVia record).contains goal = true := by
  have hfold : ∀ (fields : List Field) (s : KindSet),
      (fields.foldl (fun kinds f => kinds.union (f.layout.reachVia record)) s).contains goal =
          true ↔
        s.contains goal = true ∨ ∃ f ∈ fields, (f.layout.reachVia record).contains goal = true := by
    intro fields
    induction fields with
    | nil => simp
    | cons f rest ih =>
      intro s
      rw [List.foldl_cons, ih, KindSet.contains_union, Bool.or_eq_true, or_assoc]
      simp only [List.mem_cons, exists_eq_or_imp]
  have hempty : (∅ : KindSet).contains goal = false := KindSet.contains_empty goal
  unfold ViewKind.reachVia
  rw [hfold, hempty]
  simp

/-- If every kind that a record is said to reach is nearest in it, the same goes for every
layout. -/
theorem Layout.nearest_of_reachVia
    (hr : ∀ kind goal, (record kind).contains goal = true → (Layout.record kind).Nearest goal)
    {layout : Layout} (h : (layout.reachVia record).contains goal = true) :
    layout.Nearest goal := by
  induction layout with
  | view kind =>
    cases kind with
    | node kind =>
      have hkind : kind = goal := by simpa [Layout.reachVia] using h
      exact hkind ▸ .node kind
    | record kind => exact hr kind goal h
  | union kind =>
    have hmem : goal ∈ kind.variants.map Variant.node := by simpa [Layout.reachVia] using h
    obtain ⟨v, hv, rfl⟩ := List.mem_map.mp hmem
    exact .union hv v.nearest_layout
  | boxed target ih => exact .boxed (ih h)
  | sequence element ih => exact .sequence (ih h)
  | optional value ih => exact .optional (ih h)
  | _ => simp [Layout.reachVia, EmptyCollection.emptyCollection] at h

theorem RecordKind.nearest_of_reach {kind : RecordKind} (h : kind.reach.contains goal = true) :
    (Layout.record kind).Nearest goal := by
  have hlevel : ∀ level kind goal, (reachWithin level kind).contains goal = true →
      (Layout.record kind).Nearest goal := by
    intro level
    induction level with
    | zero =>
      intro kind goal h
      exact absurd h (by simp [reachWithin, EmptyCollection.emptyCollection])
    | succ level ih =>
      intro kind goal h
      obtain ⟨f, hf, hreach⟩ := ViewKind.contains_reachVia.mp h
      exact .record hf (Layout.nearest_of_reachVia ih hreach)
  exact hlevel _ kind goal h

/-- The set of a layout has the kinds that can be nearest. -/
theorem Layout.contains_reach_iff {layout : Layout} :
    layout.reach.contains goal = true ↔ layout.Nearest goal := by
  constructor
  · exact nearest_of_reachVia fun _ _ => RecordKind.nearest_of_reach
  · intro h
    induction h with
    | node kind => simp [Layout.reach, Layout.reachVia]
    | record hf _ ih => exact RecordKind.contains_reach hf ih
    | @union kind v goal hv h _ =>
      have hnode := Variant.node_of_nearest h
      simpa [Layout.reach, Layout.reachVia] using ⟨v, hv, hnode⟩
    | boxed _ ih => exact ih
    | sequence _ ih => exact ih
    | optional _ ih => exact ih

/-- The set of a node has the kinds of its children. -/
theorem NodeKind.contains_reach_iff {kind child : NodeKind} :
    kind.reach.contains child = true ↔ kind.Child child := by
  have hvia : kind.reach.contains child = true ↔
      ∃ f ∈ (ViewKind.node kind).children, f.layout.reach.contains child = true :=
    ViewKind.contains_reachVia
  simp only [hvia, Layout.contains_reach_iff, NodeKind.Child]

/-! ## Any depth -/

/-- What walks do not descend into holds no node. -/
theorem ViewKind.detail_reach {kind : ViewKind} {f : Field} (hf : f ∈ kind.fields)
    (h : f ∉ kind.children) : f.layout.reach = ∅ := by
  cases kind with
  | record kind => exact RecordKind.detail_reach hf h
  | node kind =>
    have htable : ∀ kind ∈ NodeKind.all, ∀ f ∈ (ViewKind.node kind).fields,
        f.role = .detail → f.layout.reach = ∅ := by decide +kernel
    refine htable kind kind.mem_all f hf ?_
    cases hr : f.role with
    | detail => rfl
    | child => exact absurd (List.mem_filter.mpr ⟨hf, by simp [hr]⟩) h

theorem ViewKind.child_of_nearest {kind : ViewKind} {f : Field} (hf : f ∈ kind.fields)
    (h : f.layout.Nearest goal) : f ∈ kind.children := by
  by_contra hdetail
  have hcontains := Layout.contains_reach_iff.mpr h
  rw [ViewKind.detail_reach hf hdetail] at hcontains
  have hempty : (∅ : KindSet).contains goal = false := KindSet.contains_empty goal
  rw [hempty] at hcontains
  cases hcontains

theorem Layout.Nearest.canHold {layout : Layout} {kind : NodeKind} (h : layout.Nearest kind)
    (hgoal : (Layout.node kind).CanHold goal) : layout.CanHold goal := by
  induction h with
  | node kind => exact hgoal
  | record hf _ ih => exact .field (List.mem_of_mem_filter hf) (ih hgoal)
  | union hv _ ih => exact .union hv (ih hgoal)
  | boxed _ ih => exact .boxed (ih hgoal)
  | sequence _ ih => exact .sequence (ih hgoal)
  | optional _ ih => exact .optional (ih hgoal)

theorem NodeKind.LeadsTo.canHold {kind : NodeKind} (h : kind.LeadsTo goal) :
    (Layout.node kind).CanHold goal := by
  induction h using Relation.ReflTransGen.head_induction_on with
  | refl => exact .node goal
  | head hchild _ ih =>
    obtain ⟨f, hf, hnearest⟩ := hchild
    exact .field (List.mem_of_mem_filter hf) (hnearest.canHold ih)

/-- What a value can hold at any depth is a nearest node, or below one. -/
theorem Layout.canHold_iff {layout : Layout} :
    layout.CanHold goal ↔ ∃ kind, layout.Nearest kind ∧ kind.LeadsTo goal := by
  constructor
  · intro h
    induction h with
    | node kind => exact ⟨kind, .node kind, .refl⟩
    | @field kind f goal hf _ ih =>
      obtain ⟨near, hnear, hleads⟩ := ih
      have hchild := ViewKind.child_of_nearest hf hnear
      cases kind with
      | node kind => exact ⟨kind, .node kind, .head ⟨f, hchild, hnear⟩ hleads⟩
      | record kind => exact ⟨near, .record hchild hnear, hleads⟩
    | union hv _ ih =>
      obtain ⟨near, hnear, hleads⟩ := ih
      exact ⟨near, .union hv hnear, hleads⟩
    | boxed _ ih =>
      obtain ⟨near, hnear, hleads⟩ := ih
      exact ⟨near, .boxed hnear, hleads⟩
    | sequence _ ih =>
      obtain ⟨near, hnear, hleads⟩ := ih
      exact ⟨near, .sequence hnear, hleads⟩
    | optional _ ih =>
      obtain ⟨near, hnear, hleads⟩ := ih
      exact ⟨near, .optional hnear, hleads⟩
  · rintro ⟨kind, hnear, hleads⟩
    exact hnear.canHold hleads.canHold

/-! ## The search -/

namespace KindSet

variable {table : List (NodeKind × KindSet)} {found result registered : KindSet}
  {P : NodeKind → Prop}

/-- Rounds are made until one adds nothing. -/
inductive Settles (table : List (NodeKind × KindSet)) : KindSet → KindSet → Prop where
  /-- A round adds nothing. -/
  | done {found : KindSet} (h : grow table found = found) : Settles table found found
  /-- A round adds something, and more are made. -/
  | again {found result : KindSet} (h : grow table found ≠ found)
      (rest : Settles table (grow table found) result) : Settles table found result

/-- There are fewer rounds than kinds that are missing at the start, and one more. -/
theorem growTimes_settles {rounds : Nat} (h : found.lacking < rounds) :
    Settles table found (growTimes table rounds found) := by
  induction rounds generalizing found with
  | zero => omega
  | succ rounds ih =>
    unfold growTimes
    simp only
    split
    · exact .done ‹_›
    · rename_i hne
      have := lacking_grow_lt hne
      exact .again hne (ih (by omega))

theorem needed_settles (registered : KindSet) :
    Settles (NodeKind.all.map fun kind => (kind, kind.reach)) registered registered.needed :=
  growTimes_settles (Nat.lt_succ_of_le List.countP_le_length)

/-- One round adds only what has a property, if whatever reaches a kind with the property has it. -/
theorem grow_all (hproper : ∀ entry ∈ table, entry.2.Proper)
    (hentry : ∀ entry ∈ table, ∀ kind, entry.2.contains kind = true → P kind → P entry.1)
    (h : ∀ kind, found.contains kind = true → P kind) :
    ∀ kind, (grow table found).contains kind = true → P kind := by
  induction table generalizing found with
  | nil => exact h
  | cons entry rest ih =>
    rw [grow_cons]
    refine ih (fun e he => hproper e (List.mem_cons_of_mem entry he))
      (fun e he => hentry e (List.mem_cons_of_mem entry he)) fun kind hkind => ?_
    split at hkind
    · rename_i hmeets
      rw [contains_insert, Bool.or_eq_true, decide_eq_true_iff] at hkind
      rcases hkind with hkind | rfl
      · exact h kind hkind
      · obtain ⟨below, hbelow, hfound⟩ :=
          (intersects_iff (hproper entry List.mem_cons_self)).mp hmeets
        exact hentry entry List.mem_cons_self below hbelow (h below hfound)
    · exact h kind hkind

/-- What one round keeps all rounds keep. -/
theorem Settles.all (hsettles : Settles table found result)
    (hproper : ∀ entry ∈ table, entry.2.Proper)
    (hentry : ∀ entry ∈ table, ∀ kind, entry.2.contains kind = true → P kind → P entry.1)
    (h : ∀ kind, found.contains kind = true → P kind) :
    ∀ kind, result.contains kind = true → P kind := by
  induction hsettles with
  | done _ => exact h
  | again _ _ ih => exact ih (grow_all hproper hentry h)

/-- The needed kinds are those from which a registered kind can be reached. -/
theorem contains_needed_iff {kind : NodeKind} :
    registered.needed.contains kind = true ↔
      ∃ goal, registered.contains goal = true ∧ kind.LeadsTo goal := by
  constructor
  · refine (needed_settles registered).all
      (P := fun kind => ∃ goal, registered.contains goal = true ∧ kind.LeadsTo goal) ?_ ?_
      (fun kind h => ⟨kind, h, .refl⟩) kind
    · intro entry hentry
      obtain ⟨k, _, rfl⟩ := List.mem_map.mp hentry
      exact k.reach_proper
    · rintro entry hentry below hbelow ⟨goal, hgoal, hleads⟩
      obtain ⟨k, _, rfl⟩ := List.mem_map.mp hentry
      exact ⟨goal, hgoal, .head (NodeKind.contains_reach_iff.mp hbelow) hleads⟩
  · rintro ⟨goal, hgoal, hleads⟩
    -- backwards along the way: the last kind is registered, and the set is closed
    induction hleads using Relation.ReflTransGen.head_induction_on with
    | refl => exact contains_needed hgoal
    | @head kind child hchild _ ih =>
      refine needed_closed registered kind ?_
      exact (intersects_iff kind.reach_proper).mpr
        ⟨child, NodeKind.contains_reach_iff.mpr hchild, ih⟩

end KindSet

theorem Plan.reaches_iff_canHold {plan : Plan} (h : plan.needed = plan.registered.needed)
    {layout : Layout} :
    plan.reaches layout = true ↔
      ∃ goal, plan.registered.contains goal = true ∧ layout.CanHold goal := by
  unfold Plan.reaches
  rw [KindSet.intersects_iff layout.reach_proper, h]
  simp only [Layout.contains_reach_iff, KindSet.contains_needed_iff, Layout.canHold_iff]
  constructor
  · rintro ⟨kind, hnear, goal, hgoal, hleads⟩
    exact ⟨goal, hgoal, kind, hnear, hleads⟩
  · rintro ⟨goal, hgoal, kind, hnear, hleads⟩
    exact ⟨kind, hnear, goal, hgoal, hleads⟩

/-- What the search finds for registered kinds, and what visitors make of it. -/
structure KindSet.SearchedExactly (registered : KindSet) : Prop where
  /-- The rounds come to an end, with the needed kinds. -/
  settles : Settles (NodeKind.all.map fun kind => (kind, kind.reach)) registered registered.needed
  /-- A kind is needed iff a registered kind can be reached from it. -/
  needed : ∀ kind, registered.needed.contains kind = true ↔
    ∃ goal, registered.contains goal = true ∧ kind.LeadsTo goal
  /-- A visitor for these kinds, whatever it has walked already, finds a layout worth descending
  into iff a value of it can hold, at any depth, a node of a registered kind. -/
  reaches : ∀ {keys : List String} {fresh v : Visitor}, Visitor.compile keys = .ok fresh →
    fresh.Reused v → v.plan.registered = registered → ∀ layout, (v.reaches layout).1 = true ↔
      ∃ goal, registered.contains goal = true ∧ layout.CanHold goal

/-- The search for needed kinds finds exactly what leads to registered kinds. -/
theorem KindSet.searchedExactly (registered : KindSet) : registered.SearchedExactly where
  settles := needed_settles registered
  needed kind := contains_needed_iff
  reaches {keys fresh v} hcompile hreused hregistered layout := by
    subst hregistered
    have hneeded : v.plan.needed = v.plan.registered.needed := by
      obtain ⟨parsed, -, rfl⟩ := Visitor.compile_eq_ok_iff.mp hcompile
      rw [hreused.plan_eq]
      rfl
    rw [Visitor.reaches_fst]
    exact Plan.reaches_iff_canHold hneeded

end FlatSyntax
