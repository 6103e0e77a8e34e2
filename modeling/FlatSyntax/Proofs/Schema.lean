import Mathlib
import FlatSyntax.Proofs.Needed

/-!
# Facts about the schema

What walks rely on and only the tables can say: names tell kinds apart, keys tell the fields of a
view apart, the tag of a node object leads back to its kind, records nest in order of their ranks and
keep their children in the order of their keys, and what is not a child of a record reaches no node.
The tables are checked once for nodes and once for records.
-/

namespace FlatSyntax

/-! ## The tables -/

/-- If the field is a tag, it is a choice, and the kinds of its spellings are as `p` says. -/
def Field.tagged (p : Option NodeKind → Bool) (f : Field) : Bool :=
  f.key != "type" ||
    match f.layout with
    | .choice c => c.members.all fun member => p (NodeKind.ofTag? member.text)
    | _ => false

theorem Field.tagged_spec {p : Option NodeKind → Bool} {f : Field} (h : f.tagged p = true)
    (hkey : f.key = "type") : ∃ c, f.layout = .choice c ∧
      ∀ member ∈ c.members, p (NodeKind.ofTag? member.text) = true := by
  unfold tagged at h
  rw [hkey] at h
  simp only [bne_self_eq_false, Bool.false_or] at h
  split at h
  · rename_i c hc
    exact ⟨c, hc, List.all_eq_true.mp h⟩
  · cases h

/-- The layout without pointers, runs and options around it. -/
def Layout.core : Layout → Layout
  | .boxed target => target.core
  | .sequence element => element.core
  | .optional value => value.core
  | layout => layout

/-- What the table of nodes says: a name belongs to one kind, a tag says the kind, keys differ, and
children are not under the keys that every node has. -/
theorem NodeKind.table (kind : NodeKind) :
    ofName? kind.name = some kind ∧
      (∀ f ∈ (ViewKind.node kind).fields, f.tagged (· == some kind) = true) ∧
      ((ViewKind.node kind).fields.map Field.key).Nodup ∧
      ∀ f ∈ (ViewKind.node kind).children,
        f.key ≠ "type" ∧ f.key ≠ "start" ∧ f.key ≠ "end" := by
  have htable : ∀ kind ∈ all, ofName? kind.name = some kind ∧
      (∀ f ∈ (ViewKind.node kind).fields, f.tagged (· == some kind) = true) ∧
      ((ViewKind.node kind).fields.map Field.key).Nodup ∧
      ∀ f ∈ (ViewKind.node kind).children,
        f.key ≠ "type" ∧ f.key ≠ "start" ∧ f.key ≠ "end" := by decide +kernel
  exact htable kind kind.mem_all

/-- What the table of records says: a tag says no kind, keys differ, children are in the order of
their keys, the records among them have smaller ranks, and what is not a child reaches no node. -/
theorem RecordKind.table (kind : RecordKind) :
    (∀ f ∈ (ViewKind.record kind).fields, f.tagged (· == none) = true) ∧
      ((ViewKind.record kind).fields.map Field.key).Nodup ∧
      ((ViewKind.record kind).children.map Field.key).Pairwise (· < ·) ∧
      (∀ f ∈ (ViewKind.record kind).children, ∀ inner ∈ all,
        f.layout.core = .record inner → inner.rank < kind.rank) ∧
      ∀ f ∈ (ViewKind.record kind).fields, f.role = .detail → f.layout.reach = ∅ := by
  have htable : ∀ kind ∈ all,
      (∀ f ∈ (ViewKind.record kind).fields, f.tagged (· == none) = true) ∧
      ((ViewKind.record kind).fields.map Field.key).Nodup ∧
      ((ViewKind.record kind).children.map Field.key).Pairwise (· < ·) ∧
      (∀ f ∈ (ViewKind.record kind).children, ∀ inner ∈ all,
        f.layout.core = .record inner → inner.rank < kind.rank) ∧
      ∀ f ∈ (ViewKind.record kind).fields, f.role = .detail → f.layout.reach = ∅ := by
    decide +kernel
  exact htable kind kind.mem_all

/-! ## Tags -/

theorem NodeKind.ofTag?_name (kind : NodeKind) : ofTag? kind.name = some kind := by
  unfold ofTag?
  rw [kind.table.1]

/-- A field that says what the type of a node is says its kind. -/
theorem NodeKind.tag_field {kind : NodeKind} {f : Field} (hf : f ∈ (ViewKind.node kind).fields)
    (hkey : f.key = "type") : ∃ c, f.layout = .choice c ∧
      ∀ member ∈ c.members, ofTag? member.text = some kind := by
  obtain ⟨c, hc, hmembers⟩ := Field.tagged_spec (kind.table.2.1 f hf) hkey
  exact ⟨c, hc, fun member hm => by simpa using hmembers member hm⟩

/-- A field of a record with the key of a tag is none. -/
theorem RecordKind.tag_field {kind : RecordKind} {f : Field}
    (hf : f ∈ (ViewKind.record kind).fields) (hkey : f.key = "type") :
    ∃ c, f.layout = .choice c ∧
      ∀ member ∈ c.members, NodeKind.ofTag? member.text = none := by
  obtain ⟨c, hc, hmembers⟩ := Field.tagged_spec (kind.table.1 f hf) hkey
  exact ⟨c, hc, fun member hm => by simpa using hmembers member hm⟩

/-! ## Keys -/

theorem ViewKind.nodup_keys (kind : ViewKind) : (kind.fields.map Field.key).Nodup := by
  cases kind with
  | node kind => exact kind.table.2.2.1
  | record kind => exact kind.table.2.1

/-- A child is known by its key. -/
theorem ViewKind.key_mem_children {kind : ViewKind} {f : Field} (hf : f ∈ kind.fields) :
    f.key ∈ kind.children.map Field.key ↔ f ∈ kind.children := by
  refine ⟨fun hkey => ?_, fun hchild => List.mem_map_of_mem hchild⟩
  obtain ⟨g, hg, heq⟩ := List.mem_map.mp hkey
  have hfg := List.inj_on_of_nodup_map kind.nodup_keys (List.mem_of_mem_filter hg) hf heq
  exact hfg ▸ hg

theorem ViewKind.filter_key_mem_children (kind : ViewKind) :
    kind.fields.filter (fun f => f.key ∈ kind.children.map Field.key) = kind.children := by
  refine List.filter_congr fun f hf => ?_
  have hrole : f ∈ kind.children ↔ (f.role == .child) = true := by simp [ViewKind.children, hf]
  rw [Bool.eq_iff_iff, decide_eq_true_iff]
  exact (key_mem_children hf).trans hrole

/-- The children of a node are not under the keys that every node has. -/
theorem NodeKind.child_key {kind : NodeKind} {f : Field}
    (hf : f ∈ (ViewKind.node kind).children) :
    f.key ≠ "type" ∧ f.key ≠ "start" ∧ f.key ≠ "end" := kind.table.2.2.2 f hf

/-! ## Records -/

namespace RecordKind

/-- A record has its children in the order of their keys. -/
theorem sorted_children (kind : RecordKind) :
    ((ViewKind.record kind).children.map Field.key).Pairwise (· < ·) := kind.table.2.2.1

/-- The records among the children of a record have smaller ranks. -/
theorem rank_lt {kind inner : RecordKind} {f : Field} (hf : f ∈ (ViewKind.record kind).children)
    (h : f.layout.core = .record inner) : inner.rank < kind.rank :=
  kind.table.2.2.2.1 f hf inner inner.mem_all h

/-- What is not a child of a record reaches no node. -/
theorem detail_reach {kind : RecordKind} {f : Field} (hf : f ∈ (ViewKind.record kind).fields)
    (h : f ∉ (ViewKind.record kind).children) : f.layout.reach = ∅ := by
  refine kind.table.2.2.2.2 f hf ?_
  cases hr : f.role with
  | detail => rfl
  | child => exact absurd (List.mem_filter.mpr ⟨hf, by simp [hr]⟩) h

end RecordKind

end FlatSyntax
