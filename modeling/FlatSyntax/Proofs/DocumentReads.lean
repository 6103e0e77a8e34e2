import Mathlib
import FlatSyntax.Document.Projection

/-!
# What a successful read has read

A read that succeeds, and a projection that does, tell what was found on the way. One lemma for each
layout says what, so that later arguments never take a read apart again.
-/

namespace FlatSyntax

/-! ## Reads -/

section Reads

variable {α β : Type}

theorem ok_of_bind {x : Except Fault α} {f : α → Except Fault β} {b : β} (h : x >>= f = .ok b) :
    ∃ a, x = .ok a ∧ f a = .ok b := by
  cases x with
  | error fault => cases h
  | ok a => exact ⟨a, rfl, h⟩

theorem ok_of_map {x : Except Fault α} {f : α → β} {b : β} (h : f <$> x = .ok b) :
    ∃ a, x = .ok a ∧ b = f a := by
  cases x with
  | error fault => cases h
  | ok a =>
    cases h
    exact ⟨a, rfl, rfl⟩

/-- What comes of a computation: a fault as `P` says, or a result as `Q` says. -/
def Yields (P : Fault → Prop) (Q : α → Prop) : Except Fault α → Prop
  | .ok a => Q a
  | .error fault => P fault

section Yields

variable {P P' : Fault → Prop} {Q Q' : α → Prop} {R : β → Prop} {x : Except Fault α}

theorem Yields.of_ok {a : α} (h : Yields P Q x) (hx : x = .ok a) : Q a := by
  subst hx
  exact h

theorem Yields.of_error {fault : Fault} (h : Yields P Q x) (hx : x = .error fault) : P fault := by
  subst hx
  exact h

theorem Yields.self (h : Yields P (fun _ => True) x) : Yields P (fun a => x = .ok a) x := by
  cases x with
  | ok a => rfl
  | error fault => exact h

theorem Yields.mono (h : Yields P Q x) (hP : ∀ fault, P fault → P' fault)
    (hQ : ∀ a, Q a → Q' a) : Yields P' Q' x := by
  cases x with
  | ok a => exact hQ a h
  | error fault => exact hP fault h

theorem Yields.bind {f : α → Except Fault β} (h : Yields P Q x)
    (hf : ∀ a, Q a → Yields P R (f a)) : Yields P R (x >>= f) := by
  cases x with
  | ok a => exact hf a h
  | error fault => exact h

theorem Yields.map {f : α → β} (h : Yields P Q x) (hf : ∀ a, Q a → R (f a)) :
    Yields P R (f <$> x) := by
  cases x with
  | ok a => exact hf a h
  | error fault => exact h

theorem Yields.mapM {f : α → Except Fault β} (l : List α) (hf : ∀ a ∈ l, Yields P R (f a)) :
    Yields P (fun bs => ∀ b ∈ bs, R b) (l.mapM f) := by
  induction l with
  | nil => exact fun b hb => absurd hb List.not_mem_nil
  | cons a rest ih =>
    rw [List.mapM_cons]
    refine (hf a List.mem_cons_self).bind fun b hb => ?_
    refine (ih fun c hc => hf c (List.mem_cons_of_mem a hc)).bind fun bs hbs => ?_
    intro c hc
    rcases List.mem_cons.mp hc with rfl | hc
    · exact hb
    · exact hbs c hc

theorem Yields.foldlM {f : β → α → Except Fault β} (l : List α) (b : β)
    (hf : ∀ b, ∀ a ∈ l, Yields P (fun _ => True) (f b a)) :
    Yields P (fun _ => True) (l.foldlM f b) := by
  induction l generalizing b with
  | nil => exact trivial
  | cons a rest ih =>
    rw [List.foldlM_cons]
    refine (hf b a List.mem_cons_self).bind fun c _ => ?_
    exact ih c fun d e he => hf d e (List.mem_cons_of_mem a he)

end Yields

/-- What a computation gives that does not fail. -/
def valueOf [Inhabited β] (r : Except Fault β) : β := r.toOption.getD default

theorem mapM_ok [Inhabited β] {f : α → Except Fault β} {l : List α} {bs : List β}
    (h : l.mapM f = .ok bs) :
    (∀ a ∈ l, f a = .ok (valueOf (f a))) ∧ bs = l.map fun a => valueOf (f a) := by
  induction l generalizing bs with
  | nil =>
    cases h
    simp
  | cons a rest ih =>
    rw [List.mapM_cons] at h
    obtain ⟨b, hb, h⟩ := ok_of_bind h
    obtain ⟨others, hothers, h⟩ := ok_of_bind h
    cases h
    obtain ⟨hall, rfl⟩ := ih hothers
    refine ⟨fun c hc => ?_, ?_⟩
    · rcases List.mem_cons.mp hc with rfl | hc
      · rw [hb]
        rfl
      · exact hall c hc
    · rw [List.map_cons, hb]
      rfl

variable {doc : Document} {field : String} {pos : Nat} {d : Datum (Item Unit)} {layout : Layout}

theorem Document.extent_view {doc : Document} {kind : ViewKind} {pos : Nat} {extent : Extent}
    (h : doc.extent (.view kind pos) = .ok extent) :
    doc.check pos kind.size = .ok () ∧ extent = ⟨pos, kind.fields.length⟩ := by
  simp only [Document.extent] at h
  cases hc : doc.check pos kind.size with
  | error f =>
    rw [hc] at h
    cases h
  | ok u =>
    rw [hc] at h
    cases h
    exact ⟨rfl, rfl⟩

theorem openPlace_view {kind : ViewKind} {item : Item Unit}
    (h : doc.openPlace (.view kind pos) = .ok item) :
    doc.check pos kind.size = .ok () ∧ item = ⟨.view kind pos, ⟨pos, kind.fields.length⟩, ()⟩ := by
  obtain ⟨extent, hextent, hitem⟩ := ok_of_bind h
  obtain ⟨hcheck, rfl⟩ := Document.extent_view hextent
  cases hitem
  exact ⟨hcheck, rfl⟩

theorem read_view {kind : ViewKind} (h : doc.read field (.view kind) pos = .ok d) :
    ∃ item, doc.openPlace (.view kind pos) = .ok item ∧ d = .object item := ok_of_map h

theorem read_union {kind : UnionKind} (h : doc.read field (.union kind) pos = .ok d) :
    ∃ tag v target item, doc.byte pos = .ok tag ∧ kind.variant? tag = some v ∧
      doc.target v (doc.offset pos 8) = .ok target ∧
      doc.openPlace (.view (.node v.node) target) = .ok item ∧ d = .variant kind v item := by
  obtain ⟨e, he, hd⟩ := ok_of_bind h
  obtain ⟨tag, htag, he⟩ := ok_of_bind he
  cases hv : kind.variant? tag with
  | none =>
    rw [hv] at he
    cases he
  | some v =>
    rw [hv] at he
    obtain ⟨target, htarget, he⟩ := ok_of_bind he
    cases he
    obtain ⟨item, hitem, rfl⟩ := ok_of_map hd
    exact ⟨tag, v, target, item, htag, hv, htarget, hitem, rfl⟩

theorem read_boxed (h : doc.read field (.boxed layout) pos = .ok d) :
    ∃ target, doc.word pos = .ok target ∧ doc.read field layout target = .ok d := by
  obtain ⟨e, he, hd⟩ := ok_of_bind h
  obtain ⟨target, htarget, he⟩ := ok_of_bind he
  refine ⟨target, htarget, ?_⟩
  unfold Document.read
  rw [he]
  exact hd

theorem read_sequence (h : doc.read field (.sequence layout) pos = .ok d) :
    ∃ pointer length, doc.word pos = .ok pointer ∧ doc.word (doc.offset pos 8) = .ok length ∧
      doc.check pointer (length * layout.size) = .ok () ∧
      d = .object ⟨.sequence layout pos, ⟨pointer, length⟩, ()⟩ := by
  obtain ⟨item, hitem, rfl⟩ := ok_of_map h
  obtain ⟨extent, hextent, hitem⟩ := ok_of_bind hitem
  obtain ⟨pointer, hpointer, hextent⟩ := ok_of_bind hextent
  obtain ⟨length, hlength, hextent⟩ := ok_of_bind hextent
  obtain ⟨_, hcheck, hextent⟩ := ok_of_bind hextent
  cases hextent
  cases hitem
  exact ⟨pointer, length, hpointer, hlength, hcheck, rfl⟩

theorem read_optional (h : doc.read field (.optional layout) pos = .ok d) :
    (doc.isAbsent field layout pos = .ok true ∧ d = .absent) ∨
      (doc.isAbsent field layout pos = .ok false ∧ doc.read field layout pos = .ok d) := by
  obtain ⟨e, he, hd⟩ := ok_of_bind h
  obtain ⟨absent, habsent, he⟩ := ok_of_bind he
  cases absent with
  | true =>
    cases he
    cases hd
    exact .inl ⟨habsent, rfl⟩
  | false =>
    refine .inr ⟨habsent, ?_⟩
    unfold Document.read
    rw [show doc.locate field layout pos = .ok e from he]
    exact hd

/-- Which field is to blame matters only if there is something to blame it for. -/
theorem isAbsent_ok {absent : Bool} (h : doc.isAbsent field layout pos = .ok absent)
    (other : String) : doc.isAbsent other layout pos = .ok absent := by
  unfold Document.isAbsent at h ⊢
  generalize layout.absence = absence at h ⊢
  cases absence with
  | unsupported => cases h
  | _ => exact h

theorem read_choice {kind : ChoiceKind} (h : doc.read field (.choice kind) pos = .ok d) :
    ∃ member ∈ kind.members, d = .choice kind member := by
  obtain ⟨e, he, hd⟩ := ok_of_bind h
  obtain ⟨tag, _, he⟩ := ok_of_bind he
  cases hm : kind.member? tag with
  | none =>
    rw [hm] at he
    cases he
  | some member =>
    rw [hm] at he
    cases he
    cases hd
    exact ⟨member, List.mem_of_find?_eq_some hm, rfl⟩

theorem read_slot {kind : SlotKind} (h : doc.read field (.slot kind) pos = .ok d) :
    ∃ c content, d = .slot kind c content := by
  obtain ⟨e, he, hd⟩ := ok_of_bind h
  obtain ⟨tag, _, he⟩ := ok_of_bind he
  cases hc : kind.case? tag with
  | none =>
    rw [hc] at he
    cases he
  | some c =>
    rw [hc] at he
    simp only at he
    cases hp : c.payload with
    | nothing =>
      rw [hp] at he
      cases he
      cases hd
      exact ⟨c, .nothing, rfl⟩
    | range =>
      rw [hp] at he
      obtain ⟨span, _, he⟩ := ok_of_bind he
      cases he
      cases hd
      exact ⟨c, .range span, rfl⟩
    | name =>
      rw [hp] at he
      cases he
      obtain ⟨item, _, rfl⟩ := ok_of_map hd
      exact ⟨c, .name item, rfl⟩

end Reads

/-! ## Projections -/

section Projections

variable {m : Type → Type} [Monad m] {τ : Type} {access : Access m τ}
  {view : Item τ → m Value}

theorem datum_absent (layout : Layout) :
    Projection.datum access view layout .absent = pure .null := by
  induction layout with
  | boxed layout ih => exact ih
  | _ => rfl

/-- An option around a layout makes no difference to the value. -/
theorem datum_optional (layout : Layout) (d : Datum (Item τ)) :
    Projection.datum access view (.optional layout) d = Projection.datum access view layout d := by
  cases d with
  | absent => rw [datum_absent, datum_absent]
  | _ => rfl

end Projections

section Fields

variable {doc : Document} {view : Item Unit → Except Fault Value} {kind : ViewKind} {pos : Nat}
  {item : Item Unit} {entries : List (String × Value)}

/-- The value of a field of the view at an offset, given the values of views. -/
def fieldValue (doc : Document) (view : Item Unit → Except Fault Value) (pos : Nat) (f : Field) :
    Except Fault Value := do
  Projection.datum doc.access view f.layout
    (← doc.read f.key f.layout (doc.offset pos f.offset))

/-- The values of the fields of a view, by their keys. -/
def fieldPairs (doc : Document) (view : Item Unit → Except Fault Value) (kind : ViewKind)
    (pos : Nat) : List (String × Value) :=
  kind.fields.map fun f => (f.key, valueOf (fieldValue doc view pos f))

/-- Every field of the view at an offset has a value. -/
def FieldsOk (doc : Document) (view : Item Unit → Except Fault Value) (kind : ViewKind)
    (pos : Nat) : Prop :=
  ∀ f ∈ kind.fields, fieldValue doc view pos f = .ok (valueOf (fieldValue doc view pos f))

/-- Entries put in one after the other, each with the value of something that was read for it. -/
theorem foldlM_insert_ok {α β : Type} {key : α → String} {read : α → Except Fault β}
    {value : α → β → Except Fault Value} {l : List α} {before after : List (String × Value)}
    (h : l.foldlM (fun entries a => do
      return Entries.insert (key a) (← value a (← read a)) entries) before = .ok after) :
    (∀ a ∈ l, (read a >>= value a) = .ok (valueOf (read a >>= value a))) ∧
      after = (l.map fun a => (key a, valueOf (read a >>= value a))).foldl
        (fun entries (key, value) => Entries.insert key value entries) before := by
  induction l generalizing before with
  | nil =>
    cases h
    simp
  | cons a rest ih =>
    rw [List.foldlM_cons] at h
    obtain ⟨entries, hstep, h⟩ := ok_of_bind h
    obtain ⟨b, hb, hstep⟩ := ok_of_bind hstep
    obtain ⟨v, hv, hstep⟩ := ok_of_bind hstep
    cases hstep
    have hvalue : (read a >>= value a) = .ok v := by
      rw [hb]
      exact hv
    obtain ⟨hall, hafter⟩ := ih h
    refine ⟨fun c hc => ?_, ?_⟩
    · rcases List.mem_cons.mp hc with rfl | hc
      · rw [hvalue]
        rfl
      · exact hall c hc
    · rw [hafter, List.map_cons, List.foldl_cons, hvalue]
      rfl

/-- The entries of a view are those of its fields, each with its own value. -/
theorem fields_ok (hplace : item.place = .view kind pos) (hbase : item.extent.base = pos)
    (h : Projection.fields doc.access view kind item = .ok entries) :
    FieldsOk doc view kind pos ∧ entries = Entries.ofList (fieldPairs doc view kind pos) := by
  -- a fold over the fields with their positions, which only say which slot is read
  have hslot : ∀ entry ∈ kind.fields.zipIdx, (do
      Projection.datum doc.access view entry.1.layout (← doc.access.slot item entry.2)) =
        fieldValue doc view pos entry.1 := by
    intro entry hentry
    have hf := List.mem_zipIdx_iff_getElem?.mp hentry
    simp [Document.access, Document.slot?, hplace, hf, hbase, fieldValue]
  have hfst : kind.fields.zipIdx.map Prod.fst = kind.fields := List.zipIdx_map_fst 0 kind.fields
  obtain ⟨hall, hentries⟩ := foldlM_insert_ok h
  refine ⟨fun f hf => ?_, ?_⟩
  · rw [← hfst] at hf
    obtain ⟨entry, hentry, rfl⟩ := List.mem_map.mp hf
    rw [← hslot entry hentry]
    exact hall entry hentry
  · rw [hentries, Entries.ofList, fieldPairs]
    conv_rhs => rw [← hfst, List.map_map]
    congr 1
    exact List.map_congr_left fun entry hentry => by rw [hslot entry hentry]; rfl

end Fields

/-! ## Runs of elements -/

theorem Document.check_ok {doc : Document} {pos length : Nat}
    (h : doc.check pos length = .ok ()) : pos + length ≤ doc.size := by
  unfold Document.check at h
  split at h
  · assumption
  · cases h

namespace Addressing

variable {addressing : Addressing} {index size : Nat}

theorem add_of_le {pos distance : Nat} (h : pos + distance ≤ largestWord) :
    addressing.add pos distance = pos + distance := by
  cases addressing with
  | saturating => exact Nat.min_eq_left h
  | exact => rfl

theorem le_add {pos distance : Nat} (h : largestWord ≤ pos + distance) :
    largestWord ≤ addressing.add pos distance := by
  cases addressing with
  | saturating => exact Nat.le_min.mpr ⟨h, Nat.le_refl _⟩
  | exact => exact h

theorem scale_of_le (h : index * size ≤ largestWord) :
    addressing.scale index size = index * size := by
  cases addressing with
  | saturating => exact Nat.min_eq_left h
  | exact => rfl

theorem le_scale (h : largestWord ≤ index * size) : largestWord ≤ addressing.scale index size := by
  cases addressing with
  | saturating => exact Nat.le_min.mpr ⟨h, Nat.le_refl _⟩
  | exact => exact h

theorem stride_of_lt (h : index * size < wordModulus) :
    addressing.stride index size = index * size := by
  cases addressing with
  | saturating => exact Nat.mod_eq_of_lt h
  | exact => rfl

end Addressing

theorem Document.offset_of_lt {doc : Document} {pos distance : Nat}
    (h : pos + distance < wordModulus) : doc.offset pos distance = pos + distance :=
  Addressing.add_of_le (Nat.le_pred_of_lt h)

/-- In a buffer shorter than the range of offsets, walking a run and reading its elements one by one
goes to the same offsets: no product wraps around or stops at the largest offset. -/
theorem Document.stride_eq_scale {doc : Document} (hsize : doc.size < wordModulus)
    {pointer length index size : Nat} (hcheck : doc.check pointer (length * size) = .ok ())
    (hindex : index < length) :
    doc.addressing.stride index size = doc.addressing.scale index size := by
  have hbound := Document.check_ok hcheck
  have hprod : index * size ≤ length * size := Nat.mul_le_mul_right size hindex.le
  have hlt : index * size < wordModulus := by omega
  have hle : index * size ≤ largestWord := Nat.le_pred_of_lt hlt
  rw [Addressing.stride_of_lt hlt, Addressing.scale_of_le hle]

section Elements

variable {doc : Document} {view : Item Unit → Except Fault Value} {element : Layout}
  {pos pointer length : Nat} {v : Value}

/-- The value of an element of a run, given the values of views. -/
def elementValue (doc : Document) (view : Item Unit → Except Fault Value) (element : Layout)
    (pointer index : Nat) : Except Fault Value := do
  Projection.datum doc.access view element
    (← doc.read element.name element
      (doc.offset pointer (doc.addressing.scale index element.size)))

/-- The value of a sequence is the array of the values of its elements. -/
theorem elements_ok
    (h : Projection.datum doc.access view (.sequence element)
      (.object ⟨.sequence element pos, ⟨pointer, length⟩, ()⟩) = .ok v) :
    (∀ index < length, elementValue doc view element pointer index =
        .ok (valueOf (elementValue doc view element pointer index))) ∧
      v = .array ((List.range length).map fun index =>
        valueOf (elementValue doc view element pointer index)) := by
  obtain ⟨values, hvalues, h⟩ := ok_of_bind h
  cases h
  have hslot : ∀ index ∈ List.range length, (do
      Projection.datum doc.access view element
        (← doc.access.slot ⟨.sequence element pos, ⟨pointer, length⟩, ()⟩ index)) =
        elementValue doc view element pointer index := by
    intro index hindex
    have hlt : index < length := List.mem_range.mp hindex
    simp [Document.access, Document.slot?, hlt, elementValue]
  obtain ⟨hall, rfl⟩ := mapM_ok hvalues
  refine ⟨fun index hlt => ?_, ?_⟩
  · have hindex := List.mem_range.mpr hlt
    rw [← hslot index hindex]
    exact hall index hindex
  · exact congrArg Value.array
      (List.map_congr_left fun index hindex => by rw [← hslot index hindex])

end Elements

end FlatSyntax
