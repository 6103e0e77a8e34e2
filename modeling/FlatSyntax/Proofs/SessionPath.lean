import Mathlib
import FlatSyntax.Proofs.DocumentReads
import FlatSyntax.Proofs.SessionProjection
import FlatSyntax.Session.Operation

/-!
# Following paths and reading sequences through a session

What a path leads to in a session is what it leads to in the document, up to which object it is. The
reads of a whole sequence are reads of its elements one after the other, so they do to a session
nothing but what reads of slots do.
-/

namespace FlatSyntax

section Erasure

variable {τ : Type} (d : Datum (Item τ))

theorem Datum.view?_erase :
    d.erase.view? = d.view?.map fun (k, pos, item) => (k, pos, item.erase) := by
  cases d with
  | object item =>
    obtain ⟨place, extent, mark⟩ := item
    cases place <;> rfl
  | variant k v item =>
    obtain ⟨place, extent, mark⟩ := item
    cases place <;> rfl
  | slot k c content => cases content <;> rfl
  | _ => rfl

theorem Datum.sequence?_erase :
    d.erase.sequence? = d.sequence?.map fun (element, item) => (element, item.erase) := by
  cases d with
  | object item =>
    obtain ⟨place, extent, mark⟩ := item
    cases place <;> rfl
  | slot k c content => cases content <;> rfl
  | _ => rfl

variable {d}

theorem Datum.object?_of_view? {kind : ViewKind} {pos : Nat} {item : Item τ}
    (h : d.view? = some (kind, pos, item)) :
    d.object? = some item ∧ item.place = .view kind pos := by
  cases d with
  | object o | variant k v o =>
    obtain ⟨place, extent, mark⟩ := o
    cases place with
    | view k' p =>
      cases h
      exact ⟨rfl, rfl⟩
    | sequence e p => cases h
  | _ => cases h

theorem Datum.object?_of_sequence? {element : Layout} {item : Item τ}
    (h : d.sequence? = some (element, item)) : d.object? = some item := by
  cases d with
  | object o =>
    obtain ⟨place, extent, mark⟩ := o
    cases place with
    | view k' p => cases h
    | sequence e p =>
      cases h
      rfl
  | _ => cases h

end Erasure

namespace Session

variable {s : Session} {d : Datum Link}

/-! ## Paths -/

theorem field_reading (hs : s.Sound) {item : Link} (hi : s.heap.Live item) (kind : ViewKind)
    (pos : Nat) (name : String) :
    s.Reading (Path.field s.document access kind pos item name) fun t r =>
      Matches (Option.Rel t.Agrees) r
        (Path.field s.document s.document.access kind pos item.erase name) := by
  unfold Path.field
  cases kind.fields.findIdx? fun field => field.key == name with
  | some index =>
    refine (slot_reading hs hi index).map_matches fun t a b _ hab => ?_
    exact .some hab
  | none =>
    cases kind with
    | record kind => exact .pure hs (.ok .none)
    | node kind =>
      refine Reading.ofExcept hs ?_
      -- what a node has besides its fields holds no object
      have hprop : Matches (Option.Rel s.Agrees) (s.document.property kind pos name)
          (s.document.property kind pos name) := by
        unfold Document.property
        cases s.document.nodeText pos <;> cases s.document.span pos <;> split <;>
          first
          | exact .error _
          | exact .ok .none
          | exact .ok (.some (.of_scalar rfl))
      have hsame := ofExcept_except
        (s.document.property kind pos name : Except Fault (Option (Datum (Item Unit))))
      rw [← hsame] at hprop
      exact hprop

/-- One segment. -/
theorem child_reading (hs : s.Sound) (hd : s.heap.Holds d) (segment : Segment) :
    s.Reading (Path.child s.document access d segment) fun t r =>
      Matches (Option.Rel t.Agrees) r
        (Path.child s.document s.document.access d.erase segment) := by
  cases segment with
  | key name =>
    unfold Path.child
    rw [Datum.view?_erase]
    cases hv : d.view? with
    | none => exact .pure hs (.ok .none)
    | some found =>
      obtain ⟨kind, pos, item⟩ := found
      exact field_reading hs (hd item (Datum.object?_of_view? hv).1) kind pos name
  | index n =>
    unfold Path.child
    rw [Datum.sequence?_erase]
    cases hq : d.sequence? with
    | none => exact .pure hs (.ok .none)
    | some found =>
      obtain ⟨element, item⟩ := found
      have hi : s.heap.Live item := hd item (Datum.object?_of_sequence? hq)
      change s.Reading (if n < item.extent.count then some <$> slot item n else pure none)
        fun t r => Matches (Option.Rel t.Agrees) r
          (if n < item.extent.count then some <$> s.document.access.slot item.erase n
            else pure none)
      split
      · refine (slot_reading hs hi n).map_matches fun t a b _ hab => ?_
        exact .some hab
      · exact .pure hs (.ok .none)

/-- A whole path. -/
theorem path_reading {doc : Document} (hs : s.Sound) (hdoc : s.document = doc)
    (hd : s.heap.Holds d) (path : List Segment) :
    s.Reading (Path.follow doc access d path) fun t r =>
      Matches (Option.Rel t.Agrees) r (Path.follow doc doc.access d.erase path) := by
  induction path generalizing s d with
  | nil => exact .pure hs (.ok (.some ⟨hd, rfl⟩))
  | cons segment rest ih =>
    have hchild := child_reading hs hd segment
    rw [hdoc] at hchild
    refine hchild.bind_matches fun t a b ht hab => ?_
    cases hab with
    | none => exact .pure ht.sound (.ok .none)
    | some hab =>
      obtain ⟨hlive, rfl⟩ := hab
      exact ih ht.sound (ht.grows.document.trans hdoc) hlive

theorem follow_reading (hs : s.Sound) (hd : s.heap.Holds d) (path : List Segment) :
    s.Reading (follow d path) fun t r =>
      Matches (Option.Rel t.Agrees) r
        (Path.follow s.document s.document.access d.erase path) :=
  .get_bind (path_reading hs rfl hd path)

/-! ## Sequences -/

/-- Running `x` only reads, and a fault of it is as `P` says. -/
abbrev Blaming {α : Type} (s : Session) (P : Fault → Prop) (x : SessionM α) : Prop :=
  s.Reading x fun _ r => Yields P (fun _ => True) r

/-- Running `x` only reads, whatever comes of it. -/
abbrev OnlyReads {α : Type} (s : Session) (x : SessionM α) : Prop := s.Blaming (fun _ => True) x

theorem Reading.onlyReads {α : Type} {x : SessionM α} {Q : Session → Except Fault α → Prop}
    (h : s.Reading x Q) : s.OnlyReads x :=
  h.mono fun _ r _ _ => by cases r <;> trivial

section Blaming

variable {P : Fault → Prop}

theorem Blaming.bind {α β : Type} {x : SessionM α} {f : α → SessionM β} (hx : s.Blaming P x)
    (hf : ∀ t a, s.Reads t → t.Blaming P (f a)) : s.Blaming P (x >>= f) :=
  Reading.bind hx (fun t a ht _ => hf t a ht) fun _ _ _ h => h

theorem Blaming.map {α β : Type} {x : SessionM α} (f : α → β) (hx : s.Blaming P x) :
    s.Blaming P (f <$> x) := by
  rw [map_eq_pure_bind]
  exact hx.bind fun t a ht => .pure ht.sound trivial

theorem Blaming.mapM {α β : Type} {f : α → SessionM β} (l : List α) (hs : s.Sound)
    (hf : ∀ a ∈ l, ∀ t, s.Reads t → t.Blaming P (f a)) : s.Blaming P (l.mapM f) := by
  induction l generalizing s with
  | nil => exact .pure hs trivial
  | cons a rest ih =>
    rw [List.mapM_cons]
    refine (hf a List.mem_cons_self s (.refl hs)).bind fun t b ht => ?_
    have hrest := ih ht.sound fun c hc u hu => hf c (List.mem_cons_of_mem a hc) u (ht.trans hu)
    exact hrest.bind fun u bs hu => .pure hu.sound trivial

/-- A read that is not allowed to fail the rest. -/
theorem Blaming.lift {α : Type} {x : SessionM α} (hx : s.OnlyReads x) :
    s.Blaming P (ExceptT.lift x.run) := ⟨hx.reads, trivial⟩

end Blaming

section Elements

variable {item : Link} {P : Fault → Prop}

/-- The faults of reading elements of a sequence are as `P` says. -/
def ElementsBlame (doc : Document) (item : Link) (P : Fault → Prop) : Prop :=
  ∀ index < item.extent.count, Yields P (fun _ => True) (doc.access.slot item.erase index)

theorem element_blaming (hP : ElementsBlame s.document item P) (hi : s.heap.Live item) {index : Nat}
    (hindex : index < item.extent.count) (t : Session) (ht : s.Reads t) :
    t.Blaming P ((elements item).get index) := by
  refine (slot_reading ht.sound (ht.grows.live item hi) index).mono fun _ r _ hr => ?_
  rw [ht.grows.document] at hr
  have hslot := hP index hindex
  generalize s.document.access.slot item.erase index = y at hr hslot
  cases hr with
  | ok _ => trivial
  | error fault => exact hslot

theorem get?_blaming (hP : ElementsBlame s.document item P) (hs : s.Sound) (hi : s.heap.Live item)
    (index : Nat) : s.Blaming P ((elements item).get? index) := by
  unfold Elements.get?
  split
  · rename_i hindex
    exact (element_blaming hP hi hindex s (.refl hs)).map some
  · exact .pure hs trivial

theorem toList_blaming (hP : ElementsBlame s.document item P) (hs : s.Sound)
    (hi : s.heap.Live item) : s.Blaming P (elements item).toList :=
  .mapM _ hs fun _ hindex t ht => element_blaming hP hi (List.mem_range.mp hindex) t ht

theorem search_blaming (hP : ElementsBlame s.document item P) (hs : s.Sound)
    (hi : s.heap.Live item) (p : Datum Link → Bool) {indices : List Nat}
    (hindices : ∀ index ∈ indices, index < item.extent.count) :
    s.Blaming P ((elements item).search p indices) := by
  induction indices generalizing s with
  | nil => exact .pure hs trivial
  | cons index rest ih =>
    unfold Elements.search
    have hindex := hindices index List.mem_cons_self
    refine (element_blaming hP hi hindex s (.refl hs)).bind fun t d ht => ?_
    split
    · exact .pure ht.sound trivial
    · exact ih (ht.grows.document.symm ▸ hP) ht.sound (ht.grows.live item hi)
        fun other hother => hindices other (List.mem_cons_of_mem index hother)

/-- Reading a sequence as a whole is reading elements. -/
theorem query_blaming (hP : ElementsBlame s.document item P) (hs : s.Sound)
    (hi : s.heap.Live item) (q : Query) : s.Blaming P (query item q) := by
  have hlist : ∀ {β : Type} (f : List (Datum Link) → β),
      s.Blaming P (do return f (← (elements item).toList)) := fun f =>
    (toList_blaming hP hs hi).bind fun t _ ht => .pure ht.sound trivial
  have hsearch : ∀ {β : Type} (p : Datum Link → Bool) (f : Option (Nat × Datum Link) → β),
      s.Blaming P (do return f (← (elements item).search p (List.range item.extent.count))) :=
    fun p f => (search_blaming hP hs hi p fun _ => List.mem_range.mp).bind
      fun t _ ht => .pure ht.sound trivial
  cases q with
  | get index => exact (get?_blaming hP hs hi index).map _
  | «at» index =>
    refine Blaming.map _ ?_
    unfold Elements.at?
    split
    · exact get?_blaming hP hs hi _
    · split
      · exact get?_blaming hP hs hi _
      · exact .pure hs trivial
  | first => exact (get?_blaming hP hs hi 0).map _
  | last =>
    refine Blaming.map _ ?_
    unfold Elements.last?
    split
    · exact .pure hs trivial
    · exact get?_blaming hP hs hi _
  | outcomes =>
    refine Blaming.map _ (.mapM _ hs fun index _ t ht => ?_)
    exact .lift (slot_reading ht.sound (ht.grows.live item hi) index).onlyReads
  | toList => exact (toList_blaming hP hs hi).map _
  | map f =>
    refine Blaming.map _ ?_
    rw [Elements.map_eq]
    exact hlist _
  | filter p =>
    refine Blaming.map _ ?_
    rw [Elements.filter_eq]
    exact hlist _
  | find p => exact (hsearch p _).map _
  | position p => exact (hsearch p _).map _
  | fold f start =>
    refine Blaming.map _ ?_
    rw [Elements.fold_eq]
    exact hlist _
  | slice start stop =>
    refine Blaming.map _ (.mapM _ hs fun index hindex t ht => ?_)
    have hlt := List.mem_range.mp (List.mem_of_mem_drop hindex)
    exact element_blaming hP hi (hlt.trans_le (Nat.min_le_right _ _)) t ht
  | reversed => exact (hlist _).map _
  | sorted le => exact (hlist _).map _

theorem elementsBlame_any (doc : Document) (item : Link) :
    ElementsBlame doc item fun _ => True := by
  intro index _
  cases doc.access.slot item.erase index <;> trivial

theorem query_onlyReads (hs : s.Sound) (hi : s.heap.Live item) (q : Query) :
    s.OnlyReads (query item q) := query_blaming (elementsBlame_any _ item) hs hi q

theorem concat_onlyReads (hs : s.Sound) (hi : s.heap.Live item) {other : Link}
    (ho : s.heap.Live other) (token : UInt32) : s.OnlyReads (concat item token other) := by
  refine .get_bind ?_
  split
  · refine (toList_blaming (elementsBlame_any _ item) hs hi).bind fun t front ht => ?_
    have hother := ht.grows.live other ho
    refine (toList_blaming (elementsBlame_any _ other) ht.sound hother).bind fun u _ hu => ?_
    exact .pure hu.sound trivial
  · exact .throw hs trivial

end Elements

end Session

end FlatSyntax
