import Mathlib
import FlatSyntax.Proofs.SessionReads

/-!
# Projecting through a session

A projection asks for slots one by one. In a session each of them is read through objects, and the
level of nesting is counted by the session; from the buffer alone each is read afresh, and the level
is what is left of the limit. The two give the same value or the same fault, and the session is back
at the level it was at.
-/

namespace FlatSyntax

section Erasure

variable {τ : Type} (d : Datum (Item τ))

@[simp] theorem Datum.textOr_erase (other : Text) : d.erase.textOr other = d.textOr other := by
  cases d with
  | slot k c content => cases content <;> rfl
  | _ => rfl

@[simp] theorem Datum.wordOr_erase (other : Nat) : d.erase.wordOr other = d.wordOr other := by
  cases d with
  | slot k c content => cases content <;> rfl
  | _ => rfl

end Erasure

namespace Session

variable {s : Session} {doc : Document}

/-! ## Lists -/

theorem Reading.mapM_matches {α β : Type} {f : α → SessionM β} {g : α → Except Fault β}
    (l : List α) (hs : s.Sound)
    (hf : ∀ a ∈ l, ∀ t, s.Reads t → t.Reading (f a) fun _ r => Matches (· = ·) r (g a)) :
    s.Reading (l.mapM f) fun _ r => Matches (· = ·) r (l.mapM g) := by
  induction l generalizing s with
  | nil => exact .pure hs (.ok rfl)
  | cons a rest ih =>
    rw [List.mapM_cons, List.mapM_cons]
    refine (hf a List.mem_cons_self s (.refl hs)).bind_matches fun t b _ ht hb => ?_
    subst hb
    have hrest := ih ht.sound fun c hc u hu => hf c (List.mem_cons_of_mem a hc) u (ht.trans hu)
    refine hrest.bind_matches fun u bs _ hu hbs => ?_
    subst hbs
    exact .pure hu.sound (.ok rfl)

theorem Reading.foldlM_matches {α β : Type} {f : β → α → SessionM β} {g : β → α → Except Fault β}
    (l : List α) (b : β) (hs : s.Sound)
    (hf : ∀ a ∈ l, ∀ b t, s.Reads t → t.Reading (f b a) fun _ r => Matches (· = ·) r (g b a)) :
    s.Reading (l.foldlM f b) fun _ r => Matches (· = ·) r (l.foldlM g b) := by
  induction l generalizing s b with
  | nil => exact .pure hs (.ok rfl)
  | cons a rest ih =>
    rw [List.foldlM_cons, List.foldlM_cons]
    refine (hf a List.mem_cons_self b s (.refl hs)).bind_matches fun t c _ ht hc => ?_
    subst hc
    exact ih c ht.sound fun x hx d u hu => hf x (List.mem_cons_of_mem a hx) d u (ht.trans hu)

/-! ## Levels -/

/-- The level does not matter to what is read. -/
theorem Reads.atDepth {t : Session} {k : Nat} (h : ({ s with depth := k } : Session).Reads t) :
    s.Reads { t with depth := s.depth } := by
  have hsame : ∀ (u : Session) (j : Nat), u.Quiet { u with depth := j } := fun u j =>
    ⟨rfl, rfl, fun _ o hget => ⟨o, hget, .refl o⟩⟩
  obtain ⟨n, hn⟩ := h.course
  refine ⟨⟨h.grows.document, h.grows.token, h.grows.handles, h.grows.pins, rfl, h.grows.live⟩,
    ⟨h.sound.heap, h.sound.handles, h.sound.pins⟩, ⟨n, ?_⟩,
    ⟨h.notes.constructed, h.notes.kept, h.notes.fresh⟩⟩
  exact .quiet (hsame s k) (hn.trans (.quiet (hsame t s.depth) (.refl _)))

theorem exec_nested (s : Session) (below : SessionM Value) :
    s.exec (nested below) =
      if s.document.options.maxDepth < s.depth + 1 then
        (.error (.tooDeep s.document.options.maxDepth), s)
      else
        let (r, t) := ({ s with depth := s.depth + 1 } : Session).exec below
        (r, { t with depth := t.depth - 1 }) := by
  unfold nested
  rw [exec_bind_ok s (exec_get s)]
  simp only
  split
  · rfl
  · rw [exec_bind_ok s (exec_set s _), exec_bind_ok _ (exec_lift _ _),
      exec_bind_ok _ (exec_modify _ _), exec_ofExcept]
    rfl

theorem nested_reading {below : SessionM Value} {y : Except Fault Value}
    (hlt : s.depth < s.document.options.maxDepth)
    (hbelow : ({ s with depth := s.depth + 1 } : Session).Reading below fun _ r =>
      Matches (· = ·) r y) :
    s.Reading (nested below) fun _ r => Matches (· = ·) r y := by
  obtain ⟨hreads, hout⟩ := hbelow
  have hex := exec_nested s below
  rw [if_neg (by omega)] at hex
  have hdepth := hreads.grows.depth
  generalize ({ s with depth := s.depth + 1 } : Session).exec below = r at hreads hout hex hdepth
  obtain ⟨r, t⟩ := r
  refine ⟨?_, ?_⟩ <;> rw [hex]
  · have hback : t.depth - 1 = s.depth := by
      simp only at hdepth
      omega
    simp only [hback]
    exact hreads.atDepth
  · exact hout

/-! ## Values -/

theorem slotParts_reading (hs : s.Sound) (hdoc : s.document = doc) {k : SlotKind} {c : SlotCase}
    {content : SlotContent Link} {content' : SlotContent (Item Unit)}
    (hlive : s.heap.Holds (.slot k c content))
    (he : (Datum.slot k c content).erase = .slot k c content') :
    s.Reading (Projection.slotParts access content) fun _ r =>
      Matches (· = ·) r (Projection.slotParts doc.access content') := by
  cases content with
  | nothing =>
    cases he
    exact .pure hs (.ok rfl)
  | range span =>
    cases he
    exact .pure hs (.ok rfl)
  | name item =>
    cases he
    have hslot : ∀ t, s.Reads t → ∀ index, t.Reading (slot item index) fun u r =>
        Matches u.Agrees r (doc.access.slot item.erase index) := by
      intro t ht index
      have := slot_reading ht.sound (ht.grows.live item (hlive item rfl)) index
      rwa [ht.grows.document, hdoc] at this
    unfold Projection.slotParts
    refine (hslot s (.refl hs) 0).bind_matches fun t text _ ht htext => ?_
    refine (hslot t ht 1).bind_matches fun u start _ hu hstart => ?_
    refine (hslot u (ht.trans hu) 2).bind_matches fun v stop _ hv hstop => ?_
    refine .pure hv.sound (.ok ?_)
    rw [← htext.2, ← hstart.2, ← hstop.2]
    simp

/-- How a session and its document are to project views, for values made of views to agree. -/
def ProjectsAlike (s : Session) (view : Link → SessionM Value)
    (view' : Item Unit → Except Fault Value) : Prop :=
  ∀ t item, s.Reads t → t.heap.Live item →
    t.Reading (view item) fun _ r => Matches (· = ·) r (view' item.erase)

theorem ProjectsAlike.mono {t : Session} {view : Link → SessionM Value}
    {view' : Item Unit → Except Fault Value} (h : s.ProjectsAlike view view')
    (ht : s.Reads t) : t.ProjectsAlike view view' :=
  fun u item hu hi => h u item (ht.trans hu) hi

variable {view : Link → SessionM Value} {view' : Item Unit → Except Fault Value}

theorem single_reading (hs : s.Sound) (hdoc : s.document = doc)
    (hview : s.ProjectsAlike view view') {d : Datum Link} (hd : s.heap.Holds d) :
    s.Reading (Projection.single access view d) fun _ r =>
      Matches (· = ·) r (Projection.single doc.access view' d.erase) := by
  cases d with
  | object item => exact hview s item (.refl hs) (hd item rfl)
  | variant k v item => exact hview s item (.refl hs) (hd item rfl)
  | slot k c content =>
    obtain ⟨content', he⟩ : ∃ content', (Datum.slot k c content).erase = .slot k c content' := by
      cases content <;> exact ⟨_, rfl⟩
    rw [he]
    unfold Projection.single
    refine (slotParts_reading hs hdoc hd he).bind_matches fun t parts _ ht hparts => ?_
    subst hparts
    exact .pure ht.sound (.ok rfl)
  | _ => exact .pure hs (.ok rfl)

theorem datum_reading (layout : Layout) (hs : s.Sound) (hdoc : s.document = doc)
    (hview : s.ProjectsAlike view view') {d : Datum Link} (hd : s.heap.Holds d) :
    s.Reading (Projection.datum access view layout d) fun _ r =>
      Matches (· = ·) r (Projection.datum doc.access view' layout d.erase) := by
  induction layout generalizing s d with
  | boxed layout ih => exact ih hs hdoc hview hd
  | optional layout ih =>
    cases d with
    | absent => exact .pure hs (.ok rfl)
    | slot k c content => cases content <;> exact ih hs hdoc hview hd
    | _ => exact ih hs hdoc hview hd
  | sequence layout ih =>
    cases d with
    | object item =>
      have helement : ∀ index ∈ List.range item.extent.count, ∀ t, s.Reads t →
          t.Reading (do Projection.datum access view layout (← slot item index)) fun _ r =>
            Matches (· = ·) r
              (do Projection.datum doc.access view' layout (← doc.access.slot item.erase index)) := by
        intro index _ t ht
        have hslot := slot_reading ht.sound (ht.grows.live item (hd item rfl)) index
        rw [ht.grows.document, hdoc] at hslot
        refine hslot.bind_matches fun u e _ hu he => ?_
        rw [← he.2]
        exact ih hu.sound ((hu.grows.document.trans ht.grows.document).trans hdoc)
          (hview.mono (ht.trans hu)) he.1
      refine (Reading.mapM_matches _ hs helement).bind_matches fun t values _ ht hvalues => ?_
      subst hvalues
      exact .pure ht.sound (.ok rfl)
    | slot k c content => cases content <;> exact single_reading hs hdoc hview hd
    | _ => exact single_reading hs hdoc hview hd
  | _ => exact single_reading hs hdoc hview hd

theorem fields_reading (kind : ViewKind) (hs : s.Sound) (hdoc : s.document = doc)
    (hview : s.ProjectsAlike view view') {item : Link} (hi : s.heap.Live item) :
    s.Reading (Projection.fields access view kind item) fun _ r =>
      Matches (· = ·) r (Projection.fields doc.access view' kind item.erase) := by
  refine Reading.foldlM_matches _ _ hs fun entry _ entries t ht => ?_
  obtain ⟨field, index⟩ := entry
  have hslot := slot_reading ht.sound (ht.grows.live item hi) index
  rw [ht.grows.document, hdoc] at hslot
  refine hslot.bind_matches fun u d _ hu hd => ?_
  rw [← hd.2]
  have hdatum := datum_reading field.layout hu.sound
    ((hu.grows.document.trans ht.grows.document).trans hdoc) (hview.mono (ht.trans hu)) hd.1
  refine hdatum.bind_matches fun v value _ hv hvalue => ?_
  subst hvalue
  exact .pure hv.sound (.ok rfl)

/-- A view that the session is to project at its present level, with what is left of the limit. -/
theorem view_reading (depth : Nat) {item : Link} (hs : s.Sound) (hdoc : s.document = doc)
    (hdepth : s.depth + depth = doc.options.maxDepth) (hi : s.heap.Live item) :
    s.Reading (Projection.view doc access depth item) fun _ r =>
      Matches (· = ·) r (Projection.view doc doc.access depth item.erase) := by
  -- the levels used up in the session and the levels left make up the limit
  induction depth generalizing s item with
  | zero => exact .throw hs (.error _)
  | succ depth ih =>
    have hdeeper : ({ s with depth := s.depth + 1 } : Session).Sound :=
      ⟨hs.heap, hs.handles, hs.pins⟩
    have hview : ({ s with depth := s.depth + 1 } : Session).ProjectsAlike
        (Projection.view doc access depth) (Projection.view doc doc.access depth) := by
      intro t item ht hi
      refine ih ht.sound (ht.grows.document.trans hdoc) ?_ hi
      rw [ht.grows.depth]
      simp only
      omega
    obtain ⟨place, extent, mark⟩ := item
    refine nested_reading (by rw [hdoc]; omega) ?_
    cases place with
    | sequence element pos => exact .pure hdeeper (.ok rfl)
    | view kind pos =>
      cases kind with
      | record kind =>
        refine (fields_reading (.record kind) hdeeper hdoc hview hi).bind_matches
          fun t entries _ ht hentries => ?_
        subst hentries
        exact .pure ht.sound (.ok rfl)
      | node kind =>
        refine (fields_reading (.node kind) hdeeper hdoc hview hi).bind_matches
          fun t entries _ ht hentries => ?_
        subst hentries
        have hspan : t.Reading (MonadExcept.ofExcept (doc.span pos) : SessionM Span) fun _ r =>
            Matches (· = ·) r (MonadExcept.ofExcept (doc.span pos) : Except Fault Span) := by
          refine Reading.ofExcept ht.sound ?_
          rw [ofExcept_except]
          exact .refl _
        refine hspan.bind_matches fun u span _ hu heq => ?_
        subst heq
        exact .pure hu.sound (.ok rfl)

/-- A projection between operations: nothing is being projected yet. -/
theorem project_reading (hs : s.Sound) (hdepth : s.depth = 0) (layout : Layout) {d : Datum Link}
    (hd : s.heap.Holds d) :
    s.Reading (project layout d) fun _ r =>
      Matches (· = ·) r
        (Projection.project s.document s.document.access layout d.erase) := by
  have hview : s.ProjectsAlike
      (Projection.view s.document access s.document.options.maxDepth)
      (Projection.view s.document s.document.access s.document.options.maxDepth) := by
    intro t item ht hi
    refine view_reading _ ht.sound ht.grows.document ?_ hi
    rw [ht.grows.depth, hdepth, Nat.zero_add]
  exact .get_bind (datum_reading layout hs rfl hview hd)

end Session

end FlatSyntax
