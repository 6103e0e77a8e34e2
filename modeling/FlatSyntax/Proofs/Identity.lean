import Mathlib
import FlatSyntax.Proofs.Operation

/-!
# The identity of objects

In every session of a document there is at most one live object at a place, whichever way it was
reached, and a slot that has been filled gives the very same object as long as its owner is live. The
number of objects built grows by one with each construction, and an object is constructed exactly
when it is requested, nothing live is at its place, and its bytes lie in the buffer.
-/

namespace FlatSyntax

namespace Session

variable {doc : Document} {s : Session}

/-- There is no live object at a place. -/
def Absent (s : Session) (place : Place) : Prop := ∀ item, s.heap.Live item → item.place ≠ place

/-- Objects are what their places are. -/
structure Identity (s : Session) : Prop where
  /-- Two live objects at one place are one object. -/
  unique : ∀ {a b : Nat} {o p : Object}, s.heap.get? a = some o → s.heap.get? b = some p →
    o.place = p.place → a = b
  /-- What two ways lead to at one place is one object. -/
  ways : ∀ {name name' : String} {held held' d d' : Datum Link} {path path' : List Segment}
    {t u : Session} {x y : Link},
    s.handle? name = some held → s.exec (follow held path) = (.ok (some d), t) →
    t.handle? name' = some held' → t.exec (follow held' path') = (.ok (some d'), u) →
    d.object? = some x → d'.object? = some y → x.place = y.place → x = y
  /-- What a slot has kept it gives from then on, as long as its owner is live. -/
  memo : ∀ {t : Session} {item : Link} {index : Nat} {d : Datum Link}, s.Leads t →
    s.heap.slot? item.mark index = some d → t.heap.Live item →
    t.exec (slot item index) = (.ok d, t)
  /-- A request for the place of a live object gives that object and constructs nothing. -/
  found : ∀ {item : Link}, s.heap.Live item → s.exec (openPlace item.place) = (.ok item, s)
  /-- A request for a place without one constructs an object, if its bytes lie in the buffer. -/
  built : ∀ {place : Place} {extent : Extent}, s.Absent place →
    s.document.extent place = .ok extent →
    ∃ t, s.exec (openPlace place) = (.ok ⟨place, extent, s.heap.constructed⟩, t) ∧
      t.heap.Live ⟨place, extent, s.heap.constructed⟩ ∧
      t.heap.constructed = s.heap.constructed + 1
  /-- Otherwise the request fails and constructs nothing. -/
  refused : ∀ {place : Place} {fault : Fault}, s.Absent place →
    s.document.extent place = .error fault → s.exec (openPlace place) = (.error fault, s)
  /-- Whatever operations follow, each construction is such a request and adds one to the number of
  objects built, and nothing else changes that number. -/
  counted : ∀ {t : Session}, s.Leads t →
    ∃ n, Course s n t ∧ t.heap.constructed = s.heap.constructed + n

theorem find?_of_absent (hs : s.Sound) {place : Place} (h : s.Absent place) :
    s.heap.find? place = none := by
  cases hf : s.heap.find? place with
  | none => rfl
  | some serial =>
    obtain ⟨o, hget, hplace, _⟩ := hs.heap.live_of_find? hf
    exact absurd hplace (h ⟨o.place, o.extent, serial⟩ ⟨o, hget, rfl, rfl⟩)

/-- What a path leads to from a handle is live. -/
theorem follow_live (hs : s.Sound) {name : String} {held d : Datum Link} {path : List Segment}
    {t : Session} (hh : s.handle? name = some held)
    (hf : s.exec (follow held path) = (.ok (some d), t)) : s.Reads t ∧ t.heap.Holds d := by
  obtain ⟨hreads, hout⟩ := follow_reading hs (handle_holds hs hh) path
  rw [hf] at hreads hout
  generalize Path.follow s.document s.document.access held.erase path = y at hout
  cases hout with
  | ok h =>
    cases h with
    | some h => exact ⟨hreads, h.1⟩

/-- A slot of an object that is still live keeps what it kept. -/
theorem Passes.slot?_kept {t : Session} (h : s.Passes t) {item : Link} {index : Nat}
    {d : Datum Link} (hd : s.heap.slot? item.mark index = some d) (hi : t.heap.Live item) :
    t.heap.slot? item.mark index = some d := by
  obtain ⟨o, ho, hslot⟩ := Heap.slot?_eq_some_iff.mp hd
  obtain ⟨o', ho', _⟩ := hi
  obtain ⟨n, hn⟩ := h.course
  obtain ⟨p, hp, hk⟩ := hn.kept (Heap.get?_lt ho) ho'
  have hop : o = p := Option.some.inj (ho.symm.trans hp)
  subst hop
  exact Heap.slot?_eq_some_iff.mpr ⟨o', ho', hk.2.2 index d hslot⟩

/-- The identity of objects, in every session of a document. -/
theorem identity_of_reachable (h : Reachable doc s) : s.Identity := by
  obtain ⟨_, hs, hdepth⟩ := h.sound
  constructor
  · intro a b o p ha hb hplace
    have hitem := hs.heap.unique (a := ⟨o.place, o.extent, a⟩) (b := ⟨p.place, p.extent, b⟩)
      ⟨o, ha, rfl, rfl⟩ ⟨p, hb, rfl, rfl⟩ hplace
    exact congrArg Item.mark hitem
  · intro name name' held held' d d' path path' t u x y hh hf hh' hf' hx hy hplace
    obtain ⟨hreads, hd⟩ := follow_live hs hh hf
    obtain ⟨hreads', hd'⟩ := follow_live hreads.sound hh' hf'
    exact hreads'.sound.heap.unique (hreads'.grows.live x (hd x hx)) (hd' y hy) hplace
  · intro t item index d hleads hd hi
    exact slot_of_kept ((hleads.passes hs hdepth).slot?_kept hd hi)
  · exact fun hi => openPlace_of_live hs hi
  · intro place extent habsent hfits
    have hex := openPlace_of_absent (find?_of_absent hs habsent)
    rw [hfits] at hex
    refine ⟨_, hex, ⟨_, Heap.get?_add_self .., rfl, rfl⟩, ?_⟩
    exact Heap.constructed_add ..
  · intro place fault habsent hfault
    have hex := openPlace_of_absent (find?_of_absent hs habsent)
    rwa [hfault] at hex
  · intro t hleads
    obtain ⟨n, hn⟩ := (hleads.passes hs hdepth).course
    exact ⟨n, hn, hn.constructed⟩

/-- A session in which a view was asked for twice. -/
theorem identity_of_two_requests :
    Identity ((perform (.viewAt 1 (.node .nullLiteral) 0 (some "b"))).run
      ((perform (.viewAt 1 (.node .nullLiteral) 0 (some "a"))).run
        (.start (.zeros 64) 1)).2).2 :=
  identity_of_reachable (.bare 1 (.step (.step .refl _) _))

end Session

end FlatSyntax
