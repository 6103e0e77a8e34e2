import Mathlib
import FlatSyntax.Proofs.Truncation

/-!
# Offsets that stop

Sums and products of offsets stop at the largest one, so two offsets that differ can become one. No
read comes back from there: a buffer that is shorter than the range of offsets has ended before. With
offsets of any size a read fails where it fails with offsets that stop, and a read that succeeds went
to the same places. So each of the two is cut off from the other, and that leaves only the ranges
that faults name to tell them apart.
-/

namespace FlatSyntax

variable {cut : Fault → Prop}

/-- The same outcome, or two faults of the given sort. -/
def SameBut {α : Type} (cut : Fault → Prop) (r r' : Except Fault α) : Prop :=
  r = r' ∨ ∃ f f', cut f ∧ cut f' ∧ r = .error f ∧ r' = .error f'

/-! ## Cut off from each other -/

theorem SameBut.of_cutoff {α : Type} {r r' : Except Fault α} (h : Cutoff cut r r')
    (h' : Cutoff cut r' r) : SameBut cut r r' := by
  rcases h with heq | ⟨f, hf, hr⟩
  · exact .inl heq
  · rcases h' with heq | ⟨f', hf', hr'⟩
    · exact .inl heq.symm
    · exact .inr ⟨f, f', hf, hf', hr, hr'⟩

/-- Walks that record the same events and end the same way, or both in a fault of the given sort. -/
structure Trace.SameBut {α : Type} (cut : Fault → Prop) (t u : Trace α) : Prop where
  events : t.events = u.events
  result : FlatSyntax.SameBut cut t.result u.result

theorem Trace.SameBut.of_cutFrom {α : Type} {t u : Trace α} (h : t.CutFrom cut u)
    (h' : u.CutFrom cut t) : t.SameBut cut u := by
  rcases h with rfl | ⟨f, hf, hresult, hevents⟩
  · exact ⟨rfl, .inl rfl⟩
  · rcases h' with rfl | ⟨f', hf', hresult', hevents'⟩
    · exact ⟨rfl, .inl rfl⟩
    · have hlength := hevents'.length_le
      exact ⟨hevents.eq_of_length_le hlength, .inr ⟨f, f', hf, hf', hresult, hresult'⟩⟩

/-- Runs with the same log that end the same way, or both in a fault of the given sort. -/
structure Session.Outcome.SameBut {α : Type} (cut : Fault → Prop) (o o' : Outcome α) : Prop where
  log : o.log = o'.log
  fault : o.fault = o'.fault ∨ ∃ f f', cut f ∧ cut f' ∧ o.fault = some f ∧ o'.fault = some f'

theorem Session.Outcome.SameBut.of_cutFrom {α : Type} {o o' : Outcome α} (h : o.CutFrom cut o')
    (h' : o'.CutFrom cut o) : o.SameBut cut o' where
  log := h.log.eq_of_length_le h'.log.length_le
  fault := by
    by_cases hnot : ∀ f, o.fault = some f → ¬ cut f
    · exact .inl (h.rest hnot).2
    · by_cases hnot' : ∀ f, o'.fault = some f → ¬ cut f
      · exact .inl (h'.rest hnot').2.symm
      · push Not at hnot hnot'
        obtain ⟨f, hfault, hf⟩ := hnot
        obtain ⟨f', hfault', hf'⟩ := hnot'
        exact .inr ⟨f, f', hf, hf', hfault, hfault'⟩

/-! ## Walks from any layout -/

/-- Walks the nodes of a value of any layout: the walk, and the visitor after it. -/
def Visitor.walkValue (v : Visitor) (doc : Document) (layout : Layout) (pos : Nat) :
    Trace Unit × Visitor :=
  let guide := Walker.guide v.plan
  let (result, w) :=
    (Walk.value doc guide (Walk.view doc guide) layout pos).run.run { visitor := v }
  (⟨w.events.toList, result⟩, w.visitor)

theorem Visitor.walkValue_eq (v : Visitor) (doc : Document) (layout : Layout) (pos : Nat) :
    (v.walkValue doc layout pos).1 =
      Walk.value doc (.ofPlan v.plan) (doc.walk v.plan) layout pos := by
  have hview := (Walker.alike v.plan).view doc rfl (Walker.emit_follows v.plan)
    fun limit => Walker.read_follows v.plan (.error (.tooDeep limit))
  have hvalue : Walker.Follows v.plan Unit _
      (Walk.value doc (.ofPlan v.plan) (doc.walk v.plan) layout pos) :=
    (Walker.alike v.plan).value doc hview layout pos
  obtain ⟨v', _, hrun⟩ := hvalue { visitor := v } rfl
  unfold Visitor.walkValue
  simp [hrun]

namespace Document

variable {doc : Document}

/-- The document with another arithmetic of offsets, and otherwise the same. -/
def addressed (doc : Document) (addressing : Addressing) : Document := { doc with addressing }

/-- What is asked of one document is what is asked of another, but for faults of the given sort. -/
structure AnswersAlike (cut : Fault → Prop) (doc doc' : Document) : Prop where
  /-- Any layout read anywhere, in two sessions of any histories, and what is asked about it: the
  datum, its plain value, or what a path from it leads to. -/
  decode : ∀ {s t : Session}, Session.Reachable doc s → Session.Reachable doc' t →
    ∀ field layout pos path request,
      SameBut cut (s.exec (Session.decode field layout pos >>= Session.ask path request)).1
        (t.exec (Session.decode field layout pos >>= Session.ask path request)).1
  /-- Any layout walked anywhere, by a visitor that may have walked before. -/
  walk : ∀ (v : Visitor) (layout : Layout) (pos : Nat),
    (v.walkValue doc layout pos).1.SameBut cut (v.walkValue doc' layout pos).1
  /-- Runs of a visitor on views of one place in two sessions, whatever the callbacks do. -/
  run : ∀ {s t : Session}, Session.Reachable doc s → Session.Reachable doc' t →
    ∀ {x y : Link}, s.heap.Live x → t.heap.Live y → x.place = y.place →
    ∀ (v : Visitor) callback callback',
      ((Session.run v (Session.carryOut callback) x).run s).1.SameBut cut
        ((Session.run v (Session.carryOut callback') y).run t).1

/-- Documents that are cut off from each other, with as many levels, answer alike. -/
theorem CutFrom.answersAlike {doc' : Document} (h : doc.CutFrom cut doc')
    (h' : doc'.CutFrom cut doc) (hlimit : doc.options.maxDepth = doc'.options.maxDepth) :
    doc.AnswersAlike cut doc' where
  decode {s t} hs ht field layout pos path request := by
    have hcut := (h.answers (.inl ⟨hlimit, hlimit⟩)).sessions hs ht
    have hcut' := (h'.answers (.inl ⟨hlimit.symm, hlimit.symm⟩)).sessions ht hs
    exact .of_cutoff (hcut.decode field layout pos path request)
      (hcut'.decode field layout pos path request)
  walk v layout pos := by
    rw [v.walkValue_eq, v.walkValue_eq]
    have hview := h.walk (.inl ⟨hlimit, hlimit⟩) v.plan
    have hview' := h'.walk (.inl ⟨hlimit.symm, hlimit.symm⟩) v.plan
    exact .of_cutFrom (Walk.value_cutFrom h hview layout (.refl pos))
      (Walk.value_cutFrom h' hview' layout (.refl pos))
  run {s t} hs ht {x y} hx hy hplace v callback callback' := by
    have hcut := (h.answers (.inl ⟨hlimit, hlimit⟩)).sessions hs ht
    have hcut' := (h'.answers (.inl ⟨hlimit.symm, hlimit.symm⟩)).sessions ht hs
    exact .of_cutFrom (hcut.run hx hy hplace rfl callback callback')
      (hcut'.run hy hx hplace.symm rfl callback' callback)

/-! ## Saturation -/

/-- A buffer shorter than the range of offsets has no byte at the largest one. -/
theorem ends_of_lt (h : doc.size < wordModulus) : doc.Ends doc.Overruns := by
  intro pos length hpos hlength
  have hpast : doc.size < pos + length := by
    unfold largestWord wordModulus at *
    omega
  exact ⟨_, ⟨pos, length, hpast, rfl⟩, check_of_gt doc hpast⟩

theorem addressed_cutFrom (h : doc.size < wordModulus) (a b : Addressing) :
    (doc.addressed a).CutFrom doc.Overruns (doc.addressed b) where
  addressing := .inr (ends_of_lt h)
  check _ _ := .refl _
  bytes _ _ := .refl _
  windows _ _ := rfl
  sources _ := rfl

/-- In a buffer shorter than the range of offsets, offsets that stop at the largest one lead where
offsets of any size lead. -/
theorem saturating_answersAlike (h : doc.size < wordModulus) :
    (doc.addressed .saturating).AnswersAlike doc.Overruns (doc.addressed .exact) :=
  (addressed_cutFrom h _ _).answersAlike (addressed_cutFrom h _ _) rfl

/-- A string with its header across the largest offset: the length is past the buffer either way. -/
theorem saturating_answersAlike_text :
    ((zeros 8).addressed .saturating).text 4294967290 = .error (.outOfBounds 4294967295 4 8) ∧
      ((zeros 8).addressed .exact).text 4294967290 = .error (.outOfBounds 4294967298 4 8) ∧
      ∀ path request,
        SameBut (zeros 8).Overruns
          ((Session.start ((zeros 8).addressed .saturating) 1).exec
            (Session.decode "value" .text 4294967290 >>= Session.ask path request)).1
          ((Session.start ((zeros 8).addressed .exact) 1).exec
            (Session.decode "value" .text 4294967290 >>= Session.ask path request)).1 := by
  refine ⟨rfl, rfl, ?_⟩
  have hsize : (zeros 8).size < wordModulus := by decide
  exact (saturating_answersAlike hsize).decode (.bare 1 .refl) (.bare 1 .refl) "value" .text _

end Document

end FlatSyntax
