import Mathlib
import FlatSyntax.Builder
import FlatSyntax.Proofs.Run
import FlatSyntax.Proofs.SessionPath

/-!
# Operations keep a session in order

What one operation does, whether it succeeds or fails: the session stays sound, and is back at the
level of projection and holds for its walks what it did before. The operations of a callback are
covered by the same statement, since a callback is a list of operations. From this, every session
that operations lead to is sound.
-/

namespace FlatSyntax

namespace Session

variable {s t : Session}

/-! ## The steps of an operation -/

/-- A read, and something that depends on what was read. -/
theorem Reading.bind_steps {α β : Type} {x : SessionM α} {f : α → SessionM β}
    {Q : Session → Except Fault α → Prop} (hx : s.Reading x Q)
    (hf : ∀ t a, s.Reads t → Q t (.ok a) → t.Steps (t.exec (f a)).2) :
    s.Steps (s.exec (x >>= f)).2 := by
  obtain ⟨hreads, hout⟩ := hx
  generalize hr : s.exec x = r at hreads hout
  obtain ⟨r, t⟩ := r
  cases r with
  | error e =>
    rw [exec_bind_error s hr f]
    exact hreads.steps
  | ok a =>
    rw [exec_bind_ok s hr f]
    exact hreads.steps.trans (hf t a hreads hout)

theorem mem_without {name : String} {entry : String × Datum Link} (h : entry ∈ s.without name) :
    entry ∈ s.handles := List.mem_of_mem_filter h

theorem release_steps (hs : s.Sound) (name : String) : s.Steps (s.release name) := by
  refine ⟨.of_quiet (.of_heap rfl rfl) ⟨hs.heap, fun entry he => ?_, hs.pins⟩ rfl rfl, rfl⟩
  exact hs.handles entry (mem_without he)

theorem save_steps (hs : s.Sound) (name : String) {d : Datum Link} (hd : s.heap.Holds d) :
    s.Steps (s.save name d) := by
  refine ⟨.of_quiet (.of_heap rfl rfl) ⟨hs.heap, fun entry he => ?_, hs.pins⟩ rfl rfl, rfl⟩
  rcases List.mem_cons.mp he with rfl | he
  · exact hd
  · exact hs.handles entry (mem_without he)

theorem keepAs_steps (hs : s.Sound) (keep : Option String) {d : Datum Link}
    (hd : s.heap.Holds d) : s.Steps (s.exec (keepAs keep d)).2 := by
  cases keep with
  | none => exact .refl hs
  | some name => exact save_steps hs name hd

/-- Notes are beside the elements: changing them moves nothing and fills no slot. -/
theorem notes_steps (hs : s.Sound) (item : Link) (changed : Notes) :
    s.Steps { s with heap := s.heap.modify item.mark fun o => { o with notes := changed } } := by
  have hquiet : s.Quiet
      { s with heap := s.heap.modify item.mark fun o => { o with notes := changed } } := by
    refine ⟨rfl, Heap.constructed_modify .., fun serial o' hget => ?_⟩
    rw [Heap.get?_modify] at hget
    split at hget
    · obtain ⟨o, ho, rfl⟩ := Option.map_eq_some_iff.mp hget
      exact ⟨o, ho, rfl, rfl, fun _ _ h => h⟩
    · exact ⟨o', hget, .refl o'⟩
  have hlive : ∀ other, s.heap.Live other →
      (s.heap.modify item.mark fun o => { o with notes := changed }).Live other := by
    intro other hi
    refine (Heap.live_modify ?_).mpr hi
    exact fun _ => ⟨rfl, rfl⟩
  refine ⟨.of_quiet hquiet ⟨?_, ?_, ?_⟩ rfl rfl, rfl⟩
  · exact hs.heap.modify (fun _ => ⟨rfl, rfl⟩) (fun _ => rfl) fun o index d _ hd => .inl hd
  · exact fun entry he => (hs.handles entry he).mono hlive
  · intro serial hserial
    obtain ⟨o, ho⟩ := hs.pins serial hserial
    rw [Heap.get?_modify]
    split
    · exact ⟨_, by rw [ho]; rfl⟩
    · exact ⟨o, ho⟩

theorem annotate_steps (hs : s.Sound) (item : Link) (change : Notes → Except Fault Notes) :
    s.Steps (s.exec (annotate item change)).2 := by
  unfold annotate
  rw [exec_bind_ok s (exec_get s), exec_bind, exec_ofExcept]
  cases change (s.notes item) with
  | error f => exact .refl hs
  | ok changed => exact notes_steps hs item changed

theorem handle_holds (hs : s.Sound) {name : String} {held : Datum Link}
    (h : s.handle? name = some held) : s.heap.Holds held := by
  obtain ⟨before, after, hmem, _⟩ := List.lookup_eq_some_iff.mp h
  exact hs.handles (name, held) (by simp [hmem])

theorem atSpot_steps (hs : s.Sound) {spot : Spot} {act : Datum Link → SessionM Unit}
    (hact : ∀ t d, s.Reads t → t.heap.Holds d → t.Steps (t.exec (act d)).2) :
    s.Steps (s.exec (atSpot spot act)).2 := by
  unfold atSpot
  rw [exec_bind_ok s (exec_get s)]
  cases hh : s.handle? spot.handle with
  | none => exact .refl hs
  | some held =>
    have hheld : s.heap.Holds held := handle_holds hs hh
    refine (follow_reading hs hheld spot.path).bind_steps fun t found ht hfound => ?_
    cases found with
    | none => exact .refl ht.sound
    | some d =>
      generalize Path.follow s.document s.document.access held.erase spot.path = y at hfound
      cases hfound with
      | ok h =>
        cases h with
        | some h => exact hact t d ht h.1

theorem atSequence_steps (hs : s.Sound) {spot : Spot} {act : Link → SessionM Unit}
    (hact : ∀ t item, s.Reads t → t.heap.Live item → t.Steps (t.exec (act item)).2) :
    s.Steps (s.exec (atSequence spot act)).2 := by
  refine atSpot_steps hs fun t d ht hd => ?_
  cases hq : d.sequence? with
  | none => exact .refl ht.sound
  | some found => exact hact t found.2 ht (hd found.2 (Datum.object?_of_sequence? hq))

/-- However an operation ends, what nothing holds is let go. -/
theorem settling_steps {act : SessionM Unit} (hact : s.Steps (s.exec act).2) :
    s.Steps ((settling act).run s).2 := hact.trans (collect_steps hact.sound)

theorem viewAt_reading (hs : s.Sound) (token : UInt32) (kind : ViewKind) (pos : Nat) :
    s.Reading (viewAt token kind pos) fun t r => ∀ d, r = .ok d → t.heap.Holds d := by
  refine .get_bind ?_
  split
  · refine (openPlace_reading hs (.view kind pos)).bind ?_ fun _ _ _ _ d hd => by cases hd
    intro t item ht hitem
    refine .pure ht.sound fun d hd => ?_
    cases hd
    generalize s.document.openPlace (.view kind pos) = y at hitem
    cases hitem with
    | ok h => exact fun other hother => Option.some.inj hother ▸ h.1
  · exact .throw hs fun d hd => by cases hd

theorem decode_holds (hs : s.Sound) (field : String) (layout : Layout) (pos : Nat) :
    s.Reading (decode field layout pos) fun t r => ∀ d, r = .ok d → t.heap.Holds d := by
  refine (decode_reading hs field layout pos).mono fun t r _ h d hd => ?_
  subst hd
  generalize s.document.read field layout pos = y at h
  cases h with
  | ok h => exact h.1

theorem steps_of_reading {α : Type} {x : SessionM α} {Q : Session → Except Fault α → Prop}
    (hx : s.Reading x Q) : s.Steps (s.exec (discard x)).2 := by
  have hdiscard : s.OnlyReads (discard x) := hx.onlyReads.map (Function.const α ())
  exact hdiscard.reads.steps

/-! ## Operations -/

mutual

/-- One operation. -/
theorem perform_steps : ∀ (op : Operation) {s : Session}, s.Sound → s.depth = 0 →
    s.Steps ((perform op).run s).2
  | .fetch spot keep, s, hs, _ => by
    rw [perform]
    exact settling_steps (atSpot_steps hs fun t d ht hd => keepAs_steps ht.sound keep hd)
  | .release name, s, hs, _ => by
    rw [perform]
    exact settling_steps (release_steps hs name)
  | .viewAt token kind pos keep, s, hs, _ => by
    rw [perform]
    refine settling_steps ((viewAt_reading hs token kind pos).bind_steps fun t d ht hd => ?_)
    exact keepAs_steps ht.sound keep (hd d rfl)
  | .decode field layout pos keep, s, hs, _ => by
    rw [perform]
    refine settling_steps ((decode_holds hs field layout pos).bind_steps fun t d ht hd => ?_)
    exact keepAs_steps ht.sound keep (hd d rfl)
  | .project spot, s, hs, hdepth => by
    rw [perform]
    refine settling_steps (atSpot_steps hs fun t d ht hd => ?_)
    cases d.layout? with
    | none => exact .refl ht.sound
    | some layout =>
      exact steps_of_reading
        (project_reading ht.sound (ht.grows.depth.trans hdepth) layout hd)
  | .parts spot, s, hs, _ => by
    rw [perform]
    refine settling_steps (atSpot_steps hs fun t d ht hd => ?_)
    cases d with
    | slot k c content =>
      obtain ⟨content', he⟩ : ∃ content', (Datum.slot k c content).erase = .slot k c content' := by
        cases content <;> exact ⟨_, rfl⟩
      exact steps_of_reading (slotParts_reading ht.sound rfl hd he)
    | _ => exact .refl ht.sound
  | .read spot q, s, hs, _ => by
    rw [perform]
    refine settling_steps (atSequence_steps hs fun t item ht hi => ?_)
    exact (query_onlyReads ht.sound hi q).reads.steps
  | .concat spot token other, s, hs, _ => by
    rw [perform]
    refine settling_steps (atSpot_steps hs fun t d ht hd => ?_)
    cases hq : d.sequence? with
    | none => exact .refl ht.sound
    | some found =>
      have hi := hd found.2 (Datum.object?_of_sequence? hq)
      refine atSequence_steps ht.sound fun u otherItem hu ho => ?_
      exact steps_of_reading
        (concat_onlyReads hu.sound (hu.grows.live found.2 hi) ho token)
  | .annotate spot change, s, hs, _ => by
    rw [perform]
    refine settling_steps (atSequence_steps hs fun t item ht _ => ?_)
    exact annotate_steps ht.sound item change
  | .visit visitor spot callback, s, hs, hdepth => by
    rw [perform]
    refine settling_steps (atSpot_steps hs fun t d ht hd => ?_)
    cases hv : d.view? with
    | none => exact .refl ht.sound
    | some found =>
      obtain ⟨kind, pos, item⟩ := found
      obtain ⟨hobject, hplace⟩ := Datum.object?_of_view? hv
      -- a callback is a list of operations, each of them below this one
      have hcall : Answers t.document
          (fun event _ => do performAll (callback event (← get))) fun _ => () :=
        fun u event _ hu _ hdepth' _ _ => ⟨performAll_steps (callback event u) hu hdepth', rfl⟩
      exact (run_run hcall ht.sound (ht.grows.depth.trans hdepth) (hd item hobject) hplace
        visitor).1

/-- Operations, in order. -/
theorem performAll_steps : ∀ (ops : List Operation) {s : Session}, s.Sound → s.depth = 0 →
    s.Steps ((performAll ops).run s).2
  | [], s, hs, _ => by
    rw [performAll]
    exact .refl hs
  | op :: rest, s, hs, hdepth => by
    rw [performAll, run_bind]
    have hop := perform_steps op hs hdepth
    exact hop.trans (performAll_steps rest hop.sound (hop.depth.trans hdepth))

end

/-- A callback that carries out operations. -/
def carryOut (callback : Event → Session → List Operation) (event : Event) (_ : Link) :
    StateM Session Unit := do performAll (callback event (← get))

theorem carryOut_answers (doc : Document) (callback : Event → Session → List Operation) :
    Answers doc (carryOut callback) fun _ => () :=
  fun u event _ hu _ hdepth _ _ => ⟨performAll_steps (callback event u) hu hdepth, rfl⟩

/-! ## Sessions that operations lead to -/

variable {doc : Document}

theorem ofRoot_sound {token : UInt32} {pos : Nat} (h : ofRoot doc token pos = .ok s) :
    s.document = doc ∧ s.Sound ∧ s.depth = 0 := by
  have hread := decode_holds (.start doc token) "root" (.record .root) pos
  obtain ⟨hreads, hout⟩ := hread
  have h : (match (start doc token).exec (decode "root" (.record .root) pos) with
    | (result, t) => result.map fun d => t.save rootHandle d) = .ok s := h
  generalize (start doc token).exec (decode "root" (.record .root) pos) = r at h hreads hout
  obtain ⟨r, t⟩ := r
  cases r with
  | error f => cases h
  | ok d =>
    cases h
    have hsave := save_steps hreads.sound rootHandle (hout d rfl)
    exact ⟨hsave.document.trans hreads.grows.document, hsave.sound,
      hsave.depth.trans hreads.grows.depth⟩

/-- What holds of one session holds of those that operations lead to from it. -/
theorem Leads.passes (h : s.Leads t) (hs : s.Sound) (hdepth : s.depth = 0) : s.Passes t := by
  induction h with
  | refl => exact .refl hs
  | step _ op ih => exact ih.trans (perform_steps op ih.sound (ih.depth.trans hdepth)).toPasses
  | @hold t u _ spot held d kind pos item handle found view ih =>
    have hheld : t.heap.Holds held := handle_holds ih.sound handle
    obtain ⟨hreads, hout⟩ := follow_reading ih.sound hheld spot.path
    have hex : t.exec (follow held spot.path) = (.ok (some d), u) := found
    rw [hex] at hreads hout
    generalize Path.follow t.document t.document.access held.erase spot.path = y at hout
    cases hout with
    | ok h =>
      cases h with
      | some h =>
        have hpin := pin_passes hreads.sound (h.1 item (Datum.object?_of_view? view).1)
        exact ih.trans (hreads.steps.toPasses.trans hpin)
  | @enter t u _ event item opened ih =>
    obtain ⟨hreads, hi, _⟩ := openNode_reads ih.sound opened
    exact ih.trans (hreads.steps.toPasses.trans (pin_passes hreads.sound hi))
  | leave _ ih => exact ih.trans (unpin_passes ih.sound).1

/-- Every session of a document is sound, and between operations nothing is being projected. -/
theorem Reachable.sound (h : Reachable doc s) : s.document = doc ∧ s.Sound ∧ s.depth = 0 := by
  cases h with
  | bare token h =>
    have hpass := h.passes (.start doc token) rfl
    exact ⟨hpass.document, hpass.sound, hpass.depth⟩
  | root opened h =>
    obtain ⟨hdoc, hs, hdepth⟩ := ofRoot_sound opened
    have hpass := h.passes hs hdepth
    exact ⟨hpass.document.trans hdoc, hpass.sound, hpass.depth.trans hdepth⟩

end Session

/-! ## Examples -/

/-- A document of zero bytes. -/
def Document.zeros (size : Nat) : Document :=
  ⟨Array.replicate size 0, "", false, 0, {}, .saturating⟩

/-- A document of numbers of 32 bits. -/
def Document.ofWords (words : List Nat) (options : Options) : Document :=
  ⟨(words.flatMap (Builder.encode 4)).toArray, "", false, 0, options, .saturating⟩

/-- The block `{ true; debugger }`, read with a limit on nesting. Its literal is at offset 88, and is
looked for at an offset that may be another one. -/
def Document.block (literal limit : Nat) : Document :=
  .ofWords
    [0, 18, 32, 0, 2, 0, 2, 0, -- the block, with two statements at offset 32
      6, 0, 64, 0, 3, 0, 104, 0, -- their tags, and where they are
      2, 7, 0, 0, literal, 0, -- the statement at offset 64, with its literal
      2, 6, 1, 0, -- a literal
      8, 16] -- the statement at offset 104
    { maxDepth := limit }

namespace Session

/-- A session in which a walk is inside of the node at the start of the buffer. -/
def insideNode : Session :=
  ((pin 0).run ((openNode ⟨.enter, .debuggerStatement, 0⟩).run (.start (.zeros 64) 1)).2).2

/-- The view of that node. -/
def innerNode : Link := ⟨.view (.node .debuggerStatement) 0, ⟨0, 0⟩, 0⟩

theorem insideNode_reachable : Reachable (.zeros 64) insideNode := by
  have hopen : (openNode ⟨.enter, .debuggerStatement, 0⟩).run (.start (.zeros 64) 1) =
      (some innerNode, ((openNode ⟨.enter, .debuggerStatement, 0⟩).run (.start (.zeros 64) 1)).2) :=
    rfl
  exact .bare 1 (.enter .refl hopen)

theorem innerNode_live : insideNode.heap.Live innerNode := ⟨_, rfl, rfl, rfl⟩

/-- A session in which a walk is inside of the block. -/
def insideBlock (literal limit : Nat) : Session :=
  ((pin 0).run ((openNode ⟨.enter, .blockStatement, 0⟩).run (.start (.block literal limit) 1)).2).2

/-- The view of the block. -/
def blockNode : Link := ⟨.view (.node .blockStatement) 0, ⟨0, 1⟩, 0⟩

theorem insideBlock_reachable (literal limit : Nat) :
    Reachable (.block literal limit) (insideBlock literal limit) := by
  have hopen : (openNode ⟨.enter, .blockStatement, 0⟩).run (.start (.block literal limit) 1) =
      (some blockNode,
        ((openNode ⟨.enter, .blockStatement, 0⟩).run (.start (.block literal limit) 1)).2) := rfl
  exact .bare 1 (.enter .refl hopen)

theorem blockNode_live (literal limit : Nat) : (insideBlock literal limit).heap.Live blockNode :=
  ⟨_, rfl, rfl, rfl⟩

end Session

end FlatSyntax
