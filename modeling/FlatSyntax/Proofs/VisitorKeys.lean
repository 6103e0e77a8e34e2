import Mathlib
import FlatSyntax.Proofs.Pruning
import FlatSyntax.Proofs.Schema
import FlatSyntax.Proofs.Utf8

/-!
# The keys of a visitor

A key is the name of a kind, or such a name followed by `:exit`, and nothing else is. Names have no
colon, so a key can be taken apart in one way only: at most one mark comes off its end, and what is
left is a name. A text that is no key is malformed if what is left is empty or has a colon, and
names an unknown kind otherwise.

A visitor is made of a list of keys iff all of them are keys; the first that is not is at fault.
Each position of the list then belongs to one kind and one phase, and is called for these.
-/

namespace FlatSyntax

/-! ## Names -/

namespace NodeKind

/-- A name is not empty and has no colon. -/
theorem name_plain (kind : NodeKind) : kind.name ≠ "" ∧ ':' ∉ kind.name.toList := by
  -- the bytes of a name are at hand, while its characters have to be decoded first
  have htable : ∀ kind ∈ all,
      kind.name ≠ "" ∧ 0x3a ∉ kind.name.toByteArray.data.toList := by decide +kernel
  obtain ⟨hne, hbyte⟩ := htable kind kind.mem_all
  refine ⟨hne, fun hcolon => hbyte ?_⟩
  have hmem : 0x3a ∈ Utf8.encode kind.name := by
    rw [Utf8.encode_eq]
    exact List.mem_flatMap.mpr ⟨':', hcolon, by decide⟩
  rwa [Utf8.encode, Utf8.toList_byteArray] at hmem

theorem ofName?_eq_some_iff {name : String} {kind : NodeKind} :
    ofName? name = some kind ↔ name = kind.name := by
  constructor
  · intro h
    unfold ofName? at h
    have hname := List.find?_some h
    exact (beq_iff_eq.mp hname).symm
  · rintro rfl
    exact kind.table.1

theorem ofName?_eq_none_iff {name : String} :
    ofName? name = none ↔ ∀ kind : NodeKind, name ≠ kind.name := by
  rw [Option.eq_none_iff_forall_ne_some]
  exact forall_congr' fun kind => not_congr ofName?_eq_some_iff

end NodeKind

/-! ## One key -/

namespace VisitorKey

/-- The text is the name of a kind, or the name followed by the mark for leaving. -/
def IsKey (text : String) : Prop :=
  ∃ kind : NodeKind, text = kind.name ∨ text = kind.name ++ ":exit"

/-- What is left of a text without one mark for leaving at its end, if there is one. -/
inductive Rest (text : String) : String → Phase → Prop where
  /-- The mark is taken off. -/
  | marked {rest : String} (h : text = rest ++ ":exit") : Rest text rest .exit
  /-- There is no mark. -/
  | bare (h : ∀ front : String, text ≠ front ++ ":exit") : Rest text text .enter

/-- The fault of a text that is no key. -/
inductive Blames (text : String) : Fault → Prop where
  /-- What is left is empty or has a colon. -/
  | malformed {rest : String} {phase : Phase} (left : Rest text rest phase)
      (h : rest = "" ∨ ':' ∈ rest.toList) : Blames text (.malformedKey text)
  /-- What is left is not the name of a kind. -/
  | unknown {rest : String} {phase : Phase} (left : Rest text rest phase)
      (plain : rest ≠ "" ∧ ':' ∉ rest.toList) (h : ∀ kind : NodeKind, rest ≠ kind.name) :
      Blames text (.unknownKind rest)

theorem text_exit (kind : NodeKind) : text ⟨kind, .exit⟩ = kind.name ++ ":exit" := by
  simp [text, exitMark]

theorem isKey_iff {t : String} : IsKey t ↔ ∃ key : VisitorKey, t = key.text := by
  constructor
  · rintro ⟨kind, h | h⟩
    · exact ⟨⟨kind, .enter⟩, h⟩
    · exact ⟨⟨kind, .exit⟩, h.trans (text_exit kind).symm⟩
  · rintro ⟨⟨kind, phase⟩, h⟩
    cases phase with
    | enter => exact ⟨kind, .inl h⟩
    | exit => exact ⟨kind, .inr (h.trans (text_exit kind))⟩

theorem split_marked (rest : List Char) : split (rest ++ exitMark) = (rest, .exit) := by
  have hmark : exitMark.isSuffixOf (rest ++ exitMark) = true := by simp
  rw [split, if_pos hmark]
  simp

theorem split_bare {chars : List Char} (h : ¬ exitMark <:+ chars) :
    split chars = (chars, .enter) := by
  rw [split, if_neg]
  rwa [List.isSuffixOf_iff_suffix]

/-- Every text has a rest, and reading it takes it off. -/
theorem exists_rest (t : String) : ∃ rest phase, Rest t rest phase := by
  by_cases h : ∃ front : String, t = front ++ ":exit"
  · obtain ⟨front, h⟩ := h
    exact ⟨front, .exit, .marked h⟩
  · exact ⟨t, .enter, .bare fun front heq => h ⟨front, heq⟩⟩

theorem Rest.split_eq {t rest : String} {phase : Phase} (h : Rest t rest phase) :
    split t.toList = (rest.toList, phase) := by
  cases h with
  | marked h =>
    rw [h, String.toList_append]
    exact split_marked rest.toList
  | bare h =>
    refine split_bare ?_
    rintro ⟨front, hfront⟩
    refine h (String.ofList front) (String.toList_inj.mp ?_)
    rw [String.toList_append, String.toList_ofList]
    exact hfront.symm

theorem Rest.unique {t rest rest' : String} {phase phase' : Phase} (h : Rest t rest phase)
    (h' : Rest t rest' phase') : rest = rest' ∧ phase = phase' := by
  have heq := h.split_eq.symm.trans h'.split_eq
  exact ⟨String.toList_inj.mp (congrArg Prod.fst heq), congrArg Prod.snd heq⟩

/-- Reading a key is looking up what is left of it. -/
theorem Rest.parse_eq {t rest : String} {phase : Phase} (h : Rest t rest phase) :
    parse t =
      if rest = "" ∨ ':' ∈ rest.toList then .error (.malformedKey t)
      else
        match NodeKind.ofName? rest with
        | some kind => .ok ⟨kind, phase⟩
        | none => .error (.unknownKind rest) := by
  have hbad : (rest.toList.isEmpty || rest.toList.contains ':') = true ↔
      rest = "" ∨ ':' ∈ rest.toList := by simp
  unfold parse
  rw [h.split_eq]
  simp only [String.ofList_toList]
  exact if_congr hbad rfl rfl

/-- The mark comes off the text of a key, and the name is left. -/
theorem rest_text (key : VisitorKey) : Rest key.text key.kind.name key.phase := by
  obtain ⟨kind, phase⟩ := key
  cases phase with
  | exit => exact .marked (text_exit kind)
  | enter =>
    refine .bare fun front heq => kind.name_plain.2 ?_
    have hname : kind.name = front ++ ":exit" := heq
    rw [hname, String.toList_append]
    exact List.mem_append_right _ List.mem_cons_self

theorem parse_text (key : VisitorKey) : parse key.text = .ok key := by
  have hname : NodeKind.ofName? key.kind.name = some key.kind :=
    NodeKind.ofName?_eq_some_iff.mpr rfl
  have hplain := key.kind.name_plain
  rw [(rest_text key).parse_eq, if_neg (not_or.mpr hplain), hname]

theorem text_of_parse {t : String} {key : VisitorKey} (h : parse t = .ok key) : t = key.text := by
  obtain ⟨rest, phase, hrest⟩ := exists_rest t
  rw [hrest.parse_eq] at h
  split at h
  · cases h
  · split at h
    · rename_i kind hkind
      cases h
      rw [NodeKind.ofName?_eq_some_iff] at hkind
      subst hkind
      cases hrest with
      | marked h => rw [h, text_exit]
      | bare _ => rfl
    · cases h

theorem text_injective : Function.Injective text := by
  intro a b h
  have hparse := parse_text a
  rw [h, parse_text] at hparse
  exact (Except.ok.inj hparse).symm

theorem parse_eq_error_iff {t : String} {fault : Fault} :
    parse t = .error fault ↔ Blames t fault := by
  obtain ⟨rest, phase, hrest⟩ := exists_rest t
  rw [hrest.parse_eq]
  constructor
  · intro h
    split at h
    · rename_i hbad
      cases h
      exact .malformed hrest hbad
    · rename_i hplain
      split at h
      · cases h
      · rename_i hnone
        cases h
        exact .unknown hrest (not_or.mp hplain) (NodeKind.ofName?_eq_none_iff.mp hnone)
  · intro h
    cases h with
    | malformed left hbad =>
      rw [(left.unique hrest).1] at hbad
      rw [if_pos hbad]
    | unknown left plain hnone =>
      rw [(left.unique hrest).1] at plain hnone ⊢
      rw [if_neg (not_or.mpr plain), NodeKind.ofName?_eq_none_iff.mpr hnone]

-- only one mark comes off, so a second one is a colon in the name
example : parse "IfStatement:exit:exit" = .error (.malformedKey "IfStatement:exit:exit") := rfl

theorem not_isKey_of_blames {t : String} {fault : Fault} (h : Blames t fault) : ¬ IsKey t := by
  intro hkey
  obtain ⟨key, rfl⟩ := isKey_iff.mp hkey
  have herror := parse_eq_error_iff.mpr h
  rw [parse_text] at herror
  cases herror

/-! ## Lists of keys -/

theorem parseAll_text (parsed : List VisitorKey) : (parsed.map text).mapM parse = .ok parsed := by
  induction parsed with
  | nil => rfl
  | cons key rest ih =>
    rw [List.map_cons, List.mapM_cons, parse_text, ih]
    rfl

theorem text_of_parseAll {keys : List String} {parsed : List VisitorKey}
    (h : keys.mapM parse = .ok parsed) : keys = parsed.map text := by
  induction keys generalizing parsed with
  | nil =>
    cases h
    rfl
  | cons t rest ih =>
    rw [List.mapM_cons] at h
    obtain ⟨key, hkey, h⟩ := ok_of_bind h
    obtain ⟨others, hothers, h⟩ := ok_of_bind h
    cases h
    rw [List.map_cons, text_of_parse hkey, ih hothers]

/-- The first text that is no key is at fault. -/
theorem parseAll_eq_error_iff {keys : List String} {fault : Fault} :
    keys.mapM parse = .error fault ↔ ∃ before bad after, keys = before ++ bad :: after ∧
      (∀ t ∈ before, IsKey t) ∧ Blames bad fault := by
  constructor
  · intro h
    induction keys with
    | nil => cases h
    | cons t rest ih =>
      rw [List.mapM_cons] at h
      cases ht : parse t with
      | error first =>
        rw [ht] at h
        cases h
        exact ⟨[], t, rest, rfl, by simp, parse_eq_error_iff.mp ht⟩
      | ok key =>
        rw [ht] at h
        cases hrest : rest.mapM parse with
        | ok others =>
          rw [hrest] at h
          cases h
        | error first =>
          rw [hrest] at h
          cases h
          obtain ⟨before, bad, after, rfl, hbefore, hbad⟩ := ih hrest
          refine ⟨t :: before, bad, after, rfl, fun other hother => ?_, hbad⟩
          rcases List.mem_cons.mp hother with rfl | hother
          · exact isKey_iff.mpr ⟨key, text_of_parse ht⟩
          · exact hbefore other hother
  · rintro ⟨before, bad, after, rfl, hbefore, hbad⟩
    induction before with
    | nil =>
      rw [List.nil_append, List.mapM_cons, parse_eq_error_iff.mpr hbad]
      rfl
    | cons t rest ih =>
      obtain ⟨key, rfl⟩ := isKey_iff.mp (hbefore t List.mem_cons_self)
      have hrest := ih fun other hother => hbefore other (List.mem_cons_of_mem _ hother)
      rw [List.cons_append, List.mapM_cons, parse_text, hrest]
      rfl

end VisitorKey

/-! ## Visitors -/

namespace Visitor

theorem compile_eq_ok_iff {keys : List String} {v : Visitor} :
    compile keys = .ok v ↔ ∃ parsed, keys = parsed.map VisitorKey.text ∧
      v = { plan := .ofKeys parsed } := by
  constructor
  · intro h
    obtain ⟨parsed, hparsed, rfl⟩ := parsed_of_compile h
    exact ⟨parsed, VisitorKey.text_of_parseAll hparsed, rfl⟩
  · rintro ⟨parsed, rfl, rfl⟩
    exact compile_of_parsed (VisitorKey.parseAll_text parsed)

theorem compile_eq_error_iff {keys : List String} {fault : Fault} :
    compile keys = .error fault ↔ keys.mapM VisitorKey.parse = .error fault := by
  unfold compile
  rw [Plan.compile_eq_map]
  cases keys.mapM VisitorKey.parse with
  | error first =>
    change Except.error first = Except.error fault ↔ Except.error first = Except.error fault
    simp
  | ok parsed => exact ⟨nofun, nofun⟩

/-- What comes of a list of texts that are given to a visitor as its keys. -/
structure ReadsKeys (keys : List String) : Prop where
  /-- There is a visitor iff each of them is a key. -/
  accepts : (∃ v, compile keys = .ok v) ↔ ∀ text ∈ keys, VisitorKey.IsKey text
  /-- Otherwise the first text that is no key is at fault. -/
  rejects : ∀ fault, compile keys = .error fault ↔ ∃ before bad after,
    keys = before ++ bad :: after ∧ (∀ text ∈ before, VisitorKey.IsKey text) ∧
      ¬ VisitorKey.IsKey bad ∧ VisitorKey.Blames bad fault
  /-- The kinds that are named are registered, and no others. -/
  registered : ∀ {v}, compile keys = .ok v → ∀ kind, v.plan.registered.contains kind = true ↔
    ∃ text ∈ keys, text = kind.name ∨ text = kind.name ++ ":exit"
  /-- Entering a node calls for the keys with its name, in the order of the list. -/
  entering : ∀ {v}, compile keys = .ok v → ∀ kind,
    (v.plan.callbacks .enter kind).Pairwise (· < ·) ∧
      ∀ i, i ∈ v.plan.callbacks .enter kind ↔ keys[i]? = some kind.name
  /-- Leaving a node calls for the keys with its name and the mark, in the order of the list. -/
  leaving : ∀ {v}, compile keys = .ok v → ∀ kind,
    (v.plan.callbacks .exit kind).Pairwise (· < ·) ∧
      ∀ i, i ∈ v.plan.callbacks .exit kind ↔ keys[i]? = some (kind.name ++ ":exit")
  /-- Each key belongs to one kind and one phase. -/
  filed : ∀ {v}, compile keys = .ok v → ∀ i < keys.length,
    ∃! key : VisitorKey, i ∈ v.plan.callbacks key.phase key.kind

theorem compile_rejects (keys : List String) (fault : Fault) :
    compile keys = .error fault ↔ ∃ before bad after, keys = before ++ bad :: after ∧
      (∀ text ∈ before, VisitorKey.IsKey text) ∧ ¬ VisitorKey.IsKey bad ∧
        VisitorKey.Blames bad fault := by
  rw [compile_eq_error_iff, VisitorKey.parseAll_eq_error_iff]
  constructor
  · rintro ⟨before, bad, after, hkeys, hbefore, hbad⟩
    exact ⟨before, bad, after, hkeys, hbefore, VisitorKey.not_isKey_of_blames hbad, hbad⟩
  · rintro ⟨before, bad, after, hkeys, hbefore, _, hbad⟩
    exact ⟨before, bad, after, hkeys, hbefore, hbad⟩

theorem compile_accepts (keys : List String) :
    (∃ v, compile keys = .ok v) ↔ ∀ text ∈ keys, VisitorKey.IsKey text := by
  constructor
  · rintro ⟨v, h⟩ text htext
    obtain ⟨parsed, rfl, rfl⟩ := compile_eq_ok_iff.mp h
    obtain ⟨key, _, rfl⟩ := List.mem_map.mp htext
    exact VisitorKey.isKey_iff.mpr ⟨key, rfl⟩
  · intro hall
    cases h : compile keys with
    | ok v => exact ⟨v, rfl⟩
    | error fault =>
      obtain ⟨before, bad, after, rfl, _, hbad, _⟩ := (compile_rejects keys fault).mp h
      exact absurd (hall bad (by simp)) hbad

/-- The positions that are called for a kind and a phase are those of the texts that name them. -/
theorem mem_callbacks_of_compile {keys : List String} {v : Visitor} (h : compile keys = .ok v)
    (key : VisitorKey) (i : Nat) :
    i ∈ v.plan.callbacks key.phase key.kind ↔ keys[i]? = some key.text := by
  obtain ⟨parsed, rfl, rfl⟩ := compile_eq_ok_iff.mp h
  rw [Plan.mem_callbacks, List.getElem?_map]
  exact (Option.map_injective VisitorKey.text_injective).eq_iff.symm

theorem callbacks_ordered_of_compile {keys : List String} {v : Visitor} (h : compile keys = .ok v)
    (phase : Phase) (kind : NodeKind) : (v.plan.callbacks phase kind).Pairwise (· < ·) := by
  obtain ⟨parsed, _, rfl⟩ := compile_eq_ok_iff.mp h
  exact Plan.callbacks_ordered parsed phase kind

theorem registered_of_compile {keys : List String} {v : Visitor} (h : compile keys = .ok v)
    (kind : NodeKind) : v.plan.registered.contains kind = true ↔
      ∃ text ∈ keys, text = kind.name ∨ text = kind.name ++ ":exit" := by
  obtain ⟨parsed, rfl, rfl⟩ := compile_eq_ok_iff.mp h
  rw [Plan.registered_ofKeys]
  constructor
  · rintro ⟨⟨_, phase⟩, hkey, rfl⟩
    refine ⟨_, List.mem_map_of_mem hkey, ?_⟩
    cases phase with
    | enter => exact .inl rfl
    | exit => exact .inr (VisitorKey.text_exit _)
  · rintro ⟨text, htext, rfl | rfl⟩
    · exact ⟨⟨kind, .enter⟩, (List.mem_map_of_injective VisitorKey.text_injective).mp htext, rfl⟩
    · rw [← VisitorKey.text_exit] at htext
      exact ⟨⟨kind, .exit⟩, (List.mem_map_of_injective VisitorKey.text_injective).mp htext, rfl⟩

/-- The keys of a visitor are read by one grammar, whatever texts are given. -/
theorem compile_readsKeys (keys : List String) : ReadsKeys keys where
  accepts := compile_accepts keys
  rejects := compile_rejects keys
  registered := registered_of_compile
  entering h kind :=
    ⟨callbacks_ordered_of_compile h .enter kind, mem_callbacks_of_compile h ⟨kind, .enter⟩⟩
  leaving h kind := by
    refine ⟨callbacks_ordered_of_compile h .exit kind, ?_⟩
    rw [← VisitorKey.text_exit]
    exact mem_callbacks_of_compile h ⟨kind, .exit⟩
  filed {v} h i hi := by
    have hkey := (compile_accepts keys).mp ⟨v, h⟩ keys[i] (List.getElem_mem hi)
    obtain ⟨key, heq⟩ := VisitorKey.isKey_iff.mp hkey
    have hget : keys[i]? = some key.text := by rw [List.getElem?_eq_getElem hi, heq]
    refine ⟨key, (mem_callbacks_of_compile h key i).mpr hget, fun other hother => ?_⟩
    have hother' := (mem_callbacks_of_compile h other i).mp hother
    rw [hget] at hother'
    exact VisitorKey.text_injective (Option.some.inj hother').symm

end Visitor

end FlatSyntax
