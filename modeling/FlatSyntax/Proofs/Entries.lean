import Mathlib
import FlatSyntax.Entries

/-!
# Entries sorted by key

What a map of entries gives for a key after insertions, and in what order it lists them. Pairs with
different keys are listed in the order of the keys, so a map lists the pairs whose keys are in order
already as they are.
-/

namespace FlatSyntax.Entries

variable {κ ν β : Type}

theorem isSome_get?_iff [DecidableEq κ] {entries : List (κ × ν)} {key : κ} :
    (get? entries key).isSome ↔ key ∈ entries.map Prod.fst := by
  simp only [get?, Option.isSome_map, List.find?_isSome, decide_eq_true_eq, List.mem_map]

variable [LT κ] [DecidableLT κ]

/-- Entries in the order of their keys. -/
abbrev Sorted (entries : List (κ × ν)) : Prop := entries.Pairwise fun a b => a.1 < b.1

theorem mem_insert {key : κ} {value : ν} {entries : List (κ × ν)} {entry : κ × ν}
    (h : entry ∈ insert key value entries) : entry = (key, value) ∨ entry ∈ entries := by
  induction entries with
  | nil => simpa [insert] using h
  | cons head rest ih =>
    obtain ⟨k, v⟩ := head
    unfold insert at h
    split at h
    · exact List.mem_cons.mp h
    · split at h
      · rcases List.mem_cons.mp h with h | h
        · exact .inr (h ▸ List.mem_cons_self)
        · exact (ih h).imp_right (List.mem_cons_of_mem _)
      · exact (List.mem_cons.mp h).imp_right (List.mem_cons_of_mem _)

variable [IsStrictTotalOrder κ (· < ·)]

theorem get?_insert [DecidableEq κ] (key : κ) (value : ν) (entries : List (κ × ν)) (key' : κ) :
    get? (insert key value entries) key' = if key = key' then some value else get? entries key' := by
  induction entries with
  | nil =>
    by_cases h : key = key' <;> simp [insert, get?, h]
  | cons entry rest ih =>
    obtain ⟨k, v⟩ := entry
    unfold insert
    split
    · by_cases h : key = key' <;> simp [get?, h]
    · split
      · rename_i hlt
        have hne : k ≠ key := fun heq => irrefl_of (· < ·) key (heq ▸ hlt)
        by_cases hk : k = key'
        · have h : key ≠ key' := fun h => hne (hk.trans h.symm)
          simp [get?, hk, h]
        · have htail : get? ((k, v) :: insert key value rest) key' =
              get? (insert key value rest) key' := by simp [get?, hk]
          have htail' : get? ((k, v) :: rest) key' = get? rest key' := by simp [get?, hk]
          rw [htail, htail', ih]
      · rename_i hge hle
        have heq : key = k := Std.Trichotomous.trichotomous key k hge hle
        subst heq
        by_cases h : key = key' <;> simp [get?, h]

theorem sorted_insert {entries : List (κ × ν)} (h : Sorted entries) (key : κ)
    (value : ν) : Sorted (insert key value entries) := by
  induction entries with
  | nil => exact List.pairwise_singleton ..
  | cons head rest ih =>
    obtain ⟨k, v⟩ := head
    obtain ⟨hhead, hrest⟩ := List.pairwise_cons.mp h
    unfold insert
    split
    · rename_i hlt
      refine List.pairwise_cons.mpr ⟨fun entry hentry => ?_, h⟩
      rcases List.mem_cons.mp hentry with rfl | hentry
      · exact hlt
      · exact IsTrans.trans _ _ _ hlt (hhead entry hentry)
    · split
      · rename_i hlt
        refine List.pairwise_cons.mpr ⟨fun entry hentry => ?_, ih hrest⟩
        rcases mem_insert hentry with rfl | hentry
        · exact hlt
        · exact hhead entry hentry
      · rename_i hge hle
        have heq : key = k := Std.Trichotomous.trichotomous key k hge hle
        subst heq
        exact List.pairwise_cons.mpr ⟨hhead, hrest⟩

theorem insert_perm {key : κ} {entries : List (κ × ν)}
    (h : key ∉ entries.map Prod.fst) (value : ν) :
    (insert key value entries).Perm ((key, value) :: entries) := by
  induction entries with
  | nil => exact .refl _
  | cons head rest ih =>
    obtain ⟨k, v⟩ := head
    rw [List.map_cons, List.mem_cons, not_or] at h
    unfold insert
    split
    · exact .refl _
    · split
      · exact ((ih h.2).cons (k, v)).trans (.swap ..)
      · rename_i hge hle
        exact absurd (Std.Trichotomous.trichotomous key k hge hle) h.1

/-- The entries of pairs, from the pairs that were put in before. -/
theorem foldl_insert_spec (pairs entries : List (κ × ν)) (hs : Sorted entries)
    (hkeys : (pairs.map Prod.fst).Nodup)
    (hnew : ∀ pair ∈ pairs, pair.1 ∉ entries.map Prod.fst) :
    Sorted (pairs.foldl (fun entries (key, value) => insert key value entries) entries) ∧
      (pairs.foldl (fun entries (key, value) => insert key value entries) entries).Perm
        (pairs ++ entries) := by
  induction pairs generalizing entries with
  | nil => exact ⟨hs, .refl _⟩
  | cons pair rest ih =>
    obtain ⟨key, value⟩ := pair
    obtain ⟨hfirst, hrest⟩ := List.nodup_cons.mp hkeys
    have hperm := insert_perm (hnew (key, value) List.mem_cons_self) value
    obtain ⟨hs', hperm'⟩ := ih (insert key value entries) (sorted_insert hs key value) hrest
      (fun other hother hmem => by
        obtain ⟨entry, hentry, heq⟩ := List.mem_map.mp hmem
        rcases mem_insert hentry with rfl | hentry
        · exact hfirst (heq ▸ List.mem_map_of_mem hother)
        · exact hnew other (List.mem_cons_of_mem _ hother)
            (heq ▸ List.mem_map_of_mem hentry))
    refine ⟨hs', hperm'.trans ?_⟩
    exact (hperm.append_left rest).trans List.perm_middle

theorem sorted_ofList {pairs : List (κ × ν)} (hkeys : (pairs.map Prod.fst).Nodup) :
    Sorted (ofList pairs) := (foldl_insert_spec pairs [] .nil hkeys (by simp)).1

theorem ofList_perm {pairs : List (κ × ν)} (hkeys : (pairs.map Prod.fst).Nodup) :
    (ofList pairs).Perm pairs := by
  have hperm := (foldl_insert_spec pairs [] .nil hkeys (by simp)).2
  rwa [List.append_nil] at hperm

/-- Entries that are in order already are listed as they are. -/
theorem ofList_of_sorted {entries : List (κ × ν)} (h : Sorted entries) : ofList entries = entries := by
  have hkeys : (entries.map Prod.fst).Nodup := by
    refine List.pairwise_map.mpr (h.imp fun {a b} hlt heq => ?_)
    rw [heq] at hlt
    exact irrefl_of (· < ·) b.1 hlt
  refine List.Perm.eq_of_pairwise ?_ (sorted_ofList hkeys) h (ofList_perm hkeys)
  exact fun a b _ _ hab hba => irrefl_of (· < ·) a.1 (IsTrans.trans _ _ _ hab hba) |>.elim

/-- The value under a key that one of the pairs has. -/
theorem get?_ofList [DecidableEq κ] {pairs : List (κ × ν)} (hkeys : (pairs.map Prod.fst).Nodup)
    {key : κ} {value : ν} (h : (key, value) ∈ pairs) : get? (ofList pairs) key = some value := by
  have hmem : (key, value) ∈ ofList pairs := (ofList_perm hkeys).mem_iff.mpr h
  have hnodup : ((ofList pairs).map Prod.fst).Nodup :=
    ((ofList_perm hkeys).map Prod.fst).nodup_iff.mpr hkeys
  unfold get?
  cases hf : (ofList pairs).find? fun entry => entry.1 = key with
  | none =>
    have := List.find?_eq_none.mp hf (key, value) hmem
    simp at this
  | some entry =>
    have hkey : entry.1 = key := by simpa using List.find?_some hf
    have hentry := List.mem_of_find?_eq_some hf
    have heq : entry = (key, value) := List.inj_on_of_nodup_map hnodup hentry hmem hkey
    rw [heq]
    rfl

theorem get?_ofList_eq_none [DecidableEq κ] {pairs : List (κ × ν)} (hkeys : (pairs.map Prod.fst).Nodup)
    {key : κ} (h : key ∉ pairs.map Prod.fst) : get? (ofList pairs) key = none := by
  unfold get?
  rw [Option.map_eq_none_iff, List.find?_eq_none]
  intro entry hentry hkey
  rw [decide_eq_true_iff] at hkey
  exact h (hkey ▸ List.mem_map_of_mem ((ofList_perm hkeys).mem_iff.mp hentry))

/-- Going through a map in the order of its keys is going through the pairs that count as they were
given, if these are in the order of their keys. -/
theorem flatMap_ofList {pairs : List (κ × ν)} (hkeys : (pairs.map Prod.fst).Nodup)
    (counts : κ × ν → Bool) (hsorted : Sorted (pairs.filter counts))
    {g : κ × ν → List β} (hg : ∀ pair ∈ pairs, counts pair = false → g pair = []) :
    (ofList pairs).flatMap g = (pairs.filter counts).flatMap g := by
  have hskip : ∀ l : List (κ × ν), (∀ pair ∈ l, counts pair = false → g pair = []) →
      l.flatMap g = (l.filter counts).flatMap g := by
    intro l hl
    induction l with
    | nil => rfl
    | cons pair rest ih =>
      have hrest := ih fun other hother => hl other (List.mem_cons_of_mem _ hother)
      cases hc : counts pair with
      | true => simp [hc, hrest]
      | false => simp [hc, hrest, hl pair List.mem_cons_self hc]
  have hperm := ofList_perm hkeys
  have heq : (ofList pairs).filter counts = pairs.filter counts := by
    -- both are sorted and have the same entries
    have hfiltered : Sorted ((ofList pairs).filter counts) := (sorted_ofList hkeys).filter counts
    refine List.Perm.eq_of_pairwise ?_ hfiltered hsorted (hperm.filter counts)
    exact fun a b _ _ hab hba => irrefl_of (· < ·) a.1 (IsTrans.trans _ _ _ hab hba) |>.elim
  rw [hskip (ofList pairs) fun pair hpair => hg pair (hperm.mem_iff.mp hpair), heq]

end FlatSyntax.Entries
