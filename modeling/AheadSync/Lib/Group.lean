import AheadSync.Lib.SortedMap
import Mathlib.Data.List.Induction

/-! Lists grouped by a key, each group in the order of the list. -/

namespace SortedMap
variable {α κ : Type} [LinearOrder κ]

/-- Add an element to the group of its key. -/
def addTo (f : α → κ) (groups : SortedMap κ (List α)) (a : α) : SortedMap κ (List α) :=
  groups.insert (f a) ((groups.lookup (f a)).getD [] ++ [a])

/-- The elements of a list, by their keys. -/
def group (f : α → κ) (l : List α) : SortedMap κ (List α) := l.foldl (addTo f) empty

/-- A group holds the elements of its key, and there is one only where there are some. -/
theorem lookup_group (f : α → κ) (l : List α) (k : κ) : (group f l).lookup k =
    if l.filter (f · = k) = [] then none else some (l.filter (f · = k)) := by
  induction l using List.reverseRecOn with
  | nil => rfl
  | append_singleton l a ih =>
    rw [group, List.foldl_append, ← group, List.foldl_cons, List.foldl_nil, addTo, lookup_insert]
    by_cases hk : k = f a
    · have ih' := hk ▸ ih
      rw [if_pos hk, ih', hk, List.filter_append]
      by_cases he : l.filter (f · = f a) = []
      · simp [he]
      · simp [he]
    · rw [if_neg hk, ih, List.filter_append]
      simp [Ne.symm hk]

theorem mem_group {f : α → κ} {l : List α} {k : κ} {g : List α} (h : (k, g) ∈ (group f l).entries) :
    g ≠ [] ∧ ∀ a, a ∈ g ↔ a ∈ l ∧ f a = k := by
  rw [← lookup_eq_some_iff, lookup_group] at h
  split at h
  · cases h
  · rename_i hne
    obtain rfl := Option.some.inj h
    exact ⟨hne, fun a => by simp⟩

/-- Every element is in a group. -/
theorem exists_group {f : α → κ} {l : List α} {a : α} (ha : a ∈ l) :
    ∃ g, (f a, g) ∈ (group f l).entries ∧ a ∈ g := by
  have hmem : a ∈ l.filter (f · = f a) := List.mem_filter.mpr ⟨ha, by simp⟩
  refine ⟨l.filter (f · = f a), ?_, hmem⟩
  rw [← lookup_eq_some_iff, lookup_group, if_neg (List.ne_nil_of_mem hmem)]

/-- The groups together hold the elements of the list. -/
theorem mem_flatMap_group {f : α → κ} {l : List α} {a : α} :
    a ∈ (group f l).entries.flatMap (·.2) ↔ a ∈ l := by
  rw [List.mem_flatMap]
  constructor
  · rintro ⟨⟨k, g⟩, hmem, ha⟩
    exact (((mem_group hmem).2 a).mp ha).1
  · intro ha
    obtain ⟨g, hmem, hag⟩ := exists_group (f := f) ha
    exact ⟨_, hmem, hag⟩

/-- A list related throughout, as its keys are, is so group after group. -/
theorem pairwise_group {R : α → α → Prop} {f : α → κ} {l : List α} (hl : l.Pairwise R)
    (hR : ∀ a b, f a < f b → R a b) : ((group f l).entries.flatMap (·.2)).Pairwise R := by
  refine List.pairwise_flatMap.mpr ⟨fun ⟨k, g⟩ hmem => ?_, ?_⟩
  · rw [← lookup_eq_some_iff, lookup_group] at hmem
    split at hmem
    · cases hmem
    · exact Option.some.inj hmem ▸ hl.sublist List.filter_sublist
  · refine List.Pairwise.imp_of_mem ?_ (group f l).sorted
    rintro ⟨k, g⟩ ⟨k', g'⟩ hmem hmem' hlt a ha b hb
    obtain ⟨-, rfl⟩ := ((mem_group hmem).2 a).mp ha
    obtain ⟨-, rfl⟩ := ((mem_group hmem').2 b).mp hb
    exact hR a b hlt

section Merge
variable {υ : Type} (entry : α → κ × υ)

/-- What a map holds after the entries of a list were inserted: one of them, or what it held. -/
theorem lookup_merge : ∀ {l : List α} {m : SortedMap κ υ} {k : κ} {v : υ},
    (l.foldl (fun m a => m.insert (entry a).1 (entry a).2) m).lookup k = some v →
      m.lookup k = some v ∨ ∃ a ∈ l, entry a = (k, v)
  | [], _, _, _, h => Or.inl h
  | a :: l, m, k, v, h => by
    rw [List.foldl_cons] at h
    rcases lookup_merge h with h | ⟨a', ha', he⟩
    · rw [lookup_insert] at h
      split at h
      · rename_i hk
        exact Or.inr ⟨a, List.mem_cons_self .., Prod.ext hk.symm (Option.some.inj h)⟩
      · exact Or.inl h
    · exact Or.inr ⟨a', List.mem_cons_of_mem _ ha', he⟩

theorem isSome_merge : ∀ {l : List α} {m : SortedMap κ υ} {k : κ},
    (m.lookup k).isSome ∨ k ∈ l.map (fun a => (entry a).1) →
      ((l.foldl (fun m a => m.insert (entry a).1 (entry a).2) m).lookup k).isSome
  | [], _, _, h => h.elim id (by simp)
  | a :: l, m, k, h => by
    rw [List.foldl_cons]
    refine isSome_merge ?_
    rw [lookup_insert]
    by_cases hk : k = (entry a).1
    · exact Or.inl (by simp [hk])
    · rw [if_neg hk]
      exact h.imp_right fun h => by simpa [hk] using h

end Merge

end SortedMap
