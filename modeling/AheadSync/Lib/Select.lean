import Mathlib.Data.List.Infix
import Mathlib.Data.List.Nodup

/-! Selecting from a list in one pass: an element is taken when it is admitted beside those taken
    before it, and the pass ends once enough are taken. What was decided about an element is a
    question about the pass over the elements before it. -/

namespace Select
variable {α : Type} (admits : List α → α → Prop) [∀ s x, Decidable (admits s x)] (limit : ℕ)

def pick : List α → List α → List α
  | s, [] => s
  | s, x :: xs =>
    if admits s x then
      if (s ++ [x]).length = limit then s ++ [x] else pick (s ++ [x]) xs
    else pick s xs

variable {admits limit} {s l r : List α} {x : α}

/-- A pass over two lists goes on in the second one unless it ended in the first. -/
theorem pick_append : ∀ {l s : List α}, s.length < limit → pick admits limit s (l ++ r) =
    if (pick admits limit s l).length < limit then pick admits limit (pick admits limit s l) r
    else pick admits limit s l
  | [], s, h => by simp [pick, h]
  | x :: l, s, h => by
    simp only [List.cons_append, pick]
    split
    · split
      · rename_i hfull
        simp [hfull]
      · rename_i hroom
        have hlt : (s ++ [x]).length < limit := by
          simp only [List.length_append, List.length_singleton] at hroom ⊢
          omega
        exact pick_append hlt
    · exact pick_append h

theorem pick_prefix : ∀ {l s : List α}, s <+: pick admits limit s l
  | [], s => List.prefix_rfl
  | x :: l, s => by
    simp only [pick]
    split
    · split
      · exact List.prefix_append ..
      · exact (List.prefix_append ..).trans pick_prefix
    · exact pick_prefix

theorem pick_length : ∀ {l s : List α}, s.length < limit → (pick admits limit s l).length ≤ limit
  | [], s, h => h.le
  | x :: l, s, h => by
    simp only [pick]
    split
    · split
      · rename_i hfull; exact hfull.le
      · rename_i hroom
        refine pick_length ?_
        simp only [List.length_append, List.length_singleton] at hroom ⊢
        omega
    · exact pick_length h

/-- What is taken keeps its order. -/
theorem pick_sublist : ∀ {l s : List α}, (pick admits limit s l).Sublist (s ++ l)
  | [], s => by simp [pick]
  | x :: l, s => by
    simp only [pick]
    split
    · split
      · exact (List.Sublist.refl s).append (List.singleton_sublist.mpr (List.mem_cons_self ..))
      · simpa using pick_sublist (s := s ++ [x]) (l := l)
    · exact pick_sublist.trans ((List.Sublist.refl s).append (List.sublist_cons_self ..))

/-- The last element taken was admitted beside all the others. -/
theorem pick_last : ∀ {l s : List α}, pick admits limit s l = s ∨
    ∃ b x, pick admits limit s l = b ++ [x] ∧ s <+: b ∧ admits b x
  | [], s => Or.inl rfl
  | x :: l, s => by
    simp only [pick]
    split
    · rename_i hx
      split
      · exact Or.inr ⟨s, x, rfl, List.prefix_rfl, hx⟩
      · rcases pick_last (s := s ++ [x]) (l := l) with heq | ⟨b, y, heq, hb, hy⟩
        · exact Or.inr ⟨s, x, heq, List.prefix_rfl, hx⟩
        · exact Or.inr ⟨b, y, heq, (List.prefix_append ..).trans hb, hy⟩
    · exact pick_last

/-- An element that differs from those after it is taken exactly when there was room for it and it
    was admitted beside those taken before it. -/
theorem mem_pick (hs : s.length < limit) (hx : x ∉ s ++ l) (hr : x ∉ r) :
    x ∈ pick admits limit s (l ++ x :: r) ↔
      (pick admits limit s l).length < limit ∧ admits (pick admits limit s l) x := by
  have hbefore : x ∉ pick admits limit s l := fun h => hx (pick_sublist.subset h)
  rw [pick_append hs]
  split
  · rename_i hroom
    simp only [pick, hroom, true_and]
    split
    · rename_i hadm
      have hin : x ∈ pick admits limit (pick admits limit s l ++ [x]) r :=
        pick_prefix.subset (List.mem_append_right _ (List.mem_singleton.mpr rfl))
      split
      · simp [hadm]
      · simp [hadm, hin]
    · rename_i hadm
      simp only [hadm, iff_false]
      exact fun h => (List.mem_append.mp (pick_sublist.subset h)).elim hbefore hr
  · rename_i hroom
    simp [hroom, hbefore]

/-- The elements taken before one are what the pass over the elements before it took. -/
theorem pick_before (hs : s.length < limit) :
    ∃ t, pick admits limit s (l ++ r) = pick admits limit s l ++ t ∧ t.Sublist r := by
  rw [pick_append hs]
  split
  · have hpre : pick admits limit s l <+: pick admits limit (pick admits limit s l) r := pick_prefix
    have hsub : (pick admits limit (pick admits limit s l) r).Sublist (pick admits limit s l ++ r) :=
      pick_sublist
    obtain ⟨t, ht⟩ := hpre
    refine ⟨t, ht.symm, ?_⟩
    rw [← ht] at hsub
    exact (List.append_sublist_append_left _).mp hsub
  · exact ⟨[], by simp, List.nil_sublist _⟩

/-- An element admitted alone at the front is taken. -/
theorem pick_head (hx : admits [] x) : pick admits limit [] (x :: l) ≠ [] := by
  intro hnil
  simp only [pick, if_pos hx, List.nil_append] at hnil
  split at hnil
  · cases hnil
  · have hpre : [x] <+: pick admits limit [x] l := pick_prefix
    rw [hnil] at hpre
    simp at hpre

end Select

namespace List
variable {α β : Type}

/-- The elements of a sublist are told by their keys. -/
theorem filter_keys [DecidableEq β] {f : α → β} {s l : List α} (h : s.Sublist l)
    (hnd : (l.map f).Nodup) : l.filter (fun x => f x ∈ s.map f) = s := by
  induction h with
  | slnil => rfl
  | @cons s l a hsub ih =>
    obtain ⟨ha, hnd⟩ := nodup_cons.mp hnd
    rw [filter_cons_of_neg, ih hnd]
    exact fun h => ha ((hsub.map f).subset (of_decide_eq_true h))
  | @cons_cons s l a hsub ih =>
    obtain ⟨ha, hnd⟩ := nodup_cons.mp hnd
    rw [filter_cons_of_pos (by simp)]
    refine congrArg (a :: ·) ((filter_congr fun x hx => ?_).trans (ih hnd))
    have hne : f x ≠ f a := fun heq => ha (heq ▸ mem_map_of_mem hx)
    simp [hne]

/-- Fewer elements meet a condition that implies another and fails where that one holds. -/
theorem countP_lt_of {p q : α → Bool} {l : List α} (h : ∀ x ∈ l, p x → q x) {x : α} (hx : x ∈ l)
    (hq : q x) (hp : ¬p x) : l.countP p < l.countP q := by
  obtain ⟨l₁, l₂, rfl⟩ := append_of_mem hx
  have h₁ := countP_mono_left (l := l₁) fun y hy => h y (mem_append_left _ hy)
  have h₂ := countP_mono_left (l := l₂) fun y hy =>
    h y (mem_append_right _ (mem_cons_of_mem _ hy))
  simp only [countP_append, countP_cons, hq, if_pos, if_neg hp]
  omega

end List
