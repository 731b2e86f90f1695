import Mathlib.Data.List.Sort

/-! Ordering by several keys: the first key on which two elements differ decides. Sorting a list only
    looks at its own elements, so the order need only be total and transitive on them. -/

namespace Lexicographic
variable {α β : Type}

/-- A key of an order: what is compared, and how. -/
abbrev Key (α β : Type) := (α → β) × (β → β → Prop)

/-- The first key that differs puts `a` before `b`. -/
def Before : List (Key α β) → α → α → Prop
  | [], _, _ => False
  | (f, lt) :: keys, a, b => lt (f a) (f b) ∨ f a = f b ∧ Before keys a b

theorem before_irrefl {a : α} : ∀ {keys : List (Key α β)}, (∀ k ∈ keys, ¬k.2 (k.1 a) (k.1 a)) →
    ¬Before keys a a
  | [], _ => id
  | _ :: _, h => by
    rintro (hlt | ⟨-, hrest⟩)
    · exact h _ (List.mem_cons_self ..) hlt
    · exact before_irrefl (fun k hk => h k (List.mem_cons_of_mem _ hk)) hrest

theorem before_trans {a b c : α} : ∀ {keys : List (Key α β)},
    (∀ k ∈ keys, ∀ x y z, k.2 x y → k.2 y z → k.2 x z) → Before keys a b → Before keys b c →
    Before keys a c
  | [], _, h, _ => h.elim
  | (f, lt) :: keys, htrans, hab, hbc => by
    have ht := htrans _ (List.mem_cons_self ..)
    rcases hab with hab | ⟨eab, hab⟩
    · refine Or.inl ?_
      rcases hbc with hbc | ⟨ebc, -⟩
      · exact ht _ _ _ hab hbc
      · exact ebc ▸ hab
    · rcases hbc with hbc | ⟨ebc, hbc⟩
      · exact Or.inl (show lt (f a) (f c) from eab ▸ hbc)
      · exact Or.inr ⟨eab.trans ebc,
          before_trans (fun k hk => htrans k (List.mem_cons_of_mem _ hk)) hab hbc⟩

/-- What every key tells apart or finds equal, the order puts one way or the other, or they agree on
    every key. -/
theorem before_total {a b : α} : ∀ {keys : List (Key α β)},
    (∀ k ∈ keys, k.2 (k.1 a) (k.1 b) ∨ k.1 a = k.1 b ∨ k.2 (k.1 b) (k.1 a)) →
    Before keys a b ∨ (∀ k ∈ keys, k.1 a = k.1 b) ∨ Before keys b a
  | [], _ => Or.inr (Or.inl (by simp))
  | (f, lt) :: keys, h => by
    have ih := before_total fun k hk => h k (List.mem_cons_of_mem _ hk)
    rcases h _ (List.mem_cons_self ..) with hlt | heq | hgt
    · exact Or.inl (Or.inl hlt)
    · rcases ih with hb | hall | hb
      · exact Or.inl (Or.inr ⟨heq, hb⟩)
      · exact Or.inr (Or.inl (List.forall_mem_cons.mpr ⟨heq, hall⟩))
      · exact Or.inr (Or.inr (Or.inr ⟨heq.symm, hb⟩))
    · exact Or.inr (Or.inr (Or.inl hgt))

/-- The first comparison that tells decides. -/
def first : List Ordering → Ordering
  | [] => .eq
  | .eq :: rest => first rest
  | o :: _ => o

/-- Comparisons that each tell what their key does tell, in turn, what the keys do. -/
theorem first_spec {ι : Type} {a b : α} {key : ι → Key α β} {cmp : ι → Ordering} : ∀ {is : List ι},
    (∀ i ∈ is, (cmp i = .lt ↔ (key i).2 ((key i).1 a) ((key i).1 b)) ∧
      (cmp i = .eq ↔ (key i).1 a = (key i).1 b)) →
    (first (is.map cmp) = .lt ↔ Before (is.map key) a b) ∧
      (first (is.map cmp) = .eq ↔ ∀ i ∈ is, (key i).1 a = (key i).1 b)
  | [], _ => by simp [first, Before]
  | i :: is, h => by
    obtain ⟨ihl, ihe⟩ := first_spec fun j hj => h j (List.mem_cons_of_mem _ hj)
    obtain ⟨hlt, heq⟩ := h i (List.mem_cons_self ..)
    rw [List.map_cons, List.map_cons, Before, List.forall_mem_cons, ← hlt, ← heq, ← ihl, ← ihe]
    cases cmp i <;> simp [first]

section Sorting
variable {r : α → α → Prop} [DecidableRel r] {l : List α}

/-- A list is sorted by a relation that is total and transitive on it. -/
theorem pairwise_sorted (total : ∀ a ∈ l, ∀ b ∈ l, r a b ∨ r b a)
    (trans : ∀ a ∈ l, ∀ b ∈ l, ∀ c ∈ l, r a b → r b c → r a c) : (l.insertionSort r).Pairwise r := by
  let s : {a // a ∈ l} → {a // a ∈ l} → Prop := fun a b => r a b
  have hs : DecidableRel s := fun a b => inferInstanceAs (Decidable (r a b))
  have ht : Std.Total s := ⟨fun a b => total a a.2 b b.2⟩
  have htr : IsTrans _ s := ⟨fun a b c => trans a a.2 b b.2 c c.2⟩
  have hmap := List.map_insertionSort s r Subtype.val l.attach fun _ _ _ _ => Iff.rfl
  rw [List.attach_map_subtype_val] at hmap
  rw [← hmap, List.pairwise_map]
  exact List.pairwise_insertionSort s _

/-- What a list is sorted to does not depend on the order it came in. -/
theorem sorted_perm {l' : List α} (h : l'.Perm l) (total : ∀ a ∈ l, ∀ b ∈ l, r a b ∨ r b a)
    (trans : ∀ a ∈ l, ∀ b ∈ l, ∀ c ∈ l, r a b → r b c → r a c)
    (antisymm : ∀ a ∈ l, ∀ b ∈ l, r a b → r b a → a = b) :
    l'.insertionSort r = l.insertionSort r := by
  have hmem : ∀ {a}, a ∈ l' → a ∈ l := fun ha => h.mem_iff.mp ha
  refine List.Perm.eq_of_pairwise (fun a b ha hb => ?_)
    (pairwise_sorted (fun a ha b hb => total a (hmem ha) b (hmem hb))
      fun a ha b hb c hc => trans a (hmem ha) b (hmem hb) c (hmem hc))
    (pairwise_sorted total trans)
    ((List.perm_insertionSort _ _).trans (h.trans (List.perm_insertionSort _ _).symm))
  exact antisymm a (hmem ((List.mem_insertionSort r).mp ha)) b ((List.mem_insertionSort r).mp hb)

end Sorting

end Lexicographic
