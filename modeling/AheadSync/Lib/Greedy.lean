import Mathlib.Data.List.Forall2

/-! Filling a row of slots from a list, greedily from left to right: each slot takes what fits it at the
    front of the list, as much as it may. When no element can be taken for one of a later slot, the
    greedy filling is the only one. -/

/-- How many elements a slot takes. -/
inductive Count where
  | one | atMostOne | any
  deriving DecidableEq

def Count.Admits : Count → ℕ → Prop
  | .one, n => n = 1
  | .atMostOne, n => n ≤ 1
  | .any, _ => True

/-- Slots: which elements fit one, and how many it takes. -/
structure Greedy (σ α : Type) where
  fits : σ → α → Bool
  count : σ → Count

namespace Greedy
variable {σ α : Type} (g : Greedy σ α)

/-- The elements a slot takes from the front of a list, and the rest. -/
def take (s : σ) : List α → List α × List α
  | [] => ([], [])
  | a :: as =>
    if g.fits s a then
      if g.count s = .any then (a :: (take s as).1, (take s as).2) else ([a], as)
    else ([], a :: as)

/-- What each slot takes, and what is left. -/
def fill : List σ → List α → List (List α) × List α
  | [], as => ([], as)
  | s :: ss, as =>
    ((g.take s as).1 :: (fill ss (g.take s as).2).1, (fill ss (g.take s as).2).2)

/-- A filling gives each slot elements that fit, as many as it takes. -/
def Fills : List σ → List (List α) → Prop :=
  List.Forall₂ fun s t => (∀ a ∈ t, g.fits s a) ∧ (g.count s).Admits t.length

/-- No element that fits a slot fits one of those after it, up to the next one that is never empty. -/
def Clear (s : σ) : List σ → Prop
  | [] => True
  | s' :: ss => (∀ a, ¬(g.fits s a ∧ g.fits s' a)) ∧ (g.count s' ≠ .one → Clear s ss)

/-- Every slot that may take more or nothing is clear of those after it. -/
def Unambiguous : List σ → Prop
  | [] => True
  | s :: ss => (g.count s ≠ .one → g.Clear s ss) ∧ Unambiguous ss

variable {g} {s : σ} {ss : List σ} {t as rest : List α} {ts : List (List α)}

theorem take_eq_append : ∀ as : List α, (g.take s as).1 ++ (g.take s as).2 = as
  | [] => rfl
  | a :: as => by
    rw [take]
    split
    · split
      · simp [take_eq_append as]
      · rfl
    · rfl

theorem take_fits : ∀ as : List α, ∀ a ∈ (g.take s as).1, g.fits s a
  | [], a, ha => by cases ha
  | x :: as, a, ha => by
    rw [take] at ha
    split at ha
    · rename_i hx
      split at ha
      · rcases List.mem_cons.mp ha with rfl | ha
        · exact hx
        · exact take_fits as a ha
      · obtain rfl := List.mem_singleton.mp ha
        exact hx
    · cases ha

theorem take_length (h : g.count s ≠ .any) (as : List α) : (g.take s as).1.length ≤ 1 := by
  cases as with
  | nil => exact Nat.zero_le _
  | cons a as =>
    rw [take, if_neg h]
    split <;> simp

/-- The filling uses up the list but for what is left. -/
theorem fill_eq_append : ∀ (ss : List σ) (as : List α),
    (g.fill ss as).1.flatten ++ (g.fill ss as).2 = as
  | [], as => rfl
  | s :: ss, as => by
    simp only [fill, List.flatten_cons, List.append_assoc]
    rw [fill_eq_append ss, take_eq_append]

/-- A slot takes elements that fit from the front of a list, when what follows does not fit. -/
theorem take_append (hfits : ∀ a ∈ t, g.fits s a) (hcount : (g.count s).Admits t.length)
    (hrest : g.count s ≠ .one → ∀ a, rest.head? = some a → g.fits s a = false) :
    g.take s (t ++ rest) = (t, rest) := by
  have hstop : g.count s ≠ .one → g.take s rest = ([], rest) := by
    intro h
    cases rest with
    | nil => rfl
    | cons a as => rw [take, if_neg (by simp [hrest h a rfl])]
  induction t with
  | nil =>
    refine hstop fun h => ?_
    simp [h, Count.Admits] at hcount
  | cons a t ih =>
    have ha := hfits a (List.mem_cons_self ..)
    rw [List.cons_append, take, if_pos ha]
    split
    · rename_i hany
      rw [ih (fun x hx => hfits x (List.mem_cons_of_mem _ hx)) (by rw [hany]; trivial)]
    · rename_i hany
      have hlen : t.length = 0 := by
        cases hc : g.count s <;> simp_all [Count.Admits]
      rw [List.length_eq_zero_iff.mp hlen]
      rfl

/-- The first element of a filling does not fit a slot that is clear of its slots. -/
theorem Clear.head (h : g.Clear s ss) (hf : g.Fills ss ts) {a : α}
    (ha : ts.flatten.head? = some a) : g.fits s a = false := by
  induction hf with
  | nil => cases ha
  | @cons s' t ss ts hst _ ih =>
    obtain ⟨hne, hclear⟩ := h
    cases t with
    | nil =>
      refine ih (hclear fun hone => ?_) ha
      have := hst.2
      simp [hone, Count.Admits] at this
    | cons x t =>
      obtain rfl : x = a := by simpa using ha
      have := hne x
      simpa [hst.1 x (List.mem_cons_self ..)] using this

/-- The greedy filling of the elements of a filling, in slot order, is that filling. -/
theorem fill_flatten (hu : g.Unambiguous ss) (hf : g.Fills ss ts) :
    g.fill ss ts.flatten = (ts, []) := by
  induction hf with
  | nil => rfl
  | cons hst hrest ih =>
    have htake := take_append hst.1 hst.2 fun hone a ha => (hu.1 hone).head hrest ha
    rw [List.flatten_cons, fill, htake, ih hu.2]

end Greedy
