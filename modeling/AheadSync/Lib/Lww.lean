import Mathlib.Logic.Function.Basic
import Mathlib.Order.Lattice

/-! Last-writer-wins registers, one for each key. A write lands when its stamp is greater than the one
    held, so that writes which agree on the value of a key at a stamp can be absorbed in any order. -/

namespace Lww
variable {κ σ υ : Type} [DecidableEq κ] [LinearOrder σ]

/-- The value of a key at a stamp. -/
structure Write (κ σ υ : Type) where
  key : κ
  stamp : σ
  value : υ

/-- Two writes of one key at one stamp carry one value. -/
def Agree (v w : Write κ σ υ) : Prop := v.key = w.key → v.stamp = w.stamp → v.value = w.value

/-- Absorb a write: it replaces what its key holds when its stamp is greater. -/
def absorb (s : κ → σ × υ) (w : Write κ σ υ) : κ → σ × υ :=
  if (s w.key).1 < w.stamp then Function.update s w.key (w.stamp, w.value) else s

def absorbAll (s : κ → σ × υ) (ws : List (Write κ σ υ)) : κ → σ × υ := ws.foldl absorb s

section Absorb
variable {s : κ → σ × υ} {v w : Write κ σ υ} {vs ws : List (Write κ σ υ)} {k : κ}

theorem absorb_apply : absorb s w k =
    if k = w.key ∧ (s k).1 < w.stamp then (w.stamp, w.value) else s k := by
  unfold absorb
  by_cases hk : k = w.key
  · subst hk
    split <;> simp_all
  · split <;> simp [hk]

/-- Writes that agree are absorbed in any order. -/
theorem absorb_comm (h : Agree v w) : absorb (absorb s v) w = absorb (absorb s w) v := by
  funext k
  simp only [absorb_apply]
  by_cases hkeys : k = v.key ∧ k = w.key
  · obtain ⟨hv, hw⟩ := hkeys
    rcases lt_trichotomy v.stamp w.stamp with hlt | heq | hgt
    · have := @lt_trans σ _ (s k).1 v.stamp w.stamp
      grind
    · have hval := h (hv.symm.trans hw) heq
      grind
    · have := @lt_trans σ _ (s k).1 w.stamp v.stamp
      grind
  · grind

theorem absorb_absorbAll (h : ∀ v ∈ vs, Agree v w) :
    absorb (absorbAll s vs) w = absorbAll (absorb s w) vs := by
  induction vs generalizing s with
  | nil => rfl
  | cons v vs ih =>
    rw [absorbAll, List.foldl_cons, ← absorbAll, ih fun x hx => h x (List.mem_cons_of_mem _ hx),
      absorb_comm (h v (List.mem_cons_self ..))]
    rfl

/-- Two batches of writes that agree are absorbed in any order. -/
theorem absorbAll_comm (h : ∀ v ∈ vs, ∀ w ∈ ws, Agree v w) :
    absorbAll (absorbAll s vs) ws = absorbAll (absorbAll s ws) vs := by
  induction ws generalizing s with
  | nil => rfl
  | cons w ws ih =>
    have hw : ∀ v ∈ vs, Agree v w := fun v hv => h v hv w (List.mem_cons_self ..)
    calc absorbAll (absorbAll s vs) (w :: ws)
        = absorbAll (absorb (absorbAll s vs) w) ws := rfl
      _ = absorbAll (absorbAll (absorb s w) vs) ws := by rw [absorb_absorbAll hw]
      _ = absorbAll (absorbAll (absorb s w) ws) vs :=
          ih fun v hv x hx => h v hv x (List.mem_cons_of_mem _ hx)
      _ = absorbAll (absorbAll s (w :: ws)) vs := rfl

/-- A held stamp never decreases, and what is held changes with it. -/
theorem absorbAll_stamp (s : κ → σ × υ) (ws : List (Write κ σ υ)) (k : κ) : (s k).1 ≤ (absorbAll s ws k).1 ∧
    ((absorbAll s ws k).1 = (s k).1 → absorbAll s ws k = s k) := by
  induction ws generalizing s with
  | nil => exact ⟨le_rfl, fun _ => rfl⟩
  | cons w ws ih =>
    obtain ⟨hle, heq⟩ := ih (absorb s w)
    have hstep : (s k).1 ≤ (absorb s w k).1 ∧ ((absorb s w k).1 = (s k).1 → absorb s w k = s k) := by
      rw [absorb_apply]
      split
      · rename_i h; exact ⟨h.2.le, fun heq => absurd heq h.2.ne'⟩
      · exact ⟨le_rfl, fun _ => rfl⟩
    refine ⟨hstep.1.trans hle, fun h => ?_⟩
    change absorbAll (absorb s w) ws k = s k
    change (absorbAll (absorb s w) ws k).1 = _ at h
    have hmid : (absorb s w k).1 = (s k).1 := le_antisymm (h ▸ hle) hstep.1
    rw [heq (h.trans hmid.symm), hstep.2 hmid]

end Absorb

end Lww
