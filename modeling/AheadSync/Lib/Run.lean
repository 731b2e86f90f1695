import Mathlib.Data.List.Basic
import Mathlib.Logic.Function.Iterate

/-! Runs of a machine given by a total step function. What every step keeps, every run keeps; a
    condition on steps is carried along the run that takes them; what steps keep up to a mark, a run
    keeps up to the marks it leaves; a machine that steps by itself stops when its steps lower a
    measure. -/

namespace Machine
variable {σ α : Type} {step : σ → α → σ}

/-- The state after a list of steps. -/
def run (step : σ → α → σ) (s : σ) (as : List α) : σ := as.foldl step s

/-- Every step of the run meets `ok` in the state it is taken in. -/
def Along (step : σ → α → σ) (ok : σ → α → Prop) : σ → List α → Prop
  | _, [] => True
  | s, a :: as => ok s a ∧ Along step ok (step s a) as

/-- What a step keeps under a condition, a run whose steps all meet it keeps. -/
theorem run_keeps {P : σ → Prop} {ok : σ → α → Prop}
    (keep : ∀ s a, P s → ok s a → P (step s a)) :
    ∀ {as : List α} {s : σ}, P s → Along step ok s as → P (run step s as)
  | [], _, hs, _ => hs
  | _ :: as, s, hs, h => @run_keeps P ok keep as _ (keep s _ hs h.1) h.2

/-- What every step keeps, every run keeps. -/
theorem run_invariant {P : σ → Prop} (keep : ∀ s a, P s → P (step s a)) {as : List α} {s : σ}
    (hs : P s) : P (run step s as) :=
  List.foldlRecOn as step hs fun b hb a _ => keep b a hb

theorem along_append {ok : σ → α → Prop} {before after : List α} {s : σ} :
    Along step ok s (before ++ after) ↔ Along step ok s before ∧ Along step ok (run step s before) after := by
  induction before generalizing s with
  | nil => simp [Along, run]
  | cons a before ih =>
    simp only [List.cons_append, Along, ih, and_assoc]
    rfl

theorem along_imp {ok ok' : σ → α → Prop} (h : ∀ s a, ok s a → ok' s a) :
    ∀ {as : List α} {s : σ}, Along step ok s as → Along step ok' s as
  | [], _, _ => trivial
  | _ :: _, _, hs => ⟨h _ _ hs.1, along_imp h hs.2⟩

/-- Some step of the run meets `ok` in the state it is taken in. -/
def Sometime (step : σ → α → σ) (ok : σ → α → Prop) : σ → List α → Prop
  | _, [] => False
  | s, a :: as => ok s a ∨ Sometime step ok (step s a) as

/-- What each step keeps up to a mark it leaves, a run keeps up to the marks of its steps. -/
theorem run_marks {ι : Type} (mark : ι → σ → α → Prop) (P : (ι → Prop) → σ → Prop)
    {ok : σ → α → Prop}
    (keep : ∀ marks s a, P marks s → ok s a → P (fun i => marks i ∨ mark i s a) (step s a)) :
    ∀ {as : List α} {marks : ι → Prop} {s : σ}, P marks s → Along step ok s as →
      P (fun i => marks i ∨ Sometime step (mark i) s as) (run step s as)
  | [], marks, s, hs, _ => by
    simp only [Sometime, or_false]
    exact hs
  | a :: as, marks, s, hs, h => by
    have hrest := run_marks mark P keep (keep marks s a hs h.1) h.2
    simp only [or_assoc] at hrest
    exact hrest

/-- A machine whose every step, while it goes on, keeps an invariant and lowers a measure stops. -/
theorem exists_stopped {step : σ → σ} {going : σ → Prop} (P : σ → Prop) (μ : σ → ℕ)
    (h : ∀ s, P s → going s → P (step s) ∧ (going (step s) → μ (step s) < μ s)) {s : σ} (hs : P s) :
    ∃ n, ¬going (step^[n] s) := by
  induction hm : μ s using Nat.strongRecOn generalizing s with
  | _ m ih =>
    by_cases hgo : going s
    · obtain ⟨hP, hlt⟩ := h s hs hgo
      by_cases hgo' : going (step s)
      · obtain ⟨n, hn⟩ := ih (μ (step s)) (hm ▸ hlt hgo') hP rfl
        exact ⟨n + 1, hn⟩
      · exact ⟨1, hgo'⟩
    · exact ⟨0, hgo⟩

end Machine
