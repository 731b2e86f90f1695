import Mathlib.Data.List.Basic
import Mathlib.Data.List.Induction

/-! An open transaction with nested savepoints: the content it works on, and what that was when each
    open savepoint was set. Whatever it goes through, it is what its steps make of the content it
    began on, alone. -/

namespace Savepoints
variable {σ : Type}

/-- The innermost savepoint comes first. -/
structure Open (σ : Type) where
  work : σ
  saved : List (String × σ) := []

/-- What a transaction can be told. Releasing a savepoint, or rolling back to it, ends it with every
    savepoint set inside it. -/
inductive Step (σ : Type) where
  | apply (f : σ → σ)
  | save (name : String)
  | release (name : String)
  | rollback (name : String)

namespace Open
variable (t : Open σ)

/-- The savepoints from the innermost of a name on. -/
def from_ (name : String) : List (String × σ) := t.saved.dropWhile (·.1 ≠ name)

def step : Step σ → Open σ
  | .apply f => { t with work := f t.work }
  | .save name => { t with saved := (name, t.work) :: t.saved }
  | .release name => { t with saved := (t.from_ name).tail }
  | .rollback name =>
    match t.from_ name with
    | [] => t
    | (_, work) :: saved => ⟨work, saved⟩

end Open

/-- What a transaction that began on `base` went through. -/
def run (base : σ) (steps : List (Step σ)) : Open σ := steps.foldl Open.step ⟨base, []⟩

theorem run_step (base : σ) (steps : List (Step σ)) (s : Step σ) :
    (run base steps).step s = run base (steps ++ [s]) :=
  (List.foldl_concat ..).symm

/-- A transaction whose host ends only the savepoint it set last, and keeps the names of those that
    are still open. -/
structure Nested (σ : Type) where
  db : Open σ
  names : List String := []

/-- What the host of such a transaction does. -/
inductive HostStep (α : Type) where
  | act (a : α)
  | savepoint (name : String)
  | release
  | rollback

namespace Nested
variable {α : Type} (act : α → σ → σ)

/-- One step; ending a savepoint where none is open is refused. -/
def step (t : Nested σ) : HostStep α → Nested σ
  | .act a => { t with db := t.db.step (.apply (act a)) }
  | .savepoint name => ⟨t.db.step (.save name), name :: t.names⟩
  | .release =>
    match t.names with
    | [] => t
    | name :: names => ⟨t.db.step (.release name), names⟩
  | .rollback =>
    match t.names with
    | [] => t
    | name :: names => ⟨t.db.step (.rollback name), names⟩

def run (base : σ) (steps : List (HostStep α)) : Nested σ := steps.foldl (step act) ⟨⟨base, []⟩, []⟩

/-- The steps that were not rolled back, in order. -/
def kept (steps : List (HostStep α)) : List α := (run (fun a log => log ++ [a]) [] steps).db.work

theorem run_concat (base : σ) (steps : List (HostStep α)) (s : HostStep α) :
    run act base (steps ++ [s]) = (run act base steps).step act s := by
  rw [run, List.foldl_append, List.foldl_cons, List.foldl_nil, ← run]

/-- Invariant rule: what holds of the base, is kept by every step as long as it leaves a content
    alone, and holds of what an action makes of the current content, holds of the current content
    and of that of every open savepoint. -/
theorem run_induction (P : List (HostStep α) → σ → Prop) {base : σ} (hbase : P [] base)
    (keep : ∀ steps s x, P steps x → P (steps ++ [s]) x)
    (hact : ∀ steps a, P steps (run act base steps).db.work →
      P (steps ++ [.act a]) (act a (run act base steps).db.work)) (steps : List (HostStep α)) :
    P steps (run act base steps).db.work ∧ ∀ e ∈ (run act base steps).db.saved, P steps e.2 := by
  induction steps using List.reverseRecOn with
  | nil => exact ⟨hbase, nofun⟩
  | append_singleton steps s ih =>
    obtain ⟨hwork, hsaved⟩ := ih
    have hact' := fun a => hact steps a hwork
    rw [run_concat]
    generalize run act base steps = t at hwork hsaved hact'
    obtain ⟨db, names⟩ := t
    have hfrom : ∀ name, ∀ e ∈ db.from_ name, P (steps ++ [s]) e.2 := fun name e he =>
      keep _ _ _ (hsaved e ((List.dropWhile_sublist _).mem he))
    cases s with
    | act a => exact ⟨hact' a, fun e he => keep _ _ _ (hsaved e he)⟩
    | savepoint name =>
      refine ⟨keep _ _ _ hwork, fun e he => ?_⟩
      rcases List.mem_cons.mp he with rfl | he
      · exact keep _ _ _ hwork
      · exact keep _ _ _ (hsaved e he)
    | release =>
      cases names with
      | nil => exact ⟨keep _ _ _ hwork, fun e he => keep _ _ _ (hsaved e he)⟩
      | cons name names =>
        exact ⟨keep _ _ _ hwork, fun e he => hfrom name e (List.mem_of_mem_tail he)⟩
    | rollback =>
      cases names with
      | nil => exact ⟨keep _ _ _ hwork, fun e he => keep _ _ _ (hsaved e he)⟩
      | cons name names =>
        have hf := hfrom name
        simp only [step, Open.step]
        cases hd : db.from_ name with
        | nil => exact ⟨keep _ _ _ hwork, fun e he => keep _ _ _ (hsaved e he)⟩
        | cons e saved =>
          rw [hd] at hf
          exact ⟨hf e (List.mem_cons_self ..), fun x hx => hf x (List.mem_cons_of_mem _ hx)⟩

/-- The same transaction, seen through a function. -/
def map {τ : Type} (f : σ → τ) (t : Nested σ) : Nested τ :=
  ⟨⟨f t.db.work, t.db.saved.map fun e => (e.1, f e.2)⟩, t.names⟩

theorem map_from {τ : Type} (f : σ → τ) (t : Open σ) (name : String) :
    (⟨f t.work, t.saved.map fun e => (e.1, f e.2)⟩ : Open τ).from_ name =
      (t.from_ name).map fun e => (e.1, f e.2) := by
  obtain ⟨work, saved⟩ := t
  simp only [Open.from_]
  induction saved with
  | nil => rfl
  | cons e saved ih =>
    rw [List.map_cons, List.dropWhile_cons, List.dropWhile_cons]
    split
    · exact ih
    · rfl

theorem map_step {τ : Type} {act' : α → τ → τ} {f : σ → τ} (h : ∀ a s, f (act a s) = act' a (f s))
    (t : Nested σ) (s : HostStep α) : (t.step act s).map f = (t.map f).step act' s := by
  obtain ⟨db, names⟩ := t
  cases s with
  | act a =>
    simp only [step, map, Open.step, h]
  | savepoint name => rfl
  | release =>
    cases names with
    | nil => rfl
    | cons name names =>
      simp only [step, map, Open.step, map_from, List.map_tail]
  | rollback =>
    cases names with
    | nil => rfl
    | cons name names =>
      simp only [step, map, Open.step, map_from]
      cases db.from_ name <;> rfl

theorem map_run {τ : Type} {act' : α → τ → τ} {f : σ → τ} (h : ∀ a s, f (act a s) = act' a (f s))
    (base : σ) (steps : List (HostStep α)) : (run act base steps).map f = run act' (f base) steps := by
  induction steps using List.reverseRecOn with
  | nil => rfl
  | append_singleton steps s ih => rw [run_concat, run_concat, map_step act h, ih]

/-- Whatever is rolled back, the content is what the steps that were not make of the base. -/
theorem run_kept (base : σ) (steps : List (HostStep α)) :
    (run act base steps).db.work = (kept steps).foldl (fun s a => act a s) base := by
  have hact : ∀ (a : α) (log : List α), (log ++ [a]).foldl (fun s a => act a s) base =
      act a (log.foldl (fun s a => act a s) base) :=
    fun a log => by rw [List.foldl_append, List.foldl_cons, List.foldl_nil]
  have h := map_run (fun a log => log ++ [a]) hact [] steps
  rw [List.foldl_nil] at h
  rw [← h]
  rfl

end Nested

end Savepoints
