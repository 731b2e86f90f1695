import Mathlib.Tactic.Common

/-! Computations over a state whose steps may fail, and which a crash may cut short before any step. -/

namespace Stepwise
variable {σ α β : Type}

/-- What becomes of a step. -/
inductive Outcome | done | failed | crashed
  deriving DecidableEq

/-- Why a computation stops. -/
inductive Stop | failed (message : String) | crashed
  deriving DecidableEq

/-- A computation leaves the state as it is where it stops. -/
def Run (σ α : Type) : Type := σ → Except Stop α × σ

namespace Run

instance : Monad (Run σ) where
  pure a s := (.ok a, s)
  bind x f s := match x s with
    | (.ok a, s') => f a s'
    | (.error e, s') => (.error e, s')

def fail (message : String) : Run σ α := fun s => (.error (.failed message), s)

/-- A step, before what it does to the state. -/
def step : Outcome → Run σ Unit
  | .done => pure ()
  | .failed => fail "step failed"
  | .crashed => fun s => (.error .crashed, s)

def lift : Except String α → Run σ α
  | .ok a => pure a
  | .error message => fail message

def observe (f : σ → α) : Run σ α := fun s => (.ok (f s), s)

def update (f : σ → σ) : Run σ Unit := fun s => (.ok (), f s)

/-- A loop. -/
def each (f : α → Run σ Unit) : List α → Run σ Unit
  | [] => pure ()
  | a :: l => do
    f a
    each f l

/-- A failure is answered by a default; a crash is not. -/
def orElse (x : Run σ α) (a : α) : Run σ α := fun s =>
  match x s with
  | (.error (.failed _), s') => (.ok a, s')
  | r => r

section Ok
variable {s s' : σ} {a b : α}

@[simp] theorem pure_eq_ok : (pure a : Run σ α) s = (.ok b, s') ↔ a = b ∧ s = s' := by
  rw [show (pure a : Run σ α) s = (.ok a, s) from rfl, Prod.mk.injEq, Except.ok.injEq]

@[simp] theorem fail_eq_ok {message : String} : (fail message : Run σ α) s = (.ok b, s') ↔ False := by
  simp [fail]

@[simp] theorem step_eq_ok {o : Outcome} {u : Unit} : (step o : Run σ Unit) s = (.ok u, s') ↔
    o = .done ∧ s = s' := by
  cases o with
  | done => simp [step]
  | failed => simp [step]
  | crashed => simp [step]

@[simp] theorem lift_eq_ok {x : Except String α} : (lift x : Run σ α) s = (.ok b, s') ↔
    x = .ok b ∧ s = s' := by
  cases x with
  | ok a => simp [lift]
  | error message => simp [lift]

@[simp] theorem observe_eq_ok {f : σ → α} : observe f s = (.ok b, s') ↔ f s = b ∧ s = s' := by
  simp [observe]

@[simp] theorem update_eq_ok {f : σ → σ} {u : Unit} : update f s = (.ok u, s') ↔ f s = s' := by
  simp [update]

theorem bind_def (x : Run σ α) (f : α → Run σ β) (s : σ) : (x >>= f) s =
    match x s with
    | (.ok a, s') => f a s'
    | (.error e, s') => (.error e, s') := by
  rfl

@[simp] theorem bind_eq_ok {x : Run σ α} {f : α → Run σ β} {c : β} : (x >>= f) s = (.ok c, s') ↔
    ∃ a t, x s = (.ok a, t) ∧ f a t = (.ok c, s') := by
  rw [bind_def]
  rcases x s with ⟨_ | a, t⟩
  · simp
  · simp

end Ok

section Eval
variable {s t : σ} {a b : α}

theorem bind_of_ok {x : Run σ α} {f : α → Run σ β} (h : x s = (.ok a, t)) : (x >>= f) s = f a t := by
  rw [bind_def, h]

theorem bind_of_error {x : Run σ α} {f : α → Run σ β} {e : Stop} (h : x s = (.error e, t)) :
    (x >>= f) s = (.error e, t) := by
  rw [bind_def, h]

theorem step_of_done {o : Outcome} (h : o = .done) : (step o : Run σ Unit) s = (.ok (), s) := by
  subst h
  rfl

theorem step_of_failed {o : Outcome} (h : o = .failed) :
    (step o : Run σ Unit) s = (.error (.failed "step failed"), s) := by
  subst h
  rfl

theorem orElse_of_ok {x : Run σ α} (h : x s = (.ok b, t)) : orElse x a s = (.ok b, t) := by
  rw [orElse, h]

theorem orElse_of_failed {x : Run σ α} {message : String} (h : x s = (.error (.failed message), t)) :
    orElse x a s = (.ok a, t) := by
  rw [orElse, h]

/-- A loop of steps alone. -/
theorem each_step_eq_ok {f : β → Outcome} {u : Unit} : ∀ {l : List β} {s t : σ},
    each (fun b => (step (f b) : Run σ Unit)) l s = (.ok u, t) ↔ (∀ b ∈ l, f b = .done) ∧ s = t
  | [], s, t => by
    rw [each, pure_eq_ok]
    simp
  | b :: l, s, t => by
    rw [each, bind_eq_ok]
    simp only [step_eq_ok, List.forall_mem_cons]
    constructor
    · rintro ⟨_, m, ⟨hb, rfl⟩, hl⟩
      obtain ⟨hdone, heq⟩ := each_step_eq_ok.mp hl
      exact ⟨⟨hb, hdone⟩, heq⟩
    · rintro ⟨⟨hb, hl⟩, rfl⟩
      exact ⟨(), s, ⟨hb, rfl⟩, each_step_eq_ok.mpr ⟨hl, rfl⟩⟩

/-- A loop whose turns all return folds over the state. -/
theorem each_of_ok {f : β → Run σ Unit} {g : σ → β → σ} : ∀ {l : List β} {s : σ},
    (∀ b ∈ l, ∀ s, f b s = (.ok (), g s b)) → each f l s = (.ok (), l.foldl g s)
  | [], s, _ => rfl
  | b :: l, s, h => by
    rw [each, bind_of_ok (h b (List.mem_cons_self ..) s), List.foldl_cons]
    exact each_of_ok fun b hb => h b (List.mem_cons_of_mem _ hb)

end Eval

/-- From states that meet `P` the computation returns in one that meets `Q`, or stops in one that
    meets `E`. -/
def Meets (P : σ → Prop) (x : Run σ α) (Q : α → σ → Prop) (E : σ → Prop) : Prop :=
  ∀ s, P s → match x s with
    | (.ok a, s') => Q a s'
    | (.error _, s') => E s'

section Meets
variable {P P' : σ → Prop} {Q Q' : α → σ → Prop} {R : β → σ → Prop} {E : σ → Prop} {x : Run σ α}

theorem meets_pure {a : α} (h : ∀ s, P s → Q a s) : Meets P (pure a) Q E := h

theorem meets_fail {message : String} (h : ∀ s, P s → E s) : Meets P (fail message) Q E := h

theorem meets_step {o : Outcome} {Q : Unit → σ → Prop} (h : ∀ s, P s → Q () s) (he : ∀ s, P s → E s) :
    Meets P (step o) Q E := by
  cases o with
  | done => exact h
  | failed => exact he
  | crashed => exact he

theorem meets_lift {r : Except String α} (h : ∀ s a, r = .ok a → P s → Q a s) (he : ∀ s, P s → E s) :
    Meets P (lift r) Q E := by
  cases r with
  | ok a => exact fun s => h s a rfl
  | error message => exact he

theorem meets_observe {f : σ → α} (h : ∀ s, P s → Q (f s) s) : Meets P (observe f) Q E := h

theorem meets_update {f : σ → σ} {Q : Unit → σ → Prop} (h : ∀ s, P s → Q () (f s)) :
    Meets P (update f) Q E := h

theorem meets_bind {f : α → Run σ β} (hx : Meets P x Q E) (hf : ∀ a, Meets (Q a) (f a) R E) :
    Meets P (x >>= f) R E := by
  intro s hs
  have h := hx s hs
  rw [bind_def]
  rcases hr : x s with ⟨_ | a, t⟩
  · rw [hr] at h
    exact h
  · rw [hr] at h
    exact hf a t h

theorem meets_orElse {a : α} (hx : Meets P x Q E) (he : ∀ s, E s → Q a s) : Meets P (orElse x a) Q E := by
  intro s hs
  have h := hx s hs
  rw [orElse]
  rcases hr : x s with ⟨(_ | _) | _, t⟩
  all_goals rw [hr] at h
  · exact he t h
  · exact h
  · exact h

theorem meets_each {f : α → Run σ Unit} : ∀ {l : List α},
    (∀ a ∈ l, Meets P (f a) (fun _ => P) E) → Meets P (each f l) (fun _ => P) E
  | [], _ => meets_pure fun _ h => h
  | a :: _, hf => meets_bind (hf a (List.mem_cons_self ..)) fun _ =>
    meets_each fun b hb => hf b (List.mem_cons_of_mem _ hb)

theorem meets_mono (h : Meets P x Q E) (hp : ∀ s, P' s → P s) (hq : ∀ a s, Q a s → Q' a s)
    {E' : σ → Prop} (he : ∀ s, E s → E' s) : Meets P' x Q' E' := by
  intro s hs
  have h := h s (hp s hs)
  rcases hr : x s with ⟨_ | a, t⟩
  · rw [hr] at h
    exact he t h
  · rw [hr] at h
    exact hq a t h

theorem meets_of_forall (h : ∀ s, P s → Meets (· = s) x Q E) : Meets P x Q E := fun s hs => h s hs s rfl

/-- What is left in every case. -/
theorem meets_left {s : σ} (h : Meets (· = s) x (fun _ => P) P) : P (x s).2 := by
  have h := h s rfl
  rcases hr : x s with ⟨_ | a, t⟩
  · rwa [hr] at h
  · rwa [hr] at h

/-- A step that does not fail is there to see, or cut short. -/
theorem meets_forgiven {o : Outcome} {f : σ → α} {a : α} {s : σ} (h : f s ≠ a → o ≠ .failed) :
    Meets (· = s) (orElse (do step o; observe f) a) (fun b t => b = f s ∧ t = s) (· = s) := by
  rintro t rfl
  cases o with
  | done => exact ⟨rfl, rfl⟩
  | failed => exact ⟨(not_not.mp fun hne => h hne rfl).symm, rfl⟩
  | crashed => exact (rfl : t = t)

end Meets
end Run
end Stepwise
