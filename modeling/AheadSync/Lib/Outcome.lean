import Mathlib.Data.List.Nodup

/-! Reasoning about computations that answer a result or an error: what a successful sequence, loop
    or check says about its parts, and the rule that carries an invariant through a loop. -/

namespace Except
variable {ε α β : Type}

/-- A sequence succeeds when its first part does and the rest succeeds on its answer. -/
@[simp] theorem bind_eq_ok {x : Except ε α} {f : α → Except ε β} {b : β} :
    (x >>= f) = .ok b ↔ ∃ a, x = .ok a ∧ f a = .ok b := by
  cases x <;> simp [bind, Except.bind]

@[simp] theorem pure_eq_ok {a b : α} : (pure a : Except ε α) = .ok b ↔ a = b := by
  simp [pure, Except.pure]

@[simp] theorem map_eq_ok {x : Except ε α} {f : α → β} {b : β} :
    (f <$> x) = .ok b ↔ ∃ a, x = .ok a ∧ f a = b := by
  cases x <;> simp [Functor.map, Except.map]

@[simp] theorem mapError_eq_ok {ε' : Type} {x : Except ε α} {f : ε → ε'} {a : α} :
    x.mapError f = .ok a ↔ x = .ok a := by
  cases x <;> simp [Except.mapError]

/-- A computation that succeeds with nothing fails. -/
theorem exists_error {x : Except ε α} (h : ¬∃ a, x = .ok a) : ∃ err, x = .error err := by
  cases x with
  | ok a => exact absurd ⟨a, rfl⟩ h
  | error err => exact ⟨err, rfl⟩

theorem exists_ok {x : Except ε α} (h : x.isOk = true) : ∃ a, x = .ok a := by
  cases x with
  | ok a => exact ⟨a, rfl⟩
  | error err => cases h

theorem eq_ok_of_toOption {x : Except ε α} {a : α} (h : x.toOption = some a) : x = .ok a := by
  cases x with
  | ok b => exact congrArg _ (Option.some.inj h)
  | error err => cases h

@[simp] theorem throw_ne_ok {e : ε} {b : β} : ¬(throw e : Except ε β) = .ok b := nofun

@[simp] theorem ok_bind (a : α) (f : α → Except ε β) : (Except.ok a >>= f) = f a := rfl

@[simp] theorem error_bind (e : ε) (f : α → Except ε β) :
    ((Except.error e : Except ε α) >>= f) = .error e := rfl

end Except

/-- Succeed when `c` holds, else fail with `message`. -/
def ensure {ε : Type} (c : Prop) [Decidable c] (message : ε) : Except ε Unit :=
  if c then .ok () else .error message

@[simp] theorem ensure_eq_ok {ε : Type} {c : Prop} [Decidable c] {m : ε} {u : Unit} :
    ensure c m = .ok u ↔ c := by
  unfold ensure; split <;> simp_all

/-- Succeed with what is there, else fail with `message`. -/
def required {ε α : Type} (o : Option α) (message : ε) : Except ε α :=
  match o with
  | some a => .ok a
  | none => .error message

@[simp] theorem required_eq_ok {ε α : Type} {o : Option α} {m : ε} {a : α} :
    required o m = .ok a ↔ o = some a := by
  cases o <;> simp [required]

namespace List
variable {ε α β γ σ κ : Type}

/-- A loop of checks succeeds when every check does. -/
@[simp] theorem forM_eq_ok {f : α → Except ε Unit} {u : Unit} : ∀ {l : List α},
    forM l f = .ok u ↔ ∀ x ∈ l, f x = .ok ()
  | [] => by simp
  | a :: l => by
    simp only [forM_cons, Except.bind_eq_ok, forM_eq_ok (l := l), mem_cons, forall_eq_or_imp]
    exact ⟨fun ⟨_, h⟩ => h, fun h => ⟨(), h⟩⟩

/-- Invariant rule: what every iteration preserves, a successful loop preserves. -/
theorem foldlM_ok_induction {f : σ → α → Except ε σ} (P : σ → Prop) : ∀ {l : List α} {s t : σ},
    (∀ s x t, x ∈ l → P s → f s x = .ok t → P t) → P s → l.foldlM f s = .ok t → P t
  | [], s, t, _, hs, h => by
    obtain rfl : s = t := by simpa using h
    exact hs
  | a :: l, s, t, step, hs, h => by
    simp only [foldlM_cons, Except.bind_eq_ok] at h
    obtain ⟨s', ha, hl⟩ := h
    exact foldlM_ok_induction P (fun s x t hx => step s x t (mem_cons_of_mem _ hx))
      (step s a s' (mem_cons_self ..) hs ha) hl

/-- Refinement rule: when every iteration does to `π` what `g` does, a successful loop does to it what
    the loop of `g` does. -/
theorem foldlM_ok_map {τ : Type} {f : σ → α → Except ε σ} {g : τ → α → τ} (π : σ → τ)
    (step : ∀ s a t, f s a = .ok t → π t = g (π s) a) : ∀ {l : List α} {s t : σ},
    l.foldlM f s = .ok t → π t = l.foldl g (π s)
  | [], s, t, h => by
    obtain rfl : s = t := by simpa using h
    rfl
  | a :: l, s, t, h => by
    simp only [foldlM_cons, Except.bind_eq_ok] at h
    obtain ⟨s', ha, hl⟩ := h
    rw [foldlM_ok_map π step hl, step s a s' ha, foldl_cons]

/-- Progress rule: a loop whose every iteration succeeds under an invariant succeeds. -/
theorem foldlM_ok_of {f : σ → α → Except ε σ} (P : σ → Prop) : ∀ {l : List α} {s : σ},
    (∀ s x, x ∈ l → P s → ∃ t, f s x = .ok t ∧ P t) → P s → ∃ t, l.foldlM f s = .ok t ∧ P t
  | [], s, _, hs => ⟨s, by simp [pure, Except.pure], hs⟩
  | a :: l, s, step, hs => by
    obtain ⟨s', ha, hs'⟩ := step s a (mem_cons_self ..) hs
    obtain ⟨t, ht, hPt⟩ := foldlM_ok_of P (fun s x hx => step s x (mem_cons_of_mem _ hx)) hs'
    exact ⟨t, by rw [foldlM_cons, ha]; exact ht, hPt⟩

/-- A loop whose every iteration changes nothing changes nothing. -/
theorem foldlM_still {f : σ → α → Except ε σ} {s : σ} : ∀ {l : List α},
    (∀ a ∈ l, f s a = .ok s) → l.foldlM f s = .ok s
  | [], _ => rfl
  | a :: l, h => by
    rw [foldlM_cons, h a (mem_cons_self ..)]
    exact foldlM_still fun x hx => h x (mem_cons_of_mem _ hx)

/-- A loop over keys whose iteration establishes a property of its key and keeps that of the others
    establishes it of every key, when it held of those the loop does not visit. -/
theorem foldlM_ok_establishes {f : σ → α → Except ε σ} (P : σ → Prop) {Q : σ → α → Prop} :
    ∀ {l : List α} {s t : σ},
    (∀ s a t, a ∈ l → P s → f s a = .ok t → P t ∧ Q t a ∧ ∀ b, Q s b → Q t b) →
    P s → (∀ b, b ∉ l → Q s b) → l.foldlM f s = .ok t → P t ∧ ∀ b, Q t b
  | [], s, t, _, hs, hQ, h => by
    obtain rfl : s = t := by simpa using h
    exact ⟨hs, fun b => hQ b not_mem_nil⟩
  | a :: l, s, t, step, hs, hQ, h => by
    simp only [foldlM_cons, Except.bind_eq_ok] at h
    obtain ⟨s', ha, hl⟩ := h
    obtain ⟨hs', ha', hkeep⟩ := step s a s' (mem_cons_self ..) hs ha
    refine foldlM_ok_establishes P (fun s x t hx => step s x t (mem_cons_of_mem _ hx)) hs'
      (fun b hb => ?_) hl
    by_cases hba : b = a
    · exact hba ▸ ha'
    · exact hkeep b (hQ b (by simp [hba, hb]))

/-- Every iteration of a loop meets its guard in the state the loop reaches it in. -/
def Guarded (f : σ → α → Except ε σ) (guard : σ → α → Prop) : σ → List α → Prop
  | _, [] => True
  | s, a :: l => guard s a ∧ ∀ t, f s a = .ok t → Guarded f guard t l

theorem guarded_of {f : σ → α → Except ε σ} {guard : σ → α → Prop} (h : ∀ s a, guard s a) :
    ∀ {l : List α} {s : σ}, Guarded f guard s l
  | [], _ => trivial
  | a :: _, s => ⟨h s a, fun _ _ => guarded_of h⟩

/-- Invariant rule for a loop whose iterations meet their guards. -/
theorem foldlM_guarded_induction {f : σ → α → Except ε σ} {guard : σ → α → Prop} (P : σ → Prop) :
    ∀ {l : List α} {s t : σ}, (∀ s x t, x ∈ l → P s → guard s x → f s x = .ok t → P t) →
    Guarded f guard s l → P s → l.foldlM f s = .ok t → P t
  | [], s, t, _, _, hs, h => by
    obtain rfl : s = t := by simpa using h
    exact hs
  | a :: l, s, t, step, hg, hs, h => by
    simp only [foldlM_cons, Except.bind_eq_ok] at h
    obtain ⟨s', ha, hl⟩ := h
    exact foldlM_guarded_induction P (fun s x t hx => step s x t (mem_cons_of_mem _ hx))
      (hg.2 s' ha) (step s a s' (mem_cons_self ..) hs hg.1 ha) hl

/-- When each iteration succeeds exactly under its guard, the loop succeeds exactly when every
    iteration meets it. -/
theorem foldlM_ok_iff_guarded {f : σ → α → Except ε σ} {guard : σ → α → Prop} (P : σ → Prop) :
    ∀ {l : List α} {s : σ},
    (∀ s a t, a ∈ l → P s → f s a = .ok t → P t) →
    (∀ s a, a ∈ l → P s → ((∃ t, f s a = .ok t) ↔ guard s a)) → P s →
      ((∃ t, l.foldlM f s = .ok t) ↔ Guarded f guard s l)
  | [], s, _, _, _ => by simp [Guarded, pure, Except.pure]
  | a :: l, s, keep, iff, hs => by
    have ih := fun t (ht : P t) => foldlM_ok_iff_guarded P (l := l) (s := t)
      (fun s x t hx => keep s x t (mem_cons_of_mem _ hx))
      (fun s x hx => iff s x (mem_cons_of_mem _ hx)) ht
    have hhead := iff s a (mem_cons_self ..) hs
    simp only [foldlM_cons, Except.bind_eq_ok, Guarded]
    constructor
    · rintro ⟨t, s', ha, hl⟩
      refine ⟨hhead.mp ⟨s', ha⟩, fun t' ht' => ?_⟩
      obtain rfl : s' = t' := Except.ok.inj (ha.symm.trans ht')
      exact (ih s' (keep s a s' (mem_cons_self ..) hs ha)).mp ⟨t, hl⟩
    · rintro ⟨hg, hrest⟩
      obtain ⟨s', ha⟩ := hhead.mpr hg
      obtain ⟨t, hl⟩ := (ih s' (keep s a s' (mem_cons_self ..) hs ha)).mpr (hrest s' ha)
      exact ⟨t, s', ha, hl⟩

/-- A successful map answers the elements' answers in order. -/
theorem mapM_eq_ok_iff {f : α → Except ε β} : ∀ {l : List α} {r : List β},
    l.mapM f = .ok r ↔ List.Forall₂ (fun a b => f a = .ok b) l r
  | [], [] => by simp
  | [], b :: r => ⟨fun h => by simp at h, fun h => nomatch h⟩
  | a :: l, r => by
    simp only [mapM_cons, Except.bind_eq_ok, Except.pure_eq_ok]
    constructor
    · rintro ⟨b, hb, bs, hbs, rfl⟩
      exact .cons hb (mapM_eq_ok_iff.mp hbs)
    · rintro (_ | ⟨hb, hbs⟩)
      exact ⟨_, hb, _, mapM_eq_ok_iff.mpr hbs, rfl⟩

/-- Lists related element by element: what relates to an element of the second. -/
theorem forall₂_mem {R : α → β → Prop} {l : List α} {m : List β} (h : Forall₂ R l m) {b : β}
    (hb : b ∈ m) : ∃ a ∈ l, R a b := by
  induction h with
  | nil => cases hb
  | cons hr _ ih =>
    rcases mem_cons.mp hb with rfl | hb
    · exact ⟨_, mem_cons_self .., hr⟩
    · obtain ⟨a, ha, hab⟩ := ih hb
      exact ⟨a, mem_cons_of_mem _ ha, hab⟩

/-- What an element of the first relates to. -/
theorem forall₂_mem_left {R : α → β → Prop} {l : List α} {m : List β} (h : Forall₂ R l m) {a : α}
    (ha : a ∈ l) : ∃ b ∈ m, R a b := by
  induction h with
  | nil => cases ha
  | cons hr _ ih =>
    rcases mem_cons.mp ha with rfl | ha
    · exact ⟨_, mem_cons_self .., hr⟩
    · obtain ⟨b, hb, hab⟩ := ih ha
      exact ⟨b, mem_cons_of_mem _ hb, hab⟩

theorem forall₂_trans {R : α → α → Prop} (ht : ∀ a b c, R a b → R b c → R a c) :
    ∀ {l m n : List α}, Forall₂ R l m → Forall₂ R m n → Forall₂ R l n
  | _, _, _, .nil, .nil => .nil
  | _, _, _, .cons h hs, .cons h' hs' => .cons (ht _ _ _ h h') (forall₂_trans ht hs hs')

/-- Every answer of a successful map is the answer to an element. -/
theorem mapM_mem {f : α → Except ε β} {l : List α} {r : List β} (h : l.mapM f = .ok r) {b : β}
    (hb : b ∈ r) : ∃ a ∈ l, f a = .ok b :=
  forall₂_mem (R := fun a b => f a = .ok b) (mapM_eq_ok_iff.mp h) hb

/-- A successful map is the plain map of what each element answers. -/
theorem mapM_eq_ok_map [Inhabited β] {f : α → Except ε β} {l : List α} {r : List β}
    (h : l.mapM f = .ok r) :
    ∃ g : α → β, (∀ a ∈ l, f a = .ok (g a)) ∧ r = l.map g := by
  refine ⟨fun a => match f a with | .ok b => b | .error _ => default, ?_⟩
  induction l generalizing r with
  | nil => simpa [pure, Except.pure] using h.symm
  | cons a l ih =>
    simp only [mapM_cons, Except.bind_eq_ok, Except.pure_eq_ok] at h
    obtain ⟨b, hb, bs, hbs, rfl⟩ := h
    obtain ⟨hall, rfl⟩ := ih hbs
    refine ⟨fun x hx => ?_, by simp [hb]⟩
    rcases mem_cons.mp hx with rfl | hx
    · simp [hb]
    · exact hall x hx

/-- A map succeeds when every element is answered. -/
theorem mapM_ok_iff {f : α → Except ε β} : ∀ {l : List α},
    (∃ r, l.mapM f = .ok r) ↔ ∀ a ∈ l, ∃ b, f a = .ok b
  | [] => by simp [pure, Except.pure]
  | a :: l => by
    simp only [mapM_cons, Except.bind_eq_ok, Except.pure_eq_ok, mem_cons, forall_eq_or_imp,
      ← mapM_ok_iff (l := l)]
    constructor
    · rintro ⟨_, b, hb, bs, hbs, -⟩; exact ⟨⟨b, hb⟩, bs, hbs⟩
    · rintro ⟨⟨b, hb⟩, bs, hbs⟩; exact ⟨_, b, hb, bs, hbs, rfl⟩

/-- A map over images succeeds when each element's image has a result in relation to it. -/
theorem mapM_map_eq_ok {m : α → γ} {f : γ → Except ε β} {R : α → β → Prop} : ∀ {l : List α},
    (∀ a ∈ l, ∃ b, f (m a) = .ok b ∧ R a b) →
      ∃ r, (l.map m).mapM f = .ok r ∧ Forall₂ R l r
  | [], _ => ⟨[], rfl, .nil⟩
  | a :: l, h => by
    obtain ⟨b, hb, hab⟩ := h a (mem_cons_self ..)
    obtain ⟨r, hr, hall⟩ := mapM_map_eq_ok fun x hx => h x (mem_cons_of_mem _ hx)
    refine ⟨b :: r, ?_, .cons hab hall⟩
    rw [map_cons, mapM_cons, hb, Except.ok_bind, hr]
    rfl

theorem mapM_eq_ok_of {f : α → Except ε β} {g : α → β} : ∀ {l : List α},
    (∀ a ∈ l, f a = .ok (g a)) → l.mapM f = .ok (l.map g)
  | [], _ => rfl
  | a :: l, h => by
    rw [mapM_cons, h a (mem_cons_self ..), mapM_eq_ok_of fun x hx => h x (mem_cons_of_mem _ hx)]
    rfl

/-- A loop that refuses a key it has seen succeeds when the keys differ and every other check of an
    element does. -/
theorem foldlM_seen_ok_iff {k : α → κ} {f : List κ → α → Except ε (List κ)} {Q : α → Prop} :
    ∀ {l : List α} {s : List κ},
    (∀ seen, ∀ a ∈ l, ∀ out, f seen a = .ok out ↔ (k a ∉ seen ∧ Q a) ∧ k a :: seen = out) →
      ((∃ out, l.foldlM f s = .ok out) ↔
        (l.map k).Nodup ∧ (∀ a ∈ l, k a ∉ s) ∧ ∀ a ∈ l, Q a)
  | [], seen, _ => by simp [pure, Except.pure]
  | a :: l, seen, step => by
    have ih := foldlM_seen_ok_iff (l := l) (s := k a :: seen)
      fun seen x hx => step seen x (mem_cons_of_mem _ hx)
    simp only [foldlM_cons, Except.bind_eq_ok, step seen a (mem_cons_self ..), map_cons,
      nodup_cons, mem_map, not_exists, not_and, mem_cons, forall_eq_or_imp]
    simp only [mem_cons, not_or, forall_and] at ih
    constructor
    · rintro ⟨out, _, ⟨⟨hseen, hQ⟩, rfl⟩, hout⟩
      obtain ⟨hnd, ⟨hne, hrest⟩, hQs⟩ := ih.mp ⟨out, hout⟩
      exact ⟨⟨hne, hnd⟩, ⟨hseen, hrest⟩, hQ, hQs⟩
    · rintro ⟨⟨hne, hnd⟩, ⟨hseen, hrest⟩, hQ, hQs⟩
      obtain ⟨out, hout⟩ := ih.mpr ⟨hnd, ⟨hne, hrest⟩, hQs⟩
      exact ⟨out, _, ⟨⟨hseen, hQ⟩, rfl⟩, hout⟩

/-- Such a loop answers the keys it has seen. -/
theorem foldlM_seen_out {k : α → κ} {f : List κ → α → Except ε (List κ)} :
    ∀ {l : List α} {s out : List κ},
    (∀ seen a out, f seen a = .ok out → k a :: seen = out) → l.foldlM f s = .ok out →
      out = (l.map k).reverse ++ s
  | [], seen, out, _, h => by simpa [pure, Except.pure, eq_comm] using h
  | a :: l, seen, out, step, h => by
    simp only [foldlM_cons, Except.bind_eq_ok] at h
    obtain ⟨mid, hmid, hrest⟩ := h
    obtain rfl := step seen a mid hmid
    simp [foldlM_seen_out step hrest]

/-- A map over two related lists. -/
theorem mapM_zip_eq_ok {R : α → β → Prop} {f : α × β → Except ε γ} : ∀ {l : List α} {m : List β}
    {out : List γ}, Forall₂ R l m → (l.zip m).mapM f = .ok out →
      Forall₂ (fun a c => ∃ b, R a b ∧ f (a, b) = .ok c) l out ∧
        Forall₂ (fun b c => ∃ a, R a b ∧ f (a, b) = .ok c) m out
  | _, _, out, .nil, h => by
    obtain rfl : [] = out := by simpa [pure, Except.pure] using h
    exact ⟨.nil, .nil⟩
  | _, _, out, .cons hr hs, h => by
    simp only [zip_cons_cons, mapM_cons, Except.bind_eq_ok, Except.pure_eq_ok] at h
    obtain ⟨c, hc, cs, hcs, rfl⟩ := h
    have ih := mapM_zip_eq_ok hs hcs
    exact ⟨.cons ⟨_, hr, hc⟩ ih.1, .cons ⟨_, hr, hc⟩ ih.2⟩

/-- Among elements of different keys, an element is found under its own. -/
theorem find?_key [DecidableEq κ] {key : α → κ} {l : List α} (hnd : (l.map key).Nodup) {a : α}
    (ha : a ∈ l) : l.find? (key · = key a) = some a := by
  obtain ⟨b, hb⟩ : ∃ b, l.find? (key · = key a) = some b :=
    Option.isSome_iff_exists.mp (find?_isSome.mpr ⟨a, ha, by simp⟩)
  rw [hb, inj_on_of_nodup_map hnd (mem_of_find?_eq_some hb) ha (by simpa using find?_some hb)]

/-- Lists related element by element, searched by tests that agree on related elements. -/
theorem forall₂_find? {R : α → β → Prop} {p : α → Bool} {q : β → Bool}
    (hpq : ∀ a b, R a b → p a = q b) : ∀ {l : List α} {m : List β} {a : α}, Forall₂ R l m →
      l.find? p = some a → ∃ b, m.find? q = some b ∧ R a b
  | _, _, a, .nil, h => by cases h
  | x :: _, y :: _, a, .cons hr hs, h => by
    rw [find?_cons] at h ⊢
    rw [← hpq x y hr]
    split at h
    · obtain rfl := Option.some.inj h
      exact ⟨y, rfl, hr⟩
    · exact forall₂_find? hpq hs h

end List
