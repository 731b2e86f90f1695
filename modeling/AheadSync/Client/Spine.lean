import AheadSync.Client.Footprint
import AheadSync.Client.Reopen

/-! What every call leaves of the queue. The spine of a store is its counters and its queue without
    what rows and replays write to it: the effects of cascades, the diverged marks and the
    prerequisites still out. Whatever stages, rebuilds or writes rows keeps the spine, for any
    schema and on any store. -/

namespace AheadSync

def Queued.spine (q : Queued) : Queued :=
  { q with diverged := false, mutation := { q.mutation with effects := [], prerequisites := [] } }

def Store.spine (st : Store) : Store :=
  { st with
    main := ∅, before := ∅, stamps := ∅, subscriptions := .empty, rejections := .empty
    queue := st.queue.map Queued.spine }

section Spine
variable {e : Engine} {st st' : Store} {key : RecordKey} {row : Option Value}

/-- Changing what the spine leaves out of every mutation. -/
theorem spine_map {f : Queued → Queued} (hf : ∀ q, (f q).spine = q.spine) :
    ({ st with queue := st.queue.map f } : Store).spine = st.spine := by
  simp only [Store.spine, List.map_map]
  congr 1
  exact List.map_congr_left fun q _ => hf q

theorem spine_modify {ordinal : ℕ} {f : Queued → Queued} (hf : ∀ q, (f q).spine = q.spine) :
    (st.modify ordinal f).spine = st.spine :=
  spine_map fun q => by split <;> simp [hf]

@[simp] theorem spine_resolvePrerequisite {name : String} :
    (st.resolvePrerequisite name).spine = st.spine :=
  spine_map fun _ => rfl

/-- No write of the engine reaches the spine. -/
theorem within_spine (e : Engine) : Within e fun st st' => st'.spine = st.spine where
  refl _ := rfl
  trans h h' := h'.trans h
  main := by
    intro st st' key row h
    cases row with
    | none => obtain ⟨-, rfl⟩ := mainSet_none_eq_ok.mp h; rfl
    | some row => obtain ⟨_, -, -, -, rfl⟩ := mainSet_some_eq_ok.mp h; rfl
  before := by
    intro st st' key row h
    cases row with
    | none => obtain ⟨-, rfl⟩ := beforeSet_none_eq_ok.mp h; rfl
    | some row => obtain ⟨_, -, -, rfl⟩ := beforeSet_some_eq_ok.mp h; rfl
  aside st key := by
    unfold Store.copyAside
    split <;> rfl
  mark st n := by
    cases n with
    | none => rfl
    | some n => exact spine_modify fun _ => rfl
  effect := by
    intro st st' n op h
    simp only [Engine.addEffect, Except.bind_eq_ok, Except.pure_eq_ok] at h
    obtain ⟨op', -, rfl⟩ := h
    exact spine_modify fun _ => rfl
  stamp _ _ _ _ := rfl
  subscriptions _ _ := rfl

/-- Deleting mutations of one spine leaves one spine. -/
theorem spine_delete (h : st'.spine = st.spine) (ns : List ℕ) :
    (st'.deleteMutations ns).spine = (st.deleteMutations ns).spine := by
  have hside : ∀ s : Store, (s.deleteMutations ns).spine = s.spine.deleteMutations ns := by
    intro s
    simp only [Store.spine, Store.deleteMutations, List.filter_map, List.map_map]
    rfl
  rw [hside, hside, h]

/-- Reopening for another schema writes rows. -/
theorem spine_reconcile {old new : Schema} (h : reconcile old new st = .ok st') :
    st'.spine = st.spine := by
  refine List.foldlM_ok_induction (fun s => s.spine = st.spine) (fun s model t _ hs ht => ?_) rfl h
  rw [← hs]
  unfold reconcileModel at ht
  split at ht
  · cases ht; rfl
  · simp only [Except.bind_eq_ok, Except.pure_eq_ok] at ht
    obtain ⟨-, -, added, -, -, -, rfl⟩ := ht
    rfl

end Spine

end AheadSync
