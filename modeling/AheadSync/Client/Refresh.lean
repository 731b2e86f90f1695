import AheadSync.Client.Stage

/-! What finishing a delivery does to the queue: rebuilding marks mutations, and extending queued
    deletes appends deletions to their effects. Nothing that is sent or waited for changes. -/

namespace AheadSync

/-- The only changes a queued mutation sees before it leaves the queue: the mark, and further
    deletions among its effects. -/
structure Grown (q q' : Queued) : Prop where
  ordinal : q'.ordinal = q.ordinal
  push : q'.push = q.push
  diverged : q.diverged = true → q'.diverged = true
  mutation : ∃ extra : List RecordKey, q'.mutation =
    { q.mutation with effects := q.mutation.effects ++ extra.map deleteOf }

theorem grown_refl (q : Queued) : Grown q q := ⟨rfl, rfl, id, [], by simp⟩

theorem grown_trans {q q' q'' : Queued} (h : Grown q q') (h' : Grown q' q'') : Grown q q'' where
  ordinal := h'.ordinal.trans h.ordinal
  push := h'.push.trans h.push
  diverged := fun hd => h'.diverged (h.diverged hd)
  mutation := by
    obtain ⟨x, hx⟩ := h.mutation
    obtain ⟨y, hy⟩ := h'.mutation
    exact ⟨x ++ y, by rw [hy, hx]; simp⟩

/-- Rows change and queued mutations grow; everything else stays. -/
structure Extends (st st' : Store) : Prop where
  frame : ∃ main before queue, st' = { st with main := main, before := before, queue := queue }
  queue : List.Forall₂ Grown st.queue st'.queue

theorem extends_refl (st : Store) : Extends st st :=
  ⟨⟨_, _, _, rfl⟩, List.forall₂_same.mpr fun q _ => grown_refl q⟩

theorem extends_trans {st st' st'' : Store} (h : Extends st st') (h' : Extends st' st'') :
    Extends st st'' where
  frame := by
    obtain ⟨m, b, q, h⟩ := h.frame
    obtain ⟨m', b', q', h'⟩ := h'.frame
    exact ⟨m', b', q', by rw [h', h]⟩
  queue := List.forall₂_trans (R := Grown) (fun _ _ _ => grown_trans) h.queue h'.queue

/-- A map of the queue whose every change is growth. -/
theorem extends_map {st : Store} {f : Queued → Queued} (hf : ∀ q ∈ st.queue, Grown q (f q))
    (main before : Table RecordKey Value) :
    Extends st { st with main := main, before := before, queue := st.queue.map f } :=
  ⟨⟨_, _, _, rfl⟩, List.forall₂_map_right_iff.mpr (List.forall₂_same.mpr hf)⟩

section Wf
variable {e : Engine} {st st' : Store} {key child : RecordKey} {n : ℕ}

theorem grown_ordinals {l m : List Queued} (h : List.Forall₂ Grown l m) :
    m.map (·.ordinal) = l.map (·.ordinal) := by
  induction h with
  | nil => rfl
  | cons hr _ ih => simp only [List.map_cons, ih, hr.ordinal]

/-- A grown queue is well-formed when its operations are. -/
theorem wf_extends (h : Wf e st) (hx : Extends st st') (hm : RowsOk e st'.main)
    (hb : RowsOk e st'.before) (ho : ∀ q ∈ st'.queue, ∀ op ∈ q.mutation.allOps, OpOk e op) :
    Wf e st' where
  ops := ho
  main := hm
  before := hb
  sorted := by rw [grown_ordinals hx.queue]; exact h.sorted
  fresh := by
    intro q hq
    obtain ⟨q0, hq0, hg⟩ := List.forall₂_mem hx.queue hq
    obtain ⟨_, _, _, hf⟩ := hx.frame
    rw [hg.ordinal, hf]
    exact h.fresh q0 hq0
  deps := by
    intro q hq
    obtain ⟨q0, hq0, hg⟩ := List.forall₂_mem hx.queue hq
    obtain ⟨_, hmut⟩ := hg.mutation
    rw [hg.ordinal, hmut]
    exact h.deps q0 hq0

theorem extends_rebuilt {row : Option Value} : Extends st (st.rebuilt key row) := by
  have h := @extends_map st (fun q =>
      if some q.ordinal = st.failing key then { q with diverged := true } else q)
    (fun q _ => by
      split
      · exact ⟨rfl, rfl, fun _ => rfl, [], by simp⟩
      · exact grown_refl q)
    (st.rebuilt key row).main (st.rebuilt key row).before
  refine ⟨?_, by rw [rebuilt_queue]; exact h.queue⟩
  unfold Store.rebuilt Store.mark
  split
  · exact ⟨_, _, _, rfl⟩
  · exact ⟨_, _, _, rfl⟩

theorem extends_rebuild (h : Wf e st) (hk : Named e key) {failed : Option ℕ}
    (hr : e.rebuild st key = .ok (failed, st')) : Extends st st' := by
  obtain ⟨-, row, -, rfl⟩ := (rebuild_eq_ok h hk).mp hr
  exact extends_rebuilt

/-- `copyAside` writes at most one before image, with the visible row. -/
theorem copyAside_cases (st : Store) (key : RecordKey) : st.copyAside key = st ∨ ∃ row, st.before.lookup key = none ∧
    st.main.lookup key = some row ∧
    st.copyAside key = { st with before := st.before.put key (some row) } := by
  unfold Store.copyAside
  split
  · rename_i row hb hm
    exact Or.inr ⟨row, hb, hm, rfl⟩
  · exact Or.inl rfl

theorem wf_copyAside (h : Wf e st) : Wf e (st.copyAside key) := by
  rcases copyAside_cases st key with heq | ⟨row, -, hm, heq⟩
  · rw [heq]; exact h
  · rw [heq]
    exact wf_before h (rowsOk_put h.before (h.main key row hm).1 (h.main key row hm).2)

theorem extends_copyAside : Extends st (st.copyAside key) := by
  rcases copyAside_cases st key with heq | ⟨row, -, -, heq⟩
  · rw [heq]; exact extends_refl st
  · rw [heq]; exact ⟨⟨_, _, _, rfl⟩, (extends_refl st).queue⟩

theorem wf_holdTruth (h : Wf e st) (key : RecordKey) : Wf e (st.holdTruth key) := by
  unfold Store.holdTruth
  split
  · exact h
  · exact wf_copyAside h

theorem extends_holdTruth (st : Store) (key : RecordKey) : Extends st (st.holdTruth key) := by
  unfold Store.holdTruth
  split
  · exact extends_refl st
  · exact extends_copyAside

/-- Add the deletion of a record to the effects of a mutation. -/
def withEffect (st : Store) (n : ℕ) (child : RecordKey) : Store :=
  st.modify n fun q => { q with mutation := { q.mutation with
    effects := q.mutation.effects ++ [deleteOf child] } }

theorem addEffect_eq (hc : Canonical e child) :
    e.addEffect st n (deleteOf child) = .ok (withEffect st n child) := by
  have hkey : e.opKey (deleteOf child) = .ok child := hc
  simp only [Engine.addEffect, Engine.storedOp, hkey, Except.ok_bind]
  rfl

theorem extends_withEffect : Extends st (withEffect st n child) := by
  refine extends_map (fun q _ => ?_) st.main st.before
  split
  · exact ⟨rfl, rfl, id, [child], rfl⟩
  · exact grown_refl q

theorem wf_withEffect (h : Wf e st) (hc : Canonical e child) : Wf e (withEffect st n child) := by
  refine wf_extends h extends_withEffect h.main h.before fun q hq op hop => ?_
  obtain ⟨q0, hq0, rfl⟩ := List.mem_map.mp hq
  split at hop
  · simp only [Mutation.allOps, ← List.append_assoc, List.mem_append, List.mem_singleton] at hop
    rcases hop with hop | rfl
    · exact h.ops q0 hq0 op (by simpa [Mutation.allOps, or_assoc] using hop)
    · exact opOk_delete hc
  · exact h.ops q0 hq0 op hop

/-- What extending a delete does when the descendant is not covered yet. -/
theorem extendDelete_eq_ok (hc : Canonical e child) {q : Queued} :
    e.extendDelete q st child = .ok st' ↔
      (q.mutation.effects.any (·.key = child) = true ∧ st' = st) ∨
      (q.mutation.effects.any (·.key = child) = false ∧
        ∃ failed, e.rebuild (withEffect (st.holdTruth child) q.ordinal child) child =
          .ok (failed, st')) := by
  unfold Engine.extendDelete
  cases hany : q.mutation.effects.any (·.key = child) with
  | true => simp [eq_comm, pure, Except.pure]
  | false => simp [addEffect_eq hc]

theorem wf_extendDelete (h : Wf e st) (hc : Canonical e child) {q : Queued}
    (hx : e.extendDelete q st child = .ok st') : Wf e st' ∧ Extends st st' := by
  rcases (extendDelete_eq_ok hc).mp hx with ⟨-, rfl⟩ | ⟨-, failed, hr⟩
  · exact ⟨h, extends_refl st'⟩
  · have hwf := wf_withEffect (n := q.ordinal) (wf_holdTruth h child) hc
    have hn := named_of_canonical hc
    exact ⟨wf_rebuild hwf hn hr, extends_trans (extends_holdTruth _ _)
      (extends_trans extends_withEffect (extends_rebuild hwf hn hr))⟩

theorem rebuildStep_eq_ok {acc out : List Report × Store}
    (hs : e.rebuildStep acc key = .ok out) : ∃ failed, e.rebuild acc.2 key = .ok (failed, out.2) := by
  simp only [Engine.rebuildStep, Except.bind_eq_ok, Except.pure_eq_ok] at hs
  obtain ⟨⟨failed, st1⟩, hr, rfl⟩ := hs
  exact ⟨failed, hr⟩

/-- What extending one delete to one descendant keeps, extending every queued delete keeps: the
    mutation is one of the queue the loop started with, and the descendant is accepted. -/
theorem refresh_induction (P : Store → Prop)
    (step : ∀ s q child t, q ∈ st.queue → Canonical e child → P s → Wf e s →
      e.extendDelete q s child = .ok t → P t)
    (h : Wf e st) (hP : P st) (hr : e.refreshPending st = .ok st') : P st' ∧ Wf e st' := by
  refine List.foldlM_ok_induction (fun s => P s ∧ Wf e s) ?_ ⟨hP, h⟩ hr
  intro s q t hq hs hstep
  refine List.foldlM_ok_induction (fun s => P s ∧ Wf e s) ?_ hs hstep
  intro s op t _ hs hop
  simp only [Engine.extendOp, Except.bind_eq_ok] at hop
  obtain ⟨parent, -, found, hf, hfold⟩ := hop
  refine List.foldlM_ok_induction (fun s => P s ∧ Wf e s) ?_ hs hfold
  intro s' child t' hchild hs' hx
  have hc := (mem_descendants hs.2 hf hchild).1
  exact ⟨step s' q child t' hq hc hs'.1 hs'.2 hx, (wf_extendDelete hs'.2 hc hx).1⟩

/-- Every queued delete is extended within a well-formed store. -/
theorem wf_refreshPending (h : Wf e st) (hr : e.refreshPending st = .ok st') :
    Wf e st' ∧ Extends st st' :=
  (refresh_induction (Extends st)
    (fun _ _ _ _ _ hc hs hwf hx => extends_trans hs (wf_extendDelete hwf hc hx).2)
    h (extends_refl st) hr).symm

theorem rebuildHeld_eq_ok {held : Held} {reports : List Report} :
    e.rebuildHeld st held = .ok (reports, st') ↔ ∃ st1,
      held.foldlM e.rebuildStep ([], st) = .ok (reports, st1) ∧ e.refreshPending st1 = .ok st' := by
  simp only [Engine.rebuildHeld, Except.bind_eq_ok, Except.pure_eq_ok, Prod.mk.injEq]
  constructor
  · rintro ⟨⟨_, st1⟩, hfold, st2, hrefresh, rfl, rfl⟩
    exact ⟨st1, hfold, hrefresh⟩
  · rintro ⟨st1, hfold, hrefresh⟩
    exact ⟨(reports, st1), hfold, st', hrefresh, rfl, rfl⟩

/-- Rebuilding held records stays within a well-formed store. -/
theorem wf_rebuildFold (h : Wf e st) {held : Held} (hn : ∀ k ∈ held, Named e k)
    {acc out : List Report × Store} (hacc : acc.2 = st)
    (hr : held.foldlM e.rebuildStep acc = .ok out) : Wf e out.2 ∧ Extends st out.2 := by
  refine List.foldlM_ok_induction (fun s : List Report × Store => Wf e s.2 ∧ Extends st s.2) ?_
    ⟨hacc ▸ h, hacc ▸ extends_refl _⟩ hr
  intro s key t hkey hs hstep
  obtain ⟨failed, hreb⟩ := rebuildStep_eq_ok hstep
  exact ⟨wf_rebuild hs.1 (hn key hkey) hreb,
    extends_trans hs.2 (extends_rebuild hs.1 (hn key hkey) hreb)⟩

/-- Rebuilding held records and extending deletes stays within a well-formed store. -/
theorem wf_rebuildHeld (h : Wf e st) {held : Held} (hn : ∀ k ∈ held, Named e k)
    {reports : List Report} (hr : e.rebuildHeld st held = .ok (reports, st')) :
    Wf e st' ∧ Extends st st' := by
  obtain ⟨st1, hfold, hrefresh⟩ := rebuildHeld_eq_ok.mp hr
  obtain ⟨hwf, hext⟩ := wf_rebuildFold h hn rfl hfold
  obtain ⟨hwf', hext'⟩ := wf_refreshPending hwf hrefresh
  exact ⟨hwf', extends_trans hext hext'⟩

end Wf

end AheadSync
