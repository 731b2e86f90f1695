import AheadSync.Client.Isolation
import AheadSync.Lib.Lww

/-! Engines whose schema has neither unique constraints nor cascading relations. For these a delivery
    never fails, and what it does to the stamps and truths is to absorb each record as a write of a
    last-writer-wins register. -/

namespace AheadSync

/-- No relation deletes its children. -/
def NoCascade (e : Engine) : Prop :=
  ∀ model ∈ e.schema.models, ∀ r ∈ model.relations, r.onDelete ≠ "delete"

instance (e : Engine) : Decidable (NoCascade e) :=
  inferInstanceAs (Decidable (∀ model ∈ e.schema.models, ∀ r ∈ model.relations, _))

/-- A schema with neither unique constraints nor cascading relations. -/
structure Plain (e : Engine) : Prop where
  noUnique : NoUnique e
  noCascade : NoCascade e

/-- The write a record stands for, when the schema accepts its identity and state. -/
def Engine.authored (e : Engine) (r : AuthorityRecord) :
    Option (Lww.Write RecordKey ℕ (Option Value)) :=
  match r.error, e.recordKey r.model r.identity with
  | none, .ok key =>
    match e.incomingRow key r with
    | .ok row => some ⟨key, r.stamp, row⟩
    | .error _ => none
  | _, _ => none

/-- What a client holds of each record: its stamp and its truth. -/
def Store.ledger (st : Store) (k : RecordKey) : ℕ × Option Value := (st.recordStamp k, st.truth k)

/-- A queue without its diverged marks. -/
def Store.bare (st : Store) : List Queued := st.queue.map fun q => { q with diverged := false }

section Bare
variable {st st' : Store} {k : RecordKey}

theorem bare_opsFor (h : st'.bare = st.bare) : st'.opsFor k = st.opsFor k := by
  have hbare : ∀ s : Store, s.opsFor k = { s with queue := s.bare }.opsFor k := fun s =>
    (@opsFor_map s k (fun q => { q with diverged := false }) fun q => ⟨rfl, rfl⟩).symm
  rw [hbare st, hbare st', h]
  rfl

theorem bare_dirty (h : st'.bare = st.bare) : st'.dirty k = st.dirty k :=
  dirty_eq_of_opsFor (bare_opsFor h)

theorem bare_of_queue (h : st'.queue = st.queue) : st'.bare = st.bare := by
  rw [Store.bare, Store.bare, h]

theorem bare_rebuilt {row : Option Value} : (st.rebuilt k row).bare = st.bare := by
  rw [Store.bare, rebuilt_queue, List.map_map]
  refine List.map_congr_left fun q _ => ?_
  simp only [Function.comp_apply]
  split <;> rfl

end Bare

section Plain
variable {e : Engine} {st st' : Store} {held : Held} {r : AuthorityRecord} {k key : RecordKey}

theorem not_refers (hc : NoCascade e) : ¬Refers e st key k := by
  rintro ⟨row, -, model, hm, -, rel, hr, -, hd, -⟩
  exact hc model hm rel hr hd

theorem descendants_nil (hc : NoCascade e) (hwf : Wf e st) : e.descendants st key = .ok [] := by
  obtain ⟨found, hf⟩ := (descendants_ok_iff hwf).mpr fun p k _ hr => absurd hr (not_refers hc)
  rw [hf]
  cases found with
  | nil => rfl
  | cons k found =>
    obtain ⟨-, p, -, hr⟩ := mem_descendants hwf hf (List.mem_cons_self ..)
    exact absurd hr (not_refers hc)

/-- There is nothing to extend a queued delete to. -/
theorem refreshPending_plain (hc : NoCascade e) (hwf : Wf e st) : e.refreshPending st = .ok st := by
  refine List.foldlM_still fun q hq => List.foldlM_still fun op hop => ?_
  have hok := hwf.ops q hq op (List.mem_append_left _ (List.mem_of_mem_filter hop))
  exact (extendOp_eq_ok hok).mpr ⟨[], descendants_nil hc hwf, rfl⟩

theorem cascadeOf_plain (hc : NoCascade e) (hwf : Wf e st) {row : Option Value} :
    e.cascadeOf st key row = .ok [] := by
  unfold Engine.cascadeOf
  split
  · exact descendants_nil hc hwf
  · rfl

theorem authored_eq_some {w : Lww.Write RecordKey ℕ (Option Value)} : e.authored r = some w ↔
    r.error = none ∧ e.recordKey r.model r.identity = .ok w.key ∧
      e.incomingRow w.key r = .ok w.value ∧ w.stamp = r.stamp := by
  unfold Engine.authored
  cases r.error with
  | some code => simp
  | none =>
    cases hk : e.recordKey r.model r.identity with
    | error m => simp
    | ok key =>
      simp only [true_and, Except.ok.injEq]
      cases hr : e.incomingRow key r with
      | error m =>
        simp only [reduceCtorEq, false_iff, not_and]
        rintro rfl h
        rw [hr] at h; cases h
      | ok row =>
        simp only [Option.some.injEq]
        constructor
        · rintro rfl; exact ⟨rfl, hr, rfl⟩
        · rintro ⟨rfl, h, hs⟩
          obtain rfl := Except.ok.inj (hr.symm.trans h)
          rw [← hs]

theorem landing_plain (hp : Plain e) (hwf : Wf e st) {w : Lww.Write RecordKey ℕ (Option Value)}
    (ha : e.authored r = some w) (hlt : st.recordStamp w.key < w.stamp) :
    Landing e st r w.key w.value [] := by
  obtain ⟨herr, hk, hr, hs⟩ := authored_eq_some.mp ha
  exact ⟨herr, hk, hr, hs ▸ hlt, Or.inr (not_duplicate hp.noUnique), cascadeOf_plain hp.noCascade
    (wf_setTruth hwf (recordKey_named hk) (incomingRow_rowFor hk hr))⟩

/-- Staging a record that does not stand for a newer write changes nothing. -/
theorem stageIsolated_unchanged (hwf : Wf e st) (held : Held)
    (h : ∀ w, e.authored r = some w → w.stamp ≤ st.recordStamp w.key) :
    (e.stageIsolated st held r).store = st ∧ (e.stageIsolated st held r).held = held := by
  have hno : ¬∃ key row found, Landing e st r key row found := by
    rintro ⟨key, row, found, hl⟩
    have := h ⟨key, r.stamp, row⟩ (authored_eq_some.mpr ⟨hl.noError, hl.identity, hl.content, rfl⟩)
    exact absurd hl.newer (not_lt.mpr this)
  refine ⟨(stageIsolated_refused hwf held hno).1, ?_⟩
  unfold Engine.stageIsolated
  cases herr : r.error with
  | some code => rfl
  | none =>
    unfold Engine.stageAuthority
    cases hk : e.recordKey r.model r.identity with
    | error m => rfl
    | ok key =>
      cases hr : e.incomingRow key r with
      | error m => simp only [Except.mapError, Except.ok_bind, hr]; rfl
      | ok row =>
        have hle := h ⟨key, r.stamp, row⟩ (authored_eq_some.mpr ⟨herr, hk, hr, rfl⟩)
        simp only [Except.mapError, Except.ok_bind, hr]
        by_cases hlt : r.stamp < st.recordStamp key
        · simp only [hlt, ↓reduceIte]; rfl
        · have heq : r.stamp = st.recordStamp key := by
            have : r.stamp ≤ st.recordStamp key := hle
            omega
          simp only [heq, lt_irrefl, ↓reduceIte]
          by_cases ht : st.truth key = row
          · simp only [ht, ↓reduceIte]; rfl
          · simp only [ht, ↓reduceIte]; rfl

/-- Staging one record absorbs its write, and holds its record when that landed on a dirty one. -/
theorem stageIsolated_absorbs (hp : Plain e) (hwf : Wf e st) (held : Held) (r : AuthorityRecord) :
    (e.stageIsolated st held r).store.ledger =
        Lww.absorbAll st.ledger ([r].filterMap e.authored) ∧
      ∀ k, k ∈ (e.stageIsolated st held r).held ↔ k ∈ held ∨ (st.dirty k = true ∧
        st.recordStamp k < (e.stageIsolated st held r).store.recordStamp k) := by
  by_cases hnew : ∃ w, e.authored r = some w ∧ st.recordStamp w.key < w.stamp
  · obtain ⟨w, ha, hlt⟩ := hnew
    have hs := (authored_eq_some.mp ha).2.2.2
    rw [stageIsolated_landing hwf (landing_plain hp hwf ha hlt)]
    constructor
    · funext k
      simp only [Store.ledger, landed_stamp, landed_truth, List.not_mem_nil, ↓reduceIte,
        List.filterMap_cons, ha, List.filterMap_nil, Lww.absorbAll, List.foldl_cons, List.foldl_nil,
        Lww.absorb_apply]
      by_cases hk : k = w.key
      · subst hk; simp [← hs, hlt]
      · simp [hk]
    · intro k
      simp only [mem_heldAfter, List.mem_singleton, landed_stamp]
      refine or_congr_right ?_
      by_cases hk : k = w.key
      · subst hk; simp [← hs, hlt]
      · simp [hk]
  · have hold : ∀ w, e.authored r = some w → w.stamp ≤ st.recordStamp w.key := fun w ha =>
      not_lt.mp fun hlt => hnew ⟨w, ha, hlt⟩
    obtain ⟨hst, hheld⟩ := stageIsolated_unchanged hwf held hold
    rw [hst, hheld]
    refine ⟨?_, fun k => by simp⟩
    cases ha : e.authored r with
    | none => simp [ha, Lww.absorbAll]
    | some w =>
      funext k
      have hle := hold w ha
      simp only [List.filterMap_cons, ha, List.filterMap_nil, Lww.absorbAll, List.foldl_cons,
        List.foldl_nil, Lww.absorb_apply]
      rw [if_neg]
      rintro ⟨rfl, hlt⟩
      exact absurd hlt (not_lt.mpr hle)

/-- Staging a delivery absorbs its writes, and holds the dirty records whose stamps rose. -/
theorem stageAll_absorbs (hp : Plain e) : ∀ (rs : List AuthorityRecord) {st : Store} (held : Held),
    Wf e st → (e.stageAll st held rs).1.ledger =
        Lww.absorbAll st.ledger (rs.filterMap e.authored) ∧
      ∀ k, k ∈ (e.stageAll st held rs).2.1 ↔ k ∈ held ∨ (st.dirty k = true ∧
        st.recordStamp k < (e.stageAll st held rs).1.recordStamp k)
  | [], st, held, _ => ⟨rfl, fun k => by simp [Engine.stageAll]⟩
  | r :: rs, st, held, hwf => by
    have hstep := stages_step hwf held r
    obtain ⟨hl, hh⟩ := stageIsolated_absorbs hp hwf held r
    obtain ⟨hls, hhs⟩ := stageAll_absorbs hp rs (e.stageIsolated st held r).held
      hstep.wf
    have hrest := stages_all rs (e.stageIsolated st held r).held hstep.wf
    refine ⟨?_, fun k => ?_⟩
    · rw [show e.stageAll st held (r :: rs) = _ from rfl]
      refine hls.trans ?_
      rw [hl, Lww.absorbAll, Lww.absorbAll, Lww.absorbAll, ← List.foldl_append,
        ← List.filterMap_append]
      rfl
    · refine (hhs k).trans ?_
      rw [hh k, hstep.dirty, or_assoc]
      refine or_congr_right ?_
      have h1 := hstep.stamps k
      have h2 := hrest.stamps k
      change (_ ∨ _) ↔ _ ∧ st.recordStamp k < (e.stageAll (e.stageIsolated st held r).store
        (e.stageIsolated st held r).held rs).1.recordStamp k
      constructor
      · rintro (⟨hd, h⟩ | ⟨hd, h⟩)
        · exact ⟨hd, by omega⟩
        · exact ⟨hd, by omega⟩
      · rintro ⟨hd, h⟩
        rcases lt_or_ge (st.recordStamp k) ((e.stageIsolated st held r).store.recordStamp k) with
          hlt | hge
        · exact Or.inl ⟨hd, hlt⟩
        · exact Or.inr ⟨hd, by omega⟩

end Plain

end AheadSync
