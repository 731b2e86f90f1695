import AheadSync.Client.Flight
import AheadSync.Client.Session

/-! What the engine writes a store with. Every call works on the tables and the queue through the same
    few writes; a relation that each of them stays within, every part of a call stays within, for
    any schema and on any store. -/

namespace AheadSync

/-- A relation from the store before to the store after that holds of every single write. -/
structure Within (e : Engine) (R : Store → Store → Prop) : Prop where
  refl : ∀ st, R st st
  trans : ∀ {st st' st''}, R st st' → R st' st'' → R st st''
  main : ∀ {st st' key row}, e.mainSet st key row = .ok st' → R st st'
  before : ∀ {st st' key row}, e.beforeSet st key row = .ok st' → R st st'
  aside : ∀ st key, R st (st.copyAside key)
  mark : ∀ st n, R st (st.mark n)
  effect : ∀ {st st' n op}, e.addEffect st n op = .ok st' → R st st'
  stamp : ∀ st {key} stamp, Named e key → R st (st.setRecordStamp key stamp)
  subscriptions : ∀ st subscriptions, R st { st with subscriptions := subscriptions }

namespace Within
variable {e : Engine} {R : Store → Store → Prop} {st st' : Store} {key : RecordKey}
  {row : Option Value}

/-- A loop whose every iteration stays within the relation. -/
theorem foldlM (w : Within e R) {ε σ α : Type} (store : σ → Store) {f : σ → α → Except ε σ}
    {l : List α} {s t : σ} (step : ∀ s a t, f s a = .ok t → R (store s) (store t))
    (h : l.foldlM f s = .ok t) : R (store s) (store t) :=
  List.foldlM_ok_induction (fun t => R (store s) (store t))
    (fun _ _ _ _ hs ht => w.trans hs (step _ _ _ ht)) (w.refl _) h

theorem holdTruth (w : Within e R) : R st (st.holdTruth key) := by
  unfold Store.holdTruth
  split
  · exact w.refl st
  · exact w.aside st key

theorem applyMain (w : Within e R) {op : Operation} (h : e.applyMain st op = .ok st') : R st st' := by
  simp only [Engine.applyMain, Except.bind_eq_ok] at h
  obtain ⟨key, -, h⟩ := h
  split at h
  · simp only [Except.bind_eq_ok] at h
    obtain ⟨_, -, _, -, h⟩ := h
    exact w.main h
  · simp only [Except.bind_eq_ok] at h
    obtain ⟨_, -, _, -, h⟩ := h
    exact w.main h
  · exact w.main h

theorem showRow (w : Within e R) {base : Option Value} (h : e.showRow st key row base = .ok st') :
    R st st' := by
  unfold Engine.showRow at h
  split at h
  · rename_i hrow
    cases h
    exact w.main hrow
  · exact w.main h

theorem dropBase (w : Within e R) (h : e.dropBase st key = .ok st') : R st st' := by
  unfold Engine.dropBase at h
  split at h
  · exact w.before h
  · cases h
    exact w.refl st

theorem rebuild (w : Within e R) {failed : Option ℕ} (h : e.rebuild st key = .ok (failed, st')) :
    R st st' := by
  simp only [Engine.rebuild, Except.bind_eq_ok, Except.pure_eq_ok, Prod.mk.injEq] at h
  obtain ⟨st1, h1, st2, h2, -, rfl⟩ := h
  exact w.trans (w.showRow h1) (w.trans (w.dropBase h2) (w.mark _ _))

theorem extendDelete (w : Within e R) {q : Queued} (h : e.extendDelete q st key = .ok st') :
    R st st' := by
  unfold Engine.extendDelete at h
  split at h
  · rw [← Except.pure_eq_ok.mp h]
    exact w.refl st
  · simp only [Except.bind_eq_ok, Except.pure_eq_ok] at h
    obtain ⟨st1, h1, ⟨failed, st2⟩, h2, rfl⟩ := h
    exact w.trans w.holdTruth (w.trans (w.effect h1) (w.rebuild h2))

/-- Extending queued deletes. -/
theorem refreshPending (w : Within e R) (h : e.refreshPending st = .ok st') : R st st' := by
  refine w.foldlM id (fun s q t hq => ?_) h
  refine w.foldlM id (fun s op t hop => ?_) hq
  simp only [Engine.extendOp, Except.bind_eq_ok] at hop
  obtain ⟨parent, -, found, -, hop⟩ := hop
  exact w.foldlM id (fun s child t hc => w.extendDelete hc) hop

theorem rebuildHeld (w : Within e R) {held : Held} {reports : List Report}
    (h : e.rebuildHeld st held = .ok (reports, st')) : R st st' := by
  simp only [Engine.rebuildHeld, Except.bind_eq_ok, Except.pure_eq_ok, Prod.mk.injEq] at h
  obtain ⟨⟨rs, mid⟩, hfold, st2, hrefresh, -, rfl⟩ := h
  refine w.trans (w.foldlM Prod.snd (fun s k t hk => ?_) hfold)
    (w.refreshPending hrefresh)
  simp only [Engine.rebuildStep, Except.bind_eq_ok, Except.pure_eq_ok] at hk
  obtain ⟨⟨failed, st1⟩, h1, rfl⟩ := hk
  exact w.rebuild h1

theorem stageOne (w : Within e R) {held held' : Held}
    (h : e.stageOne st held key row = .ok (st', held')) : R st st' := by
  unfold Engine.stageOne at h
  split at h
  · simp only [Except.bind_eq_ok, Except.pure_eq_ok, Prod.mk.injEq] at h
    obtain ⟨_, h, rfl, -⟩ := h
    exact w.before h
  · simp only [Except.bind_eq_ok, Except.pure_eq_ok, Prod.mk.injEq] at h
    obtain ⟨_, h, rfl, -⟩ := h
    exact w.main h

theorem stageNewer (w : Within e R) {held held' : Held} {stamp : ℕ} (hk : Named e key)
    (h : e.stageNewer st held key row stamp = .ok (st', held')) : R st st' := by
  simp only [Engine.stageNewer, Except.bind_eq_ok, Except.mapError_eq_ok, Except.pure_eq_ok,
    Prod.mk.injEq] at h
  obtain ⟨⟨st1, held1⟩, h1, found, -, ⟨st2, held2⟩, h2, rfl, -⟩ := h
  refine w.trans (w.stageOne h1) (w.trans ?_ (w.stamp st2 _ hk))
  exact w.foldlM Prod.fst
    (fun s child t hc => w.stageOne (Except.mapError_eq_ok.mp hc)) h2

theorem stageAuthority (w : Within e R) {held held' : Held} {r : AuthorityRecord} {d : Disposition}
    (h : e.stageAuthority st held r = .ok (d, st', held')) : R st st' := by
  simp only [Engine.stageAuthority, Except.bind_eq_ok, Except.mapError_eq_ok] at h
  obtain ⟨key, hk, incoming, -, h⟩ := h
  split at h
  · cases h
    exact w.refl st
  · split at h
    · cases h
      exact w.refl st
    · simp only [Except.bind_eq_ok, Except.pure_eq_ok, Prod.mk.injEq] at h
      obtain ⟨⟨st1, held1⟩, h1, -, rfl, -⟩ := h
      exact w.stageNewer (recordKey_named hk) h1

theorem stageIsolated (w : Within e R) {held : Held} {r : AuthorityRecord} :
    R st (e.stageIsolated st held r).store := by
  unfold Engine.stageIsolated
  split
  · exact w.refl st
  · split <;> first | exact w.refl st | exact w.stageAuthority ‹_›

theorem stageAll (w : Within e R) : ∀ (records : List AuthorityRecord) (st : Store) (held : Held),
    R st (e.stageAll st held records).1
  | [], st, _ => w.refl st
  | r :: rs, st, held => by
    have hrest := stageAll w rs (e.stageIsolated st held r).store (e.stageIsolated st held r).held
    exact w.trans w.stageIsolated hrest

/-- A delivery. -/
theorem applyRecords (w : Within e R) {records : List AuthorityRecord} {report : ApplyReport}
    (h : e.applyRecords st records = .ok (report, st')) : R st st' := by
  obtain ⟨reports, hreb, -⟩ := applyRecords_eq_ok.mp h
  exact w.trans (w.stageAll ..) (w.rebuildHeld hreb)

theorem setCursors (w : Within e R) {moving : SortedMap String ℕ} : R st (st.setCursors moving) := by
  obtain ⟨s, h⟩ := setCursors_frame moving.entries st
  rw [Store.setCursors, h]
  exact w.subscriptions st s

theorem applyCurrentPage (w : Within e R) {page : PullPage} {report : ApplyReport}
    (h : e.applyCurrentPage st page = .ok (report, st')) : R st st' := by
  obtain ⟨moving, -, ⟨-, -, rfl⟩ | ⟨-, -, report1, st1, hr, -, rfl⟩⟩ := applyCurrentPage_eq_ok.mp h
  · exact w.refl _
  · exact w.trans (w.applyRecords hr) w.setCursors

theorem setChannel (w : Within e R) {acc : Store × List String} {change : String × Bool} :
    R acc.1 (Store.setChannel acc change).1 := by
  obtain ⟨s, h⟩ := setChannels_frame [change] acc
  rw [show (Store.setChannel acc change).1 = _ from h]
  exact w.subscriptions acc.1 s

/-- Folding accepted companions writes before images. -/
theorem settleCompanions (w : Within e R) {wireRows covered held held' : Held}
    {accepted : List Queued}
    (h : e.settleCompanions wireRows covered (st, held) accepted = .ok (st', held')) : R st st' := by
  refine w.foldlM Prod.fst (fun s q t hq => ?_) h
  simp only [Engine.settleMutation, Except.bind_eq_ok] at hq
  obtain ⟨ops, -, hq⟩ := hq
  refine w.foldlM Prod.fst (fun s op t hop => ?_) hq
  simp only [Engine.settleOp, Except.bind_eq_ok] at hop
  obtain ⟨key, -, hop⟩ := hop
  split at hop
  · rw [← Except.pure_eq_ok.mp hop]
    exact w.refl _
  · split at hop
    · simp only [Except.bind_eq_ok, Except.pure_eq_ok] at hop
      obtain ⟨st1, h1, rfl⟩ := hop
      exact w.before h1
    · rw [← Except.pure_eq_ok.mp hop]
      exact w.refl _

/-- Performing an operation writes rows. -/
theorem performOp (w : Within e R) {acc out : Store × List Operation × List Operation}
    {op : Operation} (h : e.performOp acc op = .ok out) : R acc.1 out.1 := by
  simp only [Engine.performOp, Except.bind_eq_ok, Except.pure_eq_ok] at h
  obtain ⟨op', -, key, -, ⟨st1, cascaded⟩, hcascade, st2, h2, rfl⟩ := h
  refine w.trans (@holdTruth e R acc.1 key w) (w.trans ?_ (w.applyMain h2))
  unfold Engine.cascadeDelete at hcascade
  split at hcascade
  · simp only [Except.bind_eq_ok] at hcascade
    obtain ⟨found, -, hcascade⟩ := hcascade
    refine w.foldlM Prod.fst (fun s child t hc => ?_) hcascade
    simp only [Except.bind_eq_ok, Except.pure_eq_ok] at hc
    obtain ⟨st3, h3, rfl⟩ := hc
    exact w.trans w.holdTruth (w.applyMain h3)
  · cases hcascade
    exact w.refl _

theorem directOne (w : Within e R) {op : Operation} (h : e.directOne st op = .ok st') : R st st' := by
  simp only [Engine.directOne, Except.bind_eq_ok] at h
  obtain ⟨key, -, st1, h1, h⟩ := h
  refine w.trans (w.applyMain h1) ?_
  cases hd : st.dirty key with
  | false =>
    simp only [hd, Bool.not_false, ↓reduceIte, Except.pure_eq_ok] at h
    exact h ▸ w.refl st1
  | true =>
    simp only [hd, Bool.not_true, Bool.false_eq_true, ↓reduceIte] at h
    split at h
    · exact Except.pure_eq_ok.mp h ▸ w.refl st1
    · exact Except.pure_eq_ok.mp h ▸ w.refl st1
    · exact w.before h
    · split at h <;> exact w.before h

/-- A direct write. -/
theorem direct (w : Within e R) {op : Operation} (h : e.direct st op = .ok st') : R st st' := by
  simp only [Engine.direct, Except.bind_eq_ok] at h
  obtain ⟨op', -, key, -, children, -, st1, h1, h⟩ := h
  exact w.trans (w.foldlM id (fun s child t hc => w.directOne hc) h1)
    (w.directOne h)

end Within

end AheadSync
