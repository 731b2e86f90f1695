import AheadSync.Client.Settle
import AheadSync.Client.Told
import AheadSync.Client.Unordered

/-! Pending deletes. Whatever a delivery or a drop changes, it ends by extending every queued delete to
    the records below the deleted one. The search walks the rows of both tables and finds at least
    what the truths reach; holding a record it found changes no truth, so one pass closes the queue. -/

namespace AheadSync

/-- The truth of `child` references `parent` through a cascading relation. -/
def TruthRefers (e : Engine) (st : Store) (parent child : RecordKey) : Prop :=
  ∃ row, st.truth child = some row ∧ RowRefers e row parent child

/-- A record below another along the truths, at any depth. -/
def Under (e : Engine) (st : Store) : RecordKey → RecordKey → Prop :=
  Relation.ReflTransGen (TruthRefers e st)

/-- A queued mutation deletes the record among its effects. -/
def Covers (st : Store) (n : ℕ) (k : RecordKey) : Prop :=
  ∃ q ∈ st.queue, q.ordinal = n ∧ ∃ op ∈ q.mutation.effects, op.op = .delete ∧ op.key = k

/-- Every queued delete of a record also deletes what is under it, each of which keeps its truth as its
    before image. -/
def DeletesCover (e : Engine) (st : Store) : Prop :=
  ∀ q ∈ st.queue, ∀ op ∈ q.mutation.operations ++ q.mutation.companion, op.op = .delete →
    ∀ k, Under e st op.key k → k ≠ op.key →
      (∃ d ∈ q.mutation.allOps, d.op = .delete ∧ d.key = k) ∧
        ∃ row, st.truth k = some row ∧ st.before.lookup k = some row

/-- What extending deletes relies on. -/
structure Primed (e : Engine) (st : Store) : Prop where
  wf : Wf e st
  tidy : Tidy st
  effects : ∀ q ∈ st.queue, ∀ op ∈ q.mutation.effects, op.op = .delete

section Extend
variable {e : Engine} {st st' : Store} {q : Queued} {parent child k : RecordKey} {n : ℕ}

/-- A truth is in one of the two tables. -/
theorem refers_of_truth (h : TruthRefers e st parent child) : Refers e st parent child := by
  obtain ⟨row, hrow, hrefers⟩ := h
  refine ⟨row, ?_, hrefers⟩
  cases hd : st.dirty child with
  | true => exact Or.inr (truth_dirty hd ▸ hrow)
  | false => exact Or.inl (truth_clean hd ▸ hrow)

theorem below_of_under (h : Under e st parent k) : Below e st parent k :=
  Relation.ReflTransGen.mono (fun _ _ => refers_of_truth) _ _ h

theorem under_congr (ht : ∀ k, st'.truth k = st.truth k) : Under e st' parent k ↔ Under e st parent k := by
  have heq : TruthRefers e st' = TruthRefers e st := by
    funext p c
    rw [TruthRefers, TruthRefers, ht]
  rw [Under, Under, heq]

/-- What is under a record has a truth. -/
theorem truth_of_under (h : Under e st parent k) (hk : k ≠ parent) : ∃ row, st.truth k = some row := by
  rcases Relation.ReflTransGen.cases_tail h with heq | ⟨p, -, row, hrow, -⟩
  · exact absurd heq hk
  · exact ⟨row, hrow⟩

theorem covers_extends (hx : Extends st st') (h : Covers st n k) : Covers st' n k := by
  obtain ⟨q, hq, rfl, op, hop, hkind⟩ := h
  obtain ⟨q', hq', hg⟩ := List.forall₂_mem_left hx.queue hq
  exact ⟨q', hq', hg.ordinal, op, hg.effects hop, hkind⟩

/-- Effects stay deletions while they grow. -/
theorem effects_extends (hx : Extends st st')
    (h : ∀ q ∈ st.queue, ∀ op ∈ q.mutation.effects, op.op = .delete) :
    ∀ q ∈ st'.queue, ∀ op ∈ q.mutation.effects, op.op = .delete := by
  intro q' hq' op hop
  obtain ⟨q, hq, hg⟩ := List.forall₂_mem hx.queue hq'
  obtain ⟨extra, hmut⟩ := hg.mutation
  rw [hmut] at hop
  rcases List.mem_append.mp hop with hop | hop
  · exact h q hq op hop
  · obtain ⟨key, -, rfl⟩ := List.mem_map.mp hop
    rfl

/-- Extending a delete to a record covers it, whether or not it was covered before. -/
theorem covers_extendDelete (hs : Primed e st) (hc : Canonical e child) {q₀ : Queued}
    (hq₀ : q₀ ∈ st.queue) (hg : Grown q q₀) (hx : e.extendDelete q st child = .ok st') :
    Covers st' q.ordinal child := by
  rcases (extendDelete_eq_ok hc).mp hx with ⟨hany, rfl⟩ | ⟨-, failed, hr⟩
  · obtain ⟨op, hop, hkey⟩ := List.any_eq_true.mp hany
    exact ⟨q₀, hq₀, hg.ordinal, op, hg.effects hop, hs.effects q₀ hq₀ op (hg.effects hop),
      by simpa using hkey⟩
  · have hwf := wf_withEffect (n := q.ordinal) (wf_holdTruth hs.wf child) hc
    obtain ⟨q₁, hq₁, hg₁⟩ := List.forall₂_mem_left (extends_holdTruth st child).queue hq₀
    refine covers_extends (extends_rebuild hwf (named_of_canonical hc) hr)
      ⟨_, List.mem_map_of_mem hq₁, ?_⟩
    rw [if_pos (hg₁.ordinal.trans hg.ordinal)]
    exact ⟨hg₁.ordinal.trans hg.ordinal, deleteOf child, by simp, rfl, rfl⟩

theorem primed_extendDelete (hs : Primed e st) (hc : Canonical e child)
    (hx : e.extendDelete q st child = .ok st') : Primed e st' := by
  obtain ⟨hwf, hext⟩ := wf_extendDelete hs.wf hc hx
  exact ⟨hwf, fun k => tidyAt_extendDelete hs.wf hc (hs.tidy k) hx, effects_extends hext hs.effects⟩

/-- The store within the pass: what the pass started from, grown, with every truth kept. -/
structure Passing (e : Engine) (st s : Store) : Prop extends Primed e s where
  rows : Extends st s
  truth : ∀ k, s.truth k = st.truth k

theorem passing_extendDelete {s t : Store} (hs : Passing e st s) (hc : Canonical e child)
    (hx : e.extendDelete q s child = .ok t) : Passing e st t :=
  ⟨primed_extendDelete hs.toPrimed hc hx, extends_trans hs.rows (wf_extendDelete hs.wf hc hx).2,
    fun k => (extendDelete_truth hs.wf hc (hs.tidy child) hx).trans (hs.truth k)⟩

/-- Extending one delete covers what is under the deleted record. -/
theorem covers_extendOp {s t : Store} (hs : Passing e st s) (hq : q ∈ st.queue) {op : Operation}
    (hop : OpOk e op) (hx : e.extendOp q s op = .ok t) :
    Passing e st t ∧ Extends s t ∧ ∀ k, Under e st op.key k → k ≠ op.key → Covers t q.ordinal k := by
  simp only [Engine.extendOp, hop.key, Except.ok_bind, Except.bind_eq_ok] at hx
  obtain ⟨found, hfound, hfold⟩ := hx
  obtain ⟨⟨hpass, hext⟩, hcovers⟩ := List.foldlM_ok_establishes
    (fun s' => Passing e st s' ∧ Extends s s') (Q := fun s' k => k ∈ found → Covers s' q.ordinal k)
    (fun s' child t' hmem hs' hx => by
      have hc := (mem_descendants hs.wf hfound hmem).1
      obtain ⟨q₀, hq₀, hg⟩ := List.forall₂_mem_left hs'.1.rows.queue hq
      have hstep := (wf_extendDelete hs'.1.wf hc hx).2
      exact ⟨⟨passing_extendDelete hs'.1 hc hx, extends_trans hs'.2 hstep⟩,
        fun _ => covers_extendDelete hs'.1.toPrimed hc hq₀ hg hx,
        fun k hk hmem => covers_extends hstep (hk hmem)⟩)
    ⟨hs, extends_refl s⟩ (fun k hk hmem => absurd hmem hk) hfold
  refine ⟨hpass, hext, fun k hk hne => hcovers k ?_⟩
  have hbelow := below_of_under ((under_congr hs.truth).mpr hk)
  exact (List.mem_cons.mp (((descendants_spec hs.wf hfound).2.1 k).mpr hbelow)).resolve_left hne

/-- Extending every delete of one mutation covers what is under each. -/
theorem covers_extendQueued {s t : Store} (hs : Passing e st s) (hq : q ∈ st.queue)
    (hops : ∀ op ∈ q.mutation.allOps, OpOk e op) (hx : e.extendQueued s q = .ok t) :
    Passing e st t ∧ Extends s t ∧
      ∀ op ∈ q.mutation.operations ++ q.mutation.companion, op.op = .delete →
        ∀ k, Under e st op.key k → k ≠ op.key → Covers t q.ordinal k := by
  obtain ⟨⟨hpass, hext⟩, hcovers⟩ := List.foldlM_ok_establishes
    (fun s' => Passing e st s' ∧ Extends s s')
    (Q := fun s' op => op ∈ (q.mutation.operations ++ q.mutation.companion).filter (·.op = .delete) →
      ∀ k, Under e st op.key k → k ≠ op.key → Covers s' q.ordinal k)
    (fun s' op t' hmem hs' hx => by
      have hop : OpOk e op := hops op (by
        have := List.mem_of_mem_filter hmem
        simpa [Mutation.allOps, or_assoc] using Or.inl (List.mem_append.mp this))
      obtain ⟨hpass, hstep, hcov⟩ := covers_extendOp hs'.1 hq hop hx
      exact ⟨⟨hpass, extends_trans hs'.2 hstep⟩, fun _ => hcov,
        fun op' hop' hmem k hk hne => covers_extends hstep (hop' hmem k hk hne)⟩)
    ⟨hs, extends_refl s⟩ (fun op hop hmem => absurd hmem hop) hx
  exact ⟨hpass, hext, fun op hop hdel => hcovers op (List.mem_filter.mpr ⟨hop, by simpa using hdel⟩)⟩

/-- One pass over the queue leaves every delete covering what is under the deleted record. -/
theorem covers_refreshPending (h : Primed e st) (hr : e.refreshPending st = .ok st') :
    Primed e st' ∧ DeletesCover e st' := by
  obtain ⟨hpass, hcovers⟩ := List.foldlM_ok_establishes (fun s => Passing e st s)
    (Q := fun s q => q ∈ st.queue → ∀ op ∈ q.mutation.operations ++ q.mutation.companion,
      op.op = .delete → ∀ k, Under e st op.key k → k ≠ op.key → Covers s q.ordinal k)
    (fun s q t hmem hs hx => by
      obtain ⟨hpass, hstep, hcov⟩ := covers_extendQueued hs hmem (h.wf.ops q hmem) hx
      exact ⟨hpass, fun _ => hcov,
        fun q' hq' hmem op hop hdel k hk hne => covers_extends hstep (hq' hmem op hop hdel k hk hne)⟩)
    ⟨h, extends_refl st, fun _ => rfl⟩ (fun q hq hmem => absurd hmem hq) hr
  refine ⟨hpass.toPrimed, fun q' hq' op hop hdel k hk hne => ?_⟩
  obtain ⟨q, hq, hg⟩ := List.forall₂_mem hpass.rows.queue hq'
  obtain ⟨extra, hmut⟩ := hg.mutation
  have hwire : op ∈ q.mutation.operations ++ q.mutation.companion := by simpa [hmut] using hop
  obtain ⟨q₁, hq₁, hord, d, hd, hkind⟩ :=
    hcovers q hq op hwire hdel k ((under_congr hpass.truth).mp hk) hne
  obtain rfl : q₁ = q' := List.inj_on_of_nodup_map
    (hpass.wf.sorted.imp fun h => ne_of_lt h) hq₁ hq' (hord.trans hg.ordinal.symm)
  have hmem : d ∈ q₁.mutation.allOps := by simp [Mutation.allOps, hd]
  obtain ⟨row, hrow⟩ := truth_of_under hk hne
  have hdirty : st'.dirty k = true := dirty_iff.mpr ⟨q₁, hq₁, d, hmem, hkind.2⟩
  exact ⟨⟨d, hmem, hkind⟩, row, hrow, truth_dirty hdirty ▸ hrow⟩

/-- Finishing a delivery leaves every queued delete covering what is under the deleted record. -/
theorem covers_rebuildHeld (hwf : Wf e st) {held : Held} (hn : ∀ k ∈ held, Named e k)
    (ht : ∀ k, k ∉ held → TidyAt st k)
    (hdel : ∀ q ∈ st.queue, ∀ op ∈ q.mutation.effects, op.op = .delete) {reports : List Report}
    (hr : e.rebuildHeld st held = .ok (reports, st')) : Primed e st' ∧ DeletesCover e st' := by
  obtain ⟨st1, hfold, hrefresh⟩ := rebuildHeld_eq_ok.mp hr
  obtain ⟨hwf1, hext⟩ := wf_rebuildFold hwf hn rfl hfold
  exact covers_refreshPending ⟨hwf1, tidy_rebuildFold hwf hn ht hfold, effects_extends hext hdel⟩
    hrefresh

end Extend

/-- Pages, receipts and drops. -/
def ClientAction.finishes : ClientAction → Bool
  | .applyPage _ | .receive _ _ | .acknowledge _ _ | .drop _ => true
  | _ => false

/-- The records, their stamps and the queue. -/
def Store.content (st : Store) :
    Table RecordKey Value × Table RecordKey Value × Table RecordKey ℕ × List Queued :=
  (st.main, st.before, st.stamps, st.queue)

/-- A call that settles mutations and delivers nothing: a drop, or a receipt without records that
    rejects the whole push. -/
def OnlyRejects (c : Client) : ClientAction → Prop
  | .drop _ => True
  | .acknowledge sequence receipt => receipt.records = [] ∧
      ∀ q ∈ batchOf c.store sequence, q.ordinal ∈ receipt.rejections.map (·.ordinal)
  | _ => False

section Calls
variable {e : Engine} {st st' : Store} {c : Client} {k : RecordKey}

theorem effects_of_sub {st st' : Store} (h : ∀ q ∈ st.queue, ∀ op ∈ q.mutation.effects, op.op = .delete)
    (hsub : ∀ q' ∈ st'.queue, ∃ q ∈ st.queue, q'.mutation.effects = q.mutation.effects) :
    ∀ q ∈ st'.queue, ∀ op ∈ q.mutation.effects, op.op = .delete := by
  intro q' hq' op hop
  obtain ⟨q, hq, heq⟩ := hsub q' hq'
  exact h q hq op (heq ▸ hop)

/-- Rows and queue alone decide what covers what. -/
theorem deletesCover_frame (hm : st'.main = st.main) (hb : st'.before = st.before)
    (hq : st'.queue = st.queue) (h : DeletesCover e st) : DeletesCover e st' := by
  have htruth : ∀ k, st'.truth k = st.truth k := fun k =>
    (untouched_of_eq (k := k) hm hb hq).truth
  intro q hmem op hop hdel k hk hne
  rw [htruth, hb]
  exact h q (hq ▸ hmem) op hop hdel k ((under_congr htruth).mp hk) hne

theorem primed_frame (h : Primed e st) (hwf : Wf e st') (hb : st'.before = st.before)
    (hq : st'.queue = st.queue) : Primed e st' :=
  ⟨hwf, tidy_of_eq h.tidy hb fun _ => dirty_of_queue hq, hq ▸ h.effects⟩

/-- Effects of a new mutation are deletions. -/
theorem effects_performing {ops given : List Operation}
    {acc out : Store × List Operation × List Operation} (hp : Performing e st given acc)
    (h : ∀ op ∈ acc.2.2, op.op = .delete) (ho : ops.foldlM e.performOp acc = .ok out) :
    ∀ op ∈ out.2.2, op.op = .delete := by
  refine performing_induction (fun _ _ => True) (fun acc => ∀ op ∈ acc.2.2, op.op = .delete)
    (fun _ _ _ _ heff x hx => ?_) hp h (List.guarded_of fun _ _ => trivial) ho
  rcases List.mem_append.mp hx with hx | hx
  · exact heff x hx
  · obtain ⟨key, -, rfl⟩ := List.mem_map.mp hx
    rfl

theorem primed_enqueue (h : Primed e st) {m : Mutation} {n : ℕ}
    (he : e.enqueue st m = .ok (n, st')) : Primed e st' := by
  obtain ⟨-, done, effects, q, mid, hq⟩ := enqueue_spec h.wf he
  refine ⟨wf_enqueue h.wf he, tidy_enqueue h.wf h.tidy he, fun p hp => ?_⟩
  rw [hq.result] at hp
  rcases List.mem_append.mp hp with hp | hp
  · exact h.effects p hp
  · rw [List.mem_singleton.mp hp, hq.effects]
    exact effects_performing (performing_start h.wf) nofun hq.performs

/-- Completing a push ends with a pass over the queue. -/
theorem covers_complete (h : Primed e st) {push : ℕ} {receipt : PushReceipt} {report : ApplyReport}
    (hc : e.complete st push receipt = .ok (report, st')) : Primed e st' ∧ DeletesCover e st' := by
  obtain ⟨covered, wireRows, mid, affected, reports, fin, hcomp, -, rfl⟩ :=
    (complete_eq_ok h.wf).mp hc
  have hset := settles_of_completes h.wf hcomp.settled
  have hst := stages_all receipt.records affected hset.wf
  obtain ⟨b, hb⟩ := hset.frame
  have hqueue : (e.stageAll mid affected receipt.records).1.queue = st.queue := by
    rw [hst.queue, hb]
  obtain ⟨hprimed, hcover⟩ := covers_rebuildHeld (wf_relieved hst.wf)
    (fun k hk => completes_named h.wf receipt hset hk)
    (fun k hk => tidyAt_untouched (tidy_completing h.wf h.tidy hcomp k)
      (relieved_untouched (completes_spares h.wf hset hk)))
    (effects_of_sub h.effects fun q' hq' => by
      obtain ⟨q₁, hq₁, -, rfl⟩ := mem_deleteMutations hq'
      obtain ⟨q, hq, -, rfl⟩ := mem_deleteMutations hq₁
      exact ⟨q, hqueue ▸ hq, rfl⟩) hcomp.rebuilt
  exact ⟨primed_frame hprimed (wf_of_eq hprimed.wf rfl rfl rfl le_rfl) rfl rfl,
    deletesCover_frame rfl rfl rfl hcover⟩

/-- So does landing a page that is not stale. -/
theorem covers_applyCurrentPage (h : Primed e st) {page : PullPage} {report : ApplyReport}
    (ha : e.applyCurrentPage st page = .ok (report, st')) :
    st' = st ∨ (Primed e st' ∧ DeletesCover e st') := by
  obtain ⟨moving, -, ⟨-, -, rfl⟩ | ⟨-, -, report1, st1, hr, -, rfl⟩⟩ := applyCurrentPage_eq_ok.mp ha
  · exact Or.inl rfl
  obtain ⟨s, hs⟩ := setCursors_frame moving.entries st1
  obtain ⟨reports, hreb, -⟩ := applyRecords_eq_ok.mp hr
  have hst := stages_all page.changes [] h.wf
  obtain ⟨hprimed, hcover⟩ := covers_rebuildHeld hst.wf
    (fun k hk => (hst.new k hk).elim (fun h => nomatch h) fun h => h.1)
    (fun k _ => tidy_stages h.tidy hst k) (by rw [hst.queue]; exact h.effects) hreb
  rw [Store.setCursors, hs]
  exact Or.inr ⟨primed_frame hprimed (wf_of_eq hprimed.wf rfl rfl rfl le_rfl) rfl rfl,
    deletesCover_frame rfl rfl rfl hcover⟩

/-- So does removing rejected mutations. -/
theorem covers_removeRejected (h : Primed e st) {rejections : List Rejection}
    (hr : e.removeRejected st rejections = .ok st') : Primed e st' ∧ DeletesCover e st' := by
  simp only [Engine.removeRejected, markRejected_eq h.wf, Except.ok_bind, Except.bind_eq_ok,
    Except.pure_eq_ok] at hr
  obtain ⟨⟨reports, st1⟩, hreb, rfl⟩ := hr
  refine covers_rebuildHeld (wf_marked h.wf) (fun k hk => marked_named h.wf hk)
    (fun k hk => tidyAt_untouched (h.tidy k) (untouched_marked hk))
    (effects_of_sub h.effects fun q' hq' => ?_) hreb
  obtain ⟨q, hq, -, rfl⟩ := mem_deleteMutations hq'
  exact ⟨q, hq, rfl⟩

theorem covers_drop (h : Primed e st) {n : ℕ} (hd : e.dropMutation st n = .ok st') :
    st' = st ∨ (Primed e st' ∧ DeletesCover e st') := by
  unfold Engine.dropMutation at hd
  split at hd
  · cases hd
    exact Or.inl rfl
  · split at hd
    · cases hd
    · exact Or.inr (covers_removeRejected h hd)

/-- A page, a receipt or a drop changes nothing or ends with a pass over the queue. -/
theorem covers_act (h : Primed e c.store) {a : ClientAction} (hf : a.finishes = true) :
    (c.act e a).store = c.store ∨
      (Primed e (c.act e a).store ∧ DeletesCover e (c.act e a).store) := by
  cases a with
  | acknowledge sequence receipt =>
    simp only [Client.act, Client.acknowledge]
    split
    · exact Or.inl rfl
    · refine commit_keeps (P := fun st => st = c.store ∨ (Primed e st ∧ DeletesCover e st))
        (Or.inl rfl) fun _ _ hr => ?_
      obtain ⟨-, -, ⟨-, -, rfl⟩ | ⟨-, -, hc⟩⟩ := acknowledge_eq_ok.mp hr
      · exact Or.inl rfl
      · exact Or.inr (covers_complete h hc)
  | applyPage page =>
    rcases applyPage_store e c page with heq | ⟨report, ha⟩
    · exact Or.inl heq
    · exact covers_applyCurrentPage h ha
  | receive page request =>
    rcases receive_store e c page request with heq | ⟨report, ha⟩
    · exact Or.inl heq
    · exact covers_applyCurrentPage h ha
  | drop ordinal =>
    refine commit_keeps (P := fun st => st = c.store ∨ (Primed e st ∧ DeletesCover e st))
      (Or.inl rfl) fun a st hr => ?_
    obtain ⟨st1, hd, heq⟩ := Except.map_eq_ok.mp hr
    obtain ⟨-, rfl⟩ := Prod.mk.inj heq
    exact covers_drop h hd
  | enqueue _ => cases hf
  | freeze _ => cases hf
  | setChannels _ => cases hf
  | pull => cases hf
  | resolve _ => cases hf
  | restart => cases hf

theorem primed_map {f : Queued → Queued} (h : Primed e st) (hwf : Wf e st')
    (hb : st'.before = st.before) (hq : st'.queue = st.queue.map f)
    (hf : ∀ q, (f q).ordinal = q.ordinal ∧ (f q).mutation.allOps = q.mutation.allOps ∧
      (f q).mutation.effects = q.mutation.effects) : Primed e st' where
  wf := hwf
  tidy := tidy_of_eq h.tidy hb fun k => dirty_eq_of_opsFor (by
    rw [show st'.opsFor k = ({ st with queue := st.queue.map f } : Store).opsFor k by
      simp only [Store.opsFor, hq]]
    exact opsFor_map fun q => ⟨(hf q).1, (hf q).2.1⟩)
  effects := effects_of_sub h.effects fun q' hq' => by
    rw [hq] at hq'
    obtain ⟨q, hq, rfl⟩ := List.mem_map.mp hq'
    exact ⟨q, hq, (hf q).2.2⟩

/-- Every call of the client keeps what extending deletes relies on. -/
theorem primed_act (h : Primed e c.store) (a : ClientAction) : Primed e (c.act e a).store := by
  have hwf := wf_act h.wf a
  cases hf : a.finishes with
  | true =>
    rcases covers_act h hf with heq | ⟨hprimed, -⟩
    · exact heq ▸ h
    · exact hprimed
  | false =>
    cases a with
    | enqueue m => exact commit_keeps (P := Primed e) h fun _ _ hr => primed_enqueue h hr
    | freeze maxBytes =>
      refine commit_keeps (P := Primed e) h fun _ st hr => ?_
      have hwf' := wf_freeze h.wf hr
      rcases freeze_spec hr with rfl | ⟨-, selected, -, -, -, rfl, -⟩
      · exact h
      · exact primed_map h hwf' rfl rfl fun q => by split <;> exact ⟨rfl, rfl, rfl⟩
    | setChannels changes =>
      obtain ⟨s, hs⟩ := setChannels_frame changes (c.store, [])
      simp only [Client.act, Client.setChannels, hs] at hwf ⊢
      exact primed_frame h hwf rfl rfl
    | pull =>
      simp only [Client.act, Client.downlinkRequest]
      split <;> exact h
    | resolve key => exact primed_map h hwf rfl rfl fun q => ⟨rfl, rfl, rfl⟩
    | restart => exact h
    | applyPage _ => cases hf
    | receive _ _ => cases hf
    | acknowledge _ _ => cases hf
    | drop _ => cases hf

theorem primed_direct (h : Primed e st) {op : Operation} (hd : e.direct st op = .ok st') :
    Primed e st' := by
  have hwf := wf_direct h.wf hd
  have htidy := tidy_direct h.wf h.tidy hd
  obtain ⟨main, before, rfl⟩ := direct_frame h.wf hd
  exact ⟨hwf, htidy, h.effects⟩

theorem primed_keeps : Host.Keeps e (Primed e) where
  act := fun _ a h => primed_act h a
  direct := fun _ _ _ h hd => primed_direct h hd
  dismiss := fun _ n h => primed_frame h (wf_keeps.dismiss _ n h.wf) rfl rfl

theorem primed_opened (clientId : String) : Primed e (Client.opened clientId).store where
  wf := wf_opened clientId
  tidy := fun k _ => by simp [Client.opened]
  effects := by simp [Client.opened]

theorem primed_reaches (h : Host.Reaches e c) : Primed e c.store :=
  keeps_reaches primed_keeps primed_opened h

/-- Dropping a mutation changes no truth and no stamp. -/
theorem drop_keeps (h : Primed e st) {n : ℕ} (hd : e.dropMutation st n = .ok st') :
    st'.truth k = st.truth k ∧ st'.recordStamp k = st.recordStamp k := by
  unfold Engine.dropMutation at hd
  split at hd
  · cases hd
    exact ⟨rfl, rfl⟩
  · split at hd
    · cases hd
    simp only [Engine.removeRejected, markRejected_eq h.wf, Except.ok_bind, Except.bind_eq_ok,
      Except.pure_eq_ok] at hd
    obtain ⟨⟨reports, st1⟩, hreb, rfl⟩ := hd
    have hspared := fun k hk => @untouched_marked e st k [⟨n, "dropped"⟩] hk
    refine ⟨?_, (rebuildHeld_frame (wf_marked h.wf) (fun k hk => marked_named h.wf hk) hreb).1 k⟩
    rw [rebuildHeld_truth (wf_marked h.wf) (fun k hk => marked_named h.wf hk)
      (heldOk_holdAll heldOk_nil).nodup (fun k hk => tidyAt_untouched (h.tidy k) (hspared k hk)) hreb k]
    split
    · -- a dropped mutation touches the record, whose base stays
      exact (truth_dirty (marked_dirty ‹_›)).symm
    · exact (hspared k ‹_›).truth

/-- So does a receipt that delivers nothing and rejects the whole push. -/
theorem truth_rejecting (h : Primed e st) {push : ℕ} {receipt : PushReceipt} {report : ApplyReport}
    (hrec : receipt.records = [])
    (hrej : ∀ q ∈ batchOf st push, q.ordinal ∈ receipt.rejections.map (·.ordinal))
    (hc : e.complete st push receipt = .ok (report, st')) : st'.truth k = st.truth k := by
  obtain ⟨covered, wireRows, mid, affected, reports, fin, hcomp, -, rfl⟩ :=
    (complete_eq_ok h.wf).mp hc
  change fin.truth k = st.truth k
  have hnone : acceptedOf st push receipt = [] :=
    List.filter_eq_nil_iff.mpr fun q hq => by simpa using hrej q hq
  have hsettled := hcomp.settled
  have hstage : e.stageAll mid affected receipt.records = (mid, affected, []) := by rw [hrec]; rfl
  rw [hnone] at hsettled
  obtain ⟨rfl, rfl⟩ := Prod.mk.inj (Except.ok.inj hsettled)
  rw [completes_truth h.wf h.tidy hcomp, hstage]
  split
  · rename_i hk
    refine (truth_dirty ?_).symm
    rcases mem_holdAll.mp hk with hk | hk
    · exact touched_dirty ((mem_holdAll.mp hk).resolve_left List.not_mem_nil)
    · exact marked_dirty hk
  · rfl

theorem truth_rejects (h : Primed e c.store) {a : ClientAction} (hr : OnlyRejects c a) :
    (c.act e a).store.truth k = c.store.truth k := by
  cases a with
  | acknowledge sequence receipt =>
    simp only [Client.act, Client.acknowledge]
    split
    · rfl
    · refine commit_keeps (P := fun st => st.truth k = c.store.truth k) rfl fun _ _ hc => ?_
      obtain ⟨-, -, ⟨-, -, rfl⟩ | ⟨-, -, hc⟩⟩ := acknowledge_eq_ok.mp hc
      · rfl
      · exact truth_rejecting h hr.1 hr.2 hc
  | drop ordinal =>
    refine commit_keeps (P := fun st => st.truth k = c.store.truth k) rfl fun _ st hr => ?_
    obtain ⟨st1, hd, heq⟩ := Except.map_eq_ok.mp hr
    obtain ⟨-, rfl⟩ := Prod.mk.inj heq
    exact (drop_keeps h hd).1
  | applyPage _ => exact hr.elim
  | receive _ _ => exact hr.elim
  | enqueue _ => exact hr.elim
  | freeze _ => exact hr.elim
  | setChannels _ => exact hr.elim
  | pull => exact hr.elim
  | resolve _ => exact hr.elim
  | restart => exact hr.elim

theorem truth_rejections {later : List ClientAction} (h : Primed e c.store)
    (hl : Machine.Along (Client.act e) OnlyRejects c later) :
    (Machine.run (Client.act e) c later).store.truth k = c.store.truth k :=
  (Machine.run_keeps (P := fun c' : Client => Primed e c'.store ∧ c'.store.truth k = c.store.truth k)
    (fun _ a hc hr => ⟨primed_act hc.1 a, (truth_rejects hc.1 hr).trans hc.2⟩) ⟨h, rfl⟩ hl).2

end Calls

/-- After every page, receipt or drop that changes records or the queue, each queued delete covers the
    records under the deleted one at any depth. What they hold stays through drops and rejections,
    and is visible again where these leave nothing queued. -/
theorem deletes_cover (e : Engine) (c : Client) (hr : Host.Reaches e c) (a : ClientAction)
    (hf : a.finishes = true) (hchanged : (c.act e a).store.content ≠ c.store.content) :
    DeletesCover e (c.act e a).store ∧
      ∀ k later, Machine.Along (Client.act e) OnlyRejects (c.act e a) later →
        let st' := (Machine.run (Client.act e) (c.act e a) later).store
        st'.truth k = (c.act e a).store.truth k ∧
          (st'.dirty k = false → st'.main.lookup k = (c.act e a).store.truth k) := by
  have hprimed := primed_reaches hr
  rcases covers_act hprimed hf with heq | ⟨hprimed', hcover⟩
  · exact absurd (congrArg Store.content heq) hchanged
  · refine ⟨hcover, fun k later hl => ?_⟩
    have htruth := @truth_rejections e (c.act e a) k later hprimed' hl
    exact ⟨htruth, fun hclean => (truth_clean hclean).symm.trans htruth⟩

section Sample
open Sample

/-- A client that deletes box `p` before it knows of an item in it. -/
def Sample.sweeping : List HostCall :=
  [.call (.setChannels [("c", true)]),
    .call (.enqueue { name := "sweep", operations := [⟨"Box", .delete, identity "p", none⟩] })]

def Sample.sweeper : Client := (Machine.run Host.step ⟨cascading, .opened "me"⟩ sweeping).client

/-- Item `a` arrives in box `p`, then the deletion of the box is dropped. -/
theorem deletes_cover_cascading :
    let c := Client.act cascading Sample.sweeper (.applyPage (page "c" 0 1 [record "a" "p" 1]))
    DeletesCover cascading c.store ∧
      (c.act cascading (.drop 1)).store.main.lookup (item "a") = c.store.truth (item "a") := by
  have hreaches : Host.Reaches cascading Sample.sweeper := ⟨"me", sweeping, by decide, rfl⟩
  have hchanged : ∀ {st st' : Store}, st'.queue.map (·.mutation.effects.length) ≠
      st.queue.map (·.mutation.effects.length) → st'.content ≠ st.content :=
    fun hne h => hne (congrArg (fun x => x.2.2.2.map (·.mutation.effects.length)) h)
  obtain ⟨hcover, hkept⟩ := deletes_cover cascading Sample.sweeper hreaches
    (.applyPage (page "c" 0 1 [record "a" "p" 1])) rfl (hchanged (by decide +kernel))
  exact ⟨hcover, (hkept (item "a") [.drop 1] ⟨trivial, trivial⟩).2 (by decide +kernel)⟩

end Sample

end AheadSync
