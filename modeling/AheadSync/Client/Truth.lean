import AheadSync.Client.Tidy

/-! The truth of a record, what the server last said of it, is its before image while it is dirty and
    its visible row otherwise. Finishing a delivery moves truths between the two tables and changes
    none: the base of a held record becomes its truth, every other record keeps the truth it had. -/

namespace AheadSync

/-- Held records stand in the order of their encodings, each once. -/
structure HeldOk (e : Engine) (held : Held) : Prop where
  sorted : held.Pairwise fun a b => a.encoded e.codecs ≤ b.encoded e.codecs
  nodup : held.Nodup

section Held
variable {e : Engine} {st : Store} {key : RecordKey} {held : Held}

theorem heldOk_nil : HeldOk e [] := ⟨.nil, .nil⟩

/-- Holding a record inserts it in order, once. -/
theorem heldOk_hold : ∀ {held : Held}, HeldOk e held → HeldOk e (e.hold key held)
  | [], _ => ⟨by simp [Engine.hold], by simp [Engine.hold]⟩
  | k :: held, h => by
    obtain ⟨hle, hsorted⟩ := List.pairwise_cons.mp h.sorted
    obtain ⟨hk, hnodup⟩ := List.nodup_cons.mp h.nodup
    unfold Engine.hold
    split
    · exact h
    · rename_i hne
      split
      · -- everything behind encodes no less than `k`, so the record is new
        rename_i hlt
        refine ⟨List.pairwise_cons.mpr ⟨fun b hb => ?_, h.sorted⟩,
          List.nodup_cons.mpr ⟨fun hmem => ?_, h.nodup⟩⟩
        · rcases List.mem_cons.mp hb with rfl | hb
          · exact hlt.le
          · exact hlt.le.trans (hle b hb)
        · rcases List.mem_cons.mp hmem with rfl | hmem
          · exact hne rfl
          · exact absurd hlt (not_lt.mpr (hle key hmem))
      · rename_i hnlt
        have ih := heldOk_hold ⟨hsorted, hnodup⟩
        refine ⟨List.pairwise_cons.mpr ⟨fun b hb => ?_, ih.sorted⟩,
          List.nodup_cons.mpr ⟨fun hmem => ?_, ih.nodup⟩⟩
        · rcases mem_hold.mp hb with rfl | hb
          · exact not_lt.mp hnlt
          · exact hle b hb
        · rcases mem_hold.mp hmem with rfl | hmem
          · exact hne rfl
          · exact hk hmem

theorem heldOk_holdAll {keys : List RecordKey} (h : HeldOk e held) : HeldOk e (e.holdAll held keys) :=
  List.foldlRecOn keys _ h fun _ hb _ _ => heldOk_hold hb

theorem heldOk_heldAfter {keys : List RecordKey} (h : HeldOk e held) :
    HeldOk e (heldAfter e st held keys) :=
  List.foldlRecOn keys _ h fun b hb a _ => by
    by_cases hd : st.dirty a = true
    · simpa [hd] using heldOk_hold hb
    · simpa [hd] using hb

theorem heldOk_stageIsolated (hwf : Wf e st) (h : HeldOk e held) (r : AuthorityRecord) :
    HeldOk e (e.stageIsolated st held r).held := by
  by_cases hl : ∃ key row found, Landing e st r key row found
  · obtain ⟨key, row, found, hl⟩ := hl
    rw [stageIsolated_landing hwf hl]
    exact heldOk_heldAfter h
  · unfold Engine.stageIsolated
    cases herr : r.error with
    | some code => exact h
    | none =>
      rcases stageAuthority_cases hwf held r with
        ⟨d, st', held', heq, ⟨rfl, key, row, found, hland⟩ | ⟨hd, rfl, rfl, -⟩⟩ |
        ⟨m, held', heq, hheld⟩
      · exact absurd ⟨key, row, found, hland herr⟩ hl
      · rw [heq]
        cases d <;> exact h
      · rw [heq]
        rcases hheld with rfl | ⟨key, -, rfl⟩
        · exact h
        · exact heldOk_heldAfter h

theorem heldOk_stageAll : ∀ {rs : List AuthorityRecord} {st : Store} {held : Held}, Wf e st →
    HeldOk e held → HeldOk e (e.stageAll st held rs).2.1
  | [], _, _, _, h => h
  | r :: rs, st, held, hwf, h => by
    have hrest : HeldOk e (e.stageAll (e.stageIsolated st held r).store
        (e.stageIsolated st held r).held rs).2.1 :=
      heldOk_stageAll (stages_step hwf held r).wf (heldOk_stageIsolated hwf h r)
    exact hrest

theorem heldOk_settleCompanions {push : ℕ} {accepted : List Queued} {wireRows covered : Held}
    {out : Store × Held} (hwf : Wf e st) (hq : ∀ q ∈ accepted, ∀ op ∈ q.mutation.allOps, OpOk e op)
    (hs : e.settleCompanions wireRows covered (st, e.holdAll [] (touchedOf st push)) accepted =
      .ok out) : HeldOk e out.2 := by
  refine (List.foldlM_ok_induction (fun s : Store × Held => Wf e s.1 ∧ HeldOk e s.2) ?_
    ⟨hwf, heldOk_holdAll heldOk_nil⟩ hs).2
  rintro s q t hmem ⟨hwf, hs⟩ hstep
  refine ⟨(settles_mutation hwf (hq q hmem) hstep).wf, ?_⟩
  simp only [Engine.settleMutation, Except.bind_eq_ok] at hstep
  obtain ⟨ops, hl, hfold⟩ := hstep
  refine (List.foldlM_ok_induction (fun s : Store × Held => Wf e s.1 ∧ HeldOk e s.2) ?_
    ⟨hwf, hs⟩ hfold).2
  rintro s op t hop ⟨hwf', hs⟩ hstep
  have hopok := localOps_ok hwf (hq q hmem) hl op hop
  refine ⟨(@settles_op e s.1 s.2 op wireRows covered hwf' hopok t hstep).wf, ?_⟩
  rcases (@settleOp_eq_ok e s.1 s.2 op wireRows covered hwf' hopok t).mp hstep with
    ⟨-, rfl⟩ | ⟨-, ⟨row, -, rfl⟩ | ⟨-, rfl⟩⟩
  · exact hs
  · exact heldOk_hold hs
  · exact heldOk_hold hs

end Held

section Truth
variable {e : Engine} {st st' : Store} {key child k : RecordKey} {n : ℕ}

theorem truth_dirty (h : st.dirty k = true) : st.truth k = st.before.lookup k := by
  simp [Store.truth, h]

theorem truth_clean (h : st.dirty k = false) : st.truth k = st.main.lookup k := by
  simp [Store.truth, h]

/-- A rebuild makes the base of its record its truth. -/
theorem rebuild_truth (hwf : Wf e st) (hk : Named e key) {failed : Option ℕ}
    (hr : e.rebuild st key = .ok (failed, st')) : st'.truth key = st.before.lookup key := by
  obtain ⟨-, row, hrow, rfl⟩ := (rebuild_eq_ok hwf hk).mp hr
  have hdirty : (st.rebuilt key row).dirty key = st.dirty key := dirty_eq_of_opsFor rebuilt_opsFor
  cases hd : st.dirty key with
  | true =>
    have hops : st.opsFor key ≠ [] := fun h => by simp [dirty_eq_false.mpr h] at hd
    rw [truth_dirty (hdirty.trans hd), rebuilt_before, if_neg hops]
  | false =>
    have hbase : row = st.before.lookup key := by
      rcases hrow with ⟨rfl, -⟩ | ⟨rfl, -⟩
      · exact shown_clean hd
      · rfl
    rw [truth_clean (hdirty.trans hd), rebuilt_main, hbase]
    simp

/-- Holding sets the truth of a record aside. -/
theorem holdTruth_base (ht : TidyAt st key) :
    (st.holdTruth key).before.lookup key = st.truth key := by
  rw [holdTruth_before]
  cases hd : st.dirty key with
  | true => simp [Store.truth, hd]
  | false => simp [Store.truth, hd, ht hd]

theorem tidyAt_extendDelete (hwf : Wf e st) (hc : Canonical e child) (ht : TidyAt st k) {q : Queued}
    (hx : e.extendDelete q st child = .ok st') : TidyAt st' k := by
  by_cases hk : k = child
  · subst hk
    rcases (extendDelete_eq_ok hc).mp hx with ⟨-, rfl⟩ | ⟨-, failed, hr⟩
    · exact ht
    · exact tidyAt_rebuild (wf_withEffect (wf_holdTruth hwf k) hc) (named_of_canonical hc) hr
  · exact tidyAt_untouched ht (untouched_extendDelete hwf hc hx hk)

/-- Extending a delete to a record changes no truth. -/
theorem extendDelete_truth (hwf : Wf e st) (hc : Canonical e child) (ht : TidyAt st child)
    {q : Queued} (hx : e.extendDelete q st child = .ok st') : st'.truth k = st.truth k := by
  by_cases hk : k = child
  · subst hk
    rcases (extendDelete_eq_ok hc).mp hx with ⟨-, rfl⟩ | ⟨-, failed, hr⟩
    · rfl
    · have hw := wf_withEffect (n := q.ordinal) (wf_holdTruth hwf k) hc
      rw [rebuild_truth hw (named_of_canonical hc) hr]
      exact holdTruth_base ht
  · exact (untouched_extendDelete hwf hc hx hk).truth

/-- Extending queued deletes changes no truth. -/
theorem refreshPending_truth (hwf : Wf e st) (ht : Tidy st)
    (hr : e.refreshPending st = .ok st') : Tidy st' ∧ ∀ k, st'.truth k = st.truth k := by
  refine (refresh_induction (fun s => Tidy s ∧ ∀ k, s.truth k = st.truth k) ?_ hwf
    ⟨ht, fun _ => rfl⟩ hr).1
  intro s q child t _ hc hs hwf' hx
  exact ⟨fun k => tidyAt_extendDelete hwf' hc (hs.1 k) hx,
    fun k => (extendDelete_truth hwf' hc (hs.1 child) hx).trans (hs.2 k)⟩

/-- Rebuilding held records makes their bases their truths and keeps the other truths. -/
theorem rebuildFold_truth : ∀ {held : Held} {acc out : List Report × Store}, Wf e acc.2 →
    (∀ k ∈ held, Named e k) → held.Nodup → held.foldlM e.rebuildStep acc = .ok out →
    ∀ k, out.2.truth k = if k ∈ held then acc.2.before.lookup k else acc.2.truth k
  | [], acc, out, _, _, _, h, k => by
    obtain rfl : acc = out := by simpa using h
    simp
  | key :: held, acc, out, hwf, hn, hnd, h, k => by
    simp only [List.foldlM_cons, Except.bind_eq_ok] at h
    obtain ⟨mid, hmid, h⟩ := h
    obtain ⟨failed, hr⟩ := rebuildStep_eq_ok hmid
    obtain ⟨hkey, hnd⟩ := List.nodup_cons.mp hnd
    have hnk := hn key (List.mem_cons_self ..)
    have ih := rebuildFold_truth (wf_rebuild hwf hnk hr)
      (fun k hk => hn k (List.mem_cons_of_mem _ hk)) hnd h k
    rw [ih]
    by_cases hk : k = key
    · subst hk
      rw [if_neg hkey, if_pos (List.mem_cons_self ..), rebuild_truth hwf hnk hr]
    · have hun := untouched_rebuild hwf hnk hr hk
      simp only [List.mem_cons, hk, false_or, hun.before, hun.truth]

theorem tidy_rebuildFold {held : Held} {acc out : List Report × Store} (hwf : Wf e acc.2)
    (hn : ∀ k ∈ held, Named e k) (ht : ∀ k, k ∉ held → TidyAt acc.2 k)
    (h : held.foldlM e.rebuildStep acc = .ok out) : Tidy out.2 := by
  refine (List.foldlM_ok_establishes (fun s : List Report × Store => Wf e s.2)
    (Q := fun s k => TidyAt s.2 k) ?_ hwf ht h).2
  intro s a t ha hs hstep
  obtain ⟨failed, hr⟩ := rebuildStep_eq_ok hstep
  have hna := hn a ha
  refine ⟨wf_rebuild hs hna hr, tidyAt_rebuild hs hna hr, fun b hb => ?_⟩
  by_cases hba : b = a
  · exact hba ▸ tidyAt_rebuild hs hna hr
  · exact tidyAt_untouched hb (untouched_rebuild hs hna hr hba)

/-- Finishing a delivery makes the bases of the held records their truths and keeps the others. -/
theorem rebuildHeld_truth (hwf : Wf e st) {held : Held} (hn : ∀ k ∈ held, Named e k)
    (hnd : held.Nodup) (ht : ∀ k, k ∉ held → TidyAt st k) {reports : List Report}
    (hr : e.rebuildHeld st held = .ok (reports, st')) (k : RecordKey) :
    st'.truth k = if k ∈ held then st.before.lookup k else st.truth k := by
  obtain ⟨st1, hfold, hrefresh⟩ := rebuildHeld_eq_ok.mp hr
  rw [(refreshPending_truth (wf_rebuildFold hwf hn rfl hfold).1
    (tidy_rebuildFold hwf hn ht hfold) hrefresh).2 k]
  exact rebuildFold_truth hwf hn hnd hfold k

/-- What finishing a delivery leaves alone. -/
theorem rebuildHeld_frame (hwf : Wf e st) {held : Held} (hn : ∀ k ∈ held, Named e k)
    {reports : List Report} (hr : e.rebuildHeld st held = .ok (reports, st')) :
    (∀ k, st'.recordStamp k = st.recordStamp k) ∧ (∀ c, st'.cursor c = st.cursor c) ∧
      st'.queue.map (·.push) = st.queue.map (·.push) := by
  have hx := (wf_rebuildHeld hwf hn hr).2
  obtain ⟨m, b, q, hf⟩ := hx.frame
  refine ⟨fun k => by rw [hf]; rfl, fun c => by rw [hf]; rfl, ?_⟩
  have hpush : ∀ {l l' : List Queued}, List.Forall₂ Grown l l' →
      l'.map (·.push) = l.map (·.push) := by
    intro l l' h
    induction h with
    | nil => rfl
    | cons hg _ ih => simp only [List.map_cons, ih, hg.push]
  exact hpush hx.queue

theorem staged_named (records : List AuthorityRecord) (h : Wf e st) :
    ∀ k ∈ (e.stageAll st [] records).2.1, Named e k ∧ st.dirty k = true := fun k hk =>
  ((stages_all records [] h).new k hk).elim (fun h => nomatch h) id

/-- A delivery leaves the truths and the stamps that staging its records leaves. -/
theorem applyRecords_truth (hwf : Wf e st) (ht : Tidy st) {records : List AuthorityRecord}
    {report : ApplyReport} (hr : e.applyRecords st records = .ok (report, st')) (k : RecordKey) :
    st'.truth k = (e.stageAll st [] records).1.truth k ∧
      st'.recordStamp k = (e.stageAll st [] records).1.recordStamp k := by
  obtain ⟨reports, hreb, -⟩ := applyRecords_eq_ok.mp hr
  have hst := stages_all records [] hwf
  have hn := fun k hk => (staged_named records hwf k hk).1
  refine ⟨?_, (rebuildHeld_frame hst.wf hn hreb).1 k⟩
  rw [rebuildHeld_truth hst.wf hn (heldOk_stageAll hwf heldOk_nil).nodup
    (fun k _ => tidy_stages ht hst k) hreb]
  split
  · exact (truth_dirty (hst.dirty.trans (staged_named records hwf k ‹_›).2)).symm
  · rfl

theorem completes_stamp (hwf : Wf e st) {push : ℕ} {receipt : PushReceipt} {covered wireRows : Held}
    {mid : Store} {affected : Held} {reports : List Report} {fin : Store}
    (hc : Completes e st push receipt covered wireRows mid affected reports fin) (k : RecordKey) :
    fin.recordStamp k = (e.stageAll mid affected receipt.records).1.recordStamp k := by
  have hset := settles_of_completes hwf hc.settled
  exact (rebuildHeld_frame (wf_relieved (stages_all receipt.records affected hset.wf).wf)
    (fun k hk => completes_named hwf receipt hset hk) hc.rebuilt).1 k

/-- Completing a push makes the bases of the held records their truths and keeps the others. -/
theorem completes_truth (hwf : Wf e st) (ht : Tidy st) {push : ℕ} {receipt : PushReceipt}
    {covered wireRows : Held} {mid : Store} {affected : Held} {reports : List Report} {fin : Store}
    (hc : Completes e st push receipt covered wireRows mid affected reports fin) (k : RecordKey) :
    fin.truth k = if k ∈ e.holdAll (e.stageAll mid affected receipt.records).2.1
        (e.markedOf (e.stageAll mid affected receipt.records).1 receipt.rejections)
      then (e.stageAll mid affected receipt.records).1.before.lookup k
      else (e.stageAll mid affected receipt.records).1.truth k := by
  have hset := settles_of_completes hwf hc.settled
  have hst := stages_all receipt.records affected hset.wf
  have hspared : ∀ k, k ∉ e.holdAll (e.stageAll mid affected receipt.records).2.1
      (e.markedOf (e.stageAll mid affected receipt.records).1 receipt.rejections) →
      Untouched (e.stageAll mid affected receipt.records).1
        ((e.stageAll mid affected receipt.records).1.relieved receipt.rejections
          ((acceptedOf st push receipt).map (·.ordinal))) k := fun k hk =>
    relieved_untouched (completes_spares hwf hset hk)
  rw [rebuildHeld_truth (wf_relieved hst.wf) (fun k hk => completes_named hwf receipt hset hk)
    (heldOk_holdAll (heldOk_stageAll hset.wf
      (heldOk_settleCompanions hwf (accepted_ok hwf) hc.settled))).nodup
    (fun k hk => tidyAt_untouched (tidy_completing hwf ht hc k) (hspared k hk)) hc.rebuilt]
  split
  · rfl
  · exact (hspared k ‹_›).truth

end Truth

end AheadSync
