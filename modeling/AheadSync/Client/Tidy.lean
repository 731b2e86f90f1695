import AheadSync.Client.Run

/-! Operations are local: each changes the rows and the queued operations of the records it names
    and no others. It follows that a record without queued operations never has a before image. -/

namespace AheadSync

/-- A record's rows and queued operations are as they were. -/
structure Untouched (st st' : Store) (k : RecordKey) : Prop where
  main : st'.main.lookup k = st.main.lookup k
  before : st'.before.lookup k = st.before.lookup k
  ops : st'.opsFor k = st.opsFor k

section Untouched
variable {e : Engine} {st st' st'' : Store} {key k child : RecordKey} {n : ℕ}

theorem untouched_refl (st : Store) (k : RecordKey) : Untouched st st k := ⟨rfl, rfl, rfl⟩

theorem untouched_trans (h : Untouched st st' k) (h' : Untouched st' st'' k) : Untouched st st'' k :=
  ⟨h'.main.trans h.main, h'.before.trans h.before, h'.ops.trans h.ops⟩

theorem Untouched.dirty (h : Untouched st st' k) : st'.dirty k = st.dirty k :=
  dirty_eq_of_opsFor h.ops

theorem Untouched.truth (h : Untouched st st' k) : st'.truth k = st.truth k := by
  rw [Store.truth, Store.truth, h.dirty, h.main, h.before]

theorem Untouched.shown (h : Untouched st st' k) : st'.shown k = st.shown k := by
  rw [Store.shown, Store.shown, h.before, h.ops]

theorem Untouched.failing (h : Untouched st st' k) : st'.failing k = st.failing k := by
  rw [Store.failing, Store.failing, h.before, h.ops]

/-- A store with the same rows and the same queue. -/
theorem untouched_of_eq (hm : st'.main = st.main) (hb : st'.before = st.before)
    (hq : st'.queue = st.queue) : Untouched st st' k :=
  ⟨by rw [hm], by rw [hb], opsFor_of_queue hq⟩

theorem untouched_rebuilt {row : Option Value} (h : k ≠ key) : Untouched st (st.rebuilt key row) k where
  main := by rw [rebuilt_main]; simp [h]
  before := by rw [rebuilt_before]; split <;> simp [h]
  ops := rebuilt_opsFor

theorem untouched_rebuild (hwf : Wf e st) (hk : Named e key) {failed : Option ℕ}
    (hr : e.rebuild st key = .ok (failed, st')) (h : k ≠ key) : Untouched st st' k := by
  obtain ⟨-, row, -, rfl⟩ := (rebuild_eq_ok hwf hk).mp hr
  exact untouched_rebuilt h

theorem untouched_holdTruth (h : k ≠ key) : Untouched st (st.holdTruth key) k where
  main := by rw [holdTruth_main]
  before := by rw [holdTruth_before, if_neg (by simp [h])]
  ops := opsFor_of_queue holdTruth_queue

/-- A new effect is an operation of its own record only. -/
theorem withEffect_opsFor (h : k ≠ child) : (withEffect st n child).opsFor k = st.opsFor k := by
  simp only [withEffect, Store.modify, Store.opsFor, List.flatMap_map]
  refine List.flatMap_congr fun q _ => ?_
  split
  · have hne : ¬(deleteOf child).key = k := fun heq => h heq.symm
    simp [Mutation.allOps, List.filter_append, hne]
  · rfl

theorem untouched_withEffect (h : k ≠ child) : Untouched st (withEffect st n child) k :=
  ⟨rfl, rfl, withEffect_opsFor h⟩

theorem untouched_extendDelete (hwf : Wf e st) (hc : Canonical e child) {q : Queued}
    (hx : e.extendDelete q st child = .ok st') (h : k ≠ child) : Untouched st st' k := by
  rcases (extendDelete_eq_ok hc).mp hx with ⟨-, rfl⟩ | ⟨-, failed, hr⟩
  · exact untouched_refl _ _
  · have hw := wf_withEffect (n := q.ordinal) (wf_holdTruth hwf child) hc
    exact untouched_trans (untouched_holdTruth h) (untouched_trans (untouched_withEffect h)
      (untouched_rebuild hw (named_of_canonical hc) hr h))

theorem untouched_landed {row : Option Value} {found : List RecordKey} {stamp : ℕ} (h : k ≠ key)
    (hf : k ∉ found) : Untouched st (st.landed key row found stamp) k where
  main := by rw [landed_main, if_neg (by simp [hf]), if_neg (by simp [h])]
  before := by rw [landed_before, if_neg (by simp [hf]), if_neg (by simp [h])]
  ops := opsFor_of_queue landed_queue

theorem untouched_performed {op : Operation} {found : List RecordKey} {row : Option Value}
    (hnd : found.Nodup) (h : k ≠ op.key) (hf : k ∉ found) :
    Untouched st (st.performed op found row) k where
  main := by simp [Store.performed, h, hf, cascaded_main]
  before := by simp [Store.performed, cascaded_before hnd, hf, holdTruth_before, h]
  ops := opsFor_of_queue performed_queue

theorem filter_key_eq_nil {ops : List Operation} (h : ∀ op ∈ ops, op.key ≠ k) :
    ops.filter (·.key = k) = [] := by
  simpa using h

theorem flatMap_filter_of_nil {α β : Type} {p : α → Bool} {f : α → List β} : ∀ {l : List α},
    (∀ a ∈ l, p a = false → f a = []) → (l.filter p).flatMap f = l.flatMap f
  | [], _ => rfl
  | a :: l, h => by
    have ih := flatMap_filter_of_nil fun b hb => h b (List.mem_cons_of_mem _ hb)
    cases hp : p a with
    | true => rw [List.filter_cons_of_pos hp, List.flatMap_cons, List.flatMap_cons, ih]
    | false =>
      rw [List.filter_cons_of_neg (by simp [hp]), List.flatMap_cons, h a (List.mem_cons_self ..) hp,
        List.nil_append, ih]

/-- Deleting mutations that do not touch a record keeps its operations. -/
theorem untouched_deleteMutations {ns : List ℕ}
    (h : ∀ q ∈ st.queue, q.ordinal ∈ ns → ∀ op ∈ q.mutation.allOps, op.key ≠ k) :
    Untouched st (st.deleteMutations ns) k := by
  refine ⟨rfl, rfl, ?_⟩
  rw [deleteMutations_opsFor, Store.opsFor]
  exact flatMap_filter_of_nil fun q hq hn => by
    rw [filter_key_eq_nil (h q hq (by simpa using hn)), List.map_nil]

end Untouched

/-- Rebuilding rule: what a rebuild establishes of its record, and what growth of the queue that
    leaves a record's rows and operations alone keeps of it, holds of every record after a delivery,
    when it held before of every record that the delivery does not hold. -/
theorem rebuildHeld_establishes {e : Engine} {Q : Store → RecordKey → Prop}
    (rebuilt : ∀ {st st' : Store} {key : RecordKey} {failed : Option ℕ}, Wf e st → Named e key →
      e.rebuild st key = .ok (failed, st') → Q st' key)
    (carry : ∀ {st st' : Store} {k : RecordKey}, Q st k → Untouched st st' k → Extends st st' →
      Q st' k)
    {st st' : Store} (hwf : Wf e st) {held : Held} (hn : ∀ k ∈ held, Named e k)
    (h : ∀ k, k ∉ held → Q st k) {reports : List Report}
    (hr : e.rebuildHeld st held = .ok (reports, st')) : ∀ k, Q st' k := by
  obtain ⟨st1, hfold, hrefresh⟩ := rebuildHeld_eq_ok.mp hr
  have h1 : ∀ k, Q st1 k := by
    refine (List.foldlM_ok_establishes (fun s : List Report × Store => Wf e s.2)
      (Q := fun s k => Q s.2 k) ?_ hwf h hfold).2
    intro s a t ha hs hstep
    obtain ⟨failed, hreb⟩ := rebuildStep_eq_ok hstep
    have hna := hn a ha
    refine ⟨wf_rebuild hs hna hreb, rebuilt hs hna hreb, fun b hb => ?_⟩
    by_cases hba : b = a
    · exact hba ▸ rebuilt hs hna hreb
    · exact carry hb (untouched_rebuild hs hna hreb hba) (extends_rebuild hs hna hreb)
  refine (refresh_induction (fun s => ∀ k, Q s k) ?_ (wf_rebuildFold hwf hn rfl hfold).1 h1
    hrefresh).1
  intro s q child t _ hc hs hwf' hx k
  by_cases hk : k = child
  · subst hk
    rcases (extendDelete_eq_ok hc).mp hx with ⟨-, rfl⟩ | ⟨-, failed, hreb⟩
    · exact hs k
    · exact rebuilt (wf_withEffect (wf_holdTruth hwf' _) hc) (named_of_canonical hc) hreb
  · exact carry (hs k) (untouched_extendDelete hwf' hc hx hk) (wf_extendDelete hwf' hc hx).2

/-- A record without queued operations has no before image. -/
def TidyAt (st : Store) (k : RecordKey) : Prop := st.dirty k = false → st.before.lookup k = none

def Tidy (st : Store) : Prop := ∀ k, TidyAt st k

section Tidy
variable {e : Engine} {st st' : Store} {key k : RecordKey}

theorem tidyAt_untouched (h : TidyAt st k) (hu : Untouched st st' k) : TidyAt st' k :=
  fun hd => hu.before.trans (h (hu.dirty ▸ hd))

theorem tidy_of_eq (h : Tidy st) (hb : st'.before = st.before) (hq : ∀ k, st'.dirty k = st.dirty k) :
    Tidy st' := fun k hd => by rw [hb]; exact h k (hq k ▸ hd)

/-- A rebuild forgets the before image of a clean record. -/
theorem tidyAt_rebuild (hwf : Wf e st) (hk : Named e key) {failed : Option ℕ}
    (hr : e.rebuild st key = .ok (failed, st')) : TidyAt st' key := by
  obtain ⟨-, row, -, rfl⟩ := (rebuild_eq_ok hwf hk).mp hr
  intro hd
  have hops : st.opsFor key = [] := by rw [← rebuilt_opsFor]; exact dirty_eq_false.mp hd
  rw [rebuilt_before, if_pos hops]
  simp

theorem tidy_rebuildHeld (hwf : Wf e st) {held : Held} (hn : ∀ k ∈ held, Named e k)
    (h : ∀ k, k ∉ held → TidyAt st k) {reports : List Report}
    (hr : e.rebuildHeld st held = .ok (reports, st')) : Tidy st' :=
  rebuildHeld_establishes (Q := TidyAt) (fun hwf hk hr => tidyAt_rebuild hwf hk hr)
    (fun h hu _ => tidyAt_untouched h hu) hwf hn h hr

/-- Staging keeps clean records without a before image. -/
theorem tidy_stages {held held' : Held} (h : Tidy st) (hs : Stages e st held st' held') : Tidy st' :=
  fun k hd => by
    have hd' : st.dirty k = false := hs.dirty ▸ hd
    rw [hs.clean k hd']; exact h k hd'

/-- Performing leaves every record alone that no performed operation names. -/
theorem performing_untouched {ops given : List Operation}
    {acc out : Store × List Operation × List Operation} (hp : Performing e st given acc)
    (h : ∀ k, (∀ op ∈ acc.2.1 ++ acc.2.2, op.key ≠ k) → Untouched st acc.1 k)
    (ho : ops.foldlM e.performOp acc = .ok out) :
    ∀ k, (∀ op ∈ out.2.1 ++ out.2.2, op.key ≠ k) → Untouched st out.1 k := by
  refine performing_induction (fun _ _ => True)
    (fun acc => ∀ k, (∀ op ∈ acc.2.1 ++ acc.2.2, op.key ≠ k) → Untouched st acc.1 k)
    (fun {s done effects op op' found row} hwf _ hpo _ h k hk => ?_) hp h
    (List.guarded_of fun _ _ => trivial) ho
  have hsub : ∀ o ∈ done ++ effects, o.key ≠ k := fun o ho => hk o (by
    rcases List.mem_append.mp ho with h | h <;> simp [h])
  refine untouched_trans (h k hsub) (untouched_performed
    (cascadeOf_spec (wf_holdTruth hwf _) hpo.cascade).1 ?_ ?_)
  · exact fun heq => hk op' (by simp) heq.symm
  · intro hf
    exact hk (deleteOf k) (List.mem_append_right _
      (List.mem_append_right _ (List.mem_map_of_mem hf))) rfl

theorem enqueues_untouched (hwf : Wf e st) {m : Mutation} {done effects : List Operation} {q : Queued}
    {mid : Store} (he : Enqueues e st m st' done effects q mid)
    (hk : ∀ op ∈ q.mutation.allOps, op.key ≠ k) : Untouched st st' k := by
  rw [enqueues_allOps he] at hk
  have hu := performing_untouched (performing_start hwf) (fun k _ => untouched_refl st k)
    he.performs k hk
  rw [he.result]
  refine ⟨hu.main, hu.before, ?_⟩
  simp only [Store.opsFor, List.flatMap_append, List.flatMap_cons, List.flatMap_nil,
    List.append_nil]
  rw [filter_key_eq_nil (by rwa [enqueues_allOps he]), List.map_nil, List.append_nil]

theorem tidy_enqueue (hwf : Wf e st) (h : Tidy st) {m : Mutation} {n : ℕ}
    (he : e.enqueue st m = .ok (n, st')) : Tidy st' := by
  obtain ⟨-, done, effects, q, mid, hq⟩ := enqueue_spec hwf he
  intro k
  by_cases hk : ∃ op ∈ q.mutation.allOps, op.key = k
  · obtain ⟨op, hop, hk⟩ := hk
    intro hd
    have : st'.dirty k = true := dirty_iff.mpr ⟨q, by simp [hq.result], op, hop, hk⟩
    simp [this] at hd
  · exact tidyAt_untouched (h k) (enqueues_untouched hwf hq (by simpa using hk))

theorem relieved_untouched {rejections : List Rejection} {ns : List ℕ}
    (h : ∀ q ∈ st.queue, (q.ordinal ∈ (rejectedOf st rejections).keys ∨ q.ordinal ∈ ns) →
      ∀ op ∈ q.mutation.allOps, op.key ≠ k) : Untouched st (st.relieved rejections ns) k := by
  unfold Store.relieved
  refine @untouched_trans _ { st.deleteMutations (rejectedOf st rejections).keys with
    rejections := inboxOf st rejections } _ _ ?_ ?_
  · exact untouched_trans (untouched_deleteMutations fun q hq hr => h q hq (Or.inl hr))
      (untouched_of_eq rfl rfl rfl)
  · refine untouched_deleteMutations fun q hq hr => ?_
    obtain ⟨q0, hq0, rfl⟩ := List.mem_map.mp hq
    exact h q0 (List.mem_of_mem_filter hq0) (Or.inr hr)

theorem mem_rejected_keys {rejections : List Rejection} {n : ℕ} :
    n ∈ (rejectedOf st rejections).keys ↔ ((rejectedOf st rejections).lookup n).isSome := by
  rw [← not_iff_not, ← SortedMap.lookup_eq_none_iff, Option.not_isSome_iff_eq_none]

/-- A record that no rejected mutation touches is left alone as they leave the queue. -/
theorem untouched_marked {rejections : List Rejection}
    (hk : k ∉ e.holdAll [] (((droppedOf st rejections).flatMap (·.mutation.allOps)).map (·.key))) :
    Untouched st { st.deleteMutations (rejectedOf st rejections).keys with
      rejections := inboxOf st rejections } k := by
  refine untouched_trans (untouched_deleteMutations fun q hq hrej op hop heq => hk ?_)
    (untouched_of_eq rfl rfl rfl)
  exact mem_marked.mpr ⟨q, hq, mem_rejected_keys.mp hrej, op, hop, heq⟩

theorem tidy_removeRejected (hwf : Wf e st) (h : Tidy st) {rejections : List Rejection}
    (hr : e.removeRejected st rejections = .ok st') : Tidy st' := by
  simp only [Engine.removeRejected, markRejected_eq hwf, Except.ok_bind, Except.bind_eq_ok,
    Except.pure_eq_ok] at hr
  obtain ⟨⟨reports, st1⟩, hreb, rfl⟩ := hr
  exact tidy_rebuildHeld (wf_marked hwf) (fun k hk => marked_named hwf hk)
    (fun k hk => tidyAt_untouched (h k) (untouched_marked hk)) hreb

/-- Settling keeps clean records without a before image: what it does to one is delete it. -/
theorem tidy_settleOp (hwf : Wf e st) (h : Tidy st) {op : Operation} (hop : OpOk e op)
    (hd : st.dirty op.key = true ∨ op.op = .delete) {wireRows covered held : Held}
    {out : Store × Held} (hs : e.settleOp wireRows covered (st, held) op = .ok out) :
    Tidy out.1 := by
  rcases (settleOp_eq_ok hwf hop).mp hs with ⟨-, rfl⟩ | ⟨-, ⟨row, ha, rfl⟩ | ⟨-, rfl⟩⟩
  · exact h
  · intro k hk
    have hk' : st.dirty k = false := hk
    simp only [AList.lookup_put]
    split
    · rename_i heq
      rcases hd with hd | hd
      · rw [heq, hd] at hk'; cases hk'
      · simp only [applyToRow, hd, Except.ok.injEq] at ha
        exact ha.symm
    · exact h k hk'
  · exact h

theorem tidy_settleCompanions (hwf : Wf e st) (h : Tidy st) {accepted : List Queued}
    (hq : ∀ q ∈ accepted, q ∈ st.queue) {wireRows covered held : Held} {out : Store × Held}
    (hs : e.settleCompanions wireRows covered (st, held) accepted = .ok out) : Tidy out.1 := by
  refine (List.foldlM_ok_induction (fun s : Store × Held => Tidy s.1 ∧ Settles e st held s.1 s.2) ?_
    ⟨h, settles_refl hwf⟩ hs).1
  intro s q t hmem hs hstep
  simp only [Engine.settleMutation, Except.bind_eq_ok] at hstep
  obtain ⟨ops, hl, hfold⟩ := hstep
  have hops := localOps_ok hs.2.wf (hwf.ops q (hq q hmem)) hl
  have hkind : ∀ op ∈ ops, st.dirty op.key = true ∨ op.op = .delete := by
    simp only [Engine.localOps, Except.bind_eq_ok, Except.pure_eq_ok] at hl
    obtain ⟨deletes, -, cascades, -, rfl⟩ := hl
    intro op hop
    rcases List.mem_append.mp hop with hop | hop
    · exact Or.inl (dirty_iff.mpr ⟨q, hq q hmem, op, by simp [Mutation.allOps, hop], rfl⟩)
    · obtain ⟨k, -, rfl⟩ := List.mem_map.mp hop
      exact Or.inr rfl
  refine List.foldlM_ok_induction
    (fun s : Store × Held => Tidy s.1 ∧ Settles e st held s.1 s.2) ?_ hs hfold
  intro s op t hop hs hstep
  have hdirty : s.1.dirty op.key = st.dirty op.key := by
    obtain ⟨b, hb⟩ := hs.2.frame
    exact dirty_of_queue (by rw [hb])
  exact ⟨tidy_settleOp hs.2.wf hs.1 (hops op hop) (hdirty ▸ hkind op hop) hstep,
    settles_trans hs.2 (settles_op hs.2.wf (hops op hop) hstep)⟩

/-- The records of an accepted mutation are held from the start. -/
theorem completed_held (hwf : Wf e st) {push : ℕ} {receipt : PushReceipt} {mid staged : Store}
    {affected held : Held} {q : Queued} {op : Operation}
    (hset : Settles e st (e.holdAll [] (touchedOf st push)) mid affected)
    (hst : Stages e mid affected staged held) (hq : q ∈ staged.queue)
    (hrem : q.ordinal ∈ (acceptedOf st push receipt).map (·.ordinal))
    (hop : op ∈ q.mutation.allOps) : op.key ∈ held := by
  obtain ⟨b, hb⟩ := hset.frame
  have hqueue : staged.queue = st.queue := by rw [hst.queue, hb]
  obtain ⟨a, ha, hord⟩ := List.mem_map.mp hrem
  have hbatch : a ∈ batchOf st push := List.mem_of_mem_filter ha
  have hqa : q = a := List.inj_on_of_nodup_map
    (hwf.sorted.imp fun h => ne_of_lt h) (hqueue ▸ hq) (mem_batchOf.mp hbatch).1 hord.symm
  refine hst.grows _ (hset.grows _ ?_)
  simp only [mem_holdAll, List.not_mem_nil, false_or]
  exact mem_touchedOf.mpr ⟨a, hbatch, op, hqa ▸ hop, rfl⟩

/-- A record a completing push does not hold is no record of a mutation it removes. -/
theorem completes_spares (hwf : Wf e st) {push : ℕ} {receipt : PushReceipt} {mid : Store}
    {affected : Held} (hset : Settles e st (e.holdAll [] (touchedOf st push)) mid affected)
    (hk : k ∉ e.holdAll (e.stageAll mid affected receipt.records).2.1
      (e.markedOf (e.stageAll mid affected receipt.records).1 receipt.rejections)) :
    ∀ q ∈ (e.stageAll mid affected receipt.records).1.queue,
      (q.ordinal ∈ (rejectedOf (e.stageAll mid affected receipt.records).1
        receipt.rejections).keys ∨ q.ordinal ∈ (acceptedOf st push receipt).map (·.ordinal)) →
      ∀ op ∈ q.mutation.allOps, op.key ≠ k := by
  have hst := stages_all receipt.records affected hset.wf
  rw [mem_holdAll, not_or] at hk
  intro q hq hrem op hop heq
  rcases hrem with hrem | hrem
  · exact hk.2 (mem_marked.mpr ⟨q, hq, mem_rejected_keys.mp hrem, op, hop, heq⟩)
  · exact hk.1 (heq ▸ completed_held hwf hset hst hq hrem hop)

theorem tidy_completing (hwf : Wf e st) (h : Tidy st) {push : ℕ} {receipt : PushReceipt}
    {covered wireRows : Held} {mid : Store} {affected : Held} {reports : List Report} {fin : Store}
    (hc : Completes e st push receipt covered wireRows mid affected reports fin) :
    Tidy (e.stageAll mid affected receipt.records).1 := by
  have hset := settles_of_completes hwf hc.settled
  exact tidy_stages (tidy_settleCompanions hwf h
    (fun q hq => (mem_batchOf.mp (List.mem_of_mem_filter hq)).1) hc.settled)
    (stages_all receipt.records affected hset.wf)

theorem tidy_complete (hwf : Wf e st) (h : Tidy st) {push : ℕ} {receipt : PushReceipt}
    {report : ApplyReport} (hc : e.complete st push receipt = .ok (report, st')) : Tidy st' := by
  obtain ⟨covered, wireRows, mid, affected, reports, fin, hcomp, -, rfl⟩ :=
    (complete_eq_ok hwf).mp hc
  have hset := settles_of_completes hwf hcomp.settled
  have hst := stages_all receipt.records affected hset.wf
  change Tidy fin
  exact tidy_rebuildHeld (wf_relieved hst.wf)
    (fun k hk => completes_named hwf receipt hset hk)
    (fun k hk => tidyAt_untouched (tidy_completing hwf h hcomp k)
      (relieved_untouched (completes_spares hwf hset hk))) hcomp.rebuilt

/-- Every call keeps the store tidy. -/
theorem tidy_act {c : Client} (hwf : Wf e c.store) (h : Tidy c.store) (a : ClientAction) :
    Tidy (c.act e a).store := by
  have hpage : ∀ {page : PullPage} {report : ApplyReport} {st' : Store},
      e.applyCurrentPage c.store page = .ok (report, st') → Tidy st' := by
    intro page report st' ha
    obtain ⟨moving, -, ⟨-, -, rfl⟩ | ⟨-, -, report1, st1, hr, -, rfl⟩⟩ := applyCurrentPage_eq_ok.mp ha
    · exact h
    · obtain ⟨s, hs⟩ := setCursors_frame moving.entries st1
      obtain ⟨reports, hreb, -⟩ := applyRecords_eq_ok.mp hr
      have hst := stages_all page.changes [] hwf
      rw [Store.setCursors, hs]
      change Tidy st1
      exact tidy_rebuildHeld hst.wf
        (fun k hk => (hst.new k hk).elim (absurd · List.not_mem_nil) fun h => h.1)
        (fun k _ => tidy_stages h hst k) hreb
  cases a with
  | enqueue m => exact commit_keeps (P := Tidy) h fun _ _ hr => tidy_enqueue hwf h hr
  | freeze maxBytes =>
    refine commit_keeps (P := Tidy) h fun _ st hr => ?_
    rcases freeze_spec hr with rfl | ⟨-, selected, -, -, -, rfl, -⟩
    · exact h
    · exact tidy_of_eq h rfl fun k => dirty_eq_of_opsFor
        (opsFor_map fun q => by split <;> exact ⟨rfl, rfl⟩)
  | acknowledge sequence receipt =>
    simp only [Client.act, Client.acknowledge]
    split
    · exact h
    · refine commit_keeps (P := Tidy) h fun _ _ hr => ?_
      obtain ⟨-, -, ⟨-, -, rfl⟩ | ⟨-, -, hc⟩⟩ := acknowledge_eq_ok.mp hr
      · exact h
      · exact tidy_complete hwf h hc
  | applyPage page =>
    rcases applyPage_store e c page with heq | ⟨report, ha⟩
    · simp only [Client.act, heq]; exact h
    · exact hpage ha
  | receive page request =>
    rcases receive_store e c page request with
      heq | ⟨report, ha⟩
    · simp only [Client.act, heq]; exact h
    · exact hpage ha
  | drop ordinal =>
    refine commit_keeps (P := Tidy) h fun a st hr => ?_
    obtain ⟨st1, hd, heq⟩ := Except.map_eq_ok.mp hr
    obtain ⟨-, rfl⟩ := Prod.mk.inj heq
    unfold Engine.dropMutation at hd
    split at hd
    · cases hd; exact h
    · split at hd
      · cases hd
      · exact tidy_removeRejected hwf h hd
  | setChannels changes =>
    obtain ⟨s, hs⟩ := setChannels_frame changes (c.store, [])
    simp only [Client.act, Client.setChannels, hs]
    exact h
  | pull =>
    simp only [Client.act, Client.downlinkRequest]
    split <;> exact h
  | resolve key =>
    exact tidy_of_eq h rfl fun k => dirty_eq_of_opsFor (opsFor_map fun q => ⟨rfl, rfl⟩)
  | restart => exact h

end Tidy

end AheadSync
