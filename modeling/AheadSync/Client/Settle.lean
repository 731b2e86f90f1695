import AheadSync.Client.Reject
import AheadSync.Client.Serial

/-! What a receipt changes. A refused one changes nothing, whatever the store refused and after
    however many writes; a duplicate changes nothing; any other takes exactly the mutations it
    settles off the queue, and leaves alone every record that neither it, nor a mutation it removes,
    nor a cascade names. -/

namespace AheadSync

/-- A record keeps its rows, its queued operations and its stamp. -/
structure Unmoved (st st' : Store) (k : RecordKey) : Prop extends Untouched st st' k where
  stamp : st'.recordStamp k = st.recordStamp k

/-- The records a delivered deletion takes with it. -/
def Engine.takenBy (e : Engine) (st : Store) (r : AuthorityRecord) : List RecordKey :=
  match e.recordKey r.model r.identity with
  | .ok key =>
    if r.error = none ∧ st.recordStamp key < r.stamp ∧ r.state.isNull then
      ((e.descendants (st.setTruth key none) key).toOption).getD []
    else []
  | .error _ => []

/-- The records the deletions of a delivery take with them, in the order they are staged. -/
def Engine.takenAll (e : Engine) : Store → Held → List AuthorityRecord → List RecordKey
  | _, _, [] => []
  | st, held, r :: rs => e.takenBy st r ++
      e.takenAll (e.stageIsolated st held r).store (e.stageIsolated st held r).held rs

/-- The records that accepted companions write and the deletions among them take with them. -/
def Engine.takenLocally (e : Engine) (wireRows covered : Held) :
    Store × Held → List Queued → List RecordKey
  | _, [] => []
  | acc, q :: qs => ((e.localOps acc.1 wireRows q).toOption.getD []).map (·.key) ++
      match e.settleMutation wireRows covered acc q with
      | .ok acc => e.takenLocally wireRows covered acc qs
      | .error _ => []

/-- The records the cascades of a receipt find. -/
def Engine.cascades (e : Engine) (st : Store) (push : ℕ) (receipt : PushReceipt) : List RecordKey :=
  match e.checkReceipt (batchOf st push) (acceptedOf st push receipt) receipt with
  | .error _ => []
  | .ok (covered, wireRows) =>
    let start := (st, e.holdAll [] (touchedOf st push))
    e.takenLocally wireRows covered start (acceptedOf st push receipt) ++
      match e.settleCompanions wireRows covered start (acceptedOf st push receipt) with
      | .ok (mid, affected) => e.takenAll mid affected receipt.records
      | .error _ => []

/-- Nothing of a receipt touches a record: it does not carry it, no mutation that leaves the queue
    has an operation on it, no cascade finds it, and no queued deletion is extended to it. -/
structure Spared (e : Engine) (st : Store) (push : ℕ) (receipt : PushReceipt) (st' : Store)
    (k : RecordKey) : Prop where
  delivered : ∀ r ∈ receipt.records, e.recordKey r.model r.identity ≠ .ok k
  removed : ∀ q ∈ st.queue, (∀ q' ∈ st'.queue, q'.ordinal ≠ q.ordinal) →
    ∀ op ∈ q.mutation.allOps, op.key ≠ k
  cascades : k ∉ e.cascades st push receipt
  pending : ∀ q' ∈ st'.queue, ∀ op ∈ q'.mutation.effects, op.key = k →
    ∃ q ∈ st.queue, q.ordinal = q'.ordinal ∧ op ∈ q.mutation.effects

section Frame
variable {e : Engine} {st st' st'' : Store} {held : Held} {k : RecordKey} {r : AuthorityRecord}
  {wireRows covered : Held}

theorem unmoved_refl : Unmoved st st k := ⟨untouched_refl st k, rfl⟩

theorem unmoved_trans (h : Unmoved st st' k) (h' : Unmoved st' st'' k) : Unmoved st st'' k :=
  ⟨untouched_trans h.toUntouched h'.toUntouched, h'.stamp.trans h.stamp⟩

/-- A companion operation writes the base of its own record, unless the receipt covers it. -/
theorem unmoved_settleOp (h : Wf e st) {op : Operation} (hop : OpOk e op)
    (hk : op.key = k → k ∈ covered) {out : Store × Held} (hs : e.settleOp wireRows covered (st, held) op = .ok out) :
    Unmoved st out.1 k ∧ (k ∈ out.2 → k ∈ held) := by
  rcases (settleOp_eq_ok h hop).mp hs with ⟨-, rfl⟩ | ⟨hno, hwrites⟩
  · exact ⟨unmoved_refl, id⟩
  have hne : k ≠ op.key := fun heq => hno (Or.inr (heq ▸ hk heq.symm))
  rcases hwrites with ⟨row, -, rfl⟩ | ⟨-, rfl⟩
  · exact ⟨⟨⟨rfl, by simp [hne], rfl⟩, rfl⟩, fun hm => (mem_hold.mp hm).resolve_left hne⟩
  · exact ⟨unmoved_refl, fun hm => (mem_hold.mp hm).resolve_left hne⟩

theorem unmoved_settleMutation (h : Wf e st) {q : Queued} (hq : ∀ op ∈ q.mutation.allOps, OpOk e op)
    {ops : List Operation} (hl : e.localOps st wireRows q = .ok ops)
    (hk : k ∈ ops.map (·.key) → k ∈ covered) {out : Store × Held} (hs : e.settleMutation wireRows covered (st, held) q = .ok out) :
    Wf e out.1 ∧ Unmoved st out.1 k ∧ (k ∈ out.2 → k ∈ held) := by
  have hops := localOps_ok h hq hl
  simp only [Engine.settleMutation, hl, Except.ok_bind] at hs
  refine List.foldlM_ok_induction
    (fun s : Store × Held => Wf e s.1 ∧ Unmoved st s.1 k ∧ (k ∈ s.2 → k ∈ held)) ?_
    ⟨h, unmoved_refl, id⟩ hs
  rintro ⟨s, hd⟩ op t hop ⟨hwf, hunmoved, hheld⟩ hstep
  have hcovered : op.key = k → k ∈ covered := fun heq => hk (heq ▸ List.mem_map_of_mem hop)
  obtain ⟨hunmoved', hheld'⟩ := unmoved_settleOp hwf (hops op hop) hcovered hstep
  exact ⟨(settles_op hwf (hops op hop) hstep).wf, unmoved_trans hunmoved hunmoved', fun hm => hheld (hheld' hm)⟩

/-- Settling companions leaves alone what they do not write and what the receipt covers. -/
theorem unmoved_settleCompanions : ∀ {accepted : List Queued} {acc out : Store × Held}, Wf e acc.1 →
    (∀ q ∈ accepted, ∀ op ∈ q.mutation.allOps, OpOk e op) →
    (k ∈ e.takenLocally wireRows covered acc accepted → k ∈ covered) →
    e.settleCompanions wireRows covered acc accepted = .ok out →
    Unmoved acc.1 out.1 k ∧ (k ∈ out.2 → k ∈ acc.2)
  | [], acc, out, _, _, _, hs => by
    obtain rfl : acc = out := by simpa [Engine.settleCompanions, pure, Except.pure] using hs
    exact ⟨unmoved_refl, id⟩
  | q :: qs, acc, out, h, hq, hk, hs => by
    simp only [Engine.settleCompanions, List.foldlM_cons, Except.bind_eq_ok] at hs
    obtain ⟨mid, hstep, hrest⟩ := hs
    have hlocal : ∃ ops, e.localOps acc.1 wireRows q = .ok ops := by
      have hstep' := hstep
      simp only [Engine.settleMutation, Except.bind_eq_ok] at hstep'
      obtain ⟨ops, hl, -⟩ := hstep'
      exact ⟨ops, hl⟩
    obtain ⟨ops, hl⟩ := hlocal
    simp only [Engine.takenLocally, hl, hstep, Except.toOption, Option.getD_some,
      List.mem_append] at hk
    obtain ⟨hwf, hunmoved, hheld⟩ :=
      unmoved_settleMutation h (hq q (List.mem_cons_self ..)) hl (fun hin => hk (Or.inl hin)) hstep
    obtain ⟨hunmoved', hheld'⟩ := unmoved_settleCompanions hwf
      (fun x hx => hq x (List.mem_cons_of_mem _ hx)) (fun hin => hk (Or.inr hin)) hrest
    exact ⟨unmoved_trans hunmoved hunmoved', fun hm => hheld (hheld' hm)⟩

/-- What a landing record takes with it. -/
theorem landing_found {key : RecordKey} {row : Option Value} {found : List RecordKey}
    (hl : Landing e st r key row found) : found = e.takenBy st r := by
  have hnew := hl.newer
  have hcascade := hl.cascade
  have hcontent := hl.content
  unfold Engine.incomingRow at hcontent
  simp only [Engine.takenBy, hl.identity, hl.noError, hnew, true_and]
  by_cases hnull : r.state.isNull = true
  · rw [if_pos hnull] at hcontent
    obtain rfl := Except.ok.inj hcontent
    simp only [Engine.cascadeOf, ↓reduceIte] at hcascade
    simp [hnull, hcascade, Except.toOption]
  · rw [if_neg hnull] at hcontent
    simp only [Except.bind_eq_ok, Except.pure_eq_ok] at hcontent
    obtain ⟨v, -, rfl⟩ := hcontent
    simp only [Engine.cascadeOf, reduceCtorEq, ↓reduceIte, Except.ok.injEq] at hcascade
    simp [hnull, hcascade]

/-- Staging one record leaves alone what it neither carries nor takes with it. -/
theorem unmoved_stageIsolated (h : Wf e st) (hr : e.recordKey r.model r.identity ≠ .ok k)
    (hk : k ∉ e.takenBy st r) : Unmoved st (e.stageIsolated st held r).store k ∧
      (k ∈ (e.stageIsolated st held r).held → k ∈ held) := by
  by_cases hl : ∃ key row found, Landing e st r key row found
  · obtain ⟨key, row, found, hl⟩ := hl
    have hne : k ≠ key := fun heq => hr (heq ▸ hl.identity)
    have hfound : k ∉ found := by rw [landing_found hl]; exact hk
    rw [stageIsolated_landing h hl]
    refine ⟨⟨untouched_landed hne hfound, by rw [landed_stamp, if_neg hne]⟩, fun hm => ?_⟩
    refine (mem_heldAfter.mp hm).resolve_right fun hmem => ?_
    exact (List.mem_cons.mp hmem.1).elim hne hfound
  · obtain ⟨hst, -, hnew, -⟩ := stageIsolated_refused h held hl
    rw [hst]
    exact ⟨unmoved_refl, fun hm => (hnew k hm).resolve_right fun ⟨hkey, _⟩ => hr hkey⟩

theorem unmoved_stageAll : ∀ {rs : List AuthorityRecord} {st : Store} {held : Held}, Wf e st →
    (∀ r ∈ rs, e.recordKey r.model r.identity ≠ .ok k) → k ∉ e.takenAll st held rs →
    Unmoved st (e.stageAll st held rs).1 k ∧ (k ∈ (e.stageAll st held rs).2.1 → k ∈ held)
  | [], _, _, _, _, _ => ⟨unmoved_refl, id⟩
  | r :: rs, st, held, h, hr, hk => by
    simp only [Engine.takenAll, List.mem_append, not_or] at hk
    obtain ⟨hunmoved, hheld⟩ := unmoved_stageIsolated h (hr r (List.mem_cons_self ..)) hk.1
    obtain ⟨hunmoved', hheld'⟩ := unmoved_stageAll (stages_step h held r).wf
      (fun x hx => hr x (List.mem_cons_of_mem _ hx)) hk.2
    exact ⟨unmoved_trans hunmoved hunmoved', fun hm => hheld (hheld' hm)⟩

/-- Rebuilding held records leaves the others alone. -/
theorem unmoved_rebuildFold (h : Wf e st) (hn : ∀ k ∈ held, Named e k) (hk : k ∉ held)
    {acc out : List Report × Store} (hacc : acc.2 = st)
    (hr : held.foldlM e.rebuildStep acc = .ok out) : Untouched st out.2 k := by
  refine (List.foldlM_ok_induction
    (fun s : List Report × Store => Wf e s.2 ∧ Untouched st s.2 k) ?_
    ⟨hacc ▸ h, hacc ▸ untouched_refl _ _⟩ hr).2
  intro s key t hkey hs hstep
  obtain ⟨failed, hreb⟩ := rebuildStep_eq_ok hstep
  have hne : k ≠ key := fun heq => hk (heq ▸ hkey)
  exact ⟨wf_rebuild hs.1 (hn key hkey) hreb,
    untouched_trans hs.2 (untouched_rebuild hs.1 (hn key hkey) hreb hne)⟩

/-- A grown mutation keeps its effects. -/
theorem Grown.effects {q q' : Queued} (h : Grown q q') {op : Operation}
    (hop : op ∈ q.mutation.effects) : op ∈ q'.mutation.effects := by
  obtain ⟨extra, hmut⟩ := h.mutation
  rw [hmut]
  exact List.mem_append_left _ hop

/-- Extending queued deletes leaves alone what none is extended to. -/
theorem unmoved_refreshPending (h : Wf e st) (hr : e.refreshPending st = .ok st')
    (hpend : ∀ q ∈ st.queue, ∀ q' ∈ st'.queue, q'.ordinal = q.ordinal →
      ∀ op ∈ q'.mutation.effects, op.key = k → op ∈ q.mutation.effects) : Untouched st st' k := by
  refine (refresh_induction
    (fun s => Extends st s ∧ (Untouched st s k ∨ ∃ q ∈ st.queue, ∃ q' ∈ s.queue,
      q'.ordinal = q.ordinal ∧ deleteOf k ∈ q'.mutation.effects ∧
      q.mutation.effects.any (·.key = k) = false)) ?_ h
    ⟨extends_refl st, Or.inl (untouched_refl _ _)⟩ hr).1.2.resolve_right ?_
  · rintro s q child t hq hc ⟨hext, hor⟩ hwf hx
    have hgrow := (wf_extendDelete hwf hc hx).2
    refine ⟨extends_trans hext hgrow, ?_⟩
    rcases hor with hunmoved | ⟨p, hp, p', hp', hord, hop, hnone⟩
    · by_cases hk : k = child
      · subst hk
        rcases (extendDelete_eq_ok hc).mp hx with ⟨-, rfl⟩ | ⟨hnone, failed, hreb⟩
        · exact Or.inl hunmoved
        · -- the deletion joins the effects of `q`, and the rebuild keeps it there
          obtain ⟨q1, hq1, hg1⟩ := List.forall₂_mem_left hext.queue hq
          obtain ⟨q2, hq2, hg2⟩ := List.forall₂_mem_left (extends_holdTruth s k).queue hq1
          have hmem : ({ q2 with mutation := { q2.mutation with
              effects := q2.mutation.effects ++ [deleteOf k] } } : Queued) ∈
              (withEffect (s.holdTruth k) q.ordinal k).queue := by
            refine List.mem_map.mpr ⟨q2, hq2, if_pos ?_⟩
            rw [hg2.ordinal, hg1.ordinal]
          have hw := wf_withEffect (n := q.ordinal) (wf_holdTruth hwf k) hc
          obtain ⟨q3, hq3, hg3⟩ := List.forall₂_mem_left
            (extends_rebuild hw (named_of_canonical hc) hreb).queue hmem
          refine Or.inr ⟨q, hq, q3, hq3, ?_, hg3.effects (by simp), hnone⟩
          rw [hg3.ordinal]
          exact hg2.ordinal.trans hg1.ordinal
      · exact Or.inl (untouched_trans hunmoved (untouched_extendDelete hwf hc hx hk))
    · obtain ⟨p2, hp2, hg⟩ := List.forall₂_mem_left hgrow.queue hp'
      exact Or.inr ⟨p, hp, p2, hp2, hg.ordinal.trans hord, hg.effects hop, hnone⟩
  · rintro ⟨q, hq, q', hq', hord, hop, hnone⟩
    have hin := hpend q hq q' hq' hord _ hop rfl
    exact absurd (List.any_eq_false.mp hnone _ hin) (by simp [Operation.key, deleteOf])

end Frame

/-- What a receipt that settles something does. -/
structure Settled (e : Engine) (st : Store) (sequence : ℕ) (receipt : PushReceipt) (st' : Store) :
    Prop where
  leaves : ∀ gone, IsLeast {s | Closed st.queue receipt.rejections s} gone → ∀ q ∈ st.queue,
    ((∃ q' ∈ st'.queue, q'.ordinal = q.ordinal) ↔
      q ∉ acceptedOf st sequence receipt ∧ q.ordinal ∉ gone)
  queued : ∀ q' ∈ st'.queue, ∃ q ∈ st.queue, q'.ordinal = q.ordinal
  completed : st'.lastCompletedPush = sequence
  idle : st'.inFlight = .ok none
  frame : ∀ k, Spared e st sequence receipt st' k → Unmoved st st' k

/-- What a receipt is refused for, before the store could refuse anything. -/
inductive Rebuffed (e : Engine) (st : Store) (sequence : ℕ) (receipt : PushReceipt) : Prop
  | batch (h : receipt.batchSequence ≠ sequence)
  | client (h : receipt.clientId ≠ st.clientId)
  | flight (hnew : st.lastCompletedPush < sequence) (h : st.inFlight ≠ .ok (some sequence))
  | ordinal (hnew : st.lastCompletedPush < sequence) (r : Rejection) (hr : r ∈ receipt.rejections)
    (h : r.ordinal ∉ (batchOf st sequence).map (·.ordinal))
  | omitted (hnew : st.lastCompletedPush < sequence) (q : Queued)
    (hq : q ∈ acceptedOf st sequence receipt) (op : Operation) (hop : op ∈ q.mutation.operations)
    (h : ∀ r ∈ receipt.records, e.recordKey r.model r.identity ≠ .ok op.key)

section Complete
variable {e : Engine} {st st' : Store} {sequence push : ℕ} {receipt : PushReceipt} {k : RecordKey}

/-- The mutations that stay are those neither accepted nor in the closure of the rejections. -/
theorem complete_queue (hwf : Wf e st) {report : ApplyReport}
    (hc : e.complete st push receipt = .ok (report, st')) :
    (∀ q ∈ st.queue, ((∃ q' ∈ st'.queue, q'.ordinal = q.ordinal) ↔
      q ∉ acceptedOf st push receipt ∧ q.ordinal ∉ (rejectedOf st receipt.rejections).keys)) ∧
    ∀ q' ∈ st'.queue, ∃ q ∈ st.queue, q'.ordinal = q.ordinal := by
  obtain ⟨covered, wireRows, mid, affected, reports, fin, hcomp, -, rfl⟩ := (complete_eq_ok hwf).mp hc
  have hset := settles_of_completes hwf hcomp.settled
  have hst := stages_all receipt.records affected hset.wf
  obtain ⟨b, hb⟩ := hset.frame
  have hqueue : (e.stageAll mid affected receipt.records).1.queue = st.queue := by rw [hst.queue, hb]
  have hunmoved : rejectedOf (e.stageAll mid affected receipt.records).1 receipt.rejections =
      rejectedOf st receipt.rejections := by rw [rejectedOf, rejectedOf, hqueue]
  have hx := (wf_rebuildHeld (wf_relieved hst.wf)
    (fun k hk => completes_named hwf receipt hset hk) hcomp.rebuilt).2
  have haccepted : ∀ q ∈ st.queue, q.ordinal ∈ (acceptedOf st push receipt).map (·.ordinal) →
      q ∈ acceptedOf st push receipt := by
    intro q hq hmem
    obtain ⟨x, hx, hord⟩ := List.mem_map.mp hmem
    obtain rfl : x = q := List.inj_on_of_nodup_map (hwf.sorted.imp fun h => ne_of_lt h)
      (mem_batchOf.mp (List.mem_of_mem_filter hx)).1 hq hord
    exact hx
  have hback : ∀ q' ∈ fin.queue, ∃ q ∈ st.queue, q'.ordinal = q.ordinal ∧
      q ∉ acceptedOf st push receipt ∧ q.ordinal ∉ (rejectedOf st receipt.rejections).keys := by
    intro q' hq'
    obtain ⟨q1, hq1, hg⟩ := List.forall₂_mem hx.queue hq'
    obtain ⟨q, hq, hnrej, hnacc, rfl⟩ := mem_relieved.mp hq1
    exact ⟨q, hqueue ▸ hq, hg.ordinal, fun h => hnacc (List.mem_map_of_mem h), hunmoved ▸ hnrej⟩
  refine ⟨fun q hq => ⟨?_, ?_⟩, fun q' hq' => ?_⟩
  · rintro ⟨q', hq', hord⟩
    obtain ⟨x, hxq, hxo, hnacc, hnrej⟩ := hback q' hq'
    obtain rfl : x = q := List.inj_on_of_nodup_map (hwf.sorted.imp fun h => ne_of_lt h)
      hxq hq (hxo.symm.trans hord)
    exact ⟨hnacc, hnrej⟩
  · rintro ⟨hnacc, hnrej⟩
    obtain ⟨q', hq', hg⟩ := List.forall₂_mem_left hx.queue
      (mem_relieved.mpr ⟨q, hqueue ▸ hq, hunmoved ▸ hnrej, fun h => hnacc (haccepted q hq h), rfl⟩)
    exact ⟨q', hq', hg.ordinal⟩
  · obtain ⟨q, hq, hord, -⟩ := hback q' hq'
    exact ⟨q, hq, hord⟩

/-- Completing a push leaves alone what nothing of its receipt touches. -/
theorem complete_unmoved (hwf : Wf e st) {report : ApplyReport}
    (hc : e.complete st push receipt = .ok (report, st')) (hk : Spared e st push receipt st' k) :
    Unmoved st st' k := by
  obtain ⟨hleaves, -⟩ := complete_queue hwf hc
  obtain ⟨covered, wireRows, mid, affected, reports, fin, hcomp, -, rfl⟩ := (complete_eq_ok hwf).mp hc
  have hset := settles_of_completes hwf hcomp.settled
  have hst := stages_all receipt.records affected hset.wf
  have hcascades := hk.cascades
  simp only [Engine.cascades, hcomp.checked, hcomp.settled, List.mem_append, not_or] at hcascades
  obtain ⟨hmid, hheld⟩ := unmoved_settleCompanions hwf (accepted_ok hwf)
    (fun hin => absurd hin hcascades.1) hcomp.settled
  obtain ⟨hstaged, hheld'⟩ := unmoved_stageAll hset.wf hk.delivered hcascades.2
  obtain ⟨b, hb⟩ := hset.frame
  have hqueue : (e.stageAll mid affected receipt.records).1.queue = st.queue := by rw [hst.queue, hb]
  have hunmoved : rejectedOf (e.stageAll mid affected receipt.records).1 receipt.rejections =
      rejectedOf st receipt.rejections := by rw [rejectedOf, rejectedOf, hqueue]
  -- a mutation of the batch, or one that is rejected with it, leaves the queue
  have hgone : ∀ q ∈ st.queue, (q ∈ acceptedOf st push receipt ∨
      q.ordinal ∈ (rejectedOf st receipt.rejections).keys) →
      ∀ op ∈ q.mutation.allOps, op.key ≠ k := by
    intro q hq hor
    refine hk.removed q hq fun q' hq' hord => ?_
    obtain ⟨hnacc, hnrej⟩ := (hleaves q hq).mp ⟨q', hq', hord⟩
    exact hor.elim hnacc hnrej
  have hbatch : ∀ q ∈ batchOf st push, q ∈ acceptedOf st push receipt ∨
      q.ordinal ∈ (rejectedOf st receipt.rejections).keys := by
    intro q hq
    by_cases hr : q.ordinal ∈ receipt.rejections.map (·.ordinal)
    · obtain ⟨r, hr, hord⟩ := List.mem_map.mp hr
      exact Or.inr (mem_rejected_keys.mpr (hord ▸ rejectedOf_least.1.1 r hr))
    · exact Or.inl (List.mem_filter.mpr ⟨hq, decide_eq_true hr⟩)
  have hfree : k ∉ e.holdAll (e.stageAll mid affected receipt.records).2.1
      (e.markedOf (e.stageAll mid affected receipt.records).1 receipt.rejections) := by
    rw [mem_holdAll, not_or]
    refine ⟨fun hm => ?_, fun hm => ?_⟩
    · have htouched : k ∈ e.holdAll [] (touchedOf st push) := hheld (hheld' hm)
      obtain ⟨q, hq, op, hop, heq⟩ := mem_touchedOf.mp (by simpa using htouched)
      exact hgone q (mem_batchOf.mp hq).1 (hbatch q hq) op hop heq
    · obtain ⟨q, hq, hrej, op, hop, heq⟩ := mem_marked.mp hm
      rw [hunmoved] at hrej
      exact hgone q (hqueue ▸ hq) (Or.inr (mem_rejected_keys.mpr hrej)) op hop heq
  have hrelieved : Untouched (e.stageAll mid affected receipt.records).1
      ((e.stageAll mid affected receipt.records).1.relieved receipt.rejections
        ((acceptedOf st push receipt).map (·.ordinal))) k := by
    refine relieved_untouched fun q hq hor => hgone q (hqueue ▸ hq) ?_
    rcases hor with hrej | hacc
    · exact Or.inr (hunmoved ▸ hrej)
    · obtain ⟨x, hx, hord⟩ := List.mem_map.mp hacc
      obtain rfl : x = q := List.inj_on_of_nodup_map (hwf.sorted.imp fun h => ne_of_lt h)
        (mem_batchOf.mp (List.mem_of_mem_filter hx)).1 (hqueue ▸ hq) hord
      exact Or.inl hx
  have hnamed := fun k hk => completes_named (k := k) hwf receipt hset hk
  obtain ⟨st1, hfold, hrefresh⟩ := rebuildHeld_eq_ok.mp hcomp.rebuilt
  obtain ⟨hwf1, hext1⟩ := wf_rebuildFold (wf_relieved hst.wf) hnamed rfl hfold
  have hrebuilt := unmoved_rebuildFold (wf_relieved hst.wf) hnamed hfree rfl hfold
  have hfin : Untouched st1 fin k := by
    refine unmoved_refreshPending hwf1 hrefresh fun q hq q' hq' hord op hop heq => ?_
    obtain ⟨q0, hq0, hord0, hop0⟩ := hk.pending q' hq' op hop heq
    obtain ⟨q1, hq1, hg⟩ := List.forall₂_mem hext1.queue hq
    obtain ⟨q2, hq2, -, -, rfl⟩ := mem_relieved.mp hq1
    obtain rfl : q2 = q0 := List.inj_on_of_nodup_map (hwf.sorted.imp fun h => ne_of_lt h)
      (hqueue ▸ hq2) hq0 (hg.ordinal.symm.trans (hord.symm.trans hord0.symm))
    exact hg.effects hop0
  have hstamps : fin.recordStamp k = (e.stageAll mid affected receipt.records).1.recordStamp k := by
    obtain ⟨m, b', qs, hf⟩ := (wf_rebuildHeld (wf_relieved hst.wf) hnamed hcomp.rebuilt).2.frame
    rw [hf]
    rfl
  have hall := untouched_trans hmid.toUntouched (untouched_trans hstaged.toUntouched
    (untouched_trans hrelieved (untouched_trans hrebuilt hfin)))
  exact ⟨⟨hall.main, hall.before, hall.ops⟩, hstamps.trans (hstaged.stamp.trans hmid.stamp)⟩

/-- A receipt that completes a push settles it. -/
theorem settled_complete (hwf : Wf e st) (h : Flight st) {report : ApplyReport}
    (hp : st.inFlight = .ok (some push)) (hc : e.complete st push receipt = .ok (report, st')) :
    Settled e st push receipt st' := by
  obtain ⟨hleaves, hqueued⟩ := complete_queue hwf hc
  refine ⟨fun gone hgone q hq => ?_, hqueued, ?_, ?_, fun k hk => complete_unmoved hwf hc hk⟩
  · have hsets : gone = {o | ((rejectedOf st receipt.rejections).lookup o).isSome} :=
      hgone.unique rejectedOf_least
    rw [hleaves q hq, hsets, mem_rejected_keys]
    rfl
  · obtain ⟨covered, wireRows, mid, affected, reports, fin, -, -, rfl⟩ := (complete_eq_ok hwf).mp hc
    rfl
  · have hfl := flight_complete hwf h hp hc
    refine (inFlight_eq hfl).mpr (Or.inl ⟨?_, rfl⟩)
    obtain ⟨covered, wireRows, mid, affected, reports, fin, hcomp, -, rfl⟩ :=
      (complete_eq_ok hwf).mp hc
    change ∀ q ∈ fin.queue, q.push = none
    rcases (inFlight_eq h).mp hp with ⟨-, h0⟩ | ⟨-, heq⟩
    · cases h0
    · exact completes_idle hwf h (Option.some.inj heq) hcomp

/-- A refused receipt answers an error. -/
theorem rebuffed_error (hwf : Wf e st) (h : Rebuffed e st sequence receipt) :
    ∃ m, e.acknowledge st sequence receipt = .error m := by
  refine Except.exists_error ?_
  rintro ⟨⟨report, st'⟩, ha⟩
  obtain ⟨hbatch, hclient, hor⟩ := acknowledge_eq_ok.mp ha
  have hcheck : st.lastCompletedPush < sequence → st.inFlight = .ok (some sequence) ∧
      ∃ covered wireRows, e.checkReceipt (batchOf st sequence) (acceptedOf st sequence receipt)
        receipt = .ok (covered, wireRows) := by
    intro hlt
    rcases hor with ⟨hle, -⟩ | ⟨-, hflight, hc⟩
    · omega
    · obtain ⟨covered, wireRows, mid, affected, reports, fin, hcomp, -⟩ := (complete_eq_ok hwf).mp hc
      exact ⟨hflight, covered, wireRows, hcomp.checked⟩
  cases h with
  | batch h => exact h hbatch
  | client h => exact h hclient
  | flight hnew h => exact h (hcheck hnew).1
  | ordinal hnew r hr h =>
    obtain ⟨-, covered, wireRows, hc⟩ := hcheck hnew
    exact h (((checkReceipt_eq_ok hwf).mp hc).1 r hr)
  | omitted hnew q hq op hop h =>
    obtain ⟨-, covered, wireRows, hc⟩ := hcheck hnew
    obtain ⟨-, hcovered, rfl, hall⟩ := (checkReceipt_eq_ok hwf).mp hc
    have hin : op.key ∈ covered := by
      refine hall _ (mem_holdAll.mpr (Or.inr ?_))
      exact List.mem_map_of_mem (List.mem_flatMap.mpr ⟨q, hq, hop⟩)
    obtain ⟨r, hr, hkey⟩ := List.mapM_mem hcovered hin
    exact h r hr hkey

end Complete

section Storage
variable {w : Writer} {file : File}

/-- A transaction that is refused anywhere leaves no trace, whatever its body wrote before. -/
theorem write_refused (h : Fenced file w) (hw : w.writing = none) (faults faults' : Faults)
    (body : Body) {w1 w2 : Writer} {file' : File} {r r' : Except String Unit}
    (hwrite : w.write file faults body = (r, w1)) (hfinish : w1.finish file faults' = (r', file', w2))
    (herr : (∃ m, r = .error m) ∨ ∃ m, r' = .error m) :
    file' = file ∧ w2.generation = w.generation ∧ w2.pulls = w.pulls ∧ w2.session = w.session ∧
      w2.transaction = w.transaction ∧ w2.writing = none := by
  rcases write_spec faults body h hw with ⟨m, heq⟩ | ⟨changed, hs, hg, heq⟩
  · obtain ⟨-, rfl⟩ := Prod.mk.inj (hwrite.symm.trans heq)
    have hidle : w1.finish file faults' = (.ok (), file, w1) := by simp [Writer.finish, hw]
    obtain ⟨-, hpair⟩ := Prod.mk.inj (hfinish.symm.trans hidle)
    obtain ⟨rfl, rfl⟩ := Prod.mk.inj hpair
    exact ⟨rfl, rfl, rfl, rfl, rfl, hw⟩
  · obtain ⟨rfl, rfl⟩ := Prod.mk.inj (hwrite.symm.trans heq)
    have ht : w.transaction = none := h.held.mpr ⟨hs, hw⟩
    obtain ⟨m, rfl⟩ := herr.resolve_left (by simp)
    have hcommit := commit_spec (w := { w with
        writing := some changed
        transaction := some ⟨file, ⟨(body file.store).2.2, []⟩,
          [.apply fun st => (body st).2.2], file.generation + 1⟩ }) faults' rfl
      ⟨rfl, le_rfl, fun _ => rfl⟩ hg rfl
    rcases hcommit with ⟨m', hc⟩ | ⟨-, hc⟩
    · simp only [Writer.finish, hc, Writer.rollback, Prod.mk.injEq] at hfinish
      obtain ⟨-, rfl, rfl⟩ := hfinish
      exact ⟨rfl, rfl, rfl, rfl, ht.symm, rfl⟩
    · simp [Writer.finish, hc] at hfinish

/-- A transaction that is not refused leaves what its body left. -/
theorem write_finished (h : Fenced file w) (hw : w.writing = none) (faults faults' : Faults)
    {α : Type} (run : Store → Except String (α × Store)) {w1 w2 : Writer} {file' : File}
    (hwrite : w.write file faults (Body.of fun st => (run st).map fun r => ((), r.2)) = (.ok (), w1))
    (hfinish : w1.finish file faults' = (.ok (), file', w2)) :
    ∃ a, run file.store = .ok (a, file'.store) := by
  cases hr : run file.store with
  | error m =>
    rcases write_spec faults (Body.of fun st => (run st).map fun r => ((), r.2)) h hw with
      ⟨m', heq⟩ | ⟨changed, hs, hg, heq⟩
    · cases (Prod.mk.inj (hwrite.symm.trans heq)).1
    · have hbody : (Body.of (fun st => (run st).map fun r => ((), r.2)) file.store).1 = .error m := by
        simp [Body.of, hr, Except.map]
      unfold Writer.write at hwrite
      simp only [hs, Option.isSome_none, Bool.false_eq_true, ↓reduceIte] at hwrite
      split at hwrite
      · cases (Prod.mk.inj hwrite).1
      · rename_i w' hb
        obtain ⟨-, rfl⟩ := begin_ok hb
        simp [Writer.perform, File.transaction, hbody] at hwrite
  | ok x =>
    obtain ⟨a, st⟩ := x
    refine ⟨a, ?_⟩
    have hbody : (Body.of (fun st => (run st).map fun r => ((), r.2)) file.store).2.2 = st := by
      simp [Body.of, hr, Except.map]
    rcases write_spec faults (Body.of fun st => (run st).map fun r => ((), r.2)) h hw with
      ⟨m', heq⟩ | ⟨changed, hs, hg, heq⟩
    · cases (Prod.mk.inj (hwrite.symm.trans heq)).1
    · obtain ⟨-, rfl⟩ := Prod.mk.inj (hwrite.symm.trans heq)
      rw [hbody] at hfinish
      simp only [Writer.finish] at hfinish
      split at hfinish
      · cases (Prod.mk.inj hfinish).1
      · rename_i file1 w' hc
        obtain ⟨t, ht, -, heq'⟩ := commit_ok hc
        obtain rfl := Option.some.inj ht
        obtain ⟨rfl, -⟩ := Prod.mk.inj heq'
        obtain ⟨rfl, -⟩ := Prod.mk.inj (Prod.mk.inj hfinish).2
        rfl

end Storage

section Receipts
variable {e : Engine}

/-- An acknowledgement is the engine's, on a receipt that is well formed. -/
theorem client_acknowledge (e : Engine) (c : Client) (sequence : ℕ) (receipt : PushReceipt) :
    (∃ m, c.acknowledge e sequence receipt = (.error m, c) ∧
      (receipt.validate = .error m ∨ e.acknowledge c.store sequence receipt = .error m)) ∨
    ∃ report st, receipt.validate = .ok () ∧
      e.acknowledge c.store sequence receipt = .ok (report, st) ∧
      c.acknowledge e sequence receipt = (.ok report, { c with store := st }) := by
  unfold Client.acknowledge
  cases hv : receipt.validate with
  | error m => exact Or.inl ⟨m, rfl, Or.inl rfl⟩
  | ok u =>
    cases ha : e.acknowledge c.store sequence receipt with
    | error m => exact Or.inl ⟨m, rfl, Or.inr rfl⟩
    | ok r => exact Or.inr ⟨r.1, r.2, rfl, rfl, rfl⟩

/-- Receipts settle all or nothing. One that is refused changes nothing, not even what the next
    freeze answers; what is refused is refused whatever else the receipt says. One at or below the
    last completed push changes nothing and is stale. Any other settles its push. In the file it is
    the same: whatever the storage refuses, and after whatever the transaction wrote, the file stays,
    and a transaction that is not refused leaves what the engine computes. -/
theorem receipts_settle {c : Client} (h : Host.Reaches e c) (sequence : ℕ) (receipt : PushReceipt) :
    (∀ m, (c.acknowledge e sequence receipt).1 = .error m →
      (c.acknowledge e sequence receipt).2 = c ∧
      ∀ maxBytes, e.freeze (c.acknowledge e sequence receipt).2.store maxBytes =
        e.freeze c.store maxBytes) ∧
    (Rebuffed e c.store sequence receipt → ∃ m, (c.acknowledge e sequence receipt).1 = .error m) ∧
    (receipt.validate = .ok () → receipt.batchSequence = sequence →
      receipt.clientId = c.store.clientId → sequence ≤ c.store.lastCompletedPush →
      c.acknowledge e sequence receipt = (.ok { stale := true }, c)) ∧
    (∀ report, (c.acknowledge e sequence receipt).1 = .ok report →
      c.store.lastCompletedPush < sequence → report.stale = false ∧
        Settled e c.store sequence receipt (c.acknowledge e sequence receipt).2.store) ∧
    ∀ (w : Writer) (file : File), Fenced file w → w.writing = none → file.store = c.store →
      ∀ faults faults' body w1 r r' file' w2, w.write file faults body = (r, w1) →
      w1.finish file faults' = (r', file', w2) →
      (((∃ m, r = .error m) ∨ ∃ m, r' = .error m) → file' = file ∧ w2.generation = w.generation ∧
        w2.pulls = w.pulls ∧ w2.session = w.session ∧ w2.transaction = w.transaction ∧
        w2.writing = none) ∧
      (body = Body.of (fun st => (e.acknowledge st sequence receipt).map fun r => ((), r.2)) →
        r = .ok () → r' = .ok () →
        ∃ report, e.acknowledge c.store sequence receipt = .ok (report, file'.store)) := by
  have hwf := wf_reaches h
  have hflight := flight_reaches h
  refine ⟨fun m hm => ?_, fun hr => ?_, fun hv hbatch hclient hle => ?_, fun report hok hlt => ?_,
    fun w file hfenced hw hstore faults faults' body w1 r r' file' w2 hwrite hfinish => ⟨fun herr => ?_,
      fun hbody hr hr' => ?_⟩⟩
  · rcases client_acknowledge e c sequence receipt with
      ⟨m', heq, -⟩ | ⟨report, st, -, -, heq⟩
    · rw [heq]
      exact ⟨rfl, fun _ => rfl⟩
    · rw [heq] at hm
      cases hm
  · obtain ⟨m, hm⟩ := rebuffed_error hwf hr
    rcases client_acknowledge e c sequence receipt with
      ⟨m', heq, -⟩ | ⟨report, st, -, hok, -⟩
    · exact ⟨m', congrArg Prod.fst heq⟩
    · rw [hm] at hok
      cases hok
  · have hack : e.acknowledge c.store sequence receipt = .ok ({ stale := true }, c.store) :=
      acknowledge_eq_ok.mpr ⟨hbatch, hclient, Or.inl ⟨hle, rfl, rfl⟩⟩
    simp only [Client.acknowledge, hv, hack, Client.commit]
  · rcases client_acknowledge e c sequence receipt with
      ⟨m', heq, -⟩ | ⟨report', st, -, hack, heq⟩
    · rw [heq] at hok
      cases hok
    · rw [heq] at hok ⊢
      obtain rfl := Except.ok.inj hok
      obtain ⟨-, -, ⟨hle, -⟩ | ⟨-, hp, hc⟩⟩ := acknowledge_eq_ok.mp hack
      · omega
      · refine ⟨?_, settled_complete hwf hflight hp hc⟩
        obtain ⟨covered, wireRows, mid, affected, reports, fin, -, hreport, -⟩ :=
          (complete_eq_ok hwf).mp hc
        rw [hreport]
        rfl
  · exact write_refused hfenced hw faults faults' body hwrite hfinish herr
  · subst hbody hr hr'
    exact hstore ▸ write_finished hfenced hw faults faults' _ hwrite hfinish

namespace Sample

/-- The push of `moving` is settled, and a second receipt for it is stale. -/
theorem receipts_settle_moving :
    (∀ q ∈ moving.store.queue, q.ordinal = 1 →
      q ∈ acceptedOf moving.store 1 ⟨"me", 1, [], [record "a" "x" 1]⟩) ∧
    (∃ report, (moving.acknowledge loose 1 ⟨"me", 1, [], [record "a" "x" 1]⟩).1 = .ok report ∧
      Settled loose moving.store 1 ⟨"me", 1, [], [record "a" "x" 1]⟩
        (moving.acknowledge loose 1 ⟨"me", 1, [], [record "a" "x" 1]⟩).2.store) := by
  obtain ⟨-, -, -, hsettled, -⟩ := receipts_settle (client_reaches loose
    [.enqueue { name := "put", operations := [create "a" "x"] }, .freeze 1000,
      .enqueue { name := "move", operations := [move "a" "y"] }]) 1 ⟨"me", 1, [], [record "a" "x" 1]⟩
  obtain ⟨report, hok⟩ := Except.exists_ok
    (show (moving.acknowledge loose 1 ⟨"me", 1, [], [record "a" "x" 1]⟩).1.isOk = true by
      decide +kernel)
  exact ⟨by decide +kernel, report, hok, (hsettled report hok (by decide +kernel)).2⟩

end Sample

end Receipts

end AheadSync
