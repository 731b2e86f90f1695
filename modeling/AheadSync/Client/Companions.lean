import AheadSync.Client.Commute
import AheadSync.Client.Settle

/-! Local-only companions. With neither unique constraints nor cascading relations a receipt folds
    the companions of the mutations it accepts into the bases of records the server did not report,
    in the order of the queue; replaying what stays queued over them shows what the record showed
    before. -/

namespace AheadSync

/-- Fold operations into a base, leaving out those that do not apply. -/
def foldInto (row : Option Value) (ops : List Operation) : Option Value :=
  ops.foldl (fun row op => (applyToRow row op).toOption.getD row) row

/-- What replaying operations over a base shows. -/
def replayed (base : Option Value) (ops : List QueuedOp) : Option Value :=
  match replay base ops with
  | .ok row => row
  | .error _ => base

/-- The companions a receipt accepts that target a record, in the order of the queue. -/
def companionsOn (st : Store) (push : ℕ) (receipt : PushReceipt) (k : RecordKey) : List Operation :=
  ((acceptedOf st push receipt).flatMap (·.mutation.companion)).filter (·.key = k)

section Fold
variable {e : Engine} {st : Store} {wireRows : Held} {covered : List RecordKey} {row row' : Option Value}
  {ops : List Operation} {k : RecordKey}

/-- Operations that all apply fold into what replaying them leaves. -/
theorem foldInto_of_replays (h : replayOps row ops = .ok row') : foldInto row ops = row' := by
  induction ops generalizing row with
  | nil => exact Except.ok.inj h
  | cons op ops ih =>
    simp only [replayOps, List.foldlM_cons, Except.bind_eq_ok] at h
    obtain ⟨mid, hmid, h⟩ := h
    rw [foldInto, List.foldl_cons, hmid]
    exact ih h

theorem foldInto_append {ops' : List Operation} :
    foldInto row (ops ++ ops') = foldInto (foldInto row ops) ops' := List.foldl_append

/-- Without cascades, folding operations folds each into the base of its own record. -/
theorem settleOps_plain : ∀ {ops : List Operation} {acc : Store × Held}, Wf e acc.1 →
    (∀ op ∈ ops, OpOk e op) → ∃ out, ops.foldlM (e.settleOp wireRows covered) acc = .ok out ∧
      (∀ k ∈ out.2, k ∈ acc.2 ∨ ∃ op ∈ ops, op.key = k) ∧
      ∀ k, k ∉ wireRows → k ∉ covered →
        out.1.before.lookup k = foldInto (acc.1.before.lookup k) (ops.filter (·.key = k))
  | [], acc, _, _ => ⟨acc, rfl, fun _ h => Or.inl h, fun _ _ _ => rfl⟩
  | op :: ops, (s, held), hwf, hops => by
    have hop := hops op (List.mem_cons_self ..)
    obtain ⟨mid, hmid, hheld, hbase⟩ : ∃ mid, e.settleOp wireRows covered (s, held) op = .ok mid ∧
        (∀ k ∈ mid.2, k ∈ held ∨ op.key = k) ∧ ∀ k, k ∉ wireRows → k ∉ covered → mid.1.before.lookup k =
          if op.key = k then (applyToRow (s.before.lookup k) op).toOption.getD (s.before.lookup k)
          else s.before.lookup k := by
      by_cases hcov : op.key ∈ wireRows ∨ op.key ∈ covered
      · refine ⟨_, (settleOp_eq_ok hwf hop).mpr (Or.inl ⟨hcov, rfl⟩), fun _ h => Or.inl h,
          fun k hw hc => ?_⟩
        rw [if_neg]
        rintro rfl
        exact hcov.elim hw hc
      · cases ha : applyToRow (s.before.lookup op.key) op with
        | ok row =>
          refine ⟨_, (settleOp_eq_ok hwf hop).mpr (Or.inr ⟨hcov, Or.inl ⟨row, ha, rfl⟩⟩),
            fun k hm => (mem_hold.mp hm).symm.imp_right Eq.symm, fun k _ _ => ?_⟩
          by_cases hk : op.key = k
          · subst hk
            simp [ha, Except.toOption]
          · simp [hk, AList.lookup_put_ne (Ne.symm hk)]
        | error m =>
          refine ⟨_, (settleOp_eq_ok hwf hop).mpr (Or.inr ⟨hcov, Or.inr ⟨⟨m, ha⟩, rfl⟩⟩),
            fun k hm => (mem_hold.mp hm).symm.imp_right Eq.symm, fun k _ _ => ?_⟩
          by_cases hk : op.key = k
          · subst hk
            simp [ha, Except.toOption]
          · simp [hk]
    obtain ⟨out, hout, hnew, hrest⟩ := settleOps_plain (settles_op hwf hop hmid).wf
      fun o ho => hops o (List.mem_cons_of_mem _ ho)
    refine ⟨out, by rw [List.foldlM_cons, hmid]; exact hout, fun k hm => ?_, fun k hw hc => ?_⟩
    · rcases hnew k hm with hm | ⟨o, ho, hk⟩
      · exact (hheld k hm).imp_right fun hk => ⟨op, List.mem_cons_self .., hk⟩
      · exact Or.inr ⟨o, List.mem_cons_of_mem _ ho, hk⟩
    rw [hrest k hw hc, hbase k hw hc, List.filter_cons]
    by_cases hk : op.key = k
    · simp [hk, foldInto]
    · simp [hk]

/-- Without cascades the local operations of a mutation are its companions. -/
theorem localOps_plain (hc : NoCascade e) (hwf : Wf e st) {q : Queued}
    (hq : ∀ op ∈ q.mutation.allOps, OpOk e op) : e.localOps st wireRows q = .ok q.mutation.companion := by
  have hdeletes : (q.mutation.companion.filter (·.op = .delete)).mapM e.opKey =
      .ok ((q.mutation.companion.filter (·.op = .delete)).map (·.key)) :=
    mapM_opKey fun op hop => hq op (by simp [Mutation.allOps, List.mem_of_mem_filter hop])
  have hnone : ∀ keys : List RecordKey, keys.mapM (e.descendants st) = .ok (keys.map fun _ => []) :=
    fun keys => List.mapM_eq_ok_of fun key _ => descendants_nil hc hwf
  simp only [Engine.localOps, hdeletes, hnone, Except.ok_bind]
  simp

/-- So settling folds the companions of the accepted mutations, in order. -/
theorem settleCompanions_plain (hc : NoCascade e) : ∀ {accepted : List Queued} {acc : Store × Held},
    Wf e acc.1 → (∀ q ∈ accepted, ∀ op ∈ q.mutation.allOps, OpOk e op) →
    ∃ out, e.settleCompanions wireRows covered acc accepted = .ok out ∧
      (∀ k ∈ out.2, k ∈ acc.2 ∨ ∃ q ∈ accepted, ∃ op ∈ q.mutation.allOps, op.key = k) ∧
      ∀ k, k ∉ wireRows → k ∉ covered → out.1.before.lookup k =
        foldInto (acc.1.before.lookup k) ((accepted.flatMap (·.mutation.companion)).filter (·.key = k))
  | [], acc, _, _ => ⟨acc, rfl, fun _ h => Or.inl h, fun _ _ _ => rfl⟩
  | q :: accepted, (s, held), hwf, hq => by
    have hlocal : e.localOps s wireRows q = .ok q.mutation.companion :=
      localOps_plain hc hwf (hq q (List.mem_cons_self ..))
    have hops : ∀ op ∈ q.mutation.companion, OpOk e op := fun op hop =>
      hq q (List.mem_cons_self ..) op (by simp [Mutation.allOps, hop])
    obtain ⟨mid, hmid, hheld, hbase⟩ : ∃ mid,
        q.mutation.companion.foldlM (e.settleOp wireRows covered) (s, held) = .ok mid ∧ _ :=
      settleOps_plain hwf hops
    have hstep : e.settleMutation wireRows covered (s, held) q = .ok mid := by
      rw [Engine.settleMutation, hlocal]
      exact hmid
    obtain ⟨out, hout, hnew, hrest⟩ := settleCompanions_plain hc
      (settles_mutation hwf (hq q (List.mem_cons_self ..)) hstep).wf
      fun x hx => hq x (List.mem_cons_of_mem _ hx)
    refine ⟨out, ?_, fun k hm => ?_, fun k hw hcov => ?_⟩
    · rw [Engine.settleCompanions, List.foldlM_cons, hstep]
      exact hout
    · rcases hnew k hm with hm | ⟨x, hx, hop⟩
      · refine (hheld k hm).imp_right fun h => ?_
        obtain ⟨op, hop, hk⟩ := h
        exact ⟨q, List.mem_cons_self .., op, by simp [Mutation.allOps, hop], hk⟩
      · exact Or.inr ⟨x, List.mem_cons_of_mem _ hx, hop⟩
    · rw [hrest k hw hcov, hbase k hw hcov, List.flatMap_cons, List.filter_append, foldInto_append]

/-- Without cascades a delivery takes nothing with it. -/
theorem takenAll_plain (hc : NoCascade e) : ∀ {rs : List AuthorityRecord} {st : Store} (held : Held),
    Wf e st → e.takenAll st held rs = []
  | [], _, _, _ => rfl
  | r :: rs, st, held, hwf => by
    have htaken : e.takenBy st r = [] := by
      unfold Engine.takenBy
      cases hk : e.recordKey r.model r.identity with
      | error m => rfl
      | ok key =>
        simp only [descendants_nil hc (wf_setTruth hwf (recordKey_named hk) rowFor_none),
          Except.toOption, Option.getD_some, ite_self]
    rw [Engine.takenAll, htaken, takenAll_plain hc _ (stages_step hwf held r).wf]
    rfl

end Fold

/-- What a completed push makes of a record its receipt does not report. -/
structure Uncovered (e : Engine) (st : Store) (push : ℕ) (receipt : PushReceipt) (fin : Store)
    (k : RecordKey) : Prop where
  ops : fin.opsFor k = (st.relieved receipt.rejections
    ((acceptedOf st push receipt).map (·.ordinal))).opsFor k
  stamp : fin.recordStamp k = st.recordStamp k
  spared : ¬Removes e st push receipt.rejections k → Untouched st fin k
  before : Removes e st push receipt.rejections k → fin.before.lookup k =
    if fin.dirty k then foldInto (st.before.lookup k) (companionsOn st push receipt k) else none
  main : Removes e st push receipt.rejections k → fin.main.lookup k =
    replayed (foldInto (st.before.lookup k) (companionsOn st push receipt k)) (fin.opsFor k)

section Complete
variable {e : Engine} {st : Store} {push : ℕ} {receipt : PushReceipt} {wireRows : Held}
  {covered : List RecordKey} {k : RecordKey}

/-- With a plain schema a receipt that passes its checks completes the push. -/
theorem complete_uncovered (hp : Plain e) (hwf : Wf e st)
    (hcheck : e.checkReceipt (batchOf st push) (acceptedOf st push receipt) receipt =
      .ok (covered, wireRows)) :
    ∃ report fin, e.complete st push receipt = .ok (report, fin) ∧
      ∀ k, (∀ r ∈ receipt.records, e.recordKey r.model r.identity ≠ .ok k) →
        Uncovered e st push receipt fin k := by
  obtain ⟨⟨mid, affected⟩, hsettle, hnew, hbase⟩ : ∃ out, e.settleCompanions wireRows covered
      (st, e.holdAll [] (touchedOf st push)) (acceptedOf st push receipt) = .ok out ∧ _ :=
    settleCompanions_plain hp.noCascade hwf (accepted_ok hwf)
  have hset := settles_of_completes hwf hsettle
  have hst := stages_all receipt.records affected hset.wf
  have hnamed := fun k hk => completes_named (k := k) hwf receipt hset hk
  have hnd : (e.holdAll (e.stageAll mid affected receipt.records).2.1
      (e.markedOf (e.stageAll mid affected receipt.records).1 receipt.rejections)).Nodup :=
    (heldOk_holdAll (heldOk_stageAll hset.wf (heldOk_settleCompanions hwf (accepted_ok hwf) hsettle))).nodup
  obtain ⟨reports, fin, hr, hreb⟩ := rebuildHeld_plain hp
    (wf_relieved hst.wf : Wf e ((e.stageAll mid affected receipt.records).1.relieved
      receipt.rejections ((acceptedOf st push receipt).map (·.ordinal)))) hnamed hnd
  have hcomp : Completes e st push receipt covered wireRows mid affected reports fin :=
    ⟨hcheck, hsettle, hr⟩
  refine ⟨_, _, (complete_eq_ok hwf).mpr ⟨covered, wireRows, mid, _, reports, fin, hcomp, rfl, rfl⟩,
    fun k hk => ?_⟩
  obtain ⟨-, hcov, -, hwire⟩ := (checkReceipt_eq_ok hwf).mp hcheck
  have hnot : k ∉ covered := fun hmem => by
    obtain ⟨r, hmem, hr⟩ := List.mapM_mem hcov hmem
    exact hk r hmem hr
  have htaken : k ∉ e.takenAll mid affected receipt.records := by
    rw [takenAll_plain hp.noCascade affected hset.wf]
    exact List.not_mem_nil
  obtain ⟨hstaged, hheld⟩ := unmoved_stageAll hset.wf hk htaken
  have hfold : (e.stageAll mid affected receipt.records).1.before.lookup k =
      foldInto (st.before.lookup k) (companionsOn st push receipt k) :=
    hstaged.before.trans (hbase k (fun h => hnot (hwire k h)) hnot)
  obtain ⟨b, hb⟩ := hset.frame
  have hqueue : (e.stageAll mid affected receipt.records).1.queue = st.queue := by rw [hst.queue, hb]
  have hmem : k ∈ e.holdAll (e.stageAll mid affected receipt.records).2.1
      (e.markedOf (e.stageAll mid affected receipt.records).1 receipt.rejections) ↔
      Removes e st push receipt.rejections k := by
    rw [mem_holdAll, markedOf_queue hqueue]
    refine or_congr_left ⟨fun hm => ?_, fun hm => hst.grows k (hset.grows k ?_)⟩
    · rcases hnew k (hheld hm) with hm | ⟨q, hq, op, hop, rfl⟩
      · simpa using hm
      · exact mem_touchedOf.mpr ⟨q, List.mem_of_mem_filter hq, op, hop, rfl⟩
    · simpa using hm
  have hfin : fin.opsFor k = (st.relieved receipt.rejections
      ((acceptedOf st push receipt).map (·.ordinal))).opsFor k :=
    (bare_opsFor hreb.bare).trans (opsFor_of_queue (relieved_queue hqueue _ _))
  have hdirty : fin.dirty k = ((e.stageAll mid affected receipt.records).1.relieved
      receipt.rejections ((acceptedOf st push receipt).map (·.ordinal))).dirty k :=
    bare_dirty hreb.bare
  refine ⟨hfin, ?_, fun hno => ⟨?_, ?_, ?_⟩, fun hrem => ?_, fun hrem => ?_⟩
  · have hstamp : fin.recordStamp k = (e.stageAll mid affected receipt.records).1.recordStamp k :=
      (rebuildHeld_frame (wf_relieved hst.wf) hnamed hr).1 k
    exact hstamp.trans (hstaged.stamp.trans (by rw [hb]; rfl))
  · refine (hreb.main k).trans ?_
    rw [if_neg (mt hmem.mp hno)]
    exact hstaged.main.trans (by rw [hb])
  · refine (hreb.before k).trans ?_
    rw [if_neg fun h => hno (hmem.mp h.1)]
    refine hstaged.before.trans (hset.before k fun hm => hno (Or.inl ?_))
    rcases hnew k hm with hm | ⟨q, hq, op, hop, rfl⟩
    · simpa using hm
    · exact mem_touchedOf.mpr ⟨q, List.mem_of_mem_filter hq, op, hop, rfl⟩
  · refine hfin.trans (relieved_untouched fun q hq hor => ?_).ops
    exact not_removes hno q hq hor (hwf.sorted.imp fun h => ne_of_lt h)
  · refine (hreb.before k).trans ?_
    change _ = if fin.dirty k then _ else _
    rw [← hdirty]
    cases hd : fin.dirty k with
    | true => exact (if_neg (by simp)).trans hfold
    | false => exact if_pos ⟨hmem.mpr hrem, rfl⟩
  · refine (hreb.main k).trans ?_
    rw [if_pos (hmem.mpr hrem)]
    change replayed ((e.stageAll mid affected receipt.records).1.before.lookup k) _ = _
    rw [hfold, ← bare_opsFor hreb.bare]
    rfl

/-- A list whose chosen elements that count come first splits into them and the others. -/
theorem flatMap_split {α β : Type} {p : α → Bool} {f : α → List β} : ∀ {l : List α},
    l.Pairwise (fun a b => p a = false → f a ≠ [] → p b = true → f b = []) →
    l.flatMap f = (l.filter p).flatMap f ++ (l.filter (!p ·)).flatMap f
  | [], _ => rfl
  | a :: l, h => by
    obtain ⟨hhead, htail⟩ := List.pairwise_cons.mp h
    have ih := flatMap_split htail
    cases hp : p a with
    | true => simp [hp, ih]
    | false =>
      by_cases hf : f a = []
      · simp [hp, hf, ih]
      · have hnil : (l.filter p).flatMap f = [] := List.flatMap_eq_nil_iff.mpr fun b hb =>
          hhead b (List.mem_of_mem_filter hb) hp hf (List.mem_filter.mp hb).2
        simp [hp, ih, hnil]

theorem relieved_opsFor {rejections : List Rejection} {ns : List ℕ} :
    (st.relieved rejections ns).opsFor k =
      (st.queue.filter fun q => q.ordinal ∉ (rejectedOf st rejections).keys ∧ q.ordinal ∉ ns).flatMap
        fun q => (q.mutation.allOps.filter (·.key = k)).map (⟨q.ordinal, ·⟩) := by
  rw [Store.relieved, deleteMutations_opsFor]
  change (((st.deleteMutations _).queue.filter _).flatMap _) = _
  rw [deleteMutations_queue, List.filter_map, List.flatMap_map, List.filter_filter]
  refine congrArg (List.flatMap _) (List.filter_congr fun q _ => ?_)
  simp [Queued.forget, and_comm]

end Complete

/-- A receipt for the push in flight: it decodes, answers the push of this client, rejects only
    mutations of it and reports every record the accepted ones target. -/
structure ValidReceipt (e : Engine) (st : Store) (push : ℕ) (receipt : PushReceipt) : Prop where
  decoded : receipt.validate = .ok ()
  batch : receipt.batchSequence = push
  client : receipt.clientId = st.clientId
  flight : st.inFlight = .ok (some push)
  checked : ∃ checks, e.checkReceipt (batchOf st push) (acceptedOf st push receipt) receipt = .ok checks

/-- The record's queued operations are companions of accepted mutations, at least one, followed only
    by operations of mutations with larger ordinals that are still queued in `st'`. -/
structure CompanionsFirst (st : Store) (push : ℕ) (receipt : PushReceipt) (st' : Store)
    (k : RecordKey) : Prop where
  some : companionsOn st push receipt k ≠ []
  own : ∀ q ∈ acceptedOf st push receipt, ∀ op ∈ q.mutation.operations ++ q.mutation.effects, op.key ≠ k
  rest : ∀ q ∈ st.queue, q ∉ acceptedOf st push receipt → (∃ op ∈ q.mutation.allOps, op.key = k) →
    (∃ q' ∈ st'.queue, q'.ordinal = q.ordinal) ∧
      ∀ a ∈ acceptedOf st push receipt, (∃ op ∈ a.mutation.companion, op.key = k) →
        a.ordinal < q.ordinal

section Survive
variable {e : Engine} {st : Store} {push : ℕ} {receipt : PushReceipt} {k : RecordKey}

theorem replayOps_of_replay : ∀ {qs : List QueuedOp} {row row' : Option Value},
    replay row qs = .ok row' → replayOps row (qs.map (·.op)) = .ok row'
  | [], _, _, h => congrArg Except.ok (Except.ok.inj h)
  | q :: qs, row, row', h => by
    simp only [replay] at h
    cases ha : applyToRow row q.op with
    | error m => rw [ha] at h; cases h
    | ok mid =>
      rw [ha] at h
      rw [List.map_cons, replayOps, List.foldlM_cons, ha]
      exact replayOps_of_replay h

/-- The queued operations of such a record: the accepted companions, then those that stay. -/
theorem companionsFirst_opsFor (hwf : Wf e st) {report : ApplyReport} {st' : Store}
    (hc : e.complete st push receipt = .ok (report, st')) (h : CompanionsFirst st push receipt st' k) :
    ∃ own, own.map (·.op) = companionsOn st push receipt k ∧
      st.opsFor k = own ++ (st.relieved receipt.rejections
        ((acceptedOf st push receipt).map (·.ordinal))).opsFor k := by
  obtain ⟨hleaves, -⟩ := complete_queue hwf hc
  have hnodup : (st.queue.map (·.ordinal)).Nodup := hwf.sorted.imp fun h => ne_of_lt h
  let p : Queued → Bool := fun q =>
    q.push = some push ∧ q.ordinal ∉ receipt.rejections.map (·.ordinal)
  let f : Queued → List QueuedOp := fun q =>
    (q.mutation.allOps.filter (·.key = k)).map (⟨q.ordinal, ·⟩)
  have haccepted : acceptedOf st push receipt = st.queue.filter p := by
    rw [acceptedOf, batchOf, List.filter_filter]
    exact List.filter_congr fun q _ => by simp [p, Bool.and_comm]
  have hp : ∀ q ∈ st.queue, p q = true ↔ q ∈ acceptedOf st push receipt := fun q hq => by
    rw [haccepted, List.mem_filter]
    exact ⟨fun h => ⟨hq, h⟩, fun h => h.2⟩
  have htouch : ∀ q, f q ≠ [] ↔ ∃ op ∈ q.mutation.allOps, op.key = k := fun q => by
    simp [f, List.filter_eq_nil_iff]
  -- the operations of an accepted mutation on the record are its companions
  have hown : ∀ q ∈ acceptedOf st push receipt,
      q.mutation.allOps.filter (·.key = k) = q.mutation.companion.filter (·.key = k) := fun q hq => by
    have hno := h.own q hq
    rw [Mutation.allOps, List.filter_append, List.filter_append,
      filter_key_eq_nil fun op hop => hno op (List.mem_append_left _ hop),
      filter_key_eq_nil fun op hop => hno op (List.mem_append_right _ hop)]
    simp
  refine ⟨(st.queue.filter p).flatMap f, ?_, ?_⟩
  · rw [companionsOn, haccepted, List.map_flatMap, List.filter_flatMap]
    refine List.flatMap_congr fun q hq => ?_
    rw [← hown q (haccepted ▸ hq)]
    simp [f, Function.comp_def]
  · have hstay : (st.queue.filter (!p ·)).flatMap f = (st.queue.filter fun q =>
        q.ordinal ∉ (rejectedOf st receipt.rejections).keys ∧
          q.ordinal ∉ (acceptedOf st push receipt).map (·.ordinal)).flatMap f := by
      refine (flatMap_filter_of_nil (p := fun q =>
        q.ordinal ∉ (rejectedOf st receipt.rejections).keys) fun q hq hrej => ?_).symm.trans ?_
      · by_contra hf
        obtain ⟨hq, hnp⟩ := List.mem_filter.mp hq
        have hnacc : q ∉ acceptedOf st push receipt := fun hacc => by
          rw [(hp q hq).mpr hacc] at hnp
          cases hnp
        have hstays := (h.rest q hq hnacc ((htouch q).mp hf)).1
        exact absurd ((hleaves q hq).mp hstays).2 (by simpa using hrej)
      · rw [List.filter_filter]
        refine congrArg (List.flatMap f) (List.filter_congr fun q hq => ?_)
        have hmem : q.ordinal ∈ (acceptedOf st push receipt).map (·.ordinal) ↔ p q = true := by
          rw [hp q hq]
          refine ⟨fun hin => ?_, fun hin => List.mem_map_of_mem hin⟩
          obtain ⟨a, ha, hord⟩ := List.mem_map.mp hin
          have haq : a ∈ st.queue := (mem_batchOf.mp (List.mem_of_mem_filter ha)).1
          exact List.inj_on_of_nodup_map hnodup haq hq hord ▸ ha
        simp only [hmem, Bool.decide_and, Bool.not_eq_true, Bool.decide_eq_false]
    rw [relieved_opsFor]
    refine (flatMap_split (List.Pairwise.imp_of_mem ?_ (List.pairwise_map.mp hwf.sorted))).trans
      (congrArg (_ ++ ·) hstay)
    intro a b ha hb hlt hpa hfa hpb
    by_contra hfb
    have hbacc := (hp b hb).mp hpb
    have hnacc : a ∉ acceptedOf st push receipt := fun hacc => by
      rw [(hp a ha).mpr hacc] at hpa
      cases hpa
    obtain ⟨op, hop, hk⟩ := (htouch b).mp hfb
    have hmem : op ∈ b.mutation.companion.filter (·.key = k) :=
      hown b hbacc ▸ List.mem_filter.mpr ⟨hop, by simpa using hk⟩
    have horder := (h.rest a ha hnacc ((htouch a).mp hfa)).2 b hbacc
      ⟨op, List.mem_of_mem_filter hmem, hk⟩
    exact absurd horder (by omega)

/-- A valid receipt is accepted. A record it does not report, whose queued operations are companions
    of the mutations it accepts and then operations that stay, shows afterwards what replaying them
    all showed before, over a base that has exactly the accepted companions applied. -/
theorem companions_survive (e : Engine) (hp : Plain e) (c : Client) (hr : Host.Reaches e c) (push : ℕ)
    (receipt : PushReceipt) (hv : ValidReceipt e c.store push receipt) :
    ∃ report c', c.acknowledge e push receipt = (.ok report, c') ∧
      ∀ k row, (∀ r ∈ receipt.records, e.recordKey r.model r.identity ≠ .ok k) →
        CompanionsFirst c.store push receipt c'.store k →
        replay (c.store.before.lookup k) (c.store.opsFor k) = .ok row →
          c'.store.main.lookup k = row ∧
          replayOps (c.store.before.lookup k) (companionsOn c.store push receipt k) =
            .ok (c'.store.truth k) ∧
          c'.store.recordStamp k = c.store.recordStamp k := by
  have hwf := wf_reaches hr
  obtain ⟨⟨covered, wireRows⟩, hcheck⟩ := hv.checked
  obtain ⟨report, fin, hc, huncovered⟩ := complete_uncovered hp hwf hcheck
  have hlt : c.store.lastCompletedPush < push := by
    rcases (inFlight_eq (flight_reaches hr)).mp hv.flight with ⟨-, h0⟩ | ⟨-, heq⟩
    · cases h0
    · obtain rfl := Option.some.inj heq
      exact Nat.lt_succ_self _
  have hack := acknowledge_eq_ok.mpr ⟨hv.batch, hv.client, Or.inr ⟨hlt, hv.flight, hc⟩⟩
  refine ⟨report, ⟨fin, c.pulls⟩, ?_, fun k row hcov hfirst hrep => ?_⟩
  · simp only [Client.acknowledge, hv.decoded, hack, Client.commit]
  obtain ⟨own, hown, hops⟩ := companionsFirst_opsFor hwf hc hfirst
  obtain ⟨hstay, hstamp, -, hbefore, hmain⟩ := huncovered k hcov
  have hrem : Removes e c.store push receipt.rejections k := by
    obtain ⟨op, hop⟩ := List.exists_mem_of_ne_nil _ hfirst.some
    obtain ⟨hop, hk⟩ := List.mem_filter.mp hop
    obtain ⟨q, hq, hop⟩ := List.mem_flatMap.mp hop
    exact Or.inl (mem_touchedOf.mpr ⟨q, List.mem_of_mem_filter hq, op,
      by simp [Mutation.allOps, hop], by simpa using hk⟩)
  rw [hops, ← hstay, replay_append] at hrep
  cases hfold : replay (c.store.before.lookup k) own with
  | error n => rw [hfold] at hrep; cases hrep
  | ok base =>
    rw [hfold] at hrep
    have hbase := replayOps_of_replay hfold
    rw [hown] at hbase
    have hrow : fin.main.lookup k = row := by
      rw [hmain hrem, foldInto_of_replays hbase, replayed, show replay base (fin.opsFor k) = _ from hrep]
    refine ⟨hrow, hbase.trans (congrArg Except.ok ?_), hstamp⟩
    change base = fin.truth k
    rw [Store.truth, hbefore hrem, foldInto_of_replays hbase, hrow]
    cases hd : fin.dirty k with
    | true => rfl
    | false =>
      rw [dirty_eq_false.mp hd] at hrep
      exact Except.ok.inj hrep

end Survive

section Sample
open Sample

/-- Item `a` was created with item `b` beside it, which is not sent; then `b` was moved. -/
def Sample.beside : List ClientAction :=
  [.enqueue { name := "put", operations := [create "a" "x"], companion := [create "b" "y"] },
    .freeze 1000, .enqueue { name := "move", operations := [move "b" "z"] }]

def Sample.accepting : PushReceipt :=
  { batchSequence := 1, clientId := "me", rejections := [], records := [record "a" "x" 1] }

/-- The receipt of the creation leaves item `b` where it was moved. -/
theorem companions_survive_loose : ∃ report c',
    (client loose beside).acknowledge loose 1 accepting = (.ok report, c') ∧
      c'.store.main.lookup (item "b") =
        some (.ofEntries [("box", .str "z"), ("id", .str "b")]) := by
  have hvalid : ValidReceipt loose (client loose beside).store 1 accepting :=
    ⟨Except.eq_ok_of_toOption (by decide +kernel), rfl, rfl,
      Except.eq_ok_of_toOption (by decide +kernel), Except.exists_ok (by decide +kernel)⟩
  obtain ⟨report, c', hack, hall⟩ := companions_survive loose ⟨by decide +kernel, by decide +kernel⟩
    (client loose beside) (client_reaches _ _) 1 accepting hvalid
  refine ⟨report, c', hack, (hall (item "b") _ ?_ ?_ ?_).1⟩
  · intro r hr hk
    obtain rfl := List.mem_singleton.mp hr
    have ha : loose.recordKey "Item" (identity "a") = .ok (item "a") :=
      Except.eq_ok_of_toOption (by decide +kernel)
    exact absurd (Except.ok.inj (ha.symm.trans hk)) (by decide +kernel)
  · obtain rfl : ((client loose beside).acknowledge loose 1 accepting).2 = c' := congrArg Prod.snd hack
    exact ⟨by decide +kernel, by decide +kernel, by decide +kernel⟩
  · exact Except.eq_ok_of_toOption (by decide +kernel)

end Sample

end AheadSync
