import AheadSync.Client.Perform

/-! What completing a push, dropping a mutation and freezing do to a well-formed store. -/

namespace AheadSync

section Delete
variable {e : Engine} {st : Store} {ns : List ℕ} {k : RecordKey}

/-- A mutation without its dependencies on deleted ones. -/
def Queued.forget (ns : List ℕ) (q : Queued) : Queued :=
  { q with mutation := { q.mutation with
      lifecycleDependencies := q.mutation.lifecycleDependencies.filter (· ∉ ns)
      sequenceDependencies := q.mutation.sequenceDependencies.filter (· ∉ ns) } }

theorem deleteMutations_queue : (st.deleteMutations ns).queue =
    (st.queue.filter (·.ordinal ∉ ns)).map (Queued.forget ns) := rfl

theorem wf_deleteMutations (h : Wf e st) : Wf e (st.deleteMutations ns) where
  ops := by
    intro q hq
    obtain ⟨q0, hq0, rfl⟩ := List.mem_map.mp hq
    exact h.ops q0 (List.mem_of_mem_filter hq0)
  main := h.main
  before := h.before
  sorted := by
    rw [deleteMutations_queue, List.map_map]
    exact h.sorted.sublist ((List.filter_sublist ..).map _)
  fresh := by
    intro q hq
    obtain ⟨q0, hq0, rfl⟩ := List.mem_map.mp hq
    exact h.fresh q0 (List.mem_of_mem_filter hq0)
  deps := by
    intro q hq d hd
    obtain ⟨q0, hq0, rfl⟩ := List.mem_map.mp hq
    refine h.deps q0 (List.mem_of_mem_filter hq0) d ?_
    exact (List.mem_append.mp hd).elim
      (fun h => List.mem_append_left _ (List.mem_of_mem_filter h))
      fun h => List.mem_append_right _ (List.mem_of_mem_filter h)

/-- The operations that stay are those of the mutations that stay. -/
theorem deleteMutations_opsFor : (st.deleteMutations ns).opsFor k =
    (st.queue.filter (·.ordinal ∉ ns)).flatMap fun q =>
      (q.mutation.allOps.filter (·.key = k)).map (⟨q.ordinal, ·⟩) := by
  rw [Store.opsFor, deleteMutations_queue, List.flatMap_map]
  rfl

end Delete

section Reject
variable {e : Engine} {st : Store} {rejections : List Rejection} {k : RecordKey}

/-- The ordinals a list of rejections takes out of the queue, with their codes. -/
def rejectedOf (st : Store) (rejections : List Rejection) : SortedMap ℕ String :=
  closeRejected st.queue st.queue.length (.ofList (rejections.map fun r => (r.ordinal, r.code)))

def droppedOf (st : Store) (rejections : List Rejection) : List Queued :=
  st.queue.filter fun q => ((rejectedOf st rejections).lookup q.ordinal).isSome

/-- The inbox after the rejections were recorded. -/
def inboxOf (st : Store) (rejections : List Rejection) : SortedMap ℕ RejectionRow :=
  (droppedOf st rejections).foldl (fun inbox q => inbox.insert q.ordinal
    ⟨q.mutation.name, ((rejectedOf st rejections).lookup q.ordinal).getD "", q.mutation,
      q.mutation.allOps.map (·.key)⟩) st.rejections

/-- The keys of normalized operations. -/
theorem mapM_opKey {ops : List Operation} (h : ∀ op ∈ ops, OpOk e op) :
    ops.mapM e.opKey = .ok (ops.map (·.key)) :=
  List.mapM_eq_ok_of fun op hop => (h op hop).key

/-- Rejecting never fails: it records the closure in the inbox and removes it from the queue. -/
theorem markRejected_eq (h : Wf e st) : e.markRejected st rejections =
    .ok (e.holdAll [] (((droppedOf st rejections).flatMap (·.mutation.allOps)).map (·.key)),
      { st.deleteMutations (rejectedOf st rejections).keys with
        rejections := inboxOf st rejections }) := by
  have hops : ∀ op ∈ (droppedOf st rejections).flatMap (·.mutation.allOps), OpOk e op := by
    intro op hop
    obtain ⟨q, hq, hop⟩ := List.mem_flatMap.mp hop
    exact h.ops q (List.mem_of_mem_filter hq) op hop
  have hfold : ∀ (qs : List Queued) (f : Queued → RejectionRow) (st : Store),
      qs.foldl (fun st q => st.insertRejection q.ordinal (f q)) st =
        { st with
          rejections := qs.foldl (fun inbox q => inbox.insert q.ordinal (f q)) st.rejections } := by
    intro qs f
    induction qs with
    | nil => intro st; rfl
    | cons q qs ih => intro st; rw [List.foldl_cons, ih]; rfl
  have hkeys := mapM_opKey hops
  simp only [droppedOf, rejectedOf] at hkeys
  simp only [Engine.markRejected, hkeys, Except.ok_bind, hfold]
  rfl

theorem wf_marked (h : Wf e st) : Wf e { st.deleteMutations (rejectedOf st rejections).keys with
    rejections := inboxOf st rejections } :=
  wf_of_eq (wf_deleteMutations h) rfl rfl rfl le_rfl

/-- The records of the dropped mutations are held. -/
theorem mem_marked : k ∈ e.holdAll [] (((droppedOf st rejections).flatMap
      (·.mutation.allOps)).map (·.key)) ↔
    ∃ q ∈ st.queue, ((rejectedOf st rejections).lookup q.ordinal).isSome ∧
      ∃ op ∈ q.mutation.allOps, op.key = k := by
  simp only [mem_holdAll, List.not_mem_nil, false_or, List.mem_map, List.mem_flatMap, droppedOf,
    List.mem_filter]
  constructor
  · rintro ⟨op, ⟨q, ⟨hq, hr⟩, hop⟩, rfl⟩
    exact ⟨q, hq, hr, op, hop, rfl⟩
  · rintro ⟨q, hq, hr, op, hop, rfl⟩
    exact ⟨op, ⟨q, ⟨hq, hr⟩, hop⟩, rfl⟩

theorem marked_dirty (hk : k ∈ e.holdAll [] (((droppedOf st rejections).flatMap
    (·.mutation.allOps)).map (·.key))) : st.dirty k = true := by
  obtain ⟨q, hq, -, hop⟩ := mem_marked.mp hk
  exact dirty_iff.mpr ⟨q, hq, hop⟩

theorem marked_named (h : Wf e st) (hk : k ∈ e.holdAll [] (((droppedOf st rejections).flatMap
    (·.mutation.allOps)).map (·.key))) : Named e k := by
  obtain ⟨q, hq, -, op, hop, rfl⟩ := mem_marked.mp hk
  exact named_of_canonical (opOk_canonical (h.ops q hq op hop))

theorem wf_removeRejected (h : Wf e st) {st' : Store}
    (hr : e.removeRejected st rejections = .ok st') : Wf e st' := by
  simp only [Engine.removeRejected, markRejected_eq h, Except.ok_bind, Except.bind_eq_ok,
    Except.pure_eq_ok] at hr
  obtain ⟨⟨reports, st1⟩, hreb, rfl⟩ := hr
  exact (wf_rebuildHeld (wf_marked h) (fun k hk => marked_named h hk) hreb).1

theorem wf_dropMutation (h : Wf e st) {n : ℕ} {st' : Store}
    (hd : e.dropMutation st n = .ok st') : Wf e st' := by
  unfold Engine.dropMutation at hd
  split at hd
  · cases hd; exact h
  · split at hd
    · cases hd
    · exact wf_removeRejected h hd

end Reject

section Settle
variable {e : Engine} {st st' st'' : Store} {held held' held'' : Held} {k : RecordKey}
  {op : Operation} {wireRows covered : Held}

/-- What settling companions may do: change the bases of the records it holds. -/
structure Settles (e : Engine) (st : Store) (held : Held) (st' : Store) (held' : Held) : Prop where
  frame : ∃ before, st' = { st with before := before }
  wf : Wf e st'
  grows : ∀ k ∈ held, k ∈ held'
  named : ∀ k ∈ held', k ∈ held ∨ Named e k
  before : ∀ k, k ∉ held' → st'.before.lookup k = st.before.lookup k

theorem settles_refl (h : Wf e st) : Settles e st held st held :=
  ⟨⟨_, rfl⟩, h, fun _ h => h, fun _ h => Or.inl h, fun _ _ => rfl⟩

theorem settles_trans (h : Settles e st held st' held') (h' : Settles e st' held' st'' held'') :
    Settles e st held st'' held'' where
  frame := by
    obtain ⟨b, h⟩ := h.frame
    obtain ⟨b', h'⟩ := h'.frame
    exact ⟨b', by rw [h', h]⟩
  wf := h'.wf
  grows := fun k hk => h'.grows k (h.grows k hk)
  named := fun k hk => (h'.named k hk).elim (h.named k) Or.inr
  before := fun k hk => (h'.before k hk).trans (h.before k fun hm => hk (h'.grows k hm))

/-- Folding one companion operation replaces the base of its record, or keeps it. -/
theorem settleOp_eq_ok (h : Wf e st) (hop : OpOk e op) {out : Store × Held} :
    e.settleOp wireRows covered (st, held) op = .ok out ↔
      ((op.key ∈ wireRows ∨ op.key ∈ covered) ∧ out = (st, held)) ∨
      (¬(op.key ∈ wireRows ∨ op.key ∈ covered) ∧
        ((∃ row, applyToRow (st.before.lookup op.key) op = .ok row ∧
            out = ({ st with before := st.before.put op.key row }, e.hold op.key held)) ∨
          ((∃ m, applyToRow (st.before.lookup op.key) op = .error m) ∧
            out = (st, e.hold op.key held)))) := by
  have hn := named_of_canonical (opOk_canonical hop)
  simp only [Engine.settleOp, hop.key, Except.ok_bind]
  split
  · rename_i hc
    simp [hc, eq_comm, pure, Except.pure]
  · rename_i hc
    cases ha : applyToRow (st.before.lookup op.key) op with
    | error m => simp [hc, eq_comm, pure, Except.pure]
    | ok row =>
      have hset : e.beforeSet st op.key row = .ok { st with before := st.before.put op.key row } :=
        (beforeSet_eq_ok hn (applyToRow_rowFor hop (rowsOk_lookup h.before op.key) ha)).mpr rfl
      simp [hc, hset, eq_comm, pure, Except.pure]

theorem settles_op (h : Wf e st) (hop : OpOk e op) {out : Store × Held}
    (hs : e.settleOp wireRows covered (st, held) op = .ok out) :
    Settles e st held out.1 out.2 := by
  have hn := named_of_canonical (opOk_canonical hop)
  rcases (settleOp_eq_ok h hop).mp hs with ⟨-, rfl⟩ | ⟨-, ⟨row, ha, rfl⟩ | ⟨-, rfl⟩⟩
  · exact settles_refl h
  · refine ⟨⟨_, rfl⟩, wf_before h (rowsOk_put h.before hn
      (applyToRow_rowFor hop (rowsOk_lookup h.before op.key) ha)), ?_, ?_, ?_⟩
    · exact fun k hk => mem_hold.mpr (Or.inr hk)
    · exact fun k hk => (mem_hold.mp hk).elim (fun heq => Or.inr (heq ▸ hn)) Or.inl
    · intro k hk
      have hne : k ≠ op.key := fun heq => hk (mem_hold.mpr (Or.inl heq))
      simp [hne]
  · refine ⟨⟨_, rfl⟩, h, ?_, ?_, fun _ _ => rfl⟩
    · exact fun k hk => mem_hold.mpr (Or.inr hk)
    · exact fun k hk => (mem_hold.mp hk).elim (fun heq => Or.inr (heq ▸ hn)) Or.inl

/-- The local operations of a mutation are normalized. -/
theorem localOps_ok (h : Wf e st) {q : Queued} (hq : ∀ op ∈ q.mutation.allOps, OpOk e op)
    {ops : List Operation} (hl : e.localOps st wireRows q = .ok ops) : ∀ op ∈ ops, OpOk e op := by
  simp only [Engine.localOps, Except.bind_eq_ok, Except.pure_eq_ok] at hl
  obtain ⟨deletes, -, cascades, hc, rfl⟩ := hl
  intro op hop
  rcases List.mem_append.mp hop with hop | hop
  · exact hq op (by simp [Mutation.allOps, hop])
  · obtain ⟨k, hk, rfl⟩ := List.mem_map.mp hop
    obtain ⟨found, hf, hk⟩ := List.mem_flatten.mp hk
    obtain ⟨parent, -, hp⟩ := List.mapM_mem hc hf
    exact opOk_delete (mem_descendants h hp hk).1

/-- Settling the companions of one accepted mutation changes bases only. -/
theorem settles_mutation (h : Wf e st) {q : Queued} (hq : ∀ op ∈ q.mutation.allOps, OpOk e op)
    {out : Store × Held} (hs : e.settleMutation wireRows covered (st, held) q = .ok out) :
    Settles e st held out.1 out.2 := by
  simp only [Engine.settleMutation, Except.bind_eq_ok] at hs
  obtain ⟨ops, hl, hfold⟩ := hs
  have hops := localOps_ok h hq hl
  refine List.foldlM_ok_induction (fun s => Settles e st held s.1 s.2) ?_ (settles_refl h) hfold
  intro s op t hop hs hstep
  exact settles_trans hs (settles_op hs.wf (hops op hop) hstep)

/-- Folding holds no covered record. -/
theorem settles_uncovered (h : Wf e st) {accepted : List Queued}
    (hq : ∀ q ∈ accepted, ∀ op ∈ q.mutation.allOps, OpOk e op) {out : Store × Held}
    (hs : e.settleCompanions wireRows covered (st, held) accepted = .ok out) :
    ∀ k ∈ out.2, k ∈ held ∨ k ∉ covered := by
  refine (List.foldlM_ok_induction
    (fun s : Store × Held => Wf e s.1 ∧ ∀ k ∈ s.2, k ∈ held ∨ k ∉ covered) ?_
    ⟨h, fun k hk => Or.inl hk⟩ hs).2
  rintro s q t hmem ⟨hwf, hs⟩ hstep
  refine ⟨(settles_mutation hwf (hq q hmem) hstep).wf, ?_⟩
  simp only [Engine.settleMutation, Except.bind_eq_ok] at hstep
  obtain ⟨ops, hl, hfold⟩ := hstep
  refine (List.foldlM_ok_induction
    (fun s : Store × Held => Wf e s.1 ∧ ∀ k ∈ s.2, k ∈ held ∨ k ∉ covered) ?_ ⟨hwf, hs⟩ hfold).2
  rintro s op t hop ⟨hwf', hs⟩ hstep
  have hopok := localOps_ok hwf (hq q hmem) hl op hop
  refine ⟨(@settles_op e s.1 s.2 op wireRows covered hwf' hopok t hstep).wf, ?_⟩
  have hhold : op.key ∉ covered → ∀ k ∈ e.hold op.key s.2, k ∈ held ∨ k ∉ covered :=
    fun hc k hk => (mem_hold.mp hk).elim (fun heq => Or.inr (heq ▸ hc)) (hs k)
  rcases (@settleOp_eq_ok e s.1 s.2 op wireRows covered hwf' hopok t).mp hstep with
    ⟨-, rfl⟩ | ⟨hc, ⟨row, -, rfl⟩ | ⟨-, rfl⟩⟩
  · exact hs
  · exact hhold fun hm => hc (Or.inr hm)
  · exact hhold fun hm => hc (Or.inr hm)

/-- Settling the companions of accepted mutations changes bases only. -/
theorem settles_companions {accepted : List Queued} (h : Wf e st)
    (hq : ∀ q ∈ accepted, ∀ op ∈ q.mutation.allOps, OpOk e op) {out : Store × Held}
    (hs : e.settleCompanions wireRows covered (st, held) accepted = .ok out) :
    Settles e st held out.1 out.2 := by
  refine List.foldlM_ok_induction (fun s => Settles e st held s.1 s.2) ?_ (settles_refl h) hs
  intro s q t hmem hs hstep
  exact settles_trans hs (settles_mutation hs.wf (hq q hmem) hstep)

end Settle

/-- The mutations of a push. -/
def batchOf (st : Store) (push : ℕ) : List Queued := st.queue.filter (·.push = some push)

/-- The mutations of a push that its receipt does not reject. -/
def acceptedOf (st : Store) (push : ℕ) (receipt : PushReceipt) : List Queued :=
  (batchOf st push).filter (·.ordinal ∉ receipt.rejections.map (·.ordinal))

/-- The records a push touches. -/
def touchedOf (st : Store) (push : ℕ) : List RecordKey :=
  ((batchOf st push).flatMap (·.mutation.allOps)).map (·.key)

/-- The store after a receipt took its mutations off the queue. -/
def Store.relieved (st : Store) (rejections : List Rejection) (completed : List ℕ) : Store :=
  { st.deleteMutations (rejectedOf st rejections).keys with
    rejections := inboxOf st rejections }.deleteMutations completed

/-- The records a receipt's rejections touch. -/
def Engine.markedOf (e : Engine) (st : Store) (rejections : List Rejection) : Held :=
  e.holdAll [] (((droppedOf st rejections).flatMap (·.mutation.allOps)).map (·.key))

/-- The course of a completed push: its checks, the companions settled in `mid`, the records staged,
    the queue relieved and the held records rebuilt in `fin`. -/
structure Completes (e : Engine) (st : Store) (push : ℕ) (receipt : PushReceipt)
    (covered wireRows : Held) (mid : Store) (affected : Held) (reports : List Report)
    (fin : Store) : Prop where
  checked : e.checkReceipt (batchOf st push) (acceptedOf st push receipt) receipt =
    .ok (covered, wireRows)
  settled : e.settleCompanions wireRows covered (st, e.holdAll [] (touchedOf st push))
    (acceptedOf st push receipt) = .ok (mid, affected)
  rebuilt : e.rebuildHeld
    ((e.stageAll mid affected receipt.records).1.relieved receipt.rejections
      ((acceptedOf st push receipt).map (·.ordinal)))
    (e.holdAll (e.stageAll mid affected receipt.records).2.1
      (e.markedOf (e.stageAll mid affected receipt.records).1 receipt.rejections)) =
    .ok (reports, fin)

section Complete
variable {e : Engine} {st st' : Store} {push : ℕ} {receipt : PushReceipt} {k : RecordKey}

theorem mem_batchOf {q : Queued} : q ∈ batchOf st push ↔ q ∈ st.queue ∧ q.push = some push := by
  simp [batchOf]

theorem mem_touchedOf : k ∈ touchedOf st push ↔
    ∃ q ∈ batchOf st push, ∃ op ∈ q.mutation.allOps, op.key = k := by
  simp only [touchedOf, List.mem_map, List.mem_flatMap]
  constructor
  · rintro ⟨op, ⟨q, hq, hop⟩, rfl⟩; exact ⟨q, hq, op, hop, rfl⟩
  · rintro ⟨q, hq, op, hop, rfl⟩; exact ⟨op, ⟨q, hq, hop⟩, rfl⟩

theorem touched_dirty (hk : k ∈ touchedOf st push) : st.dirty k = true := by
  obtain ⟨q, hq, hop⟩ := mem_touchedOf.mp hk
  exact dirty_iff.mpr ⟨q, (mem_batchOf.mp hq).1, hop⟩

theorem touched_named (h : Wf e st) (hk : k ∈ e.holdAll [] (touchedOf st push)) : Named e k := by
  obtain ⟨q, hq, op, hop, rfl⟩ := mem_touchedOf.mp (by simpa using hk)
  exact named_of_canonical (opOk_canonical (h.ops q (mem_batchOf.mp hq).1 op hop))

theorem batch_ok (h : Wf e st) : ∀ q ∈ batchOf st push, ∀ op ∈ q.mutation.allOps, OpOk e op :=
  fun q hq => h.ops q (mem_batchOf.mp hq).1

theorem accepted_ok (h : Wf e st) :
    ∀ q ∈ acceptedOf st push receipt, ∀ op ∈ q.mutation.allOps, OpOk e op :=
  fun q hq => batch_ok h q (List.mem_of_mem_filter hq)

theorem wf_relieved (h : Wf e st) {rejections : List Rejection} {ns : List ℕ} :
    Wf e (st.relieved rejections ns) :=
  wf_deleteMutations (wf_marked h)

/-- What the settling of a completed push did. -/
theorem settles_of_completes (h : Wf e st) {covered wireRows : Held} {mid : Store} {affected : Held}
    (hs : e.settleCompanions wireRows covered (st, e.holdAll [] (touchedOf st push))
      (acceptedOf st push receipt) = .ok (mid, affected)) :
    Settles e st (e.holdAll [] (touchedOf st push)) mid affected :=
  settles_companions h (accepted_ok h) hs

/-- The checks of a receipt: it rejects only mutations of the batch, and covers every record that the
    wire operations of the accepted ones target. -/
theorem checkReceipt_eq_ok (h : Wf e st) {covered wireRows : Held} :
    e.checkReceipt (batchOf st push) (acceptedOf st push receipt) receipt = .ok (covered, wireRows) ↔
      (∀ r ∈ receipt.rejections, r.ordinal ∈ (batchOf st push).map (·.ordinal)) ∧
      receipt.records.mapM (fun r => e.recordKey r.model r.identity) = .ok covered ∧
      wireRows = e.holdAll [] (((acceptedOf st push receipt).flatMap (·.mutation.operations)).map
        (·.key)) ∧
      ∀ k ∈ wireRows, k ∈ covered := by
  have hkeys : ((acceptedOf st push receipt).flatMap (·.mutation.operations)).mapM e.opKey =
      .ok (((acceptedOf st push receipt).flatMap (·.mutation.operations)).map (·.key)) :=
    mapM_opKey fun op hop => by
      obtain ⟨q, hq, hop⟩ := List.mem_flatMap.mp hop
      exact accepted_ok h q hq op (by simp [Mutation.allOps, hop])
  simp only [Engine.checkReceipt, hkeys, Except.bind_eq_ok, ensure_eq_ok, Except.ok_bind]
  constructor
  · rintro ⟨-, hrej, keys, hk, hrest⟩
    split at hrest
    · cases hrest
    · rename_i hnone
      obtain ⟨rfl, rfl⟩ := Prod.mk.inj (Except.ok.inj hrest)
      exact ⟨hrej, hk, rfl, fun k hmem => by simpa using List.find?_eq_none.mp hnone k hmem⟩
  · rintro ⟨hrej, hk, rfl, hall⟩
    refine ⟨(), hrej, covered, hk, ?_⟩
    rw [List.find?_eq_none.mpr fun k hmem => by simpa using hall k hmem]
    rfl

/-- A push completes by that course and no other. -/
theorem complete_eq_ok (h : Wf e st) {report : ApplyReport} :
    e.complete st push receipt = .ok (report, st') ↔
      ∃ covered wireRows mid affected reports fin,
        Completes e st push receipt covered wireRows mid affected reports fin ∧
        report = stagedReport (withBatch push) (e.stageAll mid affected receipt.records).2.2 reports ∧
        st' = fin.setLastCompletedPush push := by
  have htouched : ((batchOf st push).flatMap (·.mutation.allOps)).mapM e.opKey =
      .ok (touchedOf st push) :=
    mapM_opKey fun op hop => by
      obtain ⟨q, hq, hop⟩ := List.mem_flatMap.mp hop
      exact batch_ok h q hq op hop
  simp only [batchOf] at htouched
  simp only [Engine.complete, Except.bind_eq_ok, Except.pure_eq_ok, Prod.mk.injEq, htouched]
  constructor
  · rintro ⟨⟨covered, wireRows⟩, hc, _, htouch, ⟨mid, affected⟩, hs, hrest⟩
    obtain rfl := Except.ok.inj htouch
    have hset := settles_of_completes h hs
    have hst := stages_all receipt.records affected hset.wf
    simp only [markRejected_eq hst.wf, Except.ok.injEq, exists_eq_left'] at hrest
    obtain ⟨⟨reports, fin⟩, hreb, rfl, rfl⟩ := hrest
    exact ⟨covered, wireRows, mid, affected, reports, fin, ⟨hc, hs, hreb⟩, rfl, rfl⟩
  · rintro ⟨covered, wireRows, mid, affected, reports, fin, hcomp, rfl, rfl⟩
    have hset := settles_of_completes h hcomp.settled
    have hst := stages_all receipt.records affected hset.wf
    refine ⟨(covered, wireRows), hcomp.checked, _, rfl, (mid, affected), hcomp.settled, ?_⟩
    simp only [markRejected_eq hst.wf, Except.ok.injEq, exists_eq_left']
    exact ⟨(reports, fin), hcomp.rebuilt, rfl, rfl⟩

/-- Every record a completing push rebuilds is named. -/
theorem completes_named (h : Wf e st) (receipt : PushReceipt) {mid : Store} {affected : Held}
    (hs : Settles e st (e.holdAll [] (touchedOf st push)) mid affected)
    (hk : k ∈ e.holdAll (e.stageAll mid affected receipt.records).2.1
      (e.markedOf (e.stageAll mid affected receipt.records).1 receipt.rejections)) :
    Named e k := by
  have hst := stages_all receipt.records affected hs.wf
  rcases mem_holdAll.mp hk with hk | hk
  · rcases hst.new k hk with hk | hk
    · exact (hs.named k hk).elim (touched_named h) id
    · exact hk.1
  · exact marked_named hst.wf hk

/-- Completing a push keeps a store well-formed. -/
theorem wf_complete (h : Wf e st) {report : ApplyReport}
    (hc : e.complete st push receipt = .ok (report, st')) : Wf e st' := by
  obtain ⟨covered, wireRows, mid, affected, reports, fin, hcomp, -, rfl⟩ := (complete_eq_ok h).mp hc
  have hset := settles_of_completes h hcomp.settled
  have hst := stages_all receipt.records affected hset.wf
  have hfin := (wf_rebuildHeld (wf_relieved hst.wf)
    (fun k hk => completes_named h receipt hset hk)
    hcomp.rebuilt).1
  exact wf_of_eq hfin rfl rfl rfl le_rfl

/-- A receipt that changes something completes the push in flight. -/
theorem acknowledge_eq_ok {sequence : ℕ} {report : ApplyReport} :
    e.acknowledge st sequence receipt = .ok (report, st') ↔
      receipt.batchSequence = sequence ∧ receipt.clientId = st.clientId ∧
        ((sequence ≤ st.lastCompletedPush ∧ report = { stale := true } ∧ st' = st) ∨
          (st.lastCompletedPush < sequence ∧ st.inFlight = .ok (some sequence) ∧
            e.complete st sequence receipt = .ok (report, st'))) := by
  simp only [Engine.acknowledge, Except.bind_eq_ok, ensure_eq_ok, exists_const]
  refine and_congr_right fun _ => and_congr_right fun _ => ?_
  by_cases hle : sequence ≤ st.lastCompletedPush
  · simp [hle, eq_comm, pure, Except.pure]
  · simp only [hle, ↓reduceIte, Except.bind_eq_ok, required_eq_ok, ensure_eq_ok, false_and,
      false_or, not_le.mp hle, true_and]
    constructor
    · rintro ⟨_, ho, push, rfl, -, rfl, hc⟩
      exact ⟨ho, hc⟩
    · rintro ⟨ho, hc⟩
      exact ⟨_, ho, sequence, rfl, (), rfl, hc⟩

theorem wf_acknowledge (h : Wf e st) {sequence : ℕ} {report : ApplyReport}
    (ha : e.acknowledge st sequence receipt = .ok (report, st')) : Wf e st' := by
  obtain ⟨-, -, ⟨-, -, rfl⟩ | ⟨-, -, hc⟩⟩ := acknowledge_eq_ok.mp ha
  · exact h
  · exact wf_complete h hc

end Complete

end AheadSync
