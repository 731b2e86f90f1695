import AheadSync.Client.Plain

/-! A receipt and a page commute. Each leaves behind the absorbed writes as stamps and truths, the
    queue without what the receipt removed, and visible rows that are replayed where the delivery
    changed a stamp or the queue; none of these depends on which of the two came first. -/

namespace AheadSync

section Rebuild
variable {e : Engine} {st st' : Store} {held : Held} {k : RecordKey}

/-- What finishing a delivery makes of the rows. -/
structure Rebuilt (st : Store) (held : Held) (fin : Store) : Prop where
  main : ∀ k, fin.main.lookup k = if k ∈ held then st.shown k else st.main.lookup k
  before : ∀ k, fin.before.lookup k =
    if k ∈ held ∧ st.dirty k = false then none else st.before.lookup k
  bare : fin.bare = st.bare
  frame : ∃ main before queue, fin = { st with main := main, before := before, queue := queue }

theorem Rebuilt.shown (h : Rebuilt st held st') (hd : st.dirty k = true) : st'.shown k = st.shown k := by
  have hb : st'.before.lookup k = st.before.lookup k := by rw [h.before, if_neg (by simp [hd])]
  rw [Store.shown, Store.shown, hb, bare_opsFor h.bare]

/-- Without unique constraints, rebuilding held records replays them. -/
theorem rebuildFold_noUnique (hu : NoUnique e) : ∀ {held : Held} {acc : List Report × Store}, Wf e acc.2 →
    (∀ k ∈ held, Named e k) → held.Nodup →
    ∃ out, held.foldlM e.rebuildStep acc = .ok out ∧ Rebuilt acc.2 held out.2
  | [], acc, _, _, _ => ⟨acc, rfl, by simp, by simp, rfl, _, _, _, rfl⟩
  | key :: held, acc, hwf, hn, hnd => by
    obtain ⟨hkey, hnd⟩ := List.nodup_cons.mp hnd
    have hnk := hn key (List.mem_cons_self ..)
    have hr := (rebuild_noUnique hu hwf hnk).mpr ⟨rfl, rfl⟩
    obtain ⟨mid, hmid, hms⟩ : ∃ mid, e.rebuildStep acc key = .ok mid ∧
        mid.2 = acc.2.rebuilt key (acc.2.shown key) := by
      simp only [Engine.rebuildStep, hr, Except.ok_bind]
      exact ⟨_, rfl, rfl⟩
    have hwf' : Wf e mid.2 := hms ▸ wf_rebuild hwf hnk hr
    obtain ⟨out, hout, hreb⟩ := rebuildFold_noUnique hu hwf'
      (fun k hk => hn k (List.mem_cons_of_mem _ hk)) hnd
    refine ⟨out, by rw [List.foldlM_cons, hmid]; exact hout, fun k => ?_, fun k => ?_, ?_, ?_⟩
    · rw [hreb.main, hms]
      by_cases hk : k = key
      · subst hk
        simp [hkey]
      · have hun := @untouched_rebuilt acc.2 key k (acc.2.shown key) hk
        simp only [List.mem_cons, hk, false_or, hun.shown, hun.main]
    · rw [hreb.before, hms]
      by_cases hk : k = key
      · subst hk
        simp only [hkey, false_and, ↓reduceIte, List.mem_cons, true_or, true_and, rebuilt_before]
        cases hd : acc.2.dirty k with
        | true =>
          have hops : acc.2.opsFor k ≠ [] := fun h => by simp [dirty_eq_false.mpr h] at hd
          simp [hops]
        | false => simp [dirty_eq_false.mp hd]
      · have hun := @untouched_rebuilt acc.2 key k (acc.2.shown key) hk
        simp only [List.mem_cons, hk, false_or, hun.dirty, hun.before]
    · rw [hreb.bare, hms, bare_rebuilt]
    · obtain ⟨m, b, q, hf⟩ := hreb.frame
      obtain ⟨m', b', q', hf'⟩ := (extends_rebuild hwf hnk hr).frame
      exact ⟨m, b, q, by rw [hf, hms, hf']⟩

/-- Without unique constraints and cascades, finishing a delivery replays the held records. -/
theorem rebuildHeld_plain (hp : Plain e) (hwf : Wf e st) (hn : ∀ k ∈ held, Named e k)
    (hnd : held.Nodup) : ∃ reports fin, e.rebuildHeld st held = .ok (reports, fin) ∧
      Rebuilt st held fin := by
  obtain ⟨⟨reports, fin⟩, hfold, hreb⟩ := @rebuildFold_noUnique e hp.noUnique held ([], st) hwf hn hnd
  have hwf' := (wf_rebuildFold hwf hn rfl hfold).1
  exact ⟨reports, fin, rebuildHeld_eq_ok.mpr ⟨fin, hfold, refreshPending_plain hp.noCascade hwf'⟩, hreb⟩

end Rebuild

/-! ### A page -/

/-- What a page that moves some cursors does to a client with a plain schema. -/
structure PageEffect (e : Engine) (rs : List AuthorityRecord) (moved : SortedMap String ℕ)
    (st fin : Store) : Prop where
  ledger : fin.ledger = Lww.absorbAll st.ledger (rs.filterMap e.authored)
  main : ∀ k, st.dirty k = true → fin.main.lookup k =
    if st.recordStamp k < fin.recordStamp k then fin.shown k else st.main.lookup k
  bare : fin.bare = st.bare
  cursors : ∀ channel, fin.cursor channel = (moved.lookup channel).or (st.cursor channel)
  frame : ∃ main before stamps queue subscriptions, fin = { st with
    main := main, before := before, stamps := stamps, queue := queue
    subscriptions := subscriptions }

section Page
variable {e : Engine} {st : Store} {rs : List AuthorityRecord}

theorem applyRecords_plain (rs : List AuthorityRecord) (hp : Plain e) (hwf : Wf e st) (ht : Tidy st) :
    ∃ report fin, e.applyRecords st rs = .ok (report, fin) ∧ PageEffect e rs .empty st fin := by
  have hst := stages_all rs [] hwf
  have hnd : (e.stageAll st [] rs).2.1.Nodup := (heldOk_stageAll hwf heldOk_nil).nodup
  have hnamed := fun k hk => (staged_named rs hwf k hk).1
  obtain ⟨reports, fin, hr, hreb⟩ := rebuildHeld_plain hp hst.wf hnamed hnd
  obtain ⟨hl, hheld⟩ := stageAll_absorbs hp rs [] hwf
  have happly := applyRecords_eq_ok.mpr ⟨reports, hr, rfl⟩
  have hland := applyRecords_truth hwf ht happly
  refine ⟨_, fin, happly, ?_, fun k hd => ?_, ?_, ?_, ?_⟩
  · rw [← hl]
    funext k
    simp only [Store.ledger, hland k]
  · rw [hreb.main, (hland k).2]
    simp only [hheld k, List.not_mem_nil, false_or, hd, true_and]
    rw [hst.main k hd]
    split
    · rw [hreb.shown (hst.dirty.trans hd)]
    · rfl
  · rw [hreb.bare]; exact bare_of_queue hst.queue
  · obtain ⟨m, b, s, hf⟩ := hst.frame
    obtain ⟨m', b', q, hf'⟩ := hreb.frame
    intro channel
    rw [hf', hf]
    rfl
  · obtain ⟨m, b, s, hf⟩ := hst.frame
    obtain ⟨m', b', q, hf'⟩ := hreb.frame
    exact ⟨m', b', s, q, st.subscriptions, by rw [hf', hf]⟩

theorem pageEffect_refl (st : Store) : PageEffect e [] .empty st st :=
  ⟨rfl, by simp, rfl, fun _ => rfl, _, _, _, _, _, rfl⟩

theorem pageEffect_setCursors {fin : Store} {moved : SortedMap String ℕ}
    (h : PageEffect e rs .empty st fin) : PageEffect e rs moved st (fin.setCursors moved) := by
  obtain ⟨s, hs⟩ := setCursors_frame moved.entries fin
  obtain ⟨m, b, stamps, q, subs, hf⟩ := h.frame
  have hcur := fun channel => @setCursors_cursor fin moved channel
  have hshape : fin.setCursors moved = { fin with subscriptions := s } := hs
  rw [hshape] at hcur ⊢
  refine ⟨h.ledger, h.main, h.bare, fun channel => ?_, m, b, stamps, q, s, by rw [hf]⟩
  rw [hcur channel, h.cursors channel]
  rfl

end Page

/-! ### A receipt -/

/-- The records of the mutations a receipt removes. -/
def Removes (e : Engine) (st : Store) (push : ℕ) (rejections : List Rejection) (k : RecordKey) :
    Prop :=
  k ∈ touchedOf st push ∨ k ∈ e.markedOf st rejections

instance (e : Engine) (st : Store) (push : ℕ) (rejections : List Rejection) (k : RecordKey) :
    Decidable (Removes e st push rejections k) := inferInstanceAs (Decidable (_ ∨ _))

/-- What a receipt does to a client with a plain schema when its accepted mutations have no
    companions. -/
structure ReceiptEffect (e : Engine) (push : ℕ) (receipt : PushReceipt) (st fin : Store) : Prop where
  ledger : fin.ledger = Lww.absorbAll st.ledger (receipt.records.filterMap e.authored)
  main : ∀ k, fin.dirty k = true → fin.main.lookup k =
    if st.recordStamp k < fin.recordStamp k ∨ Removes e st push receipt.rejections k
      then fin.shown k else st.main.lookup k
  bare : fin.bare = (st.relieved receipt.rejections
    ((acceptedOf st push receipt).map (·.ordinal))).bare
  spares : ∀ k, ¬Removes e st push receipt.rejections k → fin.opsFor k = st.opsFor k
  frame : ∃ main before stamps queue, fin = { st with
    main := main, before := before, stamps := stamps, queue := queue
    rejections := inboxOf st receipt.rejections, lastCompletedPush := push, pushModels := none }

section Receipt
variable {e : Engine} {st st' : Store} {push : ℕ} {receipt : PushReceipt} {covered wireRows : Held}

/-- Mutations without companions settle nothing. -/
theorem settleCompanions_nil {acc : Store × Held} : ∀ {accepted : List Queued},
    (∀ q ∈ accepted, q.mutation.companion = []) →
    e.settleCompanions wireRows covered acc accepted = .ok acc
  | [], _ => rfl
  | q :: accepted, h => by
    have hq := h q (List.mem_cons_self ..)
    have hstep : e.settleMutation wireRows covered acc q = .ok acc := by
      simp only [Engine.settleMutation, Engine.localOps, hq]
      rfl
    rw [Engine.settleCompanions, List.foldlM_cons, hstep]
    exact settleCompanions_nil fun x hx => h x (List.mem_cons_of_mem _ hx)

theorem rejectedOf_queue (h : st'.queue = st.queue) (rejections : List Rejection) :
    rejectedOf st' rejections = rejectedOf st rejections := by
  rw [rejectedOf, rejectedOf, h]

theorem markedOf_queue (h : st'.queue = st.queue) (rejections : List Rejection) :
    e.markedOf st' rejections = e.markedOf st rejections := by
  rw [Engine.markedOf, Engine.markedOf, droppedOf, droppedOf, rejectedOf_queue h, h]

theorem relieved_queue (h : st'.queue = st.queue) (rejections : List Rejection) (ns : List ℕ) :
    (st'.relieved rejections ns).queue = (st.relieved rejections ns).queue := by
  simp only [Store.relieved, deleteMutations_queue, rejectedOf_queue h, h]

theorem relieved_dirty {k : RecordKey} {rejections : List Rejection} {ns : List ℕ}
    (hd : (st.relieved rejections ns).dirty k = true) : st.dirty k = true := by
  obtain ⟨q', hq', op, hop, rfl⟩ := dirty_iff.mp hd
  obtain ⟨q, hq, -, -, rfl⟩ := mem_relieved.mp hq'
  exact dirty_iff.mpr ⟨q, hq, op, hop, rfl⟩

/-- Mutations a receipt removes touch only the records it removes. -/
theorem not_removes {k : RecordKey} (hk : ¬Removes e st push receipt.rejections k) :
    ∀ q ∈ st.queue, (q.ordinal ∈ (rejectedOf st receipt.rejections).keys ∨
        q.ordinal ∈ (acceptedOf st push receipt).map (·.ordinal)) →
      (st.queue.map (·.ordinal)).Nodup → ∀ op ∈ q.mutation.allOps, op.key ≠ k := by
  rintro q hq hrem hnd op hop rfl
  rcases hrem with hrem | hrem
  · exact hk (Or.inr (mem_marked.mpr ⟨q, hq, mem_rejected_keys.mp hrem, op, hop, rfl⟩))
  · obtain ⟨a, ha, hord⟩ := List.mem_map.mp hrem
    have hb : a ∈ batchOf st push := List.mem_of_mem_filter ha
    obtain rfl : a = q := List.inj_on_of_nodup_map hnd (mem_batchOf.mp hb).1 hq hord
    exact hk (Or.inl (mem_touchedOf.mpr ⟨a, hb, op, hop, rfl⟩))

/-- The records a receipt removes are dirty. -/
theorem removes_dirty {k : RecordKey} (hk : Removes e st push receipt.rejections k) :
    st.dirty k = true := by
  rcases hk with hk | hk
  · exact touched_dirty hk
  · exact marked_dirty hk

theorem complete_plain (hp : Plain e) (hwf : Wf e st) (ht : Tidy st)
    (hcheck : e.checkReceipt (batchOf st push) (acceptedOf st push receipt) receipt =
      .ok (covered, wireRows))
    (hnc : ∀ q ∈ acceptedOf st push receipt, q.mutation.companion = []) :
    ∃ report fin, e.complete st push receipt = .ok (report, fin) ∧
      ReceiptEffect e push receipt st fin := by
  have hsettle : e.settleCompanions wireRows covered (st, e.holdAll [] (touchedOf st push))
      (acceptedOf st push receipt) = .ok (st, e.holdAll [] (touchedOf st push)) :=
    settleCompanions_nil hnc
  have hset := settles_of_completes hwf hsettle
  have hst := stages_all receipt.records (e.holdAll [] (touchedOf st push)) hwf
  have hnamed := fun k hk => completes_named (k := k) hwf receipt hset hk
  have hnd : (e.holdAll (e.stageAll st (e.holdAll [] (touchedOf st push)) receipt.records).2.1
      (e.markedOf (e.stageAll st (e.holdAll [] (touchedOf st push)) receipt.records).1
        receipt.rejections)).Nodup :=
    (heldOk_holdAll (heldOk_stageAll hwf (heldOk_holdAll heldOk_nil))).nodup
  obtain ⟨reports, fin, hr, hreb⟩ := rebuildHeld_plain hp
    (wf_relieved hst.wf : Wf e ((e.stageAll st (e.holdAll [] (touchedOf st push))
      receipt.records).1.relieved receipt.rejections
        ((acceptedOf st push receipt).map (·.ordinal)))) hnamed hnd
  have hcomp : Completes e st push receipt covered wireRows st (e.holdAll [] (touchedOf st push))
      reports fin := ⟨hcheck, hsettle, hr⟩
  obtain ⟨hl, hheld⟩ := stageAll_absorbs hp receipt.records (e.holdAll [] (touchedOf st push)) hwf
  have hnodup : (st.queue.map (·.ordinal)).Nodup := hwf.sorted.imp fun h => ne_of_lt h
  have hstamp : ∀ k, fin.recordStamp k = (e.stageAll st (e.holdAll [] (touchedOf st push))
      receipt.records).1.recordStamp k := completes_stamp hwf hcomp
  have hmem : ∀ k, k ∈ e.holdAll (e.stageAll st (e.holdAll [] (touchedOf st push))
      receipt.records).2.1 (e.markedOf (e.stageAll st (e.holdAll [] (touchedOf st push))
        receipt.records).1 receipt.rejections) ↔
      Removes e st push receipt.rejections k ∨
        (st.dirty k = true ∧ st.recordStamp k < fin.recordStamp k) := by
    intro k
    rw [mem_holdAll, hheld k, mem_holdAll, hstamp, markedOf_queue hst.queue]
    simp only [List.not_mem_nil, false_or, Removes]
    tauto
  refine ⟨_, _, (complete_eq_ok hwf).mpr ⟨covered, wireRows, st, _, reports, fin, hcomp, rfl, rfl⟩,
    ?_, fun k hd => ?_, ?_, fun k hk => ?_, ?_⟩
  · change fin.ledger = _
    rw [← hl]
    funext k
    simp only [Store.ledger, hstamp]
    rw [completes_truth hwf ht hcomp]
    split
    · rename_i hk
      rw [truth_dirty (hst.dirty.trans ?_)]
      rcases (hmem k).mp hk with hk | hk
      · exact removes_dirty hk
      · exact hk.1
    · rfl
  · change fin.main.lookup k = if st.recordStamp k < fin.recordStamp k ∨ _ then fin.shown k else _
    have hdR : (Store.relieved (e.stageAll st (e.holdAll [] (touchedOf st push))
        receipt.records).1 receipt.rejections
        ((acceptedOf st push receipt).map (·.ordinal))).dirty k = true :=
      (bare_dirty hreb.bare).symm.trans hd
    have hdst : st.dirty k = true := hst.dirty.symm.trans (relieved_dirty hdR)
    rw [hreb.main]
    simp only [hmem, hdst, true_and, or_comm (b := Removes e st push receipt.rejections k)]
    split
    · rw [hreb.shown hdR]
    · exact hst.main k hdst
  · change fin.bare = _
    rw [hreb.bare]
    exact bare_of_queue (relieved_queue hst.queue _ _)
  · change fin.opsFor k = _
    rw [bare_opsFor hreb.bare]
    refine (relieved_untouched fun q hq hrem => ?_).ops.trans (opsFor_of_queue hst.queue)
    rw [hst.queue] at hq
    rw [rejectedOf_queue hst.queue] at hrem
    exact not_removes hk q hq hrem hnodup
  · obtain ⟨m, b, s, hf⟩ := hst.frame
    obtain ⟨m', b', q, hf'⟩ := hreb.frame
    refine ⟨m', b', s, q, ?_⟩
    have hinbox : inboxOf (e.stageAll st (e.holdAll [] (touchedOf st push)) receipt.records).1
        receipt.rejections = inboxOf st receipt.rejections := by
      rw [inboxOf, inboxOf, droppedOf, droppedOf, rejectedOf_queue hst.queue, hst.queue, hf]
    rw [hf']
    simp only [Store.relieved, Store.deleteMutations, Store.setLastCompletedPush, hinbox]
    rw [hf]

end Receipt

/-! ### Both orders -/

section Marks
variable {e : Engine} {st st' : Store} {push : ℕ} {receipt : PushReceipt}
  {rejections : List Rejection} {k : RecordKey}

theorem closeRejected_bare : ∀ {queue : List Queued} {n : ℕ} {r : SortedMap ℕ String},
    closeRejected (queue.map fun q => { q with diverged := false }) n r = closeRejected queue n r
  | _, 0, _ => rfl
  | queue, n + 1, r => by
    simp only [closeRejected, List.filter_map, List.map_eq_nil_iff, List.foldl_map,
      Function.comp_def, closeRejected_bare (n := n)]

/-- A filter that does not read the marks. -/
theorem bare_filter (h : st'.bare = st.bare) (p : Queued → Bool)
    (hp : ∀ q, p { q with diverged := false } = p q) :
    (st'.queue.filter p).map (fun q => { q with diverged := false }) =
      (st.queue.filter p).map fun q => { q with diverged := false } := by
  have hcomp : p ∘ (fun q => { q with diverged := false }) = p := funext hp
  have hside : ∀ s : Store, (s.queue.filter p).map (fun q => { q with diverged := false }) =
      s.bare.filter p := fun s => by rw [Store.bare, List.filter_map, hcomp]
  rw [hside, hside, h]

theorem bare_rejectedOf (h : st'.bare = st.bare) :
    rejectedOf st' rejections = rejectedOf st rejections := by
  have hside : ∀ s : Store, rejectedOf s rejections = closeRejected s.bare s.bare.length
      (.ofList (rejections.map fun r => (r.ordinal, r.code))) := fun s => by
    rw [Store.bare, closeRejected_bare, List.length_map, rejectedOf]
  rw [hside, hside, h]

theorem bare_batchOf (h : st'.bare = st.bare) :
    (batchOf st' push).map (fun q => { q with diverged := false }) =
      (batchOf st push).map fun q => { q with diverged := false } :=
  bare_filter h _ fun _ => rfl

theorem bare_acceptedOf (h : st'.bare = st.bare) :
    (acceptedOf st' push receipt).map (fun q => { q with diverged := false }) =
      (acceptedOf st push receipt).map fun q => { q with diverged := false } := by
  simp only [acceptedOf, batchOf, List.filter_filter]
  exact bare_filter h _ fun _ => rfl

theorem bare_droppedOf (h : st'.bare = st.bare) :
    (droppedOf st' rejections).map (fun q => { q with diverged := false }) =
      (droppedOf st rejections).map fun q => { q with diverged := false } := by
  rw [droppedOf, bare_rejectedOf h]
  exact bare_filter h _ fun _ => rfl

/-- What is computed from each mutation without its mark. -/
theorem map_of_unmarked {α : Type} {qs qs' : List Queued} (f : Queued → α)
    (hf : ∀ q, f { q with diverged := false } = f q)
    (h : qs'.map (fun q => { q with diverged := false }) =
      qs.map fun q => { q with diverged := false }) : qs'.map f = qs.map f := by
  have hcomp : f ∘ (fun q => { q with diverged := false }) = f := funext hf
  have := congrArg (List.map f) h
  simpa only [List.map_map, hcomp] using this

theorem bare_removes (h : st'.bare = st.bare) :
    Removes e st' push rejections k ↔ Removes e st push rejections k := by
  have hops : ∀ {qs qs' : List Queued}, qs'.map (fun q => { q with diverged := false }) =
      qs.map (fun q => { q with diverged := false }) →
      qs'.flatMap (·.mutation.allOps) = qs.flatMap (·.mutation.allOps) := fun heq => by
    rw [List.flatMap_def, List.flatMap_def,
      map_of_unmarked (fun q : Queued => q.mutation.allOps) (fun _ => rfl) heq]
  rw [Removes, Removes, touchedOf, touchedOf, Engine.markedOf, Engine.markedOf,
    hops (bare_batchOf h), hops (bare_droppedOf h)]

theorem bare_deleteMutations (h : st'.bare = st.bare) (ns : List ℕ) :
    (st'.deleteMutations ns).bare = (st.deleteMutations ns).bare := by
  simp only [Store.bare, deleteMutations_queue, List.map_map]
  exact map_of_unmarked (fun q => { Queued.forget ns q with diverged := false }) (fun _ => rfl)
    (bare_filter h (fun q => q.ordinal ∉ ns) fun _ => rfl)

theorem bare_relieved (h : st'.bare = st.bare) :
    (st'.relieved rejections ((acceptedOf st' push receipt).map (·.ordinal))).bare =
      (st.relieved rejections ((acceptedOf st push receipt).map (·.ordinal))).bare := by
  rw [map_of_unmarked (·.ordinal) (fun _ => rfl) (bare_acceptedOf h)]
  refine bare_deleteMutations ?_ _
  rw [bare_rejectedOf h]
  exact bare_deleteMutations h _

theorem bare_inboxOf (h : st'.bare = st.bare) (hr : st'.rejections = st.rejections) :
    inboxOf st' rejections = inboxOf st rejections := by
  have hd := @bare_droppedOf _ _ rejections h
  have hside : ∀ s : Store, inboxOf s rejections =
      ((droppedOf s rejections).map fun q => { q with diverged := false }).foldl
        (fun inbox q => inbox.insert q.ordinal ⟨q.mutation.name,
          ((rejectedOf s rejections).lookup q.ordinal).getD "", q.mutation,
          q.mutation.allOps.map (·.key)⟩) s.rejections := fun s => by
    rw [inboxOf, List.foldl_map]
  rw [hside, hside, hd, bare_rejectedOf h, hr]

end Marks

section Commute
variable {e : Engine} {st st' stR stP fin fin' : Store} {push : ℕ} {receipt : PushReceipt}
  {rs : List AuthorityRecord} {moved : SortedMap String ℕ}

/-- Two stores that differ in their diverged marks only. -/
structure Same (st st' : Store) : Prop where
  main : ∀ k, st'.main.lookup k = st.main.lookup k
  before : ∀ k, st'.before.lookup k = st.before.lookup k
  stamps : ∀ k, st'.recordStamp k = st.recordStamp k
  queue : st'.bare = st.bare
  rejections : st'.rejections = st.rejections
  cursors : st'.subscriptions = st.subscriptions
  completed : st'.lastCompletedPush = st.lastCompletedPush
  pushModels : st'.pushModels = st.pushModels
  nextOrdinal : st'.nextOrdinal = st.nextOrdinal
  nextPush : st'.nextPush = st.nextPush

/-- Stores without stray before images agree when they hold the same truths and show the same rows of
    the dirty records. -/
theorem rows_of_ledger (hl : st'.ledger = st.ledger) (hb : st'.bare = st.bare) (ht : Tidy st)
    (ht' : Tidy st') (k : RecordKey)
    (hm : st.dirty k = true → st'.main.lookup k = st.main.lookup k) :
    st'.main.lookup k = st.main.lookup k ∧ st'.before.lookup k = st.before.lookup k ∧
      st'.recordStamp k = st.recordStamp k := by
  have hk := congrFun hl k
  have htruth : st'.truth k = st.truth k := congrArg Prod.snd hk
  have hd := bare_dirty (k := k) hb
  refine ⟨?_, ?_, congrArg Prod.fst hk⟩
  · cases hdk : st.dirty k with
    | true => exact hm hdk
    | false => rw [← truth_clean hdk, ← truth_clean (hd.trans hdk), htruth]
  · cases hdk : st.dirty k with
    | true => rw [← truth_dirty hdk, ← truth_dirty (hd.trans hdk), htruth]
    | false => rw [ht k hdk, ht' k (hd.trans hdk)]

/-- Where the stamp and the operations of a dirty record are as they were, so is its replay. -/
theorem shown_of_stamp {k : RecordKey} {ws : List (Lww.Write RecordKey ℕ (Option Value))}
    (hl : st'.ledger = Lww.absorbAll st.ledger ws) (hs : ¬st.recordStamp k < st'.recordStamp k)
    (hops : st'.opsFor k = st.opsFor k) (hd : st.dirty k = true) : st'.shown k = st.shown k := by
  obtain ⟨hle, hheld⟩ := Lww.absorbAll_stamp st.ledger ws k
  rw [← hl] at hle hheld
  have hk := hheld (le_antisymm (not_lt.mp hs) hle)
  have htruth : st'.truth k = st.truth k := congrArg Prod.snd hk
  have hd' : st'.dirty k = true := (dirty_eq_of_opsFor hops).trans hd
  rw [truth_dirty hd, truth_dirty hd'] at htruth
  rw [Store.shown, Store.shown, htruth, hops]

theorem stamp_mono {ws : List (Lww.Write RecordKey ℕ (Option Value))} (k : RecordKey)
    (hl : st'.ledger = Lww.absorbAll st.ledger ws) : st.recordStamp k ≤ st'.recordStamp k := by
  have := (Lww.absorbAll_stamp st.ledger ws k).1
  rwa [← hl] at this

/-- After both, a dirty record is replayed when its stamp grew or the receipt removed one of its
    operations; whether the page comes second ... -/
theorem main_receipt_page {k : RecordKey} (hR : ReceiptEffect e push receipt st stR)
    (hP : PageEffect e rs moved stR fin) (hd : fin.dirty k = true) : fin.main.lookup k =
      if st.recordStamp k < fin.recordStamp k ∨ Removes e st push receipt.rejections k
        then fin.shown k else st.main.lookup k := by
  have hdR : stR.dirty k = true := (bare_dirty hP.bare).symm.trans hd
  have hle := stamp_mono k hR.ledger
  have hle' := stamp_mono k hP.ledger
  rw [hP.main k hdR]
  by_cases hlt : stR.recordStamp k < fin.recordStamp k
  · rw [if_pos hlt, if_pos (Or.inl (hle.trans_lt hlt))]
  · rw [if_neg hlt, hR.main k hdR, le_antisymm (not_lt.mp hlt) hle',
      shown_of_stamp hP.ledger hlt (bare_opsFor hP.bare) hdR]

/-- ... or the receipt. -/
theorem main_page_receipt {k : RecordKey} (hP : PageEffect e rs moved st stP)
    (hR : ReceiptEffect e push receipt stP fin) (hd : fin.dirty k = true) : fin.main.lookup k =
      if st.recordStamp k < fin.recordStamp k ∨ Removes e st push receipt.rejections k
        then fin.shown k else st.main.lookup k := by
  have hdP : stP.dirty k = true := relieved_dirty ((bare_dirty hR.bare).symm.trans hd)
  have hdst : st.dirty k = true := (bare_dirty hP.bare).symm.trans hdP
  have hle := stamp_mono k hP.ledger
  have hle' := stamp_mono k hR.ledger
  rw [hR.main k hd]
  simp only [bare_removes hP.bare]
  by_cases hlt : stP.recordStamp k < fin.recordStamp k ∨ Removes e st push receipt.rejections k
  · rw [if_pos hlt, if_pos (hlt.imp_left hle.trans_lt)]
  · obtain ⟨hnlt, hrem⟩ := not_or.mp hlt
    have hshown := shown_of_stamp hR.ledger hnlt
      (hR.spares k fun h => hrem ((bare_removes hP.bare).mp h)) hdP
    rw [if_neg hlt, hP.main k hdst, hshown, le_antisymm (not_lt.mp hnlt) hle']
    simp only [hrem, or_false]

/-- The two effects commute when the records both carry at one stamp have one content. -/
theorem same_of_effects
    (hagree : ∀ v ∈ receipt.records.filterMap e.authored, ∀ w ∈ rs.filterMap e.authored,
      Lww.Agree v w)
    (hR : ReceiptEffect e push receipt st stR) (hRP : PageEffect e rs moved stR fin)
    (hP : PageEffect e rs moved st stP) (hPR : ReceiptEffect e push receipt stP fin')
    (ht : Tidy fin) (ht' : Tidy fin') : Same fin fin' := by
  have hl : fin'.ledger = fin.ledger := by
    rw [hPR.ledger, hP.ledger, hRP.ledger, hR.ledger, Lww.absorbAll_comm hagree]
  have hb : fin'.bare = fin.bare := by
    rw [hPR.bare, hRP.bare, hR.bare, bare_relieved hP.bare]
  have hmain : ∀ k, fin.dirty k = true → fin'.main.lookup k = fin.main.lookup k := by
    intro k hd
    have hd' := (bare_dirty (k := k) hb).trans hd
    have hledger := congrFun hl k
    have hstamp : fin'.recordStamp k = fin.recordStamp k := congrArg Prod.fst hledger
    have htruth : fin'.truth k = fin.truth k := congrArg Prod.snd hledger
    rw [truth_dirty hd, truth_dirty hd'] at htruth
    have hshown : fin'.shown k = fin.shown k := by
      rw [Store.shown, Store.shown, htruth, bare_opsFor hb]
    rw [main_page_receipt hP hPR hd', main_receipt_page hR hRP hd, hshown, hstamp]
  have hrows := fun k => rows_of_ledger hl hb ht ht' k (hmain k)
  obtain ⟨_, _, _, _, hfR⟩ := hR.frame
  obtain ⟨_, _, _, _, _, hfP⟩ := hP.frame
  obtain ⟨_, _, _, _, _, hfRP⟩ := hRP.frame
  obtain ⟨_, _, _, _, hfPR⟩ := hPR.frame
  have hcursor : ∀ channel, fin'.cursor channel = fin.cursor channel := fun channel => by
    have h1 : fin'.cursor channel = stP.cursor channel := by rw [hfPR]; rfl
    have h2 : stR.cursor channel = st.cursor channel := by rw [hfR]; rfl
    rw [h1, hP.cursors, hRP.cursors, h2]
  refine ⟨fun k => (hrows k).1, fun k => (hrows k).2.1, fun k => (hrows k).2.2, hb, ?_,
    SortedMap.ext_lookup hcursor, ?_, ?_, ?_, ?_⟩
  · have hinbox := @bare_inboxOf _ _ receipt.rejections hP.bare (by rw [hfP])
    rw [hfPR, hfRP, hfR]
    exact hinbox
  · rw [hfPR, hfRP, hfR]
  · rw [hfPR, hfRP, hfR]
  · rw [hfPR, hfRP, hfR, hfP]
  · rw [hfPR, hfRP, hfR, hfP]

end Commute

section Clients
variable {e : Engine} {st st' : Store} {c : Client} {page : PullPage} {push : ℕ}
  {receipt : PushReceipt} {covered wireRows : Held}

/-- A connecting page is applied, or answers an earlier subscription and changes nothing. -/
theorem applyPage_plain (hp : Plain e) (h : Host.Reaches e c) (hc : Connects c page) :
    ∃ report c', c.applyPage e page = (.ok report, c') ∧ c'.pulls = (c.pulls.stale page.froms).2 ∧
      PageEffect e (if (c.pulls.stale page.froms).1 then [] else page.changes)
        (if (c.pulls.stale page.froms).1 then .empty else c.store.moved page) c.store c'.store := by
  have happly : c.applyPage e page = if (c.pulls.stale page.froms).1 then
      (.ok { stale := true }, { c with pulls := (c.pulls.stale page.froms).2 })
      else ({ c with pulls := (c.pulls.stale page.froms).2 } : Client).commit
        (e.applyCurrentPage c.store page) := by
    simp only [Client.applyPage, hc.valid]
  rw [happly]
  cases (c.pulls.stale page.froms).1 with
  | true => exact ⟨_, _, rfl, rfl, pageEffect_refl _⟩
  | false =>
    obtain ⟨report, fin, hr, heff⟩ := applyRecords_plain page.changes hp
      (wf_reaches h) (tidy_reaches h)
    have hgap : NoGap c.store page := fun channel range current hr hcur _ =>
      hc.reaches channel range current hr hcur
    have ha := (applyCurrentPage_moves (moved_isEmpty.mpr hc.moves)).mpr
      ⟨hgap, report, fin, hr, rfl, rfl⟩
    exact ⟨{ report with cursors := c.store.moved page },
      ⟨fin.setCursors (c.store.moved page), (c.pulls.stale page.froms).2⟩, by rw [ha]; rfl, rfl,
      pageEffect_setCursors heff⟩

/-- A receipt that passes the checks completes its push. -/
theorem acknowledge_plain (hp : Plain e) (h : Host.Reaches e c)
    (ha : Acknowledges e c.store push receipt covered wireRows)
    (hnc : ∀ q ∈ acceptedOf c.store push receipt, q.mutation.companion = []) :
    ∃ report c', c.acknowledge e push receipt = (.ok report, c') ∧ c'.pulls = c.pulls ∧
      ReceiptEffect e push receipt c.store c'.store := by
  obtain ⟨report, fin, hcomp, heff⟩ := complete_plain hp (wf_reaches h) (tidy_reaches h)
    ha.checked hnc
  have hpush : c.store.lastCompletedPush < push := by
    rcases (inFlight_eq (flight_reaches h)).mp ha.inFlight with ⟨-, h0⟩ | ⟨-, h1⟩
    · cases h0
    · have := Option.some.inj h1
      omega
  have hr := acknowledge_eq_ok.mpr ⟨ha.batch, ha.client, Or.inr ⟨hpush, ha.inFlight, hcomp⟩⟩
  exact ⟨report, ⟨fin, c.pulls⟩, by simp only [Client.acknowledge, ha.valid, hr]; rfl, rfl, heff⟩

/-- A store with the same queue but for its marks has the same push in flight and passes the same
    receipts. -/
theorem bare_acknowledges (hwf : Wf e st) (hwf' : Wf e st') (hb : st'.bare = st.bare)
    (hid : st'.clientId = st.clientId) (ha : Acknowledges e st push receipt covered wireRows) :
    Acknowledges e st' push receipt covered wireRows := by
  obtain ⟨hrej, hcov, hrows, hall⟩ := (checkReceipt_eq_ok hwf).mp ha.checked
  have hbatch : (batchOf st' push).map (·.ordinal) = (batchOf st push).map (·.ordinal) :=
    map_of_unmarked (·.ordinal) (fun _ => rfl) (bare_batchOf hb)
  have hops : (acceptedOf st' push receipt).map (·.mutation.operations) =
      (acceptedOf st push receipt).map (·.mutation.operations) :=
    map_of_unmarked (·.mutation.operations) (fun _ => rfl) (bare_acceptedOf hb)
  have hflight : ∀ s : Store, (s.queue.filterMap (·.push)) = s.bare.filterMap (·.push) :=
    fun s => by rw [Store.bare, List.filterMap_map]; rfl
  refine ⟨ha.valid, ha.batch, ha.client.trans hid.symm, ?_, (checkReceipt_eq_ok hwf').mpr
    ⟨fun r hr => hbatch ▸ hrej r hr, hcov, ?_, hall⟩⟩
  · rw [← ha.inFlight, Store.inFlight, Store.inFlight, hflight, hflight, hb]
  · rw [hrows, List.flatMap_def, List.flatMap_def, hops]

/-- Two records of one key and stamp carry one content. -/
def SameContent (e : Engine) (r p : AuthorityRecord) : Prop :=
  ∀ key, e.recordKey r.model r.identity = .ok key → e.recordKey p.model p.identity = .ok key →
    r.stamp = p.stamp → r.error = none → p.error = none → r.state = p.state

theorem agree_of_content {rs ps : List AuthorityRecord}
    (h : ∀ r ∈ rs, ∀ p ∈ ps, SameContent e r p) :
    ∀ v ∈ rs.filterMap e.authored, ∀ w ∈ ps.filterMap e.authored, Lww.Agree v w := by
  rintro v hv w hw hkey hstamp
  obtain ⟨r, hr, hv⟩ := List.mem_filterMap.mp hv
  obtain ⟨p, hp, hw⟩ := List.mem_filterMap.mp hw
  obtain ⟨her, hkr, hvr, hsr⟩ := authored_eq_some.mp hv
  obtain ⟨hep, hkp, hvp, hsp⟩ := authored_eq_some.mp hw
  rw [← hkey] at hkp hvp
  have hstate := h r hr p hp v.key hkr hkp (hsr.symm.trans (hstamp.trans hsp)) her hep
  have hmodel : r.model = p.model := (recordKey_model hkr).symm.trans (recordKey_model hkp)
  have hsame : e.incomingRow v.key r = e.incomingRow v.key p := by
    rw [Engine.incomingRow, Engine.incomingRow, hstate, hmodel]
  exact Except.ok.inj (hvr.symm.trans (hsame.trans hvp))

end Clients

/-- A receipt and a page commute: both orders succeed and lead to the same client. -/
theorem receipt_page_commute {e : Engine} {c : Client} {push : ℕ} {receipt : PushReceipt}
    {covered wireRows : Held} {page : PullPage} (hp : Plain e) (h : Host.Reaches e c)
    (ha : Acknowledges e c.store push receipt covered wireRows)
    (hnc : ∀ q ∈ acceptedOf c.store push receipt, q.mutation.companion = [])
    (hc : Connects c page)
    (hsame : ∀ r ∈ receipt.records, ∀ p ∈ page.changes, SameContent e r p) :
    ∃ r₁ c₁ p₁ c₂ p₂ d₁ r₂ d₂,
      c.acknowledge e push receipt = (.ok r₁, c₁) ∧ c₁.applyPage e page = (.ok p₁, c₂) ∧
      c.applyPage e page = (.ok p₂, d₁) ∧ d₁.acknowledge e push receipt = (.ok r₂, d₂) ∧
      Same c₂.store d₂.store ∧ c₂.pulls = d₂.pulls := by
  obtain ⟨r₁, c₁, hr₁, hpulls₁, hR⟩ := acknowledge_plain hp h ha hnc
  obtain ⟨p₂, d₁, hp₂, hpulls₂, hP⟩ := applyPage_plain hp h hc
  obtain rfl : c₁ = c.act e (.acknowledge push receipt) := (congrArg Prod.snd hr₁).symm
  obtain rfl : d₁ = c.act e (.applyPage page) := (congrArg Prod.snd hp₂).symm
  have hcR : Connects (c.act e (.acknowledge push receipt)) page := by
    obtain ⟨_, _, _, _, hf⟩ := hR.frame
    refine ⟨hc.valid, ?_, ?_⟩
    · rw [hf]; exact hc.reaches
    · rw [hf]; exact hc.moves
  have hmovedR : (c.act e (.acknowledge push receipt)).store.moved page = c.store.moved page := by
    obtain ⟨_, _, _, _, hf⟩ := hR.frame
    rw [hf]; rfl
  have haP : Acknowledges e (c.act e (.applyPage page)).store push receipt covered wireRows := by
    obtain ⟨_, _, _, _, _, hf⟩ := hP.frame
    exact bare_acknowledges (wf_reaches h) (wf_act (wf_reaches h) _) hP.bare (by rw [hf]) ha
  have hncP : ∀ q ∈ acceptedOf (c.act e (.applyPage page)).store push receipt,
      q.mutation.companion = [] := by
    have heq := map_of_unmarked (fun q : Queued => q.mutation.companion) (fun _ => rfl)
      (@bare_acceptedOf _ _ push receipt hP.bare)
    intro q hq
    have hmem := List.mem_map_of_mem (f := fun q : Queued => q.mutation.companion) hq
    rw [heq] at hmem
    obtain ⟨q', hq', hcomp⟩ := List.mem_map.mp hmem
    exact hcomp.symm.trans (hnc q' hq')
  obtain ⟨p₁, c₂, hp₁, hpulls₃, hRP⟩ := applyPage_plain hp (reaches_act h _) hcR
  obtain ⟨r₂, d₂, hr₂, hpulls₄, hPR⟩ := acknowledge_plain hp (reaches_act h _) haP hncP
  have ht₁ := tidy_reaches (reaches_act (reaches_act h (.acknowledge push receipt))
    (.applyPage page))
  have ht₂ := tidy_reaches (reaches_act (reaches_act h (.applyPage page))
    (.acknowledge push receipt))
  obtain rfl : c₂ = Client.act e _ (.applyPage page) := (congrArg Prod.snd hp₁).symm
  obtain rfl : d₂ = Client.act e _ (.acknowledge push receipt) := (congrArg Prod.snd hr₂).symm
  rw [hpulls₁, hmovedR] at hRP
  refine ⟨r₁, _, p₁, _, p₂, _, r₂, _, hr₁, hp₁, hp₂, hr₂, ?_, ?_⟩
  · refine same_of_effects ?_ hR hRP hP hPR ht₁ ht₂
    split
    · exact fun _ _ w hw => nomatch hw
    · exact agree_of_content hsame
  · rw [hpulls₃, hpulls₄, hpulls₂, hpulls₁]

section Sample
open Sample

/-- The receipt of a pending item and a page with newer content of it and another item. -/
theorem receipt_page_commute_loose :
    ∃ r₁ c₁ p₁ c₂ p₂ d₁ r₂ d₂,
      (client loose (pending ++ [.freeze 1000])).acknowledge loose 1
        ⟨"me", 1, [], [record "b" "y" 2]⟩ = (.ok r₁, c₁) ∧
      c₁.applyPage loose (page "c" 1 3 [record "b" "z" 3, record "d" "w" 2]) = (.ok p₁, c₂) ∧
      (client loose (pending ++ [.freeze 1000])).applyPage loose
        (page "c" 1 3 [record "b" "z" 3, record "d" "w" 2]) = (.ok p₂, d₁) ∧
      d₁.acknowledge loose 1 ⟨"me", 1, [], [record "b" "y" 2]⟩ = (.ok r₂, d₂) ∧
      Same c₂.store d₂.store ∧ c₂.pulls = d₂.pulls := by
  have hack : Acknowledges loose (client loose (pending ++ [.freeze 1000])).store 1
      ⟨"me", 1, [], [record "b" "y" 2]⟩ [item "b"] [item "b"] :=
    ⟨by decide +kernel, rfl, by decide +kernel, by decide +kernel, by decide +kernel⟩
  refine receipt_page_commute ⟨by decide +kernel, by decide +kernel⟩ (client_reaches loose _) hack
    (by decide +kernel)
    (connects_page (by decide +kernel) (by decide +kernel) le_rfl (by decide)) ?_
  intro r hr p hp key hkr hkp hstamp
  change p ∈ [record "b" "z" 3, record "d" "w" 2] at hp
  simp only [List.mem_cons, List.not_mem_nil, or_false] at hr hp
  subst hr
  rcases hp with rfl | rfl
  · exact absurd hstamp (by decide)
  · exact absurd (hkr.trans hkp.symm) (by decide +kernel)

end Sample

end AheadSync
