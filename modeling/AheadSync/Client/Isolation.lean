import AheadSync.Client.Cursors
import AheadSync.Client.Host
import AheadSync.Client.Replay
import AheadSync.Client.Truth

/-! Failure isolation of deliveries. Each record of a delivery is staged alone, so one that cannot be
    applied leaves nothing behind. What can still fail a whole delivery is the rebuild of the held
    records, which runs outside any savepoint and meets the unique constraints of the visible table
    for the first time. -/

namespace AheadSync

/-! ### What became of each record -/

/-- Every stored row below a record has an identity that is accepted again. -/
def BelowOk (e : Engine) (st : Store) (parent : RecordKey) : Prop :=
  ∀ p k, Below e st parent p → Refers e st p k → Canonical e k

/-- A record that cannot be applied: its loader failed, the schema refuses its identity or its state,
    or the store cannot take it, because a clean record would violate a unique constraint or because
    a deletion meets a stored identity the schema refuses. -/
def Refused (e : Engine) (st : Store) (r : AuthorityRecord) : Prop :=
  r.error.isSome ∨ (∀ key, e.recordKey r.model r.identity ≠ .ok key) ∨
    ∃ key, e.recordKey r.model r.identity = .ok key ∧ ((∀ row, e.incomingRow key r ≠ .ok row) ∨
      ∃ row, e.incomingRow key r = .ok row ∧ st.recordStamp key < r.stamp ∧
        ((st.dirty key = false ∧ Duplicate e st key row) ∨
          (row = none ∧ ¬BelowOk e (st.setTruth key row) key)))

/-- One record at its turn: it lands with its cascade, it is not newer than what the store holds, or
    it is refused, which a report names. Only landing writes. -/
inductive Turn (e : Engine) (st : Store) (r : AuthorityRecord) : Store → Option Report → Prop
  | landed {key : RecordKey} {row : Option Value} {found : List RecordKey}
      (h : Landing e st r key row found) : Turn e st r (st.landed key row found r.stamp) none
  | notNewer {key : RecordKey} {row : Option Value} {entry : Option Report}
      (noError : r.error = none) (identity : e.recordKey r.model r.identity = .ok key)
      (content : e.incomingRow key r = .ok row) (stamp : r.stamp ≤ st.recordStamp key) :
      Turn e st r st entry
  | refused {entry : Report} (h : Refused e st r)
      (names : entry.model = r.model ∧ entry.identity = r.identity ∧ entry.stamp = r.stamp) :
      Turn e st r st (some entry)

/-- The records of a delivery, each at its turn. -/
inductive Turns (e : Engine) : Store → List AuthorityRecord → Store → List (Option Report) → Prop
  | nil {st : Store} : Turns e st [] st []
  | cons {st mid st' : Store} {r : AuthorityRecord} {rs : List AuthorityRecord}
      {entry : Option Report} {entries : List (Option Report)} (head : Turn e st r mid entry)
      (tail : Turns e mid rs st' entries) : Turns e st (r :: rs) st' (entry :: entries)

section Turn
variable {e : Engine} {st : Store} {r : AuthorityRecord}

theorem cascadeOf_ok_iff (h : Wf e st) {key : RecordKey} {row : Option Value} :
    (∃ found, e.cascadeOf st key row = .ok found) ↔ (row = none → BelowOk e st key) := by
  unfold Engine.cascadeOf
  split
  · rename_i hrow
    rw [descendants_ok_iff h]
    simp [hrow, BelowOk]
  · rename_i hrow
    simp [hrow]

/-- Staging one record in its savepoint gives it its turn. -/
theorem turn_stageIsolated (h : Wf e st) (held : Held) :
    Turn e st r (e.stageIsolated st held r).store (e.stageIsolated st held r).entry := by
  unfold Engine.stageIsolated
  cases herr : r.error with
  | some code => exact .refused (Or.inl (by simp [herr])) ⟨rfl, rfl, rfl⟩
  | none =>
    unfold Engine.stageAuthority
    cases hk : e.recordKey r.model r.identity with
    | error m =>
      exact .refused (Or.inr (Or.inl fun key hkey => by simp [hk] at hkey)) ⟨rfl, rfl, rfl⟩
    | ok key =>
      cases hr : e.incomingRow key r with
      | error m =>
        simp only [Except.mapError, Except.ok_bind, hr]
        exact .refused (Or.inr (Or.inr ⟨key, hk, Or.inl fun row hrow => by simp [hr] at hrow⟩))
          ⟨rfl, rfl, rfl⟩
      | ok row =>
        simp only [Except.mapError, Except.ok_bind, hr]
        by_cases hlt : r.stamp < st.recordStamp key
        · simp only [hlt, ↓reduceIte]
          exact .notNewer herr hk hr hlt.le
        · by_cases heq : r.stamp = st.recordStamp key
          · simp only [heq, lt_irrefl, ↓reduceIte]
            by_cases ht : st.truth key = row
            · simp only [ht, ↓reduceIte]
              exact .notNewer herr hk hr heq.le
            · simp only [ht, ↓reduceIte]
              exact .notNewer herr hk hr heq.le
          · simp only [hlt, heq, ↓reduceIte]
            have hnew : st.recordStamp key < r.stamp := by omega
            cases hs : e.stageNewer st held key row r.stamp with
            | ok out =>
              obtain ⟨hadm, found, hf, rfl⟩ := (stageNewer_eq_ok h hk hr).mp hs
              exact .landed ⟨herr, hk, hr, hnew, hadm, hf⟩
            | error err =>
              have hwf := wf_setTruth h (recordKey_named hk) (incomingRow_rowFor hk hr)
              refine .refused (Or.inr (Or.inr ⟨key, hk, Or.inr ⟨row, hr, hnew, ?_⟩⟩))
                ⟨rfl, rfl, rfl⟩
              by_contra hnot
              rw [not_or, not_and, not_and, not_not] at hnot
              obtain ⟨found, hf⟩ := (cascadeOf_ok_iff hwf).mpr hnot.2
              have hadm : st.dirty key = true ∨ ¬Duplicate e st key row := by
                cases hd : st.dirty key with
                | true => exact Or.inl rfl
                | false => exact Or.inr (hnot.1 hd)
              have hok : e.stageNewer st held key row r.stamp = .ok _ :=
                (stageNewer_eq_ok h hk hr).mpr ⟨hadm, found, hf, rfl⟩
              rw [hs] at hok
              cases hok

theorem turns_stageAll : ∀ {rs : List AuthorityRecord} {st : Store} {held : Held}, Wf e st →
    Turns e st rs (e.stageAll st held rs).1 ((e.stageAll st held rs).2.2.map (·.entry))
  | [], _, _, _ => .nil
  | r :: _, _, held, h =>
    .cons (turn_stageIsolated h held) (turns_stageAll (stages_step h held r).wf)

end Turn

/-! ### When finishing a delivery succeeds -/

/-- Rebuilding a record fails: the visible table refuses the replayed row and the base. -/
def Blocked (e : Engine) (st : Store) (key : RecordKey) : Prop :=
  Duplicate e st key (st.shown key) ∧ Duplicate e st key (st.before.lookup key)

/-- Extending a queued delete to a record it does not cover yet does not fail. -/
def ExtendOk (e : Engine) (q : Queued) (st : Store) (child : RecordKey) : Prop :=
  q.mutation.effects.any (·.key = child) = false →
    ¬Blocked e (withEffect (st.holdTruth child) q.ordinal child) child

/-- Extending a queued delete to all its descendants does not fail. -/
def ExtendOpOk (e : Engine) (q : Queued) (st : Store) (op : Operation) : Prop :=
  BelowOk e st op.key ∧ ∀ found, e.descendants st op.key = .ok found →
    List.Guarded (e.extendDelete q) (ExtendOk e q) st found

/-- Extending the deletes of a queued mutation does not fail. -/
def ExtendQueuedOk (e : Engine) (st : Store) (q : Queued) : Prop :=
  List.Guarded (e.extendOp q) (ExtendOpOk e q) st
    ((q.mutation.operations ++ q.mutation.companion).filter (·.op = .delete))

/-- Nothing blocks finishing a delivery: each held record, when it is rebuilt, and then each record a
    queued delete is extended to, has a row the visible table admits. -/
structure Finishes (e : Engine) (st : Store) (held : Held) : Prop where
  rebuilds : List.Guarded e.rebuildStep (fun acc key => ¬Blocked e acc.2 key) ([], st) held
  refreshes : ∀ reports st', held.foldlM e.rebuildStep ([], st) = .ok (reports, st') →
    List.Guarded e.extendQueued (ExtendQueuedOk e) st' st'.queue

section Finish
variable {e : Engine} {st st' : Store} {key child : RecordKey} {q : Queued}

theorem rebuild_ok_iff (hwf : Wf e st) (hk : Named e key) :
    (∃ out, e.rebuild st key = .ok out) ↔ ¬Blocked e st key := by
  have hrow : (∃ row, RebuildRow e st key row) ↔ ¬Blocked e st key := by
    by_cases hs : Duplicate e st key (st.shown key) <;> simp [RebuildRow, Blocked, hs]
  rw [← hrow]
  constructor
  · rintro ⟨⟨failed, st'⟩, hr⟩
    obtain ⟨-, row, hrow, -⟩ := (rebuild_eq_ok hwf hk).mp hr
    exact ⟨row, hrow⟩
  · rintro ⟨row, hrow⟩
    exact ⟨(_, _), (rebuild_eq_ok hwf hk).mpr ⟨rfl, row, hrow, rfl⟩⟩

theorem rebuildStep_ok_iff {acc : List Report × Store} (hwf : Wf e acc.2) (hk : Named e key) :
    (∃ out, e.rebuildStep acc key = .ok out) ↔ ¬Blocked e acc.2 key := by
  rw [← rebuild_ok_iff hwf hk]
  simp only [Engine.rebuildStep, Except.bind_eq_ok, Except.pure_eq_ok]
  constructor
  · rintro ⟨_, out, hr, -⟩; exact ⟨out, hr⟩
  · rintro ⟨out, hr⟩; exact ⟨_, out, hr, rfl⟩

theorem extendDelete_ok_iff (hwf : Wf e st) (hc : Canonical e child) :
    (∃ st', e.extendDelete q st child = .ok st') ↔ ExtendOk e q st child := by
  have hw := wf_withEffect (n := q.ordinal) (wf_holdTruth hwf child) hc
  simp only [extendDelete_eq_ok hc, ExtendOk, ← rebuild_ok_iff hw (named_of_canonical hc)]
  cases q.mutation.effects.any (·.key = child) with
  | true => simp
  | false =>
    simp only [Bool.false_eq_true, false_and, false_or, true_and, forall_const]
    exact ⟨fun ⟨st', failed, hr⟩ => ⟨_, hr⟩, fun ⟨⟨failed, st'⟩, hr⟩ => ⟨st', failed, hr⟩⟩

theorem extendOp_eq_ok {op : Operation} (hop : OpOk e op) : e.extendOp q st op = .ok st' ↔
    ∃ found, e.descendants st op.key = .ok found ∧
      found.foldlM (e.extendDelete q) st = .ok st' := by
  simp only [Engine.extendOp, hop.key, Except.ok_bind, Except.bind_eq_ok]

theorem wf_extendOp {op : Operation} (hwf : Wf e st) (hop : OpOk e op)
    (hx : e.extendOp q st op = .ok st') : Wf e st' := by
  obtain ⟨found, hf, hfold⟩ := (extendOp_eq_ok hop).mp hx
  exact List.foldlM_ok_induction (Wf e) (fun s child t hchild hs hstep =>
    (wf_extendDelete hs (mem_descendants hwf hf hchild).1 hstep).1) hwf hfold

theorem extendOp_ok_iff {op : Operation} (hwf : Wf e st) (hop : OpOk e op) :
    (∃ st', e.extendOp q st op = .ok st') ↔ ExtendOpOk e q st op := by
  simp only [extendOp_eq_ok hop, ExtendOpOk]
  have hfold : ∀ found, e.descendants st op.key = .ok found →
      ((∃ st', found.foldlM (e.extendDelete q) st = .ok st') ↔
        List.Guarded (e.extendDelete q) (ExtendOk e q) st found) := fun found hf =>
    List.foldlM_ok_iff_guarded (Wf e) (fun s child t hchild hs hstep =>
        (wf_extendDelete hs (mem_descendants hwf hf hchild).1 hstep).1)
      (fun s child hchild hs => extendDelete_ok_iff hs (mem_descendants hwf hf hchild).1) hwf
  constructor
  · rintro ⟨st', found, hf, hx⟩
    refine ⟨(descendants_ok_iff hwf).mp ⟨found, hf⟩, fun found' hf' => ?_⟩
    obtain rfl : found = found' := Except.ok.inj (hf.symm.trans hf')
    exact (hfold found hf).mp ⟨st', hx⟩
  · rintro ⟨hbelow, hg⟩
    obtain ⟨found, hf⟩ := (descendants_ok_iff hwf).mpr hbelow
    obtain ⟨st', hx⟩ := (hfold found hf).mpr (hg found hf)
    exact ⟨st', found, hf, hx⟩

theorem extendQueued_ok_iff (hwf : Wf e st) (hq : ∀ op ∈ q.mutation.allOps, OpOk e op) :
    (∃ st', e.extendQueued st q = .ok st') ↔ ExtendQueuedOk e st q := by
  have hop : ∀ op ∈ (q.mutation.operations ++ q.mutation.companion).filter (·.op = .delete),
      OpOk e op := fun op hop =>
    hq op (List.mem_append_left _ (List.mem_of_mem_filter hop))
  exact List.foldlM_ok_iff_guarded (Wf e) (fun s op t hmem hs hstep => wf_extendOp hs (hop op hmem) hstep)
    (fun s op hmem hs => extendOp_ok_iff hs (hop op hmem)) hwf

theorem refreshPending_ok_iff (hwf : Wf e st) : (∃ st', e.refreshPending st = .ok st') ↔
    List.Guarded e.extendQueued (ExtendQueuedOk e) st st.queue := by
  refine List.foldlM_ok_iff_guarded (Wf e) (fun s q t hmem hs hstep => ?_)
    (fun s q hmem hs => extendQueued_ok_iff hs (hwf.ops q hmem)) hwf
  exact List.foldlM_ok_induction (Wf e) (fun s op t hop hs hstep => wf_extendOp hs
    (hwf.ops q hmem op (List.mem_append_left _ (List.mem_of_mem_filter hop))) hstep) hs hstep

/-- Finishing a delivery succeeds exactly when nothing blocks it. -/
theorem rebuildHeld_ok_iff (hwf : Wf e st) {held : Held} (hn : ∀ k ∈ held, Named e k) :
    (∃ out, e.rebuildHeld st held = .ok out) ↔ Finishes e st held := by
  have hrebuild : (∃ out, held.foldlM e.rebuildStep ([], st) = .ok out) ↔
      List.Guarded e.rebuildStep (fun acc key => ¬Blocked e acc.2 key) ([], st) held :=
    List.foldlM_ok_iff_guarded (fun acc : List Report × Store => Wf e acc.2)
      (fun acc key out hmem hs hstep => by
        obtain ⟨failed, hr⟩ := rebuildStep_eq_ok hstep
        exact wf_rebuild hs (hn key hmem) hr)
      (fun acc key hmem hs => rebuildStep_ok_iff hs (hn key hmem)) hwf
  constructor
  · rintro ⟨⟨reports, st'⟩, hr⟩
    obtain ⟨st1, hfold, hrefresh⟩ := rebuildHeld_eq_ok.mp hr
    refine ⟨hrebuild.mp ⟨_, hfold⟩, fun reports' st1' hfold' => ?_⟩
    obtain ⟨-, rfl⟩ := Prod.mk.inj (Except.ok.inj (hfold.symm.trans hfold'))
    exact (refreshPending_ok_iff (wf_rebuildFold hwf hn rfl hfold).1).mp ⟨st', hrefresh⟩
  · rintro ⟨hg, hrefresh⟩
    obtain ⟨⟨reports, st1⟩, hfold⟩ := hrebuild.mpr hg
    obtain ⟨st', hx⟩ := (refreshPending_ok_iff (wf_rebuildFold hwf hn rfl hfold).1).mpr
      (hrefresh reports st1 hfold)
    exact ⟨(reports, st'), rebuildHeld_eq_ok.mpr ⟨st1, hfold, hx⟩⟩

end Finish

/-! ### Pages and receipts -/

/-- A delivery did all it could: each record had its turn, every refusal is reported, and the stamps
    and the truths of the records in scope are those the turns left. -/
def Delivered (e : Engine) (base : Store) (records : List AuthorityRecord) (adapt : Report → Report)
    (scope : RecordKey → Prop) (fin : Store) (reports : List Report) : Prop :=
  ∃ staged entries, Turns e base records staged entries ∧
    (∀ entry, some entry ∈ entries → adapt entry ∈ reports) ∧
    (∀ k, scope k → fin.truth k = staged.truth k) ∧ ∀ k, fin.recordStamp k = staged.recordStamp k

/-- A valid page that connects: no subscribed channel it names starts beyond its cursor, and one
    moves. -/
structure Connects (c : Client) (page : PullPage) : Prop where
  valid : page.validate = .ok ()
  reaches : ∀ channel range current, page.cursors.lookup channel = some range →
    c.store.cursor channel = some current → range.fromCursor ≤ current
  moves : ∃ channel range current, page.cursors.lookup channel = some range ∧
    c.store.cursor channel = some current ∧ current < range.toCursor

/-- The subscribed channels a page names stand where it takes them. -/
def CursorsMoved (c c' : Client) (page : PullPage) : Prop :=
  ∀ channel range current, page.cursors.lookup channel = some range →
    c.store.cursor channel = some current →
      c'.store.cursor channel = some (max current range.toCursor)

/-- A page is applied: every record has its turn, and the cursors move. -/
def PageApplied (e : Engine) (c : Client) (page : PullPage) : Prop :=
  ∃ report c', c.applyPage e page = (.ok report, c') ∧
    Delivered e c.store page.changes id (fun _ => True) c'.store report.reports ∧
    CursorsMoved c c' page

/-- Nothing blocks finishing the delivery of these records. -/
def DeliveryFinishes (e : Engine) (st : Store) (records : List AuthorityRecord) : Prop :=
  Finishes e (e.stageAll st [] records).1 (e.stageAll st [] records).2.1

section Page
variable {e : Engine} {st : Store} {c : Client} {page : PullPage} {records : List AuthorityRecord}

theorem applyRecords_ok_iff (h : Wf e st) :
    (∃ out, e.applyRecords st records = .ok out) ↔ DeliveryFinishes e st records := by
  rw [DeliveryFinishes, ← rebuildHeld_ok_iff (stages_all records [] h).wf
    fun k hk => (staged_named records h k hk).1]
  constructor
  · rintro ⟨⟨report, st'⟩, hr⟩
    obtain ⟨reports, hreb, -⟩ := applyRecords_eq_ok.mp hr
    exact ⟨_, hreb⟩
  · rintro ⟨⟨reports, st'⟩, hreb⟩
    exact ⟨(_, st'), applyRecords_eq_ok.mpr ⟨reports, hreb, rfl⟩⟩

theorem mem_stagedReport {adapt : Report → Report} {staged : List Staged} {reports : List Report}
    {entry : Report} (h : some entry ∈ staged.map (·.entry)) :
    adapt entry ∈ (stagedReport adapt staged reports).reports := by
  obtain ⟨s, hs, heq⟩ := List.mem_map.mp h
  exact List.mem_append_left _ (List.mem_filterMap.mpr ⟨s, hs, by rw [heq]; rfl⟩)

/-- What a page that was applied did to the records it carries. -/
theorem applyRecords_delivered (h : Wf e st) (ht : Tidy st) {report : ApplyReport} {st' : Store}
    (hr : e.applyRecords st records = .ok (report, st')) :
    Delivered e st records id (fun _ => True) st' report.reports := by
  have hland := applyRecords_truth h ht hr
  obtain ⟨reports, -, rfl⟩ := applyRecords_eq_ok.mp hr
  exact ⟨_, _, turns_stageAll h, fun entry => mem_stagedReport, fun k _ => (hland k).1,
    fun k => (hland k).2⟩

/-- A connecting page is applied exactly when it is not taken for an old answer and nothing blocks
    finishing its delivery. -/
theorem pageApplied_iff (h : Host.Reaches e c) (hc : Connects c page) : PageApplied e c page ↔
    (c.pulls.stale page.froms).1 = false ∧ DeliveryFinishes e c.store page.changes := by
  have hwf := wf_reaches h
  have hmove : (c.store.moved page).isEmpty = false := moved_isEmpty.mpr hc.moves
  have hgap : NoGap c.store page := fun channel range current hr hcur _ =>
    hc.reaches channel range current hr hcur
  have happly : c.applyPage e page = if (c.pulls.stale page.froms).1 then
      (.ok { stale := true }, { c with pulls := (c.pulls.stale page.froms).2 })
      else ({ c with pulls := (c.pulls.stale page.froms).2 } : Client).commit
        (e.applyCurrentPage c.store page) := by
    simp only [Client.applyPage, hc.valid]
  rw [← applyRecords_ok_iff hwf, PageApplied, happly]
  cases hs : (c.pulls.stale page.froms).1 with
  | true =>
    simp only [↓reduceIte, Bool.true_eq_false, false_and, iff_false]
    rintro ⟨report, c', heq, -, hcur⟩
    obtain ⟨-, rfl⟩ := Prod.mk.inj heq
    obtain ⟨channel, range, current, hr, hcc, hlt⟩ := hc.moves
    have hmax := hcur channel range current hr hcc
    rw [show ({ c with pulls := (c.pulls.stale page.froms).2 } : Client).store.cursor channel =
      some current from hcc] at hmax
    have := Option.some.inj hmax
    omega
  | false =>
    simp only [Bool.false_eq_true, ↓reduceIte, true_and]
    constructor
    · rintro ⟨report, c', heq, -, -⟩
      cases ha : e.applyCurrentPage c.store page with
      | error m => rw [ha] at heq; cases heq
      | ok out =>
        obtain ⟨-, report1, st1, hr, -⟩ := (applyCurrentPage_moves hmove).mp ha
        exact ⟨_, hr⟩
    · rintro ⟨⟨report1, st1⟩, hr⟩
      have ha := (applyCurrentPage_moves hmove).mpr ⟨hgap, report1, st1, hr, rfl, rfl⟩
      have hsub := (rebuildHeld_frame (stages_all page.changes [] hwf).wf
        (fun k hk => (staged_named page.changes hwf k hk).1) (applyRecords_eq_ok.mp hr).choose_spec.1).2.1
      obtain ⟨s, hs⟩ := setCursors_frame (c.store.moved page).entries st1
      have hdel := applyRecords_delivered hwf (tidy_reaches h) hr
      refine ⟨{ report1 with cursors := c.store.moved page },
        ⟨st1.setCursors (c.store.moved page), (c.pulls.stale page.froms).2⟩,
        by rw [ha]; rfl, ?_, ?_⟩
      · rw [Store.setCursors, hs]
        exact hdel
      · intro channel range current hrange hcur
        change (st1.setCursors _).cursor channel = _
        obtain ⟨m, b, stamps, hf⟩ := (stages_all page.changes [] hwf).frame
        rw [setCursors_cursor, hsub, hf]
        cases hl : (c.store.moved page).lookup channel with
        | none =>
          have hle : range.toCursor ≤ current := by
            by_contra hlt
            have := moved_lookup.mpr
              ⟨range, current, hrange, hcur, not_le.mp hlt, rfl⟩
            rw [hl] at this
            cases this
          rw [max_eq_left hle]
          exact hcur
        | some n =>
          obtain ⟨range', current', hr', hc', hlt, rfl⟩ := moved_lookup.mp hl
          obtain rfl : range = range' := Option.some.inj (hrange.symm.trans hr')
          obtain rfl : current = current' := Option.some.inj (hcur.symm.trans hc')
          rw [max_eq_right hlt.le]
          rfl

end Page

/-- A receipt for the push in flight that passes the identity, rejection and coverage checks. -/
structure Acknowledges (e : Engine) (st : Store) (push : ℕ) (receipt : PushReceipt)
    (covered wireRows : Held) : Prop where
  valid : receipt.validate = .ok ()
  batch : receipt.batchSequence = push
  client : receipt.clientId = st.clientId
  inFlight : st.inFlight = .ok (some push)
  checked : e.checkReceipt (batchOf st push) (acceptedOf st push receipt) receipt =
    .ok (covered, wireRows)

/-- A receipt is applied: the accepted companions settle, every record has its turn over what they
    settled, the push is completed and nothing is in flight. -/
def ReceiptApplied (e : Engine) (c : Client) (push : ℕ) (receipt : PushReceipt)
    (covered wireRows : Held) : Prop :=
  ∃ report c' settled held, c.acknowledge e push receipt = (.ok report, c') ∧
    e.settleCompanions wireRows covered (c.store, e.holdAll [] (touchedOf c.store push))
      (acceptedOf c.store push receipt) = .ok (settled, held) ∧
    Delivered e settled receipt.records (withBatch push) (· ∈ covered) c'.store report.reports ∧
    c'.store.lastCompletedPush = push ∧ ∀ q ∈ c'.store.queue, q.push = none

/-- The cascades of a mutation's companion deletions meet no identity the schema refuses. -/
def SettleOk (e : Engine) (wireRows : Held) (acc : Store × Held) (q : Queued) : Prop :=
  ∀ op ∈ q.mutation.companion, op.op = .delete → op.key ∉ wireRows → BelowOk e acc.1 op.key

/-- Nothing blocks completing a push: the cascades of accepted companion deletions can be computed,
    and every rebuild that finishes the delivery has a row the visible table admits. -/
structure ReceiptFinishes (e : Engine) (st : Store) (push : ℕ) (receipt : PushReceipt)
    (covered wireRows : Held) : Prop where
  settles : List.Guarded (e.settleMutation wireRows covered) (SettleOk e wireRows)
    (st, e.holdAll [] (touchedOf st push)) (acceptedOf st push receipt)
  finishes : ∀ mid held, e.settleCompanions wireRows covered
      (st, e.holdAll [] (touchedOf st push)) (acceptedOf st push receipt) = .ok (mid, held) →
    Finishes e ((e.stageAll mid held receipt.records).1.relieved receipt.rejections
        ((acceptedOf st push receipt).map (·.ordinal)))
      (e.holdAll (e.stageAll mid held receipt.records).2.1
        (e.markedOf (e.stageAll mid held receipt.records).1 receipt.rejections))

section Receipt
variable {e : Engine} {st : Store} {c : Client} {push : ℕ} {receipt : PushReceipt}
  {covered wireRows : Held}

theorem settleMutation_ok_iff {acc : Store × Held} {q : Queued} (h : Wf e acc.1)
    (hq : ∀ op ∈ q.mutation.allOps, OpOk e op) :
    (∃ out, e.settleMutation wireRows covered acc q = .ok out) ↔ SettleOk e wireRows acc q := by
  have hdel : (q.mutation.companion.filter (·.op = .delete)).mapM e.opKey =
      .ok ((q.mutation.companion.filter (·.op = .delete)).map (·.key)) :=
    mapM_opKey fun op hop => hq op (by simp [Mutation.allOps, List.mem_of_mem_filter hop])
  have hlocal : (∃ ops, e.localOps acc.1 wireRows q = .ok ops) ↔ SettleOk e wireRows acc q := by
    have hmap := @List.mapM_ok_iff _ _ _ (e.descendants acc.1)
      (((q.mutation.companion.filter (·.op = .delete)).map (·.key)).filter (· ∉ wireRows))
    simp only [Engine.localOps, hdel, Except.ok_bind, Except.bind_eq_ok, Except.pure_eq_ok]
    constructor
    · rintro ⟨_, cascades, hc, -⟩ op hop hd hw
      refine (descendants_ok_iff h).mp (hmap.mp ⟨cascades, hc⟩ op.key ?_)
      exact List.mem_filter.mpr ⟨List.mem_map_of_mem (List.mem_filter.mpr ⟨hop, by simpa using hd⟩),
        by simpa using hw⟩
    · intro hs
      obtain ⟨cascades, hc⟩ := hmap.mpr fun k hk => by
        obtain ⟨hk, hw⟩ := List.mem_filter.mp hk
        obtain ⟨op, hop, rfl⟩ := List.mem_map.mp hk
        obtain ⟨hop, hd⟩ := List.mem_filter.mp hop
        exact (descendants_ok_iff h).mpr (hs op hop (by simpa using hd) (by simpa using hw))
      exact ⟨_, cascades, hc, rfl⟩
  rw [← hlocal]
  simp only [Engine.settleMutation, Except.bind_eq_ok]
  constructor
  · rintro ⟨_, ops, hl, -⟩; exact ⟨ops, hl⟩
  · rintro ⟨ops, hl⟩
    -- folding an operation never fails
    have hstep : ∀ (s : Store × Held) (op : Operation), op ∈ ops → Wf e s.1 →
        ∃ t, e.settleOp wireRows covered s op = .ok t ∧ Wf e t.1 := by
      intro s op hop hs
      have hopok := localOps_ok h hq hl op hop
      have hiff := fun t => @settleOp_eq_ok e s.1 s.2 op wireRows covered hs hopok t
      obtain ⟨t, ht⟩ : ∃ t, e.settleOp wireRows covered s op = .ok t := by
        by_cases hc : op.key ∈ wireRows ∨ op.key ∈ covered
        · exact ⟨_, (hiff _).mpr (Or.inl ⟨hc, rfl⟩)⟩
        · cases ha : applyToRow (s.1.before.lookup op.key) op with
          | ok row => exact ⟨_, (hiff _).mpr (Or.inr ⟨hc, Or.inl ⟨row, ha, rfl⟩⟩)⟩
          | error m => exact ⟨_, (hiff _).mpr (Or.inr ⟨hc, Or.inr ⟨⟨m, ha⟩, rfl⟩⟩)⟩
      exact ⟨t, ht, (@settles_op e s.1 s.2 op wireRows covered hs hopok t ht).wf⟩
    obtain ⟨out, hout, -⟩ := List.foldlM_ok_of (fun s : Store × Held => Wf e s.1) hstep h
    exact ⟨out, ops, hl, hout⟩

theorem settleCompanions_ok_iff {accepted : List Queued} {held : Held} (h : Wf e st)
    (hq : ∀ q ∈ accepted, ∀ op ∈ q.mutation.allOps, OpOk e op) :
    (∃ out, e.settleCompanions wireRows covered (st, held) accepted = .ok out) ↔
      List.Guarded (e.settleMutation wireRows covered) (SettleOk e wireRows) (st, held) accepted :=
  List.foldlM_ok_iff_guarded (fun acc : Store × Held => Wf e acc.1)
    (fun _ q _ hmem hs hstep => (settles_mutation hs (hq q hmem) hstep).wf)
    (fun _ q hmem hs => settleMutation_ok_iff hs (hq q hmem)) h

theorem complete_ok_iff (h : Wf e st)
    (hc : e.checkReceipt (batchOf st push) (acceptedOf st push receipt) receipt =
      .ok (covered, wireRows)) :
    (∃ out, e.complete st push receipt = .ok out) ↔
      ReceiptFinishes e st push receipt covered wireRows := by
  have hfin : ∀ mid held, e.settleCompanions wireRows covered
      (st, e.holdAll [] (touchedOf st push)) (acceptedOf st push receipt) = .ok (mid, held) →
      ((∃ out, e.rebuildHeld ((e.stageAll mid held receipt.records).1.relieved receipt.rejections
          ((acceptedOf st push receipt).map (·.ordinal)))
        (e.holdAll (e.stageAll mid held receipt.records).2.1
          (e.markedOf (e.stageAll mid held receipt.records).1 receipt.rejections)) = .ok out) ↔
        Finishes e ((e.stageAll mid held receipt.records).1.relieved receipt.rejections
            ((acceptedOf st push receipt).map (·.ordinal)))
          (e.holdAll (e.stageAll mid held receipt.records).2.1
            (e.markedOf (e.stageAll mid held receipt.records).1 receipt.rejections))) := by
    intro mid held hs
    have hset := settles_of_completes h hs
    exact rebuildHeld_ok_iff (wf_relieved (stages_all receipt.records held hset.wf).wf)
      fun k hk => completes_named h receipt hset hk
  constructor
  · rintro ⟨⟨report, st'⟩, hcomp⟩
    obtain ⟨covered', wireRows', mid, held, reports, fin, hcs, -, -⟩ := (complete_eq_ok h).mp hcomp
    obtain ⟨rfl, rfl⟩ := Prod.mk.inj (Except.ok.inj (hc.symm.trans hcs.checked))
    refine ⟨(settleCompanions_ok_iff h (accepted_ok h)).mp ⟨_, hcs.settled⟩, fun mid' held' hs => ?_⟩
    obtain ⟨rfl, rfl⟩ := Prod.mk.inj (Except.ok.inj (hcs.settled.symm.trans hs))
    exact (hfin mid held hs).mp ⟨_, hcs.rebuilt⟩
  · rintro ⟨hsettles, hfinishes⟩
    obtain ⟨⟨mid, held⟩, hs⟩ := (settleCompanions_ok_iff h (accepted_ok h)).mpr hsettles
    obtain ⟨⟨reports, fin⟩, hr⟩ := (hfin mid held hs).mpr (hfinishes mid held hs)
    exact ⟨(_, _), (complete_eq_ok h).mpr
      ⟨covered, wireRows, mid, held, reports, fin, ⟨hc, hs, hr⟩, rfl, rfl⟩⟩

/-- What completing a push did to the records its receipt covers. -/
theorem completes_delivered (h : Wf e st) (ht : Tidy st) {mid : Store} {affected : Held}
    {reports : List Report} {fin : Store}
    (hc : Completes e st push receipt covered wireRows mid affected reports fin) :
    Delivered e mid receipt.records (withBatch push) (· ∈ covered) fin
      (stagedReport (withBatch push) (e.stageAll mid affected receipt.records).2.2 reports).reports := by
  have hset := settles_of_completes h hc.settled
  have hst := stages_all receipt.records affected hset.wf
  obtain ⟨b, hb⟩ := hset.frame
  have hdirty : ∀ k, (e.stageAll mid affected receipt.records).1.dirty k = st.dirty k := fun k =>
    hst.dirty.trans (dirty_of_queue (by rw [hb]))
  refine ⟨_, _, turns_stageAll hset.wf, fun entry => mem_stagedReport, fun k hk => ?_,
    completes_stamp h hc⟩
  rw [completes_truth h ht hc]
  split
  · -- a covered record that is held was dirty when the receipt arrived
    rename_i hheld
    refine (truth_dirty ((hdirty k).trans ?_)).symm
    rcases mem_holdAll.mp hheld with hheld | hheld
    · rcases hst.new k hheld with hheld | ⟨-, hd⟩
      · rcases settles_uncovered h (accepted_ok h) hc.settled k hheld with hheld | hnot
        · exact touched_dirty (by simpa using hheld)
        · exact absurd hk hnot
      · rw [← hd]; exact (dirty_of_queue (by rw [hb])).symm
    · rw [← hdirty]
      exact marked_dirty hheld
  · rfl

/-- A receipt that passes the checks is applied exactly when nothing blocks completing its push. -/
theorem receiptApplied_iff (h : Host.Reaches e c)
    (ha : Acknowledges e c.store push receipt covered wireRows) :
    ReceiptApplied e c push receipt covered wireRows ↔
      ReceiptFinishes e c.store push receipt covered wireRows := by
  have hwf := wf_reaches h
  have hfl := flight_reaches h
  have hpush : push = c.store.lastCompletedPush + 1 := by
    rcases (inFlight_eq hfl).mp ha.inFlight with ⟨-, h0⟩ | ⟨-, h1⟩
    · cases h0
    · exact Option.some.inj h1
  rw [← complete_ok_iff hwf ha.checked, ReceiptApplied]
  have hack : c.acknowledge e push receipt = c.commit (e.acknowledge c.store push receipt) := by
    simp only [Client.acknowledge, ha.valid]
  constructor
  · rintro ⟨report, c', _, _, heq, -⟩
    rw [hack] at heq
    cases hr : e.acknowledge c.store push receipt with
    | error m => rw [hr] at heq; cases heq
    | ok out =>
      obtain ⟨-, -, ⟨hle, -⟩ | ⟨-, -, hcomp⟩⟩ := acknowledge_eq_ok.mp hr
      · omega
      · exact ⟨_, hcomp⟩
  · rintro ⟨⟨report, st'⟩, hcomp⟩
    have hr := acknowledge_eq_ok.mpr ⟨ha.batch, ha.client, Or.inr ⟨by omega, ha.inFlight, hcomp⟩⟩
    obtain ⟨covered', wireRows', mid, held, reports, fin, hcs, rfl, rfl⟩ :=
      (complete_eq_ok hwf).mp hcomp
    obtain ⟨rfl, rfl⟩ := Prod.mk.inj (Except.ok.inj (ha.checked.symm.trans hcs.checked))
    have hdel := completes_delivered hwf (tidy_reaches h) hcs
    have hidle := completes_idle hwf hfl hpush hcs
    refine ⟨_, ⟨fin.setLastCompletedPush push, c.pulls⟩, mid, held, by rw [hack, hr]; rfl,
      hcs.settled, hdel, rfl, hidle⟩

end Receipt

/-- Deliveries are applied exactly when nothing blocks finishing them: a connecting page that is not
    taken for an old answer, and a receipt for the push in flight that passes its checks. -/
theorem delivered_iff {e : Engine} {c : Client} (h : Host.Reaches e c) :
    (∀ page, Connects c page → (PageApplied e c page ↔
      (c.pulls.stale page.froms).1 = false ∧ DeliveryFinishes e c.store page.changes)) ∧
    ∀ push receipt covered wireRows, Acknowledges e c.store push receipt covered wireRows →
      (ReceiptApplied e c push receipt covered wireRows ↔
        ReceiptFinishes e c.store push receipt covered wireRows) :=
  ⟨fun _ hc => pageApplied_iff h hc, fun _ _ _ _ ha => receiptApplied_iff h ha⟩

namespace Sample

/-- No two items are in the same box. -/
def tight : Engine := ⟨codecs, schema "none" [["box"]], by decide +kernel⟩

/-- The server's state of an item. -/
def record (id box : String) (stamp : ℕ) : AuthorityRecord :=
  { model := "Item", identity := identity id, stamp, state := .ofEntries [("box", .str box)] }

/-- A page of one channel. -/
def page (channel : String) (fromCursor toCursor : ℕ) (changes : List AuthorityRecord) : PullPage :=
  ⟨.ofList [(channel, ⟨fromCursor, toCursor, toCursor⟩)], changes⟩

/-- The client holds item `a` in box `x`, and created item `b` in box `y`. -/
def pending : List ClientAction :=
  [.setChannels [("c", true)], .applyPage (page "c" 0 1 [record "a" "x" 1]),
    .enqueue { name := "put", operations := [create "b" "y"] }]

/-- The client after some calls. -/
def client (e : Engine) (actions : List ClientAction) : Client :=
  Machine.run (Client.act e) (Client.opened "me") actions

theorem client_reachable (e : Engine) (actions : List ClientAction) : Reachable e (client e actions) :=
  ⟨"me", actions, rfl⟩

theorem client_reaches (e : Engine) (actions : List ClientAction) :
    Host.Reaches e (client e actions) :=
  reaches_of_reachable (client_reachable e actions)

end Sample

section Sample
open Sample

theorem connects_page {c : Client} {channel : String} {m n k : ℕ} {changes : List AuthorityRecord}
    (hv : (page channel m n changes).validate = .ok ()) (hc : c.store.cursor channel = some k)
    (hle : m ≤ k) (hlt : k < n) : Connects c (page channel m n changes) := by
  have hl : ∀ {ch range}, (page channel m n changes).cursors.lookup ch = some range ↔
      ch = channel ∧ range = ⟨m, n, n⟩ := by
    intro ch range
    simp [page, SortedMap.ofList, SortedMap.lookup_insert, eq_comm]
  refine ⟨hv, fun ch range current hr hcur => ?_, channel, _, k, hl.mpr ⟨rfl, rfl⟩, hc, hlt⟩
  obtain ⟨rfl, rfl⟩ := hl.mp hr
  obtain rfl := Option.some.inj (hc.symm.trans hcur)
  exact hle

/-- Another item lands beside the pending one, and the receipt of the pending one lands. -/
theorem delivered_tight :
    PageApplied tight (client tight pending) (page "c" 1 2 [record "d" "w" 2]) ∧
      ReceiptApplied tight (client tight (pending ++ [.freeze 1000])) 1
        ⟨"me", 1, [], [record "b" "y" 2]⟩ [item "b"] [item "b"] := by
  constructor
  · refine ((delivered_iff (client_reaches tight pending)).1 _
      (connects_page (by decide +kernel) (by decide +kernel) le_rfl (by decide))).mpr
      ⟨by decide +kernel, ?_⟩
    exact (applyRecords_ok_iff (wf_reaches (client_reaches tight pending))).mp
      (Except.exists_ok (by decide +kernel))
  · have hack : Acknowledges tight (client tight (pending ++ [.freeze 1000])).store 1
        ⟨"me", 1, [], [record "b" "y" 2]⟩ [item "b"] [item "b"] :=
      ⟨by decide +kernel, rfl, by decide +kernel, by decide +kernel, by decide +kernel⟩
    refine ((delivered_iff (client_reaches tight _)).2 _ _ _ _ hack).mpr ?_
    exact (complete_ok_iff (wf_reaches (client_reaches tight _)) hack.checked).mp
      (Except.exists_ok (by decide +kernel))

/-- A page with the server's item `b` in box `x` fails as a whole: the pending create cannot replay
    over it, and the visible table refuses it beside item `a`. -/
theorem not_delivered : ¬∀ (e : Engine) (c : Client), Host.Reaches e c →
    (∀ page, Connects c page → PageApplied e c page) ∧
    ∀ push receipt covered wireRows, Acknowledges e c.store push receipt covered wireRows →
      ReceiptApplied e c push receipt covered wireRows := by
  intro h
  obtain ⟨report, c', heq, -⟩ := (h tight (client tight pending) (client_reaches tight pending)).1
    (page "c" 1 2 [record "b" "x" 2])
    (connects_page (by decide +kernel) (by decide +kernel) le_rfl (by decide))
  have herr : ((client tight pending).applyPage tight (page "c" 1 2 [record "b" "x" 2])).1.isOk =
      false := by decide +kernel
  rw [heq] at herr
  cases herr

end Sample

end AheadSync
