import AheadSync.Client.Companions
import AheadSync.Client.Cover

/-! The truth of a record against the server's history. A delivery gives a record the content its stamp
    stands for. Besides that a truth changes in two ways that leave its stamp: the cascade of a
    delivered deletion erases it, and a receipt folds accepted companions into it that no authority
    covers. An enqueue changes no truth, but for a mutation that holds a row of its own making. -/

namespace AheadSync

/-- The records a call delivers. -/
def ClientAction.records : ClientAction → List AuthorityRecord
  | .applyPage page | .receive page _ => page.changes
  | .acknowledge _ receipt => receipt.records
  | _ => []

/-- The row that content of a record stands for. -/
def Engine.contentRow (e : Engine) (key : RecordKey) (state : Value) : Except String (Option Value) :=
  e.incomingRow key { model := key.model, identity := key.identity, stamp := 0, state }

/-- What the server held of each record and at which stamp, over time: one content for each stamp of a
    record, and the deletion of a parent deletes and stamps its declared cascade children. -/
structure ServerHistory (e : Engine) where
  state : ℕ → RecordKey → Value
  stamp : ℕ → RecordKey → ℕ
  once : ∀ t t' key, stamp t key = stamp t' key → state t key = state t' key
  cascades : ∀ t parent child row, (state t parent).isNull = false →
    (state (t + 1) parent).isNull = true → e.contentRow child (state t child) = .ok (some row) →
    RowRefers e row parent child →
    (state (t + 1) child).isNull = true ∧ stamp t child < stamp (t + 1) child

namespace ServerHistory
variable {e : Engine} (h : ServerHistory e)

/-- A record that could be read tells what the history held at its stamp. -/
def Tells (r : AuthorityRecord) : Prop :=
  r.error = none → ∀ key, e.recordKey r.model r.identity = .ok key →
    ∃ t, r.stamp = h.stamp t key ∧ r.state = h.state t key

/-- The row of a record at a stamp. -/
def Content (key : RecordKey) (stamp : ℕ) (row : Option Value) : Prop :=
  ∃ t, h.stamp t key = stamp ∧ e.contentRow key (h.state t key) = .ok row

end ServerHistory

/-- `r` is staged over `s` in a delivery. -/
def Engine.StagesOver (e : Engine) (s : Store) (r : AuthorityRecord) :
    Store → Held → List AuthorityRecord → Prop
  | _, _, [] => False
  | st, held, x :: rs => (s = st ∧ r = x) ∨
      e.StagesOver s r (e.stageIsolated st held x).store (e.stageIsolated st held x).held rs

/-- What the deliveries of a call are staged over: the rows as they are, or as the accepted companions
    of a receipt left them. -/
def Client.staging (e : Engine) (c : Client) : ClientAction → Option (Store × Held)
  | .applyPage _ | .receive _ _ => some (c.store, [])
  | .acknowledge sequence receipt =>
    match e.checkReceipt (batchOf c.store sequence) (acceptedOf c.store sequence receipt) receipt with
    | .error _ => none
    | .ok (covered, wireRows) => (e.settleCompanions wireRows covered
        (c.store, e.holdAll [] (touchedOf c.store sequence))
        (acceptedOf c.store sequence receipt)).toOption
  | _ => none

/-- The call applies a delivered deletion of `parent`, staged over `s`. -/
def Deletes (e : Engine) (c : Client) (a : ClientAction) (s : Store) (parent : RecordKey) : Prop :=
  ∃ start ∈ c.staging e a, ∃ r found, e.StagesOver s r start.1 start.2 a.records ∧
    Landing e s r parent none found ∧ r.stamp ≤ (c.act e a).store.recordStamp parent

/-- The call applies a deletion whose cascade, through visible rows and before images, takes `k` with
    it at stamp `n`. -/
def Erases (e : Engine) (k : RecordKey) (n : ℕ) (c : Client) (a : ClientAction) : Prop :=
  ∃ s parent, Deletes e c a s parent ∧ Sweeps e s parent k ∧ s.recordStamp k = n

/-- The operations a receipt settles locally, in order: the companions of the mutations it accepts, each
    with the cascades of its deletions. -/
def Engine.settledOps (e : Engine) (wireRows covered : Held) :
    Store × Held → List Queued → List Operation
  | _, [] => []
  | acc, q :: qs => (e.localOps acc.1 wireRows q).toOption.getD [] ++
      match e.settleMutation wireRows covered acc q with
      | .ok acc => e.settledOps wireRows covered acc qs
      | .error _ => []

/-- Those of one record. -/
def Engine.settledOn (e : Engine) (st : Store) (sequence : ℕ) (receipt : PushReceipt)
    (covered wireRows : Held) (k : RecordKey) : List Operation :=
  (e.settledOps wireRows covered (st, e.holdAll [] (touchedOf st sequence))
    (acceptedOf st sequence receipt)).filter (·.key = k)

/-- The call settles companions of `k`, at stamp `n`, in a receipt that does not carry the record: they
    fold the truth it had into `row`. -/
def SettlesTo (e : Engine) (k : RecordKey) (n : ℕ) (row : Option Value) (c : Client) :
    ClientAction → Prop
  | .acknowledge sequence receipt => c.store.lastCompletedPush < sequence ∧
      (c.act e (.acknowledge sequence receipt)).store.lastCompletedPush = sequence ∧
      ∃ covered wireRows, e.checkReceipt (batchOf c.store sequence)
          (acceptedOf c.store sequence receipt) receipt = .ok (covered, wireRows) ∧ k ∉ covered ∧
        e.settledOn c.store sequence receipt covered wireRows k ≠ [] ∧ c.store.recordStamp k = n ∧
        row = foldInto (c.store.truth k) (e.settledOn c.store sequence receipt covered wireRows k)
  | _ => False

/-- Performing the operation touches no row of the mutation's own making. -/
def StepHolds (e : Engine) (st₀ : Store) (acc : Store × List Operation × List Operation)
    (op : Operation) : Prop :=
  ∀ op' found, e.normalize op = .ok op' → CascadeOf e (acc.1.holdTruth op'.key) op' found →
    ∀ k ∈ op'.key :: found, ¬OwnRow st₀ acc.1 k

/-- A call enqueues only a mutation that holds no row of its own making. -/
def EnqueueHolds (e : Engine) (c : Client) : ClientAction → Prop
  | .enqueue m => List.Guarded e.performOp (StepHolds e c.store) (c.store, [], [])
      (m.operations ++ m.companion)
  | _ => True

section Enqueue
variable {e : Engine} {st st' : Store} {m : Mutation} {k : RecordKey} {n : ℕ}

/-- A mutation that holds no row of its own making sets truths aside, and changes none. -/
theorem enqueue_truth (hwf : Wf e st) (ht : Tidy st)
    (hg : List.Guarded e.performOp (StepHolds e st) (st, [], []) (m.operations ++ m.companion))
    (he : e.enqueue st m = .ok (n, st')) : st'.truth k = st.truth k ∧ st'.stamps = st.stamps := by
  obtain ⟨-, done, effects, q, mid, hq⟩ := enqueue_spec hwf he
  have hstamps : st'.stamps = st.stamps := by
    obtain ⟨main, before, queue, hframe⟩ := (enqueues_performing hwf hq).rows.frame
    rw [hq.result, show mid = _ from hframe]
  refine ⟨?_, hstamps⟩
  have hbases := performing_induction (StepHolds e st) (fun acc => ∀ k, Bases st acc k)
    (fun hwf hq hpo hs hb k => bases_step ht hq (hb k) hpo hwf fun hk =>
      hs _ _ hpo.normal hpo.cascade k (List.mem_cons.mpr hk))
    (performing_start hwf) bases_start hg hq.performs k
  by_cases hk : ∃ op ∈ done ++ effects, op.key = k
  · have hdirty : st'.dirty k = true := by
      obtain ⟨op, hop, hkey⟩ := hk
      exact dirty_iff.mpr ⟨q, by simp [hq.result], op, (enqueues_allOps hq).symm ▸ hop, hkey⟩
    rw [truth_dirty hdirty, hq.result]
    exact hbases.base hk
  · refine (enqueues_untouched hwf hq fun op hop hkey => hk ⟨op, ?_, hkey⟩).truth
    exact enqueues_allOps hq ▸ hop

end Enqueue

/-- Why a truth is not the content of its stamp: a cascade erased it, or a companion was settled. -/
inductive Excuse where
  | erased (stamp : ℕ) | settled (stamp : ℕ) (row : Option Value)

def Excused (e : Engine) (k : RecordKey) : Excuse → Client → ClientAction → Prop
  | .erased n => Erases e k n
  | .settled n row => SettlesTo e k n row

/-- The truth of a record with a stamp is what the history holds at the stamp, unless a mark says why
    it is not. -/
def Explained {e : Engine} (h : ServerHistory e) (k : RecordKey) (marks : Excuse → Prop) (st : Store) :
    Prop :=
  0 < st.recordStamp k → h.Content k (st.recordStamp k) (st.truth k) ∨
    (st.truth k = none ∧ marks (.erased (st.recordStamp k))) ∨
      marks (.settled (st.recordStamp k) (st.truth k))

/-- Staging a delivery erases a record at stamp `n`. -/
def ErasesOver (e : Engine) (k : RecordKey) (n : ℕ) (st : Store) (held : Held)
    (rs : List AuthorityRecord) : Prop :=
  ∃ s r parent found, e.StagesOver s r st held rs ∧ Landing e s r parent none found ∧
    Sweeps e s parent k ∧ s.recordStamp k = n

section Staging
variable {e : Engine} {h : ServerHistory e} {st st' s : Store} {held : Held} {k key : RecordKey}
  {r : AuthorityRecord} {rs : List AuthorityRecord} {marks marks' : Excuse → Prop}

theorem explained_congr (hc : Explained h k marks st) (htruth : st'.truth k = st.truth k)
    (hstamp : st'.recordStamp k = st.recordStamp k) (hm : ∀ i, marks i → marks' i) :
    Explained h k marks' st' := by
  intro hpos
  rw [htruth, hstamp]
  rw [hstamp] at hpos
  exact (hc hpos).imp_right (Or.imp (And.imp_right (hm _)) (hm _))

theorem contentRow_of (hk : e.recordKey r.model r.identity = .ok key) :
    e.contentRow key r.state = e.incomingRow key r := by
  simp only [Engine.contentRow, Engine.incomingRow, recordKey_model hk]

/-- A record that lands has its content for a truth; the truths of the records it takes are gone. -/
theorem explained_stageIsolated (hwf : Wf e st) (ht : h.Tells r) (hc : Explained h k marks st) :
    Explained h k (fun i => marks i ∨ ∃ n, i = .erased n ∧ ∃ parent found,
      Landing e st r parent none found ∧ Sweeps e st parent k ∧ st.recordStamp k = n)
      (e.stageIsolated st held r).store := by
  by_cases hl : ∃ key row found, Landing e st r key row found
  · obtain ⟨key, row, found, hl⟩ := hl
    have hn := recordKey_named hl.identity
    have hrow := incomingRow_rowFor hl.identity hl.content
    have hwf' := wf_setTruth hwf hn hrow
    rw [stageIsolated_landing hwf hl]
    intro hpos
    rw [landed_truth, landed_stamp]
    rw [landed_stamp] at hpos
    by_cases hf : k ∈ found
    · -- only a deletion takes other records with it
      have hcascade := hl.cascade
      unfold Engine.cascadeOf at hcascade
      split at hcascade
      · rename_i hnone
        subst hnone
        obtain ⟨hnd, hmem, -⟩ := descendants_spec hwf' hcascade
        have hne : k ≠ key := by
          rintro rfl
          exact (List.nodup_cons.mp hnd).1 hf
        have hbelow := (hmem k).mp (List.mem_cons_of_mem _ hf)
        rw [if_pos hf, if_neg hne]
        exact Or.inr (Or.inl ⟨rfl, Or.inr ⟨_, rfl, key, found, hl, ⟨hbelow, hne⟩, rfl⟩⟩)
      · obtain rfl := Except.ok.inj hcascade
        cases hf
    · rw [if_neg hf]
      by_cases hk : k = key
      · subst hk
        obtain ⟨t, hstamp, hstate⟩ := ht hl.noError k hl.identity
        rw [if_pos rfl, if_pos rfl]
        exact Or.inl ⟨t, hstamp.symm, by rw [← hstate, contentRow_of hl.identity, hl.content]⟩
      · rw [if_neg hk, if_neg hk]
        rw [if_neg hk] at hpos
        exact (hc hpos).imp_right (Or.imp (And.imp_right Or.inl) Or.inl)
  · rw [(stageIsolated_refused hwf held hl).1]
    exact explained_congr hc rfl rfl fun _ => Or.inl

/-- So do the records of a delivery. -/
theorem explained_stageAll : ∀ {rs : List AuthorityRecord} {st : Store} {held : Held}
    {marks : Excuse → Prop}, Wf e st → (∀ r ∈ rs, h.Tells r) → Explained h k marks st →
    Explained h k (fun i => marks i ∨ ∃ n, i = .erased n ∧ ErasesOver e k n st held rs)
      (e.stageAll st held rs).1
  | [], st, held, marks, _, _, hc => explained_congr hc rfl rfl fun _ => Or.inl
  | r :: rs, st, held, marks, hwf, ht, hc => by
    have hone : Explained h k _ (e.stageIsolated st held r).store :=
      explained_stageIsolated hwf (ht r (List.mem_cons_self ..)) hc
    have hrest : Explained h k _ (e.stageAll (e.stageIsolated st held r).store
        (e.stageIsolated st held r).held rs).1 :=
      explained_stageAll (stages_step hwf held r).wf (fun x hx => ht x (List.mem_cons_of_mem _ hx)) hone
    refine explained_congr hrest rfl rfl fun i hi => ?_
    rcases hi with (hm | ⟨n, rfl, parent, found, hl, hsweeps, hn⟩) |
      ⟨n, rfl, s, x, parent, found, hover, hl, hsweeps, hn⟩
    · exact Or.inl hm
    · exact Or.inr ⟨n, rfl, st, r, parent, found, Or.inl ⟨rfl, rfl⟩, hl, hsweeps, hn⟩
    · exact Or.inr ⟨n, rfl, s, x, parent, found, Or.inr hover, hl, hsweeps, hn⟩

/-- A record that landed left its stamp. -/
theorem stagesOver_stamp : ∀ {rs : List AuthorityRecord} {st : Store} {held : Held}, Wf e st →
    e.StagesOver s r st held rs → ∀ {row : Option Value} {found : List RecordKey},
    Landing e s r key row found → r.stamp ≤ (e.stageAll st held rs).1.recordStamp key
  | x :: rs, st, held, hwf, hover, row, found, hl => by
    have hstep := stages_step hwf held x
    rcases hover with ⟨rfl, rfl⟩ | hover
    · refine le_trans ?_ ((stages_all rs _ hstep.wf).stamps key)
      rw [stageIsolated_landing hwf hl, landed_stamp, if_pos rfl]
    · have hlater := stagesOver_stamp hstep.wf hover hl
      exact hlater

/-- A delivery that does not carry a record leaves its stamp. -/
theorem stageAll_stamp : ∀ {rs : List AuthorityRecord} {st : Store} {held : Held}, Wf e st →
    (∀ r ∈ rs, e.recordKey r.model r.identity ≠ .ok k) →
    (e.stageAll st held rs).1.recordStamp k = st.recordStamp k
  | [], _, _, _, _ => rfl
  | r :: rs, st, held, hwf, hno => by
    have hstep := stages_step hwf held r
    refine (stageAll_stamp hstep.wf fun x hx => hno x (List.mem_cons_of_mem _ hx)).trans ?_
    by_cases hl : ∃ key row found, Landing e st r key row found
    · obtain ⟨key, row, found, hl⟩ := hl
      have hne : k ≠ key := fun heq => hno r (List.mem_cons_self ..) (heq ▸ hl.identity)
      rw [stageIsolated_landing hwf hl, landed_stamp, if_neg hne]
    · rw [(stageIsolated_refused hwf held hl).1]

end Staging

section Companions
variable {e : Engine} {k : RecordKey} {wireRows covered : Held}

theorem takenLocally_eq : ∀ {accepted : List Queued} {acc : Store × Held},
    e.takenLocally wireRows covered acc accepted =
      (e.settledOps wireRows covered acc accepted).map (·.key)
  | [], _ => rfl
  | q :: qs, acc => by
    simp only [Engine.takenLocally, Engine.settledOps, List.map_append]
    cases e.settleMutation wireRows covered acc q with
    | error m => rfl
    | ok mid => exact congrArg _ takenLocally_eq

/-- A companion operation holds its record, unless the receipt covers it. -/
theorem settleOps_holds {ops : List Operation} {acc out : Store × Held} (hwf : Wf e acc.1)
    (hops : ∀ op ∈ ops, OpOk e op) (hw : k ∉ wireRows) (hc : k ∉ covered)
    (hk : ∃ op ∈ ops, op.key = k) (hs : ops.foldlM (e.settleOp wireRows covered) acc = .ok out) :
    k ∈ out.2 := by
  obtain ⟨-, hall⟩ := List.foldlM_ok_establishes (fun s : Store × Held => Wf e s.1)
    (Q := fun s op => op ∈ ops → op.key = k → k ∈ s.2) (fun s op t hmem hs hstep => by
      have hset := @settles_op e s.1 s.2 op wireRows covered hs (hops op hmem) t hstep
      refine ⟨hset.wf, fun _ hkey => ?_, fun op' hop' hin hkey => hset.grows k (hop' hin hkey)⟩
      rcases (@settleOp_eq_ok e s.1 s.2 op wireRows covered hs (hops op hmem) t).mp hstep with
        ⟨hcov, -⟩ | ⟨-, ⟨row, -, rfl⟩ | ⟨-, rfl⟩⟩
      · rw [hkey] at hcov
        exact (hcov.elim hw hc).elim
      · exact mem_hold.mpr (Or.inl hkey.symm)
      · exact mem_hold.mpr (Or.inl hkey.symm))
    hwf (fun op hop hin => absurd hin hop) hs
  obtain ⟨op, hop, hkey⟩ := hk
  exact hall op hop hkey

/-- Settling companions folds those of a record that the receipt does not cover into its base, and
    holds the record. -/
theorem settleCompanions_base (hw : k ∉ wireRows) (hc : k ∉ covered) :
    ∀ {accepted : List Queued} {acc out : Store × Held}, Wf e acc.1 →
    (∀ q ∈ accepted, ∀ op ∈ q.mutation.allOps, OpOk e op) →
    e.settleCompanions wireRows covered acc accepted = .ok out →
    out.1.before.lookup k = foldInto (acc.1.before.lookup k)
        ((e.settledOps wireRows covered acc accepted).filter (·.key = k)) ∧
      ((e.settledOps wireRows covered acc accepted).filter (·.key = k) ≠ [] → k ∈ out.2)
  | [], acc, out, _, _, hs => by
    obtain rfl : acc = out := by simpa [Engine.settleCompanions, pure, Except.pure] using hs
    exact ⟨rfl, fun h => absurd rfl h⟩
  | q :: qs, acc, out, hwf, hq, hs => by
    simp only [Engine.settleCompanions, List.foldlM_cons, Except.bind_eq_ok] at hs
    obtain ⟨mid, hstep, hrest⟩ := hs
    have hfold := hstep
    simp only [Engine.settleMutation, Except.bind_eq_ok] at hfold
    obtain ⟨ops, hl, hfold⟩ := hfold
    have hops := localOps_ok hwf (hq q (List.mem_cons_self ..)) hl
    obtain ⟨mid', hmid', -, hbase⟩ := @settleOps_plain e wireRows covered ops acc hwf hops
    obtain rfl := Except.ok.inj (hmid'.symm.trans hfold)
    have hset := settles_mutation hwf (hq q (List.mem_cons_self ..)) hstep
    obtain ⟨hlater, hheld⟩ := settleCompanions_base hw hc hset.wf
      (fun x hx => hq x (List.mem_cons_of_mem _ hx)) hrest
    have hgrows := (settles_companions hset.wf (fun x hx => hq x (List.mem_cons_of_mem _ hx)) hrest).grows
    simp only [Engine.settledOps, hl, hstep, Except.toOption, Option.getD_some, List.filter_append,
      foldInto_append]
    refine ⟨by rw [hlater, hbase k hw hc], fun hne => ?_⟩
    rcases not_and_or.mp (mt List.append_eq_nil_iff.mpr hne) with hnow | hrest'
    · obtain ⟨op, hop⟩ := List.exists_mem_of_ne_nil _ hnow
      obtain ⟨hop, hkey⟩ := List.mem_filter.mp hop
      exact hgrows k (settleOps_holds hwf hops hw hc ⟨op, hop, of_decide_eq_true hkey⟩ hfold)
    · exact hheld hrest'

/-- What is settled locally are accepted companions and deletions. -/
theorem mem_settledOps {op : Operation} : ∀ {accepted : List Queued} {acc : Store × Held},
    op ∈ e.settledOps wireRows covered acc accepted →
      (∃ q ∈ accepted, op ∈ q.mutation.companion) ∨ op.op = .delete
  | q :: qs, acc, hop => by
    rcases List.mem_append.mp hop with hop | hop
    · cases hl : e.localOps acc.1 wireRows q with
      | error m =>
        rw [hl] at hop
        cases hop
      | ok ops =>
        rw [hl] at hop
        simp only [Engine.localOps, Except.bind_eq_ok, Except.pure_eq_ok] at hl
        obtain ⟨deletes, -, cascades, -, rfl⟩ := hl
        rcases List.mem_append.mp hop with hop | hop
        · exact Or.inl ⟨q, List.mem_cons_self .., hop⟩
        · obtain ⟨key, -, rfl⟩ := List.mem_map.mp hop
          exact Or.inr rfl
    · split at hop
      · refine (mem_settledOps hop).imp_left fun hcomp => ?_
        obtain ⟨x, hx, hmem⟩ := hcomp
        exact ⟨x, List.mem_cons_of_mem _ hx, hmem⟩
      · cases hop

/-- Deletions fold into no row. -/
theorem foldInto_deletes {ops : List Operation} {row : Option Value} (hne : ops ≠ [])
    (h : ∀ op ∈ ops, op.op = .delete) : foldInto row ops = none :=
  foldInto_of_replays (by rw [replayOps_deletes row h, if_neg hne])

end Companions

section Page
variable {e : Engine} {hist : ServerHistory e} {c : Client} {k : RecordKey} {marks : Excuse → Prop}

/-- What erases a record in a delivery the call commits is a deletion the call applies. -/
theorem erases_of_over {a : ClientAction} {start : Store × Held} (hwf : Wf e start.1)
    (hstart : start ∈ c.staging e a)
    (hstamp : ∀ p, (e.stageAll start.1 start.2 a.records).1.recordStamp p ≤
      (c.act e a).store.recordStamp p) {n : ℕ}
    (ho : ErasesOver e k n start.1 start.2 a.records) : Erases e k n c a := by
  obtain ⟨s, r, parent, found, hover, hl, hsweeps, hn⟩ := ho
  exact ⟨s, parent, ⟨start, hstart, r, found, hover, hl,
    (stagesOver_stamp hwf hover hl).trans (hstamp parent)⟩, hsweeps, hn⟩

/-- Landing a page that is not stale. -/
theorem explained_page (h : Primed e c.store) {a : ClientAction} {page : PullPage}
    {report : ApplyReport} (ht : ∀ r ∈ page.changes, hist.Tells r) (hrecords : a.records = page.changes)
    (hstart : (c.store, []) ∈ c.staging e a) (hc : Explained hist k marks c.store)
    (ha : e.applyCurrentPage c.store page = .ok (report, (c.act e a).store)) :
    Explained hist k (fun i => marks i ∨ Excused e k i c a) (c.act e a).store ∧
      c.store.recordStamp k ≤ (c.act e a).store.recordStamp k := by
  obtain ⟨moving, -, ⟨-, -, hst⟩ | ⟨-, -, report1, st1, hr, -, hst⟩⟩ := applyCurrentPage_eq_ok.mp ha
  · exact ⟨explained_congr hc (by rw [hst]) (by rw [hst]) fun _ => Or.inl, by rw [hst]⟩
  have hland := applyRecords_truth h.wf h.tidy hr
  obtain ⟨s, hs⟩ := setCursors_frame moving.entries st1
  have hfin : ∀ p, (c.act e a).store.truth p = st1.truth p ∧
      (c.act e a).store.recordStamp p = st1.recordStamp p := by
    intro p
    rw [hst, Store.setCursors, hs]
    exact ⟨(untouched_of_eq (k := p) rfl rfl rfl).truth, rfl⟩
  constructor
  · refine explained_congr (explained_stageAll h.wf ht hc) ((hfin k).1.trans (hland k).1)
      ((hfin k).2.trans (hland k).2) fun i hi => hi.imp_right ?_
    rintro ⟨n, rfl, hover⟩
    refine @erases_of_over e c k a (c.store, []) h.wf hstart (fun p => ?_) n (hrecords ▸ hover)
    rw [hrecords, (hfin p).2, (hland p).2]
  · rw [(hfin k).2, (hland k).2]
    exact (stages_all page.changes [] h.wf).stamps k

end Page

section Receipt
variable {e : Engine} {hist : ServerHistory e} {c : Client} {k : RecordKey} {marks : Excuse → Prop}
  {sequence : ℕ} {receipt : PushReceipt} {covered wireRows : Held} {mid fin : Store} {affected : Held}
  {reports : List Report} (h : Primed e c.store)
  (hcomp : Completes e c.store sequence receipt covered wireRows mid affected reports fin)
  (hact : (c.act e (.acknowledge sequence receipt)).store = fin.setLastCompletedPush sequence)
include h hcomp

theorem settled_stamp : mid.recordStamp k = c.store.recordStamp k := by
  obtain ⟨b, hb⟩ := (settles_of_completes h.wf hcomp.settled).frame
  rw [hb]
  rfl

theorem settled_dirty : mid.dirty k = c.store.dirty k := by
  obtain ⟨b, hb⟩ := (settles_of_completes h.wf hcomp.settled).frame
  exact dirty_of_queue (by rw [hb])

/-- A record a receipt does not carry keeps its stamp. -/
theorem uncovered_stamp (hno : k ∉ covered) : fin.recordStamp k = c.store.recordStamp k := by
  have hset := settles_of_completes h.wf hcomp.settled
  obtain ⟨-, hcovered, -⟩ := (checkReceipt_eq_ok h.wf).mp hcomp.checked
  refine (completes_stamp h.wf hcomp k).trans ((stageAll_stamp hset.wf fun r hr hkey => ?_).trans
    (settled_stamp h hcomp))
  obtain ⟨k', hmem, hk'⟩ := List.forall₂_mem_left (List.mapM_eq_ok_iff.mp hcovered) hr
  obtain rfl := Except.ok.inj (hkey.symm.trans hk')
  exact hno hmem

include hact

/-- The records of a receipt land over what its settled companions left. A record that completing the
    push holds was dirty, unless companions of it were settled. -/
theorem explained_lands (ht : ∀ r ∈ receipt.records, hist.Tells r)
    (hheld : k ∈ e.holdAll (e.stageAll mid affected receipt.records).2.1
      (e.markedOf (e.stageAll mid affected receipt.records).1 receipt.rejections) →
      c.store.dirty k = true)
    (hmid : Explained hist k (fun i => marks i ∨ Excused e k i c (.acknowledge sequence receipt)) mid) :
    Explained hist k (fun i => marks i ∨ Excused e k i c (.acknowledge sequence receipt))
      (c.act e (.acknowledge sequence receipt)).store := by
  have hset := settles_of_completes h.wf hcomp.settled
  have hstages := stages_all receipt.records affected hset.wf
  have hstamp : ∀ p, (c.act e (.acknowledge sequence receipt)).store.recordStamp p =
      (e.stageAll mid affected receipt.records).1.recordStamp p := fun p => by
    rw [hact]
    exact completes_stamp h.wf hcomp p
  have hstaged : Explained hist k _ (e.stageAll mid affected receipt.records).1 :=
    explained_stageAll hset.wf ht hmid
  refine explained_congr hstaged ?_ (hstamp k) fun i hi => hi.elim id fun herased => Or.inr ?_
  · rw [hact]
    refine (completes_truth h.wf h.tidy hcomp k).trans ?_
    split
    · rename_i hk
      exact (truth_dirty (hstages.dirty.trans ((settled_dirty h hcomp).trans (hheld hk)))).symm
    · rfl
  · obtain ⟨n, rfl, hover⟩ := herased
    refine @erases_of_over e c k (.acknowledge sequence receipt) (mid, affected) hset.wf ?_
      (fun p => (hstamp p).ge) n hover
    simp only [Client.staging, hcomp.checked, hcomp.settled, Except.toOption]
    rfl

/-- A record no companion of which was settled, or that the receipt carries. -/
theorem explained_unsettled (ht : ∀ r ∈ receipt.records, hist.Tells r)
    (hc : Explained hist k marks c.store)
    (hfree : k ∉ covered → e.settledOn c.store sequence receipt covered wireRows k = []) :
    Explained hist k (fun i => marks i ∨ Excused e k i c (.acknowledge sequence receipt))
      (c.act e (.acknowledge sequence receipt)).store := by
  have hset := settles_of_completes h.wf hcomp.settled
  have hstages := stages_all receipt.records affected hset.wf
  have htaken : k ∈ e.takenLocally wireRows covered
      (c.store, e.holdAll [] (touchedOf c.store sequence)) (acceptedOf c.store sequence receipt) →
      k ∈ covered := by
    intro hin
    rw [takenLocally_eq] at hin
    obtain ⟨op, hop, hkey⟩ := List.mem_map.mp hin
    by_contra hno
    exact List.ne_nil_of_mem (List.mem_filter.mpr ⟨hop, decide_eq_true hkey⟩) (hfree hno)
  obtain ⟨hmid, hheld⟩ := unmoved_settleCompanions h.wf (accepted_ok h.wf) htaken hcomp.settled
  refine explained_lands h hcomp hact ht (fun hk => ?_)
    (explained_congr hc hmid.truth hmid.stamp fun _ => Or.inl)
  rcases mem_holdAll.mp hk with hk | hk
  · rcases hstages.new k hk with hk | hk
    · exact touched_dirty ((mem_holdAll.mp (hheld hk)).resolve_left List.not_mem_nil)
    · exact (settled_dirty h hcomp).symm.trans hk.2
  · exact (settled_dirty h hcomp).symm.trans (hstages.dirty.symm.trans (marked_dirty hk))

/-- A record the receipt does not carry has the fold of its settled companions for a truth. -/
theorem explained_settled (ht : ∀ r ∈ receipt.records, hist.Tells r)
    (hnew : c.store.lastCompletedPush < sequence) (hno : k ∉ covered)
    (hops : e.settledOn c.store sequence receipt covered wireRows k ≠ []) :
    Explained hist k (fun i => marks i ∨ Excused e k i c (.acknowledge sequence receipt))
      (c.act e (.acknowledge sequence receipt)).store := by
  have hset := settles_of_completes h.wf hcomp.settled
  have hstages := stages_all receipt.records affected hset.wf
  obtain ⟨-, -, -, hsub⟩ := (checkReceipt_eq_ok h.wf).mp hcomp.checked
  obtain ⟨hbase, hholds⟩ := settleCompanions_base (fun hin => hno (hsub k hin)) hno h.wf
    (accepted_ok h.wf) hcomp.settled
  have hmark : SettlesTo e k (c.store.recordStamp k) (foldInto (c.store.truth k)
      (e.settledOn c.store sequence receipt covered wireRows k)) c (.acknowledge sequence receipt) :=
    ⟨hnew, by rw [hact]; rfl, covered, wireRows, hcomp.checked, hno, hops, rfl, rfl⟩
  cases hd : c.store.dirty k with
  | true =>
    refine explained_lands h hcomp hact ht (fun _ => hd) fun _ => Or.inr (Or.inr (Or.inr ?_))
    rw [settled_stamp h hcomp, truth_dirty ((settled_dirty h hcomp).trans hd), hbase, ← truth_dirty hd]
    exact hmark
  | false =>
    -- only deletions of a cascade reach a clean record
    have hdeletes : ∀ op ∈ e.settledOn c.store sequence receipt covered wireRows k,
        op.op = .delete := by
      intro op hop
      obtain ⟨hop, hkey⟩ := List.mem_filter.mp hop
      rcases mem_settledOps hop with ⟨q, hq, hcompanion⟩ | hdelete
      · have hdirty : c.store.dirty k = true := dirty_iff.mpr ⟨q,
          (mem_batchOf.mp (List.mem_of_mem_filter hq)).1, op, by simp [Mutation.allOps, hcompanion],
          of_decide_eq_true hkey⟩
        rw [hd] at hdirty
        cases hdirty
      · exact hdelete
    have hheld : k ∈ e.holdAll (e.stageAll mid affected receipt.records).2.1
        (e.markedOf (e.stageAll mid affected receipt.records).1 receipt.rejections) :=
      mem_holdAll.mpr (Or.inl (hstages.grows k (hholds hops)))
    have htruth : (c.act e (.acknowledge sequence receipt)).store.truth k = none := by
      rw [hact]
      refine (completes_truth h.wf h.tidy hcomp k).trans ?_
      rw [if_pos hheld, hstages.clean k ((settled_dirty h hcomp).trans hd), hbase]
      exact foldInto_deletes hops hdeletes
    have hsame : (c.act e (.acknowledge sequence receipt)).store.recordStamp k =
        c.store.recordStamp k := by
      have hfin : fin.recordStamp k = c.store.recordStamp k := uncovered_stamp h hcomp hno
      rw [hact]
      exact hfin
    intro _
    rw [hsame, htruth]
    rw [foldInto_deletes hops hdeletes] at hmark
    exact Or.inr (Or.inr (Or.inr hmark))

end Receipt

section Act
variable {e : Engine} {hist : ServerHistory e} {c : Client} {st' : Store} {k : RecordKey}
  {marks : Excuse → Prop}

/-- Completing a push: a truth changes as a record lands, as a cascade erases it, or as companions are
    settled that the receipt does not cover. -/
theorem explained_complete (h : Primed e c.store) {sequence : ℕ} {receipt : PushReceipt}
    {report : ApplyReport} (ht : ∀ r ∈ receipt.records, hist.Tells r)
    (hc : Explained hist k marks c.store) (hnew : c.store.lastCompletedPush < sequence)
    (ha : e.complete c.store sequence receipt =
      .ok (report, (c.act e (.acknowledge sequence receipt)).store)) :
    Explained hist k (fun i => marks i ∨ Excused e k i c (.acknowledge sequence receipt))
        (c.act e (.acknowledge sequence receipt)).store ∧
      c.store.recordStamp k ≤ (c.act e (.acknowledge sequence receipt)).store.recordStamp k := by
  obtain ⟨covered, wireRows, mid, affected, reports, fin, hcomp, -, hact⟩ := (complete_eq_ok h.wf).mp ha
  have hstages := stages_all receipt.records affected (settles_of_completes h.wf hcomp.settled).wf
  constructor
  · by_cases hfree : k ∉ covered → e.settledOn c.store sequence receipt covered wireRows k = []
    · exact explained_unsettled h hcomp hact ht hc hfree
    · obtain ⟨hno, hops⟩ := Classical.not_imp.mp hfree
      exact explained_settled h hcomp hact ht hnew hno hops
  · rw [hact]
    refine le_trans ?_ (completes_stamp h.wf hcomp k).ge
    rw [← settled_stamp h hcomp]
    exact hstages.stamps k

/-- A call that leaves a truth and a stamp keeps what explains them. -/
theorem explained_kept {a : ClientAction} (hc : Explained hist k marks c.store)
    (htruth : st'.truth k = c.store.truth k) (hstamp : st'.recordStamp k = c.store.recordStamp k) :
    Explained hist k (fun i => marks i ∨ Excused e k i c a) st' ∧
      c.store.recordStamp k ≤ st'.recordStamp k :=
  ⟨explained_congr hc htruth hstamp fun _ => Or.inl, hstamp.ge⟩

/-- What a call does to the truth and the stamp of a record. -/
theorem explained_act (h : Primed e c.store) (a : ClientAction) (ht : ∀ r ∈ a.records, hist.Tells r)
    (hholds : EnqueueHolds e c a) (hc : Explained hist k marks c.store) :
    Explained hist k (fun i => marks i ∨ Excused e k i c a) (c.act e a).store ∧
      c.store.recordStamp k ≤ (c.act e a).store.recordStamp k := by
  cases a with
  | enqueue m =>
    refine commit_keeps (P := fun st => Explained hist k _ st ∧ c.store.recordStamp k ≤ st.recordStamp k)
      (explained_kept hc rfl rfl) fun n st hr => ?_
    obtain ⟨htruth, hstamps⟩ := @enqueue_truth e c.store st m k n h.wf h.tidy hholds hr
    exact explained_kept hc htruth (by rw [Store.recordStamp, Store.recordStamp, hstamps])
  | freeze maxBytes =>
    refine commit_keeps (P := fun st => Explained hist k _ st ∧ c.store.recordStamp k ≤ st.recordStamp k)
      (explained_kept hc rfl rfl) fun n st hr => ?_
    rcases freeze_spec hr with rfl | ⟨-, selected, -, -, -, rfl, -⟩
    · exact explained_kept hc rfl rfl
    · refine explained_kept hc (Untouched.truth ⟨rfl, rfl, opsFor_map fun q => ?_⟩) rfl
      split <;> exact ⟨rfl, rfl⟩
  | acknowledge sequence receipt =>
    cases hv : receipt.validate with
    | error m =>
      have hsame : (c.act e (.acknowledge sequence receipt)).store = c.store := by
        simp only [Client.act, Client.acknowledge, hv]
      rw [hsame]
      exact explained_kept hc rfl rfl
    | ok u =>
      cases hr : e.acknowledge c.store sequence receipt with
      | error m =>
        have hsame : (c.act e (.acknowledge sequence receipt)).store = c.store := by
          simp only [Client.act, Client.acknowledge, hv, hr, Client.commit]
        rw [hsame]
        exact explained_kept hc rfl rfl
      | ok out =>
        obtain ⟨report, st⟩ := out
        have hst : (c.act e (.acknowledge sequence receipt)).store = st := by
          simp only [Client.act, Client.acknowledge, hv, hr, Client.commit]
        obtain ⟨-, -, ⟨-, -, rfl⟩ | ⟨hnew, -, hcom⟩⟩ := acknowledge_eq_ok.mp hr
        · rw [hst]
          exact explained_kept hc rfl rfl
        · exact explained_complete h ht hc hnew (hst.symm ▸ hcom)
  | applyPage page =>
    rcases applyPage_store e c page with heq | ⟨report, ha⟩
    · exact explained_kept hc (congrArg (·.truth k) heq) (congrArg (·.recordStamp k) heq)
    · exact explained_page h ht rfl rfl hc ha
  | receive page request =>
    rcases receive_store e c page request with heq | ⟨report, ha⟩
    · exact explained_kept hc (congrArg (·.truth k) heq) (congrArg (·.recordStamp k) heq)
    · exact explained_page h ht rfl rfl hc ha
  | drop ordinal =>
    refine commit_keeps (P := fun st => Explained hist k _ st ∧ c.store.recordStamp k ≤ st.recordStamp k)
      (explained_kept hc rfl rfl) fun n st hr => ?_
    obtain ⟨st1, hd, heq⟩ := Except.map_eq_ok.mp hr
    obtain ⟨-, rfl⟩ := Prod.mk.inj heq
    exact explained_kept hc (drop_keeps h hd).1 (drop_keeps h hd).2
  | setChannels changes =>
    obtain ⟨s, hs⟩ := setChannels_frame changes (c.store, [])
    simp only [Client.act, Client.setChannels, hs]
    exact explained_kept hc (untouched_of_eq (k := k) rfl rfl rfl).truth rfl
  | pull =>
    have hsame : (c.act e .pull).store = c.store := by
      simp only [Client.act, Client.downlinkRequest]
      split <;> rfl
    rw [hsame]
    exact explained_kept hc rfl rfl
  | resolve key =>
    exact explained_kept hc (Untouched.truth ⟨rfl, rfl, opsFor_map fun q => ⟨rfl, rfl⟩⟩) rfl
  | restart => exact explained_kept hc rfl rfl

end Act

/-- The calls of a run tell of the history, and enqueue no mutation that holds a row of its own making. -/
def ServerHistory.Narrates {e : Engine} (hist : ServerHistory e) (c : Client) (a : ClientAction) : Prop :=
  (∀ r ∈ a.records, hist.Tells r) ∧ EnqueueHolds e c a

/-- In every such run, the truth of a record with a stamp is what the history holds at the stamp, or a
    cascade erased it at that stamp, or it is what companions that no authority covered left at that
    stamp; and no stamp ever decreases. -/
theorem truth_explained (e : Engine) (hist : ServerHistory e) (clientId : String)
    (actions : List ClientAction)
    (hruns : Machine.Along (Client.act e) hist.Narrates (Client.opened clientId) actions)
    (k : RecordKey) :
    let st := (Machine.run (Client.act e) (Client.opened clientId) actions).store
    (0 < st.recordStamp k → hist.Content k (st.recordStamp k) (st.truth k) ∨
      (st.truth k = none ∧ Machine.Sometime (Client.act e) (Erases e k (st.recordStamp k))
        (Client.opened clientId) actions) ∨
      Machine.Sometime (Client.act e) (SettlesTo e k (st.recordStamp k) (st.truth k))
        (Client.opened clientId) actions) ∧
    ∀ before after, actions = before ++ after →
      (Machine.run (Client.act e) (Client.opened clientId) before).store.recordStamp k ≤
        st.recordStamp k := by
  intro st
  have hprimed : ∀ as, Primed e (Machine.run (Client.act e) (Client.opened clientId) as).store :=
    fun as => Machine.run_invariant (P := fun c : Client => Primed e c.store)
      (fun c a hc => primed_act hc a) (primed_opened clientId)
  constructor
  · have hnone : Explained hist k (fun _ => False) (Client.opened clientId).store :=
      fun hpos => absurd hpos (lt_irrefl 0)
    have hrun := Machine.run_marks (Excused e k)
      (fun marks (c : Client) => Primed e c.store ∧ Explained hist k marks c.store)
      (fun marks c a hc ha => ⟨primed_act hc.1 a, (explained_act hc.1 a ha.1 ha.2 hc.2).1⟩)
      ⟨primed_opened clientId, hnone⟩ hruns
    simp only [false_or] at hrun
    exact hrun.2
  · rintro before after rfl
    have hlater := (Machine.along_append.mp hruns).2
    have hrun : st = (Machine.run (Client.act e)
        (Machine.run (Client.act e) (Client.opened clientId) before) after).store :=
      congrArg Client.store List.foldl_append
    rw [hrun]
    refine (Machine.run_keeps (P := fun c : Client => Primed e c.store ∧
      (Machine.run (Client.act e) (Client.opened clientId) before).store.recordStamp k ≤
        c.store.recordStamp k) (fun c a hc ha => ⟨primed_act hc.1 a, hc.2.trans ?_⟩)
      ⟨hprimed before, le_rfl⟩ hlater).2
    have hmarked : Explained hist k (fun _ => True) c.store := fun _ => Or.inr (Or.inr trivial)
    exact (explained_act hc.1 a ha.1 ha.2 hmarked).2


/-- The call applies a deletion of a record that `k` is under along the truths. -/
def ErasesUnder (e : Engine) (k : RecordKey) (c : Client) (a : ClientAction) : Prop :=
  ∃ s parent, Deletes e c a s parent ∧ Under e s parent k ∧ k ≠ parent

/-- The truth of a record with a stamp is what the history holds at the stamp, but for the deletions of
    records it was under. -/
def FollowsHistory {e : Engine} (hist : ServerHistory e) (clientId : String) (actions : List ClientAction)
    (k : RecordKey) : Prop :=
  let st := (Machine.run (Client.act e) (Client.opened clientId) actions).store
  0 < st.recordStamp k → hist.Content k (st.recordStamp k) (st.truth k) ∨
    (st.truth k = none ∧
      Machine.Sometime (Client.act e) (ErasesUnder e k) (Client.opened clientId) actions)

/-- Every truth follows the history in every run of such calls. -/
def AllFollow (ok : ClientAction → Prop) : Prop :=
  ∀ (e : Engine) (hist : ServerHistory e) clientId actions,
    Machine.Along (Client.act e) (fun c a => hist.Narrates c a ∧ ok a) (Client.opened clientId) actions →
      ∀ k, FollowsHistory hist clientId actions k

def ClientAction.companions : ClientAction → List Operation
  | .enqueue m => m.companion
  | _ => []

section Sample
open Sample

theorem holds_single {e : Engine} {st : Store} {op : Operation} :
    List.Guarded e.performOp (StepHolds e st) (st, [], []) [op] :=
  ⟨fun _ _ _ _ _ _ h => h.2.2 h.2.1, fun _ _ => trivial⟩

theorem cascading_refers {row : Value} {parent child : RecordKey}
    (h : RowRefers cascading row parent child) : parent.model = "Box" ∧ child.model = "Item" ∧
      row.index "box" = parent.identity.index "id" := by
  obtain ⟨model, hmodel, hname, r, hr, htarget, -, hfields⟩ := h
  rcases List.mem_cons.mp hmodel with rfl | hmodel
  · cases hr
  · obtain rfl := List.mem_singleton.mp hmodel
    obtain rfl := List.mem_singleton.mp hr
    exact ⟨htarget.symm, hname.symm, hfields _ (List.mem_singleton.mpr rfl)⟩

theorem item_content {e : Engine} {id place : String} (h : (e.contentRow (item id)
    (.ofEntries [("box", .str place)])).toOption = some (some (itemRow id place))) :
    e.contentRow (item id) (.ofEntries [("box", .str place)]) = .ok (some (itemRow id place)) :=
  Except.eq_ok_of_toOption h

def Sample.boxKey (id : String) : RecordKey := ⟨"Box", identity id⟩

/-- Item `a` is in box `p`, and box `q` is deleted. -/
def Sample.removal : ServerHistory cascading where
  state t key := if key = item "a" then .ofEntries [("box", .str "p")]
    else if key = boxKey "q" ∧ t = 0 then .ofEntries [] else .null
  stamp t key := if key = item "a" then 1 else if key = boxKey "q" then t + 1 else 0
  once t t' key h := by
    by_cases ha : key = item "a"
    · rw [if_pos ha, if_pos ha]
    · by_cases hq : key = boxKey "q"
      · rw [if_neg ha, if_neg ha, if_pos hq, if_pos hq] at h
        rw [Nat.succ.inj h]
      · rw [if_neg ha, if_neg ha, if_neg (fun h => hq h.1), if_neg fun h => hq h.1]
  cascades t parent child row hbefore _ hrow hrefers := by
    obtain ⟨hparent, hchild, hbox⟩ := cascading_refers hrefers
    have hp : parent ≠ item "a" := fun h => absurd (h ▸ hparent) (by decide)
    rw [if_neg hp] at hbefore
    split at hbefore
    · rename_i hq
      by_cases hc : child = item "a"
      · rw [if_pos hc, hc, item_content (by decide +kernel)] at hrow
        obtain rfl := Option.some.inj (Except.ok.inj hrow)
        rw [hq.1] at hbox
        exact absurd hbox (by decide +kernel)
      · have hcq : ¬(child = boxKey "q" ∧ t = 0) := fun h => absurd (h.1 ▸ hchild) (by decide)
        rw [if_neg hc, if_neg hcq] at hrow
        cases hrow
    · cases hbefore

theorem removal_item (t : ℕ) : removal.state t (item "a") = .ofEntries [("box", .str "p")] := by
  simp only [removal, if_true]

/-- The server's box. -/
def Sample.boxAt (id : String) (stamp : ℕ) (state : Value) : AuthorityRecord :=
  { model := "Box", identity := identity id, stamp, state }

/-- A queued mutation moves item `a` to box `q` when the deletion of the box arrives. -/
def Sample.undercut : List ClientAction :=
  [.setChannels [("c", true)],
    .applyPage (page "c" 0 1 [record "a" "p" 1, boxAt "q" 1 (.ofEntries [])]),
    .enqueue { name := "move", operations := [move "a" "q"] },
    .applyPage (page "c" 1 2 [boxAt "q" 2 .null])]

theorem removal_tells : ∀ r ∈ [record "a" "p" 1, boxAt "q" 1 (.ofEntries []), boxAt "q" 2 .null],
    removal.Tells r := by
  have htells : ∀ (t : ℕ) (key : RecordKey) (r : AuthorityRecord),
      (cascading.recordKey r.model r.identity).toOption = some key →
      r.stamp = removal.stamp t key → r.state = removal.state t key → removal.Tells r := by
    intro t key r hkey hstamp hstate _ key' hkey'
    obtain rfl := Except.ok.inj ((Except.eq_ok_of_toOption hkey).symm.trans hkey')
    exact ⟨t, hstamp, hstate⟩
  intro r hr
  rcases List.mem_cons.mp hr with rfl | hr
  · exact htells 0 (item "a") _ (by decide +kernel) (by decide +kernel) (by decide +kernel)
  rcases List.mem_cons.mp hr with rfl | hr
  · exact htells 0 (boxKey "q") _ (by decide +kernel) (by decide +kernel) (by decide +kernel)
  obtain rfl := List.mem_singleton.mp hr
  exact htells 1 (boxKey "q") _ (by decide +kernel) (by decide +kernel) (by decide +kernel)

theorem undercut_narrates (ok : ClientAction → Prop) (hok : ∀ a ∈ undercut, ok a) :
    Machine.Along (Client.act cascading) (fun c a => removal.Narrates c a ∧ ok a)
      (Client.opened "me") undercut := by
  refine ⟨⟨⟨nofun, trivial⟩, hok _ (by simp [undercut])⟩,
    ⟨⟨fun r hr => removal_tells r (List.mem_append_left [_] hr), trivial⟩, hok _ (by simp [undercut])⟩,
    ⟨⟨nofun, holds_single⟩, hok _ (by simp [undercut])⟩,
    ⟨⟨fun r hr => removal_tells r (List.mem_append_right [_, _] hr), trivial⟩, hok _ (by simp [undercut])⟩,
    trivial⟩

/-- The item's truth is gone: the cascade of the deletion of box `q` erased it. -/
theorem truth_explained_undercut :
    (client cascading undercut).store.truth (item "a") = none ∧
      Machine.Sometime (Client.act cascading) (Erases cascading (item "a") 1) (Client.opened "me")
        undercut := by
  have hruns : Machine.Along (Client.act cascading) removal.Narrates (Client.opened "me") undercut :=
    Machine.along_imp (fun _ _ h => h.1) (undercut_narrates (fun _ => True) fun _ _ => trivial)
  have hstamp : (Machine.run (Client.act cascading) (Client.opened "me") undercut).store.recordStamp
      (item "a") = 1 := by decide +kernel
  have hgone : (Machine.run (Client.act cascading) (Client.opened "me") undercut).store.truth
      (item "a") = none := by decide +kernel
  obtain ⟨htruth, -⟩ := truth_explained cascading removal "me" undercut hruns (item "a")
  rw [hstamp, hgone] at htruth
  rcases htruth one_pos with ⟨t, -, hrow⟩ | ⟨-, herased⟩ | hsettled
  · rw [removal_item, item_content (by decide +kernel)] at hrow
    cases hrow
  · exact ⟨hgone, herased⟩
  · simp only [Machine.Sometime, undercut, SettlesTo, or_self] at hsettled

/-- Nothing along the truths is above the item but the box it is in. -/
theorem not_under_q {s : Store} (hs : s.truth (item "a") = some (itemRow "a" "p")) :
    ¬Under cascading s (boxKey "q") (item "a") := by
  intro hunder
  rcases Relation.ReflTransGen.cases_tail hunder with heq | ⟨p, hp, row, hrow, hrefers⟩
  · exact absurd heq (by decide +kernel)
  obtain rfl := Option.some.inj (hs.symm.trans hrow)
  obtain ⟨hmodel, -, hbox⟩ := cascading_refers hrefers
  rcases Relation.ReflTransGen.cases_tail hp with rfl | ⟨p', -, row', -, hrefers'⟩
  · exact absurd hbox (by decide +kernel)
  · obtain ⟨-, hitem, -⟩ := cascading_refers hrefers'
    rw [hmodel] at hitem
    exact absurd hitem (by decide)

theorem stagesOver_mem {e : Engine} {s : Store} {r : AuthorityRecord} {rs : List AuthorityRecord}
    {st : Store} {held : Held} (h : e.StagesOver s r st held rs) : r ∈ rs := by
  induction rs generalizing st held with
  | nil => exact h.elim
  | cons x rs ih =>
    rcases h with ⟨-, rfl⟩ | h
    · exact List.mem_cons_self ..
    · exact List.mem_cons_of_mem _ (ih h)

/-- Content that lands as no row is that of a deletion. -/
theorem landing_null {e : Engine} {s : Store} {r : AuthorityRecord} {key : RecordKey}
    {found : List RecordKey} (hl : Landing e s r key none found) : r.state.isNull = true := by
  have hcontent := hl.content
  unfold Engine.incomingRow at hcontent
  split at hcontent
  · assumption
  · simp only [Except.bind_eq_ok, Except.pure_eq_ok, reduceCtorEq, and_false, exists_false] at hcontent

/-- Items `a` and `b` are in box `x`. -/
def Sample.standing : ServerHistory loose where
  state _ key := if key = item "a" ∨ key = item "b" then .ofEntries [("box", .str "x")] else .null
  stamp _ key := if key = item "a" ∨ key = item "b" then 1 else 0
  once _ _ _ _ := rfl
  cascades t parent child row hbefore hafter _ _ := by
    rw [hbefore] at hafter
    cases hafter

/-- Item `b` is moved beside the creation of item `a`, which the server accepts. -/
def Sample.aside : List ClientAction :=
  [.setChannels [("c", true)], .applyPage (page "c" 0 1 [record "b" "x" 1]),
    .enqueue { name := "put", operations := [create "a" "x"], companion := [move "b" "y"] },
    .freeze 1000, .acknowledge 1 accepting]

theorem aside_narrates (ok : ClientAction → Prop) (hok : ∀ a ∈ aside, ok a) :
    Machine.Along (Client.act loose) (fun c a => standing.Narrates c a ∧ ok a)
      (Client.opened "me") aside := by
  have htells : ∀ id, id = "a" ∨ id = "b" → standing.Tells (record id "x" 1) := by
    intro id hid _ key hkey
    have hitem : loose.recordKey "Item" (identity id) = .ok (item id) := by
      rcases hid with rfl | rfl <;> exact Except.eq_ok_of_toOption (by decide +kernel)
    obtain rfl := Except.ok.inj (hitem.symm.trans hkey)
    have hin : item id = item "a" ∨ item id = item "b" := hid.imp (congrArg item) (congrArg item)
    exact ⟨0, (if_pos hin).symm, (if_pos hin).symm⟩
  refine ⟨⟨⟨nofun, trivial⟩, hok _ (by simp [aside])⟩, ⟨⟨fun r hr => ?_, trivial⟩, hok _ (by simp [aside])⟩,
    ⟨⟨nofun, ?_⟩, hok _ (by simp [aside])⟩, ⟨⟨nofun, trivial⟩, hok _ (by simp [aside])⟩,
    ⟨⟨fun r hr => ?_, trivial⟩, hok _ (by simp [aside])⟩, trivial⟩
  · obtain rfl := List.mem_singleton.mp hr
    exact htells "b" (Or.inr rfl)
  · refine ⟨fun _ _ _ _ _ _ h => h.2.2 h.2.1, fun t _ => ⟨?_, fun _ _ => trivial⟩⟩
    intro op' found hnorm hcascade k hk hown
    have hnormal : loose.normalize (move "b" "y") = .ok (move "b" "y") :=
      Except.eq_ok_of_toOption (by decide +kernel)
    obtain rfl := Except.ok.inj (hnormal.symm.trans hnorm)
    have hnone : found = [] := hcascade
    rw [hnone] at hk
    obtain rfl := List.mem_singleton.mp hk
    exact absurd hown.2.1 (by decide +kernel)
  · obtain rfl := List.mem_singleton.mp hr
    exact htells "a" (Or.inl rfl)

/-- A truth need not follow the history: a deletion takes with it the records that optimistic rows put
    below the deleted one, and accepted companions change truths that no authority covers. -/
theorem not_allFollow : ¬AllFollow (fun a => a.companions = []) ∧
    ¬AllFollow (fun a => ∀ r ∈ a.records, r.state.isNull = false) := by
  constructor
  · intro hall
    have hfollows := hall cascading removal "me" undercut (undercut_narrates _ (by decide)) (item "a")
    rcases hfollows (by decide +kernel) with ⟨t, -, hrow⟩ | ⟨-, hsome⟩
    · have hgone : (client cascading undercut).store.truth (item "a") = none := by decide +kernel
      rw [removal_item, item_content (by decide +kernel)] at hrow
      exact absurd ((Except.ok.inj hrow).trans hgone) nofun
    · rcases hsome with ⟨s, parent, ⟨start, hstart, -⟩, -⟩ | ⟨s, parent, ⟨start, -, x, found, hover, hl, -⟩, -⟩ |
        ⟨s, parent, ⟨start, hstart, -⟩, -⟩ |
        ⟨s, parent, ⟨start, hstart, x, found, hover, hl, -⟩, hunder, -⟩ | hnil
      · cases hstart
      · have hnull := landing_null hl
        rcases List.mem_cons.mp (stagesOver_mem hover) with rfl | hx
        · exact absurd hnull (by decide +kernel)
        · obtain rfl := List.mem_singleton.mp hx
          exact absurd hnull (by decide +kernel)
      · cases hstart
      · obtain rfl := Option.some.inj hstart
        rcases hover with ⟨rfl, rfl⟩ | hnone
        · have hkey : cascading.recordKey "Box" (identity "q") = .ok (boxKey "q") :=
            Except.eq_ok_of_toOption (by decide +kernel)
          obtain rfl := Except.ok.inj (hkey.symm.trans hl.identity)
          exact not_under_q (by decide +kernel) hunder
        · exact hnone
      · exact hnil
  · intro hall
    have hfollows := hall loose standing "me" aside (aside_narrates _ (by decide +kernel)) (item "b")
    have htruth : (client loose aside).store.truth (item "b") = some (itemRow "b" "y") := by
      decide +kernel
    rcases hfollows (by decide +kernel) with ⟨t, -, hrow⟩ | ⟨hnone, -⟩
    · have hstate : standing.state t (item "b") = .ofEntries [("box", .str "x")] := by
        simp only [standing, or_true, if_true]
      rw [hstate, item_content (by decide +kernel)] at hrow
      exact absurd ((Except.ok.inj hrow).trans htruth) (by decide +kernel)
    · exact absurd (hnone.symm.trans htruth) nofun

end Sample

end AheadSync
