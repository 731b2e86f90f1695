import AheadSync.Client.Companions
import AheadSync.Client.Cover

/-! Direct updates. A local write that is never sent moves the base of a dirty record along with its
    visible row, so it is there whatever becomes of the pending operations: what every call leaves
    alone that neither writes nor delivers the record, nor settles an operation of it, is its truth. -/

namespace AheadSync

/-- The mutation has an operation on the record. -/
def Engine.Writes (e : Engine) (key : RecordKey) (m : Mutation) : Prop :=
  ∃ op ∈ m.operations ++ m.companion, e.opKey op = .ok key

/-- A step of a transaction that does not write the record. -/
def TransactionStep.LeavesAlone (e : Engine) (key : RecordKey) : TransactionStep → Prop
  | .enqueue m => ¬e.Writes key m
  | .direct op => e.opKey op ≠ .ok key
  | .setChannel _ _ => True

/-- No record of a delivery is the record. -/
def Engine.Omits (e : Engine) (key : RecordKey) (records : List AuthorityRecord) : Prop :=
  ∀ r ∈ records, e.recordKey r.model r.identity ≠ .ok key

/-- A call that neither writes the record nor delivers it; a receipt rejects every mutation in flight
    that touches it. -/
def Host.LeavesAlone (key : RecordKey) (s : Host) : HostCall → Prop
  | .call (.enqueue m) => ¬s.engine.Writes key m
  | .call (.applyPage page) => s.engine.Omits key page.changes
  | .call (.receive page _) => s.engine.Omits key page.changes
  | .call (.acknowledge _ receipt) => s.engine.Omits key receipt.records ∧
      ∀ q ∈ s.client.store.queue, q.push.isSome → (∃ op ∈ q.mutation.allOps, op.key = key) →
        q.ordinal ∈ receipt.rejections.map (·.ordinal)
  | .transaction body _ => ∀ step ∈ body, step.LeavesAlone s.engine key
  | .reopen _ => False
  | _ => True

section Write
variable {e : Engine} {st st' : Store} {op op' : Operation} {k : RecordKey}

theorem direct_plain (hc : NoCascade e) (hwf : Wf e st) (h : e.direct st op = .ok st') :
    ∃ op' row before, e.normalize op = .ok op' ∧ OpOk e op' ∧ op'.op = op.op ∧
      DirectWrite e st op' row before ∧
      st' = { st with main := st.main.put op'.key row, before := before } := by
  simp only [Engine.direct, Except.bind_eq_ok] at h
  obtain ⟨op', hnorm, key, hkey, children, hchildren, mid, hfold, h⟩ := h
  obtain ⟨hop, rfl, hkind, -⟩ := normalize_spec hnorm hkey
  have hnil : children = [] := by
    unfold Engine.directCascade at hchildren
    split at hchildren
    · rw [descendants_nil hc hwf] at hchildren
      exact (Except.ok.inj hchildren).symm
    · exact (Except.ok.inj hchildren).symm
  subst hnil
  obtain rfl : st = mid := by simpa using hfold
  obtain ⟨row, before, hwrite, rfl⟩ := directOne_spec hwf hop h
  exact ⟨op', row, before, hnorm, hop, hkind, hwrite, rfl⟩

/-- Without cascades the operations of a new mutation are on the records it names. -/
theorem performing_keys (hc : NoCascade e) : ∀ {ops given : List Operation}
    {acc out : Store × List Operation × List Operation}, Performing e st given acc →
    ops.foldlM e.performOp acc = .ok out → out.2.2 = acc.2.2 ∧
    ∀ o ∈ out.2.1, o ∈ acc.2.1 ∨ ∃ op ∈ ops, e.opKey op = .ok o.key
  | [], _, acc, out, _, ho => by
    obtain rfl : acc = out := by simpa using ho
    exact ⟨rfl, fun _ h => Or.inl h⟩
  | op :: ops, given, (s, done, effects), out, hp, ho => by
    simp only [List.foldlM_cons, Except.bind_eq_ok] at ho
    obtain ⟨mid, hmid, ho⟩ := ho
    have hstep : [op].foldlM e.performOp (s, done, effects) = .ok mid := by
      rw [List.foldlM_cons, hmid]; rfl
    obtain ⟨heffects, hkeys⟩ := performing_keys hc (performing_fold hp hstep) ho
    obtain ⟨op', found, row, hpo, rfl⟩ := (performOp_eq_ok hp.wf).mp hmid
    have hfound : found = [] := by
      have hcascade := hpo.cascade
      unfold CascadeOf at hcascade
      split at hcascade
      · rw [descendants_nil hc (wf_holdTruth hp.wf _)] at hcascade
        exact (Except.ok.inj hcascade).symm
      · exact hcascade
    subst hfound
    refine ⟨heffects.trans (List.append_nil _), fun o hmem => ?_⟩
    rcases hkeys o hmem with hdone | ⟨op₂, hop₂, hkey⟩
    · rcases List.mem_append.mp hdone with hdone | hnew
      · exact Or.inl hdone
      · obtain rfl := List.mem_singleton.mp hnew
        exact Or.inr ⟨op, List.mem_cons_self .., normalize_key hpo.normal⟩
    · exact Or.inr ⟨op₂, List.mem_cons_of_mem _ hop₂, hkey⟩

theorem enqueue_untouched (hc : NoCascade e) (hwf : Wf e st) {m : Mutation} {n : ℕ}
    (hr : e.enqueue st m = .ok (n, st')) (hk : ¬e.Writes k m) : Untouched st st' k := by
  obtain ⟨-, done, effects, q, mid, hq⟩ := enqueue_spec hwf hr
  refine enqueues_untouched hwf hq fun op hop heq => hk ?_
  obtain ⟨heffects, hkeys⟩ := performing_keys hc (performing_start hwf) hq.performs
  rw [enqueues_allOps hq, show effects = [] from heffects, List.append_nil] at hop
  rcases hkeys op hop with hnone | ⟨given, hgiven, hkey⟩
  · cases hnone
  · exact ⟨given, hgiven, heq ▸ hkey⟩

end Write

section Truth
variable {e : Engine} {st st' : Store} {k : RecordKey}

theorem truth_complete (hp : Plain e) (hwf : Wf e st) {push : ℕ} {receipt : PushReceipt}
    {report : ApplyReport} (hr : e.complete st push receipt = .ok (report, st'))
    (ho : e.Omits k receipt.records)
    (hrej : ∀ q ∈ st.queue, q.push.isSome → (∃ op ∈ q.mutation.allOps, op.key = k) →
      q.ordinal ∈ receipt.rejections.map (·.ordinal)) : st'.truth k = st.truth k := by
  obtain ⟨covered, wireRows, mid, affected, reports, fin, hcomp, -, -⟩ := (complete_eq_ok hwf).mp hr
  obtain ⟨report', fin', hc, hall⟩ := complete_uncovered hp hwf hcomp.checked
  obtain ⟨-, rfl⟩ := Prod.mk.inj (Except.ok.inj (hc.symm.trans hr))
  obtain ⟨-, -, hspared, hbefore, hmain⟩ := hall k ho
  have hnone : companionsOn st push receipt k = [] := by
    refine List.filter_eq_nil_iff.mpr fun op hop hk => ?_
    obtain ⟨q, hq, hop⟩ := List.mem_flatMap.mp hop
    obtain ⟨hbatch, hkeep⟩ := List.mem_filter.mp hq
    obtain ⟨hqueue, hpush⟩ := mem_batchOf.mp hbatch
    refine absurd (hrej q hqueue (by rw [hpush]; rfl) ⟨op, ?_, by simpa using hk⟩) (by simpa using hkeep)
    simp [Mutation.allOps, hop]
  by_cases hrem : Removes e st push receipt.rejections k
  · have hbase := hbefore hrem
    have hrow := hmain hrem
    rw [hnone] at hbase hrow
    rw [truth_dirty (removes_dirty hrem), Store.truth, hbase, hrow]
    cases hd : fin'.dirty k with
    | true => rfl
    | false =>
      rw [dirty_eq_false.mp hd]
      rfl
  · exact (hspared hrem).truth

theorem truth_applyCurrentPage (hc : NoCascade e) (h : Primed e st) {page : PullPage}
    {report : ApplyReport} (hr : e.applyCurrentPage st page = .ok (report, st'))
    (ho : e.Omits k page.changes) : st'.truth k = st.truth k := by
  obtain ⟨moving, -, ⟨-, -, rfl⟩ | ⟨-, -, report1, st1, hrec, -, rfl⟩⟩ := applyCurrentPage_eq_ok.mp hr
  · rfl
  obtain ⟨s, hs⟩ := setCursors_frame moving.entries st1
  rw [Store.setCursors, hs]
  change st1.truth k = st.truth k
  have hstaged : Unmoved st (e.stageAll st [] page.changes).1 k := (unmoved_stageAll h.wf ho
    (by rw [takenAll_plain hc [] h.wf]; exact List.not_mem_nil)).1
  exact (applyRecords_truth h.wf h.tidy hrec k).1.trans hstaged.truth

end Truth

section Run
variable {e : Engine} {c : Client} {k : RecordKey}

/-- A step of a transaction keeps the truth of a record it does not write. -/
theorem truth_step (hc : NoCascade e) {acc : Store × List String} (hwf : Wf e acc.1)
    {step : TransactionStep} (hl : step.LeavesAlone e k) :
    (e.transactionStep acc step).1.truth k = acc.1.truth k := by
  cases step with
  | enqueue m =>
    simp only [Engine.transactionStep]
    split
    · exact (enqueue_untouched hc hwf ‹_› hl).truth
    · rfl
  | direct op =>
    simp only [Engine.transactionStep]
    split
    · rename_i hr
      obtain ⟨op', row, before, hnorm, hop, -, hwrite, rfl⟩ := direct_plain hc hwf hr
      refine (untouched_directWrite ?_ hwrite).truth
      rintro rfl
      exact hl (normalize_key hnorm)
    · rfl
  | setChannel channel subscribed =>
    obtain ⟨s, hs⟩ := setChannels_frame [(channel, subscribed)] acc
    simp only [List.foldl_cons, List.foldl_nil] at hs
    simp only [Engine.transactionStep, hs]
    rfl

theorem truth_body (hc : NoCascade e) : ∀ {body : List TransactionStep} {acc : Store × List String},
    Primed e acc.1 → (∀ step ∈ body, step.LeavesAlone e k) →
      (body.foldl e.transactionStep acc).1.truth k = acc.1.truth k
  | [], _, _, _ => rfl
  | step :: body, acc, h, hl => by
    have hrest := truth_body hc (keeps_step primed_keeps h step) fun s hs => hl s (List.mem_cons_of_mem _ hs)
    exact hrest.trans (truth_step hc h.wf (hl step (List.mem_cons_self ..)))

/-- A call of the client keeps the truth of a record that it leaves alone. -/
theorem truth_act (hp : Plain e) (h : Primed e c.store) (a : ClientAction)
    (hl : Host.LeavesAlone k ⟨e, c⟩ (.call a)) : (c.act e a).store.truth k = c.store.truth k := by
  cases a with
  | enqueue m =>
    exact commit_keeps (P := fun st => st.truth k = c.store.truth k) rfl fun _ _ hr =>
      (enqueue_untouched hp.noCascade h.wf hr hl).truth
  | freeze maxBytes =>
    refine commit_keeps (P := fun st => st.truth k = c.store.truth k) rfl fun _ st hr => ?_
    rcases freeze_spec hr with rfl | ⟨-, selected, -, -, -, rfl, -⟩
    · rfl
    · exact Untouched.truth ⟨rfl, rfl, opsFor_map fun q => by split <;> exact ⟨rfl, rfl⟩⟩
  | acknowledge sequence receipt =>
    simp only [Client.act, Client.acknowledge]
    split
    · rfl
    · refine commit_keeps (P := fun st => st.truth k = c.store.truth k) rfl fun _ _ hr => ?_
      obtain ⟨-, -, ⟨-, -, rfl⟩ | ⟨-, -, hc⟩⟩ := acknowledge_eq_ok.mp hr
      · rfl
      · exact truth_complete hp h.wf hc hl.1 hl.2
  | applyPage page =>
    rcases applyPage_store e c page with heq | ⟨report, ha⟩
    · simp only [Client.act, heq]
    · exact truth_applyCurrentPage hp.noCascade h ha hl
  | receive page request =>
    rcases receive_store e c page request with heq | ⟨report, ha⟩
    · simp only [Client.act, heq]
    · exact truth_applyCurrentPage hp.noCascade h ha hl
  | drop ordinal =>
    refine commit_keeps (P := fun st => st.truth k = c.store.truth k) rfl fun a st hr => ?_
    obtain ⟨st1, hd, heq⟩ := Except.map_eq_ok.mp hr
    obtain ⟨-, rfl⟩ := Prod.mk.inj heq
    exact (drop_keeps h hd).1
  | setChannels changes =>
    obtain ⟨s, hs⟩ := setChannels_frame changes (c.store, [])
    simp only [Client.act, Client.setChannels, hs]
    rfl
  | pull =>
    simp only [Client.act, Client.downlinkRequest]
    split <;> rfl
  | resolve key => exact Untouched.truth ⟨rfl, rfl, opsFor_map fun q => ⟨rfl, rfl⟩⟩
  | restart => rfl

/-- So does a call of the host. -/
theorem truth_call (hp : Plain e) (h : Primed e c.store) (call : HostCall)
    (hl : Host.LeavesAlone k ⟨e, c⟩ call) :
    (Host.step ⟨e, c⟩ call).client.store.truth k = c.store.truth k := by
  cases call with
  | call a => exact truth_act hp h a hl
  | transaction body commits =>
    cases commits with
    | true => exact @truth_body e k hp.noCascade body (c.store, []) h hl
    | false => rfl
  | readiness key value =>
    cases value with
    | ready => exact truth_act hp h (.resolve key) trivial
    | failed => rfl
    | pending => rfl
  | dismissRejection ordinal => rfl
  | reopen e' => exact hl.elim

/-- Over calls that all leave a record alone its truth stays. -/
theorem truth_run (hp : Plain e) : ∀ {calls : List HostCall} {c : Client}, Primed e c.store →
    Machine.Along Host.step (Host.LeavesAlone k) ⟨e, c⟩ calls →
    (Machine.run Host.step ⟨e, c⟩ calls).client.store.truth k = c.store.truth k
  | [], _, _, _ => rfl
  | call :: calls, c, h, hl => by
    have hkeep : call.keepsSchema = true := by
      cases call with
      | reopen e' => exact hl.1.elim
      | _ => rfl
    have htruth := truth_call hp h call hl.1
    obtain ⟨c₁, hstep, h₁⟩ := keeps_call primed_keeps h call hkeep
    have hrest := hl.2
    rw [hstep] at hrest htruth
    rw [Machine.run, List.foldl_cons, hstep]
    exact (truth_run hp h₁ hrest).trans htruth

end Run

/-- A direct update of a record with queued operations and a base survives whatever becomes of them:
    once the last of them is dropped or rejected, the record shows the base it had with the patch
    applied. -/
theorem direct_survives (e : Engine) (hp : Plain e) (c : Client) (hr : Host.Reaches e c)
    (key : RecordKey) (op : Operation) (hop : op.op = .update) (hkey : e.opKey op = .ok key)
    (hdirty : c.store.dirty key = true) (base : Value) (hbase : c.store.before.lookup key = some base)
    (st' : Store) (hd : e.direct c.store op = .ok st') (calls : List HostCall)
    (hl : Machine.Along Host.step (Host.LeavesAlone key)
      (Host.step ⟨e, c⟩ (.transaction [.direct op] true)) calls) :
    let c' := (Machine.run Host.step (Host.step ⟨e, c⟩ (.transaction [.direct op] true)) calls).client
    c'.store.dirty key = false →
      ∃ op', e.normalize op = .ok op' ∧ applyToRow (some base) op' = .ok (c'.store.main.lookup key) := by
  intro c' hclean
  have hprimed := primed_reaches hr
  have hprimed₁ := @keeps_step _ _ primed_keeps (c.store, []) hprimed (.direct op)
  have hstep : (e.transactionStep (c.store, []) (.direct op)).1 = st' := by
    simp only [Engine.transactionStep, hd]
  obtain ⟨op', row, before, hnorm, hok, hkind, hwrite, rfl⟩ := direct_plain hp.noCascade hprimed.wf hd
  obtain rfl : op'.key = key := Except.ok.inj ((normalize_key hnorm).symm.trans hkey)
  refine ⟨op', hnorm, (hwrite.moved hdirty (hkind.trans hop) base hbase).trans (congrArg Except.ok ?_)⟩
  have hmoved : Store.truth { c.store with main := c.store.main.put op'.key row, before := before }
      op'.key = before.lookup op'.key := truth_dirty hdirty
  rw [← hstep] at hmoved
  exact hmoved.symm.trans ((truth_run hp hprimed₁ hl).symm.trans (truth_clean hclean))

section Sample
open Sample

/-- A client that holds item `a` and moves it. -/
def Sample.moved : List HostCall :=
  [.call (.setChannels [("c", true)]), .call (.applyPage (page "c" 0 1 [record "a" "x" 1])),
    .call (.enqueue { name := "move", operations := [move "a" "y"] })]

def Sample.holding : Client := (Machine.run Host.step ⟨loose, .opened "me"⟩ moved).client

/-- The item is moved directly, then the queued move is dropped. -/
theorem direct_survives_loose : ∃ op', loose.normalize (move "a" "w") = .ok op' ∧
    applyToRow (some (.ofEntries [("box", .str "x"), ("id", .str "a")])) op' =
      .ok ((Machine.run Host.step
        (Host.step ⟨loose, Sample.holding⟩ (.transaction [.direct (move "a" "w")] true))
        [.call (.drop 1)]).client.store.main.lookup (item "a")) := by
  have hreaches : Host.Reaches loose Sample.holding := ⟨"me", moved, by decide, rfl⟩
  have hkey : loose.opKey (move "a" "w") = .ok (item "a") :=
    Except.eq_ok_of_toOption (by decide +kernel)
  have hok : (loose.direct Sample.holding.store (move "a" "w")).isOk = true := by decide +kernel
  obtain ⟨st', hd⟩ := Except.exists_ok hok
  exact direct_survives loose ⟨by decide +kernel, by decide +kernel⟩ Sample.holding hreaches (item "a")
    (move "a" "w") rfl hkey (by decide +kernel) _ (by decide +kernel) st' hd [.call (.drop 1)]
    ⟨trivial, trivial⟩ (by decide +kernel)

end Sample

end AheadSync
