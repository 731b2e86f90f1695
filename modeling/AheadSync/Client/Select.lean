import AheadSync.Client.Frozen
import AheadSync.Core.Messages
import AheadSync.Core.Valid
import AheadSync.Lib.Select

/-! What a freeze selects. The queue is read once, in ordinal order: a mutation joins the batch when
    no prerequisite of it is out, no mutation it waits for is still unsent or behind it, and it fits
    beside those that joined before it. Dependencies are older than what depends on them and no run
    counts more pushes than mutations, so a queue without prerequisites always yields a batch. -/

namespace AheadSync

/-- How long the bytes of a request for these mutations are. -/
def Engine.sendSize (e : Engine) (st : Store) (batch : List Queued) : ℕ :=
  (e.bytes (st.requestOf st.nextPush e.declaredModels batch)).utf8ByteSize

/-- The ordinals of the queue. -/
def Store.ordinals (st : Store) : List ℕ := st.queue.map (·.ordinal)

/-- A mutation can join the selected ones. -/
structure Joins (e : Engine) (st : Store) (maxBytes : ℕ) (selected : List Queued) (q : Queued) :
    Prop where
  ready : ∀ k ∈ q.mutation.prerequisites, k ∉ st.prerequisiteKeys
  lifecycle : ∀ d ∈ q.mutation.lifecycleDependencies, d ∉ st.ordinals
  sequence : ∀ d ∈ q.mutation.sequenceDependencies, d ∈ st.ordinals → d ∈ selected.map (·.ordinal)
  fits : selected = [] ∨ e.sendSize st (selected ++ [q]) ≤ maxBytes

/-- What a freeze with nothing in flight does: it sends `batch`, and what it leaves out could not
    join those before it or came when the batch was full. -/
structure Selects (e : Engine) (st : Store) (maxBytes : ℕ) (batch : List Queued)
    (request : PushRequest) (st' : Store) : Prop where
  queued : batch.Sublist st.queue
  ascending : (batch.map (·.ordinal)).Pairwise (· < ·)
  count : 1 ≤ batch.length ∧ batch.length ≤ pushMutations
  encodes : request = st.requestOf st.nextPush e.declaredModels batch
  marked : st' = st.frozen (batch.map (·.ordinal)) e.declaredModels
  ready : ∀ q ∈ batch, q.mutation.prerequisites = []
  lifecycle : ∀ q ∈ batch, ∀ d ∈ q.mutation.lifecycleDependencies, d ∉ st.ordinals
  sequence : ∀ q ∈ batch, ∀ d ∈ q.mutation.sequenceDependencies, d ∈ st.ordinals →
    d ∈ (batch.filter (·.ordinal < q.ordinal)).map (·.ordinal)
  fits : batch.length = 1 ∨ (e.bytes request).utf8ByteSize ≤ maxBytes
  leftOut : ∀ q ∈ st.queue, q ∉ batch →
    let earlier := batch.filter (·.ordinal < q.ordinal)
    q.mutation.prerequisites ≠ [] ∨ (∃ d ∈ q.mutation.lifecycleDependencies, d ∈ st.ordinals) ∨
      (∃ d ∈ q.mutation.sequenceDependencies, d ∈ st.ordinals ∧ d ∉ earlier.map (·.ordinal)) ∨
      (earlier ≠ [] ∧ maxBytes < e.sendSize st (earlier ++ [q])) ∨ earlier.length = pushMutations

section Select
open Classical
variable {e : Engine} {st st' : Store} {maxBytes : ℕ} {q : Queued}

/-- The selection is one pass over the unsent mutations. -/
theorem select_eq (hidle : ∀ q ∈ st.queue, q.push = none) : ∀ {rest selected : List Queued},
    e.select st maxBytes selected rest =
      Select.pick (Joins e st maxBytes) pushMutations selected rest
  | [], _ => rfl
  | q :: rest, selected => by
    have hunsent : (st.queue.filter (·.push = none)).map (·.ordinal) = st.ordinals := by
      rw [List.filter_eq_self.mpr fun q hq => by simpa using hidle q hq]
      rfl
    have hjoins : Joins e st maxBytes selected q ↔
        ¬(q.mutation.prerequisites.any (· ∈ st.prerequisiteKeys)) ∧
        ¬(q.mutation.lifecycleDependencies.any (· ∈ st.ordinals) ∨
          q.mutation.sequenceDependencies.any fun d =>
            d ∈ st.ordinals ∧ d ∉ selected.map (·.ordinal)) ∧
        ¬(selected ≠ [] ∧ maxBytes < e.sendSize st (selected ++ [q])) := by
      simp only [List.any_eq_true, decide_eq_true_eq, not_or, not_exists, not_and, not_lt,
        not_not]
      constructor
      · intro h
        exact ⟨h.ready, ⟨h.lifecycle, h.sequence⟩, fun hne => h.fits.resolve_left hne⟩
      · rintro ⟨hready, ⟨hlife, hseq⟩, hfits⟩
        exact ⟨hready, hlife, hseq, Classical.or_iff_not_imp_left.mpr hfits⟩
    unfold Engine.select
    simp only [hunsent, select_eq hidle, Select.pick]
    by_cases hj : Joins e st maxBytes selected q
    · obtain ⟨h1, h2, h3⟩ := hjoins.mp hj
      simp only [Engine.sendSize, Engine.bytes] at h3
      rw [if_neg h1, if_neg h2, if_neg h3, if_pos hj]
    · rw [if_neg hj]
      split
      · rfl
      · rename_i h1
        split
        · rfl
        · rename_i h2
          split
          · rfl
          · rename_i h3
            exact absurd (hjoins.mpr ⟨h1, h2, h3⟩) hj

/-- The request of a frozen push holds the selected mutations. -/
theorem encode_frozen (hidle : ∀ q ∈ st.queue, q.push = none) (hnd : st.ordinals.Nodup)
    {batch : List Queued} (hsub : batch.Sublist st.queue) :
    (st.frozen (batch.map (·.ordinal)) e.declaredModels).encodePush st.nextPush = (do
      let request := st.requestOf st.nextPush e.declaredModels batch
      request.validate
      return request) := by
  set ns := batch.map (·.ordinal) with hns
  have hfilter : ((st.frozen ns e.declaredModels).queue.filter
      (·.push = some st.nextPush)).map (·.wire) = batch.map (·.wire) := by
    have hqueue : (st.frozen ns e.declaredModels).queue =
        st.queue.map fun q => if q.ordinal ∈ ns then { q with push := some st.nextPush } else q := rfl
    rw [hqueue, List.filter_map, List.map_map, ← List.filter_keys hsub hnd]
    have hkeep : st.queue.filter ((fun q : Queued => decide (q.push = some st.nextPush)) ∘ fun q =>
        if q.ordinal ∈ ns then { q with push := some st.nextPush } else q) =
          st.queue.filter (fun q => q.ordinal ∈ batch.map (·.ordinal)) := by
      refine List.filter_congr fun q hq => ?_
      by_cases hin : q.ordinal ∈ ns
      · simp [hin, hns ▸ hin]
      · simp [hin, hns ▸ hin, hidle q hq]
    rw [hkeep]
    refine List.map_congr_left fun q _ => ?_
    simp only [Function.comp_apply]
    split <;> rfl
  have hrequest : (st.frozen ns e.declaredModels).requestOf st.nextPush e.declaredModels
      ((st.frozen ns e.declaredModels).queue.filter (·.push = some st.nextPush)) =
        st.requestOf st.nextPush e.declaredModels batch := by
    simp only [Store.requestOf, hfilter]
    rfl
  have hmodels : (st.frozen ns e.declaredModels).pushModels = some e.declaredModels := rfl
  simp only [Store.encodePush, hmodels, required, Except.ok_bind, hrequest]

end Select

/-- No more pushes were counted than mutations, and the counters stay in the safe range. -/
structure Paced (st : Store) : Prop where
  first : 0 < st.nextPush
  positive : ∀ q ∈ st.queue, 0 < q.ordinal
  room : st.nextPush + st.queue.countP (·.push = none) ≤ st.nextOrdinal
  bound : st.nextOrdinal ≤ maxSafeInteger

section Paced
variable {e : Engine} {st st' : Store} {c : Client} {s : Host}

theorem paced_of_spine (h : st'.spine = st.spine) (hp : Paced st) : Paced st' := by
  have hpush : st'.nextPush = st.nextPush := congrArg (·.nextPush) h
  have hord : st'.nextOrdinal = st.nextOrdinal := congrArg (·.nextOrdinal) h
  have hcount : ∀ s : Store, s.queue.countP (·.push = none) =
      s.spine.queue.countP (·.push = none) := fun s => by
    rw [show s.spine.queue = s.queue.map Queued.spine from rfl, List.countP_map]
    rfl
  refine ⟨hpush ▸ hp.first, fun q' hq' => ?_, ?_, hord ▸ hp.bound⟩
  · obtain ⟨q, hq, hqs⟩ := mem_of_spine h hq'
    have ho : q.ordinal = q'.ordinal := congrArg (·.ordinal) hqs
    exact ho ▸ hp.positive q hq
  · rw [hpush, hord, hcount st', h, ← hcount st]
    exact hp.room

theorem paced_delete (hp : Paced st) (ns : List ℕ) : Paced (st.deleteMutations ns) := by
  refine ⟨hp.first, fun q' hq' => ?_, ?_, hp.bound⟩
  · obtain ⟨q, hq, -, rfl⟩ := mem_deleteMutations hq'
    exact hp.positive q hq
  · have hle : (st.deleteMutations ns).queue.countP (·.push = none) ≤
        st.queue.countP (·.push = none) := by
      rw [deleteMutations_queue, List.countP_map]
      exact List.filter_sublist.countP_le
    exact (Nat.add_le_add_left hle _).trans hp.room

theorem paced_enqueue (hp : Paced st) {m : Mutation} {n : ℕ}
    (he : e.enqueue st m = .ok (n, st')) : Paced st' := by
  obtain ⟨q, hord, hpush, -, hroom, hspine⟩ := enqueue_spine he
  have hfirst := hp.first
  have hold := hp.room
  refine paced_of_spine hspine ⟨hfirst, fun p hmem => ?_, ?_, hroom⟩
  · rcases List.mem_append.mp hmem with hmem | hmem
    · exact hp.positive p hmem
    · rw [List.mem_singleton.mp hmem, hord]
      omega
  · simp only [List.countP_append, List.countP_singleton, hpush, decide_true, ↓reduceIte]
    omega

/-- A push is counted with a mutation that leaves the unsent ones. -/
theorem paced_freeze (hp : Paced st) {maxBytes : ℕ} {request : Option PushRequest}
    (hf : e.freeze st maxBytes = .ok (request, st')) : Paced st' := by
  rcases freeze_spec hf with rfl | ⟨-, selected, hsel, hne, -, rfl, -⟩
  · exact hp
  set ns := selected.map (·.ordinal) with hns
  have hqueue : (st.frozen ns e.declaredModels).queue =
      st.queue.map fun q => if q.ordinal ∈ ns then { q with push := some st.nextPush } else q := rfl
  obtain ⟨x, hx⟩ := List.exists_mem_of_ne_nil _ hne
  have hunsent : x ∈ st.queue ∧ x.push = none := by
    rw [hsel] at hx
    rcases mem_select hx with hx | ⟨hx, -⟩
    · cases hx
    · simpa using hx
  refine ⟨Nat.succ_pos _, fun q' hq' => ?_, ?_, hp.bound⟩
  · rw [hqueue] at hq'
    obtain ⟨q, hq, rfl⟩ := List.mem_map.mp hq'
    split <;> exact hp.positive q hq
  · have hlt : (st.frozen ns e.declaredModels).queue.countP (·.push = none) <
        st.queue.countP (·.push = none) := by
      rw [hqueue, List.countP_map]
      refine List.countP_lt_of (fun q _ hq => ?_) hunsent.1 (by simp [hunsent.2]) ?_
      · simp only [Function.comp_apply] at hq
        split at hq
        · cases hq
        · exact hq
      · simp [show x.ordinal ∈ ns from List.mem_map_of_mem hx]
    have hold := hp.room
    change st.nextPush + 1 + _ ≤ st.nextOrdinal
    omega

/-- Completing a push takes mutations off the queue. -/
theorem complete_spine {push : ℕ} {receipt : PushReceipt} {report : ApplyReport}
    (hc : e.complete st push receipt = .ok (report, st')) : ∃ ns ns', st'.spine =
      (((st.deleteMutations ns).deleteMutations ns').setLastCompletedPush push).spine := by
  simp only [Engine.complete, Except.bind_eq_ok, Except.pure_eq_ok, Prod.mk.injEq] at hc
  obtain ⟨⟨covered, wireRows⟩, -, touched, -, ⟨settled, affected⟩, hsettle, ⟨marked, st1⟩,
    hmark, ⟨reports, fin⟩, hreb, -, rfl⟩ := hc
  have hmid : (e.stageAll settled affected receipt.records).1.spine = st.spine :=
    ((within_spine e).stageAll ..).trans ((within_spine e).settleCompanions hsettle)
  have hfin := ((within_spine e).rebuildHeld hreb).trans (spine_delete ((markRejected_spine hmark).trans
    (spine_delete hmid _)) _)
  exact ⟨_, _, congrArg (Store.setLastCompletedPush · push) hfin⟩

theorem paced_act (hs : Sealed c.store) (hp : Paced c.store) (a : ClientAction) :
    Paced (c.act e a).store := by
  cases a with
  | enqueue m => exact commit_keeps hp fun _ _ hr => paced_enqueue hp hr
  | freeze maxBytes => exact commit_keeps hp fun _ _ hr => paced_freeze hp hr
  | acknowledge sequence receipt =>
    simp only [Client.act, Client.acknowledge]
    split
    · exact hp
    · refine commit_keeps hp fun _ _ hr => ?_
      obtain ⟨-, -, ⟨-, -, rfl⟩ | ⟨-, -, hc⟩⟩ := acknowledge_eq_ok.mp hr
      · exact hp
      · obtain ⟨ns, ns', hspine⟩ := complete_spine hc
        have hdel := paced_delete (paced_delete hp ns) ns'
        exact paced_of_spine hspine ⟨hdel.first, hdel.positive, hdel.room, hdel.bound⟩
  | applyPage page =>
    rcases applyPage_store e c page with heq | ⟨report, ha⟩
    · simp only [Client.act, heq]; exact hp
    · exact paced_of_spine ((within_spine e).applyCurrentPage ha) hp
  | receive page request =>
    rcases receive_store e c page request with heq | ⟨report, ha⟩
    · simp only [Client.act, heq]; exact hp
    · exact paced_of_spine ((within_spine e).applyCurrentPage ha) hp
  | drop ordinal =>
    refine commit_keeps hp fun _ _ hr => ?_
    obtain ⟨st1, hd, heq⟩ := Except.map_eq_ok.mp hr
    obtain ⟨-, rfl⟩ := Prod.mk.inj heq
    rcases drop_spine hs hd with rfl | ⟨ns, -, hspine⟩
    · exact hp
    · exact paced_of_spine hspine (paced_delete hp ns)
  | setChannels changes =>
    obtain ⟨subscriptions, hset⟩ := setChannels_frame changes (c.store, [])
    simp only [Client.act, Client.setChannels, hset]
    exact ⟨hp.first, hp.positive, hp.room, hp.bound⟩
  | pull =>
    simp only [Client.act, Client.downlinkRequest]
    split <;> exact hp
  | resolve key => exact paced_of_spine spine_resolvePrerequisite hp
  | restart => exact hp

theorem paced_transaction (hp : Paced c.store) (body : List TransactionStep) (commits : Bool) :
    Paced (c.transaction e body commits).store := by
  have hbody : Paced (Machine.run e.transactionStep (c.store, []) body).1 := by
    refine Machine.run_invariant (P := fun acc : Store × List String => Paced acc.1)
      (fun acc t hacc => ?_) hp
    cases t with
    | enqueue m =>
      simp only [Engine.transactionStep]
      split
      · rename_i he; exact paced_enqueue hacc he
      · exact hacc
    | direct op =>
      simp only [Engine.transactionStep]
      split
      · rename_i hd; exact paced_of_spine ((within_spine e).direct hd) hacc
      · exact hacc
    | setChannel channel subscribed => exact paced_of_spine (within_spine e).setChannel hacc
  unfold Client.transaction
  cases commits with
  | true => exact hbody
  | false => exact hp

theorem paced_step (hs : Sealed s.client.store) (hp : Paced s.client.store) (call : HostCall) :
    Paced (s.step call).client.store := by
  cases call with
  | call a => exact paced_act hs hp a
  | transaction body commits => exact paced_transaction hp body commits
  | readiness key value =>
    cases value with
    | ready => exact paced_of_spine spine_resolvePrerequisite hp
    | failed => exact hp
    | pending => exact hp
  | dismissRejection ordinal => exact ⟨hp.first, hp.positive, hp.room, hp.bound⟩
  | reopen e' =>
    simp only [Host.step, Client.reopen]
    split
    · rename_i hr; exact paced_of_spine (spine_reconcile hr) hp
    · exact hp

/-- Every reachable store counts no more pushes than mutations. -/
theorem paced_reachable (h : s.Reachable) : Paced s.client.store := by
  obtain ⟨e, clientId, calls, -, rfl⟩ := h
  refine (Machine.run_invariant
    (P := fun s : Host => Sealed s.client.store ∧ Paced s.client.store)
    (fun _ call hs => ⟨(steady_step hs.1 call).safe, paced_step hs.1 hs.2 call⟩)
    ⟨sealed_opened clientId, ?_⟩).2
  exact ⟨Nat.one_pos, by simp [Client.opened], by simp [Client.opened],
    show 1 ≤ maxSafeInteger by decide⟩

end Paced

section Freeze
open Classical
variable {e : Engine} {st st' : Store} {maxBytes : ℕ} {q : Queued}

/-- The declared versions are those of the schema's models. -/
theorem readModels_declared (e : Engine) : readModels e.declaredModels = .ok () := by
  have hvalid := Schema.validate_eq_ok.mp e.valid
  have hown : ∀ m ∈ e.schema.models, e.declaredModels.lookup m.name = some m.version :=
    fun m hm => SortedMap.lookup_ofList_of_mem (by simpa [Function.comp_def] using hvalid.modelNames)
      (List.mem_map_of_mem hm)
  have hlookup : ∀ x ∈ e.declaredModels.entries, ∃ m ∈ e.schema.models, m.name = x.1 ∧
      m.version = x.2 := by
    rintro ⟨name, version⟩ hx
    have hsome : e.declaredModels.lookup name = some version := SortedMap.lookup_eq_some_iff.mpr hx
    have hkey := SortedMap.lookup_ofList_isSome.mp (Option.isSome_of_eq_some hsome)
    obtain ⟨m, hm, rfl⟩ : ∃ m ∈ e.schema.models, m.name = name := by simpa using hkey
    rw [hown m hm] at hsome
    exact ⟨m, hm, rfl, Option.some.inj hsome⟩
  refine readModels_eq_ok.mpr ⟨fun hnil => ?_, fun x hx => ?_⟩
  · obtain ⟨m, hm⟩ := List.exists_mem_of_ne_nil _ hvalid.nonempty
    have hin := SortedMap.lookup_eq_some_iff.mp (hown m hm)
    rw [hnil] at hin
    cases hin
  · obtain ⟨m, hm, hname, hversion⟩ := hlookup x hx
    have hmodel := hvalid.models m hm
    exact ⟨hname ▸ hmodel.named.1, hversion ▸ Nat.pos_of_ne_zero hmodel.version.1,
      hversion ▸ hmodel.version.2⟩

/-- A selection of queued mutations makes a request the server accepts. -/
theorem request_valid (h : Sealed st) (hp : Paced st) (hid : blank st.clientId = false)
    (hpush : st.nextPush ≤ maxSafeInteger) {batch : List Queued} (hsub : batch.Sublist st.queue)
    (hcount : 1 ≤ batch.length ∧ batch.length ≤ pushMutations) :
    (st.requestOf st.nextPush e.declaredModels batch).validate = .ok () := by
  have hords : (batch.map (·.wire)).map (·.ordinal) = batch.map (·.ordinal) := by
    rw [List.map_map]; rfl
  refine PushRequest.validate_eq_ok.mpr ⟨hid, ⟨hp.first, hpush⟩, readModels_declared e, ⟨?_, ?_⟩,
    fun m hm => ?_, ?_⟩
  · intro hnil
    rw [List.map_eq_nil_iff.mp hnil] at hcount
    exact absurd hcount.1 (by decide)
  · exact (List.length_map ..).trans_le hcount.2
  · obtain ⟨q, hq, rfl⟩ := List.mem_map.mp hm
    have hfresh := h.fresh q (hsub.subset hq)
    have hbound := hp.bound
    exact ⟨hp.positive q (hsub.subset hq), by change q.ordinal ≤ _; omega⟩
  · exact hords ▸ (h.sorted.sublist (hsub.map _)).imp fun h => ne_of_lt h

/-- What the pass over the whole queue selects. -/
def Engine.batch (e : Engine) (st : Store) (maxBytes : ℕ) : List Queued :=
  e.select st maxBytes [] st.queue

/-- Where a mutation stands in the pass: the ones selected before it are those of the batch with
    smaller ordinals, and it was selected exactly when it could join them. -/
theorem batch_at (hs : Sealed st) (hidle : ∀ q ∈ st.queue, q.push = none) (hq : q ∈ st.queue) :
    let earlier := (e.batch st maxBytes).filter (·.ordinal < q.ordinal)
    q ∈ e.batch st maxBytes ↔ earlier.length < pushMutations ∧ Joins e st maxBytes earlier q := by
  obtain ⟨l, r, hqueue⟩ := List.append_of_mem hq
  have hsorted := hs.sorted
  rw [hqueue, List.map_append, List.map_cons] at hsorted
  obtain ⟨-, hr, hlr⟩ := List.pairwise_append.mp hsorted
  have hl : ∀ x ∈ l, x.ordinal < q.ordinal := fun x hx =>
    hlr _ (List.mem_map_of_mem hx) _ (List.mem_cons_self ..)
  have hr : ∀ x ∈ q :: r, q.ordinal ≤ x.ordinal := by
    intro x hx
    rcases List.mem_cons.mp hx with rfl | hx
    · exact le_rfl
    · exact ((List.pairwise_cons.mp hr).1 _ (List.mem_map_of_mem hx)).le
  have hbatch : e.batch st maxBytes =
      Select.pick (Joins e st maxBytes) pushMutations [] (l ++ q :: r) := by
    rw [Engine.batch, select_eq hidle, hqueue]
  have hbefore : ∃ t, Select.pick (Joins e st maxBytes) pushMutations [] (l ++ q :: r) =
      Select.pick (Joins e st maxBytes) pushMutations [] l ++ t ∧ t.Sublist (q :: r) :=
    Select.pick_before (by decide)
  obtain ⟨t, ht, hsub⟩ := hbefore
  have hearlier : (e.batch st maxBytes).filter (·.ordinal < q.ordinal) =
      Select.pick (Joins e st maxBytes) pushMutations [] l := by
    rw [hbatch, ht, List.filter_append, List.filter_eq_self.mpr, List.filter_eq_nil_iff.mpr,
      List.append_nil]
    · intro x hx
      have := hr x (hsub.subset hx)
      simpa using this
    · intro x hx
      simpa using hl x (by simpa using Select.pick_sublist.subset hx)
  intro earlier
  rw [show earlier = _ from hearlier, hbatch]
  refine Select.mem_pick (by decide) ?_ ?_
  · simp only [List.nil_append]
    exact fun h => absurd (hl q h) (lt_irrefl _)
  · intro h
    have hlt := (List.pairwise_cons.mp (List.pairwise_append.mp hsorted).2.1).1 _
      (List.mem_map_of_mem h)
    exact absurd hlt (lt_irrefl _)

theorem batch_sublist (hidle : ∀ q ∈ st.queue, q.push = none) :
    (e.batch st maxBytes).Sublist st.queue := by
  rw [Engine.batch, select_eq hidle]
  exact Select.pick_sublist

/-- With nothing in flight a freeze sends what the pass selects. -/
theorem freeze_eq_ok (hnone : st.inFlight = .ok none) (hidle : ∀ q ∈ st.queue, q.push = none)
    (hnd : st.ordinals.Nodup) (hpos : 0 < maxBytes) {request : PushRequest} :
    e.freeze st maxBytes = .ok (some request, st') ↔
      e.batch st maxBytes ≠ [] ∧ st.nextPush + 1 ≤ maxSafeInteger ∧
        request.validate = .ok () ∧
        request = st.requestOf st.nextPush e.declaredModels (e.batch st maxBytes) ∧
        st' = st.frozen ((e.batch st maxBytes).map (·.ordinal)) e.declaredModels := by
  have hunsent : st.queue.filter (·.push = none) = st.queue :=
    List.filter_eq_self.mpr fun q hq => by simpa using hidle q hq
  have hsub : (e.batch st maxBytes).Sublist st.queue := batch_sublist hidle
  have hencode := encode_frozen (e := e) hidle hnd hsub
  simp only [Engine.freeze, if_neg (Nat.pos_iff_ne_zero.mp hpos), hnone, Except.ok_bind, hunsent]
  rw [← Engine.batch]
  by_cases hne : e.batch st maxBytes = []
  · simp [hne, pure, Except.pure]
  rw [if_neg hne]
  simp only [Store.allocatePush, Store.bump, Except.bind_eq_ok, ensure_eq_ok, Except.pure_eq_ok,
    Prod.mk.injEq, Option.some.injEq]
  constructor
  · rintro ⟨_, ⟨_, ⟨_, hroom, rfl⟩, rfl⟩, r, hr, rfl, rfl⟩
    simp only [Store.frozen] at hencode
    rw [hencode] at hr
    simp only [Except.bind_eq_ok, Except.pure_eq_ok] at hr
    obtain ⟨_, hvalid, rfl⟩ := hr
    exact ⟨hne, hroom, hvalid, rfl, rfl⟩
  · rintro ⟨-, hroom, hvalid, rfl, rfl⟩
    refine ⟨_, ⟨_, ⟨(), hroom, rfl⟩, rfl⟩, _, ?_, rfl, rfl⟩
    simp only [Store.frozen] at hencode
    rw [hencode, hvalid]
    rfl

theorem selects_batch (hs : Sealed st) (hidle : ∀ q ∈ st.queue, q.push = none)
    (hne : e.batch st maxBytes ≠ []) : Selects e st maxBytes (e.batch st maxBytes)
      (st.requestOf st.nextPush e.declaredModels (e.batch st maxBytes))
      (st.frozen ((e.batch st maxBytes).map (·.ordinal)) e.declaredModels) := by
  have hsub : (e.batch st maxBytes).Sublist st.queue := batch_sublist hidle
  have hlen : (e.batch st maxBytes).length ≤ pushMutations := by
    rw [Engine.batch, select_eq hidle]
    exact Select.pick_length (by decide)
  have hjoins : ∀ q ∈ e.batch st maxBytes,
      Joins e st maxBytes ((e.batch st maxBytes).filter (·.ordinal < q.ordinal)) q :=
    fun q hq => ((batch_at hs hidle (hsub.subset hq)).mp hq).2
  have hready : ∀ q ∈ st.queue, (∀ k ∈ q.mutation.prerequisites, k ∉ st.prerequisiteKeys) →
      q.mutation.prerequisites = [] := fun q hq h =>
    List.eq_nil_iff_forall_not_mem.mpr fun k hk => h k hk (List.mem_flatMap.mpr ⟨q, hq, hk⟩)
  refine ⟨hsub, hs.sorted.sublist (hsub.map _), ⟨List.length_pos_iff.mpr hne, hlen⟩, rfl, rfl,
    fun q hq => hready q (hsub.subset hq) (hjoins q hq).ready, fun q hq => (hjoins q hq).lifecycle,
    fun q hq => (hjoins q hq).sequence, ?_, fun q hq hout => ?_⟩
  · have hlast : e.batch st maxBytes = [] ∨ ∃ b x, e.batch st maxBytes = b ++ [x] ∧
        [] <+: b ∧ Joins e st maxBytes b x := by
      rw [Engine.batch, select_eq hidle]
      exact Select.pick_last
    obtain ⟨b, x, heq, -, hx⟩ := hlast.resolve_left hne
    rw [heq]
    rcases hx.fits with rfl | hfits
    · exact Or.inl rfl
    · exact Or.inr hfits
  · intro earlier
    have hnot := mt (batch_at hs hidle hq).mpr hout
    by_cases hfull : earlier.length = pushMutations
    · exact Or.inr (Or.inr (Or.inr (Or.inr hfull)))
    have hroom : earlier.length < pushMutations :=
      lt_of_le_of_ne ((List.length_filter_le ..).trans hlen) hfull
    by_contra hall
    simp only [not_or, not_exists, not_and, not_not, not_lt] at hall
    obtain ⟨hpre, hlife, hseq, hfits, -⟩ := hall
    refine hnot ⟨hroom, fun k hk => by simp [hpre] at hk, hlife, hseq, ?_⟩
    exact Classical.or_iff_not_imp_left.mpr hfits

/-- The oldest mutation of a queue without prerequisites waits for nothing. -/
theorem batch_ne_nil (hs : Sealed st) (hidle : ∀ q ∈ st.queue, q.push = none)
    (hqueue : st.queue ≠ []) (hpre : st.prerequisiteKeys = []) : e.batch st maxBytes ≠ [] := by
  obtain ⟨q, rest, heq⟩ := List.exists_cons_of_ne_nil hqueue
  have hin : q ∈ st.queue := heq ▸ List.mem_cons_self ..
  have holdest : ∀ d ∈ q.mutation.lifecycleDependencies ++ q.mutation.sequenceDependencies,
      d ∉ st.ordinals := by
    intro d hd hmem
    have hlt := hs.deps q hin d hd
    have hsorted := hs.sorted
    rw [Store.ordinals, heq, List.map_cons] at hmem
    rw [heq, List.map_cons] at hsorted
    rcases List.mem_cons.mp hmem with rfl | hmem
    · exact absurd hlt (lt_irrefl _)
    · exact absurd ((List.pairwise_cons.mp hsorted).1 d hmem) (by omega)
  rw [Engine.batch, select_eq hidle, heq]
  refine Select.pick_head ⟨fun k hk hmem => ?_, fun d hd => holdest d (List.mem_append_left _ hd),
    fun d hd hmem => absurd hmem (holdest d (List.mem_append_right _ hd)), Or.inl rfl⟩
  rw [hpre] at hmem
  cases hmem

/-- In every reachable state with nothing in flight and for every positive limit, what a freeze
    answers is a batch that can be sent, and the queue never waits for itself. The name of a client
    is made by the runtime and is not blank. -/
theorem freeze_selects {s : Host} (h : s.Reachable) (hnone : s.client.store.inFlight = .ok none)
    (hpos : 0 < maxBytes) :
    (∀ request st, s.engine.freeze s.client.store maxBytes = .ok (some request, st) →
      ∃ batch, Selects s.engine s.client.store maxBytes batch request st) ∧
    (blank s.client.store.clientId = false → s.client.store.queue ≠ [] →
      s.client.store.prerequisiteKeys = [] → ∃ request st,
        s.engine.freeze s.client.store maxBytes = .ok (some request, st)) := by
  have hs := sealed_reachable h
  have hp := paced_reachable h
  have hidle : ∀ q ∈ s.client.store.queue, q.push = none := by
    rcases (inFlight_eq hs.flight).mp hnone with ⟨hall, -⟩ | ⟨-, h0⟩
    · exact hall
    · cases h0
  have hnd : s.client.store.ordinals.Nodup := hs.sorted.imp fun h => ne_of_lt h
  refine ⟨fun request st hf => ?_, fun hid hqueue hpre => ?_⟩
  · obtain ⟨hne, -, -, rfl, rfl⟩ := (freeze_eq_ok hnone hidle hnd hpos).mp hf
    exact ⟨_, selects_batch hs hidle hne⟩
  · have hne : s.engine.batch s.client.store maxBytes ≠ [] := batch_ne_nil hs hidle hqueue hpre
    have hsel := selects_batch hs hidle hne
    -- an unsent mutation keeps the count of pushes under that of mutations
    have hunsent : 0 < s.client.store.queue.countP (·.push = none) := by
      obtain ⟨q, hq⟩ := List.exists_mem_of_ne_nil _ hqueue
      exact List.countP_pos_iff.mpr ⟨q, hq, by simpa using hidle q hq⟩
    have hroom := hp.room
    have hbound := hp.bound
    refine ⟨_, _, (freeze_eq_ok hnone hidle hnd hpos).mpr ⟨hne, by omega, ?_, rfl, rfl⟩⟩
    exact request_valid hs hp hid (by omega) hsel.queued hsel.count

namespace Sample

/-- A client with a created item and its move on the queue. -/
def waiting : Host :=
  ⟨loose, client loose [.enqueue { name := "put", operations := [create "a" "x"] },
    .enqueue { name := "move", operations := [move "a" "y"] }]⟩

end Sample

open Sample in
/-- The create is sent, over the limit as it is alone, and the move stays behind it. -/
theorem freeze_selects_waiting : ∃ request st batch,
    waiting.engine.freeze waiting.client.store 1 = .ok (some request, st) ∧
      Selects waiting.engine waiting.client.store 1 batch request st := by
  have hreach : waiting.Reachable := ⟨loose, "me", [.call (.enqueue
    { name := "put", operations := [create "a" "x"] }), .call (.enqueue
    { name := "move", operations := [move "a" "y"] })], ⟨trivial, trivial, trivial⟩, rfl⟩
  obtain ⟨hselects, hsends⟩ := freeze_selects hreach (by decide +kernel) Nat.one_pos
  obtain ⟨request, st, hf⟩ := hsends (by decide +kernel) (by decide +kernel) (by decide +kernel)
  obtain ⟨batch, hbatch⟩ := hselects request st hf
  exact ⟨request, st, batch, hf, hbatch⟩

end Freeze

end AheadSync
