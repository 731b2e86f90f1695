import AheadSync.Client.Isolation
import AheadSync.Client.Spine

/-! The push in flight is encoded again from its rows whenever it is sent. Nothing but its completion
    changes what it is encoded from: not what the host writes, what the server delivers, what is
    dropped, nor the schema the store is opened for. -/

namespace AheadSync

/-- Ordinals grow, and dependencies are older than what depends on them. -/
structure Aligned (st : Store) : Prop where
  sorted : (st.queue.map (·.ordinal)).Pairwise (· < ·)
  fresh : ∀ q ∈ st.queue, q.ordinal < st.nextOrdinal
  deps : ∀ q ∈ st.queue,
    ∀ d ∈ q.mutation.lifecycleDependencies ++ q.mutation.sequenceDependencies, d < q.ordinal

/-- What holds of the queue and the counters under any schema. -/
structure Sealed (st : Store) : Prop extends Aligned st where
  flight : Flight st

/-- What the request of a push is made of. -/
def Store.flying (st : Store) (push : ℕ) : String × Option Models × List WireMutation :=
  (st.clientId, st.pushModels, (batchOf st push).map (·.wire))

section Spine
variable {e : Engine} {st st' : Store} {q q' : Queued} {push : ℕ}

theorem mem_of_spine (h : st'.spine = st.spine) (hq : q' ∈ st'.queue) :
    ∃ q ∈ st.queue, q.spine = q'.spine := by
  have hqueue : st'.queue.map Queued.spine = st.queue.map Queued.spine := congrArg (·.queue) h
  exact List.mem_map.mp (hqueue ▸ List.mem_map_of_mem hq)

theorem ordinals_of_spine (h : st'.spine = st.spine) :
    st'.queue.map (·.ordinal) = st.queue.map (·.ordinal) := by
  have hqueue : st'.queue.map Queued.spine = st.queue.map Queued.spine := congrArg (·.queue) h
  have hmap := congrArg (List.map (·.ordinal)) hqueue
  rwa [List.map_map, List.map_map] at hmap

/-- A mutation of the spine keeps its place in the queue. -/
theorem placed_of_spine (h : st'.spine = st.spine) (hq : q' ∈ st'.queue) : ∃ q ∈ st.queue,
    q'.ordinal = q.ordinal ∧ q'.push = q.push ∧
    q'.mutation.lifecycleDependencies = q.mutation.lifecycleDependencies ∧
    q'.mutation.sequenceDependencies = q.mutation.sequenceDependencies := by
  obtain ⟨q, hq, heq⟩ := mem_of_spine h hq
  exact ⟨q, hq, congrArg (·.ordinal) heq.symm, congrArg (·.push) heq.symm,
    congrArg (·.mutation.lifecycleDependencies) heq.symm,
    congrArg (·.mutation.sequenceDependencies) heq.symm⟩

theorem aligned_of_spine (h : st'.spine = st.spine) (hs : Aligned st) : Aligned st' where
  sorted := ordinals_of_spine h ▸ hs.sorted
  fresh := by
    intro q' hq'
    obtain ⟨q, hq, hord, -⟩ := placed_of_spine h hq'
    rw [hord, show st'.nextOrdinal = st.nextOrdinal from congrArg (·.nextOrdinal) h]
    exact hs.fresh q hq
  deps := by
    intro q' hq'
    obtain ⟨q, hq, hord, -, hl, hseq⟩ := placed_of_spine h hq'
    rw [hord, hl, hseq]
    exact hs.deps q hq

theorem sealed_of_spine (h : st'.spine = st.spine) (hs : Sealed st) : Sealed st' := by
  refine ⟨aligned_of_spine h hs.toAligned, flight_mono hs.flight (fun q' hq' => ?_)
    (congrArg (·.nextPush) h) (congrArg (·.lastCompletedPush) h) fun hnone q hq => ?_⟩
  · obtain ⟨q, hq, hord, hpush, hl, -⟩ := placed_of_spine h hq'
    exact ⟨q, hq, hord, hpush, fun d hd => hl ▸ hd⟩
  · obtain ⟨q', hq', -, hpush, -⟩ := placed_of_spine h.symm hq
    rw [hpush]
    exact hnone q' hq'

/-- Mutations of one spine are sent as one. -/
theorem flying_of_spine (h : st'.spine = st.spine) : st'.flying push = st.flying push := by
  have hwire : ∀ s : Store, (batchOf s push).map (·.wire) =
      ((s.queue.map Queued.spine).filter (·.push = some push)).map (·.wire) := by
    intro s
    rw [List.filter_map, List.map_map]
    rfl
  have hqueue : st'.queue.map Queued.spine = st.queue.map Queued.spine := congrArg (·.queue) h
  rw [Store.flying, Store.flying, hwire, hwire, hqueue]
  exact Prod.ext (congrArg (·.clientId) h) (Prod.ext (congrArg (·.pushModels) h) rfl)

theorem mem_deleteMutations {ns : List ℕ} (hq : q' ∈ (st.deleteMutations ns).queue) :
    ∃ q ∈ st.queue, q.ordinal ∉ ns ∧ q' = q.forget ns := by
  obtain ⟨q, hmem, rfl⟩ := List.mem_map.mp hq
  exact ⟨q, List.mem_of_mem_filter hmem, of_decide_eq_true (List.mem_filter.mp hmem).2, rfl⟩

theorem aligned_delete (h : Aligned st) (ns : List ℕ) : Aligned (st.deleteMutations ns) where
  sorted := by
    rw [deleteMutations_queue, List.map_map]
    exact h.sorted.sublist (List.filter_sublist.map _)
  fresh := by
    intro q' hq'
    obtain ⟨q, hq, -, rfl⟩ := mem_deleteMutations hq'
    exact h.fresh q hq
  deps := by
    intro q' hq' d hd
    obtain ⟨q, hq, -, rfl⟩ := mem_deleteMutations hq'
    refine h.deps q hq d ((List.mem_append.mp hd).elim ?_ ?_)
    · exact fun h => List.mem_append_left _ (List.mem_of_mem_filter h)
    · exact fun h => List.mem_append_right _ (List.mem_of_mem_filter h)

/-- Deleting mutations keeps the counters right when it takes no sent one. -/
theorem sealed_delete (h : Sealed st) {ns : List ℕ}
    (hkeep : ∀ q ∈ st.queue, q.push.isSome → q.ordinal ∉ ns) : Sealed (st.deleteMutations ns) := by
  refine ⟨aligned_delete h.toAligned ns,
    flight_mono h.flight (fun q' hq' => ?_) rfl rfl fun hnone q hq => ?_⟩
  · obtain ⟨q, hq, -, rfl⟩ := mem_deleteMutations hq'
    exact ⟨q, hq, rfl, rfl, fun d hd => List.mem_of_mem_filter hd⟩
  · cases hp : q.push with
    | none => rfl
    | some p =>
      have hstays : q.forget ns ∈ (st.deleteMutations ns).queue :=
        List.mem_map_of_mem (List.mem_filter.mpr
          ⟨hq, decide_eq_true (hkeep q hq (by simp [hp]))⟩)
      rw [← hp]
      exact hnone (q.forget ns) hstays

theorem flying_delete {ns : List ℕ} (hkeep : ∀ q ∈ st.queue, q.push.isSome → q.ordinal ∉ ns) :
    (st.deleteMutations ns).flying push = st.flying push := by
  have hbatch : (batchOf (st.deleteMutations ns) push).map (·.wire) =
      (batchOf st push).map (·.wire) := by
    rw [batchOf, deleteMutations_queue, List.filter_map, List.map_map, List.filter_filter, batchOf]
    refine congrArg _ (List.filter_congr fun q hq => ?_)
    cases hp : q.push with
    | none => simp [Queued.forget, hp]
    | some p => simp [Queued.forget, hp, hkeep q hq (by simp [hp])]
  rw [Store.flying, hbatch]
  rfl

end Spine

section Calls
variable {e : Engine} {st st' : Store} {push : ℕ}

theorem spine_append (h : st'.spine = st.spine) (n : ℕ) (qs : List Queued) :
    ({ st' with nextOrdinal := n, queue := st'.queue ++ qs } : Store).spine =
      ({ st with nextOrdinal := n, queue := st.queue ++ qs } : Store).spine := by
  have hside : ∀ s : Store, ({ s with nextOrdinal := n, queue := s.queue ++ qs } : Store).spine =
      { s.spine with nextOrdinal := n, queue := s.spine.queue ++ qs.map Queued.spine } := fun s => by
    simp [Store.spine]
  rw [hside, hside, h]

/-- Enqueueing adds one unsent mutation that waits for queued ones, under the next ordinal. -/
theorem enqueue_spine {m : Mutation} {n : ℕ} (h : e.enqueue st m = .ok (n, st')) :
    ∃ q : Queued, q.ordinal = st.nextOrdinal ∧ q.push = none ∧
      (∀ d ∈ q.mutation.lifecycleDependencies ++ q.mutation.sequenceDependencies,
        d ∈ st.queue.map (·.ordinal)) ∧ st.nextOrdinal + 1 ≤ maxSafeInteger ∧
      st'.spine = ({ st with
        nextOrdinal := st.nextOrdinal + 1, queue := st.queue ++ [q] } : Store).spine := by
  simp only [Engine.enqueue, Except.bind_eq_ok, ensure_eq_ok, List.forM_eq_ok,
    Except.pure_eq_ok] at h
  obtain ⟨-, -, -, hdeps, ⟨mid, done, effects⟩, hfold, m', hderive, ⟨n', st2⟩, halloc, st3, hins,
    heq⟩ := h
  obtain ⟨-, rfl⟩ := Prod.mk.inj heq
  have hmid : mid.spine = st.spine :=
    List.foldlM_ok_induction (fun s : Store × List Operation × List Operation =>
      s.1.spine = st.spine) (fun s op t _ hs ht => ((within_spine e).performOp ht).trans hs) rfl hfold
  have hords := ordinals_of_spine hmid
  have hnext : mid.nextOrdinal = st.nextOrdinal := congrArg (·.nextOrdinal) hmid
  simp only [Store.allocateOrdinal, Store.bump, Except.bind_eq_ok, ensure_eq_ok,
    Except.pure_eq_ok] at halloc
  obtain ⟨⟨o, next⟩, ⟨-, hroom, hpair⟩, hst⟩ := halloc
  obtain ⟨rfl, rfl⟩ := Prod.mk.inj hpair
  obtain ⟨rfl, rfl⟩ := Prod.mk.inj hst
  simp only [Engine.insertMutation, Except.bind_eq_ok, Except.pure_eq_ok] at hins
  obtain ⟨operations, -, companion, -, effects', -, rfl⟩ := hins
  obtain ⟨prerequisites, lifecycle, sequence, rfl, hl, hs, -⟩ := derive_spec hderive
  have hgiven : ∀ d ∈ m.lifecycleDependencies ++ m.sequenceDependencies,
      d ∈ st.queue.map (·.ordinal) := by
    intro d hd
    obtain ⟨p, hp⟩ := Option.isSome_iff_exists.mp (hdeps d hd)
    exact List.mem_map.mpr ⟨p, List.mem_of_find?_eq_some hp, by simpa using List.find?_some hp⟩
  have hfound : ∀ d, (∃ q ∈ mid.queue, q.ordinal = d) → d ∈ st.queue.map (·.ordinal) :=
    fun d hd => hords ▸ List.mem_map.mpr hd
  refine ⟨{ ordinal := mid.nextOrdinal, mutation := _ }, hnext, rfl, fun d hd => ?_,
    hnext ▸ hroom, by rw [← hnext]; exact spine_append hmid _ _⟩
  rcases List.mem_append.mp hd with hd | hd
  · exact (hl d hd).elim (fun h => hgiven d (List.mem_append_left _ h)) (hfound d)
  · exact (hs d (List.mem_of_mem_filter hd)).elim (fun h => hgiven d (List.mem_append_right _ h))
      (hfound d)

theorem sealed_enqueue (h : Sealed st) {m : Mutation} {n : ℕ}
    (he : e.enqueue st m = .ok (n, st')) : Sealed st' := by
  obtain ⟨q, hord, hpush, hdeps, -, hspine⟩ := enqueue_spine he
  refine sealed_of_spine hspine ⟨⟨?_, fun p hp => ?_, fun p hp => ?_⟩, ?_⟩
  · rw [List.map_append]
    refine List.pairwise_append.mpr ⟨h.sorted, by simp, fun a ha b hb => ?_⟩
    obtain ⟨p, hp, rfl⟩ := List.mem_map.mp ha
    have hfresh := h.fresh p hp
    simp only [List.map_cons, List.map_nil, List.mem_singleton] at hb
    omega
  · rcases List.mem_append.mp hp with hp | hp
    · exact Nat.lt_succ_of_lt (h.fresh p hp)
    · rw [List.mem_singleton.mp hp, hord]
      exact Nat.lt_succ_self _
  · rcases List.mem_append.mp hp with hp | hp
    · exact h.deps p hp
    · rw [List.mem_singleton.mp hp, hord]
      intro d hd
      obtain ⟨x, hx, rfl⟩ := List.mem_map.mp (hdeps d hd)
      exact h.fresh x hx
  · have hcases : ∀ x ∈ st.queue ++ [q], x ∈ st.queue ∨ x = q := fun x hx =>
      (List.mem_append.mp hx).imp_right List.mem_singleton.mp
    refine ⟨fun x hx p hp => ?_, fun hnone => h.flight.idle fun x hx =>
      hnone x (List.mem_append_left _ hx), fun x hx hs d hd hmem => ?_⟩
    · rcases hcases x hx with hx | rfl
      · exact h.flight.sent x hx p hp
      · rw [hpush] at hp; cases hp
    · rcases hcases x hx with hold | rfl
      · obtain ⟨y, hy, rfl⟩ := List.mem_map.mp hmem
        rcases hcases y hy with hy | rfl
        · exact h.flight.free x hold hs _ hd (List.mem_map_of_mem hy)
        · -- a dependency is older than its mutation, the new ordinal is not
          have hlt := h.deps x hold _ (List.mem_append_left _ hd)
          have hfresh := h.fresh x hold
          omega
      · rw [hpush] at hs; cases hs

theorem flying_enqueue {m : Mutation} {n : ℕ} (he : e.enqueue st m = .ok (n, st')) :
    st'.flying push = st.flying push := by
  obtain ⟨q, -, hpush, -, -, hspine⟩ := enqueue_spine he
  rw [flying_of_spine hspine]
  simp [Store.flying, batchOf, hpush]

/-- Rejecting mutations takes the closure out of the queue and records why. -/
theorem markRejected_frame {rejections : List Rejection} {held : Held}
    (h : e.markRejected st rejections = .ok (held, st')) : ∃ inbox,
      st' = { st.deleteMutations (rejectedOf st rejections).keys with rejections := inbox } := by
  have hfold : ∀ (qs : List Queued) (f : Queued → RejectionRow) (st : Store), ∃ inbox,
      qs.foldl (fun st q => st.insertRejection q.ordinal (f q)) st =
        { st with rejections := inbox } := by
    intro qs f
    induction qs with
    | nil => exact fun st => ⟨st.rejections, rfl⟩
    | cons q qs ih =>
      intro st
      obtain ⟨inbox, h⟩ := ih (st.insertRejection q.ordinal (f q))
      exact ⟨inbox, h⟩
  simp only [Engine.markRejected, Except.bind_eq_ok, Except.pure_eq_ok, Prod.mk.injEq] at h
  obtain ⟨touched, -, -, rfl⟩ := h
  obtain ⟨inbox, heq⟩ := hfold _ _ st
  exact ⟨inbox, by rw [heq]; rfl⟩

theorem markRejected_spine {rejections : List Rejection} {held : Held}
    (h : e.markRejected st rejections = .ok (held, st')) :
    st'.spine = (st.deleteMutations (rejectedOf st rejections).keys).spine := by
  obtain ⟨inbox, rfl⟩ := markRejected_frame h
  rfl

/-- Dropping an unsent mutation takes no sent one with it. -/
theorem drop_spine (hs : Sealed st) {n : ℕ} (h : e.dropMutation st n = .ok st') : st' = st ∨
    ∃ ns, (∀ q ∈ st.queue, q.push.isSome → q.ordinal ∉ ns) ∧
      st'.spine = (st.deleteMutations ns).spine := by
  unfold Engine.dropMutation at h
  split at h
  · cases h; exact Or.inl rfl
  · rename_i q0 hq0
    split at h
    · cases h
    · rename_i hunsent
      simp only [Engine.removeRejected, Except.bind_eq_ok, Except.pure_eq_ok] at h
      obtain ⟨⟨held, st1⟩, hmark, ⟨reports, st2⟩, hreb, rfl⟩ := h
      exact Or.inr ⟨_, fun q hq hpush => dropped_unsent hs.sorted hs.flight hq0 hunsent hq hpush,
        ((within_spine e).rebuildHeld hreb).trans (markRejected_spine hmark)⟩

/-- Completing the push in flight leaves nothing in flight. -/
theorem sealed_complete (h : Sealed st) {receipt : PushReceipt} {report : ApplyReport}
    (hp : st.inFlight = .ok (some push)) (hc : e.complete st push receipt = .ok (report, st')) :
    Sealed st' ∧ st'.lastCompletedPush = push := by
  simp only [Engine.complete, Except.bind_eq_ok, Except.pure_eq_ok, Prod.mk.injEq] at hc
  obtain ⟨⟨covered, wireRows⟩, hcheck, touched, -, ⟨settled, affected⟩, hsettle, ⟨marked, st1⟩,
    hmark, ⟨reports, fin⟩, hreb, -, rfl⟩ := hc
  set mid := (e.stageAll settled affected receipt.records).1 with hmid
  have hspine : mid.spine = st.spine :=
    ((within_spine e).stageAll ..).trans ((within_spine e).settleCompanions hsettle)
  have hmids := sealed_of_spine hspine h
  obtain ⟨hrej, -⟩ := by simpa [Engine.checkReceipt] using hcheck
  have hfin := ((within_spine e).rebuildHeld hreb).trans (spine_delete (markRejected_spine hmark) _)
  have hsent : ∀ q ∈ st.queue, ∀ p, q.push = some p → p = push := by
    intro q hq p hp'
    rcases (inFlight_eq h.flight).mp hp with ⟨hnone, -⟩ | ⟨-, heq⟩
    · rw [hnone q hq] at hp'; cases hp'
    · rw [(h.flight.sent q hq p hp').1, Option.some.inj heq]
  have hidle : ∀ q ∈ fin.queue, q.push = none := by
    intro q' hq'
    obtain ⟨q1, hq1, hq1'⟩ := mem_of_spine hfin hq'
    obtain ⟨q2, hq2, hnacc, rfl⟩ := mem_deleteMutations hq1
    obtain ⟨q3, hq3, hnrej, rfl⟩ := mem_deleteMutations hq2
    obtain ⟨q, hq, hqs⟩ := mem_of_spine hspine hq3
    have hpush : q'.push = q.push := (congrArg (·.push) hq1').symm.trans (congrArg (·.push) hqs).symm
    have hord : q.ordinal = q3.ordinal := congrArg (·.ordinal) hqs
    rw [hpush]
    cases hqp : q.push with
    | none => rfl
    | some p =>
      exfalso
      obtain rfl := hsent q hq p hqp
      by_cases hr : q.ordinal ∈ receipt.rejections.map (·.ordinal)
      · refine hnrej (mem_rejected_keys.mpr ?_)
        refine (rejectedOf_sent hmids.sorted hmids.flight (fun x hx => ?_) hq3 ?_).mpr (hord ▸ hr)
        · obtain ⟨y, ⟨hy, -⟩, hyo⟩ := hrej x hx
          rw [ordinals_of_spine hspine, ← hyo]
          exact List.mem_map_of_mem hy
        · have hpush3 : q3.push = q.push := (congrArg (·.push) hqs).symm
          rw [hpush3, hqp]
          rfl
      · refine hnacc (List.mem_map.mpr ⟨q, List.mem_filter.mpr ⟨?_, by simpa using hr⟩, hord⟩)
        exact List.mem_filter.mpr ⟨hq, by simp [hqp]⟩
  have hfinal : Aligned fin := by
    refine aligned_of_spine hfin ?_
    exact aligned_delete (aligned_delete hmids.toAligned _) _
  have hnext : fin.nextPush = push + 1 := by
    rcases (inFlight_eq h.flight).mp hp with ⟨-, h0⟩ | ⟨⟨q0, hq0, hpush0⟩, heq⟩
    · cases h0
    · have hstep : fin.nextPush = st.nextPush :=
        (congrArg (·.nextPush) hfin).trans (congrArg (·.nextPush) hspine)
      rw [hstep, (h.flight.sent q0 hq0 _ hpush0).2, Option.some.inj heq]
  refine ⟨⟨⟨hfinal.sorted, hfinal.fresh, hfinal.deps⟩, fun q hq p hqp => ?_, fun _ => hnext,
    fun q hq hs => ?_⟩, rfl⟩
  · rw [hidle q hq] at hqp; cases hqp
  · rw [hidle q hq] at hs; cases hs

theorem sealed_freeze (h : Sealed st) {maxBytes : ℕ} {request : Option PushRequest}
    (hf : e.freeze st maxBytes = .ok (request, st')) : Sealed st' := by
  have hflight := flight_freeze h.sorted h.flight hf
  rcases freeze_spec hf with rfl | ⟨-, selected, -, -, -, rfl, -⟩
  · exact h
  · have hmap : (st.frozen (selected.map (·.ordinal)) e.declaredModels).queue =
        st.queue.map fun q => if q.ordinal ∈ selected.map (·.ordinal) then
          { q with push := some st.nextPush } else q := rfl
    have hmem : ∀ q' ∈ (st.frozen (selected.map (·.ordinal)) e.declaredModels).queue,
        ∃ q ∈ st.queue, q'.ordinal = q.ordinal ∧ q'.mutation = q.mutation := by
      intro q' hq'
      rw [hmap] at hq'
      obtain ⟨q, hq, rfl⟩ := List.mem_map.mp hq'
      exact ⟨q, hq, by split <;> rfl, by split <;> rfl⟩
    refine ⟨⟨?_, fun q' hq' => ?_, fun q' hq' => ?_⟩, hflight⟩
    · have hords : (st.frozen (selected.map (·.ordinal)) e.declaredModels).queue.map (·.ordinal) =
          st.queue.map (·.ordinal) := by
        rw [hmap, List.map_map]
        refine List.map_congr_left fun q _ => ?_
        simp only [Function.comp_apply]
        split <;> rfl
      rw [hords]
      exact h.sorted
    · obtain ⟨q, hq, hord, -⟩ := hmem q' hq'
      rw [hord]
      exact h.fresh q hq
    · obtain ⟨q, hq, hord, hmut⟩ := hmem q' hq'
      rw [hord, hmut]
      exact h.deps q hq

end Calls

section Host
variable {e : Engine} {c : Client} {s : Host} {push : ℕ}

/-- The queue stays sealed, and when a push is in flight and none is completed, what every push is
    made of stays. -/
structure Steady (st st' : Store) : Prop where
  safe : Sealed st'
  flying : (∃ q ∈ st.queue, q.push.isSome) → st'.lastCompletedPush = st.lastCompletedPush →
    ∀ push, st'.flying push = st.flying push

theorem steady_refl {st : Store} (h : Sealed st) : Steady st st := ⟨h, fun _ _ _ => rfl⟩

theorem steady_of_spine {st st' : Store} (h : Sealed st) (hs : st'.spine = st.spine) :
    Steady st st' :=
  ⟨sealed_of_spine hs h, fun _ _ _ => flying_of_spine hs⟩

/-- A call of the client is steady. -/
theorem steady_act (h : Sealed c.store) (a : ClientAction) :
    Steady c.store (c.act e a).store := by
  have hrefl := steady_refl h
  cases a with
  | enqueue m => exact commit_keeps hrefl fun _ _ hr =>
      ⟨sealed_enqueue h hr, fun _ _ _ => flying_enqueue hr⟩
  | freeze maxBytes =>
    refine commit_keeps hrefl fun _ _ hr => ⟨sealed_freeze h hr, fun hsent _ push => ?_⟩
    rcases freeze_spec hr with rfl | ⟨hnone, -⟩
    · rfl
    · -- a push is in flight, so none is allocated
      obtain ⟨q, hq, hpush⟩ := hsent
      rcases (inFlight_eq h.flight).mp hnone with ⟨hall, -⟩ | ⟨-, h0⟩
      · rw [hall q hq] at hpush; cases hpush
      · cases h0
  | acknowledge sequence receipt =>
    simp only [Client.act, Client.acknowledge]
    split
    · exact hrefl
    · refine commit_keeps hrefl fun _ _ hr => ?_
      obtain ⟨-, -, ⟨-, -, rfl⟩ | ⟨hlt, hp, hc⟩⟩ := acknowledge_eq_ok.mp hr
      · exact hrefl
      · obtain ⟨hs, hlast⟩ := sealed_complete h hp hc
        exact ⟨hs, fun _ heq => absurd (hlast.symm.trans heq) (by omega)⟩
  | applyPage page =>
    rcases applyPage_store e c page with heq | ⟨report, ha⟩
    · simp only [Client.act, heq]; exact hrefl
    · exact steady_of_spine h ((within_spine e).applyCurrentPage ha)
  | receive page request =>
    rcases receive_store e c page request with heq | ⟨report, ha⟩
    · simp only [Client.act, heq]; exact hrefl
    · exact steady_of_spine h ((within_spine e).applyCurrentPage ha)
  | drop ordinal =>
    refine commit_keeps hrefl fun _ _ hr => ?_
    obtain ⟨st1, hd, heq⟩ := Except.map_eq_ok.mp hr
    obtain ⟨-, rfl⟩ := Prod.mk.inj heq
    rcases drop_spine h hd with rfl | ⟨ns, hkeep, hspine⟩
    · exact hrefl
    · exact ⟨sealed_of_spine hspine (sealed_delete h hkeep), fun _ _ _ =>
        (flying_of_spine hspine).trans (flying_delete hkeep)⟩
  | setChannels changes =>
    obtain ⟨subscriptions, hs⟩ := setChannels_frame changes (c.store, [])
    simp only [Client.act, Client.setChannels, hs]
    exact steady_of_spine h rfl
  | pull =>
    simp only [Client.act, Client.downlinkRequest]
    split <;> exact hrefl
  | resolve key => exact steady_of_spine h spine_resolvePrerequisite
  | restart => exact hrefl

/-- A transaction of the host is steady. -/
theorem steady_transaction (h : Sealed c.store) (body : List TransactionStep) (commits : Bool) :
    Steady c.store (c.transaction e body commits).store := by
  have hstep : ∀ (acc : Store × List String) (t : TransactionStep), Sealed acc.1 →
      Sealed (e.transactionStep acc t).1 ∧
        ∀ push, (e.transactionStep acc t).1.flying push = acc.1.flying push := by
    intro acc t hs
    cases t with
    | enqueue m =>
      simp only [Engine.transactionStep]
      split
      · rename_i he
        exact ⟨sealed_enqueue hs he, fun _ => flying_enqueue he⟩
      · exact ⟨hs, fun _ => rfl⟩
    | direct op =>
      simp only [Engine.transactionStep]
      split
      · rename_i hd
        exact ⟨sealed_of_spine ((within_spine e).direct hd) hs, fun _ => flying_of_spine ((within_spine e).direct hd)⟩
      · exact ⟨hs, fun _ => rfl⟩
    | setChannel channel subscribed =>
      exact ⟨sealed_of_spine (within_spine e).setChannel hs, fun _ => flying_of_spine (within_spine e).setChannel⟩
  have hbody : Sealed (Machine.run e.transactionStep (c.store, []) body).1 ∧
      ∀ push, (Machine.run e.transactionStep (c.store, []) body).1.flying push =
        c.store.flying push :=
    Machine.run_invariant
      (P := fun acc => Sealed acc.1 ∧ ∀ push, acc.1.flying push = c.store.flying push)
      (fun acc t hacc => ⟨(hstep acc t hacc.1).1, fun push =>
        ((hstep acc t hacc.1).2 push).trans (hacc.2 push)⟩) ⟨h, fun _ => rfl⟩
  unfold Client.transaction
  cases commits with
  | true => exact ⟨hbody.1, fun _ _ => hbody.2⟩
  | false => exact steady_refl h

theorem steady_step (h : Sealed s.client.store) (call : HostCall) :
    Steady s.client.store (s.step call).client.store := by
  cases call with
  | call a => exact steady_act h a
  | transaction body commits => exact steady_transaction h body commits
  | readiness key value =>
    cases value with
    | ready => exact steady_of_spine h spine_resolvePrerequisite
    | failed => exact steady_refl h
    | pending => exact steady_refl h
  | dismissRejection ordinal => exact steady_of_spine h rfl
  | reopen e' =>
    simp only [Host.step, Client.reopen]
    split
    · rename_i hr
      exact steady_of_spine h (spine_reconcile hr)
    · exact steady_refl h

theorem sealed_opened (clientId : String) : Sealed (Client.opened clientId).store :=
  ⟨⟨by simp [Client.opened], by simp [Client.opened], by simp [Client.opened]⟩,
    flight_opened clientId⟩

/-- The bytes of a request. -/
def Engine.bytes (e : Engine) (request : PushRequest) : String :=
  canonicalJson e.codecs request.toValue

theorem encodePush_congr {st st' : Store} (h : st'.flying push = st.flying push) :
    st'.encodePush push = st.encodePush push := by
  have hrequest : ∀ (s : Store) (models : Models),
      s.requestOf push models (s.queue.filter (·.push = some push)) =
        ⟨(s.flying push).1, push, models, (s.flying push).2.2⟩ := fun _ _ => rfl
  have hmodels : st'.pushModels = st.pushModels := congrArg (·.2.1) h
  simp only [Store.encodePush, hrequest, h, hmodels]

/-- What a freeze answers is the encoding of a push with mutations. -/
theorem freeze_some {st st' : Store} {maxBytes : ℕ} {request : PushRequest}
    (h : e.freeze st maxBytes = .ok (some request, st')) :
    ∃ push, st'.encodePush push = .ok request ∧ ∃ q ∈ st'.queue, q.push = some push := by
  have hencoded : ∃ push, st'.encodePush push = .ok request := by
    unfold Engine.freeze at h
    split at h
    · cases h
    · simp only [Except.bind_eq_ok] at h
      obtain ⟨flight, -, h⟩ := h
      split at h
      · simp only [Except.bind_eq_ok, Except.pure_eq_ok, Prod.mk.injEq] at h
        obtain ⟨r, hr, heq, rfl⟩ := h
        exact ⟨_, Option.some.inj heq ▸ hr⟩
      · split at h
        · cases h
        · simp only [Except.bind_eq_ok, Except.pure_eq_ok, Prod.mk.injEq] at h
          obtain ⟨⟨push, st1⟩, -, r, hr, heq, rfl⟩ := h
          exact ⟨_, Option.some.inj heq ▸ hr⟩
  obtain ⟨push, hpush⟩ := hencoded
  refine ⟨push, hpush, ?_⟩
  simp only [Store.encodePush, Except.bind_eq_ok, Except.pure_eq_ok, required_eq_ok] at hpush
  obtain ⟨models, -, _, hvalid, -⟩ := hpush
  simp only [PushRequest.validate, Except.bind_eq_ok, ensure_eq_ok] at hvalid
  obtain ⟨_, -, _, -, _, -, _, hbatch, -⟩ := hvalid
  have hne : st'.queue.filter (·.push = some push) ≠ [] := fun hnil => hbatch.1 (by
    rw [Store.requestOf, hnil]; rfl)
  obtain ⟨q, hq⟩ := List.exists_mem_of_ne_nil _ hne
  exact ⟨q, List.mem_of_mem_filter hq, of_decide_eq_true (List.mem_filter.mp hq).2⟩

/-- Freezing while a push is in flight encodes it again and changes nothing. -/
theorem freeze_inFlight {st : Store} (h : Flight st) {maxBytes : ℕ} {request : PushRequest}
    (hm : 0 < maxBytes) (hq : ∃ q ∈ st.queue, q.push = some push)
    (he : st.encodePush push = .ok request) : e.freeze st maxBytes = .ok (some request, st) := by
  have hp : st.inFlight = .ok (some push) := by
    obtain ⟨q, hq, hpush⟩ := hq
    obtain rfl := (h.sent q hq push hpush).1
    exact (inFlight_eq h).mpr (Or.inr ⟨⟨q, hq, hpush⟩, rfl⟩)
  rw [Engine.freeze, if_neg (by omega), hp, Except.ok_bind]
  simp only [he, Except.ok_bind]
  rfl

theorem sealed_reachable (h : s.Reachable) : Sealed s.client.store := by
  obtain ⟨e, clientId, calls, -, rfl⟩ := h
  exact Machine.run_invariant (P := fun s : Host => Sealed s.client.store)
    (fun _ call hs => (steady_step hs call).safe) (sealed_opened clientId)

/-- The build that prints the bytes stays. -/
theorem step_codecs {call : HostCall} (h : s.Fits call) :
    (s.step call).engine.codecs = s.engine.codecs := by
  cases call with
  | reopen e' =>
    simp only [Host.step, Client.reopen]
    split
    · exact h.1
    · rfl
  | _ => rfl

/-- In every reachable state the request a freeze answers is what every later freeze with a positive
    limit answers until the push is completed, with the same bytes and for the same mutations. -/
theorem frozen_run {s : Host} (h : s.Reachable) {maxBytes : ℕ} {request : PushRequest} {st : Store}
    (hf : s.engine.freeze s.client.store maxBytes = .ok (some request, st)) {later : List HostCall}
    (hlater : Machine.Along Host.step Host.Spares (s.committed st) later) {limit : ℕ}
    (hlimit : 0 < limit) :
    let s' := Machine.run Host.step (s.committed st) later
    s'.engine.freeze s'.client.store limit = .ok (some request, s'.client.store) ∧
      s'.engine.bytes request = s.engine.bytes request ∧
      (batchOf s'.client.store request.batchSequence).map (·.wire) =
        (batchOf st request.batchSequence).map (·.wire) := by
  obtain ⟨push, hencode, q, hq, hpush⟩ := freeze_some hf
  have hsequence : request.batchSequence = push := by
    simp only [Store.encodePush, Except.bind_eq_ok, Except.pure_eq_ok] at hencode
    obtain ⟨_, -, _, -, rfl⟩ := hencode
    rfl
  have hsent : ∀ {s : Store}, (s.flying push).2.2 = (st.flying push).2.2 →
      ∃ q ∈ s.queue, q.push = some push := by
    intro s heq
    have hmem : q.wire ∈ (s.flying push).2.2 :=
      heq ▸ List.mem_map_of_mem (List.mem_filter.mpr ⟨hq, decide_eq_true hpush⟩)
    obtain ⟨x, hx, -⟩ := List.mem_map.mp hmem
    exact ⟨x, mem_batchOf.mp hx⟩
  have hkeep : ∀ (s' : Host) (call : HostCall), (Sealed s'.client.store ∧
      s'.client.store.flying push = st.flying push ∧ s'.engine.codecs = s.engine.codecs) →
      s'.Spares call → Sealed (s'.step call).client.store ∧
        (s'.step call).client.store.flying push = st.flying push ∧
        (s'.step call).engine.codecs = s.engine.codecs := by
    rintro s' call ⟨hseal, hflying, hcodecs⟩ ⟨hfits, hlast⟩
    have hsteady := steady_step hseal call
    obtain ⟨x, hx, hxp⟩ := hsent (congrArg (·.2.2) hflying)
    exact ⟨hsteady.safe, (hsteady.flying ⟨x, hx, by simp [hxp]⟩ hlast push).trans hflying,
      (step_codecs hfits).trans hcodecs⟩
  obtain ⟨hseal, hflying, hcodecs⟩ := Machine.run_keeps hkeep
    (show Sealed (s.committed st).client.store ∧ _ from
      ⟨sealed_freeze (sealed_reachable h) hf, rfl, rfl⟩) hlater
  refine ⟨?_, by rw [Engine.bytes, hcodecs, Engine.bytes], ?_⟩
  · exact freeze_inFlight hseal.flight hlimit (hsent (congrArg (·.2.2) hflying))
      ((encodePush_congr hflying).trans hencode)
  · rw [hsequence]
    exact congrArg (·.2.2) hflying

end Host

section Sample
open Sample

/-- The sample schema with a note on every item. -/
def Sample.noted : Engine where
  codecs := codecs
  schema := { schema "none" [] with
    models := (schema "none" []).models.map fun m => if m.name = "Item" then
      { m with fields := m.fields ++ [⟨"note", .scalar .string, true, none⟩] } else m }
  valid := by decide +kernel

/-- A client with the push of one created item in flight. -/
def Sample.sent : Host :=
  ⟨loose, client loose [.enqueue { name := "put", operations := [create "a" "x"] }, .freeze 1000]⟩

/-- A direct write, a delivery, another mutation and its drop, and a schema with one more field. -/
def Sample.disturbing : List HostCall :=
  [.transaction [.direct (move "a" "z"), .setChannel "c" true] true,
    .call (.applyPage (page "c" 0 1 [record "a" "w" 1])),
    .call (.enqueue { name := "move", operations := [move "a" "y"] }), .call (.drop 2),
    .reopen noted]

theorem frozen_run_loose : ∃ request,
    sent.engine.freeze sent.client.store 1 = .ok (some request, sent.client.store) ∧
    (Machine.run Host.step sent disturbing).engine.freeze
      (Machine.run Host.step sent disturbing).client.store 1 =
        .ok (some request, (Machine.run Host.step sent disturbing).client.store) := by
  have hreach : sent.Reachable := ⟨loose, "me", [.call (.enqueue
    { name := "put", operations := [create "a" "x"] }), .call (.freeze 1000)],
    ⟨trivial, trivial, trivial⟩, rfl⟩
  have hencode : sent.client.store.encodePush 1 = .ok ⟨"me", 1, loose.declaredModels,
      [⟨1, "put", 1, [create "a" "x"]⟩]⟩ := Except.eq_ok_of_toOption (by decide +kernel)
  have hf := freeze_inFlight (e := loose) (sealed_reachable hreach).flight Nat.one_pos
    (by decide +kernel) hencode
  have hadditive : Additive loose.schema noted.schema := ⟨by decide +kernel, by decide +kernel⟩
  have hlater : Machine.Along Host.step Host.Spares (sent.committed sent.client.store) disturbing :=
    ⟨⟨trivial, by decide +kernel⟩, ⟨trivial, by decide +kernel⟩, ⟨trivial, by decide +kernel⟩,
      ⟨trivial, by decide +kernel⟩, ⟨⟨rfl, hadditive⟩, by decide +kernel⟩, trivial⟩
  exact ⟨_, hf, (frozen_run hreach hf hlater Nat.one_pos).1⟩

end Sample

end AheadSync
