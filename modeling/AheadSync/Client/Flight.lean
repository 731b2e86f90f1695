import AheadSync.Client.Tidy

/-! The push counters of a client. At most one push is in flight, it is the one after the last
    completed, and the next is the one after that; a sent mutation waits for nothing in the queue, so
    that dropping or rejecting another takes none that was sent with it. -/

namespace AheadSync

/-- The counters and the queue agree on the push in flight. -/
structure Flight (st : Store) : Prop where
  sent : ∀ q ∈ st.queue, ∀ p, q.push = some p →
    p = st.lastCompletedPush + 1 ∧ st.nextPush = st.lastCompletedPush + 2
  idle : (∀ q ∈ st.queue, q.push = none) → st.nextPush = st.lastCompletedPush + 1
  free : ∀ q ∈ st.queue, q.push.isSome → ∀ d ∈ q.mutation.lifecycleDependencies,
    d ∉ st.queue.map (·.ordinal)

section Flight
variable {e : Engine} {st st' : Store} {q : Queued}

/-- Removing mutations, shrinking dependencies and growing effects keeps the counters right as long
    as it does not take the last mutation in flight. -/
theorem flight_mono (h : Flight st) (hq : ∀ q' ∈ st'.queue, ∃ q ∈ st.queue,
      q'.ordinal = q.ordinal ∧ q'.push = q.push ∧
      ∀ d ∈ q'.mutation.lifecycleDependencies, d ∈ q.mutation.lifecycleDependencies)
    (hn : st'.nextPush = st.nextPush) (hl : st'.lastCompletedPush = st.lastCompletedPush)
    (hidle : (∀ q' ∈ st'.queue, q'.push = none) → ∀ q ∈ st.queue, q.push = none) : Flight st' where
  sent := by
    intro q' hq' p hp
    obtain ⟨q, hq, -, hpush, -⟩ := hq q' hq'
    rw [hn, hl]
    exact h.sent q hq p (hpush ▸ hp)
  idle := fun hnone => by rw [hn, hl]; exact h.idle (hidle hnone)
  free := by
    intro q' hq' hsome d hd hmem
    obtain ⟨q, hq0, -, hpush, hdeps⟩ := hq q' hq'
    obtain ⟨x', hx', rfl⟩ := List.mem_map.mp hmem
    obtain ⟨x, hx, hord, -, -⟩ := hq x' hx'
    exact h.free q hq0 (hpush ▸ hsome) _ (hdeps _ hd) (hord ▸ List.mem_map_of_mem hx)

/-- Growing the queue's effects keeps the counters right. -/
theorem flight_extends (h : Flight st) (hx : Extends st st') : Flight st' := by
  obtain ⟨m, b, qs, hf⟩ := hx.frame
  refine flight_mono h (fun q' hq' => ?_) (by rw [hf]) (by rw [hf]) fun hnone q hq => ?_
  · obtain ⟨q, hq, hg⟩ := List.forall₂_mem hx.queue hq'
    obtain ⟨extra, hmut⟩ := hg.mutation
    exact ⟨q, hq, hg.ordinal, hg.push, by rw [hmut]; exact fun d hd => hd⟩
  · obtain ⟨q', hq', hg⟩ := List.forall₂_mem_left hx.queue hq
    rw [← hg.push]
    exact hnone q' hq'

theorem flight_of_eq (h : Flight st) (hq : st'.queue = st.queue) (hn : st'.nextPush = st.nextPush)
    (hl : st'.lastCompletedPush = st.lastCompletedPush) : Flight st' :=
  flight_mono h (fun q' hq' => ⟨q', hq ▸ hq', rfl, rfl, fun _ hd => hd⟩) hn hl
    fun hnone q hmem => hnone q (hq ▸ hmem)

/-- The push in flight is the one some queued mutation was assigned. -/
theorem inFlight_eq (h : Flight st) {o : Option ℕ} : st.inFlight = .ok o ↔
    ((∀ q ∈ st.queue, q.push = none) ∧ o = none) ∨
      (∃ q ∈ st.queue, q.push = some (st.lastCompletedPush + 1)) ∧
        o = some (st.lastCompletedPush + 1) := by
  have hmem : ∀ p ∈ st.queue.filterMap (·.push), p = st.lastCompletedPush + 1 := by
    intro p hp
    obtain ⟨q, hq, hpush⟩ := List.mem_filterMap.mp hp
    exact (h.sent q hq p hpush).1
  by_cases hsent : ∃ q ∈ st.queue, q.push = some (st.lastCompletedPush + 1)
  · have hdedup : (st.queue.filterMap (·.push)).dedup = [st.lastCompletedPush + 1] := by
      obtain ⟨q, hq, hpush⟩ := hsent
      have hin : st.lastCompletedPush + 1 ∈ (st.queue.filterMap (·.push)).dedup :=
        List.mem_dedup.mpr (List.mem_filterMap.mpr ⟨q, hq, hpush⟩)
      have hone : (st.queue.filterMap (·.push)).dedup =
          List.replicate (st.queue.filterMap (·.push)).dedup.length (st.lastCompletedPush + 1) :=
        List.eq_replicate_iff.mpr ⟨rfl, fun p hp => hmem p (List.mem_dedup.mp hp)⟩
      have hlen : (st.queue.filterMap (·.push)).dedup.length ≤ 1 := by
        have := List.nodup_dedup (st.queue.filterMap (·.push))
        rw [hone] at this
        exact List.nodup_replicate.mp this
      have hpos := List.length_pos_of_mem hin
      rw [hone, show (st.queue.filterMap (·.push)).dedup.length = 1 by omega]
      rfl
    have hnot : ¬∀ q ∈ st.queue, q.push = none := by
      obtain ⟨q, hq, hpush⟩ := hsent
      exact fun hall => by simp [hall q hq] at hpush
    simp only [Store.inFlight, hdedup, List.length_singleton, lt_irrefl, ↓reduceIte,
      List.head?_cons, Except.ok.injEq, hsent, hnot, true_and, false_and, false_or]
    exact eq_comm
  · have hall : ∀ q ∈ st.queue, q.push = none := by
      intro q hq
      cases hp : q.push with
      | none => rfl
      | some p => exact absurd ⟨q, hq, by rw [hp, (h.sent q hq p hp).1]⟩ hsent
    have hnil : st.queue.filterMap (·.push) = [] :=
      List.filterMap_eq_nil_iff.mpr hall
    simp only [Store.inFlight, hnil, List.dedup_nil, List.length_nil, Nat.not_lt_zero, ↓reduceIte,
      List.head?_nil, Except.ok.injEq, hsent, false_and, or_false]
    exact ⟨fun heq => ⟨hall, heq.symm⟩, fun hh => hh.2.symm⟩

end Flight

section Reject
variable {e : Engine} {st st' : Store} {queue : List Queued} {r : SortedMap ℕ String} {q : Queued}

/-- What holds of the rejected ordinals and passes to lifecycle dependents holds of the closure. -/
theorem closeRejected_induction {P : ℕ → Prop}
    (step : ∀ q ∈ queue, ∀ d ∈ q.mutation.lifecycleDependencies, P d → P q.ordinal) :
    ∀ {n : ℕ} {r : SortedMap ℕ String}, (∀ o, (r.lookup o).isSome → P o) →
      ∀ o, ((closeRejected queue n r).lookup o).isSome → P o
  | 0, _, base, o, h => base o h
  | n + 1, r, base, o, h => by
    unfold closeRejected at h
    simp only at h
    split at h
    · exact base o h
    · refine closeRejected_induction step (fun o ho => ?_) o h
      have hfold : ∀ (qs : List Queued) (r : SortedMap ℕ String), (∀ o, (r.lookup o).isSome → P o) →
          (∀ q ∈ qs, P q.ordinal) → ∀ o, ((qs.foldl (fun acc q =>
            acc.insert q.ordinal "dependency.rejected") r).lookup o).isSome → P o := by
        intro qs
        induction qs with
        | nil => exact fun r hr _ => hr
        | cons q qs ih =>
          intro r hr hqs
          refine ih _ (fun o ho => ?_) fun q hq => hqs q (List.mem_cons_of_mem _ hq)
          rw [SortedMap.lookup_insert] at ho
          split at ho
          · rename_i heq; exact heq ▸ hqs q (List.mem_cons_self ..)
          · exact hr o ho
      refine hfold _ r base (fun q hq => ?_) o ho
      simp only [List.mem_filter, Bool.decide_and, Bool.and_eq_true, decide_eq_true_eq,
        List.any_eq_true] at hq
      obtain ⟨hq, -, d, hd, hsome⟩ := hq
      exact step q hq d hd (base d hsome)

/-- The closure keeps what was rejected. -/
theorem closeRejected_keeps : ∀ {n : ℕ} {r : SortedMap ℕ String} {o : ℕ}, (r.lookup o).isSome →
    (closeRejected queue n r).lookup o = r.lookup o
  | 0, _, _, _ => rfl
  | n + 1, r, o, h => by
    unfold closeRejected
    simp only
    split
    · rfl
    · have hfold : ∀ (qs : List Queued) (acc : SortedMap ℕ String),
          (∀ q ∈ qs, q.ordinal ≠ o) → (qs.foldl (fun acc q =>
            acc.insert q.ordinal "dependency.rejected") acc).lookup o = acc.lookup o := by
        intro qs
        induction qs with
        | nil => exact fun _ _ => rfl
        | cons q qs ih =>
          intro acc hqs
          rw [List.foldl_cons, ih _ fun q hq => hqs q (List.mem_cons_of_mem _ hq),
            SortedMap.lookup_insert_ne _ _ (hqs q (List.mem_cons_self ..)).symm]
      have hsame := hfold (queue.filter fun q => (r.lookup q.ordinal).isNone ∧
          q.mutation.lifecycleDependencies.any fun d => (r.lookup d).isSome) r fun q hq heq => by
        simp only [List.mem_filter, Bool.decide_and, Bool.and_eq_true, decide_eq_true_eq] at hq
        rw [heq, Option.isNone_iff_eq_none] at hq
        rw [hq.2.1] at h
        cases h
      rw [closeRejected_keeps (by rw [hsame]; exact h), hsame]

/-- Rejecting queued mutations takes a sent one only when it is named. -/
theorem rejectedOf_sent (hsorted : (st.queue.map (·.ordinal)).Pairwise (· < ·)) (h : Flight st)
    {rejections : List Rejection}
    (hr : ∀ x ∈ rejections, x.ordinal ∈ st.queue.map (·.ordinal)) (hq : q ∈ st.queue)
    (hs : q.push.isSome) : ((rejectedOf st rejections).lookup q.ordinal).isSome ↔
      q.ordinal ∈ rejections.map (·.ordinal) := by
  have hbase : ∀ o, ((SortedMap.ofList (rejections.map fun r => (r.ordinal, r.code))).lookup
      o).isSome ↔ o ∈ rejections.map (·.ordinal) := by
    intro o
    rw [SortedMap.lookup_ofList_isSome, List.map_map]
    rfl
  constructor
  · intro hsome
    have hP := @closeRejected_induction st.queue
      (fun o => o ∈ st.queue.map (·.ordinal) ∧ ∀ x ∈ st.queue, x.ordinal = o →
        x.push.isSome → o ∈ rejections.map (·.ordinal)) ?_ _ _ (fun o ho => ?_) q.ordinal hsome
    · exact hP.2 q hq rfl hs
    · rintro y hy d hd ⟨hdq, -⟩
      refine ⟨List.mem_map_of_mem hy, fun x hx heq hxs => ?_⟩
      obtain rfl : x = y :=
        List.inj_on_of_nodup_map (hsorted.imp fun h => ne_of_lt h) hx hy heq
      exact absurd hdq (h.free x hx hxs d hd)
    · have hmem := (hbase o).mp ho
      obtain ⟨x, hx, rfl⟩ := List.mem_map.mp hmem
      exact ⟨hr x hx, fun _ _ _ _ => hmem⟩
  · intro hmem
    rw [rejectedOf, closeRejected_keeps ((hbase _).mpr hmem)]
    exact (hbase _).mpr hmem

/-- Dropping an unsent mutation takes no sent one with it. -/
theorem dropped_unsent (hsorted : (st.queue.map (·.ordinal)).Pairwise (· < ·)) (h : Flight st)
    {n : ℕ} {q0 : Queued} (hq0 : st.queuedOne n = some q0) (hunsent : ¬q0.push.isSome)
    (hq : q ∈ st.queue) (hs : q.push.isSome) : q.ordinal ∉ (rejectedOf st [⟨n, "dropped"⟩]).keys := by
  have hin : q0 ∈ st.queue := List.mem_of_find?_eq_some hq0
  have hord : q0.ordinal = n := by simpa using List.find?_some hq0
  intro hmem
  have hqn := (rejectedOf_sent hsorted h (fun x hx => ?_) hq hs).mp (mem_rejected_keys.mp hmem)
  · have hqn : q.ordinal = n := by simpa using hqn
    obtain rfl : q = q0 := List.inj_on_of_nodup_map
      (hsorted.imp fun h => ne_of_lt h) hq hin (hqn.trans hord.symm)
    exact hunsent hs
  · rw [List.mem_singleton.mp hx, ← hord]
    exact List.mem_map_of_mem hin

theorem mem_relieved {rejections : List Rejection} {ns : List ℕ} {q' : Queued} :
    q' ∈ (st.relieved rejections ns).queue ↔ ∃ q ∈ st.queue,
      q.ordinal ∉ (rejectedOf st rejections).keys ∧ q.ordinal ∉ ns ∧
      q' = (q.forget (rejectedOf st rejections).keys).forget ns := by
  simp only [Store.relieved, deleteMutations_queue, List.mem_map, List.mem_filter]
  constructor
  · rintro ⟨_, ⟨⟨q, ⟨hq, h1⟩, rfl⟩, h2⟩, rfl⟩
    exact ⟨q, hq, by simpa using h1, of_decide_eq_true h2, rfl⟩
  · rintro ⟨q, hq, h1, h2, rfl⟩
    exact ⟨_, ⟨⟨q, ⟨hq, by simpa using h1⟩, rfl⟩, decide_eq_true h2⟩, rfl⟩

end Reject

section Act
variable {e : Engine} {st st' : Store} {q : Queued} {push : ℕ} {receipt : PushReceipt}

/-- Completing a push takes every mutation in flight off the queue. -/
theorem completes_idle (hwf : Wf e st) (h : Flight st) {covered wireRows : Held} {mid : Store}
    {affected : Held} {reports : List Report} {fin : Store} (hp : push = st.lastCompletedPush + 1)
    (hc : Completes e st push receipt covered wireRows mid affected reports fin) :
    ∀ q ∈ fin.queue, q.push = none := by
  have hset := settles_of_completes hwf hc.settled
  have hst := stages_all receipt.records affected hset.wf
  obtain ⟨b, hb⟩ := hset.frame
  have hqueue : (e.stageAll mid affected receipt.records).1.queue = st.queue := by rw [hst.queue, hb]
  have hfl : Flight (e.stageAll mid affected receipt.records).1 := by
    obtain ⟨m, b', s, hs⟩ := hst.frame
    exact flight_of_eq h hqueue (by rw [hs, hb]) (by rw [hs, hb])
  obtain ⟨hrej, -⟩ := (checkReceipt_eq_ok hwf).mp hc.checked
  have hx := (wf_rebuildHeld (wf_relieved hst.wf)
    (fun k hk => completes_named hwf receipt hset hk) hc.rebuilt).2
  intro q' hq'
  obtain ⟨q1, hq1, hg⟩ := List.forall₂_mem hx.queue hq'
  obtain ⟨q, hq, hnrej, hnacc, rfl⟩ := mem_relieved.mp hq1
  rw [hqueue] at hq
  rw [hg.push]
  change q.push = none
  cases hpush : q.push with
  | none => rfl
  | some p =>
    exfalso
    have hbatch : q ∈ batchOf st push :=
      mem_batchOf.mpr ⟨hq, by rw [hpush, (h.sent q hq p hpush).1, hp]⟩
    by_cases hr : q.ordinal ∈ receipt.rejections.map (·.ordinal)
    · refine hnrej (mem_rejected_keys.mpr ?_)
      refine (rejectedOf_sent hst.wf.sorted hfl (fun x hxr => ?_) (hqueue ▸ hq) (by simp [hpush])).mpr hr
      obtain ⟨y, hy, hyo⟩ := List.mem_map.mp (hrej x hxr)
      exact List.mem_map.mpr ⟨y, hqueue ▸ (mem_batchOf.mp hy).1, hyo⟩
    · exact hnacc (List.mem_map_of_mem (List.mem_filter.mpr ⟨hbatch, by simpa using hr⟩))

theorem flight_complete (hwf : Wf e st) (h : Flight st) {report : ApplyReport}
    (hp : st.inFlight = .ok (some push)) (hc : e.complete st push receipt = .ok (report, st')) :
    Flight st' := by
  obtain ⟨covered, wireRows, mid, affected, reports, fin, hcomp, -, rfl⟩ :=
    (complete_eq_ok hwf).mp hc
  rcases (inFlight_eq h).mp hp with ⟨-, h0⟩ | ⟨⟨q0, hq0, hpush⟩, heq⟩
  · cases h0
  obtain rfl := Option.some.inj heq
  have hidle := completes_idle hwf h rfl hcomp
  have hset := settles_of_completes hwf hcomp.settled
  have hst := stages_all receipt.records affected hset.wf
  obtain ⟨b, hb⟩ := hset.frame
  obtain ⟨m, b', s, hs⟩ := hst.frame
  obtain ⟨m1, b1, q1, hf⟩ := (wf_rebuildHeld (wf_relieved hst.wf)
    (fun k hk => completes_named hwf receipt hset hk) hcomp.rebuilt).2.frame
  have hnext : fin.nextPush = st.nextPush := by
    rw [hf]
    simp only [Store.relieved, Store.deleteMutations]
    rw [hs, hb]
  refine ⟨fun q hq p hqp => ?_, fun _ => ?_, fun q hq hsome => ?_⟩
  · rw [hidle q hq] at hqp; cases hqp
  · change fin.nextPush = _
    rw [hnext, (h.sent q0 hq0 _ hpush).2]
    rfl
  · rw [hidle q hq] at hsome; cases hsome

theorem flight_enqueue (hwf : Wf e st) (h : Flight st) {m : Mutation} {n : ℕ}
    (he : e.enqueue st m = .ok (n, st')) : Flight st' := by
  obtain ⟨-, done, effects, q, mid, hq⟩ := enqueue_spec hwf he
  obtain ⟨main, before, queue, hframe⟩ := (enqueues_performing hwf hq).rows.frame
  have hqueue : st'.queue = st.queue ++ [q] := by rw [hq.result]
  have hnext : st'.nextPush = st.nextPush ∧ st'.lastCompletedPush = st.lastCompletedPush := by
    rw [hq.result, show mid = _ from hframe]
    exact ⟨rfl, rfl⟩
  have hcases : ∀ x ∈ st'.queue, x ∈ st.queue ∨ x = q := by
    intro x hx
    rw [hqueue] at hx
    exact (List.mem_append.mp hx).imp_right List.mem_singleton.mp
  refine ⟨fun x hx p hp => ?_, fun hnone => ?_, fun x hx hs d hd hmem => ?_⟩
  · rw [hnext.1, hnext.2]
    rcases hcases x hx with hx | rfl
    · exact h.sent x hx p hp
    · rw [hq.queued.2.1] at hp; cases hp
  · rw [hnext.1, hnext.2]
    exact h.idle fun x hx => hnone x (by simp [hqueue, hx])
  · rcases hcases x hx with hx | rfl
    · obtain ⟨y, hy, hyd⟩ := List.mem_map.mp hmem
      rcases hcases y hy with hy | rfl
      · exact h.free x hx hs d hd (hyd ▸ List.mem_map_of_mem hy)
      · -- a dependency is older than its mutation, the new ordinal is not
        have hlt := hwf.deps x hx d (List.mem_append_left _ hd)
        have hfresh := hwf.fresh x hx
        rw [hq.queued.1] at hyd
        omega
    · rw [hq.queued.2.1] at hs; cases hs

/-- A selected mutation is unsent and its lifecycle waits for no unsent one. -/
theorem mem_select {maxBytes : ℕ} : ∀ {rest selected : List Queued},
    q ∈ e.select st maxBytes selected rest → q ∈ selected ∨ (q ∈ rest ∧
      ∀ d ∈ q.mutation.lifecycleDependencies,
        d ∉ (st.queue.filter (·.push = none)).map (·.ordinal))
  | [], selected, hq => Or.inl hq
  | x :: rest, selected, hq => by
    have hskip : q ∈ e.select st maxBytes selected rest → q ∈ selected ∨ (q ∈ x :: rest ∧
        ∀ d ∈ q.mutation.lifecycleDependencies,
          d ∉ (st.queue.filter (·.push = none)).map (·.ordinal)) := fun h =>
      (mem_select h).imp_right fun ⟨hr, hd⟩ => ⟨List.mem_cons_of_mem _ hr, hd⟩
    unfold Engine.select at hq
    simp only at hq
    split at hq
    · exact hskip hq
    · split at hq
      · exact hskip hq
      · rename_i hdeps
        have htake : q ∈ selected ++ [x] → q ∈ selected ∨ (q ∈ x :: rest ∧
            ∀ d ∈ q.mutation.lifecycleDependencies,
              d ∉ (st.queue.filter (·.push = none)).map (·.ordinal)) := by
          intro h
          rcases List.mem_append.mp h with h | h
          · exact Or.inl h
          · obtain rfl := List.mem_singleton.mp h
            refine Or.inr ⟨List.mem_cons_self .., fun d hd hmem => hdeps (Or.inl ?_)⟩
            exact List.any_eq_true.mpr ⟨d, hd, by simpa using hmem⟩
        split at hq
        · exact hskip hq
        · split at hq
          · exact htake hq
          · rcases mem_select hq with h | ⟨hr, hd⟩
            · exact htake h
            · exact Or.inr ⟨List.mem_cons_of_mem _ hr, hd⟩

theorem flight_freeze (hsorted : (st.queue.map (·.ordinal)).Pairwise (· < ·)) (h : Flight st)
    {maxBytes : ℕ} {request : Option PushRequest}
    (hf : e.freeze st maxBytes = .ok (request, st')) : Flight st' := by
  rcases freeze_spec hf with rfl | ⟨hnone, selected, hsel, hne, -, rfl, -⟩
  · exact h
  have hidle : ∀ q ∈ st.queue, q.push = none := by
    rcases (inFlight_eq h).mp hnone with ⟨hall, -⟩ | ⟨-, h0⟩
    · exact hall
    · cases h0
  have hnext := h.idle hidle
  have hall : ∀ x ∈ selected, x ∈ st.queue ∧
      ∀ d ∈ x.mutation.lifecycleDependencies, d ∉ st.queue.map (·.ordinal) := by
    intro x hx
    rw [hsel] at hx
    rcases mem_select hx with hx | ⟨hx, hd⟩
    · cases hx
    · refine ⟨List.mem_of_mem_filter hx, fun d hdm hmem => hd d hdm ?_⟩
      rwa [List.filter_eq_self.mpr fun q hq => by simpa using hidle q hq]
  have hmem : ∀ q' ∈ (st.frozen (selected.map (·.ordinal)) e.declaredModels).queue,
      ∃ q ∈ st.queue, q'.ordinal = q.ordinal ∧ q'.mutation = q.mutation ∧
        ((q.ordinal ∈ selected.map (·.ordinal) ∧ q'.push = some st.nextPush) ∨
          (q.ordinal ∉ selected.map (·.ordinal) ∧ q'.push = none)) := by
    intro q' hq'
    obtain ⟨q, hq, rfl⟩ := List.mem_map.mp hq'
    refine ⟨q, hq, ?_⟩
    split
    · rename_i hin; exact ⟨rfl, rfl, Or.inl ⟨hin, rfl⟩⟩
    · rename_i hin; exact ⟨rfl, rfl, Or.inr ⟨hin, hidle q hq⟩⟩
  have hords : (st.frozen (selected.map (·.ordinal)) e.declaredModels).queue.map (·.ordinal) =
      st.queue.map (·.ordinal) := by
    simp only [Store.frozen, Store.setPushModels, Store.assignPush, List.map_map]
    refine List.map_congr_left fun q _ => ?_
    simp only [Function.comp_apply]
    split <;> rfl
  refine ⟨fun q' hq' p hp => ?_, fun hall' => ?_, fun q' hq' hs d hd => ?_⟩
  · obtain ⟨q, hq, -, -, ⟨-, hpush⟩ | ⟨-, hpush⟩⟩ := hmem q' hq'
    · rw [hpush] at hp
      obtain rfl := Option.some.inj hp
      exact ⟨hnext, by change st.nextPush + 1 = _; rw [hnext]; rfl⟩
    · rw [hpush] at hp; cases hp
  · -- the selection is not empty, so some mutation is in flight now
    exfalso
    obtain ⟨x, hx⟩ := List.exists_mem_of_ne_nil _ hne
    have hin : x.ordinal ∈ selected.map (·.ordinal) := List.mem_map_of_mem hx
    have := hall' { x with push := some st.nextPush }
      (List.mem_map.mpr ⟨x, (hall x hx).1, if_pos hin⟩)
    cases this
  · obtain ⟨q, hq, -, hmut, ⟨hin, -⟩ | ⟨-, hpush⟩⟩ := hmem q' hq'
    · rw [hords]
      obtain ⟨x, hx, hord⟩ := List.mem_map.mp hin
      obtain rfl : x = q :=
        List.inj_on_of_nodup_map (hsorted.imp fun h => ne_of_lt h) (hall x hx).1 hq hord
      exact (hall x hx).2 d (hmut ▸ hd)
    · rw [hpush] at hs; cases hs

theorem flight_drop (hwf : Wf e st) (h : Flight st) {n : ℕ}
    (hd : e.dropMutation st n = .ok st') : Flight st' := by
  unfold Engine.dropMutation at hd
  split at hd
  · cases hd; exact h
  · rename_i q0 hq0
    split at hd
    · cases hd
    · rename_i hunsent
      simp only [Engine.removeRejected, markRejected_eq hwf, Except.ok_bind, Except.bind_eq_ok,
        Except.pure_eq_ok] at hd
      obtain ⟨⟨reports, st1⟩, hreb, rfl⟩ := hd
      refine flight_extends ?_
        (wf_rebuildHeld (wf_marked hwf) (fun k hk => marked_named hwf hk) hreb).2
      refine flight_mono h (fun q' hq' => ?_) rfl rfl fun hnone q hq => ?_
      · obtain ⟨q, hq, rfl⟩ := List.mem_map.mp hq'
        exact ⟨q, List.mem_of_mem_filter hq, rfl, rfl,
          fun d hd => List.mem_of_mem_filter hd⟩
      · -- a sent mutation stays
        cases hp : q.push with
        | none => rfl
        | some p =>
          have hstays : q.forget (rejectedOf st [⟨n, "dropped"⟩]).keys ∈
              (st.deleteMutations (rejectedOf st [⟨n, "dropped"⟩]).keys).queue :=
            List.mem_map_of_mem (List.mem_filter.mpr
              ⟨hq, decide_eq_true (dropped_unsent hwf.sorted h hq0 hunsent hq (by simp [hp]))⟩)
          rw [← hp]
          exact hnone (q.forget _) hstays

theorem flight_applyCurrentPage (hwf : Wf e st) (h : Flight st) {page : PullPage}
    {report : ApplyReport} (ha : e.applyCurrentPage st page = .ok (report, st')) : Flight st' := by
  obtain ⟨moving, -, ⟨-, -, rfl⟩ | ⟨-, -, report1, st1, hr, -, rfl⟩⟩ := applyCurrentPage_eq_ok.mp ha
  · exact h
  · obtain ⟨s, hs⟩ := setCursors_frame moving.entries st1
    obtain ⟨reports, hreb, -⟩ := applyRecords_eq_ok.mp hr
    have hst := stages_all page.changes [] hwf
    obtain ⟨m, b, s', hf⟩ := hst.frame
    rw [Store.setCursors, hs]
    refine flight_of_eq (flight_extends ?_ (wf_rebuildHeld hst.wf
      (fun k hk => (hst.new k hk).elim (absurd · List.not_mem_nil) fun h => h.1) hreb).2) rfl rfl rfl
    exact flight_of_eq h hst.queue (by rw [hf]) (by rw [hf])

/-- Every call keeps the counters right. -/
theorem flight_act {c : Client} (hwf : Wf e c.store) (h : Flight c.store) (a : ClientAction) :
    Flight (c.act e a).store := by
  cases a with
  | enqueue m => exact commit_keeps h fun _ _ hr => flight_enqueue hwf h hr
  | freeze maxBytes => exact commit_keeps h fun _ _ hr => flight_freeze hwf.sorted h hr
  | acknowledge sequence receipt =>
    simp only [Client.act, Client.acknowledge]
    split
    · exact h
    · refine commit_keeps h fun _ _ hr => ?_
      obtain ⟨-, -, ⟨-, -, rfl⟩ | ⟨-, hp, hc⟩⟩ := acknowledge_eq_ok.mp hr
      · exact h
      · exact flight_complete hwf h hp hc
  | applyPage page =>
    rcases applyPage_store e c page with heq | ⟨report, ha⟩
    · simp only [Client.act, heq]; exact h
    · exact flight_applyCurrentPage hwf h ha
  | receive page request =>
    rcases receive_store e c page request with heq | ⟨report, ha⟩
    · simp only [Client.act, heq]; exact h
    · exact flight_applyCurrentPage hwf h ha
  | drop ordinal =>
    refine commit_keeps h fun a st hr => ?_
    obtain ⟨st1, hd, heq⟩ := Except.map_eq_ok.mp hr
    obtain ⟨-, rfl⟩ := Prod.mk.inj heq
    exact flight_drop hwf h hd
  | setChannels changes =>
    obtain ⟨s, hs⟩ := setChannels_frame changes (c.store, [])
    simp only [Client.act, Client.setChannels, hs]
    exact flight_of_eq h rfl rfl rfl
  | pull =>
    simp only [Client.act, Client.downlinkRequest]
    split <;> exact h
  | resolve key =>
    refine flight_mono h (fun q' hq' => ?_) rfl rfl fun hnone q hq => ?_
    · obtain ⟨q, hq, rfl⟩ := List.mem_map.mp hq'
      exact ⟨q, hq, rfl, rfl, fun _ hd => hd⟩
    · exact hnone { q with mutation := { q.mutation with
        prerequisites := q.mutation.prerequisites.filter (· ≠ key) } } (List.mem_map_of_mem hq)
  | restart => exact h

theorem flight_opened (clientId : String) : Flight (Client.opened clientId).store :=
  ⟨by simp [Client.opened], fun _ => rfl, by simp [Client.opened]⟩

end Act

end AheadSync
