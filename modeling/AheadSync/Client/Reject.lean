import AheadSync.Client.Isolation
import AheadSync.Lib.Select
import Mathlib.Order.Bounds.Basic

/-! The closure of a rejection. The rounds of `mark_rejected` end with the least set that holds the
    rejected ordinals and every mutation whose lifecycle depends on a member, and what leaves the
    queue is filed once in the inbox. No run files the ordinal of a queued mutation before. -/

namespace AheadSync

/-- A set of ordinals holds the rejected ones and the lifecycle dependents of its members. -/
def Closed (queue : List Queued) (rejections : List Rejection) (s : Set ℕ) : Prop :=
  (∀ r ∈ rejections, r.ordinal ∈ s) ∧
    ∀ q ∈ queue, ∀ d ∈ q.mutation.lifecycleDependencies, d ∈ s → q.ordinal ∈ s

/-- The code a removed mutation is filed under: its own, or that of a dependent. -/
def codeOf (rejections : List Rejection) (ordinal : ℕ) : String :=
  ((rejections.find? (·.ordinal = ordinal)).map (·.code)).getD "dependency.rejected"

section Closure
variable {queue : List Queued} {r : SortedMap ℕ String} {o : ℕ}

/-- The dependents one round adds. -/
def dependents (queue : List Queued) (r : SortedMap ℕ String) : List Queued :=
  queue.filter fun q => (r.lookup q.ordinal).isNone ∧
    q.mutation.lifecycleDependencies.any fun d => (r.lookup d).isSome

theorem mem_dependents {q : Queued} : q ∈ dependents queue r ↔ q ∈ queue ∧
    r.lookup q.ordinal = none ∧ ∃ d ∈ q.mutation.lifecycleDependencies, (r.lookup d).isSome := by
  simp [dependents]

/-- The map after one round. -/
def rejectRound (queue : List Queued) (r : SortedMap ℕ String) : SortedMap ℕ String :=
  (dependents queue r).foldl (fun acc q => acc.insert q.ordinal "dependency.rejected") r

theorem closeRejected_succ {n : ℕ} : closeRejected queue (n + 1) r =
    if dependents queue r = [] then r else closeRejected queue n (rejectRound queue r) := rfl

/-- The dependents of a round are filed under one code. -/
theorem lookup_round : (rejectRound queue r).lookup o =
    if o ∈ (dependents queue r).map (·.ordinal) then some "dependency.rejected"
    else r.lookup o := by
  have hfold : ∀ (qs : List Queued) (r : SortedMap ℕ String),
      (qs.foldl (fun acc q => acc.insert q.ordinal "dependency.rejected") r).lookup o =
        if o ∈ qs.map (·.ordinal) then some "dependency.rejected" else r.lookup o := by
    intro qs
    induction qs with
    | nil => exact fun r => by simp
    | cons q qs ih =>
      intro r
      rw [List.foldl_cons, ih, SortedMap.lookup_insert]
      by_cases hq : o = q.ordinal
      · simp [hq]
      · simp [hq]
  exact hfold _ r

/-- The mutations a map does not reject yet. -/
def spared (queue : List Queued) (r : SortedMap ℕ String) : ℕ :=
  queue.countP fun q => (r.lookup q.ordinal).isNone

/-- A round that adds a dependent leaves fewer mutations spared. -/
theorem spared_round (h : dependents queue r ≠ []) :
    spared queue (rejectRound queue r) < spared queue r := by
  obtain ⟨q, hq⟩ := List.exists_mem_of_ne_nil _ h
  obtain ⟨hin, hnone, -⟩ := mem_dependents.mp hq
  have hle : ∀ x : Queued, ((rejectRound queue r).lookup x.ordinal).isNone = true →
      (r.lookup x.ordinal).isNone = true := by
    intro x hx
    rw [lookup_round] at hx
    split at hx
    · cases hx
    · exact hx
  have hnow : ¬((rejectRound queue r).lookup q.ordinal).isNone = true := by
    rw [lookup_round, if_pos (List.mem_map_of_mem hq)]
    simp
  exact List.countP_lt_of (fun x _ => hle x) hin (by simp [hnone]) hnow

/-- With a round for each spared mutation the closure leaves no dependent out. -/
theorem closeRejected_closed : ∀ {n : ℕ} {r : SortedMap ℕ String}, spared queue r ≤ n →
    dependents queue (closeRejected queue n r) = []
  | 0, r, hn => by
    by_contra hne
    have hlt := spared_round hne
    simp only [closeRejected] at hlt
    omega
  | n + 1, r, hn => by
    by_cases hmore : dependents queue r = []
    · rwa [closeRejected_succ, if_pos hmore]
    · rw [closeRejected_succ, if_neg hmore]
      have hlt := spared_round hmore
      exact closeRejected_closed (by omega)

/-- What the closure adds is filed as a dependent. -/
theorem closeRejected_code : ∀ {n : ℕ} {r : SortedMap ℕ String} {code : String},
    (closeRejected queue n r).lookup o = some code →
      r.lookup o = some code ∨ (r.lookup o = none ∧ code = "dependency.rejected")
  | 0, _, _, h => Or.inl h
  | n + 1, r, code, h => by
    by_cases hmore : dependents queue r = []
    · rw [closeRejected_succ, if_pos hmore] at h
      exact Or.inl h
    · rw [closeRejected_succ, if_neg hmore] at h
      have hround : (rejectRound queue r).lookup o = r.lookup o ∨
          (r.lookup o = none ∧ (rejectRound queue r).lookup o = some "dependency.rejected") := by
        rw [lookup_round]
        split
        · rename_i hin
          obtain ⟨q, hq, rfl⟩ := List.mem_map.mp hin
          exact Or.inr ⟨(mem_dependents.mp hq).2.1, rfl⟩
        · exact Or.inl rfl
      rcases closeRejected_code h with hr | ⟨hnone, hcode⟩
      · rcases hround with heq | ⟨hnone, hdep⟩
        · exact Or.inl (heq ▸ hr)
        · rw [hr] at hdep
          exact Or.inr ⟨hnone, Option.some.inj hdep⟩
      · rcases hround with heq | ⟨-, hdep⟩
        · exact Or.inr ⟨heq ▸ hnone, hcode⟩
        · rw [hnone] at hdep
          cases hdep

end Closure

section Reject
variable {e : Engine} {st st' : Store} {rejections : List Rejection} {q : Queued} {o : ℕ}

theorem rejectedOf_base : ((SortedMap.ofList (rejections.map fun r => (r.ordinal, r.code))).lookup
    o).isSome ↔ ∃ r ∈ rejections, r.ordinal = o := by
  rw [SortedMap.lookup_ofList_isSome]
  simp

/-- Rejecting reaches the least closed set. -/
theorem rejectedOf_least : IsLeast {s | Closed st.queue rejections s}
    {o | ((rejectedOf st rejections).lookup o).isSome} := by
  refine ⟨⟨fun r hr => ?_, fun q hq d hd hsome => ?_⟩, fun s hs o ho => ?_⟩
  · have hbase := rejectedOf_base.mpr ⟨r, hr, rfl⟩
    change ((rejectedOf st rejections).lookup r.ordinal).isSome
    rwa [rejectedOf, closeRejected_keeps hbase]
  · by_contra hnone
    have hin : q ∈ dependents st.queue (rejectedOf st rejections) :=
      mem_dependents.mpr ⟨hq, Option.not_isSome_iff_eq_none.mp hnone, d, hd, hsome⟩
    rw [rejectedOf, closeRejected_closed List.countP_le_length] at hin
    cases hin
  · refine closeRejected_induction (P := (· ∈ s)) hs.2 (fun o ho => ?_) o ho
    obtain ⟨r, hr, rfl⟩ := rejectedOf_base.mp ho
    exact hs.1 r hr

/-- A listed mutation keeps its own code, the others are filed as dependents. -/
theorem rejectedOf_code (hnd : (rejections.map (·.ordinal)).Nodup) {code : String}
    (h : (rejectedOf st rejections).lookup o = some code) : code = codeOf rejections o := by
  have hbase : ∀ {c}, (SortedMap.ofList (rejections.map fun r => (r.ordinal, r.code))).lookup o =
      some c → ∃ r ∈ rejections, r.ordinal = o := fun hc =>
    rejectedOf_base.mp (by rw [hc]; rfl)
  cases hf : rejections.find? (·.ordinal = o) with
  | some r =>
    have hr := List.mem_of_find?_eq_some hf
    have ho : r.ordinal = o := by simpa using List.find?_some hf
    have hkeys : ((rejections.map fun r => (r.ordinal, r.code)).map Prod.fst).Nodup := by
      simpa [Function.comp_def] using hnd
    have hown := SortedMap.lookup_ofList_of_mem hkeys (List.mem_map_of_mem hr)
    rw [ho] at hown
    rw [rejectedOf, closeRejected_keeps (by rw [hown]; rfl), hown] at h
    rw [codeOf, hf]
    exact (Option.some.inj h).symm
  | none =>
    rcases closeRejected_code h with h | ⟨-, rfl⟩
    · obtain ⟨r, hr, ho⟩ := hbase h
      simpa [ho] using List.find?_eq_none.mp hf r hr
    · simp [codeOf, hf]

/-- The inbox files every dropped mutation and keeps the rest. -/
theorem lookup_inboxOf (hsorted : (st.queue.map (·.ordinal)).Pairwise (· < ·)) :
    (∀ q ∈ droppedOf st rejections, (inboxOf st rejections).lookup q.ordinal =
      some ⟨q.mutation.name, ((rejectedOf st rejections).lookup q.ordinal).getD "", q.mutation,
        q.mutation.allOps.map (·.key)⟩) ∧
    (∀ o, o ∉ (droppedOf st rejections).map (·.ordinal) →
      (inboxOf st rejections).lookup o = st.rejections.lookup o) := by
  have hfold : ∀ (qs : List Queued) (f : Queued → RejectionRow) (inbox : SortedMap ℕ RejectionRow),
      (qs.map (·.ordinal)).Nodup →
      (∀ q ∈ qs, (qs.foldl (fun inbox q => inbox.insert q.ordinal (f q)) inbox).lookup q.ordinal =
        some (f q)) ∧
      (∀ o, o ∉ qs.map (·.ordinal) →
        (qs.foldl (fun inbox q => inbox.insert q.ordinal (f q)) inbox).lookup o =
          inbox.lookup o) := by
    intro qs f
    induction qs with
    | nil => exact fun _ _ => ⟨nofun, fun _ _ => rfl⟩
    | cons x qs ih =>
      intro inbox hnd
      obtain ⟨hx, hnd⟩ := List.nodup_cons.mp hnd
      obtain ⟨hin, hout⟩ := ih (inbox.insert x.ordinal (f x)) hnd
      refine ⟨fun q hq => ?_, fun o ho => ?_⟩
      · rcases List.mem_cons.mp hq with rfl | hq
        · rw [List.foldl_cons, hout _ hx, SortedMap.lookup_insert_self]
        · exact hin q hq
      · rw [List.map_cons, List.mem_cons, not_or] at ho
        rw [List.foldl_cons, hout o ho.2, SortedMap.lookup_insert_ne _ _ ho.1]
  have hnd : ((droppedOf st rejections).map (·.ordinal)).Nodup :=
    (hsorted.imp fun h => ne_of_lt h).sublist ((List.filter_sublist ..).map _)
  exact hfold _ _ _ hnd

end Reject

/-- What the inbox holds was numbered before and is off the queue. -/
def Filed (st : Store) : Prop :=
  ∀ o, (st.rejections.lookup o).isSome → o < st.nextOrdinal ∧ o ∉ st.queue.map (·.ordinal)

section Filed
variable {e : Engine} {st st' : Store} {rejections : List Rejection}

theorem filed_mono (h : Filed st)
    (hq : ∀ q' ∈ st'.queue, ∃ q ∈ st.queue, q'.ordinal = q.ordinal)
    (hn : st'.nextOrdinal = st.nextOrdinal) (hr : st'.rejections = st.rejections) : Filed st' := by
  intro o ho
  rw [hr] at ho
  refine ⟨by rw [hn]; exact (h o ho).1, fun hmem => (h o ho).2 ?_⟩
  obtain ⟨q', hq', rfl⟩ := List.mem_map.mp hmem
  obtain ⟨q, hin, hord⟩ := hq q' hq'
  exact hord ▸ List.mem_map_of_mem hin

theorem filed_extends (h : Filed st) (hx : Extends st st') : Filed st' := by
  obtain ⟨m, b, qs, hf⟩ := hx.frame
  refine filed_mono h (fun q' hq' => ?_) (by rw [hf]) (by rw [hf])
  obtain ⟨q, hq, hg⟩ := List.forall₂_mem hx.queue hq'
  exact ⟨q, hq, hg.ordinal⟩

theorem filed_delete (h : Filed st) (ns : List ℕ) : Filed (st.deleteMutations ns) := by
  refine filed_mono h (fun q' hq' => ?_) rfl rfl
  obtain ⟨q, hq, rfl⟩ := List.mem_map.mp hq'
  exact ⟨q, List.mem_of_mem_filter hq, rfl⟩

theorem filed_dismiss (h : Filed st) (n : ℕ) : Filed (st.deleteRejection n) := by
  intro o ho
  refine h o ?_
  rw [Store.deleteRejection, SortedMap.lookup_erase] at ho
  split at ho
  · cases ho
  · exact ho

/-- What rejecting files leaves the queue with it. -/
theorem filed_marked (rejections : List Rejection) (hwf : Wf e st) (h : Filed st) :
    Filed { st.deleteMutations (rejectedOf st rejections).keys with
      rejections := inboxOf st rejections } := by
  intro o ho
  by_cases hin : o ∈ (droppedOf st rejections).map (·.ordinal)
  · obtain ⟨q, hq, rfl⟩ := List.mem_map.mp hin
    obtain ⟨hq, hsome⟩ := List.mem_filter.mp hq
    refine ⟨hwf.fresh q hq, fun hmem => ?_⟩
    obtain ⟨q', hq', hord⟩ := List.mem_map.mp hmem
    obtain ⟨x, hx, rfl⟩ := List.mem_map.mp hq'
    have hkeep := of_decide_eq_true (List.mem_filter.mp hx).2
    change x.ordinal = q.ordinal at hord
    rw [hord] at hkeep
    exact hkeep (mem_rejected_keys.mpr hsome)
  · change ((inboxOf st rejections).lookup o).isSome at ho
    rw [(lookup_inboxOf hwf.sorted).2 o hin] at ho
    refine ⟨(h o ho).1, fun hmem => (h o ho).2 ?_⟩
    obtain ⟨q', hq', rfl⟩ := List.mem_map.mp hmem
    obtain ⟨x, hx, rfl⟩ := List.mem_map.mp hq'
    exact List.mem_map.mpr ⟨x, List.mem_of_mem_filter hx, rfl⟩

theorem filed_stages {held held' : Held} (h : Filed st) (hs : Stages e st held st' held') :
    Filed st' := by
  obtain ⟨m, b, s, hf⟩ := hs.frame
  exact filed_mono h (fun q' hq' => ⟨q', hs.queue ▸ hq', rfl⟩) (by rw [hf]) (by rw [hf])

theorem filed_complete (hwf : Wf e st) (h : Filed st) {push : ℕ} {receipt : PushReceipt}
    {report : ApplyReport} (hc : e.complete st push receipt = .ok (report, st')) : Filed st' := by
  obtain ⟨covered, wireRows, mid, affected, reports, fin, hcomp, -, rfl⟩ := (complete_eq_ok hwf).mp hc
  have hset := settles_of_completes hwf hcomp.settled
  have hst := stages_all receipt.records affected hset.wf
  obtain ⟨b, hb⟩ := hset.frame
  have hmid : Filed mid :=
    filed_mono h (fun q' hq' => ⟨q', by rw [hb] at hq'; exact hq', rfl⟩) (by rw [hb]) (by rw [hb])
  have hrel := filed_delete (filed_marked receipt.rejections hst.wf (filed_stages hmid hst))
    ((acceptedOf st push receipt).map (·.ordinal))
  have hfin := filed_extends hrel (wf_rebuildHeld (wf_relieved hst.wf)
    (fun k hk => completes_named hwf receipt hset hk) hcomp.rebuilt).2
  exact filed_mono hfin (fun q' hq' => ⟨q', hq', rfl⟩) rfl rfl

theorem filed_enqueue (hwf : Wf e st) (h : Filed st) {m : Mutation} {n : ℕ}
    (he : e.enqueue st m = .ok (n, st')) : Filed st' := by
  obtain ⟨-, done, effects, q, mid, hq⟩ := enqueue_spec hwf he
  obtain ⟨main, before, queue, hframe⟩ := (enqueues_performing hwf hq).rows.frame
  intro o ho
  have hold : (st.rejections.lookup o).isSome := by
    rw [hq.result, show mid = _ from hframe] at ho
    exact ho
  obtain ⟨hlt, hoff⟩ := h o hold
  rw [hq.result]
  refine ⟨Nat.lt_succ_of_lt hlt, fun hmem => ?_⟩
  rw [List.map_append, List.mem_append] at hmem
  rcases hmem with hmem | hmem
  · exact hoff hmem
  · -- the new ordinal is above every filed one
    obtain rfl : o = q.ordinal := by simpa using hmem
    rw [hq.queued.1] at hlt
    omega

theorem filed_removeRejected (hwf : Wf e st) (h : Filed st)
    (hr : e.removeRejected st rejections = .ok st') : Filed st' := by
  simp only [Engine.removeRejected, markRejected_eq hwf, Except.ok_bind, Except.bind_eq_ok,
    Except.pure_eq_ok] at hr
  obtain ⟨⟨reports, st1⟩, hreb, rfl⟩ := hr
  exact filed_extends (filed_marked _ hwf h)
    (wf_rebuildHeld (wf_marked hwf) (fun k hk => marked_named hwf hk) hreb).2

theorem filed_applyCurrentPage (hwf : Wf e st) (h : Filed st) {page : PullPage}
    {report : ApplyReport} (ha : e.applyCurrentPage st page = .ok (report, st')) : Filed st' := by
  obtain ⟨moving, -, ⟨-, -, rfl⟩ | ⟨-, -, report1, st1, hr, -, rfl⟩⟩ := applyCurrentPage_eq_ok.mp ha
  · exact h
  · obtain ⟨s, hs⟩ := setCursors_frame moving.entries st1
    obtain ⟨reports, hreb, -⟩ := applyRecords_eq_ok.mp hr
    have hst := stages_all page.changes [] hwf
    have hfin := filed_extends (filed_stages h hst) (wf_rebuildHeld hst.wf
      (fun k hk => (hst.new k hk).elim (fun h => nomatch h) fun h => h.1) hreb).2
    rw [Store.setCursors, hs]
    exact filed_mono hfin (fun q' hq' => ⟨q', hq', rfl⟩) rfl rfl

/-- Every call files only what it takes off the queue. -/
theorem filed_act {c : Client} (hwf : Wf e c.store) (h : Filed c.store) (a : ClientAction) :
    Filed (c.act e a).store := by
  cases a with
  | enqueue m => exact commit_keeps h fun _ _ hr => filed_enqueue hwf h hr
  | freeze maxBytes =>
    refine commit_keeps h fun _ _ hr => ?_
    rcases freeze_spec hr with rfl | ⟨-, selected, -, -, -, rfl, -⟩
    · exact h
    · refine filed_mono h (fun q' hq' => ?_) rfl rfl
      obtain ⟨q, hq, rfl⟩ := List.mem_map.mp hq'
      exact ⟨q, hq, by split <;> rfl⟩
  | acknowledge sequence receipt =>
    simp only [Client.act, Client.acknowledge]
    split
    · exact h
    · refine commit_keeps h fun _ _ hr => ?_
      obtain ⟨-, -, ⟨-, -, rfl⟩ | ⟨-, -, hc⟩⟩ := acknowledge_eq_ok.mp hr
      · exact h
      · exact filed_complete hwf h hc
  | applyPage page =>
    rcases applyPage_store e c page with heq | ⟨report, ha⟩
    · simp only [Client.act, heq]; exact h
    · exact filed_applyCurrentPage hwf h ha
  | receive page request =>
    rcases receive_store e c page request with heq | ⟨report, ha⟩
    · simp only [Client.act, heq]; exact h
    · exact filed_applyCurrentPage hwf h ha
  | drop ordinal =>
    refine commit_keeps h fun a st hr => ?_
    obtain ⟨st1, hd, heq⟩ := Except.map_eq_ok.mp hr
    obtain ⟨-, rfl⟩ := Prod.mk.inj heq
    unfold Engine.dropMutation at hd
    split at hd
    · cases hd; exact h
    · split at hd
      · cases hd
      · exact filed_removeRejected hwf h hd
  | setChannels changes =>
    obtain ⟨s, hs⟩ := setChannels_frame changes (c.store, [])
    simp only [Client.act, Client.setChannels, hs]
    exact filed_mono h (fun q' hq' => ⟨q', hq', rfl⟩) rfl rfl
  | pull =>
    simp only [Client.act, Client.downlinkRequest]
    split <;> exact h
  | resolve key =>
    refine filed_mono h (fun q' hq' => ?_) rfl rfl
    obtain ⟨q, hq, rfl⟩ := List.mem_map.mp hq'
    exact ⟨q, hq, rfl⟩
  | restart => exact h

/-- No reachable inbox holds a queued mutation. -/
theorem filed_reaches {c : Client} (h : Host.Reaches e c) : Filed c.store :=
  (keeps_reaches (keeps_and_wf (P := Filed) (fun _ a hwf hf => filed_act hwf hf a)
    (fun st st' op hwf hf hd => by
      obtain ⟨main, before, rfl⟩ := direct_frame hwf hd
      exact filed_mono hf (fun q hq => ⟨q, hq, rfl⟩) rfl rfl)
    fun st n hf => filed_dismiss hf n)
    (fun clientId => ⟨wf_opened clientId, fun o ho => by cases ho⟩) h).2

end Filed

/-- What rejecting does: `gone` is the least closed set and leaves the queue, each of its mutations
    is filed once under its code, their records are answered, and every other mutation stays but
    for its sequence dependencies on the removed. -/
structure Rejects (st : Store) (rejections : List Rejection) (gone : Set ℕ) (affected : Held)
    (st' : Store) : Prop where
  least : IsLeast {s | Closed st.queue rejections s} gone
  queued : ∀ o ∈ gone, ∃ q ∈ st.queue, q.ordinal = o
  left : ∀ q' ∈ st'.queue, ∃ q ∈ st.queue, q.ordinal ∉ gone ∧ ∃ deps,
    q' = { q with mutation := { q.mutation with sequenceDependencies := deps } }
  kept : ∀ q ∈ st.queue, q.ordinal ∉ gone → ∃ deps,
    { q with mutation := { q.mutation with sequenceDependencies := deps } } ∈ st'.queue
  filed : ∀ q ∈ st.queue, q.ordinal ∈ gone → st.rejections.lookup q.ordinal = none ∧
    st'.rejections.lookup q.ordinal = some ⟨q.mutation.name, codeOf rejections q.ordinal,
      q.mutation, q.mutation.allOps.map (·.key)⟩
  inbox : ∀ o, o ∉ gone → st'.rejections.lookup o = st.rejections.lookup o
  records : ∀ k, k ∈ affected ↔ ∃ q ∈ st.queue, q.ordinal ∈ gone ∧
    ∃ op ∈ q.mutation.allOps, op.key = k
  frame : ∃ queue inbox, st' = { st with queue := queue, rejections := inbox }

section Rejects
variable {e : Engine} {st st' : Store} {rejections : List Rejection} {q : Queued}

/-- A mutation that stays does not depend on the life of a removed one. -/
theorem stays_independent (hq : q ∈ st.queue) (hkeep : q.ordinal ∉ (rejectedOf st rejections).keys) :
    q.forget (rejectedOf st rejections).keys = { q with mutation := { q.mutation with
      sequenceDependencies :=
        q.mutation.sequenceDependencies.filter (· ∉ (rejectedOf st rejections).keys) } } := by
  have hlife : q.mutation.lifecycleDependencies.filter (· ∉ (rejectedOf st rejections).keys) =
      q.mutation.lifecycleDependencies := by
    refine List.filter_eq_self.mpr fun d hd => decide_eq_true fun hmem => hkeep ?_
    exact mem_rejected_keys.mpr
      (rejectedOf_least.1.2 q hq d hd (mem_rejected_keys.mp hmem))
  rw [Queued.forget, hlife]

theorem rejects_marked (hwf : Wf e st) (hfiled : Filed st)
    (hin : ∀ r ∈ rejections, ∃ q ∈ st.queue, q.ordinal = r.ordinal)
    (hnd : (rejections.map (·.ordinal)).Nodup) :
    Rejects st rejections {o | ((rejectedOf st rejections).lookup o).isSome}
      (e.markedOf st rejections) { st.deleteMutations (rejectedOf st rejections).keys with
        rejections := inboxOf st rejections } where
  least := rejectedOf_least
  queued := by
    refine rejectedOf_least.2 ⟨hin, fun q hq _ _ _ => ⟨q, hq, rfl⟩⟩
  left := by
    intro q' hq'
    obtain ⟨q, hq, rfl⟩ := List.mem_map.mp hq'
    obtain ⟨hq, hkeep⟩ := List.mem_filter.mp hq
    have hkeep := of_decide_eq_true hkeep
    exact ⟨q, hq, fun h => hkeep (mem_rejected_keys.mpr h), _, stays_independent hq hkeep⟩
  kept := by
    intro q hq hkeep
    have hkeep : q.ordinal ∉ (rejectedOf st rejections).keys :=
      fun h => hkeep (mem_rejected_keys.mp h)
    have hmem : q.forget (rejectedOf st rejections).keys ∈
        (st.deleteMutations (rejectedOf st rejections).keys).queue :=
      List.mem_map_of_mem (List.mem_filter.mpr ⟨hq, decide_eq_true hkeep⟩)
    rw [stays_independent hq hkeep] at hmem
    exact ⟨_, hmem⟩
  filed := by
    intro q hq hgone
    refine ⟨?_, ?_⟩
    · by_contra hsome
      exact (hfiled q.ordinal (Option.isSome_iff_ne_none.mpr hsome)).2 (List.mem_map_of_mem hq)
    · obtain ⟨code, hcode⟩ := Option.isSome_iff_exists.mp hgone
      change (inboxOf st rejections).lookup q.ordinal = _
      rw [(lookup_inboxOf hwf.sorted).1 q (List.mem_filter.mpr ⟨hq, hgone⟩), hcode,
        rejectedOf_code hnd hcode]
      rfl
  inbox := by
    intro o hstay
    refine (lookup_inboxOf hwf.sorted).2 o fun hmem => hstay ?_
    obtain ⟨q, hq, rfl⟩ := List.mem_map.mp hmem
    exact (List.mem_filter.mp hq).2
  records := fun _ => mem_marked
  frame := ⟨_, _, rfl⟩

/-- An accepted mutation is no dependent of a rejected one. -/
theorem accepted_stays (hwf : Wf e st) (h : Flight st) {push : ℕ} {receipt : PushReceipt}
    (hrej : ∀ r ∈ receipt.rejections, r.ordinal ∈ (batchOf st push).map (·.ordinal))
    (hq : q ∈ acceptedOf st push receipt) :
    ¬((rejectedOf st receipt.rejections).lookup q.ordinal).isSome := by
  obtain ⟨hbatch, hacc⟩ := List.mem_filter.mp hq
  obtain ⟨hin, hpush⟩ := mem_batchOf.mp hbatch
  rw [rejectedOf_sent hwf.sorted h (fun r hr => ?_) hin (by simp [hpush])]
  · simpa using hacc
  · obtain ⟨y, hy, hyo⟩ := List.mem_map.mp (hrej r hr)
    exact List.mem_map.mpr ⟨y, (mem_batchOf.mp hy).1, hyo⟩

/-- Acknowledging files no mutation that its receipt accepts. -/
theorem acknowledge_accepted (hwf : Wf e st) (h : Flight st) (hfiled : Filed st) {sequence : ℕ}
    {receipt : PushReceipt} {report : ApplyReport}
    (ha : e.acknowledge st sequence receipt = .ok (report, st'))
    (hq : q ∈ acceptedOf st sequence receipt) :
    ¬((rejectedOf st receipt.rejections).lookup q.ordinal).isSome ∧
      st'.rejections.lookup q.ordinal = none := by
  obtain ⟨hin, hpush⟩ := mem_batchOf.mp (List.mem_of_mem_filter hq)
  obtain ⟨-, -, ⟨hstale, -, -⟩ | ⟨-, -, hc⟩⟩ := acknowledge_eq_ok.mp ha
  · have := (h.sent q hin sequence hpush).1
    omega
  obtain ⟨covered, wireRows, mid, affected, reports, fin, hcomp, -, rfl⟩ := (complete_eq_ok hwf).mp hc
  have hset := settles_of_completes hwf hcomp.settled
  have hst := stages_all receipt.records affected hset.wf
  obtain ⟨b, hb⟩ := hset.frame
  have hqueue : (e.stageAll mid affected receipt.records).1.queue = st.queue := by rw [hst.queue, hb]
  have hstay := accepted_stays hwf h ((checkReceipt_eq_ok hwf).mp hcomp.checked).1 hq
  have hsame : rejectedOf (e.stageAll mid affected receipt.records).1 receipt.rejections =
      rejectedOf st receipt.rejections := by rw [rejectedOf, rejectedOf, hqueue]
  refine ⟨hstay, ?_⟩
  obtain ⟨m1, b1, q1, hf⟩ := (wf_rebuildHeld (wf_relieved hst.wf)
    (fun k hk => completes_named hwf receipt hset hk) hcomp.rebuilt).2.frame
  obtain ⟨m, b', s, hs⟩ := hst.frame
  have hinbox : fin.rejections =
      inboxOf (e.stageAll mid affected receipt.records).1 receipt.rejections := by
    rw [hf]; rfl
  change fin.rejections.lookup q.ordinal = none
  rw [hinbox, (lookup_inboxOf hst.wf.sorted).2, hs, hb]
  · by_contra hsome
    exact (hfiled q.ordinal (Option.isSome_iff_ne_none.mpr hsome)).2 (List.mem_map_of_mem hin)
  · intro hmem
    obtain ⟨x, hx, hxo⟩ := List.mem_map.mp hmem
    have hx := (List.mem_filter.mp hx).2
    rw [hxo, hsame] at hx
    exact hstay hx

/-- In every reachable state rejecting queued mutations takes the least closed set off the queue
    and files it, dropping takes no mutation in flight, and a receipt removes none it accepts. -/
theorem rejection_closure {c : Client} (h : Host.Reaches e c) :
    (∀ rejections : List Rejection,
      (∀ r ∈ rejections, ∃ q ∈ c.store.queue, q.ordinal = r.ordinal) →
      (rejections.map (·.ordinal)).Nodup → ∃ gone affected st,
        e.markRejected c.store rejections = .ok (affected, st) ∧
        Rejects c.store rejections gone affected st) ∧
    (∀ ordinal st, e.dropMutation c.store ordinal = .ok st →
      ∀ q ∈ c.store.queue, q.push.isSome → ∃ q' ∈ st.queue, q'.ordinal = q.ordinal) ∧
    ∀ sequence receipt report st, e.acknowledge c.store sequence receipt = .ok (report, st) →
      ∀ q ∈ acceptedOf c.store sequence receipt, st.rejections.lookup q.ordinal = none ∧
        ∀ gone, IsLeast {s | Closed c.store.queue receipt.rejections s} gone → q.ordinal ∉ gone := by
  have hwf := wf_reaches h
  have hflight := flight_reaches h
  have hfiled := filed_reaches h
  refine ⟨fun rejections hin hnd => ?_, fun ordinal st hd q hq hs => ?_,
    fun sequence receipt report st ha q hq => ?_⟩
  · exact ⟨_, _, _, markRejected_eq hwf, rejects_marked hwf hfiled hin hnd⟩
  · unfold Engine.dropMutation at hd
    split at hd
    · cases hd; exact ⟨q, hq, rfl⟩
    · rename_i q0 hq0
      split at hd
      · cases hd
      · rename_i hunsent
        simp only [Engine.removeRejected, markRejected_eq hwf, Except.ok_bind, Except.bind_eq_ok,
          Except.pure_eq_ok] at hd
        obtain ⟨⟨reports, st1⟩, hreb, rfl⟩ := hd
        have hstay := dropped_unsent hwf.sorted hflight hq0 hunsent hq hs
        have hx := (wf_rebuildHeld (wf_marked hwf) (fun k hk => marked_named hwf hk) hreb).2
        obtain ⟨q', hq', hg⟩ := List.forall₂_mem_left hx.queue
          (List.mem_map_of_mem (f := Queued.forget _)
            (List.mem_filter.mpr ⟨hq, decide_eq_true hstay⟩))
        exact ⟨q', hq', hg.ordinal⟩
  · obtain ⟨hstay, hnone⟩ := acknowledge_accepted hwf hflight hfiled ha hq
    exact ⟨hnone, fun gone hleast hmem => hstay (hleast.2 rejectedOf_least.1 hmem)⟩

namespace Sample

/-- Item `a` was sent, and its move waits behind it. -/
def moving : Client :=
  client loose [.enqueue { name := "put", operations := [create "a" "x"] }, .freeze 1000,
    .enqueue { name := "move", operations := [move "a" "y"] }]

end Sample

open Sample in
/-- Rejecting the create takes the move, dropping the move leaves the create in flight, and the
    receipt that accepts the create files nothing for it. -/
theorem rejection_closure_moving :
    (∃ gone affected st, loose.markRejected moving.store [⟨1, "no"⟩] = .ok (affected, st) ∧
      Rejects moving.store [⟨1, "no"⟩] gone affected st) ∧
    (∃ st, loose.dropMutation moving.store 2 = .ok st ∧ ∃ q ∈ st.queue, q.ordinal = 1) ∧
    ∃ report st, loose.acknowledge moving.store 1 ⟨"me", 1, [], [record "a" "x" 1]⟩ =
      .ok (report, st) ∧ st.rejections.lookup 1 = none := by
  obtain ⟨hrejects, hdrop, hack⟩ := rejection_closure (client_reaches loose
    [.enqueue { name := "put", operations := [create "a" "x"] }, .freeze 1000,
      .enqueue { name := "move", operations := [move "a" "y"] }])
  refine ⟨hrejects _ (by decide +kernel) (by decide), ?_, ?_⟩
  · obtain ⟨st, hst⟩ := Except.exists_ok
      (show (loose.dropMutation moving.store 2).isOk = true by decide +kernel)
    have hsent : ∃ q ∈ moving.store.queue, q.ordinal = 1 ∧ q.push.isSome := by decide +kernel
    obtain ⟨q, hq, hord, hs⟩ := hsent
    obtain ⟨q', hq', hord'⟩ := hdrop 2 st hst q hq hs
    exact ⟨st, hst, q', hq', hord'.trans hord⟩
  · obtain ⟨⟨report, st⟩, hst⟩ := Except.exists_ok
      (show (loose.acknowledge moving.store 1 ⟨"me", 1, [], [record "a" "x" 1]⟩).isOk = true by
        decide +kernel)
    have hacc : ∃ q ∈ acceptedOf moving.store 1 ⟨"me", 1, [], [record "a" "x" 1]⟩,
        q.ordinal = 1 := by decide +kernel
    obtain ⟨q, hq, hord⟩ := hacc
    exact ⟨report, st, hst, hord ▸ (hack _ _ report st hst q hq).1⟩

end Rejects

end AheadSync
