import AheadSync.Client.Frozen

/-! What becomes of the mutations of a queue. A call takes mutations off the queue or puts new ones on it,
    under ordinals that were never used; only a freeze sends them, only a receipt completes them, and
    the inbox gains unsent mutations and those a receipt rejects. -/

namespace AheadSync

/-- The push in flight, as it is encoded. -/
def Store.frozenPush (st : Store) : Option PushRequest :=
  if st.queue.any (·.push.isSome) then (st.encodePush (st.lastCompletedPush + 1)).toOption else none

/-- A push in flight can be encoded. -/
def Encodes (st : Store) : Prop :=
  (∃ q ∈ st.queue, q.push.isSome) → ∃ request, st.encodePush (st.lastCompletedPush + 1) = .ok request

/-- What a call that neither freezes nor completes a push lets pass. -/
structure Bypasses (st st' : Store) : Prop where
  client : st'.clientId = st.clientId
  completed : st'.lastCompletedPush = st.lastCompletedPush
  fresh : st.nextOrdinal ≤ st'.nextOrdinal
  queue : ∀ q' ∈ st'.queue, (∃ q ∈ st.queue, q'.ordinal = q.ordinal ∧ q'.push = q.push) ∨
    st.nextOrdinal ≤ q'.ordinal ∧ q'.push = none
  inbox : ∀ o, (st'.rejections.lookup o).isSome → (st.rejections.lookup o).isSome ∨
    (∃ q ∈ st.queue, q.ordinal = o ∧ q.push = none) ∧ ∀ q' ∈ st'.queue, q'.ordinal ≠ o

/-- What completing a push from a receipt does to the queue. -/
structure Concludes (st st' : Store) (receipt : PushReceipt) : Prop where
  client : st'.clientId = st.clientId
  completed : st'.lastCompletedPush = st.lastCompletedPush + 1
  fresh : st'.nextOrdinal = st.nextOrdinal
  queue : ∀ q' ∈ st'.queue, q'.push = none ∧ ∃ q ∈ st.queue, q'.ordinal = q.ordinal ∧ q.push = none
  inbox : ∀ o, (st'.rejections.lookup o).isSome → (st.rejections.lookup o).isSome ∨
    (∃ q ∈ st.queue, q.ordinal = o ∧ (q.push = none ∨ o ∈ receipt.rejections.map (·.ordinal))) ∧
      ∀ q' ∈ st'.queue, q'.ordinal ≠ o

section Bypasses
variable {e : Engine} {st st' st'' : Store}

theorem bypasses_refl (st : Store) : Bypasses st st :=
  ⟨rfl, rfl, le_rfl, fun q' hq' => .inl ⟨q', hq', rfl, rfl⟩, fun _ ho => .inl ho⟩

/-- Two calls, of which the second leaves the inbox alone. -/
theorem Bypasses.trans (h : Bypasses st st') (h' : Bypasses st' st'') (hr : st''.rejections = st.rejections) :
    Bypasses st st'' where
  client := h'.client.trans h.client
  completed := h'.completed.trans h.completed
  fresh := h.fresh.trans h'.fresh
  queue := by
    intro q'' hq''
    rcases h'.queue q'' hq'' with ⟨q', hq', hord, hpush⟩ | ⟨hnew, hpush⟩
    · rcases h.queue q' hq' with ⟨q, hq, hord', hpush'⟩ | ⟨hnew, hpush'⟩
      · exact .inl ⟨q, hq, hord.trans hord', hpush.trans hpush'⟩
      · exact .inr ⟨hord ▸ hnew, hpush.trans hpush'⟩
    · exact .inr ⟨h.fresh.trans hnew, hpush⟩
  inbox := fun o ho => .inl (hr ▸ ho)

theorem bypasses_of_spine (h : st'.spine = st.spine) (hr : st'.rejections = st.rejections) :
    Bypasses st st' where
  client := congrArg (·.clientId) h
  completed := congrArg (·.lastCompletedPush) h
  fresh := (congrArg (·.nextOrdinal) h).ge
  queue := by
    intro q' hq'
    obtain ⟨q, hq, hord, hpush, -⟩ := placed_of_spine h hq'
    exact .inl ⟨q, hq, hord, hpush⟩
  inbox := fun o ho => .inl (hr ▸ ho)

/-- No write of the engine reaches the inbox. -/
theorem within_inbox (e : Engine) : Within e fun st st' => st'.rejections = st.rejections where
  refl _ := rfl
  trans h h' := h'.trans h
  main := by
    intro st st' key row h
    cases row with
    | none =>
      obtain ⟨-, rfl⟩ := mainSet_none_eq_ok.mp h
      rfl
    | some row =>
      obtain ⟨_, -, -, -, rfl⟩ := mainSet_some_eq_ok.mp h
      rfl
  before := by
    intro st st' key row h
    cases row with
    | none =>
      obtain ⟨-, rfl⟩ := beforeSet_none_eq_ok.mp h
      rfl
    | some row =>
      obtain ⟨_, -, -, rfl⟩ := beforeSet_some_eq_ok.mp h
      rfl
  aside st key := by
    unfold Store.copyAside
    split
    · rfl
    · rfl
  mark st n := by
    cases n with
    | none => rfl
    | some n => rfl
  effect := by
    intro st st' n op h
    simp only [Engine.addEffect, Except.bind_eq_ok, Except.pure_eq_ok] at h
    obtain ⟨op', -, rfl⟩ := h
    rfl
  stamp _ _ _ _ := rfl
  subscriptions _ _ := rfl

/-- What writes rows alone lets everything pass. -/
theorem bypasses_within (h : ∀ {R : Store → Store → Prop}, Within e R → R st st') :
    Bypasses st st' :=
  bypasses_of_spine (h (within_spine e)) (h (within_inbox e))

theorem bypasses_enqueue {m : Mutation} {n : ℕ} (h : e.enqueue st m = .ok (n, st')) :
    Bypasses st st' ∧ st'.rejections = st.rejections := by
  obtain ⟨q, hord, hpush, -, -, hspine⟩ := enqueue_spine h
  have hinbox : st'.rejections = st.rejections := by
    simp only [Engine.enqueue, Except.bind_eq_ok, Except.pure_eq_ok] at h
    obtain ⟨-, -, -, -, ⟨mid, done, effects⟩, hfold, m', -, ⟨n', st2⟩, halloc, st3, hins, heq⟩ := h
    have hmid : mid.rejections = st.rejections :=
      List.foldlM_ok_induction (fun s : Store × List Operation × List Operation =>
        s.1.rejections = st.rejections)
        (fun s op t _ hs ht => ((within_inbox e).performOp ht).trans hs) rfl hfold
    simp only [Store.allocateOrdinal, Store.bump, Except.bind_eq_ok, Except.pure_eq_ok] at halloc
    obtain ⟨_, -, hst⟩ := halloc
    simp only [Engine.insertMutation, Except.bind_eq_ok, Except.pure_eq_ok] at hins
    obtain ⟨_, -, _, -, _, -, rfl⟩ := hins
    rw [← (Prod.mk.inj heq).2, ← hmid, ← (Prod.mk.inj hst).2]
  have hadded : Bypasses st { st with nextOrdinal := st.nextOrdinal + 1, queue := st.queue ++ [q] } := by
    refine ⟨rfl, rfl, Nat.le_succ _, fun q' hq' => ?_, fun _ ho => .inl ho⟩
    rcases List.mem_append.mp hq' with hq' | hq'
    · exact .inl ⟨q', hq', rfl, rfl⟩
    · obtain rfl := List.mem_singleton.mp hq'
      exact .inr ⟨hord.ge, hpush⟩
  exact ⟨hadded.trans (bypasses_of_spine hspine hinbox) hinbox, hinbox⟩

/-- The inbox after rejections were recorded. -/
theorem markRejected_inbox {rejections : List Rejection} {held : Held} {o : ℕ}
    (h : e.markRejected st rejections = .ok (held, st')) (ho : (st'.rejections.lookup o).isSome) :
    (st.rejections.lookup o).isSome ∨
      (∃ q ∈ st.queue, q.ordinal = o) ∧ o ∈ (rejectedOf st rejections).keys := by
  have hfold : ∀ (qs : List Queued) (f : Queued → RejectionRow) (st : Store),
      ((qs.foldl (fun st q => st.insertRejection q.ordinal (f q)) st).rejections.lookup o).isSome →
        (st.rejections.lookup o).isSome ∨ ∃ q ∈ qs, q.ordinal = o := by
    intro qs f
    induction qs with
    | nil => exact fun st hst => .inl hst
    | cons q qs ih =>
      intro st hst
      rcases ih _ hst with hst | ⟨q', hq', heq⟩
      · simp only [Store.insertRejection, SortedMap.lookup_insert] at hst
        split_ifs at hst with heq
        · exact .inr ⟨q, List.mem_cons_self .., heq.symm⟩
        · exact .inl hst
      · exact .inr ⟨q', List.mem_cons_of_mem _ hq', heq⟩
  simp only [Engine.markRejected, Except.bind_eq_ok, Except.pure_eq_ok, Prod.mk.injEq] at h
  obtain ⟨touched, -, -, rfl⟩ := h
  rcases hfold _ _ st ho with hst | ⟨q, hq, rfl⟩
  · exact .inl hst
  · obtain ⟨hq, hrej⟩ := List.mem_filter.mp hq
    exact .inr ⟨⟨q, hq, rfl⟩, mem_rejected_keys.mpr hrej⟩

/-- Dropping takes unsent mutations off the queue, and nothing else. -/
theorem bypasses_drop (hs : Sealed st) {n : ℕ} (h : e.dropMutation st n = .ok st') : Bypasses st st' := by
  unfold Engine.dropMutation at h
  split at h
  · cases h
    exact bypasses_refl st
  · rename_i q0 hq0
    split at h
    · cases h
    · rename_i hunsent
      simp only [Engine.removeRejected, Except.bind_eq_ok, Except.pure_eq_ok] at h
      obtain ⟨⟨held, st1⟩, hmark, ⟨reports, st2⟩, hreb, rfl⟩ := h
      set ns := (rejectedOf st [⟨n, "dropped"⟩]).keys with hns
      have hspine := ((within_spine e).rebuildHeld hreb).trans (markRejected_spine hmark)
      have hleft : ∀ q' ∈ st2.queue, ∃ q ∈ st.queue,
          q.ordinal ∉ ns ∧ q'.ordinal = q.ordinal ∧ q'.push = q.push := by
        intro q' hq'
        obtain ⟨q1, hq1, hord, hpush, -⟩ := placed_of_spine hspine hq'
        obtain ⟨q, hq, hkept, rfl⟩ := mem_deleteMutations hq1
        exact ⟨q, hq, hkept, hord, hpush⟩
      refine ⟨congrArg (·.clientId) hspine, congrArg (·.lastCompletedPush) hspine,
        (congrArg (·.nextOrdinal) hspine).ge, fun q' hq' => ?_, fun o ho => ?_⟩
      · obtain ⟨q, hq, -, hord, hpush⟩ := hleft q' hq'
        exact .inl ⟨q, hq, hord, hpush⟩
      · rw [(within_inbox e).rebuildHeld hreb] at ho
        rcases markRejected_inbox hmark ho with hst | ⟨⟨q, hq, rfl⟩, hkey⟩
        · exact .inl hst
        · refine .inr ⟨⟨q, hq, rfl, ?_⟩, fun q' hq' heq => ?_⟩
          · by_contra hsent
            exact dropped_unsent hs.sorted hs.flight hq0 hunsent hq (Option.isSome_iff_ne_none.mpr hsent) hkey
          · obtain ⟨q₁, -, hkept, hord, -⟩ := hleft q' hq'
            exact hkept (hns ▸ hord.symm.trans heq ▸ hkey)

/-- Completing the push in flight takes the whole batch off the queue. -/
theorem concludes_complete (hs : Sealed st) {push : ℕ} {receipt : PushReceipt} {report : ApplyReport}
    (hp : st.inFlight = .ok (some push)) (h : e.complete st push receipt = .ok (report, st')) :
    Concludes st st' receipt := by
  obtain ⟨hsealed, hlast⟩ := sealed_complete hs hp h
  have hpush : push = st.lastCompletedPush + 1 ∧ st.nextPush = st.lastCompletedPush + 2 := by
    rcases (inFlight_eq hs.flight).mp hp with ⟨-, h0⟩ | ⟨⟨q, hq, hsent⟩, heq⟩
    · cases h0
    · exact ⟨Option.some.inj heq, (hs.flight.sent q hq _ hsent).2⟩
  simp only [Engine.complete, Except.bind_eq_ok, Except.pure_eq_ok, Prod.mk.injEq] at h
  obtain ⟨⟨covered, wireRows⟩, hcheck, touched, -, ⟨settled, affected⟩, hsettle, ⟨marked, st1⟩, hmark,
    ⟨reports, fin⟩, hreb, -, rfl⟩ := h
  set mid := (e.stageAll settled affected receipt.records).1 with hmid
  set accepted := (st.queue.filter (·.push = some push)).filter
    (·.ordinal ∉ receipt.rejections.map (·.ordinal)) with haccepted
  have hspine : mid.spine = st.spine :=
    ((within_spine e).stageAll ..).trans ((within_spine e).settleCompanions hsettle)
  have hinbox : mid.rejections = st.rejections :=
    ((within_inbox e).stageAll ..).trans ((within_inbox e).settleCompanions hsettle)
  have hmids := sealed_of_spine hspine hs
  obtain ⟨hrej, -⟩ := by simpa [Engine.checkReceipt] using hcheck
  have hfin := ((within_spine e).rebuildHeld hreb).trans (spine_delete (markRejected_spine hmark) _)
  have hleft : ∀ q' ∈ fin.queue, ∃ q ∈ st.queue, q.ordinal ∉ (rejectedOf mid receipt.rejections).keys ∧
      q'.ordinal = q.ordinal ∧ q'.push = q.push := by
    intro q' hq'
    obtain ⟨q1, hq1, hord1, hpush1, -⟩ := placed_of_spine hfin hq'
    obtain ⟨q2, hq2, -, rfl⟩ := mem_deleteMutations hq1
    obtain ⟨q3, hq3, hnrej, rfl⟩ := mem_deleteMutations hq2
    obtain ⟨q, hq, hord, hpush, -⟩ := placed_of_spine hspine hq3
    exact ⟨q, hq, hord ▸ hnrej, hord1.trans hord, hpush1.trans hpush⟩
  have hnext : fin.nextPush = st.nextPush :=
    (congrArg (·.nextPush) hfin).trans (congrArg (·.nextPush) hspine)
  -- a mutation still in flight would be of a push that was never allocated
  have hidle : ∀ q' ∈ fin.queue, q'.push = none := by
    intro q' hq'
    cases hq : q'.push with
    | none => rfl
    | some p =>
      obtain ⟨-, hahead⟩ := hsealed.flight.sent q' hq' p hq
      change fin.nextPush = push + 2 at hahead
      omega
  refine ⟨?_, hpush.1, ?_, fun q' hq' => ?_, fun o ho => ?_⟩
  · exact (congrArg (·.clientId) hfin).trans (congrArg (·.clientId) hspine)
  · exact (congrArg (·.nextOrdinal) hfin).trans (congrArg (·.nextOrdinal) hspine)
  · obtain ⟨q, hq, -, hord, hsame⟩ := hleft q' hq'
    exact ⟨hidle q' hq', q, hq, hord, hsame.symm.trans (hidle q' hq')⟩
  · have hrebuilt := (within_inbox e).rebuildHeld hreb
    change (fin.rejections.lookup o).isSome at ho
    rw [hrebuilt] at ho
    rcases markRejected_inbox hmark ho with hst | ⟨⟨q3, hq3, rfl⟩, hkey⟩
    · exact .inl (hinbox ▸ hst)
    · obtain ⟨q, hq, hord, hsame, -⟩ := placed_of_spine hspine hq3
      refine .inr ⟨⟨q, hq, hord.symm, ?_⟩, fun q' hq' heq => ?_⟩
      · cases hsent : q.push with
        | none => exact .inl rfl
        | some p =>
          have hnamed : ∀ x ∈ receipt.rejections, x.ordinal ∈ mid.queue.map (·.ordinal) := by
            intro x hx
            obtain ⟨y, ⟨hy, -⟩, hyo⟩ := hrej x hx
            rw [ordinals_of_spine hspine, ← hyo]
            exact List.mem_map_of_mem hy
          exact .inr ((rejectedOf_sent hmids.sorted hmids.flight hnamed hq3
            (by rw [hsame, hsent]; rfl)).mp (mem_rejected_keys.mp hkey))
      · obtain ⟨q₁, -, hnrej, hord₁, -⟩ := hleft q' hq'
        exact hnrej (hord₁.symm.trans heq ▸ hkey)

end Bypasses

section Calls
variable {e : Engine} {c : Client} {s : Host} {st st' : Store} {request : PushRequest}

theorem bypasses_transaction (body : List TransactionStep) (commits : Bool) :
    Bypasses c.store (c.transaction e body commits).store := by
  have hbody : Bypasses c.store (Machine.run e.transactionStep (c.store, []) body).1 ∧
      (Machine.run e.transactionStep (c.store, []) body).1.rejections = c.store.rejections := by
    refine Machine.run_invariant
      (P := fun acc : Store × List String => Bypasses c.store acc.1 ∧ acc.1.rejections = c.store.rejections)
      (fun acc t hacc => ?_) ⟨bypasses_refl _, rfl⟩
    obtain ⟨hpass, hinbox⟩ := hacc
    cases t with
    | enqueue m =>
      simp only [Engine.transactionStep]
      split
      · rename_i he
        obtain ⟨hone, hsame⟩ := bypasses_enqueue he
        exact ⟨hpass.trans hone (hsame.trans hinbox), hsame.trans hinbox⟩
      · exact ⟨hpass, hinbox⟩
    | direct op =>
      simp only [Engine.transactionStep]
      split
      · rename_i hd
        have hsame := ((within_inbox e).direct hd).trans hinbox
        exact ⟨hpass.trans (bypasses_within fun w => w.direct hd) hsame, hsame⟩
      · exact ⟨hpass, hinbox⟩
    | setChannel channel subscribed =>
      have hset : (Store.setChannel acc (channel, subscribed)).1.rejections = acc.1.rejections :=
        (within_inbox e).setChannel
      have hsame := hset.trans hinbox
      exact ⟨hpass.trans (bypasses_within (e := e) fun w => w.setChannel) hsame, hsame⟩
  unfold Client.transaction
  cases commits with
  | true => exact hbody.1
  | false => exact bypasses_refl _

/-- A call that neither freezes a push nor delivers a receipt. -/
def HostCall.Plain : HostCall → Prop
  | .call (.freeze _) | .call (.acknowledge _ _) => False
  | _ => True

theorem bypasses_act (h : Sealed c.store) {a : ClientAction} (ha : (HostCall.call a).Plain) :
    Bypasses c.store (c.act e a).store := by
  have hrefl := bypasses_refl c.store
  cases a with
  | enqueue m => exact commit_keeps hrefl fun _ _ hr => (bypasses_enqueue hr).1
  | freeze maxBytes => exact ha.elim
  | acknowledge sequence receipt => exact ha.elim
  | applyPage page =>
    rcases applyPage_store e c page with heq | ⟨report, hp⟩
    · simp only [Client.act, heq]
      exact hrefl
    · exact bypasses_within fun w => w.applyCurrentPage hp
  | receive page request =>
    rcases receive_store e c page request with heq | ⟨report, hp⟩
    · simp only [Client.act, heq]
      exact hrefl
    · exact bypasses_within fun w => w.applyCurrentPage hp
  | drop ordinal =>
    refine commit_keeps hrefl fun _ _ hr => ?_
    obtain ⟨st1, hd, heq⟩ := Except.map_eq_ok.mp hr
    obtain ⟨-, rfl⟩ := Prod.mk.inj heq
    exact bypasses_drop h hd
  | setChannels changes =>
    obtain ⟨subscriptions, hs⟩ := setChannels_frame changes (c.store, [])
    simp only [Client.act, Client.setChannels, hs]
    exact bypasses_of_spine rfl rfl
  | pull =>
    simp only [Client.act, Client.downlinkRequest]
    split
    · exact hrefl
    · exact hrefl
  | resolve key => exact bypasses_of_spine spine_resolvePrerequisite rfl
  | restart => exact hrefl

/-- Plain calls let everything pass. -/
theorem bypasses_step (h : Sealed s.client.store) {call : HostCall} (hc : call.Plain) :
    Bypasses s.client.store (s.step call).client.store := by
  cases call with
  | call a => exact bypasses_act h hc
  | transaction body commits => exact bypasses_transaction body commits
  | readiness key value =>
    cases value with
    | ready => exact bypasses_of_spine spine_resolvePrerequisite rfl
    | failed => exact bypasses_refl _
    | pending => exact bypasses_refl _
  | dismissRejection ordinal =>
    refine ⟨rfl, rfl, le_rfl, fun q' hq' => .inl ⟨q', hq', rfl, rfl⟩, fun o ho => .inl ?_⟩
    change ((s.client.store.rejections.erase ordinal).lookup o).isSome at ho
    rw [SortedMap.lookup_erase] at ho
    split_ifs at ho with heq
    · cases ho
    · exact ho
  | reopen e' =>
    simp only [Host.step, Client.reopen]
    split
    · rename_i hr
      refine bypasses_of_spine (spine_reconcile hr) ?_
      refine List.foldlM_ok_induction (fun st => st.rejections = s.client.store.rejections)
        (fun st model st' _ hst ht => ?_) rfl hr
      rw [← hst]
      unfold reconcileModel at ht
      split at ht
      · cases ht
        rfl
      · simp only [Except.bind_eq_ok, Except.pure_eq_ok] at ht
        obtain ⟨-, -, added, -, -, -, rfl⟩ := ht
        rfl
    · exact bypasses_refl _

theorem frozenPush_eq_some : st.frozenPush = some request ↔
    (∃ q ∈ st.queue, q.push.isSome) ∧ st.encodePush (st.lastCompletedPush + 1) = .ok request := by
  rw [Store.frozenPush]
  split_ifs with h
  · rw [List.any_eq_true] at h
    cases he : st.encodePush (st.lastCompletedPush + 1) with
    | error m => simp [Except.toOption]
    | ok r => simp [Except.toOption, h]
  · rw [List.any_eq_true] at h
    simp only [false_iff, not_and]
    exact fun hq => absurd hq h

theorem frozenPush_eq_none (h : Encodes st) : st.frozenPush = none ↔ ∀ q ∈ st.queue, q.push = none := by
  rw [← not_iff_not, ← ne_eq, Option.ne_none_iff_exists']
  constructor
  · rintro ⟨request, hr⟩ hall
    obtain ⟨⟨q, hq, hsome⟩, -⟩ := frozenPush_eq_some.mp hr
    rw [hall q hq] at hsome
    cases hsome
  · intro hnot
    push Not at hnot
    obtain ⟨q, hq, hpush⟩ := hnot
    have hsent : ∃ q ∈ st.queue, q.push.isSome := ⟨q, hq, Option.isSome_iff_ne_none.mpr hpush⟩
    obtain ⟨request, hr⟩ := h hsent
    exact ⟨request, frozenPush_eq_some.mpr ⟨hsent, hr⟩⟩

/-- What the push in flight says. -/
theorem frozenPush_spec (h : st.frozenPush = some request) : request.clientId = st.clientId ∧
    request.batchSequence = st.lastCompletedPush + 1 ∧ request.validate = .ok () ∧
    request.mutations = (batchOf st (st.lastCompletedPush + 1)).map (·.wire) := by
  obtain ⟨-, hr⟩ := frozenPush_eq_some.mp h
  simp only [Store.encodePush, Except.bind_eq_ok, Except.pure_eq_ok] at hr
  obtain ⟨models, -, _, hvalid, rfl⟩ := hr
  exact ⟨rfl, rfl, hvalid, rfl⟩

/-- A plain call leaves the push in flight as it is encoded. -/
theorem frozenPush_plain (hp : Bypasses st st') (hs : Steady st st') (hsealed : Sealed st) :
    st'.frozenPush = st.frozenPush ∧ (Encodes st → Encodes st') := by
  by_cases hsent : ∃ q ∈ st.queue, q.push.isSome
  · have hflying := hs.flying hsent hp.completed (st.lastCompletedPush + 1)
    have hencode : st'.encodePush (st'.lastCompletedPush + 1) = st.encodePush (st.lastCompletedPush + 1) := by
      rw [hp.completed]
      exact encodePush_congr hflying
    have hstays : ∃ q ∈ st'.queue, q.push.isSome := by
      obtain ⟨q, hq, hsome⟩ := hsent
      obtain ⟨p, hpush⟩ := Option.isSome_iff_exists.mp hsome
      obtain ⟨rfl, -⟩ := hsealed.flight.sent q hq p hpush
      have hmem : q.wire ∈ (st'.flying (st.lastCompletedPush + 1)).2.2 :=
        hflying ▸ List.mem_map_of_mem (List.mem_filter.mpr ⟨hq, decide_eq_true hpush⟩)
      obtain ⟨x, hx, -⟩ := List.mem_map.mp hmem
      exact ⟨x, (mem_batchOf.mp hx).1, by rw [(mem_batchOf.mp hx).2]; rfl⟩
    refine ⟨?_, fun he _ => hencode ▸ he hsent⟩
    rw [Store.frozenPush, Store.frozenPush, if_pos (List.any_eq_true.mpr hsent),
      if_pos (List.any_eq_true.mpr hstays), hencode]
  · have hidle : ¬∃ q ∈ st'.queue, q.push.isSome := by
      rintro ⟨q', hq', hsome⟩
      rcases hp.queue q' hq' with ⟨q, hq, -, hpush⟩ | ⟨-, hpush⟩
      · exact hsent ⟨q, hq, hpush ▸ hsome⟩
      · rw [hpush] at hsome
        cases hsome
    refine ⟨?_, fun _ h => absurd h hidle⟩
    rw [Store.frozenPush, Store.frozenPush, if_neg (by rwa [List.any_eq_true]),
      if_neg (by rwa [List.any_eq_true])]

/-- A freeze changes nothing or sends unsent mutations, and then the push can be encoded. -/
theorem freeze_passes (hs : Sealed st) {maxBytes : ℕ} {answer : Option PushRequest}
    (h : e.freeze st maxBytes = .ok (answer, st')) : st' = st ∨ ((∀ q ∈ st.queue, q.push = none) ∧
      st'.clientId = st.clientId ∧ st'.lastCompletedPush = st.lastCompletedPush ∧
      st'.nextOrdinal = st.nextOrdinal ∧ st'.rejections = st.rejections ∧
      st'.queue.map (·.ordinal) = st.queue.map (·.ordinal) ∧ Encodes st') := by
  rcases freeze_spec h with rfl | ⟨hnone, selected, -, -, -, rfl, r, -, hr⟩
  · exact .inl rfl
  · have hidle : ∀ q ∈ st.queue, q.push = none := by
      rcases (inFlight_eq hs.flight).mp hnone with ⟨hall, -⟩ | ⟨-, h0⟩
      · exact hall
      · cases h0
    refine .inr ⟨hidle, rfl, rfl, rfl, rfl, ?_, fun _ => ⟨r, ?_⟩⟩
    · simp only [Store.frozen, Store.setPushModels, Store.assignPush, List.map_map]
      refine List.map_congr_left fun q _ => ?_
      rw [Function.comp_apply]
      split
      · rfl
      · rfl
    · have hnext := hs.flight.idle hidle
      rw [hnext] at hr
      exact hr

/-- What a freeze answers is the push in flight. -/
theorem freeze_frozenPush (hs : Sealed st) {maxBytes : ℕ} (h : e.freeze st maxBytes = .ok (some request, st')) :
    st'.frozenPush = some request := by
  obtain ⟨push, hencode, q, hq, hpush⟩ := freeze_some h
  obtain ⟨rfl, -⟩ := (sealed_freeze hs h).flight.sent q hq push hpush
  exact frozenPush_eq_some.mpr ⟨⟨q, hq, by rw [hpush]; rfl⟩, hencode⟩

/-- A receipt changes nothing, or it completes the push in flight, whose number it carries. -/
theorem acknowledge_step (hs : Sealed s.client.store) (sequence : ℕ) (receipt : PushReceipt) :
    (s.step (.call (.acknowledge sequence receipt))).client.store = s.client.store ∨
      (receipt.clientId = s.client.store.clientId ∧
        receipt.batchSequence = s.client.store.lastCompletedPush + 1 ∧
        (∃ q ∈ s.client.store.queue, q.push.isSome) ∧
        Concludes s.client.store (s.step (.call (.acknowledge sequence receipt))).client.store receipt) := by
  have hcases : ∀ st', (∃ report, s.engine.acknowledge s.client.store sequence receipt = .ok (report, st')) →
      st' = s.client.store ∨ (receipt.clientId = s.client.store.clientId ∧
        receipt.batchSequence = s.client.store.lastCompletedPush + 1 ∧
        (∃ q ∈ s.client.store.queue, q.push.isSome) ∧ Concludes s.client.store st' receipt) := by
    rintro st' ⟨report, ha⟩
    obtain ⟨hseq, hclient, ⟨-, -, rfl⟩ | ⟨-, hp, hc⟩⟩ := acknowledge_eq_ok.mp ha
    · exact .inl rfl
    · rcases (inFlight_eq hs.flight).mp hp with ⟨-, h0⟩ | ⟨⟨q, hq, hpush⟩, heq⟩
      · cases h0
      · exact .inr ⟨hclient, hseq.trans (Option.some.inj heq), ⟨q, hq, by rw [hpush]; rfl⟩,
          concludes_complete hs hp hc⟩
  simp only [Host.step, Client.act, Client.acknowledge]
  split
  · exact .inl rfl
  · unfold Client.commit
    split
    · rename_i report st' ha
      exact hcases st' ⟨report, ha⟩
    · exact .inl rfl

end Calls

end AheadSync
