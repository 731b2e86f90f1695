import AheadSync.Client.Transport
import AheadSync.Client.Complete
import AheadSync.Lib.Run

/-! The runs of one client: any order of the calls its host makes, each in its own transaction, so
    that a call that fails leaves the store as it was. Every store a run reaches is well-formed. -/

namespace AheadSync

/-- One call of the host. -/
inductive ClientAction where
  | enqueue (m : Mutation)
  | freeze (maxBytes : ℕ)
  | acknowledge (sequence : ℕ) (receipt : PushReceipt)
  | applyPage (page : PullPage)
  | receive (page : PullPage) (request : Option PullRequest)
  | drop (ordinal : ℕ)
  | setChannels (changes : List (String × Bool))
  | pull
  | resolve (key : String)
  | restart

namespace Client
variable (e : Engine) (c : Client)

/-- A receipt is validated as it is decoded. -/
def acknowledge (sequence : ℕ) (receipt : PushReceipt) : Except String ApplyReport × Client :=
  match receipt.validate with
  | .error m => (.error m, c)
  | .ok () => c.commit (e.acknowledge c.store sequence receipt)

/-- The client after a call, whatever it answered. -/
def act : ClientAction → Client
  | .enqueue m => (c.commit (e.enqueue c.store m)).2
  | .freeze maxBytes => (c.commit (e.freeze c.store maxBytes)).2
  | .acknowledge sequence receipt => (c.acknowledge e sequence receipt).2
  | .applyPage page => (c.applyPage e page).2
  | .receive page request => (c.receiveDownlink e page request).2
  | .drop ordinal => (c.commit ((e.dropMutation c.store ordinal).map ((), ·))).2
  | .setChannels changes => c.setChannels changes
  | .pull => (c.downlinkRequest e).2
  | .resolve key => { c with store := c.store.resolvePrerequisite key }
  | .restart => c.restart

/-- A client opened on a fresh file. -/
def opened (clientId : String) : Client := ⟨{ clientId }, {}⟩

end Client

/-- A client some run reaches from a fresh file. -/
def Reachable (e : Engine) (c : Client) : Prop :=
  ∃ clientId actions, c = Machine.run (Client.act e) (Client.opened clientId) actions

section Commit
variable {e : Engine} {c : Client} {α : Type} {P : Store → Prop}

/-- A transaction keeps what its successful body keeps. -/
theorem commit_keeps {r : Except String (α × Store)} (h : P c.store)
    (hr : ∀ a st, r = .ok (a, st) → P st) : P (c.commit r).2.store := by
  unfold Client.commit
  split
  · rename_i a st
    exact hr a st rfl
  · exact h

end Commit

section Wf
variable {e : Engine} {st st' : Store}

/-- Changing the queue without its ordinals, operations and dependencies growing. -/
theorem wf_map {f : Queued → Queued} (h : Wf e st)
    (hf : ∀ q, (f q).ordinal = q.ordinal ∧ (f q).mutation.allOps = q.mutation.allOps ∧
      (f q).mutation.lifecycleDependencies = q.mutation.lifecycleDependencies ∧
      (f q).mutation.sequenceDependencies = q.mutation.sequenceDependencies) :
    Wf e { st with queue := st.queue.map f } where
  ops := by
    intro q hq
    obtain ⟨q0, hq0, rfl⟩ := List.mem_map.mp hq
    rw [(hf q0).2.1]; exact h.ops q0 hq0
  main := h.main
  before := h.before
  sorted := by
    have : (fun q : Queued => q.ordinal) ∘ f = (·.ordinal) := funext fun q => (hf q).1
    simp only [List.map_map, this]
    exact h.sorted
  fresh := by
    intro q hq
    obtain ⟨q0, hq0, rfl⟩ := List.mem_map.mp hq
    rw [(hf q0).1]; exact h.fresh q0 hq0
  deps := by
    intro q hq
    obtain ⟨q0, hq0, rfl⟩ := List.mem_map.mp hq
    rw [(hf q0).1, (hf q0).2.2.1, (hf q0).2.2.2]; exact h.deps q0 hq0

/-- The store after mutations were assigned the next push. -/
def Store.frozen (st : Store) (ordinals : List ℕ) (models : Models) : Store :=
  Store.setPushModels (Store.assignPush { st with nextPush := st.nextPush + 1 } ordinals st.nextPush)
    models

/-- Freezing assigns the next push number to the selected mutations, or changes nothing. -/
theorem freeze_spec {maxBytes : ℕ} {request : Option PushRequest}
    (h : e.freeze st maxBytes = .ok (request, st')) : st' = st ∨
      (st.inFlight = .ok none ∧ ∃ selected : List Queued,
        selected = e.select st maxBytes [] (st.queue.filter (·.push = none)) ∧ selected ≠ [] ∧
        st.nextPush + 1 ≤ maxSafeInteger ∧
        st' = st.frozen (selected.map (·.ordinal)) e.declaredModels ∧
        ∃ r, request = some r ∧ st'.encodePush st.nextPush = .ok r) := by
  unfold Engine.freeze at h
  split at h
  · cases h; exact Or.inl rfl
  · simp only [Except.bind_eq_ok] at h
    obtain ⟨flight, hflight, h⟩ := h
    split at h
    · simp only [Except.bind_eq_ok, Except.pure_eq_ok, Prod.mk.injEq] at h
      obtain ⟨_, _, -, rfl⟩ := h
      exact Or.inl rfl
    · split at h
      · cases h; exact Or.inl rfl
      · rename_i hne
        simp only [Except.bind_eq_ok, Except.pure_eq_ok, Prod.mk.injEq, Store.allocatePush,
          Store.bump, ensure_eq_ok] at h
        obtain ⟨_, ⟨_, ⟨_, hroom, rfl⟩, rfl⟩, r, hr, rfl, rfl⟩ := h
        exact Or.inr ⟨hflight, _, rfl, hne, hroom, rfl, r, rfl, hr⟩

theorem wf_freeze (h : Wf e st) {maxBytes : ℕ} {request : Option PushRequest}
    (hf : e.freeze st maxBytes = .ok (request, st')) : Wf e st' := by
  rcases freeze_spec hf with rfl | ⟨-, selected, -, -, -, rfl, -⟩
  · exact h
  · refine wf_of_eq (wf_map (f := fun q =>
      if q.ordinal ∈ selected.map (·.ordinal) then { q with push := some st.nextPush } else q) h
      fun q => ?_) rfl rfl rfl le_rfl
    split <;> exact ⟨rfl, rfl, rfl, rfl⟩

theorem wf_resolve (h : Wf e st) (key : String) : Wf e (st.resolvePrerequisite key) :=
  wf_map h fun _ => ⟨rfl, rfl, rfl, rfl⟩

theorem setCursors_frame : ∀ (es : List (String × ℕ)) (st : Store), ∃ subscriptions,
    es.foldl (fun st e => Store.setCursor st e.1 e.2) st = { st with subscriptions := subscriptions }
  | [], st => ⟨st.subscriptions, rfl⟩
  | x :: es, st => by
    obtain ⟨s, h⟩ := setCursors_frame es (st.setCursor x.1 x.2)
    exact ⟨s, by rw [List.foldl_cons, h]; rfl⟩

/-- A delivery of records stages them and rebuilds what it holds. -/
theorem applyRecords_eq_ok {records : List AuthorityRecord} {report : ApplyReport} :
    e.applyRecords st records = .ok (report, st') ↔ ∃ reports,
      e.rebuildHeld (e.stageAll st [] records).1 (e.stageAll st [] records).2.1 =
        .ok (reports, st') ∧
      report = stagedReport id (e.stageAll st [] records).2.2 reports := by
  simp only [Engine.applyRecords, Except.bind_eq_ok, Except.pure_eq_ok, Prod.mk.injEq]
  constructor
  · rintro ⟨⟨reports, st1⟩, h, rfl, rfl⟩
    exact ⟨reports, h, rfl⟩
  · rintro ⟨reports, h, rfl⟩
    exact ⟨(reports, st'), h, rfl, rfl⟩

theorem wf_applyRecords (h : Wf e st) {records : List AuthorityRecord} {report : ApplyReport}
    (ha : e.applyRecords st records = .ok (report, st')) : Wf e st' := by
  obtain ⟨reports, hr, -⟩ := applyRecords_eq_ok.mp ha
  have hst := stages_all records [] h
  exact (wf_rebuildHeld hst.wf
    (fun k hk => (hst.new k hk).elim (fun h => nomatch h) fun h => h.1) hr).1

/-- A page that moves a cursor lands its records and then its cursors. -/
theorem applyCurrentPage_eq_ok {page : PullPage} {report : ApplyReport} :
    e.applyCurrentPage st page = .ok (report, st') ↔ ∃ moving, st.movingChannels page = .ok moving ∧
      ((moving.isEmpty = true ∧ report = { stale := true } ∧ st' = st) ∨
        (moving.isEmpty = false ∧
          (∀ x ∈ page.cursors.entries, ∀ goal ∈ moving.lookup x.1,
            ¬((st.cursor x.1).getD 0 ≠ x.2.fromCursor ∧ goal ≤ (st.cursor x.1).getD 0)) ∧
          ∃ report1 st1, e.applyRecords st page.changes = .ok (report1, st1) ∧
            report = { report1 with cursors := moving } ∧ st' = st1.setCursors moving)) := by
  simp only [Engine.applyCurrentPage, Except.bind_eq_ok]
  refine exists_congr fun moving => and_congr_right fun _ => ?_
  cases hm : moving.isEmpty with
  | true => simp [eq_comm, pure, Except.pure]
  | false =>
    simp only [Bool.false_eq_true, ↓reduceIte, Except.bind_eq_ok, List.forM_eq_ok,
      Except.pure_eq_ok, Prod.mk.injEq, false_and, false_or, true_and]
    constructor
    · rintro ⟨-, hc, ⟨report1, st1⟩, ha, rfl, rfl⟩
      refine ⟨fun x hx goal hgoal => ?_, report1, st1, ha, rfl, rfl⟩
      have hcheck := hc x hx
      simp only [Option.mem_def.mp hgoal, ensure_eq_ok] at hcheck
      exact hcheck
    · rintro ⟨hc, report1, st1, ha, rfl, rfl⟩
      refine ⟨(), fun x hx => ?_, (report1, st1), ha, rfl, rfl⟩
      cases hl : moving.lookup x.1 with
      | none => rfl
      | some goal => exact ensure_eq_ok.mpr (hc x hx goal hl)

theorem wf_applyCurrentPage (h : Wf e st) {page : PullPage} {report : ApplyReport}
    (ha : e.applyCurrentPage st page = .ok (report, st')) : Wf e st' := by
  obtain ⟨moving, -, ⟨-, -, rfl⟩ | ⟨-, -, report1, st1, hr, -, rfl⟩⟩ := applyCurrentPage_eq_ok.mp ha
  · exact h
  · obtain ⟨s, hs⟩ := setCursors_frame moving.entries st1
    rw [Store.setCursors, hs]
    exact wf_of_eq (wf_applyRecords h hr) rfl rfl rfl le_rfl

theorem setChannels_frame : ∀ (changes : List (String × Bool)) (acc : Store × List String),
    ∃ subscriptions, (changes.foldl Store.setChannel acc).1 =
      { acc.1 with subscriptions := subscriptions }
  | [], acc => ⟨acc.1.subscriptions, rfl⟩
  | (channel, subscribed) :: changes, (st, marks) => by
    obtain ⟨s, h⟩ := setChannels_frame changes
      (Store.setChannel (st, marks) (channel, subscribed))
    have h1 : ∃ s, (Store.setChannel (st, marks) (channel, subscribed)).1 =
        { st with subscriptions := s } := by
      unfold Store.setChannel
      simp only
      split
      · split
        · exact ⟨_, rfl⟩
        · exact ⟨_, rfl⟩
      · exact ⟨_, rfl⟩
    obtain ⟨s1, h1⟩ := h1
    exact ⟨s, by rw [List.foldl_cons, h, h1]⟩

end Wf

section Reachable
variable {e : Engine} {c : Client}

/-- A page leaves the store as it was or lands it. -/
theorem receive_store (e : Engine) (c : Client) (page : PullPage) (request : Option PullRequest) :
    (c.receiveDownlink e page request).2.store = c.store ∨ ∃ report,
      e.applyCurrentPage c.store page = .ok (report, (c.receiveDownlink e page request).2.store) := by
  unfold Client.receiveDownlink
  split
  · exact Or.inl rfl
  · simp only
    split
    · exact Or.inl rfl
    · split
      · exact Or.inl rfl
      · split
        · exact Or.inl rfl
        · unfold Client.commit
          cases ha : e.applyCurrentPage c.store page with
          | ok out => exact Or.inr ⟨out.1, rfl⟩
          | error m => exact Or.inl rfl

theorem applyPage_store (e : Engine) (c : Client) (page : PullPage) :
    (c.applyPage e page).2.store = c.store ∨ ∃ report,
      e.applyCurrentPage c.store page = .ok (report, (c.applyPage e page).2.store) := by
  unfold Client.applyPage
  split
  · exact Or.inl rfl
  · simp only
    split
    · exact Or.inl rfl
    · unfold Client.commit
      cases ha : e.applyCurrentPage c.store page with
      | ok out => exact Or.inr ⟨out.1, rfl⟩
      | error m => exact Or.inl rfl

/-- Every call keeps the store well-formed. -/
theorem wf_act (h : Wf e c.store) (a : ClientAction) : Wf e (c.act e a).store := by
  cases a with
  | enqueue m => exact commit_keeps (P := Wf e) h fun _ _ hr => wf_enqueue h hr
  | freeze maxBytes => exact commit_keeps (P := Wf e) h fun _ _ hr => wf_freeze h hr
  | acknowledge sequence receipt =>
    simp only [Client.act, Client.acknowledge]
    split
    · exact h
    · exact commit_keeps (P := Wf e) h fun _ _ hr => wf_acknowledge h hr
  | applyPage page =>
    rcases applyPage_store e c page with heq | ⟨report, ha⟩
    · simp only [Client.act, heq]; exact h
    · exact wf_applyCurrentPage h ha
  | receive page request =>
    rcases receive_store e c page request with
      heq | ⟨report, ha⟩
    · simp only [Client.act, heq]; exact h
    · exact wf_applyCurrentPage h ha
  | drop ordinal =>
    refine commit_keeps (P := Wf e) h fun a st hr => ?_
    obtain ⟨st1, hd, heq⟩ := Except.map_eq_ok.mp hr
    obtain ⟨-, rfl⟩ := Prod.mk.inj heq
    exact wf_dropMutation h hd
  | setChannels changes =>
    obtain ⟨s, hs⟩ := setChannels_frame changes (c.store, [])
    simp only [Client.act, Client.setChannels, hs]
    exact wf_of_eq h rfl rfl rfl le_rfl
  | pull =>
    simp only [Client.act, Client.downlinkRequest]
    split <;> exact h
  | resolve key => exact wf_resolve h key
  | restart => exact h

theorem wf_opened (clientId : String) : Wf e (Client.opened clientId).store where
  ops := by simp [Client.opened]
  main := fun k row h => by simp [Client.opened] at h
  before := fun k row h => by simp [Client.opened] at h
  sorted := by simp [Client.opened]
  fresh := by simp [Client.opened]
  deps := by simp [Client.opened]

/-- Every reachable store is well-formed. -/
theorem wf_reachable (h : Reachable e c) : Wf e c.store := by
  obtain ⟨clientId, actions, rfl⟩ := h
  exact Machine.run_invariant (P := fun c : Client => Wf e c.store) (fun _ a hc => wf_act hc a)
    (wf_opened clientId)

end Reachable

end AheadSync
