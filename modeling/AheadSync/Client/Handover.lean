import AheadSync.Client.Lane

/-! The live lane of a handle over an in-place rebuild (`bindings/common/src/lib.rs`). A rebuild gives the
    handle a live session that never started, and one that counts its epochs from the beginning. -/

namespace AheadSync.Lane

/-- What a host keeps of a handle: its client, and its live lane. -/
structure Entry where
  client : Attached
  live : LiveSession := {}

/-- A command given to a handle. A rebuild comes with the client that `Client::rebuild` answers, any
    other command with what it leaves of the client. -/
inductive Command where
  | live (event : LiveEvent) (now entropy : ℕ)
  | rebuild (fresh : Except String Attached)
  | other (client : Attached)

namespace Entry
variable (j : Json) (e : Entry)

/-- `RuntimeHost::call`: the actions of the live lane, and the handle after the command. -/
def call : Command → Except String (List LiveAction) × Entry
  | .live event now entropy =>
    if e.client.busy then (.error "client transaction active", e)
    else
      let (r, live, client) := e.live.handle j e.client event now entropy
      (r, ⟨client, live⟩)
  | .rebuild fresh =>
    if e.client.busy then (.error "client transaction active", e)
    else match fresh with
      | .error m => (.error m, e)
      | .ok client => (.ok [], ⟨client, {}⟩)
  | .other client => (.ok [], { e with client })

end Entry

/-- The epochs a list of actions opens sessions under. -/
def opens (actions : List LiveAction) : List ℕ :=
  actions.filterMap fun
    | .open epoch _ => some epoch
    | _ => none

/-- A handle, and every epoch its host was asked to open a session under. -/
structure Record where
  entry : Entry
  opened : List ℕ := []

def Record.call (j : Json) (r : Record) (c : Command) : Record where
  entry := (r.entry.call j c).2
  opened := r.opened ++ match (r.entry.call j c).1 with
    | .ok actions => opens actions
    | .error _ => []

/-- The lane was started, and neither stopped nor paused since. -/
def Entry.Started (e : Entry) : Prop := e.live.driver.running ∧ ¬e.live.driver.paused

/-- The answer opens a session for exactly these channels, or waits. -/
def Restarts (j : Json) (e : Entry) (channels : List String) (c : Command) : Prop :=
  ∃ actions, (e.call j c).1 = .ok actions ∧
    ((∃ epoch request, SubscribeRequest.make channels e.client.engine.declaredModels = .ok request ∧
        .open epoch (j.text request.toValue) ∈ actions) ∨
      ∃ millis, .wait millis ∈ actions)

/-- The lane survives a rebuild that answers `fresh`: a wake or a timer restarts it, and no session opened
    later has an epoch of one opened before. -/
def Survives (j : Json) (r : Record) (fresh : Attached) : Prop :=
  (∀ event, event = .wake ∨ event = .next → ∀ now entropy,
    Restarts j (r.call j (.rebuild (.ok fresh))).entry fresh.desiredChannels (.live event now entropy)) ∧
  ∀ after s, (Machine.run (Record.call j) (r.call j (.rebuild (.ok fresh))) after).entry.live.session =
    some s → s.epoch ∉ r.opened

section Dead
variable {j : Json} {l : LiveSession} {a : Attached} {t : Turn} {now entropy : ℕ}

/-- The lane does nothing until it is started. -/
def Dead (l : LiveSession) : Prop := l.driver.running = false ∧ l.session = none

theorem dead_schedule (h : Dead t.live) : t.schedule j now = (.ok (), t) := by
  obtain ⟨hrun, hs⟩ := h
  rw [Turn.schedule, hs]
  simp [ConnectionDriver.next, hrun, Turn.setDriver]

theorem dead_handle {event : LiveEvent} (h : Dead l) (he : event ≠ .start) :
    ∃ l', l.handle j a event now entropy = (.ok [], l', a) ∧ Dead l' := by
  obtain ⟨hrun, hs⟩ := h
  have hrefresh : Turn.refresh ⟨l, a, []⟩ now = ⟨l, a, []⟩ := by rw [Turn.refresh, hs]
  have hcurrent : ∀ epoch f, Turn.current ⟨l, a, []⟩ epoch f = (.ok (), ⟨l, a, []⟩) := fun epoch f => by
    rw [Turn.current, hs]
  have hdispatch : ∃ d, d.running = false ∧ Turn.dispatch j ⟨l, a, []⟩ now entropy event =
      (.ok (), ⟨{ l with driver := d }, a, []⟩) := by
    cases event with
    | start => exact absurd rfl he
    | stop => exact ⟨{}, rfl, by simp [Turn.dispatch, Turn.endSession, hs, Turn.setDriver, ConnectionDriver.stop]⟩
    | pause => exact ⟨l.driver.pause, hrun, by simp [Turn.dispatch, hs, Turn.setDriver]⟩
    | resume => exact ⟨l.driver.resume now, hrun, rfl⟩
    | wake => exact ⟨l.driver.wake, hrun, rfl⟩
    | next => exact ⟨l.driver, hrun, rfl⟩
    | message epoch body => exact ⟨l.driver, hrun, hcurrent _ _⟩
    | catchUp epoch body => exact ⟨l.driver, hrun, hcurrent _ _⟩
    | overflow epoch => exact ⟨l.driver, hrun, hcurrent _ _⟩
    | closed epoch => exact ⟨l.driver, hrun, hcurrent _ _⟩
  obtain ⟨d, hd, hdispatch⟩ := hdispatch
  have hdead : Dead { l with driver := d } := ⟨hd, hs⟩
  refine ⟨_, ?_, hdead⟩
  rw [LiveSession.handle, LiveSession.turn, hrefresh, hdispatch]
  simp only [dead_schedule (t := ⟨{ l with driver := d }, a, []⟩) hdead]
  rfl

end Dead

section Epochs
variable {j : Json} {t : Turn} {s : Session} {now entropy : ℕ}

@[simp] theorem endSession_epoch (reason : Option String) :
    (t.endSession reason).live.epoch = t.live.epoch := by
  unfold Turn.endSession; split <;> rfl

@[simp] theorem fail_epoch (reason : Option String) :
    (t.fail now entropy reason).live.epoch = t.live.epoch :=
  endSession_epoch reason

@[simp] theorem pull_epoch : (t.pull s).2.live.epoch = t.live.epoch := by
  unfold Turn.pull
  split
  · rfl
  · dsimp only
    split <;> rfl

@[simp] theorem drain_epoch : ∀ {pages : List PullPage} {t : Turn} {s : Session},
    (t.drain s pages).2.live.epoch = t.live.epoch
  | [], _, _ => rfl
  | front :: rest, t, s => by
    rw [Turn.drain]
    split
    · rfl
    · split
      · rfl
      · split
        · exact pull_epoch
        · exact drain_epoch

@[simp] theorem overflow_epoch : (t.overflow s).2.live.epoch = t.live.epoch := by
  unfold Turn.overflow
  split
  · exact pull_epoch
  · rfl

@[simp] theorem message_epoch (body : String) :
    (t.message j s now entropy body).2.live.epoch = t.live.epoch := by
  unfold Turn.message
  split
  · exact fail_epoch _
  · split
    · exact fail_epoch _
    · dsimp only
      split
      · exact pull_epoch
      · rfl
  · split
    · exact fail_epoch _
    · split
      · exact overflow_epoch
      · exact drain_epoch

@[simp] theorem catchUp_epoch (body : String) :
    (t.catchUp j s now entropy body).2.live.epoch = t.live.epoch := by
  unfold Turn.catchUp
  split
  · rfl
  · dsimp only
    split
    · exact fail_epoch _
    · split
      · split
        · exact fail_epoch _
        · rfl
      · split
        · exact pull_epoch
        · split
          · exact pull_epoch
          · exact drain_epoch

theorem dispatch_epoch (event : LiveEvent) :
    (t.dispatch j now entropy event).2.live.epoch = t.live.epoch := by
  have hcurrent : ∀ epoch f, (∀ s, (f s).2.live.epoch = t.live.epoch) →
      (t.current epoch f).2.live.epoch = t.live.epoch := fun epoch f hf => by
    unfold Turn.current
    split
    · rfl
    · split
      · exact hf _
      · rfl
  cases event with
  | start | resume | wake | next => rfl
  | stop => exact endSession_epoch none
  | pause =>
    rw [Turn.dispatch]
    dsimp only
    split
    · exact endSession_epoch none
    · rfl
  | message epoch body => exact hcurrent epoch _ fun s => message_epoch body
  | catchUp epoch body => exact hcurrent epoch _ fun s => catchUp_epoch body
  | overflow epoch => exact hcurrent epoch _ fun s => overflow_epoch
  | closed epoch => exact hcurrent epoch _ fun s => fail_epoch none

theorem refresh_epoch : (t.refresh now).live.epoch = t.live.epoch := by
  unfold Turn.refresh
  split
  · rfl
  · split
    · rfl
    · exact endSession_epoch none

theorem begin_epoch : (t.begin j now).2.live.epoch = t.live.epoch ∨
    (t.begin j now).2.live.epoch = t.live.epoch + 1 ∧
      ∃ actions, ((t.begin j now).1.map fun _ => (t.begin j now).2.actions) = .ok actions ∧
        t.live.epoch + 1 ∈ opens actions := by
  unfold Turn.begin
  split
  · exact Or.inl rfl
  · split
    · exact Or.inl rfl
    · exact Or.inr ⟨rfl, _, rfl, by simp [Turn.emit, opens]⟩

theorem schedule_epoch : (t.schedule j now).2.live.epoch = t.live.epoch ∨
    (t.schedule j now).2.live.epoch = t.live.epoch + 1 ∧
      ∃ actions, ((t.schedule j now).1.map fun _ => (t.schedule j now).2.actions) = .ok actions ∧
        t.live.epoch + 1 ∈ opens actions := by
  unfold Turn.schedule
  split
  · exact Or.inl rfl
  · split
    · exact begin_epoch (t := t.setDriver _)
    · exact Or.inl rfl
    · exact Or.inl rfl

/-- The lane counts one epoch for a session it opens, and none otherwise. -/
theorem handle_epoch {l : LiveSession} {a : Attached} {event : LiveEvent} :
    (l.handle j a event now entropy).2.1.epoch = l.epoch ∨
      (l.handle j a event now entropy).2.1.epoch = l.epoch + 1 ∧
        ∃ actions, (l.handle j a event now entropy).1 = .ok actions ∧ l.epoch + 1 ∈ opens actions := by
  have hdispatched : ((Turn.refresh ⟨l, a, []⟩ now).dispatch j now entropy event).2.live.epoch =
      (Turn.refresh ⟨l, a, []⟩ now).live.epoch := dispatch_epoch event
  have hepoch := hdispatched.trans refresh_epoch
  simp only [LiveSession.handle, LiveSession.turn]
  rcases hdispatch : (Turn.refresh ⟨l, a, []⟩ now).dispatch j now entropy event with ⟨m | u, t⟩
  · rw [hdispatch] at hepoch
    exact Or.inl hepoch
  · rw [hdispatch] at hepoch
    change t.live.epoch = l.epoch at hepoch
    exact hepoch ▸ schedule_epoch

end Epochs

section Handover
variable {j : Json} {r : Record} {fresh : Attached}

/-- What was counted was opened. -/
def Counted (r : Record) : Prop := r.entry.live.epoch ≠ 0 → 1 ∈ r.opened

theorem counted_call (h : Counted r) (c : Command) : Counted (r.call j c) := by
  intro hne
  cases c with
  | live event now entropy =>
    simp only [Record.call, Entry.call] at hne ⊢
    split at hne
    · rename_i hbusy
      simp only [hbusy, if_true]
      exact List.mem_append_left _ (h hne)
    · rename_i hbusy
      simp only [hbusy]
      rcases @handle_epoch j now entropy r.entry.live r.entry.client event with he | ⟨he, actions, hok, hmem⟩
      · exact List.mem_append_left _ (h (he ▸ hne))
      · by_cases hzero : r.entry.live.epoch = 0
        · refine List.mem_append_right _ ?_
          simp only [Bool.false_eq_true, if_false, hok]
          rwa [hzero] at hmem
        · exact List.mem_append_left _ (h hzero)
  | rebuild result =>
    simp only [Record.call, Entry.call] at hne ⊢
    split at hne
    · exact List.mem_append_left _ (h hne)
    · cases result with
      | error m => exact List.mem_append_left _ (h hne)
      | ok client => exact absurd rfl hne
  | other client => exact List.mem_append_left _ (h hne)

/-- A lane that waits for a start, with no session opened since. -/
def Silent (opened : List ℕ) (r : Record) : Prop := Dead r.entry.live ∧ r.opened = opened

/-- The command starts the lane. -/
def Command.starts : Command → Prop
  | .live event _ _ => event = .start
  | _ => False

theorem dead_call (h : Dead r.entry.live) {c : Command} (hc : ¬c.starts) :
    Dead (r.entry.call j c).2.live ∧ ∀ actions, (r.entry.call j c).1 = .ok actions → actions = [] := by
  cases c with
  | live event now entropy =>
    rw [Entry.call]
    split
    · exact ⟨h, nofun⟩
    · obtain ⟨l', hhandle, hdead⟩ := @dead_handle j r.entry.live r.entry.client now entropy event h hc
      rw [hhandle]
      exact ⟨hdead, fun actions hok => (Except.ok.inj hok).symm⟩
  | rebuild result =>
    simp only [Entry.call]
    split
    · exact ⟨h, nofun⟩
    · cases result with
      | error m => exact ⟨h, nofun⟩
      | ok client => exact ⟨⟨rfl, rfl⟩, fun actions hok => (Except.ok.inj hok).symm⟩
  | other client => exact ⟨h, fun actions hok => (Except.ok.inj hok).symm⟩

theorem silent_call {opened : List ℕ} (h : Silent opened r) {c : Command} (hc : ¬c.starts) :
    Silent opened (r.call j c) := by
  obtain ⟨hdead, hnone⟩ := dead_call (j := j) h.1 hc
  refine ⟨hdead, ?_⟩
  rw [Record.call, h.2]
  split
  · rename_i actions hok
    rw [hnone actions hok]
    exact List.append_nil _
  · exact List.append_nil _

theorem rebuilt_eq (hidle : r.entry.client.busy = false) :
    r.call j (.rebuild (.ok fresh)) = ⟨⟨fresh, {}⟩, r.opened⟩ := by
  have hcall : r.entry.call j (.rebuild (.ok fresh)) = (.ok [], ⟨fresh, {}⟩) := by
    rw [Entry.call, hidle]
    rfl
  rw [Record.call, hcall]
  exact congrArg _ (List.append_nil _)

/-- After a rebuild neither a wake nor a timer restarts the lane. -/
theorem not_restarts (hidle : r.entry.client.busy = false) {event : LiveEvent} (he : event ≠ .start)
    {channels : List String} {now entropy : ℕ} :
    ¬Restarts j (r.call j (.rebuild (.ok fresh))).entry channels (.live event now entropy) := by
  rw [rebuilt_eq hidle]
  rintro ⟨actions, hok, hact⟩
  have hlive : ¬(Command.live event now entropy).starts := he
  obtain rfl := (dead_call (j := j) (r := ⟨⟨fresh, {}⟩, r.opened⟩) ⟨rfl, rfl⟩ hlive).2 actions hok
  rcases hact with ⟨_, _, _, hmem⟩ | ⟨_, hmem⟩ <;> cases hmem

/-- Started anew for named channels, the lane opens a session under the first epoch. -/
theorem starts_anew (hbusy : fresh.busy = false) (hchannels : fresh.desiredChannels ≠ [])
    (hnamed : "" ∉ fresh.desiredChannels) {opened : List ℕ} {now entropy : ℕ} :
    ∃ s, (Record.call j ⟨⟨fresh, {}⟩, opened⟩ (.live .start now entropy)).entry.live.session = some s ∧
      s.epoch = 1 := by
  obtain ⟨ds, hds⟩ : ∃ ds, normalizeChannels fresh.desiredChannels = .ok ds := by
    simp only [normalizeChannels, Except.bind_eq_ok, ensure_eq_ok, Except.pure_eq_ok, exists_const]
    exact ⟨_, hchannels, hnamed, rfl⟩
  have hmake := SubscribeRequest.make_eq_ok.mpr ⟨ds, hds, readModels_declared fresh.engine, rfl⟩
  simp [Record.call, Entry.call, hbusy, LiveSession.handle, LiveSession.turn, Turn.refresh,
    Turn.dispatch, Turn.setDriver, Turn.schedule, ConnectionDriver.next, ConnectionDriver.start,
    Turn.begin, hchannels, hmake, Turn.emit]

/-- A handle as it is opened. -/
def Record.of (client : Attached) : Record := { entry := { client } }

/-- A rebuild stops the lane: no wake and no timer restarts it, and nothing but a start opens a session.
    Once it is started anew, its first session has the epoch of one opened before. -/
theorem rebuild_stops_lane (j : Json) {client fresh : Attached} {before : List Command}
    (hidle : (Machine.run (Record.call j) (.of client) before).entry.client.busy = false) :
    ¬Survives j (Machine.run (Record.call j) (.of client) before) fresh ∧
    (∀ after, (∀ c ∈ after, ¬c.starts) → Silent (Machine.run (Record.call j) (.of client) before).opened
      (Machine.run (Record.call j) (.of client) (before ++ .rebuild (.ok fresh) :: after))) ∧
    (fresh.busy = false → fresh.desiredChannels ≠ [] → "" ∉ fresh.desiredChannels →
      (Machine.run (Record.call j) (.of client) before).entry.live.epoch ≠ 0 → ∀ now entropy, ∃ s,
        (Machine.run (Record.call j) (.of client)
          (before ++ [.rebuild (.ok fresh), .live .start now entropy])).entry.live.session = some s ∧
        s.epoch ∈ (Machine.run (Record.call j) (.of client) before).opened) := by
  have hstart : Counted (.of client) := fun h => absurd rfl h
  have hcounted : Counted (Machine.run (Record.call j) (.of client) before) :=
    Machine.run_invariant (P := Counted) (fun r c h => counted_call h c) hstart
  have hrun : ∀ after, Machine.run (Record.call j) (.of client) (before ++ after) =
      Machine.run (Record.call j) (Machine.run (Record.call j) (.of client) before) after := fun after =>
    List.foldl_append
  simp only [hrun]
  generalize Machine.run (Record.call j) (.of client) before = r at hidle hcounted
  refine ⟨fun h => ?_, fun after hafter => ?_, fun hbusy hchannels hnamed hne now entropy => ?_⟩
  · exact not_restarts hidle (by simp) (h.1 .wake (Or.inl rfl) 0 0)
  · have hsilent : Silent r.opened (r.call j (.rebuild (.ok fresh))) := by
      rw [rebuilt_eq hidle]
      exact ⟨⟨rfl, rfl⟩, rfl⟩
    exact List.foldlRecOn after _ hsilent fun r' hr' c hc => silent_call hr' (hafter c hc)
  · obtain ⟨s, hs, hepoch⟩ := @starts_anew j fresh hbusy hchannels hnamed r.opened now entropy
    refine ⟨s, ?_, hepoch ▸ hcounted hne⟩
    rw [Machine.run, List.foldl_cons, rebuilt_eq hidle]
    exact hs

end Handover

namespace Sample
open AheadSync.Sample

/-- The lane of a client of one channel, started. -/
def live : List Command := [.live .start 0 0]

theorem rebuild_stops_lane_listening :
    ¬Survives wireJson (Machine.run (Record.call wireJson) (.of (listening "type")) live)
      (listening "type") ∧
    ∃ s, (Machine.run (Record.call wireJson) (.of (listening "type"))
        (live ++ [.rebuild (.ok (listening "type")), .live .start 7 0])).entry.live.session = some s ∧
      s.epoch ∈ (Machine.run (Record.call wireJson) (.of (listening "type")) live).opened := by
  obtain ⟨hnot, -, hagain⟩ := @rebuild_stops_lane wireJson (listening "type")
    (listening "type") live (by decide +kernel)
  exact ⟨hnot, hagain rfl (by decide +kernel) (by decide +kernel) (by decide +kernel) 7 0⟩

/-- A started lane with a channel does not survive a rebuild that keeps the channel. -/
theorem not_survives : ¬∀ (j : Json) (client fresh : Attached) (before : List Command),
    (Machine.run (Record.call j) (.of client) before).entry.Started →
    (Machine.run (Record.call j) (.of client) before).entry.client.busy = false →
    fresh.desiredChannels ≠ [] →
      Survives j (Machine.run (Record.call j) (.of client) before) fresh := by
  intro h
  have hidle : (Machine.run (Record.call wireJson) (.of (listening "type")) live).entry.client.busy =
      false := by decide +kernel
  have hstarted : (Machine.run (Record.call wireJson) (.of (listening "type")) live).entry.Started :=
    ⟨by decide +kernel, by decide +kernel⟩
  exact not_restarts hidle (by simp) ((h wireJson (listening "type") (listening "type") live hstarted
    hidle (by decide +kernel)).1 .wake (Or.inl rfl) 0 0)

end Sample

end AheadSync.Lane
