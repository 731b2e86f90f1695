import AheadSync.Client.Live
import AheadSync.Client.Select
import AheadSync.Core.RoundTrip

/-! The two machines of a live lane, its driver and its session, stay in step: the driver has a sync
    in flight exactly while a session exists, no frame waits without a pull, and a session has at most
    one request outstanding. -/

namespace AheadSync

namespace Lane

/-- One call of `handle`, with the client as the host has it by then. -/
structure Input where
  client : Attached
  event : LiveEvent
  now : ℕ
  entropy : ℕ

/-- The epochs a list of actions requests for. -/
def requests (actions : List LiveAction) : List ℕ :=
  actions.filterMap fun
    | .request epoch _ => some epoch
    | _ => none

/-- A lane with the requests its host was asked for and has not answered. -/
structure Book where
  live : LiveSession := {}
  outstanding : List ℕ := []

namespace Book

/-- A response answers one request of its epoch; an error leaves no actions. -/
def step (j : Json) (b : Book) (x : Input) : Book where
  live := (b.live.handle j x.client x.event x.now x.entropy).2.1
  outstanding := (match x.event with
      | .catchUp epoch _ => b.outstanding.erase epoch
      | _ => b.outstanding) ++
    match (b.live.handle j x.client x.event x.now x.entropy).1 with
    | .ok actions => requests actions
    | .error _ => []

end Book

/-- The driver has a sync in flight exactly when there is a session. -/
structure Balanced (l : LiveSession) : Prop where
  flight : l.driver.inFlight = l.session.isSome
  running : l.driver.inFlight → l.driver.running

/-- Frames wait only in an acknowledged session, and only for a pull. -/
structure Drained (l : LiveSession) : Prop where
  empty : ∀ s, l.session = some s → s.active = none → s.queue = []
  gated : ∀ s, l.session = some s → s.queue ≠ [] → s.acknowledged = true

/-- The books of a lane: a sync is in flight exactly when there is a session, and no frame of an
    acknowledged one waits without a pull. -/
structure Kept (l : LiveSession) : Prop where
  flight : l.driver.inFlight = l.session.isSome
  drained : ∀ s, l.session = some s → s.acknowledged = true → s.active = none → s.queue = []

/-- What holds of a lane and its unanswered requests whatever it is given. -/
structure Paid (live : LiveSession) (outstanding : List ℕ) : Prop where
  single : ∀ n, outstanding.count n ≤ 1
  ahead : ∀ n, live.epoch < n → outstanding.count n = 0
  idle : ∀ s, live.session = some s → s.active = none → outstanding.count s.epoch = 0
  fresh : ∀ s, live.session = some s → s.epoch = live.epoch
  bounded : ∀ s, live.session = some s → s.queue.length ≤ queuedFrames

/-- The session that an event of this epoch reaches: no subscription committed since it began. -/
structure Current (l : LiveSession) (a : Attached) (epoch : ℕ) (s : Session) : Prop where
  session : l.session = some s
  epoch : s.epoch = epoch
  generation : s.generation = a.generation

/-- The client can ask for what it misses. -/
def Asks (a : Attached) : Prop := ∃ request, a.downlinkRequest.1 = .ok (some request)

/-- The client takes frames in turn: it refuses none, and where one does not connect it can ask for
    what it misses. -/
def Takes (a : Attached) : List PullPage → Prop
  | [] => True
  | page :: pages => ∃ progress, (a.receiveDownlink page none).1 = .ok progress ∧
      if progress.disposition = .recover then Asks (a.receiveDownlink page none).2
      else Takes (a.receiveDownlink page none).2 pages

/-- No session that a commit of subscriptions has not outdated. -/
def Free (l : LiveSession) (a : Attached) : Prop :=
  ∀ s, l.session = some s → s.generation ≠ a.generation

/-- The driver once an outdated session has ended. -/
def LiveSession.rested (l : LiveSession) (a : Attached) (now : ℕ) :
    ConnectionDriver :=
  match l.session with
  | none => l.driver
  | some s => if s.generation = a.generation then l.driver else (l.driver.complete true now 0).wake

/-- The driver is about to sync. -/
def Due (d : ConnectionDriver) (now : ℕ) : Prop := (d.next now).1 = .sync

/-- A message that fails its session. -/
def Refuses (j : Json) (s : Session) (body : String) : Prop :=
  match LiveMessage.decode j body with
  | .error _ => True
  | .ok (.acknowledged ack) => s.acknowledged = true ∨ ack.confirms s.subscribe = false
  | .ok (.page _) => s.acknowledged = false

/-- A response that fails its session. -/
def Mismatches (j : Json) (a : Attached) (s : Session) (body : String) : Prop :=
  ∃ request, s.active = some request ∧ ∀ page, PullPage.decode j body = .ok page →
    (a.receiveDownlink page (some request)).1 = .error "response does not match pull request"

/-- A session of this epoch fails, and the driver does not back off. -/
def Retries (l : LiveSession) (x : Input) (epoch : ℕ) (fails : Session → Prop) : Prop :=
  ∃ s, Current l x.client epoch s ∧ fails s ∧ Due (l.driver.complete false x.now x.entropy) x.now

/-- The call begins a session, or tries to: there is none by then and the driver is due. -/
def Begins (j : Json) (l : LiveSession) (x : Input) : Prop :=
  let idle := Free l x.client ∧ Due (l.rested x.client x.now) x.now
  match x.event with
  | .start => True
  | .stop | .pause => False
  | .resume => Free l x.client ∧ Due ((l.rested x.client x.now).resume x.now) x.now
  | .wake => Free l x.client ∧ Due (l.rested x.client x.now).wake x.now
  | .next | .overflow _ => idle
  | .message epoch body => idle ∨ Retries l x epoch fun s => Refuses j s body
  | .catchUp epoch body => idle ∨ Retries l x epoch fun s => Mismatches j x.client s body
  | .closed epoch => idle ∨ Retries l x epoch fun _ => True

/-- A call that keeps the books: a start finds no session, a session begins with named channels, and
    the client takes what it is handed while frames wait. -/
structure Meets (j : Json) (l : LiveSession) (x : Input) : Prop where
  start : x.event = .start → Free l x.client
  named : Begins j l x → "" ∉ x.client.desiredChannels
  frame : ∀ epoch body page s, x.event = .message epoch body → Current l x.client epoch s →
    LiveMessage.decode j body = .ok (.page page) → s.acknowledged → s.active = none →
    Takes x.client [page]
  response : ∀ epoch body page s request, x.event = .catchUp epoch body →
    Current l x.client epoch s → s.active = some request → PullPage.decode j body = .ok page →
    s.acknowledged → s.queue ≠ [] → match x.client.receiveDownlink page (some request) with
      | (.error m, _) => m = "response does not match pull request"
      | (.ok progress, a) =>
        if progress.continues ≠ [] ∨ s.again then Asks a else Takes a s.queue

section Driver
variable {d : ConnectionDriver}

theorem complete_flight (success : Bool) (now entropy : ℕ) (h : d.inFlight → d.running) :
    (d.complete success now entropy).inFlight = false ∧
      (d.complete success now entropy).running = d.running ∧
      (d.complete success now entropy).paused = d.paused := by
  unfold ConnectionDriver.complete
  cases hf : d.inFlight
  · simp [hf]
  · cases success <;> simp [h hf]

end Driver

section Requests

@[simp] theorem requests_append (as bs : List LiveAction) :
    requests (as ++ bs) = requests as ++ requests bs := List.filterMap_append

@[simp] theorem requests_settle (progress : DownlinkProgress) : requests (settle progress) = [] := by
  unfold settle
  split <;> split <;> rfl

end Requests

section Paid
variable {t : Turn} {s : Session} {o : List ℕ} {j : Json} {now entropy : ℕ}

/-- The books of a turn: what was unanswered before it and what it asks for. -/
def Turn.Paid (t : Turn) (o : List ℕ) : Prop := Lane.Paid t.live (o ++ requests t.actions)

theorem paid_congr {t t' : Turn} (h : t.Paid o) (he : t'.live.epoch = t.live.epoch)
    (hs : t'.live.session = t.live.session) (hr : requests t'.actions = requests t.actions) :
    t'.Paid o := by
  obtain ⟨hsingle, hahead, hidle, hfresh, hbound⟩ := h
  refine ⟨?_, ?_, ?_, ?_, ?_⟩ <;> simp only [he, hs, hr]
  · exact hsingle
  · exact hahead
  · exact hidle
  · exact hfresh
  · exact hbound

theorem requests_endSession (t : Turn) (reason : Option String) :
    requests (t.endSession reason).actions = requests t.actions := by
  unfold Turn.endSession
  split
  · rfl
  · simp [Turn.emit, requests]

theorem paid_endSession (h : t.Paid o) (reason : Option String) : (t.endSession reason).Paid o := by
  unfold Turn.endSession
  cases hs : t.live.session with
  | none => exact h
  | some s =>
    obtain ⟨hsingle, hahead, hidle, hfresh, hbound⟩ := h
    have hr : requests (t.actions ++ [.close s.epoch reason]) = requests t.actions := by
      simp [requests]
    refine ⟨fun n => ?_, fun n hn => ?_, nofun, nofun, nofun⟩ <;>
      simp only [Turn.emit, hr]
    · exact hsingle n
    · exact hahead n hn

theorem paid_fail (h : t.Paid o) (reason : Option String) : (t.fail now entropy reason).Paid o :=
  paid_congr (paid_endSession h reason) rfl rfl rfl

/-- The books of a turn, read off its session. -/
theorem paid_setSession : (t.setSession s).Paid o ↔
    (∀ n, (o ++ requests t.actions).count n ≤ 1) ∧
    (∀ n, t.live.epoch < n → (o ++ requests t.actions).count n = 0) ∧
    (s.active = none → (o ++ requests t.actions).count s.epoch = 0) ∧
    s.epoch = t.live.epoch ∧ s.queue.length ≤ queuedFrames := by
  constructor
  · rintro ⟨hsingle, hahead, hidle, hfresh, hbound⟩
    exact ⟨hsingle, hahead, hidle s rfl, hfresh s rfl, hbound s rfl⟩
  · rintro ⟨hsingle, hahead, hidle, hfresh, hbound⟩
    have hs : ∀ x, (t.setSession s).live.session = some x → x = s := fun x hx =>
      (Option.some.inj hx).symm
    exact ⟨hsingle, hahead, fun x hx => hs x hx ▸ hidle, fun x hx => hs x hx ▸ hfresh,
      fun x hx => hs x hx ▸ hbound⟩

/-- A pull is asked for when none is outstanding. -/
theorem paid_pull (h : (t.setSession s).Paid o) : (t.pull s).2.Paid o := by
  obtain ⟨hsingle, hahead, hidle, hfresh, hbound⟩ := paid_setSession.mp h
  unfold Turn.pull
  split
  · exact paid_setSession.mpr ⟨hsingle, hahead, hidle, hfresh, hbound⟩
  · rename_i hnone
    have hzero := hidle (by simpa using hnone)
    simp only
    split
    · exact paid_congr h rfl rfl rfl
    · exact paid_congr h rfl rfl rfl
    · rename_i request c heq
      have hpaid : (({ t with client := c } : Turn).emit [.request s.epoch request]).setSession
          { s with active := some request } |>.Paid o := by
        have hreq : o ++ requests (t.actions ++ [.request s.epoch request]) =
            (o ++ requests t.actions) ++ [s.epoch] := by simp [requests]
        refine paid_setSession.mpr ⟨fun n => ?_, fun n hn => ?_, nofun, hfresh, hbound⟩
        · simp only [Turn.emit, hreq, List.count_append]
          by_cases hn : s.epoch = n
          · subst hn
            rw [← List.count_append, hzero]
            simp
          · have h1 := hsingle n
            rw [List.count_append] at h1
            simpa [List.count_singleton, hn] using h1
        · simp only [Turn.emit, hreq, List.count_append]
          have h0 := hahead n hn
          have hne : s.epoch ≠ n := by
            change t.live.epoch < n at hn
            omega
          rw [List.count_append] at h0
          simp [hne, h0]
      exact paid_congr hpaid rfl rfl rfl

theorem paid_drain : ∀ {queue : List PullPage} {t : Turn} {s : Session},
    (t.setSession { s with queue := queue }).Paid o → (t.drain s queue).2.Paid o
  | [], _, _, h => h
  | front :: rest, t, s, h => by
    unfold Turn.drain
    simp only
    split
    · exact h
    · split
      · exact paid_congr h rfl rfl rfl
      · rename_i progress c heq
        have hclient : (({ t with client := c } : Turn).emit (settle progress)).setSession
            { s with queue := front :: rest } |>.Paid o :=
          paid_congr h rfl rfl (by simp [Turn.emit, Turn.setSession])
        split
        · exact paid_pull hclient
        · obtain ⟨hsingle, hahead, hidle, hfresh, hbound⟩ := paid_setSession.mp hclient
          exact paid_drain (paid_setSession.mpr
            ⟨hsingle, hahead, hidle, hfresh, (Nat.le_succ _).trans hbound⟩)

theorem paid_overflow (h : (t.setSession s).Paid o) : (t.overflow s).2.Paid o := by
  unfold Turn.overflow
  split
  · obtain ⟨hsingle, hahead, hidle, hfresh, hbound⟩ := paid_setSession.mp h
    exact paid_pull (paid_setSession.mpr ⟨hsingle, hahead, hidle, hfresh, Nat.zero_le _⟩)
  · exact h

theorem paid_message (hs : t.live.session = some s) (h : t.Paid o) (body : String) :
    (t.message j s now entropy body).2.Paid o := by
  have hset : (t.setSession s).Paid o := paid_congr h rfl hs.symm rfl
  obtain ⟨hsingle, hahead, hidle, hfresh, hbound⟩ := paid_setSession.mp hset
  unfold Turn.message
  split
  · exact paid_fail h _
  · split
    · exact paid_fail h _
    · have hack : (t.setSession { s with acknowledged := true }).Paid o :=
        paid_setSession.mpr ⟨hsingle, hahead, hidle, hfresh, hbound⟩
      simp only
      split
      · exact paid_pull hack
      · exact hack
  · split
    · exact paid_fail h _
    · split
      · exact paid_overflow hset
      · rename_i hroom
        refine paid_drain (paid_setSession.mpr ⟨hsingle, hahead, hidle, hfresh, ?_⟩)
        simp only [List.length_append, List.length_singleton]
        omega

/-- A response is to a request that was just answered. -/
theorem paid_catchUp (hs : t.live.session = some s) (h : t.Paid o)
    (hzero : (o ++ requests t.actions).count s.epoch = 0) (body : String) :
    (t.catchUp j s now entropy body).2.Paid o := by
  have hset : (t.setSession s).Paid o := paid_congr h rfl hs.symm rfl
  obtain ⟨hsingle, hahead, -, hfresh, hbound⟩ := paid_setSession.mp hset
  have htaken : (t.setSession { s with active := none }).Paid o :=
    paid_setSession.mpr ⟨hsingle, hahead, fun _ => hzero, hfresh, hbound⟩
  unfold Turn.catchUp
  split
  · exact hset
  · simp only
    split
    · exact paid_fail htaken _
    · split
      · split
        · exact paid_fail (paid_congr htaken rfl rfl rfl) _
        · exact paid_congr htaken rfl rfl rfl
      · rename_i progress c heq
        have hclient : (({ t with client := c } : Turn).emit (settle progress)).setSession
            { s with active := none } |>.Paid o :=
          paid_congr htaken rfl rfl (by simp [Turn.emit, Turn.setSession])
        obtain ⟨hsingle, hahead, hidle, hfresh, hbound⟩ := paid_setSession.mp hclient
        have hagain : ((({ t with client := c } : Turn).emit (settle progress)).setSession
            { s with active := none, again := false }).Paid o :=
          paid_setSession.mpr ⟨hsingle, hahead, hidle, hfresh, hbound⟩
        split
        · exact paid_pull hclient
        · split
          · exact paid_pull hagain
          · exact paid_drain hagain

theorem paid_begin (h : t.Paid o) : (t.begin j now).2.Paid o := by
  unfold Turn.begin
  split
  · exact paid_congr h rfl rfl rfl
  · split
    · exact h
    · obtain ⟨hsingle, hahead, hidle, hfresh, hbound⟩ := h
      refine paid_congr (t := (({ t with live := { t.live with epoch := t.live.epoch + 1 } } : Turn)
        ).setSession { epoch := t.live.epoch + 1, generation := t.client.generation, subscribe := _ })
        (paid_setSession.mpr ⟨hsingle, fun n hn => hahead n ?_, fun _ => hahead _ ?_, rfl,
          Nat.zero_le _⟩) rfl rfl (by simp [Turn.emit, Turn.setSession, requests])
      · change t.live.epoch + 1 < n at hn
        omega
      · exact Nat.lt_succ_self _

theorem paid_schedule (h : t.Paid o) : (t.schedule j now).2.Paid o := by
  unfold Turn.schedule
  cases hs : t.live.session with
  | some s => exact h
  | none =>
    simp only
    split
    · exact paid_begin (t := t.setDriver _) (paid_congr h rfl rfl rfl)
    · exact paid_congr h rfl rfl (by simp [Turn.emit, Turn.setDriver, requests])
    · exact paid_congr h rfl rfl rfl

theorem paid_refresh (h : t.Paid o) : (t.refresh now).Paid o := by
  unfold Turn.refresh
  split
  · exact h
  · split
    · exact h
    · exact paid_congr (paid_endSession h none) rfl rfl rfl

theorem paid_dispatch (h : t.Paid o) (event : LiveEvent)
    (hz : ∀ epoch body, event = .catchUp epoch body → (o ++ requests t.actions).count epoch = 0) :
    (t.dispatch j now entropy event).2.Paid o := by
  have hcurrent : ∀ epoch (f : Session → Except String Unit × Turn),
      (∀ s, t.live.session = some s → s.epoch = epoch → (f s).2.Paid o) →
      (t.current epoch f).2.Paid o := by
    intro epoch f hf
    unfold Turn.current
    split
    · exact h
    · rename_i s hs
      split
      · rename_i he
        exact hf s hs he
      · exact h
  cases event with
  | start => exact paid_congr h rfl rfl rfl
  | stop => exact paid_congr (paid_endSession h none) rfl rfl rfl
  | pause =>
    simp only [Turn.dispatch]
    split
    · exact paid_congr (paid_endSession h none) rfl rfl rfl
    · exact paid_congr h rfl rfl rfl
  | resume => exact paid_congr h rfl rfl rfl
  | wake => exact paid_congr h rfl rfl rfl
  | next => exact h
  | message epoch body => exact hcurrent epoch _ fun s hs _ => paid_message hs h body
  | catchUp epoch body =>
    exact hcurrent epoch _ fun s hs he => paid_catchUp hs h (he ▸ hz epoch body rfl) body
  | overflow epoch => exact hcurrent epoch _ fun s hs _ => paid_overflow (paid_congr h rfl hs.symm rfl)
  | closed epoch => exact hcurrent epoch _ fun s _ _ => paid_fail h none

theorem paid_turn {l : LiveSession} {a : Attached} (h : Paid l o) (event : LiveEvent)
    (hz : ∀ epoch body, event = .catchUp epoch body → o.count epoch = 0) :
    (l.turn j a event now entropy).2.Paid o := by
  have hstart : (⟨l, a, []⟩ : Turn).Paid o := by
    change Lane.Paid l (o ++ [])
    rw [List.append_nil]
    exact h
  have hrequests : requests (Turn.refresh ⟨l, a, []⟩ now).actions = [] := by
    unfold Turn.refresh
    split
    · rfl
    · split
      · rfl
      · exact requests_endSession ⟨l, a, []⟩ none
  have hdispatch : ((Turn.refresh ⟨l, a, []⟩ now).dispatch j now entropy event).2.Paid o :=
    paid_dispatch (paid_refresh hstart) event
      fun epoch body he => by rw [hrequests, List.append_nil]; exact hz epoch body he
  unfold LiveSession.turn
  split
  · rename_i m t heq
    rw [heq] at hdispatch
    exact hdispatch
  · rename_i t heq
    rw [heq] at hdispatch
    exact paid_schedule hdispatch

/-- Every call keeps the books, whatever it is given and whatever it answers. -/
theorem paid_step {b : Book} (h : Paid b.live b.outstanding) (x : Input) :
    Paid (b.step j x).live (b.step j x).outstanding := by
  have hkeep : ∀ {o o' : List ℕ} {l : LiveSession}, (∀ n, o'.count n ≤ o.count n) → Paid l o →
      Paid l o' := by
    intro o o' l hle h
    exact ⟨fun n => (hle n).trans (h.single n), fun n hn => Nat.le_zero.mp (h.ahead n hn ▸ hle n),
      fun s hs ha => Nat.le_zero.mp (h.idle s hs ha ▸ hle s.epoch), h.fresh, h.bounded⟩
  set o := (match x.event with
      | .catchUp epoch _ => b.outstanding.erase epoch
      | _ => b.outstanding) with ho
  have hle : ∀ n, o.count n ≤ b.outstanding.count n := by
    intro n
    rw [ho]
    split
    · exact (List.erase_sublist).count_le n
    · exact le_rfl
  have hz : ∀ epoch body, x.event = .catchUp epoch body → o.count epoch = 0 := by
    intro epoch body he
    rw [ho, he]
    have hone := h.single epoch
    simp only [List.count_erase_self]
    omega
  have hturn : (b.live.turn j x.client x.event x.now x.entropy).2.Paid _ :=
    paid_turn (hkeep hle h) x.event hz
  unfold Book.step LiveSession.handle
  simp only [← ho]
  cases (b.live.turn j x.client x.event x.now x.entropy).1 with
  | ok u => exact hturn
  | error m =>
    refine hkeep (fun n => ?_) hturn
    simp only [Except.map, List.append_nil, List.count_append]
    omega

end Paid

section Balanced
variable {t t' : Turn} {s : Session} {j : Json} {l : LiveSession} {a : Attached} {now entropy : ℕ}
  {body : String}

/-- The lane keeps its driver and has a session. -/
structure Stays (t t' : Turn) : Prop where
  driver : t'.live.driver = t.live.driver
  session : t'.live.session.isSome

theorem balanced_stays (h : Balanced t.live) (hs : t.live.session.isSome) (hst : Stays t t') :
    Balanced t'.live := by
  refine ⟨?_, ?_⟩
  · rw [hst.driver, h.flight, hs, hst.session]
  · rw [hst.driver]
    exact h.running

theorem stays_pull : Stays t (t.pull s).2 := by
  unfold Turn.pull
  split
  · exact ⟨rfl, rfl⟩
  · simp only
    split <;> exact ⟨rfl, rfl⟩

theorem stays_drain : ∀ {queue : List PullPage} {t : Turn} {s : Session},
    Stays t (t.drain s queue).2
  | [], _, _ => ⟨rfl, rfl⟩
  | front :: rest, t, s => by
    unfold Turn.drain
    simp only
    split
    · exact ⟨rfl, rfl⟩
    · split
      · exact ⟨rfl, rfl⟩
      · rename_i progress c heq
        split
        · obtain ⟨hd, hs⟩ := stays_pull (t := ({ t with client := c } : Turn).emit (settle progress))
            (s := { s with queue := front :: rest })
          exact ⟨hd, hs⟩
        · obtain ⟨hd, hs⟩ := @stays_drain rest
            (t := ({ t with client := c } : Turn).emit (settle progress))
            (s := { s with queue := front :: rest })
          exact ⟨hd, hs⟩

theorem stays_overflow : Stays t (t.overflow s).2 := by
  unfold Turn.overflow
  split
  · exact stays_pull
  · exact ⟨rfl, rfl⟩

/-! ### Frames -/

theorem drained_setSession (hempty : s.active = none → s.queue = [])
    (hgate : s.queue ≠ [] → s.acknowledged = true) : Drained (t.setSession s).live where
  empty := fun x hx => by
    obtain rfl := Option.some.inj hx
    exact hempty
  gated := fun x hx => by
    obtain rfl := Option.some.inj hx
    exact hgate

/-- A pull that is issued, or that nothing waits for, leaves no frame waiting alone. -/
theorem drained_pull (h : s.active.isSome ∨ s.queue = [] ∨ Asks t.client)
    (hgate : s.queue ≠ [] → s.acknowledged = true) : Drained (t.pull s).2.live := by
  unfold Turn.pull
  split
  · rename_i hsome
    refine drained_setSession (fun hnone => ?_) hgate
    rw [show s.active = none from hnone] at hsome
    cases hsome
  · rename_i hnone
    have hor : s.queue = [] ∨ Asks t.client := h.resolve_left hnone
    have hset : s.queue = [] → Drained (t.setSession s).live := fun hq =>
      drained_setSession (fun _ => hq) hgate
    have hasks : ∀ {r}, (t.setSession s).client.downlinkRequest = r →
        (∀ request, r.1 ≠ .ok (some request)) → ¬Asks t.client := by
      rintro r hr hne ⟨request, hreq⟩
      exact hne request (hr ▸ hreq)
    simp only
    split
    · rename_i m c heq
      exact ⟨(hset (hor.resolve_right (hasks heq (by simp)))).empty,
        (hset (hor.resolve_right (hasks heq (by simp)))).gated⟩
    · rename_i c heq
      exact ⟨(hset (hor.resolve_right (hasks heq (by simp)))).empty,
        (hset (hor.resolve_right (hasks heq (by simp)))).gated⟩
    · rename_i request c heq
      have hasked := drained_setSession (t := { t with client := c })
        (s := { s with active := some request }) (fun hnone => by cases hnone) hgate
      exact ⟨hasked.empty, hasked.gated⟩

theorem drained_drain : ∀ {queue : List PullPage} {t : Turn} {s : Session},
    (queue ≠ [] → s.acknowledged = true) → s.active.isSome ∨ Takes t.client queue →
    Drained (t.drain s queue).2.live
  | [], t, s, _, _ => drained_setSession (fun _ => rfl) fun h => absurd rfl h
  | front :: rest, t, s, hgate, h => by
    unfold Turn.drain
    simp only
    split
    · rename_i hsome
      refine drained_setSession (fun hnone => ?_) hgate
      rw [show s.active = none from hnone] at hsome
      cases hsome
    · rename_i hnone
      obtain ⟨progress, hok, htakes⟩ := h.resolve_left hnone
      split
      · rename_i m c heq
        rw [heq] at hok
        cases hok
      · rename_i progress' c heq
        rw [heq] at hok htakes
        obtain rfl := Except.ok.inj hok
        split
        · rename_i hrec
          rw [if_pos hrec] at htakes
          exact drained_pull (Or.inr (Or.inr htakes)) hgate
        · rename_i hrec
          rw [if_neg hrec] at htakes
          exact drained_drain (fun _ => hgate (List.cons_ne_nil _ _)) (Or.inr htakes)

/-- Frames of an acknowledged session wait without a pull. -/
def Stuck (l : LiveSession) : Prop :=
  ∃ s, l.session = some s ∧ s.acknowledged = true ∧ s.active = none ∧ s.queue ≠ []

theorem stuck_pull (hnone : s.active = none) (hack : s.acknowledged = true) (hqueue : s.queue ≠ [])
    (h : ¬Asks t.client) : Stuck (t.pull s).2.live := by
  unfold Turn.pull
  rw [if_neg (by simp [hnone])]
  simp only
  split
  · exact ⟨s, rfl, hack, hnone, hqueue⟩
  · exact ⟨s, rfl, hack, hnone, hqueue⟩
  · rename_i request c heq
    exact absurd ⟨request, congrArg Prod.fst heq⟩ h

/-- Frames the client does not take stay in the queue. -/
theorem stuck_drain : ∀ {queue : List PullPage} {t : Turn} {s : Session}, s.active = none →
    s.acknowledged = true → ¬Takes t.client queue → Stuck (t.drain s queue).2.live
  | [], _, _, _, _, h => absurd trivial h
  | front :: rest, t, s, hnone, hack, h => by
    unfold Turn.drain
    simp only
    rw [if_neg (by simp [hnone])]
    split
    · exact ⟨{ s with queue := front :: rest }, rfl, hack, hnone, List.cons_ne_nil _ _⟩
    · rename_i progress c heq
      have hrest : ¬if progress.disposition = .recover then Asks c else Takes c rest := fun hr =>
        h ⟨progress, congrArg Prod.fst heq, by rw [heq]; exact hr⟩
      split
      · rename_i hrec
        rw [if_pos hrec] at hrest
        exact stuck_pull hnone hack (List.cons_ne_nil _ _) hrest
      · rename_i hrec
        rw [if_neg hrec] at hrest
        exact stuck_drain (t := ({ t with client := c } : Turn).emit (settle progress)) hnone hack hrest

theorem Stuck.not_kept (h : Stuck l) : ¬Kept l := by
  obtain ⟨s, hs, hack, hnone, hqueue⟩ := h
  exact fun hk => hqueue (hk.drained s hs hack hnone)

/-! ### A session that fails -/

theorem endSession_spec (t : Turn) (reason : Option String) :
    (t.endSession reason).live.session = none ∧
      (t.endSession reason).live.driver = t.live.driver ∧ (t.endSession reason).client = t.client := by
  unfold Turn.endSession
  split
  · rename_i hs
    exact ⟨hs, rfl, rfl⟩
  · exact ⟨rfl, rfl, rfl⟩

theorem fail_spec (t : Turn) (now entropy : ℕ) (reason : Option String) :
    (t.fail now entropy reason).live.session = none ∧
      (t.fail now entropy reason).live.driver = t.live.driver.complete false now entropy ∧
      (t.fail now entropy reason).client = t.client := by
  obtain ⟨hs, hd, hc⟩ := endSession_spec t reason
  exact ⟨hs, congrArg (·.complete false now entropy) hd, hc⟩

/-- The two machines are in step and no frame waits alone. -/
structure InStep (l : LiveSession) : Prop extends Balanced l, Drained l

theorem InStep.kept (h : InStep l) : Kept l := ⟨h.flight, fun s hs _ => h.empty s hs⟩

theorem inStep_of_none (h : l.driver.inFlight = false) (hs : l.session = none) : InStep l where
  flight := by rw [h, hs]; rfl
  running := fun hf => by rw [h] at hf; cases hf
  empty := fun s hs' => by rw [hs] at hs'; cases hs'
  gated := fun s hs' => by rw [hs] at hs'; cases hs'

theorem inStep_fail (h : t.live.driver.inFlight → t.live.driver.running) (reason : Option String) :
    InStep (t.fail now entropy reason).live := by
  obtain ⟨hs, hd, -⟩ := fail_spec t now entropy reason
  exact inStep_of_none (hd ▸ (complete_flight false now entropy h).1) hs

/-- A message fails its session exactly when it is refused. -/
theorem message_fails (t : Turn) (now entropy : ℕ) (h : Refuses j s body) :
    ∃ reason, t.message j s now entropy body = (.ok (), t.fail now entropy reason) := by
  unfold Refuses at h
  unfold Turn.message
  cases hd : LiveMessage.decode j body with
  | error m => exact ⟨_, rfl⟩
  | ok message =>
    rw [hd] at h
    cases message with
    | acknowledged ack =>
      have hbad : (s.acknowledged || !ack.confirms s.subscribe) = true := by simpa using h
      simp only [hbad, ↓reduceIte]
      exact ⟨_, rfl⟩
    | page page =>
      have hnot : (!s.acknowledged) = true := by simpa using h
      simp only [hnot, ↓reduceIte]
      exact ⟨_, rfl⟩

theorem message_stays (h : ¬Refuses j s body) : Stays t (t.message j s now entropy body).2 := by
  unfold Refuses at h
  unfold Turn.message
  cases hd : LiveMessage.decode j body with
  | error m => exact absurd (by rw [hd]; trivial) h
  | ok message =>
    rw [hd] at h
    cases message with
    | acknowledged ack =>
      have hgood : (s.acknowledged || !ack.confirms s.subscribe) = false := by simpa using h
      simp only [hgood, Bool.false_eq_true, ↓reduceIte]
      split
      · exact stays_pull
      · exact ⟨rfl, rfl⟩
    | page page =>
      have hack : (!s.acknowledged) = false := by simpa using h
      simp only [hack, Bool.false_eq_true, ↓reduceIte]
      split
      · exact stays_overflow
      · exact stays_drain

/-- A page that is refused leaves the store. -/
theorem receive_error {e : Engine} {c c' : Client} {page : PullPage} {request : Option PullRequest}
    {m : String} (h : c.receiveDownlink e page request = (.error m, c')) : c'.store = c.store := by
  unfold Client.receiveDownlink at h
  split at h
  · obtain ⟨-, rfl⟩ := Prod.mk.inj h
    rfl
  · simp only at h
    split at h
    · cases (Prod.mk.inj h).1
    · split at h
      · cases (Prod.mk.inj h).1
      · split at h
        · cases (Prod.mk.inj h).1
        · obtain ⟨hr, rfl⟩ := Prod.mk.inj h
          unfold Client.commit at hr ⊢
          split at hr
          · cases hr
          · rfl

theorem receiveDownlink_error {c : Attached} {page : PullPage} {request : Option PullRequest}
    {m : String} (h : a.receiveDownlink page request = (.error m, c)) :
    c.desiredChannels = a.desiredChannels := by
  unfold Attached.receiveDownlink at h
  simp only at h
  split at h
  · obtain ⟨hr, rfl⟩ := Prod.mk.inj h
    exact congrArg (·.subscriptions.keys) (receive_error (Prod.ext hr rfl))
  · obtain ⟨-, rfl⟩ := Prod.mk.inj h
    rfl
  · split at h
    · obtain ⟨-, rfl⟩ := Prod.mk.inj h
      rfl
    · cases (Prod.mk.inj h).1

/-- A response fails its session exactly when it does not match the request. -/
theorem catchUp_fails (now entropy : ℕ) (h : Mismatches j t.client s body) :
    ∃ (t₁ : Turn) (reason : Option String),
      t.catchUp j s now entropy body = (.ok (), t₁.fail now entropy reason) ∧
      t₁.live.driver = t.live.driver ∧ t₁.client.desiredChannels = t.client.desiredChannels := by
  obtain ⟨request, hactive, hmatch⟩ := h
  unfold Turn.catchUp
  rw [hactive]
  simp only
  cases hd : PullPage.decode j body with
  | error m => exact ⟨_, _, rfl, rfl, rfl⟩
  | ok page =>
    have herr := hmatch page hd
    obtain ⟨c, hc⟩ : ∃ c, t.client.receiveDownlink page (some request) =
        (.error "response does not match pull request", c) := ⟨_, Prod.ext herr rfl⟩
    simp only [Turn.setSession, hc, ↓reduceIte]
    exact ⟨_, _, rfl, rfl, receiveDownlink_error hc⟩

theorem catchUp_stays (h : ¬Mismatches j t.client s body) :
    Stays t (t.catchUp j s now entropy body).2 := by
  unfold Turn.catchUp
  cases hactive : s.active with
  | none => exact ⟨rfl, rfl⟩
  | some request =>
    simp only
    cases hd : PullPage.decode j body with
    | error m => exact absurd ⟨request, hactive, fun page hp => by rw [hd] at hp; cases hp⟩ h
    | ok page =>
      simp only
      split
      · rename_i m c heq
        split
        · rename_i hm
          refine absurd ⟨request, hactive, fun page' hp => ?_⟩ h
          obtain rfl := Except.ok.inj (hd.symm.trans hp)
          rw [← hm]
          exact congrArg Prod.fst heq
        · exact ⟨rfl, rfl⟩
      · rename_i progress c heq
        split
        · obtain ⟨hd, hs⟩ := stays_pull (t := (({ t.setSession { s with active := none } with
            client := c } : Turn).emit (settle progress))) (s := { s with active := none })
          exact ⟨hd, hs⟩
        · split
          · obtain ⟨hd, hs⟩ := stays_pull (t := (({ t.setSession { s with active := none } with
              client := c } : Turn).emit (settle progress)))
              (s := { s with active := none, again := false })
            exact ⟨hd, hs⟩
          · obtain ⟨hd, hs⟩ := @stays_drain s.queue
              (t := (({ t.setSession { s with active := none } with client := c } : Turn).emit
                (settle progress))) (s := { s with active := none, again := false })
            exact ⟨hd, hs⟩

/-! ### Calls -/

/-- In step, the frames of a session wait for its pull. -/
theorem waits (h : Drained t.live) (hs : t.live.session = some s) :
    s.active.isSome ∨ s.queue = [] := by
  cases ha : s.active with
  | some request => exact Or.inl rfl
  | none => exact Or.inr (h.empty s hs ha)

/-- What a frame leaves: the session fails, or it stays and the client took the frame. -/
theorem inStep_message (h : InStep t.live) (hs : t.live.session = some s)
    (htakes : ∀ page, LiveMessage.decode j body = .ok (.page page) → s.acknowledged →
      s.active = none → Takes t.client [page]) :
    InStep (t.message j s now entropy body).2.live := by
  have hsome : t.live.session.isSome := by rw [hs]; rfl
  have hqueue := waits h.toDrained hs
  unfold Turn.message
  split
  · exact inStep_fail h.running _
  · split
    · exact inStep_fail h.running _
    · simp only
      split
      · exact ⟨balanced_stays h.toBalanced hsome stays_pull,
          drained_pull (hqueue.imp_right Or.inl) fun _ => rfl⟩
      · have hstays : Stays t (t.setSession { s with acknowledged := true }) := ⟨rfl, rfl⟩
        exact ⟨balanced_stays h.toBalanced hsome hstays,
          drained_setSession (fun ha => h.empty s hs ha) fun _ => rfl⟩
  · rename_i page hdecode
    split
    · exact inStep_fail h.running _
    · rename_i hack
      have hacked : s.acknowledged = true := by simpa using hack
      split
      · refine ⟨balanced_stays h.toBalanced hsome stays_overflow, ?_⟩
        unfold Turn.overflow
        rw [if_pos hacked]
        exact drained_pull (Or.inr (Or.inl rfl)) fun hq => absurd rfl hq
      · refine ⟨balanced_stays h.toBalanced hsome stays_drain, drained_drain (fun _ => hacked) ?_⟩
        cases ha : s.active with
        | some request => exact Or.inl rfl
        | none =>
          right
          rw [h.empty s hs ha]
          exact htakes page hdecode hacked ha

theorem inStep_overflow (h : InStep t.live) (hs : t.live.session = some s) :
    InStep (t.overflow s).2.live := by
  refine ⟨balanced_stays h.toBalanced (by rw [hs]; rfl) stays_overflow, ?_⟩
  unfold Turn.overflow
  split
  · exact drained_pull (Or.inr (Or.inl rfl)) fun hq => absurd rfl hq
  · exact drained_setSession (h.empty s hs) (h.gated s hs)

/-- What a response leaves: the session fails, or it stays and the client took what waited. -/
theorem inStep_catchUp (h : InStep t.live) (hs : t.live.session = some s)
    (htakes : ∀ page request, s.active = some request → PullPage.decode j body = .ok page →
      s.acknowledged → s.queue ≠ [] → match t.client.receiveDownlink page (some request) with
        | (.error m, _) => m = "response does not match pull request"
        | (.ok progress, a) =>
          if progress.continues ≠ [] ∨ s.again then Asks a else Takes a s.queue) :
    InStep (t.catchUp j s now entropy body).2.live := by
  have hsome : t.live.session.isSome := by rw [hs]; rfl
  have hgate := h.gated s hs
  by_cases hmis : Mismatches j t.client s body
  · obtain ⟨t₁, reason, heq, hd, -⟩ := catchUp_fails now entropy hmis
    rw [heq]
    exact inStep_fail (hd ▸ h.running) reason
  refine ⟨balanced_stays h.toBalanced hsome (catchUp_stays hmis), ?_⟩
  unfold Turn.catchUp
  cases hactive : s.active with
  | none => exact drained_setSession (h.empty s hs) hgate
  | some request =>
    simp only
    cases hd : PullPage.decode j body with
    | error m => exact absurd ⟨request, hactive, fun page hp => by rw [hd] at hp; cases hp⟩ hmis
    | ok page =>
      have hmatch := htakes page request hactive hd
      simp only
      split
      · rename_i m c heq
        change t.client.receiveDownlink page (some request) = _ at heq
        split
        · exact absurd ⟨request, hactive, fun page' hp => by
            obtain rfl := Except.ok.inj (hd.symm.trans hp)
            rw [heq]
            exact congrArg Except.error ‹_›⟩ hmis
        · rename_i hne
          -- the response took the pull away, so the client must have taken it
          refine drained_setSession (fun _ => ?_) hgate
          by_contra hqueue
          have hm := hmatch (hgate hqueue) hqueue
          rw [heq] at hm
          exact hne hm
      · rename_i progress c heq
        change t.client.receiveDownlink page (some request) = _ at heq
        have htaken : ∀ hqueue : s.queue ≠ [],
            if progress.continues ≠ [] ∨ s.again then Asks c else Takes c s.queue := by
          intro hqueue
          have hm := hmatch (hgate hqueue) hqueue
          rw [heq] at hm
          exact hm
        have hasks : progress.continues ≠ [] ∨ s.again → s.queue = [] ∨ Asks c := by
          intro hor
          by_cases hqueue : s.queue = []
          · exact Or.inl hqueue
          · have hm := htaken hqueue
            rw [if_pos hor] at hm
            exact Or.inr hm
        split
        · rename_i hcont
          exact drained_pull (Or.inr (hasks (Or.inl hcont))) hgate
        · rename_i hcont
          split
          · rename_i hagain
            exact drained_pull (Or.inr (hasks (Or.inr hagain))) hgate
          · rename_i hagain
            refine drained_drain hgate (Or.inr ?_)
            by_cases hqueue : s.queue = []
            · rw [hqueue]
              trivial
            · have hm := htaken hqueue
              rw [if_neg (not_or.mpr ⟨hcont, hagain⟩)] at hm
              exact hm

/-- A session that a commit of subscriptions outdated ends without backoff. -/
theorem refresh_spec (a : Attached) (now : ℕ) (h : InStep l) :
    InStep (Turn.refresh ⟨l, a, []⟩ now).live ∧ (Turn.refresh ⟨l, a, []⟩ now).client = a ∧
    (Turn.refresh ⟨l, a, []⟩ now).live.driver = l.rested a now ∧
    ∀ s, (Turn.refresh ⟨l, a, []⟩ now).live.session = some s ↔
      l.session = some s ∧ s.generation = a.generation := by
  unfold Turn.refresh LiveSession.rested
  cases hs : l.session with
  | none => exact ⟨h, rfl, rfl, fun s => by simp [hs]⟩
  | some s =>
    simp only
    split
    · rename_i hgen
      refine ⟨h, rfl, rfl, fun x => ?_⟩
      rw [hs]
      exact ⟨fun hx => ⟨hx, Option.some.inj hx ▸ hgen⟩, fun hx => hx.1⟩
    · rename_i hgen
      have hflight := (complete_flight true now 0 h.running).1
      have hend : (⟨l, a, []⟩ : Turn).endSession none =
          ⟨{ l with session := none }, a, [.close s.epoch none]⟩ := by
        simp [Turn.endSession, hs, Turn.emit]
      rw [hend]
      refine ⟨inStep_of_none hflight rfl, rfl, rfl, fun x => ?_⟩
      constructor
      · rintro ⟨⟩
      · rintro ⟨hx, heq⟩
        exact absurd (Option.some.inj hx ▸ heq) hgen

theorem refresh_none (a : Attached) (now : ℕ) (h : InStep l) :
    (Turn.refresh ⟨l, a, []⟩ now).live.session = none ↔ Free l a := by
  obtain ⟨-, -, -, hs⟩ := refresh_spec a now h
  constructor
  · intro hnone s hls hgen
    have := (hs s).mpr ⟨hls, hgen⟩
    rw [hnone] at this
    cases this
  · intro hfree
    cases hnone : (Turn.refresh ⟨l, a, []⟩ now).live.session with
    | none => rfl
    | some s => exact absurd ((hs s).mp hnone).2 (hfree s ((hs s).mp hnone).1)

theorem rested_current (hs : l.session = some s) (hgen : s.generation = a.generation) :
    l.rested a now = l.driver := by
  simp [LiveSession.rested, hs, hgen]

/-- What a call leaves of a lane that has no session by then. -/
structure Quits (t : Turn) (r : Except String Unit × Turn) : Prop where
  ok : r.1 = .ok ()
  channels : r.2.client.desiredChannels = t.client.desiredChannels

/-- An event of an epoch leaves no session but where there was none, or where its own fails. -/
theorem current_quits (t : Turn) (epoch now entropy : ℕ) (f : Session → Except String Unit × Turn)
    (fails : Session → Prop)
    (hfail : ∀ s, t.live.session = some s → fails s → (f s).2.live.session = none ∧
      (f s).2.live.driver = t.live.driver.complete false now entropy ∧ Quits t (f s))
    (hstay : ∀ s, t.live.session = some s → ¬fails s → (f s).2.live.session.isSome) :
    ((t.current epoch f).2.live.session = none ∧ Due (t.current epoch f).2.live.driver now ↔
      t.live.session = none ∧ Due t.live.driver now ∨
      ∃ s, t.live.session = some s ∧ s.epoch = epoch ∧ fails s ∧
        Due (t.live.driver.complete false now entropy) now) ∧
    ((t.current epoch f).2.live.session = none → Quits t (t.current epoch f)) := by
  unfold Turn.current
  cases hs : t.live.session with
  | none => simpa [hs] using ⟨rfl, rfl⟩
  | some s =>
    by_cases he : s.epoch = epoch
    · simp only [he, ↓reduceIte]
      by_cases hf : fails s
      · obtain ⟨hnone, hd, hq⟩ := hfail s hs hf
        simp [hnone, hd, he, hf, hq]
      · have hsome := hstay s hs hf
        rw [Option.isSome_iff_ne_none] at hsome
        simp [hsome, hf]
    · simp [he, hs]

/-- After its event a call has no session and a driver that is due exactly where it begins one. -/
theorem dispatch_quits {x : Input} (h : InStep l) (hstart : x.event = .start → Free l x.client) :
    (((Turn.refresh ⟨l, x.client, []⟩ x.now).dispatch j x.now x.entropy x.event).2.live.session =
        none ∧ Due ((Turn.refresh ⟨l, x.client, []⟩ x.now).dispatch j x.now x.entropy
          x.event).2.live.driver x.now ↔ Begins j l x) ∧
    (((Turn.refresh ⟨l, x.client, []⟩ x.now).dispatch j x.now x.entropy x.event).2.live.session =
        none → Quits ⟨l, x.client, []⟩
          ((Turn.refresh ⟨l, x.client, []⟩ x.now).dispatch j x.now x.entropy x.event)) := by
  obtain ⟨hin, hc, hd, hs⟩ := refresh_spec x.client x.now h
  have hnone := refresh_none x.client x.now h
  set t := Turn.refresh ⟨l, x.client, []⟩ x.now with ht
  have hquits : ∀ {r}, Quits t r → Quits ⟨l, x.client, []⟩ r := fun hq =>
    ⟨hq.ok, hq.channels.trans (congrArg (·.desiredChannels) hc)⟩
  have hretry : ∀ epoch fails, (∃ s, t.live.session = some s ∧ s.epoch = epoch ∧ fails s ∧
      Due (t.live.driver.complete false x.now x.entropy) x.now) ↔ Retries l x epoch fails := by
    intro epoch fails
    constructor
    · rintro ⟨s, hts, he, hf, hdue⟩
      obtain ⟨hls, hgen⟩ := (hs s).mp hts
      rw [hd, rested_current hls hgen] at hdue
      exact ⟨s, ⟨hls, he, hgen⟩, hf, hdue⟩
    · rintro ⟨s, ⟨hls, he, hgen⟩, hf, hdue⟩
      refine ⟨s, (hs s).mpr ⟨hls, hgen⟩, he, hf, ?_⟩
      rw [hd, rested_current hls hgen]
      exact hdue
  have hquiet : Quits ⟨l, x.client, []⟩ ((.ok (), t) : Except String Unit × Turn) :=
    hquits ⟨rfl, rfl⟩
  unfold Begins
  cases hev : x.event with
  | start =>
    have hfree := hnone.mpr (hstart hev)
    simp only [Turn.dispatch, Turn.setDriver]
    exact ⟨⟨fun _ => trivial, fun _ => ⟨hfree, by simp [Due, ConnectionDriver.start, ConnectionDriver.next]⟩⟩,
      fun _ => hquits ⟨rfl, rfl⟩⟩
  | stop =>
    simp only [Turn.dispatch, Turn.setDriver]
    refine ⟨⟨fun hr => ?_, False.elim⟩, fun _ => hquits ⟨rfl, ?_⟩⟩
    · have hdue := hr.2
      simp [Due, ConnectionDriver.stop, ConnectionDriver.next] at hdue
    · exact congrArg (·.desiredChannels) (endSession_spec t none).2.2
  | pause =>
    simp only [Turn.dispatch, Turn.setDriver]
    refine ⟨⟨fun hr => ?_, False.elim⟩, fun _ => hquits ⟨rfl, ?_⟩⟩
    · have hdue := hr.2
      simp [Due, ConnectionDriver.pause, ConnectionDriver.next] at hdue
    · change (if t.live.session.isSome then _ else t : Turn).client.desiredChannels = _
      split
      · exact congrArg (·.desiredChannels) (endSession_spec t none).2.2
      · rfl
  | resume => exact ⟨by rw [← hd, ← hnone]; rfl, fun _ => hquits ⟨rfl, rfl⟩⟩
  | wake => exact ⟨by rw [← hd, ← hnone]; rfl, fun _ => hquits ⟨rfl, rfl⟩⟩
  | next => exact ⟨by rw [← hd, ← hnone]; rfl, fun _ => hquiet⟩
  | message epoch body =>
    obtain ⟨hiff, hq⟩ := current_quits t epoch x.now x.entropy
      (fun s => t.message j s x.now x.entropy body) (fun s => Refuses j s body) (fun s _ hf => by
        obtain ⟨reason, hm⟩ := message_fails t x.now x.entropy hf
        obtain ⟨hn, hdr, hcl⟩ := fail_spec t x.now x.entropy reason
        rw [hm]
        exact ⟨hn, hdr, rfl, congrArg (·.desiredChannels) hcl⟩)
      fun s _ hf => (message_stays hf).session
    refine ⟨hiff.trans ?_, fun hn => hquits (hq hn)⟩
    rw [hretry, hd, hnone]
  | catchUp epoch body =>
    obtain ⟨hiff, hq⟩ := current_quits t epoch x.now x.entropy
      (fun s => t.catchUp j s x.now x.entropy body) (fun s => Mismatches j t.client s body) (fun s _ hf => by
        obtain ⟨t₁, reason, hm, hd₁, hc₁⟩ := catchUp_fails x.now x.entropy hf
        obtain ⟨hn, hdr, hcl⟩ := fail_spec t₁ x.now x.entropy reason
        rw [hm]
        exact ⟨hn, by rw [hdr, hd₁], rfl, (congrArg (·.desiredChannels) hcl).trans hc₁⟩)
      fun s _ hf => (catchUp_stays hf).session
    refine ⟨hiff.trans ?_, fun hn => hquits (hq hn)⟩
    rw [hretry, hd, hnone, hc]
  | overflow epoch =>
    obtain ⟨hiff, hq⟩ := current_quits t epoch x.now x.entropy (fun s => t.overflow s) (fun _ => False)
      (fun s _ hf => hf.elim) fun s _ _ => stays_overflow.session
    refine ⟨hiff.trans ?_, fun hn => hquits (hq hn)⟩
    rw [hd, hnone]
    simp
  | closed epoch =>
    obtain ⟨hiff, hq⟩ := current_quits t epoch x.now x.entropy
      (fun _ => (.ok (), t.fail x.now x.entropy none)) (fun _ => True)
      (fun s _ _ => by
        obtain ⟨hn, hdr, hcl⟩ := fail_spec t x.now x.entropy none
        exact ⟨hn, hdr, rfl, congrArg (·.desiredChannels) hcl⟩)
      fun s _ hf => (hf trivial).elim
    refine ⟨hiff.trans ?_, fun hn => hquits (hq hn)⟩
    rw [hretry, hd, hnone]

theorem inStep_driver {d : ConnectionDriver} (h : InStep t.live)
    (hf : d.inFlight = t.live.driver.inFlight) (hr : d.running = t.live.driver.running) :
    InStep (t.setDriver d).live where
  flight := hf.trans h.flight
  running := fun hd => hr.trans (h.running (hf.symm.trans hd))
  empty := h.empty
  gated := h.gated

theorem inStep_dispatch {x : Input} (h : InStep l) (hm : Meets j l x) :
    InStep ((Turn.refresh ⟨l, x.client, []⟩ x.now).dispatch j x.now x.entropy x.event).2.live := by
  obtain ⟨hin, hc, hd, hs⟩ := refresh_spec x.client x.now h
  have hnone := refresh_none x.client x.now h
  set t := Turn.refresh ⟨l, x.client, []⟩ x.now with ht
  have hcurrent : ∀ epoch (f : Session → Except String Unit × Turn),
      (∀ s, t.live.session = some s → s.epoch = epoch → InStep (f s).2.live) →
      InStep (t.current epoch f).2.live := by
    intro epoch f hf
    unfold Turn.current
    split
    · exact hin
    · rename_i s hts
      split
      · exact hf s hts ‹_›
      · exact hin
  have hreach : ∀ {s : Session} {epoch}, t.live.session = some s → s.epoch = epoch →
      Current l x.client epoch s := fun hts he =>
    ⟨((hs _).mp hts).1, he, ((hs _).mp hts).2⟩
  cases hev : x.event with
  | start => exact inStep_of_none rfl (hnone.mpr (hm.start hev))
  | stop => exact inStep_of_none rfl (endSession_spec t none).1
  | pause =>
    simp only [Turn.dispatch]
    split
    · obtain ⟨hend, hdr, -⟩ := endSession_spec t none
      refine inStep_of_none ?_ hend
      change ((t.endSession none).live.driver.complete true x.now 0).inFlight = false
      rw [hdr]
      exact (complete_flight true x.now 0 hin.running).1
    · exact inStep_driver hin rfl rfl
  | resume => exact inStep_driver hin rfl rfl
  | wake => exact inStep_driver hin rfl rfl
  | next => exact hin
  | message epoch body =>
    refine hcurrent epoch _ fun s hts he => inStep_message hin hts fun page hp hack ha => ?_
    rw [hc]
    exact hm.frame epoch body page s hev (hreach hts he) hp hack ha
  | catchUp epoch body =>
    refine hcurrent epoch _ fun s hts he => inStep_catchUp hin hts
      fun page request ha hp hack hq => ?_
    rw [hc]
    exact hm.response epoch body page s request hev (hreach hts he) ha hp hack hq
  | overflow epoch => exact hcurrent epoch _ fun s hts _ => inStep_overflow hin hts
  | closed epoch => exact hcurrent epoch _ fun s _ _ => inStep_fail hin.running none

/-- The driver hands out its sync, or stays as it is. -/
theorem next_cases (d : ConnectionDriver) (now : ℕ) :
    (d.next now = (.sync, { d with dirty := false, inFlight := true }) ∧ d.running) ∨
      (d.next now).1 ≠ .sync ∧ (d.next now).2 = d := by
  unfold ConnectionDriver.next
  split
  · exact Or.inr ⟨by simp, rfl⟩
  · rename_i hready
    split
    · exact Or.inr ⟨by simp, rfl⟩
    · refine Or.inl ⟨rfl, ?_⟩
      simp only [Bool.or_eq_true, Bool.not_eq_true', not_or, Bool.not_eq_false] at hready
      exact hready.1.1.1

/-- Named channels are the ones a subscription takes. -/
theorem make_named (hne : a.desiredChannels ≠ []) :
    (∃ r, SubscribeRequest.make a.desiredChannels a.engine.declaredModels = .ok r) ↔
      "" ∉ a.desiredChannels := by
  constructor
  · rintro ⟨r, hr⟩
    obtain ⟨ds, hds, -, -⟩ := SubscribeRequest.make_eq_ok.mp hr
    simp only [normalizeChannels, Except.bind_eq_ok, ensure_eq_ok, Except.pure_eq_ok,
      exists_const] at hds
    exact hds.2.1
  · intro hnamed
    obtain ⟨ds, hds⟩ : ∃ ds, normalizeChannels a.desiredChannels = .ok ds := by
      simp only [normalizeChannels, Except.bind_eq_ok, ensure_eq_ok, Except.pure_eq_ok, exists_const]
      exact ⟨_, hne, hnamed, rfl⟩
    exact ⟨_, SubscribeRequest.make_eq_ok.mpr ⟨ds, hds, readModels_declared a.engine, rfl⟩⟩

/-- Without a session the driver begins one: with named channels it does not fail. -/
theorem inStep_schedule (h : InStep t.live) (hnamed : t.live.session = none →
    Due t.live.driver now → "" ∉ t.client.desiredChannels) :
    InStep (t.schedule j now).2.live := by
  unfold Turn.schedule
  cases hs : t.live.session with
  | some s => exact h
  | none =>
    simp only
    obtain ⟨hnext, hrun⟩ | ⟨hne, hsame⟩ := next_cases t.live.driver now
    · have hnames := hnamed hs (congrArg Prod.fst hnext)
      simp only [hnext]
      unfold Turn.begin
      split
      · exact inStep_of_none (complete_flight (d := { t.live.driver with
          dirty := false, inFlight := true }) true now 0 fun _ => hrun).1 hs
      · rename_i hchannels
        obtain ⟨r, hr⟩ := (make_named hchannels).mpr hnames
        have hr' : SubscribeRequest.make (t.setDriver { t.live.driver with
            dirty := false, inFlight := true }).client.desiredChannels
            t.client.engine.declaredModels = .ok r := hr
        split
        · rename_i m heq
          cases hr'.symm.trans heq
        · exact ⟨⟨rfl, fun _ => hrun⟩, ⟨fun x hx _ => by obtain rfl := Option.some.inj hx; rfl,
            fun x hx hq => by obtain rfl := Option.some.inj hx; exact absurd rfl hq⟩⟩
    · have hdriver : ∀ {d : ConnectionDriver}, d = t.live.driver → InStep (t.setDriver d).live :=
        fun hd => inStep_driver h (congrArg _ hd) (congrArg _ hd)
      split
      · rename_i d hn
        exact absurd (congrArg Prod.fst hn) hne
      · rename_i millis d hn
        exact hdriver ((congrArg Prod.snd hn).symm.trans hsame)
      · rename_i d hn
        exact hdriver ((congrArg Prod.snd hn).symm.trans hsame)

/-- A session that cannot begin keeps the sync in flight. -/
theorem schedule_stuck (hs : t.live.session = none) (hdue : Due t.live.driver now)
    (hempty : "" ∈ t.client.desiredChannels) : ¬Kept (t.schedule j now).2.live := by
  obtain ⟨hnext, -⟩ | ⟨hne, -⟩ := next_cases t.live.driver now
  · have hchannels : t.client.desiredChannels ≠ [] := List.ne_nil_of_mem hempty
    unfold Turn.schedule
    rw [hs]
    simp only [hnext]
    unfold Turn.begin
    split
    · exact absurd ‹_› hchannels
    · split
      · intro hk
        have hflight := hk.flight
        change true = t.live.session.isSome at hflight
        rw [hs] at hflight
        cases hflight
      · rename_i r heq
        exact absurd hempty ((make_named hchannels).mp ⟨r, heq⟩)
  · exact absurd hdue hne

/-- What the event of a call leaves, and what the call does. -/
theorem turn_eq (l : LiveSession) (j : Json) (a : Attached) (event : LiveEvent) (now entropy : ℕ) :
    (∃ m, ((Turn.refresh ⟨l, a, []⟩ now).dispatch j now entropy event).1 = .error m ∧
      (l.turn j a event now entropy).2 =
        ((Turn.refresh ⟨l, a, []⟩ now).dispatch j now entropy event).2) ∨
    ((Turn.refresh ⟨l, a, []⟩ now).dispatch j now entropy event).1 = .ok () ∧
      l.turn j a event now entropy =
        ((Turn.refresh ⟨l, a, []⟩ now).dispatch j now entropy event).2.schedule j now := by
  unfold LiveSession.turn
  split
  · rename_i m t heq
    exact Or.inl ⟨m, congrArg Prod.fst heq, congrArg Prod.snd heq.symm⟩
  · rename_i t heq
    rw [heq]
    exact Or.inr ⟨rfl, rfl⟩

/-- A call that meets its condition keeps the two machines in step. -/
theorem inStep_turn {x : Input} (h : InStep l) (hm : Meets j l x) :
    InStep (l.turn j x.client x.event x.now x.entropy).2.live := by
  have hdispatch := inStep_dispatch (j := j) h hm
  obtain ⟨m, -, heq⟩ | ⟨-, heq⟩ := turn_eq l j x.client x.event x.now x.entropy
  · rw [heq]
    exact hdispatch
  · obtain ⟨hbegins, hquits⟩ := dispatch_quits (j := j) h hm.start
    rw [heq]
    refine inStep_schedule hdispatch fun hs hdue => ?_
    rw [(hquits hs).channels]
    exact hm.named (hbegins.mp ⟨hs, hdue⟩)

/-- Where the event leaves frames without a pull, so does the call. -/
theorem stuck_turn {x : Input} (h : Stuck ((Turn.refresh ⟨l, x.client, []⟩ x.now).dispatch j x.now
    x.entropy x.event).2.live) : Stuck (l.turn j x.client x.event x.now x.entropy).2.live := by
  obtain ⟨m, -, heq⟩ | ⟨-, heq⟩ := turn_eq l j x.client x.event x.now x.entropy
  · rw [heq]
    exact h
  · obtain ⟨s, hs, hrest⟩ := h
    rw [heq]
    unfold Turn.schedule
    rw [hs]
    exact ⟨s, hs, hrest⟩

theorem current_eq {epoch : ℕ} {f : Session → Except String Unit × Turn}
    (hs : t.live.session = some s) (he : s.epoch = epoch) : t.current epoch f = f s := by
  simp [Turn.current, hs, he]

/-- A frame the client does not take is left without a pull. -/
theorem stuck_message {page : PullPage} (h : Drained t.live) (hs : t.live.session = some s)
    (hd : LiveMessage.decode j body = .ok (.page page)) (hack : s.acknowledged) (ha : s.active = none)
    (ht : ¬Takes t.client [page]) : Stuck (t.message j s now entropy body).2.live := by
  have hqueue := h.empty s hs ha
  unfold Turn.message
  simp only [hd, hack, hqueue, Bool.not_true, Bool.false_eq_true, ↓reduceIte]
  exact stuck_drain ha hack ht

/-- Frames that wait for a response the client does not take are left without a pull. -/
theorem stuck_catchUp {page : PullPage} {request : PullRequest} (hactive : s.active = some request)
    (hd : PullPage.decode j body = .ok page) (hack : s.acknowledged) (hqueue : s.queue ≠ [])
    (ht : ¬match t.client.receiveDownlink page (some request) with
      | (.error m, _) => m = "response does not match pull request"
      | (.ok progress, a) =>
        if progress.continues ≠ [] ∨ s.again then Asks a else Takes a s.queue) :
    Stuck (t.catchUp j s now entropy body).2.live := by
  unfold Turn.catchUp
  simp only [hactive, hd]
  change Stuck (match t.client.receiveDownlink page (some request) with
    | (.error m, c) => _
    | (.ok progress, c) => _ : Except String Unit × Turn).2.live
  split
  · rename_i m c heq
    rw [heq] at ht
    rw [if_neg ht]
    exact ⟨{ s with active := none }, rfl, hack, rfl, hqueue⟩
  · rename_i progress c heq
    rw [heq] at ht
    dsimp only at ht
    split
    · rename_i hcont
      rw [if_pos (Or.inl hcont)] at ht
      exact stuck_pull rfl hack hqueue ht
    · rename_i hcont
      split
      · rename_i hagain
        rw [if_pos (Or.inr hagain)] at ht
        exact stuck_pull rfl hack hqueue ht
      · rename_i hagain
        rw [if_neg (not_or.mpr ⟨hcont, hagain⟩)] at ht
        exact stuck_drain rfl hack ht

/-- A call that keeps the books meets its condition. -/
theorem meets_of_kept {x : Input} (h : InStep l)
    (hk : Kept (l.turn j x.client x.event x.now x.entropy).2.live) : Meets j l x := by
  obtain ⟨hin, hc, hd, hs⟩ := refresh_spec x.client x.now h
  have hnone := refresh_none x.client x.now h
  have hstart : x.event = .start → Free l x.client := by
    intro hev
    rw [← hnone]
    cases hsome : (Turn.refresh ⟨l, x.client, []⟩ x.now).live.session with
    | none => rfl
    | some s =>
      -- the driver starts anew beside the session
      have hflight := hk.flight
      simp [LiveSession.turn, hev, Turn.dispatch, Turn.setDriver, Turn.schedule, hsome,
        ConnectionDriver.start] at hflight
  have hreach : ∀ {s epoch}, Current l x.client epoch s →
      (Turn.refresh ⟨l, x.client, []⟩ x.now).live.session = some s := fun hcur =>
    (hs _).mpr ⟨hcur.session, hcur.generation⟩
  refine ⟨hstart, ?_, ?_, ?_⟩
  · intro hbegins hempty
    obtain ⟨hiff, hquits⟩ := dispatch_quits (j := j) h hstart
    obtain ⟨hn, hdue⟩ := hiff.mpr hbegins
    obtain ⟨hok, hchannels⟩ := hquits hn
    obtain ⟨m, herr, -⟩ | ⟨-, heq⟩ := turn_eq l j x.client x.event x.now x.entropy
    · cases hok.symm.trans herr
    · rw [heq] at hk
      exact schedule_stuck hn hdue (hchannels ▸ hempty) hk
  · intro epoch body page s hev hcur hp hack ha
    by_contra ht
    refine (stuck_turn ?_).not_kept hk
    rw [hev]
    simp only [Turn.dispatch, current_eq (hreach hcur) hcur.epoch]
    exact stuck_message hin.toDrained (hreach hcur) hp hack ha (by rw [hc]; exact ht)
  · intro epoch body page s request hev hcur ha hp hack hq
    by_contra ht
    refine (stuck_turn ?_).not_kept hk
    rw [hev]
    simp only [Turn.dispatch, current_eq (hreach hcur) hcur.epoch]
    exact stuck_catchUp ha hp hack hq (by rw [hc]; exact ht)

/-- A started lane without a session begins one as soon as it is resumed with named channels. -/
theorem begins_again (h : Balanced l) (hrun : l.driver.running) (hs : l.session = none)
    (hchannels : a.desiredChannels ≠ []) (hnamed : "" ∉ a.desiredChannels) :
    (l.handle j a .resume now entropy).2.1.session.isSome := by
  have hidle : l.driver.inFlight = false := by rw [h.flight, hs]; rfl
  obtain ⟨ds, hds⟩ : ∃ ds, normalizeChannels a.desiredChannels = .ok ds := by
    simp only [normalizeChannels, Except.bind_eq_ok, ensure_eq_ok, Except.pure_eq_ok, exists_const]
    exact ⟨_, hchannels, hnamed, rfl⟩
  have hmake := SubscribeRequest.make_eq_ok.mpr ⟨ds, hds, readModels_declared a.engine, rfl⟩
  simp [LiveSession.handle, LiveSession.turn, Turn.refresh, hs, Turn.dispatch, Turn.setDriver,
    Turn.schedule, ConnectionDriver.next, ConnectionDriver.resume, hrun, hidle, Turn.begin,
    hchannels, hmake, Turn.emit]

end Balanced

section Run
variable {j : Json} {xs : List Input}

theorem paid_run (j : Json) (xs : List Input) : Paid (Machine.run (Book.step j) {} xs).live
    (Machine.run (Book.step j) {} xs).outstanding :=
  Machine.run_invariant (P := fun b : Book => Paid b.live b.outstanding)
    (fun _ x h => paid_step h x)
    ⟨fun _ => Nat.zero_le _, fun _ _ => rfl, nofun, nofun, nofun⟩

theorem inStep_run (h : Machine.Along (Book.step j) (fun b x => Meets j b.live x) {} xs) :
    InStep (Machine.run (Book.step j) {} xs).live :=
  Machine.run_keeps (P := fun b : Book => InStep b.live) (fun _ _ h hm => inStep_turn h hm)
    (inStep_of_none rfl rfl) h

/-- The books are kept after every call exactly where every call meets its condition. -/
theorem kept_run : ∀ {b : Book} {xs : List Input}, InStep b.live →
    ((∀ ys, ys <+: xs → Kept (Machine.run (Book.step j) b ys).live) ↔
      Machine.Along (Book.step j) (fun b x => Meets j b.live x) b xs)
  | b, [], h => by
    refine ⟨fun _ => trivial, fun _ ys hys => ?_⟩
    obtain rfl := List.prefix_nil.mp hys
    exact h.kept
  | b, x :: xs, h => by
    constructor
    · intro hk
      have hm : Meets j b.live x := meets_of_kept h (hk [x] (by simp))
      have hstep : InStep (b.step j x).live := inStep_turn h hm
      exact ⟨hm, (kept_run hstep).mp fun ys hys =>
        hk (x :: ys) (List.cons_prefix_cons.mpr ⟨rfl, hys⟩)⟩
    · rintro ⟨hm, hrest⟩ ys hys
      have hstep : InStep (b.step j x).live := inStep_turn h hm
      cases ys with
      | nil => exact h.kept
      | cons y ys =>
        obtain ⟨rfl, htail⟩ := List.cons_prefix_cons.mp hys
        exact (kept_run hstep).mpr hrest ys htail

/-- Whatever a lane is given, its queue holds no more frames than it may and no session has two
    requests outstanding. After each call the driver has a sync in flight exactly while a session
    exists, and no frame of an acknowledged session waits without a pull, exactly where every call
    meets its condition. A started lane can then begin again. -/
theorem lane_in_step (j : Json) (xs : List Input) :
    (∀ s, (Machine.run (Book.step j) {} xs).live.session = some s →
      s.queue.length ≤ queuedFrames) ∧
    (∀ epoch, (Machine.run (Book.step j) {} xs).outstanding.count epoch ≤ 1) ∧
    ((∀ ys, ys <+: xs → Kept (Machine.run (Book.step j) {} ys).live) ↔
      Machine.Along (Book.step j) (fun b x => Meets j b.live x) {} xs) ∧
    (Machine.Along (Book.step j) (fun b x => Meets j b.live x) {} xs →
      ∀ a now entropy, (Machine.run (Book.step j) {} xs).live.driver.running →
        (Machine.run (Book.step j) {} xs).live.session = none →
        a.desiredChannels ≠ [] → "" ∉ a.desiredChannels →
        ((Machine.run (Book.step j) {} xs).live.handle j a .resume now entropy).2.1.session.isSome) := by
  have hpaid := paid_run j xs
  have hstart : InStep ({} : Book).live := inStep_of_none rfl rfl
  refine ⟨hpaid.bounded, hpaid.single, kept_run hstart, fun h => ?_⟩
  intro a now entropy hrun hs hchannels hnamed
  exact begins_again (inStep_run h).toBalanced hrun hs hchannels hnamed

end Run

namespace Sample
open AheadSync.Sample

/-- A client of one channel. -/
def listening (channel : String) : Attached :=
  ⟨loose, client loose [.setChannels [(channel, true)]], false⟩

/-- The lane starts, is acknowledged behind the head and has a frame to keep until its pull ends. -/
def opening : List Input :=
  [⟨listening "type", .start, 0, 0⟩,
    ⟨listening "type", .message 1 (wireJson.text wireAck.toValue), 1, 0⟩,
    ⟨listening "type", .message 1 (wireJson.text wirePage.toValue), 2, 0⟩]

theorem lane_in_step_opening :
    Kept (Machine.run (Book.step wireJson) {} opening).live ∧
    (Machine.run (Book.step wireJson) {} opening).outstanding.count 1 ≤ 1 ∧
    ((Machine.run (Book.step wireJson) {} opening).live.session.map (·.queue.length)) = some 1 := by
  obtain ⟨-, hsingle, hkept, -⟩ := lane_in_step wireJson opening
  refine ⟨hkept.mpr ⟨?_, ?_, ?_, trivial⟩ opening (List.prefix_refl _), hsingle 1,
    by decide +kernel⟩
  · refine ⟨fun _ s hs => ?_, fun _ => by decide +kernel, by simp, by simp⟩
    cases hs
  · refine ⟨by simp, fun _ => by decide +kernel, ?_, by simp⟩
    rintro epoch body page s he - hd - -
    obtain ⟨rfl, rfl⟩ := LiveEvent.message.inj he
    have hack : LiveMessage.decode wireJson (wireJson.text wireAck.toValue) =
        .ok (.acknowledged wireAck) := by decide +kernel
    cases hack.symm.trans hd
  · refine ⟨by simp, fun _ => by decide +kernel, ?_, by simp⟩
    rintro epoch body page s - hc - - ha
    have hactive : ((Machine.run (Book.step wireJson) {} (opening.take 2)).live.session.all
        (·.active.isSome)) = true := by decide +kernel
    have hs : (Machine.run (Book.step wireJson) {} (opening.take 2)).live.session = some s := hc.session
    rw [hs] at hactive
    simp [ha] at hactive

/-- A client may subscribe to the channel of the empty name. The lane cannot begin for it, and keeps
    its sync in flight. -/
theorem not_lane_in_step : ¬∀ (j : Json) (xs : List Input),
    (∀ x ∈ xs, x.client.busy = false ∧ Reachable x.client.engine x.client.client) →
    (Machine.run (Book.step j) {} xs).live.driver.inFlight =
      (Machine.run (Book.step j) {} xs).live.session.isSome := by
  intro h
  have hin := h wireJson [⟨listening "", .start, 0, 0⟩] fun x hx => by
    obtain rfl := List.mem_singleton.mp hx
    exact ⟨rfl, client_reachable loose _⟩
  have hstuck : (Machine.run (Book.step wireJson) {} [⟨listening "", .start, 0, 0⟩]).live.driver.inFlight
        = true ∧
      (Machine.run (Book.step wireJson) {} [⟨listening "", .start, 0, 0⟩]).live.session.isSome = false := by
    decide +kernel
  rw [hstuck.1, hstuck.2] at hin
  cases hin

end Sample

end Lane

end AheadSync
