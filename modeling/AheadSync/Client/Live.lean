import AheadSync.Client.Transport
import AheadSync.Core.Wire

/-! The live session of a client (`client/src/live.rs`, `client/src/connection.rs`): subscribe,
    compare the acknowledged heads with the durable cursors, catch up over HTTP only when behind, then
    consume the stream through a gated queue of frames. -/

namespace AheadSync

namespace Lane

/-- A time of 64 bits that saturates. -/
def saturated (n : ℕ) : ℕ := min n (2 ^ 64 - 1)

structure ConnectionDriver where
  running : Bool := false
  paused : Bool := false
  dirty : Bool := false
  inFlight : Bool := false
  attempt : ℕ := 0
  due : ℕ := 0
  deriving DecidableEq

inductive ConnectionAction where
  | idle | sync
  | wait (millis : ℕ)
  deriving DecidableEq

namespace ConnectionDriver
variable (d : ConnectionDriver)

def start (now : ℕ) : ConnectionDriver := { running := true, dirty := true, due := now }

def stop : ConnectionDriver := {}

def pause : ConnectionDriver := { d with paused := true }

def resume (now : ℕ) : ConnectionDriver := { d with paused := false, dirty := true, due := now }

def wake : ConnectionDriver := { d with dirty := true }

def next (now : ℕ) : ConnectionAction × ConnectionDriver :=
  if !d.running || d.paused || d.inFlight || !d.dirty then (.idle, d)
  else if now < d.due then (.wait (d.due - now), d)
  else (.sync, { d with dirty := false, inFlight := true })

def complete (success : Bool) (now entropy : ℕ) : ConnectionDriver :=
  if !d.running || !d.inFlight then d
  else if success then { d with inFlight := false, attempt := 0, due := now }
  else
    let base := min (250 * 2 ^ min d.attempt 7) 30000
    { d with
      inFlight := false
      attempt := min (d.attempt + 1) (2 ^ 32 - 1)
      due := saturated (now + base * (800 + entropy % 401) / 1000)
      dirty := true }

end ConnectionDriver

/-- A client, and whether its host has a transaction open (`session_active`): it reads the committed
    rows all the same, but cannot write beside the transaction. -/
structure Attached where
  engine : Engine
  client : Client
  busy : Bool := false

namespace Attached
variable (a : Attached)

def desiredChannels : List String := a.client.store.subscriptions.keys

def cursor (channel : String) : ℕ := (a.client.store.cursor channel).getD 0

def generation : ℕ := a.client.pulls.generation

def downlinkRequest : Except String (Option PullRequest) × Attached :=
  let (r, c) := a.client.downlinkRequest a.engine
  (r, { a with client := c })

/-- `receive_downlink`: a page that would be written is refused while a transaction is open, once the
    ledger was asked about it. -/
def receiveDownlink (page : PullPage) (request : Option PullRequest) :
    Except String DownlinkProgress × Attached :=
  let (r, c) := a.client.receiveDownlink a.engine page request
  let asked := { a with client := { a.client with pulls := c.pulls } }
  let refused := match (do page.validate
                           ensure (request.all (answers page)) "response does not match pull request") with
    | .error m => m
    | .ok () => "client transaction active"
  match a.busy, r with
  | false, r => (r, { a with client := c })
  | true, .error _ => (.error refused, asked)
  | true, .ok progress =>
    if progress.disposition = .applied then (.error refused, asked) else (.ok progress, asked)

end Attached

inductive LiveEvent where
  | start | stop | pause | resume | wake | next
  | message (epoch : ℕ) (body : String)
  | catchUp (epoch : ℕ) (body : String)
  | overflow (epoch : ℕ)
  | closed (epoch : ℕ)

/-- What the host does next. A request is given as it is read back from its text. -/
inductive LiveAction where
  | «open» (epoch : ℕ) (subscribe : String)
  | request (epoch : ℕ) (body : PullRequest)
  | close (epoch : ℕ) (reason : Option String)
  | wake (lane : String)
  | report (reports : List Report)
  | wait (millis : ℕ)
  deriving DecidableEq

structure Session where
  epoch : ℕ
  generation : ℕ
  subscribe : SubscribeRequest
  acknowledged : Bool := false
  active : Option PullRequest := none
  again : Bool := false
  queue : List PullPage := []

/-- `QUEUED_FRAMES`. -/
def queuedFrames : ℕ := 64

structure LiveSession where
  driver : ConnectionDriver := {}
  epoch : ℕ := 0
  session : Option Session := none

/-- `settle`: a wake when a page applied, its reports when it has any. -/
def settle (progress : DownlinkProgress) : List LiveAction :=
  (if progress.disposition = .applied then [.wake "push"] else []) ++
    if progress.report.reports ≠ [] then [.report progress.report.reports] else []

/-- A call of `handle` in progress. What it changed stays when it fails, the actions do not. -/
structure Turn where
  live : LiveSession
  client : Attached
  actions : List LiveAction := []

namespace Turn
variable (j : Json) (t : Turn) (s : Session) (now entropy : ℕ)

def setSession : Turn := { t with live := { t.live with session := some s } }

def setDriver (d : ConnectionDriver) : Turn := { t with live := { t.live with driver := d } }

def emit (actions : List LiveAction) : Turn := { t with actions := t.actions ++ actions }

/-- `end`. -/
def endSession (reason : Option String) : Turn :=
  match t.live.session with
  | none => t
  | some s => { t.emit [.close s.epoch reason] with live := { t.live with session := none } }

/-- `driver.complete`. -/
def complete (success : Bool) (entropy : ℕ) : Turn :=
  t.setDriver (t.live.driver.complete success now entropy)

def fail (reason : Option String) : Turn := (t.endSession reason).complete now false entropy

/-- Issue one pull for the session `s` unless one is in flight. -/
def pull : Except String Unit × Turn :=
  if s.active.isSome then (.ok (), t.setSession { s with again := true })
  else
    let t := t.setSession s
    match t.client.downlinkRequest with
    | (.error m, c) => (.error m, { t with client := c })
    | (.ok none, c) => (.ok (), { t with client := c })
    | (.ok (some request), c) =>
      (.ok (), ({ t with client := c }.setSession { s with active := some request }).emit
        [.request s.epoch request])

/-- Apply the queue of the session `s` from the front while no pull is in flight. -/
def drain (t : Turn) (s : Session) : List PullPage → Except String Unit × Turn
  | [] => (.ok (), t.setSession { s with queue := [] })
  | front :: rest =>
    let s := { s with queue := front :: rest }
    if s.active.isSome then (.ok (), t.setSession s)
    else
      match t.client.receiveDownlink front none with
      | (.error m, c) => (.error m, { t with client := c }.setSession s)
      | (.ok progress, c) =>
        let t := { t with client := c }.emit (settle progress)
        if progress.disposition = .recover then t.pull s else drain t s rest

def overflow : Except String Unit × Turn :=
  if s.acknowledged then t.pull { s with queue := [] } else (.ok (), t.setSession s)

def message (body : String) : Except String Unit × Turn :=
  match LiveMessage.decode j body with
  | .error m => (.ok (), t.fail now entropy (some m))
  | .ok (.acknowledged ack) =>
    if s.acknowledged || !ack.confirms s.subscribe then
      (.ok (), t.fail now entropy (some SubscriptionAck.invalidAck))
    else
      let s := { s with acknowledged := true }
      if ack.cursors.entries.any fun e => t.client.cursor e.1 < e.2 then t.pull s
      else (.ok (), t.setSession s)
  | .ok (.page page) =>
    if !s.acknowledged then (.ok (), t.fail now entropy (some "live page before acknowledgement"))
    else if queuedFrames ≤ s.queue.length then t.overflow s
    else t.drain s (s.queue ++ [page])

def catchUp (body : String) : Except String Unit × Turn :=
  match s.active with
  | none => (.error "catch-up response without a request", t.setSession s)
  | some request =>
    let s := { s with active := none }
    let t := t.setSession s
    match PullPage.decode j body with
    | .error m => (.ok (), t.fail now entropy (some ("invalid pull response: " ++ m)))
    | .ok page =>
      match t.client.receiveDownlink page (some request) with
      | (.error m, c) =>
        let t := { t with client := c }
        if m = "response does not match pull request" then (.ok (), t.fail now entropy (some m))
        else (.error m, t)
      | (.ok progress, c) =>
        let t := { t with client := c }.emit (settle progress)
        if progress.continues ≠ [] then t.pull s
        -- the flag is read, and taken, only where no channel continues
        else if s.again then t.pull { s with again := false }
        else t.drain { s with again := false } s.queue

/-- Snapshot the channels and the generation; without channels the lane stays idle. -/
def begin : Except String Unit × Turn :=
  if t.client.desiredChannels = [] then (.ok (), t.complete now true 0)
  else
    match SubscribeRequest.make t.client.desiredChannels t.client.engine.declaredModels with
    | .error m => (.error m, t)
    | .ok subscribe =>
      let epoch := t.live.epoch + 1
      (.ok (), { t with live := { t.live with
          epoch, session := some { epoch, generation := t.client.generation, subscribe } } }.emit
        [.open epoch (j.text subscribe.toValue)])

/-- A committed subscribe or unsubscribe invalidates the session. -/
def refresh : Turn :=
  match t.live.session with
  | none => t
  | some s =>
    if s.generation = t.client.generation then t
    else
      let t := (t.endSession none).complete now true 0
      t.setDriver t.live.driver.wake

/-- Hand an event of an epoch to its session; what an abandoned one still delivers is ignored. -/
def current (epoch : ℕ) (f : Session → Except String Unit × Turn) : Except String Unit × Turn :=
  match t.live.session with
  | none => (.ok (), t)
  | some s => if s.epoch = epoch then f s else (.ok (), t)

def dispatch : LiveEvent → Except String Unit × Turn
  | .start => (.ok (), t.setDriver (ConnectionDriver.start now))
  | .stop => let t := t.endSession none; (.ok (), t.setDriver ConnectionDriver.stop)
  | .pause =>
    let t := if t.live.session.isSome then (t.endSession none).complete now true 0 else t
    (.ok (), t.setDriver t.live.driver.pause)
  | .resume => (.ok (), t.setDriver (t.live.driver.resume now))
  | .wake => (.ok (), t.setDriver t.live.driver.wake)
  | .next => (.ok (), t)
  | .message epoch body => t.current epoch fun s => t.message j s now entropy body
  | .catchUp epoch body => t.current epoch fun s => t.catchUp j s now entropy body
  | .overflow epoch => t.current epoch fun s => t.overflow s
  | .closed epoch => t.current epoch fun _ => (.ok (), t.fail now entropy none)

/-- Without a session the driver decides what is next. -/
def schedule : Except String Unit × Turn :=
  match t.live.session with
  | some _ => (.ok (), t)
  | none =>
    match t.live.driver.next now with
    | (.sync, d) => (t.setDriver d).begin j now
    | (.wait millis, d) => (.ok (), (t.setDriver d).emit [.wait millis])
    | (.idle, d) => (.ok (), t.setDriver d)

end Turn

namespace LiveSession

/-- `handle` up to its answer. -/
def turn (j : Json) (l : LiveSession) (a : Attached) (event : LiveEvent) (now entropy : ℕ) :
    Except String Unit × Turn :=
  match (Turn.refresh ⟨l, a, []⟩ now).dispatch j now entropy event with
  | (.error m, t) => (.error m, t)
  | (.ok (), t) => t.schedule j now

/-- What `handle` answers, and what it leaves of the lane and of the client. -/
def handle (j : Json) (l : LiveSession) (a : Attached) (event : LiveEvent) (now entropy : ℕ) :
    Except String (List LiveAction) × LiveSession × Attached :=
  let (r, t) := l.turn j a event now entropy
  (r.map fun _ => t.actions, t.live, t.client)

end LiveSession

end Lane

end AheadSync
