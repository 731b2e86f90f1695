import AheadSync.Client.Push

/-! One client: its durable store and its memory of the pulls it issued, subscriptions, and the
    pages it receives (`client/src/lib.rs`, `client/src/downlink.rs`, `client/src/transport.rs`). -/

namespace AheadSync

/-- One request: the cursor it asked from on every channel, and each channel's epoch. -/
structure IssuedPull where
  cursors : SortedMap String ℕ
  epochs : SortedMap String ℕ
  deriving DecidableEq

/-- The pulls issued since the client was opened, and how often each subscription changed. -/
structure PullLedger where
  epochs : SortedMap String ℕ := .empty
  issued : List IssuedPull := []
  generation : ℕ := 0
  deriving DecidableEq

namespace PullLedger
variable (l : PullLedger)

/-- `PullLedger::CAPACITY`. -/
def capacity : ℕ := 1024

def epoch (channel : String) : ℕ := (l.epochs.lookup channel).getD 0

/-- The subscription changes a committed transaction recorded. -/
def absorb (marks : List String) : PullLedger :=
  marks.foldl (fun l channel => { l with
    epochs := l.epochs.insert channel (l.epoch channel + 1), generation := l.generation + 1 }) l

def currentEpochs (cursors : SortedMap String ℕ) : SortedMap String ℕ :=
  cursors.mapValues fun channel _ => l.epoch channel

def issue (cursors : SortedMap String ℕ) : PullLedger :=
  { l with issued := (if l.issued.length = capacity then l.issued.tail else l.issued) ++
      [⟨cursors, l.currentEpochs cursors⟩] }

/-- Whether the page answering a request from `cursors` was requested under an earlier subscription
    of one of its channels. Consumes the matching request. -/
def stale (cursors : SortedMap String ℕ) : Bool × PullLedger :=
  let current := l.currentEpochs cursors
  match l.issued.findIdx? (fun p => p.cursors = cursors ∧ p.epochs = current) with
  | some i => (false, { l with issued := (l.issued.eraseIdx i).map fun p =>
      if p.cursors = cursors then { p with epochs := current } else p })
  | none =>
    match l.issued.findIdx? (fun p => p.cursors = cursors) with
    | some i => (true, { l with issued := l.issued.eraseIdx i })
    | none => (false, l)

end PullLedger

structure Client where
  store : Store
  pulls : PullLedger := {}

inductive DownlinkDisposition where
  | covered | applied | recover
  deriving DecidableEq

/-- What became of one incoming page. -/
structure DownlinkProgress where
  disposition : DownlinkDisposition := .covered
  gaps : List String := []
  continues : List String := []
  report : ApplyReport := {}
  deriving DecidableEq

namespace Store

/-- Subscribe or unsubscribe a channel, and mark it when that changed the subscription. -/
def setChannel (acc : Store × List String) (change : String × Bool) : Store × List String :=
  let (st, marks) := acc
  let (channel, subscribed) := change
  if subscribed then
    if (st.cursor channel).isNone then (st.setCursor channel 0, channel :: marks) else (st, marks)
  else (st.deleteSubscription channel, if (st.cursor channel).isSome then channel :: marks else marks)

/-- The channels of the page that move this client's cursors, each with its new cursor. -/
def movingChannels (st : Store) (page : PullPage) : Except String (SortedMap String ℕ) :=
  page.cursors.entries.foldlM (fun moving (channel, range) =>
    match st.cursor channel with
    | none => return moving
    | some current =>
      if range.toCursor ≤ current then return moving
      else if current < range.fromCursor then .error "pull cursor gap"
      else return moving.insert channel range.toCursor) .empty

def setCursors (st : Store) (moving : SortedMap String ℕ) : Store :=
  moving.entries.foldl (fun st e => st.setCursor e.1 e.2) st

end Store

namespace Engine
variable (e : Engine)

/-- Apply a page in one transaction: all changes, then all cursors. -/
def applyCurrentPage (st : Store) (page : PullPage) : Except String (ApplyReport × Store) := do
  let moving ← st.movingChannels page
  if moving.isEmpty then return ({ stale := true }, st)
  forM page.cursors.entries fun (channel, range) =>
    match moving.lookup channel with
    | none => .ok ()
    | some goal =>
      let current := (st.cursor channel).getD 0
      ensure (¬(current ≠ range.fromCursor ∧ goal ≤ current)) "cursor moved during page application"
  let (report, st) ← e.applyRecords st page.changes
  return ({ report with cursors := moving }, st.setCursors moving)

end Engine

namespace Client
variable (e : Engine) (c : Client)

/-- One transaction of subscription changes. -/
def setChannels (changes : List (String × Bool)) : Client :=
  let (st, marks) := changes.foldl Store.setChannel (c.store, [])
  ⟨st, c.pulls.absorb (sortedSet marks)⟩

/-- Reopening the store forgets the pulls. -/
def restart : Client := ⟨c.store, {}⟩

/-- One pull for every subscribed channel from its durable cursor. -/
def downlinkRequest : Except String (Option PullRequest) × Client :=
  let cursors := c.store.subscriptions
  if cursors.isEmpty then (.ok none, c)
  else
    let request : PullRequest := ⟨e.declaredModels, cursors⟩
    (request.validate.map fun _ => some request, { c with pulls := c.pulls.issue cursors })

/-- Run a transaction of the store: an error leaves it as it was. -/
def commit {α : Type} (r : Except String (α × Store)) : Except String α × Client :=
  match r with
  | .ok (a, st) => (.ok a, { c with store := st })
  | .error m => (.error m, c)

def applyPage (page : PullPage) : Except String ApplyReport × Client :=
  match page.validate with
  | .error m => (.error m, c)
  | .ok () =>
    let (stale, pulls) := c.pulls.stale page.froms
    let c := { c with pulls := pulls }
    if stale then (.ok { stale := true }, c) else c.commit (e.applyCurrentPage c.store page)

/-- Channels of the page that this client subscribes to and that it moves. -/
def newFor (page : PullPage) : List (String × CursorRange) :=
  page.cursors.entries.filter fun (channel, range) =>
    match c.store.cursor channel with
    | none => false
    | some cursor => cursor < range.toCursor

/-- One incoming path for pages: `request` is there when the page answers a pull of this client. -/
def receiveDownlink (page : PullPage) (request : Option PullRequest) :
    Except String DownlinkProgress × Client :=
  match (do page.validate
            ensure (request.all (answers page)) "response does not match pull request") with
  | .error m => (.error m, c)
  | .ok () =>
    let continues := (page.cursors.entries.filter (·.2.continues)).map (·.1)
    let (stale, pulls) := c.pulls.stale page.froms
    let c := { c with pulls := pulls }
    if stale then (.ok { continues }, c)
    else
      let gaps := ((c.newFor page).filter fun (channel, range) =>
        (c.store.cursor channel).getD 0 < range.fromCursor).map (·.1)
      if gaps ≠ [] then (.ok { disposition := .recover, gaps, continues }, c)
      else if c.newFor page = [] then (.ok { continues }, c)
      else
        let (result, c) := c.commit (e.applyCurrentPage c.store page)
        (result.map fun report => { disposition := .applied, continues, report }, c)

end Client

end AheadSync
