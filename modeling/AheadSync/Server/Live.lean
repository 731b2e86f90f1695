import AheadSync.Server.Config
import AheadSync.Lib.Run

/-! The live subscription controller of one socket (`server/src/live.rs`): it decides what to send and
    when to pull from the commits and the pages the host reports. -/

namespace AheadSync

/-- What a socket carries: the acknowledgement of a subscription, or a page. -/
inductive Frame where
  | ack (heads : SortedMap String ℕ)
  | page (page : PullPage)
  deriving DecidableEq

/-- An accepted subscription: every channel's head, and the read contracts the client declared. -/
structure Negotiation where
  heads : SortedMap String ℕ
  models : Models

/-- What the host reports. -/
inductive LiveEvent where
  | committed (scope : String)
  | pulled (page : PullPage)
  | closed
  deriving DecidableEq

/-- What the host executes, in order, for one event. -/
inductive LiveAction where
  | listen (scope : String)
  | send (frame : Frame)
  | pull (cursors : SortedMap String ℕ) (models : Models)
  deriving DecidableEq

/-- One accepted scope: the cursor streamed so far and whether a commit arrived that has not been
    pulled yet. -/
structure ScopeState where
  scope : String
  cursor : ℕ
  pending : Bool := false
  deriving DecidableEq

/-- The state of one socket: `running` is the cursors the outstanding pull was asked for. -/
structure Subscriptions where
  scopes : List ScopeState
  running : Option (SortedMap String ℕ)
  closed : Bool := false
  models : Models
  deriving DecidableEq

/-- `page_progress`: a pulled page must answer exactly the cursors that were asked. -/
def pageProgress (page : PullPage) (expected : SortedMap String ℕ) :
    Except Failure (SortedMap String CursorRange) := do
  let invalid (message : String) : Failure := ⟨"live.invalid_page", message, .null⟩
  page.validate.mapError fun m => invalid ("invalid live page: " ++ m)
  ensure (page.cursors.keys = expected.keys) (invalid "invalid live page channels")
  forM page.cursors.entries fun (channel, range) =>
    ensure (expected.lookup channel = some range.fromCursor)
      (invalid ("invalid live page progression on " ++ channel))
  return page.cursors

namespace Subscriptions
variable (s : Subscriptions)

/-- The session of a negotiation: listen, acknowledge, and pull everything once. -/
def opened (n : Negotiation) : Subscriptions × List LiveAction :=
  let scopes := n.heads.entries.map fun e => ({ scope := e.1, cursor := e.2 } : ScopeState)
  ({ scopes, running := some n.heads, models := n.models },
    scopes.map (.listen ·.scope) ++ [.send (.ack n.heads), .pull n.heads n.models])

def invalidEvent (message : String) : Failure := ⟨"live.invalid_event", message, .null⟩

/-- Change the state of the first scope of a name. -/
def modifyScope (scope : String) (f : ScopeState → ScopeState) : List ScopeState → List ScopeState
  | [] => []
  | st :: rest => if st.scope = scope then f st :: rest else st :: modifyScope scope f rest

/-- `scope_mut`, and a change of what it found. -/
def scopeMut (scope : String) (f : ScopeState → ScopeState) : Except Failure Subscriptions := do
  ensure (s.scopes.any (·.scope = scope)) (invalidEvent ("scope " ++ scope ++ " is not subscribed"))
  return { s with scopes := modifyScope scope f s.scopes }

/-- The cursors of the pending scopes. -/
def pendingCursors : SortedMap String ℕ :=
  .ofList ((s.scopes.filter (·.pending)).map fun st => (st.scope, st.cursor))

/-- `next_pull`: one pull for every pending scope, none when nothing is pending. -/
def nextPull : Subscriptions × List LiveAction :=
  if s.scopes.any (·.pending) then
    ({ s with scopes := s.scopes.map fun st => { st with pending := false }
              running := some s.pendingCursors }, [.pull s.pendingCursors s.models])
  else (s, [])

/-- Move a scope to where a page leaves it, which marks it when that is below its head. -/
def progress (s : Subscriptions) (entry : String × CursorRange) : Except Failure Subscriptions :=
  s.scopeMut entry.1 fun st => { st with
    cursor := entry.2.toCursor, pending := st.pending || entry.2.continues }

/-- `handle`: the state changes even where the event is refused. -/
def handle : LiveEvent → Except Failure (List LiveAction) × Subscriptions
  | .committed scope =>
    match s.scopeMut scope fun st => { st with pending := true } with
    | .error m => (.error m, s)
    | .ok marked =>
      if marked.closed ∨ marked.running.isSome then (.ok [], marked)
      else (.ok marked.nextPull.2, marked.nextPull.1)
  | .pulled page =>
    match s.running with
    | none => (.error (invalidEvent "no pull is outstanding"), s)
    | some asked =>
      let idle := { s with running := none }
      if s.closed then (.ok [], idle)
      else match pageProgress page asked with
        | .error m => (.error m, idle)
        | .ok cursors =>
          let frames := if cursors.entries.any fun e => e.2.fromCursor < e.2.toCursor then
            [LiveAction.send (.page page)] else []
          match cursors.entries.foldlM progress idle with
          -- not reached: the page names the scopes that were asked
          | .error m => (.error m, idle)
          | .ok moved => (.ok (frames ++ moved.nextPull.2), moved.nextPull.1)
  | .closed => (.ok [], { s with
      closed := true, scopes := s.scopes.map fun st => { st with pending := false } })

end Subscriptions

end AheadSync
