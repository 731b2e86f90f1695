import AheadSync.Core.Normal
import Mathlib.Data.List.Basic

/-! The messages of the protocol and the checks both sides make of them (`core/src/protocol.rs`).
    Decoding a message is reading its JSON and then `validate`. -/

namespace AheadSync

/-- A batch carries at most this many mutations. -/
def pushMutations : ℕ := 20

/-- A batch grows only while its canonical bytes stay under this. -/
def pushBytes : ℕ := 256 * 1024

/-- A page scans at most this many invalidations of a channel. -/
def pullChanges : ℕ := 50

/-- `char::is_whitespace`, which `str::trim` removes. -/
def isWhitespace (ch : Char) : Bool :=
  let n := ch.toNat
  (9 ≤ n && n ≤ 13) || (0x2000 ≤ n && n ≤ 0x200A) ||
    n ∈ [0x20, 0x85, 0xA0, 0x1680, 0x2028, 0x2029, 0x202F, 0x205F, 0x3000]

/-- `s.trim().is_empty()`. -/
def blank (s : String) : Bool := s.toList.all isWhitespace

def counter (n : ℕ) : Except String Unit :=
  ensure (n ≤ maxSafeInteger) "counter outside safe integer range"

/-- A counter that must be positive. -/
def positiveCounter (n : ℕ) (message : String) : Except String Unit :=
  ensure (0 < n ∧ n ≤ maxSafeInteger) message

inductive OperationKind where
  | create | update | delete
  deriving DecidableEq

structure Operation where
  model : String
  op : OperationKind
  identity : Value
  values : Option Value := none
  deriving DecidableEq

/-- The record an operation addresses, once its identity is normalized. -/
def Operation.key (op : Operation) : RecordKey := ⟨op.model, op.identity⟩

/-- One mutation of a batch as it travels. -/
structure WireMutation where
  ordinal : ℕ
  name : String
  version : ℕ
  operations : List Operation
  deriving DecidableEq

/-- The versions under which a client reads each model. -/
abbrev Models := SortedMap String ℕ

/-- `read_models`. -/
def readModels (models : Models) : Except String Unit := do
  ensure (models.entries ≠ []) "models must declare at least one model"
  forM models.entries fun e => do
    ensure (e.1 ≠ "") "model name must not be empty"
    positiveCounter e.2 "invalid counter"

structure PushRequest where
  clientId : String
  batchSequence : ℕ
  models : Models
  mutations : List WireMutation
  deriving DecidableEq

/-- `PushRequest::decode`. -/
def PushRequest.validate (r : PushRequest) : Except String Unit := do
  ensure (!blank r.clientId) "expected nonblank string"
  positiveCounter r.batchSequence "invalid counter"
  readModels r.models
  ensure (r.mutations ≠ [] ∧ r.mutations.length ≤ pushMutations) "batch must contain 1..20 mutations"
  forM r.mutations fun m => positiveCounter m.ordinal "invalid counter"
  ensure (r.mutations.map (·.ordinal)).Nodup "duplicate ordinal"

structure Rejection where
  ordinal : ℕ
  code : String
  deriving DecidableEq

/-- The content of one record at one stamp: its state, null for a deletion, or the code of a read
    that failed. -/
structure AuthorityRecord where
  model : String
  identity : Value
  stamp : ℕ
  state : Value := .null
  error : Option String := none
  deriving DecidableEq

/-- A lowercase word, then words of lowercase letters and digits after `.`, `_` or `-`. -/
def validCode (s : String) : Bool :=
  let word (p : List Char) := p.all fun ch => ch.isLower || ch.isDigit
  match s.toList.splitOnP (· ∈ ['.', '_', '-']) with
  | first :: parts =>
    first.head?.any Char.isLower && word first && parts.all fun p => p ≠ [] && word p
  | [] => false

namespace AuthorityRecord

/-- What two records of one message must not share. -/
def key (r : AuthorityRecord) : RecordKey := ⟨r.model, r.identity⟩

def isError (r : AuthorityRecord) : Bool := r.error.isSome

def validate (r : AuthorityRecord) : Except String Unit := do
  ensure (r.model ≠ "") "record model must not be empty"
  ensure r.identity.asObject.isSome "record identity must be an object"
  ensure (r.stamp ≠ 0 ∧ r.stamp ≤ maxSafeInteger) "record stamp must be a positive counter"
  match r.error with
  | some code => do
    ensure (validCode code) "record error must be a code"
    ensure r.state.isNull "a record with an error carries no state"
  | none => ensure (r.state.isNull ∨ r.state.asObject.isSome) "record state must be an object or null"

end AuthorityRecord

/-- `unique_records`. -/
def uniqueRecords (records : List AuthorityRecord) : Except String Unit := do
  forM records (·.validate)
  ensure (records.map (·.key)).Nodup "duplicate record"

structure PushReceipt where
  clientId : String
  batchSequence : ℕ
  rejections : List Rejection
  records : List AuthorityRecord
  deriving DecidableEq

/-- `PushReceipt::validate`. -/
def PushReceipt.validate (r : PushReceipt) : Except String Unit := do
  ensure (!blank r.clientId) "receipt clientId must not be blank"
  positiveCounter r.batchSequence "receipt batchSequence must be a positive counter"
  forM r.rejections fun x => do
    counter x.ordinal
    ensure (x.ordinal ≠ 0 ∧ !blank x.code) "invalid rejection"
  ensure (r.rejections.map (·.ordinal)).Nodup "invalid rejection"
  uniqueRecords r.records
  ensure (r.records.all (!·.isError)) "a receipt carries authority, never a read failure"

structure PullRequest where
  models : Models
  cursors : SortedMap String ℕ
  deriving DecidableEq

/-- `read_cursors`. -/
def readCursors (cursors : SortedMap String ℕ) : Except String Unit := do
  ensure (cursors.entries ≠ []) "cursors must name at least one channel"
  forM cursors.entries fun e => do
    ensure (e.1 ≠ "") "channel must not be empty"
    counter e.2

/-- `PullRequest::encode` and `PullRequest::decode`. -/
def PullRequest.validate (r : PullRequest) : Except String Unit := do
  readModels r.models
  readCursors r.cursors

/-- A channel's progress in one page. -/
structure CursorRange where
  fromCursor : ℕ
  toCursor : ℕ
  head : ℕ
  deriving DecidableEq

def CursorRange.continues (r : CursorRange) : Bool := r.toCursor < r.head

structure PullPage where
  cursors : SortedMap String CursorRange
  changes : List AuthorityRecord
  deriving DecidableEq

/-- `PullPage::validate`. -/
def PullPage.validate (p : PullPage) : Except String Unit := do
  ensure (p.cursors.entries ≠ []) "page must name at least one channel"
  forM p.cursors.entries fun (channel, range) => do
    ensure (channel ≠ "") "channel must not be empty"
    counter range.fromCursor
    counter range.toCursor
    counter range.head
    ensure (range.fromCursor ≤ range.toCursor) "page moves backwards"
    ensure (range.toCursor ≤ range.head) "page reaches past the channel head"
  ensure (p.changes.length ≤ pullChanges * p.cursors.entries.length)
    "page exceeds 50 changes per channel"
  uniqueRecords p.changes

/-- The cursors a page starts from. -/
def PullPage.froms (p : PullPage) : SortedMap String ℕ := p.cursors.mapValues fun _ r => r.fromCursor

/-- Whether a page answers a request: the same channels, each from the cursor it named. -/
def answers (page : PullPage) (request : PullRequest) : Bool :=
  page.cursors.entries.length = request.cursors.entries.length &&
    page.cursors.entries.all fun e => request.cursors.lookup e.1 = some e.2.fromCursor

end AheadSync
