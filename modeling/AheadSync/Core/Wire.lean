import AheadSync.Core.Messages
import Mathlib.Data.List.Dedup
import Mathlib.Data.List.Sort

/-! How the messages travel (`core/src/protocol.rs`): what each decoder reads field by field, and the
    value that derived serialization hands to `canonical_json`. A number is its value, so a reader
    that wants an integer does not see whether it was written with a fraction of zero. -/

namespace AheadSync

/-- The text of JSON: `serde_json` parses it, `canonical_json` prints it. -/
structure Json where
  codecs : Codecs
  /-- `serde_json::from_slice`. -/
  parse : String → Except String Value

namespace Json

def text (j : Json) (v : Value) : String := canonicalJson j.codecs v

/-- Parsing gives back what was printed, as it does for every value whose objects list their keys in
    order and whose numbers a double holds. -/
def Rereads (j : Json) (v : Value) : Prop := j.parse (j.text v) = .ok v

instance (j : Json) (v : Value) : Decidable (j.Rereads v) :=
  inferInstanceAs (Decidable (j.parse (j.text v) = .ok v))

end Json

namespace Value

/-- An unsigned integer of 64 bits. -/
def asU64 : Value → Except String ℕ
  | .num n => if n.den = 1 ∧ 0 ≤ n ∧ n < 2 ^ 64 then .ok n.num.toNat
    else .error "invalid value, expected u64"
  | _ => .error "invalid type, expected u64"

def asString (v : Value) : Except String String := required v.asStr "invalid type, expected a string"

/-- The fields of a derived struct: those an object names, or the elements of an array in order. -/
def fields (names : List String) : Value → Except String (String → Option Value)
  | .obj fs => .ok fun k => fs.lookup k
  | .arr xs => if xs.length ≤ names.length then .ok fun k => (names.zip xs).lookup k
    else .error "invalid length"
  | _ => .error "invalid type, expected a struct"

def missing (k : String) : String := "missing field " ++ k

/-- `read_counter`. -/
def readCounter (v : Value) (positive : Bool) : Except String ℕ :=
  match v with
  | .num n =>
    if n < 0 ∨ n.den ≠ 1 ∨ maxSafeInteger < n ∨ (positive ∧ n = 0) then .error "invalid counter"
    else .ok n.num.toNat
  | _ => .error "counter must be a number"

/-- `nonblank`. -/
def nonblank (v : Value) : Except String String :=
  required (v.asStr.filter fun s => !blank s) "expected nonblank string"

/-- `read_models`. -/
def readModels (v : Value) : Except String Models := do
  let object ← required v.asObject "models must declare a version per model"
  ensure (object ≠ []) "models must declare at least one model"
  let models ← object.mapM fun e => do
    ensure (e.1 ≠ "") "model name must not be empty"
    return (e.1, ← e.2.readCounter true)
  return .ofList models

/-- `read_cursors`. -/
def readCursors (v : Value) : Except String (SortedMap String ℕ) := do
  let object ← required v.asObject "cursors must map channels to cursors"
  ensure (object ≠ []) "cursors must name at least one channel"
  let cursors ← object.mapM fun e => do
    ensure (e.1 ≠ "") "channel must not be empty"
    return (e.1, ← e.2.readCounter false)
  return .ofList cursors

/-- A map of counters as it is serialized. -/
def ofCounters (m : SortedMap String ℕ) : Value := .obj (m.entries.map fun e => (e.1, .num e.2))

end Value

section Push

/-- A mutation of a received batch, with the JSON it was read from. -/
structure RawMutation where
  ordinal : ℕ
  raw : Value
  deriving DecidableEq

/-- `PushRequest` as it is received, with the JSON it was read from. -/
structure RawPushRequest where
  clientId : String
  batchSequence : ℕ
  mutations : List RawMutation
  models : Models
  raw : Value
  deriving DecidableEq

namespace RawPushRequest

/-- One mutation of a batch, after those whose ordinals were seen. -/
def readMutation (seen : List ℕ) (act : Value) : Except String RawMutation := do
  ensure act.asObject.isSome "mutation must be object"
  let ordinal ← (act.index "ordinal").readCounter true
  ensure (ordinal ∉ seen) "duplicate ordinal"
  return { ordinal, raw := act }

/-- The mutations of a batch, in order. -/
def readMutations : List ℕ → List Value → Except String (List RawMutation)
  | _, [] => .ok []
  | seen, act :: acts => do
    let mutation ← readMutation seen act
    return mutation :: (← readMutations (mutation.ordinal :: seen) acts)

def ofValue (raw : Value) : Except String RawPushRequest := do
  let clientId ← (raw.index "clientId").nonblank
  let batchSequence ← (raw.index "batchSequence").readCounter true
  let models ← (raw.index "models").readModels
  let acts ← required (raw.index "mutations").asArray "mutations must be array"
  ensure (acts ≠ [] ∧ acts.length ≤ pushMutations) "batch must contain 1..20 mutations"
  let mutations ← readMutations [] acts
  return { clientId, batchSequence, mutations, models, raw }

/-- `PushRequest::decode`. -/
def decode (j : Json) (text : String) : Except String RawPushRequest := do
  ofValue (← j.parse text)

/-- `PushRequest::encode`. -/
def encode (j : Json) (r : RawPushRequest) : Except String String := .ok (j.text r.raw)

end RawPushRequest

end Push

section Records

namespace AuthorityRecord

/-- A record as it is serialized: an error only where there is one. -/
def toValue (r : AuthorityRecord) : Value :=
  .ofEntries ([("model", .str r.model), ("identity", r.identity), ("stamp", .num r.stamp),
    ("state", r.state)] ++ (r.error.map fun code => ("error", Value.str code)).toList)

/-- The fields of a record: a missing state is null, a missing error none. -/
def ofObject (v : Value) : Except String AuthorityRecord := do
  let model ← (← required (v.get "model") (Value.missing "model")).asString
  let identity ← required (v.get "identity") (Value.missing "identity")
  let stamp ← (← required (v.get "stamp") (Value.missing "stamp")).asU64
  let error ← match v.get "error" with
    | none | some .null => pure none
    | some code => some <$> code.asString
  return { model, identity, stamp, state := v.index "state", error }

/-- `decode_record`. -/
def ofValue (v : Value) : Except String AuthorityRecord := do
  ensure v.asObject.isSome "record must be an object"
  ensure (¬((v.get "error").isNone ∧ (v.get "state").isNone)) "record state missing"
  ensure (v.get "stamp").isSome "record stamp missing"
  let record ← ofObject v
  record.validate
  return record

end AuthorityRecord

namespace Rejection

def toValue (r : Rejection) : Value :=
  .ofEntries [("ordinal", .num r.ordinal), ("code", .str r.code)]

def ofValue (v : Value) : Except String Rejection := do
  let get ← v.fields ["ordinal", "code"]
  let ordinal ← (← required (get "ordinal") (Value.missing "ordinal")).asU64
  let code ← (← required (get "code") (Value.missing "code")).asString
  return { ordinal, code }

end Rejection

namespace PushReceipt

def toValue (r : PushReceipt) : Value :=
  .ofEntries [("clientId", .str r.clientId), ("batchSequence", .num r.batchSequence),
    ("rejections", .arr (r.rejections.map (·.toValue))), ("records", .arr (r.records.map (·.toValue)))]

def ofValue (v : Value) : Except String PushReceipt := do
  ensure v.asObject.isSome "receipt must be an object"
  forM ["clientId", "batchSequence", "rejections", "records"] fun field =>
    ensure (v.get field).isSome s!"receipt {field} missing"
  let batchSequence ← (v.index "batchSequence").readCounter true
  let records ← required (v.index "records").asArray "receipt records must be an array"
  let records ← records.mapM AuthorityRecord.ofValue
  let clientId ← (v.index "clientId").asString
  let _ ← (v.index "batchSequence").asU64
  let rejections ← required (v.index "rejections").asArray "invalid type, expected a sequence"
  let rejections ← rejections.mapM Rejection.ofValue
  let result : PushReceipt := { clientId, batchSequence, rejections, records }
  result.validate
  return result

/-- `PushReceipt::decode`. -/
def decode (j : Json) (text : String) : Except String PushReceipt := do ofValue (← j.parse text)

/-- `PushReceipt::encode`. -/
def encode (j : Json) (r : PushReceipt) : Except String String := do
  r.validate
  return j.text r.toValue

end PushReceipt

end Records

section Pull

namespace PullRequest

def toValue (r : PullRequest) : Value :=
  .ofEntries [("models", .ofCounters r.models), ("cursors", .ofCounters r.cursors)]

/-- `PullRequest::decode`. -/
def decode (j : Json) (text : String) : Except String PullRequest := do
  let v ← j.parse text
  return { models := ← (v.index "models").readModels, cursors := ← (v.index "cursors").readCursors }

/-- `PullRequest::encode`. -/
def encode (j : Json) (r : PullRequest) : Except String String := do
  let _ ← (Value.ofCounters r.models).readModels
  let _ ← (Value.ofCounters r.cursors).readCursors
  return j.text r.toValue

end PullRequest

namespace CursorRange

def toValue (r : CursorRange) : Value :=
  .ofEntries [("from", .num r.fromCursor), ("to", .num r.toCursor), ("head", .num r.head)]

def ofValue (v : Value) : Except String CursorRange :=
  return ⟨← (v.index "from").readCounter false, ← (v.index "to").readCounter false,
    ← (v.index "head").readCounter false⟩

end CursorRange

namespace PullPage

def toValue (p : PullPage) : Value :=
  .ofEntries [("cursors", .obj (p.cursors.entries.map fun e => (e.1, e.2.toValue))),
    ("changes", .arr (p.changes.map (·.toValue)))]

/-- The range of one channel. -/
def readRange (e : String × Value) : Except String (String × CursorRange) := do
  ensure (e.1 ≠ "") "channel must not be empty"
  return (e.1, ← CursorRange.ofValue e.2)

def ofValue (v : Value) : Except String PullPage := do
  ensure v.asObject.isSome "page must be an object"
  forM ["cursors", "changes"] fun field => ensure (v.get field).isSome s!"page {field} missing"
  let cursors ← required (v.index "cursors").asObject "page cursors must map channels to ranges"
  let cursors ← cursors.mapM readRange
  let changes ← required (v.index "changes").asArray "page changes must be an array"
  let changes ← changes.mapM AuthorityRecord.ofValue
  let page : PullPage := { cursors := .ofList cursors, changes }
  page.validate
  return page

/-- `PullPage::decode`. -/
def decode (j : Json) (text : String) : Except String PullPage := do ofValue (← j.parse text)

/-- `PullPage::encode`. -/
def encode (j : Json) (p : PullPage) : Except String String := do
  p.validate
  return j.text p.toValue

end PullPage

end Pull

section Live

/-- `normalize_channels`: deduplicated, and sorted by UTF-16 code units. -/
def normalizeChannels (channels : List String) : Except String (List String) := do
  ensure (channels ≠ []) "subscribe requires at least one channel"
  ensure ("" ∉ channels) "channel must not be empty"
  return (channels.dedup.insertionSort (· ≤ ·)).insertionSort fun a b => encodeUtf16 a ≤ encodeUtf16 b

/-- The one client frame of a live session. -/
structure SubscribeRequest where
  channels : List String
  models : Models
  deriving DecidableEq

namespace SubscribeRequest

/-- `SubscribeRequest::new`. -/
def make (channels : List String) (models : Models) : Except String SubscribeRequest :=
  return { channels := ← normalizeChannels channels, models := ← (Value.ofCounters models).readModels }

def toValue (r : SubscribeRequest) : Value :=
  .ofEntries [("type", .str "subscribe"), ("channels", .arr (r.channels.map .str)),
    ("models", .ofCounters r.models)]

/-- The fields of the frame, of which an object may have no other. -/
def ofValue (v : Value) : Except String SubscribeRequest := do
  let get ← v.fields ["type", "channels", "models"]
  ensure (∀ e ∈ v.entries, e.1 ∈ ["type", "channels", "models"]) "unknown field"
  let kind ← (← required (get "type") (Value.missing "type")).asString
  let channels ← required (← required (get "channels") (Value.missing "channels")).asArray
    "invalid type, expected a sequence"
  let channels ← channels.mapM Value.asString
  ensure (kind = "subscribe") "expected one subscribe frame with channels"
  make channels (← ((get "models").getD .null).readModels)

/-- `SubscribeRequest::decode`. -/
def decode (j : Json) (text : String) : Except String SubscribeRequest := do ofValue (← j.parse text)

/-- `SubscribeRequest::encode`. -/
def encode (j : Json) (r : SubscribeRequest) : Except String String := .ok (j.text r.toValue)

end SubscribeRequest

/-- The server's answer to a subscribe frame: every channel's current head. -/
structure SubscriptionAck where
  cursors : SortedMap String ℕ
  deriving DecidableEq

namespace SubscriptionAck

def invalidAck : String := "invalid live subscription acknowledgement"

/-- `SubscriptionAck::new`. -/
def make (cursors : SortedMap String ℕ) : Except String SubscriptionAck :=
  return { cursors := ← (Value.ofCounters cursors).readCursors }

def toValue (a : SubscriptionAck) : Value :=
  .ofEntries [("type", .str "subscribed"), ("cursors", .ofCounters a.cursors)]

/-- The fields of the frame; others are ignored. -/
def wire (v : Value) : Except String (String × Value) := do
  let get ← v.fields ["type", "cursors"]
  let kind ← (← required (get "type") (Value.missing "type")).asString
  return (kind, ← required (get "cursors") (Value.missing "cursors"))

def ofValue (v : Value) : Except String SubscriptionAck := do
  let (kind, cursors) ← (wire v).mapError fun _ => invalidAck
  ensure (kind = "subscribed") invalidAck
  make (← cursors.readCursors.mapError fun _ => invalidAck)

/-- `SubscriptionAck::decode`. -/
def decode (j : Json) (text : String) : Except String SubscriptionAck := do
  ofValue (← (j.parse text).mapError fun _ => invalidAck)

/-- Whether the server acknowledged exactly the requested channels, in the order of the request. -/
def confirms (a : SubscriptionAck) (request : SubscribeRequest) : Bool :=
  a.cursors.keys = request.channels

/-- `SubscriptionAck::encode`. -/
def encode (j : Json) (a : SubscriptionAck) : Except String String := .ok (j.text a.toValue)

end SubscriptionAck

/-- A frame the server sends on a live socket. -/
inductive LiveMessage where
  | acknowledged (ack : SubscriptionAck)
  | page (page : PullPage)
  deriving DecidableEq

/-- `LiveMessage::decode`: only an acknowledgement carries a `type`. -/
def LiveMessage.decode (j : Json) (text : String) : Except String LiveMessage := do
  let value ← j.parse text
  ensure value.asObject.isSome "invalid live frame"
  if (value.get "type").isSome then .acknowledged <$> SubscriptionAck.decode j text
  else .page <$> (PullPage.decode j text).mapError fun e => "invalid live page: " ++ e

end Live

end AheadSync
