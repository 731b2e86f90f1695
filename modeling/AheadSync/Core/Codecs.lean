import AheadSync.Core.Value

/-! The functions the core takes from other packages, and the canonical JSON text built on them. -/

namespace AheadSync

/-- A parsed UUID: its hyphenated lowercase text, whether its variant is the RFC 4122 one, and its
    version number. -/
structure Uuid where
  text : String
  rfc4122 : Bool
  version : ℕ

/-- `serde_json`, `serde_jcs`, `uuid` and `chrono`, as far as the core calls them. Each parser
    prints what it read; reading a printed text again, where that succeeds, prints the same. -/
structure Codecs where
  /-- `serde_json::to_string` of a string. -/
  quote : String → String
  /-- `serde_jcs::to_string` of a value that is neither an object nor an array. -/
  jcs : Value → String
  /-- The double nearest to a number. -/
  f64 : ℚ → ℚ
  /-- `Uuid::parse_str`. -/
  uuid : String → Option Uuid
  /-- `DateTime::parse_from_rfc3339`, printed in UTC with milliseconds. -/
  dateTime : String → Option String
  f64_stable : ∀ n, f64 (f64 n) = f64 n
  uuid_stable : ∀ {s i j}, uuid s = some i → uuid i.text = some j → j.text = i.text
  dateTime_stable : ∀ {s t u}, dateTime s = some t → dateTime t = some u → u = t

/-- The UTF-16 code units of a string, by which JavaScript orders keys. -/
def encodeUtf16 (s : String) : List ℕ :=
  s.toList.flatMap fun c =>
    if c.toNat < 0x10000 then [c.toNat]
    else [0xD800 + (c.toNat - 0x10000) / 0x400, 0xDC00 + (c.toNat - 0x10000) % 0x400]

/-- Insert an entry before the first one whose key has greater code units. -/
def insertByUtf16 (e : String × String) : List (String × String) → List (String × String)
  | [] => [e]
  | f :: fs => if encodeUtf16 e.1 ≤ encodeUtf16 f.1 then e :: f :: fs else f :: insertByUtf16 e fs

mutual
/-- `canonical_json`: the entries of an object ordered by their keys' UTF-16 code units. -/
def canonicalJson (c : Codecs) : Value → String
  | .obj fs =>
    let entries := (canonicalFields c fs).foldr insertByUtf16 []
    "\x7b" ++ ",".intercalate (entries.map fun e => c.quote e.1 ++ ":" ++ e.2) ++ "\x7d"
  | .arr xs => "[" ++ ",".intercalate (canonicalList c xs) ++ "]"
  | .null => c.jcs .null
  | .bool b => c.jcs (.bool b)
  | .num n => c.jcs (.num n)
  | .str s => c.jcs (.str s)

def canonicalList (c : Codecs) : List Value → List String
  | [] => []
  | x :: xs => canonicalJson c x :: canonicalList c xs

def canonicalFields (c : Codecs) : List (String × Value) → List (String × String)
  | [] => []
  | (k, v) :: fs => (k, canonicalJson c v) :: canonicalFields c fs
end

namespace Sample

theorem id_stable (n : ℚ) : id (id n) = id n := rfl

/-- Nothing is read as a UUID. -/
theorem unread_uuid {s : String} {i j : Uuid} (h : (fun _ : String => (none : Option Uuid)) s = some i)
    (_ : (fun _ : String => (none : Option Uuid)) i.text = some j) : j.text = i.text := nomatch h

/-- Codecs that print integers and strings of plain characters. -/
def codecs : Codecs where
  quote := fun s => "\"" ++ s ++ "\""
  jcs
    | .str s => "\"" ++ s ++ "\""
    | .num n => toString n.num
    | .bool b => toString b
    | _ => "null"
  f64 := id
  uuid := fun _ => none
  dateTime := fun _ => none
  f64_stable := id_stable
  uuid_stable := @unread_uuid
  dateTime_stable := nofun

end Sample

end AheadSync
