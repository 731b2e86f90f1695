import AheadSync.Client.Reopen
import Mathlib.Algebra.Ring.Int.Defs

/-! Values as SQLite keeps them (`sqlite/src/lib.rs`, `client/src/rows.rs`). A value passes through a
    parameter, the affinity of its column, and a decoder directed by the type of its field. Here a JSON
    number has its kind, as `serde_json` tells an integer from a double. -/

namespace AheadSync

/-- A `serde_json` number. -/
inductive Number where
  | int (n : ℤ)
  | float (x : ℚ)
  deriving DecidableEq

/-- A JSON value of a field. -/
inductive Datum where
  | null
  | bool (b : Bool)
  | number (n : Number)
  | str (s : String)
  | arr (xs : List Datum)

mutual
/-- The value, whatever the kinds of its numbers. -/
def Datum.value : Datum → Value
  | .null => .null
  | .bool b => .bool b
  | .number (.int n) => .num n
  | .number (.float x) => .num x
  | .str s => .str s
  | .arr xs => .arr (Datum.values xs)

def Datum.values : List Datum → List Value
  | [] => []
  | x :: xs => x.value :: Datum.values xs
end

/-- A normalized value with the kinds `scalar` gives its numbers: `i64` to an integer, `f64` to a float. -/
def datum : ValueType → Value → Datum
  | _, .null => .null
  | _, .bool b => .bool b
  | .scalar .int, .num n => .number (.int n.num)
  | _, .num n => .number (.float n)
  | _, .str s => .str s
  | .list element, .arr xs => .arr (xs.map (datum element))
  | _, .arr _ | _, .obj _ => .null

/-- A SQLite value other than `NULL`. -/
inductive SqlValue where
  | integer (n : ℤ)
  | real (x : ℚ)
  | text (s : String)
  deriving DecidableEq

/-- How SQLite turns reals into text and text into numbers. -/
structure Sqlite where
  realText : ℚ → String
  numeric : String → Option SqlValue

/-- `serde_json::to_string` and `serde_json::from_str`, on the values of list fields. -/
structure DataJson where
  print : Datum → String
  parse : String → Except String Datum

/-- `as_i64`. -/
def Datum.asI64 : Datum → Option ℤ
  | .number (.int n) => if -2 ^ 63 ≤ n ∧ n < 2 ^ 63 then some n else none
  | _ => none

/-- What reads and writes rows. -/
structure RowCodec where
  codecs : Codecs
  sqlite : Sqlite
  json : DataJson

namespace RowCodec
variable (q : RowCodec)

/-- `parameter`; `none` is `NULL`. -/
def parameter : Datum → Option SqlValue
  | .null => none
  | .bool b => some (.integer b.toInt)
  | .number (.int n) => match (Datum.number (.int n)).asI64 with
    | some n => some (.integer n)
    | none => some (.real (q.codecs.f64 n))
  | .number (.float x) => some (.real x)
  | .str s => some (.text s)
  | .arr xs => some (.text (q.json.print (.arr xs)))

/-- A value as a column of a declared type keeps it. -/
def stored : String → SqlValue → SqlValue
  | "INTEGER", .real x => if x.den = 1 then .integer x.num else .real x
  | "INTEGER", .text s => (q.sqlite.numeric s).getD (.text s)
  | "REAL", .integer n => .real (q.codecs.f64 n)
  | "REAL", .text s => (q.sqlite.numeric s).getD (.text s)
  | "TEXT", .integer n => .text (toString n)
  | "TEXT", .real x => .text (q.sqlite.realText x)
  | _, v => v

/-- A datum in the column of a field. -/
def cell (f : FieldDescriptor) (d : Datum) : Option SqlValue :=
  (q.parameter d).map (q.stored (storageType f.valueType))

/-- A SQLite value as `rows` reads it. -/
def readCell : Option SqlValue → Datum
  | none => .null
  | some (.integer n) => .number (.int n)
  | some (.real x) => .number (.float x)
  | some (.text s) => .str s

/-- `decode_value`. -/
def decodeValue : ValueType → Datum → Except String Datum
  | _, .null => .ok .null
  | .scalar .boolean, d => .ok (.bool (d.asI64.getD 0 ≠ 0))
  | .list _, .str s => q.json.parse s
  | .list _, _ => .error "list column must be text"
  | _, d => .ok d

end RowCodec

/-- The data of normalized values of a type. -/
def Typed : ValueType → Datum → Prop
  | .scalar .boolean, .bool _ => True
  | .scalar .int, .number (.int n) => n.natAbs ≤ maxSafeInteger
  | .scalar .float, .number (.float _) => True
  | .scalar .string, .str _ | .scalar .uuid, .str _ | .scalar .dateTime, .str _ | .enum _, .str _ => True
  | .list element, .arr xs => ∀ d ∈ xs, Typed element d
  | _, _ => False

section Cells
variable {c : Codecs} {s : Schema} {q : RowCodec}

theorem values_map (g : Value → Datum) : ∀ {ws : List Value}, (∀ w ∈ ws, (g w).value = w) →
    Datum.values (ws.map g) = ws
  | [], _ => rfl
  | w :: ws, h => by
    rw [List.map_cons, Datum.values, h w (List.mem_cons_self ..),
      values_map g fun w hw => h w (List.mem_cons_of_mem _ hw)]

theorem typed_scalar {ty : ScalarType} {v w : Value} (h : scalar c ty v = .ok w) :
    Typed (.scalar ty) (datum (.scalar ty) w) ∧ (datum (.scalar ty) w).value = w := by
  unfold scalar at h
  split at h
  · cases h; exact ⟨trivial, rfl⟩
  · cases h; exact ⟨trivial, rfl⟩
  · simp only at h
    split at h
    · rename_i hint
      cases h
      exact ⟨hint.2, congrArg Value.num (Rat.den_eq_one_iff _ |>.mp hint.1)⟩
    · cases h
  · cases h
  · cases h; exact ⟨trivial, rfl⟩
  · cases h
  · split at h
    · cases h
    · split at h
      · cases h; exact ⟨trivial, rfl⟩
      · cases h
  · cases h
  · split at h
    · cases h
    · split at h
      · cases h
      · cases h; exact ⟨trivial, rfl⟩
  · cases h
  · cases h

/-- A normalized value is what its datum stands for. -/
theorem typed_value : ∀ {ty : ValueType} {v w : Value}, s.value c ty v = .ok w →
    Typed ty (datum ty w) ∧ (datum ty w).value = w
  | .scalar ty, v, w, h => typed_scalar (by simpa [Schema.value] using h)
  | .enum name, v, w, h => by
    cases v with
    | str v =>
      simp only [Schema.value] at h
      split at h
      · cases h; exact ⟨trivial, rfl⟩
      · cases h
    | _ => cases h
  | .list element, v, w, h => by
    cases v <;> simp only [Schema.value, Except.bind_eq_ok, Except.pure_eq_ok, reduceCtorEq] at h
    obtain ⟨ws, hws, rfl⟩ := h
    have hall : ∀ w ∈ ws, Typed element (datum element w) ∧ (datum element w).value = w := by
      intro w hw
      obtain ⟨v, _, hv⟩ := List.mapM_mem hws hw
      exact typed_value hv
    refine ⟨fun d hd => ?_, congrArg Value.arr (values_map _ fun w hw => (hall w hw).2)⟩
    obtain ⟨w, hw, rfl⟩ := List.mem_map.mp hd
    exact (hall w hw).1

/-- A datum of a field's type is read from its column as it was. -/
theorem decode_cell {f : FieldDescriptor} {d : Datum} (h : d = .null ∨ Typed f.valueType d)
    (hj : f.valueType.isList → d ≠ .null → q.json.parse (q.json.print d) = .ok d) :
    q.decodeValue f.valueType (RowCodec.readCell (q.cell f d)) = .ok d := by
  obtain ⟨name, ty, nullable, default⟩ := f
  rcases h with rfl | h
  · cases ty with
    | scalar ty => cases ty <;> rfl
    | _ => rfl
  · cases ty with
    | scalar ty =>
      cases ty <;> cases d <;> try exact h.elim
      case string.str | uuid.str | dateTime.str => rfl
      case boolean.bool b => cases b <;> rfl
      case int.number n =>
        cases n with
        | float x => exact h.elim
        | int n =>
          have hn : n.natAbs ≤ maxSafeInteger := h
          have h64 : -2 ^ 63 ≤ n ∧ n < 2 ^ 63 := by
            unfold maxSafeInteger at hn
            omega
          simp only [RowCodec.cell, RowCodec.parameter, Datum.asI64, if_pos h64]
          rfl
      case float.number n =>
        cases n with
        | int n => exact h.elim
        | float x => rfl
    | enum name =>
      cases d <;> try exact h.elim
      rfl
    | list element =>
      cases d <;> try exact h.elim
      exact hj rfl nofun

end Cells

end AheadSync
