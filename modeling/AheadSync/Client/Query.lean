import AheadSync.Client.Replay
import AheadSync.Lib.Lexicographic
import AheadSync.Core.RoundTrip
import Mathlib.Data.List.Lex
import Mathlib.Order.Compare

/-! Queries (`client/src/query.rs`): the filters run in SQL, the ordering by the reference comparison.
    On the rows of a table the comparison is a strict total order, as the identity fields come last,
    so an answer does not depend on the order in which the store yields its rows. -/

namespace AheadSync

inductive Direction where
  | ascending | descending
  deriving DecidableEq

structure QueryOrder where
  field : String
  direction : Direction := .ascending
  deriving DecidableEq

structure QuerySpec where
  filter : SortedMap String Value := .empty
  orderBy : List QueryOrder := []
  limit : Option ℕ := none
  deriving DecidableEq

/-- `compare`: values of two kinds are not told apart. -/
def compareValues (c : Codecs) : Value → Value → Ordering
  | .null, .null => .eq
  | .null, _ => .lt
  | _, .null => .gt
  | .str a, .str b => cmp (encodeUtf16 a) (encodeUtf16 b)
  | .bool a, .bool b => cmp a b
  | .num a, .num b => cmp (c.f64 a) (c.f64 b)
  | _, _ => .eq

def Direction.apply : Direction → Ordering → Ordering
  | .ascending, o => o
  | .descending, o => o.swap

/-- The comparison of one order key. -/
def QueryOrder.compare (c : Codecs) (o : QueryOrder) (a b : Value) : Ordering :=
  o.direction.apply (compareValues c (a.index o.field) (b.index o.field))

/-- The comparison rows are sorted by: the first key that tells, then the first identity field. -/
def rowOrder (c : Codecs) (model : ModelDescriptor) (spec : QuerySpec) (a b : Value) : Ordering :=
  Lexicographic.first ((spec.orderBy.map fun o => o.compare c a b) ++
    model.identity.map fun n => compareValues c (a.index n) (b.index n))

/-- `filter_sql`: no column equals null, so a null is asked for by its own predicate. -/
def filterSql (filter : List (String × Value)) (row : Value) : Bool :=
  filter.all fun (name, v) =>
    if v.isNull then (row.index name).isNull else !(row.index name).isNull && row.index name = v

/-- `rows_where`, of the rows of a model's table as the store yields them. -/
def rowsWhere (yielded : List Value) (filter : List (String × Value)) : List Value :=
  yielded.filter (filterSql filter)

def queryField (model : ModelDescriptor) (name : String) : Except String FieldDescriptor :=
  required (model.field name) ("unknown query field " ++ name)

/-- At most the limit, where there is one. -/
def QuerySpec.truncate (spec : QuerySpec) (rows : List Value) : List Value :=
  match spec.limit with
  | some limit => rows.take limit
  | none => rows

namespace Engine
variable (e : Engine)

/-- The filter of a query, its values normalized. -/
def queryFilter (model : ModelDescriptor) (filter : List (String × Value)) :
    Except String (List (String × Value)) :=
  filter.mapM fun (name, v) => do
    let field ← queryField model name
    ensure (!field.valueType.isList) "list predicates unsupported"
    return (name, ← e.schema.normalizeValue e.codecs field v)

/-- `evaluate`, on the rows of the model's table as the store yields them. -/
def evaluate (name : String) (spec : QuerySpec) (yielded : List Value) :
    Except String (List Value) := do
  let model ← e.schema.model name
  let filter ← e.queryFilter model spec.filter.entries
  forM spec.orderBy fun o => do
    let field ← queryField model o.field
    ensure field.valueType.isScalar "ordering requires scalar field"
  let rows := (rowsWhere yielded filter).insertionSort (rowOrder e.codecs model spec · · ≠ .gt)
  return spec.truncate rows

end Engine

/-- The order of the values of a field: null first, false before true, numbers by value, texts by
    their UTF-16 code units. -/
inductive Less : Value → Value → Prop
  | null {v : Value} (h : v ≠ .null) : Less .null v
  | bool : Less (.bool false) (.bool true)
  | num {a b : ℚ} (h : a < b) : Less (.num a) (.num b)
  | str {a b : String} (h : encodeUtf16 a < encodeUtf16 b) : Less (.str a) (.str b)

/-- The order of values in a direction. -/
def Direction.Less : Direction → Value → Value → Prop
  | .ascending, a, b => AheadSync.Less a b
  | .descending, a, b => AheadSync.Less b a

/-- What a query sorts by: its order keys, then the identity fields. -/
def QuerySpec.orders (spec : QuerySpec) (model : ModelDescriptor) : List QueryOrder :=
  spec.orderBy ++ model.identity.map ({ field := · })

/-- Row `a` comes before row `b` in the answer of a query. -/
def Precedes (model : ModelDescriptor) (spec : QuerySpec) : Value → Value → Prop :=
  Lexicographic.Before ((spec.orders model).map fun o => ((·.index o.field), o.direction.Less))

/-- What a model's table can hold: rows of exactly its columns, with values its fields admit, no two
    of them the same in every identity field. -/
structure Content (e : Engine) (model : ModelDescriptor) (rows : List Value) : Prop where
  full : ∀ row ∈ rows, columns model row = row
  typed : ∀ row ∈ rows, ∀ f ∈ model.fields,
    ∃ v, e.schema.normalizeValue e.codecs f v = .ok (row.index f.name)
  apart : rows.Pairwise fun a b => ∃ n ∈ model.identity, a.index n ≠ b.index n

theorem less_irrefl (a : Value) : ¬Less a a := by
  intro h
  cases h with
  | null h => exact h rfl
  | num h => exact lt_irrefl _ h
  | str h => exact lt_irrefl _ h

theorem less_trans {a b d : Value} (hab : Less a b) (hbd : Less b d) : Less a d := by
  cases hab with
  | null h => cases hbd <;> exact .null (by simp_all)
  | bool => cases hbd
  | num h =>
    cases hbd with
    | num h' => exact .num (h.trans h')
  | str h =>
    cases hbd with
    | str h' => exact .str (h.trans h')

theorem direction_irrefl (d : Direction) (a : Value) : ¬d.Less a a := by
  cases d <;> exact less_irrefl a

theorem direction_trans {d : Direction} {x y z : Value} (hxy : d.Less x y) (hyz : d.Less y z) :
    d.Less x z := by
  cases d with
  | ascending => exact less_trans hxy hyz
  | descending => exact less_trans hyz hxy

/-- Two values of one scalar field. -/
inductive Comparable (c : Codecs) : Value → Value → Prop
  | left (v : Value) : Comparable c .null v
  | right (v : Value) : Comparable c v .null
  | bool (a b : Bool) : Comparable c (.bool a) (.bool b)
  | num {a b : ℚ} (ha : c.f64 a = a) (hb : c.f64 b = b) : Comparable c (.num a) (.num b)
  | str (a b : String) : Comparable c (.str a) (.str b)

/-- `cmp` decides a linear order, however `<` is decided. -/
theorem cmp_spec {α : Type} [LinearOrder α] [dec : DecidableLT α] (x y : α) :
    (cmp x y = .lt ↔ x < y) ∧ (cmp x y = .eq ↔ x = y) ∧ (cmp x y = .gt ↔ y < x) := by
  obtain rfl : dec = LinearOrder.toDecidableLT := Subsingleton.elim _ _
  exact ⟨cmp_eq_lt_iff x y, cmp_eq_eq_iff x y, cmp_eq_gt_iff x y⟩

theorem less_bool {a b : Bool} : Less (.bool a) (.bool b) ↔ a < b := by
  constructor
  · rintro ⟨⟩
    decide
  · intro h
    obtain ⟨rfl, rfl⟩ := Bool.lt_iff.mp h
    exact .bool

theorem less_num {a b : ℚ} : Less (.num a) (.num b) ↔ a < b :=
  ⟨fun h => by cases h; assumption, .num⟩

theorem less_str {a b : String} : Less (.str a) (.str b) ↔ encodeUtf16 a < encodeUtf16 b :=
  ⟨fun h => by cases h; assumption, .str⟩

/-- On values of one field the comparison is the order of values. -/
theorem compareValues_spec {c : Codecs} {a b : Value} (h : Comparable c a b) :
    (compareValues c a b = .lt ↔ Less a b) ∧ (compareValues c a b = .eq ↔ a = b) ∧
      (compareValues c a b = .gt ↔ Less b a) := by
  cases h with
  | left =>
    cases b <;> simp only [compareValues] <;> grind [Less]
  | right =>
    cases a <;> simp only [compareValues] <;> grind [Less]
  | bool x y =>
    rw [less_bool, less_bool, Value.bool.injEq]
    exact cmp_spec x y
  | num ha hb =>
    rw [less_num, less_num, Value.num.injEq, compareValues, ha, hb]
    exact cmp_spec _ _
  | str x y =>
    rw [less_str, less_str, Value.str.injEq, ← encodeUtf16_injective.eq_iff]
    exact cmp_spec _ _

/-- Values of one scalar type are comparable. -/
theorem comparable_scalar {c : Codecs} {ty : ScalarType} {v w x y : Value}
    (hx : scalar c ty v = .ok x) (hy : scalar c ty w = .ok y) : Comparable c x y := by
  have hf := c.f64_stable
  cases ty <;> cases v <;> cases w <;>
    simp only [scalar, reduceCtorEq, Except.ok.injEq] at hx hy <;> grind [Comparable]

/-- The filter a query is answered by holds, for each of its entries, the normalized value. -/
theorem queryFilter_eq_ok {e : Engine} {model : ModelDescriptor} {given filter : List (String × Value)}
    (h : e.queryFilter model given = .ok filter) :
    List.Forall₂ (fun x y => y.1 = x.1 ∧ ∃ field, model.field x.1 = some field ∧
      e.schema.normalizeValue e.codecs field x.2 = .ok y.2) given filter := by
  rw [Engine.queryFilter, List.mapM_eq_ok_iff] at h
  refine h.imp fun x y hxy => ?_
  simp only [queryField, Except.bind_eq_ok, required_eq_ok, ensure_eq_ok, Except.pure_eq_ok] at hxy
  obtain ⟨field, hfield, -, -, w, hw, rfl⟩ := hxy
  exact ⟨rfl, field, hfield, hw⟩

/-- The filter keeps the rows whose fields equal its values. -/
theorem filterSql_iff {filter : List (String × Value)} {row : Value} :
    filterSql filter row = true ↔ ∀ x ∈ filter, row.index x.1 = x.2 := by
  rw [filterSql, List.all_eq_true]
  refine forall₂_congr fun x _ => ?_
  split
  all_goals grind [Value.isNull]

section Order
variable {e : Engine} {model : ModelDescriptor} {spec : QuerySpec} {rows : List Value}

/-- Every order key, and every identity field, is a scalar field. -/
def ScalarOrders (model : ModelDescriptor) (spec : QuerySpec) : Prop :=
  ∀ o ∈ spec.orders model, ∃ f ∈ model.fields, f.name = o.field ∧ f.valueType.isScalar

theorem comparable_rows (hc : Content e model rows) {f : FieldDescriptor} (hf : f ∈ model.fields)
    (hs : f.valueType.isScalar) {a b : Value} (ha : a ∈ rows) (hb : b ∈ rows) :
    Comparable e.codecs (a.index f.name) (b.index f.name) := by
  obtain ⟨v, hv⟩ := hc.typed a ha f hf
  obtain ⟨w, hw⟩ := hc.typed b hb f hf
  unfold Schema.normalizeValue at hv hw
  split at hv
  · split at hv
    · rw [← Except.ok.inj hv]
      exact .left _
    · cases hv
  · split at hw
    · split at hw
      · rw [← Except.ok.inj hw]
        exact .right _
      · cases hw
    · cases hty : f.valueType with
      | scalar ty =>
        rw [hty, Schema.value] at hv hw
        exact comparable_scalar hv hw
      | enum => simp [hty, ValueType.isScalar] at hs
      | list => simp [hty, ValueType.isScalar] at hs

theorem rowOrder_eq (c : Codecs) (a b : Value) : rowOrder c model spec a b =
    Lexicographic.first ((spec.orders model).map fun o => o.compare c a b) := by
  simp [rowOrder, QuerySpec.orders, QueryOrder.compare, Direction.apply, Function.comp_def]

/-- The comparison of two rows of the table: which comes first, and when neither does. -/
theorem rowOrder_spec (hc : Content e model rows) (hs : ScalarOrders model spec) {a b : Value}
    (ha : a ∈ rows) (hb : b ∈ rows) :
    (rowOrder e.codecs model spec a b = .lt ↔ Precedes model spec a b) ∧
      (rowOrder e.codecs model spec a b = .eq ↔
        ∀ o ∈ spec.orders model, a.index o.field = b.index o.field) := by
  rw [rowOrder_eq]
  refine Lexicographic.first_spec fun o ho => ?_
  obtain ⟨f, hf, hname, hsf⟩ := hs o ho
  obtain ⟨hlt, heq, hgt⟩ := compareValues_spec (hname ▸ comparable_rows hc hf hsf ha hb)
  unfold QueryOrder.compare
  cases o.direction with
  | ascending => exact ⟨hlt, heq⟩
  | descending =>
    simp only [Direction.apply, Ordering.swap_eq_lt, Ordering.swap_eq_eq]
    exact ⟨hgt, heq⟩

theorem precedes_irrefl (a : Value) : ¬Precedes model spec a a := by
  refine Lexicographic.before_irrefl fun k hk => ?_
  obtain ⟨o, -, rfl⟩ := List.mem_map.mp hk
  exact direction_irrefl _ _

theorem precedes_trans {a b d : Value} (hab : Precedes model spec a b)
    (hbd : Precedes model spec b d) : Precedes model spec a d := by
  refine Lexicographic.before_trans (fun k hk x y z => ?_) hab hbd
  obtain ⟨o, -, rfl⟩ := List.mem_map.mp hk
  exact direction_trans

/-- Rows that agree on the identity are one row. -/
theorem eq_of_identity (hc : Content e model rows) {a b : Value} (ha : a ∈ rows) (hb : b ∈ rows)
    (h : ∀ n ∈ model.identity, a.index n = b.index n) : a = b := by
  by_contra hne
  have hsymm : Std.Symm fun x y : Value => ∃ n ∈ model.identity, x.index n ≠ y.index n :=
    ⟨fun _ _ ⟨n, hn, hdiff⟩ => ⟨n, hn, hdiff.symm⟩⟩
  obtain ⟨n, hn, hdiff⟩ := hc.apart.forall ha hb hne
  exact hdiff (h n hn)

theorem eq_of_orders (hc : Content e model rows) {a b : Value} (ha : a ∈ rows) (hb : b ∈ rows)
    (h : ∀ o ∈ spec.orders model, a.index o.field = b.index o.field) : a = b :=
  eq_of_identity hc ha hb fun n hn =>
    h { field := n } (List.mem_append_right _ (List.mem_map_of_mem hn))

theorem content_nodup (hc : Content e model rows) : rows.Nodup :=
  hc.apart.imp fun ⟨_, _, hdiff⟩ heq => hdiff (by rw [heq])

/-- Of two rows of the table one comes first. -/
theorem precedes_total (hc : Content e model rows) (hs : ScalarOrders model spec) {a b : Value}
    (ha : a ∈ rows) (hb : b ∈ rows) (hne : a ≠ b) : Precedes model spec a b ∨ Precedes model spec b a := by
  have htell : ∀ k ∈ (spec.orders model).map fun o =>
      (((·.index o.field), o.direction.Less) : Lexicographic.Key Value Value),
      k.2 (k.1 a) (k.1 b) ∨ k.1 a = k.1 b ∨ k.2 (k.1 b) (k.1 a) := by
    intro k hk
    obtain ⟨o, ho, rfl⟩ := List.mem_map.mp hk
    obtain ⟨f, hf, hname, hsf⟩ := hs o ho
    obtain ⟨hlt, heq, hgt⟩ := compareValues_spec (hname ▸ comparable_rows hc hf hsf ha hb)
    dsimp only
    cases o.direction <;>
      cases hcmp : compareValues e.codecs (a.index o.field) (b.index o.field) <;>
        simp_all [Direction.Less]
  rcases Lexicographic.before_total htell with h | h | h
  · exact Or.inl h
  · have hsame : ∀ o ∈ spec.orders model, a.index o.field = b.index o.field :=
      fun o ho => h _ (List.mem_map_of_mem ho)
    exact absurd (eq_of_orders hc ha hb hsame) hne
  · exact Or.inr h

/-- What the sort asks of two rows of the table: they are one row, or the first comes before. -/
theorem rowOrder_ne_gt (hc : Content e model rows) (hs : ScalarOrders model spec) {a b : Value}
    (ha : a ∈ rows) (hb : b ∈ rows) :
    rowOrder e.codecs model spec a b ≠ .gt ↔ a = b ∨ Precedes model spec a b := by
  obtain ⟨hlt, heq⟩ := rowOrder_spec hc hs ha hb
  have hone : rowOrder e.codecs model spec a b = .eq ↔ a = b :=
    ⟨fun h => eq_of_orders hc ha hb (heq.mp h), fun h => heq.mpr fun o _ => by rw [h]⟩
  rw [← hone, ← hlt]
  cases rowOrder e.codecs model spec a b <;> simp

/-- An accepted query: its model, its normalized filter, and the sort that answers it. -/
theorem evaluate_eq_ok {name : String} {out : List Value} :
    e.evaluate name spec rows = .ok out ↔ ∃ model, e.schema.model name = .ok model ∧
      ∃ filter, e.queryFilter model spec.filter.entries = .ok filter ∧
        (∀ o ∈ spec.orderBy, ∃ f, model.field o.field = some f ∧ f.valueType.isScalar) ∧
          spec.truncate ((rowsWhere rows filter).insertionSort
            (rowOrder e.codecs model spec · · ≠ .gt)) = out := by
  simp [Engine.evaluate, queryField]

theorem scalarOrders_of (hm : model ∈ e.schema.models)
    (h : ∀ o ∈ spec.orderBy, ∃ f, model.field o.field = some f ∧ f.valueType.isScalar) :
    ScalarOrders model spec := by
  intro o ho
  rcases List.mem_append.mp ho with ho | ho
  · obtain ⟨f, hf, hs⟩ := h o ho
    exact ⟨f, field_mem hf, field_name hf, hs⟩
  · obtain ⟨n, hn, rfl⟩ := List.mem_map.mp ho
    obtain ⟨f, hf, hs⟩ := identity_scalar e.valid hm hn
    exact ⟨f, field_mem hf, field_name hf, hs⟩

/-- The answer of a query, by what it is for: the rows of the table whose fields equal the
    normalized values of the filter, by the order keys in their directions and then by the identity,
    up to the limit. It does not depend on the order in which the store yields the rows. -/
theorem evaluate_answers {name : String} {out : List Value} (hm : e.schema.model name = .ok model)
    (hc : Content e model rows) (h : e.evaluate name spec rows = .ok out) :
    (∀ a ∈ rows, ¬Precedes model spec a a) ∧
    (∀ a ∈ rows, ∀ b ∈ rows, ∀ d ∈ rows,
      Precedes model spec a b → Precedes model spec b d → Precedes model spec a d) ∧
    (∀ a ∈ rows, ∀ b ∈ rows, a ≠ b → Precedes model spec a b ∨ Precedes model spec b a) ∧
    (∀ a ∈ rows, ∀ b ∈ rows, (rowOrder e.codecs model spec a b = .lt ↔ Precedes model spec a b) ∧
      (rowOrder e.codecs model spec a b = .eq ↔ a = b)) ∧
    (∃ filter : List (String × Value),
      List.Forall₂ (fun x y => y.1 = x.1 ∧ ∃ field, model.field x.1 = some field ∧
        e.schema.normalizeValue e.codecs field x.2 = .ok y.2) spec.filter.entries filter ∧
      ∃ sorted, sorted.Perm (rows.filter fun row => ∀ x ∈ filter, row.index x.1 = x.2) ∧
        sorted.Pairwise (Precedes model spec) ∧ out = match spec.limit with
          | some limit => sorted.take limit
          | none => sorted) ∧
    ∀ yielded, yielded.Perm rows → e.evaluate name spec yielded = .ok out := by
  obtain ⟨model', hm', filter, hfilter, horders, rfl⟩ := evaluate_eq_ok.mp h
  obtain rfl : model = model' := Except.ok.inj (hm.symm.trans hm')
  have hs := scalarOrders_of (model_mem hm) horders
  have hsub : ∀ {a}, a ∈ rowsWhere rows filter → a ∈ rows := fun ha => List.mem_of_mem_filter ha
  have htotal : ∀ a ∈ rowsWhere rows filter, ∀ b ∈ rowsWhere rows filter,
      rowOrder e.codecs model spec a b ≠ .gt ∨ rowOrder e.codecs model spec b a ≠ .gt := by
    intro a ha b hb
    rw [rowOrder_ne_gt hc hs (hsub ha) (hsub hb), rowOrder_ne_gt hc hs (hsub hb) (hsub ha)]
    have htot := precedes_total hc hs (hsub ha) (hsub hb)
    grind
  have htrans : ∀ a ∈ rowsWhere rows filter, ∀ b ∈ rowsWhere rows filter,
      ∀ d ∈ rowsWhere rows filter, rowOrder e.codecs model spec a b ≠ .gt →
        rowOrder e.codecs model spec b d ≠ .gt → rowOrder e.codecs model spec a d ≠ .gt := by
    intro a ha b hb d hd
    rw [rowOrder_ne_gt hc hs (hsub ha) (hsub hb), rowOrder_ne_gt hc hs (hsub hb) (hsub hd),
      rowOrder_ne_gt hc hs (hsub ha) (hsub hd)]
    rintro (rfl | hab) (rfl | hbd)
    · exact Or.inl rfl
    · exact Or.inr hbd
    · exact Or.inr hab
    · exact Or.inr (precedes_trans hab hbd)
  have hanti : ∀ a ∈ rowsWhere rows filter, ∀ b ∈ rowsWhere rows filter,
      rowOrder e.codecs model spec a b ≠ .gt → rowOrder e.codecs model spec b a ≠ .gt → a = b := by
    intro a ha b hb
    rw [rowOrder_ne_gt hc hs (hsub ha) (hsub hb), rowOrder_ne_gt hc hs (hsub hb) (hsub ha)]
    rintro (rfl | hab) (hba | hba)
    · rfl
    · rfl
    · exact hba.symm
    · exact (precedes_irrefl _ (precedes_trans hab hba)).elim
  refine ⟨fun a _ => precedes_irrefl a, fun a _ b _ d _ => precedes_trans,
    fun a ha b hb => precedes_total hc hs ha hb, fun a ha b hb => ?_,
    ⟨filter, queryFilter_eq_ok hfilter, _, ?_, ?_, rfl⟩, fun yielded hy => ?_⟩
  · obtain ⟨hlt, heq⟩ := rowOrder_spec hc hs ha hb
    exact ⟨hlt, heq.trans ⟨eq_of_orders hc ha hb, fun h _ _ => by rw [h]⟩⟩
  · -- the filter that runs in SQL keeps the rows the statement asks for
    have hkeep : rowsWhere rows filter =
        rows.filter fun row => ∀ x ∈ filter, row.index x.1 = x.2 := by
      refine List.filter_congr fun row _ => ?_
      rw [Bool.eq_iff_iff, filterSql_iff, decide_eq_true_eq]
    exact hkeep ▸ List.perm_insertionSort _ _
  · -- the rows that are left differ, so one of them not after the other comes before it
    have hsorted := Lexicographic.pairwise_sorted htotal htrans
    have hnd : ((rowsWhere rows filter).insertionSort
        (rowOrder e.codecs model spec · · ≠ .gt)).Nodup :=
      (List.perm_insertionSort _ _).nodup_iff.mpr ((content_nodup hc).filter _)
    refine (hsorted.and hnd).imp_of_mem fun ha hb hab => ?_
    rw [List.mem_insertionSort] at ha hb
    exact ((rowOrder_ne_gt hc hs (hsub ha) (hsub hb)).mp hab.1).resolve_left hab.2
  · refine evaluate_eq_ok.mpr ⟨model, hm, filter, hfilter, horders, congrArg spec.truncate ?_⟩
    exact Lexicographic.sorted_perm (hy.filter _) htotal htrans hanti

end Order

namespace Sample

/-- The items of a table, as a store yields them. -/
def boxed : List Value :=
  [("b", Value.str "x"), ("c", .null), ("a", .str "x")].map fun (id, box) =>
    .ofEntries [("id", .str id), ("box", box)]

/-- The first item of a box, the last box first. -/
def firstOf (filter : SortedMap String Value) : QuerySpec where
  filter
  orderBy := [⟨"box", .descending⟩]
  limit := some 1

end Sample

open Sample

example : (loose.evaluate "Item" (firstOf (.ofList [("box", .null)])) boxed).toOption =
    some [.ofEntries [("id", .str "c"), ("box", .null)]] := by
  decide +kernel

theorem content_boxed : ∀ model, loose.schema.model "Item" = .ok model → Content loose model boxed := by
  intro model hm
  obtain rfl : (schema "none" []).models.getLast (by decide) = model :=
    Except.ok.inj ((Except.eq_ok_of_toOption (by decide +kernel)).symm.trans hm)
  refine ⟨by decide +kernel, fun row hrow f hf => ⟨row.index f.name, ?_⟩, by decide +kernel⟩
  refine Except.eq_ok_of_toOption ?_
  revert row f
  decide +kernel

/-- The answer to a query for the first item of box `x`: it is one of its items, every other one comes
    after it, and it is the answer whatever the order of the table. -/
theorem evaluate_answers_boxed : ∃ model, loose.schema.model "Item" = .ok model ∧
    ∃ row ∈ boxed, row.index "box" = .str "x" ∧
      (∀ other ∈ boxed, other.index "box" = .str "x" → other ≠ row →
        Precedes model (firstOf (.ofList [("box", .str "x")])) row other) ∧
      loose.evaluate "Item" (firstOf (.ofList [("box", .str "x")])) boxed.reverse = .ok [row] := by
  obtain ⟨model, hm⟩ : ∃ model, loose.schema.model "Item" = .ok model :=
    Except.exists_ok (by decide +kernel)
  obtain ⟨out, h⟩ : ∃ out, loose.evaluate "Item" (firstOf (.ofList [("box", .str "x")])) boxed = .ok out :=
    Except.exists_ok (by decide +kernel)
  obtain ⟨-, -, -, -, ⟨filter, hfilter, sorted, hperm, hsorted, hout⟩, hany⟩ :=
    evaluate_answers hm (content_boxed model hm) h
  have hnormal : ((loose.schema.model "Item").toOption.all fun m => (m.field "box").all fun f =>
      (loose.schema.normalizeValue loose.codecs f (.str "x")).toOption = some (.str "x")) = true := by
    decide +kernel
  have hentries : filter = [("box", .str "x")] := by
    obtain ⟨y, rfl⟩ : ∃ y, filter = [y] := List.length_eq_one_iff.mp hfilter.length_eq.symm
    obtain ⟨hname, f, hf, hv⟩ := (List.forall₂_cons.mp hfilter).1
    rw [hm] at hnormal
    have hbox : (model.field "box").all fun f =>
        (loose.schema.normalizeValue loose.codecs f (.str "x")).toOption = some (.str "x") := hnormal
    rw [show model.field "box" = some f from hf] at hbox
    have hvalue : (loose.schema.normalizeValue loose.codecs f (.str "x")).toOption = some (.str "x") := by
      simpa using hbox
    rw [show loose.schema.normalizeValue loose.codecs f (.str "x") = .ok y.2 from hv] at hvalue
    exact congrArg (fun y => [y]) (Prod.ext hname (Option.some.inj hvalue))
  subst hentries
  have hmem : ∀ x, x ∈ sorted ↔ x ∈ boxed ∧ x.index "box" = .str "x" := fun x => by
    rw [hperm.mem_iff, List.mem_filter]
    simp
  cases sorted with
  | nil => exact absurd ((hmem boxed.head!).mpr (by decide +kernel)) List.not_mem_nil
  | cons row rest =>
    obtain ⟨hrow, hin⟩ := (hmem row).mp (List.mem_cons_self ..)
    obtain rfl : out = [row] := hout
    refine ⟨model, hm, row, hrow, hin, fun other hother hbox hne => ?_,
      hany boxed.reverse (List.reverse_perm boxed)⟩
    have hrest := (List.mem_cons.mp ((hmem other).mpr ⟨hother, hbox⟩)).resolve_left hne
    exact List.rel_of_pairwise_cons hsorted hrest

end AheadSync
