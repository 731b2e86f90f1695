import AheadSync.Lib.Catalog
import Mathlib.Logic.Function.Basic

/-! The rows of an SQL database: a row is a cell for each folded name of a column, a missing cell is
    `NULL`, and values pass through the affinity of their column. -/

namespace Sql
variable {ν : Type}

/-- A catalog, the default of each column of each table, and the rows of each table. -/
structure File (ν : Type) where
  catalog : Catalog
  defaults : String → String → Option ν
  rows : String → List (String → Option ν)

/-- Values by the names of columns as a statement gives them. -/
abbrev Given (ν : Type) := List (String × Option ν)

/-- What a statement gives for a folded name, if it names the column. -/
def Given.at (given : Given ν) (k : String) : Option (Option ν) :=
  (given.find? (fold ·.1 = k)).map (·.2)

/-- The row an `INSERT` makes: what is given, through the affinity of the column, or the default. -/
def Table.made (t : Table) (affinity : String → ν → ν) (defaults : String → Option ν) (given : Given ν)
    (k : String) : Option ν :=
  (t.columns.find? (fold ·.name = k)).bind fun c =>
    match given.at k with
    | some v => v.map (affinity c.type)
    | none => defaults k

/-- Every `NOT NULL` column has a value. -/
def Table.complete (t : Table) (row : String → Option ν) : Bool :=
  t.columns.all fun c => !c.notNull || (row (fold c.name)).isSome

/-- Every name is the name of a column. -/
def Table.knows (t : Table) (names : List String) : Bool :=
  names.all fun n => t.columns.any (fold ·.name = fold n)

/-- The row with the columns of some names taken from another. -/
def merge (names : List String) (row old : String → Option ν) (k : String) : Option ν :=
  if k ∈ names.map fold then row k else old k

namespace File
variable (db : File ν) (affinity : String → ν → ν)

def held (name : String) : List (String → Option ν) := db.rows (fold name)

def put (name : String) (rows : List (String → Option ν)) : File ν :=
  { db with rows := Function.update db.rows (fold name) rows }

variable [DecidableEq ν]

instance (columns : List String) (r r' : String → Option ν) : Decidable (Agree columns r r') :=
  decidable_of_iff (∀ c ∈ columns, (r (fold c)).isSome = true ∧ r (fold c) = r' (fold c))
    (forall₂_congr fun _ _ => ⟨fun ⟨hs, heq⟩ => (Option.isSome_iff_exists.mp hs).imp fun _ h =>
      ⟨h, heq ▸ h⟩, fun ⟨v, h, h'⟩ => ⟨by simp [h], h.trans h'.symm⟩⟩)

/-- A row agrees with one of some rows in a unique index of the table. -/
def clashes (name : String) (row : String → Option ν) (rows : List (String → Option ν)) : Bool :=
  db.catalog.indexes.any fun i => i.unique && fold i.table = fold name &&
    rows.any fun r => Agree i.columns row r

/-- The row a statement makes, where no `NOT NULL` column is left without a value. -/
def making (t : Table) (given : Given ν) : Except String (String → Option ν) := do
  ensure (t.knows (given.map (·.1)) = true) "no such column"
  let row := t.made affinity (db.defaults (fold t.name)) given
  ensure (t.complete row = true) "NOT NULL constraint failed"
  return row

/-- The row with the key of a row, which some columns of it would be assigned to. -/
def target (t : Table) (row : String → Option ν) : Option (String → Option ν) :=
  (db.held t.name).find? fun r => Agree t.key row r

/-- A unique index refuses what is to be stored in place of the target, or beside all rows. -/
def refuses (t : Table) (row : String → Option ν) (update : List String) : Bool :=
  match db.target t row with
  | some r => update ≠ [] &&
    db.clashes t.name (merge update row r) ((db.held t.name).filter fun r => ¬Agree t.key row r)
  | none => db.clashes t.name row (db.held t.name)

/-- The row is stored in place of the target, or beside all rows. -/
def placed (t : Table) (row : String → Option ν) (update : List String) : File ν :=
  match db.target t row with
  | some _ => db.put t.name
      ((db.held t.name).map fun r => if Agree t.key row r then merge update row r else r)
  | none => db.put t.name (db.held t.name ++ [row])

/-- `INSERT … ON CONFLICT(key) DO UPDATE SET` some columns, or `DO NOTHING` where there are none. -/
def upsert (name : String) (given : Given ν) (update : List String) : Except String (File ν) := do
  let t ← required (db.catalog.table name) ("no such table: " ++ name)
  let row ← db.making affinity t given
  ensure (db.refuses t row update = false) "UNIQUE constraint failed"
  return db.placed t row update

/-- `INSERT OR IGNORE`: a row that a constraint refuses is left out. -/
def insertOrIgnore (name : String) (given : Given ν) : Except String (File ν) := do
  let t ← required (db.catalog.table name) ("no such table: " ++ name)
  ensure (t.knows (given.map (·.1)) = true) "no such column"
  let row := t.made affinity (db.defaults (fold t.name)) given
  if t.complete row ∧ db.target t row = none ∧ db.clashes t.name row (db.held t.name) = false then
    return db.placed t row []
  else return db

/-- The first row of a table that has some values in some columns. -/
def first (name : String) (columns : List String) (values : String → Option ν) :
    Option (String → Option ν) :=
  (db.held name).find? fun r => Agree columns values r

end File

theorem fold_table {cat : Catalog} {name : String} {t : Table} (h : cat.table name = some t) :
    fold t.name = fold name := by
  simpa using List.find?_some h

theorem Agree.trans {columns : List String} {r s t : String → Option ν} (h : Agree columns r s)
    (h' : Agree columns s t) : Agree columns r t := by
  intro c hc
  obtain ⟨v, hr, hs⟩ := h c hc
  obtain ⟨w, hs', ht⟩ := h' c hc
  exact ⟨v, hr, ht.trans (hs'.symm.trans hs)⟩

theorem Agree.symm {columns : List String} {r s : String → Option ν} (h : Agree columns r s) :
    Agree columns s r :=
  fun c hc => (h c hc).imp fun _ h => h.symm

theorem Agree.congr {columns : List String} {r s s' : String → Option ν}
    (h : ∀ c ∈ columns, s (fold c) = s' (fold c)) : Agree columns r s ↔ Agree columns r s' :=
  forall₂_congr fun c hc => by rw [h c hc]

theorem merge_of_mem {names : List String} {row old : String → Option ν} {c : String} (hc : c ∈ names) :
    merge names row old (fold c) = row (fold c) :=
  if_pos (List.mem_map_of_mem hc)

/-- Assigning other columns leaves the key as it is. -/
theorem merge_of_apart {names key : List String} (h : ∀ c ∈ key, fold c ∉ names.map fold)
    (row old : String → Option ν) : ∀ c ∈ key, merge names row old (fold c) = old (fold c) :=
  fun c hc => if_neg (h c hc)

namespace File
variable {db db' : File ν} {affinity : String → ν → ν} {t : Table} {row : String → Option ν}
  {update : List String}

theorem held_put (name other : String) (rows : List (String → Option ν)) :
    (db.put name rows).held other = if fold other = fold name then rows else db.held other := by
  simp only [held, put, Function.update_apply]

theorem making_eq_ok {given : Given ν} : db.making affinity t given = .ok row ↔
    t.knows (given.map (·.1)) = true ∧ t.complete row = true ∧
      t.made affinity (db.defaults (fold t.name)) given = row := by
  simp only [making, Except.bind_eq_ok, ensure_eq_ok, Except.pure_eq_ok]
  constructor
  · rintro ⟨-, hk, -, hc, rfl⟩
    exact ⟨hk, hc, rfl⟩
  · rintro ⟨hk, hc, rfl⟩
    exact ⟨(), hk, (), hc, rfl⟩

variable [DecidableEq ν]

theorem agree_of_first {rows : List (String → Option ν)} {columns : List String}
    {values r : String → Option ν} (h : rows.find? (fun r => Agree columns values r) = some r) :
    Agree columns values r := by
  simpa using List.find?_some h

theorem upsert_eq_ok {name : String} {given : Given ν} : db.upsert affinity name given update = .ok db' ↔
    ∃ t row, db.catalog.table name = some t ∧ db.making affinity t given = .ok row ∧
      db.refuses t row update = false ∧ db.placed t row update = db' := by
  simp only [upsert, Except.bind_eq_ok, required_eq_ok, ensure_eq_ok, Except.pure_eq_ok]
  constructor
  · rintro ⟨t, ht, row, hrow, -, hr, rfl⟩
    exact ⟨t, row, ht, hrow, hr, rfl⟩
  · rintro ⟨t, row, ht, hrow, hr, rfl⟩
    exact ⟨t, ht, row, hrow, (), hr, rfl⟩

theorem placed_shape : (db.placed t row update).catalog = db.catalog ∧
    (db.placed t row update).defaults = db.defaults := by
  unfold placed
  split <;> exact ⟨rfl, rfl⟩

theorem held_placed {other : String} (h : fold other ≠ fold t.name) :
    (db.placed t row update).held other = db.held other := by
  unfold placed
  split <;> rw [held_put, if_neg h]

theorem first_fold {name other : String} (h : fold name = fold other) (columns : List String)
    (values : String → Option ν) : db.first name columns values = db.first other columns values := by
  rw [first, first, held, held, h]

theorem first_congr {name : String} {columns : List String} {values values' : String → Option ν}
    (h : ∀ c ∈ columns, values (fold c) = values' (fold c)) :
    db.first name columns values = db.first name columns values' :=
  congrArg (List.find? · _) <| funext fun _ => decide_eq_decide.mpr <|
    ⟨fun hr => ((Agree.congr h).mp hr.symm).symm, fun hr => ((Agree.congr h).mpr hr.symm).symm⟩

theorem first_of_agree {name : String} {columns : List String} {values row : String → Option ν}
    (h : Agree columns values row) : db.first name columns values = db.first name columns row :=
  first_congr fun c hc => by
    obtain ⟨v, hv, hr⟩ := h c hc
    rw [hv, hr]

theorem first_agree {name : String} {columns : List String} {values r : String → Option ν}
    (h : db.first name columns values = some r) : Agree columns values r :=
  agree_of_first h

/-- The stored row is found by its key, with the columns that are assigned, or all where it is new. -/
theorem first_placed_self (hkey : Agree t.key row row) (hapart : ∀ c ∈ t.key, fold c ∉ update.map fold) :
    ∃ r, (db.placed t row update).first t.name t.key row = some r ∧
      ∀ c, db.target t row = none ∨ c ∈ t.key ∨ c ∈ update → r (fold c) = row (fold c) := by
  have hmerge : ∀ r, Agree t.key row (merge update row r) ↔ Agree t.key row r := fun r =>
    Agree.congr (merge_of_apart hapart row r)
  unfold placed
  split
  · rename_i r hr
    refine ⟨merge update row r, ?_, fun c hc => ?_⟩
    · have hp : ((fun r => decide (Agree t.key row r)) ∘ fun r =>
          if Agree t.key row r then merge update row r else r) = fun r => decide (Agree t.key row r) := by
        funext r
        by_cases h : Agree t.key row r
        · simp [h, (hmerge r).mpr h]
        · simp [h]
      rw [first, held_put, if_pos rfl, List.find?_map, hp, ← target, hr, Option.map_some,
        if_pos (agree_of_first hr)]
    · rcases hc with hc | hc | hc
      · rw [hr] at hc
        cases hc
      · obtain ⟨v, hv, hr'⟩ := agree_of_first hr c hc
        rw [merge_of_apart hapart row r c hc, hr', hv]
      · exact merge_of_mem hc
  · rename_i hr
    refine ⟨row, ?_, fun _ _ => rfl⟩
    rw [first, held_put, if_pos rfl, List.find?_append, ← target, hr]
    simp [hkey]

/-- A row with another key is found as before. -/
theorem first_placed_other {values : String → Option ν} (hne : ¬Agree t.key values row)
    (hapart : ∀ c ∈ t.key, fold c ∉ update.map fold) :
    (db.placed t row update).first t.name t.key values = db.first t.name t.key values := by
  have hmerge : ∀ r, Agree t.key values (if Agree t.key row r then merge update row r else r) ↔
      Agree t.key values r := fun r => by
    split
    · exact Agree.congr (merge_of_apart hapart row r)
    · rfl
  unfold placed
  split
  · have hp : ((fun r => decide (Agree t.key values r)) ∘ fun r =>
        if Agree t.key row r then merge update row r else r) = fun r => decide (Agree t.key values r) := by
      funext r
      exact decide_eq_decide.mpr (hmerge r)
    rw [first, held_put, if_pos rfl, List.find?_map, hp, first]
    cases hf : (db.held t.name).find? fun r => decide (Agree t.key values r) with
    | none => rfl
    | some r =>
      rw [Option.map_some, if_neg fun h => ?_]
      exact hne ((agree_of_first hf).trans h.symm)
  · rw [first, held_put, if_pos rfl, List.find?_append, first]
    simp [hne]

end File
end Sql
