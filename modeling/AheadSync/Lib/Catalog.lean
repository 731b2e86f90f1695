import AheadSync.Lib.Outcome
import Mathlib.Data.List.Induction
import Mathlib.Data.List.Nodup
import Mathlib.Logic.Nontrivial.Basic

/-! The catalog of an SQL database: tables and indexes share one name space, names are compared
    without letter case, and what is created only when it does not exist is silently not created
    when its name is taken. -/

namespace Sql

/-- A name without its ASCII letter case. -/
def fold (name : String) : String := String.ofList (name.toList.map Char.toLower)

/-- Names the database keeps for itself. -/
def reserved (name : String) : Bool := "sqlite_".toList.isPrefixOf (name.toList.map Char.toLower)

structure Column where
  name : String
  type : String
  notNull : Bool
  deriving DecidableEq

structure Table where
  name : String
  columns : List Column
  key : List String
  deriving DecidableEq

/-- A table of some name with one more column. -/
def Table.extend (name : String) (c : Column) (t : Table) : Table :=
  if fold t.name = fold name then { t with columns := t.columns ++ [c] } else t

structure Index where
  name : String
  table : String
  columns : List String
  unique : Bool := true
  deriving DecidableEq

structure Catalog where
  tables : List Table := []
  indexes : List Index := []
  deriving DecidableEq

/-- The first of each key. -/
def firsts {α κ : Type} [DecidableEq κ] (key : α → κ) (l : List α) : List α :=
  l.foldl (fun kept a => if key a ∈ kept.map key then kept else kept ++ [a]) []

namespace Catalog
variable (cat : Catalog)

def table (name : String) : Option Table := cat.tables.find? (fold ·.name = fold name)

def index (name : String) : Option Index := cat.indexes.find? (fold ·.name = fold name)

/-- `CREATE TABLE IF NOT EXISTS`. -/
def createTable (t : Table) : Except String Catalog :=
  if reserved t.name then .error ("object name reserved for internal use: " ++ t.name)
  else if (cat.table t.name).isSome then .ok cat
  else if (cat.index t.name).isSome then .error ("there is already an index named " ++ t.name)
  else if ¬(t.columns.map (fold ·.name)).Nodup then .error "duplicate column name"
  else .ok { cat with tables := cat.tables ++ [t] }

/-- `CREATE INDEX IF NOT EXISTS`. -/
def createIndex (i : Index) : Except String Catalog :=
  if (cat.table i.table).isNone then .error ("no such table: " ++ i.table)
  else if reserved i.name then .error ("object name reserved for internal use: " ++ i.name)
  else if (cat.table i.name).isSome then .error ("there is already a table named " ++ i.name)
  else if (cat.index i.name).isSome then .ok cat
  else .ok { cat with indexes := cat.indexes ++ [i] }

/-- `ALTER TABLE … ADD COLUMN`. -/
def addColumn (name : String) (c : Column) : Except String Catalog :=
  match cat.table name with
  | none => .error ("no such table: " ++ name)
  | some t =>
    if fold c.name ∈ t.columns.map (fold ·.name) then .error ("duplicate column name: " ++ c.name)
    else .ok { cat with tables := cat.tables.map (Table.extend name c) }

/-- What no two rows of a table may agree on. -/
def guards (name : String) : List (List String) :=
  ((cat.table name).map (·.key)).toList ++
    (cat.indexes.filter fun i => i.unique ∧ fold i.table = fold name).map (·.columns)

end Catalog

/-- Two rows hold the same values, none of them null, in some columns. -/
def Agree {ν : Type} (columns : List String) (r r' : String → Option ν) : Prop :=
  ∀ c ∈ columns, ∃ v, r (fold c) = some v ∧ r' (fold c) = some v

/-- No two rows that the database lets stand in a table agree on some columns. -/
def Catalog.Enforced (ν : Type) (cat : Catalog) (name : String) (columns : List String) : Prop :=
  ∀ r r' : String → Option ν, (∀ g ∈ cat.guards name, ¬Agree g r r') → ¬Agree columns r r'

/-- Every table has a name of its own, and columns with names of their own. -/
structure Catalog.Shaped (cat : Catalog) : Prop where
  names : (cat.tables.map (fold ·.name)).Nodup
  columns : ∀ t ∈ cat.tables, (t.columns.map (fold ·.name)).Nodup

theorem fold_eq_fold {a b : String} :
    fold a = fold b ↔ a.toList.map Char.toLower = b.toList.map Char.toLower :=
  String.ofList_inj

section Firsts
variable {α κ : Type} [DecidableEq κ] {key : α → κ}

theorem firsts_concat (l : List α) (a : α) : firsts key (l ++ [a]) =
    if key a ∈ (firsts key l).map key then firsts key l else firsts key l ++ [a] := by
  rw [firsts, List.foldl_append]
  rfl

/-- Every key keeps an element. -/
theorem mem_keys_firsts (key : α → κ) (l : List α) (k : κ) : k ∈ (firsts key l).map key ↔ k ∈ l.map key := by
  induction l using List.reverseRecOn generalizing k with
  | nil => simp [firsts]
  | append_singleton l a ih =>
    rw [firsts_concat]
    split_ifs with h
    · rw [ih, List.map_append, List.mem_append]
      refine ⟨Or.inl, fun hk => hk.elim id fun hk => ?_⟩
      rw [List.mem_singleton.mp hk]
      exact (ih _).mp h
    · simp only [List.map_append, List.mem_append, ih]

/-- The elements that are kept are the first ones of their keys. -/
theorem mem_firsts (l : List α) (a : α) :
    a ∈ firsts key l ↔ l.find? (key · = key a) = some a := by
  induction l using List.reverseRecOn with
  | nil => simp [firsts]
  | append_singleton l b ih =>
    have hnone : l.find? (key · = key a) = none ↔ key a ∉ (firsts key l).map key := by
      rw [mem_keys_firsts]
      simp [List.find?_eq_none]
    rw [firsts_concat, List.find?_append]
    cases hf : l.find? (key · = key a) with
    | some x =>
      have hmem : key a ∈ (firsts key l).map key := by
        by_contra hn
        rw [hnone.mpr hn] at hf
        cases hf
      rw [hf] at ih
      simp only [Option.some_or, ← ih]
      split_ifs with hb
      · rfl
      · simp only [List.mem_append, List.mem_singleton, or_iff_left_iff_imp]
        rintro rfl
        exact absurd hmem hb
    | none =>
      have hn := hnone.mp hf
      have ha : a ∉ firsts key l := fun ha => hn (List.mem_map_of_mem ha)
      rw [Option.none_or]
      split_ifs with hb
      · simp only [ha, false_iff]
        intro hsome
        have hkey : decide (key b = key a) = true := by
          by_contra hne
          simp [hne] at hsome
        exact hn (of_decide_eq_true hkey ▸ hb)
      · by_cases hkey : key b = key a
        · simp [ha, hkey, eq_comm]
        · have hne : a ≠ b := fun h => hkey (h ▸ rfl)
          simp [ha, hkey, hne]

end Firsts

section Enforced
variable {ν : Type} {cat : Catalog} {name : String} {columns : List String}

/-- Columns are kept apart exactly when the columns of a guard are among them. -/
theorem enforced_iff [Nontrivial ν] : cat.Enforced ν name columns ↔
    ∃ g ∈ cat.guards name, ∀ c ∈ g, fold c ∈ columns.map fold := by
  constructor
  · intro h
    by_contra hnone
    push Not at hnone
    obtain ⟨a, b, hab⟩ := exists_pair_ne ν
    -- rows that agree on the given columns only
    refine h (fun _ => some a) (fun c => some (if c ∈ columns.map fold then a else b))
      (fun g hg hagree => ?_) fun c hc => ⟨a, rfl, by simp [List.mem_map_of_mem hc]⟩
    obtain ⟨c, hc, hout⟩ := hnone g hg
    obtain ⟨v, hv, hv'⟩ := hagree c hc
    have hb : some b = some v := by simpa only [if_neg hout] using hv'
    exact hab (Option.some.inj (hv.trans hb.symm))
  · rintro ⟨g, hg, hsub⟩ r r' hapart hagree
    refine hapart g hg fun c hc => ?_
    obtain ⟨c', hc', heq⟩ := List.mem_map.mp (hsub c hc)
    exact heq ▸ hagree c' hc'

end Enforced

namespace Catalog
variable {cat cat' : Catalog}

theorem table_eq_none {name : String} :
    cat.table name = none ↔ ∀ t ∈ cat.tables, fold t.name ≠ fold name := by
  simp [table, List.find?_eq_none]

theorem table_mem {name : String} {t : Table} (h : cat.table name = some t) :
    t ∈ cat.tables ∧ fold t.name = fold name :=
  ⟨List.mem_of_find?_eq_some h, by simpa using List.find?_some h⟩

theorem table_congr {name name' : String} (h : fold name = fold name') :
    cat.table name = cat.table name' := by
  rw [table, table, h]

theorem index_eq_none {name : String} :
    cat.index name = none ↔ ∀ i ∈ cat.indexes, fold i.name ≠ fold name := by
  simp [index, List.find?_eq_none]

/-- A name is looked up by the one table that has it. -/
theorem Shaped.table_eq (h : cat.Shaped) {t : Table} (ht : t ∈ cat.tables) {name : String}
    (hn : fold t.name = fold name) : cat.table name = some t := by
  cases hf : cat.table name with
  | none => exact absurd hn (table_eq_none.mp hf t ht)
  | some x =>
    obtain ⟨hx, hxn⟩ := table_mem hf
    exact congrArg some (List.inj_on_of_nodup_map h.names hx ht (hxn.trans hn.symm))

/-- A table of a new name is made when no index has the name and its columns are distinct. -/
theorem createTable_iff {t : Table} (hr : reserved t.name = false) (hn : cat.table t.name = none)
    (cat' : Catalog) : cat.createTable t = .ok cat' ↔ (∀ i ∈ cat.indexes, fold i.name ≠ fold t.name) ∧
      (t.columns.map (fold ·.name)).Nodup ∧ cat' = { cat with tables := cat.tables ++ [t] } := by
  rw [← index_eq_none, createTable, if_neg (by simp [hr]), if_neg (by simp [hn])]
  cases hi : cat.index t.name with
  | some i => simp
  | none =>
    rw [if_neg (by simp)]
    by_cases hc : (t.columns.map (fold ·.name)).Nodup
    · simpa [hc] using eq_comm
    · simp [hc]

/-- An index of a table that is there is made, or was there, when its name is free to be one's. -/
theorem createIndex_iff {ts : List Table} {is : List Index} {i : Index}
    (ht : ∃ t ∈ ts, fold t.name = fold i.table) (cat' : Catalog) :
    (⟨ts, firsts (fold ·.name) is⟩ : Catalog).createIndex i = .ok cat' ↔
      (reserved i.name = false ∧ ∀ t ∈ ts, fold t.name ≠ fold i.name) ∧
        cat' = ⟨ts, firsts (fold ·.name) (is ++ [i])⟩ := by
  have hfound : ¬((⟨ts, firsts (fold ·.name) is⟩ : Catalog).table i.table).isNone := by
    rw [Option.isNone_iff_eq_none, table_eq_none]
    obtain ⟨t, ht, hn⟩ := ht
    exact fun h => h t ht hn
  have htaken : ((⟨ts, firsts (fold ·.name) is⟩ : Catalog).index i.name).isSome ↔
      fold i.name ∈ (firsts (fold ·.name) is).map (fold ·.name) := by
    rw [← Option.ne_none_iff_isSome, ne_eq, index_eq_none]
    simp
  have hfree : ¬((⟨ts, firsts (fold ·.name) is⟩ : Catalog).table i.name).isSome ↔
      ∀ t ∈ ts, fold t.name ≠ fold i.name := by
    rw [Option.not_isSome_iff_eq_none, table_eq_none]
  rw [createIndex, if_neg hfound, firsts_concat, ← hfree]
  cases hr : reserved i.name with
  | true => simp
  | false =>
    rw [if_neg (by simp)]
    by_cases hname : ((⟨ts, firsts (fold ·.name) is⟩ : Catalog).table i.name).isSome
    · simp [hname]
    · rw [if_neg hname]
      by_cases hi : ((⟨ts, firsts (fold ·.name) is⟩ : Catalog).index i.name).isSome
      · rw [if_pos hi, if_pos (htaken.mp hi)]
        simpa [hname] using eq_comm
      · rw [if_neg hi, if_neg fun hmem => hi (htaken.mpr hmem)]
        simpa [hname] using eq_comm

theorem shaped_createTable (h : cat.Shaped) {t : Table} (hc : cat.createTable t = .ok cat') :
    cat'.Shaped := by
  unfold createTable at hc
  split_ifs at hc with h1 h2 h3 h4
  · exact Except.ok.inj hc ▸ h
  · rw [← Except.ok.inj hc]
    have hnew := table_eq_none.mp (Option.not_isSome_iff_eq_none.mp h2)
    refine ⟨?_, fun x hx => ?_⟩
    · rw [List.map_append]
      refine List.nodup_append.mpr ⟨h.names, by simp, fun a ha b hb => ?_⟩
      obtain ⟨x, hx, rfl⟩ := List.mem_map.mp ha
      rw [List.map_singleton, List.mem_singleton] at hb
      rw [hb]
      exact hnew x hx
    · rcases List.mem_append.mp hx with hx | hx
      · exact h.columns x hx
      · exact List.mem_singleton.mp hx ▸ h4

theorem shaped_createIndex (h : cat.Shaped) {i : Index} (hc : cat.createIndex i = .ok cat') :
    cat'.Shaped := by
  unfold createIndex at hc
  split_ifs at hc
  · exact Except.ok.inj hc ▸ h
  · exact Except.ok.inj hc ▸ ⟨h.names, h.columns⟩

theorem shaped_addColumn (h : cat.Shaped) {name : String} {c : Column}
    (hc : cat.addColumn name c = .ok cat') : cat'.Shaped := by
  unfold addColumn at hc
  cases ht : cat.table name with
  | none => rw [ht] at hc; cases hc
  | some t =>
    simp only [ht] at hc
    split_ifs at hc with hdup
    rw [← Except.ok.inj hc]
    have hname : ∀ x : Table, fold (x.extend name c).name = fold x.name := fun x => by
      unfold Table.extend
      split_ifs <;> rfl
    have hnames : (cat.tables.map (Table.extend name c)).map (fold ·.name) =
        cat.tables.map (fold ·.name) := by
      rw [List.map_map]
      exact List.map_congr_left fun x _ => hname x
    refine ⟨by rw [hnames]; exact h.names, fun x hx => ?_⟩
    obtain ⟨y, hy, rfl⟩ := List.mem_map.mp hx
    unfold Table.extend
    split_ifs with hy'
    · -- names are distinct: this is the table the check was made on
      obtain ⟨htm, htn⟩ := table_mem ht
      obtain rfl : y = t := List.inj_on_of_nodup_map h.names hy htm (hy'.trans htn.symm)
      rw [List.map_append]
      refine List.nodup_append.mpr ⟨h.columns y hy, by simp, fun a ha b hb hab => hdup ?_⟩
      rw [List.map_singleton, List.mem_singleton] at hb
      rwa [← hb, ← hab]
    · exact h.columns y hy

end Catalog

end Sql
