import AheadSync.Client.Ddl
import AheadSync.Core.Normal

/-! When the tables of a schema are faithful to it: exactly when its names, made into table and index
    names, stay apart. -/

namespace AheadSync
namespace Ddl
open Sql

theorem fold_append (a b : String) : fold (a ++ b) = fold a ++ fold b := by
  rw [fold, String.toList_append, List.map_append, String.ofList_append]
  rfl

theorem fold_beforeTable (name : String) :
    fold (beforeTable name) = "ahead_before_" ++ fold name :=
  fold_append ..

theorem fold_beforeTable_inj {a b : String} :
    fold (beforeTable a) = fold (beforeTable b) ↔ fold a = fold b := by
  rw [fold_beforeTable, fold_beforeTable, String.append_right_inj]

/-- A model name has no name of the framework's prefix. -/
theorem fold_ne_ahead {name : String} (h : reservedModelName name = false) (rest : String) :
    fold name ≠ fold ("ahead_" ++ rest) := by
  intro heq
  simp only [reservedModelName, Bool.or_eq_false_iff] at h
  rw [fold_eq_fold.mp heq, String.toList_append, List.map_append] at h
  have hp : "ahead_".toList.isPrefixOf
      ("ahead_".toList.map Char.toLower ++ rest.toList.map Char.toLower) = true :=
    List.isPrefixOf_iff_prefix.mpr (List.prefix_append _ _)
  rw [hp] at h
  exact absurd h.1 (by simp)

theorem fold_ne_beforeTable {name : String} (h : reservedModelName name = false) (other : String) :
    fold name ≠ fold (beforeTable other) := by
  have hsplit : beforeTable other = "ahead_" ++ ("before_" ++ other) := by
    rw [beforeTable, ← String.append_assoc]
    rfl
  rw [hsplit]
  exact fold_ne_ahead h _

theorem reserved_model {name : String} (h : reservedModelName name = false) :
    reserved name = false := by
  simp only [reservedModelName, Bool.or_eq_false_iff] at h
  exact h.2

theorem reserved_beforeTable (name : String) : reserved (beforeTable name) = false := by
  rw [reserved, beforeTable, String.toList_append, List.map_append]
  rfl

/-- The framework's tables have its prefix, and none of them is a before table. -/
theorem framework_names {t : Table} (ht : t ∈ framework.tables) : (∃ rest, t.name = "ahead_" ++ rest) ∧
    ∀ name, fold t.name ≠ fold (beforeTable name) := by
  have hrest : ∀ t ∈ framework.tables,
      t.name = "ahead_" ++ String.ofList (t.name.toList.drop 6) ∧
        "ahead_before_".toList.isPrefixOf (fold t.name).toList = false := by decide +kernel
  obtain ⟨hp, hb⟩ := hrest t ht
  refine ⟨⟨_, hp⟩, fun name heq => ?_⟩
  rw [heq, fold_beforeTable, String.toList_append,
    List.isPrefixOf_iff_prefix.mpr (List.prefix_append _ _)] at hb
  cases hb

/-- The names that one more model is made under are new. -/
theorem names_new {models : List ModelDescriptor} {m : ModelDescriptor}
    (hr : ∀ m' ∈ models, reservedModelName m'.name = false) (hm : reservedModelName m.name = false)
    (hnew : ∀ m' ∈ models, fold m'.name ≠ fold m.name) : ∀ t ∈ tables models,
      fold t.name ≠ fold m.name ∧ fold t.name ≠ fold (beforeTable m.name) := by
  intro t ht
  rcases List.mem_append.mp ht with ht | ht
  · obtain ⟨⟨rest, hname⟩, hb⟩ := framework_names ht
    exact ⟨fun h => fold_ne_ahead hm rest (hname ▸ h.symm), hb m.name⟩
  · obtain ⟨m', hm', ht⟩ := List.mem_flatMap.mp ht
    simp only [modelTables, tableDdl, List.mem_cons, List.not_mem_nil, or_false] at ht
    rcases ht with rfl | rfl
    · exact ⟨hnew m' hm', fold_ne_beforeTable (hr m' hm') _⟩
    · exact ⟨(fold_ne_beforeTable hm _).symm, fun h => hnew m' hm' (fold_beforeTable_inj.mp h)⟩

/-- Indexes whose names are free among some tables. -/
def Clear (is : List Index) (ts : List Table) : Prop :=
  ∀ i ∈ is, reserved i.name = false ∧ ∀ t ∈ ts, fold t.name ≠ fold i.name

theorem createIndexes_iff {m : ModelDescriptor} {ts : List Table} {cat : Catalog}
    (hm : ∃ t ∈ ts, fold t.name = fold m.name) : ∀ {fields : List (List String)} {is : List Index},
    fields.foldlM (fun cat fields => Catalog.createIndex cat (indexDdl m fields))
        (⟨ts, firsts (fold ·.name) is⟩ : Catalog) = .ok cat ↔
      Clear (fields.map (indexDdl m)) ts ∧
        cat = ⟨ts, firsts (fold ·.name) (is ++ fields.map (indexDdl m))⟩
  | [], is => by
    simp only [List.foldlM_nil, Except.pure_eq_ok, Clear, List.map_nil, List.not_mem_nil,
      false_imp_iff, implies_true, List.append_nil, true_and]
    exact eq_comm
  | f :: fields, is => by
    have hstep := @Catalog.createIndex_iff ts is (indexDdl m f) hm
    have ih := @createIndexes_iff m ts cat hm fields (is ++ [indexDdl m f])
    simp only [List.foldlM_cons, Except.bind_eq_ok, hstep]
    constructor
    · rintro ⟨_, ⟨hi, rfl⟩, h⟩
      obtain ⟨hclear, rfl⟩ := ih.mp h
      exact ⟨List.forall_mem_cons.mpr ⟨hi, hclear⟩, by simp⟩
    · rintro ⟨hclear, rfl⟩
      obtain ⟨hi, hrest⟩ := List.forall_mem_cons.mp hclear
      exact ⟨_, ⟨hi, rfl⟩, ih.mpr ⟨hrest, by simp⟩⟩

theorem folded_columns (table : String) (m : ModelDescriptor) :
    (tableDdl table m).columns.map (fold ·.name) = m.fields.map (fold ·.name) := by
  simp [tableDdl, column]

/-- Making the tables and indexes of one more model. -/
theorem modelDdl_iff {m : ModelDescriptor} {ts : List Table} {is : List Index}
    (hm : reservedModelName m.name = false)
    (hnew : ∀ t ∈ ts, fold t.name ≠ fold m.name ∧ fold t.name ≠ fold (beforeTable m.name))
    (cat : Catalog) : modelDdl m ⟨ts, firsts (fold ·.name) is⟩ = .ok cat ↔
      (∀ i ∈ is, ∀ t ∈ modelTables m, fold t.name ≠ fold i.name) ∧
      (m.fields.map (fold ·.name)).Nodup ∧
      Clear (m.unique.map (indexDdl m)) (ts ++ modelTables m) ∧
      cat = ⟨ts ++ modelTables m, firsts (fold ·.name) (is ++ m.unique.map (indexDdl m))⟩ := by
  have hkeys : ∀ name, (∀ i ∈ firsts (fold ·.name) is, fold i.name ≠ fold name) ↔
      ∀ i ∈ is, fold i.name ≠ fold name := by
    intro name
    have h := mem_keys_firsts (fun i : Index => fold i.name) is (fold name)
    simp only [List.mem_map] at h
    have h' := not_congr h
    push Not at h'
    exact h'
  have hnone : (⟨ts, firsts (fold ·.name) is⟩ : Catalog).table m.name = none :=
    Catalog.table_eq_none.mpr fun t ht => (hnew t ht).1
  have hnone' : (⟨ts ++ [tableDdl m.name m], firsts (fold ·.name) is⟩ : Catalog).table
      (beforeTable m.name) = none := by
    refine Catalog.table_eq_none.mpr fun t ht => ?_
    rcases List.mem_append.mp ht with ht | ht
    · exact (hnew t ht).2
    · exact List.mem_singleton.mp ht ▸ fold_ne_beforeTable hm _
  have hmain := Catalog.createTable_iff (t := tableDdl m.name m) (reserved_model hm) hnone
  have hbefore := Catalog.createTable_iff (t := tableDdl (beforeTable m.name) m)
    (reserved_beforeTable _) hnone'
  have hindexes : ∀ cat', createIndexes m
      ⟨ts ++ [tableDdl m.name m] ++ [tableDdl (beforeTable m.name) m], firsts (fold ·.name) is⟩ =
        .ok cat' ↔ _ := fun cat' => createIndexes_iff ⟨tableDdl m.name m, by simp, rfl⟩
  simp only [folded_columns] at hmain hbefore
  simp only [tableDdl, hkeys] at hmain hbefore
  simp only [modelDdl, Except.bind_eq_ok]
  constructor
  · rintro ⟨c1, h1, c2, h2, h3⟩
    obtain ⟨ha, hnd, rfl⟩ := (hmain c1).mp h1
    obtain ⟨hb, -, rfl⟩ := (hbefore c2).mp h2
    obtain ⟨hclear, rfl⟩ := (hindexes cat).mp h3
    simp only [List.append_assoc] at hclear ⊢
    refine ⟨fun i hi t ht => ?_, hnd, hclear, rfl⟩
    simp only [modelTables, List.mem_cons, List.not_mem_nil, or_false] at ht
    rcases ht with rfl | rfl
    · exact (ha i hi).symm
    · exact (hb i hi).symm
  · rintro ⟨hnames, hnd, hclear, rfl⟩
    refine ⟨_, (hmain _).mpr ⟨fun i hi => ?_, hnd, rfl⟩, _, (hbefore _).mpr ⟨fun i hi => ?_, hnd, rfl⟩,
      (hindexes _).mpr ⟨?_, ?_⟩⟩
    · exact (hnames i hi _ (List.mem_cons_self ..)).symm
    · exact (hnames i hi _ (List.mem_cons_of_mem _ (List.mem_singleton_self _))).symm
    · rw [List.append_assoc]; exact hclear
    · rw [List.append_assoc]; rfl

theorem tables_concat (models : List ModelDescriptor) (m : ModelDescriptor) :
    tables (models ++ [m]) = tables models ++ modelTables m := by
  simp [tables]

theorem indexes_concat (models : List ModelDescriptor) (m : ModelDescriptor) :
    indexes (models ++ [m]) = indexes models ++ m.unique.map (indexDdl m) := by
  simp [indexes]

/-- Names that stay apart so far, and one more model. -/
theorem clear_concat {is js : List Index} {ts us : List Table} : Clear (is ++ js) (ts ++ us) ↔
    Clear is ts ∧ (∀ i ∈ is, ∀ t ∈ us, fold t.name ≠ fold i.name) ∧ Clear js (ts ++ us) := by
  simp only [Clear, List.forall_mem_append, forall_and]
  tauto

/-- Making the tables of models whose names differ: it succeeds exactly when no table and no index
    are in each other's way, and what is there then is what was declared, each index once. -/
theorem reconcile_iff {models : List ModelDescriptor} {cat : Catalog}
    (hr : ∀ m ∈ models, reservedModelName m.name = false)
    (hnames : (models.map (fold ·.name)).Nodup) :
    models.foldlM reconcileModel framework = .ok cat ↔
      (∀ m ∈ models, (m.fields.map (fold ·.name)).Nodup) ∧ Clear (indexes models) (tables models) ∧
        cat = ⟨tables models, firsts (fold ·.name) (indexes models)⟩ := by
  induction models using List.reverseRecOn generalizing cat with
  | nil =>
    have hclear : Clear (indexes []) (tables []) := by
      unfold Clear
      decide +kernel
    have hcat : (⟨tables [], firsts (fold ·.name) (indexes [])⟩ : Catalog) = framework := by
      decide +kernel
    simp [pure, Except.pure, hclear, hcat, eq_comm]
  | append_singleton models m ih =>
    have hr' : ∀ m ∈ models, reservedModelName m.name = false := fun x hx =>
      hr x (List.mem_append_left _ hx)
    have hm : reservedModelName m.name = false := hr m (by simp)
    rw [List.map_append, List.nodup_append] at hnames
    have hfresh : ∀ m' ∈ models, fold m'.name ≠ fold m.name := fun m' hm' =>
      hnames.2.2 _ (List.mem_map_of_mem hm') _ (by simp)
    have hnew := names_new hr' hm hfresh
    have hmake : reconcileModel ⟨tables models, firsts (fold ·.name) (indexes models)⟩ m =
        modelDdl m ⟨tables models, firsts (fold ·.name) (indexes models)⟩ := by
      have hnone : (⟨tables models, firsts (fold ·.name) (indexes models)⟩ : Catalog).table m.name =
          none := Catalog.table_eq_none.mpr fun t ht => (hnew t ht).1
      rw [reconcileModel, hnone]
    simp only [List.foldlM_append, List.foldlM_cons, List.foldlM_nil, bind_pure,
      Except.bind_eq_ok, ih hr' hnames.1, tables_concat, indexes_concat, clear_concat]
    constructor
    · rintro ⟨_, ⟨hfields, hclear, rfl⟩, h⟩
      obtain ⟨happ, hnd, hc, rfl⟩ := (modelDdl_iff hm hnew _).mp (hmake ▸ h)
      exact ⟨List.forall_mem_append.mpr ⟨hfields, by simpa using hnd⟩, ⟨hclear, happ, hc⟩, rfl⟩
    · rintro ⟨hfields, ⟨hclear, happ, hc⟩, rfl⟩
      obtain ⟨hfields, hnd⟩ := List.forall_mem_append.mp hfields
      exact ⟨_, ⟨hfields, hclear, rfl⟩,
        hmake ▸ (modelDdl_iff hm hnew _).mpr ⟨happ, hnd m (by simp), hc, rfl⟩⟩

/-- What validation guarantees of the names of a schema. -/
theorem names_valid {s : Schema} (hv : s.validate = .ok ()) : (s.models.map (·.name)).Nodup ∧
    ∀ m ∈ s.models, reservedModelName m.name = false ∧
      (∀ f ∈ m.identity, f ∈ m.fields.map (·.name)) ∧
      ∀ fields ∈ m.unique, ∀ f ∈ fields, f ∈ m.fields.map (·.name) := by
  have hfield : ∀ {m : ModelDescriptor} {f : String}, (m.field f).isSome → f ∈ m.fields.map (·.name) := by
    intro m f hf
    obtain ⟨field, hf⟩ := Option.isSome_iff_exists.mp hf
    exact field_name hf ▸ List.mem_map_of_mem (field_mem hf)
  have hid : ∀ m ∈ s.models, _ := fun m hm => (model_valid hv hm).2.2
  simp only [Schema.validate, Except.bind_eq_ok, List.forM_eq_ok, ensure_eq_ok] at hv
  obtain ⟨-, -, -, -, -, -, -, hnames, -, hmodels, -, -, huniques⟩ := hv
  refine ⟨(List.nodup_append.mp hnames).2.1, fun m hm => ⟨?_, fun f hf => ?_, fun fields hu f hf => ?_⟩⟩
  · have h := hmodels m hm
    simp only [Schema.validateModel, Except.bind_eq_ok, ensure_eq_ok] at h
    obtain ⟨-, hres, -⟩ := h
    simpa using hres
  · obtain ⟨field, hfound, -⟩ := hid m hm f hf
    exact hfield (by simp [hfound])
  · obtain ⟨-, hu', -⟩ := huniques m hm
    obtain ⟨-, -, hall⟩ := hu' fields hu
    exact hfield (List.all_eq_true.mp hall f hf)

instance : Nontrivial Value := ⟨.null, .bool true, by simp⟩

/-- Letter case aside, columns of a model are among others exactly when they are. -/
theorem fold_subset {m : ModelDescriptor} (hnd : (m.fields.map (fold ·.name)).Nodup)
    {g fields : List String} (hg : ∀ f ∈ g, f ∈ m.fields.map (·.name))
    (hf : ∀ f ∈ fields, f ∈ m.fields.map (·.name)) :
    (∀ c ∈ g, fold c ∈ fields.map fold) ↔ g ⊆ fields := by
  refine ⟨fun h c hc => ?_, fun h c hc => List.mem_map_of_mem (h hc)⟩
  obtain ⟨c', hc', heq⟩ := List.mem_map.mp (h c hc)
  obtain ⟨a, ha, rfl⟩ := List.mem_map.mp (hg c hc)
  obtain ⟨b, hb, rfl⟩ := List.mem_map.mp (hf c' hc')
  obtain rfl : b = a := List.inj_on_of_nodup_map hnd hb ha heq
  exact hc'

/-- The guards of a model's table: its key, and the constraints whose index was the first of its
    name. -/
theorem mem_guards {models : List ModelDescriptor} {m : ModelDescriptor} (hm : m ∈ models)
    (hr : reservedModelName m.name = false) (hnames : (models.map (fold ·.name)).Nodup)
    (htable : (⟨tables models, firsts (fold ·.name) (indexes models)⟩ : Catalog).table m.name =
      some (tableDdl m.name m)) {g : List String} :
    g ∈ (⟨tables models, firsts (fold ·.name) (indexes models)⟩ : Catalog).guards m.name ↔
      g = m.identity ∨ g ∈ m.unique ∧
        (indexes models).find? (fold ·.name = fold (indexName m g)) = some (indexDdl m g) := by
  simp only [Catalog.guards, htable, Option.map_some, Option.toList_some, List.mem_append,
    List.mem_singleton, List.mem_map, List.mem_filter, mem_firsts]
  refine or_congr Iff.rfl ⟨?_, fun h => ⟨indexDdl m g, ⟨h.2, by simp [indexDdl]⟩, rfl⟩⟩
  rintro ⟨i, ⟨hfind, hi⟩, rfl⟩
  rcases List.mem_append.mp (List.mem_of_find?_eq_some hfind) with hmem | hmem
  · -- the framework's index is not a unique one
    have hplain : ∀ i ∈ framework.indexes, i.unique = false := by decide +kernel
    simp [hplain i hmem] at hi
  · obtain ⟨m', hm', hmem⟩ := List.mem_flatMap.mp hmem
    obtain ⟨g, hg, rfl⟩ := List.mem_map.mp hmem
    have hfold : fold m'.name = fold m.name := by simpa [indexDdl] using hi
    obtain rfl : m' = m := List.inj_on_of_nodup_map hnames hm' hm hfold
    exact ⟨hg, hfind⟩

theorem shaped_reconcile {s : Schema} {cat : Catalog} (h : reconcile s framework = .ok cat) :
    cat.Shaped := by
  have hbase : framework.Shaped := ⟨by decide +kernel, by decide +kernel⟩
  have hindexes : ∀ {m : ModelDescriptor} {cat cat' : Catalog}, cat.Shaped →
      createIndexes m cat = .ok cat' → cat'.Shaped := fun hs h =>
    List.foldlM_ok_induction Catalog.Shaped (fun _ _ _ _ hs h => Catalog.shaped_createIndex hs h) hs h
  refine List.foldlM_ok_induction Catalog.Shaped (fun cat m cat' _ hs h => ?_) hbase h
  unfold reconcileModel at h
  split at h
  · simp only [modelDdl, Except.bind_eq_ok] at h
    obtain ⟨c1, h1, c2, h2, h3⟩ := h
    exact hindexes (Catalog.shaped_createTable (Catalog.shaped_createTable hs h1) h2) h3
  · simp only [Except.bind_eq_ok] at h
    obtain ⟨-, -, c1, h1, h2⟩ := h
    refine hindexes ?_ h2
    refine List.foldlM_ok_induction Catalog.Shaped (fun cat f cat' _ hs h => ?_) hs h1
    unfold reconcileField at h
    split at h
    · simp only [Except.bind_eq_ok, Except.pure_eq_ok] at h
      obtain ⟨-, -, rfl⟩ := h
      exact hs
    · simp only [Except.bind_eq_ok] at h
      obtain ⟨-, -, c2, h2, h3⟩ := h
      exact Catalog.shaped_addColumn (Catalog.shaped_addColumn hs h2) h3

theorem mem_tables {models : List ModelDescriptor} {m : ModelDescriptor} (hm : m ∈ models) :
    tableDdl m.name m ∈ tables models ∧ tableDdl (beforeTable m.name) m ∈ tables models :=
  ⟨List.mem_append_right _ (List.mem_flatMap.mpr ⟨m, hm, by simp [modelTables]⟩),
    List.mem_append_right _ (List.mem_flatMap.mpr ⟨m, hm, by simp [modelTables]⟩)⟩

/-- For a schema that validation accepts, opening an empty store gives every model tables of its own
    and enforces every unique constraint exactly when its names stay apart. -/
theorem faithful_iff {s : Schema} (hv : s.validate = .ok ()) :
    (∃ cat, reconcile s framework = .ok cat ∧ Faithful s cat) ↔ Nameable s := by
  obtain ⟨hnd, hvalid⟩ := names_valid hv
  have hr : ∀ m ∈ s.models, reservedModelName m.name = false := fun m hm => (hvalid m hm).1
  constructor
  · rintro ⟨cat, hcat, hf⟩
    -- two models whose names differ by letter case only would share their table
    have hnames : (s.models.map (fold ·.name)).Nodup := by
      refine List.Nodup.map_on (fun m hm m' hm' heq => ?_) (List.Nodup.of_map _ hnd)
      have htable := (hf.main m hm).symm.trans
        ((Catalog.table_congr heq).trans (hf.main m' hm'))
      exact List.inj_on_of_nodup_map hnd hm hm' (congrArg Table.name (Option.some.inj htable))
    obtain ⟨hfields, hclear, rfl⟩ := (reconcile_iff hr hnames).mp hcat
    refine ⟨hnames, hfields, hclear, fun m hm fields hu => ?_⟩
    obtain ⟨g, hg, hsub⟩ := enforced_iff.mp (hf.unique m hm fields hu)
    obtain ⟨hres, hid, huniq⟩ := hvalid m hm
    rcases (mem_guards hm hres hnames (hf.main m hm)).mp hg with rfl | ⟨hgu, hfirst⟩
    · exact Or.inl ((fold_subset (hfields m hm) hid (huniq fields hu)).mp hsub)
    · exact Or.inr ⟨g, hgu,
        (fold_subset (hfields m hm) (huniq g hgu) (huniq fields hu)).mp hsub, hfirst⟩
  · intro hn
    have hcat := (reconcile_iff hr hn.models).mpr ⟨hn.fields, hn.apart, rfl⟩
    have hshaped := shaped_reconcile hcat
    obtain ⟨cat, heq⟩ : ∃ cat : Catalog,
      cat = ⟨tables s.models, firsts (fold ·.name) (indexes s.models)⟩ := ⟨_, rfl⟩
    have htables : cat.tables = tables s.models := congrArg Catalog.tables heq
    rw [← heq] at hcat hshaped
    have hmain : ∀ m ∈ s.models, cat.table m.name = some (tableDdl m.name m) := fun m hm =>
      hshaped.table_eq (htables ▸ (mem_tables hm).1) rfl
    have hbefore : ∀ m ∈ s.models,
        cat.table (beforeTable m.name) = some (tableDdl (beforeTable m.name) m) := fun m hm =>
      hshaped.table_eq (htables ▸ (mem_tables hm).2) rfl
    have hframe : ∀ t ∈ framework.tables, cat.table t.name = some t := fun t ht =>
      hshaped.table_eq (htables ▸ List.mem_append_left _ ht) rfl
    refine ⟨cat, hcat, hmain, hbefore, fun m hm t ht => ?_, fun m hm m' hm' => ?_,
      fun m hm fields hu => ?_⟩
    · rw [hframe t ht, hmain m hm, hbefore m hm]
      obtain ⟨⟨rest, hname⟩, hb⟩ := framework_names ht
      refine ⟨fun h => fold_ne_ahead (hr m hm) rest ?_, fun h => hb m.name ?_⟩
      · rw [← hname, congrArg Table.name (Option.some.inj h)]
        rfl
      · rw [congrArg Table.name (Option.some.inj h)]
        rfl
    · rw [hmain m hm, hbefore m' hm', hmain m' hm', hbefore m hm]
      have hinj : m.name = m'.name → m = m' := List.inj_on_of_nodup_map hnd hm hm'
      refine ⟨fun h => fold_ne_beforeTable (hr m hm) m'.name ?_, fun hne => ⟨fun h => ?_, fun h => ?_⟩⟩
      · exact congrArg fold (congrArg Table.name (Option.some.inj h))
      · exact hne (hinj (congrArg Table.name (Option.some.inj h)))
      · exact hne (hinj ((String.append_right_inj _).mp (congrArg Table.name (Option.some.inj h))))
    · obtain ⟨hres, hid, huniq⟩ := hvalid m hm
      have hguards := fun g => @mem_guards s.models m hm hres hn.models (heq ▸ hmain m hm) g
      rw [← heq] at hguards
      rcases hn.guarded m hm fields hu with hsub | ⟨g, hgu, hsub, hfirst⟩
      · exact enforced_iff.mpr ⟨m.identity, (hguards _).mpr (Or.inl rfl),
          (fold_subset (hn.fields m hm) hid (huniq fields hu)).mpr hsub⟩
      · exact enforced_iff.mpr ⟨g, (hguards _).mpr (Or.inr ⟨hgu, hfirst⟩),
          (fold_subset (hn.fields m hm) (huniq g hgu) (huniq fields hu)).mpr hsub⟩

namespace Sample

/-- One item a box. -/
def boxes : Schema where
  models := [{ name := "Item", identity := ["id"]
               fields := ["id", "box"].map (⟨·, .scalar .string, false, none⟩), unique := [["box"]] }]

/-- Items in a box, on a shelf or on a shelf in a box. -/
def shelves : Schema where
  models := [{ name := "Item", identity := ["id"]
               fields := ["id", "box", "shelf", "box_shelf"].map (⟨·, .scalar .string, false, none⟩)
               unique := [["box_shelf"], ["box", "shelf"]] }]

end Sample

/-- Two constraints of one model whose fields join to one text share one index: the second is not
    enforced. -/
theorem not_faithful : ¬∀ s : Schema, s.validate = .ok () →
    ∃ cat, reconcile s framework = .ok cat ∧ Faithful s cat := by
  intro h
  have hn := (faithful_iff (by decide +kernel)).mp (h Sample.shelves (by decide +kernel))
  have hno : ¬∀ m ∈ Sample.shelves.models, ∀ fields ∈ m.unique, m.identity ⊆ fields ∨
      ∃ g ∈ m.unique, g ⊆ fields ∧ (indexes Sample.shelves.models).find?
        (fold ·.name = fold (indexName m g)) = some (indexDdl m g) := by decide +kernel
  exact hno hn.guarded

/-- Boxed items are given their tables. -/
theorem faithful_boxes :
    ∃ cat, reconcile Sample.boxes framework = .ok cat ∧ Faithful Sample.boxes cat :=
  (faithful_iff (by decide +kernel)).mpr
    ⟨by decide +kernel, by decide +kernel, by decide +kernel, by decide +kernel⟩

end Ddl
end AheadSync
