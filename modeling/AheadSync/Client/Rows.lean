import AheadSync.Client.Store

/-! Rows of the visible and before tables and the constraints on them (`client/src/rows.rs`). Every
    column of a stored row is present, a column that may not be null holds a value, and the visible
    table also enforces the model's unique constraints. -/

namespace AheadSync

/-- `merge_identity`: the row made of an identity and a state. -/
def mergeIdentity (identity st : Value) : Value := (Value.obj identity.entries).setAll st.entries

/-- `row_params`, read back: the value of every column, null where the row has none. -/
def columns (model : ModelDescriptor) (row : Value) : Value :=
  .ofEntries (model.fields.map fun f => (f.name, row.index f.name))

/-- Every column that may not be null holds a value. -/
def notNull (model : ModelDescriptor) (row : Value) : Bool :=
  model.fields.all fun f => f.nullable || !(row.index f.name).isNull

/-- Another row of the model has the same values in a unique constraint; null equals nothing. -/
def duplicates (model : ModelDescriptor) (t : Table RecordKey Value) (key : RecordKey)
    (row : Value) : Bool :=
  t.rows.any fun (k, r) => k.model = key.model && k ≠ key && model.unique.any fun fields =>
    fields.all fun f => !(row.index f).isNull && r.index f = row.index f

/-- The identities of a model's rows that hold the given values. -/
def identitiesWhere (t : Table RecordKey Value) (model : ModelDescriptor)
    (filter : List (String × Value)) : List Value :=
  t.rows.filterMap fun (k, row) =>
    if k.model = model.name ∧ ∀ fv ∈ filter, row.index fv.1 = fv.2 then some k.identity else none

namespace Engine
variable (e : Engine) (st : Store)

/-- Write or delete the visible row of a record. -/
def mainSet (key : RecordKey) : Option Value → Except String Store
  | some row => do
    let model ← e.schema.model key.model
    let row := columns model row
    ensure (notNull model row) "NOT NULL constraint failed"
    ensure (!duplicates model st.main key row) "UNIQUE constraint failed"
    return { st with main := st.main.put key (some row) }
  | none => do
    let _ ← e.schema.model key.model
    return { st with main := st.main.put key none }

/-- Write or delete the before image of a record. -/
def beforeSet (key : RecordKey) : Option Value → Except String Store
  | some row => do
    let model ← e.schema.model key.model
    let row := columns model row
    ensure (notNull model row) "NOT NULL constraint failed"
    return { st with before := st.before.put key (some row) }
  | none => do
    let _ ← e.schema.model key.model
    return { st with before := st.before.put key none }

end Engine

/-- `INSERT OR IGNORE` of the visible row into the before table. -/
def Store.copyAside (st : Store) (key : RecordKey) : Store :=
  match st.before.lookup key, st.main.lookup key with
  | none, some row => { st with before := st.before.put key (some row) }
  | _, _ => st

/-- A row as a table stores it: exactly its model's columns, with values where required. -/
structure RowOk (model : ModelDescriptor) (row : Value) : Prop where
  full : columns model row = row
  notNull : notNull model row = true

section Rows
variable {e : Engine} {st st' : Store} {key : RecordKey} {model : ModelDescriptor}

theorem mainSet_some_eq_ok {row : Value} : e.mainSet st key (some row) = .ok st' ↔
    ∃ model, e.schema.model key.model = .ok model ∧ notNull model (columns model row) = true ∧
      duplicates model st.main key (columns model row) = false ∧
      { st with main := st.main.put key (some (columns model row)) } = st' := by
  simp [Engine.mainSet]

theorem mainSet_none_eq_ok : e.mainSet st key none = .ok st' ↔
    (∃ model, e.schema.model key.model = .ok model) ∧
      { st with main := st.main.put key none } = st' := by
  simp [Engine.mainSet]

theorem beforeSet_some_eq_ok {row : Value} : e.beforeSet st key (some row) = .ok st' ↔
    ∃ model, e.schema.model key.model = .ok model ∧ notNull model (columns model row) = true ∧
      { st with before := st.before.put key (some (columns model row)) } = st' := by
  simp [Engine.beforeSet]

theorem beforeSet_none_eq_ok : e.beforeSet st key none = .ok st' ↔
    (∃ model, e.schema.model key.model = .ok model) ∧
      { st with before := st.before.put key none } = st' := by
  simp [Engine.beforeSet]

/-- A model without unique constraints never refuses a row as a duplicate. -/
theorem duplicates_eq_false (h : model.unique = []) (t : Table RecordKey Value) (row : Value) :
    duplicates model t key row = false := by
  simp [duplicates, h]

theorem get_columns (model : ModelDescriptor) (row : Value) (k : String) :
    (columns model row).get k =
      if k ∈ model.fields.map (·.name) then some (row.index k) else none := by
  have hfst : (model.fields.map fun f => (f.name, row.index f.name)).map Prod.fst =
      model.fields.map (·.name) := by simp [Function.comp_def]
  split
  · rename_i hk
    obtain ⟨v, hv, hget⟩ := Value.get_setAll_of_mem (k := k) (o := .obj []) (hfst ▸ hk)
    obtain ⟨f, -, heq⟩ := List.mem_map.mp hv
    obtain ⟨rfl, rfl⟩ := Prod.mk.inj heq
    exact hget
  · rename_i hk
    exact Value.get_setAll_of_notMem (hfst ▸ hk)

theorem index_columns {f : FieldDescriptor} (hf : f ∈ model.fields) (row : Value) :
    (columns model row).index f.name = row.index f.name := by
  rw [Value.index, get_columns, if_pos (List.mem_map_of_mem hf)]; rfl

theorem columns_columns (model : ModelDescriptor) (row : Value) :
    columns model (columns model row) = columns model row := by
  rw [columns, columns]
  refine congrArg Value.ofEntries (List.map_congr_left fun f hf => ?_)
  rw [← columns, index_columns hf]

/-- What a table stores is a proper row. -/
theorem rowOk_columns {row : Value} (h : notNull model (columns model row) = true) :
    RowOk model (columns model row) :=
  ⟨columns_columns model row, h⟩

/-- An object with exactly the columns is stored as it is. -/
theorem columns_eq_self {row : Value} (ho : row.Ordered)
    (hk : ∀ k, k ∈ model.fields.map (·.name) ↔ (row.get k).isSome) : columns model row = row := by
  refine Value.ext_get (Value.ordered_ofEntries _) ho fun k => ?_
  rw [get_columns]
  split
  · rename_i h
    obtain ⟨v, hv⟩ := Option.isSome_iff_exists.mp ((hk k).mp h)
    rw [Value.index, hv]; rfl
  · rename_i h
    exact (Option.not_isSome_iff_eq_none.mp fun h' => h ((hk k).mpr h')).symm

theorem rowOk_ordered {row : Value} (h : RowOk model row) : row.Ordered :=
  h.full ▸ Value.ordered_ofEntries _

theorem rowOk_get {row : Value} (h : RowOk model row) (k : String) :
    k ∈ model.fields.map (·.name) ↔ (row.get k).isSome := by
  rw [← h.full, get_columns]
  split <;> simp_all

/-- Assigning a column a value it admits keeps a proper row. -/
theorem rowOk_set {row v : Value} {f : FieldDescriptor} (hnd : (model.fields.map (·.name)).Nodup)
    (h : RowOk model row) (hf : f ∈ model.fields) (hv : f.nullable = false → v ≠ .null) :
    RowOk model (row.set f.name v) where
  full := by
    refine columns_eq_self (Value.ordered_set (rowOk_ordered h)) fun k => ?_
    rw [rowOk_get h, Value.get_set]
    split
    · rename_i hk
      simpa [hk] using (rowOk_get h f.name).mp (List.mem_map_of_mem hf)
    · rfl
  notNull := by
    have hall := h.notNull
    simp only [notNull, List.all_eq_true, Bool.or_eq_true, Bool.not_eq_true'] at hall ⊢
    intro g hg
    by_cases hgf : g.name = f.name
    · obtain rfl : g = f := List.inj_on_of_nodup_map hnd hg hf hgf
      rw [Value.index, Value.get_set, if_pos rfl]
      cases hn : g.nullable with
      | true => exact Or.inl rfl
      | false => exact Or.inr (by simpa [Value.isNull] using hv hn)
    · rw [Value.index, Value.get_set, if_neg hgf]
      exact hall g hg

/-- Assigning the entries of an accepted patch keeps a proper row. -/
theorem rowOk_setAll (hnd : (model.fields.map (·.name)).Nodup) :
    ∀ {fs : List (String × Value)} {row : Value}, RowOk model row →
      (∀ e ∈ fs, ∃ f ∈ model.fields, f.name = e.1 ∧ (f.nullable = false → e.2 ≠ .null)) →
      RowOk model (row.setAll fs)
  | [], _, h, _ => h
  | e :: fs, row, h, hfs => by
    obtain ⟨f, hf, hname, hv⟩ := hfs e (List.mem_cons_self ..)
    rw [Value.setAll, List.foldl_cons, ← Value.setAll]
    exact rowOk_setAll hnd (hname ▸ rowOk_set hnd h hf hv)
      fun e he => hfs e (List.mem_cons_of_mem _ he)

/-- An accepted identity and an accepted state make a proper row. -/
theorem rowOk_mergeIdentity {key : RecordKey} {name : String} {identity st v : Value}
    {loader : Bool} (hm : e.schema.model name = .ok model)
    (hk : e.recordKey name identity = .ok key)
    (hs : e.schema.state e.codecs name st loader = .ok v) :
    RowOk model (mergeIdentity key.identity v) := by
  obtain ⟨hnd, -, hids⟩ := model_valid e.valid (model_mem hm)
  obtain ⟨model', g, hm', -, hid, hg⟩ := recordKey_spec hk
  obtain ⟨model'', g', hm'', hv, hg'⟩ := state_spec hs
  obtain rfl : model = model' := Except.ok.inj (hm.symm.trans hm')
  obtain rfl : model = model'' := Except.ok.inj (hm.symm.trans hm'')
  have hio : Value.obj key.identity.entries = key.identity := by
    rw [hid]; exact (Value.ofEntries_eq_obj _).symm
  have hget : ∀ f ∈ model.fields, ∃ w, (mergeIdentity key.identity v).get f.name = some w ∧
      (f.nullable = false → w ≠ .null) := by
    intro f hf
    rw [mergeIdentity, hio]
    by_cases hfi : f.name ∈ model.identity
    · -- identity fields are not among the entries of a state
      have hnot : f.name ∉ v.entries.map Prod.fst := by
        intro h
        obtain ⟨⟨k, w⟩, he, hk'⟩ := List.mem_map.mp h
        rw [hv] at he
        obtain ⟨f', hf', heq⟩ := List.mem_map.mp (Value.mem_entries_ofEntries he)
        have hne := (List.mem_filter.mp hf').2
        simp only [decide_eq_true_eq] at hne
        exact hne (by rw [(Prod.mk.inj heq).1, show k = f.name from hk']; exact hfi)
      obtain ⟨field, u, hfield, -, hnorm⟩ := hg f.name hfi
      rw [Value.get_setAll_of_notMem hnot, hid, get_ofEntries_map hfi]
      refine ⟨g f.name, rfl, fun hnull => normalizeValue_ne_null hnorm ?_⟩
      rw [field_of_mem hnd hf] at hfield
      exact Option.some.inj hfield ▸ hnull
    · have hf' : f ∈ Schema.stateFields model := List.mem_filter.mpr ⟨hf, by simpa using hfi⟩
      have hmem : f.name ∈ v.entries.map Prod.fst := by
        have ho : v.Ordered := hv ▸ Value.ordered_ofEntries _
        obtain ⟨w, -, hw⟩ := Value.get_setAll_of_mem (.obj [])
          (List.mem_map.mpr ⟨_, List.mem_map.mpr ⟨f, hf', rfl⟩, rfl⟩)
        have hw' : v.get f.name = some w := by rw [hv]; exact hw
        exact List.mem_map.mpr ⟨_, (Value.mem_entries_iff ho).mpr hw', rfl⟩
      obtain ⟨w, hw, hget⟩ := Value.get_setAll_of_mem key.identity hmem
      refine ⟨w, hget, fun hnull => ?_⟩
      rw [hv] at hw
      obtain ⟨f'', hf'', heq⟩ := List.mem_map.mp (Value.mem_entries_ofEntries hw)
      obtain ⟨hname, rfl⟩ := Prod.mk.inj heq
      obtain rfl : f'' = f :=
        List.inj_on_of_nodup_map hnd (List.mem_of_mem_filter hf'') hf hname
      obtain ⟨u, -, hu⟩ := hg' f'' hf''
      exact normalizeValue_ne_null hu hnull
  constructor
  · refine columns_eq_self ?_ fun k => ⟨fun hk' => ?_, fun hk' => ?_⟩
    · rw [mergeIdentity, hio]
      exact Value.ordered_setAll (hid ▸ Value.ordered_ofEntries _)
    · obtain ⟨f, hf, rfl⟩ := List.mem_map.mp hk'
      obtain ⟨w, hw, -⟩ := hget f hf
      simp [hw]
    · obtain ⟨w, hw⟩ := Option.isSome_iff_exists.mp hk'
      rw [mergeIdentity, hio] at hw
      rcases Value.get_setAll k v.entries key.identity with h | ⟨u, hu, -⟩
      · rw [h, hid] at hw
        obtain ⟨n, hn, heq⟩ := List.mem_map.mp (Value.get_ofEntries hw)
        obtain ⟨f, hf, -⟩ := hids n hn
        exact (Prod.mk.inj heq).1 ▸ List.mem_map.mpr ⟨f, field_mem hf, field_name hf⟩
      · rw [hv] at hu
        obtain ⟨f, hf, heq⟩ := List.mem_map.mp (Value.mem_entries_ofEntries hu)
        exact List.mem_map.mpr ⟨f, List.mem_of_mem_filter hf, (Prod.mk.inj heq).1⟩
  · simp only [notNull, List.all_eq_true, Bool.or_eq_true, Bool.not_eq_true']
    intro f hf
    obtain ⟨w, hw, hnn⟩ := hget f hf
    cases hn : f.nullable with
    | true => exact Or.inl rfl
    | false =>
      refine Or.inr ?_
      rw [Value.index, hw]
      simpa [Value.isNull] using hnn hn

end Rows

end AheadSync
