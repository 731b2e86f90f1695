import AheadSync.Client.Query
import AheadSync.Core.Valid

/-! Following a relation from a row to the row it names, and back from a row to the rows that name it
    (`related` and `referencing` of `client/src/query.rs`). -/

namespace AheadSync

namespace Store

/-- The visible rows of a model. -/
def rowsOf (st : Store) (name : String) : List Value :=
  st.main.rows.filterMap fun (key, row) => if key.model = name then some row else none

end Store

/-- The filter of the inverse query: a local field and the value of the identity field it stands for.
    Collected into a map, a field listed twice keeps its last value. -/
def inverseFilter (relation : RelationDescriptor) (identity : Value) : SortedMap String Value :=
  .ofList ((relation.fields.zip relation.targetFields).map fun (l, t) => (l, identity.index t))

namespace Engine
variable (e : Engine)

/-- The row a relation of a record's row names. -/
def related (st : Store) (key : RecordKey) (name : String) : Except String (Option Value) := do
  let key ← e.recordKey key.model key.identity
  let model ← e.schema.model key.model
  let relation ← required (model.relations.find? (·.name = name)) "unknown relation"
  match st.main.lookup key with
  | none => return none
  | some row =>
    let identity := (relation.fields.zip relation.targetFields).map fun (l, t) => (t, row.index l)
    if identity.any (·.2.isNull) then return none
    return st.main.lookup (← e.recordKey relation.target (.ofEntries identity))

/-- The rows of a model whose relation names a record. -/
def referencing (st : Store) (key : RecordKey) (source name : String) :
    Except String (List Value) := do
  let key ← e.recordKey key.model key.identity
  let model ← e.schema.model source
  let relation ← required (model.relations.find? fun r => r.name = name ∧ r.target = key.model)
    "unknown inverse relation"
  e.evaluate source { filter := inverseFilter relation key.identity } (st.rowsOf source)

end Engine

/-- A row as a model's table holds it: under its own identity, with a normalized value in each
    column. -/
structure InTable (e : Engine) (model : ModelDescriptor) (key : RecordKey) (row : Value) : Prop where
  named : e.schema.model key.model = .ok model
  identity : key.identity = .ofEntries (model.identity.map fun n => (n, row.index n))
  typed : ∀ f ∈ model.fields, ∃ v, e.schema.normalizeValue e.codecs f v = .ok (row.index f.name)

/-- A row passes the inverse filter of a record. -/
def Passes (relation : RelationDescriptor) (key : RecordKey) (row : Value) : Prop :=
  ∀ x ∈ (inverseFilter relation key.identity).entries, row.index x.1 = x.2

/-- A row holds a record's identity in its relation fields. -/
def Holds (relation : RelationDescriptor) (key : RecordKey) (row : Value) : Prop :=
  ∀ lt ∈ relation.fields.zip relation.targetFields, row.index lt.1 = key.identity.index lt.2

/-- What the tables of a client's models can hold. -/
def TablesOk (e : Engine) (t : Table RecordKey Value) : Prop :=
  ∀ key row, t.lookup key = some row → ∃ model, InTable e model key row

section Keys
variable {e : Engine} {model : ModelDescriptor} {key : RecordKey} {row : Value}

theorem inTable_index (h : InTable e model key row) {n : String} (hn : n ∈ model.identity) :
    key.identity.index n = row.index n := by
  rw [h.identity, Value.index, get_ofEntries_map hn]
  rfl

theorem inTable_not_null (h : InTable e model key row) {n : String} (hn : n ∈ model.identity) :
    row.index n ≠ .null := by
  have hv := Schema.validate_eq_ok.mp e.valid
  obtain ⟨f, hf, hnull, -⟩ := (hv.models _ (model_mem h.named)).identity n hn
  obtain ⟨v, hv⟩ := h.typed f (field_mem hf)
  rw [field_name hf] at hv
  exact normalizeValue_ne_null hv hnull

/-- An identity made of normalized values is, when it is accepted, the key it stands under. -/
theorem recordKey_inTable (h : InTable e model key row) {key' : RecordKey}
    (h' : e.recordKey key.model key.identity = .ok key') : key' = key := by
  obtain ⟨m, g, hm, hname, hid, hg⟩ := recordKey_spec h'
  obtain rfl := Except.ok.inj (h.named.symm.trans hm)
  have hsame : ∀ n ∈ model.identity, g n = row.index n := by
    intro n hn
    obtain ⟨f, x, hf, hx, hgn⟩ := hg n hn
    obtain ⟨v, hv⟩ := h.typed f (field_mem hf)
    rw [h.identity, get_ofEntries_map hn] at hx
    obtain rfl := Option.some.inj hx
    rw [field_name hf] at hv
    exact normalizeValue_stable hv hgn
  obtain ⟨_, _⟩ := key
  obtain ⟨_, _⟩ := key'
  have hident := h.identity
  simp only at hname hid hident
  rw [hname, hid, hident, List.map_congr_left fun n hn => by rw [hsame n hn]]

theorem mem_rowsOf {st : Store} {name : String} :
    row ∈ st.rowsOf name ↔ ∃ key, key.model = name ∧ st.main.lookup key = some row := by
  simp only [Store.rowsOf, List.mem_filterMap, Prod.exists, AList.mem_rows]
  constructor
  · rintro ⟨key, row', hrow, h⟩
    split at h
    · rename_i hname
      obtain rfl := Option.some.inj h
      exact ⟨key, hname, hrow⟩
    · cases h
  · rintro ⟨key, hname, hrow⟩
    exact ⟨key, row, hrow, if_pos hname⟩

end Keys

/-- A relation as validation leaves it: one local field for each identity field of its target, of the
    same type. -/
structure Relates (e : Engine) (source : ModelDescriptor) (relation : RelationDescriptor)
    (target : ModelDescriptor) : Prop where
  found : e.schema.model relation.target = .ok target
  length : relation.fields.length = target.identity.length
  fields : relation.targetFields = target.identity
  typed : ∀ lt ∈ relation.fields.zip relation.targetFields, ∃ l r, source.field lt.1 = some l ∧
    target.field lt.2 = some r ∧ l.valueType = r.valueType

section Relations
variable {e : Engine} {st : Store} {source target : ModelDescriptor} {relation : RelationDescriptor}
  {key targetKey : RecordKey} {row targetRow : Value}

theorem relates_of_mem (hm : source ∈ e.schema.models) (hr : relation ∈ source.relations) :
    ∃ target, Relates e source relation target := by
  have hv := Schema.validate_eq_ok.mp e.valid
  have h := (hv.constraints source hm).2.2 relation hr
  simp only [Schema.validateRelation, Except.bind_eq_ok, ensure_eq_ok, List.forM_eq_ok,
    required_eq_ok] at h
  obtain ⟨target, hfound, -, ⟨-, hlength, hfields, -⟩, htyped⟩ := h
  refine ⟨target, hfound, hlength, hfields, fun lt hlt => ?_⟩
  obtain ⟨l, hl, r, hr, hty⟩ := htyped lt hlt
  exact ⟨l, r, hl, hr, hty⟩

theorem find_relation (hm : source ∈ e.schema.models) (hr : relation ∈ source.relations) :
    source.relations.find? (·.name = relation.name) = some relation :=
  List.find?_key ((Schema.validate_eq_ok.mp e.valid).constraints source hm).2.1 hr

theorem find_inverse (hm : source ∈ e.schema.models) (hr : relation ∈ source.relations)
    {model : String} {found : RelationDescriptor} (h : source.relations.find? (fun r =>
      r.name = relation.name ∧ r.target = model) = some found) : found = relation := by
  have hnd := ((Schema.validate_eq_ok.mp e.valid).constraints source hm).2.1
  have hname : found.name = relation.name ∧ found.target = model := by
    simpa using List.find?_some h
  exact List.inj_on_of_nodup_map hnd (List.mem_of_find?_eq_some h) hr hname.1

theorem find_inverse_self (hm : source ∈ e.schema.models) (hr : relation ∈ source.relations) :
    source.relations.find? (fun r => r.name = relation.name ∧ r.target = relation.target) =
      some relation := by
  obtain ⟨found, hfound⟩ : ∃ found, source.relations.find? (fun r =>
      r.name = relation.name ∧ r.target = relation.target) = some found :=
    Option.isSome_iff_exists.mp (List.find?_isSome.mpr ⟨relation, hr, by simp⟩)
  rw [hfound, find_inverse hm hr hfound]

/-- The pairs of a relation's fields, by the target's identity fields. -/
theorem relation_targets (h : Relates e source relation target) :
    (relation.fields.zip relation.targetFields).map Prod.snd = target.identity := by
  rw [List.map_snd_zip (by rw [h.length, h.fields]), h.fields]

theorem relation_locals (h : Relates e source relation target) :
    (relation.fields.zip relation.targetFields).map Prod.fst = relation.fields :=
  List.map_fst_zip (by rw [h.length, h.fields])

theorem relation_keys_nodup (h : Relates e source relation target) :
    (((relation.fields.zip relation.targetFields).map fun lt =>
      (lt.2, row.index lt.1)).map Prod.fst).Nodup := by
  have hv := Schema.validate_eq_ok.mp e.valid
  rw [List.map_map]
  exact (relation_targets h ▸ (hv.models _ (model_mem h.found)).nodup :
    ((relation.fields.zip relation.targetFields).map Prod.snd).Nodup)

/-- A normalized value that a field of the same type accepts is unchanged. -/
theorem normalizeValue_across {f g : FieldDescriptor} (hty : f.valueType = g.valueType)
    {v w u : Value} (h : e.schema.normalizeValue e.codecs f v = .ok w) (hw : w ≠ .null)
    (h' : e.schema.normalizeValue e.codecs g w = .ok u) : u = w := by
  unfold Schema.normalizeValue at h h'
  rw [if_neg (by simpa [Value.isNull] using hw), ← hty] at h'
  split at h
  · split at h
    · exact absurd (Except.ok.inj h).symm hw
    · cases h
  · exact value_stable h h'

/-- A row that holds the target's identity in its relation fields builds that identity. -/
theorem relation_identity (h : Relates e source relation target)
    (ht : InTable e target targetKey targetRow)
    (hrow : Holds relation targetKey row) :
    Value.ofEntries ((relation.fields.zip relation.targetFields).map fun lt =>
      (lt.2, row.index lt.1)) = targetKey.identity := by
  have hmap : (relation.fields.zip relation.targetFields).map (fun lt => (lt.2, row.index lt.1)) =
      target.identity.map fun n => (n, targetRow.index n) := by
    rw [← relation_targets h, List.map_map]
    refine List.map_congr_left fun lt hlt => ?_
    have hn : lt.2 ∈ target.identity := relation_targets h ▸ List.mem_map_of_mem hlt
    rw [Function.comp_apply, hrow lt hlt, inTable_index ht hn]
  rw [hmap, ht.identity]

/-- Following the relation reaches the target's row exactly when both identities are accepted and the
    row holds the target's identity. -/
theorem related_iff (hst : TablesOk e st.main) (hm : e.schema.model key.model = .ok source)
    (hr : relation ∈ source.relations) (hrow : st.main.lookup key = some row)
    (htarget : targetKey.model = relation.target) (htrow : st.main.lookup targetKey = some targetRow) :
    e.related st key relation.name = .ok (some targetRow) ↔
      Canonical e key ∧ Canonical e targetKey ∧ Holds relation targetKey row := by
  obtain ⟨target, hrel⟩ := relates_of_mem (model_mem hm) hr
  obtain ⟨source', hin⟩ := hst key row hrow
  obtain rfl := Except.ok.inj (hm.symm.trans hin.named)
  obtain ⟨target', htin⟩ := hst targetKey targetRow htrow
  have hnamed := htin.named
  rw [htarget] at hnamed
  obtain rfl := Except.ok.inj (hrel.found.symm.trans hnamed)
  simp only [Engine.related, Except.bind_eq_ok]
  constructor
  · rintro ⟨key', hkey', model, hmodel, relation', hfound, h⟩
    obtain rfl := recordKey_inTable hin hkey'
    obtain rfl := Except.ok.inj (hm.symm.trans hmodel)
    rw [required_eq_ok, find_relation (model_mem hm) hr] at hfound
    obtain rfl := Option.some.inj hfound
    rw [hrow] at h
    simp only at h
    split at h
    · cases Except.ok.inj h
    · simp only [Except.bind_eq_ok, Except.pure_eq_ok] at h
      obtain ⟨found, hfound, hlookup⟩ := h
      -- the record that is read holds the target's row, so it is the target
      obtain ⟨model, hfin⟩ := hst found targetRow hlookup
      have hfmodel := recordKey_model hfound
      have hfnamed := hfin.named
      rw [hfmodel] at hfnamed
      obtain rfl := Except.ok.inj (hrel.found.symm.trans hfnamed)
      obtain rfl : found = targetKey := by
        obtain ⟨_, _⟩ := found
        obtain ⟨_, _⟩ := targetKey
        rw [RecordKey.mk.injEq]
        exact ⟨hfmodel.trans htarget.symm, hfin.identity.trans htin.identity.symm⟩
      obtain ⟨model, g, hmodel, -, hid, hg⟩ := recordKey_spec hfound
      obtain rfl := Except.ok.inj (hrel.found.symm.trans hmodel)
      have hagree : Holds relation found row := by
        intro lt hlt
        have hn : lt.2 ∈ target.identity := relation_targets hrel ▸ List.mem_map_of_mem hlt
        obtain ⟨f, x, hf, hx, hgn⟩ := hg lt.2 hn
        rw [Value.get_ofEntries_of_mem (relation_keys_nodup hrel) (List.mem_map_of_mem hlt)] at hx
        obtain rfl := Option.some.inj hx
        obtain ⟨l, r, hl, hr, hty⟩ := hrel.typed lt hlt
        obtain rfl := Option.some.inj (hf.symm.trans hr)
        obtain ⟨v, hv⟩ := hin.typed l (field_mem hl)
        rw [field_name hl] at hv
        have hnull : row.index lt.1 ≠ .null := fun h0 => by
          rename_i hany
          refine hany (List.any_eq_true.mpr ⟨_, List.mem_map_of_mem hlt, ?_⟩)
          simp [h0, Value.isNull]
        rw [← normalizeValue_across hty hv hnull hgn, hid, Value.index, get_ofEntries_map hn]
        rfl
      refine ⟨hkey', ?_, hagree⟩
      rw [relation_identity hrel htin hagree] at hfound
      rw [Canonical, htarget]
      exact hfound
  · rintro ⟨hkey, htkey, hagree⟩
    refine ⟨key, hkey, source, hm, relation, ?_, ?_⟩
    · rw [required_eq_ok, find_relation (model_mem hm) hr]
    · rw [hrow]
      have hnull : ((relation.fields.zip relation.targetFields).map fun lt =>
          (lt.2, row.index lt.1)).any (·.2.isNull) = false := by
        rw [List.any_eq_false]
        rintro _ hx
        obtain ⟨lt, hlt, rfl⟩ := List.mem_map.mp hx
        have hn : lt.2 ∈ target.identity := relation_targets hrel ▸ List.mem_map_of_mem hlt
        simpa [Value.isNull, hagree lt hlt, inTable_index htin hn] using inTable_not_null htin hn
      have htkey' : e.recordKey relation.target (.ofEntries
          ((relation.fields.zip relation.targetFields).map fun lt => (lt.2, row.index lt.1))) =
            .ok targetKey := by
        rw [relation_identity hrel htin hagree, ← htarget]
        exact htkey
      simp only [hnull, Bool.false_eq_true, if_false, htkey', Except.ok_bind, htrow]
      rfl

/-- An entry of the inverse filter: a local field, and the target's value of one of the identity fields
    it stands for, which a query by that field asks for unchanged. -/
theorem inverseFilter_entry (h : Relates e source relation target)
    (ht : InTable e target targetKey targetRow) {x : String × Value}
    (hx : x ∈ (inverseFilter relation targetKey.identity).entries) :
    ∃ l n, source.field x.1 = some l ∧ l.valueType.isList = false ∧ n ∈ target.identity ∧
      x.2 = targetRow.index n ∧ (∀ w, e.schema.normalizeValue e.codecs l x.2 = .ok w → w = x.2) ∧
      (Canonical e targetKey → e.schema.normalizeValue e.codecs l x.2 = .ok x.2) := by
  obtain ⟨lt, hlt, rfl⟩ := List.mem_map.mp (SortedMap.mem_of_ofList hx)
  have hn : lt.2 ∈ target.identity := relation_targets h ▸ List.mem_map_of_mem hlt
  obtain ⟨l, r, hl, hr, hty⟩ := h.typed lt hlt
  obtain ⟨v, hv⟩ := ht.typed r (field_mem hr)
  rw [field_name hr] at hv
  have hnull := inTable_not_null ht hn
  have hscalar : r.valueType.isScalar := by
    obtain ⟨f, hf, hs⟩ := identity_scalar e.valid (model_mem h.found) hn
    rwa [Option.some.inj (hr.symm.trans hf)]
  refine ⟨l, lt.2, hl, ?_, hn, inTable_index ht hn, fun w hw => ?_, fun hc => ?_⟩
  · rw [hty]
    cases hrt : r.valueType with
    | list _ => simp [hrt, ValueType.isScalar] at hscalar
    | _ => rfl
  · simp only [inTable_index ht hn] at hw ⊢
    exact normalizeValue_across hty.symm hv hnull hw
  · obtain ⟨m, g, hm, -, hid, hg⟩ := recordKey_spec hc
    obtain rfl := Except.ok.inj (ht.named.symm.trans hm)
    obtain ⟨f, y, hf, hy, hgn⟩ := hg lt.2 hn
    obtain rfl := Option.some.inj (hr.symm.trans hf)
    rw [ht.identity, get_ofEntries_map hn] at hy
    obtain rfl := Option.some.inj hy
    rw [normalizeValue_stable hv hgn] at hgn
    simp only [inTable_index ht hn]
    unfold Schema.normalizeValue at hgn ⊢
    rw [if_neg (by simpa [Value.isNull] using hnull)] at hgn ⊢
    rw [hty]
    exact hgn

/-- Following the relation back finds the row exactly when the target's identity is accepted and the row
    passes the inverse filter. -/
theorem referencing_iff (hst : TablesOk e st.main) (hm : e.schema.model key.model = .ok source)
    (hr : relation ∈ source.relations) (hrow : st.main.lookup key = some row)
    (htarget : targetKey.model = relation.target) (htrow : st.main.lookup targetKey = some targetRow) :
    (∃ rows, e.referencing st targetKey key.model relation.name = .ok rows ∧ row ∈ rows) ↔
      Canonical e targetKey ∧ Passes relation targetKey row := by
  obtain ⟨target, hrel⟩ := relates_of_mem (model_mem hm) hr
  obtain ⟨target', htin⟩ := hst targetKey targetRow htrow
  have hnamed := htin.named
  rw [htarget] at hnamed
  obtain rfl := Except.ok.inj (hrel.found.symm.trans hnamed)
  have hentry := fun x hx => inverseFilter_entry hrel htin (x := x) hx
  have hmem : row ∈ st.rowsOf key.model := mem_rowsOf.mpr ⟨key, rfl, hrow⟩
  simp only [Engine.referencing, Except.bind_eq_ok]
  constructor
  · rintro ⟨rows, ⟨key', hkey', model, hmodel, relation', hfound, h⟩, hin⟩
    obtain rfl := recordKey_inTable htin hkey'
    obtain rfl := Except.ok.inj (hm.symm.trans hmodel)
    obtain rfl := find_inverse (model_mem hm) hr (required_eq_ok.mp hfound)
    obtain ⟨model, hmodel, filter, hfilter, -, rfl⟩ := evaluate_eq_ok.mp h
    obtain rfl := Except.ok.inj (hm.symm.trans hmodel)
    refine ⟨hkey', fun x hx => ?_⟩
    have hpass := (List.mem_filter.mp ((List.mem_insertionSort _).mp hin)).2
    obtain ⟨y, hy, hyx, l', hl', hnorm⟩ := List.forall₂_mem_left (queryFilter_eq_ok hfilter) hx
    obtain ⟨l, n, hl, -, -, -, hstable, -⟩ := hentry x hx
    obtain rfl := Option.some.inj (hl.symm.trans hl')
    have hy2 := hstable _ hnorm
    rw [← hyx, filterSql_iff.mp hpass y hy, hy2]
  · rintro ⟨hc, hpass⟩
    have hfilter : e.queryFilter source (inverseFilter relation targetKey.identity).entries =
        .ok ((inverseFilter relation targetKey.identity).entries.map id) := by
      refine List.mapM_eq_ok_of fun x hx => ?_
      obtain ⟨l, n, hl, hlist, -, -, -, hnorm⟩ := hentry x hx
      simp only [queryField, Except.bind_eq_ok, required_eq_ok, ensure_eq_ok, Except.pure_eq_ok]
      exact ⟨l, hl, (), by simp [hlist], x.2, hnorm hc, rfl⟩
    rw [List.map_id] at hfilter
    refine ⟨_, ⟨targetKey, hc, source, hm, relation, ?_, evaluate_eq_ok.mpr
      ⟨source, hm, _, hfilter, by simp, rfl⟩⟩, ?_⟩
    · rw [htarget, required_eq_ok]
      exact find_inverse_self (model_mem hm) hr
    · exact (List.mem_insertionSort _).mpr (List.mem_filter.mpr ⟨hmem, filterSql_iff.mpr hpass⟩)

theorem passes_of_holds (h : Holds relation targetKey row) : Passes relation targetKey row := by
  intro x hx
  obtain ⟨lt, hlt, rfl⟩ := List.mem_map.mp (SortedMap.mem_of_ofList hx)
  exact h lt hlt

/-- Where no local field is listed twice, the filter asks for every field. -/
theorem holds_of_passes (hrel : Relates e source relation target) (hnd : relation.fields.Nodup)
    (h : Passes relation targetKey row) : Holds relation targetKey row := by
  intro lt hlt
  have hkeys : (((relation.fields.zip relation.targetFields).map fun lt =>
      (lt.1, targetKey.identity.index lt.2)).map Prod.fst).Nodup := by
    have hlocals : ((relation.fields.zip relation.targetFields).map Prod.fst).Nodup := by
      rw [relation_locals hrel]
      exact hnd
    rw [List.map_map]
    exact hlocals
  exact h _ (SortedMap.lookup_eq_some_iff.mp
    (SortedMap.lookup_ofList_of_mem hkeys (List.mem_map_of_mem hlt)))

/-- A row with a null in a relation field is in no inverse answer: the filter asks for a value. -/
theorem notMem_referencing (hm : e.schema.model key.model = .ok source)
    (hr : relation ∈ source.relations) {l : String} (hl : l ∈ relation.fields)
    (hnull : row.index l = .null) {k : RecordKey} {rows : List Value}
    (h : e.referencing st k key.model relation.name = .ok rows) : row ∉ rows := by
  obtain ⟨target, hrel⟩ := relates_of_mem (model_mem hm) hr
  simp only [Engine.referencing, Except.bind_eq_ok] at h
  obtain ⟨k', hk, model, hmodel, relation', hfound, h⟩ := h
  obtain rfl := Except.ok.inj (hm.symm.trans hmodel)
  have hfound := required_eq_ok.mp hfound
  have htarget : relation'.target = k'.model := by
    have := List.find?_some hfound
    simp only [decide_eq_true_eq] at this
    exact this.2
  obtain rfl := find_inverse (model_mem hm) hr hfound
  obtain ⟨model, hmodel, filter, hfilter, -, rfl⟩ := evaluate_eq_ok.mp h
  obtain rfl := Except.ok.inj (hm.symm.trans hmodel)
  intro hin
  have hpass := (List.mem_filter.mp ((List.mem_insertionSort _).mp hin)).2
  -- the entry of the filter for the null field
  have hkey : l ∈ ((relation'.fields.zip relation'.targetFields).map fun lt =>
      (lt.1, k'.identity.index lt.2)).map Prod.fst := by
    rw [List.map_map]
    exact (relation_locals hrel).symm ▸ hl
  obtain ⟨v, hv⟩ := Option.isSome_iff_exists.mp (SortedMap.lookup_ofList_isSome.mpr hkey)
  have hentry := SortedMap.lookup_eq_some_iff.mp hv
  obtain ⟨lt, hlt, hlv⟩ := List.mem_map.mp (SortedMap.mem_of_ofList hentry)
  obtain ⟨rfl, rfl⟩ := Prod.mk.inj hlv
  have hn : lt.2 ∈ target.identity := relation_targets hrel ▸ List.mem_map_of_mem hlt
  have hvalue : k'.identity.index lt.2 ≠ .null := by
    obtain ⟨m, g, hm', hname, hid, hg⟩ := recordKey_spec hk
    rw [← hname, ← htarget] at hm'
    obtain rfl := Except.ok.inj (hrel.found.symm.trans hm')
    obtain ⟨f, hf, hfnull, -⟩ := ((Schema.validate_eq_ok.mp e.valid).models _
      (model_mem hrel.found)).identity _ hn
    obtain ⟨f', x, hf', -, hgn⟩ := hg _ hn
    obtain rfl := Option.some.inj (hf.symm.trans hf')
    rw [hid, Value.index, get_ofEntries_map hn]
    exact normalizeValue_ne_null hgn hfnull
  obtain ⟨y, hy, hyx, l', -, hnorm⟩ := List.forall₂_mem_left (queryFilter_eq_ok hfilter) hentry
  have hy2 := filterSql_iff.mp hpass y hy
  rw [hyx, hnull] at hy2
  unfold Schema.normalizeValue at hnorm
  rw [if_neg (by simpa [Value.isNull] using hvalue)] at hnorm
  exact value_ne_null hnorm hy2.symm

/-- A row with a null in a relation field leads to no row. -/
theorem related_null (hst : TablesOk e st.main) (hm : e.schema.model key.model = .ok source)
    (hr : relation ∈ source.relations) (hrow : st.main.lookup key = some row) {l : String}
    (hl : l ∈ relation.fields) (hnull : row.index l = .null) (r : Value) :
    e.related st key relation.name ≠ .ok (some r) := by
  intro h
  obtain ⟨target, hrel⟩ := relates_of_mem (model_mem hm) hr
  obtain ⟨source', hin⟩ := hst key row hrow
  simp only [Engine.related, Except.bind_eq_ok] at h
  obtain ⟨key', hkey', model, hmodel, relation', hfound, h⟩ := h
  obtain rfl := recordKey_inTable hin hkey'
  obtain rfl := Except.ok.inj (hm.symm.trans hmodel)
  rw [required_eq_ok, find_relation (model_mem hm) hr] at hfound
  obtain rfl := Option.some.inj hfound
  rw [hrow] at h
  simp only at h
  split at h
  · cases Except.ok.inj h
  · rename_i hany
    rw [← relation_locals hrel] at hl
    obtain ⟨lt, hlt, rfl⟩ := List.mem_map.mp hl
    refine hany (List.any_eq_true.mpr ⟨_, List.mem_map_of_mem hlt, ?_⟩)
    simp [hnull, Value.isNull]

end Relations

/-- A record's row is among those the inverse of a relation answers for a target exactly when following
    the relation from the record answers the target's row. -/
def Inverse (e : Engine) (st : Store) (relation : RelationDescriptor) (key : RecordKey) (row : Value)
    (targetKey : RecordKey) (targetRow : Value) : Prop :=
  (∃ rows, e.referencing st targetKey key.model relation.name = .ok rows ∧ row ∈ rows) ↔
    e.related st key relation.name = .ok (some targetRow)

/-- The two directions of a relation are inverse for a row and a target exactly when a row that passes
    the target's inverse filter also has an identity that is accepted again and holds the target's
    identity; a relation that lists no local field twice is inverse on every row of accepted identity;
    and a row with a null in a relation field is in no inverse answer and leads to no row. -/
theorem related_inverse {e : Engine} {st : Store} (hst : TablesOk e st.main)
    {source : ModelDescriptor} {key : RecordKey} {row : Value} {relation : RelationDescriptor}
    (hm : e.schema.model key.model = .ok source) (hr : relation ∈ source.relations)
    (hrow : st.main.lookup key = some row) :
    (∀ targetKey targetRow, targetKey.model = relation.target →
      st.main.lookup targetKey = some targetRow →
      (Inverse e st relation key row targetKey targetRow ↔
        (Canonical e targetKey → Passes relation targetKey row →
          Canonical e key ∧ Holds relation targetKey row)) ∧
      (relation.fields.Nodup → Canonical e key →
        Inverse e st relation key row targetKey targetRow)) ∧
    ((∃ l ∈ relation.fields, row.index l = .null) →
      (∀ k rows, e.referencing st k key.model relation.name = .ok rows → row ∉ rows) ∧
      ∀ r, e.related st key relation.name ≠ .ok (some r)) := by
  obtain ⟨target, hrel⟩ := relates_of_mem (model_mem hm) hr
  refine ⟨fun targetKey targetRow htarget htrow => ?_, ?_⟩
  · have hiff : Inverse e st relation key row targetKey targetRow ↔
        (Canonical e targetKey → Passes relation targetKey row →
          Canonical e key ∧ Holds relation targetKey row) := by
      have hpasses : Holds relation targetKey row → Passes relation targetKey row := passes_of_holds
      rw [Inverse, referencing_iff hst hm hr hrow htarget htrow,
        related_iff hst hm hr hrow htarget htrow]
      tauto
    exact ⟨hiff, fun hnd hkey => hiff.mpr fun _ hpass => ⟨hkey, holds_of_passes hrel hnd hpass⟩⟩
  · rintro ⟨l, hl, hnull⟩
    exact ⟨fun k rows h => notMem_referencing hm hr hl hnull h,
      related_null hst hm hr hrow hl hnull⟩

namespace Sample

/-- A relation of an item to its box. -/
def parent : RelationDescriptor := ⟨"parent", "Box", ["box"], ["id"], "none"⟩

/-- Item `a` in box `x`. -/
def inBox : Store where
  clientId := "me"
  main := (AList.put ∅ (item "a") (some (.ofEntries [("id", .str "a"), ("box", .str "x")]))).put
    ⟨"Box", identity "x"⟩ (some (identity "x"))

theorem inBox_ok : TablesOk loose inBox.main := by
  intro key row h
  simp only [inBox, AList.lookup_put] at h
  split_ifs at h with hbox hitem
  · obtain rfl := Option.some.inj h
    subst hbox
    exact ⟨_, rfl, by decide +kernel, fun f hf => ⟨(identity "x").index f.name,
      Except.eq_ok_of_toOption (by revert f; decide +kernel)⟩⟩
  · obtain rfl := Option.some.inj h
    subst hitem
    exact ⟨_, rfl, by decide +kernel, fun f hf =>
      ⟨(Value.ofEntries [("id", .str "a"), ("box", .str "x")]).index f.name,
        Except.eq_ok_of_toOption (by revert f; decide +kernel)⟩⟩
  · cases h

/-- Pairs, and links that name a pair by one field for both of its identity fields. -/
def pairs : Schema where
  models := [
    { name := "Pair", identity := ["x", "y"]
      fields := [⟨"x", .scalar .string, false, none⟩, ⟨"y", .scalar .string, false, none⟩] },
    { name := "Link", identity := ["id"]
      fields := [⟨"id", .scalar .string, false, none⟩, ⟨"a", .scalar .string, true, none⟩]
      relations := [⟨"pair", "Pair", ["a", "a"], ["x", "y"], "none"⟩] }]

def linking : Engine := ⟨codecs, pairs, by decide +kernel⟩

def pair : Value := .ofEntries [("x", .str "1"), ("y", .str "2")]

def link : Value := .ofEntries [("id", .str "l"), ("a", .str "2")]

/-- A link that holds the second half of a pair. -/
def linked : Store where
  clientId := "me"
  main := (AList.put ∅ ⟨"Link", identity "l"⟩ (some link)).put ⟨"Pair", pair⟩ (some pair)

theorem linked_ok : TablesOk linking linked.main := by
  intro key row h
  simp only [linked, AList.lookup_put] at h
  split_ifs at h with hpair hlink
  · obtain rfl := Option.some.inj h
    subst hpair
    exact ⟨_, rfl, by decide +kernel, fun f hf => ⟨pair.index f.name,
      Except.eq_ok_of_toOption (by revert f; decide +kernel)⟩⟩
  · obtain rfl := Option.some.inj h
    subst hlink
    exact ⟨_, rfl, by decide +kernel, fun f hf => ⟨link.index f.name,
      Except.eq_ok_of_toOption (by revert f; decide +kernel)⟩⟩
  · cases h

end Sample

/-- Item `a` is among the items of box `x` as its parent is box `x`. -/
theorem related_inverse_inBox : Inverse Sample.loose Sample.inBox Sample.parent (Sample.item "a")
    (.ofEntries [("id", .str "a"), ("box", .str "x")]) ⟨"Box", Sample.identity "x"⟩
    (Sample.identity "x") :=
  ((related_inverse Sample.inBox_ok rfl (List.mem_singleton.mpr rfl) (by decide +kernel)).1 _ _ rfl
    (by decide +kernel)).2 (by decide) (Except.eq_ok_of_toOption (by decide +kernel))

/-- A link that holds only the second half of a pair is among the links of that pair, and leads to no
    pair. -/
theorem not_related_inverse : ¬∀ (e : Engine) (st : Store), TablesOk e st.main →
    ∀ source key row relation, e.schema.model key.model = .ok source → relation ∈ source.relations →
      st.main.lookup key = some row → ∀ targetKey targetRow, targetKey.model = relation.target →
        st.main.lookup targetKey = some targetRow →
          Inverse e st relation key row targetKey targetRow := by
  intro hall
  have hinverse := hall Sample.linking Sample.linked Sample.linked_ok _ ⟨"Link", Sample.identity "l"⟩
    Sample.link _ rfl (List.mem_singleton.mpr rfl) (by decide +kernel) ⟨"Pair", Sample.pair⟩
    Sample.pair rfl (by decide +kernel)
  have hreferencing : Sample.linking.referencing Sample.linked ⟨"Pair", Sample.pair⟩ "Link" "pair" =
      .ok [Sample.link] := Except.eq_ok_of_toOption (by decide +kernel)
  have hrelated : Sample.linking.related Sample.linked ⟨"Link", Sample.identity "l"⟩ "pair" =
      .ok none := Except.eq_ok_of_toOption (by decide +kernel)
  have h := hinverse.mp ⟨_, hreferencing, List.mem_singleton.mpr rfl⟩
  cases Except.ok.inj (hrelated.symm.trans h)

end AheadSync
