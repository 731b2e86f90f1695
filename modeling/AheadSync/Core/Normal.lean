import AheadSync.Core.Schema

/-! What normalization guarantees: the shape of an accepted identity, state or patch, no null where
    one is not allowed, and that a normalized identity which is accepted again is unchanged. -/

namespace AheadSync

variable {c : Codecs} {s s' : Schema}

theorem scalar_ne_null {ty : ScalarType} {v w : Value} (h : scalar c ty v = .ok w) : w ≠ .null := by
  unfold scalar at h
  split at h <;> grind

theorem scalar_stable {ty : ScalarType} {v w u : Value} (h : scalar c ty v = .ok w)
    (h' : scalar c ty w = .ok u) : u = w := by
  have hd := @c.dateTime_stable
  have hu := @c.uuid_stable
  have hf := c.f64_stable
  unfold scalar at h
  split at h
  · cases h; simpa [scalar, eq_comm] using h'
  · cases h; simpa [scalar, eq_comm] using h'
  · simp only at h
    split at h
    · cases h
      simp only [scalar, hf] at h'
      grind
    · cases h
  · cases h
  · cases h
    simpa [scalar, hf, eq_comm] using h'
  · cases h
  · split at h
    · cases h
    · split at h
      · cases h
        simp only [scalar] at h'
        grind
      · cases h
  · cases h
  · split at h
    · cases h
    · split at h
      · cases h
      · cases h
        simp only [scalar] at h'
        grind
  · cases h
  · cases h

theorem value_ne_null {ty : ValueType} {v w : Value} (h : s.value c ty v = .ok w) : w ≠ .null := by
  cases ty with
  | scalar name => exact scalar_ne_null (by simpa [Schema.value] using h)
  | enum name =>
    unfold Schema.value at h
    split at h <;> grind
  | list element =>
    cases v <;> simp only [Schema.value, Except.bind_eq_ok, Except.pure_eq_ok, reduceCtorEq] at h
    obtain ⟨xs, -, rfl⟩ := h
    intro h
    cases h

/-- A normalized value that is accepted again is unchanged, also under another schema. -/
theorem value_stable : ∀ {ty : ValueType} {v w u : Value}, s.value c ty v = .ok w →
    s'.value c ty w = .ok u → u = w
  | .scalar name, v, w, u, h, h' => by
    rw [Schema.value] at h h'
    exact scalar_stable h h'
  | .enum name, v, w, u, h, h' => by
    cases v <;> simp only [Schema.value, reduceCtorEq] at h
    split at h
    · cases h
      rw [Schema.value] at h'
      split at h'
      · exact (Except.ok.inj h').symm
      · cases h'
    · cases h
  | .list element, v, w, u, h, h' => by
    cases v with
    | arr xs =>
      simp only [Schema.value, Except.bind_eq_ok, Except.pure_eq_ok] at h
      obtain ⟨ys, hys, rfl⟩ := h
      simp only [Schema.value, Except.bind_eq_ok, Except.pure_eq_ok] at h'
      obtain ⟨zs, hzs, rfl⟩ := h'
      obtain ⟨f, hf, rfl⟩ := List.mapM_eq_ok_map hys
      obtain ⟨g, hg, rfl⟩ := List.mapM_eq_ok_map hzs
      congr 1
      rw [List.map_map]
      refine List.map_congr_left fun x hx => ?_
      exact value_stable (hf x hx) (hg _ (List.mem_map_of_mem hx))
    | _ => simp [Schema.value] at h

theorem normalizeValue_ne_null {field : FieldDescriptor} {v w : Value}
    (h : s.normalizeValue c field v = .ok w) (hnull : field.nullable = false) : w ≠ .null := by
  unfold Schema.normalizeValue at h
  split at h
  · simp [hnull] at h
  · exact value_ne_null h

theorem normalizeValue_stable {field : FieldDescriptor} {v w u : Value}
    (h : s.normalizeValue c field v = .ok w) (h' : s'.normalizeValue c field w = .ok u) : u = w := by
  unfold Schema.normalizeValue at h
  split at h
  · split at h
    · cases h
      simp_all [Schema.normalizeValue, Value.isNull]
    · cases h
  · have hw : w ≠ .null := value_ne_null h
    simp only [Schema.normalizeValue, Value.isNull, hw, decide_false] at h'
    exact value_stable h h'

theorem model_name {name : String} {model : ModelDescriptor} (h : s.model name = .ok model) :
    model.name = name := by
  simpa using List.find?_some (required_eq_ok.mp h)

theorem model_mem {name : String} {model : ModelDescriptor} (h : s.model name = .ok model) :
    model ∈ s.models :=
  List.mem_of_find?_eq_some (required_eq_ok.mp h)

theorem field_name {model : ModelDescriptor} {name : String} {f : FieldDescriptor}
    (h : model.field name = some f) : f.name = name := by
  simpa using List.find?_some h

theorem field_mem {model : ModelDescriptor} {name : String} {f : FieldDescriptor}
    (h : model.field name = some f) : f ∈ model.fields :=
  List.mem_of_find?_eq_some h

/-- What an accepted identity looks like: its key holds one normalized value per identity field. -/
theorem recordKey_spec {name : String} {identity : Value} {key : RecordKey}
    (h : s.recordKey c name identity = .ok key) :
    ∃ model, ∃ g : String → Value, s.model name = .ok model ∧ key.model = name ∧
      key.identity = .ofEntries (model.identity.map fun n => (n, g n)) ∧
      ∀ n ∈ model.identity, ∃ field v, model.field n = some field ∧ identity.get n = some v ∧
        s.normalizeValue c field v = .ok (g n) := by
  simp only [Schema.recordKey, Except.bind_eq_ok, required_eq_ok, Except.pure_eq_ok] at h
  obtain ⟨model, hm, input, -, -, -, entries, hes, rfl⟩ := h
  obtain ⟨g, hg, rfl⟩ := List.mapM_eq_ok_map hes
  simp only [Except.bind_eq_ok, required_eq_ok, Except.pure_eq_ok] at hg
  refine ⟨model, fun n => (g n).2, hm, rfl, ?_, fun n hn => ?_⟩
  · refine congrArg Value.ofEntries (List.map_congr_left fun n hn => ?_)
    obtain ⟨_, _, _, _, w, _, hw⟩ := hg n hn
    simp only [← hw]
  · obtain ⟨field, hf, v, hv, w, hw, heq⟩ := hg n hn
    exact ⟨field, v, hf, hv, by simp only [hw, ← heq]⟩

theorem recordKey_model {name : String} {identity : Value} {key : RecordKey}
    (h : s.recordKey c name identity = .ok key) : key.model = name := by
  obtain ⟨_, _, _, hname, _⟩ := recordKey_spec h
  exact hname

theorem get_ofEntries_map {g : String → Value} {ns : List String} {n : String} (hn : n ∈ ns) :
    (Value.ofEntries (ns.map fun n => (n, g n))).get n = some (g n) := by
  obtain ⟨v, hv, hget⟩ := Value.get_setAll_of_mem (.obj [])
    (show n ∈ (ns.map fun n => (n, g n)).map Prod.fst by simpa using hn)
  obtain ⟨n', _, heq⟩ := List.mem_map.mp hv
  obtain ⟨rfl, rfl⟩ := Prod.mk.inj heq
  exact hget

/-- A normalized identity that is accepted again is unchanged. -/
theorem recordKey_stable {name : String} {identity : Value} {key key' : RecordKey}
    (h : s.recordKey c name identity = .ok key)
    (h' : s.recordKey c key.model key.identity = .ok key') : key' = key := by
  obtain ⟨model, g, hm, hname, hid, hg⟩ := recordKey_spec h
  obtain ⟨model', g', hm', hname', hid', hg'⟩ := recordKey_spec h'
  rw [hname, hm] at hm'
  obtain rfl := Except.ok.inj hm'
  have hgg : ∀ n ∈ model.identity, g' n = g n := fun n hn => by
    obtain ⟨field, v, hf, hv, hw⟩ := hg n hn
    obtain ⟨field', v', hf', hv', hw'⟩ := hg' n hn
    obtain rfl : field = field' := Option.some.inj (hf.symm.trans hf')
    rw [hid, get_ofEntries_map hn] at hv'
    obtain rfl := Option.some.inj hv'
    exact normalizeValue_stable hw hw'
  obtain ⟨m, i⟩ := key
  obtain ⟨m', i'⟩ := key'
  simp only at hname hname' hid hid'
  rw [hid, hid', hname', List.map_congr_left fun n hn => by rw [hgg n hn]]

/-- What an accepted state looks like: one normalized value per non-identity field. -/
theorem state_spec {name : String} {st v : Value} {loader : Bool}
    (h : s.state c name st loader = .ok v) :
    ∃ model, ∃ g : FieldDescriptor → Value, s.model name = .ok model ∧
      v = .ofEntries ((Schema.stateFields model).map fun f => (f.name, g f)) ∧
      ∀ f ∈ Schema.stateFields model, ∃ w, Schema.stateInput st f = .ok w ∧
        s.normalizeValue c f w = .ok (g f) := by
  simp only [Schema.state, Except.bind_eq_ok, required_eq_ok, Except.pure_eq_ok] at h
  obtain ⟨model, hm, input, -, -, -, entries, hes, rfl⟩ := h
  obtain ⟨g, hg, rfl⟩ := List.mapM_eq_ok_map hes
  simp only [Except.bind_eq_ok, Except.pure_eq_ok] at hg
  refine ⟨model, fun f => (g f).2, hm, ?_, fun f hf => ?_⟩
  · refine congrArg Value.ofEntries (List.map_congr_left fun f hf => ?_)
    obtain ⟨_, _, w, _, hw⟩ := hg f hf
    simp only [← hw]
  · obtain ⟨v, hv, w, hw, heq⟩ := hg f hf
    exact ⟨v, hv, by simp only [hw, ← heq]⟩

/-- An object built from one value for each field holds, for a field, its value. -/
theorem get_ofEntries_fields {fields : List FieldDescriptor} (hnd : (fields.map (·.name)).Nodup)
    {g : FieldDescriptor → Value} {f : FieldDescriptor} (hf : f ∈ fields) :
    (Value.ofEntries (fields.map fun f => (f.name, g f))).get f.name = some (g f) := by
  refine Value.get_ofEntries_of_mem ?_ (List.mem_map.mpr ⟨f, hf, rfl⟩)
  rw [List.map_map]
  exact hnd

theorem get_ofEntries_none {fields : List FieldDescriptor} {g : FieldDescriptor → Value} {n : String}
    (h : ∀ f ∈ fields, f.name ≠ n) :
    (Value.ofEntries (fields.map fun f => (f.name, g f))).get n = none := by
  refine Value.get_setAll_of_notMem fun hn => ?_
  obtain ⟨e, he, rfl⟩ := List.mem_map.mp hn
  obtain ⟨f, hf, rfl⟩ := List.mem_map.mp he
  exact h f hf rfl

theorem nodup_stateFields {model : ModelDescriptor} (h : (model.fields.map (·.name)).Nodup) :
    ((Schema.stateFields model).map (·.name)).Nodup :=
  h.sublist (List.filter_sublist.map _)

/-- What an accepted patch looks like: normalized values of non-identity fields. -/
theorem patch_spec {name : String} {patch v : Value} (h : s.validatePatch c name patch = .ok v) :
    ∃ model, s.model name = .ok model ∧ v.asObject = some v.entries ∧
      ∀ e ∈ v.entries, e.1 ∉ model.identity ∧
        ∃ field w, model.field e.1 = some field ∧ s.normalizeValue c field w = .ok e.2 := by
  simp only [Schema.validatePatch, Except.bind_eq_ok, required_eq_ok, Except.pure_eq_ok] at h
  obtain ⟨model, hm, input, -, entries, hes, rfl⟩ := h
  refine ⟨model, hm, by rw [Value.ofEntries_eq_obj]; rfl, fun e he => ?_⟩
  obtain ⟨g, hg, rfl⟩ := List.mapM_eq_ok_map hes
  obtain ⟨a, ha, rfl⟩ := List.mem_map.mp (Value.mem_entries_ofEntries he)
  simp only [Except.bind_eq_ok, ensure_eq_ok, required_eq_ok, Except.pure_eq_ok] at hg
  obtain ⟨-, hid, field, hf, w, hw, heq⟩ := hg a ha
  rw [← heq]
  exact ⟨hid, field, a.2, hf, hw⟩

theorem validateModel_of_valid (hv : s.validate = .ok ()) {model : ModelDescriptor}
    (hm : model ∈ s.models) : s.validateModel model = .ok () := by
  simp only [Schema.validate, Except.bind_eq_ok, List.forM_eq_ok] at hv
  obtain ⟨_, _, _, _, _, _, _, _, _, hmodels, _⟩ := hv
  exact hmodels model hm

/-- What validation guarantees of one model. -/
theorem model_valid (hv : s.validate = .ok ()) {model : ModelDescriptor} (hm : model ∈ s.models) :
    (model.fields.map (·.name)).Nodup ∧ model.identity ≠ [] ∧
      ∀ n ∈ model.identity, ∃ f, model.field n = some f ∧ f.nullable = false := by
  have h := validateModel_of_valid hv hm
  simp only [Schema.validateModel, Except.bind_eq_ok, List.forM_eq_ok, ensure_eq_ok,
    required_eq_ok] at h
  obtain ⟨_, _, _, hid, _, _, _, hf, _, _, _, _, hidf⟩ := h
  refine ⟨hf.1, hid.2, fun n hn => ?_⟩
  obtain ⟨f, hf, hnull⟩ := hidf n hn
  exact ⟨f, hf, by simpa using hnull.1⟩

/-- Identity fields are scalar. -/
theorem identity_scalar (hv : s.validate = .ok ()) {model : ModelDescriptor} (hm : model ∈ s.models)
    {n : String} (hn : n ∈ model.identity) :
    ∃ f, model.field n = some f ∧ f.valueType.isScalar := by
  have h := validateModel_of_valid hv hm
  simp only [Schema.validateModel, Except.bind_eq_ok, List.forM_eq_ok, ensure_eq_ok,
    required_eq_ok] at h
  obtain ⟨_, _, _, _, _, _, _, _, _, _, _, _, hidf⟩ := h
  obtain ⟨f, hf, hnull⟩ := hidf n hn
  exact ⟨f, hf, hnull.2⟩

/-- A field is found under its own name. -/
theorem field_of_mem {model : ModelDescriptor} (hnd : (model.fields.map (·.name)).Nodup)
    {f : FieldDescriptor} (hf : f ∈ model.fields) : model.field f.name = some f :=
  List.find?_key hnd hf

end AheadSync
