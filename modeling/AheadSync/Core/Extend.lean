import AheadSync.Core.Valid

/-! Schemas that extend another: models with the same identities and at least the same fields, enums
    with at least the same values. What a schema normalizes, they normalize to the same. Schemas that
    agree on the identity of a model alone read its records alike. -/

namespace AheadSync

/-- A model with the same identity and at least the same fields. -/
structure ModelDescriptor.Extends (m m' : ModelDescriptor) : Prop where
  identity : m'.identity = m.identity
  field : ∀ {n f}, m.field n = some f → m'.field n = some f

namespace Schema

structure Extends (s s' : Schema) : Prop where
  enums : ∀ name x, (s.enums.any fun en => en.name = name ∧ x ∈ en.values) →
    s'.enums.any fun en => en.name = name ∧ x ∈ en.values
  models : ∀ {name m}, s.model name = .ok m → ∃ m', s'.model name = .ok m' ∧ m.Extends m'

variable {c : Codecs} {s s' : Schema}

theorem Extends.value (h : Extends s s') : ∀ {ty : ValueType} {v w : Value},
    s.value c ty v = .ok w → s'.value c ty v = .ok w
  | .scalar name, v, w, hv => by
    rw [Schema.value] at hv ⊢
    exact hv
  | .enum name, v, w, hv => by
    cases v <;> simp only [Schema.value, reduceCtorEq] at hv
    split at hv
    · rename_i hany
      rw [Schema.value, if_pos (h.enums name _ hany)]
      exact hv
    · cases hv
  | .list element, v, w, hv => by
    cases v <;> simp only [Schema.value, Except.bind_eq_ok, Except.pure_eq_ok, reduceCtorEq] at hv
    obtain ⟨ys, hys, rfl⟩ := hv
    simp only [Schema.value, Except.bind_eq_ok, Except.pure_eq_ok]
    refine ⟨ys, List.mapM_eq_ok_iff.mpr ?_, rfl⟩
    exact (List.mapM_eq_ok_iff.mp hys).imp fun x y hxy => h.value hxy

theorem Extends.normalizeValue (h : Extends s s') {f : FieldDescriptor} {v w : Value}
    (hv : s.normalizeValue c f v = .ok w) : s'.normalizeValue c f v = .ok w := by
  unfold Schema.normalizeValue at hv ⊢
  split at hv
  · rename_i hnull
    rw [if_pos hnull]
    exact hv
  · rename_i hnull
    rw [if_neg hnull]
    exact h.value hv

theorem Extends.recordKey (h : Extends s s') {name : String} {identity : Value} {key : RecordKey}
    (hk : s.recordKey c name identity = .ok key) : s'.recordKey c name identity = .ok key := by
  simp only [Schema.recordKey, Except.bind_eq_ok, required_eq_ok, ensure_eq_ok,
    Except.pure_eq_ok] at hk ⊢
  obtain ⟨m, hm, input, hin, _, hids, entries, hes, rfl⟩ := hk
  obtain ⟨m', hm', hext⟩ := h.models hm
  refine ⟨m', hm', input, hin, (), hext.identity ▸ hids, entries, ?_, rfl⟩
  rw [hext.identity, List.mapM_eq_ok_iff]
  refine (List.mapM_eq_ok_iff.mp hes).imp fun n e he => ?_
  simp only [Except.bind_eq_ok, required_eq_ok, Except.pure_eq_ok] at he ⊢
  obtain ⟨f, hf, v, hv, w, hw, rfl⟩ := he
  exact ⟨f, hext.field hf, v, hv, w, h.normalizeValue hw, rfl⟩

/-- Where both schemas know a model, its identity has the same fields of the same types. -/
def IdentityAlike (s s' : Schema) (name : String) : Prop :=
  ∀ m m', s.model name = .ok m → s'.model name = .ok m' → m'.identity = m.identity ∧
    ∀ n ∈ m.identity, ∀ f f', m.field n = some f → m'.field n = some f' →
      f'.valueType = f.valueType ∧ f'.nullable = f.nullable

theorem IdentityAlike.refl {name : String} : IdentityAlike s s name := by
  intro m m' hm hm'
  obtain rfl := Except.ok.inj (hm.symm.trans hm')
  refine ⟨rfl, fun n _ f f' hf hf' => ?_⟩
  obtain rfl := Option.some.inj (hf.symm.trans hf')
  exact ⟨rfl, rfl⟩

/-- Schemas with the same identities read an identity alike. -/
theorem IdentityAlike.recordKey {name : String} (h : IdentityAlike s s' name) (hv : s'.Valid)
    {m' : ModelDescriptor} (hm' : s'.model name = .ok m') {identity : Value} {key : RecordKey}
    (hk : s.recordKey c name identity = .ok key) : s'.recordKey c name identity = .ok key := by
  simp only [Schema.recordKey, Except.bind_eq_ok, required_eq_ok, ensure_eq_ok,
    Except.pure_eq_ok] at hk ⊢
  obtain ⟨m, hm, input, hin, _, hids, entries, hes, rfl⟩ := hk
  obtain ⟨hid, htypes⟩ := h m m' hm hm'
  obtain ⟨g, hg, rfl⟩ := List.mapM_eq_ok_map hes
  refine ⟨m', hm', input, hin, (), hid ▸ hids, _, hid ▸ List.mapM_eq_ok_of fun n hn => ?_, rfl⟩
  have hread := hg n (hid ▸ hn)
  simp only [Except.bind_eq_ok, required_eq_ok, Except.pure_eq_ok] at hread ⊢
  obtain ⟨f, hf, v, hget, w, hw, heq⟩ := hread
  obtain ⟨f', hf', -, hscalar⟩ := (hv.models m' (model_mem hm')).identity n hn
  obtain ⟨htype, hnullable⟩ := htypes n (hid ▸ hn) f f' hf hf'
  refine ⟨f', hf', v, hget, w, ?_, heq⟩
  -- a scalar is read without the schema it stands in
  cases hty : f.valueType with
  | scalar ty =>
    unfold Schema.normalizeValue at hw ⊢
    split at hw
    · rename_i hnull
      rw [if_pos hnull, hnullable]
      split at hw
      · rename_i hsome
        rw [if_pos hsome]
        exact hw
      · cases hw
    · rename_i hnull
      rw [if_neg hnull, htype, hty, Schema.value]
      rw [hty, Schema.value] at hw
      exact hw
  | enum _ => simp [htype, hty, ValueType.isScalar] at hscalar
  | list _ => simp [htype, hty, ValueType.isScalar] at hscalar

end Schema
end AheadSync
