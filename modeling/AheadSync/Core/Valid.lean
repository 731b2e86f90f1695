import AheadSync.Core.Normal

/-! What a valid schema is, check by check, and the schemas that stay valid when they keep only some
    models, some fields of them and the enums those fields use. -/

namespace AheadSync
namespace Schema

/-- The checks of one model that need no other model. -/
structure ModelValid (s : Schema) (m : ModelDescriptor) : Prop where
  reserved : reservedModelName m.name = false
  named : m.name ≠ "" ∧ m.identity ≠ []
  version : m.version ≠ 0 ∧ m.version ≤ maxSafeInteger
  fields : (m.fields.map (·.name)).Nodup ∧ "" ∉ m.fields.map (·.name)
  types : ∀ f ∈ m.fields, s.validateType f.valueType = .ok () ∧ ¬(f.valueType.isList ∧ f.nullable)
  nodup : m.identity.Nodup
  identity : ∀ n ∈ m.identity, ∃ f, m.field n = some f ∧ f.nullable = false ∧ f.valueType.isScalar

structure Valid (s : Schema) : Prop where
  nonempty : s.models ≠ []
  enums : (s.enums.map (·.name)).Nodup
  values : ∀ en ∈ s.enums, en.name ≠ "" ∧ en.values ≠ [] ∧ "" ∉ en.values ∧ en.values.Nodup
  names : (s.enums.map (·.name) ++ s.models.map (·.name)).Nodup
  models : ∀ m ∈ s.models, s.ModelValid m
  requirements : ∀ r ∈ s.requirements, ∃ m, s.model r.model = .ok m ∧ (m.field r.field).isSome ∧
    s.prerequisites.any (·.index "name" = .str r.name) ∧ r.arguments.entries.all (·.2 = "self")
  constraints : ∀ m ∈ s.models,
    (∀ fields ∈ m.unique, fields ≠ [] ∧ fields.Nodup ∧
      fields.all fun name => (m.field name).isSome) ∧
    (m.relations.map (·.name)).Nodup ∧ ∀ r ∈ m.relations, s.validateRelation m r = .ok ()

variable {s s' : Schema}

theorem validateModel_eq_ok {m : ModelDescriptor} : s.validateModel m = .ok () ↔ s.ModelValid m := by
  simp only [validateModel, Except.bind_eq_ok, ensure_eq_ok, List.forM_eq_ok, required_eq_ok]
  constructor
  · rintro ⟨_, h₁, _, h₂, _, h₃, _, h₄, _, h₅, _, h₆, h₇⟩
    refine ⟨by simpa using h₁, h₂, h₃, h₄, fun f hf => ?_, h₆, fun n hn => ?_⟩
    · obtain ⟨_, ht, hl⟩ := h₅ f hf
      exact ⟨ht, hl⟩
    · obtain ⟨f, hf, hnull⟩ := h₇ n hn
      exact ⟨f, hf, by simpa using hnull.1, hnull.2⟩
  · intro h
    refine ⟨(), by simp [h.reserved], (), h.named, (), h.version, (), h.fields, (),
      fun f hf => ⟨(), h.types f hf⟩, (), h.nodup, fun n hn => ?_⟩
    obtain ⟨f, hf, hnull, hs⟩ := h.identity n hn
    exact ⟨f, hf, by simp [hnull], hs⟩

theorem validate_eq_ok : s.validate = .ok () ↔ s.Valid := by
  simp only [validate, Except.bind_eq_ok, ensure_eq_ok, List.forM_eq_ok]
  constructor
  · rintro ⟨_, h₁, _, h₂, _, h₃, _, h₄, _, h₅, _, h₆, h₇⟩
    refine ⟨h₁, h₂, h₃, h₄, fun m hm => validateModel_eq_ok.mp (h₅ m hm), fun r hr => ?_,
      fun m hm => ?_⟩
    · obtain ⟨m, hm, _, hf, ha⟩ := h₆ r hr
      exact ⟨m, hm, hf.1, hf.2, ha⟩
    · obtain ⟨_, hu, _, hn, hr⟩ := h₇ m hm
      exact ⟨hu, hn, hr⟩
  · intro h
    refine ⟨(), h.nonempty, (), h.enums, (), h.values, (), h.names, (),
      fun m hm => validateModel_eq_ok.mpr (h.models m hm), (), fun r hr => ?_, fun m hm => ?_⟩
    · obtain ⟨m, hm, hf, hp, ha⟩ := h.requirements r hr
      exact ⟨m, hm, (), ⟨hf, hp⟩, ha⟩
    · obtain ⟨hu, hn, hr⟩ := h.constraints m hm
      exact ⟨(), hu, (), hn, hr⟩

theorem Valid.modelNames (h : s.Valid) : (s.models.map (·.name)).Nodup :=
  (List.nodup_append.mp h.names).2.1

/-- A model is found under its own name. -/
theorem Valid.model_of_mem (h : s.Valid) {m : ModelDescriptor} (hm : m ∈ s.models) :
    s.model m.name = .ok m :=
  required_eq_ok.mpr (List.find?_key h.modelNames hm)

/-- An enum is the only one of its name. -/
theorem Valid.enum_unique (h : s.Valid) {a b : EnumDescriptor} (ha : a ∈ s.enums)
    (hb : b ∈ s.enums) (hab : a.name = b.name) : a = b :=
  List.inj_on_of_nodup_map h.enums ha hb hab

/-- One model of a narrowed schema: its identity and some other fields, nothing that refers to
    other models, and every enum it uses. -/
structure Narrowed (s' : Schema) (m m' : ModelDescriptor) : Prop where
  name : m'.name = m.name
  version : m'.version ≠ 0 ∧ m'.version ≤ maxSafeInteger
  identity : m'.identity = m.identity
  fields : m'.fields.Sublist m.fields
  kept : ∀ f ∈ m.fields, f.name ∈ m.identity → f ∈ m'.fields
  enums : ∀ f ∈ m'.fields, ∀ en, f.valueType = .enum en → s'.enums.any (·.name = en)
  bare : m'.relations = [] ∧ m'.unique = []

/-- A valid schema narrowed to some of its models and fields is valid. -/
theorem Valid.narrow (h : s.Valid) (hne : s'.models ≠ []) (henums : s'.enums.Sublist s.enums)
    (hnames : (s'.models.map (·.name)).Sublist (s.models.map (·.name)))
    (hmodels : ∀ m' ∈ s'.models, ∃ m ∈ s.models, Narrowed s' m m')
    (hreq : s'.requirements = []) : s'.Valid := by
  have hen : (s'.enums.map (·.name)).Sublist (s.enums.map (·.name)) := henums.map _
  refine ⟨hne, h.enums.sublist hen, fun en hm => h.values en (henums.subset hm),
    h.names.sublist (hen.append hnames), fun m' hm' => ?_, by simp [hreq], fun m' hm' => ?_⟩
  · obtain ⟨m, hm, hn⟩ := hmodels m' hm'
    have hv := h.models m hm
    have hf : (m'.fields.map (·.name)).Sublist (m.fields.map (·.name)) := hn.fields.map _
    refine ⟨hn.name ▸ hv.reserved, ⟨hn.name ▸ hv.named.1, hn.identity ▸ hv.named.2⟩, hn.version,
      ⟨hv.fields.1.sublist hf, fun he => hv.fields.2 (hf.subset he)⟩, fun f hfm => ?_,
      hn.identity ▸ hv.nodup, fun n hnm => ?_⟩
    · obtain ⟨ht, hl⟩ := hv.types f (hn.fields.subset hfm)
      refine ⟨?_, hl⟩
      cases hty : f.valueType with
      | scalar name => rfl
      | enum name => simpa [validateType] using hn.enums f hfm name hty
      | list element => simpa [hty, validateType] using ht
    · rw [hn.identity] at hnm
      obtain ⟨f, hf', hnull, hs⟩ := hv.identity n hnm
      obtain rfl := field_name hf'
      exact ⟨f, field_of_mem (hv.fields.1.sublist hf) (hn.kept f (field_mem hf') hnm), hnull, hs⟩
  · obtain ⟨m, -, hn⟩ := hmodels m' hm'
    simp [hn.bare.1, hn.bare.2]

end Schema
end AheadSync
