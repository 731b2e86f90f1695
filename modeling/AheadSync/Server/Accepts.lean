import AheadSync.Core.Valid
import AheadSync.Server.Config

/-! Which configurations a server loads: what each check of `Config::decode` asks, and when all of them
    pass. -/

namespace AheadSync

/-- What the check of a slot asks beside its name. -/
structure SlotLoads (schema : Schema) (slot : Slot) : Prop where
  patch : slot.operation = .update ∨ slot.allowedPatchFields = []
  model : ∃ model, schema.model slot.model = .ok model ∧ slot.allowedPatchFields.Nodup ∧
    ∀ f ∈ slot.allowedPatchFields, f ∉ model.identity ∧ (model.field f).isSome

/-- What the check of a binding asks. -/
def BindingLoads (schema : Schema) (slots : List Slot) (slot : Slot) (b : Binding) : Prop :=
  ∃ parent, slots.find? (·.name = b.slot) = some parent ∧ parent.cardinality = .single ∧
    ∃ target, schema.model parent.model = .ok target ∧ b.fields.length = target.identity.length ∧
      ∃ child, schema.model slot.model = .ok child ∧ ∀ f ∈ b.fields, (child.field f).isSome

/-- What the checks of a mutation ask beside its key. -/
structure MutationLoads (c : Config) (m : MutationDescriptor) : Prop where
  named : m.name ≠ ""
  version : 0 < m.version ∧ m.version ≤ maxSafeInteger
  schema : (c.inputSchema m).Valid
  distinct : (m.slots.map (·.name)).Nodup
  slots : ∀ slot ∈ m.slots, SlotLoads (c.inputSchema m) slot

/-- What the check of a read contract asks beside its key. -/
structure ContractLoads (schema : Schema) (m : ModelContract) : Prop where
  model : ∃ current, schema.model m.name = .ok current ∧ m.identity = current.identity
  version : 0 < m.version ∧ m.version ≤ maxSafeInteger
  valid : m.schema.Valid

variable {c : Config} {schema : Schema}

theorem checkCapability_loop_iff {model : ModelDescriptor} {fields : List String} :
    (∃ out, fields.foldlM (Config.checkCapability model) [] = .ok out) ↔
      fields.Nodup ∧ ∀ f ∈ fields, f ∉ model.identity ∧ (model.field f).isSome := by
  have h := List.foldlM_seen_ok_iff (f := Config.checkCapability model) (l := fields)
    (s := ([] : List String)) (Q := fun f => f ∉ model.identity ∧ (model.field f).isSome)
    (k := fun f => f) fun seen f _ out => by
      simp only [Config.checkCapability, Except.bind_eq_ok, ensure_eq_ok, Except.pure_eq_ok,
        exists_const]
  simpa using h

theorem checkSlot_loads_iff {seen out : List String} {slot : Slot} :
    Config.checkSlot schema seen slot = .ok out ↔
      (slot.name ∉ seen ∧ SlotLoads schema slot) ∧ slot.name :: seen = out := by
  simp only [Config.checkSlot, Except.bind_eq_ok, Except.mapError_eq_ok, ensure_eq_ok,
    Except.pure_eq_ok]
  constructor
  · rintro ⟨model, hm, _, hup, seen', hfields, _, hname, hout⟩
    exact ⟨⟨hname, hup, model, hm, checkCapability_loop_iff.mp ⟨seen', hfields⟩⟩, hout⟩
  · rintro ⟨⟨hname, hup, model, hm, hfields⟩, hout⟩
    obtain ⟨seen', hfields⟩ := checkCapability_loop_iff.mpr hfields
    exact ⟨model, hm, (), hup, seen', hfields, (), hname, hout⟩

theorem checkMutation_loads_iff {seen out : List (String × ℕ)} {m : MutationDescriptor} :
    c.checkMutation seen m = .ok out ↔
      ((m.name, m.version) ∉ seen ∧ MutationLoads c m) ∧ (m.name, m.version) :: seen = out := by
  have hslots : (∃ out, m.slots.foldlM (Config.checkSlot (c.inputSchema m)) [] = .ok out) ↔
      (m.slots.map (·.name)).Nodup ∧ ∀ slot ∈ m.slots, SlotLoads (c.inputSchema m) slot := by
    have h := List.foldlM_seen_ok_iff (f := Config.checkSlot (c.inputSchema m)) (l := m.slots)
      (s := ([] : List String)) (Q := SlotLoads (c.inputSchema m)) (k := fun s => s.name)
      fun seen slot _ out => checkSlot_loads_iff
    simpa using h
  simp only [Config.checkMutation, Except.bind_eq_ok, Except.mapError_eq_ok, ensure_eq_ok,
    Except.pure_eq_ok]
  constructor
  · rintro ⟨_, ⟨hnamed, hpos, hsafe, hnew⟩, _, hv, seen', hs, hout⟩
    obtain ⟨hnd, hall⟩ := hslots.mp ⟨seen', hs⟩
    exact ⟨⟨hnew, hnamed, ⟨hpos, hsafe⟩, Schema.validate_eq_ok.mp hv, hnd, hall⟩, hout⟩
  · rintro ⟨⟨hnew, h⟩, hout⟩
    obtain ⟨seen', hs⟩ := hslots.mpr ⟨h.distinct, h.slots⟩
    exact ⟨(), ⟨h.named, h.version.1, h.version.2, hnew⟩, (), Schema.validate_eq_ok.mpr h.schema,
      seen', hs, hout⟩

theorem checkBinding_loads_iff {m : MutationDescriptor} {slot : Slot} {b : Binding} :
    c.checkBinding m slot b = .ok () ↔ BindingLoads (c.inputSchema m) m.slots slot b := by
  simp only [Config.checkBinding, Except.bind_eq_ok, required_eq_ok, Except.mapError_eq_ok,
    ensure_eq_ok, List.all_eq_true]
  constructor
  · rintro ⟨parent, hp, target, ht, child, hc, hsingle, hlen, hf⟩
    exact ⟨parent, hp, hsingle, target, ht, hlen, child, hc, hf⟩
  · rintro ⟨parent, hp, hsingle, target, ht, hlen, child, hc, hf⟩
    exact ⟨parent, hp, target, ht, child, hc, hsingle, hlen, hf⟩

theorem checkContract_loads_iff {seen out : List (String × ℕ)} {m : ModelContract} :
    c.checkContract seen m = .ok out ↔
      ((m.name, m.version) ∉ seen ∧ ContractLoads c.schema m) ∧
        (m.name, m.version) :: seen = out := by
  simp only [Config.checkContract, Except.bind_eq_ok, Except.mapError_eq_ok, ensure_eq_ok,
    Except.pure_eq_ok]
  constructor
  · rintro ⟨current, hm, _, ⟨hpos, hsafe, hnew, hid⟩, _, hv, hout⟩
    exact ⟨⟨hnew, ⟨current, hm, hid⟩, ⟨hpos, hsafe⟩, Schema.validate_eq_ok.mp hv⟩, hout⟩
  · rintro ⟨⟨hnew, ⟨current, hm, hid⟩, ⟨hpos, hsafe⟩, hv⟩, hout⟩
    exact ⟨current, hm, (), ⟨hpos, hsafe, hnew, hid⟩, (), Schema.validate_eq_ok.mpr hv, hout⟩

/-- A configuration with retained contracts loads exactly when each of its parts does, keys are given
    once, and the schema's own contracts are retained. -/
theorem decode_ok_iff (hne : c.models ≠ []) : (∃ c', c.decode = .ok c') ↔
    c.schema.Valid ∧
    ((c.mutations.map fun m => (m.name, m.version)).Nodup ∧ ∀ m ∈ c.mutations, MutationLoads c m) ∧
    (∀ m ∈ c.mutations, ∀ slot ∈ m.slots, ∀ b ∈ slot.bindings,
      BindingLoads (c.inputSchema m) m.slots slot b) ∧
    (∀ loader ∈ c.loaders, ∃ model, c.schema.model loader = .ok model) ∧
    ((c.models.map fun m => (m.name, m.version)).Nodup ∧
      ∀ m ∈ c.models, ContractLoads c.schema m) ∧
    ∀ model ∈ c.schema.models, ∃ m ∈ c.models, m.name = model.name ∧ m.version = model.version := by
  have hmutations : (∃ out, c.mutations.foldlM c.checkMutation [] = .ok out) ↔
      (c.mutations.map fun m => (m.name, m.version)).Nodup ∧
        ∀ m ∈ c.mutations, MutationLoads c m := by
    have h := List.foldlM_seen_ok_iff (f := c.checkMutation) (l := c.mutations)
      (s := ([] : List (String × ℕ))) (Q := MutationLoads c) (k := fun m => (m.name, m.version))
      fun seen m _ out => checkMutation_loads_iff
    simpa using h
  have hcontracts : (∃ out, c.models.foldlM c.checkContract [] = .ok out) ↔
      (c.models.map fun m => (m.name, m.version)).Nodup ∧
        ∀ m ∈ c.models, ContractLoads c.schema m := by
    have h := List.foldlM_seen_ok_iff (f := c.checkContract) (l := c.models)
      (s := ([] : List (String × ℕ))) (Q := ContractLoads c.schema)
      (k := fun m => (m.name, m.version)) fun seen m _ out => checkContract_loads_iff
    simpa using h
  have hretained : ∀ {out}, c.models.foldlM c.checkContract [] = .ok out → ∀ model : ModelDescriptor,
      (model.name, model.version) ∈ out ↔
        ∃ m ∈ c.models, m.name = model.name ∧ m.version = model.version := fun {out} h model => by
    rw [List.foldlM_seen_out (k := fun m => (m.name, m.version))
      (fun _ _ _ hs => (checkContract_loads_iff.mp hs).2) h]
    simp
  simp only [Config.decode, if_neg hne, Except.bind_eq_ok, Except.mapError_eq_ok, List.forM_eq_ok,
    ensure_eq_ok, Except.pure_eq_ok, checkBinding_loads_iff]
  constructor
  · rintro ⟨_, _, hv, _, hm, _, hb, _, hl, retained, hc, _, hr, -⟩
    exact ⟨Schema.validate_eq_ok.mp hv, hmutations.mp ⟨_, hm⟩, hb,
      fun loader h => (hl loader h).imp fun _ h => h.1,
      hcontracts.mp ⟨_, hc⟩, fun model h => (hretained hc model).mp (hr model h)⟩
  · rintro ⟨hv, hm, hb, hl, hc, hr⟩
    obtain ⟨seen, hm⟩ := hmutations.mpr hm
    obtain ⟨retained, hc⟩ := hcontracts.mpr hc
    exact ⟨_, (), Schema.validate_eq_ok.mpr hv, seen, hm, (), hb, (),
      fun loader h => (hl loader h).imp fun _ h => ⟨h, trivial⟩,
      retained, hc, (), fun model h => (hretained hc model).mpr (hr model h), rfl⟩

end AheadSync
