import AheadSync.Compiler.Contracts
import AheadSync.Core.Extend

/-! The history of mutation inputs: what a run of the compiler records of a mutation, and how an input
    recorded later under the same version extends the earlier one. -/

namespace AheadSync
namespace Compiler

/-- The schema a mutation's input is read under. -/
def MutationSnapshot.input (s : MutationSnapshot) : Schema := { enums := s.enums, models := s.models }

/-- A retained version of a mutation as the server loads it. -/
def MutationSnapshot.descriptor (s : MutationSnapshot) : MutationDescriptor where
  name := s.name
  version := s.version
  slots := s.slots.map (·.slot)
  input := some s.input
  knownFields := s.knownFields

/-- Some slot creates records of a model. -/
def Creates (slots : List SlotDescriptor) (model : String) : Prop :=
  ∃ s ∈ slots, s.model = model ∧ s.operation = .create

/-- What is known of a recorded input. -/
structure InputRecorded (name : String) (n : ℕ) (s : MutationSnapshot) : Prop where
  name : s.name = name
  version : s.version = n
  named : s.name ≠ ""
  safe : 0 < n ∧ n ≤ maxSafeInteger
  valid : s.input.Valid
  distinct : (s.slots.map (·.name)).Nodup
  restricted : ∀ slot ∈ s.slots, slot.allowedPatchFields.isSome ↔ slot.operation = .update
  slots : ∀ slot ∈ s.slots, ∃ model, s.input.model slot.model = .ok model ∧
    (slot.allowedPatchFields.getD []).Nodup ∧
    ∀ f ∈ slot.allowedPatchFields.getD [], f ∉ model.identity ∧ (model.field f).isSome
  bindings : ∀ slot ∈ s.slots, ∀ b ∈ slot.bindings, ∃ parent,
    s.slots.find? (·.name = b.slot) = some parent ∧ parent.cardinality = .single ∧
      ∃ model, s.input.model parent.model = .ok model ∧ b.fields.length = model.identity.length
  known : ∀ {name model}, s.input.model name = .ok model → ∃ names,
    s.knownFields.lookup name = some names ∧
      (Creates s.slots name → ∀ f ∈ names, (model.field f).isSome)

/-- A later input keeps the slots, models, fields and enum values of an earlier one. Updates may change
    more, and what is created may have more nullable fields. -/
structure ExtendsInput (old new : MutationSnapshot) : Prop where
  slots : List.Forall₂ (fun a b => compatibleSlot a b = true) old.slots new.slots
  enums : ∀ en ∈ old.enums, ∃ next, new.enums.find? (·.name = en.name) = some next ∧
    ∀ x ∈ en.values, x ∈ next.values
  models : ∀ m ∈ old.models, ∃ next, new.models.find? (·.name = m.name) = some next ∧
    next.identity = m.identity ∧ (∀ f ∈ m.fields, next.fields.find? (·.name = f.name) = some f) ∧
    (Creates new.slots m.name → ∀ f ∈ next.fields, m.fields.find? (·.name = f.name) = none →
      f.nullable = true)
  distinct : ∀ m ∈ new.models, (m.fields.map (·.name)).Nodup

/-! ### Slots -/

theorem compatibleSlot_iff {a b : SlotDescriptor} : compatibleSlot a b = true ↔
    (b.name = a.name ∧ b.model = a.model ∧ b.operation = a.operation ∧
      b.cardinality = a.cardinality ∧ b.bindings = a.bindings) ∧
    ∀ f ∈ a.allowedPatchFields.getD [], f ∈ b.allowedPatchFields.getD [] := by
  obtain ⟨an, am, ao, ac, ap, ab⟩ := a
  obtain ⟨bn, bm, bo, bc, bp, bb⟩ := b
  cases ap with
  | none => simp [compatibleSlot]; grind
  | some fields => simp [compatibleSlot]; grind

theorem compatibleSlot_trans (a b c : SlotDescriptor) (h : compatibleSlot a b = true)
    (h' : compatibleSlot b c = true) : compatibleSlot a c = true := by
  rw [compatibleSlot_iff] at *
  grind

/-- Compatible slots create records of the same models. -/
theorem creates_iff {a b : List SlotDescriptor}
    (h : List.Forall₂ (fun a b => compatibleSlot a b = true) a b) {model : String} :
    Creates a model ↔ Creates b model := by
  constructor
  · rintro ⟨s, hs, hm, ho⟩
    obtain ⟨t, ht, hst⟩ := List.forall₂_mem_left h hs
    obtain ⟨⟨-, hm', ho', -⟩, -⟩ := compatibleSlot_iff.mp hst
    exact ⟨t, ht, hm'.trans hm, ho'.trans ho⟩
  · rintro ⟨t, ht, hm, ho⟩
    obtain ⟨s, hs, hst⟩ := List.forall₂_mem h ht
    obtain ⟨⟨-, hm', ho', -⟩, -⟩ := compatibleSlot_iff.mp hst
    exact ⟨s, hs, hm'.symm.trans hm, ho'.symm.trans ho⟩

theorem ExtendsInput.trans (a b c : MutationSnapshot) (h : ExtendsInput a b)
    (h' : ExtendsInput b c) : ExtendsInput a c where
  slots := List.forall₂_trans compatibleSlot_trans h.slots h'.slots
  enums en hen := by
    obtain ⟨next, hnext, hvalues⟩ := h.enums en hen
    obtain ⟨last, hlast, hvalues'⟩ := h'.enums next (List.mem_of_find?_eq_some hnext)
    have hname : next.name = en.name := by simpa using List.find?_some hnext
    exact ⟨last, hname ▸ hlast, fun x hx => hvalues' x (hvalues x hx)⟩
  models m hm := by
    obtain ⟨next, hnext, hid, hfields, hadded⟩ := h.models m hm
    have hmem := List.mem_of_find?_eq_some hnext
    obtain ⟨last, hlast, hid', hfields', hadded'⟩ := h'.models next hmem
    have hname : next.name = m.name := by simpa using List.find?_some hnext
    rw [hname] at hlast hadded'
    have hdistinct := h'.distinct last (List.mem_of_find?_eq_some hlast)
    refine ⟨last, hlast, hid'.trans hid,
      fun f hf => hfields' f (List.mem_of_find?_eq_some (hfields f hf)), fun hcr f hf hnone => ?_⟩
    cases hb : next.fields.find? (·.name = f.name) with
    | none => exact hadded' hcr f hf hb
    | some g =>
      have hg := List.mem_of_find?_eq_some hb
      have hgl := List.mem_of_find?_eq_some (hfields' g hg)
      obtain rfl := List.inj_on_of_nodup_map hdistinct hgl hf (by simpa using List.find?_some hb)
      exact hadded ((creates_iff h'.slots).mpr hcr) g hg hnone
  distinct := h'.distinct

theorem compatibleModel_iff {slots : List SlotDescriptor} {old new : ModelDescriptor} :
    compatibleModel slots old new = true ↔ new.identity = old.identity ∧
      (∀ f ∈ old.fields, new.fields.find? (·.name = f.name) = some f) ∧
      (Creates slots old.name → ∀ f ∈ new.fields,
        old.fields.find? (·.name = f.name) = none → f.nullable = true) := by
  have hcreates : (slots.any fun s => s.model = old.name && s.operation = .create) = true ↔
      Creates slots old.name := by simp [Creates]
  simp only [compatibleModel, Bool.and_eq_true, Bool.or_eq_true, Bool.not_eq_true',
    decide_eq_true_eq, List.all_eq_true, ← Bool.not_eq_true, hcreates, and_assoc,
    eq_comm (a := old.identity), Option.isSome_iff_ne_none]
  grind

/-- The compatibility check passes exactly when an input extends the published one, and requires and
    orders the same. -/
theorem compatible_iff {old new : MutationSnapshot}
    (hd : ∀ m ∈ new.models, (m.fields.map (·.name)).Nodup) : compatible old new = true ↔
      ExtendsInput old new ∧ old.requirements = new.requirements ∧ old.sequence = new.sequence := by
  have hslots : (old.slots.length = new.slots.length ∧
      ∀ p ∈ old.slots.zip new.slots, compatibleSlot p.1 p.2 = true) ↔
      List.Forall₂ (fun a b => compatibleSlot a b = true) old.slots new.slots := by
    rw [List.forall₂_iff_zip]
    exact and_congr_right fun _ => ⟨fun h a b hab => h (a, b) hab, fun h p hp => h hp⟩
  constructor
  · intro h
    simp only [compatible, Bool.and_eq_true, decide_eq_true_eq, List.all_eq_true] at h
    obtain ⟨⟨⟨⟨hlen, hs⟩, he⟩, hm⟩, hr, hq⟩ := h
    refine ⟨⟨hslots.mp ⟨hlen, hs⟩, fun en hen => ?_, fun m hmem => ?_, hd⟩, hr, hq⟩
    · have hnext := he en hen
      cases hf : new.enums.find? (·.name = en.name) with
      | none => simp [hf] at hnext
      | some next => exact ⟨next, rfl, by simpa [hf] using hnext⟩
    · have hnext := hm m hmem
      cases hf : new.models.find? (·.name = m.name) with
      | none => simp [hf] at hnext
      | some next => exact ⟨next, rfl, compatibleModel_iff.mp (by simpa only [hf] using hnext)⟩
  · rintro ⟨h, hr, hq⟩
    obtain ⟨hlen, hs⟩ := hslots.mpr h.slots
    simp only [compatible, Bool.and_eq_true, decide_eq_true_eq, List.all_eq_true]
    refine ⟨⟨⟨⟨hlen, hs⟩, fun en hen => ?_⟩, fun m hmem => ?_⟩, hr, hq⟩
    · obtain ⟨next, hf, hvalues⟩ := h.enums en hen
      simpa [hf] using hvalues
    · obtain ⟨next, hf, hcompatible⟩ := h.models m hmem
      simpa only [hf] using compatibleModel_iff.mpr hcompatible

/-! ### Captures -/

section Capture
variable {v : Validated} {m : MutationDef} {model : ModelDescriptor}

/-- The models a mutation's slots name. -/
def usedModels (v : Validated) (m : MutationDef) : List ModelDescriptor :=
  v.models.filter fun model => m.rendered.slots.any (·.model = model.name)

theorem mem_usedModels : model ∈ usedModels v m ↔
    model ∈ v.models ∧ ∃ s ∈ m.rendered.slots, s.model = model.name := by
  simp [usedModels]

theorem capture_models : (capture (descriptors v) m.rendered).models =
    (usedModels v m).map (captureInput m.rendered.slots) := rfl

theorem mem_captured {slots : List SlotDescriptor} {f : FieldDescriptor} :
    f ∈ (captureInput slots model).fields ↔ f ∈ model.fields ∧
      (f.name ∈ model.identity ∨ ∃ s ∈ slots, s.model = model.name ∧ s.selects f.name = true) := by
  simp [captureInput]

/-- A field is captured when the mutation reads it. -/
theorem captured_field {slots : List SlotDescriptor} {n : String}
    (hn : (model.field n).isSome)
    (hsel : n ∈ model.identity ∨ ∃ s ∈ slots, s.model = model.name ∧ s.selects n = true) :
    ((captureInput slots model).field n).isSome := by
  obtain ⟨f, hf⟩ := Option.isSome_iff_exists.mp hn
  obtain rfl := field_name hf
  exact List.find?_isSome.mpr ⟨f, mem_captured.mpr ⟨field_mem hf, hsel⟩, by simp⟩

theorem capture_valid (hv : Accepted v) (hm : m ∈ v.mutations) :
    (capture (descriptors v) m.rendered).input.Valid := by
  have hs : v.schema.Valid := Schema.validate_eq_ok.mp hv.schema
  have hacc := hv.mutations m hm
  refine hs.narrow ?_ List.filter_sublist ?_ ?_ rfl
  · obtain ⟨slot, hslot⟩ := List.exists_mem_of_ne_nil _ hacc.nonempty
    obtain ⟨model, hfound, -⟩ := (hacc.slots slot hslot).model
    have hname : model.name = slot.model := by simpa using List.find?_some hfound
    refine List.ne_nil_of_mem (a := captureInput m.rendered.slots model) (List.mem_map_of_mem ?_)
    exact mem_usedModels.mpr ⟨List.mem_of_find?_eq_some hfound, slot.rendered,
      List.mem_map_of_mem hslot, hname.symm⟩
  · rw [MutationSnapshot.input, capture_models, List.map_map]
    exact List.filter_sublist.map _
  · intro m' hm'
    obtain ⟨model, hused, rfl⟩ := List.mem_map.mp hm'
    obtain ⟨hmem, -⟩ := mem_usedModels.mp hused
    refine ⟨model, hmem, rfl, ⟨one_ne_zero, show 1 ≤ maxSafeInteger by decide⟩, rfl,
      List.filter_sublist,
      fun f hf hid => mem_captured.mpr ⟨hf, Or.inl hid⟩, fun f hf en hty => ?_, rfl, rfl⟩
    obtain ⟨ht, -⟩ := (hs.models model hmem).types f (mem_captured.mp hf).1
    simp only [hty, Schema.validateType, ensure_eq_ok, List.any_eq_true, decide_eq_true_eq] at ht
    obtain ⟨e, he, rfl⟩ := ht
    refine List.any_eq_true.mpr ⟨e, List.mem_filter.mpr ⟨he, ?_⟩, by simp⟩
    exact List.any_eq_true.mpr ⟨_, hm', List.any_eq_true.mpr ⟨f, hf, by simp [hty, namesEnum]⟩⟩

/-- The model of a slot is captured with the fields the mutation reads. -/
theorem captured_model (hv : Accepted v) (hm : m ∈ v.mutations) {s : MutationSlot}
    (hs : s ∈ m.slots) (hmodel : v.models.find? (·.name = s.model) = some model) :
    (capture (descriptors v) m.rendered).input.model s.model =
      .ok (captureInput m.rendered.slots model) := by
  have hname : model.name = s.model := by simpa using List.find?_some hmodel
  rw [← hname]
  refine (capture_valid hv hm).model_of_mem (m := captureInput m.rendered.slots model)
    (List.mem_map_of_mem (mem_usedModels.mpr ?_))
  exact ⟨List.mem_of_find?_eq_some hmodel, s.rendered, List.mem_map_of_mem hs, hname.symm⟩

/-- The parent of a binding is captured with the identity the relation refers to. -/
theorem captured_binding (hv : Accepted v) (hm : m ∈ v.mutations) (hmodel : model ∈ v.models)
    {b : RelationBinding} (hb : BindingAccepted m model b) : ∃ parent,
      m.rendered.slots.find? (·.name = b.slot) = some parent ∧ parent.cardinality = .single ∧
      ∃ target, (capture (descriptors v) m.rendered).input.model parent.model = .ok target ∧
        b.fields.length = target.identity.length := by
  have hs : v.schema.Valid := Schema.validate_eq_ok.mp hv.schema
  obtain ⟨relation, hrel, parent, hfound, htarget, hsingle, hfields⟩ := hb
  have hvalid := (hs.constraints model hmodel).2.2 relation hrel
  simp only [Schema.validateRelation, Except.bind_eq_ok, ensure_eq_ok] at hvalid
  obtain ⟨target, hfoundTarget, _, ⟨-, hlen, -⟩, -⟩ := hvalid
  rw [Schema.model, required_eq_ok, ← htarget] at hfoundTarget
  refine ⟨parent.rendered, ?_, hsingle, captureInput m.rendered.slots target,
    captured_model hv hm (List.mem_of_find?_eq_some hfound) hfoundTarget, hfields ▸ hlen⟩
  change (m.slots.map (·.rendered)).find? (fun x => x.name = b.slot) = _
  rw [List.find?_map]
  change (m.slots.find? (·.name = b.slot)).map _ = _
  rw [hfound]
  rfl

/-- What is captured of an accepted mutation. -/
theorem capture_recorded (hv : Accepted v) (hm : m ∈ v.mutations) :
    InputRecorded m.name m.version (capture (descriptors v) m.rendered) := by
  have hs : v.schema.Valid := Schema.validate_eq_ok.mp hv.schema
  have hacc := hv.mutations m hm
  have hvalid := capture_valid hv hm
  refine ⟨rfl, rfl, hacc.named, hacc.version, hvalid, ?_, fun _ hr => ?_, fun _ hr => ?_,
    fun _ hr _ hb => ?_, fun {name model} hmodel => ?_⟩
  · have hnames : (m.rendered.slots.map (·.name)) = m.slots.map (·.name) := by
      simp [MutationDef.rendered, MutationSlot.rendered, Function.comp_def]
    exact hnames ▸ hacc.distinct
  · obtain ⟨slot, hslot, rfl⟩ := List.mem_map.mp hr
    exact (hacc.slots slot hslot).restricted
  · obtain ⟨slot, hslot, rfl⟩ := List.mem_map.mp hr
    obtain ⟨model, hfound, hnd, hfields, -⟩ := (hacc.slots slot hslot).model
    have hname : model.name = slot.model := by simpa using List.find?_some hfound
    have hmodel := captured_model hv hm hslot hfound
    refine ⟨_, hmodel, hnd, fun f hf => ⟨(hfields f hf).1,
      captured_field (hfields f hf).2 (Or.inr ⟨slot.rendered, hr, hname.symm, ?_⟩)⟩⟩
    -- a slot with patch fields is an update, and reads them
    cases hp : slot.allowedPatchFields with
    | none => simp [MutationSlot.rendered, hp] at hf
    | some l =>
      have hup : slot.operation = .update := by
        rw [← (hacc.slots slot hslot).restricted, hp]
        rfl
      simpa [SlotDescriptor.selects, MutationSlot.rendered, hup, hp] using hf
  · obtain ⟨slot, hslot, rfl⟩ := List.mem_map.mp hr
    obtain ⟨rb, hrb, rfl⟩ := List.mem_map.mp hb
    obtain ⟨model, hfound, -, -, hbindings⟩ := (hacc.slots slot hslot).model
    exact captured_binding hv hm (List.mem_of_find?_eq_some hfound) (hbindings rb hrb)
  · obtain ⟨x, hused, rfl⟩ := List.mem_map.mp (model_mem hmodel)
    have hname := model_name hmodel
    obtain rfl : x.name = name := hname
    refine ⟨x.fields.map (·.name), SortedMap.lookup_ofList_of_mem ?_ ?_, fun hcr f hf => ?_⟩
    · rw [List.map_map]
      exact hs.modelNames.sublist (List.filter_sublist.map _)
    · exact List.mem_map.mpr ⟨x, hused, rfl⟩
    · obtain ⟨g, hg, rfl⟩ := List.mem_map.mp hf
      obtain ⟨s, hsm, hname, hop⟩ := hcr
      exact captured_field (List.find?_isSome.mpr ⟨g, hg, by simp⟩)
        (Or.inr ⟨s, hsm, hname, by simp [SlotDescriptor.selects, hop]⟩)

end Capture

/-! ### Runs -/

variable {v : Validated} {config : Compiled}

/-- What recording a mutation checks and does. -/
theorem recordMutation_spec {h h' : MutationHistory} {m : RenderedMutation}
    (hrun : recordMutation config h m = .ok h') :
    h' = h.record m.name m.version (capture config m) ∧
    (∀ n, (h.entry m.name n).isSome → n ≤ m.version) ∧
    ∀ old, h.entry m.name m.version = some old → compatible old (capture config m) = true := by
  simp only [recordMutation, Except.bind_eq_ok, ensure_eq_ok, Except.pure_eq_ok] at hrun
  obtain ⟨_, hlatest, _, hcheck, rfl⟩ := hrun
  refine ⟨rfl, fun n => newest_of_latest hlatest, fun old hold => ?_⟩
  rw [Registry.lookup_getD, hold] at hcheck
  simpa [checkInput] using hcheck

theorem recordMutation_keeps (hv : Accepted v) {h h' : MutationHistory} {m : MutationDef}
    (hm : m ∈ v.mutations) (hs : h.Every InputRecorded)
    (hrun : recordMutation (descriptors v) h m.rendered = .ok h') :
    h'.Every InputRecorded ∧ Registry.Grown ExtendsInput h h' := by
  obtain ⟨rfl, hnewest, hcompatible⟩ := recordMutation_spec hrun
  have hrec := capture_recorded hv hm
  refine ⟨Registry.every_record hs hrec,
    Registry.grown_record ⟨hnewest, fun old hold => ((compatible_iff fun model hmodel => ?_).mp
      (hcompatible old hold)).1⟩⟩
  exact (hrec.valid.models model hmodel).fields.1

/-- A run of the compiler keeps the history sound. -/
theorem reconcileHistory_keeps (hv : Accepted v) {h : Option MutationHistory}
    {h' : MutationHistory} (hs : (h.getD .empty).Every InputRecorded)
    (hrun : reconcileHistory (descriptors v) h = .ok h') :
    h'.Every InputRecorded ∧ Registry.Grown ExtendsInput (h.getD .empty) h' := by
  simp only [reconcileHistory, Except.bind_eq_ok, Except.pure_eq_ok] at hrun
  obtain ⟨_, -, _, hfold, _, -, rfl⟩ := hrun
  refine List.foldlM_ok_induction
    (fun x => x.Every InputRecorded ∧ Registry.Grown ExtendsInput (h.getD .empty) x)
    (fun x _ y hr hboth hxy => ?_) ⟨@hs, .refl⟩ hfold
  obtain ⟨hx, hgrown⟩ := hboth
  obtain ⟨m, hm, rfl⟩ := List.mem_map.mp hr
  obtain ⟨hy, hgrown'⟩ := recordMutation_keeps hv hm hx hxy
  exact ⟨hy, hgrown.trans ExtendsInput.trans hgrown'⟩

/-- A chain of runs keeps the history sound. -/
theorem mutationChain_keeps {vs : List Validated} (hvs : ∀ v ∈ vs, Accepted v)
    {h h' : Option MutationHistory} (hs : (h.getD .empty).Every InputRecorded)
    (hrun : chain reconcileHistory h (vs.map descriptors) = .ok h') :
    (h'.getD .empty).Every InputRecorded ∧
      Registry.Grown ExtendsInput (h.getD .empty) (h'.getD .empty) := by
  refine chain_grown (P := fun h => h.Every InputRecorded) ExtendsInput.trans
    (fun config hc h h' hs hrun => ?_) hrun hs
  obtain ⟨v, hv, rfl⟩ := List.mem_map.mp hc
  exact reconcileHistory_keeps (hvs v hv) hs hrun

end Compiler
end AheadSync
