import AheadSync.Compiler.Inputs
import AheadSync.Compiler.Parse
import AheadSync.Server.Accepts

/-! What a run of the compiler hands to the runtimes (`compiler/src/main.rs`): the schema of the client
    and the configuration of the backend, with every version the histories retain. The client schema
    always loads; the backend configuration does when every relation a mutation binds refers by fields
    that the input of the mutation has. -/

namespace AheadSync
namespace Compiler

/-- `retained`: every version of every name. An object keeps its keys in the order of their text. -/
def retained {α : Type} (history : Registry String α) : List α :=
  history.entries.flatMap fun (_, versions) =>
    (versions.entries.mergeSort fun a b => toString a.1 ≤ toString b.1).map (·.2)

/-- What a client reads of a retained mutation. -/
def MutationSnapshot.policy (s : MutationSnapshot) : Value :=
  (RenderedMutation.mk s.name s.version s.slots s.sequence).json

/-- `schema.json`. -/
def clientSchema (config : Compiled) (mutations : MutationHistory) : Schema :=
  { config.schema with clientPolicies := (retained mutations).map (·.policy) }

/-- `backend.json`. -/
def backend (config : Compiled) (mutations : MutationHistory) (models : ModelHistory) : Config where
  schema := clientSchema config mutations
  mutations := (retained mutations).map (·.descriptor)
  loaders := config.loaders
  models := retained models

/-- What a run of the compiler writes, beside the generated code. -/
structure Outputs where
  schema : Schema
  backend : Config
  mutations : MutationHistory
  models : ModelHistory

/-- `run`: compile a source and reconcile both histories, before anything is written. -/
def run (unquote : String → Option String) (source : String) (mutations : Option MutationHistory)
    (models : Option ModelHistory) : Except String Outputs := do
  let config ← compile unquote source
  let mutations ← reconcileHistory config mutations
  let models ← reconcileModelHistory config models
  return ⟨clientSchema config mutations, backend config mutations models, mutations, models⟩

/-- A mutation history that runs have left, each given the one before it. -/
inductive PublishedMutations (unquote : String → Option String) : Option MutationHistory → Prop
  | none : PublishedMutations unquote none
  | run {source mutations models out} (h : PublishedMutations unquote mutations)
      (hr : run unquote source mutations models = .ok out) :
      PublishedMutations unquote (some out.mutations)

/-- A model history that runs have left, each given the one before it. -/
inductive PublishedModels (unquote : String → Option String) : Option ModelHistory → Prop
  | none : PublishedModels unquote none
  | run {source mutations models out} (h : PublishedModels unquote models)
      (hr : run unquote source mutations models = .ok out) :
      PublishedModels unquote (some out.models)

/-- The fields by which a relation of a model refers. -/
def ModelDecl.via (m : ModelDecl) (relation : String) : List String :=
  match (m.field relation).bind (·.attributes.lookup "reference") with
  | none => []
  | some reference => strings ((reference.index "via").asArray.getD [])

/-- Whether a slot carries a field of its model: a create carries them all, an update those it may
    change. -/
def SlotDecl.carries (s : SlotDecl) (field : String) : Bool :=
  match s.operation with
  | .create => true
  | .update => match s.allowedPatchFields with
    | none => true
    | some allowed => field ∈ allowed
  | .delete => false

/-- Each relation a mutation binds refers by fields of the identity, or by fields that some slot of the
    same model carries. -/
def MutationDecl.BindsCarried (d : Declarations) (m : MutationDecl) : Prop :=
  ∀ s ∈ m.slots, ∀ model ∈ d.model s.model,
    ∀ binding ∈ s.relationBindings.asObject.getD [], ∀ f ∈ model.via binding.1,
      f ∈ model.identity ∨ ∃ t ∈ m.slots, t.model = s.model ∧ t.carries f = true

instance (d : Declarations) (m : MutationDecl) : Decidable (m.BindsCarried d) :=
  inferInstanceAs (Decidable (∀ s ∈ m.slots, ∀ model ∈ d.model s.model,
    ∀ binding ∈ s.relationBindings.asObject.getD [], ∀ f ∈ model.via binding.1,
      f ∈ model.identity ∨ ∃ t ∈ m.slots, t.model = s.model ∧ t.carries f = true))

/-- Each binding of a retained input names fields that the input has. -/
def MutationSnapshot.BindsKept (s : MutationSnapshot) : Prop :=
  ∀ slot ∈ s.slots, ∀ b ∈ slot.bindings, ∀ model, s.input.model slot.model = .ok model →
    ∀ f ∈ b.fields, (model.field f).isSome

variable {d : Declarations} {v : Validated} {config : Compiled}

/-! ### What is retained -/

section Retained
variable {α : Type} {h : Registry String α}

theorem mem_retained {a : α} : a ∈ retained h ↔ ∃ name n, h.entry name n = some a := by
  simp only [retained, List.mem_flatMap, List.mem_map, List.mem_mergeSort, Registry.entry,
    Option.bind_eq_some_iff, SortedMap.lookup_eq_some_iff]
  constructor
  · rintro ⟨⟨name, versions⟩, hv, ⟨n, b⟩, hb, rfl⟩
    exact ⟨name, n, versions, hv, hb⟩
  · rintro ⟨name, n, versions, hv, hb⟩
    exact ⟨(name, versions), hv, (n, a), hb, rfl⟩

/-- Each version of a name is retained once. -/
theorem retained_nodup {k : α → String × ℕ} (hkey : h.Every fun name n a => k a = (name, n)) :
    ((retained h).map k).Nodup := by
  have hentry : ∀ e ∈ h.entries, ∀ x ∈ e.2.entries, k x.2 = (e.1, x.1) := fun e he x hx => by
    refine @hkey e.1 x.1 x.2 ?_
    rw [Registry.entry, SortedMap.lookup_eq_some_iff.mpr he]
    exact SortedMap.lookup_eq_some_iff.mpr hx
  rw [retained, List.map_flatMap, List.nodup_flatMap]
  constructor
  · intro e he
    rw [List.map_map]
    refine (((List.mergeSort_perm ..).map _).nodup_iff).mpr ?_
    rw [List.map_congr_left (g := fun x => (e.1, x.1)) (hentry e he), List.nodup_map_iff_inj_on]
    · intro x hx y hy hxy
      exact List.inj_on_of_nodup_map e.2.nodup_keys hx hy (Prod.mk.inj hxy).2
    · exact e.2.nodup_keys.of_map _
  · refine h.sorted.imp_of_mem fun {e e'} he he' hlt => ?_
    simp only [Function.onFun, List.disjoint_left, List.mem_map, List.mem_mergeSort]
    rintro _ ⟨_, ⟨x, hx, rfl⟩, rfl⟩ ⟨_, ⟨y, hy, rfl⟩, heq⟩
    rw [hentry e he x hx, hentry e' he' y hy] at heq
    exact absurd (Prod.mk.inj heq).1 hlt.ne'

end Retained

/-! ### The relations of a source -/

theorem model_declared (hv : Validates d v) {name : String} {r : ModelDescriptor}
    (hr : v.models.find? (·.name = name) = some r) : ∃ m, d.model name = some m ∧
      checkModel m = .ok () ∧ resolveModel d m = .ok r := by
  refine List.forall₂_find? (R := fun r m => checkModel m = .ok () ∧ resolveModel d m = .ok r)
    (fun r m ⟨_, h⟩ => ?_) hv.models.flip hr
  simp only [resolveModel, Except.bind_eq_ok, Except.pure_eq_ok] at h
  obtain ⟨_, -, _, -, _, -, rfl⟩ := h
  rfl

theorem resolveModel_identity {m : ModelDecl} {r : ModelDescriptor}
    (h : resolveModel d m = .ok r) : r.identity = m.identity := by
  simp only [resolveModel, Except.bind_eq_ok, Except.pure_eq_ok] at h
  obtain ⟨_, -, _, -, _, -, rfl⟩ := h
  rfl

theorem checkModel_names {m : ModelDecl} (h : checkModel m = .ok ()) :
    (m.fields.map (·.name)).Nodup := by
  simp only [checkModel, Except.bind_eq_ok] at h
  obtain ⟨_, -, seen, hfields, -⟩ := h
  refine ((List.foldlM_seen_ok_iff (f := checkField) (k := (·.name))
    (Q := fun f => ¬(f.isList ∧ f.nullable)) fun seen f _ out => ?_).mp ⟨seen, hfields⟩).1
  simp only [checkField, Except.bind_eq_ok, ensure_eq_ok, Except.pure_eq_ok, exists_const]
  exact and_assoc.symm

theorem resolveReference_spec {m target : ModelDecl} {f : FieldDecl} {reference : Value}
    {r : RelationDescriptor} (h : resolveReference m f target reference = .ok r) :
    r.name = f.name ∧ ∃ via, (reference.index "via").asArray = some via ∧ r.fields = strings via := by
  simp only [resolveReference, Except.bind_eq_ok, required_eq_ok] at h
  obtain ⟨_, -, _, -, _, -, via, hvia, _, -, _, -, h⟩ := h
  split at h <;> simp only [Except.bind_eq_ok, Except.pure_eq_ok] at h
  all_goals
    obtain ⟨_, -, rfl⟩ := h
    exact ⟨rfl, via, hvia, rfl⟩

/-- A resolved relation refers by the fields its declaration names. -/
theorem via_resolved {m : ModelDecl} {r : ModelDescriptor} (hc : checkModel m = .ok ())
    (h : resolveModel d m = .ok r) {relation : RelationDescriptor} (hr : relation ∈ r.relations) :
    m.via relation.name = relation.fields := by
  simp only [resolveModel, Except.bind_eq_ok, Except.pure_eq_ok] at h
  obtain ⟨roles, hroles, _, -, _, -, rfl⟩ := h
  obtain ⟨⟨f, role⟩, hrole, hrel⟩ := List.mem_filterMap.mp hr
  obtain ⟨f', hf, hout⟩ := List.mapM_mem hroles hrole
  simp only [Except.bind_eq_ok, Except.pure_eq_ok, Prod.mk.injEq] at hout
  obtain ⟨role', hfield, rfl, rfl⟩ := hout
  cases role' with
  | inverse => cases hrel
  | stored => cases hrel
  | relation rel =>
    obtain rfl := Option.some.inj hrel
    have hfound : m.field f'.name = some f' := List.find?_key (checkModel_names hc) hf
    simp only [fieldRole] at hfield
    split at hfield
    · split at hfield
      · rename_i target _ reference hreference
        simp only [Except.bind_eq_ok, Except.pure_eq_ok, FieldRole.relation.injEq] at hfield
        obtain ⟨_, hresolved, rfl⟩ := hfield
        obtain ⟨hname, via, hvia, hfields⟩ := resolveReference_spec hresolved
        simp [ModelDecl.via, hname, hfound, hreference, hvia, hfields]
      · cases hfield
    · simp at hfield

/-! ### The bindings of a mutation -/

section Bindings
variable {m : MutationDecl} {s : SlotDecl} {r : MutationSlot} {model : ModelDescriptor} {f : String}

/-- The fields of a binding are those of the relation it declares, and fields of the slot's model. -/
theorem binding_via (hv : Validates d v) {binding : String × Value} {b : RelationBinding}
    (hb : resolveBinding v.models m s binding = .ok b) : ∃ declared model,
      d.model s.model = some declared ∧ v.models.find? (·.name = s.model) = some model ∧
      model.identity = declared.identity ∧ b.fields = declared.via binding.1 ∧
      ∀ f ∈ b.fields, (model.field f).isSome := by
  simp only [resolveBinding, Except.bind_eq_ok, required_eq_ok, ensure_eq_ok,
    Except.pure_eq_ok] at hb
  obtain ⟨model, hmodel, relation, hrel, parent, -, _, -, rfl⟩ := hb
  obtain ⟨declared, hdeclared, hcheck, hresolve⟩ := model_declared hv hmodel
  have hmem := List.mem_of_find?_eq_some hrel
  have hname : relation.name = binding.1 := by simpa using List.find?_some hrel
  refine ⟨declared, model, hdeclared, hmodel, resolveModel_identity hresolve, ?_, fun f hf => ?_⟩
  · rw [← hname, via_resolved hcheck hresolve hmem]
  · have hs : v.schema.Valid := Schema.validate_eq_ok.mp hv.schema
    have hvalid := (hs.constraints model (List.mem_of_find?_eq_some hmodel)).2.2 relation hmem
    simp only [Schema.validateRelation, Except.bind_eq_ok, ensure_eq_ok, List.forM_eq_ok,
      required_eq_ok] at hvalid
    obtain ⟨target, -, _, ⟨-, hlen, htarget, -⟩, hfields⟩ := hvalid
    have hfst : (relation.fields.zip relation.targetFields).map Prod.fst = relation.fields :=
      List.map_fst_zip (by rw [htarget, hlen])
    obtain ⟨e, he, rfl⟩ := List.mem_map.mp (hfst ▸ hf)
    obtain ⟨_, hlocal, -⟩ := hfields e he
    exact Option.isSome_of_eq_some hlocal

/-- A resolved slot reads the fields outside the identity that its declaration carries. -/
theorem selects_eq (h : Resolved v.models m s r)
    (hmodel : v.models.find? (·.name = s.model) = some model) (hf : (model.field f).isSome)
    (hid : f ∉ model.identity) : r.rendered.selects f = s.carries f := by
  have hpatch := h.patch
  simp only [SlotDescriptor.selects, MutationSlot.rendered, SlotDecl.carries, h.operation]
  cases hop : s.operation with
  | create => rfl
  | delete => rfl
  | update =>
    cases hallowed : s.allowedPatchFields with
    | some allowed =>
      rw [patchFields, if_neg (by simp [hallowed]), hallowed] at hpatch
      rw [← Except.ok.inj hpatch]
    | none =>
      obtain ⟨g, hg⟩ := Option.isSome_iff_exists.mp hf
      simp only [patchFields, hop, hallowed, Option.isNone_none, and_self, if_true,
        Except.bind_eq_ok, required_eq_ok, hmodel, Option.some.injEq, exists_eq_left',
        Except.pure_eq_ok] at hpatch
      rw [← hpatch]
      obtain rfl := field_name hg
      simpa using ⟨g, ⟨field_mem hg, hid⟩, rfl⟩

/-- The slots of a mutation that read a field outside the identity are those that carry it. -/
theorem selects_iff {r : MutationDef} (h : MutationResolved v.models m r)
    (hmodel : v.models.find? (·.name = s.model) = some model) (hf : (model.field f).isSome)
    (hid : f ∉ model.identity) :
    (∃ t ∈ r.rendered.slots, t.model = model.name ∧ t.selects f = true) ↔
      ∃ t ∈ m.slots, t.model = s.model ∧ t.carries f = true := by
  have hname : model.name = s.model := by simpa using List.find?_some hmodel
  rw [hname]
  constructor
  · rintro ⟨_, hr, hm, hs⟩
    obtain ⟨rs, hrs, rfl⟩ := List.mem_map.mp hr
    obtain ⟨t, ht, hres⟩ := List.forall₂_mem h.slots hrs
    have htm : t.model = s.model := hres.model.symm.trans hm
    rw [selects_eq hres (htm ▸ hmodel) hf hid] at hs
    exact ⟨t, ht, htm, hs⟩
  · rintro ⟨t, ht, hm, hs⟩
    obtain ⟨rs, hrs, hres⟩ := List.forall₂_mem_left h.slots ht
    refine ⟨rs.rendered, List.mem_map_of_mem hrs, hres.model.trans hm, ?_⟩
    rw [selects_eq hres (hm ▸ hmodel) hf hid]
    exact hs

/-- The input of a mutation has the fields its bindings name exactly when its slots carry them. -/
theorem binds_iff (hv : Validates d v) (hacc : Accepted v) {r : MutationDef} (hr : r ∈ v.mutations)
    (h : MutationResolved v.models m r) :
    (capture (descriptors v) r.rendered).BindsKept ↔ m.BindsCarried d := by
  have hcaptured : ∀ {s : SlotDecl} {model : ModelDescriptor} {f : String},
      v.models.find? (·.name = s.model) = some model → (model.field f).isSome →
      (((captureInput r.rendered.slots model).field f).isSome ↔
        f ∈ model.identity ∨ ∃ t ∈ m.slots, t.model = s.model ∧ t.carries f = true) := by
    intro s model f hmodel hf
    by_cases hid : f ∈ model.identity
    · simp [hid, captured_field hf (Or.inl hid)]
    · rw [← selects_iff h hmodel hf hid]
      refine ⟨fun hsome => ?_, fun hsel => captured_field hf hsel⟩
      obtain ⟨g, hg⟩ := Option.isSome_iff_exists.mp hsome
      obtain rfl := field_name hg
      exact (mem_captured.mp (field_mem hg)).2
  constructor
  · intro hkept s hs declared hdeclared binding hbinding f hf
    obtain ⟨rs, hrs, hres⟩ := List.forall₂_mem_left h.slots hs
    obtain ⟨bindings, hobject, hbs⟩ := hres.bindings
    rw [hobject] at hbinding
    obtain ⟨b, hb, hresolve⟩ := List.forall₂_mem_left (List.mapM_eq_ok_iff.mp hbs) hbinding
    obtain ⟨declared', model, hdeclared', hmodel, hid, hfields, hsome⟩ := binding_via hv hresolve
    obtain rfl := Option.some.inj (hdeclared.symm.trans hdeclared')
    rw [← hfields] at hf
    rw [← hid, ← hcaptured hmodel (hsome f hf)]
    refine hkept rs.rendered (List.mem_map_of_mem hrs) ⟨b.fields, b.slot⟩
      (List.mem_map.mpr ⟨b, hb, rfl⟩) _ ?_ f hf
    exact captured_model hacc hr hrs (hres.model ▸ hmodel)
  · intro hcarried slot hslot b hb input hinput f hf
    obtain ⟨rs, hrs, rfl⟩ := List.mem_map.mp hslot
    obtain ⟨rb, hrb, rfl⟩ := List.mem_map.mp hb
    obtain ⟨s, hs, hres⟩ := List.forall₂_mem h.slots hrs
    obtain ⟨bindings, hobject, hbs⟩ := hres.bindings
    obtain ⟨binding, hbinding, hresolve⟩ := List.mapM_mem hbs hrb
    obtain ⟨declared, model, hdeclared, hmodel, hid, hfields, hsome⟩ := binding_via hv hresolve
    have hinput' := captured_model hacc hr hrs (hres.model ▸ hmodel)
    obtain rfl := Except.ok.inj (hinput.symm.trans hinput')
    rw [hcaptured hmodel (hsome f hf), hid]
    exact hcarried s hs declared hdeclared binding (by simpa [hobject] using hbinding) f
      (hfields ▸ hf)

end Bindings

/-! ### The histories -/

/-- After a run a version is what the run compiled, or else what it was before. -/
theorem mutation_entry_iff (hacc : Accepted v) {h : Option MutationHistory} {h' : MutationHistory}
    (hrun : reconcileHistory (descriptors v) h = .ok h') {name : String} {n : ℕ}
    {s : MutationSnapshot} : h'.entry name n = some s ↔
      (∃ m ∈ v.mutations, m.name = name ∧ m.version = n ∧
        capture (descriptors v) m.rendered = s) ∨
      (∀ m ∈ v.mutations, ¬(m.name = name ∧ m.version = n)) ∧
        (h.getD .empty).entry name n = some s := by
  simp only [reconcileHistory, Except.bind_eq_ok, Except.pure_eq_ok] at hrun
  obtain ⟨_, -, _, hfold, _, -, rfl⟩ := hrun
  have hnames : ((v.mutations.map (·.rendered)).map (·.name)).Nodup := by
    rw [List.map_map]
    exact hacc.distinct
  rw [Registry.entry_foldlM (f := recordMutation (descriptors v))
    (fun r m r' hr => (recordMutation_spec hr).1) hnames hfold]
  simp [MutationDef.rendered]

theorem model_entry_iff (hacc : Accepted v) {h : Option ModelHistory} {h' : ModelHistory}
    (hrun : reconcileModelHistory (descriptors v) h = .ok h') {name : String} {n : ℕ}
    {c : ModelContract} : h'.entry name n = some c ↔
      (∃ m ∈ v.models, m.name = name ∧ m.version = n ∧ captureModel (descriptors v) m = c) ∨
      (∀ m ∈ v.models, ¬(m.name = name ∧ m.version = n)) ∧
        (h.getD .empty).entry name n = some c := by
  simp only [reconcileModelHistory, Except.bind_eq_ok] at hrun
  obtain ⟨_, -, hfold⟩ := hrun
  have hs : v.schema.Valid := Schema.validate_eq_ok.mp hacc.schema
  exact Registry.entry_foldlM (f := recordModel (descriptors v))
    (fun r m r' hr => (recordModel_spec hr).1) hs.modelNames hfold

/-- Only models that are compiled now are retained. -/
theorem model_retained_current {h : Option ModelHistory} {h' : ModelHistory} (hacc : Accepted v)
    (hrun : reconcileModelHistory (descriptors v) h = .ok h') {name : String} {n : ℕ}
    {c : ModelContract} (hc : h'.entry name n = some c) : ∃ m ∈ v.models, m.name = name := by
  rcases (model_entry_iff hacc hrun).mp hc with ⟨m, hm, hname, -⟩ | ⟨-, hbefore⟩
  · exact ⟨m, hm, hname⟩
  · simp only [reconcileModelHistory, Except.bind_eq_ok, List.forM_eq_ok, ensure_eq_ok,
      List.any_eq_true, decide_eq_true_eq] at hrun
    obtain ⟨_, hkeys, -⟩ := hrun
    refine hkeys name (by_contra fun hnot => ?_)
    rw [Registry.entry, SortedMap.lookup_eq_none_iff.mpr hnot] at hbefore
    cases hbefore

/-- The checks of a retained input's slots pass. -/
theorem InputRecorded.loads {name : String} {n : ℕ} {s : MutationSnapshot} (c : Config)
    (h : InputRecorded name n s) : MutationLoads c s.descriptor where
  named := h.named
  version := by
    rw [← h.version] at h
    exact h.safe
  schema := h.valid
  distinct := by
    rw [MutationSnapshot.descriptor, List.map_map]
    exact h.distinct
  slots slot hslot := by
    obtain ⟨x, hx, rfl⟩ := List.mem_map.mp hslot
    refine ⟨?_, h.slots x hx⟩
    cases hp : x.allowedPatchFields with
    | none => exact Or.inr (by simp [SlotDescriptor.slot, hp])
    | some fields => exact Or.inl ((h.restricted x hx).mp (by rw [hp]; rfl))

/-- The checks of a retained input's bindings pass exactly when they name fields it has. -/
theorem InputRecorded.bindings_load_iff {name : String} {n : ℕ} {s : MutationSnapshot}
    (h : InputRecorded name n s) : (∀ slot ∈ s.descriptor.slots, ∀ b ∈ slot.bindings,
      BindingLoads s.input s.descriptor.slots slot b) ↔ s.BindsKept := by
  have hslots : s.descriptor.slots = s.slots.map (·.slot) := rfl
  rw [hslots, List.forall_mem_map]
  refine forall₂_congr fun slot hslot => forall₂_congr fun b hb => ?_
  obtain ⟨model, hmodel, -⟩ := h.slots slot hslot
  constructor
  · rintro ⟨-, -, -, -, -, -, child, hchild, hf⟩ model' hmodel'
    obtain rfl := Except.ok.inj (hchild.symm.trans hmodel')
    exact hf
  · intro hf
    obtain ⟨parent, hfound, hsingle, target, htarget, hlen⟩ := h.bindings slot hslot b hb
    refine ⟨parent.slot, ?_, hsingle, target, htarget, hlen, model, hmodel, hf model hmodel⟩
    rw [List.find?_map]
    change (s.slots.find? (·.name = b.slot)).map _ = _
    rw [hfound]
    rfl

/-- The checks of the retained contracts pass. -/
theorem contracts_load (hacc : Accepted v) {schema : Schema} (hs : schema.Valid)
    (hmodels : schema.models = v.models) {h : Option ModelHistory} {h' : ModelHistory}
    (hsound : SoundContracts h') (hrun : reconcileModelHistory (descriptors v) h = .ok h')
    {c : ModelContract} (hc : c ∈ retained h') : ContractLoads schema c := by
  obtain ⟨name, n, hentry⟩ := mem_retained.mp hc
  have hrec := hsound.recorded hentry
  obtain ⟨m, hm, rfl⟩ := model_retained_current hacc hrun hentry
  have hcurrent : h'.entry m.name m.version = some (captureModel (descriptors v) m) :=
    (model_entry_iff hacc hrun).mpr (Or.inl ⟨m, hm, rfl, rfl, rfl⟩)
  refine ⟨⟨m, ?_, hsound.identity hentry hcurrent⟩, ?_, hrec.valid⟩
  · rw [hrec.name]
    exact hs.model_of_mem (hmodels ▸ hm)
  · have hversion := (hrec.valid.models _ (List.mem_singleton_self _)).version
    exact ⟨Nat.pos_of_ne_zero hversion.1, hversion.2⟩

/-! ### Loading -/

section Loading
variable {unquote : String → Option String} {source : String} {h : Option MutationHistory}
  {models : Option ModelHistory} {out : Outputs}

/-- What a run has parsed, validated and reconciled. -/
theorem run_spec (hrun : run unquote source h models = .ok out) : ∃ d v,
    parse unquote source = .ok d ∧ validate d = .ok v ∧
      reconcileHistory (descriptors v) h = .ok out.mutations ∧
      reconcileModelHistory (descriptors v) models = .ok out.models ∧
      out.schema = clientSchema (descriptors v) out.mutations ∧
      out.backend = backend (descriptors v) out.mutations out.models := by
  simp only [run, compile, Except.bind_eq_ok, Except.pure_eq_ok] at hrun
  obtain ⟨_, ⟨d, hd, v, hv, rfl⟩, mutations, hmutations, models', hmodels, rfl⟩ := hrun
  exact ⟨d, v, hd, hv, hmutations, hmodels, rfl, rfl⟩

theorem PublishedMutations.recorded (hh : PublishedMutations unquote h) :
    (h.getD .empty).Every InputRecorded := by
  induction hh with
  | none => exact Registry.every_empty
  | run _ hr ih =>
    obtain ⟨d, v, -, hv, hmutations, -⟩ := run_spec hr
    exact (reconcileHistory_keeps (validate_accepted hv) ih hmutations).1

theorem PublishedModels.sound (hm : PublishedModels unquote models) :
    SoundContracts (models.getD .empty) := by
  induction hm with
  | none => exact soundContracts_empty
  | run _ hr ih =>
    obtain ⟨d, v, -, hv, -, hmodels, -⟩ := run_spec hr
    exact (reconcileModelHistory_keeps (validate_accepted hv) ih hmodels).1

/-- The inputs a run retains all have the fields their bindings name exactly when the mutations of the
    source carry them and the inputs it leaves as they were have them. -/
theorem binds_retained_iff (hv : Validates d v) (hacc : Accepted v) {h' : MutationHistory}
    (hrun : reconcileHistory (descriptors v) h = .ok h') : (∀ s ∈ retained h', s.BindsKept) ↔
      (∀ m ∈ d.mutations, m.BindsCarried d) ∧
      ∀ name n s, (h.getD .empty).entry name n = some s →
        (∀ m ∈ d.mutations, ¬(m.name = name ∧ m.version.number = n)) → s.BindsKept := by
  have hcompiled : ∀ name n, (∀ m ∈ d.mutations, ¬(m.name = name ∧ m.version.number = n)) ↔
      ∀ r ∈ v.mutations, ¬(r.name = name ∧ r.version = n) := by
    intro name n
    constructor
    · intro hall r hr
      obtain ⟨m, hm, hres⟩ := List.forall₂_mem hv.mutations hr
      rw [hres.name, hres.version]
      exact hall m hm
    · intro hall m hm
      obtain ⟨r, hr, hres⟩ := List.forall₂_mem_left hv.mutations hm
      rw [← hres.name, ← hres.version]
      exact hall r hr
  constructor
  · refine fun hall => ⟨fun m hm => ?_, fun name n s hs hnot => hall s (mem_retained.mpr
      ⟨name, n, (mutation_entry_iff hacc hrun).mpr (Or.inr ⟨(hcompiled name n).mp hnot, hs⟩)⟩)⟩
    obtain ⟨r, hr, hres⟩ := List.forall₂_mem_left hv.mutations hm
    exact (binds_iff hv hacc hr hres).mp (hall _ (mem_retained.mpr ⟨r.name, r.version,
      (mutation_entry_iff hacc hrun).mpr (Or.inl ⟨r, hr, rfl, rfl, rfl⟩)⟩))
  · rintro ⟨hcarried, hkept⟩ s hs
    obtain ⟨name, n, hentry⟩ := mem_retained.mp hs
    rcases (mutation_entry_iff hacc hrun).mp hentry with ⟨r, hr, -, -, rfl⟩ | ⟨hnot, hbefore⟩
    · obtain ⟨m, hm, hres⟩ := List.forall₂_mem hv.mutations hr
      exact (binds_iff hv hacc hr hres).mpr (hcarried m hm)
    · exact hkept name n s hbefore ((hcompiled name n).mpr hnot)

/-- The client's schema is valid: what it retains does not bear on that. -/
theorem clientSchema_valid (hacc : Accepted v) (h' : MutationHistory) :
    (clientSchema (descriptors v) h').Valid :=
  Schema.validate_eq_ok.mp hacc.schema

/-- A backend loads exactly when every input it retains has the fields its bindings name. -/
theorem backend_loads_iff (hacc : Accepted v) {h' : MutationHistory} (hrecorded : h'.Every InputRecorded)
    {models' : ModelHistory} (hsound : SoundContracts models')
    (hrun : reconcileModelHistory (descriptors v) models = .ok models') :
    (∃ c, (backend (descriptors v) h' models').decode = .ok c) ↔
      ∀ s ∈ retained h', s.BindsKept := by
  have hs := clientSchema_valid hacc h'
  have hcurrent : ∀ m ∈ v.models, captureModel (descriptors v) m ∈ retained models' :=
    fun m hm => mem_retained.mpr ⟨m.name, m.version,
      (model_entry_iff hacc hrun).mpr (Or.inl ⟨m, hm, rfl, rfl, rfl⟩)⟩
  have hne : (backend (descriptors v) h' models').models ≠ [] := by
    obtain ⟨m, hmem⟩ := List.exists_mem_of_ne_nil _ hs.nonempty
    exact List.ne_nil_of_mem (hcurrent m hmem)
  have hbindings : (∀ m ∈ (retained h').map (·.descriptor), ∀ slot ∈ m.slots, ∀ b ∈ slot.bindings,
      BindingLoads ((backend (descriptors v) h' models').inputSchema m) m.slots slot b) ↔
      ∀ s ∈ retained h', s.BindsKept := by
    rw [List.forall_mem_map]
    refine forall₂_congr fun s hmem => ?_
    obtain ⟨name, n, hentry⟩ := mem_retained.mp hmem
    exact (hrecorded hentry).bindings_load_iff
  rw [decode_ok_iff hne]
  refine ⟨fun ⟨_, _, hb, _⟩ => hbindings.mp hb, fun hb => ⟨hs, ⟨?_, ?_⟩, hbindings.mpr hb, ?_,
    ⟨?_, ?_⟩, fun m hmem => ⟨_, hcurrent m hmem, rfl, rfl⟩⟩⟩
  · change (((retained h').map (·.descriptor)).map _).Nodup
    rw [List.map_map]
    exact retained_nodup (k := fun s => (s.name, s.version)) fun he =>
      Prod.ext (hrecorded he).name (hrecorded he).version
  · intro m hmem
    obtain ⟨s, hsmem, rfl⟩ := List.mem_map.mp hmem
    obtain ⟨name, n, hentry⟩ := mem_retained.mp hsmem
    exact (hrecorded hentry).loads _
  · intro loader hloader
    obtain ⟨m, hmem, rfl⟩ := List.mem_map.mp hloader
    exact ⟨m, hs.model_of_mem hmem⟩
  · exact retained_nodup (k := fun c => (c.name, c.version)) fun he =>
      Prod.ext (hsound.recorded he).name (hsound.recorded he).version
  · exact fun c hc => contracts_load hacc hs rfl hsound hrun hc

/-- What compiles loads: the client's schema always, the backend's configuration exactly when every
    relation a mutation of the source binds refers by fields that the mutation's slots carry, and every
    retained input that the run leaves as it was has the fields it binds. -/
theorem what_compiles_loads {d : Declarations} (hparse : parse unquote source = .ok d)
    (hh : PublishedMutations unquote h) (hm : PublishedModels unquote models)
    (hrun : run unquote source h models = .ok out) : out.schema.validate = .ok () ∧
      ((∃ c, out.backend.decode = .ok c) ↔ (∀ m ∈ d.mutations, m.BindsCarried d) ∧
        ∀ name n s, (h.getD .empty).entry name n = some s →
          (∀ m ∈ d.mutations, ¬(m.name = name ∧ m.version.number = n)) → s.BindsKept) := by
  obtain ⟨d', v, hparse', hvalidate, hmutations, hmodels, hschema, hbackend⟩ := run_spec hrun
  obtain rfl := Except.ok.inj (hparse.symm.trans hparse')
  have hacc := validate_accepted hvalidate
  obtain ⟨hrecorded, -⟩ := reconcileHistory_keeps hacc hh.recorded hmutations
  obtain ⟨hsound, -⟩ := reconcileModelHistory_keeps hacc hm.sound hmodels
  constructor
  · rw [hschema, Schema.validate_eq_ok]
    exact clientSchema_valid hacc out.mutations
  · rw [hbackend, backend_loads_iff hacc hrecorded hsound hmodels]
    exact binds_retained_iff (validate_spec hvalidate) hacc hmutations

end Loading

namespace Sample

/-- A mutation that does one thing to two records, the second of which refers to the first. -/
def family (operation : String) : String :=
  "model P\x7ba Int b Int p P@reference(via:[b])@@id(a)\x7dmutation M\x7bp P." ++ operation ++
    " c P." ++ operation ++ "(p:p)\x7d"

end Sample

theorem what_compiles_loads_family : ∃ out, run some (Sample.family "create") none none = .ok out ∧
    out.schema.validate = .ok () ∧ ∃ c, out.backend.decode = .ok c := by
  have hparse : ((parse some (Sample.family "create")).toOption.any fun d =>
      d.mutations.all fun m => decide (m.BindsCarried d)) = true := by decide +kernel
  have hrun : (run some (Sample.family "create") none none).isOk = true := by decide +kernel
  obtain ⟨out, hrun⟩ := Except.exists_ok hrun
  obtain ⟨d, hd, hcarried⟩ := (Option.any_eq_true ..).mp hparse
  obtain ⟨hschema, hloads⟩ :=
    what_compiles_loads (Except.eq_ok_of_toOption hd) .none .none hrun
  refine ⟨out, hrun, hschema, hloads.mpr ⟨fun m hm => ?_, fun name n s hs => nomatch hs⟩⟩
  exact of_decide_eq_true (List.all_eq_true.mp hcarried m hm)

/-- Records that are only deleted are sent without the field that refers to another. -/
theorem not_what_compiles_loads : ¬∀ (unquote : String → Option String) (source : String)
    (h : Option MutationHistory) (models : Option ModelHistory) (out : Outputs),
    PublishedMutations unquote h → PublishedModels unquote models →
    run unquote source h models = .ok out → ∃ c, out.backend.decode = .ok c := by
  intro hall
  have hrun : ((run some (Sample.family "delete") none none).toOption.any fun out =>
      !out.backend.decode.isOk) = true := by decide +kernel
  obtain ⟨out, hout, hrefused⟩ := (Option.any_eq_true ..).mp hrun
  obtain ⟨c, hc⟩ := hall some _ none none out .none .none (Except.eq_ok_of_toOption hout)
  simp [hc, Except.isOk, Except.toBool] at hrefused

end Compiler
end AheadSync
