import AheadSync.Compiler.Validate
import AheadSync.Core.Normal

/-! What validation guarantees: the schema is valid, and the slots of every mutation name models,
    fields, relations and parents that are there and can be told apart. -/

namespace AheadSync
namespace Compiler

/-- A binding takes the fields of a relation of the slot's model from a single slot of its target. -/
def BindingAccepted (m : MutationDef) (model : ModelDescriptor) (b : RelationBinding) : Prop :=
  ∃ relation ∈ model.relations, ∃ parent, m.slots.find? (·.name = b.slot) = some parent ∧
    parent.model = relation.target ∧ parent.cardinality = .single ∧ b.fields = relation.fields

structure SlotAccepted (models : List ModelDescriptor) (m : MutationDef) (s : MutationSlot) : Prop where
  restricted : s.allowedPatchFields.isSome ↔ s.operation = .update
  model : ∃ model, models.find? (·.name = s.model) = some model ∧
    (s.allowedPatchFields.getD []).Nodup ∧
    (∀ f ∈ s.allowedPatchFields.getD [], f ∉ model.identity ∧ (model.field f).isSome) ∧
    ∀ b ∈ s.bindings, BindingAccepted m model b

/-- No slot can be mistaken for one before it. -/
def Separated (slots : List MutationSlot) : Prop :=
  ∀ {before later after}, slots = before ++ later :: after → ambiguous later before.reverse = none

structure MutationAccepted (models : List ModelDescriptor) (m : MutationDef) : Prop where
  named : m.name ≠ ""
  version : 0 < m.version ∧ m.version ≤ maxSafeInteger
  nonempty : m.slots ≠ []
  slots : ∀ s ∈ m.slots, SlotAccepted models m s
  distinct : (m.slots.map (·.name)).Nodup
  separated : Separated m.slots

structure Accepted (v : Validated) : Prop where
  schema : v.schema.validate = .ok ()
  mutations : ∀ m ∈ v.mutations, MutationAccepted v.models m
  distinct : (v.mutations.map (·.name)).Nodup

variable {d : Declarations} {v : Validated} {models : List ModelDescriptor}

/-- How a slot is resolved. -/
structure Resolved (models : List ModelDescriptor) (m : MutationDecl) (s : SlotDecl)
    (r : MutationSlot) : Prop where
  name : r.name = s.name
  model : r.model = s.model
  operation : r.operation = s.operation
  cardinality : r.cardinality = s.cardinality
  patch : patchFields models s = .ok r.allowedPatchFields
  bindings : ∃ declared, s.relationBindings.asObject = some declared ∧
    declared.mapM (resolveBinding models m s) = .ok r.bindings

/-- How a mutation is resolved. -/
structure MutationResolved (models : List ModelDescriptor) (m : MutationDecl) (r : MutationDef) :
    Prop where
  name : r.name = m.name
  version : r.version = m.version.number
  slots : List.Forall₂ (Resolved models m) m.slots r.slots

theorem resolveSlots_spec {m : MutationDecl} {bindings : List (List RelationBinding)}
    {r : MutationDef} (hb : resolveMutation models m = .ok bindings)
    (hr : resolveSlots models m bindings = .ok r) : MutationResolved models m r := by
  simp only [resolveSlots, Except.bind_eq_ok, Except.pure_eq_ok] at hr
  obtain ⟨slots, hslots, rfl⟩ := hr
  refine ⟨rfl, rfl, (List.mapM_zip_eq_ok (List.mapM_eq_ok_iff.mp hb) hslots).1.imp ?_⟩
  rintro s r ⟨bs, hbs, hs⟩
  simp only [Except.bind_eq_ok, Except.pure_eq_ok, unwrapped, required_eq_ok] at hbs hs
  obtain ⟨patch, hpatch, rfl⟩ := hs
  exact ⟨rfl, rfl, rfl, rfl, hpatch, hbs⟩

theorem addSequence_spec {mutations : List MutationDef} {m : MutationDecl} {r r' : MutationDef}
    (h : MutationResolved models m r) (hs : addSequence models mutations (r, m) = .ok r') :
    MutationResolved models m r' := by
  unfold addSequence at hs
  split at hs
  · obtain rfl := Except.ok.inj hs
    exact h
  · simp only [Except.bind_eq_ok, Except.pure_eq_ok] at hs
    obtain ⟨_, -, rfl⟩ := hs
    exact ⟨h.name, h.version, h.slots⟩

/-- An update has patch fields, and nothing else has. -/
theorem resolved_restricted {m : MutationDecl} {s : SlotDecl} {r : MutationSlot}
    (h : Resolved models m s r) : r.allowedPatchFields.isSome ↔ r.operation = .update := by
  have hp := h.patch
  rw [h.operation]
  unfold patchFields at hp
  split at hp
  · rename_i hup
    simp only [Except.bind_eq_ok, Except.pure_eq_ok] at hp
    obtain ⟨_, -, hp⟩ := hp
    simp [← hp, hup.1]
  · rename_i hup
    rw [← Except.ok.inj hp]
    refine ⟨s.restricted, fun hop => ?_⟩
    by_contra hnone
    exact hup ⟨hop, by simpa using hnone⟩

theorem binding_accepted {m : MutationDecl} {r : MutationDef} (h : MutationResolved models m r)
    {s : SlotDecl} {binding : String × Value} {b : RelationBinding}
    (hb : resolveBinding models m s binding = .ok b) :
    ∃ model, models.find? (·.name = s.model) = some model ∧ BindingAccepted r model b := by
  simp only [resolveBinding, Except.bind_eq_ok, required_eq_ok, ensure_eq_ok,
    Except.pure_eq_ok] at hb
  obtain ⟨model, hm, relation, hrel, parent, hparent, _, ⟨htarget, hsingle⟩, rfl⟩ := hb
  have htext : binding.2.asStr = some parent.name := by simpa using List.find?_some hparent
  obtain ⟨parent', hfound, hres⟩ := List.forall₂_find? (R := Resolved models m)
    (q := fun x => x.name = parent.name)
    (fun a b hab => by simp [htext, hab.name, eq_comm]) h.slots hparent
  exact ⟨model, hm, relation, List.mem_of_find?_eq_some hrel, parent', hfound,
    hres.model.trans htarget, hres.cardinality.trans hsingle, rfl⟩

theorem checkSlot_ok_iff {seen out : List String} {s : MutationSlot × SlotDecl} :
    checkSlot models seen s = .ok out ↔ (s.1.name ∉ seen ∧
      ∃ model, models.find? (·.name = s.1.model) = some model ∧
        (s.1.allowedPatchFields.getD []).Nodup ∧
        ∀ f ∈ s.1.allowedPatchFields.getD [], f ∉ model.identity ∧ (model.field f).isSome) ∧
      s.1.name :: seen = out := by
  obtain ⟨s, decl⟩ := s
  have hpatch : ∀ model : ModelDescriptor, (∃ out, (s.allowedPatchFields.getD []).foldlM
      (fun (seen : List String) f => do
        ensure (f ∉ seen ∧ f ∉ model.identity ∧ (model.field f).isSome)
          (reportAt decl.pos "invalid allowed patch field")
        return f :: seen) [] = .ok out) ↔ (s.allowedPatchFields.getD []).Nodup ∧
      ∀ f ∈ s.allowedPatchFields.getD [], f ∉ model.identity ∧ (model.field f).isSome := by
    intro model
    rw [List.foldlM_seen_ok_iff (k := id)
      (Q := fun f => f ∉ model.identity ∧ (model.field f).isSome)]
    · simp
    · intro seen f _ out
      simp only [Except.bind_eq_ok, ensure_eq_ok, Except.pure_eq_ok, id_eq, exists_const]
  simp only [checkSlot, Except.bind_eq_ok, ensure_eq_ok, required_eq_ok, Except.pure_eq_ok]
  constructor
  · rintro ⟨_, hname, model, hm, seen', hp, hout⟩
    exact ⟨⟨hname, model, hm, (hpatch model).mp ⟨seen', hp⟩⟩, hout⟩
  · rintro ⟨⟨hname, model, hm, hp⟩, hout⟩
    obtain ⟨seen', hp⟩ := (hpatch model).mpr hp
    exact ⟨(), hname, model, hm, seen', hp, hout⟩

/-- The check of ambiguous slots compares each slot with those before it. -/
theorem checkAmbiguous_spec : ∀ {slots : List (MutationSlot × SlotDecl)}
    {before : List MutationSlot}, checkAmbiguous before slots = .ok () →
    ∀ {pre later post}, slots.map (·.1) = pre ++ later :: post →
      ambiguous later (pre.reverse ++ before) = none
  | [], before, _, pre, later, post, heq => by simp at heq
  | (s, decl) :: slots, before, h, pre, later, post, heq => by
    unfold checkAmbiguous at h
    split at h
    · cases h
    · rename_i hnone
      cases pre with
      | nil =>
        obtain ⟨rfl, -⟩ := List.cons.inj heq
        exact hnone
      | cons p pre =>
        rw [List.map_cons, List.cons_append] at heq
        obtain ⟨rfl, hrest⟩ := List.cons.inj heq
        simpa using checkAmbiguous_spec h hrest

theorem checkMutation_ok_iff {seen out : List String} {m : MutationDef × MutationDecl} :
    checkMutation models seen m = .ok out ↔ (m.1.name ∉ seen ∧ m.1.slots ≠ [] ∧
      (∃ out, (m.1.slots.zip m.2.slots).foldlM (checkSlot models) [] = .ok out) ∧
      checkAmbiguous [] (m.1.slots.zip m.2.slots) = .ok ()) ∧ m.1.name :: seen = out := by
  obtain ⟨m, decl⟩ := m
  simp only [checkMutation, Except.bind_eq_ok, ensure_eq_ok, Except.pure_eq_ok]
  grind

/-- A resolved mutation that passes the last check is accepted. -/
theorem mutation_accepted {m : MutationDecl} {r : MutationDef} (h : MutationResolved models m r)
    (hne : r.slots ≠ [])
    (hslots : ∃ out, (r.slots.zip m.slots).foldlM (checkSlot models) [] = .ok out)
    (hamb : checkAmbiguous [] (r.slots.zip m.slots) = .ok ()) : MutationAccepted models r := by
  have hfst : (r.slots.zip m.slots).map (·.1) = r.slots :=
    List.map_fst_zip h.slots.length_eq.ge
  obtain ⟨hnd, -, hall⟩ := (List.foldlM_seen_ok_iff (k := fun s => s.1.name)
    fun _ _ _ _ => checkSlot_ok_iff).mp hslots
  have hnames : (r.slots.zip m.slots).map (fun s => s.1.name) = r.slots.map (·.name) := by
    rw [← hfst, List.map_map, hfst]
    rfl
  rw [hnames] at hnd
  refine ⟨?_, ?_, hne, fun s hs => ?_, hnd, fun {before later after} heq => ?_⟩
  · rw [h.name]
    exact m.named
  · rw [h.version]
    exact ⟨m.version.positive, m.version.safe⟩
  · obtain ⟨decl, -, hres⟩ := List.forall₂_mem h.slots hs
    obtain ⟨⟨s', decl'⟩, hmem, rfl⟩ := List.mem_map.mp (hfst ▸ hs)
    obtain ⟨model, hm, hpatch, hfields⟩ := hall _ hmem
    refine ⟨resolved_restricted hres, model, hm, hpatch, hfields, fun b hb => ?_⟩
    obtain ⟨declared, -, hbs⟩ := hres.bindings
    obtain ⟨binding, -, hbinding⟩ := List.mapM_mem hbs hb
    obtain ⟨model', hm', hb'⟩ := binding_accepted h hbinding
    rw [← hres.model, hm] at hm'
    exact Option.some.inj hm' ▸ hb'
  · simpa using checkAmbiguous_spec hamb (hfst.trans heq)

/-- The result of validation: every model and mutation as it is resolved, after the last checks. -/
structure Validates (d : Declarations) (v : Validated) : Prop where
  models : List.Forall₂ (fun m r => checkModel m = .ok () ∧ resolveModel d m = .ok r) d.models v.models
  schema : v.schema.validate = .ok ()
  mutations : List.Forall₂ (MutationResolved v.models) d.mutations v.mutations
  checked : ∃ seen, (v.mutations.zip d.mutations).foldlM (checkMutation v.models) [] = .ok seen

theorem validate_spec (h : validate d = .ok v) : Validates d v := by
  simp only [validate, Except.bind_eq_ok, Except.pure_eq_ok, Except.mapError_eq_ok,
    List.forM_eq_ok] at h
  obtain ⟨_, -, _, hnames, models, hmodels, bindings, hb, resolved, hr, _, -, _, -, requirements, -,
    mutations, hm, _, -, _, hs, _, hc, rfl⟩ := h
  have hres : List.Forall₂ (MutationResolved models) d.mutations resolved :=
    (List.mapM_zip_eq_ok (List.mapM_eq_ok_iff.mp hb) hr).1.imp
      fun m r h => by
        obtain ⟨_, hb, hr⟩ := h
        exact resolveSlots_spec hb hr
  refine ⟨?_, hs, (List.mapM_zip_eq_ok hres.flip hm).2.imp fun m r h => ?_, _, hc⟩
  · exact (List.forall₂_and_left _ _).mpr ⟨hnames, List.mapM_eq_ok_iff.mp hmodels⟩
  · obtain ⟨_, h, hs⟩ := h
    exact addSequence_spec h hs

/-- What validation accepts. -/
theorem validate_accepted (h : validate d = .ok v) : Accepted v := by
  obtain ⟨-, hs, hres, hc⟩ := validate_spec h
  have hfst : (v.mutations.zip d.mutations).map (·.1) = v.mutations :=
    List.map_fst_zip hres.length_eq.ge
  obtain ⟨hnd, -, hall⟩ := (List.foldlM_seen_ok_iff (k := fun m => m.1.name)
    fun _ _ _ _ => checkMutation_ok_iff).mp hc
  refine ⟨hs, fun m hm => ?_, ?_⟩
  · obtain ⟨⟨m', decl⟩, hmem, rfl⟩ := List.mem_map.mp (hfst ▸ hm)
    obtain ⟨hne, hslots, hamb⟩ := hall _ hmem
    exact mutation_accepted (List.forall₂_zip hres.flip hmem) hne hslots hamb
  · rw [← hfst, List.map_map]
    exact hnd

end Compiler
end AheadSync
