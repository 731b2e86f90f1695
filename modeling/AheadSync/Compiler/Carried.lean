import AheadSync.Compiler.Inputs
import AheadSync.Compiler.Readers
import AheadSync.Server.Decode

/-! A payload written for an earlier input of a mutation's version, read under a later one: it is
    accepted with the same targets and the same arguments, in which created records have null for the
    fields added since. -/

namespace AheadSync
namespace Compiler

/-- What an object holds is there again, but for fields added to its data, which are null. -/
structure Kept (a a' : Value) : Prop where
  get : ∀ k, k ≠ "data" → a'.get k = a.get k
  data : ∀ n, (a'.index "data").get n = (a.index "data").get n ∨
    (a.index "data").get n = none ∧ (a'.index "data").get n = some .null

/-- An argument read again under a later input. -/
structure Carried (a a' : Value) : Prop extends Kept a a' where
  object : a.asObject.isSome ∧ a'.asObject.isSome

/-- The value of a slot read again: absent again, one argument, or as many as before. -/
inductive CarriedSlot : Value → Value → Prop
  | absent : CarriedSlot .null .null
  | one {a a'} (h : Carried a a') : CarriedSlot a a'
  | many {as as'} (h : List.Forall₂ Carried as as') : CarriedSlot (.arr as) (.arr as')

/-- The arguments of a mutation read again: the same slots, each carried. -/
def CarriedArguments (args args' : Value) : Prop :=
  ∀ slot, Option.Rel CarriedSlot (args.get slot) (args'.get slot)

/-- The values of a payload name only fields a snapshot knows. -/
def KnownOnly (s : MutationSnapshot) (ops : List Operation) : Prop :=
  ∀ op ∈ ops, ∀ values, op.values = some values → ∀ e ∈ values.entries,
    ∃ names, s.knownFields.lookup op.model = some names ∧ e.1 ∈ names

theorem Kept.refl (a : Value) : Kept a a := ⟨fun _ _ => rfl, fun _ => Or.inl rfl⟩

theorem Carried.refl {a : Value} (h : a.asObject.isSome) : Carried a a := ⟨.refl a, h, h⟩

theorem Kept.index {a a' : Value} (h : Kept a a') {k : String} (hk : k ≠ "data") :
    a'.index k = a.index k := by
  rw [Value.index, h.get k hk, Value.index]

/-- A field of the data that was not there reads as null, as it does now. -/
theorem Kept.index_data {a a' : Value} (h : Kept a a') (n : String) :
    (a'.index "data").index n = (a.index "data").index n := by
  rcases h.data n with heq | ⟨hnone, hnull⟩
  · rw [Value.index, heq]
    rfl
  · rw [Value.index, hnull, Value.index, hnone]
    rfl

variable {c : Codecs} {old new : MutationSnapshot} {b b' : Backend} {slot slot' : SlotDescriptor}

/-- A later input is a schema that extends the earlier one. -/
theorem ExtendsInput.schema (h : ExtendsInput old new) : old.input.Extends new.input where
  enums name x hx := by
    simp only [List.any_eq_true, decide_eq_true_eq] at hx ⊢
    obtain ⟨en, hen, rfl, hx⟩ := hx
    obtain ⟨next, hnext, hvalues⟩ := h.enums en hen
    exact ⟨next, List.mem_of_find?_eq_some hnext, by simpa using List.find?_some hnext,
      hvalues x hx⟩
  models {name m} hm := by
    obtain rfl := model_name hm
    obtain ⟨next, hnext, hid, hfields, -⟩ := h.models m (model_mem hm)
    refine ⟨next, required_eq_ok.mpr hnext, hid, fun {n f} hf => ?_⟩
    obtain rfl := field_name hf
    exact hfields f (field_mem hf)

/-- What a create has gained since is nullable. -/
theorem ExtendsInput.added (h : ExtendsInput old new) {name : String} {m m' : ModelDescriptor}
    (hm : old.input.model name = .ok m) (hm' : new.input.model name = .ok m')
    (hcr : Creates old.slots name) : ∀ f ∈ m'.fields, m.field f.name = none →
      f.nullable = true := by
  obtain rfl := model_name hm
  obtain ⟨next, hnext, -, -, hadded⟩ := h.models m (model_mem hm)
  rw [Schema.model, required_eq_ok] at hm'
  obtain rfl := Option.some.inj (hnext.symm.trans hm')
  exact hadded ((creates_iff h.slots).mp hcr)

section Argument
variable {s s' : Schema} {model model' : ModelDescriptor} {source : Value}

/-- The data of a create, read for a model with more nullable fields the payload does not name. -/
theorem createData_carried (hcodecs : b'.codecs = b.codecs) (hs : s.Extends s')
    (hm : model.Extends model') (hnd : (model.fields.map (·.name)).Nodup)
    (hnd' : (model'.fields.map (·.name)).Nodup)
    (hadded : ∀ f ∈ model'.fields, model.field f.name = none →
      f.nullable = true ∧ source.get f.name = none) {data : Value}
    (h : b.createData s model source = .ok data) :
    ∃ data', b'.createData s' model' source = .ok data' ∧ ∀ n, data'.get n = data.get n ∨
      data.get n = none ∧ data'.get n = some .null := by
  simp only [Backend.createData, Except.bind_eq_ok, Except.pure_eq_ok] at h
  obtain ⟨entries, hes, rfl⟩ := h
  obtain ⟨g, hg, rfl⟩ := List.mapM_eq_ok_map hes
  simp only [Backend.invalid, Except.bind_eq_ok, required_eq_ok, Except.mapError_eq_ok,
    Except.pure_eq_ok] at hg
  have hdata : (Schema.stateFields model).map g =
      (Schema.stateFields model).map fun f => (f.name, (g f).2) :=
    List.map_congr_left fun f hf => by
      obtain ⟨_, -, _, -, heq⟩ := hg f hf
      simp [← heq]
  -- a field of the later model is one of the earlier model, or was added
  have hcases : ∀ f ∈ Schema.stateFields model', f ∈ Schema.stateFields model ∨
      model.field f.name = none := fun f hf => by
    obtain ⟨hmem, hid⟩ := List.mem_filter.mp hf
    cases hfield : model.field f.name with
    | none => exact Or.inr rfl
    | some f₀ =>
      have hfound := hm.field hfield
      rw [field_of_mem hnd' hmem] at hfound
      obtain rfl := Option.some.inj hfound
      exact Or.inl (List.mem_filter.mpr ⟨field_mem hfield, hm.identity ▸ hid⟩)
  have hsome : ∀ f ∈ Schema.stateFields model, model.field f.name = some f := fun f hf =>
    field_of_mem hnd (List.mem_filter.mp hf).1
  let g' : FieldDescriptor → Value := fun f =>
    if (model.field f.name).isSome then (g f).2 else .null
  refine ⟨.ofEntries ((Schema.stateFields model').map fun f => (f.name, g' f)), ?_, fun n => ?_⟩
  · simp only [Backend.createData, Except.bind_eq_ok, Except.pure_eq_ok]
    refine ⟨_, List.mapM_eq_ok_of fun f hf => ?_, rfl⟩
    simp only [Backend.invalid, Except.bind_eq_ok, required_eq_ok, Except.mapError_eq_ok,
      Except.pure_eq_ok]
    rcases hcases f hf with hold | hnone
    · obtain ⟨v, hv, w, hw, heq⟩ := hg f hold
      refine ⟨v, hv, w, hcodecs ▸ hs.normalizeValue hw, ?_⟩
      simp [g', hsome f hold, ← heq]
    · obtain ⟨hnull, hget⟩ := hadded f (List.mem_filter.mp hf).1 hnone
      exact ⟨.null, by simp [hnull, hget], .null,
        by simp [Schema.normalizeValue, Value.isNull, hnull], by simp [g', hnone]⟩
  · change (Value.ofEntries _).get n = (Value.ofEntries ((Schema.stateFields model).map g)).get n ∨
      (Value.ofEntries ((Schema.stateFields model).map g)).get n = none ∧ _
    rw [hdata]
    by_cases hn : ∃ f ∈ Schema.stateFields model', f.name = n
    · obtain ⟨f, hf, rfl⟩ := hn
      rw [get_ofEntries_fields (nodup_stateFields hnd') hf]
      rcases hcases f hf with hold | hnone
      · left
        rw [get_ofEntries_fields (g := fun f => (g f).2) (nodup_stateFields hnd) hold]
        simp [g', hsome f hold]
      · right
        refine ⟨get_ofEntries_none fun f' hf' hname => ?_, by simp [g', hnone]⟩
        rw [← hname, hsome f' hf'] at hnone
        cases hnone
    · left
      push Not at hn
      rw [get_ofEntries_none hn, get_ofEntries_none fun f hf hname => ?_]
      refine hn f ?_ hname
      obtain ⟨hmem, hid⟩ := List.mem_filter.mp hf
      exact List.mem_filter.mpr ⟨field_mem (hm.field (hsome f hf)), hm.identity ▸ hid⟩

/-- The patch of an update, read by a slot that allows at least as much. -/
theorem updatePatch_carried (hcodecs : b'.codecs = b.codecs) (hs : s.Extends s')
    (hm : model.Extends model') {d d' : MutationDescriptor} {slot slot' : Slot}
    (hknown : ∀ e ∈ source.entries, d.known slot model e.1 = true)
    (hallowed : ∀ f ∈ slot.allowedPatchFields, f ∈ slot'.allowedPatchFields ∧
      (model.field f).isSome) {patch : Value}
    (h : b.updatePatch d s slot model source = .ok patch) :
    b'.updatePatch d' s' slot' model' source = .ok patch := by
  simp only [Backend.updatePatch, Except.bind_eq_ok, Except.pure_eq_ok] at h ⊢
  obtain ⟨entries, hes, rfl⟩ := h
  obtain ⟨g, hg, rfl⟩ := List.mapM_eq_ok_map hes
  refine ⟨_, List.mapM_eq_ok_of fun e he => ?_, rfl⟩
  have hge := hg e he
  simp only [Except.bind_eq_ok, ensure_eq_ok, not_and, not_not] at hge ⊢
  obtain ⟨_, hpermitted, hge⟩ := hge
  obtain ⟨hallow, hfield⟩ := hallowed e.1 (hpermitted (hknown e he))
  obtain ⟨f, hf⟩ := Option.isSome_iff_exists.mp hfield
  refine ⟨(), fun _ => hallow, ?_⟩
  simp only [hf, hm.field hf, Backend.invalid, Except.bind_eq_ok, ensure_eq_ok,
    Except.mapError_eq_ok, Except.pure_eq_ok] at hge ⊢
  obtain ⟨_, -, w, hw, heq⟩ := hge
  exact ⟨(), hallow, w, hcodecs ▸ hs.normalizeValue hw, heq⟩

end Argument

/-! ### Decoding -/

section Decoding
variable {name : String} {n : ℕ}

/-- One operation, read by the same slot of a later input. -/
theorem argument_carried (hcodecs : b'.codecs = b.codecs) (hext : ExtendsInput old new)
    (hold : InputRecorded name n old) (hnew : InputRecorded name n new) (hs : slot ∈ old.slots)
    (hc : compatibleSlot slot slot' = true) {op : Operation}
    (hop : op.model = slot.model) (hknown : KnownOnly old [op]) {out : Value × RecordKey}
    (h : b.argument old.descriptor old.input slot.slot op = .ok out) :
    ∃ a', b'.argument new.descriptor new.input slot'.slot op = .ok (a', out.2) ∧
      Carried out.1 a' := by
  obtain ⟨⟨-, hmodel, hoper, -⟩, hallowed⟩ := compatibleSlot_iff.mp hc
  simp only [Backend.argument, Backend.invalid, Except.bind_eq_ok, Except.mapError_eq_ok,
    required_eq_ok, SlotDescriptor.slot, hmodel, hoper] at h ⊢
  obtain ⟨model, hm, source, hsource, key, hkey, h⟩ := h
  obtain ⟨model', hm', hmodels⟩ := hext.schema.models hm
  have hkey' : new.input.recordKey b'.codecs slot.model
      (.obj (source.filter (·.1 ∈ model'.identity))) = .ok key := by
    rw [hmodels.identity, hcodecs]
    exact hext.schema.recordKey hkey
  have hfields := (hold.valid.models model (model_mem hm)).fields.1
  have hfields' := (hnew.valid.models model' (model_mem hm')).fields.1
  cases hslot : slot.operation with
  | delete =>
    simp only [hslot, Except.pure_eq_ok] at h
    obtain rfl := h
    exact ⟨_, ⟨model', hm', source, hsource, key, hkey', by simp only [Except.pure_eq_ok]⟩,
      .refl (by rw [Value.ofEntries_eq_obj]; rfl)⟩
  | create =>
    simp only [hslot, Except.bind_eq_ok, Except.pure_eq_ok, required_eq_ok] at h
    obtain ⟨values, hvalues, data, hdata, rfl⟩ := h
    have hcr : Creates old.slots slot.model := ⟨slot, hs, rfl, hslot⟩
    -- a create reads every field its version knows, so the payload names none of the added ones
    have hadded : ∀ f ∈ model'.fields, model.field f.name = none →
        f.nullable = true ∧ values.get f.name = none := fun f hf hnone => by
      refine ⟨hext.added hm hm' hcr f hf hnone, ?_⟩
      by_contra hsome
      obtain ⟨v, hv⟩ := Option.ne_none_iff_exists'.mp hsome
      obtain ⟨names, hnames, hin⟩ := hknown op (List.mem_singleton_self _) values
        (Option.eq_some_of_filter_eq_some hvalues) _ (Value.mem_of_get hv)
      obtain ⟨names', hnames', hall⟩ := hold.known hm
      rw [hop, hnames'] at hnames
      obtain rfl := Option.some.inj hnames
      simpa [hnone] using hall hcr f.name hin
    obtain ⟨data', hdata', hrel⟩ := createData_carried hcodecs hext.schema hmodels hfields hfields'
      hadded hdata
    refine ⟨(Value.ofEntries [("identity", key.identity)]).set "data" data',
      ⟨model', hm', source, hsource, key, hkey', ?_⟩, ⟨fun k hk => by simp [hk], fun n => ?_⟩,
      rfl, rfl⟩
    · simp only [Except.bind_eq_ok, Except.pure_eq_ok, required_eq_ok]
      exact ⟨values, hvalues, data', hdata', rfl⟩
    · simpa [Value.index] using hrel n
  | update =>
    simp only [hslot, Except.bind_eq_ok, Except.pure_eq_ok, required_eq_ok] at h
    obtain ⟨values, hvalues, patch, hpatch, rfl⟩ := h
    refine ⟨_, ⟨model', hm', source, hsource, key, hkey', ?_⟩, .refl rfl⟩
    simp only [Except.bind_eq_ok, Except.pure_eq_ok, required_eq_ok]
    refine ⟨values, hvalues, patch, updatePatch_carried hcodecs hext.schema hmodels
      (fun e he => ?_) (fun f hf => ⟨hallowed f hf, ?_⟩) hpatch, rfl⟩
    · obtain ⟨names, hnames, hin⟩ := hknown op (List.mem_singleton_self _) values
        (Option.eq_some_of_filter_eq_some hvalues) e he
      rw [hop] at hnames
      simpa [MutationDescriptor.known, MutationSnapshot.descriptor, hnames] using hin
    · obtain ⟨model₀, hm₀, -, hpatchable⟩ := hold.slots slot hs
      rw [hm] at hm₀
      obtain rfl := Except.ok.inj hm₀
      exact (hpatchable f hf).2

/-- The operations that fill a slot fill it again. -/
theorem fillSlot_carried (hcodecs : b'.codecs = b.codecs) (hext : ExtendsInput old new)
    (hold : InputRecorded name n old) (hnew : InputRecorded name n new) (hs : slot ∈ old.slots)
    (hc : compatibleSlot slot slot' = true) : ∀ {ops left : List Operation}
    {filled : List (Value × RecordKey)}, KnownOnly old ops →
    b.fillSlot old.descriptor old.input slot.slot ops = .ok (filled, left) →
    ∃ filled', b'.fillSlot new.descriptor new.input slot'.slot ops = .ok (filled', left) ∧
      List.Forall₂ (fun x y => Carried x.1 y.1 ∧ y.2 = x.2) filled filled'
  | [], left, filled, _, h => by
    simp only [Backend.fillSlot, Except.ok.injEq, Prod.mk.injEq] at h
    obtain ⟨rfl, rfl⟩ := h
    exact ⟨[], rfl, .nil⟩
  | op :: ops, left, filled, hknown, h => by
    obtain ⟨⟨-, hmodel, hoper, hcard, -⟩, -⟩ := compatibleSlot_iff.mp hc
    have hfits : (op.model = slot'.slot.model ∧ op.op = slot'.slot.operation) ↔
        (op.model = slot.slot.model ∧ op.op = slot.slot.operation) := by
      simp [SlotDescriptor.slot, hmodel, hoper]
    rw [Backend.fillSlot] at h
    split at h
    · rename_i hfit
      rw [Backend.fillSlot, if_pos (hfits.mpr hfit)]
      simp only [Except.bind_eq_ok] at h ⊢
      obtain ⟨one, hone, h⟩ := h
      obtain ⟨a', ha', hcarried⟩ := argument_carried hcodecs hext hold hnew hs hc hfit.1
        (fun op' hop' => hknown op' (by simp_all)) hone
      have hcard' : slot'.slot.cardinality = slot.slot.cardinality := hcard
      split at h
      · rename_i hlist
        simp only [Except.bind_eq_ok, Except.pure_eq_ok, Prod.mk.injEq] at h
        obtain ⟨⟨rest, left'⟩, hrest, rfl, rfl⟩ := h
        obtain ⟨rest', hrest', hall⟩ := fillSlot_carried hcodecs hext hold hnew hs hc
          (fun op' hop' => hknown op' (List.mem_cons_of_mem _ hop')) hrest
        refine ⟨(a', one.2) :: rest', ⟨_, ha', ?_⟩, .cons ⟨hcarried, rfl⟩ hall⟩
        rw [if_pos (hcard'.trans hlist)]
        simp only [Except.bind_eq_ok, Except.pure_eq_ok]
        exact ⟨_, hrest', rfl⟩
      · rename_i hlist
        simp only [Except.pure_eq_ok, Prod.mk.injEq] at h
        obtain ⟨rfl, rfl⟩ := h
        refine ⟨[(a', one.2)], ⟨_, ha', ?_⟩, .cons ⟨hcarried, rfl⟩ .nil⟩
        rw [if_neg (fun hl => hlist (hcard'.symm.trans hl))]
        rfl
    · rename_i hfit
      simp only [Except.ok.injEq, Prod.mk.injEq] at h
      obtain ⟨rfl, rfl⟩ := h
      exact ⟨[], by rw [Backend.fillSlot, if_neg (fun hf => hfit (hfits.mp hf))], .nil⟩

theorem slotValue_carried (hc : compatibleSlot slot slot' = true) {values values' : List Value}
    (h : List.Forall₂ Carried values values') {value : Value}
    (hv : Backend.slotValue slot.slot values = .ok value) :
    ∃ value', Backend.slotValue slot'.slot values' = .ok value' ∧ CarriedSlot value value' := by
  obtain ⟨⟨-, -, -, hcard, -⟩, -⟩ := compatibleSlot_iff.mp hc
  have hcard' : slot'.slot.cardinality = slot.slot.cardinality := hcard
  unfold Backend.slotValue at hv ⊢
  rw [hcard']
  cases hkind : slot.slot.cardinality with
  | list =>
    rw [hkind] at hv
    obtain rfl := Except.ok.inj hv
    exact ⟨_, rfl, .many h⟩
  | single =>
    rw [hkind] at hv
    match values, values', h with
    | [], [], _ => cases hv
    | [v], [v'], h =>
      obtain rfl := Except.ok.inj hv
      exact ⟨_, rfl, .one (by simpa using h)⟩
    | _ :: _ :: _, _ :: _ :: _, _ => cases hv
  | optional =>
    rw [hkind] at hv
    match values, values', h with
    | [], [], _ =>
      obtain rfl := Except.ok.inj hv
      exact ⟨_, rfl, .absent⟩
    | [v], [v'], h =>
      obtain rfl := Except.ok.inj hv
      exact ⟨_, rfl, .one (by simpa using h)⟩
    | _ :: _ :: _, _ :: _ :: _, _ =>
      obtain rfl := Except.ok.inj hv
      exact ⟨_, rfl, .absent⟩

/-- The operations that fill the slots of an input fill those of a later one, with the same targets. -/
theorem fillSlots_carried (hcodecs : b'.codecs = b.codecs) (hext : ExtendsInput old new)
    (hold : InputRecorded name n old) (hnew : InputRecorded name n new)
    {slots slots' : List SlotDescriptor} (hcs : List.Forall₂ (fun a b => compatibleSlot a b = true) slots slots') :
    ∀ {ops : List Operation} {args : List (String × Value)} {targets : List RecordKey},
    (∀ s ∈ slots, s ∈ old.slots) → KnownOnly old ops →
    b.fillSlots old.descriptor old.input (slots.map (·.slot)) ops = .ok (args, targets) →
    ∃ args', b'.fillSlots new.descriptor new.input (slots'.map (·.slot)) ops = .ok (args', targets) ∧
      List.Forall₂ (fun x y => y.1 = x.1 ∧ CarriedSlot x.2 y.2) args args' := by
  induction hcs with
  | nil =>
    intro ops args targets _ _ h
    simp only [List.map_nil, Backend.fillSlots, Except.bind_eq_ok, ensure_eq_ok, Except.pure_eq_ok,
      Prod.mk.injEq] at h ⊢
    obtain ⟨_, rfl, rfl, rfl⟩ := h
    exact ⟨[], ⟨(), rfl, rfl, rfl⟩, .nil⟩
  | cons hc hcs ih =>
    intro ops args targets hsub hknown h
    simp only [List.map_cons, Backend.fillSlots, Except.bind_eq_ok, Except.pure_eq_ok,
      Prod.mk.injEq] at h ⊢
    obtain ⟨⟨filled, left⟩, hf, value, hvalue, ⟨rest, more⟩, hrest, rfl, rfl⟩ := h
    obtain ⟨filled', hf', hall⟩ := fillSlot_carried hcodecs hext hold hnew
      (hsub _ (List.mem_cons_self ..)) hc hknown hf
    have hvalues : List.Forall₂ Carried (filled.map (·.1)) (filled'.map (·.1)) := by
      rw [List.forall₂_map_left_iff, List.forall₂_map_right_iff]
      exact hall.imp fun _ _ h => h.1
    obtain ⟨value', hvalue', hcarried⟩ := slotValue_carried hc hvalues hvalue
    obtain ⟨taken, rfl, -⟩ := fillSlot_spec hf
    obtain ⟨rest', hrest', hrel⟩ := ih (fun s hs => hsub s (List.mem_cons_of_mem _ hs))
      (fun op hop => hknown op (List.mem_append_right _ hop)) hrest
    have htargets : List.Forall₂ (· = ·) (filled'.map (·.2)) (filled.map (·.2)) := by
      rw [List.forall₂_map_left_iff, List.forall₂_map_right_iff]
      exact hall.flip.imp fun _ _ h => h.2
    rw [List.forall₂_eq_eq_eq] at htargets
    obtain ⟨⟨hname, -⟩, -⟩ := compatibleSlot_iff.mp hc
    exact ⟨_, ⟨(filled', left), hf', value', hvalue', (rest', more), hrest', rfl,
      by rw [htargets]⟩, .cons ⟨hname, hcarried⟩ hrel⟩

theorem CarriedArguments.index {args args' : Value} (h : CarriedArguments args args')
    (slot : String) : CarriedSlot (args.index slot) (args'.index slot) := by
  have hslot := h slot
  unfold Value.index
  cases hget : args.get slot <;> cases hget' : args'.get slot <;> rw [hget, hget'] at hslot
  · exact .absent
  · cases hslot
  · cases hslot
  · cases hslot with
    | some h => exact h

theorem CarriedSlot.identity {v v' : Value} (h : CarriedSlot v v') :
    v'.index "identity" = v.index "identity" := by
  cases h with
  | absent => rfl
  | one h => exact h.toKept.index (by decide)
  | many h => rfl

/-- The rows that bindings are checked on are kept. -/
theorem slotRows_carried (hc : compatibleSlot slot slot' = true) {v v' : Value}
    (h : CarriedSlot v v') {rows : List Value} (hrows : Backend.slotRows slot.slot v = .ok rows) :
    ∃ rows', Backend.slotRows slot'.slot v' = .ok rows' ∧ List.Forall₂ Kept rows rows' := by
  obtain ⟨⟨-, -, -, hcard, -⟩, -⟩ := compatibleSlot_iff.mp hc
  have hcard' : slot'.slot.cardinality = slot.slot.cardinality := hcard
  unfold Backend.slotRows at hrows ⊢
  rw [hcard']
  cases h with
  | absent =>
    cases hkind : slot.slot.cardinality <;> rw [hkind] at hrows
    · exact ⟨[], rfl, Except.ok.inj hrows ▸ .nil⟩
    · exact ⟨[], rfl, Except.ok.inj hrows ▸ .nil⟩
    · cases hrows
  | one h =>
    obtain ⟨fs, hfs⟩ := Option.isSome_iff_exists.mp h.object.1
    obtain ⟨fs', hfs'⟩ := Option.isSome_iff_exists.mp h.object.2
    obtain rfl : v = .obj fs := by cases v <;> simp_all [Value.asObject]
    obtain rfl : v' = .obj fs' := by cases v' <;> simp_all [Value.asObject]
    cases hkind : slot.slot.cardinality <;> rw [hkind] at hrows
    · exact ⟨_, rfl, Except.ok.inj hrows ▸ .cons h.toKept .nil⟩
    · exact ⟨_, rfl, Except.ok.inj hrows ▸ .cons h.toKept .nil⟩
    · cases hrows
  | many h =>
    cases hkind : slot.slot.cardinality <;> rw [hkind] at hrows
    · exact ⟨_, rfl, Except.ok.inj hrows ▸ .cons ⟨fun _ _ => rfl, fun _ => Or.inl rfl⟩ .nil⟩
    · exact ⟨_, rfl, Except.ok.inj hrows ▸ .cons ⟨fun _ _ => rfl, fun _ => Or.inl rfl⟩ .nil⟩
    · exact ⟨_, rfl, Except.ok.inj hrows ▸ h.imp fun _ _ h => h.toKept⟩

/-- Bindings that hold of the arguments hold of the arguments read again. -/
theorem checkBindings_carried (hext : ExtendsInput old new) {args args' : Value}
    (hargs : CarriedArguments args args')
    (h : Backend.checkBindings old.descriptor old.input args = .ok ()) :
    Backend.checkBindings new.descriptor new.input args' = .ok () := by
  simp only [Backend.checkBindings, List.forM_eq_ok, Except.bind_eq_ok, required_eq_ok,
    Except.mapError_eq_ok, ensure_eq_ok, MutationSnapshot.descriptor] at h ⊢
  intro s' hs' binding hbinding
  obtain ⟨hmem, hcreate⟩ := List.mem_filter.mp hs'
  obtain ⟨slot', hslot', rfl⟩ := List.mem_map.mp hmem
  obtain ⟨slot, hslot, hc⟩ := List.forall₂_mem hext.slots hslot'
  obtain ⟨⟨hname, -, hoper, -, hbind⟩, -⟩ := compatibleSlot_iff.mp hc
  have hcreate' : slot.slot.operation = .create := by
    simpa [SlotDescriptor.slot, hoper] using hcreate
  obtain ⟨parent, hparent, model, hm, rows, hrows, hall⟩ := h slot.slot
    (List.mem_filter.mpr ⟨List.mem_map_of_mem hslot, decide_eq_true hcreate'⟩)
    binding (by simpa [SlotDescriptor.slot, hbind] using hbinding)
  have hslots : List.Forall₂ (fun a b : Slot => b.name = a.name ∧ b.model = a.model)
      (old.slots.map (·.slot)) (new.slots.map (·.slot)) := by
    rw [List.forall₂_map_left_iff, List.forall₂_map_right_iff]
    refine hext.slots.imp fun a b hab => ?_
    obtain ⟨⟨hname, hmodel, -⟩, -⟩ := compatibleSlot_iff.mp hab
    exact ⟨hname, hmodel⟩
  obtain ⟨parent', hparent', hpname, hpmodel⟩ := List.forall₂_find?
    (q := fun x => x.name = binding.slot) (fun a b hab => by simp [hab.1]) hslots hparent
  obtain ⟨model', hm', hmodels⟩ := hext.schema.models hm
  obtain ⟨rows', hrows', hrel⟩ := slotRows_carried hc (hargs.index slot.slot.name) hrows
  have hname' : slot'.slot.name = slot.slot.name := hname
  refine ⟨parent', hparent', model', hpmodel ▸ hm', rows', hname' ▸ hrows', fun row' hrow' => ?_⟩
  obtain ⟨row, hrow, hkept⟩ := List.forall₂_mem hrel hrow'
  intro e he
  rw [hmodels.identity] at he
  have hactual := hall row hrow e he
  rw [hkept.index (by decide), hkept.index_data, hpname, (hargs.index parent.name).identity]
  exact hactual

/-- A payload that is accepted under an input is accepted under a later one of its version. -/
theorem decode_carried (hcodecs : b'.codecs = b.codecs) (hext : ExtendsInput old new)
    (hold : InputRecorded name n old) (hnew : InputRecorded name n new) {m : WireMutation}
    (hd : b.descriptor m = .ok old.descriptor) (hd' : b'.descriptor m = .ok new.descriptor)
    (hknown : KnownOnly old m.operations) {args : Value} {targets : List RecordKey}
    (h : b.decode m = .ok (args, targets)) :
    ∃ args', b'.decode m = .ok (args', targets) ∧ CarriedArguments args args' := by
  simp only [Backend.decode, hd, hd', Except.bind_eq_ok, Except.pure_eq_ok, Except.ok.injEq,
    exists_eq_left', Prod.mk.injEq] at h ⊢
  obtain ⟨⟨args, targets⟩, hfill, _, hbind, rfl, rfl⟩ := h
  obtain ⟨args', hfill', hrel⟩ := fillSlots_carried hcodecs hext hold hnew hext.slots
    (fun _ hs => hs) hknown hfill
  have hargs : CarriedArguments (.ofEntries args) (.ofEntries args') := Value.rel_ofEntries hrel
  exact ⟨_, ⟨(args', targets), hfill', (), checkBindings_carried hext hargs hbind, rfl, rfl⟩, hargs⟩

end Decoding

theorem ExtendsInput.refl {s : MutationSnapshot} (h : s.input.Valid) : ExtendsInput s s where
  slots := List.forall₂_same.mpr fun s _ => compatibleSlot_iff.mpr ⟨⟨rfl, rfl, rfl, rfl, rfl⟩,
    fun _ hf => hf⟩
  enums en hen := by
    obtain ⟨e, he⟩ : ∃ e, s.enums.find? (·.name = en.name) = some e :=
      Option.isSome_iff_exists.mp (List.find?_isSome.mpr ⟨en, hen, by simp⟩)
    obtain rfl := h.enum_unique (List.mem_of_find?_eq_some he) hen
      (by simpa using List.find?_some he)
    exact ⟨e, he, fun _ hx => hx⟩
  models m hm := by
    have hfound := h.model_of_mem hm
    have hdistinct := (h.models m hm).fields.1
    refine ⟨m, required_eq_ok.mp hfound, rfl, fun f hf => field_of_mem hdistinct hf,
      fun _ f hf hnone => ?_⟩
    rw [show m.fields.find? (·.name = f.name) = some f from field_of_mem hdistinct hf] at hnone
    cases hnone
  distinct m hm := (h.models m hm).fields.1

/-- Along every chain of compilations, the versions of a mutation's input stay, the superseded ones as
    they are, and the latest never decreases; and a payload that names only fields its version knew is
    read under that version's input later on with the same targets and arguments. -/
theorem mutation_history_sound {earlier later : List Validated}
    (hvalid : ∀ v ∈ earlier ++ later, ∃ d, validate d = .ok v) {h h' : MutationHistory}
    (hrun : chain reconcileHistory none (earlier.map descriptors) = .ok (some h))
    (hrun' : chain reconcileHistory (some h) (later.map descriptors) = .ok (some h')) :
    (∀ name n, (h.entry name n).isSome → (h'.entry name n).isSome) ∧
    (∀ name n n' s, h.entry name n = some s → (h.entry name n').isSome → n < n' →
      h'.entry name n = some s) ∧
    (∀ name, latest ((h.lookup name).getD .empty) ≤ latest ((h'.lookup name).getD .empty)) ∧
    ∀ name n old new, h.entry name n = some old → h'.entry name n = some new →
      ∀ (b b' : Backend) m, b'.codecs = b.codecs → b.descriptor m = .ok old.descriptor →
        b'.descriptor m = .ok new.descriptor → KnownOnly old m.operations →
        ∀ args targets, b.decode m = .ok (args, targets) →
          ∃ args', b'.decode m = .ok (args', targets) ∧ CarriedArguments args args' := by
  have haccepted : ∀ v ∈ earlier ++ later, Accepted v := fun v hv => by
    obtain ⟨d, hd⟩ := hvalid v hv
    exact validate_accepted hd
  obtain ⟨hs, -⟩ := mutationChain_keeps (h := none)
    (fun v hv => haccepted v (List.mem_append_left _ hv)) Registry.every_empty hrun
  obtain ⟨hs', hgrown⟩ := mutationChain_keeps (h := some h)
    (fun v hv => haccepted v (List.mem_append_right _ hv)) hs hrun'
  refine ⟨fun name n => hgrown.isSome, fun name n n' s => hgrown.superseded,
    fun name => latest_mono hgrown name,
    fun name n old new ho hn b b' m hcodecs hd hd' hknown args targets hdecode => ?_⟩
  have hold := hs ho
  have hnew := hs' hn
  obtain ⟨kept, hkept, heq⟩ := hgrown.kept ho
  obtain rfl := Option.some.inj (hn.symm.trans hkept)
  have hext : ExtendsInput old new := by
    rcases heq with rfl | hc
    · exact .refl hold.valid
    · exact hc
  exact decode_carried hcodecs hext hold hnew hd hd' hknown hdecode

namespace Sample

/-- Notes, saved with whatever fields they were given since. -/
def notes (added : List FieldDecl) : Declarations where
  models := [{
    name := "Note", version := .first, identity := ["id"], unique := [], pos := {}
    fields := [⟨"id", "String", false, false, .empty, {}⟩,
      ⟨"text", "String", false, false, .empty, {}⟩] ++ added }]
  mutations := [{
    name := "Save", version := .first, sequence := none, pos := {}, named := by decide
    slots := [⟨"note", "Note", .create, .single, none, .obj [], {}, nofun⟩] }]

/-- Notes as they are validated. -/
def noteSchema (added : List FieldDescriptor) : Validated where
  enums := []
  models := [{
    name := "Note", identity := ["id"]
    fields := [⟨"id", .scalar .string, false, none⟩,
      ⟨"text", .scalar .string, false, none⟩] ++ added }]
  requirements := []
  prerequisites := []
  mutations := [{
    name := "Save", version := 1, slots := [⟨"note", "Note", .create, .single, none, []⟩] }]

def noteInput (added : List FieldDescriptor) : MutationSnapshot :=
  capture (descriptors (noteSchema added))
    ⟨"Save", 1, [⟨"note", "Note", .create, .single, none, []⟩], .null⟩

def noteHistory (added : List FieldDescriptor) : MutationHistory :=
  Registry.record .empty "Save" 1 (noteInput added)

def tag : FieldDescriptor := ⟨"tag", .scalar .string, true, none⟩

def noteConfig (added : List FieldDescriptor) : Config where
  schema := (noteSchema added).schema
  mutations := [(noteInput added).descriptor]
  loaders := ["Note"]
  models := (noteSchema added).models.map (captureModel (descriptors (noteSchema added)))

def notesBefore : Backend := ⟨dated, noteConfig [], noteConfig [], by decide +kernel⟩

def notesAfter : Backend := ⟨dated, noteConfig [tag], noteConfig [tag], by decide +kernel⟩

def saved : WireMutation where
  ordinal := 1
  name := "Save"
  version := 1
  operations := [{ op := .create, model := "Note", identity := .ofEntries [("id", .str "n")]
                   values := some (.ofEntries [("text", .str "milk")]) }]

theorem noteSchema_valid :
    ∀ v ∈ [noteSchema []] ++ [noteSchema [tag]], ∃ d, validate d = .ok v := by
  intro v hv
  rcases List.mem_pair.mp hv with rfl | rfl
  · exact ⟨notes [], by decide +kernel⟩
  · exact ⟨notes [⟨"tag", "String", false, true, .empty, {}⟩], by decide +kernel⟩

end Sample

/-- A note saved before notes had tags is read with a null tag. -/
theorem mutation_history_sound_notes : ∃ args',
    Sample.notesAfter.decode Sample.saved = .ok (args', [⟨"Note", .ofEntries [("id", .str "n")]⟩]) ∧
      CarriedArguments (.ofEntries [("note", .ofEntries [("identity", .ofEntries [("id", .str "n")]),
        ("data", .ofEntries [("text", .str "milk")])])]) args' := by
  have hrun : chain reconcileHistory none ([Sample.noteSchema []].map descriptors) =
      .ok (some (Sample.noteHistory [])) := rfl
  have hrun' : chain reconcileHistory (some (Sample.noteHistory []))
      ([Sample.noteSchema [Sample.tag]].map descriptors) =
      .ok (some (Sample.noteHistory [Sample.tag])) := rfl
  obtain ⟨-, -, -, hdecode⟩ := mutation_history_sound Sample.noteSchema_valid hrun hrun'
  refine hdecode "Save" 1 _ _ rfl rfl Sample.notesBefore Sample.notesAfter Sample.saved rfl rfl rfl
    (fun op hop values hvalues e he => ?_) _ _ rfl
  obtain rfl := List.mem_singleton.mp hop
  obtain rfl := Option.some.inj hvalues
  obtain rfl := List.mem_singleton.mp he
  exact ⟨["id", "text"], rfl, by decide⟩

end Compiler
end AheadSync
