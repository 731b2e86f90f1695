import AheadSync.Lib.Greedy
import AheadSync.Server.Decode

/-! What decoding accepts: the assignments of operations to the slots of a mutation, flattened in slot
    order. -/

namespace AheadSync

def Cardinality.count : Cardinality → Count
  | .single => .one
  | .optional => .atMostOne
  | .list => .any

/-- An operation fits a slot of its model and kind. -/
def slotGrammar : Greedy Slot Operation where
  fits slot op := op.model = slot.model ∧ op.op = slot.operation
  count slot := slot.cardinality.count

/-- A slot with the operations assigned to it, each with the argument it is read as and the record it
    targets. -/
structure Filling where
  slot : Slot
  taken : List (Operation × Value × RecordKey)

namespace Filling
variable (f : Filling)

def operations : List Operation := f.taken.map (·.1)

def arguments : List Value := f.taken.map (·.2.1)

def targets : List RecordKey := f.taken.map (·.2.2)

/-- The value of the slot: every argument of a list, else the argument there is, if any. -/
def value : Value :=
  match f.slot.cardinality, f.arguments with
  | .list, vs => .arr vs
  | _, [v] => v
  | _, _ => .null

/-- Each operation fits the slot and is valid for it, and there are as many as it takes. -/
structure Respects (b : Backend) (d : MutationDescriptor) (schema : Schema) : Prop where
  cardinality : f.slot.cardinality.count.Admits f.taken.length
  operations : ∀ t ∈ f.taken, (t.1.model = f.slot.model ∧ t.1.op = f.slot.operation) ∧
    b.argument d schema f.slot t.1 = .ok t.2

end Filling

/-- The operations of an assignment, in slot order. -/
def flattened (a : List Filling) : List Operation := a.flatMap (·.operations)

/-- The arguments of an assignment, by slot. -/
def argumentsOf (a : List Filling) : Value := .ofEntries (a.map fun f => (f.slot.name, f.value))

/-- The records an assignment targets, in operation order. -/
def targetsOf (a : List Filling) : List RecordKey := a.flatMap (·.targets)

/-- The value a created record has in a field of its identity or its data. -/
def createdField (row : Value) (field : String) : Value :=
  ((row.index "identity").get field).getD ((row.index "data").index field)

/-- Whatever is created for a slot with a binding names, in the bound fields, the record that fills the
    parent slot. -/
def Bound (schema : Schema) (a : List Filling) : Prop :=
  ∀ f ∈ a, f.slot.operation = .create → ∀ binding ∈ f.slot.bindings,
    ∀ p ∈ a, p.slot.name = binding.slot → ∀ model, schema.model p.slot.model = .ok model →
      ∀ parent ∈ p.targets, ∀ row ∈ f.arguments, ∀ e ∈ binding.fields.zip model.identity,
        createdField row e.1 = parent.identity.index e.2

/-- An assignment of valid operations to the slots of a mutation. -/
structure Assignment (b : Backend) (d : MutationDescriptor) (schema : Schema) (a : List Filling) :
    Prop where
  slots : a.map (·.slot) = d.slots
  respects : ∀ f ∈ a, f.Respects b d schema
  bound : Bound schema a

variable {b : Backend} {d : MutationDescriptor} {schema : Schema} {slot : Slot}

/-- The slots of a mutation as its validation leaves them: they can be told apart, and each binding
    names a single slot. -/
structure Slotted (d : MutationDescriptor) (schema : Schema) : Prop where
  distinct : (d.slots.map (·.name)).Nodup
  unambiguous : slotGrammar.Unambiguous d.slots
  bindings : ∀ slot ∈ d.slots, ∀ binding ∈ slot.bindings, ∃ parent,
    d.slots.find? (·.name = binding.slot) = some parent ∧ parent.cardinality = .single ∧
      ∃ model, schema.model parent.model = .ok model

/-- Filling a slot reads what the grammar takes for it. -/
theorem fillSlot_eq : ∀ ops : List Operation, b.fillSlot d schema slot ops = (do
    let filled ← (slotGrammar.take slot ops).1.mapM (b.argument d schema slot)
    return (filled, (slotGrammar.take slot ops).2))
  | [] => rfl
  | op :: ops => by
    have hfits : slotGrammar.fits slot op = true ↔
        op.model = slot.model ∧ op.op = slot.operation := by simp [slotGrammar]
    have hcount : slotGrammar.count slot = .any ↔ slot.cardinality = .list := by
      cases h : slot.cardinality <;> simp [slotGrammar, h, Cardinality.count]
    rw [Backend.fillSlot, Greedy.take]
    by_cases hfit : op.model = slot.model ∧ op.op = slot.operation
    · rw [if_pos hfit, if_pos (hfits.mpr hfit)]
      by_cases hlist : slot.cardinality = .list
      · rw [if_pos (hcount.mpr hlist)]
        simp only [hlist, if_true, fillSlot_eq ops, List.mapM_cons]
        cases b.argument d schema slot op with
        | error err => rfl
        | ok one =>
          cases (slotGrammar.take slot ops).1.mapM (b.argument d schema slot) <;> rfl
      · rw [if_neg (fun h => hlist (hcount.mp h))]
        simp only [hlist, if_false, List.mapM_cons, List.mapM_nil]
        cases b.argument d schema slot op <;> rfl
    · rw [if_neg hfit, if_neg (fun h => hfit (hfits.mp h))]
      rfl

/-- A slot with as many operations as it takes has a value. -/
theorem slotValue_of_admits {f : Filling} (h : f.slot.cardinality.count.Admits f.taken.length) :
    Backend.slotValue f.slot f.arguments = .ok f.value := by
  obtain ⟨slot, taken⟩ := f
  unfold Backend.slotValue Filling.value
  match hc : slot.cardinality, taken, h with
  | .list, _, _ => simp [hc]
  | .single, [t], _ => simp [hc, Filling.arguments]
  | .optional, [], _ => simp [hc, Filling.arguments]
  | .optional, [t], _ => simp [hc, Filling.arguments]
  | .single, [], h => simp [Count.Admits, Cardinality.count, hc] at h
  | .single, _ :: _ :: _, h => simp [Count.Admits, Cardinality.count, hc] at h
  | .optional, _ :: _ :: _, h => simp [Count.Admits, Cardinality.count, hc] at h

/-- A slot with a value has as many operations as it takes. -/
theorem admits_of_slotValue {values : List Value} {value : Value}
    (hlen : slot.cardinality.count ≠ .any → values.length ≤ 1)
    (h : Backend.slotValue slot values = .ok value) :
    slot.cardinality.count.Admits values.length := by
  cases hc : slot.cardinality with
  | list => trivial
  | optional => exact hlen (by rw [hc]; exact nofun)
  | single =>
    have hle := hlen (by rw [hc]; exact nofun)
    match values, hle, h with
    | [v], _, _ => rfl
    | [], _, h => simp [Backend.slotValue, hc] at h

/-- Filling the slots reads what the grammar fills them with. -/
theorem fillSlots_iff : ∀ {slots : List Slot} {ops : List Operation} {args : List (String × Value)}
    {targets : List RecordKey}, b.fillSlots d schema slots ops = .ok (args, targets) ↔
      ∃ a : List Filling, a.map (·.slot) = slots ∧
        slotGrammar.fill slots ops = (a.map (·.operations), []) ∧
        (∀ f ∈ a, f.Respects b d schema) ∧
        args = a.map (fun f => (f.slot.name, f.value)) ∧ targets = targetsOf a
  | [], ops, args, targets => by
    simp only [Backend.fillSlots, Except.bind_eq_ok, ensure_eq_ok, Except.pure_eq_ok,
      Prod.mk.injEq, Greedy.fill, List.map_eq_nil_iff, exists_eq_left, List.map_nil, targetsOf,
      List.flatMap_nil, List.not_mem_nil, false_imp_iff, implies_true, true_and, exists_const]
    grind
  | slot :: slots, ops, args, targets => by
    simp only [Backend.fillSlots, fillSlot_eq, Except.bind_eq_ok, Except.pure_eq_ok, Prod.mk.injEq,
      Greedy.fill]
    constructor
    · rintro ⟨_, ⟨filled, hfilled, rfl⟩, value, hvalue, ⟨rest, more⟩, hrest, rfl, rfl⟩
      obtain ⟨a, rfl, hfill, hrespects, rfl, rfl⟩ := fillSlots_iff.mp hrest
      have hrel := List.mapM_eq_ok_iff.mp hfilled
      have hlen := hrel.length_eq
      let f : Filling := ⟨slot, (slotGrammar.take slot ops).1.zip filled⟩
      have hops : f.operations = (slotGrammar.take slot ops).1 := List.map_fst_zip hlen.le
      have hsnd : f.taken.map (·.2) = filled := List.map_snd_zip hlen.ge
      have hargs : f.arguments = filled.map (·.1) := by
        rw [← hsnd, List.map_map]
        rfl
      have htargets : f.targets = filled.map (·.2) := by
        rw [← hsnd, List.map_map]
        rfl
      have hadmits : slot.cardinality.count.Admits f.taken.length := by
        have hf := admits_of_slotValue (fun hany => ?_) hvalue
        · rwa [← hsnd, List.length_map, List.length_map] at hf
        · rw [List.length_map, ← hlen]
          exact Greedy.take_length hany ops
      have hf : f.Respects b d schema := by
        refine ⟨hadmits, fun t ht => ⟨?_, List.forall₂_zip hrel ht⟩⟩
        have hmem : t.1 ∈ (slotGrammar.take slot ops).1 := by
          rw [← hops]
          exact List.mem_map_of_mem ht
        simpa [slotGrammar] using Greedy.take_fits ops t.1 hmem
      refine ⟨f :: a, rfl, ?_, List.forall_mem_cons.mpr ⟨hf, hrespects⟩, ?_, ?_⟩
      · rw [hfill, List.map_cons, hops]
        exact ⟨rfl, rfl⟩
      · have hval := slotValue_of_admits hf.cardinality
        rw [hargs] at hval
        obtain rfl := Except.ok.inj (hvalue.symm.trans hval)
        rfl
      · rw [← htargets]
        rfl
    · rintro ⟨a, hslots, ⟨hfill, hleft⟩, hrespects, rfl, rfl⟩
      obtain ⟨f, a, rfl⟩ := List.exists_cons_of_ne_nil (l := a) (by rintro rfl; cases hslots)
      obtain ⟨rfl, rfl⟩ := List.cons.inj hslots
      obtain ⟨hops, hrest⟩ := List.cons.inj hfill
      obtain ⟨hf, hall⟩ := List.forall_mem_cons.mp hrespects
      refine ⟨(f.taken.map (·.2), _), ⟨f.taken.map (·.2), ?_, rfl⟩, f.value, ?_,
        (a.map fun f => (f.slot.name, f.value), targetsOf a),
        fillSlots_iff.mpr ⟨a, rfl, Prod.ext hrest hleft, hall, rfl, rfl⟩, rfl, ?_⟩
      · change (slotGrammar.take f.slot ops).1.mapM _ = _
        rw [hops, List.mapM_eq_ok_iff]
        change List.Forall₂ _ (f.taken.map (·.1)) _
        rw [List.forall₂_map_left_iff, List.forall₂_map_right_iff, List.forall₂_same]
        exact fun t ht => (hf.operations t ht).2
      · rw [List.map_map]
        exact slotValue_of_admits hf.cardinality
      · rw [List.map_map]
        rfl

theorem argument_identity {op : Operation} {out : Value × RecordKey}
    (h : b.argument d schema slot op = .ok out) :
    out.1.asObject.isSome ∧ out.1.index "identity" = out.2.identity := by
  simp only [Backend.argument, Except.bind_eq_ok, required_eq_ok] at h
  obtain ⟨_, -, _, -, key, -, h⟩ := h
  have hbase : (Value.ofEntries [("identity", key.identity)]).index "identity" = key.identity := rfl
  split at h
  · simp only [Except.pure_eq_ok] at h
    obtain rfl := h
    exact ⟨rfl, hbase⟩
  · simp only [Except.bind_eq_ok, required_eq_ok, Except.pure_eq_ok] at h
    obtain ⟨_, -, _, -, rfl⟩ := h
    exact ⟨rfl, by rw [Value.index, Value.get_set, if_neg (by decide)]; exact hbase⟩
  · simp only [Except.bind_eq_ok, required_eq_ok, Except.pure_eq_ok] at h
    obtain ⟨_, -, _, -, rfl⟩ := h
    exact ⟨rfl, by rw [Value.index, Value.get_set, if_neg (by decide)]; exact hbase⟩

section Bindings
variable {a : List Filling}

theorem index_argumentsOf (hnd : (a.map (·.slot.name)).Nodup) {f : Filling} (hf : f ∈ a) :
    (argumentsOf a).index f.slot.name = f.value := by
  rw [Value.index, argumentsOf, Value.get_ofEntries_of_mem (v := f.value) ?_
    (List.mem_map.mpr ⟨f, hf, rfl⟩)]
  · rfl
  · rw [List.map_map]
    exact hnd

/-- The rows of a slot are its arguments. -/
theorem slotRows_of_respects {f : Filling} (hf : f.Respects b d schema) :
    Backend.slotRows f.slot f.value = .ok f.arguments := by
  obtain ⟨slot, taken⟩ := f
  have hobj : ∀ t ∈ taken, ∃ fs, t.2.1 = .obj fs := fun t ht => by
    have h := (argument_identity (hf.operations t ht).2).1
    cases ht : t.2.1 <;> simp_all [Value.asObject]
  have hlen := hf.cardinality
  unfold Backend.slotRows Filling.value
  match hc : slot.cardinality, taken, hlen, hobj with
  | .list, _, _, _ => simp [hc]
  | .single, [t], _, hobj | .optional, [t], _, hobj =>
    obtain ⟨fs, hfs⟩ := hobj t (List.mem_singleton_self t)
    simp [hc, Filling.arguments, hfs]
  | .optional, [], _, _ => simp [hc, Filling.arguments]
  | .single, [], h, _ | .single, _ :: _ :: _, h, _ | .optional, _ :: _ :: _, h, _ =>
    simp [Count.Admits, Cardinality.count, hc] at h

/-- The value of a single slot is the argument that targets its record. -/
theorem value_identity {f : Filling} (hf : f.Respects b d schema)
    (hsingle : f.slot.cardinality = .single) :
    ∃ key, f.targets = [key] ∧ f.value.index "identity" = key.identity := by
  obtain ⟨slot, taken⟩ := f
  have hlen := hf.cardinality
  simp only at hsingle
  match taken, hlen, hf with
  | [t], _, hf =>
    refine ⟨t.2.2, rfl, ?_⟩
    simp only [Filling.value, Filling.arguments, hsingle, List.map_cons, List.map_nil]
    exact (argument_identity (hf.operations t (List.mem_singleton_self t)).2).2
  | [], h, _ | _ :: _ :: _, h, _ => simp [Count.Admits, Cardinality.count, hsingle] at h

/-- The check of bindings passes exactly when the assignment is bound. -/
theorem checkBindings_iff (hs : Slotted d schema) (hslots : a.map (·.slot) = d.slots)
    (hrespects : ∀ f ∈ a, f.Respects b d schema) :
    Backend.checkBindings d schema (argumentsOf a) = .ok () ↔ Bound schema a := by
  have hnames : (a.map (·.slot.name)).Nodup := by
    have h := hs.distinct
    rw [← hslots, List.map_map] at h
    exact h
  have hslot : ∀ f ∈ a, f.slot ∈ d.slots := fun f hf => hslots ▸ List.mem_map_of_mem hf
  -- the parent of a binding is the one filling of its name
  have hparent : ∀ f ∈ a, ∀ binding ∈ f.slot.bindings, ∃ p ∈ a, p.slot.name = binding.slot ∧
      d.slots.find? (·.name = binding.slot) = some p.slot ∧ p.slot.cardinality = .single ∧
      ∃ model, schema.model p.slot.model = .ok model := fun f hf binding hb => by
    obtain ⟨parent, hfound, hsingle, hmodel⟩ := hs.bindings f.slot (hslot f hf) binding hb
    obtain ⟨p, hp, rfl⟩ := List.mem_map.mp (hslots ▸ List.mem_of_find?_eq_some hfound)
    exact ⟨p, hp, by simpa using List.find?_some hfound, hfound, hsingle, hmodel⟩
  simp only [Backend.checkBindings, List.forM_eq_ok, Except.bind_eq_ok, required_eq_ok,
    Except.mapError_eq_ok, ensure_eq_ok]
  constructor
  · intro h f hf hcreate binding hb p hp hname model hmodel parent hparents row hrow e he
    obtain ⟨parent', hfound, model', hm, rows, hrows, hall⟩ := h f.slot
      (List.mem_filter.mpr ⟨hslot f hf, decide_eq_true hcreate⟩) binding hb
    obtain ⟨p', hp', hname', hfound', hsingle, -⟩ := hparent f hf binding hb
    obtain rfl := List.inj_on_of_nodup_map hnames hp hp' (hname.trans hname'.symm)
    rw [hfound] at hfound'
    obtain rfl := Option.some.inj hfound'
    rw [hmodel] at hm
    obtain rfl := Except.ok.inj hm
    rw [index_argumentsOf hnames hf, slotRows_of_respects (hrespects f hf)] at hrows
    obtain rfl := Except.ok.inj hrows
    obtain ⟨key, htargets, hid⟩ := value_identity (hrespects p hp) hsingle
    rw [htargets] at hparents
    obtain rfl := List.mem_singleton.mp hparents
    have hrow' := hall row hrow e he
    rw [index_argumentsOf hnames hp, hid] at hrow'
    exact hrow'
  · intro h slot hslot' binding hb
    obtain ⟨hmem, hcreate⟩ := List.mem_filter.mp hslot'
    obtain ⟨f, hf, rfl⟩ := List.mem_map.mp (hslots ▸ hmem)
    obtain ⟨p, hp, hname, hfound, hsingle, model, hmodel⟩ := hparent f hf binding hb
    obtain ⟨key, htargets, hid⟩ := value_identity (hrespects p hp) hsingle
    refine ⟨p.slot, hfound, model, hmodel, f.arguments, ?_, fun row hrow e he => ?_⟩
    · rw [index_argumentsOf hnames hf]
      exact slotRows_of_respects (hrespects f hf)
    · rw [index_argumentsOf hnames hp, hid]
      exact h f hf (of_decide_eq_true hcreate) binding hb p hp hname model hmodel key
        (by rw [htargets]; exact List.mem_singleton_self _) row hrow e he

end Bindings

/-- The greedy filling of what an assignment flattens to is the assignment. -/
theorem fill_flattened {a : List Filling} (hs : Slotted d schema) (ha : Assignment b d schema a) :
    slotGrammar.fill d.slots (flattened a) = (a.map (·.operations), []) := by
  have hfills : slotGrammar.Fills d.slots (a.map (·.operations)) := by
    rw [← ha.slots, Greedy.Fills, List.forall₂_map_left_iff, List.forall₂_map_right_iff,
      List.forall₂_same]
    intro f hf
    refine ⟨fun op hop => ?_, ?_⟩
    · obtain ⟨t, ht, rfl⟩ := List.mem_map.mp hop
      simpa [slotGrammar] using ((ha.respects f hf).operations t ht).1
    · rw [Filling.operations, List.length_map]
      exact (ha.respects f hf).cardinality
  rw [flattened, List.flatMap_def]
  exact Greedy.fill_flatten hs.unambiguous hfills

/-- Decoding accepts exactly the operation lists that an assignment flattens to, and answers its
    arguments and its targets. -/
theorem decode_iff {m : WireMutation} (hd : b.descriptor m = .ok d)
    (hs : Slotted d (b.config.inputSchema d)) {args : Value} {targets : List RecordKey} :
    b.decode m = .ok (args, targets) ↔ ∃ a, Assignment b d (b.config.inputSchema d) a ∧
      flattened a = m.operations ∧ args = argumentsOf a ∧ targets = targetsOf a := by
  simp only [Backend.decode, hd, Except.bind_eq_ok, Except.pure_eq_ok, Except.ok.injEq,
    exists_eq_left', Prod.mk.injEq]
  constructor
  · rintro ⟨⟨args, targets⟩, hfill, _, hbind, rfl, rfl⟩
    obtain ⟨a, hslots, hgreedy, hrespects, rfl, rfl⟩ := fillSlots_iff.mp hfill
    have hops := Greedy.fill_eq_append (g := slotGrammar) d.slots m.operations
    rw [hgreedy, List.append_nil, ← List.flatMap_def] at hops
    exact ⟨a, ⟨hslots, hrespects, (checkBindings_iff hs hslots hrespects).mp hbind⟩, hops, rfl, rfl⟩
  · rintro ⟨a, ha, hops, rfl, rfl⟩
    have hfill : b.fillSlots d (b.config.inputSchema d) d.slots m.operations =
        .ok (a.map (fun f => (f.slot.name, f.value)), targetsOf a) :=
      fillSlots_iff.mpr ⟨a, ha.slots, hops ▸ fill_flattened hs ha, ha.respects, rfl, rfl⟩
    have hbind := (checkBindings_iff hs ha.slots ha.respects).mpr ha.bound
    exact ⟨_, hfill, (), hbind, rfl, rfl⟩

end AheadSync
