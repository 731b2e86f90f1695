import AheadSync.Client.Calls
import AheadSync.Core.Compatibility
import AheadSync.Core.Valid

/-! An additive upgrade. Reopening a store gives every row its new columns at their defaults, while the
    queued operations keep the values of the schema they were made for. A rebuild writes a row with a
    null in every column its operations leave out, which a column that may not be null refuses. -/

namespace AheadSync

/-- What a column holds in the rows it is added to. -/
def FieldDescriptor.fill (f : FieldDescriptor) : Value :=
  if f.nullable then .null else f.default.getD .null

/-- A row with every column it lacks at its default. -/
def filled (model : ModelDescriptor) (row : Value) : Value :=
  .ofEntries (model.fields.map fun f => (f.name, (row.get f.name).getD f.fill))

def Engine.filled (e : Engine) (key : RecordKey) (row : Option Value) : Option Value :=
  match e.schema.model key.model with
  | .ok model => row.map (AheadSync.filled model)
  | .error _ => row

section Fill
variable {old model : ModelDescriptor} {row : Value} {k : String}

theorem get_filled (hnd : (model.fields.map (·.name)).Nodup) {f : FieldDescriptor}
    (hf : f ∈ model.fields) : (filled model row).get f.name = some ((row.get f.name).getD f.fill) := by
  refine Value.get_ofEntries_of_mem ?_ (List.mem_map_of_mem hf)
  rw [List.map_map]
  exact hnd

theorem get_filled_none (hk : k ∉ model.fields.map (·.name)) : (filled model row).get k = none := by
  refine Value.get_setAll_of_notMem (o := .obj []) ?_
  rwa [List.map_map]

/-- What a column is added with; a required one is never null. -/
theorem addedColumn_eq_ok {f : FieldDescriptor} {x : String × Value} (h : addedColumn f = .ok x) :
    x = (f.name, f.fill) ∧ (f.nullable = false → f.fill ≠ .null) := by
  unfold addedColumn at h
  split at h
  · rename_i hn
    obtain rfl := Except.ok.inj h
    rw [FieldDescriptor.fill, if_pos hn]
    exact ⟨rfl, fun hf => absurd hn (by simp [hf])⟩
  · rename_i hn
    simp only [Except.bind_eq_ok, Except.pure_eq_ok] at h
    obtain ⟨v, hv, rfl⟩ := h
    unfold literal at hv
    split at hv
    · cases hv
    · cases hv
    · rename_i value hnull hdefault
      obtain rfl := Except.ok.inj hv
      rw [FieldDescriptor.fill, if_neg hn, hdefault]
      exact ⟨rfl, fun _ => hnull⟩

/-- The columns a table lacks. -/
theorem mem_missingColumns {added : List (String × Value)}
    (h : missingColumns old model = .ok added) : (∀ x, x ∈ added ↔
      ∃ f ∈ model.fields, old.field f.name = none ∧ x = (f.name, f.fill)) ∧
      ∀ f ∈ model.fields, old.field f.name = none → f.nullable = false → f.fill ≠ .null := by
  simp only [missingColumns, Except.bind_eq_ok, Except.pure_eq_ok] at h
  obtain ⟨lists, hlists, rfl⟩ := h
  -- a column that the table has adds nothing, another one itself
  have hall : List.Forall₂ (fun f l => (∀ x, x ∈ l ↔ old.field f.name = none ∧ x = (f.name, f.fill)) ∧
      (old.field f.name = none → f.nullable = false → f.fill ≠ .null)) model.fields lists := by
    refine (List.mapM_eq_ok_iff.mp hlists).imp fun f l hl => ?_
    cases hold : old.field f.name with
    | some existing =>
      simp only [hold, Except.bind_eq_ok, Except.pure_eq_ok] at hl
      obtain ⟨-, -, rfl⟩ := hl
      simp
    | none =>
      simp only [hold, Except.bind_eq_ok, Except.pure_eq_ok] at hl
      obtain ⟨y, hy, rfl⟩ := hl
      obtain ⟨rfl, hnull⟩ := addedColumn_eq_ok hy
      simpa using hnull
  refine ⟨fun x => ?_, fun f hf hnone => ?_⟩
  · rw [List.mem_flatten]
    constructor
    · rintro ⟨l, hl, hx⟩
      obtain ⟨f, hf, hfl⟩ := List.forall₂_mem hall hl
      exact ⟨f, hf, (hfl.1 x).mp hx⟩
    · rintro ⟨f, hf, hx⟩
      obtain ⟨l, hl, hfl⟩ := List.forall₂_mem_left hall hf
      exact ⟨l, hl, (hfl.1 x).mpr hx⟩
  · obtain ⟨l, -, hfl⟩ := List.forall₂_mem_left hall hf
    exact hfl.2 hnone

theorem field_eq_none : model.field k = none ↔ k ∉ model.fields.map (·.name) := by
  simp only [ModelDescriptor.field, List.find?_eq_none, decide_eq_true_eq, List.mem_map, not_exists,
    not_and]

/-- A row of the table with the columns it lacks added. -/
theorem setAll_missing (hg : ModelGrows old model) (hnd : (model.fields.map (·.name)).Nodup)
    {added : List (String × Value)} (h : missingColumns old model = .ok added)
    (hrow : RowOk old row) : row.setAll added = filled model row := by
  have hmem := (mem_missingColumns h).1
  have hnames : ∀ k, k ∈ added.map Prod.fst ↔
      k ∈ model.fields.map (·.name) ∧ old.field k = none := by
    intro k
    simp only [List.mem_map, hmem]
    constructor
    · rintro ⟨x, ⟨f, hf, hnone, rfl⟩, rfl⟩
      exact ⟨⟨f, hf, rfl⟩, hnone⟩
    · rintro ⟨⟨f, hf, rfl⟩, hnone⟩
      exact ⟨_, ⟨f, hf, hnone, rfl⟩, rfl⟩
  have hold : ∀ k, row.get k = none ↔ old.field k = none := fun k => by
    rw [field_eq_none, rowOk_get hrow k, Option.not_isSome_iff_eq_none]
  refine Value.ext_get (Value.ordered_setAll (rowOk_ordered hrow)) (Value.ordered_ofEntries _)
    fun k => ?_
  by_cases hk : k ∈ model.fields.map (·.name)
  · obtain ⟨f, hf, rfl⟩ := List.mem_map.mp hk
    refine Eq.trans ?_ (get_filled hnd hf).symm
    by_cases hadded : f.name ∈ added.map Prod.fst
    · obtain ⟨v, hv, hget⟩ := Value.get_setAll_of_mem row hadded
      obtain ⟨g, hg', hnone, heq⟩ := (hmem _).mp hv
      obtain ⟨hname, rfl⟩ := Prod.mk.inj heq
      obtain rfl : f = g := List.inj_on_of_nodup_map hnd hf hg' hname
      rw [hget, (hold f.name).mpr hnone]
      rfl
    · rw [Value.get_setAll_of_notMem hadded]
      have hsome : row.get f.name ≠ none := fun hnone =>
        hadded ((hnames f.name).mpr ⟨hk, (hold f.name).mp hnone⟩)
      obtain ⟨v, hv⟩ := Option.ne_none_iff_exists'.mp hsome
      rw [hv]
      rfl
  · rw [show (filled model row).get k = none from get_filled_none hk,
      Value.get_setAll_of_notMem fun hadded => hk ((hnames k).mp hadded).1]
    refine (hold k).mpr (field_eq_none.mpr fun hkept => hk ?_)
    obtain ⟨f, hf, rfl⟩ := List.mem_map.mp hkept
    obtain ⟨f', hf', -⟩ := hg.kept f hf
    exact List.mem_map.mpr ⟨f', field_mem hf', field_name hf'⟩

/-- A filled row is a proper row of the grown model. -/
theorem rowOk_filled (hg : ModelGrows old model) (hnd : (model.fields.map (·.name)).Nodup)
    {added : List (String × Value)} (h : missingColumns old model = .ok added)
    (hrow : RowOk old row) : RowOk model (filled model row) where
  full := by
    refine columns_eq_self (Value.ordered_ofEntries _) fun k => ?_
    by_cases hk : k ∈ model.fields.map (·.name)
    · obtain ⟨f, hf, rfl⟩ := List.mem_map.mp hk
      have hget : (filled model row).get f.name = _ := get_filled hnd hf
      simp [hk, hget]
    · simp [hk, get_filled_none hk]
  notNull := by
    simp only [notNull, List.all_eq_true, Bool.or_eq_true, Bool.not_eq_true']
    intro f hf
    rw [Value.index, get_filled hnd hf, Option.getD_some]
    cases hn : f.nullable with
    | true => exact Or.inl rfl
    | false =>
      refine Or.inr ?_
      cases hget : row.get f.name with
      | none =>
        have hnone : old.field f.name = none := by
          rw [field_eq_none, rowOk_get hrow f.name, hget]
          simp
        simpa [Value.isNull] using (mem_missingColumns h).2 f hf hnone hn
      | some v =>
        -- the column was there, and required
        have hmem : f.name ∈ old.fields.map (·.name) := (rowOk_get hrow f.name).mpr (by simp [hget])
        obtain ⟨g, hg', hname⟩ := List.mem_map.mp hmem
        obtain ⟨f', hf', -, hnull⟩ := hg.kept g hg'
        obtain rfl : f' = f := List.inj_on_of_nodup_map hnd (field_mem hf') hf
          ((field_name hf').trans hname)
        have hall := hrow.notNull
        simp only [notNull, List.all_eq_true, Bool.or_eq_true, Bool.not_eq_true'] at hall
        have hvalue := (hall g hg').resolve_left (by simp [← hnull, hn])
        rw [hname, Value.index, hget] at hvalue
        exact hvalue

end Fill

section Reconcile
variable {old new : Schema} {st st' : Store} {t : Table RecordKey Value} {k : RecordKey}
  {name : String} {added : List (String × Value)}

/-- Columns are added to the rows of a scan one by one. -/
theorem lookup_addRows : ∀ {rows : List (RecordKey × Value)} {acc : Table RecordKey Value},
    (rows.map Prod.fst).Nodup → (∀ row, (k, row) ∈ rows → acc.lookup k = some row) →
    (rows.foldl (fun t (key, row) =>
        if key.model = name then t.put key (some (row.setAll added)) else t) acc).lookup k =
      if k ∈ rows.map Prod.fst ∧ k.model = name then (acc.lookup k).map (·.setAll added)
      else acc.lookup k
  | [], _, _, _ => by simp
  | (key, row) :: rows, acc, hnd, hmem => by
    obtain ⟨hfresh, hrest⟩ := List.nodup_cons.mp hnd
    rw [List.foldl_cons]
    by_cases hk : k = key
    · subst hk
      have hrow := hmem row (List.mem_cons_self ..)
      have hgone : ∀ r, (k, r) ∉ rows := fun r hr => hfresh (List.mem_map.mpr ⟨_, hr, rfl⟩)
      refine (@lookup_addRows rows _ hrest fun r hr => absurd hr (hgone r)).trans ?_
      by_cases hname : k.model = name
      · simp [hname, hrow, hfresh]
      · simp [hname]
    · have hput : (if key.model = name then acc.put key (some (row.setAll added)) else acc).lookup k =
          acc.lookup k := by
        split
        · exact AList.lookup_put_ne hk
        · rfl
      refine (@lookup_addRows rows _ hrest fun r hr =>
        hput.trans (hmem r (List.mem_cons_of_mem _ hr))).trans ?_
      simp only [hput, List.map_cons, List.mem_cons, hk, false_or]

theorem lookup_addColumns : (addColumns name added t).lookup k =
    if k.model = name then (t.lookup k).map (·.setAll added) else t.lookup k := by
  rw [addColumns, lookup_addRows (AList.rows_keys_nodup t) fun row hr => AList.mem_rows.mp hr]
  by_cases hname : k.model = name
  · cases hl : t.lookup k with
    | none => simp
    | some row => simp [hname, List.mem_map_of_mem (f := Prod.fst) (AList.mem_rows.mpr hl)]
  · simp [hname]

/-- What reconciling does to one record: the columns that the model of its table gained are added to
    its rows. -/
theorem reconcile_lookup : ∀ {models : List ModelDescriptor} {st st' : Store},
    (models.map (·.name)).Nodup → models.foldlM (reconcileModel old) st = .ok st' →
    st'.queue = st.queue ∧ (st.main.lookup k = none → st'.main.lookup k = none) ∧
    (st.before.lookup k = none → st'.before.lookup k = none) ∧
    (∀ model ∈ models, model.name = k.model → ∀ current, old.models.find? (·.name = model.name) =
      some current → ∃ added, missingColumns current model = .ok added ∧
        st'.main.lookup k = (st.main.lookup k).map (·.setAll added) ∧
        st'.before.lookup k = (st.before.lookup k).map (·.setAll added)) ∧
    (k.model ∉ models.map (·.name) →
      st'.main.lookup k = st.main.lookup k ∧ st'.before.lookup k = st.before.lookup k)
  | [], st, st', _, h => by
    obtain rfl : st = st' := by simpa using h
    exact ⟨rfl, id, id, nofun, fun _ => ⟨rfl, rfl⟩⟩
  | model :: models, st, st', hnd, h => by
    obtain ⟨hfresh, hnd⟩ := List.nodup_cons.mp hnd
    simp only [List.foldlM_cons, Except.bind_eq_ok] at h
    obtain ⟨mid, hmid, h⟩ := h
    obtain ⟨hqueue, hmain₀, hbefore₀, hrest, hother⟩ := reconcile_lookup hnd h
    have hstep : mid.queue = st.queue ∧ (st.main.lookup k = none → mid.main.lookup k = none) ∧
        (st.before.lookup k = none → mid.before.lookup k = none) ∧ (model.name ≠ k.model →
        mid.main.lookup k = st.main.lookup k ∧ mid.before.lookup k = st.before.lookup k) ∧
        (model.name = k.model → ∀ current, old.models.find? (·.name = model.name) = some current →
          ∃ added, missingColumns current model = .ok added ∧
            mid.main.lookup k = (st.main.lookup k).map (·.setAll added) ∧
            mid.before.lookup k = (st.before.lookup k).map (·.setAll added)) := by
      unfold reconcileModel at hmid
      split at hmid
      · rename_i hnone
        obtain rfl := Except.ok.inj hmid
        refine ⟨rfl, id, id, fun _ => ⟨rfl, rfl⟩, fun _ current hcur => ?_⟩
        rw [hnone] at hcur
        cases hcur
      · rename_i current hcur
        simp only [Except.bind_eq_ok, Except.pure_eq_ok] at hmid
        obtain ⟨-, -, added, hadded, -, -, rfl⟩ := hmid
        refine ⟨rfl, fun hnone => ?_, fun hnone => ?_, fun hne => ?_, fun heq current' hcur' => ?_⟩
        · simp [lookup_addColumns, hnone]
        · simp [lookup_addColumns, hnone]
        · simp [lookup_addColumns, Ne.symm hne]
        · obtain rfl : current = current' := Option.some.inj (hcur.symm.trans hcur')
          exact ⟨added, hadded, by simp [lookup_addColumns, heq], by simp [lookup_addColumns, heq]⟩
    obtain ⟨hqueue', hmain₁, hbefore₁, hunnamed, hnamed⟩ := hstep
    refine ⟨hqueue.trans hqueue', fun h => hmain₀ (hmain₁ h), fun h => hbefore₀ (hbefore₁ h),
      fun m hm hname current hcur => ?_, fun hk => ?_⟩
    · rcases List.mem_cons.mp hm with rfl | hm
      · obtain ⟨added, hadded, hmain, hbefore⟩ := hnamed hname current hcur
        obtain ⟨hm', hb'⟩ := hother (hname ▸ hfresh)
        exact ⟨added, hadded, hm'.trans hmain, hb'.trans hbefore⟩
      · obtain ⟨added, hadded, hmain, hbefore⟩ := hrest m hm hname current hcur
        have hne : model.name ≠ k.model := fun heq =>
          hfresh (List.mem_map.mpr ⟨m, hm, hname.trans heq.symm⟩)
        obtain ⟨hm', hb'⟩ := hunnamed hne
        exact ⟨added, hadded, by rw [hmain, hm'], by rw [hbefore, hb']⟩
    · rw [List.map_cons, List.mem_cons, not_or] at hk
      obtain ⟨hm', hb'⟩ := hother hk.2
      obtain ⟨hm, hb⟩ := hunnamed (Ne.symm hk.1)
      exact ⟨hm'.trans hm, hb'.trans hb⟩

end Reconcile

/-- Every stored row is a proper row of its model. -/
def Proper (e : Engine) (st : Store) : Prop :=
  ∀ k row, (st.main.lookup k = some row ∨ st.before.lookup k = some row) → RowFor e k (some row)

section Reopen
variable {e e' : Engine} {st st' : Store} {k : RecordKey}

theorem proper_main (h : Proper e st) (k : RecordKey) : RowFor e k (st.main.lookup k) := by
  intro r hr
  exact h k r (Or.inl hr) r rfl

theorem proper_before (h : Proper e st) (k : RecordKey) : RowFor e k (st.before.lookup k) := by
  intro r hr
  exact h k r (Or.inr hr) r rfl

theorem filled_none : e.filled k none = none := by
  unfold Engine.filled
  split <;> rfl

theorem filled_eq {model : ModelDescriptor} (hm : e.schema.model k.model = .ok model)
    (row : Option Value) : e.filled k row = row.map (filled model) := by
  simp only [Engine.filled, hm]

theorem filled_eq_some {o : Option Value} {row : Value} (h : e.filled k o = some row) :
    ∃ r, o = some r := by
  cases o with
  | none => rw [filled_none] at h; cases h
  | some r => exact ⟨r, rfl⟩

/-- Reopening for a grown schema fills every row, visible or held, and leaves the queue. -/
theorem reconcile_filled (hp : Proper e st) (hg : Grows e.schema e'.schema)
    (h : reconcile e.schema e'.schema st = .ok st') : st'.queue = st.queue ∧ Proper e' st' ∧ ∀ k,
      st'.main.lookup k = e'.filled k (st.main.lookup k) ∧
      st'.before.lookup k = e'.filled k (st.before.lookup k) := by
  have hnodup := (Schema.validate_eq_ok.mp e'.valid).modelNames
  have hlookup := fun k => @reconcile_lookup e.schema k e'.schema.models st st' hnodup h
  -- a row of either table is filled with the columns that its model gained
  have hrow : ∀ k row, (st.main.lookup k = some row ∨ st.before.lookup k = some row) →
      ∃ model, e'.schema.model k.model = .ok model ∧
        (∀ r, RowFor e k (some r) → RowOk model (filled model r)) ∧
        st'.main.lookup k = (st.main.lookup k).map (filled model) ∧
        st'.before.lookup k = (st.before.lookup k).map (filled model) := by
    intro k row hmem
    obtain ⟨old, hold, -⟩ := hp k row hmem row rfl
    obtain ⟨model, hmodel, hgrows⟩ := hg old (model_mem hold)
    have hname : old.name = k.model := by
      simpa using List.find?_some (required_eq_ok.mp hold)
    have hnew : model ∈ e'.schema.models := List.mem_of_find?_eq_some hmodel
    have hnew' : model.name = k.model := hgrows.name.trans hname
    have hfields := (model_valid e'.valid hnew).1
    obtain ⟨added, hadded, hmain, hbefore⟩ := (hlookup k).2.2.2.1 model hnew hnew' old
      (hgrows.name ▸ hname ▸ required_eq_ok.mp hold)
    have hfill : ∀ r, RowFor e k (some r) → RowOk old r := fun r hr => by
      obtain ⟨old', hold', hok⟩ := hr r rfl
      obtain rfl : old = old' := Except.ok.inj (hold.symm.trans hold')
      exact hok
    have hmap : ∀ o : Option Value, RowFor e k o →
        o.map (·.setAll added) = o.map (filled model) := by
      intro o ho
      cases o with
      | none => rfl
      | some r => exact congrArg some (setAll_missing hgrows hfields hadded (hfill r ho))
    exact ⟨model, required_eq_ok.mpr (hname ▸ hmodel),
      fun r hr => rowOk_filled hgrows hfields hadded (hfill r hr),
      hmain.trans (hmap _ (proper_main hp k)), hbefore.trans (hmap _ (proper_before hp k))⟩
  have hfilled : ∀ k, st'.main.lookup k = e'.filled k (st.main.lookup k) ∧
      st'.before.lookup k = e'.filled k (st.before.lookup k) := by
    intro k
    obtain ⟨-, hmain, hbefore, -⟩ := hlookup k
    constructor
    · cases hm : st.main.lookup k with
      | none => rw [hmain hm, filled_none]
      | some row =>
        obtain ⟨model, hmodel, -, hmap, -⟩ := hrow k row (Or.inl hm)
        rw [hmap, hm, filled_eq hmodel]
    · cases hb : st.before.lookup k with
      | none => rw [hbefore hb, filled_none]
      | some row =>
        obtain ⟨model, hmodel, -, -, hmap⟩ := hrow k row (Or.inr hb)
        rw [hmap, hb, filled_eq hmodel]
  refine ⟨(hlookup ⟨"", .null⟩).1, fun k row hmem => ?_, hfilled⟩
  have hold : ∃ r, (st.main.lookup k = some r ∨ st.before.lookup k = some r) ∧
      e'.filled k (some r) = some row := by
    rcases hmem with hm | hb
    · rw [(hfilled k).1] at hm
      obtain ⟨r, hr⟩ := filled_eq_some hm
      exact ⟨r, Or.inl hr, hr ▸ hm⟩
    · rw [(hfilled k).2] at hb
      obtain ⟨r, hr⟩ := filled_eq_some hb
      exact ⟨r, Or.inr hr, hr ▸ hb⟩
  obtain ⟨r, hr, heq⟩ := hold
  obtain ⟨model, hmodel, hok, -, -⟩ := hrow k r hr
  rw [filled_eq hmodel] at heq
  obtain rfl := Option.some.inj heq
  exact rowFor_some hmodel (hok r (hp k r hr))

end Reopen

/-- One write to the tables of a store, as the engine makes them, or a change outside of the tables. -/
inductive TableStep (e : Engine) : Store → Store → Prop
  | row {st st' : Store} {key : RecordKey} {row : Option Value}
      (h : e.mainSet st key row = .ok st') : TableStep e st st'
  | base {st st' : Store} {key : RecordKey} {row : Option Value}
      (h : e.beforeSet st key row = .ok st') : TableStep e st st'
  | aside (st : Store) (key : RecordKey) : TableStep e st (st.copyAside key)
  | other {st st' : Store} (hm : st'.main = st.main) (hb : st'.before = st.before) :
      TableStep e st st'

/-- A store that writes of the engine lead to: every store a later call passes through is one. -/
def Later (e : Engine) : Store → Store → Prop := Relation.ReflTransGen (TableStep e)

section Later
variable {e : Engine} {st st' : Store} {c : Client}

theorem later_other (hm : st'.main = st.main) (hb : st'.before = st.before) : Later e st st' :=
  .single (.other hm hb)

theorem within_later (e : Engine) : Within e (Later e) where
  refl _ := .refl
  trans := .trans
  main h := .single (.row h)
  before h := .single (.base h)
  aside st key := .single (.aside st key)
  mark st n := later_other (by simp) (by simp)
  effect := by
    intro st st' n op h
    simp only [Engine.addEffect, Except.bind_eq_ok, Except.pure_eq_ok] at h
    obtain ⟨op', -, rfl⟩ := h
    exact later_other rfl rfl
  stamp _ _ _ _ := later_other rfl rfl
  subscriptions _ _ := later_other rfl rfl

/-- Every call of the host for one schema writes the tables through the engine. -/
theorem later_call (c : Client) (call : HostCall) (hk : call.keepsSchema = true) :
    ∃ c', Host.step ⟨e, c⟩ call = ⟨e, c'⟩ ∧ Later e c.store c'.store :=
  (within_later e).call (fun hm hb _ => later_other hm hb) c call hk

/-- A write of the engine keeps the rows proper, whatever operations are queued. -/
theorem proper_step (h : Proper e st) (hs : TableStep e st st') : Proper e st' := by
  -- a table that gets the columns of a row at one key
  have hput : ∀ {t : Table RecordKey Value} {key k : RecordKey} {model : ModelDescriptor}
      {row r : Value}, e.schema.model key.model = .ok model →
      notNull model (columns model row) = true →
      (t.put key (some (columns model row))).lookup k = some r →
      t.lookup k = some r ∨ RowFor e k (some r) := by
    intro t key k model row r hm hn hl
    rw [AList.lookup_put] at hl
    split at hl
    · rename_i heq
      subst heq
      obtain rfl := Option.some.inj hl
      exact Or.inr (rowFor_some hm (rowOk_columns hn))
    · exact Or.inl hl
  have hgone : ∀ {t : Table RecordKey Value} {key k : RecordKey} {r : Value},
      (t.put key none).lookup k = some r → t.lookup k = some r := by
    intro t key k r hl
    rw [AList.lookup_put] at hl
    split at hl
    · cases hl
    · exact hl
  intro k r hmem
  cases hs with
  | @row _ key row hset =>
    cases row with
    | none =>
      obtain ⟨-, rfl⟩ := mainSet_none_eq_ok.mp hset
      exact h k r (hmem.imp_left hgone)
    | some row =>
      obtain ⟨model, hm, hn, -, rfl⟩ := mainSet_some_eq_ok.mp hset
      rcases hmem with hl | hl
      · exact (hput hm hn hl).elim (fun hl => h k r (Or.inl hl)) id
      · exact h k r (Or.inr hl)
  | @base _ key row hset =>
    cases row with
    | none =>
      obtain ⟨-, rfl⟩ := beforeSet_none_eq_ok.mp hset
      exact h k r (hmem.imp_right hgone)
    | some row =>
      obtain ⟨model, hm, hn, rfl⟩ := beforeSet_some_eq_ok.mp hset
      rcases hmem with hl | hl
      · exact h k r (Or.inl hl)
      · exact (hput hm hn hl).elim (fun hl => h k r (Or.inr hl)) id
  | aside key =>
    rcases copyAside_cases st key with heq | ⟨row, -, hmain, heq⟩
    · exact h k r (by rwa [heq] at hmem)
    · rw [heq] at hmem
      rcases hmem with hl | hl
      · exact h k r (Or.inl hl)
      · rw [AList.lookup_put] at hl
        split at hl
        · rename_i hk
          exact h k r (Or.inl (by rw [hk, hmain, hl]))
        · exact h k r (Or.inr hl)
  | other hm hb => exact h k r (by rwa [hm, hb] at hmem)

theorem proper_later (h : Proper e st) (hl : Later e st st') : Proper e st' := by
  induction hl with
  | refl => exact h
  | tail _ hstep ih => exact proper_step ih hstep

end Later

/-- A row without a value in a column. -/
def lacks (f : String) (row : Option Value) : Bool := row.elim false fun r => (r.index f).isNull

/-- Whether a row lacks a column once an operation was applied to it, given whether it did before. -/
def Operation.leavesOut (op : Operation) (f : String) (out : Bool) : Bool :=
  match op.op with
  | .create => ((mergeIdentity op.identity (op.values.getD .null)).index f).isNull
  | .update =>
    let patch := (op.values.getD .null).entries
    if f ∈ patch.map Prod.fst then ((Value.ofEntries patch).index f).isNull else out
  | .delete => false

/-- Queued operations leave a column out: the last that decides it is a creation without a value. -/
def leavesOut (f : String) (ops : List QueuedOp) : Bool :=
  ops.foldl (fun out q => q.op.leavesOut f out) false

/-- The operations leave out no column that may not be null. -/
def Engine.supplies (e : Engine) (key : RecordKey) (ops : List QueuedOp) : Bool :=
  match e.schema.model key.model with
  | .ok model => model.fields.all fun f => f.nullable || !leavesOut f.name ops
  | .error _ => true

section Supplies
variable {e : Engine} {st st' : Store} {k : RecordKey} {f : String} {row row' : Option Value}
  {model : ModelDescriptor}

/-- The entries assigned last decide, whatever they are assigned to. -/
theorem get_setAll_congr : ∀ {fs : List (String × Value)} {o o' : Value}, f ∈ fs.map Prod.fst →
    (o.setAll fs).get f = (o'.setAll fs).get f
  | [], _, _, h => by cases h
  | x :: fs, o, o', h => by
    simp only [Value.setAll, List.foldl_cons] at *
    by_cases hf : f ∈ fs.map Prod.fst
    · exact get_setAll_congr hf
    · obtain rfl : f = x.1 := by simpa [hf] using h
      rw [← Value.setAll, ← Value.setAll, Value.get_setAll_of_notMem hf,
        Value.get_setAll_of_notMem hf, Value.get_set, Value.get_set, if_pos rfl, if_pos rfl]

theorem lacks_applyToRow {op : Operation} (h : applyToRow row op = .ok row') :
    lacks f row' = op.leavesOut f (lacks f row) := by
  unfold applyToRow at h
  unfold Operation.leavesOut
  split at h
  · cases h
  · rename_i hop
    simp only [Except.bind_eq_ok, required_eq_ok, Except.pure_eq_ok] at h
    obtain ⟨values, hvalues, rfl⟩ := h
    simp [hop, hvalues, lacks]
  · cases h
  · rename_i current hop
    simp only [Except.bind_eq_ok, required_eq_ok, Except.pure_eq_ok, Option.bind_eq_some_iff] at h
    obtain ⟨patch, ⟨values, hvalues, hpatch⟩, rfl⟩ := h
    obtain rfl : values.entries = patch := by
      cases values <;> simp_all [Value.asObject, Value.entries]
    simp only [hop, hvalues, Option.getD_some, lacks, Option.elim_some, Value.index]
    split
    · rename_i hf
      rw [get_setAll_congr hf]
      rfl
    · rename_i hf
      rw [Value.get_setAll_of_notMem hf]
  · rename_i hop
    obtain rfl := Except.ok.inj h
    simp [hop, lacks]

theorem lacks_replay : ∀ {ops : List QueuedOp} {row : Option Value}, replay row ops = .ok row' →
    lacks f row' = ops.foldl (fun out q => q.op.leavesOut f out) (lacks f row)
  | [], row, h => by
    obtain rfl : row = row' := by simpa [replay] using h
    rfl
  | q :: ops, row, h => by
    unfold replay at h
    split at h
    · rename_i mid hmid
      rw [List.foldl_cons, ← lacks_applyToRow hmid]
      exact lacks_replay h
    · cases h

/-- A proper row lacks no column that may not be null. -/
theorem lacks_rowFor (hm : e.schema.model k.model = .ok model) (h : RowFor e k row)
    {f : FieldDescriptor} (hf : f ∈ model.fields) (hn : f.nullable = false) :
    lacks f.name row = false := by
  cases row with
  | none => rfl
  | some r =>
    obtain ⟨model', hm', hok⟩ := h r rfl
    obtain rfl : model = model' := Except.ok.inj (hm.symm.trans hm')
    have hall := hok.notNull
    simp only [notNull, List.all_eq_true, Bool.or_eq_true, Bool.not_eq_true'] at hall
    exact (hall f hf).resolve_left (by simp [hn])

/-- The operations of a record leave out no required column exactly when the row they leave lacks
    none. -/
theorem supplies_iff (hp : Proper e st) (hm : e.schema.model k.model = .ok model)
    (hrow : replay (st.before.lookup k) (st.opsFor k) = .ok row) :
    e.supplies k (st.opsFor k) = true ↔ ∀ r ∈ row, notNull model r = true := by
  have hfield : ∀ f ∈ model.fields, f.nullable = false →
      leavesOut f.name (st.opsFor k) = lacks f.name row := by
    intro f hf hn
    rw [lacks_replay hrow, lacks_rowFor hm (proper_before hp k) hf hn]
    rfl
  simp only [Engine.supplies, hm, List.all_eq_true, Bool.or_eq_true, Bool.not_eq_true']
  constructor
  · rintro h r rfl
    simp only [notNull, List.all_eq_true, Bool.or_eq_true, Bool.not_eq_true']
    intro f hf
    cases hn : f.nullable with
    | true => exact Or.inl rfl
    | false => exact Or.inr ((hfield f hf hn).symm.trans ((h f hf).resolve_left (by simp [hn])))
  · intro h f hf
    cases hn : f.nullable with
    | true => exact Or.inl rfl
    | false =>
      refine Or.inr ((hfield f hf hn).trans ?_)
      cases row with
      | none => rfl
      | some r =>
        have hall := h r rfl
        simp only [notNull, List.all_eq_true, Bool.or_eq_true, Bool.not_eq_true'] at hall
        exact (hall f hf).resolve_left (by simp [hn])

theorem notNull_columns (r : Value) : notNull model (columns model r) = notNull model r := by
  rw [Bool.eq_iff_iff]
  simp only [notNull, List.all_eq_true]
  exact forall₂_congr fun f hf => by rw [index_columns hf]

/-- What a table stores of a row that lacks no required column is the row filled. -/
theorem columns_eq_filled {r : Value} (h : notNull model r = true) :
    columns model r = filled model r := by
  simp only [notNull, List.all_eq_true, Bool.or_eq_true, Bool.not_eq_true'] at h
  rw [columns, filled]
  refine congrArg Value.ofEntries (List.map_congr_left fun f hf => ?_)
  cases hget : r.get f.name with
  | some v => simp [Value.index, hget]
  | none =>
    have hnull : f.nullable = true := (h f hf).resolve_right (by simp [Value.index, hget, Value.isNull])
    simp [Value.index, hget, FieldDescriptor.fill, hnull]

/-- The visible table shows what the operations of a record leave, and no unique constraint refuses
    it. -/
def Shows (e : Engine) (st : Store) (k : RecordKey) (row : Option Value) : Prop :=
  e.supplies k (st.opsFor k) = true ∧ ¬Duplicate e st k (e.filled k row)

/-- What the visible table takes of a replayed row: the row filled, when it shows. -/
theorem mainSet_replayed (hp : Proper e st) (hm : e.schema.model k.model = .ok model)
    (hrow : replay (st.before.lookup k) (st.opsFor k) = .ok row) : e.mainSet st k row = .ok st' ↔
      Shows e st k row ∧ st' = { st with main := st.main.put k (e.filled k row) } := by
  rw [Shows, supplies_iff hp hm hrow, filled_eq hm]
  cases row with
  | none =>
    rw [mainSet_none_eq_ok]
    simp [hm, eq_comm (a := st')]
  | some r =>
    have hdup : notNull model r = true → (Duplicate e st k (some (filled model r)) ↔
        duplicates model st.main k (columns model r) = true) := fun hn => by
      simp [Duplicate, hm, columns_eq_filled hn]
    rw [mainSet_some_eq_ok, Option.map_some]
    constructor
    · rintro ⟨model', hm', hn, hd, rfl⟩
      obtain rfl : model = model' := Except.ok.inj (hm.symm.trans hm')
      rw [notNull_columns] at hn
      refine ⟨⟨?_, by simp [hdup hn, hd]⟩, by rw [columns_eq_filled hn]⟩
      rintro _ ⟨⟩
      exact hn
    · rintro ⟨⟨hn, hd⟩, rfl⟩
      have hn : notNull model r = true := hn r rfl
      rw [hdup hn, Bool.not_eq_true] at hd
      exact ⟨model, hm, (notNull_columns r).trans hn, hd, by rw [columns_eq_filled hn]⟩

theorem mainSet_model (h : e.mainSet st k row = .ok st') :
    ∃ model, e.schema.model k.model = .ok model := by
  cases row with
  | none => exact (mainSet_none_eq_ok.mp h).1
  | some r =>
    obtain ⟨model, hm, -⟩ := mainSet_some_eq_ok.mp h
    exact ⟨model, hm⟩

/-- A proper row is shown as it is. -/
theorem mainSet_proper (h : RowFor e k row) (hs : e.mainSet st k row = .ok st') :
    st'.main.lookup k = row := by
  cases row with
  | none =>
    obtain ⟨-, rfl⟩ := mainSet_none_eq_ok.mp hs
    exact AList.lookup_put_self ..
  | some r =>
    obtain ⟨model, hm, hok⟩ := h r rfl
    obtain ⟨model', hm', -, -, rfl⟩ := mainSet_some_eq_ok.mp hs
    obtain rfl : model = model' := Except.ok.inj (hm.symm.trans hm')
    rw [hok.full]
    exact AList.lookup_put_self ..

/-- A rebuild shows what the operations of the record leave, filled, or else the before image. -/
theorem rebuild_shows (hp : Proper e st) {failed : Option ℕ}
    (hr : e.rebuild st k = .ok (failed, st'))
    (hrow : replay (st.before.lookup k) (st.opsFor k) = .ok row) :
    (Shows e st k row ∧ st'.main.lookup k = e.filled k row) ∨
      (¬Shows e st k row ∧ st'.main.lookup k = st.before.lookup k) := by
  simp only [Engine.rebuild, Except.bind_eq_ok, Except.pure_eq_ok, Prod.mk.injEq] at hr
  obtain ⟨st1, hshow, st2, hdrop, rfl, rfl⟩ := hr
  have hmain : (st2.mark (st.failing k)).main = st1.main := by
    rw [mark_main]
    unfold Engine.dropBase at hdrop
    split at hdrop
    · obtain ⟨-, rfl⟩ := beforeSet_none_eq_ok.mp hdrop
      rfl
    · rw [Except.ok.inj hdrop]
  rw [hmain]
  rw [show st.shown k = row by simp only [Store.shown, hrow]] at hshow
  unfold Engine.showRow at hshow
  split at hshow
  · rename_i hset
    obtain rfl := Except.ok.inj hshow
    obtain ⟨model, hm⟩ := mainSet_model hset
    obtain ⟨hshows, rfl⟩ := (mainSet_replayed hp hm hrow).mp hset
    exact Or.inl ⟨hshows, AList.lookup_put_self ..⟩
  · rename_i hset
    obtain ⟨model, hm⟩ := mainSet_model hshow
    refine Or.inr ⟨fun hshows => ?_, mainSet_proper (proper_before hp k) hshow⟩
    rw [(mainSet_replayed hp hm hrow).mpr ⟨hshows, rfl⟩] at hset
    cases hset

end Supplies

/-- A store is reopened for a schema that its own is compatible with. -/
def Host.Upgrades (s : Host) : HostCall → Prop
  | .reopen e => (s.engine.schema.compatibility e.schema).fits = true
  | _ => True

/-- A host that some run of calls, upgrades among them, reaches from a fresh file. -/
def Host.Upgraded (s : Host) : Prop := ∃ e clientId calls,
  Machine.Along Host.step Host.Upgrades ⟨e, .opened clientId⟩ calls ∧
    s = Machine.run Host.step ⟨e, .opened clientId⟩ calls

section Upgrade
variable {s : Host}

/-- Every call keeps the rows proper, an upgrade too. -/
theorem proper_call (call : HostCall) (h : Proper s.engine s.client.store) (hu : s.Upgrades call) :
    Proper (s.step call).engine (s.step call).client.store := by
  cases hk : call.keepsSchema with
  | true =>
    obtain ⟨c', hstep, hlater⟩ := @later_call s.engine s.client call hk
    rw [show s.step call = ⟨s.engine, c'⟩ from hstep]
    exact proper_later h hlater
  | false =>
    cases call with
    | reopen e' =>
      simp only [Host.step, Client.reopen]
      split
      · rename_i hr
        exact (reconcile_filled h (grows_of_fits hu) hr).2.1
      · exact h
    | _ => cases hk

theorem proper_run {calls : List HostCall} (h : Proper s.engine s.client.store)
    (hu : Machine.Along Host.step Host.Upgrades s calls) :
    Proper (Machine.run Host.step s calls).engine (Machine.run Host.step s calls).client.store :=
  Machine.run_keeps (P := fun s => Proper s.engine s.client.store)
    (fun _ call h hu => proper_call call h hu) h hu

theorem proper_upgraded (h : s.Upgraded) : Proper s.engine s.client.store := by
  obtain ⟨e, clientId, calls, hu, rfl⟩ := h
  refine proper_run (fun k row hmem => ?_) hu
  exact hmem.elim nofun nofun

/-- Pending work across an upgrade. The queue stays and every record shows its row filled. From then
    on a rebuild shows what the remaining operations of the record leave, filled, exactly when they
    leave out no required column and no unique constraint refuses the row, or when that is what the
    before image is. -/
theorem upgrade_keeps (h : s.Upgraded) {e' : Engine} {steps : List AdditiveStep}
    (hadditive : s.engine.schema.compatibility e'.schema = .additive steps) {opened : Store}
    (hopen : reconcile s.engine.schema e'.schema s.client.store = .ok opened) :
    s.step (.reopen e') = ⟨e', ⟨opened, {}⟩⟩ ∧ opened.queue = s.client.store.queue ∧
      (∀ k, opened.main.lookup k = e'.filled k (s.client.store.main.lookup k)) ∧
      ∀ calls later, Machine.Along Host.step Host.Upgrades ⟨e', ⟨opened, {}⟩⟩ calls →
        later = Machine.run Host.step ⟨e', ⟨opened, {}⟩⟩ calls →
        ∀ st, Later later.engine later.client.store st → ∀ k failed st',
          later.engine.rebuild st k = .ok (failed, st') →
          ∀ row, replay (st.before.lookup k) (st.opsFor k) = .ok row →
            (st'.main.lookup k = later.engine.filled k row ↔
              Shows later.engine st k row ∨ st.before.lookup k = later.engine.filled k row) := by
  have hp := proper_upgraded h
  have hgrows : Grows s.engine.schema e'.schema :=
    grows_of_fits (by simp [hadditive, Compatibility.fits])
  obtain ⟨hqueue, hp', hfilled⟩ := reconcile_filled hp hgrows hopen
  have hstep : s.step (.reopen e') = ⟨e', ⟨opened, {}⟩⟩ := by
    simp [Host.step, Client.reopen, hopen]
  refine ⟨hstep, hqueue, fun k => (hfilled k).1, ?_⟩
  rintro calls later hcalls rfl st hlater k failed st' hr row hrow
  have hproper := proper_later (@proper_run ⟨e', ⟨opened, {}⟩⟩ calls hp' hcalls) hlater
  rcases rebuild_shows hproper hr hrow with ⟨hshows, hmain⟩ | ⟨hshows, hmain⟩
  · simp only [hmain, hshows, true_or]
  · simp only [hmain, hshows, false_or]

end Upgrade

namespace Sample

/-- Items carry a label, an empty one when they had none. -/
def labelled : Engine where
  codecs := codecs
  schema := {
    models := [
      { name := "Box", identity := ["id"], fields := [⟨"id", .scalar .string, false, none⟩] },
      { name := "Item", identity := ["id"]
        fields := [⟨"id", .scalar .string, false, none⟩, ⟨"box", .scalar .string, true, none⟩,
          ⟨"label", .scalar .string, false, some (.str "")⟩]
        relations := [⟨"parent", "Box", ["box"], ["id"], "none"⟩] }] }
  valid := by decide +kernel

/-- An item the server sent is moved, and another one created and moved, each in its mutation. -/
def drafts : List HostCall :=
  [.transaction [.setChannel "c" true] true,
    .call (.applyPage (page "c" 0 1 [record "b" "w" 1])),
    .call (.enqueue { name := "move", operations := [move "b" "x"] }),
    .call (.enqueue { name := "put", operations := [create "a" "x"] }),
    .call (.enqueue { name := "move", operations := [move "a" "y"] })]

def drafting : Host := Machine.run Host.step ⟨loose, .opened "me"⟩ drafts

theorem upgraded_drafting : drafting.Upgraded :=
  ⟨loose, "me", drafts, ⟨trivial, trivial, trivial, trivial, trivial, trivial⟩, rfl⟩

theorem additive_labelled :
    drafting.engine.schema.compatibility labelled.schema = .additive [.addField "Item" "label"] := by
  decide +kernel

/-- The store that opening the drafts for labelled items leaves. -/
def relabelled : Store := (drafting.step (.reopen labelled)).client.store

end Sample

section Upgrade
open Sample

/-- The moved item is still moved, and labelled, when it is rebuilt. -/
theorem upgrade_keeps_labelled : relabelled.queue = drafting.client.store.queue ∧
    ∃ failed st', labelled.rebuild relabelled (item "b") = .ok (failed, st') ∧
      st'.main.lookup (item "b") = some (.ofEntries
        [("box", .str "x"), ("id", .str "b"), ("label", .str "")]) := by
  obtain ⟨opened, hopen⟩ : ∃ opened, reconcile drafting.engine.schema labelled.schema
      drafting.client.store = .ok opened := Except.exists_ok (by decide +kernel)
  obtain ⟨hstep, hqueue, -, hlater⟩ := upgrade_keeps upgraded_drafting additive_labelled hopen
  obtain rfl : relabelled = opened := congrArg (·.client.store) hstep
  obtain ⟨⟨failed, st'⟩, hr⟩ : ∃ out, labelled.rebuild relabelled (item "b") = .ok out :=
    Except.exists_ok (by decide +kernel)
  have hrow : replay (relabelled.before.lookup (item "b")) (relabelled.opsFor (item "b")) =
      .ok (some (.ofEntries [("box", .str "x"), ("id", .str "b"), ("label", .str "")])) :=
    Except.eq_ok_of_toOption (by decide +kernel)
  have hshown := (hlater [] _ trivial rfl _ .refl _ _ _ hr _ hrow).mpr
    (Or.inl ⟨by decide +kernel, not_duplicate (by decide +kernel)⟩)
  exact ⟨hqueue, failed, st', hr, hshown.trans (by decide +kernel)⟩

/-- Dropping the move of a drafted item loses the item, although its creation stays queued and leaves
    the item where it was created. -/
theorem upgrade_loses_creation :
    let later := (drafting.step (.reopen labelled)).step (.call (.drop 3))
    drafting.Upgraded ∧
      drafting.engine.schema.compatibility labelled.schema = .additive [.addField "Item" "label"] ∧
      later.engine.schema = labelled.schema ∧
      relabelled.main.lookup (item "a") = some (.ofEntries
        [("box", .str "y"), ("id", .str "a"), ("label", .str "")]) ∧
      (replay (later.client.store.before.lookup (item "a"))
        (later.client.store.opsFor (item "a"))).toOption =
          some (some (.ofEntries [("box", .str "x"), ("id", .str "a")])) ∧
      later.client.store.main.lookup (item "a") = none := by
  refine ⟨upgraded_drafting, additive_labelled, ?_, ?_, ?_, ?_⟩
  all_goals decide +kernel

end Upgrade

end AheadSync
