import AheadSync.Client.Push

/-! Well-formed stores: every stored operation is normalized, every stored row is a proper row under
    the key of a record, and the queue lists its mutations in ordinal order. On a well-formed store
    the only thing that refuses a write of a proper row is a unique constraint. -/

namespace AheadSync

/-- A key that normalizing some identity made. -/
def Named (e : Engine) (key : RecordKey) : Prop :=
  ∃ identity, e.recordKey key.model identity = .ok key

/-- A key whose identity is accepted again. -/
def Canonical (e : Engine) (key : RecordKey) : Prop :=
  e.recordKey key.model key.identity = .ok key

/-- The row, if there is one, is a proper row of the key's model. -/
def RowFor (e : Engine) (key : RecordKey) (row : Option Value) : Prop :=
  ∀ r ∈ row, ∃ model, e.schema.model key.model = .ok model ∧ RowOk model r

/-- What an accepted operation carries. -/
def ValuesOk (e : Engine) (op : Operation) : Prop :=
  match op.op with
  | .create => ∃ v, op.values = some v ∧ RowFor e op.key (some (mergeIdentity op.identity v))
  | .update => ∃ v model, op.values = some v ∧ v.asObject = some v.entries ∧
      e.schema.model op.model = .ok model ∧
      ∀ x ∈ v.entries, ∃ f ∈ model.fields, f.name = x.1 ∧ (f.nullable = false → x.2 ≠ .null)
  | .delete => True

/-- A normalized operation. -/
structure OpOk (e : Engine) (op : Operation) : Prop where
  key : e.opKey op = .ok op.key
  values : ValuesOk e op

/-- Every row is a proper row under the key of a record. -/
def RowsOk (e : Engine) (t : Table RecordKey Value) : Prop :=
  ∀ key row, t.lookup key = some row → Named e key ∧ RowFor e key (some row)

structure Wf (e : Engine) (st : Store) : Prop where
  ops : ∀ q ∈ st.queue, ∀ op ∈ q.mutation.allOps, OpOk e op
  main : RowsOk e st.main
  before : RowsOk e st.before
  sorted : (st.queue.map (·.ordinal)).Pairwise (· < ·)
  fresh : ∀ q ∈ st.queue, q.ordinal < st.nextOrdinal
  deps : ∀ q ∈ st.queue,
    ∀ d ∈ q.mutation.lifecycleDependencies ++ q.mutation.sequenceDependencies, d < q.ordinal

section Keys
variable {e : Engine} {key : RecordKey}

theorem recordKey_named {name : String} {identity : Value}
    (h : e.recordKey name identity = .ok key) : Named e key :=
  ⟨identity, by rw [recordKey_model h]; exact h⟩

theorem named_of_canonical (h : Canonical e key) : Named e key := ⟨key.identity, h⟩

theorem named_model (h : Named e key) : ∃ model, e.schema.model key.model = .ok model := by
  obtain ⟨identity, h⟩ := h
  obtain ⟨model, _, hm, -⟩ := recordKey_spec h
  exact ⟨model, hm⟩

/-- Accepting the identity of a record's key again answers the key itself. -/
theorem named_stable {key' : RecordKey} (h : Named e key)
    (h' : e.recordKey key.model key.identity = .ok key') : key' = key := by
  obtain ⟨identity, h⟩ := h
  exact recordKey_stable h h'

theorem rowFor_none : RowFor e key none := fun _ h => nomatch h

theorem rowFor_some {model : ModelDescriptor} {row : Value}
    (hm : e.schema.model key.model = .ok model) (h : RowOk model row) : RowFor e key (some row) := by
  rintro r hr
  obtain rfl : row = r := Option.some.inj hr
  exact ⟨model, hm, h⟩

theorem rowsOk_lookup {t : Table RecordKey Value} (h : RowsOk e t) (key : RecordKey) :
    RowFor e key (t.lookup key) := by
  cases hl : t.lookup key with
  | none => exact rowFor_none
  | some row => exact (h key row hl).2

theorem rowsOk_put {t : Table RecordKey Value} {row : Option Value} (h : RowsOk e t)
    (hk : Named e key) (hr : RowFor e key row) : RowsOk e (t.put key row) := by
  intro k r hl
  rw [AList.lookup_put] at hl
  split at hl
  · rename_i heq; subst heq
    exact ⟨hk, hl ▸ hr⟩
  · exact h k r hl

theorem opOk_delete (h : Canonical e key) : OpOk e (deleteOf key) := ⟨h, trivial⟩

theorem opOk_canonical {op : Operation} (h : OpOk e op) : Canonical e op.key := h.key

end Keys

section Rows
variable {e : Engine} {key : RecordKey} {row row' : Option Value} {op : Operation}

/-- Applying a normalized operation keeps a proper row. -/
theorem applyToRow_rowFor (hop : OpOk e op) (hr : RowFor e op.key row)
    (h : applyToRow row op = .ok row') : RowFor e op.key row' := by
  obtain ⟨-, hv⟩ := hop
  unfold ValuesOk at hv
  unfold applyToRow at h
  split at h
  · cases h
  · rename_i hcreate
    rw [hcreate] at hv
    obtain ⟨v, hv, hrow⟩ := hv
    simp only [hv, required, Except.ok_bind, Except.pure_eq_ok] at h
    exact h ▸ hrow
  · cases h
  · rename_i current hupdate
    rw [hupdate] at hv
    obtain ⟨v, model, hv, hobj, hm, hfields⟩ := hv
    simp only [hv, Option.bind_some, hobj, required, Except.ok_bind, Except.pure_eq_ok] at h
    obtain ⟨model', hm', hok⟩ := hr current rfl
    obtain rfl : model = model' := Except.ok.inj (hm.symm.trans hm')
    exact h ▸ rowFor_some hm
      (rowOk_setAll (model_valid e.valid (model_mem hm)).1 hok hfields)
  · cases h
    exact rowFor_none

theorem replay_rowFor : ∀ {ops : List QueuedOp} {row : Option Value},
    (∀ q ∈ ops, OpOk e q.op ∧ q.op.key = key) → RowFor e key row →
      replay row ops = .ok row' → RowFor e key row'
  | [], row, _, hr, h => by
    obtain rfl : row = row' := by simpa [replay] using h
    exact hr
  | q :: ops, row, hops, hr, h => by
    obtain ⟨hok, hkey⟩ := hops q (List.mem_cons_self ..)
    unfold replay at h
    split at h
    · rename_i row1 h1
      exact replay_rowFor (fun q hq => hops q (List.mem_cons_of_mem _ hq))
        (hkey ▸ applyToRow_rowFor hok (hkey ▸ hr) h1) h
    · cases h

end Rows

section Writes
variable {e : Engine} {st st' : Store} {key : RecordKey} {row : Option Value}

/-- A unique constraint of the visible table refuses the row. -/
def Duplicate (e : Engine) (st : Store) (key : RecordKey) (row : Option Value) : Prop :=
  ∃ r model, row = some r ∧ e.schema.model key.model = .ok model ∧
    duplicates model st.main key r = true

@[simp] theorem not_duplicate_none : ¬Duplicate e st key none := by simp [Duplicate]

/-- Only a unique constraint refuses a proper visible row. -/
theorem mainSet_eq_ok (hk : Named e key) (hr : RowFor e key row) :
    e.mainSet st key row = .ok st' ↔
      ¬Duplicate e st key row ∧ st' = { st with main := st.main.put key row } := by
  obtain ⟨model, hm⟩ := named_model hk
  cases row with
  | none =>
    rw [mainSet_none_eq_ok]
    simp only [hm, not_duplicate_none, not_false_iff, true_and, eq_comm (a := st')]
    exact ⟨fun h => h.2, fun h => ⟨⟨model, rfl⟩, h⟩⟩
  | some r =>
    obtain ⟨model', hm', hok⟩ := hr r rfl
    obtain rfl : model = model' := Except.ok.inj (hm.symm.trans hm')
    have hdup : Duplicate e st key (some r) ↔ duplicates model st.main key r = true := by
      simp [Duplicate, hm]
    rw [mainSet_some_eq_ok, hdup, Bool.not_eq_true]
    constructor
    · rintro ⟨m, hm1, -, hd, rfl⟩
      obtain rfl : model = m := Except.ok.inj (hm.symm.trans hm1)
      rw [hok.full] at hd ⊢
      exact ⟨hd, rfl⟩
    · rintro ⟨hd, rfl⟩
      exact ⟨model, hm, by rw [hok.full]; exact hok.notNull, by rw [hok.full]; exact hd,
        by rw [hok.full]⟩

/-- Nothing refuses a proper before image. -/
theorem beforeSet_eq_ok (hk : Named e key) (hr : RowFor e key row) :
    e.beforeSet st key row = .ok st' ↔ st' = { st with before := st.before.put key row } := by
  obtain ⟨model, hm⟩ := named_model hk
  cases row with
  | none =>
    rw [beforeSet_none_eq_ok, eq_comm (a := st')]
    exact ⟨fun h => h.2, fun h => ⟨⟨model, hm⟩, h⟩⟩
  | some r =>
    obtain ⟨model', hm', hok⟩ := hr r rfl
    obtain rfl : model = model' := Except.ok.inj (hm.symm.trans hm')
    rw [beforeSet_some_eq_ok]
    constructor
    · rintro ⟨m, hm1, -, rfl⟩
      obtain rfl : model = m := Except.ok.inj (hm.symm.trans hm1)
      rw [hok.full]
    · rintro rfl
      exact ⟨model, hm, by rw [hok.full]; exact hok.notNull, by rw [hok.full]⟩

theorem wf_main (h : Wf e st) {t : Table RecordKey Value} (ht : RowsOk e t) :
    Wf e { st with main := t } :=
  ⟨h.ops, ht, h.before, h.sorted, h.fresh, h.deps⟩

theorem wf_before (h : Wf e st) {t : Table RecordKey Value} (ht : RowsOk e t) :
    Wf e { st with before := t } :=
  ⟨h.ops, h.main, ht, h.sorted, h.fresh, h.deps⟩

/-- Changing tables that hold neither rows nor mutations keeps a store well-formed. -/
theorem wf_of_eq (h : Wf e st) (hq : st'.queue = st.queue) (hm : st'.main = st.main)
    (hb : st'.before = st.before) (hn : st.nextOrdinal ≤ st'.nextOrdinal) : Wf e st' where
  ops := hq ▸ h.ops
  main := hm ▸ h.main
  before := hb ▸ h.before
  sorted := hq ▸ h.sorted
  fresh := fun q hmem => lt_of_lt_of_le (h.fresh q (hq ▸ hmem)) hn
  deps := hq ▸ h.deps

end Writes

end AheadSync
