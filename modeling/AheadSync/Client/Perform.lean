import AheadSync.Client.Refresh

/-! What performing the operations of a new mutation does to a well-formed store, and what reaches
    the queue. -/

namespace AheadSync

section Perform
variable {e : Engine} {st st' : Store} {key : RecordKey} {op op' : Operation}

/-- A normalized operation keeps its kind and model and carries what its kind requires. -/
theorem normalize_spec (h : e.normalize op = .ok op') {key : RecordKey}
    (hk : e.opKey op' = .ok key) :
    OpOk e op' ∧ key = op'.key ∧ op'.op = op.op ∧ op'.model = op.model := by
  simp only [Engine.normalize, Except.bind_eq_ok] at h
  obtain ⟨key0, hk0, h⟩ := h
  have hmodel : key0.model = op.model := recordKey_model hk0
  have hkeyOk : ∀ {o : Operation}, e.opKey o = .ok key → o.model = op.model →
      o.identity = key0.identity → key = o.key ∧ e.opKey o = .ok o.key := by
    intro o ho hm hi
    have hkey : o.key = key0 := by rw [Operation.key, hm, hi, ← hmodel]
    have : key = key0 := named_stable (recordKey_named hk0) (by rw [hmodel, ← hm, ← hi]; exact ho)
    exact ⟨this.trans hkey.symm, by rw [hkey, ← this]; exact ho⟩
  split at h
  · rename_i hop
    simp only [Except.bind_eq_ok, required_eq_ok, Except.pure_eq_ok] at h
    obtain ⟨v, hv, w, hw, rfl⟩ := h
    obtain ⟨hkey, hok⟩ := hkeyOk hk rfl rfl
    refine ⟨⟨hok, ?_⟩, hkey, rfl, rfl⟩
    obtain ⟨model, _, hm, -⟩ := state_spec hw
    rw [ValuesOk]
    simp only [hop]
    exact ⟨w, rfl, rowFor_some hm (rowOk_mergeIdentity hm hk0 hw)⟩
  · rename_i hop
    simp only [Except.bind_eq_ok, required_eq_ok, Except.pure_eq_ok] at h
    obtain ⟨v, hv, w, hw, rfl⟩ := h
    obtain ⟨hkey, hok⟩ := hkeyOk hk rfl rfl
    refine ⟨⟨hok, ?_⟩, hkey, rfl, rfl⟩
    obtain ⟨model, hm, hobj, hfields⟩ := patch_spec hw
    rw [ValuesOk]
    simp only [hop]
    refine ⟨w, model, rfl, hobj, hm, fun x hx => ?_⟩
    obtain ⟨-, f, u, hf, hu⟩ := hfields x hx
    exact ⟨f, field_mem hf, field_name hf, fun hnull => normalizeValue_ne_null hu hnull⟩
  · rename_i hop
    simp only [Except.bind_eq_ok, ensure_eq_ok, Except.pure_eq_ok] at h
    obtain ⟨-, -, rfl⟩ := h
    obtain ⟨hkey, hok⟩ := hkeyOk hk rfl rfl
    exact ⟨⟨hok, by rw [ValuesOk]; simp only [hop]⟩, hkey, rfl, rfl⟩

/-- Applying an operation to the visible row is applying it to the row and writing the result. -/
theorem applyMain_eq_ok (h : Wf e st) (hop : OpOk e op) : e.applyMain st op = .ok st' ↔
    ∃ row, applyToRow (st.main.lookup op.key) op = .ok row ∧ ¬Duplicate e st op.key row ∧
      st' = { st with main := st.main.put op.key row } := by
  have hn := named_of_canonical (opOk_canonical hop)
  have hrow := rowsOk_lookup h.main op.key
  have hset : ∀ {row}, applyToRow (st.main.lookup op.key) op = .ok row →
      (e.mainSet st op.key row = .ok st' ↔ ¬Duplicate e st op.key row ∧
        st' = { st with main := st.main.put op.key row }) :=
    fun ha => mainSet_eq_ok hn (applyToRow_rowFor hop hrow ha)
  have hgoal : e.applyMain st op = .ok st' ↔
      ∃ row, applyToRow (st.main.lookup op.key) op = .ok row ∧ e.mainSet st op.key row = .ok st' := by
    have hv := hop.values
    unfold ValuesOk at hv
    simp only [Engine.applyMain, hop.key, Except.ok_bind]
    unfold applyToRow
    cases hkind : op.op with
    | create =>
      rw [hkind] at hv
      obtain ⟨v, hv, -⟩ := hv
      cases st.main.lookup op.key <;> simp [hv, required, ensure]
    | update =>
      rw [hkind] at hv
      obtain ⟨v, model, hv, hobj, -⟩ := hv
      cases st.main.lookup op.key <;> simp [hv, required, hobj]
    | delete => simp
  rw [hgoal]
  constructor
  · rintro ⟨row, ha, hm⟩
    exact ⟨row, ha, (hset ha).mp hm⟩
  · rintro ⟨row, ha, hm⟩
    exact ⟨row, ha, (hset ha).mpr hm⟩

end Perform

namespace Store

/-- Hold a record and delete its visible row. -/
def deleteHeld (st : Store) (key : RecordKey) : Store :=
  { st.holdTruth key with main := (st.holdTruth key).main.put key none }

/-- Hold and delete several records. -/
def cascaded (st : Store) (found : List RecordKey) : Store := found.foldl deleteHeld st

end Store

section Cascade
variable {e : Engine} {st st' : Store} {key k : RecordKey} {op op' : Operation}
  {found : List RecordKey}

@[simp] theorem holdTruth_main : (st.holdTruth key).main = st.main := by
  unfold Store.holdTruth
  split
  · rfl
  · rcases copyAside_cases st key with h | ⟨_, _, _, h⟩ <;> rw [h]

@[simp] theorem holdTruth_queue : (st.holdTruth key).queue = st.queue := by
  unfold Store.holdTruth
  split
  · rfl
  · rcases copyAside_cases st key with h | ⟨_, _, _, h⟩ <;> rw [h]

/-- Holding sets the visible row of a clean record aside unless something already is. -/
theorem holdTruth_before : (st.holdTruth key).before.lookup k =
    if k = key ∧ st.dirty key = false then (st.before.lookup k).or (st.main.lookup k)
    else st.before.lookup k := by
  unfold Store.holdTruth
  cases hd : st.dirty key with
  | true => simp
  | false =>
    simp only [Bool.false_eq_true, ↓reduceIte, and_true]
    unfold Store.copyAside
    cases hb : st.before.lookup key with
    | some row =>
      simp only
      split
      · rename_i h; subst h; simp [hb]
      · rfl
    | none =>
      cases hm : st.main.lookup key with
      | none =>
        simp only
        split
        · rename_i h; subst h; simp [hb, hm]
        · rfl
      | some row =>
        simp only [AList.lookup_put]
        split
        · rename_i h; subst h; simp [hb, hm]
        · rfl

@[simp] theorem deleteHeld_queue : (st.deleteHeld key).queue = st.queue := holdTruth_queue

theorem deleteHeld_main : (st.deleteHeld key).main.lookup k =
    if k = key then none else st.main.lookup k := by
  simp [Store.deleteHeld, AList.lookup_put]

theorem deleteHeld_before : (st.deleteHeld key).before.lookup k =
    if k = key ∧ st.dirty key = false then (st.before.lookup k).or (st.main.lookup k)
    else st.before.lookup k := holdTruth_before

theorem wf_deleteHeld (h : Wf e st) (hk : Named e key) : Wf e (st.deleteHeld key) :=
  wf_main (wf_holdTruth h key) (rowsOk_put (wf_holdTruth h key).main hk rowFor_none)

theorem extends_deleteHeld : Extends st (st.deleteHeld key) := by
  have h := extends_holdTruth st key
  obtain ⟨m, b, q, hf⟩ := h.frame
  exact ⟨⟨_, b, q, by rw [Store.deleteHeld, hf]⟩, h.queue⟩

@[simp] theorem cascaded_queue : ∀ {found : List RecordKey} {st : Store},
    (st.cascaded found).queue = st.queue
  | [], _ => rfl
  | key :: found, st => by
    rw [Store.cascaded, List.foldl_cons, ← Store.cascaded, cascaded_queue, deleteHeld_queue]

theorem cascaded_main : ∀ {found : List RecordKey} {st : Store},
    (st.cascaded found).main.lookup k = if k ∈ found then none else st.main.lookup k
  | [], _ => by simp [Store.cascaded]
  | key :: found, st => by
    rw [Store.cascaded, List.foldl_cons, ← Store.cascaded, cascaded_main, deleteHeld_main]
    by_cases hk : k = key <;> simp [hk]

theorem cascaded_before : ∀ {found : List RecordKey} {st : Store}, found.Nodup →
    (st.cascaded found).before.lookup k =
      if k ∈ found ∧ st.dirty k = false then (st.before.lookup k).or (st.main.lookup k)
      else st.before.lookup k
  | [], _, _ => by simp [Store.cascaded]
  | key :: found, st, hnd => by
    obtain ⟨hnot, hnd⟩ := List.nodup_cons.mp hnd
    rw [Store.cascaded, List.foldl_cons, ← Store.cascaded, cascaded_before hnd,
      dirty_of_queue deleteHeld_queue, deleteHeld_main, deleteHeld_before]
    by_cases hk : k = key
    · subst hk; simp [hnot]
    · simp [hk]

theorem wf_cascaded : ∀ {found : List RecordKey} {st : Store}, Wf e st →
    (∀ k ∈ found, Named e k) → Wf e (st.cascaded found)
  | [], _, h, _ => h
  | key :: found, st, h, hf => by
    rw [Store.cascaded, List.foldl_cons, ← Store.cascaded]
    exact wf_cascaded (wf_deleteHeld h (hf key (List.mem_cons_self ..)))
      fun k hk => hf k (List.mem_cons_of_mem _ hk)

theorem extends_cascaded : ∀ (found : List RecordKey) (st : Store), Extends st (st.cascaded found)
  | [], st => extends_refl st
  | key :: found, st => by
    rw [Store.cascaded, List.foldl_cons, ← Store.cascaded]
    exact extends_trans extends_deleteHeld (extends_cascaded _ _)

/-- Deleting the descendants of a record always succeeds. -/
theorem cascade_eq : ∀ {found : List RecordKey} {st : Store} (effects : List Operation), Wf e st →
    (∀ k ∈ found, Canonical e k) →
    found.foldlM (fun (st, effects) child => do
        let st ← e.applyMain (st.holdTruth child) (deleteOf child)
        return (st, effects ++ [deleteOf child])) (st, effects) =
      (.ok (st.cascaded found, effects ++ found.map deleteOf) : Except String _)
  | [], st, effects, _, _ => by simp [Store.cascaded, pure, Except.pure]
  | key :: found, st, effects, h, hf => by
    have hc := hf key (List.mem_cons_self ..)
    have h1 : e.applyMain (st.holdTruth key) (deleteOf key) = .ok (st.deleteHeld key) :=
      (applyMain_eq_ok (wf_holdTruth h key) (opOk_delete hc)).mpr
        ⟨none, rfl, not_duplicate_none, rfl⟩
    have hrest := cascade_eq (effects ++ [deleteOf key])
      (wf_deleteHeld h (named_of_canonical hc)) fun k hk => hf k (List.mem_cons_of_mem _ hk)
    rw [List.foldlM_cons]
    change (do let s ← (do let st ← e.applyMain (st.holdTruth key) (deleteOf key); _); _) = _
    rw [h1]
    refine hrest.trans ?_
    simp [Store.cascaded]

/-- The records that an operation's cascade reaches. -/
def CascadeOf (e : Engine) (st : Store) (op : Operation) (found : List RecordKey) : Prop :=
  if op.op = .delete then e.descendants st op.key = .ok found else found = []

theorem cascadeOf_spec (h : Wf e st) (hc : CascadeOf e st op found) :
    found.Nodup ∧ op.key ∉ found ∧ ∀ k ∈ found, Canonical e k := by
  unfold CascadeOf at hc
  split at hc
  · obtain ⟨hnd, -, -⟩ := descendants_spec h hc
    obtain ⟨hnot, hnd⟩ := List.nodup_cons.mp hnd
    exact ⟨hnd, hnot, fun k hk => (mem_descendants h hc hk).1⟩
  · subst hc; simp

/-- What performing one operation does: it is normalized, its record and the descendants of a deleted
    one are held, the descendants are deleted, and it is applied to the visible row. -/
structure Performs (e : Engine) (st : Store) (op op' : Operation) (found : List RecordKey)
    (row : Option Value) : Prop where
  normal : e.normalize op = .ok op'
  ok : OpOk e op'
  kind : op'.op = op.op
  cascade : CascadeOf e (st.holdTruth op'.key) op' found
  apply : applyToRow (((st.holdTruth op'.key).cascaded found).main.lookup op'.key) op' = .ok row
  admitted : ¬Duplicate e ((st.holdTruth op'.key).cascaded found) op'.key row

/-- The store after an operation was performed. -/
def Store.performed (st : Store) (op : Operation) (found : List RecordKey) (row : Option Value) :
    Store :=
  { (st.holdTruth op.key).cascaded found with
    main := ((st.holdTruth op.key).cascaded found).main.put op.key row }

theorem performOp_eq_ok (h : Wf e st) {done effects : List Operation}
    {out : Store × List Operation × List Operation} :
    e.performOp (st, done, effects) op = .ok out ↔ ∃ op' found row,
      Performs e st op op' found row ∧
      out = (st.performed op' found row, done ++ [op'], effects ++ found.map deleteOf) := by
  have hcas : ∀ {op' : Operation} {key : RecordKey}, key = op'.key →
      ∀ {acc : Store × List Operation},
      e.cascadeDelete (st.holdTruth key) op' key = .ok acc ↔ ∃ found,
        CascadeOf e (st.holdTruth op'.key) op' found ∧
        acc = ((st.holdTruth op'.key).cascaded found, found.map deleteOf) := by
    rintro op' _ rfl acc
    have hw := wf_holdTruth h op'.key
    unfold Engine.cascadeDelete CascadeOf
    split
    · simp only [Except.bind_eq_ok, Engine.cascade]
      constructor
      · rintro ⟨found, hf, hc⟩
        rw [cascade_eq [] hw fun k hk => (mem_descendants hw hf hk).1] at hc
        exact ⟨found, hf, by simpa [eq_comm] using hc⟩
      · rintro ⟨found, hf, rfl⟩
        exact ⟨found, hf, by rw [cascade_eq [] hw fun k hk => (mem_descendants hw hf hk).1]; simp⟩
    · simp [Store.cascaded, eq_comm]
  simp only [Engine.performOp, Except.bind_eq_ok, Except.pure_eq_ok]
  constructor
  · rintro ⟨op', hnorm, key, hk, ⟨st1, cascaded⟩, hc, st2, ha, rfl⟩
    obtain ⟨hok, hkey, hkind, -⟩ := normalize_spec hnorm hk
    obtain ⟨found, hf, heq⟩ := (hcas hkey).mp hc
    obtain ⟨rfl, rfl⟩ := Prod.mk.inj heq
    have hw := wf_holdTruth h op'.key
    have hwc := wf_cascaded hw fun k hk => named_of_canonical ((cascadeOf_spec hw hf).2.2 k hk)
    obtain ⟨row, hrow, hadm, rfl⟩ := (applyMain_eq_ok hwc hok).mp ha
    exact ⟨op', found, row, ⟨hnorm, hok, hkind, hf, hrow, hadm⟩, rfl⟩
  · rintro ⟨op', found, row, hp, rfl⟩
    have hw := wf_holdTruth h op'.key
    have hwc := wf_cascaded hw
      fun k hk => named_of_canonical ((cascadeOf_spec hw hp.cascade).2.2 k hk)
    exact ⟨op', hp.normal, op'.key, hp.ok.key, _, (hcas rfl).mpr ⟨found, hp.cascade, rfl⟩, _,
      (applyMain_eq_ok hwc hp.ok).mpr ⟨row, hp.apply, hp.admitted, rfl⟩, rfl⟩

theorem wf_performed (h : Wf e st) {row : Option Value} (hp : Performs e st op op' found row) :
    Wf e (st.performed op' found row) := by
  have hw := wf_holdTruth h op'.key
  have hwc := wf_cascaded hw
    fun k hk => named_of_canonical ((cascadeOf_spec hw hp.cascade).2.2 k hk)
  have hn := named_of_canonical (opOk_canonical hp.ok)
  exact wf_main hwc (rowsOk_put hwc.main hn
    (applyToRow_rowFor hp.ok (rowsOk_lookup hwc.main op'.key) hp.apply))

theorem extends_performed {row : Option Value} : Extends st (st.performed op found row) := by
  have h := extends_trans (extends_holdTruth st op.key)
    (extends_cascaded found _)
  obtain ⟨m, b, q, hf⟩ := h.frame
  exact ⟨⟨_, b, q, by rw [Store.performed, hf]⟩, h.queue⟩

@[simp] theorem performed_queue {row : Option Value} :
    (st.performed op found row).queue = st.queue := by
  simp [Store.performed]

end Cascade

section Derive
variable {e : Engine} {st : Store} {m m' : Mutation}

theorem mem_sortedSet {α : Type} [LinearOrder α] {l : List α} {a : α} : a ∈ sortedSet l ↔ a ∈ l := by
  simp [sortedSet]

/-- A lifecycle dependency names a queued mutation. -/
theorem lifecycleOf_queued {op : Operation} {ds : List ℕ} (h : e.lifecycleOf st op = .ok ds) {d : ℕ}
    (hd : d ∈ ds) : ∃ q ∈ st.queue, q.ordinal = d := by
  simp only [Engine.lifecycleOf, Except.bind_eq_ok, Except.pure_eq_ok] at h
  obtain ⟨key, -, model, -, targets, -, found, hf, rfl⟩ := h
  obtain ⟨l1, hl1, hd⟩ := List.mem_flatten.mp hd
  obtain ⟨l2, hl2, hl1⟩ := List.mem_flatten.mp hl1
  obtain ⟨prior, hprior, hp⟩ := List.mapM_mem hf hl2
  obtain ⟨previous, -, hprev⟩ := List.mapM_mem hp hl1
  simp only [Except.bind_eq_ok, Except.pure_eq_ok] at hprev
  obtain ⟨k, -, rfl⟩ := hprev
  refine ⟨prior, hprior, ?_⟩
  split at hd
  · exact (List.mem_singleton.mp hd).symm
  · cases hd

/-- So does a sequence dependency. -/
theorem sequenceOf_queued {ds : List ℕ} (h : e.sequenceOf st m = .ok ds) {d : ℕ} (hd : d ∈ ds) :
    ∃ q ∈ st.queue, q.ordinal = d := by
  unfold Engine.sequenceOf at h
  split at h
  · cases h; cases hd
  · simp only [Except.bind_eq_ok] at h
    obtain ⟨current, -, h⟩ := h
    split at h
    · simp only [Except.bind_eq_ok, Except.pure_eq_ok] at h
      obtain ⟨found, hf, rfl⟩ := h
      obtain ⟨l1, hl1, hd⟩ := List.mem_flatten.mp hd
      obtain ⟨spec, -, hs⟩ := List.mapM_mem hf hl1
      simp only [Engine.sequenceAfter, Except.bind_eq_ok, Except.pure_eq_ok] at hs
      obtain ⟨name, -, args, -, found', hf', rfl⟩ := hs
      obtain ⟨l2, hl2, hd⟩ := List.mem_flatten.mp hd
      obtain ⟨prior, hprior, hp⟩ := List.mapM_mem hf' hl2
      refine ⟨prior, List.mem_of_mem_filter hprior, ?_⟩
      split at hp
      · cases hp; cases hd
      · simp only [Except.bind_eq_ok, Except.pure_eq_ok] at hp
        obtain ⟨targets, -, b, -, rfl⟩ := hp
        cases b with
        | true => exact (List.mem_singleton.mp (by simpa using hd)).symm
        | false => simp at hd
    · cases h; cases hd

/-- Deriving adds prerequisites, and dependencies on queued mutations. -/
theorem derive_spec (h : e.derive st m = .ok m') : ∃ prerequisites lifecycle sequence,
    m' = { m with prerequisites := prerequisites, lifecycleDependencies := lifecycle,
                  sequenceDependencies := sequence } ∧
    (∀ d ∈ lifecycle, d ∈ m.lifecycleDependencies ∨ ∃ q ∈ st.queue, q.ordinal = d) ∧
    (∀ d ∈ sequence, d ∈ m.sequenceDependencies ∨ ∃ q ∈ st.queue, q.ordinal = d) ∧
    ∀ op ∈ m.operations, ∃ ds, e.lifecycleOf st op = .ok ds ∧ ∀ d ∈ ds, d ∈ lifecycle := by
  simp only [Engine.derive, Except.bind_eq_ok, Except.pure_eq_ok] at h
  obtain ⟨lifecycle, hl, sequence, hs, rfl⟩ := h
  refine ⟨_, _, _, rfl, fun d hd => ?_, fun d hd => ?_, fun op hop => ?_⟩
  · rcases List.mem_append.mp (mem_sortedSet.mp hd) with hd | hd
    · exact Or.inl hd
    · obtain ⟨l1, hl1, hd⟩ := List.mem_flatten.mp hd
      obtain ⟨op, -, hop⟩ := List.mapM_mem hl hl1
      exact Or.inr (lifecycleOf_queued hop hd)
  · exact (List.mem_append.mp (mem_sortedSet.mp hd)).imp_right (sequenceOf_queued hs)
  · obtain ⟨ds, hmem, hds⟩ := List.forall₂_mem_left (List.mapM_eq_ok_iff.mp hl) hop
    refine ⟨ds, hds, fun d hd => mem_sortedSet.mpr (List.mem_append_right _ ?_)⟩
    exact List.mem_flatten.mpr ⟨ds, hmem, hd⟩

end Derive

section Enqueue
variable {e : Engine} {st st' : Store} {m : Mutation} {n : ℕ}

/-- What a run of a mutation's operations keeps: the queue, well-formedness, and normalized
    operations in place of the given ones. -/
structure Performing (e : Engine) (st : Store) (given : List Operation)
    (acc : Store × List Operation × List Operation) : Prop where
  wf : Wf e acc.1
  rows : Extends st acc.1
  queue : acc.1.queue = st.queue
  ok : ∀ op ∈ acc.2.1 ++ acc.2.2, OpOk e op
  kinds : acc.2.1.map (·.op) = given.map (·.op)

theorem performing_fold : ∀ {ops given : List Operation} {acc out}, Performing e st given acc →
    ops.foldlM e.performOp acc = .ok out → Performing e st (given ++ ops) out
  | [], given, acc, out, h, ho => by
    obtain rfl : acc = out := by simpa using ho
    simpa using h
  | op :: ops, given, (s, done, effects), out, h, ho => by
    simp only [List.foldlM_cons, Except.bind_eq_ok] at ho
    obtain ⟨mid, hmid, ho⟩ := ho
    obtain ⟨op', found, row, hp, rfl⟩ := (performOp_eq_ok h.wf).mp hmid
    have hcan := (cascadeOf_spec (wf_holdTruth h.wf _) hp.cascade).2.2
    have hstep : Performing e st (given ++ [op])
        (s.performed op' found row, done ++ [op'], effects ++ found.map deleteOf) := by
      refine ⟨wf_performed h.wf hp, extends_trans h.rows extends_performed,
        performed_queue.trans h.queue, fun o hmem => ?_, ?_⟩
      · simp only [List.mem_append, List.mem_singleton, List.mem_map] at hmem
        rcases hmem with (ho | rfl) | ho | ⟨k, hk, rfl⟩
        · exact h.ok o (List.mem_append_left _ ho)
        · exact hp.ok
        · exact h.ok o (List.mem_append_right _ ho)
        · exact opOk_delete (hcan k hk)
      · have hk := h.kinds
        simp only at hk
        simp [hk, hp.kind]
    simpa using performing_fold hstep ho

theorem performing_start (h : Wf e st) : Performing e st [] (st, [], []) :=
  ⟨h, extends_refl st, rfl, by simp, rfl⟩

/-- Invariant rule for performing operations that meet their guards. -/
theorem performing_induction
    (guard : Store × List Operation × List Operation → Operation → Prop)
    (P : Store × List Operation × List Operation → Prop)
    (step : ∀ {s done effects op op' found row}, Wf e s → s.queue = st.queue →
      Performs e s op op' found row → guard (s, done, effects) op → P (s, done, effects) →
      P (s.performed op' found row, done ++ [op'], effects ++ found.map deleteOf))
    {ops given : List Operation} {acc out : Store × List Operation × List Operation}
    (hp : Performing e st given acc) (h : P acc) (hg : List.Guarded e.performOp guard acc ops)
    (ho : ops.foldlM e.performOp acc = .ok out) : P out := by
  refine (List.foldlM_guarded_induction
    (fun acc : Store × List Operation × List Operation => Wf e acc.1 ∧ acc.1.queue = st.queue ∧ P acc)
    ?_ hg ⟨hp.wf, hp.queue, h⟩ ho).2.2
  rintro ⟨s, done, effects⟩ op t - ⟨hwf, hq, hP⟩ hguard hstep
  obtain ⟨op', found, row, hpo, rfl⟩ := (performOp_eq_ok hwf).mp hstep
  exact ⟨wf_performed hwf hpo, performed_queue.trans hq, step hwf hq hpo hguard hP⟩

theorem insertMutation_eq {ordinal : ℕ} (hops : ∀ op ∈ m.allOps, OpOk e op) :
    e.insertMutation st ordinal m = .ok { st with queue := st.queue ++ [{
      ordinal := ordinal
      mutation := { m with
        sequenceDependencies := m.sequenceDependencies.filter (· ∉ m.lifecycleDependencies) } }] } := by
  have hstored : ∀ op, OpOk e op → e.storedOp op = .ok op := fun op hop => by
    simp only [Engine.storedOp, hop.key, Except.ok_bind, Operation.key]
    rfl
  have hall : ∀ ops : List Operation, (∀ op ∈ ops, op ∈ m.allOps) →
      ops.mapM e.storedOp = .ok ops := fun ops hsub => by
    have h := List.mapM_eq_ok_of (f := e.storedOp) (g := id) (l := ops)
      fun op hop => hstored op (hops op (hsub op hop))
    simpa using h
  simp only [Engine.insertMutation]
  rw [hall m.operations (fun op h => by simp [Mutation.allOps, h]),
    hall m.companion (fun op h => by simp [Mutation.allOps, h]),
    hall m.effects (fun op h => by simp [Mutation.allOps, h])]
  rfl

/-- What enqueueing does: the operations were performed in order, and the mutation is last on the
    queue with the normalized operations and the deletions of their cascades. -/
structure Enqueues (e : Engine) (st : Store) (m : Mutation) (st' : Store) (done : List Operation)
    (effects : List Operation) (q : Queued) (mid : Store) : Prop where
  accepted : !blank m.name ∧ m.version ≠ 0 ∧ m.operations ≠ []
  performs : (m.operations ++ m.companion).foldlM e.performOp (st, [], []) = .ok (mid, done, effects)
  queued : q.ordinal = st.nextOrdinal ∧ q.push = none ∧ q.diverged = false
  name : q.mutation.name = m.name ∧ q.mutation.version = m.version
  operations : q.mutation.operations = done.take m.operations.length
  companion : q.mutation.companion = done.drop m.operations.length
  effects : q.mutation.effects = effects
  deps : ∀ d ∈ q.mutation.lifecycleDependencies ++ q.mutation.sequenceDependencies,
    ∃ p ∈ st.queue, p.ordinal = d
  derived : ∀ op ∈ q.mutation.operations, ∃ ds, e.lifecycleOf mid op = .ok ds ∧
    ∀ d ∈ ds, d ∈ q.mutation.lifecycleDependencies
  room : st.nextOrdinal + 1 ≤ maxSafeInteger
  result : st' = { mid with nextOrdinal := st.nextOrdinal + 1, queue := st.queue ++ [q] }

theorem enqueue_spec (h : Wf e st) (he : e.enqueue st m = .ok (n, st')) :
    n = st.nextOrdinal ∧ ∃ done effects q mid, Enqueues e st m st' done effects q mid := by
  simp only [Engine.enqueue, Except.bind_eq_ok, ensure_eq_ok, List.forM_eq_ok,
    Except.pure_eq_ok] at he
  obtain ⟨-, hacc, -, hdeps, ⟨mid, done, effects⟩, hfold, m', hderive, ⟨n', st2⟩, halloc, st3,
    hins, heq⟩ := he
  obtain ⟨rfl, rfl⟩ := Prod.mk.inj heq
  have hperf : Performing e st (m.operations ++ m.companion) (mid, done, effects) := by
    simpa using performing_fold (performing_start h) hfold
  obtain ⟨p, l, s, rfl, hl, hs, hfound⟩ := derive_spec hderive
  obtain ⟨main, before, queue, hframe⟩ := hperf.rows.frame
  have hnext : mid.nextOrdinal = st.nextOrdinal := by rw [show mid = _ from hframe]
  simp only [Store.allocateOrdinal, Store.bump, Except.bind_eq_ok, ensure_eq_ok,
    Except.pure_eq_ok] at halloc
  obtain ⟨⟨o, next⟩, ⟨-, hroom, hpair⟩, hst⟩ := halloc
  obtain ⟨rfl, rfl⟩ := Prod.mk.inj hpair
  obtain ⟨rfl, rfl⟩ := Prod.mk.inj hst
  rw [insertMutation_eq] at hins
  · obtain rfl := Except.ok.inj hins
    refine ⟨hnext, done, effects, _, mid, {
      accepted := hacc, performs := hfold, queued := ⟨rfl, rfl, rfl⟩, name := ⟨rfl, rfl⟩
      operations := rfl, companion := rfl, effects := rfl, deps := fun d hd => ?_
      derived := hfound, room := hnext ▸ hroom
      result := by rw [hnext, show mid.queue = st.queue from hperf.queue] }⟩
    have hq : ∀ d, d ∈ m.lifecycleDependencies ++ m.sequenceDependencies →
        ∃ p ∈ st.queue, p.ordinal = d := by
      intro d hd
      obtain ⟨p, hp⟩ := Option.isSome_iff_exists.mp (hdeps d hd)
      exact ⟨p, List.mem_of_find?_eq_some hp, by simpa using List.find?_some hp⟩
    have hqm : (∃ q ∈ mid.queue, q.ordinal = d) → ∃ p ∈ st.queue, p.ordinal = d := by
      rw [show mid.queue = st.queue from hperf.queue]; exact id
    rcases List.mem_append.mp hd with hd | hd
    · exact (hl d hd).elim (fun h => hq d (List.mem_append_left _ h)) hqm
    · exact (hs d (List.mem_of_mem_filter hd)).elim (fun h => hq d (List.mem_append_right _ h)) hqm
  · intro op hop
    refine hperf.ok op ?_
    simpa [Mutation.allOps] using hop

/-- The operations of the new mutation, in the order of their positions. -/
theorem enqueues_allOps {done effects : List Operation} {q : Queued} {mid : Store}
    (he : Enqueues e st m st' done effects q mid) : q.mutation.allOps = done ++ effects := by
  rw [Mutation.allOps, he.operations, he.companion, he.effects, List.take_append_drop]

theorem enqueues_performing (h : Wf e st) {done effects : List Operation} {q : Queued} {mid : Store}
    (he : Enqueues e st m st' done effects q mid) :
    Performing e st (m.operations ++ m.companion) (mid, done, effects) := by
  simpa using performing_fold (performing_start h) he.performs

/-- Enqueueing keeps a store well-formed. -/
theorem wf_enqueue (h : Wf e st) (he : e.enqueue st m = .ok (n, st')) : Wf e st' := by
  obtain ⟨-, done, effects, q, mid, hq⟩ := enqueue_spec h he
  have hp := enqueues_performing h hq
  have hord := hq.queued.1
  rw [hq.result]
  refine ⟨fun p hmem => ?_, hp.wf.main, hp.wf.before, ?_, fun p hmem => ?_, fun p hmem => ?_⟩
  · rcases List.mem_append.mp hmem with hmem | hmem
    · exact h.ops p hmem
    · rw [List.mem_singleton.mp hmem, enqueues_allOps hq]
      exact hp.ok
  · simp only [List.map_append, List.map_cons, List.map_nil]
    refine List.pairwise_append.mpr ⟨h.sorted, by simp, fun a ha b hb => ?_⟩
    obtain ⟨p, hpq, rfl⟩ := List.mem_map.mp ha
    rw [List.mem_singleton.mp hb, hord]
    exact h.fresh p hpq
  · rcases List.mem_append.mp hmem with hmem | hmem
    · exact Nat.lt_succ_of_lt (h.fresh p hmem)
    · rw [List.mem_singleton.mp hmem, hord]
      exact Nat.lt_succ_self _
  · rcases List.mem_append.mp hmem with hmem | hmem
    · exact h.deps p hmem
    · rw [List.mem_singleton.mp hmem, hord]
      intro d hd
      obtain ⟨p, hpq, rfl⟩ := hq.deps d hd
      exact h.fresh p hpq

end Enqueue

end AheadSync
