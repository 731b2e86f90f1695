import AheadSync.Client.Wellformed

/-! What rebuilding a record and searching its cascade descendants do on a well-formed store. -/

namespace AheadSync

namespace Store
variable (st : Store) (key : RecordKey)

/-- The store after a rebuild that made `row` visible. -/
def rebuilt (row : Option Value) : Store :=
  { st with
    main := st.main.put key row
    before := if st.opsFor key = [] then st.before.put key none else st.before }.mark
    (st.failing key)

end Store

section Ops
variable {e : Engine} {st : Store} {key : RecordKey}

theorem mem_opsFor {q : QueuedOp} : q ∈ st.opsFor key ↔
    ∃ m ∈ st.queue, m.ordinal = q.ordinal ∧ q.op ∈ m.mutation.allOps ∧ q.op.key = key := by
  simp only [Store.opsFor, List.mem_flatMap, List.mem_map, List.mem_filter, decide_eq_true_eq]
  constructor
  · rintro ⟨m, hm, op, ⟨hop, hk⟩, rfl⟩
    exact ⟨m, hm, rfl, hop, hk⟩
  · rintro ⟨m, hm, ho, hop, hk⟩
    exact ⟨m, hm, q.op, ⟨hop, hk⟩, by rw [ho]⟩

theorem dirty_iff : st.dirty key = true ↔ ∃ q ∈ st.queue, ∃ op ∈ q.mutation.allOps, op.key = key := by
  simp [Store.dirty]

theorem dirty_eq_false : st.dirty key = false ↔ st.opsFor key = [] := by
  rw [← Bool.not_eq_true, dirty_iff, List.eq_nil_iff_forall_not_mem]
  constructor
  · rintro h q hq
    obtain ⟨m, hm, -, hop, hk⟩ := mem_opsFor.mp hq
    exact h ⟨m, hm, q.op, hop, hk⟩
  · rintro h ⟨m, hm, op, hop, hk⟩
    exact h ⟨m.ordinal, op⟩ (mem_opsFor.mpr ⟨m, hm, rfl, hop, hk⟩)

theorem wf_opsFor (h : Wf e st) : ∀ q ∈ st.opsFor key, OpOk e q.op ∧ q.op.key = key := by
  intro q hq
  obtain ⟨m, hm, -, hop, hk⟩ := mem_opsFor.mp hq
  exact ⟨h.ops m hm q.op hop, hk⟩

theorem shown_rowFor (h : Wf e st) : RowFor e key (st.shown key) := by
  unfold Store.shown
  split
  · rename_i row hrow
    exact replay_rowFor (wf_opsFor h) (rowsOk_lookup h.before key) hrow
  · exact rowsOk_lookup h.before key

theorem shown_clean (h : st.dirty key = false) : st.shown key = st.before.lookup key := by
  simp [Store.shown, dirty_eq_false.mp h, replay]

theorem failing_clean (h : st.dirty key = false) : st.failing key = none := by
  simp [Store.failing, dirty_eq_false.mp h, replay]

end Ops

section Rebuild
variable {e : Engine} {st st' : Store} {key : RecordKey}

/-- The row a rebuild makes visible: the replayed one, or the before image when the visible table
    refuses that. -/
def RebuildRow (e : Engine) (st : Store) (key : RecordKey) (row : Option Value) : Prop :=
  (row = st.shown key ∧ ¬Duplicate e st key (st.shown key)) ∨
    (row = st.before.lookup key ∧ Duplicate e st key (st.shown key) ∧
      ¬Duplicate e st key (st.before.lookup key))

/-- What a rebuild does: it shows one of the two rows, forgets the before image of a clean record
    and marks the mutation that failed. -/
theorem rebuild_eq_ok (hwf : Wf e st) (hk : Named e key) {failed : Option ℕ} :
    e.rebuild st key = .ok (failed, st') ↔
      failed = st.failing key ∧ ∃ row, RebuildRow e st key row ∧ st' = st.rebuilt key row := by
  have hset : ∀ {st1}, e.showRow st key (st.shown key) (st.before.lookup key) = .ok st1 ↔
      ∃ row, RebuildRow e st key row ∧ st1 = { st with main := st.main.put key row } := by
    intro st1
    have hshown := fun st2 => @mainSet_eq_ok e st st2 key _ hk (shown_rowFor hwf)
    have hbase := @mainSet_eq_ok e st st1 key _ hk (rowsOk_lookup hwf.before key)
    unfold Engine.showRow
    by_cases hd : Duplicate e st key (st.shown key)
    · split
      · rename_i st2 h2
        exact absurd hd ((hshown st2).mp h2).1
      · rw [hbase]
        simp [RebuildRow, hd]
    · rw [(hshown _).mpr ⟨hd, rfl⟩]
      simp [RebuildRow, hd, eq_comm]
  have hdrop : ∀ {row st2}, e.dropBase { st with main := st.main.put key row } key = .ok st2 ↔
      st2 = { st with
        main := st.main.put key row
        before := if st.opsFor key = [] then st.before.put key none else st.before } := by
    intro row st2
    unfold Engine.dropBase
    have hops : Store.opsFor { st with main := st.main.put key row } key = st.opsFor key := rfl
    rw [hops]
    split
    · exact beforeSet_eq_ok hk rowFor_none
    · simp [eq_comm]
  simp only [Engine.rebuild, Except.bind_eq_ok, hset, Except.pure_eq_ok, Prod.mk.injEq]
  constructor
  · rintro ⟨_, ⟨row, hrow, rfl⟩, st2, h2, rfl, rfl⟩
    exact ⟨rfl, row, hrow, by rw [hdrop.mp h2]; rfl⟩
  · rintro ⟨rfl, row, hrow, rfl⟩
    exact ⟨_, ⟨row, hrow, rfl⟩, _, hdrop.mpr rfl, rfl, rfl⟩

end Rebuild

section Fields
variable {e : Engine} {st : Store} {key : RecordKey} {row : Option Value} {n : Option ℕ}

/-- Changing mutations without changing their ordinals and operations changes no record's
    operations. -/
theorem opsFor_map {f : Queued → Queued}
    (hf : ∀ q, (f q).ordinal = q.ordinal ∧ (f q).mutation.allOps = q.mutation.allOps) :
    { st with queue := st.queue.map f }.opsFor key = st.opsFor key := by
  simp only [Store.opsFor, List.flatMap_map]
  exact List.flatMap_congr fun q _ => by rw [(hf q).1, (hf q).2]

theorem dirty_eq_of_opsFor {st' : Store} (h : st'.opsFor key = st.opsFor key) :
    st'.dirty key = st.dirty key := by
  rw [Bool.eq_iff_iff, ← not_iff_not, Bool.not_eq_true, Bool.not_eq_true, dirty_eq_false,
    dirty_eq_false, h]

@[simp] theorem mark_main : (st.mark n).main = st.main := by cases n <;> rfl
@[simp] theorem mark_before : (st.mark n).before = st.before := by cases n <;> rfl
@[simp] theorem mark_stamps : (st.mark n).stamps = st.stamps := by cases n <;> rfl
@[simp] theorem mark_nextOrdinal : (st.mark n).nextOrdinal = st.nextOrdinal := by cases n <;> rfl

/-- Marking sets one flag of the queue. -/
theorem mark_queue : (st.mark n).queue =
    st.queue.map fun q => if some q.ordinal = n then { q with diverged := true } else q := by
  cases n with
  | none => simp [Store.mark]
  | some n => simp [Store.mark, Store.setDiverged, Store.modify]

@[simp] theorem mark_opsFor : (st.mark n).opsFor key = st.opsFor key := by
  cases n with
  | none => rfl
  | some n => exact opsFor_map fun q => by split <;> simp

theorem rebuilt_queue : (st.rebuilt key row).queue =
    st.queue.map fun q => if some q.ordinal = st.failing key then { q with diverged := true }
      else q := mark_queue

@[simp] theorem rebuilt_main : (st.rebuilt key row).main = st.main.put key row := by
  simp [Store.rebuilt]

@[simp] theorem rebuilt_before : (st.rebuilt key row).before =
    if st.opsFor key = [] then st.before.put key none else st.before := by
  simp [Store.rebuilt]

@[simp] theorem rebuilt_opsFor {k : RecordKey} : (st.rebuilt key row).opsFor k = st.opsFor k := by
  rw [Store.rebuilt, mark_opsFor]; rfl

/-- Marking keeps a store well-formed. -/
theorem wf_mark (h : Wf e st) : Wf e (st.mark n) where
  ops := by
    rw [mark_queue]
    intro q hq
    obtain ⟨q', hq', rfl⟩ := List.mem_map.mp hq
    split
    · exact h.ops q' hq'
    · exact h.ops q' hq'
  main := by simpa using h.main
  before := by simpa using h.before
  sorted := by
    have : ((st.mark n).queue.map (·.ordinal)) = st.queue.map (·.ordinal) := by
      rw [mark_queue, List.map_map]
      refine List.map_congr_left fun q _ => ?_
      simp only [Function.comp_apply]; split <;> rfl
    rw [this]; exact h.sorted
  fresh := by
    rw [mark_queue, mark_nextOrdinal]
    intro q hq
    obtain ⟨q', hq', rfl⟩ := List.mem_map.mp hq
    split
    · exact h.fresh q' hq'
    · exact h.fresh q' hq'
  deps := by
    rw [mark_queue]
    intro q hq
    obtain ⟨q', hq', rfl⟩ := List.mem_map.mp hq
    split
    · exact h.deps q' hq'
    · exact h.deps q' hq'

theorem wf_rebuilt (h : Wf e st) (hk : Named e key) (hr : RowFor e key row) :
    Wf e (st.rebuilt key row) := by
  refine @wf_mark e { st with main := _, before := _ } _
    ⟨h.ops, rowsOk_put h.main hk hr, ?_, h.sorted, h.fresh, h.deps⟩
  simp only
  split
  · exact rowsOk_put h.before hk rowFor_none
  · exact h.before

theorem rebuildRow_rowFor (h : Wf e st) (hr : RebuildRow e st key row) : RowFor e key row := by
  rcases hr with ⟨rfl, -⟩ | ⟨rfl, -⟩
  · exact shown_rowFor h
  · exact rowsOk_lookup h.before key

/-- A rebuild keeps a store well-formed. -/
theorem wf_rebuild (h : Wf e st) (hk : Named e key) {st' : Store}
    (hr : e.rebuild st key = .ok (n, st')) : Wf e st' := by
  obtain ⟨-, row, hrow, rfl⟩ := (rebuild_eq_ok h hk).mp hr
  exact wf_rebuilt h hk (rebuildRow_rowFor h hrow)

end Fields

section Descendants
variable {e : Engine} {st : Store} {parent child : RecordKey}

/-- A stored row of `child`, visible or set aside, references `parent` through a cascading
    relation. -/
def Refers (e : Engine) (st : Store) (parent child : RecordKey) : Prop :=
  ∃ row, (st.main.lookup child = some row ∨ st.before.lookup child = some row) ∧
    ∃ model ∈ e.schema.models, model.name = child.model ∧ ∃ r ∈ model.relations,
      r.target = parent.model ∧ r.onDelete = "delete" ∧
      ∀ lt ∈ r.fields.zip r.targetFields, row.index lt.1 = parent.identity.index lt.2

theorem mem_identitiesWhere {t : Table RecordKey Value} {model : ModelDescriptor}
    {filter : List (String × Value)} {identity : Value} :
    identity ∈ identitiesWhere t model filter ↔ ∃ row,
      t.lookup ⟨model.name, identity⟩ = some row ∧ ∀ fv ∈ filter, row.index fv.1 = fv.2 := by
  simp only [identitiesWhere, List.mem_filterMap, Prod.exists, AList.mem_rows]
  constructor
  · rintro ⟨⟨m, i⟩, row, hrow, h⟩
    split at h
    · rename_i hc
      obtain rfl := Option.some.inj h
      obtain ⟨rfl, hf⟩ := hc
      exact ⟨row, hrow, hf⟩
    · cases h
  · rintro ⟨row, hrow, hf⟩
    exact ⟨_, row, hrow, if_pos ⟨rfl, hf⟩⟩

/-- The identities whose keys become the children of a record. -/
theorem mem_childIdentities {k : RecordKey} :
    (k.model, k.identity) ∈ (e.schema.models.flatMap fun model =>
      (model.relations.filter fun r =>
          r.target = parent.model ∧ r.onDelete = "delete").flatMap fun r =>
        let filter := (r.fields.zip r.targetFields).map fun (l, t) => (l, parent.identity.index t)
        (identitiesWhere st.main model filter ++ identitiesWhere st.before model filter).map
          (model.name, ·)) ↔ Refers e st parent k := by
  simp only [List.mem_flatMap, List.mem_filter, decide_eq_true_eq, List.mem_map, List.mem_append,
    mem_identitiesWhere, Prod.mk.injEq, Refers]
  constructor
  · rintro ⟨model, hm, r, ⟨hr, ht, hd⟩, i, hi, hname, rfl⟩
    rw [show (⟨model.name, k.identity⟩ : RecordKey) = k by rw [hname]] at hi
    rcases hi with ⟨row, hrow, hf⟩ | ⟨row, hrow, hf⟩
    · exact ⟨row, Or.inl hrow, model, hm, hname, r, hr, ht, hd,
        fun lt hlt => hf _ ⟨lt, hlt, rfl⟩⟩
    · exact ⟨row, Or.inr hrow, model, hm, hname, r, hr, ht, hd,
        fun lt hlt => hf _ ⟨lt, hlt, rfl⟩⟩
  · rintro ⟨row, hrow, model, hm, hname, r, hr, ht, hd, hf⟩
    refine ⟨model, hm, r, ⟨hr, ht, hd⟩, k.identity, ?_, hname, rfl⟩
    rw [show (⟨model.name, k.identity⟩ : RecordKey) = k by rw [hname]]
    have hf' : ∀ fv, (∃ a ∈ r.fields.zip r.targetFields,
        (a.1, parent.identity.index a.2) = fv) → row.index fv.1 = fv.2 := by
      rintro _ ⟨lt, hlt, rfl⟩
      exact hf lt hlt
    rcases hrow with hrow | hrow
    · exact Or.inl ⟨row, hrow, hf'⟩
    · exact Or.inr ⟨row, hrow, hf'⟩

theorem refers_named (h : Wf e st) (hr : Refers e st parent child) : Named e child := by
  obtain ⟨row, hrow | hrow, -⟩ := hr
  · exact (h.main child row hrow).1
  · exact (h.before child row hrow).1

/-- The children of a record are the records that refer to it. -/
theorem mem_children (h : Wf e st) {cs : List RecordKey} (hcs : e.children st parent = .ok cs) :
    child ∈ cs ↔ Refers e st parent child := by
  obtain ⟨g, hg, rfl⟩ := List.mapM_eq_ok_map hcs
  have hstable : ∀ k, Refers e st parent k → g (k.model, k.identity) = k := fun k hk =>
    named_stable (refers_named h hk) (hg _ (mem_childIdentities.mpr hk))
  constructor
  · intro hc
    obtain ⟨⟨m, i⟩, hmi, rfl⟩ := List.mem_map.mp hc
    have hk : Refers e st parent ⟨m, i⟩ := mem_childIdentities.mp hmi
    rw [hstable ⟨m, i⟩ hk]
    exact hk
  · intro hk
    exact List.mem_map.mpr ⟨_, mem_childIdentities.mpr hk, hstable child hk⟩

/-- The children can be computed when the identity of each is accepted again. -/
theorem children_ok_iff (h : Wf e st) :
    (∃ cs, e.children st parent = .ok cs) ↔ ∀ k, Refers e st parent k → Canonical e k := by
  constructor
  · rintro ⟨cs, hcs⟩ k hk
    obtain ⟨g, hg, -⟩ := List.mapM_eq_ok_map hcs
    have hgk := hg _ (mem_childIdentities.mpr hk)
    rw [named_stable (refers_named h hk) hgk] at hgk
    exact hgk
  · intro hall
    refine ⟨_, List.mapM_eq_ok_of (g := fun mi => ⟨mi.1, mi.2⟩) fun mi hmi => ?_⟩
    exact hall ⟨mi.1, mi.2⟩ (mem_childIdentities.mp hmi)

/-- A record below another through any number of cascading relations. -/
def Below (e : Engine) (st : Store) : RecordKey → RecordKey → Prop :=
  Relation.ReflTransGen (Refers e st)

/-- Every record that holds a row. -/
def recordsOf (st : Store) : Finset RecordKey :=
  (st.main.rows.map Prod.fst ++ st.before.rows.map Prod.fst).toFinset

theorem card_recordsOf (st : Store) :
    (recordsOf st).card < st.main.rows.length + st.before.rows.length + 1 := by
  have := List.toFinset_card_le (st.main.rows.map Prod.fst ++ st.before.rows.map Prod.fst)
  simp only [List.length_append, List.length_map] at this
  exact Nat.lt_succ_of_le this

theorem refers_mem (hr : Refers e st parent child) : child ∈ recordsOf st := by
  obtain ⟨row, hrow, -⟩ := hr
  simp only [recordsOf, List.mem_toFinset, List.mem_append, List.mem_map, Prod.exists,
    AList.mem_rows, exists_and_right, exists_eq_right]
  exact hrow.imp (⟨row, ·⟩) (⟨row, ·⟩)

theorem edge_iff (h : Wf e st) (hok : ∃ cs, e.children st parent = .ok cs) :
    Reach.Edge (e.children st) parent child ↔ Refers e st parent child := by
  obtain ⟨cs, hcs⟩ := hok
  constructor
  · rintro ⟨cs', hcs', hmem⟩
    exact (mem_children h hcs').mp hmem
  · exact fun hr => ⟨cs, hcs, (mem_children h hcs).mpr hr⟩

/-- The search finds exactly the records below the parent, each once, and accepts the identity of
    each. -/
theorem descendants_spec (h : Wf e st) {found : List RecordKey}
    (hd : e.descendants st parent = .ok found) :
    (parent :: found).Nodup ∧ (∀ k, k ∈ parent :: found ↔ Below e st parent k) ∧
      ∀ p k, Below e st parent p → Refers e st p k → Canonical e k := by
  obtain ⟨hnd, hmem, hok⟩ := Reach.explore_exact
    (fun p qs hqs q hq => (refers_mem ((mem_children h hqs).mp hq) : q ∈ recordsOf st)) (card_recordsOf st) hd
  have hreach : ∀ k, Reach.Reaches (e.children st) parent k ↔ Below e st parent k := by
    intro k
    constructor
    · intro hr
      induction hr with
      | refl => exact .refl
      | tail hr he ih => exact ih.tail ((edge_iff h (hok _ hr)).mp he)
    · intro hb
      induction hb with
      | refl => exact .refl
      | tail _ he ih => exact ih.tail ((edge_iff h (hok _ ih)).mpr he)
  exact ⟨hnd, fun k => by rw [hmem, hreach], fun p k hp hr =>
    (children_ok_iff h).mp (hok p ((hreach p).mpr hp)) k hr⟩

/-- The search succeeds when the identity of every record below is accepted again. -/
theorem descendants_ok_iff (h : Wf e st) : (∃ found, e.descendants st parent = .ok found) ↔
    ∀ p k, Below e st parent p → Refers e st p k → Canonical e k := by
  constructor
  · rintro ⟨found, hd⟩
    exact (descendants_spec h hd).2.2
  · intro hall
    refine Reach.explore_ok (fun p hp => ?_) (by simp [Reach.Reaches, Relation.ReflTransGen.refl])
    have hb : Below e st parent p := by
      induction hp with
      | refl => exact .refl
      | tail _ he ih =>
        obtain ⟨cs, hcs, hmem⟩ := he
        exact ih.tail ((mem_children h hcs).mp hmem)
    exact (children_ok_iff h).mpr fun k hk => hall p k hb hk

/-- Every descendant found is a canonical key that holds a row. -/
theorem mem_descendants (h : Wf e st) {found : List RecordKey}
    (hd : e.descendants st parent = .ok found) (hc : child ∈ found) :
    Canonical e child ∧ ∃ p, Below e st parent p ∧ Refers e st p child := by
  obtain ⟨hnd, hmem, hok⟩ := descendants_spec h hd
  have hb := (hmem child).mp (List.mem_cons_of_mem _ hc)
  rcases Relation.ReflTransGen.cases_tail hb with rfl | ⟨p, hp, hr⟩
  · exact absurd hc (List.nodup_cons.mp hnd).1
  · exact ⟨hok p child hp hr, p, hp, hr⟩

end Descendants

end AheadSync
