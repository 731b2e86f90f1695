import AheadSync.Client.QueueStorage

/-! Reading the queue back from its tables: every queued mutation as it was written, its prerequisites
    and dependencies as sets, and the operations of a record in the order of their places. -/

namespace AheadSync
open QueueTables

/-- `y` is what reading gives for the queued `x`. -/
structure ReadAs (x y : Queued) : Prop where
  ordinal : y.ordinal = x.ordinal
  push : y.push = x.push
  diverged : y.diverged = x.diverged
  name : y.mutation.name = x.mutation.name
  version : y.mutation.version = x.mutation.version
  operations : y.mutation.operations = x.mutation.operations
  companion : y.mutation.companion = x.mutation.companion
  effects : y.mutation.effects = x.mutation.effects
  prerequisites : ∀ key, key ∈ y.mutation.prerequisites ↔ key ∈ x.mutation.prerequisites
  lifecycle : ∀ d, d ∈ y.mutation.lifecycleDependencies ↔ d ∈ x.mutation.lifecycleDependencies
  sequence : ∀ d, d ∈ y.mutation.sequenceDependencies ↔ d ∈ x.mutation.sequenceDependencies

section Reading
variable {q : SqlQueue} {t : QueueTables} {queue : List Queued} {n i : ℕ}

theorem filter_storedOps (kind : OpKind) : ∀ (i : ℕ) (ops : List (OpKind × Operation)),
    ((storedOps n i ops).filter (·.kind = kind)).map (·.op) = (ops.filter (·.1 = kind)).map (·.2)
  | _, [] => rfl
  | i, (k, op) :: ops => by
    have hrest := filter_storedOps kind (i + 1) ops
    by_cases hk : k = kind
    · simp [storedOps, hk, hrest]
    · simp [storedOps, hk, hrest]

theorem filter_taggedOps (m : Mutation) (kind : OpKind) :
    (m.taggedOps.filter (·.1 = kind)).map (·.2) = match kind with
      | .wire => m.operations
      | .companion => m.companion
      | .effect => m.effects := by
  cases kind <;> simp [Mutation.taggedOps, List.filter_map, Function.comp_def]

namespace SqlQueue.Represents
variable (h : q.Represents t queue)
include h

/-- Every operation row is read. -/
theorem decodes : ∃ g : OperationRow → StoredOp, ∀ row ∈ t.operations,
    q.decodeOp row = .ok (g row) ∧ (g row).ordinal = row.ordinal ∧ (g row).position = row.position := by
  have hall : ∀ row ∈ t.operations, ∃ s, q.decodeOp row = .ok s ∧ s.ordinal = row.ordinal ∧
      s.position = row.position := by
    intro row hrow
    obtain ⟨x, hx, -, hrow⟩ := h.mem_operations hrow
    obtain ⟨j, e, -, -, he, rfl⟩ := mem_opRows hrow
    exact ⟨_, decodeOp_opRow (h.readable x hx e he), rfl, rfl⟩
  have : Nonempty StoredOp := ⟨⟨0, 0, .wire, ⟨"", .create, .null, none⟩⟩⟩
  choose! g hg using hall
  exact ⟨g, hg⟩

/-- The operations read for a mutation selected with the rows. -/
theorem opsByOrdinal_lookup {keep : OperationRow → Bool} : ∃ ops, q.opsByOrdinal t keep = .ok ops ∧
    ∀ x ∈ queue, (∀ row : OperationRow, row.ordinal = x.ordinal → keep row) →
      (ops.lookup x.ordinal).getD [] = storedOps x.ordinal 0 x.mutation.taggedOps := by
  obtain ⟨g, hg⟩ := h.decodes
  have hmem : ∀ row ∈ orderBy opPlace (t.operations.filter keep), row ∈ t.operations := fun row hrow =>
    (List.mem_filter.mp (mem_orderBy.mp hrow)).1
  have hread := List.mapM_eq_ok_of (f := q.decodeOp) (g := g) fun row hrow => (hg row (hmem row hrow)).1
  refine ⟨_, by rw [SqlQueue.opsByOrdinal, hread]; rfl, fun x hx hkeep => ?_⟩
  have hrows : (t.operations.filter keep).filter (·.ordinal = x.ordinal) =
      q.opRows x.ordinal 0 x.mutation.taggedOps := by
    rw [← h.operations_of hx, List.filter_filter]
    refine List.filter_congr fun row _ => ?_
    by_cases hord : row.ordinal = x.ordinal
    · simp [hord, hkeep row hord]
    · simp [hord]
  have hops : ((orderBy opPlace (t.operations.filter keep)).map g).filter (·.ordinal = x.ordinal) =
      storedOps x.ordinal 0 x.mutation.taggedOps := by
    have hcongr : (orderBy opPlace (t.operations.filter keep)).filter
        ((fun s : StoredOp => decide (s.ordinal = x.ordinal)) ∘ g) =
          (orderBy opPlace (t.operations.filter keep)).filter (·.ordinal = x.ordinal) :=
      List.filter_congr fun row hrow => by simp [(hg row (hmem row hrow)).2.1]
    rw [List.filter_map, hcongr, filter_orderBy (hrows ▸ opRows_increasing _ _ _), hrows]
    refine map_opRows _ _ _ (h.readable x hx) fun row hrow => (hg row ?_).1
    exact (List.mem_filter.mp (h.operations_of hx ▸ hrow)).1
  rw [SortedMap.lookup_group, hops]
  split
  · rename_i hnil
    exact hnil.symm
  · rfl

/-- Reading a mutation row gives the mutation it was written from. -/
theorem readMutation_ok {x : Queued} {keep : ℕ → Bool} {ops : SortedMap ℕ (List StoredOp)} (hx : x ∈ queue)
    (hkeep : keep x.ordinal)
    (hops : (ops.lookup x.ordinal).getD [] = storedOps x.ordinal 0 x.mutation.taggedOps) : ∃ y,
    SqlQueue.readMutation ops (orderBy dependencyKey (t.dependencies.filter (keep ·.ordinal)))
      (orderBy prerequisiteKey (t.prerequisites.filter (keep ·.ordinal))) (mutationRow x) = .ok y ∧
        ReadAs x y := by
  have hversion : readU64 (mutationRow x).version = .ok x.mutation.version := if_pos (h.versions x hx)
  have hkind : ∀ kind, (((ops.lookup (mutationRow x).ordinal).getD []).filter (·.kind = kind)).map (·.op) =
      (x.mutation.taggedOps.filter (·.1 = kind)).map (·.2) := fun kind => by
    rw [show (mutationRow x).ordinal = x.ordinal from rfl, hops, filter_storedOps]
  simp only [SqlQueue.readMutation, hversion, Except.ok_bind]
  refine ⟨_, rfl, ⟨rfl, rfl, rfl, rfl, rfl, (hkind _).trans (filter_taggedOps _ .wire),
    (hkind _).trans (filter_taggedOps _ .companion), (hkind _).trans (filter_taggedOps _ .effect),
    fun key => ?_, fun d => ?_, fun d => ?_⟩⟩
  · have hp := h.prerequisites x.ordinal key
    simp only [List.mem_map, List.mem_filter, mem_orderBy, mutationRow]
    constructor
    · rintro ⟨row, ⟨⟨hrow, -⟩, hord⟩, hkey⟩
      obtain ⟨y, hy, hyx, hmem⟩ := hp.mp ⟨row, hrow, of_decide_eq_true hord, hkey⟩
      exact h.eq_of_ordinal hy hx hyx ▸ hmem
    · intro hmem
      obtain ⟨row, hrow, hord, hkey⟩ := hp.mpr ⟨x, hx, rfl, hmem⟩
      exact ⟨row, ⟨⟨hrow, hord ▸ hkeep⟩, decide_eq_true hord⟩, hkey⟩
  · simp only [List.mem_map, List.mem_filter, mem_orderBy, mutationRow, decide_eq_true_eq]
    constructor
    · rintro ⟨row, ⟨⟨⟨hrow, -⟩, hord⟩, hkind⟩, rfl⟩
      obtain ⟨y, hy, hyx, ⟨-, hmem⟩ | ⟨hseq, -⟩⟩ := (h.dependencies row).mp hrow
      · exact h.eq_of_ordinal hy hx (hyx.trans (of_decide_eq_true hord)) ▸ hmem
      · exact absurd (hkind.symm.trans hseq) (by decide)
    · intro hmem
      exact ⟨⟨x.ordinal, d, "lifecycle"⟩, ⟨⟨⟨(h.dependencies _).mpr
        ⟨x, hx, rfl, Or.inl ⟨rfl, hmem⟩⟩, hkeep⟩, decide_eq_true rfl⟩, rfl⟩, rfl⟩
  · simp only [List.mem_map, List.mem_filter, mem_orderBy, mutationRow, decide_eq_true_eq]
    constructor
    · rintro ⟨row, ⟨⟨⟨hrow, -⟩, hord⟩, hkind⟩, rfl⟩
      obtain ⟨y, hy, hyx, ⟨hlife, -⟩ | ⟨-, hmem⟩⟩ := (h.dependencies row).mp hrow
      · exact absurd hlife hkind
      · exact h.eq_of_ordinal hy hx (hyx.trans (of_decide_eq_true hord)) ▸ hmem
    · intro hmem
      exact ⟨⟨x.ordinal, d, "sequence"⟩, ⟨⟨⟨(h.dependencies _).mpr
        ⟨x, hx, rfl, Or.inr ⟨rfl, hmem⟩⟩, hkeep⟩, decide_eq_true rfl⟩, fun hkind : "sequence" = "lifecycle" =>
          absurd hkind (by decide)⟩, rfl⟩

/-- Reading the tables gives the selected mutations in the order of their ordinals. -/
theorem queuedWhere_ok {keep : ℕ → Bool} : ∃ ys, q.queuedWhere t keep = .ok ys ∧
    List.Forall₂ ReadAs (orderBy (·.ordinal) (queue.filter (keep ·.ordinal))) ys := by
  have hrows : orderBy (·.ordinal) (t.mutations.filter (keep ·.ordinal)) =
      (orderBy (·.ordinal) (queue.filter (keep ·.ordinal))).map mutationRow := by
    rw [h.mutations, List.filter_map, orderBy_map]
    rfl
  obtain ⟨ops, hops, hlookup⟩ : ∃ ops, q.opsByOrdinal t (fun row => keep row.ordinal) = .ok ops ∧
      ∀ x ∈ queue, (∀ row : OperationRow, row.ordinal = x.ordinal → keep row.ordinal) →
        (ops.lookup x.ordinal).getD [] = storedOps x.ordinal 0 x.mutation.taggedOps :=
    h.opsByOrdinal_lookup
  have hread : ∀ x ∈ orderBy (·.ordinal) (queue.filter (keep ·.ordinal)), _ := fun x hx =>
    have hmem := List.mem_filter.mp (mem_orderBy.mp hx)
    h.readMutation_ok hmem.1 hmem.2 (hlookup x hmem.1 fun row hord => hord ▸ hmem.2)
  simp only [SqlQueue.queuedWhere, hrows, hops, Except.ok_bind]
  generalize orderBy (·.ordinal) (queue.filter (keep ·.ordinal)) = xs at hread
  obtain ⟨ys, hys, hall⟩ := List.mapM_map_eq_ok hread
  split
  · rename_i hnil
    obtain rfl := List.map_eq_nil_iff.mp hnil
    exact ⟨[], rfl, .nil⟩
  · exact ⟨ys, hys, hall⟩

/-- The operations of a record are those stored for it, in the order of their places. -/
theorem opsFor_ok {key : RecordKey} (hkey : q.json.parse (q.encodedIdentity key) = .ok key.identity) :
    ∃ ops, q.opsFor t key = .ok ops ∧
      ops.Pairwise (fun a b => toLex (a.ordinal, a.position) < toLex (b.ordinal, b.position)) ∧
      ∀ s, s ∈ ops ↔ s.op.key = key ∧ ∃ x ∈ queue, x.ordinal = s.ordinal ∧
        x.mutation.taggedOps[s.position]? = some (s.kind, s.op) := by
  obtain ⟨g, hg⟩ := h.decodes
  let keep : OperationRow → Bool := fun r => r.model = key.model ∧ r.identity = q.encodedIdentity key
  have hmem : ∀ row, row ∈ orderBy opPlace (t.operations.filter keep) ↔ row ∈ t.operations ∧
      row.model = key.model ∧ row.identity = q.encodedIdentity key := fun row => by
    rw [mem_orderBy, List.mem_filter, decide_eq_true_eq]
  have hread := List.mapM_eq_ok_of (f := q.decodeOp) (g := g) fun row hrow =>
    (hg row ((hmem row).mp hrow).1).1
  have hinc : ((orderBy opPlace (t.operations.filter keep)).map g).Pairwise
      fun a b => toLex (a.ordinal, a.position) < toLex (b.ordinal, b.position) := by
    have hnd : ((t.operations.filter keep).map opPlace).Nodup :=
      h.places.sublist (List.filter_sublist.map _)
    refine List.pairwise_map.mpr (List.Pairwise.imp_of_mem ?_ (pairwise_orderBy_lt hnd))
    intro a b ha hb hlt
    obtain ⟨-, haord, hapos⟩ := hg a ((hmem a).mp ha).1
    obtain ⟨-, hbord, hbpos⟩ := hg b ((hmem b).mp hb).1
    rw [haord, hapos, hbord, hbpos]
    exact hlt
  refine ⟨_, by simp only [SqlQueue.opsFor, SqlQueue.opsByOrdinal]; rw [hread]; rfl, ?_, fun s => ?_⟩
  · exact SortedMap.pairwise_group hinc fun a b hlt => Prod.Lex.toLex_lt_toLex.mpr (Or.inl hlt)
  · rw [SortedMap.mem_flatMap_group, List.mem_map]
    constructor
    · rintro ⟨row, hrow, rfl⟩
      obtain ⟨hrow, hmodel, hident⟩ := (hmem row).mp hrow
      obtain ⟨x, hx, -, hrow'⟩ := h.mem_operations hrow
      obtain ⟨j, e, hget, rfl⟩ := mem_opRows_iff.mp hrow'
      have he := h.readable x hx e (List.mem_of_getElem? hget)
      have hs := Except.ok.inj ((hg _ hrow).1.symm.trans (decodeOp_opRow he))
      have hident : e.2.identity = key.identity := by
        have hparse := he.identity
        rw [show q.encodedIdentity e.2.key = q.encodedIdentity key from hident, hkey] at hparse
        exact (Except.ok.inj hparse).symm
      rw [hs]
      refine ⟨?_, x, hx, rfl, by simpa using hget⟩
      cases key
      exact congrArg₂ RecordKey.mk hmodel hident
    · rintro ⟨rfl, x, hx, hord, hget⟩
      have he := h.readable x hx _ (List.mem_of_getElem? hget)
      have hrow : q.opRow x.ordinal s.position s.kind s.op ∈ t.operations := by
        have hrow : q.opRow x.ordinal s.position s.kind s.op ∈
            q.opRows x.ordinal 0 x.mutation.taggedOps :=
          mem_opRows_iff.mpr ⟨s.position, _, hget, by rw [Nat.zero_add]⟩
        rw [← h.operations_of hx] at hrow
        exact (List.mem_filter.mp hrow).1
      refine ⟨_, (hmem _).mpr ⟨hrow, rfl, rfl⟩, ?_⟩
      rw [Except.ok.inj ((hg _ hrow).1.symm.trans (decodeOp_opRow he)), hord]

end SqlQueue.Represents

end Reading

end AheadSync
