import AheadSync.Client.QueueTables

/-! What the tables of the queue hold: the queue of mutations, row by row. Every operation on the tables
    does to them what the store's queue goes through, and reading them gives that queue back. -/

namespace AheadSync
open QueueTables

namespace SqlQueue
variable (q : SqlQueue)

/-- An operation that is read back as it was written: under its normalized identity, from JSON text that
    is parsed as what was printed. -/
structure Readable (op : Operation) : Prop where
  key : q.engine.opKey op = .ok op.key
  identity : q.json.parse (q.encodedIdentity op.key) = .ok op.identity
  values : ∀ v ∈ op.values, q.json.parse (q.json.print v) = .ok v

/-- The row of an operation. -/
def opRow (ordinal position : ℕ) (kind : OpKind) (op : Operation) : OperationRow :=
  ⟨ordinal, position, kindText kind, op.model, q.encodedIdentity op.key, opText op.op,
    op.values.map q.json.print⟩

/-- The rows of operations at consecutive positions. -/
def opRows (ordinal : ℕ) : ℕ → List (OpKind × Operation) → List OperationRow
  | _, [] => []
  | position, (kind, op) :: ops => q.opRow ordinal position kind op :: opRows ordinal (position + 1) ops

end SqlQueue

/-- Operations at consecutive positions. -/
def storedOps (ordinal : ℕ) : ℕ → List (OpKind × Operation) → List StoredOp
  | _, [] => []
  | position, (kind, op) :: ops => ⟨ordinal, position, kind, op⟩ :: storedOps ordinal (position + 1) ops

def mutationRow (x : Queued) : MutationRow :=
  ⟨x.ordinal, x.mutation.name, x.mutation.version, x.push, x.diverged⟩

/-- The tables hold a queue. -/
structure SqlQueue.Represents (q : SqlQueue) (t : QueueTables) (queue : List Queued) : Prop where
  mutations : t.mutations = queue.map mutationRow
  ordinals : (queue.map (·.ordinal)).Nodup
  versions : ∀ x ∈ queue, x.mutation.version < 2 ^ 63
  readable : ∀ x ∈ queue, ∀ e ∈ x.mutation.taggedOps, q.Readable e.2
  operations : ∀ n, t.operations.filter (·.ordinal = n) =
    (queue.filter (·.ordinal = n)).flatMap fun x => q.opRows n 0 x.mutation.taggedOps
  places : (t.operations.map opPlace).Nodup
  dependencies : ∀ row, row ∈ t.dependencies ↔ ∃ x ∈ queue, x.ordinal = row.ordinal ∧
    (row.kind = "lifecycle" ∧ row.dependsOn ∈ x.mutation.lifecycleDependencies ∨
      row.kind = "sequence" ∧ row.dependsOn ∈ x.mutation.sequenceDependencies)
  prerequisites : ∀ n key, (∃ row ∈ t.prerequisites, row.ordinal = n ∧ row.key = key) ↔
    ∃ x ∈ queue, x.ordinal = n ∧ key ∈ x.mutation.prerequisites

section Rows
variable {q : SqlQueue} {t t' : QueueTables} {queue : List Queued} {n i : ℕ}

theorem readKind_kindText (kind : OpKind) : readKind (kindText kind) = .ok kind := by
  cases kind <;> rfl

theorem readOp_opText (op : OperationKind) : readOp (opText op) = .ok op := by
  cases op <;> rfl

/-- A readable operation is read back from its row. -/
theorem decodeOp_opRow {kind : OpKind} {op : Operation} (h : q.Readable op) :
    q.decodeOp (q.opRow n i kind op) = .ok ⟨n, i, kind, op⟩ := by
  have hvalues : q.readValues (op.values.map q.json.print) = .ok op.values := by
    cases hv : op.values with
    | none => rfl
    | some v =>
      rw [Option.map_some, SqlQueue.readValues, h.values v hv]
      rfl
  simp only [SqlQueue.decodeOp, SqlQueue.opRow, readKind_kindText, readOp_opText, h.identity, hvalues,
    Except.ok_bind]
  rfl

theorem opRows_append (n : ℕ) : ∀ (i : ℕ) (ops ops' : List (OpKind × Operation)),
    q.opRows n i (ops ++ ops') = q.opRows n i ops ++ q.opRows n (i + ops.length) ops'
  | _, [], _ => rfl
  | i, e :: ops, ops' => by
    rw [List.cons_append, SqlQueue.opRows, opRows_append n (i + 1) ops ops', SqlQueue.opRows,
      List.length_cons, List.cons_append, show i + 1 + ops.length = i + (ops.length + 1) by omega]

theorem mem_opRows_iff {row : OperationRow} : ∀ {i : ℕ} {ops : List (OpKind × Operation)},
    row ∈ q.opRows n i ops ↔ ∃ j e, ops[j]? = some e ∧ row = q.opRow n (i + j) e.1 e.2
  | _, [] => by simp [SqlQueue.opRows]
  | i, e :: ops => by
    rw [SqlQueue.opRows, List.mem_cons, mem_opRows_iff]
    constructor
    · rintro (rfl | ⟨j, e', hget, rfl⟩)
      · exact ⟨0, e, rfl, rfl⟩
      · exact ⟨j + 1, e', by simpa using hget, by rw [show i + (j + 1) = i + 1 + j by omega]⟩
    · rintro ⟨j, e', hget, rfl⟩
      cases j with
      | zero => exact Or.inl (by rw [← Option.some.inj hget]; rfl)
      | succ j => exact Or.inr ⟨j, e', by simpa using hget, by rw [show i + (j + 1) = i + 1 + j by omega]⟩

theorem mem_opRows {row : OperationRow} {ops : List (OpKind × Operation)} (h : row ∈ q.opRows n i ops) :
    ∃ j e, i ≤ j ∧ j < i + ops.length ∧ e ∈ ops ∧ row = q.opRow n j e.1 e.2 := by
  obtain ⟨j, e, hget, rfl⟩ := mem_opRows_iff.mp h
  have hj := (List.getElem?_eq_some_iff.mp hget).1
  exact ⟨i + j, e, by omega, by omega, List.mem_of_getElem? hget, rfl⟩

/-- The rows of a mutation are in the order of their places. -/
theorem opRows_increasing (n : ℕ) : ∀ (i : ℕ) (ops : List (OpKind × Operation)),
    (q.opRows n i ops).Pairwise (opPlace · < opPlace ·)
  | _, [] => List.Pairwise.nil
  | i, e :: ops => by
    refine List.pairwise_cons.mpr ⟨fun row hrow => ?_, opRows_increasing n (i + 1) ops⟩
    obtain ⟨j, e', hj, -, -, rfl⟩ := mem_opRows hrow
    exact Prod.Lex.toLex_lt_toLex.mpr (Or.inr ⟨rfl, show i < j by omega⟩)

theorem positions_opRows (n : ℕ) : ∀ (i : ℕ) (ops : List (OpKind × Operation)),
    (q.opRows n i ops).map (·.position) = List.range' i ops.length
  | _, [] => rfl
  | i, e :: ops => by
    rw [SqlQueue.opRows, List.map_cons, positions_opRows n (i + 1) ops, List.length_cons,
      List.range'_succ]
    rfl

theorem filter_opRows (n m : ℕ) (i : ℕ) (ops : List (OpKind × Operation)) :
    (q.opRows n i ops).filter (·.ordinal = m) = if n = m then q.opRows n i ops else [] := by
  split
  · rename_i h
    refine List.filter_eq_self.mpr fun row hrow => ?_
    obtain ⟨j, e, -, -, -, rfl⟩ := mem_opRows hrow
    exact decide_eq_true h
  · rename_i h
    refine List.filter_eq_nil_iff.mpr fun row hrow => ?_
    obtain ⟨j, e, -, -, -, rfl⟩ := mem_opRows hrow
    simp [SqlQueue.opRow, h]

/-- Reading the rows of operations gives the operations back. -/
theorem map_opRows {g : OperationRow → StoredOp} (n : ℕ) : ∀ (i : ℕ) (ops : List (OpKind × Operation)),
    (∀ e ∈ ops, q.Readable e.2) → (∀ row ∈ q.opRows n i ops, q.decodeOp row = .ok (g row)) →
      (q.opRows n i ops).map g = storedOps n i ops
  | _, [], _, _ => rfl
  | i, e :: ops, hr, hg => by
    have hhead := hg _ (List.mem_cons_self ..)
    rw [decodeOp_opRow (hr e (List.mem_cons_self ..))] at hhead
    rw [SqlQueue.opRows, List.map_cons, ← Except.ok.inj hhead, storedOps,
      map_opRows n (i + 1) ops (fun e he => hr e (List.mem_cons_of_mem _ he))
        fun row hrow => hg row (List.mem_cons_of_mem _ hrow)]

/-- An operation is inserted at a position after those taken. -/
theorem insertOp_ok {kind : OpKind} {op : Operation} (hn : n ∈ t.ordinals)
    (hfree : ∀ row ∈ t.operations, row.ordinal = n → row.position < i) (hr : q.Readable op) :
    q.insertOp t n i kind op = .ok { t with operations := t.operations ++ [q.opRow n i kind op] } ∧
      opPlace (q.opRow n i kind op) ∉ t.operations.map opPlace := by
  have hkey : q.engine.recordKey op.model op.identity = .ok op.key := hr.key
  have hnew : opPlace (q.opRow n i kind op) ∉ t.operations.map opPlace := by
    intro hmem
    obtain ⟨row, hrow, hplace⟩ := List.mem_map.mp hmem
    obtain ⟨hord, hpos⟩ := Prod.mk.inj (toLex_inj.mp hplace)
    have hlt := hfree row hrow hord
    have hpos : row.position = i := hpos
    omega
  refine ⟨?_, hnew⟩
  simp only [SqlQueue.insertOp, hkey, Except.ok_bind, insertOperationRow, Except.bind_eq_ok,
    ensure_eq_ok, Except.pure_eq_ok]
  exact ⟨(), hnew, (), hn, rfl⟩

/-- Operations are inserted at consecutive positions after those taken. -/
theorem insertOps_ok : ∀ {t : QueueTables} {i : ℕ} {ops : List (OpKind × Operation)}, n ∈ t.ordinals →
    (∀ row ∈ t.operations, row.ordinal = n → row.position < i) → (∀ e ∈ ops, q.Readable e.2) →
      q.insertOps n t i ops = .ok { t with operations := t.operations ++ q.opRows n i ops }
  | t, _, [], _, _, _ => by
    rw [SqlQueue.insertOps, SqlQueue.opRows, List.append_nil]
  | t, i, (kind, op) :: ops, hn, hfree, hr => by
    have hfree' : ∀ row ∈ t.operations ++ [q.opRow n i kind op], row.ordinal = n →
        row.position < i + 1 := by
      intro row hrow hord
      rcases List.mem_append.mp hrow with hrow | hrow
      · exact Nat.lt_succ_of_lt (hfree row hrow hord)
      · obtain rfl := List.mem_singleton.mp hrow
        exact Nat.lt_succ_self i
    have hrest := insertOps_ok (t := { t with operations := t.operations ++ [q.opRow n i kind op] }) hn
      hfree' fun e he => hr e (List.mem_cons_of_mem _ he)
    rw [SqlQueue.insertOps, (insertOp_ok hn hfree (hr _ (List.mem_cons_self ..))).1, Except.ok_bind,
      hrest, SqlQueue.opRows, List.append_assoc]
    rfl

/-- Dependencies are inserted where none is known under their key. -/
theorem insertDependencies_ok (kind : String) : ∀ {t : QueueTables} {ds : List ℕ}, n ∈ t.ordinals →
    (∀ d ∈ ds, d ∈ t.ordinals ∧ d < n) → ∃ rows,
      ds.foldlM (fun t d => t.insertDependencyRow ⟨n, d, kind⟩) t =
        .ok { t with dependencies := rows } ∧
      ∀ row, row ∈ rows ↔ row ∈ t.dependencies ∨ row.ordinal = n ∧ row.kind = kind ∧
        row.dependsOn ∈ ds ∧ dependencyKey row ∉ t.dependencies.map dependencyKey
  | t, [], _, _ => ⟨t.dependencies, rfl, by simp⟩
  | t, d :: ds, hn, hd => by
    obtain ⟨hdt, hlt⟩ := hd d (List.mem_cons_self ..)
    have hds := fun d hmem => hd d (List.mem_cons_of_mem _ hmem)
    have hkey : ∀ row : DependencyRow, row.ordinal = n →
        (dependencyKey row = dependencyKey ⟨n, d, kind⟩ ↔ row.dependsOn = d) := by
      rintro ⟨o, d', k⟩ rfl
      simp [dependencyKey]
    rw [List.foldlM_cons]
    by_cases hknown : dependencyKey ⟨n, d, kind⟩ ∈ t.dependencies.map dependencyKey
    · have hstep : t.insertDependencyRow ⟨n, d, kind⟩ = .ok t := by
        rw [insertDependencyRow, if_pos (Or.inr hknown)]
        rfl
      obtain ⟨rows, hfold, hmem⟩ := insertDependencies_ok kind (t := t) hn hds
      refine ⟨rows, by rw [hstep, Except.ok_bind, hfold], fun row => ?_⟩
      rw [hmem, List.mem_cons]
      refine or_congr_right ⟨fun ⟨h₁, h₂, h₃, h₄⟩ => ⟨h₁, h₂, Or.inr h₃, h₄⟩, ?_⟩
      rintro ⟨h₁, h₂, h₃ | h₃, h₄⟩
      · exact absurd ((hkey row h₁).mpr h₃ ▸ hknown) h₄
      · exact ⟨h₁, h₂, h₃, h₄⟩
    · have hstep : t.insertDependencyRow ⟨n, d, kind⟩ =
          .ok { t with dependencies := t.dependencies ++ [⟨n, d, kind⟩] } := by
        rw [insertDependencyRow, if_neg (by simp only [not_or, not_not]; exact ⟨hlt, hknown⟩)]
        simp only [Except.bind_eq_ok, ensure_eq_ok, Except.pure_eq_ok]
        exact ⟨(), ⟨hn, hdt⟩, trivial⟩
      obtain ⟨rows, hfold, hmem⟩ := insertDependencies_ok kind
        (t := { t with dependencies := t.dependencies ++ [⟨n, d, kind⟩] }) hn hds
      refine ⟨rows, by rw [hstep, Except.ok_bind, hfold], fun row => ?_⟩
      rw [hmem]
      simp only [List.mem_append, List.map_append, List.map_cons, List.map_nil, List.mem_cons,
        List.not_mem_nil, or_false, not_or]
      constructor
      · rintro ((h | rfl) | ⟨h₁, h₂, h₃, h₄, -⟩)
        · exact Or.inl h
        · exact Or.inr ⟨rfl, rfl, Or.inl rfl, hknown⟩
        · exact Or.inr ⟨h₁, h₂, Or.inr h₃, h₄⟩
      · rintro (h | ⟨h₁, h₂, h₃, h₄⟩)
        · exact Or.inl (Or.inl h)
        · by_cases hrd : row.dependsOn = d
          · obtain ⟨o, d', k⟩ := row
            simp only at h₁ h₂ hrd
            subst h₁ h₂ hrd
            exact Or.inl (Or.inr rfl)
          · exact Or.inr ⟨h₁, h₂, h₃.resolve_left hrd, h₄, fun h => hrd ((hkey row h₁).mp h)⟩

/-- A new mutation's dependencies: one listed under both kinds is a lifecycle one. -/
theorem insertBoth_ok {t : QueueTables} {life seq : List ℕ} (hn : n ∈ t.ordinals)
    (hd : ∀ d ∈ life ++ seq, d ∈ t.ordinals ∧ d < n) (hdep : ∀ row ∈ t.dependencies, row.ordinal ≠ n) :
    ∃ ls rows, life.foldlM (fun t d => t.insertDependencyRow ⟨n, d, "lifecycle"⟩) t =
        .ok { t with dependencies := ls } ∧
      seq.foldlM (fun t d => t.insertDependencyRow ⟨n, d, "sequence"⟩) { t with dependencies := ls } =
        .ok { t with dependencies := rows } ∧
      ∀ row, row ∈ rows ↔ row ∈ t.dependencies ∨ n = row.ordinal ∧
        (row.kind = "lifecycle" ∧ row.dependsOn ∈ life ∨
          row.kind = "sequence" ∧ row.dependsOn ∈ seq.filter (· ∉ life)) := by
  have hfresh : ∀ row : DependencyRow, row.ordinal = n →
      dependencyKey row ∉ t.dependencies.map dependencyKey := fun row hord hmem => by
    obtain ⟨r, hr, hkey⟩ := List.mem_map.mp hmem
    exact hdep r hr ((Prod.mk.inj (toLex_inj.mp hkey)).1.trans hord)
  obtain ⟨ls, hlife, hls⟩ := insertDependencies_ok (t := t) (n := n) "lifecycle" hn
    fun d (h : d ∈ life) => hd d (List.mem_append_left _ h)
  obtain ⟨rows, hseq, hrows⟩ := insertDependencies_ok (t := { t with dependencies := ls }) (n := n)
    "sequence" hn fun d (h : d ∈ seq) => hd d (List.mem_append_right _ h)
  have hkept : ∀ row : DependencyRow, row.ordinal = n →
      (dependencyKey row ∈ ls.map dependencyKey ↔ row.dependsOn ∈ life) := by
    intro row hord
    constructor
    · intro hmem
      obtain ⟨r, hr, hkey⟩ := List.mem_map.mp hmem
      obtain ⟨hro, hrd⟩ := Prod.mk.inj (toLex_inj.mp hkey)
      rcases (hls r).mp hr with hr | ⟨-, -, hr, -⟩
      · exact absurd (hro.trans hord) (hdep r hr)
      · exact (show r.dependsOn = row.dependsOn from hrd) ▸ hr
    · intro hmem
      exact List.mem_map.mpr ⟨⟨n, row.dependsOn, "lifecycle"⟩,
        (hls _).mpr (Or.inr ⟨rfl, rfl, hmem, hfresh _ rfl⟩), by simp [dependencyKey, hord]⟩
  refine ⟨ls, rows, hlife, hseq, fun row => ?_⟩
  rw [hrows, hls, or_assoc, List.mem_filter, decide_eq_true_iff]
  refine or_congr_right ⟨?_, ?_⟩
  · rintro (⟨hord, hkind, hmem, -⟩ | ⟨hord, hkind, hmem, hnew⟩)
    · exact ⟨hord.symm, Or.inl ⟨hkind, hmem⟩⟩
    · exact ⟨hord.symm, Or.inr ⟨hkind, hmem, fun hlife => hnew ((hkept row hord).mpr hlife)⟩⟩
  · rintro ⟨hord, ⟨hkind, hmem⟩ | ⟨hkind, hmem, hnot⟩⟩
    · exact Or.inl ⟨hord.symm, hkind, hmem, hfresh row hord.symm⟩
    · exact Or.inr ⟨hord.symm, hkind, hmem, fun hlife => hnot ((hkept row hord.symm).mp hlife)⟩

/-- Prerequisites are inserted once each. -/
theorem insertPrerequisites_ok : ∀ {t : QueueTables} {keys : List String}, n ∈ t.ordinals → ∃ rows,
    keys.foldlM (fun t key => t.insertPrerequisiteRow { ordinal := n, key }) t =
      .ok { t with prerequisites := rows } ∧
    ∀ m key, (∃ row ∈ rows, row.ordinal = m ∧ row.key = key) ↔
      (∃ row ∈ t.prerequisites, row.ordinal = m ∧ row.key = key) ∨ m = n ∧ key ∈ keys
  | t, [], _ => ⟨t.prerequisites, rfl, by simp⟩
  | t, k :: keys, hn => by
    have hkey : prerequisiteKey { ordinal := n, key := k } ∈ t.prerequisites.map prerequisiteKey ↔
        ∃ row ∈ t.prerequisites, row.ordinal = n ∧ row.key = k := by
      simp [prerequisiteKey]
    rw [List.foldlM_cons]
    by_cases hknown : prerequisiteKey { ordinal := n, key := k } ∈ t.prerequisites.map prerequisiteKey
    · have hstep : t.insertPrerequisiteRow { ordinal := n, key := k } = .ok t := by
        rw [insertPrerequisiteRow, if_pos hknown]
        rfl
      obtain ⟨rows, hfold, hmem⟩ := @insertPrerequisites_ok t keys hn
      refine ⟨rows, by rw [hstep, Except.ok_bind, hfold], fun m key => ?_⟩
      rw [hmem, List.mem_cons]
      constructor
      · rintro (h | ⟨h₁, h₂⟩)
        · exact Or.inl h
        · exact Or.inr ⟨h₁, Or.inr h₂⟩
      · rintro (h | ⟨rfl, rfl | h₂⟩)
        · exact Or.inl h
        · exact Or.inl (hkey.mp hknown)
        · exact Or.inr ⟨rfl, h₂⟩
    · have hstep : t.insertPrerequisiteRow { ordinal := n, key := k } =
          .ok { t with prerequisites := t.prerequisites ++ [{ ordinal := n, key := k }] } := by
        rw [insertPrerequisiteRow, if_neg hknown]
        simp only [Except.bind_eq_ok, ensure_eq_ok, Except.pure_eq_ok]
        exact ⟨(), hn, trivial⟩
      obtain ⟨rows, hfold, hmem⟩ := @insertPrerequisites_ok
        { t with prerequisites := t.prerequisites ++ [{ ordinal := n, key := k }] } keys hn
      refine ⟨rows, by rw [hstep, Except.ok_bind, hfold], fun m key => ?_⟩
      rw [hmem]
      simp only [List.mem_append, List.mem_cons, List.not_mem_nil, or_false, or_and_right, exists_or,
        exists_eq_left]
      grind

theorem filter_map_ordinal {f : Queued → Queued} (hf : ∀ x, (f x).ordinal = x.ordinal) :
    (queue.map f).filter (·.ordinal = n) = (queue.filter (·.ordinal = n)).map f := by
  rw [List.filter_map]
  exact congrArg _ (List.filter_congr fun x _ => by simp [hf])

/-- A mutation is inserted under an ordinal above those queued, with dependencies on queued ones. -/
structure SqlQueue.Insertable (q : SqlQueue) (ordinals : List ℕ) (n : ℕ) (m : Mutation) : Prop where
  above : ∀ o ∈ ordinals, o < n
  version : m.version < 2 ^ 63
  readable : ∀ e ∈ m.taggedOps, q.Readable e.2
  dependencies : ∀ d ∈ m.lifecycleDependencies ++ m.sequenceDependencies, d ∈ ordinals

/-- A mutation as it is queued: a dependency listed under both kinds is a lifecycle one. -/
def queuedAs (n : ℕ) (m : Mutation) : Queued :=
  { ordinal := n, mutation := { m with
      sequenceDependencies := m.sequenceDependencies.filter (· ∉ m.lifecycleDependencies) } }

/-- What an added effect does to a queued mutation. -/
def effectAdded (n : ℕ) (op : Operation) (x : Queued) : Queued :=
  if x.ordinal = n then
    { x with mutation := { x.mutation with effects := x.mutation.effects ++ [op] } }
  else x

section Effect
variable (n : ℕ) (op : Operation) (x : Queued)

@[simp] theorem effectAdded_ordinal : (effectAdded n op x).ordinal = x.ordinal := by
  unfold effectAdded; split <;> rfl

@[simp] theorem effectAdded_version : (effectAdded n op x).mutation.version = x.mutation.version := by
  unfold effectAdded; split <;> rfl

@[simp] theorem effectAdded_prerequisites :
    (effectAdded n op x).mutation.prerequisites = x.mutation.prerequisites := by
  unfold effectAdded; split <;> rfl

@[simp] theorem effectAdded_lifecycle :
    (effectAdded n op x).mutation.lifecycleDependencies = x.mutation.lifecycleDependencies := by
  unfold effectAdded; split <;> rfl

@[simp] theorem effectAdded_sequence :
    (effectAdded n op x).mutation.sequenceDependencies = x.mutation.sequenceDependencies := by
  unfold effectAdded; split <;> rfl

@[simp] theorem mutationRow_effectAdded : mutationRow (effectAdded n op x) = mutationRow x := by
  unfold effectAdded; split <;> rfl

theorem effectAdded_taggedOps : (effectAdded n op x).mutation.taggedOps =
    x.mutation.taggedOps ++ if x.ordinal = n then [(.effect, op)] else [] := by
  unfold effectAdded; split <;> simp [Mutation.taggedOps]

end Effect

/-- What deleting mutations does to one that stays. -/
def dependenciesDeleted (ns : List ℕ) (x : Queued) : Queued :=
  { x with mutation := { x.mutation with
      lifecycleDependencies := x.mutation.lifecycleDependencies.filter (· ∉ ns)
      sequenceDependencies := x.mutation.sequenceDependencies.filter (· ∉ ns) } }

def prerequisiteResolved (key : String) (x : Queued) : Queued :=
  { x with mutation := { x.mutation with
      prerequisites := x.mutation.prerequisites.filter (· ≠ key) } }

theorem deleteMutations_eq : ∀ (t : QueueTables) (ns : List ℕ), t.deleteMutations ns = {
    mutations := t.mutations.filter (·.ordinal ∉ ns)
    operations := t.operations.filter (·.ordinal ∉ ns)
    dependencies := t.dependencies.filter fun r => r.ordinal ∉ ns ∧ r.dependsOn ∉ ns
    prerequisites := t.prerequisites.filter (·.ordinal ∉ ns) }
  | t, [] => by simp [QueueTables.deleteMutations]
  | t, n :: ns => by
    rw [QueueTables.deleteMutations, List.foldl_cons, ← QueueTables.deleteMutations,
      deleteMutations_eq (t.deleteMutation n) ns]
    simp only [deleteMutation, List.filter_filter, List.mem_cons, not_or]
    congr 1 <;> refine List.filter_congr fun r _ => ?_ <;> grind

namespace SqlQueue.Represents
variable (h : q.Represents t queue)
include h

theorem ordinals_eq : t.ordinals = queue.map (·.ordinal) := by
  rw [QueueTables.ordinals, h.mutations, List.map_map]
  rfl

theorem eq_of_ordinal {x y : Queued} (hy : y ∈ queue) (hx : x ∈ queue) (heq : y.ordinal = x.ordinal) :
    y = x :=
  List.inj_on_of_nodup_map h.ordinals hy hx heq

/-- A queued mutation is the only one under its ordinal. -/
theorem filter_ordinal {x : Queued} (hx : x ∈ queue) : queue.filter (·.ordinal = x.ordinal) = [x] :=
  filter_key_singleton h.ordinals hx

theorem operations_of {x : Queued} (hx : x ∈ queue) :
    t.operations.filter (·.ordinal = x.ordinal) = q.opRows x.ordinal 0 x.mutation.taggedOps := by
  rw [h.operations, h.filter_ordinal hx, List.flatMap_singleton]

/-- Every operation row is of a queued mutation. -/
theorem mem_operations {row : OperationRow} (hrow : row ∈ t.operations) :
    ∃ x ∈ queue, row.ordinal = x.ordinal ∧ row ∈ q.opRows x.ordinal 0 x.mutation.taggedOps := by
  have hmem : row ∈ t.operations.filter (·.ordinal = row.ordinal) :=
    List.mem_filter.mpr ⟨hrow, decide_eq_true rfl⟩
  rw [h.operations, List.mem_flatMap] at hmem
  obtain ⟨x, hx, hrow⟩ := hmem
  obtain ⟨hx, hord⟩ := List.mem_filter.mp hx
  have hord : x.ordinal = row.ordinal := of_decide_eq_true hord
  exact ⟨x, hx, hord.symm, hord ▸ hrow⟩

/-- Queueing a mutation inserts what it is read back from. -/
theorem insertMutation {m : Mutation} (hi : q.Insertable (queue.map (·.ordinal)) n m) : ∃ t',
    q.insertMutation t n m = .ok t' ∧ q.Represents t' (queue ++ [queuedAs n m]) := by
  rw [← h.ordinals_eq] at hi
  have hnew : n ∉ t.ordinals := fun hmem => lt_irrefl n (hi.above n hmem)
  have hqueue : ∀ x ∈ queue, x.ordinal ≠ n := fun x hx hxn =>
    hnew (h.ordinals_eq ▸ List.mem_map.mpr ⟨x, hx, hxn⟩)
  -- the row of the mutation
  let t₁ : QueueTables := { t with mutations := t.mutations ++ [mutationRow (queuedAs n m)] }
  have hords : t₁.ordinals = t.ordinals ++ [n] := by simp [t₁, QueueTables.ordinals, mutationRow, queuedAs]
  have hn : n ∈ t₁.ordinals := by simp [hords]
  have h₁ : t.insertMutationRow { ordinal := n, name := m.name, version := m.version } = .ok t₁ := by
    simp only [insertMutationRow, Except.bind_eq_ok, ensure_eq_ok, Except.pure_eq_ok]
    exact ⟨(), hnew, rfl⟩
  -- its operations
  have hnone : ∀ row ∈ t.operations, row.ordinal ≠ n := fun row hrow hord => by
    obtain ⟨x, hx, hxn, -⟩ := h.mem_operations hrow
    exact hqueue x hx (hxn ▸ hord)
  let t₂ : QueueTables := { t₁ with operations := t.operations ++ q.opRows n 0 m.taggedOps }
  have h₂ : q.insertOps n t₁ 0 m.taggedOps = .ok t₂ :=
    insertOps_ok hn (fun row hrow hord => absurd hord (hnone row hrow)) hi.readable
  -- its dependencies
  have hdep : ∀ row ∈ t.dependencies, row.ordinal ≠ n := fun row hrow hord => by
    obtain ⟨x, hx, hxn, -⟩ := (h.dependencies row).mp hrow
    exact hqueue x hx (hxn.trans hord)
  have hdeps : ∀ d ∈ m.lifecycleDependencies ++ m.sequenceDependencies, d ∈ t₁.ordinals ∧ d < n :=
    fun d hd =>
      have hmem := hi.dependencies d hd
      ⟨hords ▸ List.mem_append_left _ hmem, hi.above d hmem⟩
  obtain ⟨ls, ss, h₃, h₄, hss⟩ := insertBoth_ok (t := t₂) hn hdeps hdep
  -- its prerequisites
  obtain ⟨ps, h₅, hps⟩ := @insertPrerequisites_ok n { t₂ with dependencies := ss }
    m.prerequisites hn
  refine ⟨{ t₂ with dependencies := ss, prerequisites := ps }, ?_, ?_⟩
  · simp only [SqlQueue.insertMutation, h₁, h₂, h₃, h₄, h₅, Except.ok_bind]
  · have hmem : ∀ x, x ∈ queue ++ [queuedAs n m] ↔ x ∈ queue ∨ x = queuedAs n m := by simp
    refine ⟨?_, ?_, ?_, ?_, fun k => ?_, ?_, fun row => ?_, fun k key => ?_⟩
    · rw [List.map_append, ← h.mutations]
      rfl
    · rw [List.map_append, List.nodup_append]
      refine ⟨h.ordinals, List.nodup_singleton _, fun a ha b hb => ?_⟩
      obtain ⟨x, hx, rfl⟩ := List.mem_map.mp ha
      rw [List.map_singleton, List.mem_singleton] at hb
      exact hb ▸ hqueue x hx
    · intro x hx
      rcases (hmem x).mp hx with hx | rfl
      · exact h.versions x hx
      · exact hi.version
    · intro x hx
      rcases (hmem x).mp hx with hx | rfl
      · exact h.readable x hx
      · exact hi.readable
    · rw [List.filter_append, List.filter_append, List.flatMap_append, h.operations k, filter_opRows]
      by_cases hk : n = k
      · simp [queuedAs, hk]
        rfl
      · simp [queuedAs, hk]
    · rw [List.map_append, List.nodup_append]
      refine ⟨h.places, List.pairwise_map.mpr ((opRows_increasing n 0 _).imp ne_of_lt), ?_⟩
      intro a ha b hb hab
      obtain ⟨row, hrow, rfl⟩ := List.mem_map.mp ha
      obtain ⟨row', hrow', rfl⟩ := List.mem_map.mp hb
      obtain ⟨j, e, -, -, -, rfl⟩ := mem_opRows hrow'
      exact hnone row hrow (Prod.mk.inj (toLex_inj.mp hab)).1
    · rw [hss, h.dependencies]
      simp only [hmem, or_and_right, exists_or, exists_eq_left]
      rfl
    · rw [hps, h.prerequisites]
      simp only [hmem, or_and_right, exists_or, exists_eq_left]
      exact or_congr_right (and_congr_left' eq_comm)

/-- A change of mutation rows that concerns neither ordinals nor mutations. -/
theorem map_rows {f : Queued → Queued} (hf : ∀ x, (f x).ordinal = x.ordinal ∧ (f x).mutation = x.mutation)
    {rows : List MutationRow} (hrows : rows = (queue.map f).map mutationRow) :
    q.Represents { t with mutations := rows } (queue.map f) := by
  have hord : (queue.map f).map (·.ordinal) = queue.map (·.ordinal) := by
    rw [List.map_map]
    exact List.map_congr_left fun x _ => (hf x).1
  refine ⟨hrows, by rw [hord]; exact h.ordinals, ?_, ?_, fun k => ?_, h.places, fun row => ?_,
    fun k key => ?_⟩
  · simpa [hf] using h.versions
  · simpa [hf] using h.readable
  · rw [filter_map_ordinal fun x => (hf x).1, List.flatMap_map]
    simpa only [hf] using h.operations k
  · simpa [hf] using h.dependencies row
  · simpa [hf] using h.prerequisites k key

theorem setDiverged : q.Represents (t.setDiverged n)
    (queue.map fun x => if x.ordinal = n then { x with diverged := true } else x) := by
  refine h.map_rows (fun x => by split <;> exact ⟨rfl, rfl⟩) ?_
  rw [h.mutations, List.map_map, List.map_map]
  refine List.map_congr_left fun x _ => ?_
  by_cases hx : x.ordinal = n <;> simp [mutationRow, hx]

theorem assignPush {ns : List ℕ} {push : ℕ} : q.Represents (t.assignPush ns push)
    (queue.map fun x => if x.ordinal ∈ ns then { x with push := some push } else x) := by
  refine h.map_rows (fun x => by split <;> exact ⟨rfl, rfl⟩) ?_
  rw [h.mutations, List.map_map, List.map_map]
  refine List.map_congr_left fun x _ => ?_
  by_cases hx : x.ordinal ∈ ns <;> simp [mutationRow, hx]

/-- The next position of a mutation is after its operations. -/
theorem nextPosition_eq {x : Queued} (hx : x ∈ queue) :
    nextPosition t x.ordinal = x.mutation.taggedOps.length := by
  rw [nextPosition, h.operations_of hx, positions_opRows]
  cases hlen : x.mutation.taggedOps.length with
  | zero => rfl
  | succ k =>
    have hmax : (List.range' 0 (k + 1)).max? = some k := by
      refine List.max?_eq_some_iff.mpr ⟨?_, fun b hb => ?_⟩
      · simp [List.mem_range']
      · obtain ⟨j, hj, rfl⟩ := List.mem_range'.mp hb
        omega
    rw [hmax]

/-- An added effect is read back after the operations that are there. -/
theorem addEffect {op : Operation} (hn : n ∈ t.ordinals) (hr : q.Readable op) : ∃ t',
    q.addEffect t n op = .ok t' ∧ q.Represents t' (queue.map (effectAdded n op)) := by
  rw [h.ordinals_eq] at hn
  obtain ⟨x, hx, rfl⟩ := List.mem_map.mp hn
  have hfree : ∀ row ∈ t.operations, row.ordinal = x.ordinal →
      row.position < x.mutation.taggedOps.length := fun row hrow hord => by
    have hmem : row ∈ t.operations.filter (·.ordinal = x.ordinal) :=
      List.mem_filter.mpr ⟨hrow, decide_eq_true hord⟩
    rw [h.operations_of hx] at hmem
    obtain ⟨j, e, -, hj, -, rfl⟩ := mem_opRows hmem
    simpa [SqlQueue.opRow] using hj
  obtain ⟨hinsert, hnew⟩ := @insertOp_ok q t _ _ .effect _ (h.ordinals_eq ▸ hn) hfree hr
  refine ⟨_, by rw [SqlQueue.addEffect, h.nextPosition_eq hx, hinsert], ?_⟩
  refine ⟨?_, ?_, ?_, ?_, fun k => ?_, ?_, fun row => ?_, fun k key => ?_⟩
  · simp [h.mutations, Function.comp_def]
  · simpa [Function.comp_def] using h.ordinals
  · simpa using h.versions
  · intro y hy e he
    obtain ⟨z, hz, rfl⟩ := List.mem_map.mp hy
    rw [effectAdded_taggedOps, List.mem_append] at he
    rcases he with he | he
    · exact h.readable z hz e he
    · split at he
      · exact List.mem_singleton.mp he ▸ hr
      · cases he
  · rw [filter_map_ordinal (effectAdded_ordinal _ _), List.flatMap_map, List.filter_append]
    by_cases hk : k = x.ordinal
    · subst hk
      rw [h.operations_of hx, h.filter_ordinal hx, List.flatMap_singleton, effectAdded_taggedOps,
        if_pos rfl, opRows_append, Nat.zero_add]
      simp [SqlQueue.opRows, SqlQueue.opRow]
    · have hnone : [q.opRow x.ordinal x.mutation.taggedOps.length .effect op].filter (·.ordinal = k) = [] := by
        simp [SqlQueue.opRow, Ne.symm hk]
      rw [hnone, List.append_nil, h.operations k]
      refine List.flatMap_congr fun y hy => ?_
      have hyk : y.ordinal = k := of_decide_eq_true (List.mem_filter.mp hy).2
      rw [effectAdded_taggedOps, if_neg fun hyx => hk (hyk.symm.trans hyx), List.append_nil]
  · rw [List.map_append]
    exact List.nodup_append.mpr ⟨h.places, List.nodup_singleton _, by simpa using hnew⟩
  · simpa using h.dependencies row
  · simpa using h.prerequisites k key

theorem deleteMutations {ns : List ℕ} : q.Represents (t.deleteMutations ns)
    ((queue.filter (·.ordinal ∉ ns)).map (dependenciesDeleted ns)) := by
  have hord : ∀ x, (dependenciesDeleted ns x).ordinal = x.ordinal := fun _ => rfl
  have hsub : ∀ x ∈ queue.filter (·.ordinal ∉ ns), x ∈ queue := fun x hx => (List.mem_filter.mp hx).1
  rw [deleteMutations_eq]
  refine ⟨?_, ?_, fun y hy => ?_, fun y hy => ?_, fun k => ?_, ?_, fun row => ?_, fun k key => ?_⟩
  · rw [h.mutations, List.map_map, List.filter_map]
    rfl
  · rw [List.map_map]
    exact h.ordinals.sublist (List.filter_sublist.map _)
  · obtain ⟨x, hx, rfl⟩ := List.mem_map.mp hy
    exact h.versions x (hsub x hx)
  · obtain ⟨x, hx, rfl⟩ := List.mem_map.mp hy
    exact h.readable x (hsub x hx)
  · rw [filter_map_ordinal hord, List.flatMap_map]
    by_cases hk : k ∈ ns
    · have hrows : (t.operations.filter (·.ordinal ∉ ns)).filter (·.ordinal = k) = [] := by
        simp only [List.filter_filter, List.filter_eq_nil_iff]
        grind
      have hqueue : (queue.filter (·.ordinal ∉ ns)).filter (·.ordinal = k) = [] := by
        simp only [List.filter_filter, List.filter_eq_nil_iff]
        grind
      rw [hrows, hqueue, List.flatMap_nil]
    · have hrows : (t.operations.filter (·.ordinal ∉ ns)).filter (·.ordinal = k) =
          t.operations.filter (·.ordinal = k) := by
        rw [List.filter_filter]
        exact List.filter_congr fun row _ => by grind
      have hqueue : (queue.filter (·.ordinal ∉ ns)).filter (·.ordinal = k) =
          queue.filter (·.ordinal = k) := by
        rw [List.filter_filter]
        exact List.filter_congr fun row _ => by grind
      rw [hrows, hqueue, h.operations k]
      rfl
  · exact h.places.sublist (List.filter_sublist.map _)
  · simp only [List.mem_filter, h.dependencies, List.mem_map, exists_exists_and_eq_and,
      dependenciesDeleted, decide_eq_true_eq]
    grind
  · simp only [List.mem_filter, List.mem_map, exists_exists_and_eq_and, dependenciesDeleted,
      decide_eq_true_eq]
    have hp := h.prerequisites k key
    grind

theorem resolvePrerequisite {key : String} : q.Represents (t.resolvePrerequisite key)
    (queue.map (prerequisiteResolved key)) := by
  have hord : ∀ x, (prerequisiteResolved key x).ordinal = x.ordinal := fun _ => rfl
  refine ⟨?_, ?_, fun y hy => ?_, fun y hy => ?_, fun k => ?_, h.places, fun row => ?_, fun k key' => ?_⟩
  · rw [List.map_map]
    exact h.mutations
  · rw [List.map_map]
    exact h.ordinals
  · obtain ⟨x, hx, rfl⟩ := List.mem_map.mp hy
    exact h.versions x hx
  · obtain ⟨x, hx, rfl⟩ := List.mem_map.mp hy
    exact h.readable x hx
  · rw [filter_map_ordinal hord, List.flatMap_map]
    exact h.operations k
  · simp only [List.mem_map, exists_exists_and_eq_and]
    exact h.dependencies row
  · have hp := h.prerequisites k key'
    simp only [QueueTables.resolvePrerequisite, List.mem_filter, List.mem_map,
      exists_exists_and_eq_and, prerequisiteResolved, decide_eq_true_eq]
    grind

theorem setPrerequisiteError {key : String} {error : Option String} :
    q.Represents (t.setPrerequisiteError key error) queue := by
  refine ⟨h.mutations, h.ordinals, h.versions, h.readable, h.operations, h.places, h.dependencies,
    fun k key' => ?_⟩
  rw [← h.prerequisites]
  simp only [QueueTables.setPrerequisiteError, List.mem_map, exists_exists_and_eq_and]
  refine exists_congr fun row => and_congr_right fun _ => ?_
  split <;> rfl

end SqlQueue.Represents

end Rows

end AheadSync
