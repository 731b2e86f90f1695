import AheadSync.Client.QueueReading
import AheadSync.Client.Replay
import AheadSync.Lib.Run

/-! Runs of the queue's operations. The tables go through what the queue of the store goes through, so a
    mutation is read back as it was inserted, with the effects added since. -/

namespace AheadSync
open Machine (run Along)

/-- The operations on the queue of mutations. -/
inductive QueueStep where
  | insert (ordinal : ℕ) (m : Mutation)
  | addEffect (ordinal : ℕ) (op : Operation)
  | delete (ordinals : List ℕ)
  | setDiverged (ordinal : ℕ)
  | assignPush (ordinals : List ℕ) (push : ℕ)
  | resolvePrerequisite (key : String)
  | setPrerequisiteError (key : String) (error : Option String)

/-- What a step does to the tables. -/
def SqlQueue.step (q : SqlQueue) (t : QueueTables) : QueueStep → Except String QueueTables
  | .insert n m => q.insertMutation t n m
  | .addEffect n op => q.addEffect t n op
  | .delete ns => .ok (t.deleteMutations ns)
  | .setDiverged n => .ok (t.setDiverged n)
  | .assignPush ns push => .ok (t.assignPush ns push)
  | .resolvePrerequisite key => .ok (t.resolvePrerequisite key)
  | .setPrerequisiteError key error => .ok (t.setPrerequisiteError key error)

/-- What a step does to the store. -/
def Engine.queueStep (e : Engine) (st : Store) : QueueStep → Except String Store
  | .insert n m => e.insertMutation st n m
  | .addEffect n op => e.addEffect st n op
  | .delete ns => .ok (st.deleteMutations ns)
  | .setDiverged n => .ok (st.setDiverged n)
  | .assignPush ns push => .ok (st.assignPush ns push)
  | .resolvePrerequisite key => .ok (st.resolvePrerequisite key)
  | .setPrerequisiteError _ _ => .ok st

/-- The queue after a step. -/
def queueAfter (queue : List Queued) : QueueStep → List Queued
  | .insert n m => queue ++ [queuedAs n m]
  | .addEffect n op => queue.map (effectAdded n op)
  | .delete ns => (queue.filter (·.ordinal ∉ ns)).map (dependenciesDeleted ns)
  | .setDiverged n => queue.map fun x => if x.ordinal = n then { x with diverged := true } else x
  | .assignPush ns push =>
    queue.map fun x => if x.ordinal ∈ ns then { x with push := some push } else x
  | .resolvePrerequisite key => queue.map (prerequisiteResolved key)
  | .setPrerequisiteError _ _ => queue

/-- A mutation is inserted under an ordinal above those queued, as ordinals are allocated, with
    dependencies on queued ones; an effect is added to a queued mutation. -/
def SqlQueue.Allowed (q : SqlQueue) (queue : List Queued) : QueueStep → Prop
  | .insert n m => q.Insertable (queue.map (·.ordinal)) n m
  | .addEffect n op => n ∈ queue.map (·.ordinal) ∧ q.Readable op
  | _ => True

section Steps
variable {q : SqlQueue} {t : QueueTables} {queue : List Queued} {s : QueueStep}

/-- A step on the tables does what it does to the queue they hold. -/
theorem step_represents (h : q.Represents t queue) (hs : q.Allowed queue s) :
    ∃ t', q.step t s = .ok t' ∧ q.Represents t' (queueAfter queue s) := by
  cases s with
  | insert n m => exact h.insertMutation hs
  | addEffect n op => exact h.addEffect (h.ordinals_eq ▸ hs.1) hs.2
  | delete ns => exact ⟨_, rfl, h.deleteMutations⟩
  | setDiverged n => exact ⟨_, rfl, h.setDiverged⟩
  | assignPush ns push => exact ⟨_, rfl, h.assignPush⟩
  | resolvePrerequisite key => exact ⟨_, rfl, h.resolvePrerequisite⟩
  | setPrerequisiteError key error => exact ⟨_, rfl, h.setPrerequisiteError⟩

theorem storedOp_readable {op : Operation} (h : q.Readable op) : q.engine.storedOp op = .ok op := by
  simp only [Engine.storedOp, h.key, Except.ok_bind, Operation.key]
  rfl

/-- A step on the store leaves the same queue. -/
theorem queueStep_queue {st : Store} (hs : q.Allowed st.queue s) :
    ∃ st', q.engine.queueStep st s = .ok st' ∧ st'.queue = queueAfter st.queue s := by
  cases s with
  | insert n m =>
    have hall : ∀ ops : List Operation, (∀ op ∈ ops, ∃ kind, (kind, op) ∈ m.taggedOps) →
        ops.mapM q.engine.storedOp = .ok ops := fun ops hops => by
      have hstored := List.mapM_eq_ok_of (f := q.engine.storedOp) (g := id) (l := ops) fun op hop =>
        have ⟨_, hmem⟩ := hops op hop
        storedOp_readable (hs.readable _ hmem)
      rwa [List.map_id] at hstored
    refine ⟨{ st with queue := st.queue ++ [queuedAs n m] }, ?_, rfl⟩
    simp only [Engine.queueStep, Engine.insertMutation,
      hall m.operations fun op hop => ⟨.wire, by simp [Mutation.taggedOps, hop]⟩,
      hall m.companion fun op hop => ⟨.companion, by simp [Mutation.taggedOps, hop]⟩,
      hall m.effects fun op hop => ⟨.effect, by simp [Mutation.taggedOps, hop]⟩, Except.ok_bind]
    rfl
  | addEffect n op =>
    refine ⟨st.modify n fun x => { x with mutation := { x.mutation with
      effects := x.mutation.effects ++ [op] } }, ?_, rfl⟩
    rw [Engine.queueStep, Engine.addEffect, storedOp_readable hs.2]
    rfl
  | delete ns => exact ⟨_, rfl, rfl⟩
  | setDiverged n => exact ⟨_, rfl, rfl⟩
  | assignPush ns push => exact ⟨_, rfl, rfl⟩
  | resolvePrerequisite key => exact ⟨_, rfl, rfl⟩
  | setPrerequisiteError key error => exact ⟨_, rfl, rfl⟩

/-- A run on the tables, and one on the store, leave the queue that the steps make. -/
theorem run_represents : ∀ {steps : List QueueStep} {t : QueueTables} {st : Store},
    q.Represents t st.queue → Along queueAfter q.Allowed st.queue steps →
      ∃ t' st', steps.foldlM q.step t = .ok t' ∧ steps.foldlM q.engine.queueStep st = .ok st' ∧
        st'.queue = run queueAfter st.queue steps ∧ q.Represents t' st'.queue
  | [], t, st, h, _ => ⟨t, st, rfl, rfl, rfl, h⟩
  | s :: steps, t, st, h, ⟨hs, hsteps⟩ => by
    obtain ⟨t₁, ht, h₁⟩ := step_represents h hs
    obtain ⟨st₁, hst, hqueue⟩ := queueStep_queue hs
    rw [← hqueue] at h₁ hsteps
    obtain ⟨t', st', ht', hst', hrun, h'⟩ := run_represents h₁ hsteps
    refine ⟨t', st', by rw [List.foldlM_cons, ht, Except.ok_bind, ht'],
      by rw [List.foldlM_cons, hst, Except.ok_bind, hst'], ?_, h'⟩
    rw [hrun, hqueue]
    rfl

/-- The effects that steps add to a mutation. -/
def addedEffects (n : ℕ) (steps : List QueueStep) : List Operation :=
  steps.filterMap fun
    | .addEffect k op => if k = n then some op else none
    | _ => none

/-- What steps make of a mutation they do not delete, where `ordinals` are queued after them. -/
structure Persists (steps : List QueueStep) (ordinals : List ℕ) (x y : Queued) : Prop where
  ordinal : y.ordinal = x.ordinal
  name : y.mutation.name = x.mutation.name
  version : y.mutation.version = x.mutation.version
  operations : y.mutation.operations = x.mutation.operations
  companion : y.mutation.companion = x.mutation.companion
  effects : y.mutation.effects = x.mutation.effects ++ addedEffects x.ordinal steps
  prerequisites : ∀ key, key ∈ y.mutation.prerequisites ↔
    key ∈ x.mutation.prerequisites ∧ .resolvePrerequisite key ∉ steps
  lifecycle : ∀ d, d ∈ y.mutation.lifecycleDependencies ↔
    d ∈ x.mutation.lifecycleDependencies ∧ d ∈ ordinals
  sequence : ∀ d, d ∈ y.mutation.sequenceDependencies ↔
    d ∈ x.mutation.sequenceDependencies ∧ d ∈ ordinals

/-- The dependencies of a mutation are on earlier queued ones. -/
def Grounded (queue : List Queued) (x : Queued) : Prop :=
  ∀ d ∈ x.mutation.lifecycleDependencies ++ x.mutation.sequenceDependencies,
    d < x.ordinal ∧ d ∈ queue.map (·.ordinal)

theorem persists_same {x y : Queued} (hx : Grounded queue x) (hord : y.ordinal = x.ordinal)
    (hm : y.mutation = x.mutation) (hs : addedEffects x.ordinal [s] = [])
    (hr : ∀ key, s ≠ .resolvePrerequisite key) {ordinals : List ℕ}
    (hsub : ∀ o ∈ queue.map (·.ordinal), o ∈ ordinals) : Persists [s] ordinals x y where
  ordinal := hord
  name := by rw [hm]
  version := by rw [hm]
  operations := by rw [hm]
  companion := by rw [hm]
  effects := by rw [hm, hs, List.append_nil]
  prerequisites key := by simp [hm, Ne.symm (hr key)]
  lifecycle d := by
    rw [hm]
    exact ⟨fun h => ⟨h, hsub d (hx d (List.mem_append_left _ h)).2⟩, And.left⟩
  sequence d := by
    rw [hm]
    exact ⟨fun h => ⟨h, hsub d (hx d (List.mem_append_right _ h)).2⟩, And.left⟩

/-- A step that does not delete a mutation keeps it. -/
theorem queueAfter_persists {x : Queued} (hx : x ∈ queue) (hg : Grounded queue x) (hs : q.Allowed queue s)
    (hkeep : ∀ ns, s = .delete ns → x.ordinal ∉ ns) :
    (∃ y ∈ queueAfter queue s, Persists [s] ((queueAfter queue s).map (·.ordinal)) x y) ∧
      ∀ d < x.ordinal, d ∈ (queueAfter queue s).map (·.ordinal) → d ∈ queue.map (·.ordinal) := by
  have hmap : ∀ f : Queued → Queued, (∀ y, (f y).ordinal = y.ordinal) →
      (queue.map f).map (·.ordinal) = queue.map (·.ordinal) := fun f hf => by
    rw [List.map_map]
    exact List.map_congr_left fun y _ => hf y
  cases s with
  | insert n m =>
    refine ⟨⟨x, List.mem_append_left _ hx, persists_same hg rfl rfl rfl (by simp) fun o ho => ?_⟩, ?_⟩
    · rw [queueAfter, List.map_append]
      exact List.mem_append_left _ ho
    · intro d hd hmem
      rw [queueAfter, List.map_append, List.mem_append] at hmem
      rcases hmem with hmem | hmem
      · exact hmem
      · obtain rfl : d = n := by simpa [queuedAs] using hmem
        have := hs.above x.ordinal (List.mem_map_of_mem hx)
        omega
  | addEffect n op =>
    have hords := hmap (effectAdded n op) fun y => effectAdded_ordinal n op y
    rw [queueAfter, hords]
    refine ⟨⟨_, List.mem_map_of_mem hx, ?_⟩, fun _ _ ho => ho⟩
    by_cases hn : x.ordinal = n
    · have hadded : addedEffects x.ordinal [.addEffect n op] = [op] := by simp [addedEffects, hn]
      have hsame := persists_same (s := .setDiverged n) (y := x) hg rfl rfl rfl (by simp)
        fun _ ho => ho
      rw [effectAdded, if_pos hn]
      exact ⟨rfl, rfl, rfl, rfl, rfl, by rw [hadded], by simp, hsame.lifecycle, hsame.sequence⟩
    · have hadded : addedEffects x.ordinal [.addEffect n op] = [] := by
        simp [addedEffects, Ne.symm hn]
      rw [effectAdded, if_neg hn]
      exact persists_same hg rfl rfl hadded (by simp) fun _ ho => ho
  | delete ns =>
    have hmem : ∀ d, d ∈ (queueAfter queue (.delete ns)).map (·.ordinal) ↔
        d ∈ queue.map (·.ordinal) ∧ d ∉ ns := by
      simp only [queueAfter, List.map_map, List.mem_map, List.mem_filter, Function.comp_apply,
        dependenciesDeleted, decide_eq_true_eq]
      grind
    refine ⟨⟨dependenciesDeleted ns x, List.mem_map_of_mem (List.mem_filter.mpr ⟨hx, ?_⟩), ?_⟩,
      fun d _ hd => ((hmem d).mp hd).1⟩
    · simpa using hkeep ns rfl
    · refine ⟨rfl, rfl, rfl, rfl, rfl, by simp [addedEffects, dependenciesDeleted],
        by simp [dependenciesDeleted], fun d => ?_, fun d => ?_⟩
      · rw [hmem, dependenciesDeleted, List.mem_filter, decide_eq_true_eq]
        exact ⟨fun h => ⟨h.1, (hg d (List.mem_append_left _ h.1)).2, h.2⟩, fun h => ⟨h.1, h.2.2⟩⟩
      · rw [hmem, dependenciesDeleted, List.mem_filter, decide_eq_true_eq]
        exact ⟨fun h => ⟨h.1, (hg d (List.mem_append_right _ h.1)).2, h.2⟩, fun h => ⟨h.1, h.2.2⟩⟩
  | setDiverged n =>
    have hords := hmap (fun y => if y.ordinal = n then { y with diverged := true } else y)
      fun y => by split <;> rfl
    rw [queueAfter, hords]
    refine ⟨⟨_, List.mem_map_of_mem hx, ?_⟩, fun _ _ ho => ho⟩
    refine persists_same hg ?_ ?_ rfl (by simp) fun _ ho => ho
    all_goals split <;> rfl
  | assignPush ns push =>
    have hords := hmap (fun y => if y.ordinal ∈ ns then { y with push := some push } else y)
      fun y => by split <;> rfl
    rw [queueAfter, hords]
    refine ⟨⟨_, List.mem_map_of_mem hx, ?_⟩, fun _ _ ho => ho⟩
    refine persists_same hg ?_ ?_ rfl (by simp) fun _ ho => ho
    all_goals split <;> rfl
  | resolvePrerequisite key =>
    have hords := hmap (prerequisiteResolved key) fun y => rfl
    have hsame := persists_same (s := .setDiverged 0) (y := x) hg rfl rfl rfl (by simp)
      fun _ ho => ho
    rw [queueAfter, hords]
    refine ⟨⟨_, List.mem_map_of_mem hx, ⟨rfl, rfl, rfl, rfl, rfl, ?_, fun key' => ?_,
      hsame.lifecycle, hsame.sequence⟩⟩, fun _ _ ho => ho⟩
    · simp [addedEffects, prerequisiteResolved]
    · simp [prerequisiteResolved]
  | setPrerequisiteError key error =>
    exact ⟨⟨x, hx, persists_same hg rfl rfl rfl (by simp) fun _ ho => ho⟩, fun _ _ ho => ho⟩

/-- Steps that do not delete a mutation keep it. -/
theorem run_persists : ∀ {steps : List QueueStep} {queue : List Queued} {x : Queued}, x ∈ queue →
    Grounded queue x → Along queueAfter q.Allowed queue steps →
      (∀ ns, .delete ns ∈ steps → x.ordinal ∉ ns) →
        (∃ y ∈ run queueAfter queue steps,
          Persists steps ((run queueAfter queue steps).map (·.ordinal)) x y) ∧
        ∀ d < x.ordinal, d ∈ (run queueAfter queue steps).map (·.ordinal) → d ∈ queue.map (·.ordinal)
  | [], queue, x, hx, hg, _, _ => by
    refine ⟨⟨x, hx, rfl, rfl, rfl, rfl, rfl, by simp [addedEffects], by simp, fun d => ?_, fun d => ?_⟩,
      fun _ _ ho => ho⟩
    · exact ⟨fun h => ⟨h, (hg d (List.mem_append_left _ h)).2⟩, And.left⟩
    · exact ⟨fun h => ⟨h, (hg d (List.mem_append_right _ h)).2⟩, And.left⟩
  | s :: steps, queue, x, hx, hg, ⟨hs, hsteps⟩, hkeep => by
    obtain ⟨⟨y, hy, h₁⟩, hback₁⟩ := queueAfter_persists hx hg hs fun ns hns =>
      hkeep ns (hns ▸ List.mem_cons_self ..)
    have hgy : Grounded (queueAfter queue s) y := fun d hd => by
      rw [h₁.ordinal]
      rcases List.mem_append.mp hd with hd | hd
      · obtain ⟨hd, hq⟩ := (h₁.lifecycle d).mp hd
        exact ⟨(hg d (List.mem_append_left _ hd)).1, hq⟩
      · obtain ⟨hd, hq⟩ := (h₁.sequence d).mp hd
        exact ⟨(hg d (List.mem_append_right _ hd)).1, hq⟩
    obtain ⟨⟨z, hz, h₂⟩, hback₂⟩ := run_persists hy hgy hsteps fun ns hns => by
      rw [h₁.ordinal]
      exact hkeep ns (List.mem_cons_of_mem _ hns)
    rw [h₁.ordinal] at hback₂
    refine ⟨⟨z, hz, h₂.ordinal.trans h₁.ordinal, h₂.name.trans h₁.name, h₂.version.trans h₁.version,
      h₂.operations.trans h₁.operations, h₂.companion.trans h₁.companion, ?_, fun key => ?_,
      fun d => ?_, fun d => ?_⟩, fun d hd hmem => hback₁ d hd (hback₂ d hd hmem)⟩
    · rw [h₂.effects, h₁.effects, h₁.ordinal, List.append_assoc, addedEffects, addedEffects, addedEffects,
        ← List.filterMap_append]
      rfl
    · rw [h₂.prerequisites, h₁.prerequisites, and_assoc, List.mem_singleton, List.mem_cons, not_or]
    · rw [h₂.lifecycle, h₁.lifecycle, and_assoc]
      refine and_congr_right fun hd => and_iff_right_of_imp fun hmem => hback₂ d ?_ hmem
      exact (hg d (List.mem_append_left _ hd)).1
    · rw [h₂.sequence, h₁.sequence, and_assoc]
      refine and_congr_right fun hd => and_iff_right_of_imp fun hmem => hback₂ d ?_ hmem
      exact (hg d (List.mem_append_right _ hd)).1

end Steps

/-- What is read of a mutation inserted before `after`, where `ordinals` are queued now. -/
structure ReadBack (n : ℕ) (m : Mutation) (after : List QueueStep) (ordinals : List ℕ) (r : Queued) :
    Prop where
  ordinal : r.ordinal = n
  name : r.mutation.name = m.name
  version : r.mutation.version = m.version
  operations : r.mutation.operations = m.operations
  companion : r.mutation.companion = m.companion
  effects : r.mutation.effects = m.effects ++ addedEffects n after
  prerequisites : ∀ key, key ∈ r.mutation.prerequisites ↔
    key ∈ m.prerequisites ∧ .resolvePrerequisite key ∉ after
  lifecycle : ∀ d, d ∈ r.mutation.lifecycleDependencies ↔ d ∈ m.lifecycleDependencies ∧ d ∈ ordinals
  sequence : ∀ d, d ∈ r.mutation.sequenceDependencies ↔
    d ∈ m.sequenceDependencies ∧ d ∉ m.lifecycleDependencies ∧ d ∈ ordinals

theorem readBack_of {n : ℕ} {m : Mutation} {after : List QueueStep} {ordinals : List ℕ} {y r : Queued}
    (hy : Persists after ordinals (queuedAs n m) y) (hr : ReadAs y r) :
    ReadBack n m after ordinals r where
  ordinal := hr.ordinal.trans hy.ordinal
  name := hr.name.trans hy.name
  version := hr.version.trans hy.version
  operations := hr.operations.trans hy.operations
  companion := hr.companion.trans hy.companion
  effects := hr.effects.trans hy.effects
  prerequisites key := (hr.prerequisites key).trans (hy.prerequisites key)
  lifecycle d := (hr.lifecycle d).trans (hy.lifecycle d)
  sequence d := by
    rw [hr.sequence, hy.sequence, queuedAs, List.mem_filter, decide_eq_true_eq, and_assoc]

theorem ReadAs.taggedOps {x y : Queued} (h : ReadAs x y) : y.mutation.taggedOps = x.mutation.taggedOps := by
  simp only [Mutation.taggedOps, h.operations, h.companion, h.effects]

theorem readAs_ordinals : ∀ {l m : List Queued}, List.Forall₂ ReadAs l m →
    m.map (·.ordinal) = l.map (·.ordinal)
  | _, _, .nil => rfl
  | _, _, .cons h hs => by rw [List.map_cons, List.map_cons, h.ordinal, readAs_ordinals hs]

theorem represents_empty (q : SqlQueue) : q.Represents {} [] := by
  constructor <;> simp

/-- An inserted mutation is queued as long as nothing deletes it. -/
theorem insert_persists {q : SqlQueue} {before after : List QueueStep} {n : ℕ} {m : Mutation}
    (h : Along queueAfter q.Allowed [] (before ++ .insert n m :: after))
    (hkeep : ∀ ns, .delete ns ∈ after → n ∉ ns) :
    ∃ y ∈ run queueAfter [] (before ++ .insert n m :: after), Persists after
      ((run queueAfter [] (before ++ .insert n m :: after)).map (·.ordinal)) (queuedAs n m) y := by
  obtain ⟨-, hinsert, hafter⟩ := Machine.along_append.mp h
  have hrun : run queueAfter [] (before ++ .insert n m :: after) =
      run queueAfter (queueAfter (run queueAfter [] before) (.insert n m)) after := by
    rw [run, List.foldl_append]
    rfl
  have hground : Grounded (queueAfter (run queueAfter [] before) (.insert n m)) (queuedAs n m) := by
    intro d hd
    have hd' : d ∈ m.lifecycleDependencies ++ m.sequenceDependencies := by
      rcases List.mem_append.mp hd with hd | hd
      · exact List.mem_append_left _ hd
      · exact List.mem_append_right _ (List.mem_filter.mp hd).1
    have hmem := hinsert.dependencies d hd'
    refine ⟨hinsert.above d hmem, ?_⟩
    rw [queueAfter, List.map_append]
    exact List.mem_append_left _ hmem
  have hnew : queuedAs n m ∈ queueAfter (run queueAfter [] before) (.insert n m) :=
    List.mem_append_right _ (List.mem_singleton_self _)
  rw [hrun]
  exact (run_persists hnew hground hafter hkeep).1

/-- A mutation is read back as it was inserted, with the effects added since, whatever else was done to
    the queue, and a record's operations are read in the order of their places. -/
theorem queue_round_trip {q : SqlQueue} {before after : List QueueStep} {n : ℕ} {m : Mutation}
    (h : Along queueAfter q.Allowed [] (before ++ .insert n m :: after))
    (hkeep : ∀ ns, .delete ns ∈ after → n ∉ ns) :
    ∃ t all, (before ++ .insert n m :: after).foldlM q.step {} = .ok t ∧ q.queued t = .ok all ∧
      (all.map (·.ordinal)).Pairwise (· < ·) ∧ (∀ o, o ∈ all.map (·.ordinal) ↔ o ∈ t.ordinals) ∧
      (∃ r ∈ all, ReadBack n m after t.ordinals r) ∧
      (∃ r, q.queuedOne t n = .ok (some r) ∧ ReadBack n m after t.ordinals r) ∧
      ∀ key, q.json.parse (q.encodedIdentity key) = .ok key.identity → ∃ ops, q.opsFor t key = .ok ops ∧
        ops.Pairwise (fun a b => toLex (a.ordinal, a.position) < toLex (b.ordinal, b.position)) ∧
        ∀ s, s ∈ ops ↔ s.op.key = key ∧ ∃ r ∈ all, r.ordinal = s.ordinal ∧
          r.mutation.taggedOps[s.position]? = some (s.kind, s.op) := by
  obtain ⟨y, hy, hpersists⟩ := insert_persists h hkeep
  obtain ⟨t, st, ht, -, hqueue, hrep⟩ :=
    @run_represents q _ _ { clientId := "" } (represents_empty q) h
  rw [hqueue] at hrep
  generalize run queueAfter [] (before ++ .insert n m :: after) = queue at hrep hy hpersists
  rw [← hrep.ordinals_eq] at hpersists
  obtain ⟨all, hall, hreads⟩ : ∃ ys, q.queuedWhere t (fun _ => true) = .ok ys ∧
      List.Forall₂ ReadAs (orderBy (·.ordinal) (queue.filter fun _ => true)) ys := hrep.queuedWhere_ok
  obtain ⟨one, hone, hread⟩ : ∃ ys, q.queuedWhere t (fun o => decide (o = n)) = .ok ys ∧
      List.Forall₂ ReadAs (orderBy (·.ordinal) (queue.filter fun x => decide (x.ordinal = n))) ys :=
    hrep.queuedWhere_ok
  have hyn : y.ordinal = n := hpersists.ordinal
  rw [List.filter_true] at hreads
  have hords := readAs_ordinals hreads
  refine ⟨t, all, ht, hall, ?_, fun o => ?_, ?_, ?_, fun key hkey => ?_⟩
  · rw [hords]
    exact List.pairwise_map.mpr (pairwise_orderBy_lt hrep.ordinals)
  · rw [hords, hrep.ordinals_eq, List.mem_map, List.mem_map]
    exact exists_congr fun x => and_congr_left fun _ => mem_orderBy
  · obtain ⟨r, hr, hyr⟩ := List.forall₂_mem_left hreads (mem_orderBy.mpr hy)
    exact ⟨r, hr, readBack_of hpersists hyr⟩
  · have hsingle : queue.filter (fun x => decide (x.ordinal = n)) = [y] :=
      hyn ▸ hrep.filter_ordinal hy
    rw [hsingle] at hread
    obtain ⟨r, rest, hyr, hrest, rfl⟩ := List.forall₂_cons_left_iff.mp hread
    refine ⟨r, ?_, readBack_of hpersists hyr⟩
    rw [SqlQueue.queuedOne, hone]
    rfl
  · obtain ⟨ops, hops, hinc, hmem⟩ := hrep.opsFor_ok hkey
    refine ⟨ops, hops, hinc, fun s => (hmem s).trans (and_congr_right fun _ => ?_)⟩
    constructor
    · rintro ⟨x, hx, hord, hget⟩
      obtain ⟨r, hr, hxr⟩ := List.forall₂_mem_left hreads (mem_orderBy.mpr hx)
      exact ⟨r, hr, hxr.ordinal.trans hord, hxr.taggedOps ▸ hget⟩
    · rintro ⟨r, hr, hord, hget⟩
      obtain ⟨x, hx, hxr⟩ := List.forall₂_mem hreads hr
      exact ⟨x, mem_orderBy.mp hx, hxr.ordinal.symm.trans hord, hxr.taggedOps ▸ hget⟩

namespace Sample

/-- JSON text of the identities and values of items `a` and `b`. -/
def json : SerdeJson where
  print := canonicalJson codecs
  parse text :=
    match [identity "a", identity "b", .ofEntries [("box", .str "p")], .ofEntries [("box", .str "q")]].find?
      (canonicalJson codecs · = text) with
    | some v => .ok v
    | none => .error "expected value"

def sqlQueue : SqlQueue := ⟨loose, json⟩

/-- A mutation with a companion, an effect, and one dependency listed under both kinds. -/
def busy : Mutation where
  name := "busy"
  version := 2
  operations := [create "b" "p"]
  companion := [move "a" "p"]
  effects := [move "b" "q"]
  prerequisites := ["upload", "upload"]
  lifecycleDependencies := [2]
  sequenceDependencies := [1, 2]

def plain (id : String) : Mutation := { name := "plain", operations := [create id "p"] }

def earlier : List QueueStep := [.insert 1 (plain "a"), .insert 2 (plain "b")]

def later : List QueueStep := [.addEffect 3 (move "a" "q"), .insert 4 (plain "b"), .delete [1]]

theorem readable_item {op : Operation} (h : op ∈ [create "a" "p", create "b" "p", move "a" "p",
    move "a" "q", move "b" "q"]) : sqlQueue.Readable op := by
  simp only [List.mem_cons, List.not_mem_nil, or_false] at h
  rcases h with rfl | rfl | rfl | rfl | rfl
  all_goals
    refine ⟨Except.eq_ok_of_toOption (by decide +kernel), Except.eq_ok_of_toOption (by decide +kernel),
      fun v hv => ?_⟩
    obtain rfl := Option.some.inj hv
    exact Except.eq_ok_of_toOption (by decide +kernel)

theorem insertable_plain {ordinals : List ℕ} {n : ℕ} {id : String} (hid : id = "a" ∨ id = "b")
    (h : ∀ o ∈ ordinals, o < n) : sqlQueue.Insertable ordinals n (plain id) := by
  refine ⟨h, by simp [plain], fun e he => ?_, by simp [plain]⟩
  obtain rfl : e = (.wire, create id "p") := by simpa [plain, Mutation.taggedOps] using he
  rcases hid with rfl | rfl <;> exact readable_item (by simp)

end Sample

/-- Two mutations before, an effect added and one mutation after, and the first one deleted. -/
theorem queue_round_trip_busy : ∃ t all,
    (Sample.earlier ++ .insert 3 Sample.busy :: Sample.later).foldlM Sample.sqlQueue.step {} = .ok t ∧
      Sample.sqlQueue.queued t = .ok all ∧
      ∃ r ∈ all, r.mutation.operations = [Sample.create "b" "p"] ∧
        r.mutation.effects = [Sample.move "b" "q", Sample.move "a" "q"] ∧
        ∀ key, key ∈ r.mutation.prerequisites ↔ key = "upload" := by
  have hbusy : Sample.sqlQueue.Insertable [1, 2] 3 Sample.busy := by
    refine ⟨by decide, by decide, fun e he => Sample.readable_item ?_, by decide⟩
    simp only [Sample.busy, Mutation.taggedOps, List.map_cons, List.map_nil, List.cons_append,
      List.nil_append, List.mem_cons, List.not_mem_nil, or_false] at he
    rcases he with rfl | rfl | rfl <;> simp
  have halong : Along queueAfter Sample.sqlQueue.Allowed []
      (Sample.earlier ++ .insert 3 Sample.busy :: Sample.later) :=
    ⟨Sample.insertable_plain (Or.inl rfl) (by decide), Sample.insertable_plain (Or.inr rfl) (by decide),
      hbusy, ⟨by decide, Sample.readable_item (by simp)⟩,
      Sample.insertable_plain (Or.inr rfl) (by decide), trivial, trivial⟩
  obtain ⟨t, all, ht, hall, -, -, ⟨r, hr, hread⟩, -⟩ :=
    queue_round_trip halong (by simp [Sample.later])
  refine ⟨t, all, ht, hall, r, hr, hread.operations, hread.effects.trans (by decide +kernel), fun key => ?_⟩
  rw [hread.prerequisites]
  simp [Sample.busy, Sample.later]

end AheadSync
