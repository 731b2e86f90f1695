import AheadSync.Client.Tidy

/-! The replay invariant: the visible row of a record with queued operations is its before image with
    those operations replayed. Rebuilding establishes it; enqueueing, which applies operations in
    place, keeps it unless the mutation touches a row it created itself or creates a record one of
    its own cascades deleted. -/

namespace AheadSync

/-- No model has a unique constraint. -/
def NoUnique (e : Engine) : Prop := ∀ model ∈ e.schema.models, model.unique = []

instance (e : Engine) : Decidable (NoUnique e) :=
  inferInstanceAs (Decidable (∀ model ∈ e.schema.models, model.unique = []))

/-- What the invariant says of one record. -/
structure ReplayAt (st : Store) (k : RecordKey) : Prop where
  shown : st.dirty k = true → st.main.lookup k = st.shown k
  tidy : TidyAt st k
  marked : ∀ n ∈ st.failing k, ∃ q ∈ st.queue, q.ordinal = n ∧ q.diverged = true

section Rebuild
variable {e : Engine} {st st' : Store} {key k : RecordKey}

theorem not_duplicate (hu : NoUnique e) {row : Option Value} : ¬Duplicate e st key row := by
  rintro ⟨r, model, -, hm, hd⟩
  rw [duplicates_eq_false (hu model (model_mem hm))] at hd
  cases hd

/-- Without unique constraints a rebuild always succeeds and shows the replayed row. -/
theorem rebuild_noUnique (hu : NoUnique e) (hwf : Wf e st) (hk : Named e key) {failed : Option ℕ} :
    e.rebuild st key = .ok (failed, st') ↔
      failed = st.failing key ∧ st' = st.rebuilt key (st.shown key) := by
  rw [rebuild_eq_ok hwf hk]
  simp [RebuildRow, not_duplicate hu]

theorem rebuilt_shown {row : Option Value} (hd : st.dirty key = true) :
    (st.rebuilt key row).shown key = st.shown key ∧
      (st.rebuilt key row).failing key = st.failing key := by
  have hops : st.opsFor key ≠ [] := fun h => by simp [dirty_eq_false.mpr h] at hd
  simp [Store.shown, Store.failing, hops]

/-- A mutation that fails to replay is queued. -/
theorem failing_queued {n : ℕ} (hn : n ∈ st.failing k) :
    ∃ q ∈ st.queue, q.ordinal = n ∧ ∃ op ∈ q.mutation.allOps, op.key = k := by
  have hmem : ∀ {ops : List QueuedOp} {row : Option Value} {n : ℕ}, replay row ops = .error n →
      ∃ q ∈ ops, q.ordinal = n := by
    intro ops
    induction ops with
    | nil => intro row n h; simp [replay] at h
    | cons q ops ih =>
      intro row n h
      unfold replay at h
      split at h
      · obtain ⟨q', hq', hn⟩ := ih h
        exact ⟨q', List.mem_cons_of_mem _ hq', hn⟩
      · exact ⟨q, List.mem_cons_self .., Except.error.inj h⟩
  unfold Store.failing at hn
  split at hn
  · cases hn
  · rename_i ordinal herr
    obtain rfl : ordinal = n := Option.some.inj hn
    obtain ⟨qo, hqo, rfl⟩ := hmem herr
    obtain ⟨q, hq, ho, hop, hk⟩ := mem_opsFor.mp hqo
    exact ⟨q, hq, ho, qo.op, hop, hk⟩

/-- A rebuild establishes the invariant of its record. -/
theorem replayAt_rebuild (hu : NoUnique e) (hwf : Wf e st) (hk : Named e key) {failed : Option ℕ}
    (hr : e.rebuild st key = .ok (failed, st')) : ReplayAt st' key := by
  refine ⟨fun hd => ?_, tidyAt_rebuild hwf hk hr, fun n hn => ?_⟩
  all_goals obtain ⟨-, rfl⟩ := (rebuild_noUnique hu hwf hk).mp hr
  · rw [dirty_eq_of_opsFor rebuilt_opsFor] at hd
    rw [(rebuilt_shown hd).1, rebuilt_main]
    simp
  · cases hd : st.dirty key with
    | false =>
      rw [failing_clean (dirty_eq_of_opsFor rebuilt_opsFor |>.trans hd)] at hn
      cases hn
    | true =>
      rw [(rebuilt_shown hd).2] at hn
      obtain ⟨q, hq, rfl, -⟩ := failing_queued hn
      refine ⟨{ q with diverged := true }, ?_, rfl, rfl⟩
      rw [rebuilt_queue]
      exact List.mem_map.mpr ⟨q, hq, if_pos hn.symm⟩

/-- The invariant of a record that is left alone survives as long as marks do. -/
theorem replayAt_untouched (h : ReplayAt st k) (hu : Untouched st st' k)
    (hm : ∀ q ∈ st.queue, q.diverged = true → (∃ op ∈ q.mutation.allOps, op.key = k) →
      ∃ q' ∈ st'.queue, q'.ordinal = q.ordinal ∧ q'.diverged = true)
    (hs : (st.queue.map (·.ordinal)).Nodup) : ReplayAt st' k where
  shown := fun hd => by rw [hu.main, hu.shown]; exact h.shown (hu.dirty ▸ hd)
  tidy := tidyAt_untouched h.tidy hu
  marked := fun n hn => by
    rw [hu.failing] at hn
    obtain ⟨q, hq, rfl, hdiv⟩ := h.marked n hn
    obtain ⟨q0, hq0, ho, hop⟩ := failing_queued hn
    obtain rfl : q0 = q := List.inj_on_of_nodup_map hs hq0 hq ho
    exact hm q0 hq0 hdiv hop

/-- The invariant of a record that is left alone survives growth of the queue. -/
theorem replayAt_extends (h : ReplayAt st k) (hu : Untouched st st' k) (hx : Extends st st') :
    ReplayAt st' k where
  shown := fun hd => by rw [hu.main, hu.shown]; exact h.shown (hu.dirty ▸ hd)
  tidy := tidyAt_untouched h.tidy hu
  marked := fun n hn => by
    rw [hu.failing] at hn
    obtain ⟨q, hq, rfl, hdiv⟩ := h.marked n hn
    obtain ⟨q', hq', hg⟩ := List.forall₂_mem_left hx.queue hq
    exact ⟨q', hq', hg.ordinal, hg.diverged hdiv⟩

end Rebuild

section Replay
variable {row row' : Option Value} {ops ops' : List Operation} {n : ℕ}

/-- Apply operations to a row in order. -/
def replayOps (row : Option Value) (ops : List Operation) : Except String (Option Value) :=
  ops.foldlM applyToRow row

theorem replayOps_append_eq_ok : replayOps row (ops ++ ops') = .ok row' ↔
    ∃ mid, replayOps row ops = .ok mid ∧ replayOps mid ops' = .ok row' := by
  simp [replayOps, List.foldlM_append]

/-- Deletions leave no row. -/
theorem replayOps_deletes : ∀ {ops : List Operation} (row : Option Value), (∀ op ∈ ops, op.op = .delete) →
    replayOps row ops = .ok (if ops = [] then row else none)
  | [], _, _ => rfl
  | op :: ops, row, h => by
    have hd : applyToRow row op = .ok none := by
      simp [applyToRow, h op (List.mem_cons_self ..)]
    have ih := replayOps_deletes none fun o ho => h o (List.mem_cons_of_mem _ ho)
    simp only [replayOps] at ih
    simp [replayOps, hd, ih]

theorem replay_append : ∀ {qs qs' : List QueuedOp} {row : Option Value},
    replay row (qs ++ qs') = (match replay row qs with
      | .ok mid => replay mid qs'
      | .error n => .error n)
  | [], _, _ => rfl
  | q :: qs, qs', row => by
    simp only [List.cons_append, replay]
    split
    · exact replay_append
    · rfl

/-- Replaying the operations of one mutation. -/
theorem replay_map : ∀ {ops : List Operation} {row : Option Value},
    replayOps row ops = .ok row' → replay row (ops.map (⟨n, ·⟩)) = .ok row'
  | [], row, h => by simpa [replayOps, replay] using h
  | op :: ops, row, h => by
    simp only [replayOps, List.foldlM_cons, Except.bind_eq_ok] at h
    obtain ⟨mid, hmid, h⟩ := h
    simp only [List.map_cons, replay, hmid]
    exact replay_map h

end Replay

section Perform
variable {e : Engine} {st st' s : Store} {k : RecordKey} {op op' : Operation}
  {done effects : List Operation} {found : List RecordKey} {row : Option Value}

/-- A row of the mutation's own making: its record was clean and absent when the mutation began and
    is visible now. Holding such a record sets aside what is not the server's. -/
def OwnRow (st₀ st : Store) (k : RecordKey) : Prop :=
  st₀.dirty k = false ∧ st₀.main.lookup k = none ∧ st.main.lookup k ≠ none

/-- Performing the operation touches no row of the mutation's own making and creates no record that
    one of the mutation's cascades deleted. -/
def StepSound (e : Engine) (st₀ : Store) (acc : Store × List Operation × List Operation)
    (op : Operation) : Prop :=
  ∀ op', e.normalize op = .ok op' → ¬OwnRow st₀ acc.1 op'.key ∧
    (∀ found, CascadeOf e (acc.1.holdTruth op'.key) op' found → ∀ k ∈ found, ¬OwnRow st₀ acc.1 k) ∧
    (op'.op = .create → ∀ x ∈ acc.2.2, x.key ≠ op'.key)

/-- Every operation of the mutation is performed soundly. -/
def Sound (e : Engine) (st : Store) (m : Mutation) : Prop :=
  List.Guarded e.performOp (StepSound e st) (st, [], []) (m.operations ++ m.companion)

theorem performed_main : (s.performed op found row).main.lookup k =
    if k = op.key then row else if k ∈ found then none else s.main.lookup k := by
  simp [Store.performed, AList.lookup_put, cascaded_main]

theorem performed_before (hnd : found.Nodup) (hf : op.key ∉ found) :
    (s.performed op found row).before.lookup k =
      if (k = op.key ∨ k ∈ found) ∧ s.dirty k = false then (s.before.lookup k).or (s.main.lookup k)
      else s.before.lookup k := by
  simp only [Store.performed, cascaded_before hnd, holdTruth_before, holdTruth_main,
    dirty_of_queue holdTruth_queue]
  by_cases hk : k = op.key
  · subst hk; simp [hf]
  · simp [hk]

/-- What performing has done to one record: it was left alone, or its base was set aside. -/
structure Bases (st₀ : Store) (acc : Store × List Operation × List Operation) (k : RecordKey) :
    Prop where
  untouched : (∀ op ∈ acc.2.1 ++ acc.2.2, op.key ≠ k) → Untouched st₀ acc.1 k
  base : (∃ op ∈ acc.2.1 ++ acc.2.2, op.key = k) → acc.1.before.lookup k = st₀.truth k

/-- And its visible row is the one it had with the performed operations replayed in the order the queue
    will keep them. -/
structure Enacts (st₀ : Store) (acc : Store × List Operation × List Operation) (k : RecordKey) : Prop
    extends Bases st₀ acc k where
  replays : replayOps (st₀.main.lookup k) ((acc.2.1 ++ acc.2.2).filter (·.key = k)) =
    .ok (acc.1.main.lookup k)
  gone : (∃ op ∈ acc.2.2, op.key = k) → acc.1.main.lookup k = none
  deletes : ∀ op ∈ acc.2.2, op.op = .delete

theorem bases_start (k : RecordKey) : Bases st (st, [], []) k where
  untouched := fun _ => untouched_refl st k
  base := by simp

theorem enacts_start (k : RecordKey) : Enacts st (st, [], []) k where
  toBases := bases_start k
  replays := rfl
  gone := by simp
  deletes := by simp

/-- After a cascade deleted a record, what the mutation may still do to it is delete it. -/
theorem gone_delete (hgone : s.main.lookup op'.key = none) (hnc : op'.op ≠ .create)
    (ha : applyToRow (s.main.lookup op'.key) op' = .ok row) : op'.op = .delete ∧ row = none := by
  rw [hgone] at ha
  cases hop : op'.op with
  | create => exact absurd hop hnc
  | update => simp [applyToRow, hop] at ha
  | delete => exact ⟨rfl, by simpa [applyToRow, hop, eq_comm] using ha⟩

/-- One more operation: its record. -/
theorem replays_own (he : Enacts st (s, done, effects) op'.key)
    (hc : op'.op = .create → ∀ x ∈ effects, x.key ≠ op'.key)
    (ha : applyToRow (s.main.lookup op'.key) op' = .ok row) :
    replayOps (st.main.lookup op'.key)
        ((done ++ [op'] ++ effects).filter (·.key = op'.key)) = .ok row ∧
      ((∃ x ∈ effects, x.key = op'.key) → row = none) := by
  have hrep := he.replays
  simp only [List.filter_append] at hrep ⊢
  have hself : [op'].filter (·.key = op'.key) = [op'] := by simp
  rw [hself]
  have hdel : ∀ x ∈ effects.filter (·.key = op'.key), x.op = .delete :=
    fun x hx => he.deletes x (List.mem_of_mem_filter hx)
  obtain ⟨mid, hmid, hrest⟩ := replayOps_append_eq_ok.mp hrep
  rw [replayOps_deletes _ hdel] at hrest
  by_cases hex : ∃ x ∈ effects, x.key = op'.key
  · -- the record is gone, so the operation deletes it again
    obtain ⟨x, hx, hxk⟩ := hex
    obtain ⟨hop, rfl⟩ := gone_delete (he.gone ⟨x, hx, hxk⟩) (fun h => hc h x hx hxk) ha
    refine ⟨?_, fun _ => rfl⟩
    rw [List.append_assoc]
    refine replayOps_append_eq_ok.mpr ⟨mid, hmid, ?_⟩
    have hall : ∀ y ∈ [op'] ++ effects.filter (·.key = op'.key), y.op = .delete := by
      intro y hy
      rcases List.mem_append.mp hy with hy | hy
      · rw [List.mem_singleton.mp hy]; exact hop
      · exact hdel y hy
    rw [replayOps_deletes _ hall]
    simp
  · have hnil : effects.filter (·.key = op'.key) = [] :=
      filter_key_eq_nil fun x hx hk => hex ⟨x, hx, hk⟩
    rw [hnil] at hrest ⊢
    rw [List.append_nil]
    refine ⟨replayOps_append_eq_ok.mpr ⟨mid, hmid, ?_⟩, fun h => absurd h hex⟩
    obtain rfl : mid = s.main.lookup op'.key := by simpa using hrest
    simp [replayOps, ha]

/-- One more operation: a descendant that its cascade deletes. -/
theorem replays_child (he : Enacts st (s, done, effects) k) (hk : k ≠ op'.key) (hf : k ∈ found) :
    replayOps (st.main.lookup k)
      ((done ++ [op'] ++ (effects ++ found.map deleteOf)).filter (·.key = k)) = .ok none := by
  have hrep := he.replays
  have hne : [op'].filter (·.key = k) = [] := by simpa using fun h => hk h.symm
  have hlist : (done ++ [op'] ++ (effects ++ found.map deleteOf)).filter (·.key = k) =
      (done ++ effects).filter (·.key = k) ++ (found.map deleteOf).filter (·.key = k) := by
    simp only [List.filter_append, hne, List.append_assoc, List.nil_append]
  rw [hlist]
  refine replayOps_append_eq_ok.mpr ⟨_, hrep, ?_⟩
  have hall : ∀ x ∈ (found.map deleteOf).filter (·.key = k), x.op = .delete := by
    intro x hx
    obtain ⟨c, -, rfl⟩ := List.mem_map.mp (List.mem_of_mem_filter hx)
    rfl
  have hmem : deleteOf k ∈ (found.map deleteOf).filter (·.key = k) :=
    List.mem_filter.mpr ⟨List.mem_map_of_mem hf, by simp [deleteOf, Operation.key]⟩
  rw [replayOps_deletes _ hall, if_neg (List.ne_nil_of_mem hmem)]

/-- The records that performing one more operation touches. -/
theorem touched_performed :
    (∃ o ∈ (done ++ [op']) ++ (effects ++ found.map deleteOf), o.key = k) ↔
      (k = op'.key ∨ k ∈ found) ∨ ∃ o ∈ done ++ effects, o.key = k := by
  constructor
  · rintro ⟨o, ho, rfl⟩
    rcases List.mem_append.mp ho with ho | ho <;> rcases List.mem_append.mp ho with ho | ho
    · exact Or.inr ⟨o, List.mem_append_left _ ho, rfl⟩
    · exact Or.inl (Or.inl (by rw [List.mem_singleton.mp ho]))
    · exact Or.inr ⟨o, List.mem_append_right _ ho, rfl⟩
    · obtain ⟨c, hc, rfl⟩ := List.mem_map.mp ho
      exact Or.inl (Or.inr hc)
  · rintro ((rfl | hf) | ⟨o, ho, hk⟩)
    · exact ⟨op', by simp, rfl⟩
    · refine ⟨deleteOf k, ?_, rfl⟩
      exact List.mem_append_right _ (List.mem_append_right _ (List.mem_map_of_mem hf))
    · exact ⟨o, by rcases List.mem_append.mp ho with ho | ho <;> simp [ho], hk⟩

/-- An operation that holds no row of the mutation's own making sets bases aside. -/
theorem bases_step (htidy : Tidy st) (hq : s.queue = st.queue) (hb : Bases st (s, done, effects) k)
    (hp : Performs e s op op' found row) (hwf : Wf e s)
    (hown : k = op'.key ∨ k ∈ found → ¬OwnRow st s k) :
    Bases st (s.performed op' found row, done ++ [op'], effects ++ found.map deleteOf) k := by
  obtain ⟨hnd, hfk, -⟩ := cascadeOf_spec (wf_holdTruth hwf _) hp.cascade
  have hdirty : s.dirty k = st.dirty k := dirty_of_queue hq
  refine ⟨fun hno => ?_, fun hyes => ?_⟩
  · have hnot := fun h => (not_exists.mpr fun o ho => hno o ho.1 ho.2) (touched_performed.mpr h)
    have hbefore : ∀ o ∈ done ++ effects, o.key ≠ k := fun o ho hk => hnot (Or.inr ⟨o, ho, hk⟩)
    exact untouched_trans (hb.untouched hbefore) (untouched_performed hnd
      (fun h => hnot (Or.inl (Or.inl h))) fun h => hnot (Or.inl (Or.inr h)))
  · -- the base of a touched record
    simp only [performed_before hnd hfk]
    by_cases hold : ∃ o ∈ done ++ effects, o.key = k
    · have hbase := hb.base hold
      simp only at hbase
      split
      · rename_i hnow
        rw [hbase]
        have hclean : st.dirty k = false := hdirty ▸ hnow.2
        have hno := hown hnow.1
        simp only [Store.truth, hclean, Bool.false_eq_true, ↓reduceIte]
        cases hm : st.main.lookup k with
        | some r => rfl
        | none =>
          have : s.main.lookup k = none := by
            by_contra hne
            exact hno ⟨hclean, hm, hne⟩
          rw [this]; rfl
      · exact hbase
    · have hu := hb.untouched fun o ho hk => hold ⟨o, ho, hk⟩
      simp only at hu
      have hnow := (touched_performed.mp hyes).resolve_right hold
      rw [hu.before, hu.main, hdirty]
      cases hd : st.dirty k with
      | true => simp [Store.truth, hd]
      | false => simp [hnow, Store.truth, hd, htidy k hd]

/-- A sound operation carries the account of every record. -/
theorem enacts_step (htidy : Tidy st) (hq : s.queue = st.queue)
    (he : ∀ k, Enacts st (s, done, effects) k) (hp : Performs e s op op' found row)
    (hwf : Wf e s) (hs : StepSound e st (s, done, effects) op) (k : RecordKey) :
    Enacts st (s.performed op' found row, done ++ [op'], effects ++ found.map deleteOf) k := by
  obtain ⟨hown, hchild, hcreate⟩ := hs op' hp.normal
  obtain ⟨hnd, hfk, -⟩ := cascadeOf_spec (wf_holdTruth hwf _) hp.cascade
  have happly : applyToRow (s.main.lookup op'.key) op' = .ok row := by
    have := hp.apply
    rwa [cascaded_main, if_neg hfk, holdTruth_main] at this
  have hbases := bases_step htidy hq (he k).toBases hp hwf fun hk => by
    rcases hk with rfl | hf
    · exact hown
    · exact hchild found hp.cascade k hf
  refine ⟨hbases, ?_, fun hyes => ?_, fun o ho => ?_⟩
  · simp only [performed_main]
    by_cases hk : k = op'.key
    · subst hk
      rw [if_pos rfl]
      have hnil : (found.map deleteOf).filter (·.key = op'.key) = [] :=
        filter_key_eq_nil fun o ho hk => by
          obtain ⟨c, hc, rfl⟩ := List.mem_map.mp ho
          exact hfk (by rw [← hk]; exact hc)
      have hrep := (replays_own (he op'.key) hcreate happly).1
      have hsame : ((done ++ [op']) ++ (effects ++ found.map deleteOf)).filter (·.key = op'.key) =
          ((done ++ [op']) ++ effects).filter (·.key = op'.key) := by
        rw [← List.append_assoc, List.filter_append _ (found.map deleteOf), hnil, List.append_nil]
      rw [hsame]
      exact hrep
    · rw [if_neg hk]
      by_cases hf : k ∈ found
      · rw [if_pos hf]
        exact replays_child (he k) hk hf
      · rw [if_neg hf]
        have hne : [op'].filter (·.key = k) = [] := by simpa using fun h => hk h.symm
        have hnil : (found.map deleteOf).filter (·.key = k) = [] :=
          filter_key_eq_nil fun o ho hko => by
            obtain ⟨c, hc, rfl⟩ := List.mem_map.mp ho
            exact hf (by rw [← hko]; exact hc)
        have hrep := (he k).replays
        simp only [List.filter_append, hne, hnil, List.append_nil] at hrep ⊢
        exact hrep
  · simp only [performed_main]
    obtain ⟨o, ho, hk⟩ := hyes
    rcases List.mem_append.mp ho with ho | ho
    · by_cases hko : k = op'.key
      · subst hko
        rw [if_pos rfl]
        exact (replays_own (he op'.key) hcreate happly).2 ⟨o, ho, hk⟩
      · rw [if_neg hko]
        split
        · rfl
        · exact (he k).gone ⟨o, ho, hk⟩
    · obtain ⟨c, hc, rfl⟩ := List.mem_map.mp ho
      have hck : c = k := hk
      subst hck
      have hne : c ≠ op'.key := fun h => hfk (h ▸ hc)
      rw [if_neg hne, if_pos hc]
  · rcases List.mem_append.mp ho with ho | ho
    · exact (he k).deletes o ho
    · obtain ⟨c, -, rfl⟩ := List.mem_map.mp ho
      rfl

/-- A sound mutation accounts for every record. -/
theorem enacts_fold (htidy : Tidy st) {ops given : List Operation}
    {acc out : Store × List Operation × List Operation} (hp : Performing e st given acc)
    (he : ∀ k, Enacts st acc k) (hg : List.Guarded e.performOp (StepSound e st) acc ops)
    (ho : ops.foldlM e.performOp acc = .ok out) : ∀ k, Enacts st out k :=
  performing_induction (StepSound e st) (fun acc => ∀ k, Enacts st acc k)
    (fun hwf hq hpo hs he => enacts_step htidy hq he hpo hwf hs) hp he hg ho

end Perform

section Enqueue
variable {e : Engine} {st st' mid : Store} {k : RecordKey} {m : Mutation} {q : Queued}
  {done effects : List Operation} {row : Option Value} {n : ℕ}

theorem shown_of_replay (h : replay (st.before.lookup k) (st.opsFor k) = .ok row) :
    st.shown k = row ∧ st.failing k = none := by
  simp [Store.shown, Store.failing, h]

/-- A record no diverged mutation touches shows its truth with all its operations replayed. -/
theorem replay_truth (h : ReplayAt st k) (hs : (st.queue.map (·.ordinal)).Nodup)
    (hspare : ∀ p ∈ st.queue, p.diverged = true → ∀ o ∈ p.mutation.allOps, o.key ≠ k) :
    replay (st.truth k) (st.opsFor k) = .ok (st.main.lookup k) := by
  cases hd : st.dirty k with
  | false => simp [Store.truth, hd, dirty_eq_false.mp hd, replay]
  | true =>
    rw [Store.truth, if_pos hd, h.shown hd]
    cases hr : replay (st.before.lookup k) (st.opsFor k) with
    | ok row => rw [(shown_of_replay hr).1]
    | error n =>
      have hn : n ∈ st.failing k := by simp [Store.failing, hr]
      obtain ⟨p, hp, rfl, hdiv⟩ := h.marked n hn
      obtain ⟨p0, hp0, ho, op, hop, hk⟩ := failing_queued hn
      obtain rfl : p0 = p := List.inj_on_of_nodup_map hs hp0 hp ho
      exact absurd hk (hspare p0 hp hdiv op hop)

theorem enqueues_opsFor (he : Enqueues e st m st' done effects q mid) :
    st'.opsFor k = st.opsFor k ++ ((done ++ effects).filter (·.key = k)).map (⟨q.ordinal, ·⟩) := by
  rw [he.result, ← enqueues_allOps he]
  simp [Store.opsFor]

/-- A sound mutation that spares the records of diverged mutations keeps the invariant. -/
theorem replayAt_enqueue (hwf : Wf e st) (h : ∀ k, ReplayAt st k) (hs : Sound e st m)
    (he : Enqueues e st m st' done effects q mid)
    (hspare : ∀ p ∈ st.queue, p.diverged = true → ∀ o ∈ p.mutation.allOps,
      ∀ op ∈ q.mutation.allOps, o.key ≠ op.key) : ReplayAt st' k := by
  have hnodup : (st.queue.map (·.ordinal)).Nodup := hwf.sorted.imp fun h => ne_of_lt h
  have hena := enacts_fold (fun k => (h k).tidy) (performing_start hwf) enacts_start hs he.performs k
  by_cases hk : ∃ op ∈ q.mutation.allOps, op.key = k
  · obtain ⟨op, hop, hopk⟩ := hk
    have hbefore : st'.before.lookup k = st.truth k := by
      rw [he.result]
      exact hena.base ⟨op, by rwa [← enqueues_allOps he], hopk⟩
    have hmain : st'.main.lookup k = mid.main.lookup k := by rw [he.result]
    have hold := replay_truth (h k) hnodup fun p hp hdiv o ho => hopk ▸ hspare p hp hdiv o ho op hop
    have hnew : replay (st'.before.lookup k) (st'.opsFor k) = .ok (mid.main.lookup k) := by
      rw [hbefore, enqueues_opsFor he, replay_append, hold]
      exact replay_map hena.replays
    obtain ⟨hshown, hfail⟩ := shown_of_replay hnew
    refine ⟨fun _ => by rw [hshown, hmain], fun hd => ?_, fun n hn => by simp [hfail] at hn⟩
    have : st'.dirty k = true := dirty_iff.mpr ⟨q, by simp [he.result], op, hop, hopk⟩
    simp [this] at hd
  · refine replayAt_untouched (h k) (enqueues_untouched hwf he (by simpa using hk))
      (fun p hp hdiv _ => ⟨p, ?_, rfl, hdiv⟩) hnodup
    rw [he.result]
    exact List.mem_append_left _ hp

end Enqueue

section Deliver
variable {e : Engine} {st st' : Store} {k : RecordKey}

/-- What changes neither rows nor operations and keeps marks keeps the invariant. -/
theorem replayAt_map {f : Queued → Queued} (h : ReplayAt st k)
    (hf : ∀ q, (f q).ordinal = q.ordinal ∧ (f q).mutation.allOps = q.mutation.allOps ∧
      (f q).diverged = q.diverged) (hm : st'.main = st.main) (hb : st'.before = st.before)
    (hq : st'.queue = st.queue.map f) : ReplayAt st' k := by
  have hops : st'.opsFor k = st.opsFor k := by
    rw [← @opsFor_map st k f fun q => ⟨(hf q).1, (hf q).2.1⟩]
    exact @opsFor_of_queue _ { st with queue := st.queue.map f } _ hq
  have hu : Untouched st st' k := ⟨by rw [hm], by rw [hb], hops⟩
  refine ⟨fun hd => by rw [hu.main, hu.shown]; exact h.shown (hu.dirty ▸ hd),
    tidyAt_untouched h.tidy hu, fun n hn => ?_⟩
  rw [hu.failing] at hn
  obtain ⟨q, hq', rfl, hdiv⟩ := h.marked n hn
  exact ⟨f q, hq ▸ List.mem_map_of_mem hq', (hf q).1, (hf q).2.2.trans hdiv⟩

/-- What keeps rows and queue keeps the invariant. -/
theorem replayAt_of_eq (h : ReplayAt st k) (hm : st'.main = st.main) (hb : st'.before = st.before)
    (hq : st'.queue = st.queue) : ReplayAt st' k :=
  replayAt_map (f := id) h (fun _ => ⟨rfl, rfl, rfl⟩) hm hb (by simpa using hq)

/-- Rebuilding what a delivery holds establishes the invariant of every record. -/
theorem replayAt_rebuildHeld (hu : NoUnique e) (hwf : Wf e st) {held : Held}
    (hn : ∀ k ∈ held, Named e k) (h : ∀ k, k ∉ held → ReplayAt st k) {reports : List Report}
    (hr : e.rebuildHeld st held = .ok (reports, st')) : ∀ k, ReplayAt st' k :=
  rebuildHeld_establishes (Q := ReplayAt) (fun hwf hk hr => replayAt_rebuild hu hwf hk hr)
    (fun h hu hx => replayAt_extends h hu hx) hwf hn h hr

/-- Staging changes the bases of held dirty records and the rows of clean ones. -/
theorem replayAt_stages {held held' : Held} (hs : Stages e st held st' held') (hk : k ∉ held')
    (h : ReplayAt st k) : ReplayAt st' k := by
  cases hd : st.dirty k with
  | true =>
    have hu : Untouched st st' k := ⟨hs.main k hd, hs.before k hk, opsFor_of_queue hs.queue⟩
    refine ⟨fun hd => by rw [hu.main, hu.shown]; exact h.shown (hu.dirty ▸ hd),
      tidyAt_untouched h.tidy hu, fun n hn => ?_⟩
    rw [hu.failing] at hn
    rw [hs.queue]
    exact h.marked n hn
  | false =>
    have hd' : st'.dirty k = false := hs.dirty.trans hd
    refine ⟨fun h => by simp [hd'] at h, fun _ => ?_, fun n hn => ?_⟩
    · rw [hs.clean k hd]; exact h.tidy hd
    · rw [failing_clean hd'] at hn; cases hn

/-- Taking other records' mutations off the queue keeps the invariant of a record. -/
theorem replayAt_relieved (hwf : Wf e st) (h : ReplayAt st k) {rejections : List Rejection}
    {ns : List ℕ} (hoff : ∀ q ∈ st.queue,
      (q.ordinal ∈ (rejectedOf st rejections).keys ∨ q.ordinal ∈ ns) →
      ∀ op ∈ q.mutation.allOps, op.key ≠ k) : ReplayAt (st.relieved rejections ns) k := by
  refine replayAt_untouched h (relieved_untouched hoff) (fun q hq hdiv hop => ?_)
    (hwf.sorted.imp fun h => ne_of_lt h)
  obtain ⟨op, hop, hk⟩ := hop
  have hkeep := fun hrem => hoff q hq hrem op hop hk
  rw [imp_false, not_or] at hkeep
  refine ⟨(q.forget (rejectedOf st rejections).keys).forget ns, ?_, rfl, hdiv⟩
  simp only [Store.relieved, deleteMutations_queue, List.mem_map, List.mem_filter]
  exact ⟨q.forget _, ⟨⟨q, ⟨hq, by simpa using hkeep.1⟩, rfl⟩, decide_eq_true hkeep.2⟩, rfl⟩

/-- Removing rejected mutations establishes the invariant of what they touched. -/
theorem replayAt_removeRejected (hu : NoUnique e) (hwf : Wf e st) (h : ∀ k, ReplayAt st k)
    {rejections : List Rejection} (hr : e.removeRejected st rejections = .ok st') (k : RecordKey) :
    ReplayAt st' k := by
  simp only [Engine.removeRejected, markRejected_eq hwf, Except.ok_bind, Except.bind_eq_ok,
    Except.pure_eq_ok] at hr
  obtain ⟨⟨reports, st1⟩, hreb, rfl⟩ := hr
  refine replayAt_rebuildHeld hu (wf_marked hwf) (fun k hk => marked_named hwf hk) (fun k hk => ?_)
    hreb k
  have hoff : ∀ q ∈ st.queue, q.ordinal ∈ (rejectedOf st rejections).keys →
      ∀ op ∈ q.mutation.allOps, op.key ≠ k := fun q hq hrej op hop heq =>
    hk (mem_marked.mpr ⟨q, hq, mem_rejected_keys.mp hrej, op, hop, heq⟩)
  refine replayAt_untouched (h k)
    (untouched_trans (untouched_deleteMutations hoff) (untouched_of_eq rfl rfl rfl))
    (fun q hq hdiv hop => ?_) (hwf.sorted.imp fun h => ne_of_lt h)
  obtain ⟨op, hop, hopk⟩ := hop
  refine ⟨q.forget (rejectedOf st rejections).keys, ?_, rfl, hdiv⟩
  refine List.mem_map_of_mem (List.mem_filter.mpr ⟨hq, ?_⟩)
  simpa using fun hrem => hoff q hq hrem op hop hopk

/-- Completing a push keeps the invariant of every record. -/
theorem replayAt_complete (hu : NoUnique e) (hwf : Wf e st) (h : ∀ k, ReplayAt st k) {push : ℕ}
    {receipt : PushReceipt} {report : ApplyReport}
    (hc : e.complete st push receipt = .ok (report, st')) (k : RecordKey) : ReplayAt st' k := by
  obtain ⟨covered, wireRows, mid, affected, reports, fin, hcomp, -, rfl⟩ :=
    (complete_eq_ok hwf).mp hc
  have hset := settles_of_completes hwf hcomp.settled
  have hst := stages_all receipt.records affected hset.wf
  obtain ⟨b, hb⟩ := hset.frame
  refine @replayAt_of_eq fin _ _ ?_ rfl rfl rfl
  refine replayAt_rebuildHeld hu (wf_relieved hst.wf)
    (fun k hk => completes_named hwf receipt hset hk) (fun k hk => ?_) hcomp.rebuilt k
  have hstaged : k ∉ (e.stageAll mid affected receipt.records).2.1 := fun hm =>
    hk (mem_holdAll.mpr (Or.inl hm))
  have hmid : ReplayAt mid k := by
    have hun : Untouched st mid k :=
      ⟨by rw [hb], hset.before k fun hm => hstaged (hst.grows k hm), by rw [hb]; rfl⟩
    exact replayAt_untouched (h k) hun (fun q hq hdiv _ => ⟨q, by rw [hb]; exact hq, rfl, hdiv⟩)
      (hwf.sorted.imp fun h => ne_of_lt h)
  exact replayAt_relieved hst.wf (replayAt_stages hst hstaged hmid) (completes_spares hwf hset hk)

end Deliver

section Act
variable {e : Engine} {c : Client}

/-- No operation the enqueued mutation would queue touches a record of a diverged mutation. -/
def SparesDiverged (e : Engine) (st : Store) (m : Mutation) : Prop :=
  ∀ n st', e.enqueue st m = .ok (n, st') → ∀ q ∈ st'.queue, q.ordinal = n →
    ∀ op ∈ q.mutation.allOps, ∀ p ∈ st.queue, p.diverged = true → ∀ o ∈ p.mutation.allOps,
      o.key ≠ op.key

/-- A call enqueues no mutation that touches a record of a diverged one. -/
def Spares (e : Engine) (c : Client) : ClientAction → Prop
  | .enqueue m => SparesDiverged e c.store m
  | _ => True

/-- A call enqueues only a mutation whose every operation is performed soundly. -/
def EnqueuesSound (e : Engine) (c : Client) : ClientAction → Prop
  | .enqueue m => Sound e c.store m
  | _ => True

/-- Every call keeps the invariant of every record. -/
theorem replayAt_act (hu : NoUnique e) (hwf : Wf e c.store) (h : ∀ k, ReplayAt c.store k)
    (a : ClientAction) (hspares : Spares e c a) (hsound : EnqueuesSound e c a) :
    ∀ k, ReplayAt (c.act e a).store k := by
  have hpage : ∀ {page : PullPage} {report : ApplyReport} {st' : Store},
      e.applyCurrentPage c.store page = .ok (report, st') → ∀ k, ReplayAt st' k := by
    intro page report st' ha
    obtain ⟨moving, -, ⟨-, -, rfl⟩ | ⟨-, -, report1, st1, hr, -, rfl⟩⟩ := applyCurrentPage_eq_ok.mp ha
    · exact h
    · obtain ⟨s, hs⟩ := setCursors_frame moving.entries st1
      obtain ⟨reports, hreb, -⟩ := applyRecords_eq_ok.mp hr
      have hst := stages_all page.changes [] hwf
      rw [Store.setCursors, hs]
      exact fun k => replayAt_of_eq (replayAt_rebuildHeld hu hst.wf
        (fun k hk => (hst.new k hk).elim (absurd · List.not_mem_nil) fun h => h.1)
        (fun k hk => replayAt_stages hst hk (h k)) hreb k) rfl rfl rfl
  cases a with
  | enqueue m =>
    refine commit_keeps (P := fun st => ∀ k, ReplayAt st k) h fun n st' hr k => ?_
    obtain ⟨hn, done, effects, q, mid, hq⟩ := enqueue_spec hwf hr
    refine replayAt_enqueue hwf h hsound hq fun p hp hdiv o ho op hop => ?_
    exact hspares n st' hr q (by simp [hq.result]) (hq.queued.1.trans hn.symm) op hop p hp hdiv o ho
  | freeze maxBytes =>
    refine commit_keeps (P := fun st => ∀ k, ReplayAt st k) h fun _ st hr => ?_
    rcases freeze_spec hr with rfl | ⟨-, selected, -, -, -, rfl, -⟩
    · exact h
    · refine fun k => replayAt_map (h k) (fun q => ?_) rfl rfl rfl
      split <;> exact ⟨rfl, rfl, rfl⟩
  | acknowledge sequence receipt =>
    simp only [Client.act, Client.acknowledge]
    split
    · exact h
    · refine commit_keeps (P := fun st => ∀ k, ReplayAt st k) h fun _ _ hr => ?_
      obtain ⟨-, -, ⟨-, -, rfl⟩ | ⟨-, -, hc⟩⟩ := acknowledge_eq_ok.mp hr
      · exact h
      · exact replayAt_complete hu hwf h hc
  | applyPage page =>
    rcases applyPage_store e c page with heq | ⟨report, ha⟩
    · simp only [Client.act, heq]; exact h
    · exact hpage ha
  | receive page request =>
    rcases receive_store e c page request with
      heq | ⟨report, ha⟩
    · simp only [Client.act, heq]; exact h
    · exact hpage ha
  | drop ordinal =>
    refine commit_keeps (P := fun st => ∀ k, ReplayAt st k) h fun a st hr => ?_
    obtain ⟨st1, hd, heq⟩ := Except.map_eq_ok.mp hr
    obtain ⟨-, rfl⟩ := Prod.mk.inj heq
    unfold Engine.dropMutation at hd
    split at hd
    · cases hd; exact h
    · split at hd
      · cases hd
      · exact replayAt_removeRejected hu hwf h hd
  | setChannels changes =>
    obtain ⟨s, hs⟩ := setChannels_frame changes (c.store, [])
    simp only [Client.act, Client.setChannels, hs]
    exact fun k => replayAt_of_eq (h k) rfl rfl rfl
  | pull =>
    simp only [Client.act, Client.downlinkRequest]
    split <;> exact h
  | resolve key =>
    exact fun k => replayAt_map (h k) (f := fun q => { q with mutation := { q.mutation with
      prerequisites := q.mutation.prerequisites.filter (· ≠ key) } })
      (fun q => ⟨rfl, rfl, rfl⟩) rfl rfl rfl
  | restart => exact h

/-- The replay invariant of one record: its visible row is its before image with its queued
    operations replayed, or the before image when the replay fails; without queued operations it has
    no before image. -/
def Replayed (st : Store) (k : RecordKey) : Prop :=
  (st.dirty k = true → st.main.lookup k = st.shown k) ∧
    (st.dirty k = false → st.before.lookup k = none)

instance (st : Store) (k : RecordKey) : Decidable (Replayed st k) :=
  inferInstanceAs (Decidable ((_ → _) ∧ (_ → _)))

/-- In every run whose enqueued mutations are performed soundly and spare the records of diverged
    mutations, every record keeps the replay invariant. -/
theorem replayed_run (e : Engine) (hu : NoUnique e) (clientId : String) (actions : List ClientAction)
    (h : Machine.Along (Client.act e) (fun c a => Spares e c a ∧ EnqueuesSound e c a)
      (Client.opened clientId) actions) (k : RecordKey) :
    Replayed (Machine.run (Client.act e) (Client.opened clientId) actions).store k := by
  have hinv := Machine.run_keeps (P := fun c : Client => Wf e c.store ∧ ∀ k, ReplayAt c.store k)
    (fun c a hc ha => ⟨wf_act hc.1 a, replayAt_act hu hc.1 hc.2 a ha.1 ha.2⟩)
    ⟨wf_opened clientId, fun k => ⟨by simp [Client.opened, Store.dirty], by
      intro _; simp [Client.opened], by simp [Client.opened, Store.failing, Store.opsFor, replay]⟩⟩ h
  exact ⟨(hinv.2 k).shown, (hinv.2 k).tidy⟩

end Act

/-! ### A sample engine -/

namespace Sample

/-- Boxes, and items that name the box they are in. -/
def schema (onDelete : String) (unique : List (List String)) : Schema where
  models := [
    { name := "Box", identity := ["id"], fields := [⟨"id", .scalar .string, false, none⟩] },
    { name := "Item", identity := ["id"], unique
      fields := [⟨"id", .scalar .string, false, none⟩, ⟨"box", .scalar .string, true, none⟩]
      relations := [⟨"parent", "Box", ["box"], ["id"], onDelete⟩] }]

/-- Items stay when their box is deleted. -/
def loose : Engine := ⟨codecs, schema "none" [], by decide +kernel⟩

def identity (id : String) : Value := .ofEntries [("id", .str id)]

def item (id : String) : RecordKey := ⟨"Item", identity id⟩

def create (id box : String) : Operation :=
  ⟨"Item", .create, identity id, some (.ofEntries [("box", .str box)])⟩

def move (id box : String) : Operation :=
  ⟨"Item", .update, identity id, some (.ofEntries [("box", .str box)])⟩

end Sample

section Act
open Sample

/-- A mutation of one operation is sound: nothing of it is visible yet. -/
theorem sound_single {e : Engine} {st : Store} {name : String} {op : Operation} :
    Sound e st { name, operations := [op] } := by
  refine ⟨fun op' _ => ⟨fun h => h.2.2 h.2.1, fun _ _ _ _ h => h.2.2 h.2.1, fun _ x hx => ?_⟩,
    fun _ _ => trivial⟩
  cases hx

theorem spares_of_undiverged {e : Engine} {c : Client} {a : ClientAction}
    (h : ∀ p ∈ c.store.queue, p.diverged = false) : Spares e c a := by
  cases a with
  | enqueue m => exact fun _ _ _ _ _ _ _ _ p hp hd => by simp [h p hp] at hd
  | _ => trivial

/-- Creating an item and moving it in a second mutation. -/
theorem replayed_run_loose : Replayed (Machine.run (Client.act loose) (Client.opened "me")
    [.enqueue { name := "put", operations := [create "a" "x"] }, .freeze 1000,
      .enqueue { name := "move", operations := [move "a" "y"] }]).store (item "a") := by
  refine replayed_run loose (by decide +kernel) "me" _ ?_ (item "a")
  exact ⟨⟨spares_of_undiverged (by decide), sound_single⟩, ⟨trivial, trivial⟩,
    ⟨spares_of_undiverged (by decide +kernel), sound_single⟩, trivial⟩

/-- Creating an item and moving it in one mutation sets the created row aside as if the server had
    it, over which the create cannot replay. -/
theorem not_replayed_run : ¬∀ (e : Engine), NoUnique e → ∀ clientId actions,
    Machine.Along (Client.act e) (Spares e) (Client.opened clientId) actions → ∀ k,
      Replayed (Machine.run (Client.act e) (Client.opened clientId) actions).store k := by
  intro h
  have hbad := h loose (by decide +kernel) "me"
    [.enqueue { name := "put", operations := [create "a" "x", move "a" "y"] }]
    ⟨spares_of_undiverged (by decide), trivial⟩ (item "a")
  revert hbad
  decide +kernel

end Act

end AheadSync
