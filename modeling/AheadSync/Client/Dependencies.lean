import Mathlib.Data.List.ReduceOption
import Mathlib.Logic.Relation
import AheadSync.Core.Valid
import AheadSync.Client.Host
import AheadSync.Client.Replay

/-! The dependencies of a new mutation. They are on earlier queued mutations only, so the queue can
    always be worked off in order; and none is missing that a created or deleted record calls for,
    as the records stand once the whole mutation is performed. -/

namespace AheadSync

/-- A queued mutation waits for another. -/
def DependsOn (st : Store) (a b : ℕ) : Prop :=
  ∃ q ∈ st.queue, q.ordinal = a ∧
    b ∈ q.mutation.lifecycleDependencies ++ q.mutation.sequenceDependencies

/-- How a record stands once a mutation is performed: its visible row; where it has none, the truth
    that earlier mutations hold. -/
def Store.standing (st st' : Store) (key : RecordKey) : Option Value :=
  (st'.main.lookup key).or (if st.dirty key then st.before.lookup key else none)

/-- A row of a record names another through a declared relation: its fields hold an identity. -/
def RefersTo (e : Engine) (key : RecordKey) (row : Value) (target : RecordKey) : Prop :=
  ∃ model, e.schema.model key.model = .ok model ∧ ∃ r ∈ model.relations,
    (∀ lt ∈ r.fields.zip r.targetFields, (row.index lt.1).isNull = false) ∧
    e.recordKey r.target
      (.ofEntries ((r.fields.zip r.targetFields).map fun (l, t) => (t, row.index l))) = .ok target

section Dependencies
variable {e : Engine} {st st' : Store} {m : Mutation}

/-- Performing a mutation leaves the truth alone that earlier mutations hold. -/
theorem performing_held (hwf : Wf e st) {ops : List Operation}
    {out : Store × List Operation × List Operation}
    (ho : ops.foldlM e.performOp (st, [], []) = .ok out) {k : RecordKey} (hd : st.dirty k = true) :
    out.1.before.lookup k = st.before.lookup k := by
  have hkept : Wf e out.1 ∧ out.1.queue = st.queue ∧ out.1.before.lookup k = st.before.lookup k := by
    refine List.foldlM_ok_induction (fun s : Store × List Operation × List Operation =>
      Wf e s.1 ∧ s.1.queue = st.queue ∧ s.1.before.lookup k = st.before.lookup k)
      (fun s op t _ hs ht => ?_) ⟨hwf, rfl, rfl⟩ ho
    obtain ⟨op', found, row, hp, rfl⟩ := (performOp_eq_ok hs.1).mp ht
    obtain ⟨hnd, hnot, -⟩ := cascadeOf_spec (wf_holdTruth hs.1 _) hp.cascade
    refine ⟨wf_performed hs.1 hp, performed_queue.trans hs.2.1, ?_⟩
    rw [performed_before hnd hnot, dirty_of_queue hs.2.1, hd]
    simpa using hs.2.2
  exact hkept.2.2

/-- A relation is found by its name, so the reference it names is resolved. -/
theorem reference_of_refersTo {key target : RecordKey} {row : Value}
    (hrow : (st.main.lookup key).or (st.truth key) = some row) (h : RefersTo e key row target) :
    ∃ model, e.schema.model key.model = .ok model ∧
      ∃ r ∈ model.relations, e.reference st key r.name = .ok (some target) := by
  obtain ⟨model, hmodel, r, hr, hset, hkey⟩ := h
  refine ⟨model, hmodel, r, hr, ?_⟩
  have hvalid := Schema.validate_eq_ok.mp e.valid
  have hnodup := (hvalid.constraints model (model_mem hmodel)).2.1
  have hfind : model.relations.find? (·.name = r.name) = some r := List.find?_key hnodup hr
  have hany : ((r.fields.zip r.targetFields).map fun (l, t) => (t, row.index l)).any
      (·.2.isNull) = false := by
    refine List.any_eq_false.mpr fun x hx => ?_
    obtain ⟨lt, hlt, rfl⟩ := List.mem_map.mp hx
    simp [hset lt hlt]
  simp only [Engine.reference, hmodel, Except.ok_bind, hfind, required, hrow, hany, hkey]
  rfl

/-- Every earlier creation of a record that an operation references is found, and the deletion of the
    record it creates. -/
theorem lifecycleOf_found (hwf : Wf e st) {op : Operation} (hop : OpOk e op) {ds : List ℕ}
    (h : e.lifecycleOf st op = .ok ds) {prior : Queued} (hprior : prior ∈ st.queue)
    {previous : Operation} (hprevious : previous ∈ prior.mutation.operations)
    (hcase : (previous.op = .create ∧ (previous.key = op.key ∨ ∃ row,
        (st.main.lookup op.key).or (st.truth op.key) = some row ∧ RefersTo e op.key row previous.key)) ∨
      (previous.op = .delete ∧ op.op = .create ∧ previous.key = op.key)) :
    prior.ordinal ∈ ds := by
  simp only [Engine.lifecycleOf, hop.key, Except.ok_bind, Except.bind_eq_ok, Except.pure_eq_ok] at h
  obtain ⟨model, hmodel, targets, htargets, found, hfound, rfl⟩ := h
  obtain ⟨l1, hl1, hp⟩ := List.forall₂_mem_left (List.mapM_eq_ok_iff.mp hfound) hprior
  obtain ⟨l2, hl2, hprev⟩ := List.forall₂_mem_left (List.mapM_eq_ok_iff.mp hp) hprevious
  have hall : previous ∈ prior.mutation.allOps :=
    List.mem_append_left _ (List.mem_append_left _ hprevious)
  rw [(hwf.ops prior hprior previous hall).key] at hprev
  have hif : (previous.op = .create ∧ previous.key ∈ op.key :: targets.reduceOption) ∨
      (previous.op = .delete ∧ op.op = .create ∧ previous.key = op.key) := by
    refine hcase.imp_left (And.imp_right fun href => ?_)
    rcases href with heq | ⟨row, hrow, hrefers⟩
    · exact heq ▸ List.mem_cons_self ..
    · obtain ⟨model', hmodel', r, hr, href⟩ := reference_of_refersTo hrow hrefers
      obtain rfl := Except.ok.inj (hmodel'.symm.trans hmodel)
      obtain ⟨target, htarget, ht⟩ := List.forall₂_mem_left (List.mapM_eq_ok_iff.mp htargets) hr
      obtain rfl := Except.ok.inj (href.symm.trans ht)
      exact List.mem_cons_of_mem _ (List.reduceOption_mem_iff.mpr htarget)
  rw [Except.ok_bind, if_pos hif] at hprev
  obtain rfl := Except.ok.inj hprev
  exact List.mem_flatten.mpr ⟨_, List.mem_flatten.mpr ⟨l1, hl1, hl2⟩, List.mem_singleton.mpr rfl⟩

/-- A mutation waits for smaller ordinals only. -/
theorem dependsOn_lt (hwf : Wf e st) {a b : ℕ} (h : DependsOn st a b) : b < a := by
  obtain ⟨q, hq, rfl, hb⟩ := h
  exact hwf.deps q hq b hb

/-- No mutation waits for itself through any number of others. -/
theorem not_dependsOn_self (hwf : Wf e st) (a : ℕ) : ¬Relation.TransGen (DependsOn st) a a := by
  have hlt : ∀ {a b}, Relation.TransGen (DependsOn st) a b → b < a := by
    intro a b h
    induction h with
    | single h => exact dependsOn_lt hwf h
    | tail _ h ih => exact (dependsOn_lt hwf h).trans ih
  exact fun h => lt_irrefl a (hlt h)

/-- A mutation that is enqueued depends on smaller ordinals in the queue only, and no queued mutations
    wait for each other; it depends on each earlier creation of a record that one of its operations
    targets or whose record refers to it, and on each earlier deletion of a record it creates. -/
theorem enqueue_dependencies (e : Engine) (c : Client) (hr : Host.Reaches e c) (m : Mutation) (n : ℕ)
    (st' : Store) (he : e.enqueue c.store m = .ok (n, st')) :
    ∃ q, st'.queue = c.store.queue ++ [q] ∧ q.ordinal = n ∧
      (∀ d ∈ q.mutation.lifecycleDependencies ++ q.mutation.sequenceDependencies,
        d < n ∧ ∃ p ∈ st'.queue, p.ordinal = d) ∧
      (∀ a, ¬Relation.TransGen (DependsOn st') a a) ∧
      ∀ op ∈ q.mutation.operations, ∀ prior ∈ c.store.queue,
        ∀ previous ∈ prior.mutation.operations,
          (previous.op = .create → (previous.key = op.key ∨ ∃ row,
              c.store.standing st' op.key = some row ∧ RefersTo e op.key row previous.key) →
            prior.ordinal ∈ q.mutation.lifecycleDependencies) ∧
          (previous.op = .delete → op.op = .create → previous.key = op.key →
            prior.ordinal ∈ q.mutation.lifecycleDependencies) := by
  have hwf := wf_reaches hr
  obtain ⟨rfl, done, effects, q, mid, hq⟩ := enqueue_spec hwf he
  have hperf := enqueues_performing hwf hq
  have hqueue : st'.queue = c.store.queue ++ [q] := by rw [hq.result]
  refine ⟨q, hqueue, hq.queued.1, fun d hd => ?_, not_dependsOn_self (wf_enqueue hwf he),
    fun op hop prior hprior previous hprevious => ?_⟩
  · obtain ⟨p, hp, rfl⟩ := hq.deps d hd
    exact ⟨hwf.fresh p hp, p, by rw [hqueue]; exact List.mem_append_left _ hp, rfl⟩
  · obtain ⟨ds, hds, hmem⟩ := hq.derived op hop
    have hok : OpOk e op := by
      refine hperf.ok op (List.mem_append_left _ ?_)
      rw [hq.operations] at hop
      exact List.mem_of_mem_take hop
    have hprior' : prior ∈ mid.queue := by rw [show mid.queue = _ from hperf.queue]; exact hprior
    have hstanding : c.store.standing st' op.key =
        (mid.main.lookup op.key).or (mid.truth op.key) := by
      have hdirty : mid.dirty op.key = c.store.dirty op.key := dirty_of_queue hperf.queue
      have hmain : st'.main = mid.main := by rw [hq.result]
      rw [Store.standing, Store.truth, hmain, hdirty]
      cases hd : c.store.dirty op.key with
      | true => rw [if_pos rfl, if_pos rfl, performing_held hwf hq.performs hd]
      | false => cases mid.main.lookup op.key <;> rfl
    have hfound := lifecycleOf_found hperf.wf hok hds hprior' hprevious
    rw [← hstanding] at hfound
    exact ⟨fun hc href => hmem _ (hfound (Or.inl ⟨hc, href⟩)),
      fun hdel hc hkey => hmem _ (hfound (Or.inr ⟨hdel, hc, hkey⟩))⟩

end Dependencies

section Sample
open Sample

def Sample.box : Operation := ⟨"Box", .create, identity "x", some (.ofEntries [])⟩

/-- A client that created a box and did not send it yet. -/
def Sample.boxing : List ClientAction := [.enqueue { name := "box", operations := [box] }]

def Sample.putting : Except String (ℕ × Store) :=
  loose.enqueue (Machine.run (Client.act loose) (Client.opened "me") boxing).store
    { name := "put", operations := [create "a" "x"] }

/-- An item that is put in it waits for it. -/
theorem enqueue_dependencies_loose : ∃ n st', putting = .ok (n, st') ∧
    ∃ q ∈ st'.queue, q.ordinal = n ∧ 1 ∈ q.mutation.lifecycleDependencies := by
  have hok : putting.isOk = true := by decide +kernel
  obtain ⟨⟨n, st'⟩, he⟩ := Except.exists_ok hok
  have hout : putting.toOption.map (fun out =>
      (out.2.queue.map (·.mutation.operations), out.2.main.lookup (item "a"))) =
      some ([[box], [create "a" "x"]],
        some (.ofEntries [("box", .str "x"), ("id", .str "a")])) := by decide +kernel
  obtain ⟨prior, hprior, hord, hbox⟩ : ∃ prior ∈ (Machine.run (Client.act loose)
      (Client.opened "me") boxing).store.queue, prior.ordinal = 1 ∧
      box ∈ prior.mutation.operations := by decide +kernel
  obtain ⟨q, hqueue, hn, -, -, hfound⟩ :=
    enqueue_dependencies loose _ (reaches_of_reachable ⟨"me", boxing, rfl⟩) _ n st' he
  rw [he] at hout
  obtain ⟨hops, hrow⟩ := Prod.mk.inj (Option.some.inj hout)
  have hop : create "a" "x" ∈ q.mutation.operations := by
    rw [hqueue, List.map_append] at hops
    have hlast : [q.mutation.operations] = [[create "a" "x"]] :=
      List.append_inj_right' (show _ ++ [q.mutation.operations] = [[box]] ++ _ from hops) rfl
    rw [show q.mutation.operations = [create "a" "x"] from List.singleton_inj.mp hlast]
    exact List.mem_singleton.mpr rfl
  refine ⟨n, st', he, q, by rw [hqueue]; exact List.mem_append_right _ (List.mem_singleton.mpr rfl),
    hn, hord ▸ (hfound _ hop prior hprior box hbox).1 rfl (Or.inr ?_)⟩
  refine ⟨_, congrArg (Option.or · _) hrow, ?_⟩
  exact ⟨_, rfl, ⟨"parent", "Box", ["box"], ["id"], "none"⟩, by decide +kernel, by decide +kernel,
    by decide +kernel⟩

end Sample

end AheadSync
