import AheadSync.Client.Replay
import AheadSync.Client.Frozen

/-! What a delivery tells of the mutations it leaves queued. A record's visible row should be its truth
    with its queued operations replayed; where a delivery cannot show that, the mutations concerned
    are marked and reported. Rebuilding does so unless it is refused the replayed row, extends a
    pending delete, or stops at one of several mutations. -/

namespace AheadSync

/-- A record shows the complete replay of its queued operations over its truth. -/
def FullyShown (st : Store) (k : RecordKey) : Prop :=
  replay (st.truth k) (st.opsFor k) = .ok (st.main.lookup k)

/-- A queued mutation carries the mark. -/
def Marked (st : Store) (n : ℕ) : Prop := ∃ q ∈ st.queue, q.ordinal = n ∧ q.diverged = true

/-- A delivery names a mutation in a report. -/
def Reported (reports : List Report) (n : ℕ) : Prop :=
  ∃ r ∈ reports, r.kind = .diverged ∧ r.ordinal = some n

instance (st : Store) (n : ℕ) : Decidable (Marked st n) :=
  inferInstanceAs (Decidable (∃ q ∈ st.queue, _))

instance (reports : List Report) (n : ℕ) : Decidable (Reported reports n) :=
  inferInstanceAs (Decidable (∃ r ∈ reports, _))

/-- A record that does not show its complete replay is one whose mutations all carry the mark. -/
def Told (st : Store) (k : RecordKey) : Prop :=
  FullyShown st k ∨ ∀ qo ∈ st.opsFor k, Marked st qo.ordinal

/-- Nothing of a delivery is silent. A mutation still queued that touches a record not fully shown, or
    that the delivery marked, is reported or was marked before; and what became visible is fully
    shown or reported. -/
structure Spoken (st st' : Store) (reports : List Report) : Prop where
  queued : ∀ q ∈ st'.queue, ((∃ op ∈ q.mutation.allOps, ¬FullyShown st' op.key) ∨
    (q.diverged = true ∧ ¬Marked st q.ordinal)) → Reported reports q.ordinal ∨ Marked st q.ordinal
  visible : ∀ k, st'.main.lookup k ≠ st.main.lookup k → FullyShown st' k ∨
    ∃ q ∈ st'.queue, (∃ op ∈ q.mutation.allOps, op.key = k) ∧ Reported reports q.ordinal

/-- Rebuilding a held record: the visible table takes its row, and a replay that fails leaves no
    unmarked mutation beside the one it fails at. -/
def HeldTold (e : Engine) (st : Store) (k : RecordKey) : Prop :=
  ¬Duplicate e st k (st.shown k) ∧
    ∀ n ∈ st.failing k, ∀ qo ∈ st.opsFor k, qo.ordinal = n ∨ Marked st qo.ordinal

/-- Extending a queued delete to a record it does not cover yet: the record replays, and the visible
    table takes its row. -/
def ExtendTold (e : Engine) (q : Queued) (st : Store) (child : RecordKey) : Prop :=
  q.mutation.effects.any (·.key = child) = false →
    (withEffect (st.holdTruth child) q.ordinal child).failing child = none ∧
      ¬Duplicate e (withEffect (st.holdTruth child) q.ordinal child) child
        ((withEffect (st.holdTruth child) q.ordinal child).shown child)

/-- The same of one delete, whatever it is extended to. -/
def ExtendOpTold (e : Engine) (q : Queued) (st : Store) (op : Operation) : Prop :=
  ∀ found, e.descendants st op.key = .ok found →
    List.Guarded (e.extendDelete q) (ExtendTold e q) st found

/-- The same of every delete of a mutation. -/
def ExtendQueuedTold (e : Engine) (st : Store) (q : Queued) : Prop :=
  List.Guarded (e.extendOp q) (ExtendOpTold e q) st
    ((q.mutation.operations ++ q.mutation.companion).filter (·.op = .delete))

/-- Every rebuild that finishes a delivery meets its condition in the state it is made in. -/
structure FinishTold (e : Engine) (st : Store) (held : Held) : Prop where
  rebuilds : List.Guarded e.rebuildStep (fun acc k => HeldTold e acc.2 k) ([], st) held
  refreshes : ∀ reports st', held.foldlM e.rebuildStep ([], st) = .ok (reports, st') →
    List.Guarded e.extendQueued (ExtendQueuedTold e) st' st'.queue

section Told
variable {e : Engine} {st st' : Store} {k child : RecordKey} {n : ℕ}

theorem fullyShown_clean (h : st.dirty k = false) : FullyShown st k := by
  rw [FullyShown, Store.truth, h, dirty_eq_false.mp h]
  rfl

theorem fullyShown_untouched (hu : Untouched st st' k) (h : FullyShown st k) : FullyShown st' k := by
  rw [FullyShown, hu.truth, hu.ops, hu.main]
  exact h

theorem marked_extends (hx : Extends st st') (h : Marked st n) : Marked st' n := by
  obtain ⟨q, hq, rfl, hdiv⟩ := h
  obtain ⟨q', hq', hg⟩ := List.forall₂_mem_left hx.queue hq
  exact ⟨q', hq', hg.ordinal, hg.diverged hdiv⟩

theorem marked_of_queue (hq : st'.queue = st.queue) : Marked st' n ↔ Marked st n := by
  rw [Marked, hq]
  rfl

/-- What is told of a record left alone stays told while marks stay. -/
theorem told_untouched (h : Told st k) (hu : Untouched st st' k)
    (hm : ∀ qo ∈ st.opsFor k, Marked st qo.ordinal → Marked st' qo.ordinal) : Told st' k := by
  rcases h with h | h
  · exact Or.inl (fullyShown_untouched hu h)
  · refine Or.inr fun qo hqo => ?_
    rw [hu.ops] at hqo
    exact hm qo hqo (h qo hqo)

theorem told_extends (h : Told st k) (hu : Untouched st st' k) (hx : Extends st st') : Told st' k :=
  told_untouched h hu fun _ _ => marked_extends hx

/-- The marks after a rebuild: those there were, and that of the mutation the replay fails at. -/
theorem marked_rebuilt {row : Option Value} : Marked (st.rebuilt k row) n ↔
    Marked st n ∨ (st.failing k = some n ∧ ∃ q ∈ st.queue, q.ordinal = n) := by
  simp only [Marked, rebuilt_queue, List.mem_map]
  constructor
  · rintro ⟨_, ⟨q, hq, rfl⟩, hord, hdiv⟩
    split at hord
    · rename_i hfail
      exact Or.inr ⟨by rw [← hfail, ← hord], q, hq, hord⟩
    · rename_i hfail
      rw [if_neg hfail] at hdiv
      exact Or.inl ⟨q, hq, hord, hdiv⟩
  · rintro (⟨q, hq, rfl, hdiv⟩ | ⟨hfail, q, hq, rfl⟩)
    · refine ⟨_, ⟨q, hq, rfl⟩, ?_, ?_⟩
      · split <;> rfl
      · split
        · rfl
        · exact hdiv
    · exact ⟨_, ⟨q, hq, rfl⟩, by rw [if_pos hfail.symm], by rw [if_pos hfail.symm]⟩

/-- A rebuild whose row is taken shows it. -/
theorem rebuild_taken (hwf : Wf e st) (hk : Named e k) (hd : ¬Duplicate e st k (st.shown k))
    {failed : Option ℕ} (hr : e.rebuild st k = .ok (failed, st')) :
    failed = st.failing k ∧ st' = st.rebuilt k (st.shown k) := by
  obtain ⟨hfail, row, ⟨rfl, -⟩ | ⟨-, hdup, -⟩, rfl⟩ := (rebuild_eq_ok hwf hk).mp hr
  · exact ⟨hfail, rfl⟩
  · exact absurd hdup hd

/-- Where the replay does not fail, the rebuilt record is fully shown. -/
theorem rebuilt_fullyShown (h : st.failing k = none) :
    FullyShown (st.rebuilt k (st.shown k)) k := by
  cases hd : st.dirty k with
  | false => exact fullyShown_clean ((dirty_eq_of_opsFor rebuilt_opsFor).trans hd)
  | true =>
    have hops : st.opsFor k ≠ [] := fun h => by simp [dirty_eq_false.mpr h] at hd
    have hdirty : (st.rebuilt k (st.shown k)).dirty k = true :=
      (dirty_eq_of_opsFor rebuilt_opsFor).trans hd
    rw [FullyShown, Store.truth, if_pos hdirty, rebuilt_opsFor, rebuilt_before, if_neg hops,
      rebuilt_main]
    cases hr : replay (st.before.lookup k) (st.opsFor k) with
    | ok row => simp [Store.shown, hr]
    | error n => simp [Store.failing, hr] at h

/-- Where it fails, every mutation that touches the record is marked. -/
theorem rebuilt_told (h : HeldTold e st k) : Told (st.rebuilt k (st.shown k)) k := by
  cases hfail : st.failing k with
  | none => exact Or.inl (rebuilt_fullyShown hfail)
  | some n =>
    refine Or.inr fun qo hqo => ?_
    rw [rebuilt_opsFor] at hqo
    obtain ⟨q, hq, hord, -⟩ := mem_opsFor.mp hqo
    rcases h.2 n hfail qo hqo with rfl | hm
    · exact marked_rebuilt.mpr (Or.inr ⟨hfail, q, hq, hord⟩)
    · exact marked_rebuilt.mpr (Or.inl hm)

end Told

section Rebuild
variable {e : Engine} {st st' : Store} {k child : RecordKey} {n : ℕ} {held : Held}

theorem reported_append {reports more : List Report} (h : Reported reports n) :
    Reported (reports ++ more) n := by
  obtain ⟨r, hr, hkind⟩ := h
  exact ⟨r, List.mem_append_left _ hr, hkind⟩

/-- What rebuilding one held record tells. -/
theorem rebuildStep_told {acc out : List Report × Store} (hwf : Wf e acc.2) (hk : Named e k)
    (hg : HeldTold e acc.2 k) (hs : e.rebuildStep acc k = .ok out) :
    Told out.2 k ∧ (∀ n, Marked out.2 n → Reported out.1 n ∨ Marked acc.2 n) ∧
      (FullyShown out.2 k ∨ ∃ qo ∈ out.2.opsFor k, Reported out.1 qo.ordinal) ∧
      ∀ n, Reported acc.1 n → Reported out.1 n := by
  simp only [Engine.rebuildStep, Except.bind_eq_ok, Except.pure_eq_ok] at hs
  obtain ⟨⟨failed, st1⟩, hr, rfl⟩ := hs
  obtain ⟨rfl, rfl⟩ := rebuild_taken hwf hk hg.1 hr
  have hnamed : ∀ n, acc.2.failing k = some n →
      Reported (acc.1 ++ ((acc.2.failing k).map fun ordinal =>
      ({ kind := .diverged, model := k.model, identity := k.identity,
         stamp := (acc.2.rebuilt k (acc.2.shown k)).recordStamp k,
         ordinal := some ordinal } : Report)).toList) n := fun n hn =>
    ⟨_, List.mem_append_right _ (by rw [hn]; exact List.mem_singleton_self _), rfl, rfl⟩
  refine ⟨rebuilt_told hg, fun n hn => ?_, ?_, fun n => reported_append⟩
  · rcases marked_rebuilt.mp hn with hm | ⟨hfail, -⟩
    · exact Or.inr hm
    · exact Or.inl (hnamed n hfail)
  · cases hfail : acc.2.failing k with
    | none => exact Or.inl (rebuilt_fullyShown hfail)
    | some n =>
      obtain ⟨q, hq, ho, op, hop, hk⟩ := failing_queued hfail
      refine Or.inr ⟨⟨n, op⟩, ?_, ?_⟩
      · rw [rebuilt_opsFor]
        exact mem_opsFor.mpr ⟨q, hq, ho, hop, hk⟩
      · rw [← hfail]
        exact hnamed n hfail

/-- Rebuilding the held records tells of each, when the others were told of before. -/
theorem rebuildFold_told : ∀ {held : Held} {acc out : List Report × Store}, Wf e acc.2 →
    (∀ k ∈ held, Named e k) →
    List.Guarded e.rebuildStep (fun acc k => HeldTold e acc.2 k) acc held →
    held.foldlM e.rebuildStep acc = .ok out → (∀ k, k ∉ held → Told acc.2 k) →
    (∀ k, Told out.2 k) ∧ (∀ n, Marked out.2 n → Reported out.1 n ∨ Marked acc.2 n) ∧
      (∀ k, FullyShown out.2 k ∨ (k ∉ held ∧ Untouched acc.2 out.2 k) ∨
        ∃ qo ∈ out.2.opsFor k, Reported out.1 qo.ordinal) ∧
      ∀ n, Reported acc.1 n → Reported out.1 n
  | [], acc, out, _, _, _, ho, htold => by
    obtain rfl : acc = out := by simpa using ho
    exact ⟨fun k => htold k List.not_mem_nil, fun n => Or.inr,
      fun k => Or.inr (Or.inl ⟨List.not_mem_nil, untouched_refl _ k⟩), fun n => id⟩
  | a :: held, acc, out, hwf, hn, hg, ho, htold => by
    simp only [List.foldlM_cons, Except.bind_eq_ok] at ho
    obtain ⟨mid, hmid, ho⟩ := ho
    have hna := hn a (List.mem_cons_self ..)
    obtain ⟨failed, hreb⟩ := rebuildStep_eq_ok hmid
    have hwf' := wf_rebuild hwf hna hreb
    obtain ⟨ha, hmarks, hshown, hkept⟩ := rebuildStep_told hwf hna hg.1 hmid
    have hother : ∀ k, k ≠ a → Untouched acc.2 mid.2 k := fun k hk =>
      untouched_rebuild hwf hna hreb hk
    have hmidTold : ∀ k, k ∉ held → Told mid.2 k := by
      intro k hk
      by_cases hka : k = a
      · exact hka ▸ ha
      · exact told_extends (htold k (by simp [hka, hk])) (hother k hka)
          (extends_rebuild hwf hna hreb)
    obtain ⟨htold', hmarks', hshown', hkept'⟩ := rebuildFold_told hwf'
      (fun k hk => hn k (List.mem_cons_of_mem _ hk)) (hg.2 mid hmid) ho hmidTold
    refine ⟨htold', fun n hm => ?_, fun k => ?_, fun n hr => hkept' n (hkept n hr)⟩
    · rcases hmarks' n hm with hr | hm
      · exact Or.inl hr
      · exact (hmarks n hm).imp_left (hkept' n)
    · rcases hshown' k with hfull | ⟨hk, hun⟩ | hrep
      · exact Or.inl hfull
      · by_cases hka : k = a
        · subst hka
          rcases hshown with hfull | ⟨qo, hqo, hr⟩
          · exact Or.inl (fullyShown_untouched hun hfull)
          · exact Or.inr (Or.inr ⟨qo, by rw [hun.ops]; exact hqo, hkept' _ hr⟩)
        · exact Or.inr (Or.inl ⟨by simp [hka, hk], untouched_trans (hother k hka) hun⟩)
      · exact Or.inr (Or.inr hrep)

/-- What a guarded refresh keeps: the invariant of one extension of a delete. -/
theorem refresh_guarded (P : Store → Prop)
    (step : ∀ s q child t, Canonical e child → P s → Wf e s → ExtendTold e q s child →
      e.extendDelete q s child = .ok t → P t)
    (hg : List.Guarded e.extendQueued (ExtendQueuedTold e) st st.queue) (h : Wf e st) (hP : P st)
    (hr : e.refreshPending st = .ok st') : P st' := by
  refine (List.foldlM_guarded_induction (fun s => P s ∧ Wf e s) ?_ hg ⟨hP, h⟩ hr).1
  intro s q t hq hs hguard hstep
  refine List.foldlM_guarded_induction (fun s => P s ∧ Wf e s) ?_ hguard hs hstep
  intro s op t hop hs hguard hstep
  have hok : OpOk e op := h.ops q hq op (List.mem_append_left _ (List.mem_of_mem_filter hop))
  simp only [Engine.extendOp, hok.key, Except.ok_bind, Except.bind_eq_ok] at hstep
  obtain ⟨found, hf, hfold⟩ := hstep
  refine List.foldlM_guarded_induction (fun s => P s ∧ Wf e s) ?_ (hguard found hf) hs hfold
  intro s' child t' hchild hs' hx hxs
  have hc := (mem_descendants hs.2 hf hchild).1
  exact ⟨step s' q child t' hc hs'.1 hs'.2 hx hxs, (wf_extendDelete hs'.2 hc hxs).1⟩

theorem marked_withEffect {m : ℕ} : Marked (withEffect st m child) n ↔ Marked st n := by
  simp only [Marked, withEffect, Store.modify, List.mem_map]
  constructor
  · rintro ⟨_, ⟨q, hq, rfl⟩, hord, hdiv⟩
    refine ⟨q, hq, ?_, ?_⟩
    · rw [← hord]; split <;> rfl
    · rw [← hdiv]; split <;> rfl
  · rintro ⟨q, hq, hord, hdiv⟩
    refine ⟨_, ⟨q, hq, rfl⟩, ?_, ?_⟩
    · rw [← hord]; split <;> rfl
    · rw [← hdiv]; split <;> rfl

/-- Extending a delete shows the record it is extended to, leaves the others and marks nothing. -/
theorem extendDelete_told (hwf : Wf e st) (hc : Canonical e child) {q : Queued}
    (hg : ExtendTold e q st child) (hx : e.extendDelete q st child = .ok st') :
    (∀ k, FullyShown st' k ∨ Untouched st st' k) ∧ ∀ n, Marked st' n → Marked st n := by
  rcases (extendDelete_eq_ok hc).mp hx with ⟨-, rfl⟩ | ⟨hany, failed, hr⟩
  · exact ⟨fun k => Or.inr (untouched_refl _ k), fun n => id⟩
  · obtain ⟨hfail, hdup⟩ := hg hany
    have hw := wf_withEffect (n := q.ordinal) (wf_holdTruth hwf child) hc
    obtain ⟨-, rfl⟩ := rebuild_taken hw (named_of_canonical hc) hdup hr
    refine ⟨fun k => ?_, fun n hn => ?_⟩
    · by_cases hk : k = child
      · subst hk
        exact Or.inl (rebuilt_fullyShown hfail)
      · exact Or.inr (untouched_extendDelete hwf hc hx hk)
    · rcases marked_rebuilt.mp hn with hm | ⟨hsome, -⟩
      · exact (marked_of_queue holdTruth_queue).mp (marked_withEffect.mp hm)
      · rw [hfail] at hsome
        cases hsome

/-- Extending every queued delete shows what it touches and marks nothing. -/
theorem refreshPending_told (hwf : Wf e st)
    (hg : List.Guarded e.extendQueued (ExtendQueuedTold e) st st.queue)
    (hr : e.refreshPending st = .ok st') :
    (∀ k, FullyShown st' k ∨ Untouched st st' k) ∧ ∀ n, Marked st' n → Marked st n := by
  refine refresh_guarded (fun s => (∀ k, FullyShown s k ∨ Untouched st s k) ∧
    ∀ n, Marked s n → Marked st n) (fun s q child t hc hs hwf' hx hxs => ?_) hg hwf
    ⟨fun k => Or.inr (untouched_refl st k), fun n => id⟩ hr
  obtain ⟨hshown, hmarks⟩ := extendDelete_told hwf' hc hx hxs
  refine ⟨fun k => ?_, fun n hn => hs.2 n (hmarks n hn)⟩
  rcases hshown k with hfull | hun
  · exact Or.inl hfull
  · rcases hs.1 k with hfull | hun'
    · exact Or.inl (fullyShown_untouched hun hfull)
    · exact Or.inr (untouched_trans hun' hun)

/-- Finishing a delivery tells of every record, when it was told of those that are not held. -/
theorem rebuildHeld_told (hwf : Wf e st) (hn : ∀ k ∈ held, Named e k) (hg : FinishTold e st held)
    (htold : ∀ k, k ∉ held → Told st k) {reports : List Report}
    (hr : e.rebuildHeld st held = .ok (reports, st')) :
    (∀ k, Told st' k) ∧ (∀ n, Marked st' n → Reported reports n ∨ Marked st n) ∧
      ∀ k, FullyShown st' k ∨ (k ∉ held ∧ Untouched st st' k) ∨
        ∃ qo ∈ st'.opsFor k, Reported reports qo.ordinal := by
  obtain ⟨st1, hfold, hrefresh⟩ := rebuildHeld_eq_ok.mp hr
  obtain ⟨htold1, hmarks1, hshown1, -⟩ := rebuildFold_told hwf hn hg.rebuilds hfold htold
  have hwf1 := (wf_rebuildFold hwf hn rfl hfold).1
  obtain ⟨hshown2, hmarks2⟩ := refreshPending_told hwf1 (hg.refreshes reports st1 hfold) hrefresh
  have hext := (wf_refreshPending hwf1 hrefresh).2
  refine ⟨fun k => ?_, fun n hm => hmarks1 n (hmarks2 n hm), fun k => ?_⟩
  · rcases hshown2 k with hfull | hun
    · exact Or.inl hfull
    · exact told_extends (htold1 k) hun hext
  · rcases hshown2 k with hfull | hun
    · exact Or.inl hfull
    · rcases hshown1 k with hfull | ⟨hk, hun1⟩ | ⟨qo, hqo, hrep⟩
      · exact Or.inl (fullyShown_untouched hun hfull)
      · exact Or.inr (Or.inl ⟨hk, untouched_trans hun1 hun⟩)
      · exact Or.inr (Or.inr ⟨qo, by rw [hun.ops]; exact hqo, hrep⟩)

end Rebuild

/-- The records of a page are told of, when the page is one this client applies. -/
def PageTold (e : Engine) (c : Client) (page : PullPage) : Prop :=
  page.validate = .ok () → (c.pulls.stale page.froms).1 = false →
    ∀ moving, c.store.movingChannels page = .ok moving → moving.isEmpty = false →
      FinishTold e (e.stageAll c.store [] page.changes).1 (e.stageAll c.store [] page.changes).2.1

/-- What a receipt rebuilds is told of, when it completes the push in flight. -/
def ReceiptTold (e : Engine) (st : Store) (push : ℕ) (receipt : PushReceipt) : Prop :=
  st.lastCompletedPush < push → st.inFlight = .ok (some push) →
    ∀ covered wireRows mid affected,
      e.checkReceipt (batchOf st push) (acceptedOf st push receipt) receipt = .ok (covered, wireRows) →
      e.settleCompanions wireRows covered (st, e.holdAll [] (touchedOf st push))
        (acceptedOf st push receipt) = .ok (mid, affected) →
      FinishTold e ((e.stageAll mid affected receipt.records).1.relieved receipt.rejections
          ((acceptedOf st push receipt).map (·.ordinal)))
        (e.holdAll (e.stageAll mid affected receipt.records).2.1
          (e.markedOf (e.stageAll mid affected receipt.records).1 receipt.rejections))

/-- What a drop rebuilds is told of. -/
def DropTold (e : Engine) (st : Store) (ordinal : ℕ) : Prop :=
  ∀ q, st.queuedOne ordinal = some q → q.push = none →
    FinishTold e
      { st.deleteMutations (rejectedOf st [⟨ordinal, "dropped"⟩]).keys with
        rejections := inboxOf st [⟨ordinal, "dropped"⟩] }
      (e.markedOf st [⟨ordinal, "dropped"⟩])

/-- A direct write lands on records without queued operations. -/
def DirectClean (e : Engine) (st : Store) (op : Operation) : Prop :=
  ∀ op', e.normalize op = .ok op' → st.dirty op'.key = false ∧
    ∀ children, e.directCascade st op' op'.key = .ok children →
      ∀ k ∈ children, st.dirty k = false

/-- What each step of a transaction asks. -/
def StepTold (e : Engine) (st : Store) : TransactionStep → Prop
  | .enqueue m => SparesDiverged e st m ∧ Sound e st m
  | .direct op => DirectClean e st op
  | .setChannel _ _ => True

/-- What each call asks. -/
def ActTold (e : Engine) (c : Client) : ClientAction → Prop
  | .enqueue m => SparesDiverged e c.store m ∧ Sound e c.store m
  | .applyPage page => PageTold e c page
  | .receive page _ => PageTold e c page
  | .acknowledge sequence receipt => ReceiptTold e c.store sequence receipt
  | .drop ordinal => DropTold e c.store ordinal
  | _ => True

/-- What each call of the host asks; the schema stays the one the run began with. -/
def Host.Tells (s : Host) : HostCall → Prop
  | .call a => ActTold s.engine s.client a
  | .transaction body commits => commits = true →
      Machine.Along s.engine.transactionStep (fun acc t => StepTold s.engine acc.1 t)
        (s.client.store, []) body
  | .readiness _ _ => True
  | .dismissRejection _ => True
  | .reopen _ => False

/-- A store all of whose records are told of. -/
structure ToldStore (e : Engine) (st : Store) : Prop where
  wf : Wf e st
  tidy : Tidy st
  told : ∀ k, Told st k

section Local
variable {e : Engine} {st st' mid : Store} {k : RecordKey} {n : ℕ} {held held' : Held}

/-- A record no diverged mutation touches is fully shown. -/
theorem told_spared (hs : (st.queue.map (·.ordinal)).Nodup) (h : Told st k)
    (hspare : ∀ p ∈ st.queue, p.diverged = true → ∀ o ∈ p.mutation.allOps, o.key ≠ k) :
    FullyShown st k := by
  rcases h with h | h
  · exact h
  · refine fullyShown_clean (dirty_eq_false.mpr (List.eq_nil_iff_forall_not_mem.mpr fun qo hqo => ?_))
    obtain ⟨m, hm, ho, hop, hk⟩ := mem_opsFor.mp hqo
    obtain ⟨p, hp, hord, hdiv⟩ := h qo hqo
    obtain rfl : p = m := List.inj_on_of_nodup_map hs hp hm (hord.trans ho.symm)
    exact hspare p hp hdiv qo.op hop hk

/-- A sound mutation that spares the records of diverged ones keeps every record told of. -/
theorem told_enqueue (h : ToldStore e st) {m : Mutation} {ordinal : ℕ}
    (hspares : SparesDiverged e st m) (hsound : Sound e st m)
    (hr : e.enqueue st m = .ok (ordinal, st')) : ToldStore e st' := by
  obtain ⟨hn, done, effects, q, mid, he⟩ := enqueue_spec h.wf hr
  refine ⟨wf_enqueue h.wf hr, tidy_enqueue h.wf h.tidy hr, fun k => ?_⟩
  have hnodup : (st.queue.map (·.ordinal)).Nodup := h.wf.sorted.imp fun h => ne_of_lt h
  by_cases hk : ∃ op ∈ q.mutation.allOps, op.key = k
  · obtain ⟨op, hop, rfl⟩ := hk
    have hena := enacts_fold h.tidy (performing_start h.wf) enacts_start hsound he.performs op.key
    have hold : FullyShown st op.key := told_spared hnodup (h.told op.key) fun p hp hdiv o ho =>
      hspares ordinal st' hr q (by simp [he.result]) (he.queued.1.trans hn.symm) op hop p hp hdiv o ho
    have hdirty : st'.dirty op.key = true := dirty_iff.mpr ⟨q, by simp [he.result], op, hop, rfl⟩
    have hbefore : st'.before.lookup op.key = st.truth op.key := by
      rw [he.result]
      exact hena.base ⟨op, by rwa [← enqueues_allOps he], rfl⟩
    left
    rw [FullyShown, Store.truth, if_pos hdirty, hbefore, enqueues_opsFor he, replay_append, hold,
      show st'.main.lookup op.key = mid.main.lookup op.key by rw [he.result]]
    exact replay_map hena.replays
  · refine told_untouched (h.told k) (enqueues_untouched h.wf he (by simpa using hk)) ?_
    rintro qo - ⟨p, hp, hord, hdiv⟩
    refine ⟨p, ?_, hord, hdiv⟩
    rw [he.result]
    exact List.mem_append_left _ hp

/-- Changing queued mutations in neither operations nor marks keeps every record told of. -/
theorem told_map {f : Queued → Queued} (h : Told st k)
    (hf : ∀ q, (f q).ordinal = q.ordinal ∧ (f q).mutation.allOps = q.mutation.allOps ∧
      (f q).diverged = q.diverged) (hm : st'.main = st.main) (hb : st'.before = st.before)
    (hq : st'.queue = st.queue.map f) : Told st' k := by
  have hops : st'.opsFor k = st.opsFor k := by
    rw [← @opsFor_map st k f fun q => ⟨(hf q).1, (hf q).2.1⟩]
    exact @opsFor_of_queue _ { st with queue := st.queue.map f } _ hq
  refine told_untouched h ⟨by rw [hm], by rw [hb], hops⟩ ?_
  rintro qo - ⟨p, hp, hord, hdiv⟩
  exact ⟨f p, hq ▸ List.mem_map_of_mem hp, (hf p).1.trans hord, (hf p).2.2.trans hdiv⟩

theorem told_of_eq (h : Told st k) (hm : st'.main = st.main) (hb : st'.before = st.before)
    (hq : st'.queue = st.queue) : Told st' k :=
  told_map (f := id) h (fun _ => ⟨rfl, rfl, rfl⟩) hm hb (by simpa using hq)

/-- Staging keeps what it does not hold told of, and the visible rows of dirty records. -/
theorem told_stages (hs : Stages e st held st' held') (hk : k ∉ held') (h : Told st k) :
    Told st' k := by
  cases hd : st.dirty k with
  | true =>
    refine told_untouched h ⟨hs.main k hd, hs.before k hk, opsFor_of_queue hs.queue⟩ ?_
    exact fun _ _ hm => (marked_of_queue hs.queue).mpr hm
  | false => exact Or.inl (fullyShown_clean (hs.dirty.trans hd))

/-- Deleting mutations that do not touch a record keeps it told of. -/
theorem told_delete (h : Told st k) {ns : List ℕ}
    (hoff : ∀ q ∈ st.queue, q.ordinal ∈ ns → ∀ op ∈ q.mutation.allOps, op.key ≠ k)
    (hs : (st.queue.map (·.ordinal)).Nodup) : Told (st.deleteMutations ns) k := by
  refine told_untouched h (untouched_deleteMutations hoff) ?_
  rintro qo hqo ⟨p, hp, hord, hdiv⟩
  obtain ⟨m, hm, ho, hop, hk⟩ := mem_opsFor.mp hqo
  obtain rfl : p = m := List.inj_on_of_nodup_map hs hp hm (hord.trans ho.symm)
  have hkeep : p.ordinal ∉ ns := fun hin => hoff p hp hin qo.op hop hk
  refine ⟨p.forget ns, ?_, hord, hdiv⟩
  rw [deleteMutations_queue]
  exact List.mem_map_of_mem (List.mem_filter.mpr ⟨hp, by simpa using hkeep⟩)

/-- Deleting mutations marks none. -/
theorem marked_delete {ns : List ℕ} (h : Marked (st.deleteMutations ns) n) : Marked st n := by
  obtain ⟨q, hq, hord, hdiv⟩ := h
  rw [deleteMutations_queue] at hq
  obtain ⟨p, hp, rfl⟩ := List.mem_map.mp hq
  exact ⟨p, List.mem_of_mem_filter hp, hord, hdiv⟩

end Local

section Direct
variable {e : Engine} {st st' : Store} {k : RecordKey}

/-- A direct write of a clean record changes its visible row only. -/
theorem told_directOne (h : ToldStore e st) {op : Operation} (hop : OpOk e op)
    (hd : st.dirty op.key = false) (hr : e.directOne st op = .ok st') :
    ToldStore e st' ∧ ∀ k, st'.dirty k = st.dirty k := by
  simp only [Engine.directOne, hop.key, Except.ok_bind, hd, Except.bind_eq_ok, Bool.not_false,
    if_true, Except.pure_eq_ok] at hr
  obtain ⟨_, ha, rfl⟩ := hr
  obtain ⟨row, hrow, -, rfl⟩ := (applyMain_eq_ok h.wf hop).mp ha
  have hdirty : ∀ k, Store.dirty { st with main := st.main.put op.key row } k = st.dirty k :=
    fun k => dirty_of_queue rfl
  have hn := named_of_canonical (opOk_canonical hop)
  refine ⟨⟨wf_main h.wf (rowsOk_put h.wf.main hn
    (applyToRow_rowFor hop (rowsOk_lookup h.wf.main op.key) hrow)),
    tidy_of_eq h.tidy rfl hdirty, fun k => ?_⟩, hdirty⟩
  by_cases hk : k = op.key
  · subst hk
    exact Or.inl (fullyShown_clean ((hdirty op.key).trans hd))
  · exact told_untouched (h.told k) ⟨AList.lookup_put_ne hk, rfl, rfl⟩ fun _ _ hm => hm

theorem told_direct (h : ToldStore e st) {op : Operation} (hc : DirectClean e st op)
    (hr : e.direct st op = .ok st') : ToldStore e st' := by
  simp only [Engine.direct, Except.bind_eq_ok] at hr
  obtain ⟨op', hnorm, key, hkey, children, hchildren, mid, hfold, hr⟩ := hr
  obtain ⟨hop, rfl, -, -⟩ := normalize_spec hnorm hkey
  obtain ⟨hclean, hbelow⟩ := hc op' hnorm
  have hcanonical : ∀ c ∈ children, Canonical e c := by
    intro c hmem
    unfold Engine.directCascade at hchildren
    split at hchildren
    · exact (mem_descendants h.wf hchildren hmem).1
    · cases hchildren
      exact absurd hmem List.not_mem_nil
  have hmid : ToldStore e mid ∧ ∀ k, mid.dirty k = st.dirty k := by
    refine List.foldlM_ok_induction (fun s => ToldStore e s ∧ ∀ k, s.dirty k = st.dirty k) ?_
      ⟨h, fun k => rfl⟩ hfold
    intro s c t hmem hs hstep
    obtain ⟨ht, hdirty⟩ := told_directOne hs.1 (opOk_delete (hcanonical c hmem))
      ((hs.2 c).trans (hbelow children hchildren c hmem)) hstep
    exact ⟨ht, fun k => (hdirty k).trans (hs.2 k)⟩
  exact (told_directOne hmid.1 hop ((hmid.2 _).trans hclean) hr).1

/-- A step of a transaction keeps every record told of. -/
theorem told_step {acc : Store × List String} (h : ToldStore e acc.1) (t : TransactionStep)
    (ht : StepTold e acc.1 t) : ToldStore e (e.transactionStep acc t).1 := by
  cases t with
  | enqueue m =>
    simp only [Engine.transactionStep]
    split
    · rename_i hr
      exact told_enqueue h ht.1 ht.2 hr
    · exact h
  | direct op =>
    simp only [Engine.transactionStep]
    split
    · rename_i hr
      exact told_direct h ht hr
    · exact h
  | setChannel channel subscribed =>
    obtain ⟨s, hs⟩ := setChannels_frame [(channel, subscribed)] acc
    simp only [List.foldl_cons, List.foldl_nil] at hs
    simp only [Engine.transactionStep, hs]
    exact ⟨wf_of_eq h.wf rfl rfl rfl le_rfl, h.tidy, fun k => told_of_eq (h.told k) rfl rfl rfl⟩

end Direct

section Deliver
variable {e : Engine} {c : Client} {st st' : Store} {k : RecordKey} {n : ℕ}

/-- What telling of every record gives a delivery. -/
theorem spoken_of {reports : List Report} (htold : ∀ k, Told st' k)
    (hmarks : ∀ n, Marked st' n → Reported reports n ∨ Marked st n)
    (hvisible : ∀ k, FullyShown st' k ∨ st'.main.lookup k = st.main.lookup k ∨
      ∃ qo ∈ st'.opsFor k, Reported reports qo.ordinal) : Spoken st st' reports where
  queued := by
    rintro q hq (⟨op, hop, hfull⟩ | ⟨hdiv, -⟩)
    · rcases htold op.key with h | h
      · exact absurd h hfull
      · exact hmarks _ (h ⟨q.ordinal, op⟩ (mem_opsFor.mpr ⟨q, hq, rfl, hop, rfl⟩))
    · exact hmarks _ ⟨q, hq, rfl, hdiv⟩
  visible := by
    intro k hk
    rcases hvisible k with h | h | ⟨qo, hqo, h⟩
    · exact Or.inl h
    · exact absurd h hk
    · obtain ⟨q, hq, ho, hop, hkey⟩ := mem_opsFor.mp hqo
      exact Or.inr ⟨q, hq, ⟨qo.op, hop, hkey⟩, ho ▸ h⟩

/-- A delivery that changes nothing. -/
theorem spoken_same {reports : List Report} (h : ∀ k, Told st k) : Spoken st st reports :=
  spoken_of h (fun _ => Or.inr) fun _ => Or.inr (Or.inl rfl)

theorem reported_staged {adapt : Report → Report} {staged : List Staged} {reports : List Report}
    (h : Reported reports n) : Reported (stagedReport adapt staged reports).reports n := by
  obtain ⟨r, hr, hkind⟩ := h
  exact ⟨r, List.mem_append_right _ hr, hkind⟩

/-- What finishing a delivery tells of its records, when they were told of where it does not hold
    them and the rows of dirty ones were left alone until then. -/
theorem finish_spoken (st : Store) {base : Store} {held : Held} (hwf : Wf e base)
    (hn : ∀ k ∈ held, Named e k)
    (hg : FinishTold e base held) (htold : ∀ k, k ∉ held → Told base k)
    (hmarks : ∀ n, Marked base n → Marked st n)
    (hmain : ∀ k, base.dirty k = true → base.main.lookup k = st.main.lookup k)
    {reports : List Report} (hr : e.rebuildHeld base held = .ok (reports, st')) :
    (∀ k, Told st' k) ∧ (∀ n, Marked st' n → Reported reports n ∨ Marked st n) ∧
      ∀ k, FullyShown st' k ∨ st'.main.lookup k = st.main.lookup k ∨
        ∃ qo ∈ st'.opsFor k, Reported reports qo.ordinal := by
  obtain ⟨ht, hm, hv⟩ := rebuildHeld_told hwf hn hg htold hr
  refine ⟨ht, fun n hn => (hm n hn).imp_right (hmarks n), fun k => ?_⟩
  rcases hv k with hfull | ⟨-, hun⟩ | hrep
  · exact Or.inl hfull
  · cases hd : base.dirty k with
    | true => exact Or.inr (Or.inl (hun.main.trans (hmain k hd)))
    | false => exact Or.inl (fullyShown_clean (hun.dirty.trans hd))
  · exact Or.inr (Or.inr hrep)

/-- A page that lands. -/
theorem applyRecords_told (h : ToldStore e st) {records : List AuthorityRecord}
    (hg : FinishTold e (e.stageAll st [] records).1 (e.stageAll st [] records).2.1)
    {report : ApplyReport} (hr : e.applyRecords st records = .ok (report, st')) :
    (∀ k, Told st' k) ∧ Spoken st st' report.reports := by
  obtain ⟨reports, hreb, rfl⟩ := applyRecords_eq_ok.mp hr
  have hst := stages_all records [] h.wf
  have hnamed : ∀ k ∈ (e.stageAll st [] records).2.1, Named e k := fun k hk =>
    (hst.new k hk).elim (fun h => nomatch h) fun h => h.1
  obtain ⟨ht, hm, hv⟩ := finish_spoken st hst.wf hnamed hg
    (fun k hk => told_stages hst hk (h.told k)) (fun n => (marked_of_queue hst.queue).mp)
    (fun k hd => hst.main k (hst.dirty ▸ hd)) hreb
  refine ⟨ht, spoken_of ht (fun n hn => (hm n hn).imp_left reported_staged) fun k => ?_⟩
  exact (hv k).imp_right (Or.imp_right fun ⟨qo, hqo, hrep⟩ => ⟨qo, hqo, reported_staged hrep⟩)

theorem applyCurrentPage_told (h : ToldStore e st) {page : PullPage}
    (hg : ∀ moving, st.movingChannels page = .ok moving → moving.isEmpty = false →
      FinishTold e (e.stageAll st [] page.changes).1 (e.stageAll st [] page.changes).2.1)
    {report : ApplyReport} (hr : e.applyCurrentPage st page = .ok (report, st')) :
    ToldStore e st' ∧ Spoken st st' report.reports := by
  have hwf := wf_applyCurrentPage h.wf hr
  obtain ⟨moving, hmoving, ⟨-, -, rfl⟩ | ⟨hne, -, report1, st1, ha, rfl, rfl⟩⟩ :=
    applyCurrentPage_eq_ok.mp hr
  · exact ⟨h, spoken_same h.told⟩
  · obtain ⟨s, hs⟩ := setCursors_frame moving.entries st1
    obtain ⟨ht, hspoken⟩ := applyRecords_told h (hg moving hmoving hne) ha
    obtain ⟨reports, hreb, -⟩ := applyRecords_eq_ok.mp ha
    have hst := stages_all page.changes [] h.wf
    have htidy : Tidy st1 := tidy_rebuildHeld hst.wf
      (fun k hk => (hst.new k hk).elim (fun h => nomatch h) fun h => h.1)
      (fun k _ => tidy_stages h.tidy hst k) hreb
    rw [Store.setCursors, hs] at hwf ⊢
    exact ⟨⟨hwf, htidy, fun k => told_of_eq (ht k) rfl rfl rfl⟩,
      ⟨hspoken.queued, hspoken.visible⟩⟩

/-- A receipt that completes the push in flight. -/
theorem complete_told (h : ToldStore e st) {push : ℕ} {receipt : PushReceipt}
    (hlt : st.lastCompletedPush < push) (hflight : st.inFlight = .ok (some push))
    (hg : ReceiptTold e st push receipt) {report : ApplyReport}
    (hr : e.complete st push receipt = .ok (report, st')) :
    ToldStore e st' ∧ Spoken st st' report.reports := by
  have hwf := wf_complete h.wf hr
  have htidy := tidy_complete h.wf h.tidy hr
  obtain ⟨covered, wireRows, mid, affected, reports, fin, hcomp, rfl, rfl⟩ :=
    (complete_eq_ok h.wf).mp hr
  have hset := settles_of_completes h.wf hcomp.settled
  have hst := stages_all receipt.records affected hset.wf
  obtain ⟨b, hb⟩ := hset.frame
  have hqueue : (e.stageAll mid affected receipt.records).1.queue = st.queue := by
    rw [hst.queue, hb]
  have hnodup : ((e.stageAll mid affected receipt.records).1.queue.map (·.ordinal)).Nodup :=
    hst.wf.sorted.imp fun h => ne_of_lt h
  have hstaged : ∀ k, k ∉ (e.stageAll mid affected receipt.records).2.1 →
      Told (e.stageAll mid affected receipt.records).1 k := fun k hk => by
    refine told_stages hst hk (told_untouched (h.told k) ⟨by rw [hb],
      hset.before k fun hm => hk (hst.grows k hm), by rw [hb]; rfl⟩ fun _ _ hm => ?_)
    exact (marked_of_queue (by rw [hb])).mpr hm
  have htold : ∀ k, k ∉ e.holdAll (e.stageAll mid affected receipt.records).2.1
      (e.markedOf (e.stageAll mid affected receipt.records).1 receipt.rejections) →
      Told ((e.stageAll mid affected receipt.records).1.relieved receipt.rejections
        ((acceptedOf st push receipt).map (·.ordinal))) k := fun k hk => by
    have hoff := completes_spares h.wf hset hk
    have hdeleted := told_delete (hstaged k fun hm => hk (mem_holdAll.mpr (Or.inl hm)))
      (fun q hq hrej => hoff q hq (Or.inl hrej)) hnodup
    refine told_delete (told_of_eq hdeleted rfl rfl rfl) (fun q hq hacc => ?_)
      (hnodup.sublist ?_)
    · obtain ⟨q0, hq0, rfl⟩ := List.mem_map.mp hq
      exact hoff q0 (List.mem_of_mem_filter hq0) (Or.inr hacc)
    · rw [deleteMutations_queue, List.map_map]
      exact (List.filter_sublist ..).map _
  have hmarks : ∀ n, Marked ((e.stageAll mid affected receipt.records).1.relieved
      receipt.rejections ((acceptedOf st push receipt).map (·.ordinal))) n → Marked st n :=
    fun n hn => (marked_of_queue hqueue).mp (marked_delete (marked_of_queue rfl |>.mp
      (marked_delete hn)))
  have hmain : ∀ k, ((e.stageAll mid affected receipt.records).1.relieved receipt.rejections
      ((acceptedOf st push receipt).map (·.ordinal))).dirty k = true →
      ((e.stageAll mid affected receipt.records).1.relieved receipt.rejections
        ((acceptedOf st push receipt).map (·.ordinal))).main.lookup k = st.main.lookup k := by
    intro k hd
    obtain ⟨q, hq, op, hop, hkey⟩ := dirty_iff.mp hd
    obtain ⟨p, hp, -, -, rfl⟩ := mem_relieved.mp hq
    have hdirty : (e.stageAll mid affected receipt.records).1.dirty k = true :=
      dirty_iff.mpr ⟨p, hp, op, hop, hkey⟩
    change (e.stageAll mid affected receipt.records).1.main.lookup k = st.main.lookup k
    rw [hst.main k (hst.dirty ▸ hdirty), hb]
  obtain ⟨ht, hm, hv⟩ := finish_spoken st (wf_relieved hst.wf)
    (fun k hk => completes_named h.wf receipt hset hk)
    (hg hlt hflight covered wireRows mid affected hcomp.checked hcomp.settled) htold hmarks
    hmain hcomp.rebuilt
  refine ⟨⟨hwf, htidy, fun k => told_of_eq (ht k) rfl rfl rfl⟩, ?_⟩
  exact spoken_of (fun k => told_of_eq (ht k) rfl rfl rfl)
    (fun n hn => (hm n hn).imp_left reported_staged)
    fun k => (hv k).imp_right (Or.imp_right fun ⟨qo, hqo, hrep⟩ =>
      ⟨qo, hqo, reported_staged hrep⟩)

theorem acknowledge_told (h : ToldStore e st) {sequence : ℕ} {receipt : PushReceipt}
    (hg : ReceiptTold e st sequence receipt) {report : ApplyReport}
    (hr : e.acknowledge st sequence receipt = .ok (report, st')) :
    ToldStore e st' ∧ Spoken st st' report.reports := by
  obtain ⟨-, -, ⟨-, -, rfl⟩ | ⟨hlt, hflight, hc⟩⟩ := acknowledge_eq_ok.mp hr
  · exact ⟨h, spoken_same h.told⟩
  · exact complete_told h hlt hflight hg hc

/-- Dropping a mutation keeps every record told of. -/
theorem told_drop (h : ToldStore e st) {ordinal : ℕ} (hg : DropTold e st ordinal)
    (hr : e.dropMutation st ordinal = .ok st') : ToldStore e st' := by
  have hwf := wf_dropMutation h.wf hr
  unfold Engine.dropMutation at hr
  split at hr
  · cases hr
    exact h
  · rename_i q hq
    split at hr
    · cases hr
    · rename_i hpush
      have htidy := tidy_removeRejected h.wf h.tidy hr
      simp only [Engine.removeRejected, markRejected_eq h.wf, Except.ok_bind, Except.bind_eq_ok,
        Except.pure_eq_ok] at hr
      obtain ⟨⟨reports, st1⟩, hreb, rfl⟩ := hr
      refine ⟨hwf, htidy, (rebuildHeld_told (wf_marked h.wf) (fun k hk => marked_named h.wf hk)
        (hg q hq (by simpa using hpush)) (fun k hk => ?_) hreb).1⟩
      refine told_of_eq (told_delete (h.told k) (fun q hq hrej op hop heq => hk ?_)
        (h.wf.sorted.imp fun h => ne_of_lt h)) rfl rfl rfl
      exact mem_marked.mpr ⟨q, hq, mem_rejected_keys.mp hrej, op, hop, heq⟩

/-- A page leaves the store as it was and tells of nothing, or lands it with the report it gives. -/
theorem applyPage_outcome (e : Engine) (c : Client) (page : PullPage) :
    ((c.applyPage e page).2.store = c.store ∧
      ∀ report, (c.applyPage e page).1 = .ok report → report.reports = []) ∨
    (page.validate = .ok () ∧ (c.pulls.stale page.froms).1 = false ∧
      ∃ report, (c.applyPage e page).1 = .ok report ∧
        e.applyCurrentPage c.store page = .ok (report, (c.applyPage e page).2.store)) := by
  unfold Client.applyPage
  split
  · exact Or.inl ⟨rfl, fun _ h => nomatch h⟩
  · rename_i hvalid
    simp only
    split
    · refine Or.inl ⟨rfl, fun report h => ?_⟩
      cases h
      rfl
    · rename_i hstale
      unfold Client.commit
      cases ha : e.applyCurrentPage c.store page with
      | ok out => exact Or.inr ⟨hvalid, by simpa using hstale, out.1, rfl, rfl⟩
      | error m => exact Or.inl ⟨rfl, fun _ h => nomatch h⟩

theorem receive_outcome (e : Engine) (c : Client) (page : PullPage) (request : Option PullRequest) :
    ((c.receiveDownlink e page request).2.store = c.store ∧
      ∀ progress, (c.receiveDownlink e page request).1 = .ok progress →
        progress.report.reports = []) ∨
    (page.validate = .ok () ∧ (c.pulls.stale page.froms).1 = false ∧
      ∃ progress, (c.receiveDownlink e page request).1 = .ok progress ∧
        e.applyCurrentPage c.store page =
          .ok (progress.report, (c.receiveDownlink e page request).2.store)) := by
  have hstay : ∀ {progress : DownlinkProgress}, progress.report.reports = [] →
      ∀ p, (.ok progress : Except String DownlinkProgress) = .ok p → p.report.reports = [] := by
    rintro progress hr _ ⟨⟩
    exact hr
  unfold Client.receiveDownlink
  split
  · exact Or.inl ⟨rfl, fun _ h => nomatch h⟩
  · rename_i hvalid
    simp only [Except.bind_eq_ok] at hvalid
    obtain ⟨_, hvalid, -⟩ := hvalid
    simp only
    split
    · exact Or.inl ⟨rfl, hstay rfl⟩
    · rename_i hstale
      split
      · exact Or.inl ⟨rfl, hstay rfl⟩
      · split
        · exact Or.inl ⟨rfl, hstay rfl⟩
        · unfold Client.commit
          cases ha : e.applyCurrentPage c.store page with
          | ok out => exact Or.inr ⟨hvalid, by simpa using hstale, _, rfl, rfl⟩
          | error m => exact Or.inl ⟨rfl, fun _ h => nomatch h⟩

/-- Every call that meets its condition keeps every record told of. -/
theorem told_act (h : ToldStore e c.store) (a : ClientAction) (ha : ActTold e c a) :
    ToldStore e (c.act e a).store := by
  refine ⟨wf_act h.wf a, tidy_act h.wf h.tidy a, ?_⟩
  cases a with
  | enqueue m =>
    exact commit_keeps (P := fun st => ∀ k, Told st k) h.told fun n st hr =>
      (told_enqueue h ha.1 ha.2 hr).told
  | freeze maxBytes =>
    refine commit_keeps (P := fun st => ∀ k, Told st k) h.told fun _ st hr => ?_
    rcases freeze_spec hr with rfl | ⟨-, selected, -, -, -, rfl, -⟩
    · exact h.told
    · refine fun k => told_map (h.told k) (fun q => ?_) rfl rfl rfl
      split <;> exact ⟨rfl, rfl, rfl⟩
  | acknowledge sequence receipt =>
    simp only [Client.act, Client.acknowledge]
    split
    · exact h.told
    · exact commit_keeps (P := fun st => ∀ k, Told st k) h.told fun _ _ hr =>
        (acknowledge_told h ha hr).1.told
  | applyPage page =>
    rcases applyPage_outcome e c page with ⟨heq, -⟩ | ⟨hvalid, hstale, report, -, hr⟩
    · simp only [Client.act, heq]
      exact h.told
    · exact (applyCurrentPage_told h (ha hvalid hstale) hr).1.told
  | receive page request =>
    rcases receive_outcome e c page request with ⟨heq, -⟩ | ⟨hvalid, hstale, report, -, hr⟩
    · simp only [Client.act, heq]
      exact h.told
    · exact (applyCurrentPage_told h (ha hvalid hstale) hr).1.told
  | drop ordinal =>
    refine commit_keeps (P := fun st => ∀ k, Told st k) h.told fun a st hr => ?_
    obtain ⟨st1, hd, heq⟩ := Except.map_eq_ok.mp hr
    obtain ⟨-, rfl⟩ := Prod.mk.inj heq
    exact (told_drop h ha hd).told
  | setChannels changes =>
    obtain ⟨s, hs⟩ := setChannels_frame changes (c.store, [])
    simp only [Client.act, Client.setChannels, hs]
    exact fun k => told_of_eq (h.told k) rfl rfl rfl
  | pull =>
    simp only [Client.act, Client.downlinkRequest]
    split <;> exact h.told
  | resolve key =>
    exact fun k => told_map (h.told k) (f := fun q => { q with mutation := { q.mutation with
      prerequisites := q.mutation.prerequisites.filter (· ≠ key) } })
      (fun q => ⟨rfl, rfl, rfl⟩) rfl rfl rfl
  | restart => exact h.told

/-- Every call of the host does, and keeps the schema. -/
theorem told_call {s : Host} (h : ToldStore s.engine s.client.store) (call : HostCall)
    (hc : s.Tells call) :
    (s.step call).engine = s.engine ∧ ToldStore s.engine (s.step call).client.store := by
  have hsame : ∀ {st : Store}, st.main = s.client.store.main → st.before = s.client.store.before →
      st.queue = s.client.store.queue → st.nextOrdinal = s.client.store.nextOrdinal →
        ToldStore s.engine st := fun hm hb hq ho =>
    ⟨wf_of_eq h.wf hq hm hb ho.ge, tidy_of_eq h.tidy hb fun k => dirty_of_queue hq,
      fun k => told_of_eq (h.told k) hm hb hq⟩
  cases call with
  | call a => exact ⟨rfl, told_act h a hc⟩
  | transaction body commits =>
    refine ⟨rfl, ?_⟩
    simp only [Host.step, Client.transaction]
    cases commits with
    | true =>
      exact Machine.run_keeps (P := fun acc : Store × List String => ToldStore s.engine acc.1)
        (fun acc t hacc ht => told_step hacc t ht) h (hc rfl)
    | false => exact h
  | readiness key value =>
    refine ⟨rfl, ?_⟩
    cases value with
    | ready => exact told_act h (.resolve key) trivial
    | failed => exact hsame rfl rfl rfl rfl
    | pending => exact hsame rfl rfl rfl rfl
  | dismissRejection ordinal => exact ⟨rfl, hsame rfl rfl rfl rfl⟩
  | reopen e' => exact hc.elim

theorem told_opened (clientId : String) : ToldStore e (Client.opened clientId).store where
  wf := wf_opened clientId
  tidy := fun k _ => by simp [Client.opened]
  told := fun k => Or.inl (fullyShown_clean (by simp [Client.opened, Store.dirty]))

/-- In every run whose calls meet their conditions, a page or a receipt that meets its own, given in
    the state the run reaches, diverges no mutation silently. -/
theorem nothing_silent (e : Engine) (clientId : String) (calls : List HostCall)
    (h : Machine.Along Host.step Host.Tells ⟨e, .opened clientId⟩ calls) :
    let c := (Machine.run Host.step ⟨e, .opened clientId⟩ calls).client
    (∀ page report c', PageTold e c page → c.applyPage e page = (.ok report, c') →
      Spoken c.store c'.store report.reports) ∧
    (∀ page request progress c', PageTold e c page →
      c.receiveDownlink e page request = (.ok progress, c') →
        Spoken c.store c'.store progress.report.reports) ∧
    ∀ sequence receipt report c', ReceiptTold e c.store sequence receipt →
      c.acknowledge e sequence receipt = (.ok report, c') →
        Spoken c.store c'.store report.reports := by
  obtain ⟨-, hs⟩ := Machine.run_keeps
    (P := fun s : Host => s.engine = e ∧ ToldStore e s.client.store) (fun s call hs hc => by
      obtain ⟨rfl, hs⟩ := hs
      exact told_call hs call hc) ⟨rfl, told_opened clientId⟩ h
  refine ⟨fun page report c' hp hr => ?_, fun page request progress c' hp hr => ?_,
    fun sequence receipt report c' hp hr => ?_⟩
  · rcases applyPage_outcome e _ page with ⟨heq, hempty⟩ | ⟨hvalid, hstale, report', hout, ha⟩
    · rw [hr] at heq hempty
      rw [heq, hempty report rfl]
      exact spoken_same hs.told
    · rw [hr] at hout ha
      cases hout
      exact (applyCurrentPage_told hs (hp hvalid hstale) ha).2
  · rcases receive_outcome e _ page request with ⟨heq, hempty⟩ | ⟨hvalid, hstale, out, hout, ha⟩
    · rw [hr] at heq hempty
      rw [heq, hempty progress rfl]
      exact spoken_same hs.told
    · rw [hr] at hout ha
      cases hout
      exact (applyCurrentPage_told hs (hp hvalid hstale) ha).2
  · simp only [Client.acknowledge] at hr
    split at hr
    · cases hr
    · simp only [Client.commit] at hr
      split at hr
      · rename_i ha
        cases hr
        exact (acknowledge_told hs hp ha).2
      · cases hr

end Deliver

section Sample
open Sample

/-- Deleting a box deletes its items. -/
def Sample.cascading : Engine := ⟨codecs, schema "delete" [], by decide +kernel⟩

/-- The server's deletion of an item. -/
def Sample.gone (id : String) (stamp : ℕ) : AuthorityRecord :=
  { model := "Item", identity := identity id, stamp, state := .null }

/-- A client that holds item `a` and moves it. -/
def Sample.mover : List HostCall :=
  [.call (.setChannels [("c", true)]), .call (.applyPage (page "c" 0 1 [record "a" "x" 1])),
    .call (.enqueue { name := "move", operations := [move "a" "y"] })]

/-- Without queued deletes there is nothing to extend. -/
theorem refreshes_plain {e : Engine} : ∀ {queue : List Queued} (st : Store),
    (∀ q ∈ queue, ∀ op ∈ q.mutation.operations ++ q.mutation.companion, op.op ≠ .delete) →
    List.Guarded e.extendQueued (ExtendQueuedTold e) st queue
  | [], _, _ => trivial
  | q :: queue, st, h => by
    have hnone : (q.mutation.operations ++ q.mutation.companion).filter (·.op = .delete) = [] :=
      List.filter_eq_nil_iff.mpr fun op hop => by simpa using h q (List.mem_cons_self ..) op hop
    refine ⟨by rw [ExtendQueuedTold, hnone]; trivial, fun t _ => ?_⟩
    exact refreshes_plain t fun q hq => h q (List.mem_cons_of_mem _ hq)

/-- At most one held record, where one queued mutation touches it and none deletes. -/
theorem finishTold_plain {e : Engine} {st : Store} {held : Held} (hu : NoUnique e)
    (hheld : held.length ≤ 1 ∧
      ∀ k ∈ held, ∀ n ∈ st.failing k, ∀ qo ∈ st.opsFor k, qo.ordinal = n)
    (hplain : (held.foldlM e.rebuildStep ([], st)).toOption.all (fun out =>
      ∀ q ∈ out.2.queue, ∀ op ∈ q.mutation.operations ++ q.mutation.companion, op.op ≠ .delete)) :
    FinishTold e st held where
  rebuilds := by
    match held, hheld with
    | [], _ => trivial
    | [k], h => exact ⟨⟨not_duplicate hu, fun n hn qo hqo =>
        Or.inl (h.2 k (List.mem_singleton_self _) n hn qo hqo)⟩, fun _ _ => trivial⟩
  refreshes reports st' h := by
    rw [h] at hplain
    exact refreshes_plain st' (of_decide_eq_true hplain)

/-- The server deletes the item that a queued mutation moves: the delivery tells of the mutation. -/
theorem nothing_silent_mover : ∃ report c', Client.applyPage loose
    (Machine.run Host.step ⟨loose, .opened "me"⟩ mover).client (page "c" 1 2 [gone "a" 2]) =
      (.ok report, c') ∧
    Spoken (Machine.run Host.step ⟨loose, .opened "me"⟩ mover).client.store c'.store
      report.reports := by
  have hfirst : PageTold loose (Client.act loose (.opened "me") (.setChannels [("c", true)]))
      (page "c" 0 1 [record "a" "x" 1]) :=
    fun _ _ _ _ _ => finishTold_plain (by decide +kernel) (by decide +kernel) (by decide +kernel)
  have hrun : Machine.Along Host.step Host.Tells ⟨loose, .opened "me"⟩ mover :=
    ⟨trivial, hfirst, ⟨spares_of_undiverged (a := .enqueue _) (by decide +kernel), sound_single⟩,
      trivial⟩
  have hpage : PageTold loose (Machine.run Host.step ⟨loose, .opened "me"⟩ mover).client
      (page "c" 1 2 [gone "a" 2]) :=
    fun _ _ _ _ _ => finishTold_plain (by decide +kernel) (by decide +kernel) (by decide +kernel)
  obtain ⟨report, hreport⟩ := Except.exists_ok (x := (Client.applyPage loose
    (Machine.run Host.step ⟨loose, .opened "me"⟩ mover).client (page "c" 1 2 [gone "a" 2])).1)
    (by decide +kernel)
  exact ⟨report, _, Prod.ext hreport rfl,
    (nothing_silent loose "me" mover hrun).1 _ report _ hpage (Prod.ext hreport rfl)⟩

/-- Item `a` leaves box `q` for box `p`, which a queued mutation deletes with its items, before a
    second one moves it to box `r`. -/
def Sample.swept : List ClientAction :=
  [.setChannels [("c", true)], .applyPage (page "c" 0 1 [record "a" "q" 1]),
    .enqueue { name := "sweep", operations := [⟨"Box", .delete, identity "p", none⟩] },
    .enqueue { name := "move", operations := [move "a" "r"] }]

/-- Extending the queued delete to the item marks the mutation behind it, which no report names. -/
theorem not_nothing_silent : ¬∀ (e : Engine) (c : Client), Reachable e c →
    (∀ page report c', c.applyPage e page = (.ok report, c') →
      Spoken c.store c'.store report.reports) ∧
    ∀ sequence receipt report c', c.acknowledge e sequence receipt = (.ok report, c') →
      Spoken c.store c'.store report.reports := by
  intro h
  have hbad : ∃ report, ((client cascading swept).applyPage cascading
      (page "c" 1 2 [record "a" "p" 2])).1 = .ok report ∧ ¬Reported report.reports 2 := by
    have hany : ((client cascading swept).applyPage cascading
        (page "c" 1 2 [record "a" "p" 2])).1.toOption.any
          (fun report => ¬Reported report.reports 2) = true := by decide +kernel
    obtain ⟨report, hreport, hsilent⟩ := (Option.any_eq_true ..).mp hany
    exact ⟨report, Except.eq_ok_of_toOption hreport, of_decide_eq_true hsilent⟩
  obtain ⟨report, hreport, hsilent⟩ := hbad
  have hspoken := (h cascading (client cascading swept) (client_reachable _ _)).1
    (page "c" 1 2 [record "a" "p" 2]) report _ (Prod.ext hreport rfl)
  have hmarked : ∃ q ∈ ((client cascading swept).applyPage cascading
      (page "c" 1 2 [record "a" "p" 2])).2.store.queue, q.diverged = true ∧ q.ordinal = 2 := by
    decide +kernel
  obtain ⟨q, hq, hdiv, hord⟩ := hmarked
  have hunmarked : ¬Marked (client cascading swept).store q.ordinal := by
    rw [hord]
    decide +kernel
  rcases hspoken.queued q hq (Or.inr ⟨hdiv, hunmarked⟩) with hrep | hm
  · exact hsilent (hord ▸ hrep)
  · exact hunmarked hm

end Sample

end AheadSync
