import AheadSync.Client.Cover

/-! Every call of the host writes a store as the engine does, or changes it outside of the tables and the
    stamps. -/

namespace AheadSync
namespace Within
variable {e : Engine} {R : Store → Store → Prop} {st st' : Store}

/-- The relation holds of every change that leaves the tables and the stamps alone. -/
def Outside (R : Store → Store → Prop) : Prop :=
  ∀ {st st' : Store}, st'.main = st.main → st'.before = st.before → st'.stamps = st.stamps → R st st'

theorem enqueue (w : Within e R) (o : Outside R) {m : Mutation} {n : ℕ}
    (h : e.enqueue st m = .ok (n, st')) : R st st' := by
  simp only [Engine.enqueue, Except.bind_eq_ok, ensure_eq_ok, List.forM_eq_ok,
    Except.pure_eq_ok] at h
  obtain ⟨-, -, -, -, ⟨mid, done, effects⟩, hfold, m', -, ⟨n', st2⟩, halloc, st3, hins, heq⟩ := h
  obtain ⟨-, rfl⟩ := Prod.mk.inj heq
  refine w.trans (w.foldlM (fun s : Store × List Operation × List Operation => s.1)
    (fun s op t ht => w.performOp ht) hfold) ?_
  simp only [Store.allocateOrdinal, Store.bump, Except.bind_eq_ok, ensure_eq_ok,
    Except.pure_eq_ok] at halloc
  obtain ⟨⟨k, next⟩, ⟨-, -, hpair⟩, hst⟩ := halloc
  obtain ⟨rfl, rfl⟩ := Prod.mk.inj hpair
  obtain ⟨rfl, rfl⟩ := Prod.mk.inj hst
  simp only [Engine.insertMutation, Except.bind_eq_ok, Except.pure_eq_ok] at hins
  obtain ⟨operations, -, companion, -, effects', -, rfl⟩ := hins
  exact o rfl rfl rfl

theorem markRejected (o : Outside R) {rejections : List Rejection} {held : Held}
    (h : e.markRejected st rejections = .ok (held, st')) : R st st' := by
  obtain ⟨inbox, rfl⟩ := markRejected_frame h
  exact o rfl rfl rfl

theorem complete (w : Within e R) (o : Outside R) {push : ℕ} {receipt : PushReceipt}
    {report : ApplyReport} (h : e.complete st push receipt = .ok (report, st')) : R st st' := by
  simp only [Engine.complete, Except.bind_eq_ok, Except.pure_eq_ok, Prod.mk.injEq] at h
  obtain ⟨⟨covered, wireRows⟩, -, touched, -, ⟨settled, affected⟩, hsettle, ⟨marked, st1⟩, hmark,
    ⟨reports, fin⟩, hreb, -, rfl⟩ := h
  have hmarked : R st st1 := w.trans (w.settleCompanions hsettle)
    (w.trans (w.stageAll receipt.records settled affected) (markRejected o hmark))
  have hpushed : R fin (fin.setLastCompletedPush push) := o rfl rfl rfl
  refine w.trans (w.trans hmarked (o ?_ ?_ ?_)) (w.trans (w.rebuildHeld hreb) hpushed)
  all_goals rfl

theorem drop (w : Within e R) (o : Outside R) {n : ℕ} (h : e.dropMutation st n = .ok st') : R st st' := by
  unfold Engine.dropMutation at h
  split at h
  · cases h
    exact w.refl _
  · split at h
    · cases h
    · simp only [Engine.removeRejected, Except.bind_eq_ok, Except.pure_eq_ok] at h
      obtain ⟨⟨held, st1⟩, hmark, ⟨reports, st2⟩, hreb, rfl⟩ := h
      exact w.trans (markRejected o hmark) (w.rebuildHeld hreb)

/-- Every call of the client. -/
theorem act (w : Within e R) (o : Outside R) (c : Client) (a : ClientAction) :
    R c.store (c.act e a).store := by
  have hrefl : R c.store c.store := w.refl _
  cases a with
  | enqueue m => exact commit_keeps (P := R c.store) hrefl fun _ _ hr => w.enqueue o hr
  | freeze maxBytes =>
    refine commit_keeps (P := R c.store) hrefl fun _ st hr => ?_
    rcases freeze_spec hr with rfl | ⟨-, selected, -, -, -, rfl, -⟩
    · exact hrefl
    · exact o rfl rfl rfl
  | acknowledge sequence receipt =>
    simp only [Client.act, Client.acknowledge]
    split
    · exact hrefl
    · refine commit_keeps (P := R c.store) hrefl fun _ _ hr => ?_
      obtain ⟨-, -, ⟨-, -, rfl⟩ | ⟨-, -, hc⟩⟩ := acknowledge_eq_ok.mp hr
      · exact hrefl
      · exact w.complete o hc
  | applyPage page =>
    rcases applyPage_store e c page with heq | ⟨report, ha⟩
    · simp only [Client.act, heq]
      exact hrefl
    · exact w.applyCurrentPage ha
  | receive page request =>
    rcases receive_store e c page request with heq | ⟨report, ha⟩
    · simp only [Client.act, heq]
      exact hrefl
    · exact w.applyCurrentPage ha
  | drop ordinal =>
    refine commit_keeps (P := R c.store) hrefl fun a st hr => ?_
    obtain ⟨st1, hd, heq⟩ := Except.map_eq_ok.mp hr
    obtain ⟨-, rfl⟩ := Prod.mk.inj heq
    exact w.drop o hd
  | setChannels changes =>
    obtain ⟨s, hs⟩ := setChannels_frame changes (c.store, [])
    simp only [Client.act, Client.setChannels, hs]
    exact o rfl rfl rfl
  | pull =>
    simp only [Client.act, Client.downlinkRequest]
    split <;> exact hrefl
  | resolve key => exact o rfl rfl rfl
  | restart => exact hrefl

theorem transactionStep (w : Within e R) (o : Outside R) {acc : Store × List String}
    (step : TransactionStep) : R acc.1 (e.transactionStep acc step).1 := by
  cases step with
  | enqueue m =>
    simp only [Engine.transactionStep]
    split
    · exact w.enqueue o ‹_›
    · exact w.refl _
  | direct op =>
    simp only [Engine.transactionStep]
    split
    · exact w.direct ‹_›
    · exact w.refl _
  | setChannel channel subscribed => exact w.setChannel

/-- Every call of the host for one schema. -/
theorem call (w : Within e R) (o : Outside R) (c : Client) (call : HostCall)
    (hk : call.keepsSchema = true) :
    ∃ c', Host.step ⟨e, c⟩ call = ⟨e, c'⟩ ∧ R c.store c'.store := by
  cases call with
  | call a => exact ⟨_, rfl, w.act o c a⟩
  | transaction body commits =>
    refine ⟨_, rfl, ?_⟩
    have hbody : R c.store (body.foldl e.transactionStep (c.store, [])).1 :=
      List.foldlRecOn (motive := fun acc : Store × List String => R c.store acc.1) body _ (w.refl _)
        fun acc hacc step _ => w.trans hacc (w.transactionStep o step)
    cases commits with
    | true => exact hbody
    | false => exact w.refl _
  | readiness key value =>
    refine ⟨_, rfl, ?_⟩
    cases value with
    | ready => exact o rfl rfl rfl
    | failed => exact w.refl _
    | pending => exact w.refl _
  | dismissRejection ordinal => exact ⟨_, rfl, o rfl rfl rfl⟩
  | reopen e' => cases hk

end Within
end AheadSync
