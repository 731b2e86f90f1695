import AheadSync.Client.Flight
import AheadSync.Client.Reopen

/-! The calls of a host around the calls of its client: transactions with direct writes among them,
    readiness, dismissals and reopenings. What every call of the client and every direct write keeps
    holds of every client that calls of the host for one schema reach. -/

namespace AheadSync

/-- One call of the host, or of the runtime that opens the store. -/
inductive HostCall where
  | call (a : ClientAction)
  | transaction (body : List TransactionStep) (commits : Bool)
  | readiness (key : String) (value : Readiness)
  | dismissRejection (ordinal : ℕ)
  | reopen (e : Engine)

/-- A client with the schema it is open for. -/
structure Host where
  engine : Engine
  client : Client

namespace Host
variable (s : Host)

def step : HostCall → Host
  | .call a => { s with client := s.client.act s.engine a }
  | .transaction body commits => { s with client := s.client.transaction s.engine body commits }
  | .readiness key value =>
    { s with client := { s.client with store := s.client.store.setReadiness key value } }
  | .dismissRejection ordinal =>
    { s with client := { s.client with store := s.client.store.deleteRejection ordinal } }
  | .reopen e =>
    let (engine, client) := s.client.reopen s.engine e
    ⟨engine, client⟩

/-- A store is reopened for the same schema or one that adds to it, by the same build. -/
def Fits : HostCall → Prop
  | .reopen e => e.codecs = s.engine.codecs ∧ Additive s.engine.schema e.schema
  | _ => True

/-- The call fits and completes no push. -/
def Spares (call : HostCall) : Prop :=
  s.Fits call ∧ (s.step call).client.store.lastCompletedPush = s.client.store.lastCompletedPush

/-- A client some run of fitting calls reaches from a fresh file. -/
def Reachable : Prop := ∃ e clientId calls,
  Machine.Along step Fits ⟨e, .opened clientId⟩ calls ∧
    s = Machine.run step ⟨e, .opened clientId⟩ calls

/-- The client after a freeze committed. -/
def committed (st : Store) : Host := { s with client := { s.client with store := st } }

end Host

/-- The call keeps the schema the store is open for. -/
def HostCall.keepsSchema : HostCall → Bool
  | .reopen _ => false
  | _ => true

/-- A client that calls of the host reach from a fresh file, all for one schema. -/
def Host.Reaches (e : Engine) (c : Client) : Prop :=
  ∃ clientId calls, (∀ call ∈ calls, call.keepsSchema = true) ∧
    Machine.run Host.step ⟨e, .opened clientId⟩ calls = ⟨e, c⟩

section Write
variable {e : Engine} {st st' : Store} {op op' : Operation} {k : RecordKey}

/-- Normalizing keeps the record of an operation. -/
theorem normalize_key (h : e.normalize op = .ok op') : e.opKey op = .ok op'.key := by
  simp only [Engine.normalize, Except.bind_eq_ok] at h
  obtain ⟨key, hkey, h⟩ := h
  have hmodel : key.model = op.model := recordKey_model hkey
  rw [hkey]
  split at h
  · simp only [Except.bind_eq_ok, Except.pure_eq_ok] at h
    obtain ⟨-, -, -, -, rfl⟩ := h
    rw [Operation.key, ← hmodel]
  · simp only [Except.bind_eq_ok, Except.pure_eq_ok] at h
    obtain ⟨-, -, -, -, rfl⟩ := h
    rw [Operation.key, ← hmodel]
  · simp only [Except.bind_eq_ok, Except.pure_eq_ok] at h
    obtain ⟨-, -, rfl⟩ := h
    rw [Operation.key, ← hmodel]

/-- An update applies to every row that is there. -/
theorem applyToRow_update (hop : OpOk e op) (hu : op.op = .update) (row : Value) :
    ∃ row', applyToRow (some row) op = .ok (some row') := by
  have hv := hop.values
  rw [ValuesOk] at hv
  simp only [hu] at hv
  obtain ⟨v, model, hv, hobj, -⟩ := hv
  simp [applyToRow, hu, hv, hobj, required]

/-- What one direct write does: it writes the visible row, and where the record is dirty its base; an
    update moves a base that is there along. -/
structure DirectWrite (e : Engine) (st : Store) (op : Operation) (row : Option Value)
    (before : Table RecordKey Value) : Prop where
  row : RowFor e op.key row
  rows : RowsOk e before
  others : ∀ k, k ≠ op.key → before.lookup k = st.before.lookup k
  clean : st.dirty op.key = false → before = st.before
  moved : st.dirty op.key = true → op.op = .update → ∀ base, st.before.lookup op.key = some base →
    applyToRow (some base) op = .ok (before.lookup op.key)

theorem directOne_spec (hwf : Wf e st) (hop : OpOk e op) (h : e.directOne st op = .ok st') :
    ∃ row before, DirectWrite e st op row before ∧
      st' = { st with main := st.main.put op.key row, before := before } := by
  have hn := named_of_canonical (opOk_canonical hop)
  simp only [Engine.directOne, hop.key, Except.ok_bind, Except.bind_eq_ok] at h
  obtain ⟨st1, ha, h⟩ := h
  obtain ⟨row, hrow, -, rfl⟩ := (applyMain_eq_ok hwf hop).mp ha
  have hrowFor := applyToRow_rowFor hop (rowsOk_lookup hwf.main op.key) hrow
  -- a base that is written is a proper row of the record
  have hput : st.dirty op.key = true → ∀ {base : Option Value}, RowFor e op.key base →
      (st.dirty op.key = true → op.op = .update → ∀ b, st.before.lookup op.key = some b →
        applyToRow (some b) op = .ok base) →
      e.beforeSet { st with main := st.main.put op.key row } op.key base = .ok st' →
      ∃ row before, DirectWrite e st op row before ∧
        st' = { st with main := st.main.put op.key row, before := before } := by
    intro hd base hbase hmoved hset
    refine ⟨row, _, ⟨hrowFor, rowsOk_put hwf.before hn hbase, fun k hk => AList.lookup_put_ne hk,
      ?_, ?_⟩, (beforeSet_eq_ok hn hbase).mp hset⟩
    · intro hc
      rw [hd] at hc
      cases hc
    · simpa using hmoved
  cases hd : st.dirty op.key with
  | false =>
    simp only [hd, Bool.not_false, ↓reduceIte, Except.pure_eq_ok] at h
    exact ⟨row, st.before, ⟨hrowFor, hwf.before, fun _ _ => rfl, fun _ => rfl, by simp [hd]⟩, h.symm⟩
  | true =>
    simp only [hd, Bool.not_true, Bool.false_eq_true, ↓reduceIte] at h
    split at h
    · rename_i hnone _
      obtain rfl := Except.ok.inj h
      exact ⟨row, st.before, ⟨hrowFor, hwf.before, fun _ _ => rfl, fun _ => rfl,
        fun _ _ base hb => by rw [hnone] at hb; cases hb⟩, rfl⟩
    · rename_i hnone _
      obtain rfl := Except.ok.inj h
      exact ⟨row, st.before, ⟨hrowFor, hwf.before, fun _ _ => rfl, fun _ => rfl,
        fun _ _ base hb => by rw [hnone] at hb; cases hb⟩, rfl⟩
    · rename_i hdelete _
      exact hput hd rowFor_none (fun _ hu => by rw [hdelete] at hu; cases hu) h
    · split at h
      · rename_i base hbase
        exact hput hd (applyToRow_rowFor hop (rowsOk_lookup hwf.before op.key) hbase)
          (fun _ _ b hb => hb ▸ hbase) h
      · rename_i m hm
        simp only [AList.lookup_put_self] at h
        refine hput hd hrowFor (fun _ hu b hb => ?_) h
        obtain ⟨row', hrow'⟩ := applyToRow_update hop hu b
        rw [hb, hrow'] at hm
        cases hm

theorem wf_directWrite (hwf : Wf e st) (hop : OpOk e op) {row : Option Value}
    {before : Table RecordKey Value} (h : DirectWrite e st op row before) :
    Wf e { st with main := st.main.put op.key row, before := before } := by
  have hn := named_of_canonical (opOk_canonical hop)
  have hmain : Wf e { st with main := st.main.put op.key row } :=
    wf_main hwf (rowsOk_put hwf.main hn h.row)
  exact wf_before hmain h.rows

theorem untouched_directWrite (hk : k ≠ op.key) {row : Option Value} {before : Table RecordKey Value}
    (h : DirectWrite e st op row before) :
    Untouched st { st with main := st.main.put op.key row, before := before } k :=
  ⟨AList.lookup_put_ne hk, h.others k hk, rfl⟩

/-- A direct write goes through the records below a deleted one, and then its own. -/
theorem direct_keeps {P : Store → Prop} (hwf : Wf e st) (h : P st)
    (hone : ∀ s t op, P s → OpOk e op → e.directOne s op = .ok t → P t)
    (hd : e.direct st op = .ok st') : P st' := by
  simp only [Engine.direct, Except.bind_eq_ok] at hd
  obtain ⟨op', hnorm, key, hkey, children, hchildren, mid, hfold, hd⟩ := hd
  obtain ⟨hop, rfl, -, -⟩ := normalize_spec hnorm hkey
  have hcanonical : ∀ child ∈ children, Canonical e child := by
    intro child hc
    unfold Engine.directCascade at hchildren
    split at hchildren
    · exact (mem_descendants hwf hchildren hc).1
    · cases hchildren
      cases hc
  have hmid : P mid := List.foldlM_ok_induction P
    (fun s child t hc hs ht => hone s t _ hs (opOk_delete (hcanonical child hc)) ht) h hfold
  exact hone mid st' op' hmid hop hd

theorem wf_direct (hwf : Wf e st) (hd : e.direct st op = .ok st') : Wf e st' :=
  direct_keeps hwf hwf (fun s t op hs hop hone => by
    obtain ⟨row, before, hwrite, rfl⟩ := directOne_spec hs hop hone
    exact wf_directWrite hs hop hwrite) hd

/-- A direct write leaves the queue, the inbox and the counters. -/
theorem direct_frame (hwf : Wf e st) (hd : e.direct st op = .ok st') :
    ∃ main before, st' = { st with main := main, before := before } :=
  (direct_keeps (P := fun s => Wf e s ∧ ∃ main before, s = { st with main := main, before := before })
    hwf ⟨hwf, _, _, rfl⟩ (fun s t op hs hop hone => by
      obtain ⟨hs, main, before, rfl⟩ := hs
      obtain ⟨row, before', hwrite, rfl⟩ := directOne_spec hs hop hone
      exact ⟨wf_directWrite hs hop hwrite, _, _, rfl⟩) hd).2

/-- A direct write moves the base of a dirty record only. -/
theorem tidy_directOne (hwf : Wf e st) (ht : Tidy st) (hop : OpOk e op)
    (hd : e.directOne st op = .ok st') : Tidy st' := by
  obtain ⟨row, before, hwrite, rfl⟩ := directOne_spec hwf hop hd
  intro k hk
  have hclean : st.dirty k = false := hk
  change before.lookup k = none
  by_cases hkey : k = op.key
  · rw [hwrite.clean (hkey ▸ hclean)]
    exact ht k hclean
  · rw [hwrite.others k hkey]
    exact ht k hclean

theorem tidy_direct (hwf : Wf e st) (ht : Tidy st) (hd : e.direct st op = .ok st') : Tidy st' :=
  (direct_keeps (P := fun s => Wf e s ∧ Tidy s) hwf ⟨hwf, ht⟩ (fun s t op hs hop hone =>
    ⟨by
      obtain ⟨row, before, hwrite, rfl⟩ := directOne_spec hs.1 hop hone
      exact wf_directWrite hs.1 hop hwrite, tidy_directOne hs.1 hs.2 hop hone⟩) hd).2

end Write

section Reaches
variable {e : Engine} {c : Client}

/-- What a fresh client has and every call for the schema keeps, every client it reaches has. -/
theorem reaches_induction (P : Client → Prop) (hopened : ∀ clientId, P (Client.opened clientId))
    (hstep : ∀ c call, call.keepsSchema = true → P c →
      ∃ c', Host.step ⟨e, c⟩ call = ⟨e, c'⟩ ∧ P c')
    (h : Host.Reaches e c) : P c := by
  obtain ⟨clientId, calls, hkeep, hrun⟩ := h
  suffices hall : ∀ {calls : List HostCall} {c₀ : Client}, P c₀ →
      (∀ call ∈ calls, call.keepsSchema = true) →
      ∃ c', Machine.run Host.step ⟨e, c₀⟩ calls = ⟨e, c'⟩ ∧ P c' by
    obtain ⟨c', heq, hP⟩ := hall (hopened clientId) hkeep
    rw [hrun] at heq
    cases heq
    exact hP
  intro calls
  induction calls with
  | nil => exact fun hP _ => ⟨_, rfl, hP⟩
  | cons call calls ih =>
    intro c₀ hP hkeep
    obtain ⟨c₁, hcall, hP₁⟩ := hstep c₀ call (hkeep call (List.mem_cons_self ..)) hP
    obtain ⟨c', hrest, hP'⟩ := ih hP₁ fun x hx => hkeep x (List.mem_cons_of_mem _ hx)
    refine ⟨c', ?_, hP'⟩
    rw [Machine.run, List.foldl_cons, hcall]
    exact hrest

/-- What a store keeps through every call of the client, every direct write and every dismissal. -/
structure Host.Keeps (e : Engine) (P : Store → Prop) : Prop where
  act : ∀ c a, P c.store → P (Client.act e c a).store
  direct : ∀ st st' op, P st → e.direct st op = .ok st' → P st'
  dismiss : ∀ st n, P st → P (st.deleteRejection n)

variable {P : Store → Prop}

/-- So does every step of a transaction, -/
theorem keeps_step (hP : Host.Keeps e P) {acc : Store × List String} (h : P acc.1)
    (step : TransactionStep) : P (e.transactionStep acc step).1 := by
  cases step with
  | enqueue m =>
    have hact := hP.act ⟨acc.1, {}⟩ (.enqueue m) h
    simp only [Engine.transactionStep]
    split
    · rename_i heq
      simpa [Client.act, Client.commit, heq] using hact
    · exact h
  | direct op =>
    simp only [Engine.transactionStep]
    split
    · exact hP.direct acc.1 _ op h ‹_›
    · exact h
  | setChannel channel subscribed =>
    have hact := hP.act ⟨acc.1, {}⟩ (.setChannels [(channel, subscribed)]) h
    have hmarks : ∀ marks, (Store.setChannel (acc.1, marks) (channel, subscribed)).1 =
        (Store.setChannel acc (channel, subscribed)).1 := by
      intro marks
      unfold Store.setChannel
      simp only
      split <;> [split; skip] <;> rfl
    rw [show e.transactionStep acc (.setChannel channel subscribed) =
      Store.setChannel acc (channel, subscribed) from rfl, ← hmarks []]
    exact hact

/-- every call of the host for the schema, -/
theorem keeps_call (hP : Host.Keeps e P) (h : P c.store) (call : HostCall)
    (hk : call.keepsSchema = true) : ∃ c', Host.step ⟨e, c⟩ call = ⟨e, c'⟩ ∧ P c'.store := by
  cases call with
  | call a => exact ⟨_, rfl, hP.act c a h⟩
  | transaction body commits =>
    have hbody : P (body.foldl e.transactionStep (c.store, [])).1 :=
      List.foldlRecOn (motive := fun acc : Store × List String => P acc.1) body _ h
        fun acc hacc step _ => keeps_step hP hacc step
    refine ⟨_, rfl, ?_⟩
    cases commits with
    | true => exact hbody
    | false => exact h
  | readiness key value =>
    refine ⟨_, rfl, ?_⟩
    cases value with
    | ready => exact hP.act c (.resolve key) h
    | failed => exact h
    | pending => exact h
  | dismissRejection ordinal => exact ⟨_, rfl, hP.dismiss c.store ordinal h⟩
  | reopen e' => cases hk

/-- and every client they reach has it. -/
theorem keeps_reaches (hP : Host.Keeps e P) (hopened : ∀ clientId, P (Client.opened clientId).store)
    (h : Host.Reaches e c) : P c.store :=
  reaches_induction (fun c => P c.store) hopened (fun _ call hk h => keeps_call hP h call hk) h

theorem wf_keeps : Host.Keeps e (Wf e) where
  act := fun _ a h => wf_act h a
  direct := fun _ _ _ h hd => wf_direct h hd
  dismiss := fun _ _ h => wf_of_eq h rfl rfl rfl le_rfl

/-- A property kept by stores that are well-formed. -/
theorem keeps_and_wf (hact : ∀ c a, Wf e (Client.store c) → P c.store → P (c.act e a).store)
    (hdirect : ∀ st st' op, Wf e st → P st → e.direct st op = .ok st' → P st')
    (hdismiss : ∀ st n, P st → P (st.deleteRejection n)) :
    Host.Keeps e fun st => Wf e st ∧ P st where
  act := fun c a h => ⟨wf_keeps.act c a h.1, hact c a h.1 h.2⟩
  direct := fun st st' op h hd => ⟨wf_direct h.1 hd, hdirect st st' op h.1 h.2 hd⟩
  dismiss := fun st n h => ⟨wf_keeps.dismiss st n h.1, hdismiss st n h.2⟩

theorem wf_reaches (h : Host.Reaches e c) : Wf e c.store := keeps_reaches wf_keeps wf_opened h

theorem tidy_reaches (h : Host.Reaches e c) : Tidy c.store :=
  (keeps_reaches (keeps_and_wf (P := Tidy) (fun _ a hwf ht => tidy_act hwf ht a)
    (fun _ _ _ hwf ht hd => tidy_direct hwf ht hd) fun _ _ h => h)
    (fun clientId => ⟨wf_opened clientId, fun k _ => by simp [Client.opened]⟩) h).2

theorem flight_reaches (h : Host.Reaches e c) : Flight c.store :=
  (keeps_reaches (keeps_and_wf (P := Flight) (fun _ a hwf hf => flight_act hwf hf a)
    (fun st st' op hwf hf hd => by
      obtain ⟨main, before, rfl⟩ := direct_frame hwf hd
      exact flight_mono hf (fun q hq => ⟨q, hq, rfl, rfl, fun _ hd => hd⟩) rfl rfl
        fun hnone q hq => hnone q hq)
    fun st n hf => flight_mono hf (fun q hq => ⟨q, hq, rfl, rfl, fun _ hd => hd⟩) rfl rfl
      fun hnone q hq => hnone q hq)
    (fun clientId => ⟨wf_opened clientId, flight_opened clientId⟩) h).2

theorem reaches_act (h : Host.Reaches e c) (a : ClientAction) : Host.Reaches e (c.act e a) := by
  obtain ⟨clientId, calls, hkeep, hrun⟩ := h
  refine ⟨clientId, calls ++ [.call a], fun call hc => ?_, ?_⟩
  · rcases List.mem_append.mp hc with hc | hc
    · exact hkeep call hc
    · rw [List.mem_singleton.mp hc]
      rfl
  · rw [Machine.run, List.foldl_concat]
    change (Machine.run Host.step ⟨e, .opened clientId⟩ calls).step (.call a) = _
    rw [hrun]
    rfl

/-- A run of the client alone is one of the host. -/
theorem reaches_of_reachable (h : Reachable e c) : Host.Reaches e c := by
  obtain ⟨clientId, actions, rfl⟩ := h
  exact Machine.run_invariant (P := Host.Reaches e) (fun _ a hc => reaches_act hc a)
    ⟨clientId, [], by simp, rfl⟩

end Reaches

end AheadSync
