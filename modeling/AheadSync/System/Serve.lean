import AheadSync.Server.Accounting
import AheadSync.Core.RoundTrip
import AheadSync.Client.Push

/-! What serving a batch does to the row of its client and to the content of the application: a batch that
    is answered from storage does nothing, and one that runs leaves behind its receipt and the effects
    of the handlers whose mutations it accepts. -/

namespace AheadSync

/-! ### Requests as they arrive -/

section Requests

namespace Value

theorem insertEntry_last {k : String} {v : Value} : ∀ {es : List (String × Value)},
    (∀ e ∈ es, e.1 < k) → insertEntry k v es = es ++ [(k, v)]
  | [], _ => rfl
  | (k', v') :: es, h => by
    have hlt : k' < k := h (k', v') (List.mem_cons_self ..)
    rw [insertEntry, if_neg hlt.ne', if_neg hlt.not_gt,
      insertEntry_last fun e he => h e (List.mem_cons_of_mem _ he), List.cons_append]

theorem entries_ofEntries {es : List (String × Value)} (h : es.Pairwise (·.1 < ·.1)) :
    ofEntries es = .obj es := by
  induction es using List.reverseRecOn with
  | nil => rfl
  | append_singleton es e ih =>
    obtain ⟨hes, -, hlast⟩ := List.pairwise_append.mp h
    rw [ofEntries_concat, ih hes, set]
    exact congrArg obj (insertEntry_last fun e' he' => hlast e' he' e (List.mem_singleton_self e))

end Value

/-- A mutation as it arrives. -/
def WireMutation.raw (m : WireMutation) : RawMutation where
  ordinal := m.ordinal
  raw := .ofEntries [("ordinal", .num m.ordinal), ("name", .str m.name), ("version", .num m.version),
    ("operations", .arr (m.operations.map (·.toValue)))]

/-- A request as it arrives. -/
def PushRequest.raw (r : PushRequest) : RawPushRequest :=
  ⟨r.clientId, r.batchSequence, r.mutations.map (·.raw), r.models, r.toValue⟩

variable {r : PushRequest} {m : WireMutation}

theorem get_raw (k : String) : m.raw.raw.get k =
    if k = "operations" then some (.arr (m.operations.map (·.toValue))) else
    if k = "version" then some (.num m.version) else
    if k = "name" then some (.str m.name) else
    if k = "ordinal" then some (.num m.ordinal) else none := by
  simp [WireMutation.raw, Value.ofEntries, Value.setAll]
  rfl

theorem readMutation_raw {seen : List ℕ} (hpos : 0 < m.ordinal ∧ m.ordinal ≤ maxSafeInteger)
    (hnew : m.ordinal ∉ seen) : RawPushRequest.readMutation seen m.raw.raw = .ok m.raw := by
  have hobj : m.raw.raw.asObject.isSome := by
    rw [WireMutation.raw, Value.ofEntries_eq_obj]
    rfl
  have hcounter : (Value.num m.ordinal).readCounter true = .ok m.ordinal :=
    Value.readCounter_num.mpr ⟨hpos.2, fun _ => hpos.1, rfl⟩
  simp [RawPushRequest.readMutation, hobj, Value.index, get_raw, hcounter, hnew, ensure, pure, Except.pure]
  rfl

theorem readMutations_raw : ∀ {ms : List WireMutation} {seen : List ℕ},
    (∀ m ∈ ms, 0 < m.ordinal ∧ m.ordinal ≤ maxSafeInteger) → (ms.map (·.ordinal)).Nodup →
    (∀ m ∈ ms, m.ordinal ∉ seen) →
    RawPushRequest.readMutations seen (ms.map (·.raw.raw)) = .ok (ms.map (·.raw))
  | [], _, _, _, _ => rfl
  | m :: ms, seen, hpos, hnd, hnew => by
    obtain ⟨hm, hms⟩ := List.forall_mem_cons.mp hpos
    obtain ⟨hseen, hrest⟩ := List.forall_mem_cons.mp hnew
    rw [List.map_cons, List.nodup_cons] at hnd
    have hnext : ∀ m' ∈ ms, m'.ordinal ∉ m.ordinal :: seen := by
      intro m' hm' hmem
      rcases List.mem_cons.mp hmem with heq | hmem
      · exact hnd.1 (heq ▸ List.mem_map_of_mem hm')
      · exact hrest m' hm' hmem
    rw [List.map_cons, RawPushRequest.readMutations, readMutation_raw hm hseen, Except.ok_bind,
      show m.raw.ordinal = m.ordinal from rfl, readMutations_raw hms hnd.2 hnext]
    rfl

/-- A request that a client may send is read as it was written. -/
theorem decode_request {j : Json} (hj : j.Rereads r.toValue) (h : r.validate = .ok ()) :
    RawPushRequest.decode j (j.text r.toValue) = .ok r.raw := by
  simp only [PushRequest.validate, Except.bind_eq_ok, ensure_eq_ok, List.forM_eq_ok, positiveCounter] at h
  obtain ⟨_, hclient, _, hseq, _, hmodels, _, hbatch, _, hpos, hnd⟩ := h
  have hget : ∀ k, r.toValue.get k =
      if k = "mutations" then some (.arr (r.mutations.map (·.raw.raw))) else
      if k = "models" then some (.ofCounters r.models) else
      if k = "batchSequence" then some (.num r.batchSequence) else
      if k = "clientId" then some (.str r.clientId) else none := by
    intro k
    have hsorted : (r.models.entries.map fun m => (m.1, Value.num m.2)).Pairwise (·.1 < ·.1) :=
      List.pairwise_map.mpr r.models.sorted
    rw [PushRequest.toValue, Value.entries_ofEntries hsorted]
    simp [Value.ofEntries, Value.setAll]
    rfl
  have hcounter : (Value.num r.batchSequence).readCounter true = .ok r.batchSequence :=
    Value.readCounter_num.mpr ⟨hseq.2, fun _ => hseq.1, rfl⟩
  have hread := readMutations_raw hpos hnd (by simp : ∀ m ∈ r.mutations, m.ordinal ∉ ([] : List ℕ))
  have hname : (Value.str r.clientId).nonblank = .ok r.clientId := by
    simp [Value.nonblank, Value.asStr, Option.filter, hclient, required]
  rw [RawPushRequest.decode, show j.parse (j.text r.toValue) = .ok r.toValue from hj, Except.ok_bind]
  simp [RawPushRequest.ofValue, Value.index, hget, Value.asArray, required, hname, hcounter,
    Value.readModels_ofCounters.mpr ⟨hmodels, rfl⟩, hbatch, hread, ensure, pure, Except.pure,
    PushRequest.raw]

end Requests

/-! ### Effects -/

/-- Content with the calls of handlers whose effects are in it. -/
abbrev Noted (D : Type) := D × List (String × ℕ)

/-- An application whose handlers note the mutation they are called for, of a client, in the content they
    work on. -/
def App.noting {D : Type} (app : App D) (clientId : String) : App (Noted D) where
  handle request content := do
    let (handled, d) ← app.handle request content.1
    return (handled, d, content.2 ++ [(clientId, request.ordinal)])
  load request content := do
    let (loaded, d) ← app.load request content.1
    return (loaded, d, content.2)

/-- The rows of the clients, and the noted effects. -/
def Tables.kept {D : Type} (t : Tables (Noted D)) : Table String Claimed × List (String × ℕ) :=
  (t.clients, t.content.2)

section Kept
variable {D : Type} {b : Backend} {app : App D} {c : String} {t t' : Tables (Noted D)}

theorem callHandle_kept {request : HandleRequest} {handled : Handled}
    (h : (app.noting c).callHandle request t = .ok (handled, t')) :
    t'.kept = (t.clients, t.content.2 ++ [(c, request.ordinal)]) := by
  simp only [App.callHandle, App.noting, Except.bind_eq_ok, Except.mapError_eq_ok, Except.pure_eq_ok,
    Prod.mk.injEq] at h
  obtain ⟨⟨handled', content⟩, ⟨⟨handled₀, d⟩, -, -, rfl⟩, _, -, -, rfl⟩ := h
  rfl

theorem callLoad_kept {request : LoadRequest} {loaded : Loaded}
    (h : (app.noting c).callLoad request t = .ok (loaded, t')) : t'.kept = t.kept := by
  simp only [App.callLoad, App.noting, Except.bind_eq_ok, Except.mapError_eq_ok, Except.pure_eq_ok,
    Prod.mk.injEq] at h
  obtain ⟨⟨loaded', content⟩, ⟨⟨loaded₀, d⟩, -, -, rfl⟩, _, -, -, rfl⟩ := h
  rfl

theorem allocateStamps_kept {changes : List RecordKey} {stamps : Table RecordKey ℕ}
    (h : Backend.allocateStamps changes t = .ok (stamps, t')) : t'.kept = t.kept := by
  refine List.foldlM_ok_induction (fun acc : Table RecordKey ℕ × Tables (Noted D) => acc.2.kept = t.kept)
    (fun acc key out _ hacc hstep => ?_) rfl h
  simp only [Tables.advanceStamp, Except.bind_eq_ok, Except.pure_eq_ok] at hstep
  obtain ⟨_, ⟨_, -, rfl⟩, rfl⟩ := hstep
  exact hacc

theorem publishMember_kept {stamps : Table RecordKey ℕ} {channel : String} {key : RecordKey}
    (h : Backend.publishMember stamps channel t key = .ok t') : t'.kept = t.kept := by
  have hone : ∀ {t : Tables (Noted D)} {stamp : ℕ},
      Backend.publishOne t channel key stamp = .ok t' → t'.kept = t.kept := by
    intro t stamp h
    simp only [Backend.publishOne, Tables.publish, Except.bind_eq_ok, Except.pure_eq_ok] at h
    obtain ⟨_, ⟨_, -, _, -, _, -, rfl⟩, _, -, rfl⟩ := h
    rfl
  unfold Backend.publishMember at h
  split at h
  · exact hone h
  · rw [hone h]
    unfold Tables.ensureStamp
    split
    · rfl
    · rfl

theorem publishIntents_kept {changed : List RecordKey} {stamps : Table RecordKey ℕ}
    {publications : List PublicationIntent}
    (h : b.publishIntents changed stamps publications t = .ok t') : t'.kept = t.kept := by
  refine List.foldlM_ok_induction (fun s : Tables (Noted D) => s.kept = t.kept)
    (fun s intent s' _ hs hstep => ?_) rfl h
  have hfold : ∀ {members : List RecordKey},
      members.foldlM (Backend.publishMember stamps intent.channel) s = .ok s' → s'.kept = t.kept :=
    List.foldlM_ok_induction (fun s : Tables (Noted D) => s.kept = t.kept)
      (fun s key s' _ hs hstep => (publishMember_kept hstep).trans hs) hs
  cases hr : intent.records with
  | none =>
    simp only [Backend.publishIntent, hr, Except.bind_eq_ok, Except.ok_bind] at hstep
    obtain ⟨_, -, hstep⟩ := hstep
    exact hfold hstep
  | some records =>
    simp only [Backend.publishIntent, hr, Except.bind_eq_ok] at hstep
    obtain ⟨_, -, members, -, hstep⟩ := hstep
    exact hfold hstep

theorem loadGroups_kept {owner : String} {versions : Models} {stamps : Table RecordKey ℕ} :
    ∀ {groups : List (String × List RecordKey)} {t : Tables (Noted D)} {outcome : Outcome},
    b.loadGroups (app.noting c) owner versions stamps groups t = .ok (outcome, t') → t'.kept = t.kept
  | [], t, outcome, h => by
    simp only [Backend.loadGroups, Except.ok.injEq, Prod.mk.injEq] at h
    rw [h.2]
  | group :: groups, t, outcome, h => by
    simp only [Backend.loadGroups, Except.bind_eq_ok] at h
    obtain ⟨⟨one, t₁⟩, hone, h⟩ := h
    have h₁ : t₁.kept = t.kept := by
      simp only [Backend.loadGroup, Except.bind_eq_ok] at hone
      obtain ⟨_, -, ⟨loaded, t₂⟩, hload, hone⟩ := hone
      have h₂ := callLoad_kept hload
      split at hone
      · simp only [Except.pure_eq_ok, Prod.mk.injEq] at hone
        rw [← hone.2, h₂]
      · simp only [Except.pure_eq_ok, Prod.mk.injEq] at hone
        rw [← hone.2, h₂]
      · split at hone
        all_goals
          simp only [Except.pure_eq_ok, Prod.mk.injEq] at hone
          rw [← hone.2, h₂]
    split at h
    · simp only [Except.pure_eq_ok, Prod.mk.injEq] at h
      rw [← h.2, h₁]
    · simp only [Except.bind_eq_ok, Except.pure_eq_ok, Prod.mk.injEq] at h
      obtain ⟨⟨rest, t₂⟩, hrest, -, heq⟩ := h
      have hrest : b.loadGroups (app.noting c) owner versions stamps groups t₁ = .ok (rest, t') := heq ▸ hrest
      rw [loadGroups_kept hrest, h₁]

/-- Nothing but the call of the handler is noted. -/
theorem answer_kept {declared : Models} {owner : String} {targets : List RecordKey} {handled : Handled}
    {outcome : Outcome} (h : b.answer (app.noting c) declared owner targets t handled = .ok (outcome, t')) :
    t'.kept = t.kept := by
  cases handled with
  | rejected rejection =>
    simp only [Backend.answer, Except.ok.injEq, Prod.mk.injEq] at h
    rw [h.2]
  | failed error =>
    simp only [Backend.answer, Except.ok.injEq, Prod.mk.injEq] at h
    rw [h.2]
  | settled changes publications =>
    simp only [Backend.answer, Backend.readBack, Except.bind_eq_ok] at h
    obtain ⟨set, -, versions, -, h⟩ := h
    split at h
    · simp only [Except.pure_eq_ok, Prod.mk.injEq] at h
      rw [h.2]
    · simp only [Except.bind_eq_ok] at h
      obtain ⟨⟨stamps, t₁⟩, hstamps, ⟨loaded, t₂⟩, hload, h⟩ := h
      have h₂ : t₂.kept = t.kept := (loadGroups_kept hload).trans (allocateStamps_kept hstamps)
      split at h
      · simp only [Except.pure_eq_ok, Prod.mk.injEq] at h
        rw [← h.2, h₂]
      · simp only [Except.bind_eq_ok, Except.pure_eq_ok, Prod.mk.injEq] at h
        obtain ⟨t₃, hpub, -, rfl⟩ := h
        exact (publishIntents_kept hpub).trans h₂

/-- One mutation: rejected, it leaves the tables as they were; accepted, its effects are there. -/
theorem pushMutation_kept {declared : Models} {owner : String} {acc out : Batch × Db (Noted D)}
    {m : RawMutation} (h : b.pushMutation (app.noting c) declared owner acc m = .ok out) :
    (out.2.tables = acc.2.tables ∧
      ∃ code, out.1.rejections = acc.1.rejections ++ [⟨m.ordinal, code⟩]) ∨
    (out.2.tables.kept = (acc.2.tables.clients, acc.2.tables.content.2 ++ [(c, m.ordinal)]) ∧
      out.1.rejections = acc.1.rejections) := by
  obtain ⟨-, hrejected | ⟨hrejections, -⟩⟩ := pushMutation_spec h
  · exact .inl hrejected
  · refine .inr ⟨?_, hrejections⟩
    simp only [Backend.pushMutation] at h
    split at h
    · cases h
      simp at hrejections
    · rename_i d args targets haccept
      simp only [Except.bind_eq_ok] at h
      obtain ⟨⟨handled, t₁⟩, hhandle, ⟨outcome, t₂⟩, hanswer, h⟩ := h
      have hkept := (answer_kept hanswer).trans (callHandle_kept hhandle)
      cases outcome with
      | error code =>
        simp only [Except.bind_eq_ok, Except.pure_eq_ok] at h
        obtain ⟨_, -, _, -, rfl⟩ := h
        simp at hrejections
      | ok records =>
        simp only [Except.bind_eq_ok, savepoint_release, Except.pure_eq_ok, Except.ok.injEq] at h
        obtain ⟨batch, -, _, rfl, rfl⟩ := h
        exact hkept

/-- The ordinals of a batch without those that were rejected. -/
def accepted (ordinals : List ℕ) (rejections : List Rejection) : List ℕ :=
  ordinals.filter (· ∉ rejections.map (·.ordinal))

theorem accepted_cons_self {o : ℕ} {ordinals : List ℕ} {code : String} {rejections : List Rejection}
    (h : o ∉ ordinals) :
    accepted (o :: ordinals) (⟨o, code⟩ :: rejections) = accepted ordinals rejections := by
  rw [accepted, List.filter_cons_of_neg (by simp), accepted]
  refine List.filter_congr fun o' ho' => ?_
  have hne : o' ≠ o := fun heq => h (heq ▸ ho')
  simp [hne]

/-- A batch leaves the effects of what it accepts, in order. -/
theorem pushMutations_kept {declared : Models} {owner : String} : ∀ {ms : List RawMutation}
    {acc out : Batch × Db (Noted D)}, ms.foldlM (b.pushMutation (app.noting c) declared owner) acc = .ok out →
    (ms.map (·.ordinal)).Nodup →
    ∃ rejections, out.1.rejections = acc.1.rejections ++ rejections ∧
      rejections.map (·.ordinal) ⊆ ms.map (·.ordinal) ∧
      out.2.tables.kept = (acc.2.tables.clients, acc.2.tables.content.2 ++
        (accepted (ms.map (·.ordinal)) rejections).map (c, ·))
  | [], acc, out, h, _ => by
    obtain rfl : acc = out := by simpa using h
    exact ⟨[], by simp, by simp, by simp [accepted, Tables.kept]⟩
  | m :: ms, acc, out, h, hnd => by
    rw [List.map_cons, List.nodup_cons] at hnd
    simp only [List.foldlM_cons, Except.bind_eq_ok] at h
    obtain ⟨mid, hone, h⟩ := h
    obtain ⟨rejections, hrej, hsub, hkept⟩ := pushMutations_kept h hnd.2
    rcases pushMutation_kept hone with ⟨htables, code, hcode⟩ | ⟨hmid, hnone⟩
    · refine ⟨⟨m.ordinal, code⟩ :: rejections, ?_, List.cons_subset_cons _ hsub, ?_⟩
      · rw [hrej, hcode, List.append_assoc]
        rfl
      · rw [hkept, htables, List.map_cons, accepted_cons_self hnd.1]
    · refine ⟨rejections, by rw [hrej, hnone], fun o ho => List.mem_cons_of_mem _ (hsub ho), ?_⟩
      obtain ⟨hclients, hlog⟩ := Prod.mk.inj hmid
      have hin : m.ordinal ∉ rejections.map (·.ordinal) := fun hmem => hnd.1 (hsub hmem)
      rw [hkept, hclients, hlog, List.map_cons, accepted, accepted, List.filter_cons_of_pos (by simpa using hin)]
      simp

end Kept

/-! ### Rows of clients -/

/-- The number of the last batch that ran for a client. -/
def Tables.sequence {D : Type} (t : Tables D) (clientId : String) : ℕ :=
  ((t.clients.lookup clientId).map (·.sequence)).getD 0

/-- The receipt of the last batch that ran for a client. -/
def Tables.receipt {D : Type} (t : Tables D) (clientId : String) : Option PushReceipt :=
  (t.clients.lookup clientId).bind (·.receipt)

/-- The row of a client after a batch ran for it. -/
def Claimed.done (row : Claimed) (receipt : PushReceipt) : Claimed :=
  { row with sequence := receipt.batchSequence, receipt := some receipt }

section Rows
variable {D : Type} {b : Backend} {j : Json} {owner : String} {request : PushRequest}
  {receipt : PushReceipt}

theorem claim_fst (owner : String) (t : Tables D) (clientId : String) :
    (t.claim owner clientId).1.sequence = t.sequence clientId ∧
      (t.claim owner clientId).1.receipt = t.receipt clientId := by
  unfold Tables.claim Tables.sequence Tables.receipt
  cases t.clients.lookup clientId with
  | none => exact ⟨rfl, rfl⟩
  | some row => exact ⟨rfl, rfl⟩

theorem claim_snd (owner : String) (t : Tables D) (clientId : String) :
    (t.claim owner clientId).2.content = t.content ∧
    (t.claim owner clientId).2.clients.lookup clientId = some (t.claim owner clientId).1 ∧
    ∀ other ≠ clientId, (t.claim owner clientId).2.clients.lookup other = t.clients.lookup other := by
  unfold Tables.claim
  cases hl : t.clients.lookup clientId with
  | none => exact ⟨rfl, AList.lookup_insert _, fun other hne => AList.lookup_insert_ne hne⟩
  | some row => exact ⟨rfl, hl, fun _ _ => rfl⟩

/-- Serving the batch of a request: it is the last one again, and answered from its row, or the one after
    it, and run. -/
theorem processPush_serves {app : App D} {t : Tables (Noted D)} {savepoints : List (ℕ × Tables (Noted D))}
    {db : Db (Noted D)} (hj : j.Rereads request.toValue) (hv : request.validate = .ok ())
    (h : b.processPush (app.noting request.clientId) j owner (j.text request.toValue) ⟨t, savepoints⟩ =
      .ok (receipt, db)) :
    (request.batchSequence = t.sequence request.clientId ∧ db.tables = t ∧
      t.receipt request.clientId = some receipt) ∨
    (request.batchSequence = t.sequence request.clientId + 1 ∧
      receipt.clientId = request.clientId ∧ receipt.batchSequence = request.batchSequence ∧
      receipt.rejections.map (·.ordinal) ⊆ request.mutations.map (·.ordinal) ∧
      db.tables.kept = ((t.claim owner request.clientId).2.clients.insert request.clientId
          ((t.claim owner request.clientId).1.done receipt),
        t.content.2 ++ (accepted (request.mutations.map (·.ordinal)) receipt.rejections).map
          (request.clientId, ·))) := by
  obtain ⟨hseq, hreceipt⟩ := claim_fst owner t request.clientId
  obtain ⟨hclaim, hrow, -⟩ := claim_snd owner t request.clientId
  have hpos : 0 < request.batchSequence := by
    simp only [PushRequest.validate, Except.bind_eq_ok, ensure_eq_ok, positiveCounter] at hv
    obtain ⟨-, -, -, hpos, -⟩ := hv
    exact hpos.1
  have hnd : (request.mutations.map (·.ordinal)).Nodup := by
    simp only [PushRequest.validate, Except.bind_eq_ok, ensure_eq_ok] at hv
    obtain ⟨-, -, -, -, -, -, -, -, -, -, hnd⟩ := hv
    exact hnd
  have hords : request.raw.mutations.map (·.ordinal) = request.mutations.map (·.ordinal) := by
    rw [PushRequest.raw, List.map_map]
    rfl
  simp only [Backend.processPush, decode_request hj hv, Except.mapError, Except.bind_eq_ok, ensure_eq_ok]
    at h
  obtain ⟨-, -, raw, hraw, -, -, -, -, h⟩ := h
  obtain rfl := Except.ok.inj hraw
  split at h
  · rename_i heq
    simp only [Except.bind_eq_ok, required_eq_ok, Except.pure_eq_ok, Prod.mk.injEq] at h
    obtain ⟨receipt', hstored, rfl, rfl⟩ := h
    refine .inl ⟨heq.trans hseq, ?_, hreceipt.symm.trans hstored⟩
    -- a client that was not there yet has executed nothing
    have hthere : (t.clients.lookup request.clientId).isSome := by
      cases hl : t.clients.lookup request.clientId with
      | none =>
        rw [Tables.sequence, hl] at hseq
        exact absurd (heq.trans hseq) hpos.ne'
      | some row => rfl
    obtain ⟨row, hl⟩ := Option.isSome_iff_exists.mp hthere
    simp only [PushRequest.raw, Tables.claim, hl]
  · simp only [Except.bind_eq_ok, ensure_eq_ok, Backend.runBatch, Except.mapError_eq_ok, Except.pure_eq_ok,
      Prod.mk.injEq, Tables.saveReceipt, required_eq_ok] at h
    obtain ⟨-, -, -, hnext, ⟨batch, ran⟩, hran, _, -, tables, ⟨row, hl, -, -, rfl⟩, rfl, rfl⟩ := h
    obtain ⟨rejections, hrej, hsub, hkept⟩ := pushMutations_kept hran (hords ▸ hnd)
    rw [List.nil_append] at hrej
    obtain ⟨hclients, hlog⟩ := Prod.mk.inj hkept
    obtain rfl : batch.rejections = rejections := hrej
    have hrow' : row = (t.claim owner request.clientId).1 := by
      rw [hclients] at hl
      exact Option.some.inj (hl.symm.trans hrow)
    refine .inr ⟨hnext.trans (congrArg (· + 1) hseq), rfl, rfl, hords ▸ hsub, ?_⟩
    rw [hords] at hlog
    rw [Tables.kept, hlog, hclients, hrow']
    exact Prod.ext rfl (congrArg (·.2 ++ _) hclaim)

end Rows

end AheadSync
