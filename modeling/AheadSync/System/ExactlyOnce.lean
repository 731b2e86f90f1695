import AheadSync.Client.Passing
import AheadSync.Lib.Exchange
import AheadSync.System.Serve

/-! Pushing from many clients to one server. The network keeps every request and every receipt it was ever
    given and delivers any of them at any time, as often as it likes or never; clients restart, reopen
    their stores and do whatever else their hosts ask of them in between. -/

namespace AheadSync

/-- Clients by their ids, the tables of the server, what the network was given, and the batches that clients
    have completed and the server has executed, each with its receipt. -/
structure PushSystem (D : Type) where
  host : String → Host
  tables : Tables (Noted D)
  sent : List PushRequest := []
  answers : List PushReceipt := []
  completed : List (PushRequest × PushReceipt) := []
  executed : List (PushRequest × PushReceipt) := []

/-- A host calls its client, or freezes a push and sends it; the server is handed a request, whatever the
    backend, the application and the owner it is served for by then; and the server's host does
    anything that is not a push. -/
inductive PushEvent (D : Type) where
  | call (id : String) (call : HostCall)
  | send (id : String) (maxBytes : ℕ)
  | serve (b : Backend) (app : App D) (j : Json) (owner : String) (request : PushRequest)
  | elsewhere (tables : Tables (Noted D))

namespace PushSystem
variable {D : Type} (s : PushSystem D)

/-- A call of a client. What completes a push is remembered. -/
def called (id : String) (call : HostCall) : PushSystem D :=
  let after := (s.host id).step call
  { s with
    host := Function.update s.host id after
    completed := match call with
      | .call (.acknowledge _ receipt) =>
        if after.client.store.lastCompletedPush = (s.host id).client.store.lastCompletedPush then s.completed
        else s.completed ++ ((s.host id).client.store.frozenPush.map fun request => (request, receipt)).toList
      | _ => s.completed }

/-- A freeze whose request goes out. -/
def send (id : String) (maxBytes : ℕ) : PushSystem D :=
  match (s.host id).engine.freeze (s.host id).client.store maxBytes with
  | .ok (request, _) =>
    { s.called id (.call (.freeze maxBytes)) with sent := s.sent ++ request.toList }
  | .error _ => s

/-- The server is handed a request. What runs is remembered. -/
def serve (b : Backend) (app : App D) (j : Json) (owner : String) (request : PushRequest) : PushSystem D :=
  match b.processPush (app.noting request.clientId) j owner (j.text request.toValue) ⟨s.tables, []⟩ with
  | .ok (receipt, db) =>
    { s with
      tables := db.tables
      answers := s.answers ++ [receipt]
      executed := if request.batchSequence = s.tables.sequence request.clientId then s.executed
        else s.executed ++ [(request, receipt)] }
  | .error _ => s

def step : PushEvent D → PushSystem D
  | .call id call => s.called id call
  | .send id maxBytes => s.send id maxBytes
  | .serve b app j owner request => s.serve b app j owner request
  | .elsewhere tables => { s with tables }

/-- Receipts and requests come from the network, the text of a request is read as it was written, and only
    pushes write the rows of clients. -/
def Allowed : PushEvent D → Prop
  | .call _ call => ∀ sequence receipt, call = .call (.acknowledge sequence receipt) → receipt ∈ s.answers
  | .send _ _ => True
  | .serve _ _ j _ request => request ∈ s.sent ∧ j.Rereads request.toValue
  | .elsewhere tables => tables.kept = s.tables.kept

/-- Fresh clients, and a server no client has pushed to. -/
def init (engine : String → Engine) (content : D) : PushSystem D where
  host id := ⟨engine id, .opened id⟩
  tables := { content := (content, []) }

def Reachable : Prop := ∃ (engine : String → Engine) (content : D) (events : List (PushEvent D)),
  Machine.Along step Allowed (init engine content) events ∧
    s = Machine.run step (init engine content) events

/-- How often the effects of a handler for one mutation of a client were committed. -/
def effects (clientId : String) (ordinal : ℕ) : ℕ := s.tables.content.2.count (clientId, ordinal)

end PushSystem

/-- The ordinals of a completed batch that its receipt accepts. -/
def carriedOut (x : PushRequest × PushReceipt) : List ℕ :=
  accepted (x.1.mutations.map (·.ordinal)) x.2.rejections

/-- What one client and the server know of each other. -/
structure PushView where
  store : Store
  row : Option Claimed
  effects : List ℕ
  sent : List PushRequest
  answers : List PushReceipt
  completed : List (PushRequest × PushReceipt)
  executed : List (PushRequest × PushReceipt)

namespace PushView
variable (v : PushView)

/-- The view as an exchange of numbered requests. -/
def exchange : Exchange.State PushRequest PushReceipt where
  completed := v.completed
  flight := v.store.frozenPush
  executed := v.executed
  sent := {x | x.2 ∈ v.sent ∧ x.1 = x.2.batchSequence}
  answers := {x | x.2 ∈ v.answers ∧ x.1 = x.2.batchSequence}

/-- The ordinals of the completed batches. -/
def issued : List ℕ := v.completed.flatMap fun x => x.1.mutations.map (·.ordinal)

/-- The counters on both sides are the lengths of their histories, the ordinals of completed batches never
    come back, and the effects are those of the executed batches, without what was rejected. -/
structure Good (clientId : String) : Prop where
  client : v.store.clientId = clientId
  safe : Sealed v.store
  encodes : Encodes v.store
  completed : v.store.lastCompletedPush = v.completed.length
  nodup : v.issued.Nodup
  issued : ∀ o ∈ v.issued, o < v.store.nextOrdinal ∧ ∀ q ∈ v.store.queue, q.ordinal ≠ o
  inbox : ∀ o, (v.store.rejections.lookup o).isSome → o < v.store.nextOrdinal ∧
    (∀ q ∈ v.store.queue, q.ordinal ≠ o) ∧ ∀ x ∈ v.completed, o ∉ carriedOut x
  row : ∀ row, v.row = some row → row.clientId = clientId
  sequence : (v.row.map (·.sequence)).getD 0 = v.executed.length
  receipt : ∀ x, v.executed.getLast? = some x → v.row.bind (·.receipt) = some x.2 ∧
    x.2.batchSequence = v.executed.length ∧ x.2.clientId = clientId
  effects : v.effects = v.executed.flatMap carriedOut
  sent : ∀ r ∈ v.sent, r.validate = .ok () ∧ r.clientId = clientId
  sound : Exchange.Sound v.exchange

end PushView

namespace PushSystem
variable {D : Type} (s : PushSystem D)

def view (clientId : String) : PushView where
  store := (s.host clientId).client.store
  row := s.tables.clients.lookup clientId
  effects := (s.tables.content.2.filter (·.1 = clientId)).map (·.2)
  sent := s.sent.filter (·.clientId = clientId)
  answers := s.answers.filter (·.clientId = clientId)
  completed := s.completed.filter (·.1.clientId = clientId)
  executed := s.executed.filter (·.1.clientId = clientId)

end PushSystem

section Good
variable {c : String} {v : PushView} {st' : Store} {request : PushRequest} {receipt : PushReceipt}

/-- What the client's side of the view keeps through a step that completes nothing. -/
theorem good_store (h : v.Good c) (hclient : st'.clientId = v.store.clientId) (hsafe : Sealed st')
    (hencodes : Encodes st') (hlast : st'.lastCompletedPush = v.store.lastCompletedPush)
    (hfresh : v.store.nextOrdinal ≤ st'.nextOrdinal)
    (hqueue : ∀ q' ∈ st'.queue, (∃ q ∈ v.store.queue, q'.ordinal = q.ordinal) ∨
      v.store.nextOrdinal ≤ q'.ordinal)
    (hinbox : ∀ o, (st'.rejections.lookup o).isSome → (v.store.rejections.lookup o).isSome ∨
      (∃ q ∈ v.store.queue, q.ordinal = o) ∧ ∀ q' ∈ st'.queue, q'.ordinal ≠ o)
    (hsound : Exchange.Sound { v with store := st' }.exchange) : { v with store := st' }.Good c where
  client := hclient.trans h.client
  safe := hsafe
  encodes := hencodes
  completed := hlast.trans h.completed
  nodup := h.nodup
  issued := by
    intro o ho
    obtain ⟨hlt, hnot⟩ := h.issued o ho
    refine ⟨hlt.trans_le hfresh, fun q' hq' heq => ?_⟩
    rcases hqueue q' hq' with ⟨q, hq, hord⟩ | hnew
    · exact hnot q hq (hord.symm.trans heq)
    · omega
  inbox := by
    intro o ho
    rcases hinbox o ho with hold | ⟨⟨q, hq, hord⟩, hgone⟩
    · obtain ⟨hlt, hnot, haccepted⟩ := h.inbox o hold
      refine ⟨hlt.trans_le hfresh, fun q' hq' heq => ?_, haccepted⟩
      rcases hqueue q' hq' with ⟨q, hq, hord⟩ | hnew
      · exact hnot q hq (hord.symm.trans heq)
      · omega
    · have hlt := h.safe.fresh q hq
      refine ⟨by change o < st'.nextOrdinal; omega, hgone, fun x hx hmem => ?_⟩
      have hissued : o ∈ v.issued := List.mem_flatMap.mpr ⟨x, hx, List.mem_of_mem_filter hmem⟩
      exact (h.issued o hissued).2 q hq hord
  row := h.row
  sequence := h.sequence
  receipt := h.receipt
  effects := h.effects
  sent := h.sent
  sound := hsound

/-- A plain call. -/
theorem good_plain (h : v.Good c) (hp : Bypasses v.store st') (hs : Steady v.store st') :
    { v with store := st' }.Good c := by
  obtain ⟨hfrozen, hencodes⟩ := frozenPush_plain hp hs h.safe
  refine good_store h hp.client hs.safe (hencodes h.encodes) hp.completed hp.fresh (fun q' hq' => ?_)
    (fun o ho => ?_) ?_
  · rcases hp.queue q' hq' with ⟨q, hq, hord, -⟩ | ⟨hnew, -⟩
    · exact .inl ⟨q, hq, hord⟩
    · exact .inr hnew
  · rcases hp.inbox o ho with hold | ⟨⟨q, hq, hord, -⟩, hgone⟩
    · exact .inl hold
    · exact .inr ⟨⟨q, hq, hord⟩, hgone⟩
  · have heq : { v with store := st' }.exchange = v.exchange := by
      simp only [PushView.exchange, hfrozen]
    exact heq ▸ h.sound

/-- A freeze. -/
theorem good_freeze (h : v.Good c) {e : Engine} {maxBytes : ℕ} {answer : Option PushRequest}
    (hf : e.freeze v.store maxBytes = .ok (answer, st')) : { v with store := st' }.Good c := by
  rcases freeze_passes h.safe hf with rfl | ⟨hidle, hclient, hlast, hfresh, hinbox, hords, hencodes⟩
  · exact h
  · have hmem : ∀ o, (∃ q ∈ st'.queue, q.ordinal = o) → ∃ q ∈ v.store.queue, o = q.ordinal := by
      rintro o ⟨q', hq', rfl⟩
      have hin : q'.ordinal ∈ v.store.queue.map (·.ordinal) := hords ▸ List.mem_map_of_mem hq'
      obtain ⟨q, hq, heq⟩ := List.mem_map.mp hin
      exact ⟨q, hq, heq.symm⟩
    refine good_store h hclient (sealed_freeze h.safe hf) hencodes hlast hfresh.ge
      (fun q' hq' => .inl (hmem _ ⟨q', hq', rfl⟩)) (fun o ho => .inl (hinbox ▸ ho)) ?_
    have hfree : v.exchange.flight = none := (frozenPush_eq_none h.encodes).mpr hidle
    cases hfrozen : st'.frozenPush with
    | none =>
      have heq : { v with store := st' }.exchange = v.exchange := by
        simp only [PushView.exchange, hfrozen]
        exact congrArg (fun flight => ({ v.exchange with flight } : Exchange.State _ _)) hfree.symm
      exact heq ▸ h.sound
    | some request =>
      have hstep := Exchange.sound_step h.sound (.take request hfree)
      simp only [PushView.exchange, hfrozen]
      exact hstep

/-- The push in flight goes out. -/
theorem good_sent (h : v.Good c) (hr : v.store.frozenPush = some request) :
    { v with sent := v.sent ++ [request] }.Good c := by
  obtain ⟨hclient, hseq, hvalid, -⟩ := frozenPush_spec hr
  refine { h with sent := fun r hr => ?_, sound := ?_ }
  · rcases List.mem_append.mp hr with hr | hr
    · exact h.sent r hr
    · obtain rfl := List.mem_singleton.mp hr
      exact ⟨hvalid, hclient.trans h.client⟩
  · have hstep := Exchange.sound_step h.sound (.send request hr)
    have heq : { v with sent := v.sent ++ [request] }.exchange =
        { v.exchange with
          sent := insert (v.exchange.completed.length + 1, request) v.exchange.sent } := by
      simp only [PushView.exchange, Exchange.State.mk.injEq, true_and, and_true]
      ext ⟨n, r⟩
      simp only [Set.mem_ofPred_eq, List.mem_append, List.mem_singleton, Set.mem_insert_iff, Prod.mk.injEq]
      constructor
      · rintro ⟨hr | rfl, hn⟩
        · exact .inr ⟨hr, hn⟩
        · exact .inl ⟨by rw [hn, hseq, h.completed], rfl⟩
      · rintro (⟨hn, rfl⟩ | ⟨hr, hn⟩)
        · exact ⟨.inr rfl, by rw [hn, hseq, h.completed]⟩
        · exact ⟨.inl hr, hn⟩
    exact heq ▸ hstep

/-- A receipt goes out. -/
theorem answers_append {n : ℕ} (hn : receipt.batchSequence = n) :
    { v with answers := v.answers ++ [receipt] }.exchange.answers = insert (n, receipt) v.exchange.answers := by
  simp only [PushView.exchange]
  ext ⟨m, a⟩
  simp only [Set.mem_ofPred_eq, List.mem_append, List.mem_singleton, Set.mem_insert_iff, Prod.mk.injEq]
  constructor
  · rintro ⟨ha | rfl, hm⟩
    · exact .inr ⟨ha, hm⟩
    · exact .inl ⟨hm.trans hn, rfl⟩
  · rintro (⟨hm, rfl⟩ | ⟨ha, hm⟩)
    · exact ⟨.inr rfl, hm.trans hn.symm⟩
    · exact ⟨.inl ha, hm⟩

/-- The last receipt goes out again. -/
theorem good_again (h : v.Good c) (hr : v.row.bind (·.receipt) = some receipt)
    (hpos : 0 < (v.row.map (·.sequence)).getD 0) :
    receipt.clientId = c ∧ { v with answers := v.answers ++ [receipt] }.Good c := by
  have hsome : v.executed.getLast?.isSome := by
    rw [h.sequence] at hpos
    rw [List.getLast?_eq_some_getLast (List.ne_nil_of_length_pos hpos)]
    rfl
  obtain ⟨x, hx⟩ := Option.isSome_iff_exists.mp hsome
  obtain ⟨hstored, hseq, hclient⟩ := h.receipt x hx
  obtain rfl : receipt = x.2 := Option.some.inj (hr.symm.trans hstored)
  refine ⟨hclient, { h with sound := ?_ }⟩
  have hstep := Exchange.sound_step h.sound (.again x.1 x.2 hx)
  have hanswers := answers_append (v := v) hseq
  simp only [PushView.exchange] at hstep hanswers ⊢
  rw [hanswers]
  exact hstep

/-- A batch runs. -/
theorem good_served (h : v.Good c) (hr : request ∈ v.sent)
    (hnext : request.batchSequence = v.executed.length + 1) (hclient : receipt.clientId = c)
    (hseq : receipt.batchSequence = request.batchSequence) {row : Claimed} (hrow : row.clientId = c) :
    { v with
      row := some (row.done receipt)
      effects := v.effects ++ carriedOut (request, receipt)
      answers := v.answers ++ [receipt]
      executed := v.executed ++ [(request, receipt)] }.Good c := by
  have hlen : receipt.batchSequence = v.executed.length + 1 := hseq.trans hnext
  refine { h with
    row := fun row' hrow' => ?_
    sequence := ?_
    receipt := fun x hx => ?_
    effects := ?_
    sound := ?_ }
  · obtain rfl := Option.some.inj hrow'
    exact hrow
  · simp [Claimed.done, hlen]
  · rw [List.getLast?_concat, Option.some.injEq] at hx
    subst hx
    exact ⟨rfl, by simp [hlen], hclient⟩
  · rw [List.flatMap_append, h.effects, List.flatMap_singleton]
  · have hstep := Exchange.sound_step h.sound (.execute request receipt ⟨hr, hnext.symm⟩)
    have hanswers := answers_append (v := v) hlen
    simp only [PushView.exchange] at hstep hanswers ⊢
    rw [hanswers]
    exact hstep

/-- A receipt completes the push in flight. -/
theorem good_completed (h : v.Good c) (hr : v.store.frozenPush = some request) (ha : receipt ∈ v.answers)
    (hseq : receipt.batchSequence = v.store.lastCompletedPush + 1) (hsafe : Sealed st')
    (hdone : Concludes v.store st' receipt) :
    { v with store := st', completed := v.completed ++ [(request, receipt)] }.Good c := by
  obtain ⟨-, -, -, hmutations⟩ := frozenPush_spec hr
  have hords : request.mutations.map (·.ordinal) =
      (batchOf v.store (v.store.lastCompletedPush + 1)).map (·.ordinal) := by
    rw [hmutations, List.map_map]
    rfl
  have hnd : (v.store.queue.map (·.ordinal)).Nodup := h.safe.sorted.imp fun hlt => ne_of_lt hlt
  have hbatch : ∀ o ∈ request.mutations.map (·.ordinal), ∃ q ∈ v.store.queue, q.ordinal = o ∧
      q.push = some (v.store.lastCompletedPush + 1) := by
    intro o ho
    rw [hords] at ho
    obtain ⟨q, hq, rfl⟩ := List.mem_map.mp ho
    exact ⟨q, (mem_batchOf.mp hq).1, rfl, (mem_batchOf.mp hq).2⟩
  have hsent : ∀ q ∈ v.store.queue, q.push = none → q.ordinal ∉ request.mutations.map (·.ordinal) := by
    intro q hq hnone ho
    obtain ⟨q', hq', hord, hpush⟩ := hbatch _ ho
    obtain rfl : q' = q := List.inj_on_of_nodup_map hnd hq' hq hord
    rw [hnone] at hpush
    cases hpush
  have hgone : ∀ q' ∈ st'.queue, q'.ordinal ∉ request.mutations.map (·.ordinal) := by
    intro q' hq'
    obtain ⟨-, q, hq, hord, hnone⟩ := hdone.queue q' hq'
    exact hord ▸ hsent q hq hnone
  have hidle : ¬∃ q ∈ st'.queue, q.push.isSome := by
    rintro ⟨q, hq, hsome⟩
    rw [(hdone.queue q hq).1] at hsome
    cases hsome
  refine { h with
    client := hdone.client.trans h.client
    safe := hsafe
    encodes := fun hsome => absurd hsome hidle
    completed := ?_
    nodup := ?_
    issued := fun o ho => ?_
    inbox := fun o ho => ?_
    sound := ?_ }
  · rw [List.length_append, ← h.completed, List.length_singleton]
    exact hdone.completed
  · rw [PushView.issued, List.flatMap_append, List.flatMap_singleton]
    refine List.Nodup.append h.nodup ?_ fun o ho hnew => ?_
    · rw [hords]
      exact hnd.sublist (List.filter_sublist.map _)
    · obtain ⟨q, hq, hord, -⟩ := hbatch o hnew
      exact (h.issued o ho).2 q hq hord
  · rw [PushView.issued, List.flatMap_append, List.flatMap_singleton, List.mem_append] at ho
    rcases ho with ho | ho
    · obtain ⟨hlt, hnot⟩ := h.issued o ho
      refine ⟨hdone.fresh.symm ▸ hlt, fun q' hq' heq => ?_⟩
      obtain ⟨-, q, hq, hord, -⟩ := hdone.queue q' hq'
      exact hnot q hq (hord.symm.trans heq)
    · obtain ⟨q, hq, rfl, -⟩ := hbatch o ho
      exact ⟨hdone.fresh.symm ▸ h.safe.fresh q hq, fun q' hq' heq => hgone q' hq' (heq ▸ ho)⟩
  · have hold : ∀ q ∈ v.store.queue, q.ordinal = o → ∀ x ∈ v.completed, o ∉ carriedOut x := by
      intro q hq hord x hx hmem
      exact (h.issued o (List.mem_flatMap.mpr ⟨x, hx, List.mem_of_mem_filter hmem⟩)).2 q hq hord
    rcases hdone.inbox o ho with hst | ⟨⟨q, hq, rfl, hwhy⟩, hleft⟩
    · obtain ⟨hlt, hnot, haccepted⟩ := h.inbox o hst
      refine ⟨hdone.fresh.symm ▸ hlt, fun q' hq' heq => ?_, fun x hx hmem => ?_⟩
      · obtain ⟨-, q, hq, hord, -⟩ := hdone.queue q' hq'
        exact hnot q hq (hord.symm.trans heq)
      · rcases List.mem_append.mp hx with hx | hx
        · exact haccepted x hx hmem
        · obtain rfl := List.mem_singleton.mp hx
          obtain ⟨q, hq, hord, -⟩ := hbatch o (List.mem_of_mem_filter hmem)
          exact hnot q hq hord
    · refine ⟨hdone.fresh.symm ▸ h.safe.fresh q hq, hleft, fun x hx hmem => ?_⟩
      rcases List.mem_append.mp hx with hx | hx
      · exact hold q hq rfl x hx hmem
      · obtain rfl := List.mem_singleton.mp hx
        obtain ⟨hin, hnot⟩ := List.mem_filter.mp hmem
        rcases hwhy with hnone | hrej
        · exact hsent q hq hnone hin
        · exact of_decide_eq_true hnot hrej
  · have hanswered : (v.exchange.completed.length + 1, receipt) ∈ v.exchange.answers :=
      ⟨ha, by rw [hseq, h.completed]; rfl⟩
    have hstep := Exchange.sound_step h.sound (.complete request receipt hr hanswered)
    have hfree : st'.frozenPush = none := by
      rw [Store.frozenPush, if_neg]
      rwa [List.any_eq_true]
    simp only [PushView.exchange, hfree] at hstep ⊢
    exact hstep

end Good

section Steps
variable {D : Type} {s : PushSystem D} {id c : String} {call : HostCall}

/-- What a call of one client does to a view, unless it delivers a receipt. -/
theorem view_called (h : (s.called id call).completed = s.completed) : (s.called id call).view c =
    if c = id then { s.view c with store := ((s.host id).step call).client.store } else s.view c := by
  split_ifs with hc
  · subst hc
    simp only [PushSystem.view, h]
    simp only [PushSystem.called, Function.update_self]
  · simp only [PushSystem.view, h]
    simp only [PushSystem.called, Function.update_of_ne hc]

theorem good_frozen (h : (s.view id).Good id) (maxBytes : ℕ) :
    { s.view id with
      store := ((s.host id).step (.call (.freeze maxBytes))).client.store }.Good id := by
  simp only [Host.step, Client.act, Client.commit]
  split
  · rename_i answer st hf
    exact good_freeze h hf
  · exact h

theorem good_called (h : ∀ c, (s.view c).Good c) (ha : s.Allowed (.call id call)) (c : String) :
    ((s.called id call).view c).Good c := by
  have hkeeps : (s.called id call).completed = s.completed → { s.view id with
      store := ((s.host id).step call).client.store }.Good id → ((s.called id call).view c).Good c := by
    intro hsame hgood
    rw [view_called hsame]
    split_ifs with hc
    · exact hc ▸ hgood
    · exact h c
  have hplain : call.Plain → { s.view id with store := ((s.host id).step call).client.store }.Good id :=
    fun hp => good_plain (h id) (bypasses_step (h id).safe hp) (steady_step (h id).safe call)
  cases call with
  | transaction body commits => exact hkeeps rfl (hplain trivial)
  | readiness key value => exact hkeeps rfl (hplain trivial)
  | dismissRejection ordinal => exact hkeeps rfl (hplain trivial)
  | reopen e => exact hkeeps rfl (hplain trivial)
  | call a =>
    cases a with
    | freeze maxBytes => exact hkeeps rfl (good_frozen (h id) maxBytes)
    | acknowledge sequence receipt =>
      have hanswer := ha sequence receipt rfl
      rcases acknowledge_step (h id).safe sequence receipt with hsame | ⟨hclient, hseq, hsent, hdone⟩
      · refine hkeeps ?_ ?_
        · simp only [PushSystem.called, hsame, if_true]
        · rw [hsame]
          exact h id
      · obtain ⟨request, hencode⟩ := (h id).encodes hsent
        have hfrozen : (s.view id).store.frozenPush = some request := frozenPush_eq_some.mpr ⟨hsent, hencode⟩
        have hid : request.clientId = id := (frozenPush_spec hfrozen).1.trans (h id).client
        have hcompleted : (s.called id (.call (.acknowledge sequence receipt))).completed =
            s.completed ++ [(request, receipt)] := by
          have hmoved := hdone.completed
          simp only [PushSystem.called]
          rw [if_neg (by omega)]
          exact congrArg (s.completed ++ ·) (by rw [show (s.host id).client.store.frozenPush = _ from hfrozen]; rfl)
        by_cases hc : c = id
        · subst hc
          have hgood := good_completed (h c) hfrozen
            (List.mem_filter.mpr ⟨hanswer, decide_eq_true (hclient.trans (h c).client)⟩) hseq
            (steady_step (h c).safe _).safe hdone
          have hview : (s.called c (.call (.acknowledge sequence receipt))).view c = { s.view c with
              store := ((s.host c).step (.call (.acknowledge sequence receipt))).client.store
              completed := (s.view c).completed ++ [(request, receipt)] } := by
            simp only [PushSystem.view, hcompleted, List.filter_append]
            simp only [PushSystem.called, Function.update_self]
            simp [hid]
          exact hview ▸ hgood
        · have hview : (s.called id (.call (.acknowledge sequence receipt))).view c = s.view c := by
            simp only [PushSystem.view, hcompleted, List.filter_append]
            simp only [PushSystem.called, Function.update_of_ne hc]
            simp [hid, Ne.symm hc]
          exact hview ▸ h c
    | enqueue m => exact hkeeps rfl (hplain trivial)
    | applyPage page => exact hkeeps rfl (hplain trivial)
    | receive page request => exact hkeeps rfl (hplain trivial)
    | drop ordinal => exact hkeeps rfl (hplain trivial)
    | setChannels changes => exact hkeeps rfl (hplain trivial)
    | pull => exact hkeeps rfl (hplain trivial)
    | resolve key => exact hkeeps rfl (hplain trivial)
    | restart => exact hkeeps rfl (hplain trivial)

theorem good_send (h : ∀ c, (s.view c).Good c) (maxBytes : ℕ) (c : String) :
    ((s.send id maxBytes).view c).Good c := by
  unfold PushSystem.send
  split
  · rename_i answer st hf
    have hallowed : s.Allowed (.call id (.call (.freeze maxBytes))) := fun _ _ heq => by cases heq
    have hcalled := good_called h hallowed c
    cases answer with
    | none =>
      simp only [Option.toList_none, List.append_nil]
      exact hcalled
    | some request =>
      have hstore : ((s.host id).step (.call (.freeze maxBytes))).client.store = st := by
        simp only [Host.step, Client.act, Client.commit, hf]
      have hfrozen : st.frozenPush = some request := freeze_frozenPush (h id).safe hf
      have hid : request.clientId = id := by
        have hclient := (good_frozen (h id) maxBytes).client
        rw [hstore] at hclient
        exact (frozenPush_spec hfrozen).1.trans hclient
      by_cases hc : c = id
      · subst hc
        have hflight : ((s.called c (.call (.freeze maxBytes))).view c).store.frozenPush = some request := by
          rw [view_called rfl, if_pos rfl]
          exact hstore ▸ hfrozen
        have hgood := good_sent hcalled hflight
        have hview : { s.called c (.call (.freeze maxBytes)) with sent := s.sent ++ [request] }.view c =
            { (s.called c (.call (.freeze maxBytes))).view c with
              sent := ((s.called c (.call (.freeze maxBytes))).view c).sent ++ [request] } := by
          simp only [PushSystem.view, List.filter_append]
          simp [hid, PushSystem.called]
        exact hview ▸ hgood
      · have hview : { s.called id (.call (.freeze maxBytes)) with sent := s.sent ++ [request] }.view c =
            (s.called id (.call (.freeze maxBytes))).view c := by
          simp only [PushSystem.view, List.filter_append]
          simp [hid, Ne.symm hc, PushSystem.called]
        exact hview ▸ hcalled
  · exact h c

theorem good_serve (h : ∀ c, (s.view c).Good c) {b : Backend} {app : App D} {j : Json} {owner : String}
    {request : PushRequest} (ha : s.Allowed (.serve b app j owner request)) (c : String) :
    ((s.serve b app j owner request).view c).Good c := by
  unfold PushSystem.serve
  split
  · rename_i receipt db hp
    obtain ⟨hsent, hj⟩ := ha
    have hgood := h request.clientId
    have hrequest : request ∈ (s.view request.clientId).sent := List.mem_filter.mpr ⟨hsent, by simp⟩
    have hsequence : s.tables.sequence request.clientId = (s.view request.clientId).executed.length :=
      hgood.sequence
    have hpos : 0 < request.batchSequence := by
      obtain ⟨hvalid, -⟩ := hgood.sent request hrequest
      simp only [PushRequest.validate, Except.bind_eq_ok, ensure_eq_ok, positiveCounter] at hvalid
      obtain ⟨-, -, -, hpos, -⟩ := hvalid
      exact hpos.1
    rcases processPush_serves hj (hgood.sent request hrequest).1 hp with
      ⟨hseq, htables, hreceipt⟩ | ⟨hseq, hclient, hbatch, -, hkept⟩
    · have hview : ∀ c, ({ s with
          tables := db.tables
          answers := s.answers ++ [receipt]
          executed := if request.batchSequence = s.tables.sequence request.clientId then s.executed
            else s.executed ++ [(request, receipt)] } : PushSystem D).view c =
          { s.view c with answers := (s.view c).answers ++ [receipt].filter (·.clientId = c) } := by
        intro c
        rw [if_pos hseq, htables]
        simp only [PushSystem.view, List.filter_append]
      obtain ⟨hown, hagain⟩ := good_again hgood hreceipt (by rw [hseq] at hpos; exact hpos)
      rw [hview]
      by_cases hc : c = request.clientId
      · subst hc
        rw [List.filter_cons_of_pos (by simp [hown]), List.filter_nil]
        exact hagain
      · rw [List.filter_cons_of_neg (by simp [hown, Ne.symm hc]), List.filter_nil, List.append_nil]
        exact h c
    · obtain ⟨hclients, heffects⟩ := Prod.mk.inj hkept
      obtain ⟨-, hrow, hothers⟩ := claim_snd owner s.tables request.clientId
      by_cases hc : c = request.clientId
      · subst hc
        have hclaimed : (s.tables.claim owner request.clientId).1.clientId = request.clientId := by
          unfold Tables.claim
          cases hl : s.tables.clients.lookup request.clientId with
          | none => rfl
          | some row => exact hgood.row row hl
        have hrun := good_served hgood hrequest (hseq.trans (congrArg (· + 1) hsequence)) hclient hbatch hclaimed
        have hview : ({ s with
            tables := db.tables
            answers := s.answers ++ [receipt]
            executed := if request.batchSequence = s.tables.sequence request.clientId then s.executed
              else s.executed ++ [(request, receipt)] } : PushSystem D).view request.clientId =
            { s.view request.clientId with
              row := some ((s.tables.claim owner request.clientId).1.done receipt)
              effects := (s.view request.clientId).effects ++ carriedOut (request, receipt)
              answers := (s.view request.clientId).answers ++ [receipt]
              executed := (s.view request.clientId).executed ++ [(request, receipt)] } := by
          rw [if_neg (by omega)]
          simp only [PushSystem.view, hclients, heffects, List.filter_append, List.map_append,
            AList.lookup_insert]
          simp [hclient, carriedOut, List.filter_map, Function.comp_def]
        exact hview ▸ hrun
      · have hview : ({ s with
            tables := db.tables
            answers := s.answers ++ [receipt]
            executed := if request.batchSequence = s.tables.sequence request.clientId then s.executed
              else s.executed ++ [(request, receipt)] } : PushSystem D).view c = s.view c := by
          rw [if_neg (by omega)]
          simp only [PushSystem.view, hclients, heffects, List.filter_append, List.map_append,
            AList.lookup_insert_ne hc, hothers c hc]
          simp [hclient, Ne.symm hc, List.filter_map, Function.comp_def]
        exact hview ▸ h c
  · exact h c

/-- Every step keeps every view good. -/
theorem good_step {event : PushEvent D} (h : ∀ c, (s.view c).Good c) (ha : s.Allowed event) :
    ∀ c, ((s.step event).view c).Good c := by
  cases event with
  | call id call => exact good_called h ha
  | send id maxBytes => exact good_send h maxBytes
  | serve b app j owner request => exact good_serve h ha
  | elsewhere tables =>
    intro c
    obtain ⟨hclients, heffects⟩ := Prod.mk.inj ha
    have hview : (s.step (.elsewhere tables)).view c = s.view c := by
      simp only [PushSystem.view, PushSystem.step, hclients, heffects]
    exact hview ▸ h c

theorem good_init (engine : String → Engine) (content : D) (c : String) :
    ((PushSystem.init engine content).view c).Good c where
  client := rfl
  safe := sealed_opened c
  encodes := by simp [Encodes, PushSystem.view, PushSystem.init, Client.opened]
  completed := rfl
  nodup := List.nodup_nil
  issued := by simp [PushView.issued, PushSystem.view, PushSystem.init]
  inbox := by simp [PushSystem.view, PushSystem.init, Client.opened]
  row := by simp [PushSystem.view, PushSystem.init]
  sequence := rfl
  receipt := by simp [PushSystem.view, PushSystem.init]
  effects := rfl
  sent := by simp [PushSystem.view, PushSystem.init]
  sound := {
    sent := by simp [PushView.exchange, PushSystem.view, PushSystem.init]
    answers := by simp [PushView.exchange, PushSystem.view, PushSystem.init]
    ahead := .inl rfl }

theorem good_reachable (h : s.Reachable) (c : String) : (s.view c).Good c := by
  obtain ⟨engine, content, events, halong, rfl⟩ := h
  exact Machine.run_keeps (P := fun s : PushSystem D => ∀ c, (s.view c).Good c)
    (fun s event hs ha => good_step hs ha) (good_init engine content) halong c

end Steps

section Results
variable {D : Type} {s : PushSystem D} {c : String} {v : PushView}

/-- Ordinals of completed batches, and of the one in flight. -/
theorem flight_ordinals (h : v.Good c) {request : PushRequest} (hr : v.store.frozenPush = some request) :
    (request.mutations.map (·.ordinal)).Nodup ∧ ∀ o ∈ request.mutations.map (·.ordinal),
      ∃ q ∈ v.store.queue, q.ordinal = o ∧ q.push.isSome := by
  obtain ⟨-, -, -, hmutations⟩ := frozenPush_spec hr
  have hords : request.mutations.map (·.ordinal) =
      (batchOf v.store (v.store.lastCompletedPush + 1)).map (·.ordinal) := by
    rw [hmutations, List.map_map]
    rfl
  rw [hords]
  refine ⟨(h.safe.sorted.imp fun hlt => ne_of_lt hlt).sublist (List.filter_sublist.map _), fun o ho => ?_⟩
  obtain ⟨q, hq, rfl⟩ := List.mem_map.mp ho
  exact ⟨q, (mem_batchOf.mp hq).1, rfl, by rw [(mem_batchOf.mp hq).2]; rfl⟩

/-- The effects that were committed are those of completed batches, and at most those of the one in
    flight. -/
theorem mem_effects (h : v.Good c) {o : ℕ} (ho : o ∈ v.effects) :
    (∃ x ∈ v.completed, o ∈ carriedOut x) ∨ ∃ q ∈ v.store.queue, q.ordinal = o ∧ q.push.isSome := by
  rw [h.effects] at ho
  obtain ⟨x, hx, hmem⟩ := List.mem_flatMap.mp ho
  rcases h.sound.ahead with heq | ⟨request, receipt, hflight, heq⟩
  · have heq : v.executed = v.completed := heq
    exact .inl ⟨x, heq ▸ hx, hmem⟩
  · have heq : v.executed = v.completed ++ [(request, receipt)] := heq
    rw [heq] at hx
    rcases List.mem_append.mp hx with hx | hx
    · exact .inl ⟨x, hx, hmem⟩
    · obtain rfl := List.mem_singleton.mp hx
      exact .inr ((flight_ordinals h hflight).2 o (List.mem_of_mem_filter hmem))

theorem carriedOut_sublist : ∀ xs : List (PushRequest × PushReceipt),
    List.Sublist (xs.flatMap carriedOut) (xs.flatMap fun x => x.1.mutations.map (·.ordinal))
  | [] => .slnil
  | x :: xs => by
    rw [List.flatMap_cons, List.flatMap_cons]
    exact List.filter_sublist.append (carriedOut_sublist xs)

/-- No effects are committed twice. -/
theorem effects_nodup (h : v.Good c) : v.effects.Nodup := by
  rw [h.effects]
  rcases h.sound.ahead with heq | ⟨request, receipt, hflight, heq⟩
  · have heq : v.executed = v.completed := heq
    rw [heq]
    exact h.nodup.sublist (carriedOut_sublist _)
  · have heq : v.executed = v.completed ++ [(request, receipt)] := heq
    obtain ⟨hnd, hqueued⟩ := flight_ordinals h hflight
    refine List.Nodup.sublist (carriedOut_sublist _) ?_
    rw [heq, List.flatMap_append, List.flatMap_singleton]
    refine List.Nodup.append h.nodup hnd fun o ho hnew => ?_
    obtain ⟨q, hq, hord, -⟩ := hqueued o hnew
    exact (h.issued o ho).2 q hq hord

/-- Of a completed batch exactly what its receipt accepts was carried out. -/
theorem completed_effects (h : v.Good c) {x : PushRequest × PushReceipt} (hx : x ∈ v.completed) {o : ℕ}
    (ho : o ∈ x.1.mutations.map (·.ordinal)) : o ∈ v.effects ↔ o ∉ x.2.rejections.map (·.ordinal) := by
  have hexecuted : v.completed ⊆ v.executed := h.sound.completed_prefix.subset
  constructor
  · intro heffect hrej
    rcases mem_effects h heffect with ⟨y, hy, hmem⟩ | ⟨q, hq, hord, -⟩
    · -- ordinals of two completed batches differ
      have hsame : x = y := by
        by_contra hne
        have : Std.Symm (Function.onFun List.Disjoint fun x : PushRequest × PushReceipt =>
            x.1.mutations.map (·.ordinal)) := ⟨fun _ _ hd => hd.symm⟩
        have hdisjoint := (List.nodup_flatMap.mp h.nodup).2.forall hx hy hne
        exact hdisjoint ho (List.mem_of_mem_filter hmem)
      subst hsame
      exact of_decide_eq_true (List.mem_filter.mp hmem).2 hrej
    · exact (h.issued o (List.mem_flatMap.mpr ⟨x, hx, ho⟩)).2 q hq hord
  · intro hnot
    rw [h.effects]
    exact List.mem_flatMap.mpr ⟨x, hexecuted hx, List.mem_filter.mpr ⟨ho, decide_eq_true hnot⟩⟩

theorem count_view (o : ℕ) : s.effects c o = (s.view c).effects.count o := by
  rw [PushSystem.effects, PushSystem.view]
  generalize s.tables.content.2 = log
  induction log with
  | nil => rfl
  | cons entry log ih =>
    obtain ⟨c', o'⟩ := entry
    by_cases hc : c' = c
    · subst hc
      rw [List.count_cons, List.filter_cons_of_pos (by simp), List.map_cons, List.count_cons, ih]
      simp
    · rw [List.count_cons, List.filter_cons_of_neg (by simpa using hc), ih]
      simp [hc]

/-- Whatever the network, the clients and the server do: a handler's effects are committed at most once for
    each mutation of each client; a mutation that was accepted has its effects and one that was
    rejected has not, and neither has one that waits unsent or that the inbox of its client holds. -/
theorem exactly_once (h : s.Reachable) (c : String) :
    (∀ o, s.effects c o ≤ 1) ∧
    (∀ x ∈ s.completed, x.1.clientId = c → ∀ m ∈ x.1.mutations,
      s.effects c m.ordinal = if m.ordinal ∈ x.2.rejections.map (·.ordinal) then 0 else 1) ∧
    (∀ q ∈ (s.host c).client.store.queue, q.push = none → s.effects c q.ordinal = 0) ∧
    ∀ o, ((s.host c).client.store.rejections.lookup o).isSome → s.effects c o = 0 := by
  have hgood := good_reachable h c
  refine ⟨fun o => ?_, fun x hx hclient m hm => ?_, fun q hq hpush => ?_, fun o ho => ?_⟩
  · rw [count_view]
    exact List.nodup_iff_count_le_one.mp (effects_nodup hgood) o
  · have hx' : x ∈ (s.view c).completed := List.mem_filter.mpr ⟨hx, decide_eq_true hclient⟩
    have hiff := completed_effects hgood hx' (List.mem_map_of_mem hm)
    rw [count_view]
    split_ifs with hrej
    · exact List.count_eq_zero.mpr fun hmem => hiff.mp hmem hrej
    · exact List.count_eq_one_of_mem (effects_nodup hgood) (hiff.mpr hrej)
  · rw [count_view]
    refine List.count_eq_zero.mpr fun hmem => ?_
    rcases mem_effects hgood hmem with ⟨x, hx, hin⟩ | ⟨q', hq', hord, hsome⟩
    · exact (hgood.issued _ (List.mem_flatMap.mpr ⟨x, hx, List.mem_of_mem_filter hin⟩)).2 q hq rfl
    · obtain rfl : q' = q := List.inj_on_of_nodup_map
        (hgood.safe.sorted.imp fun hlt => ne_of_lt hlt) hq' hq hord
      rw [hpush] at hsome
      cases hsome
  · rw [count_view]
    obtain ⟨-, hnot, haccepted⟩ := hgood.inbox o ho
    refine List.count_eq_zero.mpr fun hmem => ?_
    rcases mem_effects hgood hmem with ⟨x, hx, hin⟩ | ⟨q, hq, hord, -⟩
    · exact haccepted x hx hin
    · exact hnot q hq hord

/-- A batch number stands for one request and one receipt: whatever the network was given under it is the
    same, and what a client has completed the server has executed, in that order and with at most one
    batch after it. -/
theorem one_batch (h : s.Reachable) (c : String) :
    (∀ r ∈ s.sent, ∀ r' ∈ s.sent, r.clientId = c → r'.clientId = c → r.batchSequence = r'.batchSequence →
      r = r') ∧
    (∀ a ∈ s.answers, ∀ a' ∈ s.answers, a.clientId = c → a'.clientId = c →
      a.batchSequence = a'.batchSequence → a = a') ∧
    ((s.view c).executed = (s.view c).completed ∨ ∃ r a, (s.host c).client.store.frozenPush = some r ∧
      (s.view c).executed = (s.view c).completed ++ [(r, a)]) := by
  have hgood := good_reachable h c
  refine ⟨fun r hr r' hr' hc hc' heq => ?_, fun a ha a' ha' hc hc' heq => ?_, hgood.sound.ahead⟩
  · have hin : (r.batchSequence, r) ∈ (s.view c).exchange.sent :=
      ⟨List.mem_filter.mpr ⟨hr, decide_eq_true hc⟩, rfl⟩
    have hin' : (r.batchSequence, r') ∈ (s.view c).exchange.sent :=
      ⟨List.mem_filter.mpr ⟨hr', decide_eq_true hc'⟩, heq⟩
    exact hgood.sound.request_unique hin hin'
  · have hin : (a.batchSequence, a) ∈ (s.view c).exchange.answers :=
      ⟨List.mem_filter.mpr ⟨ha, decide_eq_true hc⟩, rfl⟩
    have hin' : (a.batchSequence, a') ∈ (s.view c).exchange.answers :=
      ⟨List.mem_filter.mpr ⟨ha', decide_eq_true hc'⟩, heq⟩
    exact hgood.sound.answer_unique hin hin'

/-- The batch a client has in flight is never out of turn: served for the owner of its row, it is answered
    with the stored receipt or it runs. -/
theorem never_out_of_turn (h : s.Reachable) {maxBytes : ℕ} {r : PushRequest} {st : Store}
    (hf : (s.host c).engine.freeze (s.host c).client.store maxBytes = .ok (some r, st)) (b : Backend)
    (app : App (Noted D)) {j : Json} (hj : j.Rereads r.toValue) {owner : String}
    (hp : principal owner = .ok ())
    (ho : ∀ row, s.tables.clients.lookup c = some row → row.owner = owner)
    (savepoints : List (ℕ × Tables (Noted D))) :
    (∃ receipt, s.tables.receipt c = some receipt ∧
      b.processPush app j owner (j.text r.toValue) ⟨s.tables, savepoints⟩ =
        .ok (receipt, ⟨s.tables, savepoints⟩)) ∨
    b.processPush app j owner (j.text r.toValue) ⟨s.tables, savepoints⟩ =
      b.runBatch app j owner r.raw ⟨(s.tables.claim owner c).2, savepoints⟩ := by
  have hgood := good_freeze (good_reachable h c) hf
  have hfrozen : st.frozenPush = some r := freeze_frozenPush (good_reachable h c).safe hf
  obtain ⟨hclient, hnumber, hvalid, -⟩ := frozenPush_spec hfrozen
  have hid : r.clientId = c := hclient.trans hgood.client
  have hsequence : s.tables.sequence c = (s.view c).executed.length := hgood.sequence
  have hlast : st.lastCompletedPush = (s.view c).completed.length := hgood.completed
  obtain ⟨hseq, hreceipt⟩ := claim_fst owner s.tables c
  have hrow : (s.tables.claim owner c).1.clientId = c ∧ (s.tables.claim owner c).1.owner = owner := by
    unfold Tables.claim
    cases hl : s.tables.clients.lookup c with
    | none => exact ⟨rfl, rfl⟩
    | some row => exact ⟨hgood.row row hl, ho row hl⟩
  have hopen : b.processPush app j owner (j.text r.toValue) ⟨s.tables, savepoints⟩ = (do
      if r.batchSequence = s.tables.sequence c then
        let receipt ← required (s.tables.receipt c) (Failure.storageInvalid "receipt missing")
        return (receipt, ⟨(s.tables.claim owner c).2, savepoints⟩)
      else
        ensure (s.tables.sequence c ≤ r.batchSequence) (Failure.ofCode "overlap")
        ensure (r.batchSequence = s.tables.sequence c + 1) (Failure.ofCode "gap")
        b.runBatch app j owner r.raw ⟨(s.tables.claim owner c).2, savepoints⟩) := by
    rw [← hseq, ← hreceipt, Backend.processPush, hp, Except.ok_bind, decode_request hj hvalid]
    simp only [Except.mapError, Except.ok_bind, PushRequest.raw, hid, hrow.1, hrow.2, ensure, if_true]
  rcases hgood.sound.ahead with heq | ⟨request, receipt, -, heq⟩
  · have heq : (s.view c).executed = (s.view c).completed := heq
    rw [hsequence, heq, hnumber, hlast] at hopen
    refine .inr (hopen.trans ?_)
    rw [if_neg (by omega)]
    simp only [ensure, Nat.le_succ, if_true, Except.ok_bind]
  · have heq : (s.view c).executed = (s.view c).completed ++ [(request, receipt)] := heq
    have hlast' := hgood.receipt (request, receipt) (by
      rw [show ({ s.view c with store := st } : PushView).executed = _ from heq, List.getLast?_concat])
    have hstored : s.tables.receipt c = some receipt := hlast'.1
    rw [hsequence, heq, hnumber, hlast, hstored, List.length_append, List.length_singleton, if_pos rfl] at hopen
    have hthere : (s.tables.claim owner c).2 = s.tables := by
      unfold Tables.claim
      cases hl : s.tables.clients.lookup c with
      | none => simp [Tables.receipt, hl] at hstored
      | some row => rfl
    rw [hthere] at hopen
    exact .inl ⟨receipt, hstored, hopen⟩

/-- Only a receipt takes a mutation in flight out of its client's queue, and it completes its batch. -/
theorem leaves_flight (h : s.Reachable) {event : PushEvent D} (ha : s.Allowed event) {q : Queued}
    (hq : q ∈ (s.host c).client.store.queue) (hsome : q.push.isSome)
    (hgone : ∀ q' ∈ ((s.step event).host c).client.store.queue, q'.ordinal ≠ q.ordinal) :
    ∃ sequence receipt request, event = .call c (.call (.acknowledge sequence receipt)) ∧
      (request, receipt) ∈ (s.step event).completed ∧ request.clientId = c ∧
      q.ordinal ∈ request.mutations.map (·.ordinal) := by
  have hgood := good_reachable h c
  have hsent : ∃ q ∈ (s.host c).client.store.queue, q.push.isSome := ⟨q, hq, hsome⟩
  obtain ⟨request, hencode⟩ := hgood.encodes hsent
  have hfrozen : (s.view c).store.frozenPush = some request := frozenPush_eq_some.mpr ⟨hsent, hencode⟩
  have hin : q.ordinal ∈ request.mutations.map (·.ordinal) := by
    obtain ⟨-, -, -, hmutations⟩ := frozenPush_spec hfrozen
    obtain ⟨p, hpush⟩ := Option.isSome_iff_exists.mp hsome
    obtain ⟨rfl, -⟩ := hgood.safe.flight.sent q hq p hpush
    rw [hmutations, List.map_map]
    exact List.mem_map_of_mem (f := fun q : Queued => q.ordinal)
      (List.mem_filter.mpr ⟨hq, decide_eq_true hpush⟩)
  -- while the push is in flight, its mutations are queued
  have hstays : ∀ {s' : PushSystem D}, (s'.view c).Good c → (s'.view c).store.frozenPush = some request →
      s' = s.step event → False := by
    rintro s' hgood' hfrozen' rfl
    obtain ⟨q', hq', hord, -⟩ := (flight_ordinals hgood' hfrozen').2 q.ordinal hin
    exact hgone q' hq' hord
  have hgood' := good_step (good_reachable h) ha c
  have hsame : ((s.step event).host c).client.store ≠ (s.host c).client.store := by
    intro heq
    rw [heq] at hgone
    exact hgone q hq rfl
  have hfreeze : ∀ {maxBytes : ℕ} {answer : Option PushRequest} {st : Store},
      (s.host c).engine.freeze (s.host c).client.store maxBytes = .ok (answer, st) →
      st = (s.host c).client.store := by
    intro maxBytes answer st hf
    rcases freeze_passes hgood.safe hf with rfl | ⟨hidle, -⟩
    · rfl
    · rw [hidle q hq] at hsome
      cases hsome
  have hstep : ∀ {maxBytes : ℕ}, ((s.host c).step (.call (.freeze maxBytes))).client.store =
      (s.host c).client.store := by
    intro maxBytes
    simp only [Host.step, Client.act, Client.commit]
    split
    · rename_i answer st hf
      exact hfreeze hf
    · rfl
  cases event with
  | serve b app j owner request =>
    refine absurd ?_ hsame
    simp only [PushSystem.step, PushSystem.serve]
    split
    · rfl
    · rfl
  | elsewhere tables => exact absurd rfl hsame
  | send id maxBytes =>
    refine absurd ?_ hsame
    simp only [PushSystem.step, PushSystem.send]
    split
    · by_cases hc : c = id
      · subst hc
        simp only [PushSystem.called, Function.update_self]
        exact hstep
      · simp only [PushSystem.called, Function.update_of_ne hc]
    · rfl
  | call id call =>
    by_cases hc : c = id
    · subst hc
      have hhost : ((s.step (.call c call)).host c).client.store = ((s.host c).step call).client.store := by
        simp only [PushSystem.step, PushSystem.called, Function.update_self]
      have hplain : ¬call.Plain := fun hp => hstays hgood' ((congrArg Store.frozenPush hhost).trans
        ((frozenPush_plain (bypasses_step hgood.safe hp) (steady_step hgood.safe call) hgood.safe).1.trans
          hfrozen)) rfl
      cases call with
      | transaction body commits => exact absurd trivial hplain
      | readiness key value => exact absurd trivial hplain
      | dismissRejection ordinal => exact absurd trivial hplain
      | reopen e => exact absurd trivial hplain
      | call a =>
        cases a with
        | freeze maxBytes => exact absurd (hhost.trans hstep) hsame
        | acknowledge sequence receipt =>
          rcases acknowledge_step hgood.safe sequence receipt with heq | ⟨-, -, -, hdone⟩
          · exact absurd (hhost.trans heq) hsame
          · have hmoved := hdone.completed
            refine ⟨sequence, receipt, request, rfl, ?_, (frozenPush_spec hfrozen).1.trans hgood.client, hin⟩
            have hfrozen : (s.host c).client.store.frozenPush = some request := hfrozen
            simp only [PushSystem.step, PushSystem.called]
            rw [if_neg (by omega), hfrozen]
            exact List.mem_append_right _ (List.mem_singleton_self _)
        | enqueue m => exact absurd trivial hplain
        | applyPage page => exact absurd trivial hplain
        | receive page request => exact absurd trivial hplain
        | drop ordinal => exact absurd trivial hplain
        | setChannels changes => exact absurd trivial hplain
        | pull => exact absurd trivial hplain
        | resolve key => exact absurd trivial hplain
        | restart => exact absurd trivial hplain
    · refine absurd ?_ hsame
      simp only [PushSystem.step, PushSystem.called, Function.update_of_ne hc]

theorem reachable_step (h : s.Reachable) {event : PushEvent D} (ha : s.Allowed event) :
    (s.step event).Reachable := by
  obtain ⟨engine, content, events, halong, rfl⟩ := h
  refine ⟨engine, content, events ++ [event], Machine.along_append.mpr ⟨halong, ha, trivial⟩, ?_⟩
  rw [Machine.run, Machine.run, List.foldl_append]
  rfl

/-- In every reachable state a client has one batch in flight at most, and its counters say so; effects are
    committed once at most; a mutation that leaves the queue in flight leaves it by a receipt, with its
    effects committed once or, if it is rejected, not at all, and one that leaves it unsent has none;
    and the batch in flight is never out of turn. -/
theorem push_exactly_once (h : s.Reachable) (c : String) :
    (∀ q ∈ (s.host c).client.store.queue, ∀ p, q.push = some p →
      p = (s.host c).client.store.lastCompletedPush + 1) ∧
    (s.host c).client.store.nextPush = (s.host c).client.store.lastCompletedPush +
      (if (s.host c).client.store.queue.any (·.push.isSome) then 2 else 1) ∧
    (∀ o, s.effects c o ≤ 1) ∧
    (∀ event, s.Allowed event → ∀ q ∈ (s.host c).client.store.queue,
      (∀ q' ∈ ((s.step event).host c).client.store.queue, q'.ordinal ≠ q.ordinal) →
      if q.push = none then (s.step event).effects c q.ordinal = 0
      else ∃ sequence receipt, event = .call c (.call (.acknowledge sequence receipt)) ∧
        (s.step event).effects c q.ordinal =
          if q.ordinal ∈ receipt.rejections.map (·.ordinal) then 0 else 1) ∧
    ∀ maxBytes r st, (s.host c).engine.freeze (s.host c).client.store maxBytes = .ok (some r, st) →
      ∀ (b : Backend) (app : App (Noted D)) (j : Json) owner savepoints, j.Rereads r.toValue →
      principal owner = .ok () → (∀ row, s.tables.clients.lookup c = some row → row.owner = owner) →
      (∃ receipt, s.tables.receipt c = some receipt ∧
        b.processPush app j owner (j.text r.toValue) ⟨s.tables, savepoints⟩ =
          .ok (receipt, ⟨s.tables, savepoints⟩)) ∨
      b.processPush app j owner (j.text r.toValue) ⟨s.tables, savepoints⟩ =
        b.runBatch app j owner r.raw ⟨(s.tables.claim owner c).2, savepoints⟩ := by
  have hgood := good_reachable h c
  refine ⟨fun q hq p hp => (hgood.safe.flight.sent q hq p hp).1, ?_, (exactly_once h c).1,
    fun event ha q hq hgone => ?_, fun maxBytes r st hf b app j owner savepoints hj hp ho =>
      never_out_of_turn h hf b app hj hp ho savepoints⟩
  · split_ifs with hsent
    · obtain ⟨q, hq, hsome⟩ := List.any_eq_true.mp hsent
      obtain ⟨p, hpush⟩ := Option.isSome_iff_exists.mp hsome
      exact (hgood.safe.flight.sent q hq p hpush).2
    · refine hgood.safe.flight.idle fun q hq => ?_
      by_contra hne
      exact hsent (List.any_eq_true.mpr ⟨q, hq, Option.isSome_iff_ne_none.mpr hne⟩)
  · have hnext := reachable_step h ha
    split_ifs with hnone
    · rw [← (exactly_once h c).2.2.1 q hq hnone]
      cases event with
      | call id call => rfl
      | send id maxBytes =>
        simp only [PushSystem.step, PushSystem.send]
        split
        · rfl
        · rfl
      | serve b app j owner request =>
        refine absurd rfl (hgone q ?_)
        simp only [PushSystem.step, PushSystem.serve]
        split
        · exact hq
        · exact hq
      | elsewhere tables => exact absurd rfl (hgone q hq)
    · obtain ⟨sequence, receipt, request, rfl, hdone, hclient, hin⟩ :=
        leaves_flight h ha hq (Option.isSome_iff_ne_none.mpr hnone) hgone
      obtain ⟨m, hm, hord⟩ := List.mem_map.mp hin
      refine ⟨sequence, receipt, rfl, ?_⟩
      rw [← hord]
      exact (exactly_once hnext c).2.1 _ hdone hclient m hm

end Results

namespace Sample

/-- A client of the shop. -/
def cashier : Engine where
  codecs := codecs
  schema := shop.config.schema
  valid := by decide +kernel

/-- Its first batch. -/
def order : PushRequest := ⟨"laptop", 1, .ofList [("Item", 1)],
  [⟨1, "CreateItem", 1, [⟨"Item", .create, .ofEntries [("id", .str "a")], some (.obj [])⟩]⟩]⟩

def orderJson : Json where
  codecs := codecs
  parse text := ensure (text = canonicalJson codecs order.toValue) "expected value" >>= fun _ =>
    .ok order.toValue

def receiptOf : PushReceipt := ⟨"laptop", 1, [], [⟨"Item", .ofEntries [("id", .str "a")], 1, .null, none⟩]⟩

/-- The batch is sent, arrives twice, and its receipt comes back twice. -/
def sellings : List (PushEvent Unit) :=
  [.call "laptop" (.call (.enqueue { name := "CreateItem", operations := order.mutations.flatMap (·.operations) })),
    .send "laptop" 1000, .serve shop till orderJson "ann" order, .serve shop till orderJson "ann" order,
    .call "laptop" (.call (.acknowledge 1 receiptOf)), .call "laptop" (.call (.acknowledge 1 receiptOf))]

def sold : PushSystem Unit := Machine.run PushSystem.step (.init (fun _ => cashier) ()) sellings

end Sample

section Sample
open Sample

theorem sellings_allowed :
    Machine.Along PushSystem.step PushSystem.Allowed (.init (fun _ => cashier) ()) sellings := by
  have hj : orderJson.Rereads order.toValue := by decide +kernel
  refine ⟨?_, trivial, ⟨?_, hj⟩, ⟨?_, hj⟩, ?_, ?_, trivial⟩
  · intro sequence receipt heq
    cases heq
  · decide +kernel
  · decide +kernel
  · intro sequence receipt heq
    cases heq
    decide +kernel
  · intro sequence receipt heq
    cases heq
    decide +kernel

theorem sold_reachable : sold.Reachable := ⟨fun _ => cashier, (), sellings, sellings_allowed, rfl⟩

/-- The batch ran, and its receipt is not back yet. -/
def unheard : PushSystem Unit := Machine.run PushSystem.step (.init (fun _ => cashier) ()) (sellings.take 3)

theorem unheard_reachable : unheard.Reachable := by
  have hparts := sellings_allowed
  rw [← List.take_append_drop 3 sellings, Machine.along_append] at hparts
  exact ⟨fun _ => cashier, (), sellings.take 3, hparts.1, rfl⟩

theorem one_batch_sold : sold.answers = [receiptOf, receiptOf] ∧
    ((sold.view "laptop").executed = (sold.view "laptop").completed ∨ ∃ r a,
      (sold.host "laptop").client.store.frozenPush = some r ∧
        (sold.view "laptop").executed = (sold.view "laptop").completed ++ [(r, a)]) := by
  have hanswers : sold.answers = [receiptOf, receiptOf] := by decide +kernel
  exact ⟨hanswers, (one_batch sold_reachable "laptop").2.2⟩

/-- A batch whose receipt was lost is answered again, or it runs. -/
theorem push_exactly_once_unheard : (∀ o, unheard.effects "laptop" o ≤ 1) ∧
    ((∃ receipt, unheard.tables.receipt "laptop" = some receipt ∧
      shop.processPush (till.noting "laptop") orderJson "ann" (orderJson.text order.toValue)
        ⟨unheard.tables, []⟩ = .ok (receipt, ⟨unheard.tables, []⟩)) ∨
    shop.processPush (till.noting "laptop") orderJson "ann" (orderJson.text order.toValue)
        ⟨unheard.tables, []⟩ =
      shop.runBatch (till.noting "laptop") orderJson "ann" order.raw
        ⟨(unheard.tables.claim "ann" "laptop").2, []⟩) := by
  have hj : orderJson.Rereads order.toValue := by decide +kernel
  obtain ⟨out, hout⟩ := Except.exists_ok (show ((unheard.host "laptop").engine.freeze
    (unheard.host "laptop").client.store 1000).isOk = true by decide +kernel)
  have horder : ((unheard.host "laptop").engine.freeze
      (unheard.host "laptop").client.store 1000).toOption.map (·.1) = some (some order) := by decide +kernel
  rw [hout] at horder
  obtain ⟨answer, st⟩ := out
  obtain rfl : answer = some order := Option.some.inj horder
  have howner : ∀ row, unheard.tables.clients.lookup "laptop" = some row → row.owner = "ann" := by
    intro row hrow
    have hrows : (unheard.tables.clients.lookup "laptop").map (·.owner) = some "ann" := by decide +kernel
    rw [hrow] at hrows
    exact Option.some.inj hrows
  obtain ⟨-, -, honce, -, hturn⟩ := push_exactly_once unheard_reachable "laptop"
  exact ⟨honce, hturn 1000 order st hout shop (till.noting "laptop") orderJson "ann" [] hj rfl howner⟩

end Sample

end AheadSync
