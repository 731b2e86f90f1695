import AheadSync.Client.Answers

/-! The sync cycle (`SyncCycle`, `client/src/transport.rs`). It takes the last page of a pull for the
    end of the cycle without a look at the client: what it ends on is caught up as long as the
    subscriptions are those the pull was made for. -/

namespace AheadSync

inductive TransportAction where
  | push (request : PushRequest)
  | pull (request : PullRequest)

structure SyncCycle where
  pushOnly : Bool := false
  completed : Bool := false
  active : Option TransportAction := none

/-- What comes back for an action, decoded. -/
inductive TransportAnswer where
  | receipt (receipt : PushReceipt)
  | page (page : PullPage)

namespace SyncCycle
variable (s : SyncCycle) (e : Engine) (c : Client)

def restart : SyncCycle := {}

def restartPushOnly : SyncCycle := { pushOnly := true }

/-- The action in flight, or the next one. -/
def next : Except String (Option TransportAction) × SyncCycle × Client :=
  match s.active with
  | some action => (.ok (some action), s, c)
  | none =>
    match c.commit (e.freeze c.store pushBytes) with
    | (.error m, c) => (.error m, s, c)
    | (.ok (some request), c) => (.ok (some (.push request)), { s with active := some (.push request) }, c)
    | (.ok none, c) =>
      if s.pushOnly || s.completed then (.ok none, s, c)
      else match c.downlinkRequest e with
        | (.error m, c) => (.error m, s, c)
        | (.ok none, c) => (.ok none, { s with completed := true }, c)
        | (.ok (some request), c) =>
          (.ok (some (.pull request)), { s with active := some (.pull request) }, c)

/-- The answer to a push that is in flight. -/
def completePush (request : PushRequest) : TransportAnswer → Except String (List Report) × SyncCycle × Client
  | .page _ => (.error "receipt clientId missing", s, c)
  | .receipt receipt =>
    match c.acknowledge e request.batchSequence receipt with
    | (.error m, c) => (.error m, s, c)
    | (.ok report, c) => (.ok report.reports, { s with completed := false, active := none }, c)

/-- The answer to a pull that is in flight. -/
def completePull (request : PullRequest) : TransportAnswer → Except String (List Report) × SyncCycle × Client
  | .receipt _ => (.error "page cursors missing", s, c)
  | .page page =>
    match (do page.validate; ensure (answers page request) "response does not match pull request") with
    | .error m => (.error m, s, c)
    | .ok () =>
      let last := !page.cursors.entries.any (·.2.continues)
      match c.applyPage e page with
      | (.error m, c) => (.error m, s, c)
      | (.ok report, c) =>
        (.ok report.reports, { s with completed := s.completed || last, active := none }, c)

/-- Apply the answer to the action in flight. -/
def complete (answer : TransportAnswer) : Except String (List Report) × SyncCycle × Client :=
  match s.active with
  | none => (.error "no transport action", s, c)
  | some (.push request) => s.completePush e c request answer
  | some (.pull request) => s.completePull e c request answer

end SyncCycle

/-- A cycle and its client, with the pages applied in this cycle and the channels whose subscription
    changed since the cycle last looked at the subscriptions. -/
structure CycleRun where
  client : Client
  cycle : SyncCycle := {}
  pages : List PullPage := []
  touched : List String := []

/-- What happens to a cycle and its client. -/
inductive CycleEvent where
  | next
  | complete (answer : TransportAnswer)
  | restart
  | restartPushOnly
  | setChannels (changes : List (String × Bool))
  | enqueue (m : Mutation)
  | live (page : PullPage)

/-- The event is a call of the cycle's `next` or `complete`. -/
def CycleEvent.advances : CycleEvent → Bool
  | .next | .complete _ => true
  | _ => false

namespace CycleRun
variable (e : Engine) (s : CycleRun)

/-- `next` looks at the subscriptions when it issues a pull, or finds nothing to pull. -/
def looks : Bool := s.cycle.active.isNone &&
  match s.client.commit (e.freeze s.client.store pushBytes) with
  | (.ok none, _) => !(s.cycle.pushOnly || s.cycle.completed)
  | _ => false

/-- The client takes the answer to the action in flight. -/
def takes (answer : TransportAnswer) : Bool :=
  match s.cycle.active, answer with
  | some (.push request), .receipt receipt =>
    (s.client.acknowledge e request.batchSequence receipt).1.isOk
  | some (.pull request), .page page => answers page request && (s.client.applyPage e page).1.isOk
  | _, _ => false

/-- The pages applied in this cycle after an answer: one that answers the pull in flight, is taken
    and is not stale is applied. -/
def applied (answer : TransportAnswer) : List PullPage :=
  match s.cycle.active, answer with
  | some (.pull _), .page page =>
    if s.takes e answer && !(s.client.pulls.stale page.froms).1 then page :: s.pages else s.pages
  | _, _ => s.pages

def step : CycleEvent → CycleRun
  | .next => { s with
      cycle := (s.cycle.next e s.client).2.1
      client := (s.cycle.next e s.client).2.2
      touched := if s.looks e then [] else s.touched }
  | .complete answer => { s with
      cycle := (s.cycle.complete e s.client answer).2.1
      client := (s.cycle.complete e s.client answer).2.2
      pages := s.applied e answer }
  | .restart => { s with cycle := .restart, pages := [] }
  | .restartPushOnly => { s with cycle := .restartPushOnly, pages := [] }
  | .setChannels changes => { s with
      client := s.client.setChannels changes
      touched := (changes.foldl Store.setChannel (s.client.store, [])).2 ++ s.touched }
  | .enqueue m => { s with client := s.client.act e (.enqueue m) }
  | .live page => { s with client := (s.client.receiveDownlink e page none).2 }

/-- A page applied in this cycle brought a channel, or found it, at no less than the head it
    reported. -/
def Brought (channel : String) : Prop :=
  ∃ page ∈ s.pages, ∃ range current, page.cursors.lookup channel = some range ∧
    s.client.store.cursor channel = some current ∧ range.head ≤ current

/-- A call of the cycle that leaves it completed leaves every subscribed channel caught up; and what
    completes it is not a page taken for stale, or one made for other channels than are subscribed. -/
def CaughtUp (event : CycleEvent) : Prop :=
  (s.step e event).cycle.completed = true →
    (∀ channel, ((s.step e event).client.store.cursor channel).isSome →
      (s.step e event).Brought channel) ∧
    ∀ page request, event = .complete (.page page) → s.cycle.active = some (.pull request) →
      (s.client.pulls.stale page.froms).1 = false ∧
      ∀ channel, (page.cursors.lookup channel).isSome = (s.client.store.cursor channel).isSome

/-- No channel whose subscription changed is subscribed. -/
def Left : Prop := ∀ channel ∈ s.touched, s.client.store.cursor channel = none

/-- Where the cycle is completed, `next` and an answer that is refused find no channel subscribed
    whose subscription changed since. Where the last page of a pull is taken, neither is any
    subscribed whose subscription changed since the pull was issued, nor does the pull name one. -/
def Steady : CycleEvent → Prop
  | .next => s.cycle.completed = true → s.Left
  | .complete answer =>
    (s.cycle.completed = true → s.takes e answer = false → s.Left) ∧
    ∀ request page, s.cycle.active = some (.pull request) → answer = .page page →
      s.takes e answer = true → page.cursors.entries.any (·.2.continues) = false →
      s.Left ∧ ∀ channel ∈ s.touched, request.cursors.lookup channel = none
  | _ => True

end CycleRun

section Ledger
variable {l : PullLedger} {k k' : SortedMap String ℕ}

theorem currentEpochs_congr {l' : PullLedger}
    (h : ∀ channel, (k.lookup channel).isSome → l'.epoch channel = l.epoch channel) :
    l'.currentEpochs k = l.currentEpochs k := by
  refine SortedMap.ext_lookup fun channel => ?_
  rw [PullLedger.currentEpochs, PullLedger.currentEpochs, SortedMap.lookup_mapValues,
    SortedMap.lookup_mapValues]
  cases hl : k.lookup channel with
  | none => rfl
  | some n => rw [Option.map_some, Option.map_some, h channel (by rw [hl]; rfl)]

/-- Erasing another element keeps an element. -/
theorem mem_eraseIdx_of_ne {α : Type} {as : List α} {a : α} {i : ℕ} (ha : a ∈ as)
    (h : as[i]? ≠ some a) : a ∈ as.eraseIdx i := by
  obtain ⟨j, hj⟩ := List.mem_iff_getElem?.mp ha
  exact List.mem_eraseIdx_iff_getElem?.mpr ⟨j, fun heq => h (heq ▸ hj), hj⟩

theorem noOldPull_issue : NoOldPull (l.issue k) k :=
  Or.inr ⟨⟨k, l.currentEpochs k⟩, List.mem_append_right _ (List.mem_singleton.mpr rfl), rfl, rfl⟩

/-- Judging a page leaves no old pull where there was none. -/
theorem noOldPull_stale (h : NoOldPull l k) : NoOldPull (l.stale k').2 k := by
  have hcurrent : (l.stale k').2.currentEpochs k = l.currentEpochs k :=
    currentEpochs_congr fun channel _ => by simp only [PullLedger.epoch, (stale_spec l k').1]
  rcases h with hno | ⟨p, hp, rfl, hep⟩
  · exact Or.inl fun p hp => hno p ((stale_spec l k').2.2 p hp)
  unfold NoOldPull
  rw [hcurrent]
  unfold PullLedger.stale
  simp only
  cases hcur : l.issued.findIdx? (fun p => p.cursors = k' ∧ p.epochs = l.currentEpochs k') with
  | some i =>
    by_cases hk : p.cursors = k'
    · -- the pulls that are left were brought to the current epochs
      subst hk
      by_cases hleft : ∃ q ∈ l.issued.eraseIdx i, q.cursors = p.cursors
      · obtain ⟨q, hq, hqk⟩ := hleft
        exact Or.inr ⟨_, List.mem_map_of_mem hq, by simp [hqk], by simp [hqk]⟩
      · refine Or.inl fun q hq heq => hleft ?_
        obtain ⟨q', hq', rfl⟩ := List.mem_map.mp hq
        refine ⟨q', hq', ?_⟩
        split at heq
        · assumption
        · exact heq
    · refine Or.inr ⟨p, List.mem_map.mpr ⟨p, ?_, if_neg hk⟩, rfl, hep⟩
      obtain ⟨hi, hpi, -⟩ := List.findIdx?_eq_some_iff_getElem.mp hcur
      simp only [Bool.decide_and, Bool.and_eq_true, decide_eq_true_eq] at hpi
      refine mem_eraseIdx_of_ne hp fun heq => hk ?_
      rw [List.getElem?_eq_getElem hi] at heq
      exact Option.some.inj heq ▸ hpi.1
  | none =>
    cases hany : l.issued.findIdx? (fun p => p.cursors = k') with
    | some i =>
      have hk : p.cursors ≠ k' := by
        rintro rfl
        simpa [hep] using List.findIdx?_eq_none_iff.mp hcur p hp
      obtain ⟨hi, hpi, -⟩ := List.findIdx?_eq_some_iff_getElem.mp hany
      refine Or.inr ⟨p, mem_eraseIdx_of_ne hp fun heq => hk ?_, rfl, hep⟩
      rw [List.getElem?_eq_getElem hi] at heq
      simpa [Option.some.inj heq] using hpi
    | none => exact Or.inr ⟨p, hp, rfl, hep⟩

/-- Subscription changes of other channels leave no old pull where there was none. -/
theorem noOldPull_absorb {marks : List String} (hm : ∀ channel ∈ marks, k.lookup channel = none)
    (h : NoOldPull l k) : NoOldPull (l.absorb marks) k := by
  have hcurrent : (l.absorb marks).currentEpochs k = l.currentEpochs k :=
    currentEpochs_congr fun channel hs => (absorb_epoch marks l channel).2.2 fun hin => by
      rw [hm channel hin] at hs
      cases hs
  unfold NoOldPull
  rw [absorb_issued, hcurrent]
  exact h

end Ledger

section Answered
variable {page : PullPage} {request : PullRequest}

/-- A page that answers a request starts from exactly its cursors. -/
theorem froms_of_answers (h : answers page request = true) : page.froms = request.cursors := by
  simp only [answers, Bool.and_eq_true, decide_eq_true_eq, List.all_eq_true] at h
  obtain ⟨hlen, hall⟩ := h
  have hsub : page.froms.keys ⊆ request.cursors.keys := by
    intro channel hc
    rw [PullPage.froms, SortedMap.keys_mapValues] at hc
    obtain ⟨x, hx, rfl⟩ := List.mem_map.mp hc
    by_contra hno
    have hnone := (hall x hx).symm.trans (SortedMap.lookup_eq_none_iff.mpr hno)
    cases hnone
  have hkeys : page.froms.keys.Perm request.cursors.keys := by
    refine (List.subperm_of_subset (SortedMap.nodup_keys _) hsub).perm_of_length_le ?_
    rw [PullPage.froms, SortedMap.keys_mapValues]
    simp only [SortedMap.keys, List.length_map]
    exact hlen.ge
  refine SortedMap.ext_lookup fun channel => ?_
  cases hl : page.cursors.lookup channel with
  | none =>
    have hfroms : page.froms.lookup channel = none := by
      rw [PullPage.froms, SortedMap.lookup_mapValues, hl, Option.map_none]
    rw [hfroms]
    refine (SortedMap.lookup_eq_none_iff.mpr fun hmem => ?_).symm
    exact SortedMap.lookup_eq_none_iff.mp hfroms (hkeys.mem_iff.mpr hmem)
  | some range =>
    rw [PullPage.froms, SortedMap.lookup_mapValues, hl, Option.map_some]
    exact (hall _ (SortedMap.lookup_eq_some_iff.mp hl)).symm

theorem named_of_answers (h : answers page request = true) (channel : String) :
    (page.cursors.lookup channel).isSome = (request.cursors.lookup channel).isSome := by
  rw [← froms_of_answers h, PullPage.froms, SortedMap.lookup_mapValues, Option.isSome_map]

/-- A range that does not continue reaches its head. -/
theorem head_le_of_not_any (h : page.cursors.entries.any (·.2.continues) = false) {channel : String}
    {range : CursorRange} (hr : page.cursors.lookup channel = some range) :
    range.head ≤ range.toCursor := by
  have hrange := List.any_eq_false.mp h _ (SortedMap.lookup_eq_some_iff.mp hr)
  simpa [CursorRange.continues] using hrange

end Answered

section Pages
variable {e : Engine} {c : Client} {page : PullPage} {report : ApplyReport}

/-- A page that is applied, and was not stale, brings each channel to where it reaches or finds it
    beyond. -/
theorem applyPage_reaches (hwf : Wf e c.store) (hs : (c.pulls.stale page.froms).1 = false)
    (h : (c.applyPage e page).1 = .ok report) {channel : String} {range : CursorRange} {n : ℕ}
    (hr : page.cursors.lookup channel = some range) (hn : c.store.cursor channel = some n) :
    ∃ m, (c.applyPage e page).2.store.cursor channel = some m ∧ range.toCursor ≤ m := by
  unfold Client.applyPage at h ⊢
  cases hv : page.validate with
  | error m => rw [hv] at h; cases h
  | ok u =>
    rw [hv] at h
    simp only [hs, Bool.false_eq_true, ↓reduceIte, Client.commit] at h ⊢
    cases ha : e.applyCurrentPage c.store page with
    | error m => rw [ha] at h; cases h
    | ok out =>
      obtain ⟨report', st⟩ := out
      have hk : CursorsKept c ⟨st, (c.pulls.stale page.froms).2⟩ page :=
        cursorsKept_applyCurrentPage hwf ha
      obtain ⟨moving, hmoving, hcase⟩ := applyCurrentPage_eq_ok.mp ha
      obtain ⟨-, rfl⟩ := movingChannels_eq_ok.mp hmoving
      by_cases hlt : n < range.toCursor
      · rcases hcase with ⟨hempty, -, -⟩ | ⟨-, -, report1, st1, hrec, -, rfl⟩
        · rw [moved_isEmpty.mpr ⟨channel, range, n, hr, hn, hlt⟩] at hempty
          cases hempty
        · refine ⟨range.toCursor, ?_, le_rfl⟩
          change (st1.setCursors (c.store.moved page)).cursor channel = _
          rw [setCursors_cursor, moved_lookup.mpr ⟨range, n, hr, hn, hlt, rfl⟩]
          rfl
      · refine ⟨n, ?_, not_lt.mp hlt⟩
        exact (hk.named channel range n hr hn).resolve_right fun h => hlt h.1

/-- A page keeps each subscription, and its cursor from falling. -/
theorem CursorsKept.grows {c' : Client} (h : CursorsKept c c' page) {channel : String} {n : ℕ}
    (hn : c.store.cursor channel = some n) : ∃ m, c'.store.cursor channel = some m ∧ n ≤ m := by
  cases hr : page.cursors.lookup channel with
  | none => exact ⟨n, (h.unnamed channel hr).trans hn, le_rfl⟩
  | some range =>
    rcases h.named channel range n hr hn with heq | ⟨hlt, heq⟩
    · exact ⟨n, heq, le_rfl⟩
    · exact ⟨_, heq, hlt.le⟩

end Pages

/-- What the cycle relies on: a channel whose subscription it has seen and that did not change since
    is caught up once the cycle is completed; a pull in flight named the channels that were
    subscribed, and is no old pull while none of them changed. -/
structure InCycle (e : Engine) (s : CycleRun) : Prop where
  wf : Wf e s.client.store
  brought : s.cycle.completed = true → ∀ channel, (s.client.store.cursor channel).isSome →
    channel ∉ s.touched → s.Brought channel
  pulling : ∀ request, s.cycle.active = some (.pull request) → s.cycle.completed = false ∧
    (∀ channel ∉ s.touched, (request.cursors.lookup channel).isSome =
      (s.client.store.cursor channel).isSome) ∧
    ((∀ channel ∈ s.touched, request.cursors.lookup channel = none) →
      NoOldPull s.client.pulls request.cursors)

section Steps
variable {e : Engine} {s : CycleRun}

theorem brought_grows {s' : CycleRun} {channel : String} (h : s.Brought channel)
    (hp : ∀ page ∈ s.pages, page ∈ s'.pages)
    (hc : ∀ n, s.client.store.cursor channel = some n →
      ∃ m, s'.client.store.cursor channel = some m ∧ n ≤ m) : s'.Brought channel := by
  obtain ⟨page, hpage, range, n, hr, hn, hle⟩ := h
  obtain ⟨m, hm, hnm⟩ := hc n hn
  exact ⟨page, hp page hpage, range, m, hr, hm, hle.trans hnm⟩

/-- A client with the same cursors and ledger, in the same cycle. -/
theorem inCycle_of_eq {c : Client} (h : InCycle e s) (hwf : Wf e c.store)
    (hs : c.store.subscriptions = s.client.store.subscriptions) (hp : c.pulls = s.client.pulls) :
    InCycle e { s with client := c } where
  wf := hwf
  brought := by
    intro hdone channel hsome ht
    have hcursor : ∀ channel, c.store.cursor channel = s.client.store.cursor channel :=
      fun channel => by rw [Store.cursor, Store.cursor, hs]
    refine brought_grows (h.brought hdone channel (hcursor channel ▸ hsome) ht) (fun _ hp => hp) ?_
    exact fun n hn => ⟨n, (hcursor channel).trans hn, le_rfl⟩
  pulling := by
    intro request ha
    obtain ⟨hdone, hnamed, hold⟩ := h.pulling request ha
    refine ⟨hdone, fun channel ht => (hnamed channel ht).trans ?_, fun ht => hp ▸ hold ht⟩
    show (s.client.store.cursor channel).isSome = (c.store.cursor channel).isSome
    rw [Store.cursor, Store.cursor, hs]

/-- A page that is handed over keeps the cycle. -/
theorem inCycle_page {c : Client} {page : PullPage} (h : InCycle e s) (hwf : Wf e c.store)
    (hk : CursorsKept s.client c page)
    (hp : c.pulls = s.client.pulls ∨ c.pulls = (s.client.pulls.stale page.froms).2) :
    InCycle e { s with client := c } where
  wf := hwf
  brought := by
    intro hdone channel hsome ht
    have hsome' : (s.client.store.cursor channel).isSome := by
      cases hc : s.client.store.cursor channel with
      | none =>
        have hnone : c.store.cursor channel = none := hk.unsubscribed channel hc
        rw [show ({ s with client := c } : CycleRun).client.store.cursor channel = none from hnone]
          at hsome
        cases hsome
      | some n => rfl
    exact brought_grows (h.brought hdone channel hsome' ht) (fun _ hp => hp) fun n hn => hk.grows hn
  pulling := by
    intro request ha
    obtain ⟨hdone, hnamed, hold⟩ := h.pulling request ha
    refine ⟨hdone, fun channel ht => (hnamed channel ht).trans ?_, fun ht => ?_⟩
    · show (s.client.store.cursor channel).isSome = (c.store.cursor channel).isSome
      cases hc : s.client.store.cursor channel with
      | none => rw [hk.unsubscribed channel hc]
      | some n =>
        obtain ⟨m, hm, -⟩ := hk.grows hc
        rw [hm]
        rfl
    · show NoOldPull c.pulls request.cursors
      rcases hp with hp | hp
      · exact hp ▸ hold ht
      · exact hp ▸ noOldPull_stale (hold ht)

theorem inCycle_setChannels (h : InCycle e s) (changes : List (String × Bool)) :
    InCycle e (s.step e (.setChannels changes)) := by
  have hmark : ∀ channel, channel ∉ (changes.foldl Store.setChannel (s.client.store, [])).2 →
      (s.client.setChannels changes).store.cursor channel = s.client.store.cursor channel :=
    fun channel hm => (setChannels_unmarked (s.client.store, []) hm).1
  have hsplit : ∀ {channel}, channel ∉ (s.step e (.setChannels changes)).touched →
      channel ∉ (changes.foldl Store.setChannel (s.client.store, [])).2 ∧ channel ∉ s.touched := by
    intro channel ht
    exact not_or.mp fun hor => ht (List.mem_append.mpr hor)
  refine ⟨wf_act h.wf (.setChannels changes), fun hdone channel hsome ht => ?_, fun request ha => ?_⟩
  · obtain ⟨hm, ht⟩ := hsplit ht
    have hcursor := hmark channel hm
    refine brought_grows (h.brought hdone channel (hcursor ▸ hsome) ht) (fun _ hp => hp) ?_
    exact fun n hn => ⟨n, hcursor.trans hn, le_rfl⟩
  · obtain ⟨hdone, hnamed, hold⟩ := h.pulling request ha
    refine ⟨hdone, fun channel ht => ?_, fun ht => ?_⟩
    · obtain ⟨hm, ht⟩ := hsplit ht
      exact (hnamed channel ht).trans (congrArg Option.isSome (hmark channel hm).symm)
    · have hin := fun channel hc => ht channel (List.mem_append.mpr hc)
      refine noOldPull_absorb (fun channel hc => ?_) (hold fun channel hc => hin channel (Or.inr hc))
      exact hin channel (Or.inl (mem_sortedSet.mp hc))

/-- What freezing does to the client `next` sees. -/
theorem freeze_kept (h : InCycle e s) {r : Except String (Option PushRequest)} {c : Client}
    (hc : s.client.commit (e.freeze s.client.store pushBytes) = (r, c)) :
    Wf e c.store ∧ c.store.subscriptions = s.client.store.subscriptions ∧ c.pulls = s.client.pulls := by
  have hwf := wf_act h.wf (.freeze pushBytes)
  have hsub := act_subscriptions h.wf (.freeze pushBytes) trivial
  have hpulls := commit_pulls s.client (e.freeze s.client.store pushBytes)
  simp only [Client.act, hc] at hwf hsub hpulls
  exact ⟨hwf, hsub, hpulls⟩

/-- Where `next` does not look at the subscriptions it issues no pull and does not complete the
    cycle. -/
theorem next_stays (h : InCycle e s) (hl : s.looks e = false) :
    Wf e (s.step e .next).client.store ∧
      (s.step e .next).client.store.subscriptions = s.client.store.subscriptions ∧
      (s.step e .next).client.pulls = s.client.pulls ∧
      (s.step e .next).cycle.completed = s.cycle.completed ∧
      ∀ request, (s.step e .next).cycle.active = some (.pull request) →
        s.cycle.active = some (.pull request) := by
  cases ha : s.cycle.active with
  | some action =>
    simp only [CycleRun.step, SyncCycle.next, ha]
    exact ⟨h.wf, trivial, trivial, trivial, fun _ h => h⟩
  | none =>
    rcases hc : s.client.commit (e.freeze s.client.store pushBytes) with ⟨_ | _ | request, c⟩
    all_goals obtain ⟨hwf, hsub, hpulls⟩ := freeze_kept h hc
    all_goals simp only [CycleRun.looks, ha, hc, Option.isNone_none, Bool.true_and] at hl
    · simp only [CycleRun.step, SyncCycle.next, ha, hc]
      exact ⟨hwf, hsub, hpulls, trivial, nofun⟩
    · rw [Bool.not_eq_false'] at hl
      simp only [CycleRun.step, SyncCycle.next, ha, hc, hl, ↓reduceIte]
      exact ⟨hwf, hsub, hpulls, trivial, nofun⟩
    · simp only [CycleRun.step, SyncCycle.next, ha, hc]
      exact ⟨hwf, hsub, hpulls, trivial, nofun⟩

/-- Where it looks at them it pulls all of them, or completes the cycle since there are none. -/
theorem next_looks (h : InCycle e s) (hl : s.looks e = true) :
    Wf e (s.step e .next).client.store ∧
      (s.step e .next).client.store.subscriptions = s.client.store.subscriptions ∧
      ((s.step e .next).cycle.completed = true → s.client.store.subscriptions.isEmpty = true) ∧
      ∀ request, (s.step e .next).cycle.active = some (.pull request) →
        (s.step e .next).cycle.completed = false ∧
        request.cursors = s.client.store.subscriptions ∧
        (s.step e .next).client.pulls = s.client.pulls.issue request.cursors := by
  simp only [CycleRun.looks, Bool.and_eq_true, Option.isNone_iff_eq_none] at hl
  obtain ⟨ha, hl⟩ := hl
  rcases hc : s.client.commit (e.freeze s.client.store pushBytes) with ⟨_ | _ | request, c⟩
  all_goals simp only [hc, Bool.false_eq_true, Bool.not_eq_true'] at hl
  obtain ⟨hwf, hsub, hpulls⟩ := freeze_kept h hc
  have hdone : s.cycle.completed = false := (Bool.or_eq_false_iff.mp hl).2
  simp only [CycleRun.step, SyncCycle.next, ha, hc, hl, Client.downlinkRequest, hsub]
  by_cases hempty : s.client.store.subscriptions.isEmpty = true
  · simp only [hempty, ↓reduceIte]
    exact ⟨hwf, hsub, fun _ => trivial, by rintro _ ⟨⟩⟩
  · simp only [hempty, Bool.false_eq_true, ↓reduceIte]
    cases (⟨e.declaredModels, s.client.store.subscriptions⟩ : PullRequest).validate with
    | error m =>
      simp only [Except.map, hdone, ha]
      exact ⟨hwf, hsub, by rintro ⟨⟩, by rintro _ ⟨⟩⟩
    | ok u =>
      simp only [Except.map, hdone, hpulls]
      refine ⟨hwf, hsub, by rintro ⟨⟩, fun request hr => ?_⟩
      cases hr
      exact ⟨trivial, rfl, rfl⟩

theorem inCycle_next (h : InCycle e s) : InCycle e (s.step e .next) := by
  have hcursor : ∀ {c : Client}, c.store.subscriptions = s.client.store.subscriptions →
      ∀ channel, c.store.cursor channel = s.client.store.cursor channel :=
    fun hsub channel => by rw [Store.cursor, Store.cursor, hsub]
  cases hl : s.looks e with
  | false =>
    obtain ⟨hwf, hsub, hpulls, hdone, hactive⟩ := next_stays h hl
    have ht : (s.step e .next).touched = s.touched := if_neg (by simp [hl])
    refine ⟨hwf, fun hd channel hs hno => ?_, fun request ha => ?_⟩
    · rw [hcursor hsub] at hs
      rw [ht] at hno
      refine brought_grows (h.brought (hdone ▸ hd) channel hs hno) (fun _ hp => hp) fun n hn => ?_
      exact ⟨n, (hcursor hsub channel).trans hn, le_rfl⟩
    · obtain ⟨hnot, hnamed, hold⟩ := h.pulling request (hactive request ha)
      rw [ht, hpulls, hdone]
      exact ⟨hnot, fun channel hno => by rw [hnamed channel hno, hcursor hsub], hold⟩
  | true =>
    obtain ⟨hwf, hsub, hdone, hpull⟩ := next_looks h hl
    refine ⟨hwf, fun hd channel hs _ => ?_, fun request ha => ?_⟩
    · have hkeys : s.client.store.subscriptions.keys = [] :=
        List.map_eq_nil_iff.mpr (List.isEmpty_iff.mp (hdone hd))
      rw [hcursor hsub, Store.cursor, SortedMap.lookup_eq_none_iff.mpr (by simp [hkeys])] at hs
      cases hs
    · obtain ⟨hnot, hall, hpulls⟩ := hpull request ha
      refine ⟨hnot, fun channel _ => ?_, fun _ => hpulls ▸ noOldPull_issue⟩
      rw [hall, hcursor hsub, Store.cursor]

/-- What `complete` does with the answer to a push. -/
theorem push_spec (h : InCycle e s) {request : PushRequest} (ha : s.cycle.active = some (.push request))
    (answer : TransportAnswer) :
    Wf e (s.step e (.complete answer)).client.store ∧
      (s.step e (.complete answer)).client.store.subscriptions = s.client.store.subscriptions ∧
      (s.step e (.complete answer)).client.pulls = s.client.pulls ∧
      (s.step e (.complete answer)).pages = s.pages ∧
      (s.step e (.complete answer)).cycle =
        if s.takes e answer then { s.cycle with completed := false, active := none } else s.cycle := by
  cases answer with
  | page page => simp [CycleRun.step, SyncCycle.complete, SyncCycle.completePush, CycleRun.takes,
      CycleRun.applied, ha, h.wf]
  | receipt receipt =>
    have hwf := wf_act h.wf (.acknowledge request.batchSequence receipt)
    have hsub := act_subscriptions h.wf (.acknowledge request.batchSequence receipt) trivial
    have hpulls : (s.client.acknowledge e request.batchSequence receipt).2.pulls = s.client.pulls := by
      unfold Client.acknowledge
      split
      · rfl
      · exact commit_pulls ..
    simp only [Client.act] at hwf hsub
    simp only [CycleRun.step, SyncCycle.complete, SyncCycle.completePush, CycleRun.takes,
      CycleRun.applied, ha]
    cases hr : s.client.acknowledge e request.batchSequence receipt with
    | mk r c =>
      rw [hr] at hwf hsub hpulls
      cases r <;> exact ⟨hwf, hsub, hpulls, trivial, rfl⟩

theorem validate_of_applyPage {c : Client} {page : PullPage} {report : ApplyReport}
    (h : (c.applyPage e page).1 = .ok report) : page.validate = .ok () := by
  unfold Client.applyPage at h
  cases hv : page.validate with
  | error m => rw [hv] at h; cases h
  | ok u => rfl

/-- What `complete` does with the answer to a pull it takes. -/
theorem pull_taken {request : PullRequest} (ha : s.cycle.active = some (.pull request))
    {answer : TransportAnswer} (ht : s.takes e answer = true) :
    ∃ page report, answer = .page page ∧ answers page request = true ∧
      (s.client.applyPage e page).1 = .ok report ∧
      s.step e (.complete answer) = { s with
        client := (s.client.applyPage e page).2
        cycle := { s.cycle with
          completed := s.cycle.completed || !page.cursors.entries.any (·.2.continues)
          active := none }
        pages := if (s.client.pulls.stale page.froms).1 then s.pages else page :: s.pages } := by
  cases answer with
  | receipt receipt => simp [CycleRun.takes, ha] at ht
  | page page =>
    have htakes := ht
    simp only [CycleRun.takes, ha, Bool.and_eq_true] at ht
    obtain ⟨hans, hok⟩ := ht
    obtain ⟨report, hr⟩ : ∃ report, (s.client.applyPage e page).1 = .ok report := by
      cases hr : (s.client.applyPage e page).1 with
      | ok report => exact ⟨report, rfl⟩
      | error m => rw [hr] at hok; cases hok
    refine ⟨page, report, rfl, hans, hr, ?_⟩
    have hguard : (do page.validate
                      ensure (answers page request) "response does not match pull request" :
        Except String Unit) = .ok () := by
      rw [validate_of_applyPage hr, Except.ok_bind, ensure_eq_ok]
      exact hans
    simp only [CycleRun.step, SyncCycle.complete, SyncCycle.completePull, CycleRun.applied, ha, htakes,
      hguard]
    cases hp : s.client.applyPage e page with
    | mk r c =>
      rw [hp] at hr
      obtain rfl : r = .ok report := hr
      cases (s.client.pulls.stale page.froms).1 <;> rfl

/-- What it does with one it refuses. -/
theorem pull_refused {request : PullRequest} (ha : s.cycle.active = some (.pull request))
    {answer : TransportAnswer} (ht : s.takes e answer = false) :
    s.step e (.complete answer) = s ∨ ∃ page, answer = .page page ∧
      s.step e (.complete answer) = { s with client := (s.client.applyPage e page).2 } := by
  cases answer with
  | receipt receipt =>
    refine Or.inl ?_
    simp only [CycleRun.step, SyncCycle.complete, SyncCycle.completePull, CycleRun.applied, ha]
  | page page =>
    have htakes := ht
    simp only [CycleRun.takes, ha] at ht
    cases hg : (do page.validate
                   ensure (answers page request) "response does not match pull request" :
        Except String Unit) with
    | error m =>
      refine Or.inl ?_
      simp only [CycleRun.step, SyncCycle.complete, SyncCycle.completePull, CycleRun.applied, ha, htakes,
        hg, Bool.false_and, Bool.false_eq_true, ↓reduceIte]
    | ok u =>
      refine Or.inr ⟨page, rfl, ?_⟩
      obtain ⟨-, -, hans⟩ := Except.bind_eq_ok.mp hg
      rw [ensure_eq_ok.mp hans, Bool.true_and] at ht
      simp only [CycleRun.step, SyncCycle.complete, SyncCycle.completePull, CycleRun.applied, ha, htakes,
        hg, Bool.false_and, Bool.false_eq_true, ↓reduceIte]
      cases hp : s.client.applyPage e page with
      | mk r c =>
        rw [hp] at ht
        cases r with
        | ok report => cases ht
        | error m => rfl

/-- A page that is handed over is judged, if it is taken at all. -/
theorem inCycle_applyPage (h : InCycle e s) (page : PullPage) :
    InCycle e { s with client := (s.client.applyPage e page).2 } := by
  refine inCycle_page h (wf_act h.wf (.applyPage page)) (cursorsKept_applyPage h.wf) ?_
  exact (applyPage_judges s.client page).imp (fun hrej => by rw [hrej.2]) id

/-- The last page of a pull that is taken, once no channel changed that it names or that is
    subscribed: it is not stale, it names what is subscribed, and it brings each to its head. -/
theorem last_page (h : InCycle e s) {request : PullRequest} (ha : s.cycle.active = some (.pull request))
    {page : PullPage} {report : ApplyReport} (hans : answers page request = true)
    (hr : (s.client.applyPage e page).1 = .ok report) (hleft : s.Left)
    (hunnamed : ∀ channel ∈ s.touched, request.cursors.lookup channel = none) :
    (s.client.pulls.stale page.froms).1 = false ∧
      (∀ channel, (page.cursors.lookup channel).isSome = (s.client.store.cursor channel).isSome) ∧
      ∀ channel range current, page.cursors.lookup channel = some range →
        s.client.store.cursor channel = some current →
        ∃ m, (s.client.applyPage e page).2.store.cursor channel = some m ∧ range.toCursor ≤ m := by
  obtain ⟨-, hnamed, hold⟩ := h.pulling request ha
  have hstale : (s.client.pulls.stale page.froms).1 = false := by
    rw [stale_eq_false, froms_of_answers hans]
    exact hold hunnamed
  refine ⟨hstale, fun channel => ?_, fun channel range current hrange hcur =>
    applyPage_reaches h.wf hstale hr hrange hcur⟩
  rw [named_of_answers hans]
  by_cases ht : channel ∈ s.touched
  · rw [hunnamed channel ht, hleft channel ht]
  · exact hnamed channel ht

theorem inCycle_complete (h : InCycle e s) {answer : TransportAnswer}
    (hst : s.Steady e (.complete answer)) : InCycle e (s.step e (.complete answer)) := by
  cases ha : s.cycle.active with
  | none =>
    have hsame : s.step e (.complete answer) = s := by
      simp only [CycleRun.step, SyncCycle.complete, CycleRun.applied, ha]
    rw [hsame]
    exact h
  | some action =>
  cases action with
  | push request =>
    obtain ⟨hwf, hsub, -, hpages, hcycle⟩ := push_spec h ha answer
    have hcursor : ∀ channel, (s.step e (.complete answer)).client.store.cursor channel =
        s.client.store.cursor channel := fun channel => by rw [Store.cursor, Store.cursor, hsub]
    refine ⟨hwf, fun hd channel hs hno => ?_, fun request' ha' => ?_⟩
    · rw [hcycle] at hd
      split at hd
      · cases hd
      · rw [hcursor] at hs
        refine brought_grows (h.brought hd channel hs hno) (fun _ hp => hpages ▸ hp) fun n hn => ?_
        exact ⟨n, (hcursor channel).trans hn, le_rfl⟩
    · rw [hcycle] at ha'
      split at ha'
      · cases ha'
      · rw [ha] at ha'
        cases ha'
  | pull request =>
    cases ht : s.takes e answer with
    | false =>
      rcases pull_refused ha ht with heq | ⟨page, -, heq⟩
      · rw [heq]
        exact h
      · rw [heq]
        exact inCycle_applyPage h page
    | true =>
      obtain ⟨page, report, rfl, hans, hr, heq⟩ := pull_taken ha ht
      obtain ⟨hdone, -, -⟩ := h.pulling request ha
      have hkept : CursorsKept s.client (s.client.applyPage e page).2 page :=
        cursorsKept_applyPage h.wf
      rw [heq]
      refine ⟨wf_act h.wf (.applyPage page), fun hd channel hs hno => ?_, by rintro _ ⟨⟩⟩
      -- only the last page completes the cycle, since a pull was in flight
      simp only [hdone, Bool.false_or, Bool.not_eq_true'] at hd
      obtain ⟨hleft, hunnamed⟩ := hst.2 request page ha rfl ht hd
      obtain ⟨hstale, hsets, hreach⟩ := last_page h ha hans hr hleft hunnamed
      cases hcur : s.client.store.cursor channel with
      | none =>
        have hnone : (s.client.applyPage e page).2.store.cursor channel = none :=
          hkept.unsubscribed channel hcur
        rw [show (CycleRun.client _).store.cursor channel = none from hnone] at hs
        cases hs
      | some current =>
        obtain ⟨range, hrange⟩ := Option.isSome_iff_exists.mp
          ((hsets channel).trans (by rw [hcur]; rfl))
        obtain ⟨m, hm, hle⟩ := hreach channel range current hrange hcur
        refine ⟨page, ?_, range, m, hrange, hm, (head_le_of_not_any hd hrange).trans hle⟩
        simp only [hstale, Bool.false_eq_true, ↓reduceIte]
        exact List.mem_cons_self ..

/-- Every step that is steady keeps the cycle. -/
theorem inCycle_step (s : CycleRun) (event : CycleEvent) (h : InCycle e s) (hst : s.Steady e event) :
    InCycle e (s.step e event) := by
  cases event with
  | next => exact inCycle_next h
  | complete answer => exact inCycle_complete h hst
  | restart => exact ⟨h.wf, nofun, nofun⟩
  | restartPushOnly => exact ⟨h.wf, nofun, nofun⟩
  | setChannels changes => exact inCycle_setChannels h changes
  | enqueue m =>
    exact inCycle_of_eq h (wf_act h.wf (.enqueue m)) (act_subscriptions h.wf (.enqueue m) trivial)
      (commit_pulls ..)
  | live page =>
    refine inCycle_page h (wf_act h.wf (.receive page none)) (cursorsKept_receive h.wf none) ?_
    exact (receive_judges s.client page none).imp (fun hrej => by rw [hrej.2]) id

/-- What a steady call that leaves the cycle completed leaves of the channels that changed. -/
theorem left_step (h : InCycle e s) {event : CycleEvent} (hadv : event.advances = true)
    (hst : s.Steady e event) (hd : (s.step e event).cycle.completed = true) :
    (s.step e event).Left := by
  cases event with
  | next =>
    cases hl : s.looks e with
    | true =>
      have ht : (s.step e .next).touched = [] := if_pos hl
      intro channel hin
      rw [ht] at hin
      cases hin
    | false =>
      obtain ⟨-, hsub, -, hdone, -⟩ := next_stays h hl
      have ht : (s.step e .next).touched = s.touched := if_neg (by simp [hl])
      intro channel hin
      rw [Store.cursor, hsub]
      exact hst (hdone ▸ hd) channel (ht ▸ hin)
  | complete answer =>
    cases ha : s.cycle.active with
    | none =>
      have hsame : s.step e (.complete answer) = s := by
        simp only [CycleRun.step, SyncCycle.complete, CycleRun.applied, ha]
      rw [hsame] at hd ⊢
      exact hst.1 hd (by simp only [CycleRun.takes, ha])
    | some action =>
    cases action with
    | push request =>
      obtain ⟨-, hsub, -, -, hcycle⟩ := push_spec h ha answer
      rw [hcycle] at hd
      intro channel hin
      rw [Store.cursor, hsub]
      cases ht : s.takes e answer with
      | true => rw [ht] at hd; cases hd
      | false => rw [ht] at hd; exact hst.1 hd ht channel hin
    | pull request =>
      obtain ⟨hdone, -, -⟩ := h.pulling request ha
      cases ht : s.takes e answer with
      | false =>
        rcases pull_refused ha ht with heq | ⟨page, -, heq⟩
        all_goals rw [heq] at hd; rw [hdone] at hd; cases hd
      | true =>
        obtain ⟨page, report, rfl, -, -, heq⟩ := pull_taken ha ht
        rw [heq] at hd ⊢
        simp only [hdone, Bool.false_or, Bool.not_eq_true'] at hd
        obtain ⟨hleft, -⟩ := hst.2 request page ha rfl ht hd
        exact fun channel hin => (cursorsKept_applyPage h.wf).unsubscribed channel (hleft channel hin)
  | _ => cases hadv

/-- A steady call that leaves the cycle completed leaves what is subscribed caught up. -/
theorem caughtUp_step (h : InCycle e s) {event : CycleEvent} (hadv : event.advances = true)
    (hst : s.Steady e event) : s.CaughtUp e event := by
  intro hd
  refine ⟨fun channel hs => ?_, fun page request heq ha => ?_⟩
  · refine (inCycle_step s event h hst).brought hd channel hs fun hin => ?_
    rw [left_step h hadv hst hd channel hin] at hs
    cases hs
  · subst heq
    obtain ⟨hdone, -, -⟩ := h.pulling request ha
    cases ht : s.takes e (.page page) with
    | false =>
      rcases pull_refused ha ht with heq | ⟨page', -, heq⟩
      all_goals rw [heq] at hd; rw [hdone] at hd; cases hd
    | true =>
      obtain ⟨page', report, heq, hans, hr, hstep⟩ := pull_taken ha ht
      cases heq
      rw [hstep] at hd
      simp only [hdone, Bool.false_or, Bool.not_eq_true'] at hd
      obtain ⟨hleft, hunnamed⟩ := hst.2 request page ha rfl ht hd
      obtain ⟨hstale, hsets, -⟩ := last_page h ha hans hr hleft hunnamed
      exact ⟨hstale, hsets⟩

end Steps

/-- In every run of a cycle on a client, each call that leaves the cycle completed leaves every
    subscribed channel caught up, as long as no channel changes its subscription under a pull in
    flight or after the cycle is completed and is subscribed when the cycle is next called. -/
theorem completed_caughtUp (e : Engine) (c : Client) (hr : Reachable e c) (before : List CycleEvent)
    (event : CycleEvent) (hadv : event.advances = true)
    (hst : Machine.Along (CycleRun.step e) (CycleRun.Steady e) ⟨c, {}, [], []⟩ (before ++ [event])) :
    (Machine.run (CycleRun.step e) ⟨c, {}, [], []⟩ before).CaughtUp e event := by
  obtain ⟨hbefore, hlast, -⟩ := Machine.along_append.mp hst
  refine caughtUp_step ?_ hadv hlast
  refine Machine.run_keeps (P := InCycle e) inCycle_step ?_ hbefore
  exact ⟨wf_reachable hr, nofun, nofun⟩

section Sample
open Sample

/-- The cycle pulled the one channel that is subscribed. -/
def Sample.pulling : List CycleEvent := [.setChannels [("c", true)], .next]

/-- Its answer completes the cycle, with the channel at its head. -/
theorem completed_caughtUp_loose :
    let s := Machine.run (CycleRun.step loose) ⟨.opened "me", {}, [], []⟩ pulling
    let event := CycleEvent.complete (.page (page "c" 0 1 [record "a" "x" 1]))
    (s.step loose event).cycle.completed = true ∧ (s.step loose event).Brought "c" := by
  intro s event
  have hdone : (s.step loose event).cycle.completed = true := by decide +kernel
  have hlater : s.cycle.completed = false := by decide +kernel
  have hunmarked : ∀ channel, channel ∉ s.touched := by
    intro channel hin
    rw [show s.touched = [] by decide +kernel] at hin
    cases hin
  have hlast : s.Steady loose event := by
    refine ⟨fun h => ?_, fun _ _ _ _ _ _ => ⟨fun channel hin => ?_, fun channel hin => ?_⟩⟩
    · rw [hlater] at h
      cases h
    · exact absurd hin (hunmarked channel)
    · exact absurd hin (hunmarked channel)
  have hup := completed_caughtUp loose (.opened "me") ⟨"me", [], rfl⟩ pulling event rfl
    ⟨trivial, nofun, hlast, trivial⟩
  exact ⟨hdone, (hup hdone).1 "c" (by decide +kernel)⟩

/-- A channel is subscribed while the pull is in flight: its answer completes the cycle, though no
    page ever brought that channel. -/
theorem not_completed_caughtUp : ¬∀ (e : Engine) (c : Client), Reachable e c →
    ∀ (before : List CycleEvent) (event : CycleEvent), event.advances = true →
      (Machine.run (CycleRun.step e) ⟨c, {}, [], []⟩ before).CaughtUp e event := by
  intro h
  have hup := h loose (.opened "me") ⟨"me", [], rfl⟩ (pulling ++ [.setChannels [("d", true)]])
    (.complete (.page (page "c" 0 0 []))) rfl
  obtain ⟨hall, -⟩ := hup (by decide +kernel)
  obtain ⟨answer, hin, range, current, hr, -⟩ := hall "d" (by decide +kernel)
  have hno : ∀ answer ∈ (CycleRun.step loose (Machine.run (CycleRun.step loose)
      ⟨.opened "me", {}, [], []⟩ (pulling ++ [.setChannels [("d", true)]]))
      (.complete (.page (page "c" 0 0 [])))).pages, answer.cursors.lookup "d" = none := by
    decide +kernel
  rw [hno answer hin] at hr
  cases hr

end Sample

end AheadSync
