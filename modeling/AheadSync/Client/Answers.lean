import AheadSync.Client.Frames

/-! Answers to own pulls. Every pull that can still be answered is on the client's ledger, and what
    the ledger holds under the current subscriptions asked from at most the current cursors; so an
    answer is never ahead of a cursor, whatever was subscribed again while it was on its way. -/

namespace AheadSync

/-- A client with the pulls that were sent and can still be answered, each as the cursors it asked
    from, and the number of those that never will be. -/
structure Downlink where
  client : Client
  outstanding : List (SortedMap String ℕ) := []
  failed : ℕ := 0

/-- A call of the host, or a pull whose answer is lost. -/
inductive DownlinkEvent where
  | call (a : ClientAction)
  | lost (cursors : SortedMap String ℕ)

namespace Downlink
variable (e : Engine) (s : Downlink)

/-- A request is sent once it is encoded; the ledger has it before that. -/
def pulled : Downlink :=
  let (request, c) := s.client.downlinkRequest e
  match request with
  | .ok none => { s with client := c }
  | .ok (some request) => { s with client := c, outstanding := s.outstanding ++ [request.cursors] }
  | .error _ => { s with client := c, failed := s.failed + 1 }

def step : DownlinkEvent → Downlink
  | .call .pull => s.pulled e
  | .call (.applyPage page) => { s with
      client := s.client.act e (.applyPage page), outstanding := s.outstanding.erase page.froms }
  | .call (.receive page request) => { s with
      client := s.client.act e (.receive page request)
      outstanding := s.outstanding.erase page.froms }
  | .call .restart => ⟨s.client.restart, [], 0⟩
  | .call a => { s with client := s.client.act e a }
  | .lost cursors => if cursors ∈ s.outstanding then
      { s with outstanding := s.outstanding.erase cursors, failed := s.failed + 1 } else s

/-- The page is a valid page that answers an outstanding pull, handed over with its own request if
    with any. -/
structure Answer (page : PullPage) (request : Option PullRequest) : Prop where
  valid : page.validate = .ok ()
  asked : page.froms ∈ s.outstanding
  answers : ∀ r ∈ request, AheadSync.answers page r

/-- While pulls are outstanding only answers arrive, each once; fewer than the ledger's capacity are
    unanswered. -/
def Allowed : DownlinkEvent → Prop
  | .call .pull => s.outstanding.length + s.failed < PullLedger.capacity
  | .call (.applyPage page) => s.outstanding = [] ∨ s.Answer page none
  | .call (.receive page request) => s.outstanding = [] ∨ s.Answer page request
  | _ => True

end Downlink

/-- Neither entry reports a gap: an error of either is the one applying the page's records gives. -/
structure NeverGap (e : Engine) (c : Client) (page : PullPage) (request : Option PullRequest) :
    Prop where
  apply : ∀ m, (c.applyPage e page).1 = .error m → e.applyRecords c.store page.changes = .error m
  receive : ∀ m, (c.receiveDownlink e page request).1 = .error m →
    e.applyRecords c.store page.changes = .error m
  gaps : ∀ progress, (c.receiveDownlink e page request).1 = .ok progress →
    progress.disposition ≠ .recover ∧ progress.gaps = []

/-- The page is applied, covered or stale at both entries. -/
def Taken (e : Engine) (c : Client) (page : PullPage) (request : Option PullRequest) : Prop :=
  (∃ report, (c.applyPage e page).1 = .ok report ∧
    (report.stale = true ∨ report.cursors = c.store.moved page)) ∧
  ∃ progress, (c.receiveDownlink e page request).1 = .ok progress ∧
    (progress.disposition = .covered ∨ progress.disposition = .applied)

/-- What a page may do to the cursors: nothing to a channel it does not name or that is not
    subscribed, and to any other it moves it forward to exactly where it reaches or not at all. -/
structure CursorsKept (c c' : Client) (page : PullPage) : Prop where
  unsubscribed : ∀ channel, c.store.cursor channel = none → c'.store.cursor channel = none
  unnamed : ∀ channel, page.cursors.lookup channel = none →
    c'.store.cursor channel = c.store.cursor channel
  named : ∀ channel range current, page.cursors.lookup channel = some range →
    c.store.cursor channel = some current → c'.store.cursor channel = some current ∨
      (current < range.toCursor ∧ c'.store.cursor channel = some range.toCursor)

/-- The page is stale or covered, or nothing blocks finishing the delivery of its records. -/
def AnswerFinishes (e : Engine) (c : Client) (page : PullPage) : Prop :=
  ¬NoOldPull c.pulls page.froms ∨ (c.store.moved page).isEmpty = true ∨
    DeliveryFinishes e c.store page.changes

section Ledger
variable {l : PullLedger} {cursors : SortedMap String ℕ} {channel : String}

theorem epoch_insert (epochs : SortedMap String ℕ) (n g : ℕ) (channel' : String) :
    ({ l with epochs := epochs.insert channel n, generation := g } : PullLedger).epoch channel' =
      if channel' = channel then n else ({ l with epochs := epochs } : PullLedger).epoch channel' := by
  simp only [PullLedger.epoch, SortedMap.lookup_insert]
  split <;> rfl

/-- A marked channel moves to a later epoch, any other keeps its own. -/
theorem absorb_epoch : ∀ (marks : List String) (l : PullLedger) (channel : String),
    l.epoch channel ≤ (l.absorb marks).epoch channel ∧
      (channel ∈ marks → l.epoch channel < (l.absorb marks).epoch channel) ∧
      (channel ∉ marks → (l.absorb marks).epoch channel = l.epoch channel)
  | [], l, channel => by simp [PullLedger.absorb]
  | mark :: marks, l, channel => by
    obtain ⟨hle, hlt, heq⟩ := absorb_epoch marks { l with
      epochs := l.epochs.insert mark (l.epoch mark + 1), generation := l.generation + 1 } channel
    rw [epoch_insert] at hle hlt heq
    change _ ≤ (l.absorb (mark :: marks)).epoch channel at hle
    change _ → _ < (l.absorb (mark :: marks)).epoch channel at hlt
    change _ → (l.absorb (mark :: marks)).epoch channel = _ at heq
    by_cases hm : channel = mark
    · subst hm
      rw [if_pos rfl] at hle
      refine ⟨by omega, fun _ => by omega, fun h => absurd (List.mem_cons_self ..) h⟩
    · rw [if_neg hm] at hle hlt heq
      refine ⟨hle, fun h => ?_, fun h => heq fun hin => h (List.mem_cons_of_mem _ hin)⟩
      exact hlt ((List.mem_cons.mp h).resolve_left hm)

theorem absorb_issued : ∀ (marks : List String) (l : PullLedger), (l.absorb marks).issued = l.issued
  | [], _ => rfl
  | _ :: marks, _ => absorb_issued marks _

/-- Judging a page takes one request with its cursors off the ledger. Every request it leaves was
    there before: one that is brought to the current epochs becomes like the one that was taken. -/
theorem stale_spec (l : PullLedger) (cursors : SortedMap String ℕ) :
    (l.stale cursors).2.epochs = l.epochs ∧
    ((l.stale cursors).2.issued.map (·.cursors)).Perm ((l.issued.map (·.cursors)).erase cursors) ∧
    ∀ p ∈ (l.stale cursors).2.issued, p ∈ l.issued := by
  have htake : ∀ {i : ℕ} (hi : i < l.issued.length), l.issued[i].cursors = cursors →
      ((l.issued.eraseIdx i).map (·.cursors)).Perm ((l.issued.map (·.cursors)).erase cursors) := by
    intro i hi hp
    have hperm := ((List.getElem_cons_eraseIdx_perm hi).map (·.cursors)).erase cursors
    rw [List.map_cons, hp, List.erase_cons_head] at hperm
    exact hperm
  unfold PullLedger.stale
  simp only
  cases hcur : l.issued.findIdx? (fun p => p.cursors = cursors ∧
      p.epochs = l.currentEpochs cursors) with
  | some i =>
    obtain ⟨hi, hp, -⟩ := List.findIdx?_eq_some_iff_getElem.mp hcur
    simp only [Bool.decide_and, Bool.and_eq_true, decide_eq_true_eq] at hp
    refine ⟨rfl, ?_, fun p' hp' => ?_⟩
    · have hsame : ((l.issued.eraseIdx i).map fun p => if p.cursors = cursors then
          { p with epochs := l.currentEpochs cursors } else p).map (·.cursors) =
          (l.issued.eraseIdx i).map (·.cursors) := by
        rw [List.map_map]
        refine List.map_congr_left fun p _ => ?_
        simp only [Function.comp_apply]
        split <;> rfl
      rw [hsame]
      exact htake hi hp.1
    · obtain ⟨p, hmem, rfl⟩ := List.mem_map.mp hp'
      split
      · rename_i heq
        have hlike : ({ p with epochs := l.currentEpochs cursors } : IssuedPull) = l.issued[i] := by
          rw [← hp.2, heq.trans hp.1.symm]
        rw [hlike]
        exact List.getElem_mem hi
      · exact List.mem_of_mem_eraseIdx hmem
  | none =>
    cases hany : l.issued.findIdx? (fun p => p.cursors = cursors) with
    | some i =>
      obtain ⟨hi, hp, -⟩ := List.findIdx?_eq_some_iff_getElem.mp hany
      exact ⟨rfl, htake hi (by simpa using hp), fun p hmem => List.mem_of_mem_eraseIdx hmem⟩
    | none =>
      have hno : cursors ∉ l.issued.map (·.cursors) := by
        simpa using List.findIdx?_eq_none_iff.mp hany
      exact ⟨rfl, by rw [List.erase_of_not_mem hno], fun p hmem => hmem⟩

end Ledger

section Kept
variable {e : Engine} {st st' : Store} {c : Client} {page : PullPage}

theorem subscriptions_rebuildHeld (hwf : Wf e st) {held : Held} {reports : List Report}
    (hheld : ∀ k ∈ held, Named e k) (h : e.rebuildHeld st held = .ok (reports, st')) :
    st'.subscriptions = st.subscriptions := by
  obtain ⟨m, b, q, hf⟩ := (wf_rebuildHeld hwf hheld h).2.frame
  rw [hf]

theorem subscriptions_applyRecords (hwf : Wf e st) {records : List AuthorityRecord}
    {report : ApplyReport} (h : e.applyRecords st records = .ok (report, st')) :
    st'.subscriptions = st.subscriptions := by
  obtain ⟨reports, hreb, -⟩ := applyRecords_eq_ok.mp h
  have hst := stages_all records [] hwf
  obtain ⟨m, b, s, hf⟩ := hst.frame
  rw [subscriptions_rebuildHeld hst.wf
    (fun k hk => (hst.new k hk).elim (fun h => nomatch h) fun h => h.1) hreb, hf]

theorem subscriptions_complete (hwf : Wf e st) {push : ℕ} {receipt : PushReceipt}
    {report : ApplyReport} (h : e.complete st push receipt = .ok (report, st')) :
    st'.subscriptions = st.subscriptions := by
  obtain ⟨covered, wireRows, mid, affected, reports, fin, hc, -, rfl⟩ := (complete_eq_ok hwf).mp h
  have hset := settles_of_completes hwf hc.settled
  have hst := stages_all receipt.records affected hset.wf
  obtain ⟨b, hb⟩ := hset.frame
  obtain ⟨m, b', s, hs⟩ := hst.frame
  have hfin := subscriptions_rebuildHeld (wf_relieved hst.wf)
    (fun k hk => completes_named hwf receipt hset hk) hc.rebuilt
  change fin.subscriptions = _
  rw [hfin]
  change (e.stageAll mid affected receipt.records).1.subscriptions = _
  rw [hs, hb]

/-- Every call but a page, a subscription change and a pull leaves the cursors alone. -/
theorem act_subscriptions (hwf : Wf e c.store) : ∀ a : ClientAction, (match a with
      | .applyPage _ | .receive .. | .setChannels _ => False | _ => True) →
    (c.act e a).store.subscriptions = c.store.subscriptions
  | .enqueue m, _ => by
    refine commit_keeps (P := fun st => st.subscriptions = c.store.subscriptions) rfl fun _ st h => ?_
    obtain ⟨-, done, effects, q, mid, hq⟩ := enqueue_spec hwf h
    obtain ⟨main, before, queue, hframe⟩ := (enqueues_performing hwf hq).rows.frame
    rw [hq.result, show mid = _ from hframe]
  | .freeze _, _ => by
    refine commit_keeps (P := fun st => st.subscriptions = c.store.subscriptions) rfl fun _ st h => ?_
    rcases freeze_spec h with rfl | ⟨-, selected, -, -, -, rfl, -⟩ <;> rfl
  | .acknowledge sequence receipt, _ => by
    simp only [Client.act, Client.acknowledge]
    split
    · rfl
    · refine commit_keeps (P := fun st => st.subscriptions = c.store.subscriptions) rfl
        fun _ st h => ?_
      obtain ⟨-, -, ⟨-, -, rfl⟩ | ⟨-, -, hc⟩⟩ := acknowledge_eq_ok.mp h
      · rfl
      · exact subscriptions_complete hwf hc
  | .drop _, _ => by
    refine commit_keeps (P := fun st => st.subscriptions = c.store.subscriptions) rfl fun _ st h => ?_
    obtain ⟨st1, hd, heq⟩ := Except.map_eq_ok.mp h
    obtain ⟨-, rfl⟩ := Prod.mk.inj heq
    unfold Engine.dropMutation at hd
    split at hd
    · cases hd; rfl
    · split at hd
      · cases hd
      · simp only [Engine.removeRejected, markRejected_eq hwf, Except.ok_bind, Except.bind_eq_ok,
          Except.pure_eq_ok] at hd
        obtain ⟨⟨reports, st1⟩, hreb, rfl⟩ := hd
        have hsame := subscriptions_rebuildHeld (wf_marked hwf)
          (fun k hk => marked_named hwf hk) hreb
        exact hsame
  | .pull, _ => by
    simp only [Client.act, Client.downlinkRequest]
    split <;> rfl
  | .resolve _, _ => rfl
  | .restart, _ => rfl

/-- A page that is applied moves cursors forward to exactly where it reaches. -/
theorem cursorsKept_applyCurrentPage (hwf : Wf e c.store) {report : ApplyReport} {pulls : PullLedger}
    (h : e.applyCurrentPage c.store page = .ok (report, st')) : CursorsKept c ⟨st', pulls⟩ page := by
  obtain ⟨moving, hmoving, ⟨-, -, rfl⟩ | ⟨-, -, report1, st1, hr, -, rfl⟩⟩ :=
    applyCurrentPage_eq_ok.mp h
  · exact ⟨fun _ h => h, fun _ _ => rfl, fun _ _ _ _ h => Or.inl h⟩
  obtain ⟨-, rfl⟩ := movingChannels_eq_ok.mp hmoving
  have hcursor : ∀ channel, (st1.setCursors (c.store.moved page)).cursor channel =
      ((c.store.moved page).lookup channel).or (c.store.cursor channel) := by
    intro channel
    rw [setCursors_cursor]
    simp only [Store.cursor, subscriptions_applyRecords hwf hr]
  have hstay : ∀ channel, (c.store.moved page).lookup channel = none →
      (st1.setCursors (c.store.moved page)).cursor channel = c.store.cursor channel :=
    fun channel hn => by rw [hcursor, hn, Option.none_or]
  refine ⟨fun channel hc => ?_, fun channel hn => ?_, fun channel range current hr hc => ?_⟩
  · refine (hstay channel ?_).trans hc
    refine Option.eq_none_iff_forall_not_mem.mpr fun n hn => ?_
    obtain ⟨-, current, -, hc', -⟩ := moved_lookup.mp hn
    rw [hc] at hc'
    cases hc'
  · refine hstay channel (Option.eq_none_iff_forall_not_mem.mpr fun n hmem => ?_)
    obtain ⟨range, -, hr, -⟩ := moved_lookup.mp hmem
    rw [hn] at hr
    cases hr
  · by_cases hlt : current < range.toCursor
    · refine Or.inr ⟨hlt, ?_⟩
      change (st1.setCursors _).cursor channel = _
      rw [hcursor, moved_lookup.mpr ⟨range, current, hr, hc, hlt, rfl⟩]
      rfl
    · refine Or.inl ((hstay channel ?_).trans hc)
      refine Option.eq_none_iff_forall_not_mem.mpr fun n hmem => ?_
      obtain ⟨range', current', hr', hc', hlt', -⟩ := moved_lookup.mp hmem
      obtain rfl := Option.some.inj (hr.symm.trans hr')
      obtain rfl := Option.some.inj (hc.symm.trans hc')
      exact hlt hlt'

theorem cursorsKept_of_eq {c' : Client} (h : c'.store = c.store) : CursorsKept c c' page :=
  ⟨fun _ hc => by rw [h, hc], fun _ _ => by rw [h], fun _ _ _ _ hc => Or.inl (by rw [h, hc])⟩

theorem cursorsKept_applyPage (hwf : Wf e c.store) : CursorsKept c (c.applyPage e page).2 page := by
  rcases applyPage_store e c page with heq | ⟨report, ha⟩
  · exact cursorsKept_of_eq heq
  · exact cursorsKept_applyCurrentPage hwf ha

theorem cursorsKept_receive (hwf : Wf e c.store) (request : Option PullRequest) :
    CursorsKept c (c.receiveDownlink e page request).2 page := by
  rcases receive_store e c page request with heq | ⟨report, ha⟩
  · exact cursorsKept_of_eq heq
  · exact cursorsKept_applyCurrentPage hwf ha

theorem CursorsKept.mono {c' : Client} (h : CursorsKept c c' page) {channel : String} {m : ℕ}
    (hm : c'.store.cursor channel = some m) : ∃ n ≤ m, c.store.cursor channel = some n := by
  cases hc : c.store.cursor channel with
  | none =>
    rw [h.unsubscribed channel hc] at hm
    cases hm
  | some n =>
    refine ⟨n, ?_, rfl⟩
    cases hp : page.cursors.lookup channel with
    | none =>
      rw [h.unnamed channel hp, hc] at hm
      exact (Option.some.inj hm).le
    | some range =>
      rcases h.named channel range n hp hc with heq | ⟨hlt, heq⟩
      · exact (Option.some.inj (heq.symm.trans hm)).le
      · exact hlt.le.trans (Option.some.inj (heq.symm.trans hm)).le

end Kept

/-- What the ledger remembers and where the cursors are: every pull that can be answered is
    remembered, within the capacity, no remembered epoch is in the future, and a cursor asked from
    under the current subscription of its channel has been reached. -/
structure Answerable (s : Downlink) : Prop where
  remembered : ∀ k, s.outstanding.count k ≤ (s.client.pulls.issued.map (·.cursors)).count k
  room : s.client.pulls.issued.length ≤ s.outstanding.length + s.failed
  past : ∀ p ∈ s.client.pulls.issued, ∀ channel n, p.epochs.lookup channel = some n →
    n ≤ s.client.pulls.epoch channel
  reached : ∀ p ∈ s.client.pulls.issued, ∀ channel n m, p.cursors.lookup channel = some n →
    p.epochs.lookup channel = some (s.client.pulls.epoch channel) →
    s.client.store.cursor channel = some m → n ≤ m

section Answerable
variable {e : Engine} {s : Downlink} {page : PullPage} {request : Option PullRequest}

/-- A call that leaves the ledger and the cursors alone. -/
theorem answerable_of_eq {c : Client} (h : Answerable s) (hp : c.pulls = s.client.pulls)
    (hs : c.store.subscriptions = s.client.store.subscriptions) :
    Answerable { s with client := c } where
  remembered := fun k => by change _ ≤ (c.pulls.issued.map _).count k; rw [hp]; exact h.remembered k
  room := by change c.pulls.issued.length ≤ _; rw [hp]; exact h.room
  past := by change ∀ p ∈ c.pulls.issued, _; rw [hp]; exact h.past
  reached := by
    intro p hmem channel n m hn he hm
    rw [show ({ s with client := c } : Downlink).client.pulls = s.client.pulls from hp] at hmem he
    refine h.reached p hmem channel n m hn he ?_
    rw [← hm]
    exact congrArg (·.lookup channel) hs.symm

/-- A page is judged once and keeps the cursors. -/
theorem answerable_page {c : Client} (h : Answerable s)
    (hp : c.pulls = (s.client.pulls.stale page.froms).2) (hk : CursorsKept s.client c page) :
    Answerable { s with client := c, outstanding := s.outstanding.erase page.froms } := by
  obtain ⟨hepochs, hperm, hsub⟩ := stale_spec s.client.pulls page.froms
  have hepoch : ∀ channel, c.pulls.epoch channel = s.client.pulls.epoch channel := fun channel => by
    simp only [PullLedger.epoch, hp, hepochs]
  have hmem : ∀ p ∈ c.pulls.issued, p ∈ s.client.pulls.issued := fun p hin => hsub p (hp ▸ hin)
  refine ⟨fun k => ?_, ?_, fun p hin channel n hn => ?_, fun p hin channel n m hn he hm => ?_⟩
  · change (s.outstanding.erase page.froms).count k ≤ (c.pulls.issued.map (·.cursors)).count k
    rw [hp, hperm.count_eq, List.count_erase, List.count_erase]
    exact Nat.sub_le_sub_right (h.remembered k) _
  · change c.pulls.issued.length ≤ (s.outstanding.erase page.froms).length + s.failed
    have hlen := hperm.length_eq
    have hroom := h.room
    rw [List.length_map] at hlen
    rw [hp, hlen]
    by_cases ho : page.froms ∈ s.outstanding
    · have hissued : page.froms ∈ s.client.pulls.issued.map (·.cursors) :=
        List.count_pos_iff.mp ((List.count_pos_iff.mpr ho).trans_le (h.remembered _))
      have hpos := List.length_pos_of_mem ho
      rw [List.length_erase_of_mem hissued, List.length_erase_of_mem ho, List.length_map]
      omega
    · have hle := List.length_erase_le (a := page.froms) (l := s.client.pulls.issued.map (·.cursors))
      rw [List.length_map] at hle
      rw [List.erase_of_not_mem ho]
      omega
  · rw [hepoch]
    exact h.past p (hmem p hin) channel n hn
  · obtain ⟨m', hle, hm'⟩ := hk.mono hm
    exact (h.reached p (hmem p hin) channel n m' hn ((hepoch channel) ▸ he) hm').trans hle

/-- A request goes on the ledger with every cursor under its current epoch; as fewer are unanswered
    than it holds, it forgets none. -/
theorem answerable_issued (h : Answerable s)
    (hroom : s.outstanding.length + s.failed < PullLedger.capacity)
    {outstanding : List (SortedMap String ℕ)} {failed : ℕ}
    (hcount : ∀ k, outstanding.count k ≤ (s.outstanding ++ [s.client.store.subscriptions]).count k)
    (hlen : outstanding.length + failed = s.outstanding.length + s.failed + 1) :
    Answerable ⟨{ s.client with pulls := s.client.pulls.issue s.client.store.subscriptions },
      outstanding, failed⟩ := by
  have hr := h.room
  have hissued : (s.client.pulls.issue s.client.store.subscriptions).issued = s.client.pulls.issued ++
      [⟨s.client.store.subscriptions, s.client.pulls.currentEpochs s.client.store.subscriptions⟩] := by
    rw [PullLedger.issue, if_neg (by omega)]
  have hcases : ∀ p ∈ (s.client.pulls.issue s.client.store.subscriptions).issued,
      p ∈ s.client.pulls.issued ∨ p = ⟨s.client.store.subscriptions,
        s.client.pulls.currentEpochs s.client.store.subscriptions⟩ := by
    intro p hp
    rw [hissued] at hp
    exact (List.mem_append.mp hp).imp_right List.mem_singleton.mp
  refine ⟨fun k => ?_, ?_, fun p hp channel n hn => ?_, fun p hp channel n m hn he hm => ?_⟩
  · change _ ≤ ((s.client.pulls.issue s.client.store.subscriptions).issued.map (·.cursors)).count k
    rw [hissued, List.map_append]
    refine (hcount k).trans ?_
    rw [List.count_append, List.count_append]
    exact Nat.add_le_add_right (h.remembered k) _
  · change (s.client.pulls.issue s.client.store.subscriptions).issued.length ≤ outstanding.length + failed
    rw [hissued, List.length_append, List.length_singleton]
    omega
  · change n ≤ s.client.pulls.epoch channel
    rcases hcases p hp with hp | rfl
    · exact h.past p hp channel n hn
    · rw [PullLedger.currentEpochs, SortedMap.lookup_mapValues] at hn
      obtain ⟨_, -, rfl⟩ := Option.map_eq_some_iff.mp hn
      exact le_rfl
  · rcases hcases p hp with hp | rfl
    · exact h.reached p hp channel n m hn he hm
    · exact (Option.some.inj (hn.symm.trans hm)).le

theorem answerable_pulled (h : Answerable s)
    (hroom : s.outstanding.length + s.failed < PullLedger.capacity) : Answerable (s.pulled e) := by
  unfold Downlink.pulled Client.downlinkRequest
  by_cases hempty : s.client.store.subscriptions.isEmpty = true
  · simp only [hempty, ↓reduceIte]
    exact h
  · simp only [hempty]
    cases hv : PullRequest.validate ⟨e.declaredModels, s.client.store.subscriptions⟩ with
    | ok u =>
      refine answerable_issued h hroom (fun k => le_rfl) ?_
      rw [List.length_append, List.length_singleton]
      omega
    | error m =>
      refine answerable_issued h hroom (fun k => ?_) (by omega)
      rw [List.count_append]
      exact Nat.le_add_right _ _

/-- A channel that is not marked kept its cursor. -/
theorem setChannel_unmarked {acc : Store × List String} {change : String × Bool} {channel : String}
    (h : channel ∉ (Store.setChannel acc change).2) :
    (Store.setChannel acc change).1.cursor channel = acc.1.cursor channel ∧ channel ∉ acc.2 := by
  obtain ⟨st, marks⟩ := acc
  obtain ⟨name, subscribed⟩ := change
  simp only [Store.setChannel] at h ⊢
  cases subscribed with
  | true =>
    cases hc : st.cursor name with
    | none =>
      simp only [hc, Option.isNone_none, ↓reduceIte, List.mem_cons, not_or] at h ⊢
      exact ⟨SortedMap.lookup_insert_ne _ _ h.1, h.2⟩
    | some n => simpa [hc] using h
  | false =>
    simp only [Bool.false_eq_true, ↓reduceIte] at h ⊢
    have herase : (st.deleteSubscription name).cursor channel =
        if channel = name then none else st.cursor channel := SortedMap.lookup_erase _ _ _
    rw [herase]
    split at h
    · rw [List.mem_cons, not_or] at h
      exact ⟨if_neg h.1, h.2⟩
    · rename_i hnone
      refine ⟨?_, h⟩
      split
      · rename_i heq
        rw [heq, Option.not_isSome_iff_eq_none.mp hnone]
      · rfl

theorem setChannels_unmarked : ∀ {changes : List (String × Bool)} (acc : Store × List String)
    {channel : String}, channel ∉ (changes.foldl Store.setChannel acc).2 →
    (changes.foldl Store.setChannel acc).1.cursor channel = acc.1.cursor channel ∧ channel ∉ acc.2
  | [], _, _, h => ⟨rfl, h⟩
  | change :: changes, acc, channel, h => by
    obtain ⟨hrest, hmarks⟩ := setChannels_unmarked (Store.setChannel acc change) h
    obtain ⟨hone, hmarks⟩ := setChannel_unmarked hmarks
    exact ⟨hrest.trans hone, hmarks⟩

/-- Subscription changes move the epoch of every channel whose cursor they change. -/
theorem answerable_setChannels (h : Answerable s) (changes : List (String × Bool)) :
    Answerable { s with client := s.client.setChannels changes } := by
  set acc := changes.foldl Store.setChannel (s.client.store, []) with hacc
  have hissued : (s.client.pulls.absorb (sortedSet acc.2)).issued = s.client.pulls.issued :=
    absorb_issued _ _
  have hle : ∀ channel, s.client.pulls.epoch channel ≤
      (s.client.pulls.absorb (sortedSet acc.2)).epoch channel := fun channel =>
    (absorb_epoch _ _ channel).1
  have hcases : ∀ channel,
      s.client.pulls.epoch channel < (s.client.pulls.absorb (sortedSet acc.2)).epoch channel ∨
        (acc.1.cursor channel = s.client.store.cursor channel ∧
          (s.client.pulls.absorb (sortedSet acc.2)).epoch channel = s.client.pulls.epoch channel) := by
    intro channel
    obtain ⟨-, hlt, heq⟩ := absorb_epoch (sortedSet acc.2) s.client.pulls channel
    by_cases hm : channel ∈ sortedSet acc.2
    · exact Or.inl (hlt hm)
    · refine Or.inr ⟨(setChannels_unmarked (s.client.store, []) fun hin => hm ?_).1, heq hm⟩
      simpa [sortedSet] using hin
  refine ⟨?_, ?_, ?_, ?_⟩
  · change ∀ k, _ ≤ ((s.client.pulls.absorb (sortedSet acc.2)).issued.map (·.cursors)).count k
    rw [hissued]
    exact h.remembered
  · change (s.client.pulls.absorb (sortedSet acc.2)).issued.length ≤ _
    rw [hissued]
    exact h.room
  · change ∀ p ∈ (s.client.pulls.absorb (sortedSet acc.2)).issued, _
    rw [hissued]
    exact fun p hp channel n hn => (h.past p hp channel n hn).trans (hle channel)
  · change ∀ p ∈ (s.client.pulls.absorb (sortedSet acc.2)).issued, _
    rw [hissued]
    intro p hp channel n m hn he hm
    have hpast := h.past p hp channel _ he
    rcases hcases channel with hlt | ⟨hcur, hepoch⟩
    · -- the channel was marked, so the request was issued under an earlier subscription
      exact absurd hlt (not_lt.mpr hpast)
    · exact h.reached p hp channel n m hn (he.trans (congrArg some hepoch)) (hcur.symm.trans hm)

theorem answerable_restart (s : Downlink) : Answerable ⟨s.client.restart, [], 0⟩ :=
  ⟨by simp, le_rfl, nofun, nofun⟩

theorem answerable_lost (h : Answerable s) (cursors : SortedMap String ℕ) :
    Answerable (s.step e (.lost cursors)) := by
  simp only [Downlink.step]
  split
  · rename_i hmem
    refine ⟨fun k => (List.erase_sublist.count_le k).trans (h.remembered k), ?_, h.past, h.reached⟩
    have hpos := List.length_pos_of_mem hmem
    have hroom := h.room
    change s.client.pulls.issued.length ≤ (s.outstanding.erase cursors).length + (s.failed + 1)
    rw [List.length_erase_of_mem hmem]
    omega
  · exact h

/-- A page nobody judged is a frame, and no pull is outstanding. -/
theorem answerable_idle (h : Answerable s) (ho : s.outstanding = []) (k : SortedMap String ℕ) :
    Answerable { s with outstanding := s.outstanding.erase k } := by
  have hsame : s.outstanding.erase k = s.outstanding := by rw [ho, List.erase_nil]
  rw [hsame]
  exact h

theorem commit_pulls {α : Type} (c : Client) (r : Except String (α × Store)) :
    (c.commit r).2.pulls = c.pulls := by
  unfold Client.commit
  split <;> rfl

/-- A page is judged once it is valid and answers the request it is handed over with. -/
theorem applyPage_judges (c : Client) (page : PullPage) :
    (page.validate ≠ .ok () ∧ (c.applyPage e page).2 = c) ∨
      (c.applyPage e page).2.pulls = (c.pulls.stale page.froms).2 := by
  unfold Client.applyPage
  cases hv : page.validate with
  | error m => exact Or.inl ⟨nofun, rfl⟩
  | ok u =>
    refine Or.inr ?_
    simp only
    split
    · rfl
    · exact commit_pulls ..

theorem receive_judges (c : Client) (page : PullPage) (request : Option PullRequest) :
    (¬(page.validate = .ok () ∧ ∀ r ∈ request, answers page r) ∧
        (c.receiveDownlink e page request).2 = c) ∨
      (c.receiveDownlink e page request).2.pulls = (c.pulls.stale page.froms).2 := by
  have hguard : (do page.validate
                    ensure (request.all (answers page)) "response does not match pull request" :
      Except String Unit) = .ok () ↔ page.validate = .ok () ∧ ∀ r ∈ request, answers page r := by
    have hall : request.all (answers page) = true ↔ ∀ r ∈ request, answers page r = true := by
      cases request <;> simp
    simp only [Except.bind_eq_ok, ensure_eq_ok, hall]
    constructor
    · rintro ⟨_, h⟩
      exact h
    · intro h
      exact ⟨(), h⟩
  rw [← hguard]
  unfold Client.receiveDownlink
  split
  · rename_i m hm
    exact Or.inl ⟨by simp [hm], rfl⟩
  · refine Or.inr ?_
    simp only
    split
    · rfl
    · split
      · rfl
      · split
        · rfl
        · exact commit_pulls ..

/-- Every step keeps the pulls that can be answered remembered. -/
theorem answerable_step (hwf : Wf e s.client.store) (h : Answerable s) {event : DownlinkEvent}
    (ha : s.Allowed event) : Answerable (s.step e event) := by
  have hcall : ∀ a : ClientAction, (match a with
        | .applyPage _ | .receive .. | .setChannels _ => False | _ => True) →
      (s.client.act e a).pulls = s.client.pulls → Answerable { s with client := s.client.act e a } :=
    fun a hk hp => answerable_of_eq h hp (act_subscriptions hwf a hk)
  cases event with
  | lost cursors => exact answerable_lost h cursors
  | call a =>
    cases a with
    | pull => exact answerable_pulled h ha
    | restart => exact answerable_restart s
    | setChannels changes => exact answerable_setChannels h changes
    | applyPage page =>
      rcases applyPage_judges (e := e) s.client page with ⟨hv, hc⟩ | hp
      · have ho := ha.resolve_right fun hanswer => hv hanswer.valid
        have hidle := answerable_idle h ho page.froms
        simp only [Downlink.step, Client.act, hc]
        exact hidle
      · exact answerable_page h hp (cursorsKept_applyPage hwf)
    | receive page request =>
      rcases receive_judges (e := e) s.client page request with ⟨hv, hc⟩ | hp
      · have ho := ha.resolve_right fun hanswer => hv ⟨hanswer.valid, hanswer.answers⟩
        have hidle := answerable_idle h ho page.froms
        simp only [Downlink.step, Client.act, hc]
        exact hidle
      · exact answerable_page h hp (cursorsKept_receive hwf request)
    | enqueue m => exact hcall (.enqueue m) trivial (commit_pulls ..)
    | freeze maxBytes => exact hcall (.freeze maxBytes) trivial (commit_pulls ..)
    | acknowledge sequence receipt =>
      refine hcall (.acknowledge sequence receipt) trivial ?_
      simp only [Client.act, Client.acknowledge]
      split
      · rfl
      · exact commit_pulls ..
    | drop ordinal => exact hcall (.drop ordinal) trivial (commit_pulls ..)
    | resolve key => exact hcall (.resolve key) trivial rfl

theorem step_client (s : Downlink) (event : DownlinkEvent) :
    (s.step e event).client = s.client ∨ ∃ a, (s.step e event).client = s.client.act e a := by
  cases event with
  | lost cursors =>
    simp only [Downlink.step]
    split <;> exact Or.inl rfl
  | call a =>
    refine Or.inr ⟨a, ?_⟩
    cases a with
    | pull =>
      simp only [Downlink.step, Downlink.pulled]
      split <;> rfl
    | _ => rfl

/-- Every pull that can be answered is remembered, in every state a run reaches. -/
theorem answerable_run {clientId : String} {events : List DownlinkEvent}
    (h : Machine.Along (Downlink.step e) Downlink.Allowed ⟨.opened clientId, [], 0⟩ events) :
    Reachable e (Machine.run (Downlink.step e) ⟨.opened clientId, [], 0⟩ events).client ∧
      Answerable (Machine.run (Downlink.step e) ⟨.opened clientId, [], 0⟩ events) := by
  refine Machine.run_keeps (P := fun s : Downlink => Reachable e s.client ∧ Answerable s)
    (fun s event hs ha => ⟨?_, answerable_step (wf_reachable hs.1) hs.2 ha⟩)
    ⟨⟨clientId, [], rfl⟩, by simp [Client.opened], by simp [Client.opened],
      by simp [Client.opened], by simp [Client.opened]⟩ h
  obtain ⟨clientId, actions, hact⟩ := hs.1
  rcases step_client (e := e) s event with heq | ⟨a, heq⟩
  · exact heq ▸ hs.1
  · exact ⟨clientId, actions ++ [a], by rw [heq, hact]; exact (List.foldl_concat ..).symm⟩

/-- An answer that is not from an earlier subscription starts at most at every cursor. -/
theorem noGap_of_answer (h : Answerable s) (ha : page.froms ∈ s.outstanding)
    (hold : NoOldPull s.client.pulls page.froms) : NoGap s.client.store page := by
  have hmem : page.froms ∈ s.client.pulls.issued.map (·.cursors) :=
    List.count_pos_iff.mp ((List.count_pos_iff.mpr ha).trans_le (h.remembered _))
  obtain ⟨p, hp, hcursors, hepochs⟩ : ∃ p ∈ s.client.pulls.issued, p.cursors = page.froms ∧
      p.epochs = s.client.pulls.currentEpochs page.froms := by
    refine hold.resolve_left fun hno => ?_
    obtain ⟨p, hp, heq⟩ := List.mem_map.mp hmem
    exact hno p hp heq
  intro channel range current hr hc _
  have hfrom : page.froms.lookup channel = some range.fromCursor := by
    rw [PullPage.froms, SortedMap.lookup_mapValues, hr, Option.map_some]
  refine h.reached p hp channel _ current (hcursors ▸ hfrom) ?_ hc
  rw [hepochs, PullLedger.currentEpochs, SortedMap.lookup_mapValues, hfrom, Option.map_some]

end Answerable

section Taken
variable {e : Engine} {c : Client} {st : Store} {page : PullPage} {request : Option PullRequest}

/-- A page without a gap is covered, or lands its records and moves its cursors. -/
theorem applyCurrentPage_of_noGap (h : NoGap st page) : e.applyCurrentPage st page =
    if (st.moved page).isEmpty then .ok ({ stale := true }, st)
    else (e.applyRecords st page.changes).map fun (report, st1) =>
      ({ report with cursors := st.moved page }, st1.setCursors (st.moved page)) := by
  simp only [Engine.applyCurrentPage, movingChannels_eq_ok.mpr ⟨h, rfl⟩, Except.ok_bind]
  split
  · rfl
  · rw [(List.forM_eq_ok (u := ())).mpr ?check]
    · cases e.applyRecords st page.changes <;> rfl
    case check =>
      intro x hx
      cases hl : (st.moved page).lookup x.1 with
      | none => rfl
      | some goal =>
        obtain ⟨range, current, hr, hc, hlt, rfl⟩ := moved_lookup.mp hl
        simp only [hc, Option.getD_some, ensure_eq_ok]
        omega

theorem newFor_eq_nil : c.newFor page = [] ↔ (c.store.moved page).isEmpty = true := by
  rw [← Bool.not_eq_false, moved_isEmpty]
  constructor
  · rintro h ⟨channel, range, current, hr, hc, hlt⟩
    have hmem : (channel, range) ∈ c.newFor page := List.mem_filter.mpr
      ⟨SortedMap.lookup_eq_some_iff.mp hr, by simpa [hc] using hlt⟩
    rw [h] at hmem
    cases hmem
  · refine fun h => List.filter_eq_nil_iff.mpr fun x hx hmoves => h ?_
    cases hc : c.store.cursor x.1 with
    | none => simp [hc] at hmoves
    | some current =>
      exact ⟨x.1, x.2, current, SortedMap.lookup_eq_some_iff.mpr hx, hc, by simpa [hc] using hmoves⟩

theorem gaps_eq_nil (h : NoGap c.store page) : ((c.newFor page).filter fun x =>
    (c.store.cursor x.1).getD 0 < x.2.fromCursor) = [] := by
  refine List.filter_eq_nil_iff.mpr fun x hx hgap => ?_
  obtain ⟨hmem, hmoves⟩ := List.mem_filter.mp hx
  cases hc : c.store.cursor x.1 with
  | none => simp [hc] at hmoves
  | some current =>
    have hle := h x.1 x.2 current (SortedMap.lookup_eq_some_iff.mpr hmem) hc
      (by simpa [hc] using hmoves)
    simp only [hc, Option.getD_some, decide_eq_true_eq] at hgap
    omega

/-- A page that is stale or leaves no gap, handed over to `apply_page`. -/
theorem applyPage_result (hv : page.validate = .ok ())
    (h : NoOldPull c.pulls page.froms → NoGap c.store page) : (c.applyPage e page).1 =
      if (c.pulls.stale page.froms).1 ∨ (c.store.moved page).isEmpty then .ok { stale := true }
      else (e.applyRecords c.store page.changes).map fun out =>
        { out.1 with cursors := c.store.moved page } := by
  unfold Client.applyPage
  rw [hv]
  simp only
  cases hs : (c.pulls.stale page.froms).1 with
  | true => rfl
  | false =>
    simp only [Bool.false_eq_true, ↓reduceIte, false_or, Client.commit,
      applyCurrentPage_of_noGap (h ((stale_eq_false _ _).mp hs))]
    by_cases hm : (c.store.moved page).isEmpty = true
    · simp only [hm, ↓reduceIte]
    · simp only [hm]
      cases e.applyRecords c.store page.changes <;> rfl

/-- And to `receive_downlink`: it is stale or covered, or its records are applied and its cursors move
    with them. -/
theorem receive_eq (hv : page.validate = .ok ()) (hr : ∀ r ∈ request, answers page r)
    (h : NoOldPull c.pulls page.froms → NoGap c.store page) :
    c.receiveDownlink e page request =
      let continues := (page.cursors.entries.filter (·.2.continues)).map (·.1)
      let pulls := (c.pulls.stale page.froms).2
      if (c.pulls.stale page.froms).1 ∨ (c.store.moved page).isEmpty then
        (.ok { continues }, { c with pulls })
      else match e.applyRecords c.store page.changes with
        | .error m => (.error m, { c with pulls })
        | .ok (report, st) => (.ok { disposition := .applied, continues
                                     report := { report with cursors := c.store.moved page } },
            ⟨st.setCursors (c.store.moved page), pulls⟩) := by
  have hok : (do
      page.validate
      ensure (request.all (answers page)) "response does not match pull request" :
        Except String Unit) = .ok () := by
    rw [hv, Except.ok_bind, ensure_eq_ok]
    cases request with
    | none => rfl
    | some r => exact hr r rfl
  unfold Client.receiveDownlink
  rw [hok]
  simp only
  cases hs : (c.pulls.stale page.froms).1 with
  | true => rfl
  | false =>
    have hgap := h ((stale_eq_false _ _).mp hs)
    have hgaps : (Client.newFor { c with pulls := (c.pulls.stale page.froms).2 } page).filter
        (fun x => (c.store.cursor x.1).getD 0 < x.2.fromCursor) = [] := gaps_eq_nil hgap
    have hnew : Client.newFor { c with pulls := (c.pulls.stale page.froms).2 } page = [] ↔
        (c.store.moved page).isEmpty = true := newFor_eq_nil
    simp only [Bool.false_eq_true, ↓reduceIte, false_or, hgaps, List.map_nil, ne_eq,
      not_true_eq_false, hnew, Client.commit, applyCurrentPage_of_noGap hgap]
    by_cases hm : (c.store.moved page).isEmpty = true
    · simp only [hm, ↓reduceIte]
    · simp only [hm]
      cases e.applyRecords c.store page.changes <;> rfl

theorem receive_result (hv : page.validate = .ok ()) (hr : ∀ r ∈ request, answers page r)
    (h : NoOldPull c.pulls page.froms → NoGap c.store page) :
    (c.receiveDownlink e page request).1 =
      if (c.pulls.stale page.froms).1 ∨ (c.store.moved page).isEmpty then
        .ok { continues := (page.cursors.entries.filter (·.2.continues)).map (·.1) }
      else (e.applyRecords c.store page.changes).map fun out => {
        disposition := .applied
        continues := (page.cursors.entries.filter (·.2.continues)).map (·.1)
        report := { out.1 with cursors := c.store.moved page } } := by
  rw [receive_eq hv hr h]
  split
  · rfl
  · cases e.applyRecords c.store page.changes <;> rfl

/-- An answer is never a gap, and it is applied, covered or stale unless its records block. -/
theorem answer_taken (hwf : Wf e c.store) (hv : page.validate = .ok ())
    (hr : ∀ r ∈ request, answers page r) (h : NoOldPull c.pulls page.froms → NoGap c.store page) :
    NeverGap e c page request ∧ (Taken e c page request ↔ AnswerFinishes e c page) := by
  have hstale : ¬NoOldPull c.pulls page.froms ↔ (c.pulls.stale page.froms).1 = true := by
    rw [← stale_eq_false, Bool.not_eq_false]
  rw [AnswerFinishes, hstale, ← applyRecords_ok_iff hwf, ← or_assoc, Taken,
    applyPage_result hv h, receive_result hv hr h]
  by_cases hc : (c.pulls.stale page.froms).1 = true ∨ (c.store.moved page).isEmpty = true
  · refine ⟨⟨?_, ?_, ?_⟩, ?_⟩
    · rw [applyPage_result hv h, if_pos hc]; nofun
    · rw [receive_result hv hr h, if_pos hc]; nofun
    · rw [receive_result hv hr h, if_pos hc]
      rintro progress ⟨⟩
      exact ⟨nofun, rfl⟩
    · simp only [hc, true_or, iff_true]
      exact ⟨⟨_, rfl, Or.inl rfl⟩, _, rfl, Or.inl rfl⟩
  · cases ha : e.applyRecords c.store page.changes with
    | error m =>
      refine ⟨⟨?_, ?_, ?_⟩, ?_⟩
      · rw [applyPage_result hv h, if_neg hc, ha]
        exact fun m' hm => congrArg Except.error (Except.error.inj hm)
      · rw [receive_result hv hr h, if_neg hc, ha]
        exact fun m' hm => congrArg Except.error (Except.error.inj hm)
      · rw [receive_result hv hr h, if_neg hc, ha]; nofun
      · simp [hc, Except.map]
    | ok out =>
      refine ⟨⟨?_, ?_, ?_⟩, ?_⟩
      · rw [applyPage_result hv h, if_neg hc, ha]; nofun
      · rw [receive_result hv hr h, if_neg hc, ha]; nofun
      · rw [receive_result hv hr h, if_neg hc, ha]
        rintro progress ⟨⟩
        exact ⟨nofun, rfl⟩
      · simp only [if_neg hc, Except.ok.injEq, exists_eq', or_true, iff_true]
        exact ⟨⟨_, rfl, Or.inr rfl⟩, _, rfl, Or.inr rfl⟩

/-- In every run the answer to an outstanding pull is never a gap, and it is applied, covered or
    stale exactly when it is stale or covered or nothing blocks finishing the delivery of its
    records; and no page inserts a subscription or moves a cursor but forward to where it reaches. -/
theorem answered_run (e : Engine) (clientId : String) (events : List DownlinkEvent)
    (h : Machine.Along (Downlink.step e) Downlink.Allowed ⟨.opened clientId, [], 0⟩ events) :
    let s := Machine.run (Downlink.step e) ⟨.opened clientId, [], 0⟩ events
    (∀ page request, s.Answer page request → NeverGap e s.client page request ∧
      (Taken e s.client page request ↔ AnswerFinishes e s.client page)) ∧
    ∀ page request, CursorsKept s.client (s.client.applyPage e page).2 page ∧
      CursorsKept s.client (s.client.receiveDownlink e page request).2 page := by
  obtain ⟨hreach, hanswerable⟩ := answerable_run h
  have hwf := wf_reachable hreach
  refine ⟨fun page request ha => ?_, fun page request =>
    ⟨cursorsKept_applyPage hwf, cursorsKept_receive hwf request⟩⟩
  exact answer_taken hwf ha.valid ha.answers (noGap_of_answer hanswerable ha.asked)

end Taken

section Sample
open Sample

/-- The client subscribed, pulled, and subscribed again before the answer; then it pulled again. -/
def Sample.resubscribed : List DownlinkEvent :=
  [.call (.setChannels [("c", true)]), .call .pull, .call (.setChannels [("c", false)]),
    .call (.setChannels [("c", true)]), .call .pull]

/-- The first answer to arrive is applied, whichever of the two pulls it answers. -/
theorem answered_run_loose :
    let s := Machine.run (Downlink.step loose) ⟨.opened "me", [], 0⟩ resubscribed
    NeverGap loose s.client (page "c" 0 1 [record "a" "x" 1]) none ∧
      Taken loose s.client (page "c" 0 1 [record "a" "x" 1]) none := by
  have hrun := answered_run loose "me" resubscribed
    ⟨trivial, show _ < PullLedger.capacity by decide +kernel, trivial, trivial,
      show _ < PullLedger.capacity by decide +kernel, trivial⟩
  obtain ⟨hgap, htaken⟩ := hrun.1 (page "c" 0 1 [record "a" "x" 1]) none
    ⟨by decide +kernel, by decide +kernel, nofun⟩
  have hwf : Wf loose (client loose [.setChannels [("c", true)], .pull, .setChannels [("c", false)],
      .setChannels [("c", true)], .pull]).store := wf_reachable (client_reachable loose _)
  refine ⟨hgap, htaken.mpr (Or.inr (Or.inr ((applyRecords_ok_iff hwf).mp ?_)))⟩
  exact Except.exists_ok (by decide +kernel)

/-- The client holds item `a` in box `x`, created item `b` in box `y`, and pulled. -/
def Sample.overtaken : List DownlinkEvent :=
  [.call (.setChannels [("c", true)]), .call (.applyPage (page "c" 0 1 [record "a" "x" 1])),
    .call (.enqueue { name := "put", operations := [create "b" "y"] }), .call .pull]

/-- The answer to the pull of the client that created item `b` brings the server's item `b` in box
    `x`: the page is neither applied nor covered nor stale, the error is that of another item. -/
theorem not_answered_run : ¬∀ (e : Engine) (clientId : String) (events : List DownlinkEvent),
    Machine.Along (Downlink.step e) Downlink.Allowed ⟨.opened clientId, [], 0⟩ events →
    let s := Machine.run (Downlink.step e) ⟨.opened clientId, [], 0⟩ events
    (∀ page request, s.Answer page request →
      NeverGap e s.client page request ∧ Taken e s.client page request) ∧
    ∀ page request, CursorsKept s.client (s.client.applyPage e page).2 page ∧
      CursorsKept s.client (s.client.receiveDownlink e page request).2 page := by
  intro h
  have hrun := h tight "me" overtaken ⟨trivial, Or.inl rfl, trivial,
    show _ < PullLedger.capacity by decide +kernel, trivial⟩
  obtain ⟨-, ⟨report, heq, -⟩, -⟩ := hrun.1 (page "c" 1 2 [record "b" "x" 2]) none
    ⟨by decide +kernel, by decide +kernel, nofun⟩
  have herr : ((Machine.run (Downlink.step tight) ⟨.opened "me", [], 0⟩ overtaken).client.applyPage
      tight (page "c" 1 2 [record "b" "x" 2])).1.isOk = false := by decide +kernel
  rw [heq] at herr
  cases herr

end Sample

end AheadSync
