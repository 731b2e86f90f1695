import AheadSync.Client.Answers
import AheadSync.Client.Unordered
import AheadSync.Server.Feed

/-! Catching up: a client pulls, the server answers and the client receives the page, again while a
    channel of the page continues. Over a server held fixed this stops, and it stops with every
    subscribed channel at its head and everything on the way delivered, unless the server refuses the
    client or a page is blocked. -/

namespace AheadSync

/-- One round of a catch-up: the pull, its page, and the client as the page came. -/
structure Round where
  request : PullRequest
  page : PullPage
  client : Client

inductive Fate where
  | running | ended | failed
  deriving DecidableEq

/-- A client that pulls again while a channel continues, with the rounds it went through. -/
structure CatchUp where
  client : Client
  rounds : List Round := []
  fate : Fate := .running

namespace CatchUp
variable (e : Engine) (serve : PullRequest → Except Failure PullPage) (s : CatchUp)

/-- One iteration: `downlink_request`, `process_pull` and `receive_downlink`. -/
def step : CatchUp :=
  if s.fate = .running then
    let (asked, c) := s.client.downlinkRequest e
    match asked with
    | .error _ => { s with client := c, fate := .failed }
    | .ok none => { s with client := c, fate := .ended }
    | .ok (some request) =>
      match serve request with
      | .error _ => { s with client := c, fate := .failed }
      | .ok page =>
        let (result, received) := c.receiveDownlink e page (some request)
        { client := received, rounds := s.rounds ++ [⟨request, page, c⟩]
          fate := match result with
            | .error _ => .failed
            | .ok progress => if progress.continues = [] then .ended else .running }
  else s

/-- The catch-up of a client after `n` iterations. -/
def after (c : Client) (n : ℕ) : CatchUp := (step e serve)^[n] { client := c }

end CatchUp

/-- A page that moves a cursor is not blocked from being delivered. -/
def Round.Finishes (e : Engine) (round : Round) : Prop :=
  (round.client.store.moved round.page).isEmpty = false →
    DeliveryFinishes e round.client.store round.page.changes

section Round
variable {D : Type} {e : Engine} {b : Backend} {t : Tables D} {app : App D} {owner : String}
  {c : Client} {page : PullPage} {request : PullRequest}

/-- The client after it issued a pull for its cursors. -/
def Client.issued (c : Client) : Client :=
  { c with pulls := c.pulls.issue c.store.subscriptions }

/-- The pull a client asks for its cursors. -/
abbrev Client.asks (e : Engine) (c : Client) : PullRequest := ⟨e.declaredModels, c.store.subscriptions⟩

theorem downlinkRequest_issued (h : c.store.subscriptions.isEmpty = false) : c.downlinkRequest e =
    ((c.asks e).validate.map fun _ => some (c.asks e), c.issued) := by
  simp only [Client.downlinkRequest, h, Bool.false_eq_true, ↓reduceIte]
  rfl

/-- The page answers the pull from the cursors it asked for. -/
theorem serves_answers (h : t.Serves b app owner request page) :
    answers page request = true ∧ page.froms = request.cursors := by
  constructor
  · simp only [answers, h.cursors, SortedMap.mapValues, List.length_map, decide_true, Bool.true_and,
      List.all_map, List.all_eq_true, Function.comp_apply, decide_eq_true_eq]
    intro x hx
    exact SortedMap.lookup_eq_some_iff.mpr hx
  · refine SortedMap.ext_lookup fun channel => ?_
    rw [PullPage.froms, SortedMap.lookup_mapValues, h.cursors, SortedMap.lookup_mapValues,
      Option.map_map]
    cases request.cursors.lookup channel <;> rfl

/-- It is the answer to the pull just issued, and it starts where the cursors are. -/
theorem serves_taken (h : t.Serves b app owner (c.asks e) page) :
    NoOldPull c.issued.pulls page.froms ∧ NoGap c.issued.store page := by
  obtain ⟨-, hfroms⟩ := serves_answers h
  constructor
  · rw [hfroms]
    refine Or.inr ⟨⟨c.store.subscriptions, c.pulls.currentEpochs c.store.subscriptions⟩, ?_, rfl, rfl⟩
    exact List.mem_append_right _ (List.mem_singleton.mpr rfl)
  · intro channel range current hr hc _
    rw [h.cursors, SortedMap.lookup_mapValues] at hr
    obtain ⟨n, hn, rfl⟩ := Option.map_eq_some_iff.mp hr
    obtain rfl : n = current := Option.some.inj (hn.symm.trans hc)
    exact le_rfl

/-- Where the pages take the cursors. -/
theorem serves_moved (ha : t.ledger.Accounted) (h : t.Serves b app owner (c.asks e) page)
    (hle : ∀ channel n, c.store.cursor channel = some n → n ≤ t.head channel) (channel : String) :
    ((c.store.moved page).lookup channel).or (c.store.cursor channel) =
      (c.store.cursor channel).map fun n => (t.range channel n).toCursor := by
  cases hc : c.store.cursor channel with
  | none =>
    have hnone : (c.store.moved page).lookup channel = none := by
      refine Option.eq_none_iff_forall_ne_some.mpr fun n hn => ?_
      obtain ⟨-, current, -, hc', -⟩ := moved_lookup.mp hn
      rw [hc] at hc'
      cases hc'
    rw [hnone]
    rfl
  | some n =>
    have hrange : page.cursors.lookup channel = some (t.range channel n) := by
      rw [h.cursors, SortedMap.lookup_mapValues,
        show (c.asks e).cursors.lookup channel = some n from hc]
      rfl
    obtain ⟨hge, -⟩ := range_advances ha (hle channel n hc)
    by_cases hlt : n < (t.range channel n).toCursor
    · rw [moved_lookup.mpr ⟨_, n, hrange, hc, hlt, rfl⟩]
      rfl
    · have hnone : (c.store.moved page).lookup channel = none := by
        refine Option.eq_none_iff_forall_ne_some.mpr fun m hm => ?_
        obtain ⟨range, current, hr, hc', hlt', -⟩ := moved_lookup.mp hm
        obtain rfl := Option.some.inj (hrange.symm.trans hr)
        obtain rfl := Option.some.inj (hc.symm.trans hc')
        exact hlt hlt'
      rw [hnone]
      exact congrArg some (le_antisymm hge (not_lt.mp hlt))

/-- No channel continues exactly when each reaches its head. -/
theorem serves_continues (ha : t.ledger.Accounted) (h : t.Serves b app owner (c.asks e) page)
    (hle : ∀ channel n, c.store.cursor channel = some n → n ≤ t.head channel) :
    (page.cursors.entries.filter (·.2.continues)).map (·.1) = [] ↔
      ∀ channel n, c.store.cursor channel = some n →
        (t.range channel n).toCursor = t.head channel := by
  rw [List.map_eq_nil_iff, List.filter_eq_nil_iff, h.cursors]
  constructor
  · intro hnone channel n hc
    have hmem : (channel, t.range channel n) ∈ ((c.asks e).cursors.mapValues t.range).entries :=
      List.mem_map.mpr ⟨(channel, n), SortedMap.lookup_eq_some_iff.mp hc, rfl⟩
    have hge : ¬(t.range channel n).toCursor < t.head channel :=
      fun hlt => hnone _ hmem (decide_eq_true hlt)
    exact le_antisymm (range_advances ha (hle channel n hc)).2.1 (not_lt.mp hge)
  · intro hall x hx
    obtain ⟨⟨channel, n⟩, hmem, rfl⟩ := List.mem_map.mp hx
    have hto := hall channel n (SortedMap.lookup_eq_some_iff.mpr hmem)
    have hstill : ¬(t.range channel n).toCursor < (t.range channel n).head := by
      rw [hto]
      exact lt_irrefl _
    simpa [CursorRange.continues] using hstill

/-- A page that is not blocked lands and takes every cursor along; one that is blocked is an error and
    leaves the store. -/
theorem receive_round (hwf : Wf e c.store) (ha : t.ledger.Accounted)
    (h : t.Serves b app owner (c.asks e) page)
    (hle : ∀ channel n, c.store.cursor channel = some n → n ≤ t.head channel)
    {result : Except String DownlinkProgress} {received : Client}
    (heq : c.issued.receiveDownlink e page (some (c.asks e)) = (result, received)) :
    (¬(⟨c.asks e, page, c.issued⟩ : Round).Finishes e ∧ (∃ m, result = .error m) ∧
        received.store = c.store) ∨
      ((⟨c.asks e, page, c.issued⟩ : Round).Finishes e ∧ (∃ progress, result = .ok progress ∧
          progress.continues = (page.cursors.entries.filter (·.2.continues)).map (·.1)) ∧
        ∀ channel, received.store.cursor channel =
          (c.store.cursor channel).map fun n => (t.range channel n).toCursor) := by
  obtain ⟨hold, hgap⟩ := serves_taken h
  have hanswers : ∀ r ∈ some (c.asks e), answers page r = true := by
    rintro r ⟨⟩
    exact (serves_answers h).1
  rw [receive_eq h.valid hanswers fun _ => hgap, (stale_eq_false _ _).mpr hold] at heq
  have hmoved := serves_moved ha h hle
  have hsame : c.issued.store = c.store := rfl
  simp only [Bool.false_eq_true, false_or, hsame] at heq
  rw [Round.Finishes]
  simp only [hsame]
  by_cases hempty : (c.store.moved page).isEmpty = true
  · rw [if_pos hempty] at heq
    obtain ⟨rfl, rfl⟩ := Prod.mk.inj heq
    refine Or.inr ⟨fun hne => (by rw [hempty] at hne; cases hne), ⟨_, rfl, rfl⟩, fun channel => ?_⟩
    rw [← hmoved channel]
    have hnone : (c.store.moved page).lookup channel = none := by
      rw [SortedMap.lookup, List.isEmpty_iff.mp hempty]
      rfl
    rw [hnone]
    rfl
  · rw [if_neg hempty] at heq
    have hne : (c.store.moved page).isEmpty = false := Bool.eq_false_iff.mpr hempty
    rw [forall_prop_of_true hne, ← applyRecords_ok_iff hwf]
    cases hr : e.applyRecords c.store page.changes with
    | error m =>
      rw [hr] at heq
      obtain ⟨rfl, rfl⟩ := Prod.mk.inj heq
      exact Or.inl ⟨by simp, ⟨m, rfl⟩, rfl⟩
    | ok out =>
      obtain ⟨report, st⟩ := out
      rw [hr] at heq
      obtain ⟨rfl, rfl⟩ := Prod.mk.inj heq
      refine Or.inr ⟨⟨_, rfl⟩, ⟨_, rfl, rfl⟩, fun channel => ?_⟩
      rw [← hmoved channel]
      change (st.setCursors (c.store.moved page)).cursor channel = _
      rw [setCursors_cursor]
      simp only [Store.cursor, subscriptions_applyRecords hwf hr]

end Round

/-- A record invalidated on a subscribed channel after the client's cursor. -/
def Tables.Ahead {D : Type} (t : Tables D) (c : Client) (key : RecordKey) : Prop :=
  ∃ channel start row, c.store.cursor channel = some start ∧
    t.invalidations.lookup (channel, key) = some row ∧ start < row.cursor

section Accepting
variable {e : Engine} {b : Backend} {owner : String} {c c' : Client}

/-- Whether a server accepts the pull of a client depends on the channels it is subscribed to, and not
    on its cursors. -/
theorem acceptPull_subscribed
    (hsafe : ∀ channel n, c.store.cursor channel = some n → n ≤ maxSafeInteger)
    (hsub : ∀ channel, (c.store.cursor channel).isSome = (c'.store.cursor channel).isSome)
    (h : b.acceptPull owner (c'.asks e) = .ok ()) : b.acceptPull owner (c.asks e) = .ok () := by
  simp only [Backend.acceptPull, Except.bind_eq_ok, Except.mapError_eq_ok,
    PullRequest.validate_eq_ok] at h ⊢
  obtain ⟨_, hp, _, ⟨hmodels, hne, hall⟩, hdeclared⟩ := h
  refine ⟨(), hp, (), ⟨hmodels, ?_, fun x hx => ?_⟩, hdeclared⟩
  · obtain ⟨x, hx⟩ := List.exists_mem_of_ne_nil _ hne
    have hsome := hsub x.1
    rw [show c'.store.cursor x.1 = some x.2 from SortedMap.lookup_eq_some_iff.mpr hx] at hsome
    obtain ⟨n, hn⟩ := Option.isSome_iff_exists.mp hsome
    exact List.ne_nil_of_mem (SortedMap.lookup_eq_some_iff.mp hn)
  · have hx' : c.store.cursor x.1 = some x.2 := SortedMap.lookup_eq_some_iff.mpr hx
    have hsome := hsub x.1
    rw [hx'] at hsome
    obtain ⟨n, hn⟩ := Option.isSome_iff_exists.mp hsome.symm
    exact ⟨(hall _ (SortedMap.lookup_eq_some_iff.mp hn)).1, hsafe x.1 x.2 hx'⟩

end Accepting

section Steps
variable {D : Type} {e : Engine} {b : Backend} {t : Tables D} {app : App D} {owner : String}
  {c₀ : Client} {s : CatchUp}

/-- What an iteration does: the pull is refused, or its page is blocked, or the page lands and the
    catch-up goes on unless every channel is at its head. -/
theorem step_cases (h : t.Readable b) (ht : b.codecs.Tokens) (ha : t.Answering b app owner)
    (hwf : Wf e s.client.store) (hgo : s.fate = .running)
    (hne : s.client.store.subscriptions.isEmpty = false)
    (hle : ∀ channel n, s.client.store.cursor channel = some n → n ≤ t.head channel) :
    (s.step e (b.processPull (t.reading b.codecs app) owner) =
        { s with client := s.client.issued, fate := .failed } ∧
      ¬(b.acceptPull owner (s.client.asks e) = .ok () ∧
        ∀ key, t.Due (s.client.asks e) key → (e.declaredModels.lookup key.model).isSome)) ∨
    ∃ page received fate, b.acceptPull owner (s.client.asks e) = .ok () ∧
      t.Serves b app owner (s.client.asks e) page ∧
      received = s.client.issued.act e (.receive page (some (s.client.asks e))) ∧
      s.step e (b.processPull (t.reading b.codecs app) owner) =
        ⟨received, s.rounds ++ [⟨s.client.asks e, page, s.client.issued⟩], fate⟩ ∧
      (fate = .failed ∧ ¬(⟨s.client.asks e, page, s.client.issued⟩ : Round).Finishes e ∧
          received.store = s.client.store ∨
        (fate = if ∀ e ∈ s.client.store.subscriptions.entries,
            (t.range e.1 e.2).toCursor = t.head e.1 then .ended else .running) ∧
          (⟨s.client.asks e, page, s.client.issued⟩ : Round).Finishes e ∧
          ∀ channel, received.store.cursor channel =
            (s.client.store.cursor channel).map fun n => (t.range channel n).toCursor) := by
  have hentries : ∀ x ∈ (s.client.asks e).cursors.entries, x.2 ≤ t.head x.1 :=
    fun x hx => hle x.1 x.2 (SortedMap.lookup_eq_some_iff.mpr hx)
  have hserved := processPull_ok_iff h ht ha hentries
  rw [CatchUp.step, if_pos hgo, downlinkRequest_issued hne]
  cases hpage : b.processPull (t.reading b.codecs app) owner (s.client.asks e) with
  | error m =>
    left
    refine ⟨?_, fun hok => ?_⟩
    · cases hv : (s.client.asks e).validate with
      | error m' => rfl
      | ok u =>
        simp only [Except.map, hpage]
    · obtain ⟨page, hok⟩ := hserved.mpr hok
      rw [hpage] at hok
      cases hok
  | ok page =>
    right
    obtain ⟨haccept, -⟩ := hserved.mp ⟨page, hpage⟩
    have hserves := processPull_serves h ht ha hentries hpage
    cases hreceive : s.client.issued.receiveDownlink e page (some (s.client.asks e)) with
    | mk result received =>
      simp only [acceptPull_valid haccept, Except.map, hpage, hreceive]
      refine ⟨page, received, _, haccept, hserves, by rw [Client.act, hreceive], rfl, ?_⟩
      rcases receive_round hwf h.accounted hserves hle hreceive with
        ⟨hblocked, ⟨m, rfl⟩, hstore⟩ | ⟨hfinishes, ⟨progress, rfl, hcontinues⟩, hmoved⟩
      · exact Or.inl ⟨rfl, hblocked, hstore⟩
      · refine Or.inr ⟨?_, hfinishes, hmoved⟩
        have hends := serves_continues h.accounted hserves hle
        refine if_congr ?_ rfl rfl
        rw [hcontinues, hends]
        constructor
        · exact fun hall x hx => hall x.1 x.2 (SortedMap.lookup_eq_some_iff.mpr hx)
        · exact fun hall channel n hc => hall (channel, n) (SortedMap.lookup_eq_some_iff.mp hc)

/-- What holds of a catch-up under way: its rounds were served, its cursors went from where they
    started towards the heads and everything up to them was delivered, and it failed only where the
    server refuses the client or a page was blocked. -/
structure Underway (e : Engine) (b : Backend) (t : Tables D) (app : App D) (owner : String)
    (c₀ : Client) (s : CatchUp) : Prop where
  reaches : Host.Reaches e s.client
  subscribed : ∀ channel,
    (s.client.store.cursor channel).isSome = (c₀.store.cursor channel).isSome
  forward : ∀ channel start n, c₀.store.cursor channel = some start →
    s.client.store.cursor channel = some n → start ≤ n ∧ n ≤ t.head channel
  served : ∀ round ∈ s.rounds, t.Serves b app owner round.request round.page ∧
    round.request.models = e.declaredModels ∧ ∀ x ∈ round.request.cursors.entries, x.2 ≤ t.head x.1
  delivered : ∀ channel start n key row, c₀.store.cursor channel = some start →
    s.client.store.cursor channel = some n → t.invalidations.lookup (channel, key) = some row →
    start < row.cursor → row.cursor ≤ n → ∃ round ∈ s.rounds, ∃ r ∈ round.page.changes, r.key = key
  finished : s.fate ≠ .failed → ∀ round ∈ s.rounds, round.Finishes e
  accepted : s.rounds ≠ [] → b.acceptPull owner (c₀.asks e) = .ok ()
  ended : s.fate = .ended → s.rounds ≠ [] ∧
    ∀ channel n, s.client.store.cursor channel = some n → n = t.head channel
  failed : s.fate = .failed → b.acceptPull owner (c₀.asks e) = .ok () →
    (∀ key, t.Ahead c₀ key → (e.declaredModels.lookup key.model).isSome) →
    ∃ round ∈ s.rounds, ¬round.Finishes e

/-- The invalidations a client has still to reach. -/
def Tables.beyond (t : Tables D) (c : Client) : Finset ((String × RecordKey) × InvalidationRow) :=
  t.invalidations.rows.toFinset.filter fun e =>
    (c.store.cursor e.1.1).any (· < e.2.cursor) = true

theorem mem_beyond {c : Client} {x : (String × RecordKey) × InvalidationRow} :
    x ∈ t.beyond c ↔ t.invalidations.lookup x.1 = some x.2 ∧
      ∃ n, c.store.cursor x.1.1 = some n ∧ n < x.2.cursor := by
  obtain ⟨k, row⟩ := x
  simp only [Tables.beyond, Finset.mem_filter, List.mem_toFinset, AList.mem_rows,
    Option.any_eq_true, decide_eq_true_eq]

/-- The client's cursors are within the heads. -/
theorem underway_within (hu : Underway e b t app owner c₀ s) {channel : String} {n : ℕ}
    (hc : s.client.store.cursor channel = some n) : n ≤ t.head channel := by
  have hsome := hu.subscribed channel
  rw [hc] at hsome
  obtain ⟨start, hstart⟩ := Option.isSome_iff_exists.mp hsome.symm
  exact (hu.forward channel start n hstart hc).2

/-- A record due from where a client is was ahead of where it started. -/
theorem ahead_of_due (hu : Underway e b t app owner c₀ s) {key : RecordKey}
    (hdue : t.Due (s.client.asks e) key) : t.Ahead c₀ key := by
  obtain ⟨channel, n, row, hasked, hmem⟩ := hdue
  obtain ⟨hrow, hlt⟩ := mem_after.mp (mem_reached_after hmem)
  have hc : s.client.store.cursor channel = some n := hasked
  have hsome := hu.subscribed channel
  rw [hc] at hsome
  obtain ⟨start, hstart⟩ := Option.isSome_iff_exists.mp hsome.symm
  exact ⟨channel, start, row, hstart, hrow, (hu.forward channel start n hstart hc).1.trans_lt hlt⟩

/-- A pull that is refused ends the catch-up where it is. -/
theorem underway_refused (h : t.Readable b) (hu : Underway e b t app owner c₀ s)
    (hne : s.client.store.subscriptions.isEmpty = false)
    (hrefused : ¬(b.acceptPull owner (s.client.asks e) = .ok () ∧
      ∀ key, t.Due (s.client.asks e) key → (e.declaredModels.lookup key.model).isSome)) :
    Underway e b t app owner c₀ { s with client := s.client.issued, fate := .failed } where
  reaches := by
    have hpull : s.client.act e .pull = s.client.issued := by
      rw [Client.act, downlinkRequest_issued hne]
    exact hpull ▸ reaches_act hu.reaches .pull
  subscribed := hu.subscribed
  forward := hu.forward
  served := hu.served
  delivered := hu.delivered
  finished := fun hfate => absurd rfl hfate
  accepted := hu.accepted
  ended := nofun
  failed := by
    intro _ haccept hdeclared
    refine absurd ⟨?_, fun key hdue => hdeclared key (ahead_of_due hu hdue)⟩ hrefused
    exact acceptPull_subscribed (fun channel n hc => (underway_within hu hc).trans (h.heads channel))
      hu.subscribed haccept

section Round
variable {page : PullPage} {received : Client}

/-- A client that received a page is one the host reaches. -/
theorem underway_received (hu : Underway e b t app owner c₀ s)
    (hne : s.client.store.subscriptions.isEmpty = false)
    (hreceived : received = s.client.issued.act e (.receive page (some (s.client.asks e)))) :
    Host.Reaches e received := by
  have hpull : s.client.act e .pull = s.client.issued := by
    rw [Client.act, downlinkRequest_issued hne]
  rw [hreceived, ← hpull]
  exact reaches_act (reaches_act hu.reaches .pull) _

theorem underway_served (hu : Underway e b t app owner c₀ s)
    (hserves : t.Serves b app owner (s.client.asks e) page) :
    ∀ round ∈ s.rounds ++ [⟨s.client.asks e, page, s.client.issued⟩],
      t.Serves b app owner round.request round.page ∧ round.request.models = e.declaredModels ∧
        ∀ x ∈ round.request.cursors.entries, x.2 ≤ t.head x.1 := by
  intro round hround
  rcases List.mem_append.mp hround with hround | hround
  · exact hu.served round hround
  · obtain rfl := List.mem_singleton.mp hround
    exact ⟨hserves, rfl, fun x hx => underway_within hu (SortedMap.lookup_eq_some_iff.mpr hx)⟩

/-- A pull that was accepted was so from the start. -/
theorem underway_accepted (h : t.Readable b) (hu : Underway e b t app owner c₀ s)
    (hle : ∀ channel start, c₀.store.cursor channel = some start → start ≤ t.head channel)
    (haccept : b.acceptPull owner (s.client.asks e) = .ok ()) :
    b.acceptPull owner (c₀.asks e) = .ok () :=
  acceptPull_subscribed (fun channel n hc => (hle channel n hc).trans (h.heads channel))
    (fun channel => (hu.subscribed channel).symm) haccept

/-- A blocked page ends the catch-up with the store as it was. -/
theorem underway_blocked (h : t.Readable b) (hu : Underway e b t app owner c₀ s)
    (hne : s.client.store.subscriptions.isEmpty = false)
    (hle : ∀ channel start, c₀.store.cursor channel = some start → start ≤ t.head channel)
    (haccept : b.acceptPull owner (s.client.asks e) = .ok ())
    (hserves : t.Serves b app owner (s.client.asks e) page)
    (hreceived : received = s.client.issued.act e (.receive page (some (s.client.asks e))))
    (hblocked : ¬(⟨s.client.asks e, page, s.client.issued⟩ : Round).Finishes e)
    (hstore : received.store = s.client.store) :
    Underway e b t app owner c₀
      ⟨received, s.rounds ++ [⟨s.client.asks e, page, s.client.issued⟩], .failed⟩ where
  reaches := underway_received hu hne hreceived
  subscribed := fun channel => by
    rw [hstore]
    exact hu.subscribed channel
  forward := fun channel start n hstart hc => hu.forward channel start n hstart (hstore ▸ hc)
  served := underway_served hu hserves
  delivered := by
    intro channel start n key row hstart hc hrow hlt hle
    obtain ⟨round, hround, hr⟩ := hu.delivered channel start n key row hstart (hstore ▸ hc) hrow hlt hle
    exact ⟨round, List.mem_append_left _ hround, hr⟩
  finished := fun hfate => absurd rfl hfate
  accepted := fun _ => underway_accepted h hu hle haccept
  ended := nofun
  failed := fun _ _ _ => ⟨_, List.mem_append_right _ (List.mem_singleton.mpr rfl), hblocked⟩

/-- A page that lands takes the cursors along, and everything they pass is delivered. -/
theorem underway_landed (h : t.Readable b) (hu : Underway e b t app owner c₀ s)
    (hgo : s.fate = .running) (hne : s.client.store.subscriptions.isEmpty = false)
    (hle : ∀ channel start, c₀.store.cursor channel = some start → start ≤ t.head channel)
    (haccept : b.acceptPull owner (s.client.asks e) = .ok ())
    (hserves : t.Serves b app owner (s.client.asks e) page)
    (hreceived : received = s.client.issued.act e (.receive page (some (s.client.asks e))))
    (hfinishes : (⟨s.client.asks e, page, s.client.issued⟩ : Round).Finishes e)
    (hmoved : ∀ channel, received.store.cursor channel =
      (s.client.store.cursor channel).map fun n => (t.range channel n).toCursor) {fate : Fate}
    (hfate : fate = if ∀ e ∈ s.client.store.subscriptions.entries,
      (t.range e.1 e.2).toCursor = t.head e.1 then .ended else .running) :
    Underway e b t app owner c₀
      ⟨received, s.rounds ++ [⟨s.client.asks e, page, s.client.issued⟩], fate⟩ := by
  have hfrom : ∀ {channel m}, received.store.cursor channel = some m → ∃ n,
      s.client.store.cursor channel = some n ∧ n ≤ m ∧ m ≤ t.head channel ∧
        m = (t.range channel n).toCursor := by
    intro channel m hc
    rw [hmoved] at hc
    obtain ⟨n, hn, rfl⟩ := Option.map_eq_some_iff.mp hc
    obtain ⟨hge, hto, -⟩ := range_advances h.accounted (underway_within hu hn)
    exact ⟨n, hn, hge, hto, rfl⟩
  refine ⟨underway_received hu hne hreceived, fun channel => ?_, fun channel start m hstart hc => ?_,
    underway_served hu hserves, fun channel start m key row hstart hc hrow hlt hlem => ?_,
    fun _ round hround => ?_, fun _ => underway_accepted h hu hle haccept, fun hended => ?_,
    fun hfailed => ?_⟩
  · rw [hmoved, Option.isSome_map]
    exact hu.subscribed channel
  · obtain ⟨n, hn, hge, hto, -⟩ := hfrom hc
    exact ⟨(hu.forward channel start n hstart hn).1.trans hge, hto⟩
  · obtain ⟨n, hn, -, -, rfl⟩ := hfrom hc
    by_cases hold : row.cursor ≤ n
    · obtain ⟨round, hround, hr⟩ := hu.delivered channel start n key row hstart hn hrow hlt hold
      exact ⟨round, List.mem_append_left _ hround, hr⟩
    · -- the page scanned it
      have hdue : t.Due (s.client.asks e) key :=
        ⟨channel, n, row, hn, (mem_reached h.accounted).mpr ⟨hrow, not_le.mp hold, hlem⟩⟩
      exact ⟨_, List.mem_append_right _ (List.mem_singleton.mpr rfl), (hserves.carries.due key).mpr hdue⟩
  · rcases List.mem_append.mp hround with hround | hround
    · exact hu.finished (by rw [hgo]; decide) round hround
    · obtain rfl := List.mem_singleton.mp hround
      exact hfinishes
  · refine ⟨by simp, fun channel m hc => ?_⟩
    obtain ⟨n, hn, -, -, rfl⟩ := hfrom hc
    change fate = .ended at hended
    rw [hended] at hfate
    split at hfate
    · rename_i hall
      exact hall (channel, n) (SortedMap.lookup_eq_some_iff.mp hn)
    · cases hfate
  · change fate = .failed at hfailed
    rw [hfailed] at hfate
    split at hfate <;> cases hfate

/-- While it goes on, a channel that continues was scanned, and there is less to reach. -/
theorem beyond_landed (h : t.Readable b) (hu : Underway e b t app owner c₀ s)
    (hmoved : ∀ channel, received.store.cursor channel =
      (s.client.store.cursor channel).map fun n => (t.range channel n).toCursor)
    (hgoes : ¬∀ e ∈ s.client.store.subscriptions.entries, (t.range e.1 e.2).toCursor = t.head e.1) :
    (t.beyond received).card < (t.beyond s.client).card := by
  refine Finset.card_lt_card (Finset.ssubset_iff_of_subset ?_ |>.mpr ?_)
  · intro x hx
    obtain ⟨hrow, m, hc, hlt⟩ := mem_beyond.mp hx
    rw [hmoved] at hc
    obtain ⟨n, hn, rfl⟩ := Option.map_eq_some_iff.mp hc
    obtain ⟨hge, -⟩ := range_advances h.accounted (underway_within hu hn)
    exact mem_beyond.mpr ⟨hrow, n, hn, hge.trans_lt hlt⟩
  · push Not at hgoes
    obtain ⟨x, hx, hcontinues⟩ := hgoes
    have hc : s.client.store.cursor x.1 = some x.2 := SortedMap.lookup_eq_some_iff.mpr hx
    obtain ⟨-, -, hhead | ⟨-, hfull⟩⟩ := range_advances h.accounted (underway_within hu hc)
    · exact absurd hhead hcontinues
    · have hne : t.reached x.1 x.2 ≠ [] := fun hnil => by
        rw [hnil] at hfull
        cases hfull
      obtain ⟨r, hr⟩ := List.exists_mem_of_ne_nil _ hne
      obtain ⟨hrow, hlt, hlast⟩ := (mem_reached h.accounted).mp hr
      refine ⟨((x.1, r.1), r.2), mem_beyond.mpr ⟨hrow, x.2, hc, hlt⟩, fun hin => ?_⟩
      obtain ⟨-, m, hm, hstill⟩ := mem_beyond.mp hin
      rw [hmoved, hc] at hm
      obtain rfl := Option.some.inj hm
      exact absurd hlast (not_le.mpr hstill)

end Round

/-- An iteration of a catch-up under way; while it goes on there is less to reach. -/
theorem underway_step (h : t.Readable b) (ht : b.codecs.Tokens) (ha : t.Answering b app owner)
    (hne : c₀.store.subscriptions.isEmpty = false)
    (hle : ∀ channel start, c₀.store.cursor channel = some start → start ≤ t.head channel)
    (hu : Underway e b t app owner c₀ s) (hgo : s.fate = .running) :
    Underway e b t app owner c₀ (s.step e (b.processPull (t.reading b.codecs app) owner)) ∧
      ((s.step e (b.processPull (t.reading b.codecs app) owner)).fate = .running →
        (t.beyond (s.step e (b.processPull (t.reading b.codecs app) owner)).client).card <
          (t.beyond s.client).card) := by
  have hnow : s.client.store.subscriptions.isEmpty = false := by
    obtain ⟨channel, start, hstart⟩ := SortedMap.isEmpty_eq_false.mp hne
    have hsome := hu.subscribed channel
    rw [show c₀.store.cursor channel = some start from hstart] at hsome
    obtain ⟨n, hn⟩ := Option.isSome_iff_exists.mp hsome
    exact SortedMap.isEmpty_eq_false.mpr ⟨channel, n, hn⟩
  rcases step_cases h ht ha (wf_reaches hu.reaches) hgo hnow fun channel n hc =>
    underway_within hu hc with ⟨hstep, hrefused⟩ | ⟨page, received, fate, haccept, hserves,
      hreceived, hstep, ⟨rfl, hblocked, hstore⟩ | ⟨hfate, hfinishes, hmoved⟩⟩
  · rw [hstep]
    exact ⟨underway_refused h hu hnow hrefused, nofun⟩
  · rw [hstep]
    exact ⟨underway_blocked h hu hnow hle haccept hserves hreceived hblocked hstore, nofun⟩
  · rw [hstep]
    refine ⟨underway_landed h hu hgo hnow hle haccept hserves hreceived hfinishes hmoved hfate,
      fun hruns => beyond_landed h hu hmoved fun hall => ?_⟩
    change fate = .running at hruns
    rw [hruns, if_pos hall] at hfate
    cases hfate

end Steps

/-- What a page of a catch-up is: valid and the answer to its pull, each of its channels at its head or
    moved past a full scan, and each record once, at its current stamp and as its loader answers it. -/
structure Tables.Steady {D : Type} (t : Tables D) (b : Backend) (app : App D) (owner : String)
    (request : PullRequest) (page : PullPage) : Prop where
  valid : page.validate = .ok ()
  answers : AheadSync.answers page request = true
  advances : ∀ channel range, page.cursors.lookup channel = some range →
    range.head = t.head channel ∧ (range.toCursor = range.head ∨
      range.fromCursor < range.toCursor ∧ ∃ rows,
        t.scan b.codecs channel range.fromCursor pullChanges = .ok rows ∧ rows.length = pullChanges)
  once : (page.changes.map (·.key)).Nodup
  current : ∀ r ∈ page.changes, t.stamps.lookup r.key = some r.stamp ∧ t.Loads b app owner request r

/-- A catch-up that ended with every subscribed channel at its head and every record invalidated after
    its cursor delivered. -/
structure Tables.CaughtUp {D : Type} (t : Tables D) (c : Client) (s : CatchUp) : Prop where
  ended : s.fate = .ended
  heads : ∀ channel, (c.store.cursor channel).isSome →
    s.client.store.cursor channel = some (t.head channel)
  delivered : ∀ key, t.Ahead c key → ∃ round ∈ s.rounds, ∃ r ∈ round.page.changes,
    r.key = key ∧ t.stamps.lookup key = some r.stamp

section CatchUp
variable {D : Type} {e : Engine} {b : Backend} {t : Tables D} {app : App D} {owner : String}
  {c : Client}

theorem serves_steady (h : t.Readable b) {request : PullRequest} {page : PullPage}
    (hle : ∀ x ∈ request.cursors.entries, x.2 ≤ t.head x.1)
    (hs : t.Serves b app owner request page) : t.Steady b app owner request page := by
  obtain ⟨hne, -, -, hunique⟩ := PullPage.validate_eq_ok.mp hs.valid
  refine ⟨hs.valid, (serves_answers hs).1, fun channel range hr => ?_, (uniqueRecords_eq_ok.mp hunique).2,
    fun r hr => ?_⟩
  · rw [hs.cursors, SortedMap.lookup_mapValues] at hr
    obtain ⟨n, hn, rfl⟩ := Option.map_eq_some_iff.mp hr
    obtain ⟨-, -, hadv⟩ := range_advances h.accounted (hle _ (SortedMap.lookup_eq_some_iff.mp hn))
    refine ⟨rfl, hadv.imp_right fun hfull => ⟨hfull.1, _, scan_eq h b.codecs, ?_⟩⟩
    rw [List.length_map]
    exact hfull.2
  · obtain ⟨hstamp, hloads⟩ := hs.carries.current r hr
    obtain ⟨channel, row, hrow⟩ := due_published ((hs.carries.due r.key).mp ⟨r, hr, rfl⟩)
    exact ⟨hstamp ▸ (stamp_published h hrow).1, hloads⟩

/-- A catch-up that stopped stays as it is. -/
theorem step_stopped {serve : PullRequest → Except Failure PullPage} {s : CatchUp}
    (h : s.fate ≠ .running) : s.step e serve = s := if_neg h

/-- What holds of a catch-up holds at its start. -/
theorem underway_start (hc : Host.Reaches e c)
    (hle : ∀ channel start, c.store.cursor channel = some start → start ≤ t.head channel) :
    Underway e b t app owner c { client := c } where
  reaches := hc
  subscribed := fun _ => rfl
  forward := fun channel start n hs hn => by
    obtain rfl := Option.some.inj (hs.symm.trans hn)
    exact ⟨le_rfl, hle channel start hs⟩
  served := nofun
  delivered := fun channel start n key row hs hn _ hlt hlen => by
    obtain rfl := Option.some.inj (hs.symm.trans hn)
    exact absurd hlt (not_lt.mpr hlen)
  finished := fun _ => nofun
  accepted := fun hnil => absurd rfl hnil
  ended := nofun
  failed := nofun

/-- A catch-up under way that ended has caught up. -/
theorem caughtUp_of_ended (h : t.Readable b) {s : CatchUp} (hu : Underway e b t app owner c s)
    (hended : s.fate = .ended) : t.CaughtUp c s := by
  obtain ⟨-, hheads⟩ := hu.ended hended
  have hcursor : ∀ channel, (c.store.cursor channel).isSome →
      s.client.store.cursor channel = some (t.head channel) := by
    intro channel hsub
    rw [← hu.subscribed channel] at hsub
    obtain ⟨n, hn⟩ := Option.isSome_iff_exists.mp hsub
    rw [hn, hheads channel n hn]
  refine ⟨hended, hcursor, ?_⟩
  rintro key ⟨channel, start, row, hstart, hrow, hlt⟩
  have hlast : row.cursor ≤ t.head channel :=
    h.accounted.heads (k := key) (e := ⟨row.cursor, row.stamp⟩) (by
      simp only [Tables.ledger, hrow, Option.map_some])
  obtain ⟨round, hround, r, hr, rfl⟩ := hu.delivered channel start _ key row hstart
    (hcursor channel (by rw [hstart]; rfl)) hrow hlt hlast
  obtain ⟨hserves, -⟩ := hu.served round hround
  refine ⟨round, hround, r, hr, rfl, ?_⟩
  rw [(hserves.carries.current r hr).1]
  exact (stamp_published h hrow).1

/-- Over a server held fixed whose loaders answer every published identity, a client that pulls again
    while a channel continues stops, and every page on the way is steady. Where it stops it has caught
    up exactly when the server accepts its pull, it declares the models of the records ahead of it, and
    in no round is the page it is handed blocked. -/
theorem catch_up (hc : Host.Reaches e c) (h : t.Readable b) (ht : b.codecs.Tokens)
    (ha : t.Answering b app owner) (hne : c.store.subscriptions.isEmpty = false)
    (hle : ∀ channel start, c.store.cursor channel = some start → start ≤ t.head channel) :
    let run := CatchUp.after e (b.processPull (t.reading b.codecs app) owner) c
    (∃ n, (run n).fate ≠ .running) ∧
    ∀ n, (∀ round ∈ (run n).rounds, t.Steady b app owner round.request round.page) ∧
      ((run n).fate ≠ .running → (t.CaughtUp c (run n) ↔
        b.acceptPull owner (c.asks e) = .ok () ∧
        (∀ key, t.Ahead c key → (e.declaredModels.lookup key.model).isSome) ∧
        ∀ round ∈ (run n).rounds, round.Finishes e)) := by
  intro run
  have hstart : Underway e b t app owner c { client := c } := underway_start hc hle
  have hunder : ∀ n, Underway e b t app owner c (run n) := by
    intro n
    refine Function.Iterate.rec (Underway e b t app owner c) hstart (fun s hu => ?_) n
    by_cases hgo : s.fate = .running
    · exact (underway_step h ht ha hne hle hu hgo).1
    · rw [step_stopped hgo]
      exact hu
  have hstop : ∃ n, ¬(run n).fate = .running :=
    Machine.exists_stopped (Underway e b t app owner c) (fun s => (t.beyond s.client).card)
      (fun s hu hgo => underway_step h ht ha hne hle hu hgo) hstart
  refine ⟨hstop, fun n => ?_⟩
  have hu := hunder n
  generalize run n = s at hu
  refine ⟨fun round hround => ?_, fun hstopped => ?_⟩
  · obtain ⟨hserves, -, hwithin⟩ := hu.served round hround
    exact serves_steady h hwithin hserves
  constructor
  · intro hcaught
    have hfate : s.fate ≠ .failed := by
      rw [hcaught.ended]
      decide
    refine ⟨hu.accepted (hu.ended hcaught.ended).1, fun key hahead => ?_, hu.finished hfate⟩
    obtain ⟨round, hround, r, hr, rfl, -⟩ := hcaught.delivered key hahead
    obtain ⟨hserves, hmodels, -⟩ := hu.served round hround
    obtain ⟨-, version, -, -, -, -, -, hversion, -⟩ := hserves.carries.current r hr
    rw [hmodels] at hversion
    exact Option.isSome_iff_exists.mpr ⟨version, hversion⟩
  · rintro ⟨haccept, hdeclared, hfinishes⟩
    refine caughtUp_of_ended h hu ?_
    cases hfate : s.fate with
    | running => exact absurd hfate hstopped
    | ended => rfl
    | failed =>
      obtain ⟨round, hround, hblocked⟩ := hu.failed hfate haccept hdeclared
      exact absurd (hfinishes round hround) hblocked

end CatchUp

namespace Sample

/-- A server of boxes and items, no two items in the same box. -/
def depotConfig : Config where
  schema := schema "none" [["box"]]
  mutations := []
  loaders := ["Item"]

def depot : Backend where
  codecs := timed
  config := { depotConfig with models := depotConfig.ownContracts }
  decoded := ⟨depotConfig, Except.eq_ok_of_toOption (by decide +kernel)⟩

/-- Item `a` left box `x`, which was published on `d` only; item `b` is there now. -/
def stocked : Tables Unit where
  heads := ((∅ : Table String ℕ).insert "c" 2).insert "d" 1
  stamps := ((∅ : Table RecordKey ℕ).insert (item "a") 2).insert (item "b") 1
  invalidations := (((∅ : Table (String × RecordKey) InvalidationRow).insert ("c", item "a")
    ⟨identity "a", 1, 1⟩).insert ("c", item "b") ⟨identity "b", 2, 1⟩).insert ("d", item "a")
    ⟨identity "a", 1, 2⟩
  content := ()

/-- The box of an item. -/
def boxOf (i : Value) : Option Value :=
  if i = identity "a" then some (.ofEntries [("box", .str "z")])
  else if i = identity "b" then some (.ofEntries [("box", .str "x")]) else none

def keeper : App Unit where
  handle _ content := .ok (.failed "", content)
  load request content := .ok (.rows (request.identities.map boxOf), content)

end Sample

section Sample
open Sample

/-- What was published, each row with what it names. -/
theorem stocked_rows : ∀ x ∈ stocked.invalidations.rows,
    (∃ stamp ∈ stocked.stamps.lookup x.1.2, x.2.stamp ≤ stamp) ∧
      x.2.cursor ≤ stocked.head x.1.1 ∧ x.1.2.model = "Item" ∧
      (depot.config.schema.recordKey depot.codecs x.1.2.model x.2.identity).toOption = some x.1.2 ∧
      ∀ y ∈ stocked.invalidations.rows, y.1.1 = x.1.1 → y.2.cursor = x.2.cursor → y.1.2 = x.1.2 := by
  decide +kernel

theorem stocked_entry {channel : String} {key : RecordKey} {entry : LedgerEntry}
    (h : stocked.ledger.entry channel key = some entry) : ∃ row,
      ((channel, key), row) ∈ stocked.invalidations.rows ∧ entry = ⟨row.cursor, row.stamp⟩ := by
  obtain ⟨row, hrow, rfl⟩ := Option.map_eq_some_iff.mp h
  exact ⟨row, AList.mem_rows.mpr hrow, rfl⟩

theorem stocked_readable : stocked.Readable depot where
  accounted := by
    constructor
    · intro channel key entry h
      obtain ⟨row, hrow, rfl⟩ := stocked_entry h
      exact (stocked_rows _ hrow).1
    · intro channel key entry h
      obtain ⟨row, hrow, rfl⟩ := stocked_entry h
      exact (stocked_rows _ hrow).2.1
    · intro channel key key' entry entry' h h' hcursor
      obtain ⟨row, hrow, rfl⟩ := stocked_entry h
      obtain ⟨row', hrow', rfl⟩ := stocked_entry h'
      exact (stocked_rows _ hrow').2.2.2.2 _ hrow rfl hcursor
  heads := by
    intro channel
    have hheads : ∀ x ∈ stocked.heads.rows, x.2 ≤ maxSafeInteger := by decide +kernel
    cases hl : stocked.heads.lookup channel with
    | none => simp [Tables.head, hl]
    | some n =>
      rw [Tables.head, hl]
      exact hheads _ (AList.mem_rows.mpr hl)
  stamps := by
    intro key stamp hl
    have hstamps : ∀ x ∈ stocked.stamps.rows, 0 < x.2 ∧ x.2 ≤ maxSafeInteger := by decide +kernel
    exact hstamps _ (AList.mem_rows.mpr hl)
  published := by
    intro channel key row hrow
    obtain ⟨-, -, hmodel, hkey, -⟩ := stocked_rows _ (AList.mem_rows.mpr hrow)
    exact ⟨by rw [hmodel]; decide +kernel, Except.eq_ok_of_toOption hkey⟩

theorem stocked_answering : stocked.Answering depot keeper "ann" :=
  fun _ _ _ identities _ _ => ⟨identities.map boxOf, (), rfl, List.length_map ..⟩

/-- A subscribed client is within the heads, and it declares what is published. -/
theorem stocked_ahead {actions : List ClientAction} (key : RecordKey)
    (h : stocked.Ahead (client snug actions) key) :
    (snug.declaredModels.lookup key.model).isSome := by
  obtain ⟨channel, start, row, -, hrow, -⟩ := h
  rw [(stocked_rows _ (AList.mem_rows.mpr hrow)).2.2.1]
  decide +kernel

theorem stocked_within {actions : List ClientAction}
    (h : ∀ x ∈ (client snug actions).store.subscriptions.entries, x.2 ≤ stocked.head x.1) :
    ∀ channel start, (client snug actions).store.cursor channel = some start →
      start ≤ stocked.head channel :=
  fun channel start hc => h (channel, start) (SortedMap.lookup_eq_some_iff.mp hc)

/-- A client that subscribes both channels. -/
def Sample.subscribing : List ClientAction := [.setChannels [("c", true), ("d", true)]]

/-- The pulls of a client of this server. -/
abbrev Sample.depotServes : PullRequest → Except Failure PullPage :=
  depot.processPull (stocked.reading depot.codecs keeper) "ann"

/-- A client new to both channels catches up in one round. -/
theorem catch_up_depot : stocked.CaughtUp (client snug subscribing)
    (CatchUp.after snug depotServes (client snug subscribing) 1) := by
  have hended : (CatchUp.after snug depotServes
      (client snug subscribing) 1).fate = .ended := by decide +kernel
  have hreach := client_reaches snug subscribing
  have hwithin : ∀ channel start, (client snug subscribing).store.cursor channel = some start →
      start ≤ stocked.head channel := stocked_within (by decide +kernel)
  have hrun := (catch_up hreach stocked_readable timed_tokens stocked_answering (by decide +kernel)
    hwithin).2 1
  refine (hrun.2 (by rw [hended]; decide)).mpr
    ⟨Except.eq_ok_of_toOption (by decide +kernel), stocked_ahead, fun round hround => ?_⟩
  -- the only round is that of the first iteration, and it did not fail
  rcases step_cases (s := { client := client snug subscribing })
    stocked_readable timed_tokens stocked_answering (wf_reaches hreach) rfl (by decide +kernel)
    hwithin with ⟨hstep, -⟩ | ⟨page, received, fate, -, -, -, hstep, ⟨rfl, -⟩ | ⟨-, hfinishes, -⟩⟩
  · have hfate := hended.symm.trans (congrArg CatchUp.fate hstep)
    cases hfate
  · have hfate := hended.symm.trans (congrArg CatchUp.fate hstep)
    cases hfate
  · have hrounds : (CatchUp.after snug depotServes (client snug subscribing) 1).rounds = [_] :=
      congrArg CatchUp.rounds hstep
    rw [hrounds] at hround
    rw [List.mem_singleton.mp hround]
    exact hfinishes

/-- The client that holds item `a` in box `x` and created item `b` is not subscribed to `d`: the page
    with item `b` in box `x` is blocked, and the catch-up fails with its cursor before the head. -/
theorem not_catch_up : ¬∀ (D : Type) (e : Engine) (b : Backend) (t : Tables D) (app : App D)
    (owner : String) (c : Client), Host.Reaches e c → t.Readable b → b.codecs.Tokens →
    t.Answering b app owner → c.store.subscriptions.isEmpty = false →
    (∀ channel start, c.store.cursor channel = some start → start ≤ t.head channel) →
    b.acceptPull owner (c.asks e) = .ok () →
    (∀ key, t.Ahead c key → (e.declaredModels.lookup key.model).isSome) →
    ∃ n, t.CaughtUp c
      (CatchUp.after e (b.processPull (t.reading b.codecs app) owner) c n) := by
  intro hall
  obtain ⟨n, hcaught⟩ := hall Unit snug depot stocked keeper "ann" (client snug pending)
    (client_reaches snug pending) stocked_readable timed_tokens stocked_answering (by decide +kernel)
    (stocked_within (by decide +kernel)) (Except.eq_ok_of_toOption (by decide +kernel)) stocked_ahead
  have hfailed : (CatchUp.after snug depotServes (client snug pending) 1).fate = .failed := by
    decide +kernel
  have hstays : CatchUp.step snug depotServes (CatchUp.after snug depotServes (client snug pending) 1) =
      CatchUp.after snug depotServes (client snug pending) 1 :=
    step_stopped (by rw [hfailed]; decide)
  have hended := hcaught.ended
  cases n with
  | zero => cases hended
  | succ n =>
    change ((CatchUp.step snug depotServes)^[n]
      (CatchUp.after snug depotServes (client snug pending) 1)).fate = .ended at hended
    rw [Function.iterate_fixed hstays, hfailed] at hended
    cases hended

end Sample

end AheadSync
