import AheadSync.Server.Live

/-! What a live session does over any sequence of events: it pulls once at a time, streams every scope
    without a gap from the acknowledged head, and loses no wake until its socket closes. -/

namespace AheadSync

/-- A session with every action it has called for. -/
structure Session where
  state : Subscriptions
  log : List LiveAction

namespace Session

def opened (n : Negotiation) : Session := ⟨(Subscriptions.opened n).1, (Subscriptions.opened n).2⟩

def feed (s : Session) (ev : LiveEvent) : Session where
  state := (s.state.handle ev).2
  log := s.log ++ match (s.state.handle ev).1 with
    | .ok actions => actions
    | .error _ => []

end Session

/-- A page that answers the cursors a pull asked from. -/
structure AnswersPull (page : PullPage) (asked : SortedMap String ℕ) : Prop where
  valid : page.validate = .ok ()
  channels : page.cursors.keys = asked.keys
  froms : ∀ channel range, page.cursors.lookup channel = some range →
    asked.lookup channel = some range.fromCursor

/-- The events a host may report: commits of accepted scopes, and pages that answer the outstanding
    pull. -/
def Feeds (s : Session) : LiveEvent → Prop
  | .committed scope => scope ∈ s.state.scopes.map (·.scope)
  | .pulled page => ∃ asked, s.state.running = some asked ∧ AnswersPull page asked
  | .closed => True

/-- The ranges of a scope in the frames sent. -/
def ranges (scope : String) (log : List LiveAction) : List CursorRange :=
  log.filterMap fun
    | .send (.page page) => page.cursors.lookup scope
    | _ => none

/-- Where the frames sent leave a scope that started at `head`. -/
def streamed (head : ℕ) (rs : List CursorRange) : ℕ := rs.foldl (fun _ r => r.toCursor) head

/-- Ranges that follow one another from `head`. -/
def Contiguous : ℕ → List CursorRange → Prop
  | _, [] => True
  | head, r :: rs => r.fromCursor = head ∧ head ≤ r.toCursor ∧ Contiguous r.toCursor rs

/-- The head a negotiation announced. -/
def Negotiation.head (n : Negotiation) (scope : String) : ℕ := (n.heads.lookup scope).getD 0

/-- Every scope stands where the frames sent leave it. -/
structure Streams (n : Negotiation) (s : Session) : Prop where
  names : s.state.scopes.map (·.scope) = n.heads.keys
  cursor : ∀ st ∈ s.state.scopes, st.cursor = streamed (n.head st.scope) (ranges st.scope s.log)
  contiguous : ∀ scope, Contiguous (n.head scope) (ranges scope s.log)

/-- What holds of a session between events. -/
structure Drains (n : Negotiation) (s : Session) : Prop extends Streams n s where
  asked : ∀ asked, s.state.running = some asked → ∀ scope c, asked.lookup scope = some c →
    ∃ st ∈ s.state.scopes, st.scope = scope ∧ st.cursor = c
  idle : s.state.closed = false → s.state.running = none → ∀ st ∈ s.state.scopes, st.pending = false

section Page
variable {page : PullPage} {asked : SortedMap String ℕ} {s : Subscriptions}

theorem pageProgress_eq_ok {cursors : SortedMap String CursorRange} :
    pageProgress page asked = .ok cursors ↔ AnswersPull page asked ∧ cursors = page.cursors := by
  simp only [pageProgress, Except.bind_eq_ok, Except.mapError_eq_ok, ensure_eq_ok, List.forM_eq_ok,
    Except.pure_eq_ok]
  constructor
  · rintro ⟨_, hv, _, hk, _, hf, rfl⟩
    exact ⟨⟨hv, hk, fun channel range hr => hf (channel, range) (SortedMap.lookup_eq_some_iff.mp hr)⟩,
      rfl⟩
  · rintro ⟨h, rfl⟩
    exact ⟨(), h.valid, (), h.channels, (), fun x hx => h.froms x.1 x.2
      (SortedMap.lookup_eq_some_iff.mpr hx), rfl⟩

theorem modifyScope_eq {scope : String} {f : ScopeState → ScopeState} :
    ∀ {scopes : List ScopeState}, (scopes.map (·.scope)).Nodup →
      Subscriptions.modifyScope scope f scopes =
        scopes.map fun st => if st.scope = scope then f st else st
  | [], _ => rfl
  | st :: rest, h => by
    obtain ⟨hst, hrest⟩ := List.nodup_cons.mp h
    rw [Subscriptions.modifyScope, List.map_cons, modifyScope_eq hrest]
    split
    · rename_i heq
      congr 1
      refine (List.map_id' rest).symm.trans (List.map_congr_left fun x hx => ?_)
      have hne : x.scope ≠ scope := fun hx' =>
        hst (List.mem_map.mpr ⟨x, hx, hx'.trans heq.symm⟩)
      rw [if_neg hne]
    · rfl

/-- A scope after a page with this range of it, if any. -/
def ScopeState.moved (st : ScopeState) : Option CursorRange → ScopeState
  | none => st
  | some range => { st with cursor := range.toCursor, pending := st.pending || range.continues }

@[simp] theorem moved_scope {st : ScopeState} (o : Option CursorRange) :
    (st.moved o).scope = st.scope := by
  cases o <;> rfl

theorem progress_fold : ∀ {es : List (String × CursorRange)} {s : Subscriptions},
    (es.map (·.1)).Nodup → (s.scopes.map (·.scope)).Nodup →
    (∀ e ∈ es, e.1 ∈ s.scopes.map (·.scope)) →
    es.foldlM Subscriptions.progress s = .ok { s with
      scopes := s.scopes.map fun st => st.moved ((es.find? (·.1 = st.scope)).map (·.2)) }
  | [], s, _, _, _ => by simp [pure, Except.pure, ScopeState.moved]
  | (scope, range) :: es, s, hes, hs, hmem => by
    obtain ⟨hscope, hes⟩ := List.nodup_cons.mp hes
    have hstep : s.progress (scope, range) = .ok { s with
        scopes := s.scopes.map fun st => if st.scope = scope then st.moved (some range) else st } := by
      have hany : s.scopes.any (·.scope = scope) := by
        obtain ⟨st, hst, heq⟩ := List.mem_map.mp (hmem _ (List.mem_cons_self ..))
        exact List.any_eq_true.mpr ⟨st, hst, by simpa using heq⟩
      simp only [Subscriptions.progress, Subscriptions.scopeMut, ensure, hany, ↓reduceIte,
        Except.ok_bind, modifyScope_eq hs]
      rfl
    have hnames : (s.scopes.map fun st => if st.scope = scope then st.moved (some range) else st).map
        (·.scope) = s.scopes.map (·.scope) := by
      rw [List.map_map]
      refine List.map_congr_left fun st _ => ?_
      simp only [Function.comp_apply]
      split <;> simp
    rw [List.foldlM_cons, hstep, Except.ok_bind, progress_fold hes (hnames ▸ hs)
      fun e he => hnames ▸ hmem e (List.mem_cons_of_mem _ he)]
    simp only [List.map_map]
    congr 2
    refine List.map_congr_left fun st _ => ?_
    by_cases heq : st.scope = scope
    · have hnone : es.find? (fun e => e.1 = scope) = none := by
        refine List.find?_eq_none.mpr fun e he heq' => hscope ?_
        exact List.mem_map.mpr ⟨e, he, by simpa using heq'⟩
      simp [heq, hnone, ScopeState.moved]
    · simp [heq, Ne.symm heq]

theorem progress_page (hs : (s.scopes.map (·.scope)).Nodup)
    (hmem : ∀ scope ∈ page.cursors.keys, scope ∈ s.scopes.map (·.scope)) :
    page.cursors.entries.foldlM Subscriptions.progress s =
      .ok { s with scopes := s.scopes.map fun st => st.moved (page.cursors.lookup st.scope) } := by
  refine (progress_fold page.cursors.nodup_keys hs fun e he => ?_).trans rfl
  exact hmem e.1 (List.mem_map_of_mem he)

end Page

section Drain
variable {n : Negotiation} {s : Session} {page : PullPage} {asked : SortedMap String ℕ}
  {m : Subscriptions} {log : List LiveAction}

theorem streams_sorted (h : Streams n s) : (s.state.scopes.map (·.scope)).Pairwise (· < ·) :=
  h.names ▸ List.pairwise_map.mpr n.heads.sorted

theorem page_ranges (hv : page.validate = .ok ()) {channel : String} {range : CursorRange}
    (hr : page.cursors.lookup channel = some range) :
    range.fromCursor ≤ range.toCursor ∧ range.toCursor ≤ range.head := by
  simp only [PullPage.validate, Except.bind_eq_ok, ensure_eq_ok, List.forM_eq_ok] at hv
  obtain ⟨_, -, _, hall, -⟩ := hv
  obtain ⟨_, -, _, -, _, -, _, -, _, h1, h2⟩ :=
    hall (channel, range) (SortedMap.lookup_eq_some_iff.mp hr)
  exact ⟨h1, h2⟩

/-- The cursors of a pull for everything pending. -/
theorem pendingCursors_lookup (hs : (m.scopes.map (·.scope)).Pairwise (· < ·)) {scope : String}
    {c : ℕ} : m.pendingCursors.lookup scope = some c ↔
      ∃ st ∈ m.scopes, st.scope = scope ∧ st.pending = true ∧ st.cursor = c := by
  have hsorted : ((m.scopes.filter (·.pending)).map fun st => (st.scope, st.cursor)).Pairwise
      fun a b => a.1 < b.1 := by
    rw [List.pairwise_map]
    exact (List.pairwise_map.mp hs).sublist List.filter_sublist
  have hl : m.pendingCursors.lookup scope = SortedMap.lookup ⟨_, hsorted⟩ scope := by
    rw [Subscriptions.pendingCursors, SortedMap.ofList, SortedMap.lookup_foldl_insert hsorted]
    simp
  rw [hl, SortedMap.lookup_eq_some_iff]
  simp only [List.mem_map, List.mem_filter, Prod.mk.injEq]
  constructor
  · rintro ⟨st, ⟨hst, hp⟩, hscope, hc⟩
    exact ⟨st, hst, hscope, hp, hc⟩
  · rintro ⟨st, hst, hscope, hp, hc⟩
    exact ⟨st, ⟨hst, hp⟩, hscope, hc⟩

theorem ranges_append {scope : String} {more : List LiveAction} :
    ranges scope (log ++ more) = ranges scope log ++ ranges scope more :=
  List.filterMap_append

theorem ranges_nextPull {scope : String} : ranges scope m.nextPull.2 = [] := by
  unfold Subscriptions.nextPull
  split <;> rfl

/-- Pulling what is pending keeps what was streamed, and leaves nothing pending. -/
theorem drains_nextPull (h : Streams n ⟨m, log⟩) (hr : m.running = none) :
    Drains n ⟨m.nextPull.1, log ++ m.nextPull.2⟩ := by
  have hranges : ∀ scope, ranges scope (log ++ m.nextPull.2) = ranges scope log := fun scope => by
    rw [ranges_append, ranges_nextPull, List.append_nil]
  have hcontig : ∀ scope, Contiguous (n.head scope) (ranges scope (log ++ m.nextPull.2)) :=
    fun scope => (hranges scope).symm ▸ h.contiguous scope
  have hsorted := streams_sorted h
  unfold Subscriptions.nextPull at hranges hcontig ⊢
  split
  · rename_i hany
    rw [if_pos hany] at hranges hcontig
    refine ⟨⟨?_, ?_, hcontig⟩, ?_, nofun⟩
    · simp only [List.map_map]
      exact h.names
    · intro st hst
      obtain ⟨st0, hst0, rfl⟩ := List.mem_map.mp hst
      rw [hranges]
      exact h.cursor st0 hst0
    · intro asked ha scope c hc
      obtain rfl := Option.some.inj ha
      obtain ⟨st, hst, hscope, -, hcur⟩ := (pendingCursors_lookup hsorted).mp hc
      exact ⟨_, List.mem_map_of_mem hst, hscope, hcur⟩
  · rename_i hany
    rw [if_neg hany] at hranges hcontig
    refine ⟨⟨h.names, fun st hst => ?_, hcontig⟩, fun asked ha => ?_, fun _ _ st hst => ?_⟩
    · rw [hranges]
      exact h.cursor st hst
    · rw [show m.running = some asked from ha] at hr; cases hr
    · by_contra hp
      exact hany (List.any_eq_true.mpr ⟨st, hst, by simpa using hp⟩)

theorem streamed_append {head : ℕ} {rs : List CursorRange} {r : CursorRange} :
    streamed head (rs ++ [r]) = r.toCursor := by
  simp [streamed]

theorem contiguous_append : ∀ {head : ℕ} {rs : List CursorRange} {r : CursorRange},
    Contiguous head rs → r.fromCursor = streamed head rs → r.fromCursor ≤ r.toCursor →
    Contiguous head (rs ++ [r])
  | _, [], _, _, hf, hle => ⟨hf, hf.symm.trans_le hle, trivial⟩
  | _, _ :: _, _, ⟨hx, hle', hrs⟩, hf, hle => ⟨hx, hle', contiguous_append hrs hf hle⟩

/-- The frame sent for a page: none when the page moves nothing. -/
def framesOf (page : PullPage) : List LiveAction :=
  if page.cursors.entries.any fun e => e.2.fromCursor < e.2.toCursor then [.send (.page page)] else []

/-- A session moved by a page. -/
def Subscriptions.movedBy (m : Subscriptions) (page : PullPage) : Subscriptions :=
  { m with running := none
           scopes := m.scopes.map fun st => st.moved (page.cursors.lookup st.scope) }

theorem ranges_framesOf {scope : String} : ranges scope (framesOf page) =
    if page.cursors.entries.any fun e => e.2.fromCursor < e.2.toCursor
      then (page.cursors.lookup scope).toList else [] := by
  unfold framesOf
  split
  · simp only [ranges, List.filterMap_cons, List.filterMap_nil]
    cases page.cursors.lookup scope <;> rfl
  · rfl

/-- An answered pull streams every scope on from where it stood. -/
theorem streams_moved (h : Drains n s) (hr : s.state.running = some asked)
    (hp : AnswersPull page asked) :
    Streams n ⟨s.state.movedBy page, s.log ++ framesOf page⟩ := by
  have hfrom : ∀ scope range, page.cursors.lookup scope = some range →
      range.fromCursor = streamed (n.head scope) (ranges scope s.log) := by
    intro scope range hrange
    obtain ⟨st, hst, rfl, hc⟩ := h.asked asked hr scope _ (hp.froms scope range hrange)
    rw [← hc, h.cursor st hst]
  refine ⟨?_, ?_, fun scope => ?_⟩
  · simp only [Subscriptions.movedBy, List.map_map, Function.comp_def, moved_scope]
    exact h.names
  · intro st hst
    obtain ⟨st0, hst0, rfl⟩ := List.mem_map.mp hst
    rw [moved_scope, ranges_append, ranges_framesOf]
    cases hrange : page.cursors.lookup st0.scope with
    | none =>
      have : (if page.cursors.entries.any fun e => e.2.fromCursor < e.2.toCursor
          then (none : Option CursorRange).toList else []) = [] := by split <;> rfl
      rw [this, List.append_nil]
      exact h.cursor st0 hst0
    | some range =>
      split
      · exact streamed_append.symm
      · rename_i hany
        rw [List.append_nil, ← hfrom st0.scope range hrange]
        have hmem := SortedMap.lookup_eq_some_iff.mp hrange
        have hge : range.toCursor ≤ range.fromCursor := by
          by_contra hlt
          exact hany (List.any_eq_true.mpr ⟨_, hmem, by simpa using hlt⟩)
        exact le_antisymm hge (page_ranges hp.valid hrange).1
  · change Contiguous _ (ranges scope (s.log ++ framesOf page))
    rw [ranges_append, ranges_framesOf]
    cases hrange : page.cursors.lookup scope with
    | none =>
      have : (if page.cursors.entries.any fun e => e.2.fromCursor < e.2.toCursor
          then (none : Option CursorRange).toList else []) = [] := by split <;> rfl
      rw [this, List.append_nil]
      exact h.contiguous scope
    | some range =>
      split
      · exact contiguous_append (h.contiguous scope) (hfrom scope range hrange)
          (page_ranges hp.valid hrange).1
      · rw [List.append_nil]; exact h.contiguous scope

/-- A session with one more pending scope. -/
def Subscriptions.marked (m : Subscriptions) (scope : String) : Subscriptions :=
  { m with scopes := m.scopes.map fun st =>
      if st.scope = scope then { st with pending := true } else st }

theorem streams_marked {scope : String} (h : Streams n s) :
    Streams n ⟨s.state.marked scope, s.log⟩ := by
  refine ⟨?_, ?_, h.contiguous⟩
  · rw [← h.names]
    simp only [Subscriptions.marked, List.map_map]
    refine List.map_congr_left fun st _ => ?_
    simp only [Function.comp_apply]
    split <;> rfl
  · intro st hst
    obtain ⟨st0, hst0, rfl⟩ := List.mem_map.mp hst
    have := h.cursor st0 hst0
    split <;> exact this

/-- A commit marks its scope, and pulls when nothing stands in the way. -/
theorem feed_committed (h : Drains n s) {scope : String} (hf : Feeds s (.committed scope)) :
    s.feed (.committed scope) =
      if s.state.closed ∨ s.state.running.isSome then ⟨s.state.marked scope, s.log⟩
      else ⟨(s.state.marked scope).nextPull.1, s.log ++ (s.state.marked scope).nextPull.2⟩ := by
  have hany : s.state.scopes.any (·.scope = scope) := by
    obtain ⟨st, hst, heq⟩ := List.mem_map.mp hf
    exact List.any_eq_true.mpr ⟨st, hst, by simpa using heq⟩
  have hmut : s.state.scopeMut scope (fun st => { st with pending := true }) =
      .ok (s.state.marked scope) := by
    simp only [Subscriptions.scopeMut, ensure, hany, ↓reduceIte, Except.ok_bind,
      modifyScope_eq ((streams_sorted h.toStreams).imp fun h => ne_of_lt h)]
    rfl
  by_cases hc : s.state.closed ∨ s.state.running.isSome
  · have hc' : (s.state.marked scope).closed ∨ (s.state.marked scope).running.isSome := hc
    simp only [Session.feed, Subscriptions.handle, hmut, if_pos hc, if_pos hc', List.append_nil]
  · have hc' : ¬((s.state.marked scope).closed ∨ (s.state.marked scope).running.isSome) := hc
    simp only [Session.feed, Subscriptions.handle, hmut, if_neg hc, if_neg hc']

/-- An answer is dropped after close; otherwise it is sent on and the next pull follows it. -/
theorem feed_pulled (h : Drains n s) (hr : s.state.running = some asked)
    (hp : AnswersPull page asked) : s.feed (.pulled page) =
      if s.state.closed then ⟨{ s.state with running := none }, s.log⟩
      else ⟨(s.state.movedBy page).nextPull.1,
        s.log ++ (framesOf page ++ (s.state.movedBy page).nextPull.2)⟩ := by
  have hmem : ∀ scope ∈ page.cursors.keys, scope ∈ s.state.scopes.map (·.scope) := by
    intro scope hk
    have hsome : (page.cursors.lookup scope).isSome := by
      by_contra hnone
      exact SortedMap.lookup_eq_none_iff.mp (by simpa using hnone) hk
    obtain ⟨range, hrange⟩ := Option.isSome_iff_exists.mp hsome
    obtain ⟨st, hst, rfl, -⟩ := h.asked asked hr scope _ (hp.froms scope range hrange)
    exact List.mem_map_of_mem hst
  have hfold : page.cursors.entries.foldlM Subscriptions.progress { s.state with running := none } =
      .ok (s.state.movedBy page) :=
    progress_page ((streams_sorted h.toStreams).imp fun h => ne_of_lt h) hmem
  by_cases hc : s.state.closed
  · simp only [Session.feed, Subscriptions.handle, hr, if_pos hc, List.append_nil]
  · simp only [Session.feed, Subscriptions.handle, hr, if_neg hc, pageProgress_eq_ok.mpr ⟨hp, rfl⟩,
      hfold]
    rfl

theorem feed_closed : s.feed .closed = ⟨{ s.state with
    closed := true, scopes := s.state.scopes.map fun st => { st with pending := false } }, s.log⟩ := by
  simp only [Session.feed, Subscriptions.handle, List.append_nil]

/-- Every event keeps what holds of a session. -/
theorem drains_feed (h : Drains n s) {ev : LiveEvent} (hf : Feeds s ev) : Drains n (s.feed ev) := by
  cases ev with
  | committed scope =>
    rw [feed_committed h hf]
    split
    · rename_i hc
      refine ⟨streams_marked h.toStreams, fun asked ha scope' c hl => ?_, fun hopen hrun => ?_⟩
      · obtain ⟨st, hst, hscope, hcur⟩ := h.asked asked ha scope' c hl
        refine ⟨_, List.mem_map_of_mem hst, ?_⟩
        split <;> exact ⟨hscope, hcur⟩
      · change s.state.closed = false at hopen
        change s.state.running = none at hrun
        simp [hopen, hrun] at hc
    · rename_i hc
      obtain ⟨-, hrun⟩ := not_or.mp hc
      exact drains_nextPull (streams_marked h.toStreams) (Option.not_isSome_iff_eq_none.mp hrun)
  | pulled page =>
    obtain ⟨asked, hr, hp⟩ := hf
    rw [feed_pulled h hr hp]
    split
    · rename_i hc
      exact ⟨⟨h.names, h.cursor, h.contiguous⟩, nofun, fun hopen => by simp [hc] at hopen⟩
    · rw [← List.append_assoc]
      exact drains_nextPull (streams_moved h hr hp) rfl
  | closed =>
    rw [feed_closed]
    refine ⟨⟨?_, fun st hst => ?_, h.contiguous⟩, fun asked ha scope c hl => ?_, nofun⟩
    · simp only [List.map_map]
      exact h.names
    · obtain ⟨st0, hst0, rfl⟩ := List.mem_map.mp hst
      exact h.cursor st0 hst0
    · obtain ⟨st, hst, hscope, hcur⟩ := h.asked asked ha scope c hl
      exact ⟨_, List.mem_map_of_mem hst, hscope, hcur⟩

theorem drains_opened (n : Negotiation) : Drains n (Session.opened n) := by
  have hranges : ∀ scope, ranges scope (Session.opened n).log = [] := by
    intro scope
    have hl : ranges scope ((Session.opened n).state.scopes.map (LiveAction.listen ·.scope)) = [] := by
      rw [ranges, List.filterMap_eq_nil_iff]
      intro a ha
      obtain ⟨st, -, rfl⟩ := List.mem_map.mp ha
      rfl
    change ranges scope (_ ++ _) = []
    rw [ranges_append]
    exact List.append_eq_nil_iff.mpr ⟨hl, rfl⟩
  have hhead : ∀ e ∈ n.heads.entries, n.head e.1 = e.2 := fun e he => by
    rw [Negotiation.head, SortedMap.lookup_eq_some_iff.mpr he]
    rfl
  refine ⟨⟨?_, fun st hst => ?_, fun scope => ?_⟩, fun asked ha scope c hl => ?_, nofun⟩
  · simp only [Session.opened, Subscriptions.opened, List.map_map]
    rfl
  · obtain ⟨e, he, rfl⟩ := List.mem_map.mp hst
    rw [hranges, hhead e he]
    rfl
  · rw [hranges]
    trivial
  · obtain rfl := Option.some.inj ha
    refine ⟨_, List.mem_map_of_mem (SortedMap.lookup_eq_some_iff.mp hl), rfl, rfl⟩

end Drain

/-! ### Wakes -/

/-- The events after which a scope has something to pull: a commit of it, and a page that leaves it
    below its head. -/
def Wakes (scope : String) : LiveEvent → Prop
  | .committed committed => committed = scope
  | .pulled page => ∃ range, page.cursors.lookup scope = some range ∧ range.toCursor < range.head
  | .closed => False

/-- After the first `mark` actions a pull of the scope went out from where it had been streamed to. -/
def PulledSince (n : Negotiation) (mark : ℕ) (scope : String) (s : Session) : Prop :=
  ∃ before cursors models after, s.log = before ++ .pull cursors models :: after ∧
    mark ≤ before.length ∧
    cursors.lookup scope = some (streamed (n.head scope) (ranges scope before))

/-- A pull is outstanding, and the scope is marked for the next one. -/
def Waiting (scope : String) (s : Session) : Prop :=
  s.state.running.isSome ∧ ∃ st ∈ s.state.scopes, st.scope = scope ∧ st.pending = true

/-- Every wake of a run is answered by a later pull, or waits for the next one. -/
def NoLostWake (n : Negotiation) (events : List LiveEvent) : Prop :=
  ∀ before ev after scope, events = before ++ ev :: after → Wakes scope ev →
    PulledSince n (Machine.run Session.feed (Session.opened n) before).log.length scope
        (Machine.run Session.feed (Session.opened n) events) ∨
      Waiting scope (Machine.run Session.feed (Session.opened n) events)

def LiveAction.isPull : LiveAction → Bool
  | .pull .. => true
  | _ => false

def LiveEvent.isAnswer : LiveEvent → Bool
  | .pulled _ => true
  | _ => false

/-- The pulls issued and not answered. -/
def Session.outstanding (s : Session) : ℕ := if s.state.running.isSome then 1 else 0

section Wake
variable {n : Negotiation} {s : Session} {m : Subscriptions} {log : List LiveAction} {scope : String}
  {mark : ℕ} {ev : LiveEvent}

theorem pulledSince_append {state : Subscriptions} {more : List LiveAction}
    (h : PulledSince n mark scope s) : PulledSince n mark scope ⟨state, s.log ++ more⟩ := by
  obtain ⟨before, cursors, models, after, hlog, hle, hc⟩ := h
  exact ⟨before, cursors, models, after ++ more, by simp [hlog], hle, hc⟩

/-- The next pull covers every pending scope from where it was streamed to. -/
theorem nextPull_covers (h : Streams n ⟨m, log⟩) (hle : mark ≤ log.length) {st : ScopeState}
    (hst : st ∈ m.scopes) (hp : st.pending = true) :
    PulledSince n mark st.scope ⟨m.nextPull.1, log ++ m.nextPull.2⟩ := by
  have hany : m.scopes.any (·.pending) := List.any_eq_true.mpr ⟨st, hst, hp⟩
  refine ⟨log, m.pendingCursors, m.models, [], ?_, hle, ?_⟩
  · simp only [Subscriptions.nextPull, if_pos hany]
  · exact (pendingCursors_lookup (streams_sorted h)).mpr ⟨st, hst, rfl, hp, h.cursor st hst⟩

theorem mem_marked_scope (h : scope ∈ m.scopes.map (·.scope)) :
    ∃ st ∈ (m.marked scope).scopes, st.scope = scope ∧ st.pending = true := by
  obtain ⟨st, hst, rfl⟩ := List.mem_map.mp h
  exact ⟨_, List.mem_map_of_mem hst, by simp⟩

/-- A wake is answered at once, or waits for the outstanding pull. -/
theorem wake_covered (h : Drains n s) (hf : Feeds s ev) (hw : Wakes scope ev)
    (hopen : (s.feed ev).state.closed = false) :
    PulledSince n s.log.length scope (s.feed ev) ∨ Waiting scope (s.feed ev) := by
  cases ev with
  | committed committed =>
    obtain rfl : committed = scope := hw
    obtain ⟨st, hst, hscope, hp⟩ := mem_marked_scope hf
    rw [feed_committed h hf] at hopen ⊢
    split at hopen
    · rename_i hc
      have hrun := hc.resolve_left (by simp [show s.state.closed = false from hopen])
      rw [if_pos hc]
      exact Or.inr ⟨hrun, st, hst, hscope, hp⟩
    · rename_i hc
      rw [if_neg hc, ← hscope]
      exact Or.inl (nextPull_covers (hscope ▸ streams_marked h.toStreams) le_rfl (hscope ▸ hst) hp)
  | pulled page =>
    obtain ⟨asked, hr, hp⟩ := hf
    obtain ⟨range, hrange, hlt⟩ := hw
    rw [feed_pulled h hr hp] at hopen ⊢
    split at hopen
    · rename_i hc
      exact absurd (show s.state.closed = false from hopen) (by simp [hc])
    · rename_i hc
      rw [if_neg hc, ← List.append_assoc]
      obtain ⟨st, hst, rfl, -⟩ := h.asked asked hr scope _ (hp.froms scope range hrange)
      have hmem : st.moved (page.cursors.lookup st.scope) ∈ (s.state.movedBy page).scopes :=
        List.mem_map_of_mem hst
      have hpend : (st.moved (page.cursors.lookup st.scope)).pending = true := by
        simp [hrange, ScopeState.moved, CursorRange.continues, hlt]
      have hcover := nextPull_covers (streams_moved h hr hp)
        (show s.log.length ≤ (s.log ++ _).length by simp) hmem hpend
      rw [moved_scope] at hcover
      exact Or.inl hcover
  | closed => exact absurd hw id

/-- What is answered stays answered, and what waits for the outstanding pull is answered after it. -/
theorem covered_feed (h : Drains n s) (hf : Feeds s ev) (hle : mark ≤ s.log.length)
    (hc : PulledSince n mark scope s ∨ Waiting scope s)
    (hopen : (s.feed ev).state.closed = false) :
    PulledSince n mark scope (s.feed ev) ∨ Waiting scope (s.feed ev) := by
  rcases hc with hc | ⟨hrun, st, hst, rfl, hp⟩
  · exact Or.inl (pulledSince_append hc)
  cases ev with
  | committed committed =>
    rw [feed_committed h hf, if_pos (Or.inr hrun)]
    refine Or.inr ⟨hrun, _, List.mem_map_of_mem hst, ?_⟩
    split <;> simp [hp]
  | pulled page =>
    obtain ⟨asked, hr, hpage⟩ := hf
    rw [feed_pulled h hr hpage] at hopen ⊢
    split at hopen
    · rename_i hc
      exact absurd (show s.state.closed = false from hopen) (by simp [hc])
    · rename_i hc
      rw [if_neg hc, ← List.append_assoc]
      have hmem : st.moved (page.cursors.lookup st.scope) ∈ (s.state.movedBy page).scopes :=
        List.mem_map_of_mem hst
      have hpend : (st.moved (page.cursors.lookup st.scope)).pending = true := by
        cases page.cursors.lookup st.scope <;> simp [ScopeState.moved, hp]
      have hcover := nextPull_covers (streams_moved h hr hpage)
        (show mark ≤ (s.log ++ _).length by simp only [List.length_append]; omega) hmem hpend
      rw [moved_scope] at hcover
      exact Or.inl hcover
  | closed =>
    rw [feed_closed] at hopen
    exact absurd hopen (by simp)

/-- Once closed, a session stays closed and calls for nothing. -/
theorem closed_feed (h : Drains n s) (hf : Feeds s ev) (hc : s.state.closed = true) :
    (s.feed ev).state.closed = true ∧ (s.feed ev).log = s.log := by
  cases ev with
  | committed committed =>
    rw [feed_committed h hf, if_pos (Or.inl hc)]
    exact ⟨hc, rfl⟩
  | pulled page =>
    obtain ⟨asked, hr, hp⟩ := hf
    rw [feed_pulled h hr hp, if_pos hc]
    exact ⟨hc, rfl⟩
  | closed =>
    rw [feed_closed]
    exact ⟨rfl, rfl⟩

theorem countP_nextPull (hr : m.running = none) :
    m.nextPull.2.countP (·.isPull) = if m.nextPull.1.running.isSome then 1 else 0 := by
  unfold Subscriptions.nextPull
  split
  · rfl
  · simp [hr]

/-- Every pull is answered before the next one is issued. -/
theorem pulls_feed (h : Drains n s) (hf : Feeds s ev) :
    (s.feed ev).log.countP (·.isPull) + s.outstanding =
      s.log.countP (·.isPull) + (if ev.isAnswer then 1 else 0) + (s.feed ev).outstanding := by
  cases ev with
  | committed committed =>
    rw [feed_committed h hf]
    split
    · rfl
    · rename_i hc
      obtain ⟨-, hrun⟩ := not_or.mp hc
      have hnone := Option.not_isSome_iff_eq_none.mp hrun
      simp only [Session.outstanding, List.countP_append,
        countP_nextPull (m := s.state.marked committed) hnone, hnone]
      simp [LiveEvent.isAnswer]
  | pulled page =>
    obtain ⟨asked, hr, hp⟩ := hf
    rw [feed_pulled h hr hp]
    split
    · simp [Session.outstanding, hr, LiveEvent.isAnswer]
    · have hframes : (framesOf page).countP (·.isPull) = 0 := by
        unfold framesOf
        split <;> rfl
      simp only [Session.outstanding, List.countP_append, hframes,
        countP_nextPull (m := s.state.movedBy page) rfl, hr, LiveEvent.isAnswer]
      simp only [Option.isSome_some, ↓reduceIte]
      omega
  | closed =>
    rw [feed_closed]
    rfl

end Wake

section Run
variable {n : Negotiation} {s : Session} {scope : String} {mark : ℕ} {events : List LiveEvent}

theorem drains_run : ∀ {events : List LiveEvent} {s : Session}, Drains n s →
    Machine.Along Session.feed Feeds s events → Drains n (Machine.run Session.feed s events) :=
  fun h hf => Machine.run_keeps (P := Drains n) (fun _ _ hs hev => drains_feed hs hev) h hf

theorem closed_run : ∀ {events : List LiveEvent} {s : Session}, Drains n s →
    Machine.Along Session.feed Feeds s events → s.state.closed = true →
      (Machine.run Session.feed s events).state.closed = true ∧
        (Machine.run Session.feed s events).log = s.log
  | [], _, _, _, hc => ⟨hc, rfl⟩
  | ev :: events, s, h, hf, hc => by
    obtain ⟨hclosed, hlog⟩ := closed_feed h hf.1 hc
    obtain ⟨hclosed', hlog'⟩ := closed_run (drains_feed h hf.1) hf.2 hclosed
    exact ⟨hclosed', hlog'.trans hlog⟩

theorem covered_run : ∀ {events : List LiveEvent} {s : Session}, Drains n s →
    Machine.Along Session.feed Feeds s events → mark ≤ s.log.length →
    (PulledSince n mark scope s ∨ Waiting scope s) →
    (Machine.run Session.feed s events).state.closed = false →
      PulledSince n mark scope (Machine.run Session.feed s events) ∨
        Waiting scope (Machine.run Session.feed s events)
  | [], _, _, _, _, hc, _ => hc
  | ev :: events, s, h, hf, hle, hc, hopen => by
    have hd := drains_feed h hf.1
    have hmid : (s.feed ev).state.closed = false := by
      by_contra hclosed
      have := (closed_run hd hf.2 (by simpa using hclosed)).1
      exact absurd (hopen.symm.trans this) (by simp)
    have hle' : mark ≤ (s.feed ev).log.length := by
      simp only [Session.feed, List.length_append]
      omega
    have hrest := covered_run hd hf.2 hle' (covered_feed h hf.1 hle hc hmid) hopen
    exact hrest

theorem pulls_run : ∀ {events : List LiveEvent} {s : Session}, Drains n s →
    Machine.Along Session.feed Feeds s events →
      (Machine.run Session.feed s events).log.countP (·.isPull) + s.outstanding =
        s.log.countP (·.isPull) + events.countP (·.isAnswer) +
          (Machine.run Session.feed s events).outstanding
  | [], _, _, _ => rfl
  | ev :: events, s, h, hf => by
    have hstep := pulls_feed h hf.1
    have hrest := pulls_run (drains_feed h hf.1) hf.2
    rw [List.countP_cons]
    change (Machine.run Session.feed (s.feed ev) events).log.countP _ + _ = _ +
      _ + (Machine.run Session.feed (s.feed ev) events).outstanding
    omega

end Run

/-- A live session, whatever is committed, pulled and closed: at most one pull is outstanding; the
    frames sent carry every scope on from its acknowledged head without gap or overlap; until the
    socket closes no wake is lost and an idle session has nothing marked; after it nothing is sent. -/
theorem live_session (n : Negotiation) (events : List LiveEvent)
    (hf : Machine.Along Session.feed Feeds (Session.opened n) events) :
    (Machine.run Session.feed (Session.opened n) events).log.countP (·.isPull) =
        events.countP (·.isAnswer) +
          (Machine.run Session.feed (Session.opened n) events).outstanding ∧
      (∀ scope, Contiguous (n.head scope)
        (ranges scope (Machine.run Session.feed (Session.opened n) events).log)) ∧
      ((Machine.run Session.feed (Session.opened n) events).state.closed = false →
        NoLostWake n events ∧
        ((Machine.run Session.feed (Session.opened n) events).state.running = none →
          ∀ st ∈ (Machine.run Session.feed (Session.opened n) events).state.scopes,
            st.pending = false)) ∧
      ∀ before after, events = before ++ .closed :: after →
        (Machine.run Session.feed (Session.opened n) events).log =
          (Machine.run Session.feed (Session.opened n) before).log := by
  have ho := drains_opened n
  have hd := drains_run ho hf
  refine ⟨?_, hd.contiguous, fun hopen => ⟨?_, hd.idle hopen⟩, ?_⟩
  · have hcount := pulls_run ho hf
    have hlisten : ((Session.opened n).state.scopes.map (LiveAction.listen ·.scope)).countP
        (·.isPull) = 0 := by
      rw [List.countP_map, List.countP_eq_zero]
      exact fun _ _ h => by cases h
    have hpull : (Session.opened n).log.countP (·.isPull) = 1 := by
      change (((Session.opened n).state.scopes.map (LiveAction.listen ·.scope)) ++ _).countP _ = 1
      rw [List.countP_append, hlisten]
      rfl
    have hout : (Session.opened n).outstanding = 1 := rfl
    omega
  · rintro before ev after scope rfl hw
    obtain ⟨hf1, hf2⟩ := Machine.along_append.mp hf
    have hmid := drains_run ho hf1
    have hrun : Machine.run Session.feed (Session.opened n) (before ++ ev :: after) =
        Machine.run Session.feed
          ((Machine.run Session.feed (Session.opened n) before).feed ev) after := by
      rw [Machine.run, List.foldl_append]
      rfl
    rw [hrun] at hopen ⊢
    have hd' := drains_feed hmid hf2.1
    have hstep : ((Machine.run Session.feed (Session.opened n) before).feed ev).state.closed =
        false := by
      by_contra hclosed
      have := (closed_run hd' hf2.2 (by simpa using hclosed)).1
      exact absurd (hopen.symm.trans this) (by simp)
    have hcov := wake_covered hmid hf2.1 hw hstep
    refine covered_run hd' hf2.2 ?_ hcov hopen
    simp only [Session.feed, List.length_append]
    omega
  · rintro before after rfl
    obtain ⟨hf1, hf2⟩ := Machine.along_append.mp hf
    have hmid := drains_run ho hf1
    have hrun : Machine.run Session.feed (Session.opened n) (before ++ .closed :: after) =
        Machine.run Session.feed
          ((Machine.run Session.feed (Session.opened n) before).feed .closed) after := by
      rw [Machine.run, List.foldl_append]
      rfl
    have hclosed := closed_run (drains_feed hmid hf2.1) hf2.2 (by rw [feed_closed])
    rw [hrun, hclosed.2, feed_closed]

namespace Sample

/-- One channel at its start. -/
def negotiation : Negotiation := ⟨.ofList [("c", 0)], .ofList [("Item", 1)]⟩

/-- A page of that channel. -/
def emptyPage (fromCursor toCursor : ℕ) : PullPage :=
  ⟨.ofList [("c", ⟨fromCursor, toCursor, toCursor⟩)], []⟩

end Sample

section Sample
open Sample

/-- A commit during the first pull is caught by the next one. -/
theorem live_session_wake :
    (Machine.run Session.feed (Session.opened negotiation)
        [.committed "c", .pulled (emptyPage 0 0)]).log.countP (·.isPull) =
        [LiveEvent.committed "c", .pulled (emptyPage 0 0)].countP (·.isAnswer) +
          (Machine.run Session.feed (Session.opened negotiation)
            [.committed "c", .pulled (emptyPage 0 0)]).outstanding :=
  (live_session negotiation [.committed "c", .pulled (emptyPage 0 0)]
    ⟨show "c" ∈ (Session.opened negotiation).state.scopes.map (·.scope) by decide +kernel,
      ⟨.ofList [("c", 0)], by decide +kernel,
      (pageProgress_eq_ok.mp (by decide +kernel :
        pageProgress (emptyPage 0 0) (.ofList [("c", 0)]) = .ok (emptyPage 0 0).cursors)).1⟩,
      trivial⟩).1

/-- A closed session marks a commit and never pulls it. -/
theorem not_live_session : ¬∀ n events, Machine.Along Session.feed Feeds (Session.opened n) events →
    NoLostWake n events := by
  intro h
  have hnl := h negotiation [.closed, .committed "c", .pulled (emptyPage 0 0)]
    ⟨trivial, show "c" ∈ ((Session.opened negotiation).feed .closed).state.scopes.map (·.scope) by
      decide +kernel, ⟨.ofList [("c", 0)], by decide +kernel,
      (pageProgress_eq_ok.mp (by decide +kernel :
        pageProgress (emptyPage 0 0) (.ofList [("c", 0)]) = .ok (emptyPage 0 0).cursors)).1⟩,
      trivial⟩
  rcases hnl [.closed] (.committed "c") [.pulled (emptyPage 0 0)] "c" rfl rfl with
    ⟨before, cursors, models, after, hlog, hle, -⟩ | ⟨hrun, -⟩
  · have hlen := congrArg List.length hlog
    have h3 : (Machine.run Session.feed (Session.opened negotiation)
        [.closed, .committed "c", .pulled (emptyPage 0 0)]).log.length = 3 := by decide +kernel
    have h3' : (Machine.run Session.feed (Session.opened negotiation) [.closed]).log.length = 3 := by
      decide +kernel
    simp only [List.length_append, List.length_cons] at hlen
    omega
  · revert hrun
    decide +kernel

end Sample

end AheadSync
