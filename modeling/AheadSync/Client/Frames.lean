import AheadSync.Client.Isolation

/-! Live frames. A frame answers no request, but it is judged by the memory of the pulls this client
    issued, which knows a pull only by its cursors: a pull nobody answered makes the client take a
    frame from the same cursors for its late answer. -/

namespace AheadSync

/-- No issued pull asked from exactly these cursors, or one that did was issued under the current
    subscriptions. -/
def NoOldPull (l : PullLedger) (cursors : SortedMap String ℕ) : Prop :=
  (∀ p ∈ l.issued, p.cursors ≠ cursors) ∨
    ∃ p ∈ l.issued, p.cursors = cursors ∧ p.epochs = l.currentEpochs cursors

/-- A valid frame for the current subscription that connects: it names subscribed channels only,
    starts at most at the cursor of each, and reaches beyond one. -/
structure FrameConnects (c : Client) (page : PullPage) : Prop where
  valid : page.validate = .ok ()
  reaches : ∀ channel range, page.cursors.lookup channel = some range →
    ∃ current, c.store.cursor channel = some current ∧ range.fromCursor ≤ current
  moves : ∃ channel range current, page.cursors.lookup channel = some range ∧
    c.store.cursor channel = some current ∧ current < range.toCursor

/-- A frame is applied: that is its disposition, and every channel it moves ends where it takes it. -/
def FrameApplied (e : Engine) (c : Client) (page : PullPage) : Prop :=
  ∃ progress c', c.receiveDownlink e page none = (.ok progress, c') ∧
    progress.disposition = .applied ∧
    ∀ channel range current, page.cursors.lookup channel = some range →
      c.store.cursor channel = some current → current < range.toCursor →
        c'.store.cursor channel = some range.toCursor

section Frames
variable {e : Engine} {c : Client} {page : PullPage}

theorem stale_eq_false (l : PullLedger) (cursors : SortedMap String ℕ) :
    (l.stale cursors).1 = false ↔ NoOldPull l cursors := by
  unfold PullLedger.stale NoOldPull
  simp only
  cases hcur : l.issued.findIdx? (fun p => p.cursors = cursors ∧
      p.epochs = l.currentEpochs cursors) with
  | some i =>
    obtain ⟨hi, hp, -⟩ := List.findIdx?_eq_some_iff_getElem.mp hcur
    simp only [Bool.decide_and, Bool.and_eq_true, decide_eq_true_eq] at hp
    simp only [true_iff]
    exact Or.inr ⟨_, List.getElem_mem hi, hp⟩
  | none =>
    have hno : ∀ p ∈ l.issued, p.cursors = cursors → p.epochs ≠ l.currentEpochs cursors := by
      simpa using List.findIdx?_eq_none_iff.mp hcur
    cases hany : l.issued.findIdx? (fun p => p.cursors = cursors) with
    | some i =>
      obtain ⟨hi, hp, -⟩ := List.findIdx?_eq_some_iff_getElem.mp hany
      simp only [Bool.true_eq_false, false_iff, not_or, not_forall, not_exists]
      exact ⟨⟨_, List.getElem_mem hi, by simpa using hp⟩, fun p ⟨hp, heq, hep⟩ => hno p hp heq hep⟩
    | none =>
      simp only [true_iff]
      exact Or.inl (by simpa using List.findIdx?_eq_none_iff.mp hany)

theorem newFor_ne_nil (h : FrameConnects c page) : c.newFor page ≠ [] := by
  obtain ⟨channel, range, current, hr, hc, hlt⟩ := h.moves
  refine List.ne_nil_of_mem (a := (channel, range)) (List.mem_filter.mpr
    ⟨SortedMap.lookup_eq_some_iff.mp hr, ?_⟩)
  simpa [hc] using hlt

theorem frame_no_gaps (h : FrameConnects c page) :
    (c.newFor page).filter (fun x => (c.store.cursor x.1).getD 0 < x.2.fromCursor) = [] := by
  refine List.filter_eq_nil_iff.mpr fun x hx => ?_
  obtain ⟨current, hc, hle⟩ := h.reaches x.1 x.2
    (SortedMap.lookup_eq_some_iff.mpr (List.mem_of_mem_filter hx))
  simpa [hc] using hle

/-- A connecting frame is judged by the pulls first and then applied in one transaction. -/
theorem receive_frame (h : FrameConnects c page) : c.receiveDownlink e page none =
    if (c.pulls.stale page.froms).1 then
      (.ok { continues := (page.cursors.entries.filter (·.2.continues)).map (·.1) },
        { c with pulls := (c.pulls.stale page.froms).2 })
    else
      let (result, c') := ({ c with pulls := (c.pulls.stale page.froms).2 } : Client).commit
        (e.applyCurrentPage c.store page)
      (result.map fun report => {
        disposition := .applied
        continues := (page.cursors.entries.filter (·.2.continues)).map (·.1), report }, c') := by
  have hgaps := frame_no_gaps h
  have hnew := newFor_ne_nil h
  have hok : (do
      page.validate
      ensure ((none : Option PullRequest).all (answers page)) "response does not match pull request" :
        Except String Unit) = .ok () := by
    rw [h.valid]; rfl
  unfold Client.receiveDownlink
  rw [hok]
  simp only
  split
  · rfl
  · have hgaps' : (Client.newFor { c with pulls := (c.pulls.stale page.froms).2 } page).filter
        (fun x => (c.store.cursor x.1).getD 0 < x.2.fromCursor) = [] := hgaps
    have hnew' : Client.newFor { c with pulls := (c.pulls.stale page.froms).2 } page ≠ [] := hnew
    simp only [hgaps', hnew', List.map_nil, ne_eq, not_true_eq_false, ↓reduceIte]

/-- A connecting frame is applied exactly when no pull of an earlier subscription asked from its
    cursors, or one of the current did, and nothing blocks finishing its delivery. -/
theorem frameApplied_iff (h : Reachable e c) (hc : FrameConnects c page) :
    FrameApplied e c page ↔
      NoOldPull c.pulls page.froms ∧ DeliveryFinishes e c.store page.changes := by
  have hwf := wf_reachable h
  have hmove : (c.store.moved page).isEmpty = false := moved_isEmpty.mpr hc.moves
  have hgap : NoGap c.store page := fun channel range current hr hcur _ => by
    obtain ⟨current', hcur', hle⟩ := hc.reaches channel range hr
    obtain rfl : current = current' := Option.some.inj (hcur.symm.trans hcur')
    exact hle
  rw [FrameApplied, receive_frame hc, ← stale_eq_false, ← applyRecords_ok_iff hwf]
  cases hs : (c.pulls.stale page.froms).1 with
  | true =>
    simp only [↓reduceIte, Bool.true_eq_false, false_and, iff_false]
    rintro ⟨progress, c', heq, hd, -⟩
    obtain ⟨hp, -⟩ := Prod.mk.inj heq
    rw [← Except.ok.inj hp] at hd
    cases hd
  | false =>
    simp only [Bool.false_eq_true, ↓reduceIte, true_and]
    constructor
    · rintro ⟨progress, c', heq, -, -⟩
      cases ha : e.applyCurrentPage c.store page with
      | error m => rw [ha] at heq; cases heq
      | ok out =>
        obtain ⟨-, report1, st1, hr, -⟩ := (applyCurrentPage_moves hmove).mp ha
        exact ⟨_, hr⟩
    · rintro ⟨⟨report1, st1⟩, hr⟩
      have ha := (applyCurrentPage_moves hmove).mpr ⟨hgap, report1, st1, hr, rfl, rfl⟩
      refine ⟨_, ⟨st1.setCursors (c.store.moved page), (c.pulls.stale page.froms).2⟩,
        by rw [ha]; rfl, rfl, ?_⟩
      intro channel range current hrange hcur hlt
      change (st1.setCursors _).cursor channel = _
      rw [setCursors_cursor, moved_lookup.mpr ⟨range, current, hrange, hcur, hlt, rfl⟩]
      rfl

end Frames

section Sample
open Sample

theorem frameConnects_page {c : Client} {channel : String} {m n k : ℕ}
    {changes : List AuthorityRecord} (hv : (page channel m n changes).validate = .ok ())
    (hc : c.store.cursor channel = some k) (hle : m ≤ k) (hlt : k < n) :
    FrameConnects c (page channel m n changes) := by
  refine ⟨hv, fun ch range hr => ?_, (connects_page hv hc hle hlt).moves⟩
  have hl : ch = channel ∧ range = ⟨m, n, n⟩ := by
    simpa [page, SortedMap.ofList, SortedMap.lookup_insert, eq_comm] using hr
  obtain ⟨rfl, rfl⟩ := hl
  exact ⟨k, hc, hle⟩

/-- A frame after a pull that was answered. -/
theorem frameApplied_loose : FrameApplied loose
    (client loose [.setChannels [("c", true)], .pull, .applyPage (page "c" 0 1 [record "a" "x" 1])])
    (page "c" 1 2 [record "b" "y" 2]) :=
  (frameApplied_iff (client_reachable loose _)
    (frameConnects_page (by decide +kernel) (by decide +kernel) le_rfl (by decide))).mpr
    ⟨(stale_eq_false _ _).mp (by decide +kernel),
      (applyRecords_ok_iff (wf_reachable (client_reachable loose _))).mp
        (Except.exists_ok (by decide +kernel))⟩

/-- A frame from the cursor an unanswered pull asked from, before the channel was unsubscribed and
    subscribed again, is dropped as covered. -/
theorem not_frameApplied : ¬∀ (e : Engine) (c : Client), Reachable e c → ∀ page,
    FrameConnects c page → FrameApplied e c page := by
  intro h
  obtain ⟨progress, c', heq, hd, -⟩ := h loose (client loose [.setChannels [("c", true)], .pull,
      .setChannels [("c", false)], .setChannels [("c", true)]]) (client_reachable loose _)
    (page "c" 0 1 [record "a" "x" 1])
    (frameConnects_page (by decide +kernel) (by decide +kernel) le_rfl (by decide))
  have hcovered : ((client loose [.setChannels [("c", true)], .pull, .setChannels [("c", false)],
      .setChannels [("c", true)]]).receiveDownlink loose
      (page "c" 0 1 [record "a" "x" 1]) none).1.toOption.map (·.disposition) = some .covered := by
    decide +kernel
  rw [heq] at hcovered
  rw [Except.toOption, Option.map_some, hd] at hcovered
  cases hcovered

end Sample

end AheadSync
