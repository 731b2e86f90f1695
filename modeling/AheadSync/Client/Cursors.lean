import AheadSync.Client.Run

/-! The cursors of a client: which of them a page moves, and where they stand once it is applied. -/

namespace AheadSync

/-- Where a page takes the cursor of a channel, if it moves it. -/
def Store.goal (st : Store) (channel : String) (range : CursorRange) : Option ℕ :=
  (st.cursor channel).bind fun current =>
    if range.toCursor ≤ current then none else some range.toCursor

/-- The cursors a page moves. -/
def Store.moved (st : Store) (page : PullPage) : SortedMap String ℕ := page.cursors.filterMap st.goal

/-- No channel of the page starts beyond a cursor it moves. -/
def NoGap (st : Store) (page : PullPage) : Prop :=
  ∀ channel range current, page.cursors.lookup channel = some range →
    st.cursor channel = some current → current < range.toCursor → range.fromCursor ≤ current

section Moving
variable {e : Engine} {st st' : Store} {page : PullPage}

theorem goal_eq_some {channel : String} {range : CursorRange} {n : ℕ} :
    st.goal channel range = some n ↔
      ∃ current, st.cursor channel = some current ∧ current < range.toCursor ∧ n = range.toCursor := by
  simp only [Store.goal, Option.bind_eq_some_iff]
  refine exists_congr fun current => and_congr_right fun _ => ?_
  split
  · rename_i h; simp [not_lt.mpr h]
  · rename_i h; simp [not_le.mp h, eq_comm]

theorem moved_lookup {channel : String} {n : ℕ} : (st.moved page).lookup channel = some n ↔
    ∃ range current, page.cursors.lookup channel = some range ∧ st.cursor channel = some current ∧
      current < range.toCursor ∧ n = range.toCursor := by
  simp only [Store.moved, SortedMap.lookup_filterMap, Option.bind_eq_some_iff, goal_eq_some]
  constructor
  · rintro ⟨range, hr, current, h⟩; exact ⟨range, current, hr, h⟩
  · rintro ⟨range, current, hr, h⟩; exact ⟨range, hr, current, h⟩

theorem moving_fold : ∀ {es : List (String × CursorRange)} {acc moving : SortedMap String ℕ},
    es.foldlM (fun moving (channel, range) =>
      match st.cursor channel with
      | none => return moving
      | some current =>
        if range.toCursor ≤ current then return moving
        else if current < range.fromCursor then .error "pull cursor gap"
        else return moving.insert channel range.toCursor) acc = (.ok moving : Except String _) ↔
    (∀ x ∈ es, ∀ current, st.cursor x.1 = some current → current < x.2.toCursor →
      x.2.fromCursor ≤ current) ∧
    moving = (es.filterMap fun x => (st.goal x.1 x.2).map (x.1, ·)).foldl
      (fun m x => m.insert x.1 x.2) acc
  | [], acc, moving => by simp [pure, Except.pure, eq_comm]
  | (channel, range) :: es, acc, moving => by
    rw [List.foldlM_cons, Except.bind_eq_ok]
    simp only [List.mem_cons, forall_eq_or_imp, moving_fold, Store.goal, List.filterMap_cons]
    cases hc : st.cursor channel with
    | none => simp
    | some current =>
      by_cases hle : range.toCursor ≤ current
      · simp [hle, not_lt.mpr hle]
      · by_cases hgap : current < range.fromCursor
        · simp [hle, hgap, not_le.mp hle, not_le.mpr hgap]
        · simp [hle, hgap, not_lt.mp hgap]

/-- A page names the cursors it moves unless it leaves a gap before one of them. -/
theorem movingChannels_eq_ok {moving : SortedMap String ℕ} :
    st.movingChannels page = .ok moving ↔ NoGap st page ∧ moving = st.moved page := by
  have hsorted := (st.moved page).sorted
  have hfold : ((st.moved page).entries.foldl (fun m x => m.insert x.1 x.2) .empty) =
      st.moved page := SortedMap.ext_lookup fun k => by
    rw [SortedMap.lookup_foldl_insert hsorted]; simp
  refine (@moving_fold st _ _ _).trans (and_congr ?_ (by rw [← hfold]; rfl))
  constructor
  · exact fun h channel range current hr hc hlt =>
      h (channel, range) (SortedMap.lookup_eq_some_iff.mp hr) current hc hlt
  · exact fun h x hx current hc hlt =>
      h x.1 x.2 current (SortedMap.lookup_eq_some_iff.mpr hx) hc hlt

theorem setCursors_cursor {moving : SortedMap String ℕ} (channel : String) :
    (st.setCursors moving).cursor channel = (moving.lookup channel).or (st.cursor channel) := by
  have hfold : ∀ (es : List (String × ℕ)) (st : Store),
      (es.foldl (fun st e => Store.setCursor st e.1 e.2) st).subscriptions =
        es.foldl (fun m e => m.insert e.1 e.2) st.subscriptions := by
    intro es
    induction es with
    | nil => exact fun _ => rfl
    | cons x es ih => exact fun st => ih _
  rw [Store.cursor, Store.setCursors, hfold, SortedMap.lookup_foldl_insert moving.sorted]
  rfl

/-- A page is applied when it leaves no gap, moves a cursor and its records are applied. -/
theorem applyCurrentPage_moves (hmove : (st.moved page).isEmpty = false) {report : ApplyReport} :
    e.applyCurrentPage st page = .ok (report, st') ↔ NoGap st page ∧ ∃ report1 st1,
      e.applyRecords st page.changes = .ok (report1, st1) ∧
        report = { report1 with cursors := st.moved page } ∧
        st' = st1.setCursors (st.moved page) := by
  rw [applyCurrentPage_eq_ok]
  simp only [movingChannels_eq_ok]
  constructor
  · rintro ⟨_, ⟨hgap, rfl⟩, ⟨hempty, -⟩ | ⟨-, -, h⟩⟩
    · rw [hmove] at hempty; cases hempty
    · exact ⟨hgap, h⟩
  · rintro ⟨hgap, h⟩
    refine ⟨_, ⟨hgap, rfl⟩, Or.inr ⟨hmove, ?_, h⟩⟩
    rintro x hx goal hgoal ⟨-, hle⟩
    obtain ⟨range, current, hr, hc, hlt, rfl⟩ := moved_lookup.mp hgoal
    rw [hc, Option.getD_some] at hle
    omega

theorem moved_isEmpty : (st.moved page).isEmpty = false ↔ ∃ channel range current,
    page.cursors.lookup channel = some range ∧ st.cursor channel = some current ∧
      current < range.toCursor := by
  rw [SortedMap.isEmpty_eq_false]
  constructor
  · rintro ⟨channel, n, hn⟩
    obtain ⟨range, current, hr, hc, hlt, -⟩ := moved_lookup.mp hn
    exact ⟨channel, range, current, hr, hc, hlt⟩
  · rintro ⟨channel, range, current, hr, hc, hlt⟩
    exact ⟨channel, range.toCursor, moved_lookup.mpr ⟨range, current, hr, hc, hlt, rfl⟩⟩

end Moving

end AheadSync
