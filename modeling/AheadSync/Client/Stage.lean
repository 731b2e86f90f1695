import AheadSync.Client.Rebuild

/-! What staging an authoritative record does on a well-formed store: it replaces the truth of the
    record, and of the cascade descendants of a deleted one, and stores the stamp, or it leaves the
    store as it was. -/

namespace AheadSync

namespace Store
variable (st : Store)

/-- Replace the last known server state of a record. -/
def setTruth (key : RecordKey) (row : Option Value) : Store :=
  if st.dirty key then { st with before := st.before.put key row }
  else { st with main := st.main.put key row }

/-- Replace the truth of several records by their absence. -/
def eraseTruth (keys : List RecordKey) : Store := keys.foldl (fun st k => st.setTruth k none) st

/-- The store after a record landed with its cascade. -/
def landed (key : RecordKey) (row : Option Value) (found : List RecordKey) (stamp : ℕ) : Store :=
  ((st.setTruth key row).eraseTruth found).setRecordStamp key stamp

end Store

section Truth
variable {e : Engine} {st : Store} {key k : RecordKey} {row : Option Value} {keys : List RecordKey}

@[simp] theorem setTruth_queue : (st.setTruth key row).queue = st.queue := by
  unfold Store.setTruth; split <;> rfl

@[simp] theorem setTruth_stamps : (st.setTruth key row).stamps = st.stamps := by
  unfold Store.setTruth; split <;> rfl

@[simp] theorem setTruth_dirty : (st.setTruth key row).dirty k = st.dirty k := by
  simp [Store.dirty]

theorem truth_setTruth : (st.setTruth key row).truth k = if k = key then row else st.truth k := by
  unfold Store.truth
  rw [setTruth_dirty]
  unfold Store.setTruth
  by_cases hk : k = key
  · subst hk
    cases hd : st.dirty k <;> simp
  · cases hd : st.dirty key <;> simp [hk]

theorem main_setTruth : (st.setTruth key row).main.lookup k =
    if k = key ∧ st.dirty key = false then row else st.main.lookup k := by
  unfold Store.setTruth
  cases hd : st.dirty key <;> simp [AList.lookup_put]

theorem before_setTruth : (st.setTruth key row).before.lookup k =
    if k = key ∧ st.dirty key = true then row else st.before.lookup k := by
  unfold Store.setTruth
  cases hd : st.dirty key <;> simp [AList.lookup_put]

/-- What staging leaves alone: everything but the rows. -/
theorem setTruth_frame (st : Store) (key : RecordKey) (row : Option Value) : ∃ main before, st.setTruth key row =
    { st with main := main, before := before } := by
  unfold Store.setTruth
  split
  · exact ⟨st.main, _, rfl⟩
  · exact ⟨_, st.before, rfl⟩

theorem wf_setTruth (h : Wf e st) (hk : Named e key) (hr : RowFor e key row) :
    Wf e (st.setTruth key row) := by
  unfold Store.setTruth
  split
  · exact wf_before h (rowsOk_put h.before hk hr)
  · exact wf_main h (rowsOk_put h.main hk hr)

theorem eraseTruth_cons : st.eraseTruth (key :: keys) = (st.setTruth key none).eraseTruth keys := rfl

@[simp] theorem eraseTruth_queue : ∀ {keys : List RecordKey} {st : Store},
    (st.eraseTruth keys).queue = st.queue
  | [], _ => rfl
  | key :: keys, st => by rw [eraseTruth_cons, eraseTruth_queue, setTruth_queue]

@[simp] theorem eraseTruth_stamps : ∀ {keys : List RecordKey} {st : Store},
    (st.eraseTruth keys).stamps = st.stamps
  | [], _ => rfl
  | key :: keys, st => by rw [eraseTruth_cons, eraseTruth_stamps, setTruth_stamps]

theorem eraseTruth_frame : ∀ (keys : List RecordKey) (st : Store), ∃ main before,
    st.eraseTruth keys = { st with main := main, before := before }
  | [], st => ⟨st.main, st.before, rfl⟩
  | key :: keys, st => by
    obtain ⟨m, b, h⟩ := setTruth_frame st key none
    obtain ⟨m', b', h'⟩ := eraseTruth_frame keys (st.setTruth key none)
    exact ⟨m', b', by rw [eraseTruth_cons, h', h]⟩

theorem truth_eraseTruth : ∀ {keys : List RecordKey} {st : Store},
    (st.eraseTruth keys).truth k = if k ∈ keys then none else st.truth k
  | [], st => by simp [Store.eraseTruth]
  | key :: keys, st => by
    rw [eraseTruth_cons, truth_eraseTruth, truth_setTruth]
    simp only [List.mem_cons]
    split_ifs <;> simp_all

theorem dirty_of_queue {st st' : Store} (h : st'.queue = st.queue) : st'.dirty k = st.dirty k := by
  rw [Store.dirty, Store.dirty, h]

theorem opsFor_of_queue {st st' : Store} (h : st'.queue = st.queue) :
    st'.opsFor k = st.opsFor k := by
  rw [Store.opsFor, Store.opsFor, h]

theorem main_eraseTruth : ∀ {keys : List RecordKey} {st : Store},
    (st.eraseTruth keys).main.lookup k =
      if k ∈ keys ∧ st.dirty k = false then none else st.main.lookup k
  | [], st => by simp [Store.eraseTruth]
  | key :: keys, st => by
    rw [eraseTruth_cons, main_eraseTruth, setTruth_dirty, main_setTruth]
    by_cases hk : k = key
    · subst hk
      cases st.dirty k <;> simp
    · simp [hk]

theorem before_eraseTruth : ∀ {keys : List RecordKey} {st : Store},
    (st.eraseTruth keys).before.lookup k =
      if k ∈ keys ∧ st.dirty k = true then none else st.before.lookup k
  | [], st => by simp [Store.eraseTruth]
  | key :: keys, st => by
    rw [eraseTruth_cons, before_eraseTruth, setTruth_dirty, before_setTruth]
    by_cases hk : k = key
    · subst hk
      cases st.dirty k <;> simp
    · simp [hk]

theorem wf_eraseTruth : ∀ {keys : List RecordKey} {st : Store}, Wf e st →
    (∀ k ∈ keys, Named e k) → Wf e (st.eraseTruth keys)
  | [], _, h, _ => h
  | key :: keys, st, h, hk => by
    rw [eraseTruth_cons]
    exact wf_eraseTruth (wf_setTruth h (hk key (List.mem_cons_self ..)) rowFor_none)
      fun k hmem => hk k (List.mem_cons_of_mem _ hmem)

end Truth

section Landed
variable {st : Store} {key k : RecordKey} {row : Option Value} {found : List RecordKey} {stamp : ℕ}

@[simp] theorem landed_queue : (st.landed key row found stamp).queue = st.queue := by
  simp [Store.landed, Store.setRecordStamp]

theorem landed_stamp : (st.landed key row found stamp).recordStamp k =
    if k = key then stamp else st.recordStamp k := by
  simp only [Store.landed, Store.setRecordStamp, Store.recordStamp, eraseTruth_stamps,
    setTruth_stamps]
  split
  · rename_i h; subst h; simp
  · rename_i h; simp [h]

theorem landed_truth : (st.landed key row found stamp).truth k =
    if k ∈ found then none else if k = key then row else st.truth k := by
  rw [← truth_setTruth, ← truth_eraseTruth]
  rfl

theorem landed_main : (st.landed key row found stamp).main.lookup k =
    if k ∈ found ∧ st.dirty k = false then none
    else if k = key ∧ st.dirty key = false then row else st.main.lookup k := by
  rw [← main_setTruth, ← @setTruth_dirty st key k row, ← main_eraseTruth]
  rfl

theorem landed_before : (st.landed key row found stamp).before.lookup k =
    if k ∈ found ∧ st.dirty k = true then none
    else if k = key ∧ st.dirty key = true then row else st.before.lookup k := by
  rw [← before_setTruth, ← @setTruth_dirty st key k row, ← before_eraseTruth]
  rfl

theorem landed_frame : ∃ main before stamps, st.landed key row found stamp =
    { st with main := main, before := before, stamps := stamps } := by
  obtain ⟨m, b, h⟩ := setTruth_frame st key row
  obtain ⟨m', b', h'⟩ := eraseTruth_frame found (st.setTruth key row)
  exact ⟨m', b', _, by rw [Store.landed, h', h]; rfl⟩

theorem wf_landed {e : Engine} (h : Wf e st) (hk : Named e key) (hr : RowFor e key row)
    (hf : ∀ k ∈ found, Named e k) : Wf e (st.landed key row found stamp) :=
  wf_of_eq (wf_eraseTruth (wf_setTruth h hk hr) hf) rfl rfl rfl le_rfl

end Landed

section Held
variable {e : Engine} {k key : RecordKey}

@[simp] theorem mem_hold : ∀ {held : Held}, k ∈ e.hold key held ↔ k = key ∨ k ∈ held
  | [] => by simp [Engine.hold]
  | k' :: held => by
    have ih := @mem_hold held
    unfold Engine.hold
    split
    · rename_i h; subst h; simp
    · split
      · simp
      · simp only [List.mem_cons, ih]; tauto

@[simp] theorem mem_holdAll : ∀ {keys : List RecordKey} {held : Held},
    k ∈ e.holdAll held keys ↔ k ∈ held ∨ k ∈ keys
  | [], held => by simp [Engine.holdAll]
  | key :: keys, held => by
    have ih : k ∈ e.holdAll (e.hold key held) keys ↔ _ := mem_holdAll
    simp only [Engine.holdAll, List.foldl_cons] at ih ⊢
    rw [ih, mem_hold, List.mem_cons]
    tauto

end Held

section Staging
variable {e : Engine} {st : Store} {held : Held} {key k : RecordKey} {row : Option Value}
  {r : AuthorityRecord} {found keys : List RecordKey}

/-- The held records after staging `keys`: those of them that are dirty join. -/
def heldAfter (e : Engine) (st : Store) (held : Held) (keys : List RecordKey) : Held :=
  keys.foldl (fun held k => if st.dirty k then e.hold k held else held) held

theorem mem_heldAfter : ∀ {keys : List RecordKey} {held : Held},
    k ∈ heldAfter e st held keys ↔ k ∈ held ∨ (k ∈ keys ∧ st.dirty k = true)
  | [], held => by simp [heldAfter]
  | key :: keys, held => by
    have ih : k ∈ heldAfter e st (if st.dirty key then e.hold key held else held) keys ↔ _ :=
      mem_heldAfter
    simp only [heldAfter, List.foldl_cons] at ih ⊢
    rw [ih]
    by_cases hk : k = key
    · subst hk
      cases hd : st.dirty k <;> simp
    · cases hd : st.dirty key <;> simp [hk]

theorem stageOne_eq_ok (hk : Named e key) (hr : RowFor e key row)
    {out : Store × Held} : e.stageOne st held key row = .ok out ↔
      (st.dirty key = true ∨ ¬Duplicate e st key row) ∧
        out = (st.setTruth key row, heldAfter e st held [key]) := by
  unfold Engine.stageOne
  cases hd : st.dirty key with
  | true =>
    simp only [↓reduceIte, Except.bind_eq_ok, beforeSet_eq_ok hk hr, Except.pure_eq_ok, true_or,
      true_and, exists_eq_left, Store.setTruth, hd, heldAfter, List.foldl_cons, List.foldl_nil]
    exact eq_comm
  | false =>
    simp only [Bool.false_eq_true, ↓reduceIte, Except.bind_eq_ok, mainSet_eq_ok hk hr,
      Except.pure_eq_ok, false_or, Store.setTruth, hd, heldAfter, List.foldl_cons, List.foldl_nil]
    constructor
    · rintro ⟨_, ⟨hdup, rfl⟩, rfl⟩
      exact ⟨hdup, rfl⟩
    · rintro ⟨hdup, rfl⟩
      exact ⟨_, ⟨hdup, rfl⟩, rfl⟩

/-- Staging the deletions of a cascade always succeeds. -/
theorem stageCascade : ∀ {found : List RecordKey} {st : Store} (held : Held), Wf e st →
    (∀ k ∈ found, Named e k) →
    found.foldlM (fun (st, held) child =>
        (e.stageOne st held child none).mapError (·, held)) (st, held) =
      (.ok (st.eraseTruth found, heldAfter e st held found) : Except (String × Held) _)
  | [], _, _, _, _ => rfl
  | key :: found, st, held, h, hf => by
    have hk := hf key (List.mem_cons_self ..)
    have h1 : e.stageOne st held key none =
        .ok (st.setTruth key none, heldAfter e st held [key]) :=
      (stageOne_eq_ok hk rowFor_none).mpr ⟨Or.inr not_duplicate_none, rfl⟩
    have hrest := stageCascade (heldAfter e st held [key]) (wf_setTruth h hk rowFor_none)
      fun k hmem => hf k (List.mem_cons_of_mem _ hmem)
    rw [List.foldlM_cons]
    change (do let x ← (e.stageOne st held key none).mapError (·, held); _) = _
    rw [h1]
    refine hrest.trans ?_
    simp [eraseTruth_cons, heldAfter]

/-- A record that lands: its identity and state are accepted, it is newer, the visible table admits
    it where it goes there, and `found` is the cascade of a deletion. -/
structure Landing (e : Engine) (st : Store) (r : AuthorityRecord) (key : RecordKey)
    (row : Option Value) (found : List RecordKey) : Prop where
  noError : r.error = none
  identity : e.recordKey r.model r.identity = .ok key
  content : e.incomingRow key r = .ok row
  newer : st.recordStamp key < r.stamp
  admitted : st.dirty key = true ∨ ¬Duplicate e st key row
  cascade : e.cascadeOf (st.setTruth key row) key row = .ok found

theorem incomingRow_rowFor (hk : e.recordKey r.model r.identity = .ok key)
    (h : e.incomingRow key r = .ok row) : RowFor e key row := by
  unfold Engine.incomingRow at h
  split at h
  · cases h; exact rowFor_none
  · simp only [Except.bind_eq_ok, Except.pure_eq_ok] at h
    obtain ⟨v, hv, rfl⟩ := h
    obtain ⟨model, _, hm, -⟩ := state_spec hv
    exact rowFor_some (by rw [recordKey_model hk]; exact hm) (rowOk_mergeIdentity hm hk hv)

theorem cascade_named (h : Wf e st) (hc : e.cascadeOf st key row = .ok found) :
    ∀ k ∈ found, Named e k ∧ Canonical e k := by
  intro k hk
  unfold Engine.cascadeOf at hc
  split at hc
  · have := (mem_descendants h hc hk).1
    exact ⟨named_of_canonical this, this⟩
  · cases hc; cases hk

theorem stageNewer_eq_ok (h : Wf e st) (hk : e.recordKey r.model r.identity = .ok key)
    (hr : e.incomingRow key r = .ok row) {out : Store × Held} :
    e.stageNewer st held key row r.stamp = .ok out ↔
      (st.dirty key = true ∨ ¬Duplicate e st key row) ∧ ∃ found,
        e.cascadeOf (st.setTruth key row) key row = .ok found ∧
        out = (st.landed key row found r.stamp, heldAfter e st held (key :: found)) := by
  have hn := recordKey_named hk
  have hrow := incomingRow_rowFor hk hr
  have hwf := wf_setTruth h hn hrow
  simp only [Engine.stageNewer, Except.bind_eq_ok, Except.mapError_eq_ok, Except.pure_eq_ok,
    stageOne_eq_ok hn hrow]
  constructor
  · rintro ⟨_, ⟨hadm, rfl⟩, found, hf, ⟨st2, held2⟩, h2, rfl⟩
    rw [stageCascade _ hwf fun k hmem => (cascade_named hwf hf k hmem).1] at h2
    obtain ⟨rfl, rfl⟩ := Prod.mk.inj (Except.ok.inj h2)
    exact ⟨hadm, found, hf, by simp [Store.landed, heldAfter]⟩
  · rintro ⟨hadm, found, hf, rfl⟩
    refine ⟨_, ⟨hadm, rfl⟩, found, hf, _,
      stageCascade _ hwf fun k hmem => (cascade_named hwf hf k hmem).1, ?_⟩
    simp [Store.landed, heldAfter]

/-- A record that lands is staged with its cascade. -/
theorem stageIsolated_landing (h : Wf e st) (hl : Landing e st r key row found) :
    e.stageIsolated st held r =
      ⟨st.landed key row found r.stamp, heldAfter e st held (key :: found), true, none⟩ := by
  have hnew : e.stageNewer st held key row r.stamp =
      .ok (st.landed key row found r.stamp, heldAfter e st held (key :: found)) :=
    (stageNewer_eq_ok h hl.identity hl.content).mpr ⟨hl.admitted, found, hl.cascade, rfl⟩
  have hnlt : ¬r.stamp < st.recordStamp key := by have := hl.newer; omega
  have hne : r.stamp ≠ st.recordStamp key := by have := hl.newer; omega
  have hst : e.stageAuthority st held r =
      .ok (.applied, st.landed key row found r.stamp, heldAfter e st held (key :: found)) := by
    simp [Engine.stageAuthority, hl.identity, hl.content, Except.mapError, hnlt, hne, hnew, pure, Except.pure]
  simp [Engine.stageIsolated, hl.noError, hst]

/-- Staging a record that does not land writes nothing; at most its own key joins the held ones. -/
theorem stageAuthority_cases (h : Wf e st) (held : Held) (r : AuthorityRecord) : (∃ d st' held', e.stageAuthority st held r =
      .ok (d, st', held') ∧ ((d = .applied ∧ ∃ key row found, r.error = none →
        Landing e st r key row found) ∨ (d ≠ .applied ∧ st' = st ∧ held' = held ∧
          ∃ key, e.recordKey r.model r.identity = .ok key ∧ r.stamp ≤ st.recordStamp key))) ∨
    ∃ message held', e.stageAuthority st held r = .error (message, held') ∧
      (held' = held ∨ ∃ key, e.recordKey r.model r.identity = .ok key ∧
        held' = heldAfter e st held [key]) := by
  unfold Engine.stageAuthority
  cases hk : e.recordKey r.model r.identity with
  | error m => exact Or.inr ⟨m, held, rfl, Or.inl rfl⟩
  | ok key =>
    cases hr : e.incomingRow key r with
    | error m => exact Or.inr ⟨m, held, by simp [Except.mapError, hr], Or.inl rfl⟩
    | ok row =>
      simp only [Except.mapError, Except.ok_bind, hr]
      split
      · exact Or.inl ⟨_, _, _, rfl, Or.inr ⟨nofun, rfl, rfl, key, rfl, by omega⟩⟩
      · rename_i hlt
        split
        · rename_i heq
          refine Or.inl ⟨_, _, _, rfl, Or.inr ⟨?_, rfl, rfl, key, rfl, by omega⟩⟩
          split <;> exact nofun
        · rename_i hne
          cases hs : e.stageNewer st held key row r.stamp with
          | ok out =>
            obtain ⟨hadm, found, hf, -⟩ := (stageNewer_eq_ok h hk hr).mp hs
            exact Or.inl ⟨_, _, _, rfl, Or.inl ⟨rfl, key, row, found, fun hno =>
              ⟨hno, hk, hr, by omega, hadm, hf⟩⟩⟩
          | error err =>
            refine Or.inr ⟨err.1, err.2, rfl, ?_⟩
            unfold Engine.stageNewer at hs
            cases h1 : e.stageOne st held key row with
            | error m =>
              rw [h1] at hs
              cases hs
              exact Or.inl rfl
            | ok out =>
              obtain ⟨-, rfl⟩ := (stageOne_eq_ok (recordKey_named hk)
                (incomingRow_rowFor hk hr)).mp h1
              rw [h1] at hs
              cases h2 : e.cascadeOf (st.setTruth key row) key row with
              | error m =>
                simp only [Except.mapError, Except.ok_bind, h2] at hs
                cases hs
                exact Or.inr ⟨key, rfl, rfl⟩
              | ok found =>
                have hwf := wf_setTruth h (recordKey_named hk) (incomingRow_rowFor hk hr)
                simp only [Except.mapError, Except.ok_bind, h2] at hs
                have h3 := stageCascade (heldAfter e st held [key]) hwf
                  fun k hmem => (cascade_named hwf h2 k hmem).1
                simp only [Except.mapError] at h3
                rw [h3] at hs
                cases hs

/-- A record that does not land writes nothing, and is reported unless it is not newer. -/
theorem stageIsolated_refused (h : Wf e st) (held : Held) (hno : ¬∃ key row found, Landing e st r key row found) :
    (e.stageIsolated st held r).store = st ∧ (e.stageIsolated st held r).applied = false ∧
      (∀ k ∈ (e.stageIsolated st held r).held,
        k ∈ held ∨ (e.recordKey r.model r.identity = .ok k ∧ st.dirty k = true)) ∧
      (∀ k ∈ held, k ∈ (e.stageIsolated st held r).held) ∧
      ((e.stageIsolated st held r).entry = none →
        ∃ key, e.recordKey r.model r.identity = .ok key ∧ r.stamp ≤ st.recordStamp key) := by
  unfold Engine.stageIsolated
  cases herr : r.error with
  | some code => exact ⟨rfl, rfl, fun k hk => Or.inl hk, fun k hk => hk, nofun⟩
  | none =>
    rcases stageAuthority_cases h held r with
      ⟨d, st', held', heq, ⟨rfl, key, row, found, hl⟩ | ⟨hd, rfl, rfl, hkey⟩⟩ | ⟨m, held', heq, hheld⟩
    · exact absurd ⟨key, row, found, hl herr⟩ hno
    · rw [heq]
      cases d with
      | applied => exact absurd rfl hd
      | older => exact ⟨rfl, rfl, fun k hk => Or.inl hk, fun k hk => hk, fun _ => hkey⟩
      | same => exact ⟨rfl, rfl, fun k hk => Or.inl hk, fun k hk => hk, fun _ => hkey⟩
      | conflict l i => exact ⟨rfl, rfl, fun k hk => Or.inl hk, fun k hk => hk, fun _ => hkey⟩
    · rw [heq]
      refine ⟨rfl, rfl, fun k hk => ?_, fun k hk => ?_, nofun⟩
      · rcases hheld with rfl | ⟨key, hkey, rfl⟩
        · exact Or.inl hk
        · rcases mem_heldAfter.mp hk with hk | ⟨hk, hd⟩
          · exact Or.inl hk
          · rw [List.mem_singleton.mp hk] at hd ⊢
            exact Or.inr ⟨hkey, hd⟩
      · rcases hheld with rfl | ⟨key, hkey, rfl⟩
        · exact hk
        · exact mem_heldAfter.mpr (Or.inl hk)

end Staging

section Delivery
variable {e : Engine} {st st' st'' : Store} {held held' held'' : Held} {k : RecordKey}

/-- What staging a delivery may do: replace truths, beneath the queue for the records it holds, and
    raise stamps. -/
structure Stages (e : Engine) (st : Store) (held : Held) (st' : Store) (held' : Held) : Prop where
  frame : ∃ main before stamps, st' = { st with main := main, before := before, stamps := stamps }
  wf : Wf e st'
  grows : ∀ k ∈ held, k ∈ held'
  new : ∀ k ∈ held', k ∈ held ∨ (Named e k ∧ st.dirty k = true)
  before : ∀ k, k ∉ held' → st'.before.lookup k = st.before.lookup k
  main : ∀ k, st.dirty k = true → st'.main.lookup k = st.main.lookup k
  clean : ∀ k, st.dirty k = false → st'.before.lookup k = st.before.lookup k
  stamps : ∀ k, st.recordStamp k ≤ st'.recordStamp k

theorem Stages.queue (h : Stages e st held st' held') : st'.queue = st.queue := by
  obtain ⟨_, _, _, h⟩ := h.frame
  rw [h]

theorem Stages.dirty (h : Stages e st held st' held') : st'.dirty k = st.dirty k :=
  dirty_of_queue h.queue

theorem stages_refl (h : Wf e st) : Stages e st held st held where
  frame := ⟨_, _, _, rfl⟩
  wf := h
  grows := fun _ h => h
  new := fun _ h => Or.inl h
  before := fun _ _ => rfl
  main := fun _ _ => rfl
  clean := fun _ _ => rfl
  stamps := fun _ => le_rfl

theorem stages_trans (h : Stages e st held st' held') (h' : Stages e st' held' st'' held'') :
    Stages e st held st'' held'' where
  frame := by
    obtain ⟨m, b, s, h⟩ := h.frame
    obtain ⟨m', b', s', h'⟩ := h'.frame
    exact ⟨m', b', s', by rw [h', h]⟩
  wf := h'.wf
  grows := fun k hk => h'.grows k (h.grows k hk)
  new := fun k hk => by
    rcases h'.new k hk with hk | ⟨hn, hd⟩
    · exact h.new k hk
    · exact Or.inr ⟨hn, h.dirty (k := k) ▸ hd⟩
  before := fun k hk => (h'.before k hk).trans (h.before k fun hm => hk (h'.grows k hm))
  main := fun k hd => (h'.main k (h.dirty.trans hd)).trans (h.main k hd)
  clean := fun k hd => (h'.clean k (h.dirty.trans hd)).trans (h.clean k hd)
  stamps := fun k => (h.stamps k).trans (h'.stamps k)

/-- One record keeps within what a delivery may do. -/
theorem stages_step (h : Wf e st) (held : Held) (r : AuthorityRecord) :
    Stages e st held (e.stageIsolated st held r).store (e.stageIsolated st held r).held := by
  by_cases hl : ∃ key row found, Landing e st r key row found
  · obtain ⟨key, row, found, hl⟩ := hl
    have hn := recordKey_named hl.identity
    have hrow := incomingRow_rowFor hl.identity hl.content
    have hf := fun k hk => (cascade_named (wf_setTruth h hn hrow) hl.cascade k hk).1
    rw [stageIsolated_landing h hl]
    refine ⟨landed_frame, wf_landed h hn hrow hf, ?_, ?_, ?_, ?_, ?_, ?_⟩
    · exact fun k hk => mem_heldAfter.mpr (Or.inl hk)
    · intro k hk
      rcases mem_heldAfter.mp hk with hk | ⟨hk, hd⟩
      · exact Or.inl hk
      · refine Or.inr ⟨?_, hd⟩
        rcases List.mem_cons.mp hk with rfl | hk
        · exact hn
        · exact hf k hk
    · intro k hk
      rw [mem_heldAfter, not_or] at hk
      rw [landed_before, if_neg, if_neg]
      · rintro ⟨rfl, hd⟩; exact hk.2 ⟨List.mem_cons_self .., hd⟩
      · exact fun ⟨hm, hd⟩ => hk.2 ⟨List.mem_cons_of_mem _ hm, hd⟩
    · intro k hd
      rw [landed_main, if_neg (by simp [hd]), if_neg]
      rintro ⟨rfl, hd'⟩; simp [hd] at hd'
    · intro k hd
      rw [landed_before, if_neg (by simp [hd]), if_neg]
      rintro ⟨rfl, hd'⟩; simp [hd] at hd'
    · intro k
      rw [landed_stamp]
      split
      · rename_i heq; subst heq; exact hl.newer.le
      · exact le_rfl
  · obtain ⟨hst, -, hnew, hgrow, -⟩ := stageIsolated_refused h held hl
    refine ⟨⟨_, _, _, by rw [hst]⟩, by rw [hst]; exact h, hgrow, ?_, ?_, ?_, ?_, ?_⟩
    · intro k hk
      exact (hnew k hk).imp_right fun ⟨hk, hd⟩ => ⟨recordKey_named hk, hd⟩
    all_goals simp [hst]

/-- A delivery keeps within what a delivery may do. -/
theorem stages_all : ∀ (rs : List AuthorityRecord) {st : Store} (held : Held), Wf e st →
    Stages e st held (e.stageAll st held rs).1 (e.stageAll st held rs).2.1
  | [], _, _, h => stages_refl h
  | r :: rs, st, held, h => by
    have h1 := stages_step h held r
    exact stages_trans h1 (stages_all rs _ h1.wf)

end Delivery

end AheadSync
