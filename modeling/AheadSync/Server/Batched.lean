import AheadSync.Server.Accounting
import AheadSync.Server.Pull

/-! A pull that loads model by model answers what one that loads record by record does, when the
    loaders are pointwise on identities. -/

namespace AheadSync
variable {b : Backend} {host : PullHost} {owner : String} {request : PullRequest}

namespace Backend

section Batch
variable {model : String} {version : ℕ} {contract : Schema} {loaded : Loaded}

theorem matched_eq_some {n : ℕ} {rows : List (Option Value)} :
    loaded.matched n = some rows ↔ loaded = .rows rows ∧ rows.length = n := by
  cases loaded with
  | rows answered =>
    simp only [Loaded.matched, Option.ite_none_right_eq_some, Option.some.injEq, Loaded.rows.injEq]
    exact ⟨fun ⟨h, heq⟩ => ⟨heq, heq ▸ h⟩, fun ⟨heq, h⟩ => ⟨heq ▸ h, heq⟩⟩
  | refused => simp [Loaded.matched]
  | failed => simp [Loaded.matched]

theorem loadOne_eq_ok {key : RecordKey} {o : Except String Value} :
    b.loadOne host owner version contract key = .ok o ↔
      ∃ one, host.callLoad ⟨key.model, version, [key.identity], owner⟩ = .ok one ∧
        b.answerOne contract key.model one = o := by
  simp [Backend.loadOne]

/-- A call that was answered without a row for each record is made again for each of them; of one
    record it says what it answered. -/
theorem loadBatch_unmatched {keys : List RecordKey}
    (hl : host.callLoad ⟨model, version, keys.map (·.identity), owner⟩ = .ok loaded)
    (hm : loaded.matched keys.length = none) :
    b.loadBatch host owner model version contract keys =
      if keys.length = 1 then .ok [b.answerOne contract model loaded]
      else keys.mapM (b.loadOne host owner version contract) := by
  rw [Backend.loadBatch, hl, Except.ok_bind]
  cases loaded with
  | rows rows =>
    have hlen : rows.length ≠ keys.length := by simpa [Loaded.matched] using hm
    simp only [hlen, if_false]
    split
    · rename_i hone
      rw [hone] at hlen
      match rows, hlen with
      | [], _ => rfl
      | _ :: _ :: _, _ => rfl
    · rfl
  | refused => rfl
  | failed => rfl

/-- With a pointwise loader, one call for the records of a model gives what a call for each does. -/
theorem loadBatch_iff (hp : host.Pointwise) {keys : List RecordKey} (hne : keys ≠ [])
    (hm : ∀ key ∈ keys, key.model = model) {os : List (Except String Value)} :
    b.loadBatch host owner model version contract keys = .ok os ↔
      keys.mapM (b.loadOne host owner version contract) = .ok os := by
  have hids : keys.map (·.identity) ≠ [] := by simpa using hne
  cases hl : host.callLoad ⟨model, version, keys.map (·.identity), owner⟩ with
  | error err =>
    refine iff_of_false ?_ fun h => ?_
    · rw [Backend.loadBatch, hl]
      exact nofun
    · -- one of the records is thrown back alone
      obtain ⟨i, hi, err', hthrown⟩ := (hp.thrown _ _ _ _ hids).mp ⟨err, hl⟩
      obtain ⟨key, hk, rfl⟩ := List.mem_map.mp hi
      obtain ⟨o, -, ho⟩ := List.forall₂_mem_left (List.mapM_eq_ok_iff.mp h) hk
      obtain ⟨one, hone, -⟩ := loadOne_eq_ok.mp ho
      rw [hm key hk, hthrown] at hone
      cases hone
  | ok loaded =>
    cases hmt : loaded.matched keys.length with
    | none =>
      rw [loadBatch_unmatched hl hmt]
      split
      · rename_i hone
        obtain ⟨key, rfl⟩ := List.length_eq_one_iff.mp hone
        have hk := hm key (List.mem_singleton.mpr rfl)
        have halone : b.loadOne host owner version contract key =
            .ok (b.answerOne contract model loaded) := by
          rw [loadOne_eq_ok, hk]
          exact ⟨loaded, hl, rfl⟩
        rw [List.mapM_cons, List.mapM_nil, halone]
        exact Iff.rfl
      · rfl
    | some rows =>
      have halone := (hp.matched _ _ _ _ _ hl rows).mp (by rw [List.length_map]; exact hmt)
      obtain ⟨rfl, hlen⟩ := matched_eq_some.mp hmt
      have hbatch : b.loadBatch host owner model version contract keys =
          .ok (rows.map (b.normalizeRow contract model)) := by
        rw [Backend.loadBatch, hl, Except.ok_bind]
        simp only [hlen, if_true]
        rfl
      have heach : keys.mapM (b.loadOne host owner version contract) =
          .ok (rows.map (b.normalizeRow contract model)) := by
        rw [List.mapM_eq_ok_iff, List.forall₂_map_right_iff]
        rw [List.forall₂_map_left_iff] at halone
        have hboth := (List.forall₂_and_left (p := (·.model = model)) keys rows).mpr ⟨hm, halone⟩
        refine hboth.imp fun key row ⟨hk, one, hone, hrow⟩ => ?_
        obtain ⟨rfl, -⟩ := matched_eq_some.mp hrow
        rw [loadOne_eq_ok, hk]
        exact ⟨_, hone, rfl⟩
      rw [hbatch, heach]

end Batch

section Models
variable {states states' : States}

theorem loadAlone_eq {version : ℕ} {contract : Schema} {key : RecordKey}
    (hs : b.servedAt request key.model = .ok (version, contract)) :
    b.loadAlone host owner request key = b.loadOne host owner version contract key := by
  rw [Backend.loadAlone, hs, Except.ok_bind]

/-- A changed record with the outcome of loading it alone. -/
def Alone (b : Backend) (host : PullHost) (owner : String) (request : PullRequest)
    (e : String × RecordKey) (o : Except String Value) : Prop :=
  b.loadAlone host owner request e.2 = .ok o

/-- With a pointwise loader, loading a model records what loading its records alone gives. -/
theorem loadModel_iff (hp : host.Pointwise) {group : String × List (String × RecordKey)}
    (hne : group.2 ≠ []) (hm : ∀ e ∈ group.2, e.2.model = group.1) :
    b.loadModel host owner request states group = .ok states' ↔
      ∃ os, List.Forall₂ (Alone b host owner request) group.2 os ∧
        (group.2.zip os).foldl (fun states e => states.insert e.1.1 e.2) states = states' := by
  have hserved : (∀ v, b.servedAt request group.1 ≠ .ok v) → ∀ e ∈ group.2, ∀ o,
      ¬Alone b host owner request e o := by
    intro hnot e he o h
    simp only [Alone, Backend.loadAlone, Except.bind_eq_ok, hm e he] at h
    obtain ⟨v, hv, -⟩ := h
    exact hnot v hv
  cases hs : b.servedAt request group.1 with
  | error err =>
    refine iff_of_false ?_ ?_
    · rw [Backend.loadModel, hs]
      intro h
      cases h
    · rintro ⟨os, hall, -⟩
      obtain ⟨e, he⟩ := List.exists_mem_of_ne_nil _ hne
      obtain ⟨o, -, ho⟩ := List.forall₂_mem_left hall he
      exact hserved (by simp [hs]) e he o ho
  | ok served =>
    obtain ⟨version, contract⟩ := served
    have hkeys : ∀ key ∈ group.2.map (·.2), key.model = group.1 := by
      intro key hk
      obtain ⟨e, he, rfl⟩ := List.mem_map.mp hk
      exact hm e he
    have halone : ∀ os, (group.2.map (·.2)).mapM (b.loadOne host owner version contract) = .ok os ↔
        List.Forall₂ (Alone b host owner request) group.2 os := by
      intro os
      rw [List.mapM_eq_ok_iff, List.forall₂_map_left_iff]
      have heq : ∀ e ∈ group.2, b.loadAlone host owner request e.2 =
          b.loadOne host owner version contract e.2 :=
        fun e he => loadAlone_eq (by rw [hm e he, hs])
      constructor
      · intro h
        exact ((List.forall₂_and_left _ _).mpr ⟨heq, h⟩).imp fun e o h => h.1.trans h.2
      · intro h
        exact ((List.forall₂_and_left _ _).mpr ⟨heq, h⟩).imp fun e o h => h.1.symm.trans h.2
    simp only [Backend.loadModel, hs, Except.ok_bind, Except.bind_eq_ok, Except.pure_eq_ok,
      loadBatch_iff hp (by simpa using hne) hkeys, halone]

/-- The groups of the changed records by model. -/
abbrev groups (es : List (String × RecordKey)) : SortedMap String (List (String × RecordKey)) :=
  SortedMap.group (fun e => e.2.model) es

/-- Loading all models succeeds when each record can be loaded alone. -/
theorem loadModels_ok (hp : host.Pointwise) {es : List (String × RecordKey)}
    (h : ∀ e ∈ es, ∃ o, Alone b host owner request e o) :
    ∃ states, (groups es).entries.foldlM (b.loadModel host owner request) .empty = .ok states := by
  obtain ⟨states, hstates, -⟩ := List.foldlM_ok_of (fun _ => True)
    (f := b.loadModel host owner request) (l := (groups es).entries) (s := .empty)
    (fun states group hg _ => by
      obtain ⟨hne, hmem⟩ := SortedMap.mem_group hg
      obtain ⟨os, hos⟩ := List.mapM_ok_iff.mpr fun e he => h e ((hmem e).mp he).1
      rw [List.mapM_eq_ok_iff] at hos
      exact ⟨_, (loadModel_iff hp hne fun e he => ((hmem e).mp he).2).mpr ⟨os, hos, rfl⟩, trivial⟩)
    trivial
  exact ⟨states, hstates⟩

/-- The entry a loaded record leaves. -/
abbrev loadedEntry (e : (String × RecordKey) × Except String Value) : String × Except String Value :=
  (e.1.1, e.2)

/-- When loading a model records what is related to each of its records, loading all models records
    for each changed record what is related to it. -/
theorem loadModels_each {R : String × RecordKey → Except String Value → Prop}
    {es : List (String × RecordKey)} (hnd : (es.map Prod.fst).Nodup)
    (hone : ∀ group ∈ (groups es).entries, ∀ states states',
      b.loadModel host owner request states group = .ok states' →
        ∃ os, List.Forall₂ R group.2 os ∧
          (group.2.zip os).foldl (fun states e => states.insert e.1.1 e.2) states = states')
    (h : (groups es).entries.foldlM (b.loadModel host owner request) .empty = .ok states) :
    ∀ e ∈ es, ∃ o, R e o ∧ states.lookup e.1 = some o := by
  obtain ⟨hsound, hall⟩ := List.foldlM_ok_establishes
    (fun states : States => ∀ k o, states.lookup k = some o → ∃ e ∈ es, e.1 = k ∧ R e o)
    (Q := fun states group => group ∈ (groups es).entries →
      ∀ e ∈ group.2, (states.lookup e.1).isSome)
    (fun s group t hg hs ht => by
      obtain ⟨hne, hmem⟩ := SortedMap.mem_group hg
      obtain ⟨os, hos, rfl⟩ := hone group hg s t ht
      refine ⟨fun k o hk => ?_, fun _ e he => ?_, fun b hb hbg e he => ?_⟩
      · rcases SortedMap.lookup_merge loadedEntry hk with hk | ⟨⟨e, o'⟩, he, heq⟩
        · exact hs k o hk
        · obtain ⟨rfl, rfl⟩ := Prod.mk.inj heq
          exact ⟨e, ((hmem e).mp (List.of_mem_zip he).1).1, rfl, List.forall₂_zip hos he⟩
      · refine SortedMap.isSome_merge loadedEntry (Or.inr ?_)
        have hfst : (group.2.zip os).map Prod.fst = group.2 := List.map_fst_zip hos.length_eq.le
        obtain ⟨x, hx, hxe⟩ := List.mem_map.mp (hfst.symm ▸ he : e ∈ (group.2.zip os).map Prod.fst)
        exact List.mem_map.mpr ⟨x, hx, by rw [← hxe]⟩
      · exact SortedMap.isSome_merge loadedEntry (Or.inl (hb hbg e he)))
    (fun k o hk => by cases hk) (fun b hb hbg => absurd hbg hb) h
  intro e he
  obtain ⟨g, hg, heg⟩ := SortedMap.exists_group (f := fun e : String × RecordKey => e.2.model) he
  obtain ⟨o, ho⟩ := Option.isSome_iff_exists.mp (hall _ hg e heg)
  obtain ⟨e', he', hkey, hR⟩ := hsound _ _ ho
  obtain rfl : e' = e := List.inj_on_of_nodup_map hnd he' he hkey
  exact ⟨o, hR, ho⟩

/-- With pointwise loaders that is what loading it alone gives. -/
theorem loadModels_spec (hp : host.Pointwise) {es : List (String × RecordKey)}
    (hnd : (es.map Prod.fst).Nodup)
    (h : (groups es).entries.foldlM (b.loadModel host owner request) .empty = .ok states) :
    ∀ e ∈ es, ∃ o, Alone b host owner request e o ∧ states.lookup e.1 = some o :=
  loadModels_each hnd (fun group hg states states' hone => by
    obtain ⟨hne, hmem⟩ := SortedMap.mem_group hg
    exact (loadModel_iff hp hne fun e he => ((hmem e).mp he).2).mp hone) h

end Models

section Scans
variable {records records' : Scanned} {rows : List ScanRow}

/-- The key of a scanned row's record. -/
def RowKey (b : Backend) (row : ScanRow) (key : RecordKey) : Prop :=
  b.config.schema.recordKey b.codecs row.model row.identity = .ok key

/-- The changed records gather the rows of the scans: each row's record is there, at the greatest
    stamp of its rows. -/
structure Gathers (b : Backend) (rows : List ScanRow) (records : Scanned) : Prop where
  covered : ∀ row ∈ rows, ∃ key e, RowKey b row key ∧
    records.lookup (key.encoded b.codecs) = some e ∧ row.stamp ≤ e.2
  sound : ∀ encoded e, records.lookup encoded = some e → e.1.encoded b.codecs = encoded ∧
    (∃ row ∈ rows, RowKey b row e.1) ∧
    ∃ row ∈ rows, ∃ key, RowKey b row key ∧ key.encoded b.codecs = encoded ∧ row.stamp = e.2

theorem scanRow_gathers {channel : String} {head : ℕ} {previous : ℕ} {row : ScanRow}
    {out : ℕ × Scanned} (hg : Gathers b rows records)
    (h : b.scanRow channel head (previous, records) row = .ok out) :
    Gathers b (rows ++ [row]) out.2 := by
  simp only [Backend.scanRow, Except.bind_eq_ok, ensure_eq_ok, Except.mapError_eq_ok,
    Except.pure_eq_ok] at h
  obtain ⟨-, -, -, -, key, hkey, -, -, rfl⟩ := h
  have hlast : row ∈ rows ++ [row] := List.mem_append_right _ (List.mem_singleton.mpr rfl)
  constructor
  · intro row' hrow'
    rcases List.mem_append.mp hrow' with hrow' | hrow'
    · obtain ⟨key', e, hkey', he, hle⟩ := hg.covered row' hrow'
      by_cases hk : key'.encoded b.codecs = key.encoded b.codecs
      · refine ⟨key', _, hkey', by rw [SortedMap.lookup_insert, if_pos hk], ?_⟩
        rw [← hk, he]
        exact hle.trans (le_max_left ..)
      · exact ⟨key', e, hkey', by rw [SortedMap.lookup_insert, if_neg hk, he], hle⟩
    · obtain rfl := List.mem_singleton.mp hrow'
      exact ⟨key, _, hkey, SortedMap.lookup_insert_self .., le_max_right ..⟩
  · intro encoded e he
    have hkeep : ∀ {P : ScanRow → Prop}, (∃ r ∈ rows, P r) → ∃ r ∈ rows ++ [row], P r := by
      rintro P ⟨r, hr, h⟩
      exact ⟨r, List.mem_append_left _ hr, h⟩
    rw [SortedMap.lookup_insert] at he
    split at he
    · rename_i hk
      obtain rfl := Option.some.inj he
      cases hl : records.lookup (key.encoded b.codecs) with
      | none =>
        exact ⟨hk.symm, ⟨row, hlast, hkey⟩, row, hlast, key, hkey, hk.symm, (max_self _).symm⟩
      | some e =>
        obtain ⟨henc, hrow, r, hr, k, hk', hke, hstamp⟩ := hg.sound _ _ hl
        refine ⟨henc.trans hk.symm, hkeep hrow, ?_⟩
        rcases max_choice e.2 row.stamp with hmax | hmax
        · exact ⟨r, List.mem_append_left _ hr, k, hk', hke.trans hk.symm, hstamp.trans hmax.symm⟩
        · exact ⟨row, hlast, key, hkey, hk.symm, hmax.symm⟩
    · obtain ⟨henc, hrow, r⟩ := hg.sound _ _ he
      exact ⟨henc, hkeep hrow, hkeep r⟩

theorem scanRows_gathers {channel : String} {head : ℕ} : ∀ {more rows : List ScanRow}
    {acc out : ℕ × Scanned}, Gathers b rows acc.2 →
      more.foldlM (b.scanRow channel head) acc = .ok out → Gathers b (rows ++ more) out.2
  | [], rows, acc, out, hg, h => by
    obtain rfl : acc = out := by simpa using h
    rwa [List.append_nil]
  | row :: more, rows, acc, out, hg, h => by
    simp only [List.foldlM_cons, Except.bind_eq_ok] at h
    obtain ⟨mid, hmid, h⟩ := h
    have := scanRows_gathers (scanRow_gathers hg hmid) h
    rwa [List.append_assoc] at this

/-- The rows the scans of some channels answered, in their order. -/
def Answered (host : PullHost) : List (String × ℕ) → List ScanRow → Prop
  | [], rows => rows = []
  | asked :: rest, rows => ∃ first others, host.scan asked.1 asked.2 pullChanges = .ok first ∧
      Answered host rest others ∧ rows = first ++ others

theorem scanChannels_gathers : ∀ {asked : List (String × ℕ)} {rows : List ScanRow}
    {acc out : SortedMap String CursorRange × Scanned}, Gathers b rows acc.2 →
      asked.foldlM (b.scanChannel host) acc = .ok out →
        ∃ more, Answered host asked more ∧ Gathers b (rows ++ more) out.2
  | [], rows, acc, out, hg, h => by
    obtain rfl : acc = out := by simpa using h
    exact ⟨[], rfl, by rwa [List.append_nil]⟩
  | a :: asked, rows, acc, out, hg, h => by
    simp only [List.foldlM_cons, Except.bind_eq_ok] at h
    obtain ⟨mid, hmid, h⟩ := h
    simp only [Backend.scanChannel, Except.bind_eq_ok, Except.pure_eq_ok] at hmid
    obtain ⟨head, -, -, -, first, hfirst, -, -, ⟨previous, found⟩, hfound, rfl⟩ := hmid
    obtain ⟨others, hothers, hout⟩ := scanChannels_gathers (scanRows_gathers hg hfound) h
    exact ⟨first ++ others, ⟨first, others, hfirst, hothers, rfl⟩, by rwa [← List.append_assoc]⟩

end Scans

/-- What a call for one record alone tells of it in a page: no row is the state null, a row that the
    served contract accepts is its normalized state, and anything else is the code of its failure. -/
def ReadAlone (b : Backend) (contract : Schema) (model : String) (r : AuthorityRecord) : Loaded → Prop
  | .rows [none] => r.error = none ∧ r.state = .null
  | .rows [some row] =>
    (∀ state, contract.normalizeState b.codecs model row = .ok state →
      r.error = none ∧ r.state = state) ∧
    ∀ m, contract.normalizeState b.codecs model row = .error m →
      r.error = some "loader.invalid" ∧ r.state = .null
  | .rows _ => r.error = some "loader.invalid" ∧ r.state = .null
  | .refused rejection => r.error = some rejection ∧ r.state = .null
  | .failed _ => r.error = some "loader.failed" ∧ r.state = .null

/-- What a page says of a changed record, at its stamp: what a call of the loader for it alone tells,
    at the version its model is declared at. -/
structure Tells (b : Backend) (host : PullHost) (owner : String) (request : PullRequest)
    (e : String × (RecordKey × ℕ)) (r : AuthorityRecord) : Prop where
  key : r.key = e.2.1
  stamp : r.stamp = e.2.2
  read : ∃ version contract one, request.models.lookup e.2.1.model = some version ∧
    b.config.contract e.2.1.model version = some contract ∧
    host.callLoad ⟨e.2.1.model, version, [e.2.1.identity], owner⟩ = .ok one ∧
    ReadAlone b contract e.2.1.model r one

@[simp] theorem pageChange_model {key : RecordKey} {stamp : ℕ} (o : Option (Except String Value)) :
    (pageChange key stamp o).model = key.model := by
  rcases o with _ | _ | _ <;> rfl

@[simp] theorem pageChange_identity {key : RecordKey} {stamp : ℕ}
    (o : Option (Except String Value)) : (pageChange key stamp o).identity = key.identity := by
  rcases o with _ | _ | _ <;> rfl

@[simp] theorem pageChange_stamp {key : RecordKey} {stamp : ℕ} (o : Option (Except String Value)) :
    (pageChange key stamp o).stamp = stamp := by
  rcases o with _ | _ | _ <;> rfl

@[simp] theorem pageChange_key {key : RecordKey} {stamp : ℕ} (o : Option (Except String Value)) :
    (pageChange key stamp o).key = key := by
  rw [AuthorityRecord.key, pageChange_model, pageChange_identity]

theorem readAlone_answerOne {contract : Schema} {model : String} {key : RecordKey} {stamp : ℕ}
    (one : Loaded) :
    ReadAlone b contract model (pageChange key stamp (some (b.answerOne contract model one))) one := by
  rcases one with rows | rejection | message
  · rcases rows with _ | ⟨_ | row, _ | ⟨other, rest⟩⟩
    · exact ⟨rfl, rfl⟩
    · exact ⟨rfl, rfl⟩
    · exact ⟨rfl, rfl⟩
    · refine ⟨?_, ?_⟩
      · intro state h
        simp [Backend.answerOne, Backend.normalizeRow, h, pageChange, Except.mapError]
      · intro m h
        simp [Backend.answerOne, Backend.normalizeRow, h, pageChange, Except.mapError]
    · exact ⟨rfl, rfl⟩
  · exact ⟨rfl, rfl⟩
  · exact ⟨rfl, rfl⟩

theorem tells_pageChange {e : String × (RecordKey × ℕ)} {o : Except String Value}
    (h : b.loadAlone host owner request e.2.1 = .ok o) :
    Tells b host owner request e (pageChange e.2.1 e.2.2 (some o)) := by
  simp only [Backend.loadAlone, Backend.servedAt, Except.bind_eq_ok, required_eq_ok,
    Except.pure_eq_ok] at h
  obtain ⟨-, ⟨version, hversion, contract, hcontract, rfl⟩, h⟩ := h
  obtain ⟨one, hone, rfl⟩ := loadOne_eq_ok.mp h
  exact ⟨pageChange_key _, pageChange_stamp _, version, contract, one, hversion, hcontract, hone,
    readAlone_answerOne one⟩

/-- An accepted pull: its scans, its changes and the checks of its page. -/
theorem processPull_eq_ok {page : PullPage} : b.processPull host owner request = .ok page ↔
    b.acceptPull owner request = .ok () ∧ ∃ records states,
      b.scanChannels host request = .ok (page.cursors, records) ∧
      (groups (records.entries.map fun e => (e.1, e.2.1))).entries.foldlM
        (b.loadModel host owner request) .empty = .ok states ∧
      page.changes = (records.entries.map fun e => pageChange e.2.1 e.2.2 (states.lookup e.1)) ∧
      page.validate = .ok () := by
  obtain ⟨cursors, changes⟩ := page
  simp only [Backend.processPull, Except.bind_eq_ok, Except.mapError_eq_ok, Except.pure_eq_ok,
    PullPage.mk.injEq]
  constructor
  · rintro ⟨_, haccept, ⟨cursors', records⟩, hscan, states, hstates, _, hv, rfl, rfl⟩
    exact ⟨haccept, records, states, hscan, hstates, rfl, hv⟩
  · rintro ⟨haccept, records, states, hscan, hstates, rfl, hv⟩
    exact ⟨(), haccept, _, hscan, states, hstates, (), hv, rfl, rfl⟩

theorem processPullAlone_eq_ok {page : PullPage} :
    b.processPullAlone host owner request = .ok page ↔
    b.acceptPull owner request = .ok () ∧ ∃ records,
      b.scanChannels host request = .ok (page.cursors, records) ∧
      List.Forall₂ (fun e r => ∃ o, b.loadAlone host owner request e.2.1 = .ok o ∧
        pageChange e.2.1 e.2.2 (some o) = r) records.entries page.changes ∧
      page.validate = .ok () := by
  obtain ⟨cursors, changes⟩ := page
  simp only [Backend.processPullAlone, Except.bind_eq_ok, Except.mapError_eq_ok, Except.pure_eq_ok,
    PullPage.mk.injEq, List.mapM_eq_ok_iff]
  constructor
  · rintro ⟨_, haccept, ⟨cursors', records⟩, hscan, changes', hchanges, _, hv, rfl, rfl⟩
    exact ⟨haccept, records, hscan, hchanges, hv⟩
  · rintro ⟨haccept, records, hscan, hchanges, hv⟩
    exact ⟨(), haccept, _, hscan, changes, hchanges, (), hv, rfl, rfl⟩

/-- With loaders that are pointwise on identities, a pull answers the page that loading each record
    in a call of its own does: each changed record, at the greatest stamp the scans gave it, with its
    own state where it can be read alone and with the code of its failure where it cannot. The
    cursor ranges are the same whatever the loaders answer. -/
theorem processPull_alone (hp : host.Pointwise) (page : PullPage) :
    (b.processPull host owner request = .ok page ↔
      b.processPullAlone host owner request = .ok page) ∧
    (b.processPull host owner request = .ok page →
      (∃ rows records, Answered host request.cursors.entries rows ∧ Gathers b rows records ∧
        List.Forall₂ (Tells b host owner request) records.entries page.changes) ∧
      ∀ load page', b.processPull { host with load } owner request = .ok page' →
        page'.cursors = page.cursors) := by
  have hiff : b.processPull host owner request = .ok page ↔
      b.processPullAlone host owner request = .ok page := by
    rw [processPull_eq_ok, processPullAlone_eq_ok]
    refine and_congr_right fun _ => exists_congr fun records => ?_
    have hfst : ((records.entries.map fun e => (e.1, e.2.1)).map Prod.fst) = records.keys := by
      rw [List.map_map]
      rfl
    have hnd := hfst ▸ records.nodup_keys
    constructor
    · rintro ⟨states, hscan, hstates, hchanges, hv⟩
      refine ⟨hscan, ?_, hv⟩
      rw [hchanges, List.forall₂_map_right_iff, List.forall₂_same]
      intro e he
      obtain ⟨o, ho, hl⟩ := loadModels_spec hp hnd hstates _ (List.mem_map.mpr ⟨e, he, rfl⟩)
      exact ⟨o, ho, by rw [hl]⟩
    · rintro ⟨hscan, hchanges, hv⟩
      have halone : ∀ e ∈ records.entries.map fun e => (e.1, e.2.1),
          ∃ o, Alone b host owner request e o := by
        intro e he
        obtain ⟨e', he', rfl⟩ := List.mem_map.mp he
        obtain ⟨r, -, o, ho, -⟩ := List.forall₂_mem_left hchanges he'
        exact ⟨o, ho⟩
      obtain ⟨states, hstates⟩ := loadModels_ok hp halone
      refine ⟨states, hscan, hstates, ?_, hv⟩
      have hall := (List.forall₂_and_left (p := (· ∈ records.entries)) _ _).mpr
        ⟨fun _ => id, hchanges⟩
      rw [← List.forall₂_eq_eq_eq, List.forall₂_map_right_iff]
      refine (hall.imp fun e r h => ?_).flip
      obtain ⟨he, o, ho, rfl⟩ := h
      obtain ⟨o', ho', hl⟩ := loadModels_spec hp hnd hstates _ (List.mem_map.mpr ⟨e, he, rfl⟩)
      show pageChange e.2.1 e.2.2 (some o) = pageChange e.2.1 e.2.2 (states.lookup e.1)
      rw [hl, Except.ok.inj (ho'.symm.trans ho)]
  refine ⟨hiff, fun h => ⟨?_, fun load page' h' => ?_⟩⟩
  · obtain ⟨-, records, hscan, hchanges, -⟩ := processPullAlone_eq_ok.mp (hiff.mp h)
    have hnone : Gathers b [] ((.empty, .empty) : SortedMap String CursorRange × Scanned).2 :=
      ⟨nofun, nofun⟩
    obtain ⟨rows, hrows, hg⟩ := scanChannels_gathers hnone hscan
    refine ⟨rows, records, hrows, hg, hchanges.imp ?_⟩
    rintro e r ⟨o, ho, rfl⟩
    exact tells_pageChange ho
  · obtain ⟨-, records, -, hscan, -⟩ := processPull_eq_ok.mp h
    obtain ⟨-, records', -, hscan', -⟩ := processPull_eq_ok.mp h'
    exact (Prod.mk.inj (Except.ok.inj (hscan'.symm.trans hscan))).1

end Backend

namespace Sample

/-- A channel with two changed records; the loader refuses every call for the second. -/
def counterHost : PullHost where
  head _ := .ok 2
  scan channel _ _ := .ok ([("a", 1), ("b", 2)].map fun (id, cursor) =>
    { channel, cursor, model := "Item", identity := (stock id).identity
      identityKey := canonicalJson codecs (stock id).identity, stamp := cursor + 4 })
  load request :=
    if (stock "b").identity ∈ request.identities then .ok (.refused "stock.hidden")
    else .ok (.rows (request.identities.map fun _ => none))

def asking : PullRequest where
  models := .ofList [("Item", 1)]
  cursors := .ofList [("c", 0)]

end Sample

open Sample

/-- What the loader answers. -/
theorem callLoad_counterHost (r : LoadRequest) : counterHost.callLoad r = .ok
    (if (stock "b").identity ∈ r.identities then .refused "stock.hidden"
      else .rows (r.identities.map fun _ => none)) := by
  have hcode : (Loaded.refused "stock.hidden").validate = .ok () :=
    Except.eq_ok_of_toOption (by decide +kernel)
  unfold PullHost.callLoad counterHost
  dsimp only
  split
  · rw [Except.ok_bind, hcode]
    rfl
  · rfl

theorem counterHost_pointwise : counterHost.Pointwise := by
  constructor
  · intro model version owner identities _
    simp [callLoad_counterHost]
  · intro model version owner identities loaded h rows
    obtain rfl := Except.ok.inj ((callLoad_counterHost _).symm.trans h)
    have hone : ∀ (i : Value) (row : Option Value), (∃ one,
        counterHost.callLoad ⟨model, version, [i], owner⟩ = .ok one ∧ one.matched 1 = some [row]) ↔
          i ≠ (stock "b").identity ∧ row = none := by
      intro i row
      simp only [callLoad_counterHost, Except.ok.injEq, exists_eq_left', List.mem_singleton]
      by_cases hi : i = (stock "b").identity
      · simp [hi, Loaded.matched]
      · simp [hi, Ne.symm hi, Loaded.matched, eq_comm]
    simp only [hone]
    split
    · rename_i hb
      refine iff_of_false (by simp [Loaded.matched]) fun hall => ?_
      obtain ⟨row, -, hne, -⟩ := List.forall₂_mem_left hall hb
      exact hne rfl
    · rename_i hb
      have hpair : ∀ {i : Value} {row : Option Value}, i ∈ identities →
          (i ≠ (stock "b").identity ∧ row = none ↔ none = row) :=
        fun hi => ⟨fun h => h.2.symm, fun h => ⟨fun heq => hb (heq ▸ hi), h.symm⟩⟩
      rw [Backend.matched_eq_some, Loaded.rows.injEq, ← List.forall₂_eq_eq_eq,
        List.forall₂_map_left_iff]
      constructor
      · rintro ⟨hall, -⟩
        exact ((List.forall₂_and_left (p := (· ∈ identities)) _ _).mpr ⟨fun _ => id, hall⟩).imp
          fun _ _ h => (hpair h.1).mpr h.2
      · intro hall
        exact ⟨hall.imp fun _ _ h => h.2.symm, hall.length_eq.symm⟩

/-- The first record is answered, and the second becomes an error change. -/
theorem processPull_alone_counter : ∃ page,
    shop.processPull counterHost "ann" asking = .ok page ∧
    shop.processPullAlone counterHost "ann" asking = .ok page ∧
    page.changes = [⟨"Item", (stock "a").identity, 5, .null, none⟩,
      ⟨"Item", (stock "b").identity, 6, .null, some "stock.hidden"⟩] := by
  obtain ⟨page, h⟩ := Except.exists_ok
    (show (shop.processPull counterHost "ann" asking).isOk = true by decide +kernel)
  have hchanges : (shop.processPull counterHost "ann" asking).toOption.map (·.changes) =
      some [⟨"Item", (stock "a").identity, 5, .null, none⟩,
        ⟨"Item", (stock "b").identity, 6, .null, some "stock.hidden"⟩] := by decide +kernel
  rw [h] at hchanges
  exact ⟨page, h, (Backend.processPull_alone counterHost_pointwise page).1.mp h,
    Option.some.inj hchanges⟩

end AheadSync
