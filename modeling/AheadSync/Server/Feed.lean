import AheadSync.Core.Encoded
import AheadSync.Core.Messages
import AheadSync.Server.Batched
import Mathlib.Data.List.Sort

/-! What a pull reads of a server's tables (the `head` and `scan` of
    `packages/postgres/src/persistence.mts`), and the page it is answered with while they are held
    fixed: each channel moves to its head or past a full scan, and every record invalidated on the way
    is carried once, at its current stamp. -/

namespace AheadSync

namespace Tables
variable {D : Type} (t : Tables D)

/-- Stored counters are read in the safe range. -/
def safe (n : ℕ) : Except Failure ℕ := do
  ensure (n ≤ maxSafeInteger) (Failure.host "Stored counter outside safe range")
  return n

/-- The invalidations of a channel after a cursor, in cursor order. -/
def after (channel : String) (cursor : ℕ) : List (RecordKey × InvalidationRow) :=
  (t.invalidations.rows.filterMap fun e =>
    if e.1.1 = channel ∧ cursor < e.2.cursor then some (e.1.2, e.2) else none).insertionSort
    fun a b => a.2.cursor ≤ b.2.cursor

/-- A row of a scan, with its record's current stamp. -/
def scanned (c : Codecs) (channel : String) (e : RecordKey × InvalidationRow) :
    Except Failure ScanRow := do
  let stamp ← required (t.stamps.lookup e.1) (Failure.host ("Record metadata missing for " ++
    e.1.model ++ " " ++ canonicalJson c e.1.identity ++ " on channel " ++ channel))
  return { channel, cursor := ← safe e.2.cursor, model := e.1.model, identity := e.2.identity
           identityKey := canonicalJson c e.1.identity, stamp := ← safe stamp }

/-- `SCAN`: at most `limit` of them. -/
def scan (c : Codecs) (channel : String) (cursor limit : ℕ) : Except Failure (List ScanRow) :=
  ((t.after channel cursor).take limit).mapM (t.scanned c channel)

/-- The tables as a pull reads them, and the content through the loaders. -/
def reading (c : Codecs) (app : App D) : PullHost where
  head channel := safe (t.head channel)
  scan := t.scan c
  load request := ((app.load request t.content).mapError Failure.host).map (·.1)

/-- The invalidations of a channel that a page reaches from `cursor`. -/
def reached (channel : String) (cursor : ℕ) : List (RecordKey × InvalidationRow) :=
  (t.after channel cursor).take pullChanges

/-- A channel's progress in a page from `cursor`. -/
def range (channel : String) (cursor : ℕ) : CursorRange where
  fromCursor := cursor
  toCursor :=
    if (t.reached channel cursor).length = pullChanges then
      ((t.reached channel cursor).getLast?.map (·.2.cursor)).getD cursor
    else t.head channel
  head := t.head channel

/-- The row a scan answers for an invalidation of a record that has a stamp. -/
def row (c : Codecs) (channel : String) (e : RecordKey × InvalidationRow) : ScanRow where
  channel := channel
  cursor := e.2.cursor
  model := e.1.model
  identity := e.2.identity
  identityKey := canonicalJson c e.1.identity
  stamp := t.stamp e.1

/-- What a pull relies on in the tables: the accounts hold, counters are in the safe range and stamps
    positive, and every published record is of a loaded model, under its canonical identity. -/
structure Readable (b : Backend) (t : Tables D) : Prop where
  accounted : t.ledger.Accounted
  heads : ∀ channel, t.head channel ≤ maxSafeInteger
  stamps : ∀ key stamp, t.stamps.lookup key = some stamp → 0 < stamp ∧ stamp ≤ maxSafeInteger
  published : ∀ channel key row, t.invalidations.lookup (channel, key) = some row →
    key.model ∈ b.config.loaders ∧
      b.config.schema.recordKey b.codecs key.model row.identity = .ok key

end Tables

section After
variable {D : Type} {t : Tables D} {channel : String} {cursor : ℕ} {e : RecordKey × InvalidationRow}

theorem mem_after : e ∈ t.after channel cursor ↔
    t.invalidations.lookup (channel, e.1) = some e.2 ∧ cursor < e.2.cursor := by
  simp only [Tables.after, List.mem_insertionSort, List.mem_filterMap, Option.ite_none_right_eq_some,
    Option.some.injEq]
  constructor
  · rintro ⟨⟨⟨name, key⟩, row⟩, hmem, ⟨rfl, hlt⟩, rfl⟩
    exact ⟨AList.mem_rows.mp hmem, hlt⟩
  · rintro ⟨hrow, hlt⟩
    exact ⟨((channel, e.1), e.2), AList.mem_rows.mpr hrow, ⟨rfl, hlt⟩, rfl⟩

/-- A scan meets each record once. -/
theorem nodup_after : (t.after channel cursor).Nodup := by
  refine (List.perm_insertionSort _ _).nodup_iff.mpr ?_
  have hrows : t.invalidations.rows.Nodup := (AList.rows_keys_nodup _).of_map _
  refine hrows.filterMap fun x y e hx hy => ?_
  simp only [Option.mem_def, Option.ite_none_right_eq_some, Option.some.injEq] at hx hy
  obtain ⟨⟨hx, -⟩, rfl⟩ := hx
  obtain ⟨⟨hy, -⟩, heq⟩ := hy
  obtain ⟨hkey, hrow⟩ := Prod.mk.inj heq
  exact Prod.ext (Prod.ext (hx.trans hy.symm) hkey.symm) hrow.symm

/-- The accounts hold, so no two of its rows share a cursor. -/
theorem after_increasing (h : t.ledger.Accounted) :
    (t.after channel cursor).Pairwise fun a b => a.2.cursor < b.2.cursor := by
  have hsorted : (t.after channel cursor).Pairwise fun a b => a.2.cursor ≤ b.2.cursor :=
    List.pairwise_insertionSort _ _
  have hboth := hsorted.and nodup_after
  refine hboth.imp_of_mem fun {a b} ha hb hab => lt_of_le_of_ne hab.1 fun heq => hab.2 ?_
  have hentry : ∀ {x}, x ∈ t.after channel cursor →
      t.ledger.entry channel x.1 = some ⟨x.2.cursor, x.2.stamp⟩ := fun hx => by
    simp only [Tables.ledger, (mem_after.mp hx).1, Option.map_some]
  have hkey : a.1 = b.1 := h.distinct (hentry ha) (hentry hb) heq
  refine Prod.ext hkey (Option.some.inj ?_)
  rw [← (mem_after.mp ha).1, ← (mem_after.mp hb).1, hkey]

theorem mem_reached_after (h : e ∈ t.reached channel cursor) : e ∈ t.after channel cursor :=
  List.mem_of_mem_take h

/-- A page that does not fill up reaches every invalidation and the head; one that does reaches the
    last it takes. -/
theorem range_cases (t : Tables D) (channel : String) (cursor : ℕ) :
    (t.reached channel cursor = t.after channel cursor ∧
        (t.range channel cursor).toCursor = t.head channel) ∨
      ((t.reached channel cursor).length = pullChanges ∧ ∃ init last,
        t.reached channel cursor = init ++ [last] ∧
        (t.range channel cursor).toCursor = last.2.cursor) := by
  by_cases hfull : (t.reached channel cursor).length = pullChanges
  · right
    rcases List.eq_nil_or_concat (t.reached channel cursor) with hnil | ⟨init, last, hlast⟩
    · rw [hnil] at hfull
      cases hfull
    · rw [List.concat_eq_append] at hlast
      refine ⟨hfull, init, last, hlast, ?_⟩
      rw [Tables.range, if_pos hfull, hlast, List.getLast?_concat]
      rfl
  · left
    refine ⟨List.take_of_length_le ?_, if_neg hfull⟩
    rw [Tables.reached, List.length_take] at hfull
    omega

/-- What a page reaches are the invalidations up to where it takes the cursor. -/
theorem mem_reached (h : t.ledger.Accounted) : e ∈ t.reached channel cursor ↔
    t.invalidations.lookup (channel, e.1) = some e.2 ∧ cursor < e.2.cursor ∧
      e.2.cursor ≤ (t.range channel cursor).toCursor := by
  rw [← and_assoc, ← mem_after]
  have hsplit := List.take_append_drop pullChanges (t.after channel cursor)
  have hinc : (t.after channel cursor).Pairwise fun a b => a.2.cursor < b.2.cursor :=
    after_increasing h
  rcases range_cases t channel cursor with ⟨hall, hto⟩ | ⟨-, init, last, hlast, hto⟩
  · rw [hall, hto]
    refine (and_iff_left_of_imp fun he => ?_).symm
    exact h.heads (k := e.1) (e := ⟨e.2.cursor, e.2.stamp⟩) (by
      simp only [Tables.ledger, (mem_after.mp he).1, Option.map_some])
  · change t.reached channel cursor ++ _ = _ at hsplit
    rw [← hsplit, hlast, List.pairwise_append] at hinc
    obtain ⟨htaken, -, hrest⟩ := hinc
    obtain ⟨-, -, hinit⟩ := List.pairwise_append.mp htaken
    rw [hto]
    constructor
    · intro he
      refine ⟨mem_reached_after he, ?_⟩
      rw [hlast] at he
      rcases List.mem_append.mp he with he | he
      · exact (hinit _ he _ (List.mem_singleton.mpr rfl)).le
      · rw [List.mem_singleton.mp he]
    · rintro ⟨he, hle⟩
      rw [← hsplit] at he
      refine (List.mem_append.mp he).resolve_right fun hdrop => ?_
      have hlt := hrest last (List.mem_append_right _ (List.mem_singleton.mpr rfl)) e hdrop
      omega

theorem reached_length : (t.reached channel cursor).length ≤ pullChanges :=
  List.length_take_le ..

/-- A page moves the cursor towards the head: to it, or past a full scan. -/
theorem range_advances (h : t.ledger.Accounted) (hle : cursor ≤ t.head channel) :
    cursor ≤ (t.range channel cursor).toCursor ∧
      (t.range channel cursor).toCursor ≤ t.head channel ∧
      ((t.range channel cursor).toCursor = t.head channel ∨
        cursor < (t.range channel cursor).toCursor ∧
          (t.reached channel cursor).length = pullChanges) := by
  rcases range_cases t channel cursor with ⟨-, hto⟩ | ⟨hfull, init, last, hlast, hto⟩
  · exact ⟨hto ▸ hle, hto.le, Or.inl hto⟩
  · have hmem : last ∈ t.reached channel cursor := hlast ▸ by simp
    obtain ⟨hrow, hlt⟩ := mem_after.mp (mem_reached_after hmem)
    have hhead : last.2.cursor ≤ t.head channel :=
      h.heads (k := last.1) (e := ⟨last.2.cursor, last.2.stamp⟩) (by
        simp only [Tables.ledger, hrow, Option.map_some])
    rw [hto]
    exact ⟨hlt.le, hhead, Or.inr ⟨hlt, hfull⟩⟩

end After

section Reading
variable {D : Type} {b : Backend} {t : Tables D} {channel : String} {cursor : ℕ}

theorem safe_eq_ok {n m : ℕ} : Tables.safe n = .ok m ↔ n ≤ maxSafeInteger ∧ n = m := by
  simp [Tables.safe]

/-- A published record has a stamp. -/
theorem stamp_published (h : t.Readable b) {key : RecordKey} {row : InvalidationRow}
    (hrow : t.invalidations.lookup (channel, key) = some row) :
    t.stamps.lookup key = some (t.stamp key) ∧ 0 < t.stamp key ∧ t.stamp key ≤ maxSafeInteger := by
  obtain ⟨stamp, hstamp, -⟩ := h.accounted.stamps (c := channel) (k := key)
    (e := ⟨row.cursor, row.stamp⟩) (by simp only [Tables.ledger, hrow, Option.map_some])
  have hlookup : t.stamps.lookup key = some stamp := hstamp
  have heq : t.stamp key = stamp := by simp only [Tables.stamp, hlookup, Option.getD_some]
  rw [heq]
  exact ⟨hlookup, h.stamps key stamp hlookup⟩

theorem scan_eq (h : t.Readable b) (c : Codecs) : t.scan c channel cursor pullChanges =
    .ok ((t.reached channel cursor).map (t.row c channel)) := by
  refine List.mapM_eq_ok_of fun e he => ?_
  obtain ⟨hrow, -⟩ := mem_after.mp (mem_reached_after he)
  obtain ⟨hstamp, -, hsafe⟩ := stamp_published h hrow
  have hcursor : e.2.cursor ≤ maxSafeInteger :=
    (h.accounted.heads (k := e.1) (e := ⟨e.2.cursor, e.2.stamp⟩) (by
      simp only [Tables.ledger, hrow, Option.map_some])).trans (h.heads channel)
  simp only [Tables.scanned, hstamp, Except.bind_eq_ok, required_eq_ok, safe_eq_ok,
    Except.pure_eq_ok]
  exact ⟨_, rfl, _, ⟨hcursor, rfl⟩, _, ⟨hsafe, rfl⟩, rfl⟩

end Reading

section Scans
variable {D : Type} {b : Backend} {t : Tables D} {app : App D} {request : PullRequest}
  {channel : String}

/-- Each row of a scan is accepted after those before it. -/
theorem scanRows_rows (h : t.Readable b) : ∀ {es : List (RecordKey × InvalidationRow)}
    {acc : ℕ × Scanned}, (es.Pairwise fun x y => x.2.cursor < y.2.cursor) →
    (∀ e ∈ es, t.invalidations.lookup (channel, e.1) = some e.2 ∧ acc.1 < e.2.cursor) →
    ∃ records, (es.map (t.row b.codecs channel)).foldlM (b.scanRow channel (t.head channel)) acc =
      .ok ((es.getLast?.map (·.2.cursor)).getD acc.1, records)
  | [], acc, _, _ => ⟨acc.2, rfl⟩
  | e :: es, acc, hinc, hrows => by
    obtain ⟨hfirst, hinc⟩ := List.pairwise_cons.mp hinc
    obtain ⟨hrow, hlt⟩ := hrows e (List.mem_cons_self ..)
    obtain ⟨hloaded, hkey⟩ := h.published channel e.1 e.2 hrow
    have hhead : e.2.cursor ≤ t.head channel :=
      h.accounted.heads (k := e.1) (e := ⟨e.2.cursor, e.2.stamp⟩) (by
        simp only [Tables.ledger, hrow, Option.map_some])
    have hone : ∃ found, b.scanRow channel (t.head channel) acc (t.row b.codecs channel e) =
        .ok (e.2.cursor, found) := by
      simp only [Backend.scanRow, Except.bind_eq_ok, ensure_eq_ok, Except.mapError_eq_ok,
        Except.pure_eq_ok]
      exact ⟨_, (), ⟨rfl, hlt, hhead⟩, (), hloaded, e.1, hkey, (), rfl, rfl⟩
    obtain ⟨found, hfound⟩ := hone
    have hlater : ∀ x ∈ es, t.invalidations.lookup (channel, x.1) = some x.2 ∧
        (e.2.cursor, found).1 < x.2.cursor :=
      fun x hx => ⟨(hrows x (List.mem_cons_of_mem _ hx)).1, hfirst x hx⟩
    obtain ⟨records, hrest⟩ := scanRows_rows h hinc hlater
    refine ⟨records, ?_⟩
    rw [List.map_cons, List.foldlM_cons, hfound, Except.ok_bind, hrest, List.getLast?_cons]
    cases es.getLast? <;> rfl

/-- A channel within its head is scanned, and moves by its range. -/
theorem scanChannel_range (h : t.Readable b) {asked : String × ℕ} (hle : asked.2 ≤ t.head asked.1)
    (acc : SortedMap String CursorRange × Scanned) :
    ∃ records, b.scanChannel (t.reading b.codecs app) acc asked =
      .ok (acc.1.insert asked.1 (t.range asked.1 asked.2), records) := by
  have hinc : (t.reached asked.1 asked.2).Pairwise fun x y => x.2.cursor < y.2.cursor :=
    (after_increasing h.accounted).sublist (List.take_sublist pullChanges _)
  have hlater : ∀ e ∈ t.reached asked.1 asked.2,
      t.invalidations.lookup (asked.1, e.1) = some e.2 ∧ (asked.2, acc.2).1 < e.2.cursor :=
    fun e he => mem_after.mp (mem_reached_after he)
  obtain ⟨records, hrows⟩ := scanRows_rows h hinc hlater
  refine ⟨records, ?_⟩
  have hhead : (t.reading b.codecs app).head asked.1 = .ok (t.head asked.1) :=
    safe_eq_ok.mpr ⟨h.heads asked.1, rfl⟩
  have hscan : (t.reading b.codecs app).scan asked.1 asked.2 pullChanges =
      .ok ((t.reached asked.1 asked.2).map (t.row b.codecs asked.1)) := scan_eq h b.codecs
  rw [Backend.scanChannel, hhead, Except.ok_bind, (ensure_eq_ok (u := ())).mpr hle, Except.ok_bind,
    hscan, Except.ok_bind, (ensure_eq_ok (u := ())).mpr (by rw [List.length_map]; exact reached_length),
    Except.ok_bind]
  have hfold : ((t.reached asked.1 asked.2).map (t.row b.codecs asked.1)).foldlM
      (b.scanRow asked.1 (t.head asked.1)) (asked.2, acc.2) = .ok _ := hrows
  rw [hfold, Except.ok_bind, List.length_map]
  rfl

/-- So are all channels of a request within their heads. -/
theorem scanChannels_ranges (app : App D) (h : t.Readable b)
    (hle : ∀ e ∈ request.cursors.entries, e.2 ≤ t.head e.1) :
    ∃ records, b.scanChannels (t.reading b.codecs app) request =
      .ok (request.cursors.mapValues t.range, records) := by
  have hrange : ∀ (asked : String × ℕ), asked.2 ≤ t.head asked.1 →
      ∀ acc : SortedMap String CursorRange × Scanned, ∃ records,
        b.scanChannel (t.reading b.codecs app) acc asked =
          .ok (acc.1.insert asked.1 (t.range asked.1 asked.2), records) :=
    fun asked hasked => scanChannel_range h hasked
  obtain ⟨out, hout, -⟩ := List.foldlM_ok_of (fun _ => True)
    (f := b.scanChannel (t.reading b.codecs app)) (l := request.cursors.entries)
    (s := (.empty, .empty)) (fun acc asked hasked _ => by
      obtain ⟨records, hone⟩ := hrange asked (hle asked hasked) acc
      exact ⟨_, hone, trivial⟩) trivial
  have hmap := List.foldlM_ok_map
    (g := fun (m : SortedMap String CursorRange) (e : String × ℕ) => m.insert e.1 (t.range e.1 e.2))
    Prod.fst (fun acc asked next hstep => by
      have hasked : asked.2 ≤ t.head asked.1 := by
        simp only [Backend.scanChannel, Tables.reading, Except.bind_eq_ok, safe_eq_ok,
          ensure_eq_ok] at hstep
        obtain ⟨head, ⟨-, rfl⟩, -, hle, -⟩ := hstep
        exact hle
      obtain ⟨records, hone⟩ := hrange asked hasked acc
      rw [Except.ok.inj (hstep.symm.trans hone)]) hout
  refine ⟨out.2, hout.trans (congrArg Except.ok (Prod.ext ?_ rfl))⟩
  rw [hmap]
  refine SortedMap.ext_lookup fun name => ?_
  have hentries := SortedMap.lookup_foldl_insert (request.cursors.mapValues t.range).sorted
    (.empty : SortedMap String CursorRange) name
  rw [SortedMap.mapValues, List.foldl_map] at hentries
  rw [hentries, SortedMap.lookup_empty, Option.or_none]
  rfl

end Scans

section Records
variable {D : Type} {b : Backend} {t : Tables D} {app : App D} {request : PullRequest}
  {records : Scanned}

/-- A record a page that answers the request carries. -/
def Tables.Due (t : Tables D) (request : PullRequest) (key : RecordKey) : Prop :=
  ∃ channel cursor row, request.cursors.lookup channel = some cursor ∧
    (key, row) ∈ t.reached channel cursor

/-- The rows the scans of some channels answer. -/
theorem answered_rows (h : t.Readable b) : ∀ {asked : List (String × ℕ)} {rows : List ScanRow},
    Backend.Answered (t.reading b.codecs app) asked rows →
      rows = asked.flatMap (fun a => (t.reached a.1 a.2).map (t.row b.codecs a.1)) ∧
        rows.length ≤ pullChanges * asked.length
  | [], rows, hrows => by
    obtain rfl : rows = [] := hrows
    exact ⟨rfl, Nat.zero_le _⟩
  | a :: asked, rows, ⟨first, others, hfirst, hothers, heq⟩ => by
    obtain ⟨hrest, hlen⟩ := answered_rows h hothers
    obtain rfl : (t.reached a.1 a.2).map (t.row b.codecs a.1) = first :=
      Except.ok.inj ((scan_eq h b.codecs).symm.trans hfirst)
    have hone : (t.reached a.1 a.2).length ≤ pullChanges := reached_length
    refine ⟨by rw [heq, hrest, List.flatMap_cons], ?_⟩
    rw [heq, List.length_append, List.length_map, List.length_cons, Nat.mul_succ]
    omega

/-- The records the scans find are those due, each once and at its current stamp, and no more than
    the page has room for. -/
theorem scanned_records (h : t.Readable b) (ht : b.codecs.Tokens)
    {cursors : SortedMap String CursorRange}
    (hscan : b.scanChannels (t.reading b.codecs app) request = .ok (cursors, records)) :
    (∀ encoded e, records.lookup encoded = some e ↔
      t.Due request e.1 ∧ e.2 = t.stamp e.1 ∧ e.1.encoded b.codecs = encoded) ∧
    records.entries.length ≤ pullChanges * request.cursors.entries.length := by
  have hvalid := b.schema_valid
  have hnone : b.Gathers [] ((.empty, .empty) : SortedMap String CursorRange × Scanned).2 :=
    ⟨nofun, nofun⟩
  obtain ⟨rows, hrows, hg⟩ := Backend.scanChannels_gathers hnone hscan
  rw [List.nil_append] at hg
  obtain ⟨hflat, hlen⟩ := answered_rows h hrows
  -- the rows are those of the records that are due
  have hrow : ∀ row ∈ rows, ∃ key, t.Due request key ∧ row.stamp = t.stamp key ∧
      ∀ key', Backend.RowKey b row key' ↔ key' = key := by
    intro row hr
    rw [hflat, List.mem_flatMap] at hr
    obtain ⟨a, ha, hr⟩ := hr
    obtain ⟨e, he, rfl⟩ := List.mem_map.mp hr
    obtain ⟨-, hkey⟩ := h.published a.1 e.1 e.2 (mem_after.mp (mem_reached_after he)).1
    refine ⟨e.1, ⟨a.1, a.2, e.2, SortedMap.lookup_eq_some_iff.mpr ha, he⟩, rfl, fun key' => ?_⟩
    constructor
    · intro hk
      exact (Except.ok.inj (hkey.symm.trans hk)).symm
    · rintro rfl
      exact hkey
  have hdue : ∀ key, t.Due request key → ∃ row ∈ rows, Backend.RowKey b row key ∧
      row.stamp = t.stamp key := by
    rintro key ⟨channel, cursor, inv, hasked, hmem⟩
    obtain ⟨-, hkey⟩ := h.published channel key inv (mem_after.mp (mem_reached_after hmem)).1
    refine ⟨t.row b.codecs channel (key, inv), ?_, hkey, rfl⟩
    rw [hflat, List.mem_flatMap]
    exact ⟨(channel, cursor), SortedMap.lookup_eq_some_iff.mp hasked, List.mem_map_of_mem hmem⟩
  have hsound : ∀ encoded e, records.lookup encoded = some e →
      t.Due request e.1 ∧ e.2 = t.stamp e.1 ∧ e.1.encoded b.codecs = encoded := by
    intro encoded e he
    obtain ⟨henc, ⟨row, hr, hk⟩, row', hr', key', hk', henc', hstamp⟩ := hg.sound encoded e he
    obtain ⟨key, hkdue, -, hkey⟩ := hrow row hr
    obtain ⟨key₂, -, hstamp₂, hkey₂⟩ := hrow row' hr'
    obtain rfl := (hkey _).mp hk
    obtain rfl := (hkey₂ _).mp hk'
    have hsame : e.1 = key' := encoded_inj hvalid ht hk hk' (henc.trans henc'.symm)
    exact ⟨hkdue, by rw [← hstamp, hstamp₂, hsame], henc⟩
  refine ⟨fun encoded e => ⟨hsound encoded e, ?_⟩, ?_⟩
  · rintro ⟨hd, hstamp, rfl⟩
    obtain ⟨row, hr, hk, -⟩ := hdue e.1 hd
    obtain ⟨key, found, hk', hfound, -⟩ := hg.covered row hr
    obtain rfl : e.1 = key := Except.ok.inj (hk.symm.trans hk')
    obtain ⟨hfd, hfs, hfe⟩ := hsound _ _ hfound
    obtain ⟨row', -, hk'', -⟩ := hdue found.1 hfd
    have hsame : found.1 = e.1 := encoded_inj hvalid ht hk'' hk hfe
    rw [hfound, show found = e from Prod.ext hsame (by rw [hfs, hstamp, hsame])]
  · have hkeys : records.keys ⊆ rows.map fun row => ((b.config.schema.recordKey b.codecs row.model
        row.identity).toOption.map (·.encoded b.codecs)).getD "" := by
      intro encoded hk
      obtain ⟨e, he, rfl⟩ := List.mem_map.mp hk
      obtain ⟨-, ⟨row, hr, hrk⟩, -⟩ := hg.sound _ _ (SortedMap.lookup_eq_some_iff.mpr he)
      obtain ⟨hd, -, henc⟩ := hsound _ _ (SortedMap.lookup_eq_some_iff.mpr he)
      refine List.mem_map.mpr ⟨row, hr, ?_⟩
      have hkey : b.config.schema.recordKey b.codecs row.model row.identity = .ok e.2.1 := hrk
      rw [hkey]
      exact henc
    have hle := List.Nodup.length_le_of_subset records.nodup_keys hkeys
    rw [List.length_map, SortedMap.keys, List.length_map] at hle
    exact hle.trans hlen

end Records

/-- The loaders answer every published identity: each call for some of a model, at a version retained
    of it, with a row for each. -/
def Tables.Answering {D : Type} (t : Tables D) (b : Backend) (app : App D) (owner : String) : Prop :=
  ∀ model version contract identities, b.config.contract model version = some contract →
    (∀ i ∈ identities, ∃ channel row, t.invalidations.lookup (channel, ⟨model, i⟩) = some row) →
    ∃ rows content, app.load ⟨model, version, identities, owner⟩ t.content = .ok (.rows rows, content) ∧
      rows.length = identities.length

/-- A change tells what a call of the loader answers for its record, at the version the request
    declares. -/
def Tables.Loads {D : Type} (t : Tables D) (b : Backend) (app : App D) (owner : String)
    (request : PullRequest) (r : AuthorityRecord) : Prop :=
  ∃ version contract identities rows content row, request.models.lookup r.model = some version ∧
    b.config.contract r.model version = some contract ∧
    app.load ⟨r.model, version, identities, owner⟩ t.content = .ok (.rows rows, content) ∧
    (r.identity, row) ∈ identities.zip rows ∧ Backend.ReadAlone b contract r.model r (.rows [row])

/-- Changes that carry every record that is due, and each at its current stamp and as its loader
    answers it. -/
structure Tables.Carries {D : Type} (t : Tables D) (b : Backend) (app : App D) (owner : String)
    (request : PullRequest) (changes : List AuthorityRecord) : Prop where
  due : ∀ key, (∃ r ∈ changes, r.key = key) ↔ t.Due request key
  current : ∀ r ∈ changes, r.stamp = t.stamp r.key ∧ t.Loads b app owner request r

/-- The page a server answers a pull with: it is valid, moves each channel by its range and carries the
    records that are due. -/
structure Tables.Serves {D : Type} (t : Tables D) (b : Backend) (app : App D) (owner : String)
    (request : PullRequest) (page : PullPage) : Prop where
  valid : page.validate = .ok ()
  cursors : page.cursors = request.cursors.mapValues t.range
  carries : t.Carries b app owner request page.changes

section Loading
variable {D : Type} {b : Backend} {t : Tables D} {app : App D} {owner : String}
  {request : PullRequest} {host : PullHost} {states states' : States} {records : Scanned}
  {page : PullPage}

/-- A served model is loaded in one call, which answers each of its records. -/
theorem loadModel_answered (states : States) (ha : t.Answering b app owner) {version : ℕ} {contract : Schema}
    {group : String × List (String × RecordKey)}
    (hs : request.models.lookup group.1 = some version)
    (hc : b.config.contract group.1 version = some contract)
    (hg : ∀ e ∈ group.2, e.2.model = group.1 ∧
      ∃ channel row, t.invalidations.lookup (channel, e.2) = some row) :
    ∃ os, List.Forall₂ (fun e o => ∀ stamp,
        t.Loads b app owner request (Backend.pageChange e.2 stamp (some o))) group.2 os ∧
      b.loadModel (t.reading b.codecs app) owner request states group =
        .ok ((group.2.zip os).foldl (fun states e => states.insert e.1.1 e.2) states) := by
  obtain ⟨rows, content, hload, hlen⟩ := ha group.1 version contract
    (group.2.map (·.2.identity)) hc (by
      intro i hi
      obtain ⟨e, he, rfl⟩ := List.mem_map.mp hi
      obtain ⟨hmodel, channel, row, hrow⟩ := hg e he
      exact ⟨channel, row, hmodel ▸ hrow⟩)
  have hcall : (t.reading b.codecs app).callLoad
      ⟨group.1, version, (group.2.map (·.2)).map (·.identity), owner⟩ = .ok (.rows rows) := by
    rw [List.map_map]
    change app.load ⟨group.1, version, group.2.map ((·.identity) ∘ (·.2)), owner⟩ t.content = _ at hload
    simp only [PullHost.callLoad, Tables.reading, hload]
    rfl
  have hserved : b.servedAt request group.1 = .ok (version, contract) := by
    rw [Backend.servedAt, hs, required, Except.ok_bind, hc]
    rfl
  have hbatch : b.loadBatch (t.reading b.codecs app) owner group.1 version contract
      (group.2.map (·.2)) = .ok (rows.map (b.normalizeRow contract group.1)) := by
    rw [List.length_map] at hlen
    rw [Backend.loadBatch, hcall, Except.ok_bind]
    simp only [hlen, List.length_map, if_true]
    rfl
  refine ⟨rows.map (b.normalizeRow contract group.1), ?_, ?_⟩
  · rw [List.forall₂_map_right_iff, List.forall₂_iff_zip]
    rw [List.length_map] at hlen
    refine ⟨hlen.symm, fun {e row} hmem stamp => ?_⟩
    obtain ⟨hmodel, -⟩ := hg e (List.of_mem_zip hmem).1
    have hpair : (e.2.identity, row) ∈ (group.2.map (·.2.identity)).zip rows := by
      rw [List.zip_map_left]
      exact List.mem_map.mpr ⟨(e, row), hmem, rfl⟩
    have hread : Backend.ReadAlone b contract group.1 (Backend.pageChange e.2 stamp
        (some (b.answerOne contract group.1 (.rows [row])))) (.rows [row]) :=
      Backend.readAlone_answerOne _
    refine ⟨version, contract, group.2.map (·.2.identity), rows, content, row, ?_⟩
    rw [Backend.pageChange_model, Backend.pageChange_identity, hmodel]
    exact ⟨hs, hc, hload, hpair, hread⟩
  · rw [Backend.loadModel, hserved, Except.ok_bind]
    simp only
    rw [hbatch]
    rfl

/-- A record that is due is published on a channel. -/
theorem due_published {key : RecordKey} (h : t.Due request key) :
    ∃ channel row, t.invalidations.lookup (channel, key) = some row := by
  obtain ⟨channel, cursor, row, -, hmem⟩ := h
  exact ⟨channel, row, (mem_after.mp (mem_reached_after hmem)).1⟩

theorem servedAt_eq_ok {model : String} {served : ℕ × Schema} :
    b.servedAt request model = .ok served ↔ request.models.lookup model = some served.1 ∧
      b.config.contract model served.1 = some served.2 := by
  simp only [Backend.servedAt, Except.bind_eq_ok, required_eq_ok, Except.pure_eq_ok]
  constructor
  · rintro ⟨version, hv, contract, hc, rfl⟩
    exact ⟨hv, hc⟩
  · rintro ⟨hv, hc⟩
    exact ⟨_, hv, _, hc, rfl⟩

/-- The models an accepted request declares are retained. -/
theorem acceptPull_retained (h : b.acceptPull owner request = .ok ()) {model : String} {version : ℕ}
    (hm : request.models.lookup model = some version) :
    ∃ contract, b.config.contract model version = some contract := by
  simp only [Backend.acceptPull, Config.checkDeclared, Except.bind_eq_ok, Except.mapError_eq_ok,
    List.forM_eq_ok, ensure_eq_ok] at h
  obtain ⟨_, -, _, -, hall⟩ := h
  obtain ⟨_, -, hretained⟩ := hall _ (SortedMap.lookup_eq_some_iff.mp hm)
  exact Option.isSome_iff_exists.mp hretained

theorem acceptPull_valid (h : b.acceptPull owner request = .ok ()) : request.validate = .ok () := by
  simp only [Backend.acceptPull, Except.bind_eq_ok, Except.mapError_eq_ok] at h
  obtain ⟨_, -, _, hv, -⟩ := h
  exact hv

/-- The changes of a page carry what is due, each record once, and there is room for them. -/
theorem carries_changes (h : t.Readable b) (ht : b.codecs.Tokens) (ha : t.Answering b app owner)
    {cursors : SortedMap String CursorRange}
    (hscan : b.scanChannels (t.reading b.codecs app) request = .ok (cursors, records))
    (hstates : (Backend.groups (records.entries.map fun e => (e.1, e.2.1))).entries.foldlM
      (b.loadModel (t.reading b.codecs app) owner request) .empty = .ok states)
    {changes : List AuthorityRecord} (hchanges : changes =
      records.entries.map fun e => Backend.pageChange e.2.1 e.2.2 (states.lookup e.1)) :
    t.Carries b app owner request changes ∧ (changes.map (·.key)).Nodup ∧
      changes.length ≤ pullChanges * request.cursors.entries.length := by
  obtain ⟨hfound, hroom⟩ := scanned_records h ht hscan
  have hmem : ∀ {e}, e ∈ records.entries →
      t.Due request e.2.1 ∧ e.2.2 = t.stamp e.2.1 ∧ e.2.1.encoded b.codecs = e.1 :=
    fun he => (hfound _ _).mp (SortedMap.lookup_eq_some_iff.mpr he)
  have hfst : ((records.entries.map fun e => (e.1, e.2.1)).map Prod.fst) = records.keys := by
    rw [List.map_map]
    rfl
  have hloaded := Backend.loadModels_each (b := b) (hfst ▸ records.nodup_keys)
    (R := fun e o => ∀ stamp, t.Loads b app owner request (Backend.pageChange e.2 stamp (some o)))
    (fun group hgroup s s' hone => by
      obtain ⟨-, hg⟩ := SortedMap.mem_group hgroup
      have hserved : ∃ served, b.servedAt request group.1 = .ok served := by
        simp only [Backend.loadModel, Except.bind_eq_ok] at hone
        obtain ⟨served, hserved, -⟩ := hone
        exact ⟨served, hserved⟩
      obtain ⟨served, hserved⟩ := hserved
      obtain ⟨hversion, hcontract⟩ := servedAt_eq_ok.mp hserved
      have hof : ∀ e ∈ group.2, e.2.model = group.1 ∧
          ∃ channel row, t.invalidations.lookup (channel, e.2) = some row := fun e he => by
        obtain ⟨hin, hmodel⟩ := (hg e).mp he
        obtain ⟨e', he', rfl⟩ := List.mem_map.mp hin
        exact ⟨hmodel, due_published (hmem he').1⟩
      obtain ⟨os, hos, heq⟩ := loadModel_answered s ha hversion hcontract hof
      exact ⟨os, hos, Except.ok.inj (heq.symm.trans hone)⟩) hstates
  have hkey : changes.map (·.key) = records.entries.map (·.2.1) := by
    rw [hchanges, List.map_map]
    refine List.map_congr_left fun e _ => ?_
    exact Backend.pageChange_key _
  refine ⟨⟨fun key => ?_, fun r hr => ?_⟩, ?_, ?_⟩
  · have hin : (∃ r ∈ changes, r.key = key) ↔ key ∈ changes.map (·.key) := List.mem_map.symm
    rw [hin, hkey, List.mem_map]
    constructor
    · rintro ⟨e, he, rfl⟩
      exact (hmem he).1
    · intro hdue
      exact ⟨(key.encoded b.codecs, key, t.stamp key),
        SortedMap.lookup_eq_some_iff.mp ((hfound _ _).mpr ⟨hdue, rfl, rfl⟩), rfl⟩
  · rw [hchanges] at hr
    obtain ⟨e, he, rfl⟩ := List.mem_map.mp hr
    obtain ⟨o, hloads, hlookup⟩ := hloaded (e.1, e.2.1) (List.mem_map.mpr ⟨e, he, rfl⟩)
    rw [show states.lookup e.1 = some o from hlookup]
    rw [Backend.pageChange_stamp, Backend.pageChange_key]
    exact ⟨(hmem he).2.1, hloads e.2.2⟩
  · rw [hkey]
    refine List.Nodup.of_map (·.encoded b.codecs) ?_
    have hkeys : (records.entries.map (·.2.1)).map (·.encoded b.codecs) = records.keys := by
      rw [List.map_map]
      exact List.map_congr_left fun e he => (hmem he).2.2
    rw [hkeys]
    exact records.nodup_keys
  · rw [hchanges, List.length_map]
    exact hroom

/-- What they carry is valid. -/
theorem carried_valid (h : t.Readable b) {changes : List AuthorityRecord}
    (hc : t.Carries b app owner request changes) {r : AuthorityRecord} (hr : r ∈ changes) :
    r.validate = .ok () := by
  have hdue := (hc.due r.key).mp ⟨r, hr, rfl⟩
  obtain ⟨hstamp, -, contract, -, -, -, row, -, -, -, -, hread⟩ := hc.current r hr
  obtain ⟨channel, inv, hrow⟩ := due_published hdue
  obtain ⟨-, hkey⟩ := h.published channel r.key inv hrow
  obtain ⟨-, hpos, hsafe⟩ := stamp_published h hrow
  obtain ⟨model, g, hm, -, hid, -⟩ := recordKey_spec hkey
  have hnamed : r.model ≠ "" := by
    have hname := ((b.schema_valid).models _ (model_mem hm)).named.1
    rwa [model_name hm] at hname
  have hobject : r.identity.asObject.isSome = true := by
    rw [show r.identity = _ from hid, Value.ofEntries_eq_obj]
    rfl
  have hstate : (r.error = none ∧ (r.state.isNull ∨ r.state.asObject.isSome)) ∨
      (r.error = some "loader.invalid" ∧ r.state.isNull) := by
    cases row with
    | none => exact Or.inl ⟨hread.1, Or.inl (by rw [hread.2]; rfl)⟩
    | some found =>
      cases hn : contract.normalizeState b.codecs r.model found with
      | ok state =>
        obtain ⟨herror, hvalue⟩ := hread.1 state hn
        obtain ⟨_, _, -, hv, -⟩ := state_spec hn
        exact Or.inl ⟨herror, Or.inr (by rw [hvalue, hv, Value.ofEntries_eq_obj]; rfl)⟩
      | error m =>
        obtain ⟨herror, hvalue⟩ := hread.2 m hn
        exact Or.inr ⟨herror, by rw [hvalue]; rfl⟩
  have hcounter : r.stamp ≠ 0 ∧ r.stamp ≤ maxSafeInteger := by omega
  have hcode : validCode "loader.invalid" = true := by decide +kernel
  rcases hstate with ⟨herror, hstate⟩ | ⟨herror, hnull⟩
  · simp only [AuthorityRecord.validate, Except.bind_eq_ok, ensure_eq_ok, herror, exists_const]
    exact ⟨hnamed, hobject, hcounter, hstate⟩
  · simp only [AuthorityRecord.validate, Except.bind_eq_ok, ensure_eq_ok, herror, exists_const]
    exact ⟨hnamed, hobject, hcounter, hcode, hnull⟩

/-- A page that a server answers with is what it serves. -/
theorem processPull_serves (h : t.Readable b) (ht : b.codecs.Tokens) (ha : t.Answering b app owner)
    (hle : ∀ e ∈ request.cursors.entries, e.2 ≤ t.head e.1)
    (hpage : b.processPull (t.reading b.codecs app) owner request = .ok page) :
    t.Serves b app owner request page := by
  obtain ⟨-, records, states, hscan, hstates, hchanges, hv⟩ := Backend.processPull_eq_ok.mp hpage
  obtain ⟨records', hranges⟩ := scanChannels_ranges app h hle
  exact ⟨hv, (Prod.mk.inj (Except.ok.inj (hscan.symm.trans hranges))).1,
    (carries_changes h ht ha hscan hstates hchanges).1⟩

/-- A server answers an accepted pull whose due records are of models the request declares, and no
    other. -/
theorem processPull_ok_iff (h : t.Readable b) (ht : b.codecs.Tokens) (ha : t.Answering b app owner)
    (hle : ∀ e ∈ request.cursors.entries, e.2 ≤ t.head e.1) :
    (∃ page, b.processPull (t.reading b.codecs app) owner request = .ok page) ↔
      b.acceptPull owner request = .ok () ∧
        ∀ key, t.Due request key → (request.models.lookup key.model).isSome := by
  constructor
  · rintro ⟨page, hpage⟩
    refine ⟨(Backend.processPull_eq_ok.mp hpage).1, fun key hdue => ?_⟩
    have hserves := processPull_serves h ht ha hle hpage
    obtain ⟨r, hr, rfl⟩ := (hserves.carries.due key).mpr hdue
    obtain ⟨-, version, -, -, -, -, -, hv, -⟩ := hserves.carries.current r hr
    exact Option.isSome_iff_exists.mpr ⟨version, hv⟩
  · rintro ⟨haccept, hdeclared⟩
    obtain ⟨records, hscan⟩ := scanChannels_ranges app h hle
    obtain ⟨hfound, -⟩ := scanned_records h ht hscan
    obtain ⟨states, hstates, -⟩ := List.foldlM_ok_of (fun _ => True)
      (f := b.loadModel (t.reading b.codecs app) owner request)
      (l := (Backend.groups (records.entries.map fun e => (e.1, e.2.1))).entries) (s := .empty)
      (fun states group hgroup _ => by
        obtain ⟨hne, hg⟩ := SortedMap.mem_group hgroup
        have hdue : ∀ e ∈ group.2, e.2.model = group.1 ∧ t.Due request e.2 := by
          intro e he
          obtain ⟨hin, hmodel⟩ := (hg e).mp he
          obtain ⟨e', he', rfl⟩ := List.mem_map.mp hin
          exact ⟨hmodel, ((hfound _ _).mp (SortedMap.lookup_eq_some_iff.mpr he')).1⟩
        obtain ⟨e, he⟩ := List.exists_mem_of_ne_nil _ hne
        obtain ⟨version, hversion⟩ := Option.isSome_iff_exists.mp (hdeclared e.2 (hdue e he).2)
        rw [(hdue e he).1] at hversion
        obtain ⟨contract, hcontract⟩ := acceptPull_retained haccept hversion
        obtain ⟨os, -, heq⟩ := loadModel_answered states ha hversion hcontract
          fun e he => ⟨(hdue e he).1, due_published (hdue e he).2⟩
        exact ⟨_, heq, trivial⟩) trivial
    obtain ⟨hcarries, hnodup, hroom⟩ := carries_changes h ht ha hscan hstates rfl
    refine ⟨⟨request.cursors.mapValues t.range, _⟩, Backend.processPull_eq_ok.mpr
      ⟨haccept, records, states, hscan, hstates, rfl, PullPage.validate_eq_ok.mpr ?_⟩⟩
    obtain ⟨-, hne, hnames⟩ := PullRequest.validate_eq_ok.mp (acceptPull_valid haccept)
    refine ⟨?_, ?_, ?_, uniqueRecords_eq_ok.mpr ⟨fun r hr => carried_valid h hcarries hr, hnodup⟩⟩
    · simpa [SortedMap.mapValues] using hne
    · intro x hx
      obtain ⟨e, he, rfl⟩ := List.mem_map.mp hx
      obtain ⟨hname, hsafe⟩ := hnames e he
      obtain ⟨hfrom, hto, -⟩ := range_advances h.accounted (hle e he)
      exact ⟨hname, hsafe, hto.trans (h.heads e.1), h.heads e.1, hfrom, hto⟩
    · simpa [SortedMap.mapValues] using hroom

end Loading

end AheadSync
