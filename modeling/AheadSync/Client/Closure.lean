import AheadSync.Client.Isolation
import AheadSync.Core.Encoded

/-! The cascade closure over any content of the tables: the search for what a deletion takes along ends,
    and when it accepts the identity of every row it meets, it finds exactly the records reachable
    through cascading relations. -/

namespace AheadSync

variable {e : Engine} {st : Store} {parent child root : RecordKey}

/-- A row of `child`, visible or set aside, refers to `parent` through a cascading relation. The record
    of a row is the one its identity is normalized to. -/
def Cascades (e : Engine) (st : Store) (parent child : RecordKey) : Prop :=
  ∃ row, Refers e st parent row ∧ e.recordKey row.model row.identity = .ok child

/-- The children of a record are the records that refer to it. -/
theorem mem_children_iff {cs : List RecordKey} (hcs : e.children st parent = .ok cs) :
    child ∈ cs ↔ Cascades e st parent child := by
  have hrel := List.mapM_eq_ok_iff.mp hcs
  constructor
  · intro hc
    obtain ⟨⟨m, i⟩, hmi, hkey⟩ := List.forall₂_mem hrel hc
    exact ⟨⟨m, i⟩, mem_childIdentities.mp hmi, hkey⟩
  · rintro ⟨row, hrow, hkey⟩
    obtain ⟨c, hc, hkey'⟩ := List.forall₂_mem_left hrel (mem_childIdentities.mpr hrow)
    rw [Except.ok.inj (hkey.symm.trans hkey')]
    exact hc

/-- The children can be computed when the identity of each row is accepted. -/
theorem children_accepted : (∃ cs, e.children st parent = .ok cs) ↔
    ∀ row, Refers e st parent row → ∃ k, e.recordKey row.model row.identity = .ok k := by
  rw [Engine.children, List.mapM_ok_iff]
  constructor
  · exact fun h row hrow => h (row.model, row.identity) (mem_childIdentities.mpr hrow)
  · exact fun h mi hmi => h ⟨mi.1, mi.2⟩ (mem_childIdentities.mp hmi)

/-- The records the search can meet: one for each row. -/
def closureUniverse (e : Engine) (st : Store) : Finset RecordKey :=
  (recordsOf st).image fun row => ((e.recordKey row.model row.identity).toOption).getD default

theorem card_closureUniverse (e : Engine) (st : Store) :
    (closureUniverse e st).card < st.main.rows.length + st.before.rows.length + 1 :=
  lt_of_le_of_lt Finset.card_image_le (card_recordsOf st)

theorem cascades_mem (h : Cascades e st parent child) : child ∈ closureUniverse e st := by
  obtain ⟨row, hrow, hkey⟩ := h
  exact Finset.mem_image.mpr ⟨row, refers_mem hrow, by rw [hkey]; rfl⟩

/-- A step of the search, from a record whose children could be computed. -/
theorem edge_cascades (hok : ∃ cs, e.children st parent = .ok cs) :
    Reach.Edge (e.children st) parent child ↔ Cascades e st parent child := by
  obtain ⟨cs, hcs⟩ := hok
  constructor
  · rintro ⟨cs', hcs', hmem⟩
    exact (mem_children_iff hcs').mp hmem
  · exact fun hc => ⟨cs, hcs, (mem_children_iff hcs).mpr hc⟩

/-- While children can be computed, the search reaches what cascading relations reach. -/
theorem reaches_cascades
    (hok : ∀ p, Reach.Reaches (e.children st) root p → ∃ cs, e.children st p = .ok cs) :
    Reach.Reaches (e.children st) root child ↔ Relation.ReflTransGen (Cascades e st) root child := by
  constructor
  · intro hr
    induction hr with
    | refl => exact .refl
    | tail hr he ih => exact ih.tail ((edge_cascades (hok _ hr)).mp he)
  · intro hc
    induction hc with
    | refl => exact .refl
    | tail _ hc ih => exact ih.tail ((edge_cascades (hok _ ih)).mpr hc)

/-- The search ends, and it answers with the records reachable in one step or more, each once and without
    the starting record, exactly when every row that refers to one of them, or to the starting record,
    has an identity that is accepted. -/
theorem descendants_exact (e : Engine) (st : Store) (root : RecordKey) :
    (∃ found, e.descendants st root = .ok found ∧ (root :: found).Nodup ∧
      ∀ k, k ∈ found ↔ k ≠ root ∧ Relation.TransGen (Cascades e st) root k) ↔
    ∀ p row, Relation.ReflTransGen (Cascades e st) root p → Refers e st p row →
      ∃ k, e.recordKey row.model row.identity = .ok k := by
  have huniv : ∀ p qs, e.children st p = .ok qs → ∀ q ∈ qs, q ∈ closureUniverse e st :=
    fun p qs hqs q hq => cascades_mem ((mem_children_iff hqs).mp hq)
  constructor
  · rintro ⟨found, hfound, -⟩ p row hp hrow
    obtain ⟨-, -, hok⟩ := Reach.explore_exact huniv (card_closureUniverse e st) hfound
    exact children_accepted.mp (hok p ((reaches_cascades hok).mpr hp)) row hrow
  · intro hall
    have hok : ∀ p, Reach.Reaches (e.children st) root p → ∃ cs, e.children st p = .ok cs := by
      intro p hp
      refine children_accepted.mpr fun row => hall p row ?_
      induction hp with
      | refl => exact .refl
      | tail _ he ih =>
        obtain ⟨qs, hqs, hmem⟩ := he
        exact ih.tail ((mem_children_iff hqs).mp hmem)
    obtain ⟨found, hfound⟩ : ∃ found, e.descendants st root = .ok found :=
      Reach.explore_ok hok (by simp [Reach.Reaches, Relation.ReflTransGen.refl])
    obtain ⟨hnd, hmem, -⟩ := Reach.explore_exact huniv (card_closureUniverse e st) hfound
    refine ⟨found, hfound, hnd, fun k => ⟨fun hk => ?_, ?_⟩⟩
    · have hne : k ≠ root := fun heq => (List.nodup_cons.mp hnd).1 (heq ▸ hk)
      have hb := (reaches_cascades hok).mp ((hmem k).mp (List.mem_cons_of_mem _ hk))
      rcases Relation.reflTransGen_iff_eq_or_transGen.mp hb with heq | ht
      · exact absurd heq hne
      · exact ⟨hne, ht⟩
    · rintro ⟨hne, ht⟩
      have hr := (reaches_cascades hok).mpr ht.to_reflTransGen
      exact (List.mem_cons.mp ((hmem k).mpr hr)).resolve_left hne

namespace Sample

/-- Boxes, and the times a box is booked for: a booking goes with its box. -/
def bookings : Schema where
  models := [
    { name := "Box", identity := ["id"], fields := [⟨"id", .scalar .string, false, none⟩] },
    { name := "Booking", identity := ["at"]
      fields := [⟨"at", .scalar .dateTime, false, none⟩, ⟨"box", .scalar .string, true, none⟩]
      relations := [⟨"parent", "Box", ["box"], ["id"], "delete"⟩] }]

def booking : Engine := ⟨timed, bookings, by decide +kernel⟩

/-- Box `b` is booked for the last hour of the year 9999, somewhat west of Greenwich. -/
def booked : List ClientAction :=
  [.setChannels [("c", true)], .applyPage (page "c" 0 1 [
    { model := "Booking", identity := .ofEntries [("at", .str "9999-12-31T23:59:59-01:00")], stamp := 1
      state := .ofEntries [("box", .str "b")] }])]

end Sample

/-- Once a box is booked for what is the year 10000 in UTC, what a deletion of the box takes along cannot
    be found. -/
theorem not_descendants_exact : ¬∀ (e : Engine) (c : Client) root, Reachable e c → Named e root →
    ∃ found, e.descendants c.store root = .ok found := by
  intro hall
  obtain ⟨found, hfound⟩ := hall Sample.booking (Sample.client Sample.booking Sample.booked)
    ⟨"Box", Sample.identity "b"⟩ (Sample.client_reachable _ _)
    ⟨Sample.identity "b", Except.eq_ok_of_toOption (by decide +kernel)⟩
  have hrefused : (Sample.booking.descendants (Sample.client Sample.booking Sample.booked).store
      ⟨"Box", Sample.identity "b"⟩).toOption = none := by decide +kernel
  rw [hfound] at hrefused
  cases hrefused

end AheadSync
