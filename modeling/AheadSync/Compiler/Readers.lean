import AheadSync.Compiler.Contracts
import AheadSync.Core.Reread

/-! A reader of an earlier contract and the states a later contract of the same version serves: which
    of them it accepts, and that it reads the same values. -/

namespace AheadSync

namespace Compiler
open Schema (stateFields)

variable {c : Codecs} {year : String → ℤ} {s s' : Schema}

/-- The one model of a contract's schema. -/
def described (m : ModelContract) : ModelDescriptor :=
  { name := m.name, version := m.version, identity := m.identity, fields := m.fields }

/-- A reader of a contract accepts a state and reads its values. -/
def Reads (c : Codecs) (m : ModelContract) (state : Value) : Prop :=
  ∃ read, m.schema.validateState c m.name state = .ok read ∧
    ∀ f ∈ stateFields (described m), read.get f.name = state.get f.name

theorem contract_model (m : ModelContract) : m.schema.model m.name = .ok (described m) := by
  simp [ModelContract.schema, Schema.model, described]

theorem stateFields_nodup {m : ModelContract} (h : m.schema.Valid) :
    ((stateFields (described m)).map (·.name)).Nodup :=
  nodup_stateFields (h.models _ (model_mem (contract_model m))).fields.1

/-- An enum of an earlier contract has the same values in a later one. -/
theorem Continues.enum_values {old new : ModelContract} (h : Continues old new)
    (hold : old.schema.Valid) (hnew : new.schema.Valid) {f : FieldDescriptor}
    (hf : f ∈ old.fields) {name : String} (hty : f.valueType = .enum name) {x : String}
    (hx : new.schema.enums.any fun en => en.name = name ∧ x ∈ en.values) :
    old.schema.enums.any fun en => en.name = name ∧ x ∈ en.values := by
  have hmodel := hold.models _ (model_mem (contract_model old))
  obtain ⟨ht, -⟩ := hmodel.types f hf
  simp only [hty, Schema.validateType, ensure_eq_ok, List.any_eq_true, decide_eq_true_eq] at ht
  obtain ⟨e, he, hname⟩ := ht
  simp only [List.any_eq_true, decide_eq_true_eq] at hx ⊢
  obtain ⟨e', he', hname', hx⟩ := hx
  have hmem := List.mem_of_find?_eq_some (h.enums e he)
  obtain rfl := hnew.enum_unique hmem he' (hname.trans hname'.symm)
  exact ⟨e, he, hname, hx⟩

/-- Of the states a later contract serves, a reader of an earlier one reads exactly those whose dates
    and times, in the fields it knows, have a year of four digits. -/
theorem reads_iff (hu : c.UuidsReread) (hd : c.DateTimesReread year) {old new : ModelContract}
    (h : Continues old new) (hold : old.schema.Valid) (hnew : new.schema.Valid) {st w : Value}
    (hw : new.schema.normalizeState c new.name st = .ok w) :
    Reads c old w ↔ ∀ f ∈ stateFields (described old), ∀ x, st.get f.name = some x →
      InYears year f.valueType x := by
  obtain ⟨model, g, hm, rfl, hg⟩ := state_spec hw
  rw [contract_model] at hm
  obtain rfl := Except.ok.inj hm
  have hov := hold.models _ (model_mem (contract_model old))
  -- a field the earlier contract reads is served as it was
  have hid : (described new).identity = (described old).identity := h.identity
  have hserved : ∀ f ∈ stateFields (described old), f ∈ stateFields (described new) := by
    intro f hf
    obtain ⟨hmem, hnot⟩ := List.mem_filter.mp hf
    exact List.mem_filter.mpr ⟨List.mem_of_find?_eq_some (h.fields f hmem), hid ▸ hnot⟩
  have hget : ∀ f ∈ stateFields (described old), (Value.ofEntries
      ((stateFields (described new)).map fun f => (f.name, g f))).get f.name = some (g f) :=
    fun f hf => get_ofEntries_fields (stateFields_nodup hnew) (hserved f hf)
  have hread : ∀ f ∈ stateFields (described old),
      (∃ u, old.schema.normalizeValue c f (g f) = .ok u) ↔
        ∀ x, st.get f.name = some x → InYears year f.valueType x := by
    intro f hf
    obtain ⟨x, hx, hgf⟩ := hg f (hserved f hf)
    have hmem := (List.mem_filter.mp hf).1
    rw [normalizeValue_reread hu hd (fun element hty => ?_)
      (fun name hty x => h.enum_values hold hnew hmem hty) hgf]
    · unfold Schema.stateInput at hx
      split at hx
      · rename_i y hy
        obtain rfl := Except.ok.inj hx
        simp [hy]
      · rename_i hnone
        split at hx
        · obtain rfl := Except.ok.inj hx
          simp [hnone, inYears_null]
        · cases hx
    · obtain ⟨ht, -⟩ := hov.types f hmem
      simpa [hty, Schema.validateType] using ht
  constructor
  · rintro ⟨read, hr, -⟩ f hf
    obtain ⟨model, g', hm, -, hg'⟩ := state_spec hr
    rw [contract_model] at hm
    obtain rfl := Except.ok.inj hm
    obtain ⟨y, hy, hyf⟩ := hg' f hf
    obtain rfl : g f = y := by simpa [Schema.stateInput, hget f hf] using hy
    exact (hread f hf).mp ⟨_, hyf⟩
  · intro hall
    have hok : ∀ f ∈ stateFields (described old),
        old.schema.normalizeValue c f (g f) = .ok (g f) := by
      intro f hf
      obtain ⟨u, hu⟩ := (hread f hf).mpr (hall f hf)
      obtain ⟨x, -, hx⟩ := hg f (hserved f hf)
      rw [hu, normalizeValue_stable hx hu]
    refine ⟨.ofEntries ((stateFields (described old)).map fun f => (f.name, g f)), ?_,
      fun f hf => ?_⟩
    · simp only [Schema.validateState, Schema.state, Except.bind_eq_ok, required_eq_ok,
        ensure_eq_ok, Except.pure_eq_ok]
      refine ⟨_, contract_model old, _, by rw [Value.ofEntries_eq_obj]; rfl, (), ?_, _,
        List.mapM_eq_ok_of fun f hf => ?_, rfl⟩
      · refine List.all_eq_true.mpr fun e he => ?_
        obtain ⟨f, hf, rfl⟩ := List.mem_map.mp (Value.mem_entries_ofEntries he)
        have hnot := (List.mem_filter.mp hf).2
        rw [hid] at hnot
        simpa using hnot
      · simp only [Except.bind_eq_ok, Except.pure_eq_ok]
        exact ⟨g f, by simp [Schema.stateInput, hget f hf], g f, hok f hf, rfl⟩
    · rw [hget f hf, get_ofEntries_fields (stateFields_nodup hold) hf]

theorem Continues.refl {m : ModelContract} (h : m.schema.Valid) : Continues m m := by
  have hv := h.models _ (model_mem (contract_model m))
  refine ⟨rfl, fun f hf => field_of_mem hv.fields.1 hf, fun f hf hnone => ?_, fun en hen => ?_,
    hv.fields.1⟩
  · rw [show m.fields.find? (·.name = f.name) = some f from field_of_mem hv.fields.1 hf] at hnone
    cases hnone
  · obtain ⟨e, he⟩ : ∃ e, m.enums.find? (·.name = en.name) = some e :=
      Option.isSome_iff_exists.mp (List.find?_isSome.mpr ⟨en, hen, by simp⟩)
    rw [he, h.enum_unique (List.mem_of_find?_eq_some he) hen (by simpa using List.find?_some he)]

/-- Along every chain of compilations, the versions of a model's contract stay, the superseded ones as
    they are, all with one identity; and a reader of a version reads, of the states served at that
    version later on, exactly those whose dates and times have a year of four digits. -/
theorem model_history_sound (hu : c.UuidsReread) (hd : c.DateTimesReread year)
    {earlier later : List Validated} (hvalid : ∀ v ∈ earlier ++ later, ∃ d, validate d = .ok v)
    {h h' : ModelHistory}
    (hrun : chain reconcileModelHistory none (earlier.map descriptors) = .ok (some h))
    (hrun' : chain reconcileModelHistory (some h) (later.map descriptors) = .ok (some h')) :
    (∀ name n, (h.entry name n).isSome → (h'.entry name n).isSome) ∧
    (∀ name n n' m, h.entry name n = some m → (h.entry name n').isSome → n < n' →
      h'.entry name n = some m) ∧
    (∀ name n n' m m', h.entry name n = some m → h'.entry name n' = some m' →
      m'.identity = m.identity) ∧
    ∀ name n old new, h.entry name n = some old → h'.entry name n = some new →
      ∀ st w, new.schema.normalizeState c name st = .ok w →
        (Reads c old w ↔ ∀ f ∈ stateFields (described old), ∀ x, st.get f.name = some x →
          InYears year f.valueType x) := by
  have haccepted : ∀ v ∈ earlier ++ later, Accepted v := fun v hv => by
    obtain ⟨d, hd⟩ := hvalid v hv
    exact validate_accepted hd
  obtain ⟨hs, -⟩ := modelChain_keeps (h := none) (fun v hv => haccepted v (List.mem_append_left _ hv))
    soundContracts_empty hrun
  obtain ⟨hs', hgrown⟩ := modelChain_keeps (h := some h)
    (fun v hv => haccepted v (List.mem_append_right _ hv)) hs hrun'
  refine ⟨fun name n => hgrown.isSome, fun name n n' m => hgrown.superseded,
    fun name n n' m m' hm hm' => ?_, fun name n old new ho hn st w hw => ?_⟩
  · obtain ⟨kept, hkept, heq⟩ := hgrown.kept hm
    rw [hs'.identity hm' hkept]
    rcases heq with rfl | hc
    · rfl
    · exact hc.identity
  · obtain ⟨kept, hkept, heq⟩ := hgrown.kept ho
    obtain rfl := Option.some.inj (hn.symm.trans hkept)
    have hold := (hs.recorded ho).valid
    have hnew := (hs'.recorded hn).valid
    have hcontinues : Continues old new := by
      rcases heq with rfl | hc
      · exact .refl hold
      · exact hc
    rw [← (hs'.recorded hn).name] at hw
    exact reads_iff hu hd hcontinues hold hnew hw

namespace Sample

/-- Codecs that read two dates: one whose year has four digits in UTC, and the last hour of the year
    9999 somewhat west of Greenwich, which is in the year 10000 in UTC. -/
def dated : Codecs where
  quote := fun s => "\"" ++ s ++ "\""
  jcs
    | .str s => "\"" ++ s ++ "\""
    | .num n => toString n.num
    | .bool b => toString b
    | _ => "null"
  f64 := id
  uuid := fun _ => none
  dateTime := fun s =>
    if s = "2024-05-01T12:00:00.000Z" then some "2024-05-01T12:00:00.000Z"
    else if s = "9999-12-31T23:59:59-01:00" then some "+10000-01-01T00:59:59.000Z"
    else none
  f64_stable := AheadSync.Sample.id_stable
  uuid_stable := @AheadSync.Sample.unread_uuid
  dateTime_stable := by
    intro s t u h h'
    split_ifs at h <;> obtain rfl := Option.some.inj h <;> simp at h'
    exact h'.symm

def yearOf (s : String) : ℤ := if s = "9999-12-31T23:59:59-01:00" then 10000 else 2024

theorem dated_uuids : dated.UuidsReread := nofun

theorem dated_dates : dated.DateTimesReread yearOf := by
  intro s t h
  simp only [dated] at h
  split_ifs at h with hs hs' <;> obtain rfl := Option.some.inj h
  · subst hs; decide +kernel
  · subst hs'; decide +kernel

/-- Events with a date, and whatever fields are added to them. -/
def events (added : List FieldDecl) : Declarations where
  models := [{
    name := "Event", version := .first, identity := ["id"], unique := [], pos := {}
    fields := [⟨"id", "String", false, false, .empty, {}⟩,
      ⟨"at", "DateTime", false, false, .empty, {}⟩] ++ added }]

/-- Events as they are validated. -/
def eventSchema (added : List FieldDescriptor) : Validated where
  enums := []
  models := [{
    name := "Event", identity := ["id"]
    fields := [⟨"id", .scalar .string, false, none⟩,
      ⟨"at", .scalar .dateTime, false, none⟩] ++ added }]
  requirements := []
  prerequisites := []
  mutations := []

def eventContract (added : List FieldDescriptor) : ModelContract where
  name := "Event"
  version := 1
  identity := ["id"]
  fields := [⟨"id", .scalar .string, false, none⟩,
    ⟨"at", .scalar .dateTime, false, none⟩] ++ added

def eventHistory (added : List FieldDescriptor) : ModelHistory :=
  Registry.record .empty "Event" 1 (eventContract added)

def note : FieldDescriptor := ⟨"note", .scalar .string, true, none⟩

theorem eventSchema_valid :
    ∀ v ∈ [eventSchema []] ++ [eventSchema [note]], ∃ d, validate d = .ok v := by
  intro v hv
  rcases List.mem_pair.mp hv with rfl | rfl
  · exact ⟨events [], by decide +kernel⟩
  · exact ⟨events [⟨"note", "String", false, true, .empty, {}⟩], by decide +kernel⟩

end Sample

/-- A reader of events reads an event served after they were given a note. -/
theorem model_history_sound_events :
    Reads Sample.dated (Sample.eventContract [])
      (.ofEntries [("at", .str "2024-05-01T12:00:00.000Z"), ("note", .str "noon")]) := by
  have hrun : chain reconcileModelHistory none ([Sample.eventSchema []].map descriptors) =
      .ok (some (Sample.eventHistory [])) := rfl
  have hrun' : chain reconcileModelHistory (some (Sample.eventHistory []))
      ([Sample.eventSchema [Sample.note]].map descriptors) =
      .ok (some (Sample.eventHistory [Sample.note])) := rfl
  obtain ⟨-, -, -, hreads⟩ := model_history_sound Sample.dated_uuids Sample.dated_dates
    Sample.eventSchema_valid hrun hrun'
  refine (hreads "Event" 1 _ _ rfl rfl (.ofEntries
    [("at", .str "2024-05-01T12:00:00.000Z"), ("note", .str "noon")]) _ rfl).mpr ?_
  intro f hf x hx
  obtain rfl := List.mem_singleton.mp
    (show f ∈ [⟨"at", .scalar .dateTime, false, none⟩] from hf)
  obtain rfl := Option.some.inj hx
  exact show 0 ≤ Sample.yearOf _ ∧ Sample.yearOf _ ≤ 9999 by decide +kernel

/-- An event of the last hour of the year 9999, somewhat west of Greenwich, is served with a date that
    no reader accepts, not even one of the same contract. -/
theorem not_model_history_sound : ¬∀ (c : Codecs) (year : String → ℤ), c.UuidsReread →
    c.DateTimesReread year → ∀ earlier later : List Validated,
    (∀ v ∈ earlier ++ later, ∃ d, validate d = .ok v) → ∀ h h' : ModelHistory,
    chain reconcileModelHistory none (earlier.map descriptors) = .ok (some h) →
    chain reconcileModelHistory (some h) (later.map descriptors) = .ok (some h') →
    ∀ name n old new, h.entry name n = some old → h'.entry name n = some new →
      ∀ st w, new.schema.normalizeState c name st = .ok w → Reads c old w := by
  intro hall
  obtain ⟨read, hread, -⟩ := hall Sample.dated Sample.yearOf Sample.dated_uuids Sample.dated_dates
    [Sample.eventSchema []] [] (fun v hv => Sample.eventSchema_valid v (by simpa using Or.inl hv))
    (Sample.eventHistory []) (Sample.eventHistory []) rfl rfl "Event" 1 _ _ rfl rfl
    (.ofEntries [("at", .str "9999-12-31T23:59:59-01:00")]) _ rfl
  have hrefused : (Sample.eventContract []).schema.validateState Sample.dated "Event"
      (.ofEntries [("at", .str "+10000-01-01T00:59:59.000Z")]) =
        .error "invalid zoned dateTime" := rfl
  exact nomatch hread.symm.trans hrefused

end Compiler
end AheadSync
