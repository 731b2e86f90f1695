import AheadSync.Core.Reread
import AheadSync.Core.Valid
import AheadSync.Lib.Tokens

/-! Normalization is canonical: which accepted values are accepted again and unchanged, and that the
    encoded key of a record tells which record it is. -/

namespace AheadSync
open Schema (stateFields stateInput)

variable {c : Codecs} {s : Schema} {model : ModelDescriptor}

theorem mem_keys_ofEntries {k : String} {fs : List (String × Value)} :
    k ∈ (Value.ofEntries fs).entries.map Prod.fst ↔ k ∈ fs.map Prod.fst := by
  constructor
  · intro h
    obtain ⟨e, he, rfl⟩ := List.mem_map.mp h
    exact List.mem_map_of_mem (Value.mem_entries_ofEntries he)
  · intro h
    obtain ⟨v, -, hget⟩ := Value.get_setAll_of_mem (.obj []) h
    exact List.mem_map_of_mem (f := Prod.fst) (Value.mem_of_get hget)

theorem nodup_keys_ofEntries (fs : List (String × Value)) :
    ((Value.ofEntries fs).entries.map Prod.fst).Nodup := by
  have h : ((Value.ofEntries fs).entries.map Prod.fst).Pairwise (· < ·) :=
    List.pairwise_map.mpr (Value.ordered_ofEntries fs).2
  exact h.imp fun h => ne_of_lt h

/-- Entries with distinct keys are all kept. -/
theorem length_entries_ofEntries {fs : List (String × Value)} (h : (fs.map Prod.fst).Nodup) :
    (Value.ofEntries fs).entries.length = fs.length := by
  have hperm : ((Value.ofEntries fs).entries.map Prod.fst).Perm (fs.map Prod.fst) :=
    (List.perm_ext_iff_of_nodup (nodup_keys_ofEntries fs) h).mpr fun _ => mem_keys_ofEntries
  simpa using hperm.length_eq

theorem ofEntries_entries {o : Value} (h : o.Ordered) : Value.ofEntries o.entries = o := by
  have hsorted : (o.entries.map Prod.fst).Pairwise (· < ·) := List.pairwise_map.mpr h.2
  have hnd : (o.entries.map Prod.fst).Nodup := hsorted.imp fun h => ne_of_lt h
  refine Value.ext_get (Value.ordered_ofEntries _) h fun k => ?_
  cases hget : o.get k with
  | some v => exact Value.get_ofEntries_of_mem hnd (Value.mem_of_get hget)
  | none =>
    refine Value.get_setAll_of_notMem fun hk => ?_
    obtain ⟨⟨_, v⟩, he, rfl⟩ := List.mem_map.mp hk
    rw [(Value.mem_entries_iff h).mp he] at hget
    cases hget

/-- An object that has each key once holds each of its entries. -/
theorem get_of_mem_entries {o : Value} (h : (o.entries.map Prod.fst).Nodup) {e : String × Value}
    (he : e ∈ o.entries) : o.get e.1 = some e.2 := by
  rw [Value.get, Value.lookup_eq_find, List.find?_key h he]
  rfl

/-- Every date and time that an object holds in one of some fields has a year of four digits in
    UTC. -/
def Dated (z : Zoned c) (fields : List FieldDescriptor) (v : Value) : Prop :=
  ∀ f ∈ fields, ∀ x, v.get f.name = some x → InYears z.year f.valueType x

variable {z : Zoned c}

/-- A field's normalized value is accepted again, and unchanged, exactly when its dates are. -/
theorem normalizeValue_again (hv : s.Valid) (hu : c.UuidsReread) (z : Zoned c)
    (hm : model ∈ s.models) {f : FieldDescriptor} (hf : f ∈ model.fields) {v w : Value}
    (h : s.normalizeValue c f v = .ok w) :
    s.normalizeValue c f w = .ok w ↔ InYears z.year f.valueType v := by
  have hlist : ∀ element, f.valueType = .list element → element.isScalar := fun element hty => by
    obtain ⟨ht, -⟩ := (hv.models _ hm).types f hf
    simpa [hty, Schema.validateType] using ht
  rw [← normalizeValue_reread hu z.dateTimesReread hlist (fun _ _ _ hx => hx) h]
  constructor
  · exact fun hw => ⟨w, hw⟩
  · rintro ⟨u, hw⟩
    rw [hw, normalizeValue_stable h hw]

/-- A key's identity is accepted again, as the same key, exactly when the dates it was made from have
    years of four digits. -/
theorem recordKey_again (hv : s.Valid) (hu : c.UuidsReread) (z : Zoned c) {name : String}
    {identity : Value} {key : RecordKey} (hm : s.model name = .ok model)
    (h : s.recordKey c name identity = .ok key) :
    s.recordKey c name key.identity = .ok key ↔ Dated z model.fields identity := by
  have hmem := model_mem hm
  have hvalid := hv.models _ hmem
  obtain ⟨m, g, hm', hname, hid, hg⟩ := recordKey_spec h
  obtain rfl := Except.ok.inj (hm.symm.trans hm')
  -- a field of the identity and the value it was made from
  have hfield : ∀ n ∈ model.identity, ∃ f x, model.field n = some f ∧ identity.get n = some x ∧
      (s.normalizeValue c f (g n) = .ok (g n) ↔ InYears z.year f.valueType x) := by
    intro n hn
    obtain ⟨f, x, hf, hx, hgn⟩ := hg n hn
    exact ⟨f, x, hf, hx, normalizeValue_again hv hu z hmem (field_mem hf) hgn⟩
  constructor
  · intro hagain f hf x hx
    have hn : f.name ∈ model.identity := by
      simp only [Schema.recordKey, Except.bind_eq_ok, required_eq_ok, ensure_eq_ok] at h
      obtain ⟨m, hm₂, input, hinput, -, hall, -⟩ := h
      obtain rfl := Except.ok.inj (hm.symm.trans hm₂)
      have hin : (f.name, x) ∈ input := by
        have := Value.mem_of_get hx
        cases identity with
        | obj fs => exact Option.some.inj hinput ▸ this
        | _ => cases hinput
      simpa using List.all_eq_true.mp hall.2 _ hin
    obtain ⟨f', x', hf', hx', hiff⟩ := hfield _ hn
    obtain rfl := Option.some.inj ((field_of_mem hvalid.fields.1 hf).symm.trans hf')
    obtain rfl := Option.some.inj (hx.symm.trans hx')
    refine hiff.mp ?_
    obtain ⟨m, g', hm₂, -, hid', hg'⟩ := recordKey_spec hagain
    obtain rfl := Except.ok.inj (hm.symm.trans hm₂)
    obtain ⟨f₂, y, hf₂, hy, hgy⟩ := hg' _ hn
    obtain rfl := Option.some.inj (hf'.symm.trans hf₂)
    rw [hid, get_ofEntries_map hn] at hy
    obtain rfl := Option.some.inj hy
    obtain ⟨_, _, hf₃, _, hgn⟩ := hg _ hn
    obtain rfl := Option.some.inj (hf'.symm.trans hf₃)
    rw [hgy, normalizeValue_stable hgn hgy]
  · intro hdated
    have hkeys : (model.identity.map fun n => (n, g n)).map Prod.fst = model.identity := by
      rw [List.map_map]
      exact List.map_id _
    have hnd : ((model.identity.map fun n => (n, g n)).map Prod.fst).Nodup := by
      rw [hkeys]
      exact hvalid.nodup
    have hagain : model.identity.mapM (fun n => do
        let field ← required (model.field n) "identity descriptor missing"
        let v ← required (key.identity.get n) "identity missing"
        return (n, ← s.normalizeValue c field v)) =
          .ok (model.identity.map fun n => (n, g n)) := by
      refine List.mapM_eq_ok_of fun n hn => ?_
      obtain ⟨f, x, hf, hx, hiff⟩ := hfield n hn
      have hname := field_name hf
      have hgn := hiff.mpr (hdated f (field_mem hf) x (by rw [hname]; exact hx))
      rw [hid, get_ofEntries_map hn, hf]
      simp only [Except.bind_eq_ok, required_eq_ok, Except.pure_eq_ok]
      exact ⟨f, rfl, g n, rfl, g n, hgn, rfl⟩
    simp only [Schema.recordKey, Except.bind_eq_ok, required_eq_ok, ensure_eq_ok, Except.pure_eq_ok]
    refine ⟨model, hm, key.identity.entries, ?_, (), ⟨?_, ?_⟩, _, hagain, ?_⟩
    · rw [hid, Value.ofEntries_eq_obj]; rfl
    · rw [hid, length_entries_ofEntries hnd, List.length_map]
    · refine List.all_eq_true.mpr fun e he => decide_eq_true ?_
      rw [← hkeys, ← mem_keys_ofEntries, ← hid]
      exact List.mem_map_of_mem he
    · rw [← hid, ← hname]

/-- What a state holds for a field has a date where the state has one. -/
theorem dated_stateInput {st x : Value} {f : FieldDescriptor} (h : stateInput st f = .ok x) :
    InYears z.year f.valueType x ↔ ∀ y, st.get f.name = some y → InYears z.year f.valueType y := by
  unfold Schema.stateInput at h
  split at h
  · rename_i y hy
    obtain rfl := Except.ok.inj h
    simp [hy]
  · rename_i hnone
    split at h
    · obtain rfl := Except.ok.inj h
      simp [hnone, inYears_null]
    · cases h

/-- A normalized state is accepted again, and unchanged, exactly when its dates have years of four
    digits; by the loader's rule and by the wire's. -/
theorem state_again (hv : s.Valid) (hu : c.UuidsReread) (z : Zoned c) {name : String}
    {st w : Value} {loader loader' : Bool} (hm : s.model name = .ok model)
    (h : s.state c name st loader = .ok w) :
    s.state c name w loader' = .ok w ↔ Dated z (stateFields model) st := by
  have hmem := model_mem hm
  have hnd := nodup_stateFields (hv.models _ hmem).fields.1
  obtain ⟨m, g, hm', rfl, hg⟩ := state_spec h
  obtain rfl := Except.ok.inj (hm.symm.trans hm')
  have hget := fun f hf => get_ofEntries_fields hnd (g := g) (f := f) hf
  have hfield : ∀ f ∈ stateFields model, s.normalizeValue c f (g f) = .ok (g f) ↔
      ∀ x, st.get f.name = some x → InYears z.year f.valueType x := by
    intro f hf
    obtain ⟨x, hx, hgf⟩ := hg f hf
    rw [normalizeValue_again hv hu z hmem (List.mem_filter.mp hf).1 hgf, dated_stateInput hx]
  constructor
  · intro hagain f hf
    refine (hfield f hf).mp ?_
    obtain ⟨m, g', hm₂, -, hg'⟩ := state_spec hagain
    obtain rfl := Except.ok.inj (hm.symm.trans hm₂)
    obtain ⟨y, hy, hyf⟩ := hg' f hf
    obtain rfl : g f = y := by simpa [Schema.stateInput, hget f hf] using hy
    obtain ⟨x, -, hgf⟩ := hg f hf
    rw [hyf, normalizeValue_stable hgf hyf]
  · intro hdated
    simp only [Schema.state, Except.bind_eq_ok, required_eq_ok, ensure_eq_ok, Except.pure_eq_ok]
    refine ⟨model, hm, _, by rw [Value.ofEntries_eq_obj]; rfl, (), ?_, _,
      List.mapM_eq_ok_of fun f hf => ?_, rfl⟩
    · refine List.all_eq_true.mpr fun e he => ?_
      obtain ⟨f, hf, rfl⟩ := List.mem_map.mp (Value.mem_entries_ofEntries he)
      obtain ⟨hfm, hnot⟩ := List.mem_filter.mp hf
      split
      · simp [field_of_mem (hv.models _ hmem).fields.1 hfm]
      · exact hnot
    · simp only [Except.bind_eq_ok, Except.pure_eq_ok]
      exact ⟨g f, by simp [Schema.stateInput, hget f hf], g f, (hfield f hf).mpr (hdated f hf), rfl⟩

/-- A normalized patch is accepted again, and unchanged, exactly when its dates have years of four
    digits. -/
theorem patch_again (hv : s.Valid) (hu : c.UuidsReread) (z : Zoned c) {name : String}
    {patch w : Value} (hm : s.model name = .ok model) (hkeys : (patch.entries.map Prod.fst).Nodup)
    (h : s.validatePatch c name patch = .ok w) :
    s.validatePatch c name w = .ok w ↔ Dated z model.fields patch := by
  have hmem := model_mem hm
  have hvalid := hv.models _ hmem
  simp only [Schema.validatePatch, Except.bind_eq_ok, required_eq_ok, Except.pure_eq_ok] at h
  obtain ⟨m, hm', input, hinput, entries, hes, rfl⟩ := h
  obtain rfl := Except.ok.inj (hm.symm.trans hm')
  obtain rfl : patch = .obj input := by
    cases patch with
    | obj fs => rw [Option.some.inj hinput]
    | _ => cases hinput
  obtain ⟨g, hg, rfl⟩ := List.mapM_eq_ok_map hes
  simp only [Except.bind_eq_ok, ensure_eq_ok, required_eq_ok, Except.pure_eq_ok] at hg
  -- each entry of the result comes from one of the patch
  have hentry : ∀ e ∈ input, (g e).1 = e.1 ∧ e.1 ∉ model.identity ∧
      ∃ f ∈ model.fields, model.field e.1 = some f ∧ f.name = e.1 ∧
        s.normalizeValue c f e.2 = .ok (g e).2 := by
    intro e he
    obtain ⟨-, hid, f, hf, x, hx, heq⟩ := hg e he
    rw [← heq]
    exact ⟨rfl, hid, f, field_mem hf, hf, field_name hf, hx⟩
  have hnd : ((input.map g).map Prod.fst).Nodup := by
    have hsame : input.map (Prod.fst ∘ g) = input.map Prod.fst :=
      List.map_congr_left fun e he => (hentry e he).1
    rw [List.map_map, hsame]
    exact hkeys
  have hagain : (∀ e ∈ input, ∀ f, model.field e.1 = some f →
      s.normalizeValue c f (g e).2 = .ok (g e).2) ↔ Dated z model.fields (.obj input) := by
    constructor
    · intro hall f hf x hx
      have he := Value.mem_of_get hx
      obtain ⟨-, -, f', hf', hfield, hname, hnorm⟩ := hentry _ he
      obtain rfl := Option.some.inj ((field_of_mem hvalid.fields.1 hf).symm.trans hfield)
      exact (normalizeValue_again hv hu z hmem hf hnorm).mp (hall _ he f hfield)
    · intro hdated e he f hf
      obtain ⟨-, -, f', hf', hfield, hname, hnorm⟩ := hentry e he
      obtain rfl := Option.some.inj (hf.symm.trans hfield)
      exact (normalizeValue_again hv hu z hmem hf' hnorm).mpr
        (hdated f hf' e.2 (hname ▸ get_of_mem_entries hkeys he))
  rw [← hagain]
  have hres : ∀ e, e ∈ (Value.ofEntries (input.map g)).entries ↔ e ∈ input.map g := fun e =>
    ⟨Value.mem_entries_ofEntries, fun he => Value.mem_of_get (Value.get_ofEntries_of_mem hnd he)⟩
  constructor
  · intro h e he f hf
    simp only [Schema.validatePatch, Except.bind_eq_ok, required_eq_ok, Except.pure_eq_ok] at h
    obtain ⟨m, hm₂, input', hinput', out, hout, -⟩ := h
    obtain rfl := Except.ok.inj (hm.symm.trans hm₂)
    have hin : g e ∈ input' := by
      rw [Value.ofEntries_eq_obj] at hinput'
      rw [← Option.some.inj hinput']
      exact (hres _).mpr (List.mem_map_of_mem he)
    obtain ⟨_, _, hge⟩ := List.forall₂_mem_left (List.mapM_eq_ok_iff.mp hout) hin
    simp only [Except.bind_eq_ok, ensure_eq_ok, required_eq_ok, Except.pure_eq_ok] at hge
    obtain ⟨-, -, f', hf', x, hx, -⟩ := hge
    obtain ⟨hk, -, f₂, -, hf₂, -, hnorm⟩ := hentry e he
    rw [hk] at hf'
    obtain rfl := Option.some.inj (hf.symm.trans hf')
    obtain rfl := Option.some.inj (hf.symm.trans hf₂)
    rw [hx, normalizeValue_stable hnorm hx]
  · intro hall
    have hout : (Value.ofEntries (input.map g)).entries.mapM (fun e => do
        ensure (e.1 ∉ model.identity) "identity is immutable"
        let field ← required (model.field e.1) "unknown patch field"
        return (e.1, ← s.normalizeValue c field e.2)) =
          .ok ((Value.ofEntries (input.map g)).entries.map id) := by
      refine List.mapM_eq_ok_of fun e he => ?_
      obtain ⟨a, ha, rfl⟩ := List.mem_map.mp ((hres e).mp he)
      obtain ⟨hk, hid, f, -, hf, -, -⟩ := hentry a ha
      simp only [Except.bind_eq_ok, ensure_eq_ok, required_eq_ok, Except.pure_eq_ok]
      exact ⟨(), hk ▸ hid, f, hk ▸ hf, _, hall a ha f hf, rfl⟩
    simp only [Schema.validatePatch, Except.bind_eq_ok, required_eq_ok, Except.pure_eq_ok]
    refine ⟨model, hm, _, by rw [Value.ofEntries_eq_obj]; rfl, _, hout, ?_⟩
    rw [List.map_id]
    exact ofEntries_entries (Value.ordered_ofEntries _)

end AheadSync
