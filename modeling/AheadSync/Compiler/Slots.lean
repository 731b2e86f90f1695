import AheadSync.Compiler.Carried
import AheadSync.Server.Grammar

/-! The slots of a validated mutation, as the server decodes them and as the client's policies read
    them. -/

namespace AheadSync
namespace Compiler

variable {v : Validated} {m : MutationDef}

/-- The input a compiled mutation is published with. -/
def published (v : Validated) (m : MutationDef) : MutationSnapshot :=
  capture (descriptors v) m.rendered

/-! ### The server -/

/-- A slot that is not single is none that the check of later slots lets pass. -/
theorem ambiguous_append {later s : MutationSlot} {before : List MutationSlot} :
    ∀ {mid : List MutationSlot}, (∀ x ∈ mid, x.cardinality ≠ .single) → s.cardinality ≠ .single →
      ambiguous later (mid ++ s :: before) = none →
      ¬(s.model = later.model ∧ s.operation = later.operation)
  | [], _, hs, h => by
    rintro ⟨hm, ho⟩
    simp [ambiguous, hm, ho, hs] at h
  | x :: mid, hmid, hs, h => by
    obtain ⟨hx, hmid⟩ := List.forall_mem_cons.mp hmid
    rw [List.cons_append, ambiguous] at h
    split at h
    · cases h
    · exact ambiguous_append hmid hs h

/-- Separated slots can be told apart by the grammar. -/
theorem unambiguous_of_separated {slots : List MutationSlot} (h : Separated slots) :
    slotGrammar.Unambiguous (slots.map (·.rendered.slot)) := by
  have hcount : ∀ s : MutationSlot, slotGrammar.count s.rendered.slot ≠ .one ↔
      s.cardinality ≠ .single := fun s => by
    change s.cardinality.count ≠ .one ↔ _
    cases s.cardinality <;> simp [Cardinality.count]
  have hclear : ∀ (rest : List MutationSlot) (before mid : List MutationSlot) (s : MutationSlot),
      slots = before ++ s :: (mid ++ rest) → s.cardinality ≠ .single →
      (∀ x ∈ mid, x.cardinality ≠ .single) →
      slotGrammar.Clear s.rendered.slot (rest.map (·.rendered.slot)) := by
    intro rest
    induction rest with
    | nil => exact fun _ _ _ _ _ _ => trivial
    | cons s' rest ih =>
      intro before mid s heq hs hmid
      refine ⟨fun op hop => ?_, fun hone => ?_⟩
      · have hnone := @h (before ++ s :: mid) s' rest (by simp [heq])
        rw [List.reverse_append, List.reverse_cons, List.append_assoc] at hnone
        refine ambiguous_append (fun x hx => hmid x (List.mem_reverse.mp hx)) hs hnone ?_
        simp only [slotGrammar, MutationSlot.rendered, SlotDescriptor.slot,
          decide_eq_true_eq] at hop
        exact ⟨hop.1.1.symm.trans hop.2.1, hop.1.2.symm.trans hop.2.2⟩
      · refine ih before (mid ++ [s']) s (by simp [heq]) hs fun x hx => ?_
        rcases List.mem_append.mp hx with hx | hx
        · exact hmid x hx
        · rw [List.mem_singleton.mp hx]
          exact (hcount s').mp hone
  have hall : ∀ (rest before : List MutationSlot), slots = before ++ rest →
      slotGrammar.Unambiguous (rest.map (·.rendered.slot)) := by
    intro rest
    induction rest with
    | nil => exact fun _ _ => trivial
    | cons s rest ih =>
      intro before heq
      exact ⟨fun hone => hclear rest before [] s heq ((hcount s).mp hone) (by simp),
        ih (before ++ [s]) (by simp [heq])⟩
  exact hall slots [] rfl

/-- The published input of a validated mutation is slotted. -/
theorem published_slotted (hv : Accepted v) (hm : m ∈ v.mutations) :
    Slotted (published v m).descriptor (published v m).input := by
  have hacc := hv.mutations m hm
  have hrec := capture_recorded hv hm
  have hslots : (published v m).descriptor.slots = m.slots.map (·.rendered.slot) := by
    simp [published, MutationSnapshot.descriptor, capture, MutationDef.rendered]
  refine ⟨?_, ?_, fun slot hslot binding hb => ?_⟩
  · rw [hslots, List.map_map]
    exact hacc.distinct
  · rw [hslots]
    exact unambiguous_of_separated hacc.separated
  · rw [hslots] at hslot ⊢
    obtain ⟨s, hs, rfl⟩ := List.mem_map.mp hslot
    obtain ⟨rb, hrb, rfl⟩ := List.mem_map.mp hb
    obtain ⟨_, -, -, -, hbindings⟩ := (hacc.slots s hs).model
    obtain ⟨_, -, parent, hfound, -, hsingle, -⟩ := hbindings rb hrb
    obtain ⟨model, hmodel, -⟩ := hrec.slots parent.rendered
      (List.mem_map_of_mem (List.mem_of_find?_eq_some hfound))
    refine ⟨parent.rendered.slot, ?_, hsingle, model, hmodel⟩
    rw [List.find?_map]
    change (m.slots.find? (·.name = rb.slot)).map _ = _
    rw [hfound]
    rfl

/-! ### The client -/

/-- The published input is the client's schema, narrowed. -/
theorem published_extends (hv : Accepted v) : (published v m).input.Extends v.schema := by
  have hs : v.schema.Valid := Schema.validate_eq_ok.mp hv.schema
  refine ⟨fun name x hx => ?_, fun {name model} hmodel => ?_⟩
  · obtain ⟨en, hen, hx⟩ := List.any_eq_true.mp hx
    exact List.any_eq_true.mpr ⟨en, (List.mem_filter.mp hen).1, hx⟩
  · obtain ⟨x, hused, rfl⟩ := List.mem_map.mp (model_mem hmodel)
    have hname := model_name hmodel
    obtain rfl : x.name = name := hname
    have hmem := (mem_usedModels.mp hused).1
    refine ⟨x, hs.model_of_mem hmem, rfl, fun {n f} hf => ?_⟩
    obtain rfl := field_name hf
    exact field_of_mem (hs.models x hmem).fields.1 (mem_captured.mp (field_mem hf)).1

theorem json_index {s : SlotDescriptor} {k : String} {x : Value}
    (h : (k, x) ∈ [("name", Value.str s.name), ("model", .str s.model),
      ("operation", .str s.operation.text), ("cardinality", .str s.cardinality.text)]) :
    s.json.index k = x := by
  rw [Value.index, SlotDescriptor.json, Value.get_ofEntries_of_mem ?_
    (List.mem_append_left _ (List.mem_append_left _ h))]
  · rfl
  · cases s.allowedPatchFields <;> split_ifs <;> simp

theorem rendered_index {r : RenderedMutation} {k : String} {x : Value}
    (h : (k, x) ∈ [("name", Value.str r.name), ("version", .num r.version),
      ("slots", .arr (r.slots.map (·.json))), ("sequence", r.sequence)]) : r.json.index k = x := by
  rw [Value.index, RenderedMutation.json, Value.get_ofEntries_of_mem (by simp) h]
  rfl

/-- The client takes for a slot what the grammar takes for it. -/
theorem takeSlot_eq (e : Engine) (s : SlotDescriptor) : ∀ ops : List Operation,
    e.takeSlot s.json ops = (do
      let keys ← (slotGrammar.take s.slot ops).1.mapM e.opKey
      return (keys, (slotGrammar.take s.slot ops).2))
  | [] => rfl
  | op :: ops => by
    have hfits : slotGrammar.fits s.slot op = true ↔ (s.json.index "model" = .str op.model ∧
        s.json.index "operation" = .str op.op.text) := by
      rw [json_index (k := "model") (x := .str s.model) (by simp),
        json_index (k := "operation") (x := .str s.operation.text) (by simp)]
      have htext : s.operation.text = op.op.text ↔ op.op = s.operation := by
        cases s.operation <;> cases op.op <;> decide
      simp only [slotGrammar, SlotDescriptor.slot, decide_eq_true_eq, Value.str.injEq, htext]
      exact and_congr eq_comm Iff.rfl
    have hcount : slotGrammar.count s.slot = .any ↔
        s.json.index "cardinality" = .str "list" := by
      rw [json_index (k := "cardinality") (x := .str s.cardinality.text) (by simp)]
      change s.cardinality.count = .any ↔ _
      cases s.cardinality <;> simp [Cardinality.count, Cardinality.text]
    rw [Engine.takeSlot, Greedy.take]
    by_cases hfit : s.json.index "model" = .str op.model ∧
        s.json.index "operation" = .str op.op.text
    · rw [if_pos hfit, if_pos (hfits.mpr hfit)]
      by_cases hlist : s.json.index "cardinality" = .str "list"
      · simp only [if_pos hlist, if_pos (hcount.mpr hlist), takeSlot_eq e s ops, List.mapM_cons]
        cases e.opKey op with
        | error err => rfl
        | ok key => cases (slotGrammar.take s.slot ops).1.mapM e.opKey <;> rfl
      · simp only [if_neg hlist, if_neg fun h => hlist (hcount.mp h), List.mapM_cons,
          List.mapM_nil]
        cases e.opKey op <;> rfl
    · rw [if_neg hfit, if_neg (fun h => hfit (hfits.mp h))]
      rfl

/-- The client finds the policy of a mutation under its name and version. -/
theorem policyFn_published (hv : Accepted v) (hm : m ∈ v.mutations) {q : Mutation}
    (hname : q.name = m.name) (hversion : q.version = m.version) :
    policyFn v.schema q = some m.rendered.json := by
  have hindex : ∀ x : MutationDef, x.rendered.json.index "name" = .str x.name ∧
      x.rendered.json.index "version" = .num x.version := fun x =>
    ⟨rendered_index (by simp [MutationDef.rendered]),
      rendered_index (by simp [MutationDef.rendered])⟩
  have hfound : ∀ l : List MutationDef, m ∈ l → (l.map (·.name)).Nodup →
      (l.map (·.rendered.json)).find? (fun p => p.index "name" = .str q.name ∧
        p.index "version" = .num q.version) = some m.rendered.json := by
    intro l
    induction l with
    | nil => intro h; cases h
    | cons x l ih =>
      intro hmem hnd
      obtain ⟨hnot, hnd⟩ := List.nodup_cons.mp hnd
      rcases List.mem_cons.mp hmem with rfl | hmem
      · rw [List.map_cons, List.find?_cons_of_pos (by simp [hindex, hname, hversion])]
      · rw [List.map_cons, List.find?_cons_of_neg, ih hmem hnd]
        have hne : x.name ≠ m.name := fun heq => hnot (List.mem_map.mpr ⟨m, hmem, heq.symm⟩)
        simp [hindex, hname, hne]
  exact hfound v.mutations hm hv.distinct

/-- The client fills the slots of a policy with what the grammar fills them with. -/
theorem slots_eq {e : Engine} {q : Mutation} {ss : List SlotDescriptor} {a : List Filling}
    (hslots : ss.map (·.slot) = a.map (·.slot))
    (hfill : slotGrammar.fill (a.map (·.slot)) q.operations = (a.map (·.operations), []))
    (hkeys : ∀ f ∈ a, f.operations.mapM e.opKey = .ok f.targets) {policy : Value}
    (hpolicy : policy.index "slots" = .arr (ss.map (·.json))) :
    e.slots q policy = .ok (.ofList (a.map fun f => (f.slot.name, f.targets))) := by
  have hfold : ∀ (a : List Filling) (ss : List SlotDescriptor) (ops : List Operation)
      (acc : SortedMap String (List RecordKey)), ss.map (·.slot) = a.map (·.slot) →
      slotGrammar.fill (a.map (·.slot)) ops = (a.map (·.operations), []) →
      (∀ f ∈ a, f.operations.mapM e.opKey = .ok f.targets) →
      (ss.map (·.json)).foldlM (fun (x : SortedMap String (List RecordKey) × List Operation) slot =>
        do
          let name ← required (slot.index "name").asStr "slot name missing"
          let taken ← e.takeSlot slot x.2
          return (SortedMap.insert x.1 name taken.1, taken.2)) (acc, ops) =
        .ok ((a.map fun f => (f.slot.name, f.targets)).foldl (fun m x => m.insert x.1 x.2) acc, [])
      := by
    intro a
    induction a with
    | nil =>
      intro ss ops acc hss hfill _
      obtain rfl : ss = [] := by simpa using hss
      obtain rfl : ops = [] := (Prod.mk.inj hfill).2
      rfl
    | cons f a ih =>
      intro ss ops acc hss hfill hkeys
      obtain ⟨s, ss, rfl⟩ := List.exists_cons_of_ne_nil (l := ss) (by rintro rfl; cases hss)
      obtain ⟨hs, hss⟩ := List.cons.inj hss
      obtain ⟨hf, hkeys⟩ := List.forall_mem_cons.mp hkeys
      obtain ⟨hops, hleft⟩ := Prod.mk.inj hfill
      obtain ⟨htake, hrest⟩ := List.cons.inj hops
      change s.slot = f.slot at hs
      change (slotGrammar.take f.slot ops).1 = f.operations at htake
      have hname : s.json.index "name" = .str f.slot.name := by
        rw [json_index (x := .str s.name) (by simp), ← hs]
        rfl
      simp only [List.map_cons, List.foldlM_cons, hname, Value.asStr, required, Except.ok_bind,
        takeSlot_eq, hs, htake, hf]
      exact ih ss _ _ hss (Prod.ext hrest hleft) hkeys
  rw [Engine.slots, hpolicy]
  exact congrArg (fun r => r >>= fun x => pure x.1) (hfold a ss q.operations .empty hslots hfill hkeys)

/-- A list of operations carries identities of exactly the fields of its models. -/
def ExactIdentities (s : Schema) (ops : List Operation) : Prop :=
  ∀ op ∈ ops, ∀ model, s.model op.model = .ok model → ∀ e ∈ op.identity.entries,
    e.1 ∈ model.identity

/-- For every mutation that validation accepts, decoding gives back each assignment of valid operations
    to its slots and accepts nothing else, and the client's policy fills the same slots with the same
    records when the identities carry nothing but their fields. -/
theorem slots_round_trip {d : Declarations} (hvalid : validate d = .ok v) (hm : m ∈ v.mutations)
    {b : Backend} {w : WireMutation} (hd : b.descriptor w = .ok (published v m).descriptor) :
    (∀ a, Assignment b (published v m).descriptor (published v m).input a →
      flattened a = w.operations → b.decode w = .ok (argumentsOf a, targetsOf a)) ∧
    (∀ args targets, b.decode w = .ok (args, targets) →
      ∃ a, Assignment b (published v m).descriptor (published v m).input a ∧
        flattened a = w.operations ∧ args = argumentsOf a ∧ targets = targetsOf a) ∧
    ∀ a, Assignment b (published v m).descriptor (published v m).input a →
      flattened a = w.operations → ExactIdentities v.schema w.operations →
      ∀ (e : Engine) (q : Mutation), e.schema = v.schema → e.codecs = b.codecs →
        q.name = m.name → q.version = m.version → q.operations = w.operations →
        ∃ policy, policyFn e.schema q = some policy ∧
          e.slots q policy = .ok (.ofList (a.map fun f => (f.slot.name, f.targets))) := by
  have hv := validate_accepted hvalid
  have hs := published_slotted hv hm
  refine ⟨fun a ha hops => (decode_iff hd hs).mpr ⟨a, ha, hops, rfl, rfl⟩,
    fun args targets hdecode => (decode_iff hd hs).mp hdecode, ?_⟩
  intro a ha hops hexact e q hschema hcodecs hname hversion hq
  refine ⟨m.rendered.json, hschema ▸ policyFn_published hv hm hname hversion,
    slots_eq ha.slots.symm ?_ (fun f hf => ?_) (rendered_index (by simp [published, capture]))⟩
  · rw [hq, ← hops, ha.slots]
    exact fill_flattened hs ha
  · change (f.taken.map (·.1)).mapM e.opKey = .ok (f.taken.map (·.2.2))
    rw [List.mapM_eq_ok_iff, List.forall₂_map_left_iff, List.forall₂_map_right_iff,
      List.forall₂_same]
    intro t ht
    obtain ⟨⟨hmodel, -⟩, harg⟩ := (ha.respects f hf).operations t ht
    obtain ⟨model, source, hfound, hsource, hkey⟩ := argument_key harg
    have hkey' := (published_extends hv).recordKey hkey
    obtain ⟨model', hfound', hext⟩ := (published_extends hv).models hfound
    have hmem : t.1 ∈ w.operations := by
      rw [← hops]
      exact List.mem_flatMap.mpr ⟨f, hf, List.mem_map_of_mem ht⟩
    have hid : Value.obj (source.filter (·.1 ∈ model.identity)) = t.1.identity := by
      obtain ⟨fs, hfs⟩ : ∃ fs, t.1.identity = .obj fs := by
        cases h : t.1.identity <;> simp_all [Value.asObject]
      obtain rfl : fs = source := by simpa [hfs, Value.asObject] using hsource
      rw [hfs, List.filter_eq_self.mpr fun x hx => ?_]
      have := hexact t.1 hmem model' (hmodel ▸ hfound') x (by rw [hfs]; exact hx)
      simpa [← hext.identity] using this
    rw [hid] at hkey'
    rw [Engine.opKey, Engine.recordKey, hschema, hcodecs, hmodel]
    exact hkey'

namespace Sample

/-- The mutation that saves a note. -/
def save : MutationDef :=
  { name := "Save", version := 1, slots := [⟨"note", "Note", .create, .single, none, []⟩] }

/-- A client of the schema of notes. -/
def noteEngine : Engine := ⟨dated, (noteSchema []).schema, by decide +kernel⟩

/-- A note saved under an identity with a member that is no identity field. -/
def savedAs (extra : List (String × Value)) : WireMutation :=
  { saved with operations := [{
      op := .create, model := "Note", identity := .ofEntries (("id", .str "n") :: extra)
      values := some (.ofEntries [("text", .str "milk")]) }] }

end Sample

/-- A saved note fills its slot on the server and on the client. -/
theorem slots_round_trip_notes : ∃ a, flattened a = Sample.saved.operations ∧
    argumentsOf a = .ofEntries [("note", .ofEntries [("identity", .ofEntries [("id", .str "n")]),
      ("data", .ofEntries [("text", .str "milk")])])] ∧
    ∃ policy, policyFn Sample.noteEngine.schema { name := "Save", operations := [] } = some policy ∧
      Sample.noteEngine.slots { name := "Save", operations := Sample.saved.operations } policy =
        .ok (.ofList (a.map fun f => (f.slot.name, f.targets))) := by
  obtain ⟨-, hdecode, hclient⟩ := slots_round_trip (v := Sample.noteSchema []) (m := Sample.save)
    (d := Sample.notes []) (by decide +kernel) (List.mem_singleton_self _)
    (b := Sample.notesBefore) (w := Sample.saved) rfl
  obtain ⟨a, ha, hops, hargs, -⟩ := hdecode _ [⟨"Note", .ofEntries [("id", .str "n")]⟩] rfl
  have hexact : ExactIdentities (Sample.noteSchema []).schema Sample.saved.operations := by
    intro op hop model hmodel x hx
    obtain rfl := List.mem_singleton.mp hop
    obtain rfl := List.mem_singleton.mp hx
    obtain rfl := Except.ok.inj hmodel
    decide
  obtain ⟨policy, hpolicy, hslots⟩ := hclient a ha hops hexact Sample.noteEngine
    { name := "Save", operations := Sample.saved.operations } rfl rfl rfl rfl rfl
  exact ⟨a, hops, hargs.symm, policy, hpolicy, hslots⟩

/-- The server leaves out a member of an identity that is no identity field; the client refuses it. -/
theorem not_slots_round_trip : ¬∀ (d : Declarations) (v : Validated) (m : MutationDef),
    validate d = .ok v → m ∈ v.mutations → ∀ (b : Backend) (w : WireMutation),
    b.descriptor w = .ok (published v m).descriptor →
    ∀ a, Assignment b (published v m).descriptor (published v m).input a →
      flattened a = w.operations → ∀ (e : Engine) (q : Mutation), e.schema = v.schema →
        e.codecs = b.codecs → q.name = m.name → q.version = m.version →
        q.operations = w.operations → ∃ policy, policyFn e.schema q = some policy ∧
          e.slots q policy = .ok (.ofList (a.map fun f => (f.slot.name, f.targets))) := by
  intro hall
  have hvalid : validate (Sample.notes []) = .ok (Sample.noteSchema []) := by decide +kernel
  have hmem : Sample.save ∈ (Sample.noteSchema []).mutations := List.mem_singleton_self _
  have hd : Sample.notesBefore.descriptor (Sample.savedAs [("by", .str "me")]) =
      .ok (published (Sample.noteSchema []) Sample.save).descriptor := rfl
  have hs := published_slotted (validate_accepted hvalid) hmem
  obtain ⟨a, ha, hops, -, -⟩ := (decode_iff hd hs).mp
    (show Sample.notesBefore.decode (Sample.savedAs [("by", .str "me")]) =
      .ok (_, [⟨"Note", .ofEntries [("id", .str "n")]⟩]) from rfl)
  obtain ⟨policy, hpolicy, hslots⟩ := hall _ _ _ hvalid hmem _ _ hd a ha hops Sample.noteEngine
    { name := "Save", operations := (Sample.savedAs [("by", .str "me")]).operations }
    rfl rfl rfl rfl rfl
  obtain rfl := Option.some.inj (hpolicy.symm.trans
    (show policyFn Sample.noteEngine.schema _ = some Sample.save.rendered.json from rfl))
  exact nomatch hslots.symm.trans (show Sample.noteEngine.slots _ Sample.save.rendered.json =
    .error "identity must contain exactly identity fields" from rfl)

end Compiler
end AheadSync
