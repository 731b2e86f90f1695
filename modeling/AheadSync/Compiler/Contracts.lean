import AheadSync.Compiler.Accepted
import AheadSync.Compiler.History
import AheadSync.Core.Valid

/-! The history of read contracts: what a run of the compiler records of a model, and how a contract
    recorded later under the same version continues the earlier one. -/

namespace AheadSync
namespace Compiler

variable {d : Declarations} {v : Validated} {config : Compiled}

theorem le_latest {α : Type} {versions : SortedMap ℕ α} {n : ℕ} (h : n ∈ versions.keys) :
    n ≤ latest versions := by
  have hmax : ∀ (l : List ℕ) (a : ℕ), a ≤ l.foldl max a ∧ ∀ x ∈ l, x ≤ l.foldl max a := by
    intro l
    induction l with
    | nil => simp
    | cons x l ih =>
      intro a
      obtain ⟨hle, hall⟩ := ih (max a x)
      refine ⟨(le_max_left a x).trans hle, fun y hy => ?_⟩
      rcases List.mem_cons.mp hy with rfl | hy
      · exact (le_max_right a y).trans hle
      · exact hall y hy
  exact (hmax _ 0).2 n h

theorem latest_le {α : Type} {versions : SortedMap ℕ α} {bound : ℕ}
    (h : ∀ n ∈ versions.keys, n ≤ bound) : latest versions ≤ bound := by
  have hmax : ∀ (l : List ℕ) (a : ℕ), a ≤ bound → (∀ n ∈ l, n ≤ bound) → l.foldl max a ≤ bound := by
    intro l
    induction l with
    | nil => exact fun a ha _ => ha
    | cons x l ih =>
      intro a ha hl
      exact ih (max a x) (max_le ha (hl x (List.mem_cons_self ..)))
        fun n hn => hl n (List.mem_cons_of_mem _ hn)
  exact hmax _ 0 (Nat.zero_le _) h

/-- The latest version of a growing history never decreases. -/
theorem latest_mono {α : Type} {R : α → α → Prop} {h h' : Registry String α}
    (hgrown : Registry.Grown R h h') (name : String) :
    latest ((h.lookup name).getD .empty) ≤ latest ((h'.lookup name).getD .empty) :=
  latest_le fun _ hn =>
    le_latest (Registry.mem_versions.mpr (hgrown.isSome (Registry.mem_versions.mp hn)))

/-- A version that is not below the latest is not below any. -/
theorem newest_of_latest {α : Type} {h : Registry String α} {name : String} {n : ℕ}
    (hn : ¬n < latest ((h.lookup name).getD .empty)) {n' : ℕ} (h' : (h.entry name n').isSome) :
    n' ≤ n :=
  (le_latest (Registry.mem_versions.mpr h')).trans (not_lt.mp hn)

/-- A chain keeps what each of its runs keeps, and grows the history as each of them does. -/
theorem chain_grown {κ α β : Type} [LinearOrder κ] {reconcile : β → Option (Registry κ α) →
      Except String (Registry κ α)} {P : Registry κ α → Prop} {R : α → α → Prop}
    (ht : ∀ a b c, R a b → R b c → R a c) : ∀ {configs : List β} {h h' : Option (Registry κ α)},
    (∀ config ∈ configs, ∀ h h', P (h.getD .empty) → reconcile config h = .ok h' →
      P h' ∧ Registry.Grown R (h.getD .empty) h') →
    chain reconcile h configs = .ok h' → P (h.getD .empty) →
      P (h'.getD .empty) ∧ Registry.Grown R (h.getD .empty) (h'.getD .empty)
  | [], h, h', _, hrun, hP => by
    obtain rfl : h = h' := by simpa [chain] using hrun
    exact ⟨hP, .refl⟩
  | config :: configs, h, h', step, hrun, hP => by
    simp only [chain, List.foldlM_cons, Except.bind_eq_ok, Except.pure_eq_ok] at hrun
    obtain ⟨_, ⟨mid, hmid, rfl⟩, hrest⟩ := hrun
    obtain ⟨hPmid, hgrown⟩ := step config (List.mem_cons_self ..) h mid hP hmid
    obtain ⟨hP', hgrown'⟩ := chain_grown ht (h := some mid)
      (fun config hc => step config (List.mem_cons_of_mem _ hc)) hrest hPmid
    exact ⟨hP', hgrown.trans ht hgrown'⟩

/-! ### Contracts -/

/-- What is known of a recorded contract. -/
structure Recorded (name : String) (n : ℕ) (m : ModelContract) : Prop where
  name : m.name = name
  version : m.version = n
  valid : m.schema.Valid

/-- A later contract keeps every field and enum of an earlier one, and adds nullable fields. -/
structure Continues (old new : ModelContract) : Prop where
  identity : new.identity = old.identity
  fields : ∀ f ∈ old.fields, new.fields.find? (·.name = f.name) = some f
  added : ∀ f ∈ new.fields, old.fields.find? (·.name = f.name) = none → f.nullable = true
  enums : ∀ en ∈ old.enums, new.enums.find? (·.name = en.name) = some en
  distinct : (new.fields.map (·.name)).Nodup

theorem Continues.trans (a b c : ModelContract) (h : Continues a b) (h' : Continues b c) :
    Continues a c where
  identity := h'.identity.trans h.identity
  fields f hf := h'.fields f (List.mem_of_find?_eq_some (h.fields f hf))
  added f hf hnone := by
    cases hb : b.fields.find? (·.name = f.name) with
    | none => exact h'.added f hf hb
    | some g =>
      have hg := List.mem_of_find?_eq_some hb
      have hname : g.name = f.name := by simpa using List.find?_some hb
      have hgc := List.mem_of_find?_eq_some (h'.fields g hg)
      obtain rfl := List.inj_on_of_nodup_map h'.distinct hgc hf hname
      exact h.added g hg hnone
  enums en hen := h'.enums en (List.mem_of_find?_eq_some (h.enums en hen))
  distinct := h'.distinct

/-- The break check lets through exactly the differences of a contract that continues another. -/
theorem modelBreak_eq_none {old new : ModelContract} : modelBreak old new = none ↔
    (∀ f ∈ old.fields, new.fields.find? (·.name = f.name) = some f) ∧
    (∀ f ∈ new.fields, old.fields.find? (·.name = f.name) = none → f.nullable = true) ∧
    ∀ en ∈ old.enums, new.enums.find? (·.name = en.name) = some en := by
  simp only [modelBreak, Option.or_eq_none_iff, List.findSome?_eq_none_iff, and_assoc]
  refine and_congr (forall₂_congr fun f _ => ?_) (and_congr (forall₂_congr fun f _ => ?_)
    (forall₂_congr fun en _ => ?_))
  · cases new.fields.find? (·.name = f.name) with
    | none => simp
    | some g => simp
  · simp [Option.isNone_iff_eq_none]
  · simp

/-- What is captured of a model of an accepted schema is valid by itself. -/
theorem captureModel_recorded (hv : Accepted v) {m : ModelDescriptor} (hm : m ∈ v.models) :
    Recorded m.name m.version (captureModel (descriptors v) m) := by
  have hs : v.schema.Valid := Schema.validate_eq_ok.mp hv.schema
  have hmodel := hs.models m hm
  refine ⟨rfl, rfl, hs.narrow (by simp [ModelContract.schema]) List.filter_sublist ?_ ?_ rfl⟩
  · exact List.singleton_sublist.mpr (List.mem_map_of_mem (f := (·.name)) (a := m) hm)
  · simp only [ModelContract.schema, captureModel, List.mem_singleton, forall_eq]
    refine ⟨m, hm, rfl, hmodel.version, rfl, .refl _, fun f hf _ => hf, fun f hf en hty => ?_,
      rfl, rfl⟩
    obtain ⟨ht, -⟩ := hmodel.types f hf
    simp only [hty, Schema.validateType, ensure_eq_ok, List.any_eq_true, decide_eq_true_eq] at ht
    obtain ⟨e, he, rfl⟩ := ht
    refine List.any_eq_true.mpr ⟨e, List.mem_filter.mpr ⟨he, ?_⟩, by simp⟩
    exact List.any_eq_true.mpr ⟨f, hf, by simp [hty, namesEnum]⟩

/-- What recording a model checks and does. -/
theorem recordModel_spec {h h' : ModelHistory} {m : ModelDescriptor}
    (hrun : recordModel config h m = .ok h') :
    h' = h.record m.name m.version (captureModel config m) ∧
    (∀ n, (h.entry m.name n).isSome → n ≤ m.version) ∧
    (∀ n old, h.entry m.name n = some old → old.identity = m.identity) ∧
    ∀ old, h.entry m.name m.version = some old → modelBreak old (captureModel config m) = none := by
  simp only [recordModel, Except.bind_eq_ok, ensure_eq_ok, List.forM_eq_ok,
    Except.pure_eq_ok] at hrun
  obtain ⟨_, hlatest, _, hid, _, hbreak, rfl⟩ := hrun
  refine ⟨rfl, fun n => newest_of_latest hlatest, fun n old hold => ?_, fun old hold => ?_⟩
  · rw [← Registry.lookup_getD, SortedMap.lookup_eq_some_iff] at hold
    exact hid _ hold
  · simp only [checkContract, Registry.lookup_getD, hold, Option.bind_some] at hbreak
    split at hbreak
    · assumption
    · cases hbreak

/-- What holds of every history of contracts. -/
structure SoundContracts (h : ModelHistory) : Prop where
  recorded : h.Every Recorded
  identity : ∀ {name n n' a b}, h.entry name n = some a → h.entry name n' = some b →
    a.identity = b.identity

theorem recordModel_keeps (hv : Accepted v) {h h' : ModelHistory} {m : ModelDescriptor}
    (hm : m ∈ v.models) (hs : SoundContracts h)
    (hrun : recordModel (descriptors v) h m = .ok h') :
    SoundContracts h' ∧ Registry.Grown Continues h h' := by
  obtain ⟨rfl, hnewest, hid, hbreak⟩ := recordModel_spec hrun
  have hrec := captureModel_recorded hv hm
  have hdistinct : (m.fields.map (·.name)).Nodup :=
    ((Schema.validate_eq_ok.mp hv.schema).models m hm).fields.1
  refine ⟨⟨Registry.every_record hs.recorded hrec, fun {name n n' a b} ha hb => ?_⟩,
    Registry.grown_record ⟨hnewest, fun old hold => ?_⟩⟩
  · rw [Registry.entry_record] at ha hb
    split at ha <;> split at hb
    · exact (Option.some.inj ha ▸ Option.some.inj hb ▸ rfl)
    · rename_i hk _
      obtain rfl := Option.some.inj ha
      exact (hid n' b (hk.1 ▸ hb)).symm
    · rename_i _ hk
      obtain rfl := Option.some.inj hb
      exact hid n a (hk.1 ▸ ha)
    · exact hs.identity ha hb
  · obtain ⟨hf, ha, he⟩ := modelBreak_eq_none.mp (hbreak old hold)
    exact ⟨(hid _ old hold).symm, hf, ha, he, hdistinct⟩

/-- A run of the compiler keeps the history sound. -/
theorem reconcileModelHistory_keeps (hv : Accepted v) {h : Option ModelHistory} {h' : ModelHistory}
    (hs : SoundContracts (h.getD .empty))
    (hrun : reconcileModelHistory (descriptors v) h = .ok h') :
    SoundContracts h' ∧ Registry.Grown Continues (h.getD .empty) h' := by
  simp only [reconcileModelHistory, Except.bind_eq_ok] at hrun
  obtain ⟨_, -, hfold⟩ := hrun
  refine List.foldlM_ok_induction
    (fun x => SoundContracts x ∧ Registry.Grown Continues (h.getD .empty) x)
    (fun x m y hm ⟨hx, hgrown⟩ hxy => ?_) ⟨hs, .refl⟩ hfold
  obtain ⟨hy, hgrown'⟩ := recordModel_keeps hv hm hx hxy
  exact ⟨hy, hgrown.trans Continues.trans hgrown'⟩

theorem soundContracts_empty : SoundContracts .empty :=
  ⟨Registry.every_empty, fun h => by cases h⟩

/-- A chain of runs keeps the history sound. -/
theorem modelChain_keeps {vs : List Validated} (hvs : ∀ v ∈ vs, Accepted v)
    {h h' : Option ModelHistory} (hs : SoundContracts (h.getD .empty))
    (hrun : chain reconcileModelHistory h (vs.map descriptors) = .ok h') :
    SoundContracts (h'.getD .empty) ∧
      Registry.Grown Continues (h.getD .empty) (h'.getD .empty) := by
  refine chain_grown (P := SoundContracts) Continues.trans (fun config hc h h' hs hrun => ?_) hrun hs
  obtain ⟨v, hv, rfl⟩ := List.mem_map.mp hc
  exact reconcileModelHistory_keeps (hvs v hv) hs hrun

end Compiler
end AheadSync
