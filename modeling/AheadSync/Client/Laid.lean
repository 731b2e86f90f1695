import AheadSync.Client.Files

/-! Tables that a schema was laid out in: reconciling once more finds nothing to do. -/

namespace AheadSync
namespace Ddl
open Sql

/-- A model has its table with its key and its columns, and its unique indexes. -/
structure Covers (cat : Catalog) (m : ModelDescriptor) : Prop where
  table : ∃ t, cat.table m.name = some t ∧ t.key = m.identity ∧ ∀ f ∈ m.fields,
    ∃ c, t.columns.find? (·.name = f.name) = some c ∧ c.type = storageType f.valueType
  indexes : ∀ fields ∈ m.unique, (cat.index (indexName m fields)).isSome

/-- Tables keep their keys and their columns, and indexes stay. -/
structure Gains (cat cat' : Catalog) : Prop where
  table : ∀ name t, cat.table name = some t → ∃ t', cat'.table name = some t' ∧ t'.key = t.key ∧
    ∀ n c, t.columns.find? (·.name = n) = some c → t'.columns.find? (·.name = n) = some c
  indexes : ∀ name, (cat.index name).isSome → (cat'.index name).isSome

/-- No index has the name of a table. -/
def Parted (cat : Catalog) : Prop := ∀ name, (cat.index name).isSome → cat.table name = none

section Gains
variable {cat cat' cat'' : Catalog} {m : ModelDescriptor}

theorem gains_refl (cat : Catalog) : Gains cat cat := ⟨fun _ t h => ⟨t, h, rfl, fun _ _ h => h⟩, fun _ h => h⟩

theorem gains_trans (h : Gains cat cat') (h' : Gains cat' cat'') : Gains cat cat'' where
  table name t ht := by
    obtain ⟨t', ht', hkey, hcols⟩ := h.table name t ht
    obtain ⟨t'', ht'', hkey', hcols'⟩ := h'.table name t' ht'
    exact ⟨t'', ht'', hkey'.trans hkey, fun n c hc => hcols' n c (hcols n c hc)⟩
  indexes name hn := h'.indexes name (h.indexes name hn)

theorem gains_foldlM {α : Type} {f : Catalog → α → Except String Catalog} {l : List α}
    (hf : ∀ cat a cat', f cat a = .ok cat' → Gains cat cat') (h : l.foldlM f cat = .ok cat') :
    Gains cat cat' :=
  List.foldlM_ok_induction (Gains cat) (fun _ _ _ _ hs ht => gains_trans hs (hf _ _ _ ht)) (gains_refl cat) h

theorem covers_gains (h : Covers cat m) (hg : Gains cat cat') : Covers cat' m where
  table := by
    obtain ⟨t, ht, hkey, hcols⟩ := h.table
    obtain ⟨t', ht', hkey', hcols'⟩ := hg.table _ t ht
    refine ⟨t', ht', hkey'.trans hkey, fun f hf => ?_⟩
    obtain ⟨c, hc, htype⟩ := hcols f hf
    exact ⟨c, hcols' _ c hc, htype⟩
  indexes fields hfields := hg.indexes _ (h.indexes fields hfields)

/-- A table that is made is there. -/
theorem createTable_gains {t : Sql.Table} (h : cat.createTable t = .ok cat') : Gains cat cat' ∧
    (Parted cat → Parted cat') ∧ (cat.table t.name = none → cat'.table t.name = some t) := by
  unfold Catalog.createTable at h
  split_ifs at h with hr ht hi hc
  · obtain rfl := Except.ok.inj h
    refine ⟨gains_refl cat, id, fun hnone => ?_⟩
    rw [hnone] at ht
    cases ht
  · obtain rfl := Except.ok.inj h
    refine ⟨⟨fun name u hu => ⟨u, ?_, rfl, fun _ _ h => h⟩, fun name hn => hn⟩, fun hp name hn => ?_,
      fun hnone => ?_⟩
    · rw [Catalog.table, List.find?_append]
      rw [Catalog.table] at hu
      rw [hu, Option.some_or]
    · have hno : cat.table name = none := hp name hn
      rw [Catalog.table, List.find?_append]
      rw [Catalog.table] at hno
      rw [hno, Option.none_or, List.find?_singleton, if_neg]
      intro heq
      have hfold : Sql.fold t.name = Sql.fold name := by simpa using heq
      apply hi
      rw [Catalog.index, hfold]
      exact hn
    · rw [Catalog.table, List.find?_append]
      rw [Catalog.table] at hnone
      rw [hnone, Option.none_or, List.find?_singleton, if_pos (by simp)]

/-- An index that is made is there. -/
theorem createIndex_gains {i : Index} (h : cat.createIndex i = .ok cat') : Gains cat cat' ∧
    (Parted cat → Parted cat') ∧ (cat'.index i.name).isSome := by
  unfold Catalog.createIndex at h
  split_ifs at h with ht hr hn hi
  · obtain rfl := Except.ok.inj h
    exact ⟨gains_refl cat, id, hi⟩
  · obtain rfl := Except.ok.inj h
    have hindex : ∀ name, (({ cat with indexes := cat.indexes ++ [i] } : Catalog).index name) =
        (cat.index name).or (if Sql.fold i.name = Sql.fold name then some i else none) := by
      intro name
      rw [Catalog.index, List.find?_append, List.find?_singleton]
      simp [Catalog.index]
    refine ⟨⟨fun name u hu => ⟨u, hu, rfl, fun _ _ h => h⟩, fun name hn => ?_⟩, fun hp name hname => ?_, ?_⟩
    · rw [hindex, Option.isSome_or, hn, Bool.true_or]
    · rw [hindex] at hname
      by_cases hold : (cat.index name).isSome
      · exact hp name hold
      · rw [Option.not_isSome_iff_eq_none.mp hold, Option.none_or] at hname
        split_ifs at hname with hfold
        · have hnone : cat.table i.name = none := by simpa using hn
          exact (Catalog.table_congr hfold).symm.trans hnone
        · cases hname
    · rw [hindex]
      simp

/-- A column is added behind the others. -/
theorem addColumn_gains {name : String} {c : Column} (h : cat.addColumn name c = .ok cat') :
    Gains cat cat' ∧ (Parted cat → Parted cat') ∧ ∃ t, cat.table name = some t ∧
      t.columns.find? (·.name = c.name) = none ∧ ∃ t', cat'.table name = some t' ∧
        t'.columns.find? (·.name = c.name) = some c := by
  unfold Catalog.addColumn at h
  split at h
  · cases h
  · rename_i t ht
    split_ifs at h with hc
    obtain rfl := Except.ok.inj h
    have htable : ∀ n, ({ cat with tables := cat.tables.map (Table.extend name c) } : Catalog).table n =
        (cat.table n).map (Table.extend name c) := by
      intro n
      have hsame : (fun u : Sql.Table => decide (Sql.fold u.name = Sql.fold n)) ∘ Table.extend name c =
          fun u => decide (Sql.fold u.name = Sql.fold n) := by
        funext u
        rw [Function.comp_apply, Table.extend]
        split_ifs
        · simp only
        · simp only
      rw [Catalog.table, List.find?_map, hsame, Catalog.table]
    have hextend : ∀ u, (Table.extend name c u).key = u.key ∧ ∀ n d,
        u.columns.find? (·.name = n) = some d → (Table.extend name c u).columns.find? (·.name = n) = some d := by
      intro u
      rw [Table.extend]
      split_ifs
      · exact ⟨rfl, fun n d hd => by rw [List.find?_append, hd, Option.some_or]⟩
      · exact ⟨rfl, fun n d hd => hd⟩
    refine ⟨⟨fun n u hu => ⟨_, by rw [htable, hu, Option.map_some], hextend u⟩, fun n hn => hn⟩,
      fun hp n hn => ?_, t, ht, ?_, Table.extend name c t, by rw [htable, ht, Option.map_some], ?_⟩
    · rw [htable, hp n hn, Option.map_none]
    · rw [List.find?_eq_none]
      intro d hd hsame
      refine hc (List.mem_map.mpr ⟨d, hd, ?_⟩)
      rw [of_decide_eq_true hsame]
    · have hnone : t.columns.find? (·.name = c.name) = none := by
        rw [List.find?_eq_none]
        intro d hd hsame
        refine hc (List.mem_map.mpr ⟨d, hd, ?_⟩)
        rw [of_decide_eq_true hsame]
      rw [Table.extend, if_pos (Catalog.table_mem ht).2, List.find?_append, hnone, Option.none_or,
        List.find?_singleton, if_pos (by simp)]

theorem createIndexes_gains (h : createIndexes m cat = .ok cat') : Gains cat cat' ∧
    (Parted cat → Parted cat') ∧ ∀ fields ∈ m.unique, (cat'.index (indexName m fields)).isSome := by
  unfold createIndexes at h
  suffices hall : ∀ {l : List (List String)} {cat : Catalog},
      l.foldlM (fun cat fields => cat.createIndex (indexDdl m fields)) cat = .ok cat' →
      Gains cat cat' ∧ (Parted cat → Parted cat') ∧
        ∀ fields ∈ l, (cat'.index (indexName m fields)).isSome from hall h
  intro l
  induction l with
  | nil =>
    intro cat h
    obtain rfl := Except.ok.inj h
    exact ⟨gains_refl cat, id, nofun⟩
  | cons fields l ih =>
    intro cat h
    rw [List.foldlM_cons, Except.bind_eq_ok] at h
    obtain ⟨mid, hmid, h⟩ := h
    obtain ⟨hg, hp, hi⟩ := createIndex_gains hmid
    obtain ⟨hg', hp', hi'⟩ := ih h
    exact ⟨gains_trans hg hg', fun h => hp' (hp h),
      List.forall_mem_cons.mpr ⟨hg'.indexes _ hi, hi'⟩⟩

/-- A field of the table that exists, and the catalog that is left by the fields before it. -/
theorem reconcileField_gains {current : Sql.Table} {f : FieldDescriptor}
    (h : reconcileField m current cat f = .ok cat') : Gains cat cat' ∧ (Parted cat → Parted cat') ∧
      ((∃ t, cat.table m.name = some t ∧ ∀ n c, current.columns.find? (·.name = n) = some c →
          t.columns.find? (·.name = n) = some c) →
        ∃ t', cat'.table m.name = some t' ∧
          ∃ c, t'.columns.find? (·.name = f.name) = some c ∧ c.type = storageType f.valueType) := by
  unfold reconcileField at h
  split at h
  · rename_i c hc
    rw [Except.bind_eq_ok] at h
    obtain ⟨_, htype, h⟩ := h
    obtain rfl := Except.ok.inj h
    refine ⟨gains_refl cat, id, fun ⟨t, ht, hcols⟩ => ⟨t, ht, c, hcols _ _ hc, ensure_eq_ok.mp htype⟩⟩
  · simp only [Except.bind_eq_ok] at h
    obtain ⟨-, -, mid, hmid, h⟩ := h
    obtain ⟨hg, hp, -, -, -, t', ht', hc⟩ := addColumn_gains hmid
    obtain ⟨hg', hp', -⟩ := addColumn_gains h
    refine ⟨gains_trans hg hg', fun h => hp' (hp h), fun _ => ?_⟩
    obtain ⟨t'', ht'', -, hcols⟩ := hg'.table _ t' ht'
    exact ⟨t'', ht'', column f, hcols _ _ hc, rfl⟩

/-- A model that is reconciled has what it needs. -/
theorem reconcileModel_gains (hnd : (m.fields.map (·.name)).Nodup) (h : reconcileModel cat m = .ok cat') :
    Gains cat cat' ∧ (Parted cat → Parted cat') ∧ Covers cat' m := by
  unfold reconcileModel at h
  split at h
  · rename_i hnone
    simp only [modelDdl, Except.bind_eq_ok] at h
    obtain ⟨one, hone, two, htwo, h⟩ := h
    obtain ⟨hg₁, hp₁, ht₁⟩ := createTable_gains hone
    obtain ⟨hg₂, hp₂, -⟩ := createTable_gains htwo
    obtain ⟨hg₃, hp₃, hi⟩ := createIndexes_gains h
    have hrest := gains_trans hg₂ hg₃
    obtain ⟨t', ht', hkey, hcols⟩ := hrest.table _ _ (ht₁ hnone)
    refine ⟨gains_trans hg₁ hrest, fun h => hp₃ (hp₂ (hp₁ h)), ⟨⟨t', ht', hkey, fun f hf => ?_⟩, hi⟩⟩
    refine ⟨column f, hcols _ _ ?_, rfl⟩
    show (m.fields.map column).find? (·.name = f.name) = some (column f)
    rw [List.find?_map]
    have hfind : m.fields.find? ((fun c : Column => decide (c.name = f.name)) ∘ column) = some f :=
      List.find?_key hnd hf
    rw [hfind]
    rfl
  · rename_i current hcurrent
    simp only [Except.bind_eq_ok, ensure_eq_ok] at h
    obtain ⟨-, hkey, mid, hmid, h⟩ := h
    obtain ⟨hg', hp', hi⟩ := createIndexes_gains h
    -- every field of the model, after the fields before it
    suffices hall : ∀ {l : List FieldDescriptor} {cat : Catalog},
        l.foldlM (reconcileField m current) cat = .ok mid →
        (∃ t, cat.table m.name = some t ∧ t.key = current.key ∧
          ∀ n c, current.columns.find? (·.name = n) = some c → t.columns.find? (·.name = n) = some c) →
        Gains cat mid ∧ (Parted cat → Parted mid) ∧ ∀ f ∈ l, ∃ t', mid.table m.name = some t' ∧
          ∃ c, t'.columns.find? (·.name = f.name) = some c ∧ c.type = storageType f.valueType by
      obtain ⟨hg, hp, hf⟩ := hall hmid ⟨current, hcurrent, rfl, fun _ _ h => h⟩
      have hrest := gains_trans hg hg'
      obtain ⟨t', ht', hkey', -⟩ := hrest.table _ current hcurrent
      refine ⟨hrest, fun h => hp' (hp h), ⟨t', ht', hkey'.trans hkey, fun f hmem => ?_⟩, hi⟩
      obtain ⟨t, ht, c, hc, htype⟩ := hf f hmem
      obtain ⟨u, hu, -, hcols⟩ := hg'.table _ t ht
      obtain rfl := Option.some.inj (hu.symm.trans ht')
      exact ⟨c, hcols _ _ hc, htype⟩
    intro l
    induction l with
    | nil =>
      intro cat h _
      obtain rfl := Except.ok.inj h
      exact ⟨gains_refl cat, id, by simp⟩
    | cons f l ih =>
      rintro cat h ⟨t, ht, htkey, hcols⟩
      rw [List.foldlM_cons, Except.bind_eq_ok] at h
      obtain ⟨next, hnext, h⟩ := h
      obtain ⟨hg, hp, hfield⟩ := reconcileField_gains hnext
      obtain ⟨t₁, ht₁, hkey₁, hcols₁⟩ := hg.table _ t ht
      obtain ⟨hg₂, hp₂, hrest⟩ := ih h ⟨t₁, ht₁, hkey₁.trans htkey, fun n c hc => hcols₁ n c (hcols n c hc)⟩
      refine ⟨gains_trans hg hg₂, fun h => hp₂ (hp h), List.forall_mem_cons.mpr ⟨?_, hrest⟩⟩
      obtain ⟨t', ht', c, hc, htype⟩ := hfield ⟨t, ht, hcols⟩
      obtain ⟨t'', ht'', -, hcols''⟩ := hg₂.table _ t' ht'
      exact ⟨t'', ht'', c, hcols'' _ _ hc, htype⟩

/-- Reconciling lays every model out. -/
theorem reconcile_gains {models : List ModelDescriptor}
    (hnd : ∀ m ∈ models, (m.fields.map (·.name)).Nodup)
    (h : models.foldlM reconcileModel cat = .ok cat') :
    Gains cat cat' ∧ (Parted cat → Parted cat') ∧ ∀ m ∈ models, Covers cat' m := by
  induction models generalizing cat with
  | nil =>
    obtain rfl := Except.ok.inj h
    exact ⟨gains_refl cat, id, nofun⟩
  | cons m models ih =>
    rw [List.foldlM_cons, Except.bind_eq_ok] at h
    obtain ⟨mid, hmid, h⟩ := h
    obtain ⟨hg, hp, hm⟩ := reconcileModel_gains (hnd m (List.mem_cons_self ..)) hmid
    obtain ⟨hg', hp', hrest⟩ := ih (fun m hm => hnd m (List.mem_cons_of_mem _ hm)) h
    exact ⟨gains_trans hg hg', fun h => hp' (hp h),
      List.forall_mem_cons.mpr ⟨covers_gains hm hg', hrest⟩⟩

end Gains
end Ddl
end AheadSync
