import Mathlib.Data.List.AList

/-! Tables with a primary key, over the association lists of Mathlib: a row is written or removed
    with `put`, read with `lookup`, and scanned with `rows`. A scan goes through the rows in the order
    they came in: a row that is written again keeps its place. -/

/-- A table from primary keys to rows. -/
abbrev Table (κ υ : Type) := AList fun _ : κ => υ

namespace AList
variable {κ υ : Type} [DecidableEq κ]

/-- Write the row at `k`, or remove it. A new row comes last. -/
def put (t : AList fun _ : κ => υ) (k : κ) : Option υ → AList fun _ : κ => υ
  | some v => if k ∈ t then t.replace k v else t ∪ singleton k v
  | none => t.erase k

/-- Every row with its key, in scan order. -/
def rows (t : AList fun _ : κ => υ) : List (κ × υ) := t.entries.map fun e => (e.1, e.2)

/-- A row written in its place is read there, and the others as they were. -/
theorem lookup_replace {t : AList fun _ : κ => υ} {k : κ} (hk : k ∈ t) (k' : κ) (v : υ) :
    (t.replace k v).lookup k' = if k' = k then some v else t.lookup k' := by
  suffices h : ∀ l : List (Σ _ : κ, υ), k ∈ l.keys → List.dlookup k' (List.kreplace k v l) =
      if k' = k then some v else List.dlookup k' l from h t.entries hk
  intro l hl
  induction l with
  | nil => cases hl
  | cons x l ih =>
    obtain ⟨key, row⟩ := x
    by_cases hx : k = key
    · subst hx
      have hhead : List.kreplace k v (⟨k, row⟩ :: l) = ⟨k, v⟩ :: l :=
        List.lookmap_cons_some _ l (by simp)
      rw [hhead]
      by_cases hk' : k' = k
      · subst hk'
        simp
      · rw [if_neg hk', List.dlookup_cons_ne l ⟨k, v⟩ hk', List.dlookup_cons_ne l ⟨k, row⟩ hk']
    · have hrest : List.kreplace k v (⟨key, row⟩ :: l) = ⟨key, row⟩ :: List.kreplace k v l :=
        List.lookmap_cons_none _ l (by simp [hx])
      have htail := ih ((List.mem_cons.mp hl).resolve_left hx)
      rw [hrest]
      by_cases hk' : k' = key
      · subst hk'
        simp [Ne.symm hx]
      · rw [List.dlookup_cons_ne (List.kreplace k v l) ⟨key, row⟩ hk', List.dlookup_cons_ne l ⟨key, row⟩ hk',
          htail]

theorem lookup_put (t : AList fun _ : κ => υ) (k k' : κ) (o : Option υ) :
    (t.put k o).lookup k' = if k' = k then o else t.lookup k' := by
  cases o with
  | none =>
    split
    · subst_vars
      simp [put]
    · rename_i h
      exact lookup_erase_ne h
  | some v =>
    change (if k ∈ t then t.replace k v else t ∪ singleton k v).lookup k' = _
    split
    · rename_i hk
      exact lookup_replace hk k' v
    · rename_i hk
      by_cases h : k' = k
      · subst h
        rw [lookup_union_right hk, if_pos rfl]
        simp [lookup]
      · rw [if_neg h]
        by_cases hk' : k' ∈ t
        · exact lookup_union_left hk'
        · rw [lookup_union_right hk', lookup_eq_none.mpr hk', lookup_eq_none]
          exact fun hmem => h (by simpa [mem_keys] using hmem)

@[simp] theorem lookup_put_self (t : AList fun _ : κ => υ) (k : κ) (o : Option υ) :
    (t.put k o).lookup k = o := by
  rw [lookup_put, if_pos rfl]

@[simp] theorem lookup_put_ne {t : AList fun _ : κ => υ} {k k' : κ} {o : Option υ} (h : k' ≠ k) :
    (t.put k o).lookup k' = t.lookup k' := by
  rw [lookup_put, if_neg h]

/-- A scan returns exactly the rows that `lookup` finds. -/
theorem mem_rows {t : AList fun _ : κ => υ} {k : κ} {v : υ} :
    (k, v) ∈ t.rows ↔ t.lookup k = some v := by
  rw [← Option.mem_def, mem_lookup_iff, rows, List.mem_map]
  constructor
  · rintro ⟨⟨k', v'⟩, he, heq⟩
    obtain ⟨rfl, rfl⟩ := Prod.mk.inj heq
    exact he
  · exact fun h => ⟨⟨k, v⟩, h, rfl⟩

omit [DecidableEq κ] in
/-- Keys are listed once. -/
theorem rows_keys_nodup (t : AList fun _ : κ => υ) : (t.rows.map Prod.fst).Nodup := by
  have h : t.rows.map Prod.fst = t.keys := by simp [rows, keys, List.keys, Function.comp_def]
  rw [h]; exact t.keys_nodup

end AList
