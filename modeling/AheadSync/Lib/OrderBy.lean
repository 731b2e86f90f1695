import Mathlib.Data.List.Sort
import Mathlib.Data.Prod.Lex

/-! Rows selected in the order of a key. Where the rows of interest have increasing keys as they stand in
    their table, selecting them in key order changes nothing. -/

/-- `ORDER BY` a key. -/
def orderBy {α κ : Type} [LinearOrder κ] (key : α → κ) (rows : List α) : List α :=
  rows.insertionSort fun a b => key a ≤ key b

section OrderBy
variable {α κ : Type} [LinearOrder κ] {key : α → κ} {rows : List α}

theorem perm_orderBy (key : α → κ) (rows : List α) : (orderBy key rows).Perm rows :=
  List.perm_insertionSort _ rows

@[simp] theorem mem_orderBy {a : α} : a ∈ orderBy key rows ↔ a ∈ rows := List.mem_insertionSort _

theorem pairwise_orderBy (key : α → κ) (rows : List α) :
    (orderBy key rows).Pairwise (key · ≤ key ·) := by
  have htotal : Std.Total fun a b : α => key a ≤ key b := ⟨fun a b => le_total (key a) (key b)⟩
  have htrans : IsTrans α fun a b => key a ≤ key b := ⟨fun _ _ _ => le_trans⟩
  exact List.pairwise_insertionSort _ rows

/-- Rows with distinct keys come in strictly increasing order. -/
theorem pairwise_orderBy_lt (h : (rows.map key).Nodup) :
    (orderBy key rows).Pairwise (key · < key ·) := by
  have hnd : ((orderBy key rows).map key).Nodup := ((perm_orderBy key rows).map key).nodup_iff.mpr h
  exact ((pairwise_orderBy key rows).and (List.pairwise_map.mp hnd)).imp fun ⟨hle, hne⟩ =>
    lt_of_le_of_ne hle hne

/-- Lists of the same rows in strictly increasing order are equal. -/
theorem eq_of_perm_increasing {l m : List α} (hperm : l.Perm m) (hl : l.Pairwise (key · ≤ key ·))
    (hm : m.Pairwise (key · < key ·)) : l = m := by
  have hnd : (m.map key).Nodup := List.pairwise_map.mpr (hm.imp fun h => ne_of_lt h)
  refine List.Perm.eq_of_pairwise (fun a b ha hb (hab : key a ≤ key b) hba => ?_) hl
    (hm.imp fun h => le_of_lt h) hperm
  exact List.inj_on_of_nodup_map hnd (hperm.mem_iff.mp ha) hb (le_antisymm hab hba)

/-- The rows that pass a test, in increasing order as they stand, are selected as they stand. -/
theorem filter_orderBy {p : α → Bool} (h : (rows.filter p).Pairwise (key · < key ·)) :
    (orderBy key rows).filter p = rows.filter p :=
  eq_of_perm_increasing ((perm_orderBy key rows).filter p)
    ((pairwise_orderBy key rows).sublist List.filter_sublist) h

theorem orderBy_map {β : Type} {f : β → α} {rows : List β} :
    orderBy key (rows.map f) = (orderBy (key ∘ f) rows).map f :=
  (List.map_insertionSort _ _ f rows fun _ _ _ _ => Iff.rfl).symm

/-- Of rows with distinct keys, one passes the test for its key. -/
theorem filter_key_singleton {κ : Type} [DecidableEq κ] {key : α → κ} {a : α} : ∀ {rows : List α},
    (rows.map key).Nodup → a ∈ rows → rows.filter (key · = key a) = [a]
  | b :: rows, hnd, ha => by
    obtain ⟨hb, hnd⟩ := List.nodup_cons.mp hnd
    rcases List.mem_cons.mp ha with rfl | ha
    · have hrest : rows.filter (key · = key a) = [] := List.filter_eq_nil_iff.mpr fun c hc hk =>
        hb (of_decide_eq_true hk ▸ List.mem_map_of_mem hc)
      simp [hrest]
    · have hne : key b ≠ key a := fun h => hb (h ▸ List.mem_map_of_mem ha)
      rw [List.filter_cons_of_neg (by simpa using hne), filter_key_singleton hnd ha]

end OrderBy
