import Mathlib.Data.List.Induction
import Mathlib.Data.List.Sort
import Mathlib.Data.String.Basic

/-! Maps kept as a list of entries in increasing key order. Two such maps are equal as soon as they
    answer every `lookup` alike, and iterating over one visits the keys in order. -/

/-- Insert or replace the entry of `k` in a list of entries kept in key order. -/
def insertEntry {κ υ : Type} [LinearOrder κ] (k : κ) (v : υ) : List (κ × υ) → List (κ × υ)
  | [] => [(k, v)]
  | (k', v') :: es =>
    if k = k' then (k, v) :: es
    else if k < k' then (k, v) :: (k', v') :: es
    else (k', v') :: insertEntry k v es

theorem mem_insertEntry_key {κ υ : Type} [LinearOrder κ] {k : κ} {v : υ} :
    ∀ {es : List (κ × υ)} {e : κ × υ}, e ∈ insertEntry k v es → e = (k, v) ∨ e ∈ es
  | [], e, h => by simpa [insertEntry] using h
  | (k', v') :: es, e, h => by
    simp only [insertEntry] at h
    split at h
    · rcases List.mem_cons.mp h with rfl | h
      · exact Or.inl rfl
      · exact Or.inr (List.mem_cons_of_mem _ h)
    · split at h
      · exact (List.mem_cons.mp h).imp_right id
      · rcases List.mem_cons.mp h with rfl | h
        · exact Or.inr (List.mem_cons_self ..)
        · exact (mem_insertEntry_key h).imp_right (List.mem_cons_of_mem _)

theorem insertEntry_sorted {κ υ : Type} [LinearOrder κ] (k : κ) (v : υ) :
    ∀ {es : List (κ × υ)}, es.Pairwise (·.1 < ·.1) → (insertEntry k v es).Pairwise (·.1 < ·.1)
  | [], _ => by simp [insertEntry]
  | (k', v') :: es, h => by
    obtain ⟨hhead, htail⟩ := List.pairwise_cons.mp h
    simp only [insertEntry]
    split
    · rename_i heq; subst heq
      exact List.pairwise_cons.mpr ⟨hhead, htail⟩
    · split
      · rename_i hlt
        refine List.pairwise_cons.mpr ⟨fun e he => ?_, h⟩
        rcases List.mem_cons.mp he with rfl | he
        · exact hlt
        · exact lt_trans hlt (hhead e he)
      · rename_i hne hnlt
        refine List.pairwise_cons.mpr ⟨fun e he => ?_, insertEntry_sorted k v htail⟩
        rcases mem_insertEntry_key he with rfl | he
        · exact lt_of_le_of_ne (not_lt.mp hnlt) (Ne.symm hne)
        · exact hhead e he

/-- A map whose entries are listed in strictly increasing key order. -/
structure SortedMap (κ υ : Type) [LinearOrder κ] where
  entries : List (κ × υ)
  sorted : entries.Pairwise (·.1 < ·.1)
  deriving DecidableEq

namespace SortedMap
variable {κ υ ω : Type} [LinearOrder κ]

/-- The map with no entry. -/
def empty : SortedMap κ υ := ⟨[], List.Pairwise.nil⟩

instance : Inhabited (SortedMap κ υ) := ⟨empty⟩

def lookup (m : SortedMap κ υ) (k : κ) : Option υ := (m.entries.find? (·.1 = k)).map (·.2)

def insert (m : SortedMap κ υ) (k : κ) (v : υ) : SortedMap κ υ :=
  ⟨insertEntry k v m.entries, insertEntry_sorted k v m.sorted⟩

def erase (m : SortedMap κ υ) (k : κ) : SortedMap κ υ :=
  ⟨m.entries.filter (·.1 ≠ k), m.sorted.filter _⟩

/-- Collect a list of entries; a later entry of a key replaces an earlier one. -/
def ofList (es : List (κ × υ)) : SortedMap κ υ := es.foldl (fun m e => m.insert e.1 e.2) empty

/-- Change every value, keeping the keys. -/
def mapValues (m : SortedMap κ υ) (f : κ → υ → ω) : SortedMap κ ω :=
  ⟨m.entries.map fun e => (e.1, f e.1 e.2), by
    rw [List.pairwise_map]; exact m.sorted⟩

/-- Keep the entries whose value `f` answers, with its answer. -/
def filterMap (m : SortedMap κ υ) (f : κ → υ → Option ω) : SortedMap κ ω :=
  ⟨m.entries.filterMap fun e => (f e.1 e.2).map (e.1, ·), by
    rw [List.pairwise_filterMap]
    refine m.sorted.imp fun {a b} hab a' ha b' hb => ?_
    obtain ⟨_, _, rfl⟩ := Option.map_eq_some_iff.mp ha
    obtain ⟨_, _, rfl⟩ := Option.map_eq_some_iff.mp hb
    exact hab⟩

def keys (m : SortedMap κ υ) : List κ := m.entries.map Prod.fst

def isEmpty (m : SortedMap κ υ) : Bool := m.entries.isEmpty

/-- `lookup` answers the value of an entry, which is unique for its key. -/
theorem lookup_eq_some_iff {m : SortedMap κ υ} {k : κ} {v : υ} :
    m.lookup k = some v ↔ (k, v) ∈ m.entries := by
  obtain ⟨es, hs⟩ := m
  simp only [lookup]
  induction es with
  | nil => simp
  | cons e es ih =>
    obtain ⟨hhead, htail⟩ := List.pairwise_cons.mp hs
    by_cases he : e.1 = k
    · rw [List.find?_cons_of_pos (by simpa using he)]
      constructor
      · rintro h
        obtain rfl : e.2 = v := by simpa using h
        exact List.mem_cons.mpr (Or.inl (by rw [← he]))
      · intro h
        rcases List.mem_cons.mp h with h | h
        · rw [← h]; rfl
        · exact absurd (hhead _ h) (by rw [he]; exact lt_irrefl _)
    · rw [List.find?_cons_of_neg (by simpa using he), ih htail]
      constructor
      · exact List.mem_cons_of_mem _
      · intro h
        rcases List.mem_cons.mp h with h | h
        · exact absurd (by rw [← h]) he
        · exact h

theorem nodup_keys (m : SortedMap κ υ) : m.keys.Nodup := by
  have h : m.keys.Pairwise (· < ·) := List.pairwise_map.mpr m.sorted
  exact h.imp fun h => ne_of_lt h

theorem lookup_eq_none_iff {m : SortedMap κ υ} {k : κ} : m.lookup k = none ↔ k ∉ m.keys := by
  simp [lookup, keys, List.find?_eq_none]
  grind

theorem isEmpty_eq_false {m : SortedMap κ υ} : m.isEmpty = false ↔ ∃ k v, m.lookup k = some v := by
  rw [isEmpty, List.isEmpty_eq_false_iff_exists_mem]
  constructor
  · rintro ⟨⟨k, v⟩, hmem⟩
    exact ⟨k, v, lookup_eq_some_iff.mpr hmem⟩
  · rintro ⟨k, v, hl⟩
    exact ⟨(k, v), lookup_eq_some_iff.mp hl⟩

/-- Maps that answer alike are equal. -/
theorem ext_lookup {m n : SortedMap κ υ} (h : ∀ k, m.lookup k = n.lookup k) : m = n := by
  obtain ⟨es, hes⟩ := m
  obtain ⟨fs, hfs⟩ := n
  have hmem : ∀ e, e ∈ es ↔ e ∈ fs := by
    rintro ⟨k, v⟩
    rw [← lookup_eq_some_iff (m := ⟨es, hes⟩), ← lookup_eq_some_iff (m := ⟨fs, hfs⟩), h]
  have hirr : Std.Irrefl fun a b : κ × υ => a.1 < b.1 := ⟨fun a => lt_irrefl a.1⟩
  congr
  exact List.Pairwise.eq_of_mem_iff hes hfs (fun e => hmem e)

@[simp] theorem lookup_empty (k : κ) : (empty : SortedMap κ υ).lookup k = none := rfl

theorem mem_insertEntry {k : κ} {v : υ} : ∀ {es : List (κ × υ)},
    es.Pairwise (·.1 < ·.1) → ∀ {e : κ × υ},
      e ∈ insertEntry k v es ↔ e = (k, v) ∨ (e ∈ es ∧ e.1 ≠ k)
  | [], _, e => by simp [insertEntry]
  | (k', v') :: es, h, e => by
    obtain ⟨hhead, htail⟩ := List.pairwise_cons.mp h
    simp only [insertEntry]
    split
    · rename_i heq; subst heq
      have hne : ∀ e ∈ es, e.1 ≠ k := fun e he => (hhead e he).ne'
      grind
    · split
      · rename_i hne hlt
        have hgt : ∀ e ∈ es, e.1 ≠ k := fun e he => (lt_trans hlt (hhead e he)).ne'
        grind
      · have ih := mem_insertEntry (k := k) (v := v) htail (e := e)
        grind

theorem lookup_insert (m : SortedMap κ υ) (k k' : κ) (v : υ) :
    (m.insert k v).lookup k' = if k' = k then some v else m.lookup k' := by
  refine Option.ext fun w => ?_
  rw [lookup_eq_some_iff, insert, mem_insertEntry m.sorted]
  split
  · grind
  · rw [lookup_eq_some_iff]; grind

@[simp] theorem lookup_insert_self (m : SortedMap κ υ) (k : κ) (v : υ) :
    (m.insert k v).lookup k = some v := by simp [lookup_insert]

@[simp] theorem lookup_insert_ne (m : SortedMap κ υ) {k k' : κ} (v : υ) (h : k' ≠ k) :
    (m.insert k v).lookup k' = m.lookup k' := by simp [lookup_insert, h]

theorem lookup_erase (m : SortedMap κ υ) (k k' : κ) :
    (m.erase k).lookup k' = if k' = k then none else m.lookup k' := by
  refine Option.ext fun w => ?_
  rw [lookup_eq_some_iff, erase]
  split
  · simp_all
  · rw [lookup_eq_some_iff]; simp_all

theorem lookup_mapValues (m : SortedMap κ υ) (f : κ → υ → ω) (k : κ) :
    (m.mapValues f).lookup k = (m.lookup k).map (f k) := by
  refine Option.ext fun w => ?_
  simp only [lookup_eq_some_iff, mapValues, List.mem_map, Prod.mk.injEq, Option.map_eq_some_iff]
  constructor
  · rintro ⟨⟨k', v⟩, he, rfl, rfl⟩; exact ⟨v, he, rfl⟩
  · rintro ⟨v, he, rfl⟩; exact ⟨(k, v), he, rfl, rfl⟩

theorem lookup_filterMap (m : SortedMap κ υ) (f : κ → υ → Option ω) (k : κ) :
    (m.filterMap f).lookup k = (m.lookup k).bind (f k) := by
  refine Option.ext fun w => ?_
  simp only [lookup_eq_some_iff, filterMap, List.mem_filterMap, Option.map_eq_some_iff,
    Option.bind_eq_some_iff, Prod.mk.injEq]
  constructor
  · rintro ⟨⟨k', v⟩, he, w', hw, rfl, rfl⟩; exact ⟨v, he, hw⟩
  · rintro ⟨v, he, hw⟩; exact ⟨(k, v), he, w, hw, rfl, rfl⟩

/-- Inserting the entries of a map overrides what they name. -/
theorem lookup_foldl_insert : ∀ {es : List (κ × υ)} (h : es.Pairwise (·.1 < ·.1))
    (m : SortedMap κ υ) (k : κ), (es.foldl (fun m e => m.insert e.1 e.2) m).lookup k =
      ((⟨es, h⟩ : SortedMap κ υ).lookup k).or (m.lookup k)
  | [], _, m, k => by simp [lookup]
  | e :: es, h, m, k => by
    obtain ⟨hhead, htail⟩ := List.pairwise_cons.mp h
    rw [List.foldl_cons, lookup_foldl_insert htail, lookup_insert]
    by_cases hk : k = e.1
    · subst hk
      have hnone : (⟨es, htail⟩ : SortedMap κ υ).lookup e.1 = none := by
        rw [lookup_eq_none_iff]
        intro hmem
        obtain ⟨x, hx, hxe⟩ := List.mem_map.mp hmem
        exact absurd (hhead x hx) (by rw [hxe]; exact lt_irrefl _)
      rw [hnone]
      simp [lookup]
    · have hne : ¬e.1 = k := fun heq => hk heq.symm
      simp [lookup, hk, hne]

/-- Collecting entries makes none up. -/
theorem mem_of_ofList {es : List (κ × υ)} {e : κ × υ} (h : e ∈ (ofList es).entries) : e ∈ es := by
  have hfold : ∀ (es : List (κ × υ)) (m : SortedMap κ υ),
      e ∈ (es.foldl (fun m e => m.insert e.1 e.2) m).entries → e ∈ es ∨ e ∈ m.entries := by
    intro es
    induction es with
    | nil => exact fun m h => Or.inr h
    | cons f es ih =>
      intro m h
      rcases ih (m.insert f.1 f.2) h with h | h
      · exact Or.inl (List.mem_cons_of_mem _ h)
      · rcases mem_insertEntry_key h with rfl | h
        · exact Or.inl (List.mem_cons_self ..)
        · exact Or.inr h
  rcases hfold es empty h with h | h
  · exact h
  · cases h

theorem lookup_ofList_isSome {es : List (κ × υ)} {k : κ} :
    ((ofList es).lookup k).isSome ↔ k ∈ es.map Prod.fst := by
  have h : ∀ (es : List (κ × υ)) (m : SortedMap κ υ),
      ((es.foldl (fun m e => m.insert e.1 e.2) m).lookup k).isSome ↔
        k ∈ es.map Prod.fst ∨ (m.lookup k).isSome := by
    intro es
    induction es with
    | nil => intro m; simp
    | cons e es ih =>
      intro m
      rw [List.foldl_cons, ih, lookup_insert, List.map_cons, List.mem_cons]
      by_cases hk : k = e.1
      · simp [hk]
      · simp [hk]
  rw [ofList, h]
  simp

/-- A map collected from entries with distinct keys holds each of them. -/
theorem lookup_ofList_of_mem {es : List (κ × υ)} (hnd : (es.map Prod.fst).Nodup) {k : κ} {v : υ}
    (h : (k, v) ∈ es) : (ofList es).lookup k = some v := by
  have hfold : ∀ (es : List (κ × υ)) (m : SortedMap κ υ), (es.map Prod.fst).Nodup →
      ((k, v) ∈ es ∨ k ∉ es.map Prod.fst ∧ m.lookup k = some v) →
      (es.foldl (fun m e => m.insert e.1 e.2) m).lookup k = some v := by
    intro es
    induction es with
    | nil =>
      rintro m - (h | ⟨-, h⟩)
      · cases h
      · exact h
    | cons e es ih =>
      intro m hnd h
      obtain ⟨hnot, hnd⟩ := List.nodup_cons.mp hnd
      refine ih (m.insert e.1 e.2) hnd ?_
      rcases h with h | ⟨hk, hm⟩
      · rcases List.mem_cons.mp h with rfl | h
        · exact Or.inr ⟨hnot, lookup_insert_self ..⟩
        · exact Or.inl h
      · simp only [List.map_cons, List.mem_cons, not_or] at hk
        exact Or.inr ⟨hk.2, by rw [lookup_insert_ne _ _ hk.1]; exact hm⟩
  exact hfold es empty hnd (Or.inl h)

@[simp] theorem keys_mapValues (m : SortedMap κ υ) (f : κ → υ → ω) :
    (m.mapValues f).keys = m.keys := by
  simp [keys, mapValues]

end SortedMap
