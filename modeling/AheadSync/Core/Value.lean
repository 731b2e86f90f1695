import AheadSync.Lib.SortedMap
import Mathlib.Data.Rat.Defs

/-! JSON values as the runtime handles them. A number is compared by its value; the entries of an
    object are kept in key order by every operation that builds one, as `serde_json`'s map does. -/

namespace AheadSync

/-- A JSON value. -/
inductive Value where
  | null
  | bool (b : Bool)
  | num (n : ℚ)
  | str (s : String)
  | arr (xs : List Value)
  | obj (fs : List (String × Value))

namespace Value

mutual
/-- Values are compared structurally. -/
def decEq : (a b : Value) → Decidable (a = b)
  | .null, .null => isTrue rfl
  | .bool a, .bool b => decidable_of_iff (a = b) (by simp)
  | .num a, .num b => decidable_of_iff (a = b) (by simp)
  | .str a, .str b => decidable_of_iff (a = b) (by simp)
  | .arr a, .arr b => match decEqList a b with
    | isTrue h => isTrue (by rw [h])
    | isFalse h => isFalse (by simpa using h)
  | .obj a, .obj b => match decEqFields a b with
    | isTrue h => isTrue (by rw [h])
    | isFalse h => isFalse (by simpa using h)
  | .null, .bool _ | .null, .num _ | .null, .str _ | .null, .arr _ | .null, .obj _ => isFalse nofun
  | .bool _, .null | .bool _, .num _ | .bool _, .str _ | .bool _, .arr _ | .bool _, .obj _ =>
    isFalse nofun
  | .num _, .null | .num _, .bool _ | .num _, .str _ | .num _, .arr _ | .num _, .obj _ =>
    isFalse nofun
  | .str _, .null | .str _, .bool _ | .str _, .num _ | .str _, .arr _ | .str _, .obj _ =>
    isFalse nofun
  | .arr _, .null | .arr _, .bool _ | .arr _, .num _ | .arr _, .str _ | .arr _, .obj _ =>
    isFalse nofun
  | .obj _, .null | .obj _, .bool _ | .obj _, .num _ | .obj _, .str _ | .obj _, .arr _ =>
    isFalse nofun

def decEqList : (a b : List Value) → Decidable (a = b)
  | [], [] => isTrue rfl
  | [], _ :: _ | _ :: _, [] => isFalse nofun
  | x :: xs, y :: ys => match decEq x y, decEqList xs ys with
    | isTrue h, isTrue h' => isTrue (by rw [h, h'])
    | isFalse h, _ => isFalse fun e => h (List.cons.inj e).1
    | _, isFalse h => isFalse fun e => h (List.cons.inj e).2

def decEqFields : (a b : List (String × Value)) → Decidable (a = b)
  | [], [] => isTrue rfl
  | [], _ :: _ | _ :: _, [] => isFalse nofun
  | (k, x) :: xs, (l, y) :: ys => match decEq x y, decEqFields xs ys with
    | isTrue h, isTrue h' => decidable_of_iff (k = l) (by simp [h, h'])
    | isFalse h, _ => isFalse fun e => h (Prod.mk.inj (List.cons.inj e).1).2
    | _, isFalse h => isFalse fun e => h (List.cons.inj e).2
end

instance : DecidableEq Value := decEq

instance : Inhabited Value := ⟨null⟩

def isNull (v : Value) : Bool := v = null

/-- The entries of an object; none for any other value. -/
def entries : Value → List (String × Value)
  | .obj fs => fs
  | _ => []

def asObject : Value → Option (List (String × Value))
  | .obj fs => some fs
  | _ => none

def asStr : Value → Option String
  | .str s => some s
  | _ => none

def asArray : Value → Option (List Value)
  | .arr xs => some xs
  | _ => none

/-- `value.get(key)`. -/
def get (v : Value) (k : String) : Option Value := v.entries.lookup k

/-- `value[key]`, which is null for a missing entry. -/
def index (v : Value) (k : String) : Value := (v.get k).getD null

/-- `value[key] = v` on an object. -/
def set (o : Value) (k : String) (v : Value) : Value := obj (insertEntry k v o.entries)

/-- Set every entry of `fs`, in order. -/
def setAll (o : Value) (fs : List (String × Value)) : Value :=
  fs.foldl (fun acc e => acc.set e.1 e.2) o

/-- The object with the given entries; a later entry of a key replaces an earlier one. -/
def ofEntries (fs : List (String × Value)) : Value := (obj []).setAll fs

/-- One step of a lookup, on keys instead of their boolean comparison. -/
theorem lookup_cons_entry (k l : String) (w : Value) (fs : List (String × Value)) :
    ((l, w) :: fs).lookup k = if k = l then some w else fs.lookup k := by
  rw [List.lookup_cons]
  by_cases h : k = l
  · simp [h]
  · rw [beq_false_of_ne h, if_neg h]

theorem lookup_insertEntry (k k' : String) (v : Value) : ∀ fs : List (String × Value),
    (insertEntry k v fs).lookup k' = if k' = k then some v else fs.lookup k'
  | [] => by simp [insertEntry, lookup_cons_entry]
  | (l, w) :: fs => by
    have ih := lookup_insertEntry k k' v fs
    simp only [insertEntry]
    split
    · rename_i h; subst h
      simp only [lookup_cons_entry]; grind
    · split
      all_goals simp only [lookup_cons_entry, ih]
      all_goals grind

@[simp] theorem get_set (o : Value) (k k' : String) (v : Value) :
    (o.set k v).get k' = if k' = k then some v else o.get k' :=
  lookup_insertEntry k k' v o.entries

theorem mem_entries_set {o : Value} {k : String} {v : Value} {e : String × Value}
    (h : e ∈ (o.set k v).entries) : e = (k, v) ∨ e ∈ o.entries :=
  mem_insertEntry_key h

/-- A key that no assignment names keeps its value. -/
theorem get_setAll_of_notMem {k : String} : ∀ {fs : List (String × Value)} {o : Value},
    k ∉ fs.map Prod.fst → (o.setAll fs).get k = o.get k
  | [], _, _ => rfl
  | (l, w) :: fs, o, h => by
    simp only [List.map_cons, List.mem_cons, not_or] at h
    rw [setAll, List.foldl_cons, ← setAll, get_setAll_of_notMem h.2, get_set, if_neg h.1]

/-- After the assignments a key holds one of the values assigned to it, or what it held. -/
theorem get_setAll (k : String) : ∀ (fs : List (String × Value)) (o : Value),
    (o.setAll fs).get k = o.get k ∨ ∃ v, (k, v) ∈ fs ∧ (o.setAll fs).get k = some v
  | [], _ => Or.inl rfl
  | (l, w) :: fs, o => by
    rw [setAll, List.foldl_cons, ← setAll]
    rcases get_setAll k fs (o.set l w) with h | ⟨v, hv, h⟩
    · rw [h, get_set]
      split
      · rename_i hk; subst hk
        exact Or.inr ⟨w, List.mem_cons_self .., rfl⟩
      · exact Or.inl rfl
    · exact Or.inr ⟨v, List.mem_cons_of_mem _ hv, h⟩

theorem get_setAll_of_mem {k : String} {fs : List (String × Value)} (o : Value)
    (h : k ∈ fs.map Prod.fst) : ∃ v, (k, v) ∈ fs ∧ (o.setAll fs).get k = some v := by
  induction fs generalizing o with
  | nil => simp at h
  | cons e fs ih =>
    obtain ⟨l, w⟩ := e
    rw [setAll, List.foldl_cons, ← setAll]
    by_cases hk : k ∈ fs.map Prod.fst
    · obtain ⟨v, hv, hget⟩ := ih (o.set l w) hk
      exact ⟨v, List.mem_cons_of_mem _ hv, hget⟩
    · have hkl : k = l := by simpa [hk] using h
      subst hkl
      exact ⟨w, List.mem_cons_self .., by rw [get_setAll_of_notMem hk, get_set, if_pos rfl]⟩

/-- An object built from entries holds, for each of its keys, the value of one of them. -/
theorem get_ofEntries {k : String} {v : Value} {fs : List (String × Value)}
    (h : (ofEntries fs).get k = some v) : (k, v) ∈ fs := by
  rcases get_setAll k fs (obj []) with h' | ⟨w, hw, h'⟩
  · rw [ofEntries, h'] at h; cases h
  · rw [ofEntries, h'] at h
    exact Option.some.inj h ▸ hw

/-- An object built from entries with distinct keys holds each of them. -/
theorem get_ofEntries_of_mem {fs : List (String × Value)} (hnd : (fs.map Prod.fst).Nodup)
    {k : String} {v : Value} (h : (k, v) ∈ fs) : (ofEntries fs).get k = some v := by
  obtain ⟨w, hw, hget⟩ := get_setAll_of_mem (.obj []) (List.mem_map_of_mem (f := Prod.fst) h)
  obtain ⟨-, rfl⟩ := Prod.mk.inj (List.inj_on_of_nodup_map hnd hw h rfl)
  exact hget

/-- Objects built from entries of the same keys with related values hold related values. -/
theorem rel_ofEntries {R : Value → Value → Prop} {fs gs : List (String × Value)}
    (h : List.Forall₂ (fun x y => y.1 = x.1 ∧ R x.2 y.2) fs gs) (k : String) :
    Option.Rel R ((ofEntries fs).get k) ((ofEntries gs).get k) := by
  suffices hall : ∀ o o' : Value, Option.Rel R (o.get k) (o'.get k) →
      Option.Rel R ((o.setAll fs).get k) ((o'.setAll gs).get k) from hall _ _ .none
  induction h with
  | nil => exact fun _ _ ho => ho
  | @cons x y fs gs hxy _ ih =>
    intro o o' ho
    refine ih (o.set x.1 x.2) (o'.set y.1 y.2) ?_
    rw [get_set, get_set, hxy.1]
    split
    · exact .some hxy.2
    · exact ho

theorem mem_entries_setAll {e : String × Value} : ∀ {fs : List (String × Value)} {o : Value},
    e ∈ (o.setAll fs).entries → e ∈ fs ∨ e ∈ o.entries
  | [], _, h => Or.inr h
  | (l, w) :: fs, o, h => by
    rw [setAll, List.foldl_cons, ← setAll] at h
    rcases mem_entries_setAll h with h | h
    · exact Or.inl (List.mem_cons_of_mem _ h)
    · rcases mem_entries_set h with rfl | h
      · exact Or.inl (List.mem_cons_self ..)
      · exact Or.inr h

theorem mem_entries_ofEntries {e : String × Value} {fs : List (String × Value)}
    (h : e ∈ (ofEntries fs).entries) : e ∈ fs :=
  (mem_entries_setAll h).elim id fun h => absurd h (by simp [entries])

theorem ofEntries_eq_obj (fs : List (String × Value)) :
    ofEntries fs = obj (ofEntries fs).entries := by
  suffices h : ∀ (fs : List (String × Value)) (gs : List (String × Value)),
      (obj gs).setAll fs = obj ((obj gs).setAll fs).entries from h fs []
  intro fs
  induction fs with
  | nil => intro gs; rfl
  | cons e fs ih =>
    intro gs
    rw [setAll, List.foldl_cons, ← setAll]
    exact ih _

/-- An object whose keys are listed in order, as every operation that builds one leaves them. -/
def Ordered (o : Value) : Prop := o = obj o.entries ∧ o.entries.Pairwise (·.1 < ·.1)

theorem ordered_set {o : Value} {k : String} {v : Value} (h : o.Ordered) : (o.set k v).Ordered :=
  ⟨rfl, insertEntry_sorted k v h.2⟩

theorem ordered_setAll : ∀ {fs : List (String × Value)} {o : Value}, o.Ordered →
    (o.setAll fs).Ordered
  | [], _, h => h
  | e :: fs, o, h => by
    rw [setAll, List.foldl_cons, ← setAll]
    exact ordered_setAll (ordered_set h)

theorem ordered_ofEntries (fs : List (String × Value)) : (ofEntries fs).Ordered :=
  ordered_setAll ⟨rfl, List.Pairwise.nil⟩

theorem lookup_eq_find (k : String) : ∀ es : List (String × Value),
    es.lookup k = (es.find? (·.1 = k)).map (·.2)
  | [] => rfl
  | (l, w) :: es => by
    by_cases hk : k = l
    · simp [hk]
    · rw [lookup_cons_entry, if_neg hk, lookup_eq_find k es,
        List.find?_cons_of_neg (by simpa using Ne.symm hk)]

theorem mem_of_get {o : Value} {k : String} {v : Value} (h : o.get k = some v) :
    (k, v) ∈ o.entries := by
  rw [get, lookup_eq_find, Option.map_eq_some_iff] at h
  obtain ⟨⟨l, w⟩, he, rfl⟩ := h
  obtain rfl : l = k := by simpa using List.find?_some he
  exact List.mem_of_find?_eq_some he

theorem mem_entries_iff {o : Value} (h : o.Ordered) {k : String} {v : Value} :
    (k, v) ∈ o.entries ↔ o.get k = some v := by
  have hl : o.get k = SortedMap.lookup ⟨o.entries, h.2⟩ k := lookup_eq_find k o.entries
  rw [hl, SortedMap.lookup_eq_some_iff]

/-- Objects that answer every `get` alike are equal. -/
theorem ext_get {a b : Value} (ha : a.Ordered) (hb : b.Ordered) (h : ∀ k, a.get k = b.get k) :
    a = b := by
  rw [ha.1, hb.1]
  have hirr : Std.Irrefl fun a b : String × Value => a.1 < b.1 := ⟨fun a => lt_irrefl a.1⟩
  congr 1
  refine List.Pairwise.eq_of_mem_iff ha.2 hb.2 fun ⟨k, v⟩ => ?_
  rw [mem_entries_iff ha, mem_entries_iff hb, h]

end Value

end AheadSync
