import AheadSync.Lib.Outcome
import AheadSync.Lib.SortedMap

/-! Registries of numbered versions. A version recorded for a name is never below those the name has,
    and one that is recorded again is an allowed change of what it replaces. Whatever is recorded on
    top, versions stay, those below the latest as they are, the others changed only as allowed. -/

/-- The versions of each name. -/
abbrev Registry (κ α : Type) [LinearOrder κ] := SortedMap κ (SortedMap ℕ α)

namespace Registry
variable {κ α : Type} [LinearOrder κ] {r r' r'' : Registry κ α} {R : α → α → Prop}

/-- What is recorded as a version of a name. -/
def entry (r : Registry κ α) (k : κ) (v : ℕ) : Option α := (r.lookup k).bind (·.lookup v)

/-- Record a version of a name. -/
def record (r : Registry κ α) (k : κ) (v : ℕ) (a : α) : Registry κ α :=
  r.insert k (((r.lookup k).getD .empty).insert v a)

/-- A version may be recorded: none is above it, and what it replaces allows the change. -/
structure Allows (R : α → α → Prop) (r : Registry κ α) (k : κ) (v : ℕ) (a : α) : Prop where
  newest : ∀ v', (r.entry k v').isSome → v' ≤ v
  change : ∀ old, r.entry k v = some old → R old a

/-- What recording versions does to a registry. -/
structure Grown (R : α → α → Prop) (r r' : Registry κ α) : Prop where
  kept : ∀ {k v a}, r.entry k v = some a → ∃ a', r'.entry k v = some a' ∧ (a' = a ∨ R a a')
  superseded : ∀ {k v v' a}, r.entry k v = some a → (r.entry k v').isSome → v < v' →
    r'.entry k v = some a

theorem lookup_getD (k : κ) (v : ℕ) : ((r.lookup k).getD .empty).lookup v = r.entry k v := by
  unfold entry
  cases r.lookup k <;> rfl

theorem mem_versions {k : κ} {v : ℕ} :
    v ∈ ((r.lookup k).getD .empty).keys ↔ (r.entry k v).isSome := by
  rw [← lookup_getD, ← not_iff_not, ← SortedMap.lookup_eq_none_iff, Option.not_isSome_iff_eq_none]

theorem entry_record (k k' : κ) (v v' : ℕ) (a : α) :
    (r.record k v a).entry k' v' = if k' = k ∧ v' = v then some a else r.entry k' v' := by
  by_cases hk : k' = k
  · subst hk
    simp only [record, entry, SortedMap.lookup_insert_self, Option.bind_some,
      SortedMap.lookup_insert, lookup_getD, true_and]
  · simp only [record, entry, SortedMap.lookup_insert_ne _ _ hk, hk, false_and, if_false]

theorem Grown.refl : Grown R r r where
  kept h := ⟨_, h, Or.inl rfl⟩
  superseded h _ _ := h

theorem Grown.isSome (h : Grown R r r') {k : κ} {v : ℕ} (hv : (r.entry k v).isSome) :
    (r'.entry k v).isSome := by
  obtain ⟨a, ha⟩ := Option.isSome_iff_exists.mp hv
  obtain ⟨a', ha', -⟩ := h.kept ha
  exact Option.isSome_of_eq_some ha'

theorem Grown.trans (ht : ∀ a b c, R a b → R b c → R a c) (h : Grown R r r')
    (h' : Grown R r' r'') : Grown R r r'' where
  kept ha := by
    obtain ⟨b, hb, hab⟩ := h.kept ha
    obtain ⟨c, hc, hbc⟩ := h'.kept hb
    refine ⟨c, hc, ?_⟩
    rcases hab with rfl | hab
    · exact hbc
    · rcases hbc with rfl | hbc
      · exact Or.inr hab
      · exact Or.inr (ht _ _ _ hab hbc)
  superseded ha hv' hlt := h'.superseded (h.superseded ha hv' hlt) (h.isSome hv') hlt

/-- Recording an allowed version grows a registry. -/
theorem grown_record {k : κ} {v : ℕ} {a : α} (h : Allows R r k v a) :
    Grown R r (r.record k v a) where
  kept {k' v' a'} ha' := by
    rw [entry_record]
    split
    · rename_i heq
      obtain ⟨rfl, rfl⟩ := heq
      exact ⟨a, rfl, Or.inr (h.change a' ha')⟩
    · exact ⟨a', ha', Or.inl rfl⟩
  superseded {k' v' v'' a'} ha' hv'' hlt := by
    rw [entry_record, if_neg]
    · exact ha'
    · rintro ⟨rfl, rfl⟩
      exact absurd (h.newest v'' hv'') (by omega)

/-- Every recorded version has a property. -/
def Every (P : κ → ℕ → α → Prop) (r : Registry κ α) : Prop :=
  ∀ {k v a}, r.entry k v = some a → P k v a

variable {P : κ → ℕ → α → Prop}

theorem every_empty : Every P .empty := fun h => by cases h

theorem every_record {k : κ} {v : ℕ} {a : α} (h : Every P r) (ha : P k v a) :
    Every P (r.record k v a) := fun {k' v' a'} he => by
  rw [entry_record] at he
  split at he
  · rename_i heq
    obtain ⟨rfl, rfl⟩ := heq
    obtain rfl := Option.some.inj he
    exact ha
  · exact h he

/-- Recording one version of each of several names. -/
theorem entry_foldlM {β ε : Type} {f : Registry κ α → β → Except ε (Registry κ α)} {name : β → κ}
    {version : β → ℕ} {value : β → α} {k : κ} {v : ℕ} {a : α}
    (hf : ∀ r b r', f r b = .ok r' → r' = r.record (name b) (version b) (value b)) :
    ∀ {bs : List β} {r r' : Registry κ α}, (bs.map name).Nodup → bs.foldlM f r = .ok r' →
      (r'.entry k v = some a ↔ (∃ b ∈ bs, name b = k ∧ version b = v ∧ value b = a) ∨
        (∀ b ∈ bs, ¬(name b = k ∧ version b = v)) ∧ r.entry k v = some a)
  | [], r, r', _, h => by
    obtain rfl : r = r' := by simpa using h
    simp
  | b :: bs, r, r', hnd, h => by
    obtain ⟨hnot, hnd⟩ := List.nodup_cons.mp hnd
    simp only [List.foldlM_cons, Except.bind_eq_ok] at h
    obtain ⟨mid, hmid, h⟩ := h
    obtain rfl := hf r b mid hmid
    rw [entry_foldlM hf hnd h, entry_record]
    by_cases hb : k = name b ∧ v = version b
    · obtain ⟨rfl, rfl⟩ := hb
      have hother : ∀ x ∈ bs, ¬(name x = name b ∧ version x = version b) := fun x hx heq =>
        hnot (heq.1 ▸ List.mem_map_of_mem hx)
      have hnone : ¬∃ x ∈ bs, name x = name b ∧ version x = version b ∧ value x = a := by
        rintro ⟨x, hx, hn, hv, -⟩
        exact hother x hx ⟨hn, hv⟩
      simp only [hnone, and_self, if_true, List.mem_cons, exists_eq_or_imp, forall_eq_or_imp,
        true_and, false_or, or_false, not_true, false_and, Option.some.injEq]
      exact ⟨fun h => h.2, fun h => ⟨hother, h⟩⟩
    · have hb' : ¬(name b = k ∧ version b = v) := fun heq => hb ⟨heq.1.symm, heq.2.symm⟩
      have hvalue : ¬(name b = k ∧ version b = v ∧ value b = a) := fun heq =>
        hb' ⟨heq.1, heq.2.1⟩
      simp only [hb, hb', hvalue, if_false, List.mem_cons, exists_eq_or_imp, forall_eq_or_imp,
        false_or, not_false_iff, true_and]

end Registry
