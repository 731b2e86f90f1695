import Mathlib.Data.List.Count
import Mathlib.Logic.Function.Basic

/-! A ledger of versions and deliveries. Every record has a stamp, which counts its changes; every
    channel has a head, which counts its publications; and an entry says at which cursor of a channel
    a record was last published, and at which stamp. -/

/-- The last publication of one record on one channel. -/
structure LedgerEntry where
  cursor : ℕ
  stamp : ℕ
  deriving DecidableEq

/-- Channels `χ`, records `κ`. -/
structure Ledger (χ κ : Type) where
  stamp : κ → Option ℕ
  head : χ → ℕ
  entry : χ → κ → Option LedgerEntry

namespace Ledger
variable {χ κ : Type} [DecidableEq χ] [DecidableEq κ]

/-- A change of `k`: its next stamp, which is 1 when it had none. -/
def advance (l : Ledger χ κ) (k : κ) : Ledger χ κ :=
  { l with stamp := Function.update l.stamp k (some ((l.stamp k).getD 0 + 1)) }

/-- A publication of `k` on `c`, at the next cursor and at the stamp `k` has; a record without one
    gets its first. -/
def announce (l : Ledger χ κ) (c : χ) (k : κ) : Ledger χ κ where
  stamp := Function.update l.stamp k (some ((l.stamp k).getD 1))
  head := Function.update l.head c (l.head c + 1)
  entry := Function.update l.entry c
    (Function.update (l.entry c) k (some ⟨l.head c + 1, (l.stamp k).getD 1⟩))

/-- Every change of a settlement, then every publication of it. -/
def settle (l : Ledger χ κ) (changed : List κ) (announced : List (χ × κ)) : Ledger χ κ :=
  announced.foldl (fun l p => l.announce p.1 p.2) (changed.foldl advance l)

/-- No entry is ahead of its record or of its channel, and no two share a cursor. -/
structure Accounted (l : Ledger χ κ) : Prop where
  stamps : ∀ {c k e}, l.entry c k = some e → ∃ s, l.stamp k = some s ∧ e.stamp ≤ s
  heads : ∀ {c k e}, l.entry c k = some e → e.cursor ≤ l.head c
  distinct : ∀ {c k k' e e'}, l.entry c k = some e → l.entry c k' = some e' →
    e.cursor = e'.cursor → k = k'

/-- What a settlement does, told without its steps: each change advances its record by one and nothing
    else moves a stamp, but for the first one of a record published without any; each channel's head
    counts its publications; and a record's entry is its last publication, at the cursor that counts
    the publications up to it and at the record's stamp. -/
structure Settled (l : Ledger χ κ) (changed : List κ) (announced : List (χ × κ)) (l' : Ledger χ κ) :
    Prop where
  advanced : ∀ k ∈ changed, l'.stamp k = some ((l.stamp k).getD 0 + 1)
  kept : ∀ k ∉ changed, l.stamp k ≠ none → l'.stamp k = l.stamp k
  first : ∀ k ∉ changed, l.stamp k = none →
    l'.stamp k = if k ∈ announced.map Prod.snd then some 1 else none
  head : ∀ c, l'.head c = l.head c + (announced.map Prod.fst).count c
  published : ∀ {before after c k}, announced = before ++ (c, k) :: after → (c, k) ∉ after →
    ∃ s, l'.stamp k = some s ∧
      l'.entry c k = some ⟨l.head c + (before.map Prod.fst).count c + 1, s⟩
  spared : ∀ c k, (c, k) ∉ announced → l'.entry c k = l.entry c k

section Advance
variable {l : Ledger χ κ} {k : κ}

omit [DecidableEq χ] in
theorem advance_stamp (k' : κ) :
    (l.advance k).stamp k' = if k' = k then some ((l.stamp k).getD 0 + 1) else l.stamp k' := by
  simp [advance, Function.update_apply]

omit [DecidableEq χ] in
/-- Advancing records listed once leaves the rest of the ledger and moves each of them by one. -/
theorem advances : ∀ {changed : List κ} {l : Ledger χ κ}, changed.Nodup →
    (changed.foldl advance l).head = l.head ∧ (changed.foldl advance l).entry = l.entry ∧
      ∀ k, (changed.foldl advance l).stamp k =
        if k ∈ changed then some ((l.stamp k).getD 0 + 1) else l.stamp k
  | [], l, _ => ⟨rfl, rfl, fun k => by simp⟩
  | k :: changed, l, hnd => by
    obtain ⟨hk, hnd⟩ := List.nodup_cons.mp hnd
    obtain ⟨hhead, hentry, hstamp⟩ := advances (l := l.advance k) hnd
    refine ⟨hhead, hentry, fun k' => ?_⟩
    rw [List.foldl_cons, hstamp, advance_stamp]
    by_cases he : k' = k
    · subst he; simp [hk]
    · simp [he]

end Advance

section Announce
variable {l : Ledger χ κ} {c : χ} {k : κ}

theorem announce_stamp (k' : κ) :
    (l.announce c k).stamp k' = if k' = k then some ((l.stamp k).getD 1) else l.stamp k' := by
  simp [announce, Function.update_apply]

theorem announce_head (c' : χ) :
    (l.announce c k).head c' = if c' = c then l.head c + 1 else l.head c' := by
  simp [announce, Function.update_apply]

theorem announce_entry (c' : χ) (k' : κ) : (l.announce c k).entry c' k' =
    if c' = c ∧ k' = k then some ⟨l.head c + 1, (l.stamp k).getD 1⟩ else l.entry c' k' := by
  by_cases hc : c' = c
  · subst hc; simp [announce, Function.update_apply]
  · simp [announce, hc]

/-- A publication never moves the stamp of a record that has one. -/
theorem announce_keeps {k' : κ} {s : ℕ} (h : l.stamp k' = some s) :
    (l.announce c k).stamp k' = some s := by
  rw [announce_stamp]
  split
  · subst_vars; simp [h]
  · exact h

/-- The stamps after a run of publications. -/
theorem announces_stamp : ∀ {announced : List (χ × κ)} {l : Ledger χ κ} (k : κ),
    (announced.foldl (fun l p => l.announce p.1 p.2) l).stamp k =
      if k ∈ announced.map Prod.snd then some ((l.stamp k).getD 1) else l.stamp k
  | [], l, k => by simp
  | p :: announced, l, k => by
    rw [List.foldl_cons, announces_stamp, announce_stamp]
    by_cases hk : k = p.2
    · subst hk; simp
    · simp only [hk, if_false, List.map_cons, List.mem_cons, false_or]

/-- The heads after a run of publications. -/
theorem announces_head : ∀ {announced : List (χ × κ)} {l : Ledger χ κ} (c : χ),
    (announced.foldl (fun l p => l.announce p.1 p.2) l).head c =
      l.head c + (announced.map Prod.fst).count c
  | [], l, c => by simp
  | p :: announced, l, c => by
    rw [List.foldl_cons, announces_head, announce_head, List.map_cons, List.count_cons]
    by_cases hc : c = p.1
    · subst hc; simp; omega
    · simp [hc, Ne.symm hc]

/-- A run of publications leaves the entries it does not name. -/
theorem announces_spared : ∀ {announced : List (χ × κ)} {l : Ledger χ κ} {c : χ} {k : κ},
    (c, k) ∉ announced → (announced.foldl (fun l p => l.announce p.1 p.2) l).entry c k = l.entry c k
  | [], l, c, k, _ => rfl
  | p :: announced, l, c, k, h => by
    obtain ⟨hne, hmem⟩ := not_or.mp (mt List.mem_cons.mpr h)
    rw [List.foldl_cons, announces_spared hmem, announce_entry, if_neg]
    rintro ⟨rfl, rfl⟩
    exact hne rfl

/-- The last publication of a record on a channel is its entry. -/
theorem announces_published {before after : List (χ × κ)} (h : (c, k) ∉ after) :
    ∃ s, ((before ++ (c, k) :: after).foldl (fun l p => l.announce p.1 p.2) l).stamp k = some s ∧
      ((before ++ (c, k) :: after).foldl (fun l p => l.announce p.1 p.2) l).entry c k =
        some ⟨l.head c + (before.map Prod.fst).count c + 1, s⟩ := by
  set l₁ := before.foldl (fun l p => l.announce p.1 p.2) l with hl₁
  have hhead : l₁.head c = l.head c + (before.map Prod.fst).count c := announces_head c
  have hentry : (l₁.announce c k).entry c k = some ⟨l₁.head c + 1, (l₁.stamp k).getD 1⟩ := by
    rw [announce_entry, if_pos ⟨rfl, rfl⟩]
  have hstamp : (l₁.announce c k).stamp k = some ((l₁.stamp k).getD 1) := by
    rw [announce_stamp, if_pos rfl]
  refine ⟨(l₁.stamp k).getD 1, ?_, ?_⟩
  · rw [List.foldl_append, List.foldl_cons, announces_stamp, hstamp]; simp
  · rw [List.foldl_append, List.foldl_cons, announces_spared h, hentry, hhead]

end Announce

/-- A settlement of changes listed once does what it is told to. -/
theorem settle_settled {l : Ledger χ κ} {changed : List κ} (announced : List (χ × κ))
    (hnd : changed.Nodup) : Settled l changed announced (l.settle changed announced) := by
  obtain ⟨hhead, hentry, hstamp⟩ := advances (l := l) hnd
  refine ⟨fun k hk => ?_, fun k hk hs => ?_, fun k hk hs => ?_, fun c => ?_, fun heq ha => ?_,
    fun c k h => ?_⟩
  · rw [settle, announces_stamp, hstamp, if_pos hk]; simp
  · obtain ⟨s, hs⟩ := Option.ne_none_iff_exists'.mp hs
    rw [settle, announces_stamp, hstamp, if_neg hk, hs]; simp
  · rw [settle, announces_stamp, hstamp, if_neg hk, hs]; simp
  · rw [settle, announces_head, hhead]
  · subst heq
    simpa only [settle, hhead] using announces_published (l := changed.foldl advance l) ha
  · rw [settle, announces_spared h, hentry]

section Accounted
variable {l : Ledger χ κ}

omit [DecidableEq χ] in
theorem accounted_advance (h : l.Accounted) (k : κ) : (l.advance k).Accounted where
  stamps {c k' e} he := by
    obtain ⟨s, hs, hle⟩ := h.stamps he
    rw [advance_stamp]
    by_cases hk : k' = k
    · subst hk
      exact ⟨s + 1, by simp [hs], by omega⟩
    · exact ⟨s, by simpa [hk] using hs, hle⟩
  heads he := h.heads he
  distinct he he' hc := h.distinct he he' hc

theorem accounted_announce (h : l.Accounted) (c : χ) (k : κ) : (l.announce c k).Accounted where
  stamps {c' k' e} he := by
    rw [announce_entry] at he
    split at he
    · rename_i heq
      obtain ⟨rfl, rfl⟩ := heq
      cases he
      exact ⟨_, by rw [announce_stamp, if_pos rfl], Nat.le_refl _⟩
    · obtain ⟨s, hs, hle⟩ := h.stamps he
      exact ⟨s, announce_keeps hs, hle⟩
  heads {c' k' e} he := by
    rw [announce_entry] at he
    rw [announce_head]
    split at he
    · rename_i heq
      cases he
      simp [heq.1]
    · have hle := h.heads he
      split
      · subst_vars; omega
      · exact hle
  distinct {c' k₁ k₂ e₁ e₂} h₁ h₂ hcur := by
    -- a new entry is past the head, so past every entry that was there
    rw [announce_entry] at h₁ h₂
    split at h₁ <;> split at h₂
    · rename_i hk₁ hk₂
      rw [hk₁.2, hk₂.2]
    · rename_i hk₁ _
      cases h₁
      have hle := h.heads h₂
      rw [hk₁.1] at hle
      simp only at hcur
      omega
    · rename_i _ hk₂
      cases h₂
      have hle := h.heads h₁
      rw [hk₂.1] at hle
      simp only at hcur
      omega
    · exact h.distinct h₁ h₂ hcur

theorem accounted_settle (h : l.Accounted) (changed : List κ) (announced : List (χ × κ)) :
    (l.settle changed announced).Accounted := by
  have hadv : (changed.foldl advance l).Accounted := by
    induction changed generalizing l with
    | nil => exact h
    | cons k changed ih => exact ih (accounted_advance h k)
  rw [settle]
  generalize changed.foldl advance l = l₁ at hadv
  induction announced generalizing l₁ with
  | nil => exact hadv
  | cons p announced ih => exact ih (l₁.announce p.1 p.2) (accounted_announce hadv p.1 p.2)

end Accounted

end Ledger
