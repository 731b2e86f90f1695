import AheadSync.Core.RoundTrip
import Mathlib.Data.List.Pairwise

/-! Two orders of channel names: a subscribe frame lists them by UTF-16 code units, a map by code
    points. They part exactly at a character past the surrogates against one outside the basic
    plane, and an acknowledgement is recognized as long as no two channels part there. -/

namespace AheadSync

/-- The code units of a character. -/
def charUnits (c : Char) : List ℕ :=
  if c.toNat < 0x10000 then [c.toNat]
  else [0xD800 + (c.toNat - 0x10000) / 0x400, 0xDC00 + (c.toNat - 0x10000) % 0x400]

/-- Where two texts first differ, one goes on past the surrogates in the basic plane and the other
    outside of it. -/
def Parts (l m : List Char) : Prop :=
  ∃ p x s y t, l = p ++ x :: s ∧ m = p ++ y :: t ∧
    0xE000 ≤ x.toNat ∧ x.toNat < 0x10000 ∧ 0x10000 ≤ y.toNat

/-- No two channels part where the two orders differ. -/
def Orderly (channels : List String) : Prop :=
  ∀ a ∈ channels, ∀ b ∈ channels, ¬Parts a.toList b.toList

theorem parts_cons {c : Char} {l m : List Char} : Parts (c :: l) (c :: m) ↔ Parts l m := by
  constructor
  · rintro ⟨p, x, s, y, t, hl, hm, hx, hx', hy⟩
    cases p with
    | nil =>
      simp only [List.nil_append, List.cons.injEq] at hl hm
      rw [← hl.1, hm.1] at hx'
      omega
    | cons d p =>
      simp only [List.cons_append, List.cons.injEq] at hl hm
      exact ⟨p, x, s, y, t, hl.2, hm.2, hx, hx', hy⟩
  · rintro ⟨p, x, s, y, t, rfl, rfl, hx, hx', hy⟩
    exact ⟨c :: p, x, s, y, t, rfl, rfl, hx, hx', hy⟩

/-- Different characters: their code units decide, as the characters do unless the two part there. -/
theorem units_lt_of_ne {c d : Char} {l m : List Char} (hne : c ≠ d)
    (h : ¬(0xE000 ≤ c.toNat ∧ c.toNat < 0x10000 ∧ 0x10000 ≤ d.toNat))
    (h' : ¬(0xE000 ≤ d.toNat ∧ d.toNat < 0x10000 ∧ 0x10000 ≤ c.toNat)) :
    (c :: l).flatMap charUnits < (d :: m).flatMap charUnits ↔ c < d := by
  have hc : c.toNat < 0xD800 ∨ 0xDFFF < c.toNat ∧ c.toNat < 0x110000 := c.valid
  have hd : d.toNat < 0xD800 ∨ 0xDFFF < d.toNat ∧ d.toNat < 0x110000 := d.valid
  have hne' : c.toNat ≠ d.toNat := fun heq => hne (Char.toNat_inj.mp heq)
  have hlt : c < d ↔ c.toNat < d.toNat := Iff.rfl
  rw [hlt]
  simp only [List.flatMap_cons, charUnits]
  split <;> split <;>
    simp only [List.cons_append, List.nil_append, List.cons_lt_cons_iff]
  all_goals omega

/-- Two texts that do not part have code units in the order of their characters. -/
theorem units_lt_iff : ∀ {l m : List Char}, ¬Parts l m → ¬Parts m l →
    (l.flatMap charUnits < m.flatMap charUnits ↔ l < m)
  | [], [], _, _ => by simp
  | [], d :: m, _, _ => by
    simp only [List.flatMap_nil, List.flatMap_cons, charUnits]
    split <;> simp
  | c :: l, [], _, _ => by simp
  | c :: l, d :: m, h, h' => by
    by_cases hcd : c = d
    · subst hcd
      have ih := units_lt_iff (fun hp => h (parts_cons.mpr hp)) fun hp => h' (parts_cons.mpr hp)
      simp only [List.flatMap_cons, charUnits]
      split <;> simp only [List.cons_append, List.nil_append, List.cons_lt_cons_self, ← ih]
    · have hlt := units_lt_of_ne (l := l) (m := m) hcd
        (fun ⟨h1, h2, h3⟩ => h ⟨[], c, l, d, m, rfl, rfl, h1, h2, h3⟩)
        fun ⟨h1, h2, h3⟩ => h' ⟨[], d, m, c, l, rfl, rfl, h1, h2, h3⟩
      rw [hlt, List.cons_lt_cons_iff]
      simp [hcd]

/-- Texts that part: their code units are in the other order. -/
theorem units_lt_of_parts {l m : List Char} (h : Parts l m) :
    m.flatMap charUnits < l.flatMap charUnits ∧ l < m := by
  obtain ⟨p, x, s, y, t, rfl, rfl, hx, hx', hy⟩ := h
  have hy' : y.toNat < 0xD800 ∨ 0xDFFF < y.toNat ∧ y.toNat < 0x110000 := y.valid
  constructor
  · rw [List.flatMap_append, List.flatMap_append]
    refine List.append_left_lt ?_
    simp only [List.flatMap_cons, charUnits, if_pos hx', if_neg (show ¬y.toNat < 0x10000 by omega),
      List.cons_append, List.cons_lt_cons_iff]
    omega
  · refine List.append_left_lt (List.cons_lt_cons_iff.mpr (Or.inl ?_))
    exact show x.toNat < y.toNat by omega

/-- What a subscribe frame lists: the given channels once each, in the order of their code units. -/
theorem normalized {cs ds : List String} (h : normalizeChannels cs = .ok ds) :
    (∀ c, c ∈ ds ↔ c ∈ cs) ∧ ds.Pairwise fun a b => encodeUtf16 a < encodeUtf16 b := by
  simp only [normalizeChannels, Except.bind_eq_ok, ensure_eq_ok, Except.pure_eq_ok] at h
  obtain ⟨-, -, -, -, hds⟩ := h
  have hperm : ds.Perm cs.dedup := hds ▸
    (List.perm_insertionSort _ _).trans (List.perm_insertionSort _ _)
  have hsorted : ds.Pairwise fun a b => encodeUtf16 a ≤ encodeUtf16 b := hds ▸
    List.pairwise_insertionSort _ _
  have hnd : ds.Pairwise (· ≠ ·) := hperm.nodup_iff.mpr (List.nodup_dedup cs)
  refine ⟨fun c => by rw [hperm.mem_iff, List.mem_dedup], (hsorted.and hnd).imp fun h => ?_⟩
  exact lt_of_le_of_ne h.1 fun heq => h.2 (encodeUtf16_injective heq)

/-- The acknowledgement of exactly the requested channels is recognized, for every such
    acknowledgement, exactly when no two of the channels part. -/
theorem confirms_iff {channels : List String} {models : Models} {request : SubscribeRequest}
    (h : SubscribeRequest.make channels models = .ok request) :
    (∀ ack : SubscriptionAck, ack.confirms request = true ↔
      ∀ c, c ∈ ack.cursors.keys ↔ c ∈ request.channels) ↔ Orderly channels := by
  obtain ⟨ds, hds, -, rfl⟩ := SubscribeRequest.make_eq_ok.mp h
  obtain ⟨hmem, hsorted⟩ := normalized hds
  have hkeys : ∀ ack : SubscriptionAck, ack.cursors.keys.Pairwise (· < ·) := fun ack =>
    List.pairwise_map.mpr ack.cursors.sorted
  have hunits : ∀ a b : String, encodeUtf16 a < encodeUtf16 b ↔
      a.toList.flatMap charUnits < b.toList.flatMap charUnits := fun _ _ => Iff.rfl
  simp only [SubscriptionAck.confirms, decide_eq_true_eq]
  constructor
  · intro hall a ha b hb hparts
    -- the acknowledgement that names every channel
    have hnamed : ∀ c, c ∈ (SortedMap.ofList (ds.map (·, 0)) : SortedMap String ℕ).keys ↔ c ∈ ds := by
      intro c
      have hsome := @SortedMap.lookup_ofList_isSome String ℕ _ (ds.map (·, 0)) c
      rw [← Option.ne_none_iff_isSome, ne_eq, SortedMap.lookup_eq_none_iff, not_not] at hsome
      rw [hsome, List.map_map]
      simp [Function.comp_def]
    have heq := (hall ⟨.ofList (ds.map (·, 0))⟩).mpr hnamed
    have hpair : ds.Pairwise fun x y => x < y ∧ encodeUtf16 x < encodeUtf16 y ∨
        y < x ∧ encodeUtf16 y < encodeUtf16 x :=
      ((heq ▸ hkeys _).and hsorted).imp Or.inl
    obtain ⟨hback, hfwd⟩ := units_lt_of_parts hparts
    have hlt : a < b := String.lt_iff_toList_lt.mpr hfwd
    have hsymm : Std.Symm fun x y => x < y ∧ encodeUtf16 x < encodeUtf16 y ∨
        y < x ∧ encodeUtf16 y < encodeUtf16 x := ⟨fun _ _ => Or.symm⟩
    rcases hpair.forall ((hmem a).mpr ha) ((hmem b).mpr hb) hlt.ne with ⟨-, h⟩ | ⟨h, -⟩
    · exact lt_asymm h hback
    · exact lt_asymm h hlt
  · intro horderly ack
    refine ⟨fun heq c => by rw [heq], fun hsame => ?_⟩
    have hds' : ds.Pairwise (· < ·) := by
      refine hsorted.imp_of_mem fun {a b} ha hb hlt => ?_
      have hno := horderly a ((hmem a).mp ha) b ((hmem b).mp hb)
      have hno' := horderly b ((hmem b).mp hb) a ((hmem a).mp ha)
      exact String.lt_iff_toList_lt.mpr ((units_lt_iff hno hno').mp ((hunits a b).mp hlt))
    exact List.Pairwise.eq_of_mem_iff (hkeys ack) hds' hsame

end AheadSync
