import AheadSync.Core.Zoned
import AheadSync.Core.Normal

/-! Reading what was normalized before: a normalized value is accepted again exactly when every date
    and time in it has a year of four digits in UTC. -/

namespace AheadSync

/-- The text of a UUID is read back as the same UUID. -/
def Codecs.UuidsReread (c : Codecs) : Prop :=
  ∀ {s i}, c.uuid s = some i → i.text.utf8ByteSize = 36 ∧ c.uuid i.text = some i

/-- A date and time is printed in UTC with a year of four digits when it has one, which is read back,
    and with a signed year otherwise, which RFC 3339 does not have. -/
def Codecs.DateTimesReread (c : Codecs) (year : String → ℤ) : Prop :=
  ∀ {s t}, c.dateTime s = some t →
    if 0 ≤ year s ∧ year s ≤ 9999 then
      20 ≤ t.utf8ByteSize ∧ t.toByteArray[10]? = some 84 ∧ c.dateTime t = some t
    else c.dateTime t = none

/-- Every date and time of a value has a year of four digits in UTC. -/
def InYears (year : String → ℤ) : ValueType → Value → Prop
  | .scalar .dateTime, .str s => 0 ≤ year s ∧ year s ≤ 9999
  | .list element, .arr xs => ∀ x ∈ xs, InYears year element x
  | _, _ => True

variable {c : Codecs} {year : String → ℤ} {s s' : Schema}

theorem scalar_reread (hu : c.UuidsReread) (hd : c.DateTimesReread year) {ty : ScalarType}
    {v w : Value} (h : scalar c ty v = .ok w) :
    (∃ u, scalar c ty w = .ok u) ↔ InYears year (.scalar ty) v := by
  have hf := c.f64_stable
  unfold scalar at h
  split at h
  · cases h; simp [scalar, InYears]
  · cases h; simp [scalar, InYears]
  · simp only at h
    split at h
    · rename_i hint
      cases h
      simp [scalar, InYears, hf, hint]
    · cases h
  · cases h
  · cases h; simp [scalar, InYears]
  · cases h
  · split at h
    · cases h
    · rename_i id hid
      split at h
      · rename_i hform
        cases h
        obtain ⟨hsize, hread⟩ := hu hid
        simp [scalar, InYears, hread, hsize, hform]
      · cases h
  · cases h
  · split at h
    · cases h
    · split at h
      · cases h
      · rename_i t ht
        cases h
        have hread := hd ht
        simp only [InYears]
        split at hread
        · rename_i hyear
          obtain ⟨hsize, hbyte, hread⟩ := hread
          simp [scalar, hread, hbyte, hyear, show ¬t.utf8ByteSize < 20 by omega]
        · rename_i hyear
          simp [scalar, hread, hyear]
  · cases h
  · cases h

/-- What one schema normalizes another reads again: it has the same values of each enum, and every
    date and time has a year of four digits. -/
theorem value_reread (hu : c.UuidsReread) (hd : c.DateTimesReread year) {ty : ValueType}
    {v w : Value} (hlist : ∀ element, ty = .list element → element.isScalar)
    (henum : ∀ name, ty = .enum name → ∀ x, (s.enums.any fun en => en.name = name ∧ x ∈ en.values) →
      s'.enums.any fun en => en.name = name ∧ x ∈ en.values)
    (h : s.value c ty v = .ok w) : (∃ u, s'.value c ty w = .ok u) ↔ InYears year ty v := by
  cases ty with
  | scalar name =>
    rw [Schema.value] at h
    simp only [Schema.value]
    exact scalar_reread hu hd h
  | enum name =>
    cases v <;> simp only [Schema.value, reduceCtorEq] at h
    split at h
    · rename_i hany
      cases h
      simp only [InYears, iff_true]
      exact ⟨_, by rw [Schema.value, if_pos (henum name rfl _ hany)]⟩
    · cases h
  | list element =>
    obtain ⟨name, rfl⟩ : ∃ name, element = .scalar name := by
      have := hlist element rfl
      cases element with
      | scalar name => exact ⟨name, rfl⟩
      | _ => cases this
    cases v <;> simp only [Schema.value, Except.bind_eq_ok, Except.pure_eq_ok, reduceCtorEq] at h
    obtain ⟨ys, hys, rfl⟩ := h
    rename_i xs
    have hrel := List.mapM_eq_ok_iff.mp hys
    have hstep : (∃ u, s'.value c (.list (.scalar name)) (.arr ys) = .ok u) ↔
        ∃ us, ys.mapM (s'.value c (.scalar name)) = .ok us := by
      simp only [Schema.value, Except.bind_eq_ok, Except.pure_eq_ok]
      grind
    rw [hstep, List.mapM_ok_iff, InYears]
    constructor
    · intro hall x hx
      obtain ⟨y, hy, hxy⟩ := List.forall₂_mem_left hrel hx
      simp only [Schema.value] at hxy hall
      exact (scalar_reread hu hd hxy).mp (hall y hy)
    · intro hall y hy
      obtain ⟨x, hx, hxy⟩ := List.forall₂_mem hrel hy
      simp only [Schema.value] at hxy ⊢
      exact (scalar_reread hu hd hxy).mpr (hall x hx)

theorem inYears_null : ∀ {ty : ValueType}, InYears year ty .null
  | .scalar name => by cases name <;> trivial
  | .enum _ => trivial
  | .list _ => trivial

theorem normalizeValue_reread (hu : c.UuidsReread) (hd : c.DateTimesReread year)
    {f : FieldDescriptor} {v w : Value}
    (hlist : ∀ element, f.valueType = .list element → element.isScalar)
    (henum : ∀ name, f.valueType = .enum name → ∀ x,
      (s.enums.any fun en => en.name = name ∧ x ∈ en.values) →
        s'.enums.any fun en => en.name = name ∧ x ∈ en.values)
    (h : s.normalizeValue c f v = .ok w) :
    (∃ u, s'.normalizeValue c f w = .ok u) ↔ InYears year f.valueType v := by
  unfold Schema.normalizeValue at h
  split at h
  · rename_i hnull
    obtain rfl : v = .null := by simpa [Value.isNull] using hnull
    split at h
    · rename_i hn
      obtain rfl := Except.ok.inj h
      simp [Schema.normalizeValue, Value.isNull, hn, inYears_null]
    · cases h
  · have hw : w ≠ .null := value_ne_null h
    refine Iff.trans ?_ (value_reread hu hd hlist henum h)
    simp [Schema.normalizeValue, Value.isNull, hw]

theorem Zoned.dateTimesReread (z : Zoned c) : c.DateTimesReread z.year := by
  intro s t h
  obtain ⟨u, hu, rfl, hyear⟩ := z.parse_of_dateTime h
  have hagain := z.again hu
  rw [hyear]
  by_cases hfour : Civil.FourDigits u.year
  · rw [if_pos hfour] at hagain
    rw [if_pos (show 0 ≤ u.year ∧ u.year ≤ 9999 from hfour)]
    refine ⟨by have := u.size_text; omega, u.byte_text.mpr hfour, ?_⟩
    rw [z.dateTime_eq, hagain]
    rfl
  · rw [if_neg hfour] at hagain
    rw [if_neg (show ¬(0 ≤ u.year ∧ u.year ≤ 9999) from hfour), z.dateTime_eq, hagain]
    rfl

end AheadSync
