import AheadSync.Core.Codecs
import Mathlib.Tactic.IntervalCases

/-! Zoned dates as `chrono` reads and prints them: a text is read as a civil time of UTC and printed
    again with milliseconds. A year of four digits is printed as it is, any other year with a sign. -/

namespace AheadSync

/-- The last decimal digit of a number. -/
def digit (n : ℕ) : Char := Char.ofNat (48 + n % 10)

/-- The last `w` decimal digits of a number. -/
def pad : ℕ → ℕ → List Char
  | 0, _ => []
  | w + 1, n => pad w (n / 10) ++ [digit n]

theorem digit_toNat (n : ℕ) : (digit n).toNat = 48 + n % 10 := by
  have h : n % 10 < 10 := Nat.mod_lt _ (by decide)
  unfold digit
  interval_cases n % 10 <;> rfl

theorem digit_inj {n m : ℕ} (h : digit n = digit m) : n % 10 = m % 10 := by
  have := congrArg Char.toNat h
  rw [digit_toNat, digit_toNat] at this
  omega

@[simp] theorem length_pad : ∀ w n, (pad w n).length = w
  | 0, _ => rfl
  | w + 1, n => by rw [pad, List.length_append, length_pad w, List.length_singleton]

/-- Padded numbers are told apart by their digits. -/
theorem pad_inj : ∀ {w n m : ℕ}, n < 10 ^ w → m < 10 ^ w → pad w n = pad w m → n = m
  | 0, n, m, hn, hm, _ => by
    rw [pow_zero] at hn hm
    omega
  | w + 1, n, m, hn, hm, h => by
    obtain ⟨hinit, hlast⟩ := List.append_inj h (by simp)
    have hdigit := digit_inj (List.cons.inj hlast).1
    rw [pow_succ] at hn hm
    have hdiv := pad_inj (Nat.div_lt_of_lt_mul (by omega)) (Nat.div_lt_of_lt_mul (by omega)) hinit
    omega

theorem mem_pad : ∀ {w n : ℕ} {ch : Char}, ch ∈ pad w n → ∃ d, ch = digit d
  | w + 1, n, ch, h => by
    rcases List.mem_append.mp h with h | h
    · exact mem_pad h
    · exact ⟨n, List.mem_singleton.mp h⟩

/-- A civil time of UTC, with milliseconds. A leap second is the second 60. -/
structure Civil where
  year : ℤ
  month : ℕ
  day : ℕ
  hour : ℕ
  minute : ℕ
  second : ℕ
  milli : ℕ
  deriving DecidableEq

namespace Civil

/-- Four digits where they suffice, else a sign and at least four digits. -/
def yearChars (year : ℤ) : List Char :=
  if year < 0 then '-' :: pad 4 year.natAbs
  else if year ≤ 9999 then pad 4 year.natAbs
  else '+' :: pad 5 year.natAbs

def restChars (t : Civil) : List Char :=
  '-' :: pad 2 t.month ++ '-' :: pad 2 t.day ++ 'T' :: pad 2 t.hour ++ ':' :: pad 2 t.minute ++
    ':' :: pad 2 t.second ++ '.' :: pad 3 t.milli ++ ['Z']

/-- `to_rfc3339_opts(SecondsFormat::Millis, true)`. -/
def text (t : Civil) : String := String.ofList (yearChars t.year ++ t.restChars)

/-- What RFC 3339 can denote: a year of four digits, less than a day away from UTC. -/
structure Ranged (t : Civil) : Prop where
  year : -1 ≤ t.year ∧ t.year ≤ 10000
  month : t.month ≤ 12
  day : t.day ≤ 31
  hour : t.hour ≤ 23
  minute : t.minute ≤ 59
  second : t.second ≤ 60
  milli : t.milli ≤ 999

/-- A year is of four digits. -/
def FourDigits (year : ℤ) : Prop := 0 ≤ year ∧ year ≤ 9999

instance (year : ℤ) : Decidable (FourDigits year) := inferInstanceAs (Decidable (_ ∧ _))

variable {t u : Civil}

theorem length_restChars (t : Civil) : t.restChars.length = 20 := rfl

theorem yearChars_inj {y z : ℤ} (hy : -1 ≤ y ∧ y ≤ 10000) (hz : -1 ≤ z ∧ z ≤ 10000)
    (h : yearChars y = yearChars z) : y = z := by
  have hlen := congrArg List.length h
  unfold yearChars at h hlen
  split_ifs at h hlen with h₁ h₂ h₃ h₄ <;>
    simp only [List.length_cons, length_pad, List.cons.injEq, Char.reduceEq, false_and,
      true_and] at h hlen
  · have := pad_inj (by omega) (by omega) h
    omega
  · omega
  · omega
  · have := pad_inj (by omega) (by omega) h
    omega
  · omega
  · omega
  · have := pad_inj (by omega) (by omega) h
    omega

/-- A padded number and a mark: the number is read off the text. -/
theorem pad_mark_inj {w n m : ℕ} {p : Char} {x y : List Char} (hn : n < 10 ^ w) (hm : m < 10 ^ w)
    (h : pad w n ++ p :: x = pad w m ++ p :: y) : n = m ∧ x = y := by
  obtain ⟨hpad, hrest⟩ := List.append_inj h (by simp)
  exact ⟨pad_inj hn hm hpad, (List.cons.inj hrest).2⟩

/-- Two times that are printed alike are the same. -/
theorem text_inj (ht : t.Ranged) (hu : u.Ranged) (h : t.text = u.text) : t = u := by
  obtain ⟨hyear, hrest⟩ := List.append_inj' (String.ofList_injective h) rfl
  have hyear := yearChars_inj ht.year hu.year hyear
  simp only [restChars, List.cons_append, List.append_assoc, List.cons.injEq, true_and] at hrest
  have := ht.month; have := hu.month; have := ht.day; have := hu.day
  have := ht.hour; have := hu.hour; have := ht.minute; have := hu.minute
  have := ht.second; have := hu.second; have := ht.milli; have := hu.milli
  obtain ⟨hmonth, hrest⟩ := pad_mark_inj (by omega) (by omega) hrest
  obtain ⟨hday, hrest⟩ := pad_mark_inj (by omega) (by omega) hrest
  obtain ⟨hhour, hrest⟩ := pad_mark_inj (by omega) (by omega) hrest
  obtain ⟨hminute, hrest⟩ := pad_mark_inj (by omega) (by omega) hrest
  obtain ⟨hsecond, hrest⟩ := pad_mark_inj (by omega) (by omega) hrest
  obtain ⟨hmilli, -⟩ := pad_mark_inj (by omega) (by omega) hrest
  obtain ⟨_, _, _, _, _, _, _⟩ := t
  obtain ⟨_, _, _, _, _, _, _⟩ := u
  simp only at hyear hmonth hday hhour hminute hsecond hmilli
  subst hyear hmonth hday hhour hminute hsecond hmilli
  rfl

end Civil

/-- A text of one-byte characters. -/
theorem toByteArray_ascii : ∀ {l : List Char}, (∀ ch ∈ l, ch.utf8Size = 1) →
    (String.ofList l).toByteArray = (l.map fun ch => ch.val.toUInt8).toByteArray
  | l, h => by
    rw [String.toByteArray_ofList, List.utf8Encode]
    congr 1
    induction l with
    | nil => rfl
    | cons ch l ih =>
      rw [List.flatMap_cons, String.utf8EncodeChar_eq_singleton (h ch (List.mem_cons_self ..)),
        ih fun d hd => h d (List.mem_cons_of_mem _ hd)]
      rfl

theorem utf8ByteSize_ascii {l : List Char} (h : ∀ ch ∈ l, ch.utf8Size = 1) :
    (String.ofList l).utf8ByteSize = l.length := by
  rw [← String.size_toByteArray, toByteArray_ascii h, List.size_toByteArray, List.length_map]

theorem byte_ascii {l : List Char} (h : ∀ ch ∈ l, ch.utf8Size = 1) {i : ℕ} (hi : i < l.length) :
    (String.ofList l).toByteArray[i]? = some l[i].val.toUInt8 := by
  have hsize : i < (l.map fun ch => ch.val.toUInt8).toByteArray.size := by
    rw [List.size_toByteArray, List.length_map]
    exact hi
  rw [toByteArray_ascii h, getElem?_pos (l.map fun ch => ch.val.toUInt8).toByteArray i hsize,
    List.getElem_toByteArray, List.getElem_map]

namespace Civil
variable {t : Civil}

theorem digit_utf8Size (n : ℕ) : (digit n).utf8Size = 1 := by
  have h : n % 10 < 10 := Nat.mod_lt _ (by decide)
  unfold digit
  interval_cases n % 10 <;> rfl

theorem digit_byte (n : ℕ) : (digit n).val.toUInt8 ≠ 84 := by
  have h : n % 10 < 10 := Nat.mod_lt _ (by decide)
  unfold digit
  interval_cases n % 10 <;> decide

theorem pad_ascii (w n : ℕ) : ∀ ch ∈ pad w n, ch.utf8Size = 1 := fun ch h => by
  obtain ⟨d, rfl⟩ := mem_pad h
  exact digit_utf8Size d

/-- A printed time has one byte for each character. -/
theorem chars_ascii (t : Civil) : ∀ ch ∈ yearChars t.year ++ t.restChars, ch.utf8Size = 1 := by
  refine List.forall_mem_append.mpr ⟨?_, ?_⟩
  · unfold yearChars
    split_ifs
    · exact List.forall_mem_cons.mpr ⟨rfl, pad_ascii _ _⟩
    · exact pad_ascii _ _
    · exact List.forall_mem_cons.mpr ⟨rfl, pad_ascii _ _⟩
  · have hpad : ∀ w n, (∀ ch ∈ pad w n, ch.utf8Size = 1) ↔ True := fun w n =>
      iff_true_intro (pad_ascii w n)
    simp only [restChars, List.forall_mem_append, List.forall_mem_cons, hpad, implies_true,
      and_true, List.not_mem_nil, false_imp_iff]
    decide

theorem length_yearChars (year : ℤ) :
    (yearChars year).length = if FourDigits year then 4 else if year < 0 then 5 else 6 := by
  unfold yearChars FourDigits
  split_ifs <;> simp <;> omega

theorem size_text (t : Civil) : 24 ≤ t.text.utf8ByteSize := by
  rw [text, utf8ByteSize_ascii t.chars_ascii, List.length_append, length_restChars,
    length_yearChars]
  split_ifs <;> omega

/-- The date is separated from the time by the byte `T` of index ten exactly when the year has four
    digits: a sign shifts the digits of the day there. -/
theorem byte_text (t : Civil) : t.text.toByteArray[10]? = some 84 ↔ FourDigits t.year := by
  have hlen := length_yearChars t.year
  rw [text, byte_ascii t.chars_ascii (by rw [List.length_append, length_restChars]; omega),
    Option.some_inj, List.getElem_append_right (by rw [hlen]; split_ifs <;> omega)]
  by_cases h : FourDigits t.year
  · rw [if_pos h] at hlen
    simp only [hlen, h, iff_true]
    rfl
  · rw [if_neg h] at hlen
    simp only [h, iff_false]
    split_ifs at hlen <;> simp only [hlen]
    · exact digit_byte t.day
    · exact digit_byte (t.day / 10)

end Civil

/-- How `chrono` reads and prints what a codec calls a date: a text denotes a civil time of UTC, which
    is printed with milliseconds, and RFC 3339 has only years of four digits. -/
structure Zoned (c : Codecs) where
  parse : String → Option Civil
  dateTime_eq : ∀ s, c.dateTime s = (parse s).map Civil.text
  ranged : ∀ {s t}, parse s = some t → t.Ranged
  again : ∀ {s t}, parse s = some t →
    parse t.text = if Civil.FourDigits t.year then some t else none

variable {c : Codecs}

/-- The year in UTC of the time a text denotes. -/
def Zoned.year (z : Zoned c) (s : String) : ℤ := ((z.parse s).map Civil.year).getD 0

theorem Zoned.parse_of_dateTime (z : Zoned c) {s t : String} (h : c.dateTime s = some t) :
    ∃ u, z.parse s = some u ∧ u.text = t ∧ z.year s = u.year := by
  rw [z.dateTime_eq, Option.map_eq_some_iff] at h
  obtain ⟨u, hu, rfl⟩ := h
  exact ⟨u, hu, rfl, by rw [Zoned.year, hu]; rfl⟩

end AheadSync
