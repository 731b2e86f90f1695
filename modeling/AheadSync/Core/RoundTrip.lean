import AheadSync.Core.Wire
import Mathlib.Algebra.Order.Field.Rat
import Mathlib.Data.Nat.Cast.Order.Ring
import Mathlib.Tactic.NormNum

/-! Every message is read back from its own text: what serialization writes is what the decoders
    read, and no page can be taken for an acknowledgement. -/

namespace AheadSync

namespace SortedMap
variable {κ υ : Type} [LinearOrder κ]

/-- The entries of a map, collected again. -/
theorem ofList_entries (m : SortedMap κ υ) : SortedMap.ofList m.entries = m := by
  refine SortedMap.ext_lookup fun k => ?_
  cases hk : m.lookup k with
  | some v =>
    exact SortedMap.lookup_ofList_of_mem m.nodup_keys (SortedMap.lookup_eq_some_iff.mp hk)
  | none =>
    rw [← Option.not_isSome_iff_eq_none, SortedMap.lookup_ofList_isSome]
    exact SortedMap.lookup_eq_none_iff.mp hk

end SortedMap

namespace Value

theorem ofEntries_concat (fs : List (String × Value)) (e : String × Value) :
    ofEntries (fs ++ [e]) = (ofEntries fs).set e.1 e.2 := by
  simp [ofEntries, setAll]

theorem readCounter_num {n : ℕ} {positive : Bool} {m : ℕ} :
    (num n).readCounter positive = .ok m ↔
      n ≤ maxSafeInteger ∧ (positive = true → 0 < n) ∧ m = n := by
  have hlt : ¬((n : ℚ) < 0) := not_lt.mpr (Nat.cast_nonneg n)
  simp only [readCounter, hlt, Rat.den_natCast, ne_eq, not_true_eq_false, Nat.cast_lt, false_or,
    Nat.cast_eq_zero, Rat.num_natCast, Int.toNat_natCast]
  split
  · rename_i h
    simp only [reduceCtorEq, false_iff, not_and]
    rintro hle hpos rfl
    rcases h with h | ⟨hp, rfl⟩
    · omega
    · exact absurd (hpos hp) (lt_irrefl 0)
  · rename_i h
    simp only [not_or, not_lt, not_and] at h
    simp only [Except.ok.injEq]
    exact ⟨fun heq => ⟨h.1, fun hp => Nat.pos_of_ne_zero (h.2 hp), heq.symm⟩,
      fun ⟨_, _, heq⟩ => heq.symm⟩

theorem asU64_num {n : ℕ} (h : n ≤ maxSafeInteger) : (num n).asU64 = .ok n := by
  have hlt : (n : ℚ) < 2 ^ 64 := by
    have hn : n < 2 ^ 64 := lt_of_le_of_lt h (by decide)
    exact_mod_cast hn
  have hpos : (0 : ℚ) ≤ n := Nat.cast_nonneg n
  simp [asU64, hlt, hpos]

/-- One entry of a map of counters. -/
theorem readEntry {positive : Bool} {message k : String} {n : ℕ} {out : String × ℕ} :
    (do
      ensure (k ≠ "") message
      return (k, ← (num n).readCounter positive)) = .ok out ↔
    (k ≠ "" ∧ n ≤ maxSafeInteger ∧ (positive = true → 0 < n)) ∧ out = (k, n) := by
  rw [Except.bind_eq_ok]
  constructor
  · rintro ⟨_, hne, hread⟩
    obtain ⟨m, hm, hout⟩ := Except.bind_eq_ok.mp hread
    obtain ⟨hle, hpos, rfl⟩ := readCounter_num.mp hm
    exact ⟨⟨ensure_eq_ok.mp hne, hle, hpos⟩, (Except.pure_eq_ok.mp hout).symm⟩
  · rintro ⟨⟨hne, hle, hpos⟩, rfl⟩
    exact ⟨(), ensure_eq_ok.mpr hne, Except.bind_eq_ok.mpr
      ⟨n, readCounter_num.mpr ⟨hle, hpos, rfl⟩, rfl⟩⟩

/-- A map of counters is read back as it was written. -/
theorem mapM_counters {positive : Bool} {message : String} {es out : List (String × ℕ)} :
    (es.map fun e => (e.1, num e.2)).mapM (fun e => do
      ensure (e.1 ≠ "") message
      return (e.1, ← e.2.readCounter positive)) = .ok out ↔
    (∀ e ∈ es, e.1 ≠ "" ∧ e.2 ≤ maxSafeInteger ∧ (positive = true → 0 < e.2)) ∧ out = es := by
  induction es generalizing out with
  | nil => simp [pure, Except.pure]
  | cons e es ih =>
    rw [List.map_cons, List.mapM_cons, Except.bind_eq_ok]
    constructor
    · rintro ⟨_, hread, hrest⟩
      obtain ⟨hhead, rfl⟩ := readEntry.mp hread
      obtain ⟨_, htail, hcons⟩ := Except.bind_eq_ok.mp hrest
      obtain ⟨hall, rfl⟩ := ih.mp htail
      exact ⟨List.forall_mem_cons.mpr ⟨hhead, hall⟩, (Except.pure_eq_ok.mp hcons).symm⟩
    · rintro ⟨hall, rfl⟩
      obtain ⟨hhead, hall⟩ := List.forall_mem_cons.mp hall
      exact ⟨_, readEntry.mpr ⟨hhead, rfl⟩, Except.bind_eq_ok.mpr ⟨_, ih.mpr ⟨hall, rfl⟩, rfl⟩⟩

theorem readModels_ofCounters {m m' : Models} :
    (ofCounters m).readModels = .ok m' ↔ AheadSync.readModels m = .ok () ∧ m' = m := by
  simp only [readModels, ofCounters, asObject, required, Except.ok_bind, Except.bind_eq_ok,
    ensure_eq_ok, mapM_counters, Except.pure_eq_ok, readModels_eq_ok]
  constructor
  · rintro ⟨_, hne, _, ⟨hall, rfl⟩, rfl⟩
    refine ⟨⟨fun h => hne (by simp [h]), fun e he => ?_⟩, SortedMap.ofList_entries m⟩
    exact ⟨(hall e he).1, (hall e he).2.2 trivial, (hall e he).2.1⟩
  · rintro ⟨⟨hne, hall⟩, rfl⟩
    refine ⟨(), by simpa using hne, _, ⟨fun e he => ?_, rfl⟩, SortedMap.ofList_entries _⟩
    exact ⟨(hall e he).1, (hall e he).2.2, fun _ => (hall e he).2.1⟩

theorem readCursors_ofCounters {m m' : SortedMap String ℕ} :
    (ofCounters m).readCursors = .ok m' ↔ AheadSync.readCursors m = .ok () ∧ m' = m := by
  simp only [readCursors, ofCounters, asObject, required, Except.ok_bind, Except.bind_eq_ok,
    ensure_eq_ok, mapM_counters, Except.pure_eq_ok, AheadSync.readCursors, List.forM_eq_ok, counter]
  constructor
  · rintro ⟨_, hne, _, ⟨hall, rfl⟩, rfl⟩
    refine ⟨⟨(), fun h => hne (by simp [h]), fun e he => ?_⟩, SortedMap.ofList_entries m⟩
    exact ⟨(), (hall e he).1, (hall e he).2.1⟩
  · rintro ⟨⟨_, hne, hall⟩, rfl⟩
    refine ⟨(), by simpa using hne, _, ⟨fun e he => ?_, rfl⟩, SortedMap.ofList_entries _⟩
    obtain ⟨_, hname, hle⟩ := hall e he
    exact ⟨hname, hle, fun h => by cases h⟩

end Value

/-- An array whose elements are read back is read back. -/
theorem mapM_reread {α β : Type} {f : β → Except String α} {g : α → β} {l : List α}
    (h : ∀ a ∈ l, f (g a) = .ok a) : (l.map g).mapM f = .ok l := by
  rw [List.mapM_map, List.mapM_eq_ok_of (f := f ∘ g) (g := id) h, List.map_id]

section Records

namespace AuthorityRecord
variable {r : AuthorityRecord}

/-- What a record is read for: its fields, and an error only where it has one. -/
theorem get_toValue (k : String) : r.toValue.get k =
    if k = "error" ∧ r.error.isSome then r.error.map .str else
    if k = "state" then some r.state else
    if k = "stamp" then some (.num r.stamp) else
    if k = "identity" then some r.identity else
    if k = "model" then some (.str r.model) else none := by
  cases he : r.error with
  | none => simp [toValue, he, Value.ofEntries, Value.setAll]; rfl
  | some code => simp [toValue, he, Value.ofEntries, Value.setAll]; rfl

theorem validate_stamp (h : r.validate = .ok ()) : r.stamp ≤ maxSafeInteger := by
  simp only [validate, Except.bind_eq_ok, ensure_eq_ok] at h
  obtain ⟨-, -, -, -, -, hstamp, -⟩ := h
  exact hstamp.2

theorem ofObject_toValue (h : r.validate = .ok ()) : ofObject r.toValue = .ok r := by
  have hstamp := Value.asU64_num (validate_stamp h)
  obtain ⟨model, identity, stamp, state, error⟩ := r
  cases error with
  | none =>
    simp [ofObject, get_toValue, required, Value.asString, Value.asStr, hstamp, Value.index, pure,
      Except.pure]
  | some code =>
    simp [ofObject, get_toValue, required, Value.asString, Value.asStr, hstamp, Value.index, pure,
      Except.pure]

theorem ofValue_toValue (h : r.validate = .ok ()) : ofValue r.toValue = .ok r := by
  have hobj : r.toValue.asObject.isSome := by
    rw [toValue, Value.ofEntries_eq_obj]
    rfl
  simp [ofValue, hobj, ofObject_toValue h, h, get_toValue, ensure, pure, Except.pure]

end AuthorityRecord

namespace Rejection

theorem ofValue_toValue {r : Rejection} (h : r.ordinal ≤ maxSafeInteger) :
    ofValue r.toValue = .ok r := by
  have hord := Value.asU64_num h
  have hget : ∀ k, r.toValue.get k = if k = "code" then some (.str r.code) else
      if k = "ordinal" then some (.num r.ordinal) else none := by
    intro k
    simp [toValue, Value.ofEntries, Value.setAll]
    rfl
  have hobj : r.toValue = .obj r.toValue.entries := by rw [toValue, Value.ofEntries_eq_obj]; rfl
  have hfields : r.toValue.fields ["ordinal", "code"] = .ok r.toValue.get := by
    rw [hobj]; rfl
  simp [ofValue, hfields, hget, required, Value.asString, Value.asStr, hord, pure, Except.pure]

end Rejection

namespace PushReceipt
variable {r : PushReceipt}

theorem get_toValue (k : String) : r.toValue.get k =
    if k = "records" then some (.arr (r.records.map (·.toValue))) else
    if k = "rejections" then some (.arr (r.rejections.map (·.toValue))) else
    if k = "batchSequence" then some (.num r.batchSequence) else
    if k = "clientId" then some (.str r.clientId) else none := by
  simp [toValue, Value.ofEntries, Value.setAll]
  rfl

theorem ofValue_toValue (h : r.validate = .ok ()) : ofValue r.toValue = .ok r := by
  obtain ⟨hseq, hrej, hrec⟩ := validate_bounds h
  have hobj : r.toValue.asObject.isSome := by
    rw [toValue, Value.ofEntries_eq_obj]
    rfl
  have hcounter : (Value.num r.batchSequence).readCounter true = .ok r.batchSequence :=
    Value.readCounter_num.mpr ⟨hseq.2, fun _ => hseq.1, rfl⟩
  have hrecords := mapM_reread (g := (·.toValue)) fun x hx => AuthorityRecord.ofValue_toValue (hrec x hx)
  have hrejections := mapM_reread (g := (·.toValue)) fun x hx => Rejection.ofValue_toValue (hrej x hx)
  simp [ofValue, hobj, get_toValue, Value.index, hcounter, Value.asU64_num hseq.2, Value.asArray,
    required, hrecords, hrejections, Value.asString, Value.asStr, h, ensure, pure, Except.pure]

end PushReceipt

end Records

section Pull

namespace PullRequest
variable {r : PullRequest} {j : Json} {text : String}

theorem encode_eq_ok : r.encode j = .ok text ↔
    readModels r.models = .ok () ∧ readCursors r.cursors = .ok () ∧ text = j.text r.toValue := by
  simp only [encode, Except.bind_eq_ok, Value.readModels_ofCounters, Value.readCursors_ofCounters,
    Except.pure_eq_ok]
  constructor
  · rintro ⟨_, ⟨hm, -⟩, _, ⟨hc, -⟩, rfl⟩
    exact ⟨hm, hc, rfl⟩
  · rintro ⟨hm, hc, rfl⟩
    exact ⟨_, ⟨hm, rfl⟩, _, ⟨hc, rfl⟩, rfl⟩

theorem get_toValue (k : String) : r.toValue.get k =
    if k = "cursors" then some (.ofCounters r.cursors) else
    if k = "models" then some (.ofCounters r.models) else none := by
  simp [toValue, Value.ofEntries, Value.setAll]
  rfl

theorem decode_encode (hj : j.Rereads r.toValue) (h : r.encode j = .ok text) :
    decode j text = .ok r := by
  obtain ⟨hm, hc, rfl⟩ := encode_eq_ok.mp h
  have hmodels := Value.readModels_ofCounters.mpr ⟨hm, rfl⟩
  have hcursors := Value.readCursors_ofCounters.mpr ⟨hc, rfl⟩
  rw [decode, show j.parse (j.text r.toValue) = .ok r.toValue from hj, Except.ok_bind]
  simp [Value.index, get_toValue, hmodels, hcursors, pure, Except.pure]

end PullRequest

namespace PullPage

theorem range_toValue {r : CursorRange} (hf : r.fromCursor ≤ maxSafeInteger)
    (ht : r.toCursor ≤ maxSafeInteger) (hh : r.head ≤ maxSafeInteger) :
    CursorRange.ofValue r.toValue = .ok r := by
  have hget : ∀ k, r.toValue.get k = if k = "head" then some (.num r.head) else
      if k = "to" then some (.num r.toCursor) else
      if k = "from" then some (.num r.fromCursor) else none := by
    intro k
    simp [CursorRange.toValue, Value.ofEntries, Value.setAll]
    rfl
  have hread : ∀ {n : ℕ}, n ≤ maxSafeInteger → (Value.num n).readCounter false = .ok n :=
    fun h => Value.readCounter_num.mpr ⟨h, by simp, rfl⟩
  simp [CursorRange.ofValue, Value.index, hget, hread hf, hread ht, hread hh, pure, Except.pure]

theorem get_toValue {p : PullPage} (k : String) : p.toValue.get k =
    if k = "changes" then some (.arr (p.changes.map (·.toValue))) else
    if k = "cursors" then some (.obj (p.cursors.entries.map fun e => (e.1, e.2.toValue)))
    else none := by
  simp [toValue, Value.ofEntries, Value.setAll]
  rfl

theorem ofValue_toValue {p : PullPage} (h : p.validate = .ok ()) : ofValue p.toValue = .ok p := by
  obtain ⟨hranges, hrec⟩ := validate_bounds h
  have hobj : p.toValue.asObject.isSome := by
    rw [toValue, Value.ofEntries_eq_obj]
    rfl
  have hchanges := mapM_reread (g := (·.toValue)) fun x hx => AuthorityRecord.ofValue_toValue (hrec x hx)
  have hcursors : (p.cursors.entries.map fun e => (e.1, e.2.toValue)).mapM readRange =
      .ok p.cursors.entries := by
    refine mapM_reread fun e he => ?_
    obtain ⟨hname, hfrom, hto, hhead⟩ := hranges e he
    simp [readRange, range_toValue hfrom hto hhead, ensure, hname, pure, Except.pure]
  have hmap : ∀ fs, (Value.obj fs).asObject = some fs := fun _ => rfl
  simp [ofValue, hobj, get_toValue, Value.index, Value.asArray, hmap, required, hchanges,
    hcursors, SortedMap.ofList_entries, h, ensure, pure, Except.pure]

end PullPage

end Pull

section Live

theorem units_injective : ∀ {l m : List Char},
    (l.flatMap fun c => if c.toNat < 0x10000 then [c.toNat]
      else [0xD800 + (c.toNat - 0x10000) / 0x400, 0xDC00 + (c.toNat - 0x10000) % 0x400]) =
    (m.flatMap fun c => if c.toNat < 0x10000 then [c.toNat]
      else [0xD800 + (c.toNat - 0x10000) / 0x400, 0xDC00 + (c.toNat - 0x10000) % 0x400]) → l = m
  | [], [], _ => rfl
  | [], d :: m, h => by
    simp only [List.flatMap_nil, List.flatMap_cons] at h
    split at h <;> simp at h
  | c :: l, [], h => by
    simp only [List.flatMap_nil, List.flatMap_cons] at h
    split at h <;> simp at h
  | c :: l, d :: m, h => by
    -- a character is never a surrogate, so the first unit tells the length of its encoding
    have hc : c.toNat < 0xD800 ∨ 0xDFFF < c.toNat ∧ c.toNat < 0x110000 := c.valid
    have hd : d.toNat < 0xD800 ∨ 0xDFFF < d.toNat ∧ d.toNat < 0x110000 := d.valid
    simp only [List.flatMap_cons] at h
    split at h <;> split at h <;>
      simp only [List.cons_append, List.nil_append, List.cons.injEq] at h
    · rw [Char.toNat_inj.mp h.1, units_injective h.2]
    · omega
    · omega
    · obtain ⟨hhi, hlo, hrest⟩ := h
      rw [Char.toNat_inj.mp (by omega : c.toNat = d.toNat), units_injective hrest]

/-- Different strings have different code units, so sorting by them leaves no ties. -/
theorem encodeUtf16_injective : Function.Injective encodeUtf16 := fun _ _ h =>
  String.toList_inj.mp (units_injective h)

/-- Normalized channels are normalized to themselves. -/
theorem normalizeChannels_idem {cs ds : List String} (h : normalizeChannels cs = .ok ds) :
    normalizeChannels ds = .ok ds := by
  simp only [normalizeChannels, Except.bind_eq_ok, ensure_eq_ok, Except.pure_eq_ok,
    exists_const] at h ⊢
  obtain ⟨hne, hblank, hds⟩ := h
  have hperm : ds.Perm cs.dedup := hds ▸
    (List.perm_insertionSort _ _).trans (List.perm_insertionSort _ _)
  have hnd : ds.Nodup := hperm.nodup_iff.mpr (List.nodup_dedup cs)
  have hsorted : ds.Pairwise fun a b => encodeUtf16 a ≤ encodeUtf16 b := hds ▸
    List.pairwise_insertionSort _ _
  refine ⟨fun hnil => hne ?_, fun hmem => hblank (List.mem_dedup.mp (hperm.mem_iff.mp hmem)), ?_⟩
  · subst hnil
    exact List.dedup_eq_nil cs |>.mp (List.nil_perm.mp hperm)
  · rw [hnd.dedup]
    refine List.Perm.eq_of_pairwise (fun a b _ _ hab hba => ?_) (List.pairwise_insertionSort _ _)
      hsorted ((List.perm_insertionSort _ _).trans (List.perm_insertionSort _ _))
    exact encodeUtf16_injective (le_antisymm hab hba)

namespace SubscribeRequest

theorem make_eq_ok {r : SubscribeRequest} {cs : List String} {ms : Models} :
    make cs ms = .ok r ↔
      ∃ ds, normalizeChannels cs = .ok ds ∧ readModels ms = .ok () ∧ r = ⟨ds, ms⟩ := by
  simp only [make, Except.bind_eq_ok, Value.readModels_ofCounters, Except.pure_eq_ok]
  constructor
  · rintro ⟨ds, hcs, _, ⟨hms, rfl⟩, rfl⟩
    exact ⟨ds, hcs, hms, rfl⟩
  · rintro ⟨ds, hcs, hms, rfl⟩
    exact ⟨ds, hcs, _, ⟨hms, rfl⟩, rfl⟩

theorem ofValue_toValue {r : SubscribeRequest} {cs : List String} {ms : Models}
    (h : make cs ms = .ok r) : ofValue r.toValue = .ok r := by
  obtain ⟨ds, hcs, hms, rfl⟩ := make_eq_ok.mp h
  have hagain : make ds ms = .ok ⟨ds, ms⟩ := make_eq_ok.mpr ⟨ds, normalizeChannels_idem hcs, hms, rfl⟩
  have hget : ∀ k, (toValue ⟨ds, ms⟩).get k =
      if k = "models" then some (.ofCounters ms) else
      if k = "channels" then some (.arr (ds.map .str)) else
      if k = "type" then some (.str "subscribe") else none := by
    intro k
    simp [toValue, Value.ofEntries, Value.setAll]
    rfl
  have hobj : toValue ⟨ds, ms⟩ = .obj (toValue ⟨ds, ms⟩).entries := by
    rw [toValue, Value.ofEntries_eq_obj]
    rfl
  have hfields : (toValue ⟨ds, ms⟩).fields ["type", "channels", "models"] =
      .ok (toValue ⟨ds, ms⟩).get := by
    rw [hobj]; rfl
  have hknown : ∀ e ∈ (toValue ⟨ds, ms⟩).entries, e.1 ∈ ["type", "channels", "models"] := by
    intro e he
    rcases List.mem_cons.mp (Value.mem_entries_ofEntries he) with rfl | he
    · simp
    · rcases List.mem_cons.mp he with rfl | he
      · simp
      · rw [List.mem_singleton.mp he]
        simp
  have hchannels : (ds.map Value.str).mapM Value.asString = .ok ds := mapM_reread fun _ _ => rfl
  rw [ofValue, hfields, Except.ok_bind, ensure, if_pos hknown, Except.ok_bind]
  simp [hget, required, Value.asString, Value.asStr, Value.asArray, hchannels, ensure,
    Value.readModels_ofCounters.mpr ⟨hms, rfl⟩, hagain]

end SubscribeRequest

namespace SubscriptionAck
variable {a : SubscriptionAck}

theorem make_eq_ok {cursors : SortedMap String ℕ} :
    make cursors = .ok a ↔ readCursors cursors = .ok () ∧ a = ⟨cursors⟩ := by
  simp only [make, Except.bind_eq_ok, Value.readCursors_ofCounters, Except.pure_eq_ok]
  constructor
  · rintro ⟨_, ⟨hc, rfl⟩, rfl⟩
    exact ⟨hc, rfl⟩
  · rintro ⟨hc, rfl⟩
    exact ⟨_, ⟨hc, rfl⟩, rfl⟩

theorem get_toValue (k : String) : a.toValue.get k =
    if k = "cursors" then some (.ofCounters a.cursors) else
    if k = "type" then some (.str "subscribed") else none := by
  simp [toValue, Value.ofEntries, Value.setAll]
  rfl

theorem ofValue_toValue {cursors : SortedMap String ℕ} (h : make cursors = .ok a) :
    ofValue a.toValue = .ok a := by
  obtain ⟨hc, rfl⟩ := make_eq_ok.mp h
  have hobj : toValue ⟨cursors⟩ = .obj (toValue ⟨cursors⟩).entries := by
    rw [toValue, Value.ofEntries_eq_obj]
    rfl
  have hfields : (toValue ⟨cursors⟩).fields ["type", "cursors"] = .ok (toValue ⟨cursors⟩).get := by
    rw [hobj]; rfl
  simp [ofValue, wire, hfields, get_toValue, required, Value.asString, Value.asStr, ensure,
    Value.readCursors_ofCounters.mpr ⟨hc, rfl⟩, Except.mapError, h, pure, Except.pure]

end SubscriptionAck

end Live

/-- A message is read back from its own text, and whatever is read from that text has that text. -/
def RoundTrips {α : Type} (encode : α → Except String String) (decode : String → Except String α)
    (r : α) : Prop :=
  ∃ text, encode r = .ok text ∧ decode text = .ok r ∧ ∀ r', decode text = .ok r' → encode r' = .ok text

section RoundTrips
variable {j : Json}

theorem roundTrips_of {α : Type} {encode : α → Except String String}
    {decode : String → Except String α} {r : α} {text : String} (he : encode r = .ok text)
    (hd : decode text = .ok r) : RoundTrips encode decode r := by
  refine ⟨text, he, hd, fun r' hr' => ?_⟩
  obtain rfl : r = r' := Except.ok.inj (hd.symm.trans hr')
  exact he

theorem RawPushRequest.decode_eq_ok {text : String} {r : RawPushRequest}
    (h : RawPushRequest.decode j text = .ok r) : ofValue r.raw = .ok r := by
  obtain ⟨raw, -, hr⟩ := Except.bind_eq_ok.mp h
  have hraw : r.raw = raw := by
    simp only [ofValue, Except.bind_eq_ok, Except.pure_eq_ok] at hr
    obtain ⟨_, -, _, -, _, -, _, -, _, -, _, -, rfl⟩ := hr
    rfl
  rw [hraw]
  exact hr

theorem PushReceipt.encode_eq_ok {r : PushReceipt} {text : String} :
    r.encode j = .ok text ↔ r.validate = .ok () ∧ text = j.text r.toValue := by
  simp only [encode, Except.bind_eq_ok, Except.pure_eq_ok, eq_comm (a := text)]
  constructor
  · rintro ⟨_, h⟩
    exact h
  · intro h
    exact ⟨(), h⟩

theorem PullPage.encode_eq_ok {p : PullPage} {text : String} :
    p.encode j = .ok text ↔ p.validate = .ok () ∧ text = j.text p.toValue := by
  simp only [encode, Except.bind_eq_ok, Except.pure_eq_ok, eq_comm (a := text)]
  constructor
  · rintro ⟨_, h⟩
    exact h
  · intro h
    exact ⟨(), h⟩

theorem PullPage.decode_text {p : PullPage} (hv : p.validate = .ok ()) (hj : j.Rereads p.toValue) :
    decode j (j.text p.toValue) = .ok p := by
  rw [decode, show j.parse (j.text p.toValue) = .ok p.toValue from hj, Except.ok_bind]
  exact ofValue_toValue hv

/-- An acknowledgement that was read or made is one that can be made. -/
theorem SubscriptionAck.made {a : SubscriptionAck}
    (h : (∃ text, SubscriptionAck.decode j text = .ok a) ∨ ∃ cursors, make cursors = .ok a) :
    ∃ cursors, make cursors = .ok a := by
  refine h.elim (fun ⟨text, h⟩ => ?_) id
  obtain ⟨v, -, h⟩ := Except.bind_eq_ok.mp h
  simp only [ofValue, Except.bind_eq_ok] at h
  obtain ⟨_, -, _, -, cursors, -, h⟩ := h
  exact ⟨cursors, h⟩

theorem SubscriptionAck.decode_text {a : SubscriptionAck}
    (h : ∃ cursors, make cursors = .ok a) (hj : j.Rereads a.toValue) :
    decode j (j.text a.toValue) = .ok a := by
  obtain ⟨cursors, h⟩ := h
  rw [decode, show j.parse (j.text a.toValue) = .ok a.toValue from hj]
  exact ofValue_toValue h

/-- Every message is read back from its text: what a decoder or a constructor produced, and what
    encodes. The frames of a live session are told apart by their `type`: each is read as itself. -/
theorem codecs_round_trip (j : Json) :
    (∀ text r, RawPushRequest.decode j text = .ok r → j.Rereads r.raw →
      RoundTrips (RawPushRequest.encode j) (RawPushRequest.decode j) r) ∧
    (∀ r : PushReceipt, (∃ text, r.encode j = .ok text) → j.Rereads r.toValue →
      RoundTrips (PushReceipt.encode j) (PushReceipt.decode j) r) ∧
    (∀ r : PullRequest, (∃ text, r.encode j = .ok text) → j.Rereads r.toValue →
      RoundTrips (PullRequest.encode j) (PullRequest.decode j) r) ∧
    (∀ p : PullPage, (∃ text, p.encode j = .ok text) → j.Rereads p.toValue →
      RoundTrips (PullPage.encode j) (PullPage.decode j) p ∧
        ∀ text, p.encode j = .ok text → LiveMessage.decode j text = .ok (.page p)) ∧
    (∀ r, ((∃ text, SubscribeRequest.decode j text = .ok r) ∨
        ∃ channels models, SubscribeRequest.make channels models = .ok r) → j.Rereads r.toValue →
      RoundTrips (SubscribeRequest.encode j) (SubscribeRequest.decode j) r) ∧
    ∀ a, ((∃ text, SubscriptionAck.decode j text = .ok a) ∨
        ∃ cursors, SubscriptionAck.make cursors = .ok a) → j.Rereads a.toValue →
      RoundTrips (SubscriptionAck.encode j) (SubscriptionAck.decode j) a ∧
        ∀ text, a.encode j = .ok text → LiveMessage.decode j text = .ok (.acknowledged a) := by
  refine ⟨fun text r hr hj => ?_, fun r hr hj => ?_, fun r hr hj => ?_, fun p hp hj => ?_,
    fun r hr hj => ?_, fun a ha hj => ?_⟩
  · refine roundTrips_of rfl ?_
    rw [RawPushRequest.decode, show j.parse (j.text r.raw) = .ok r.raw from hj, Except.ok_bind]
    exact RawPushRequest.decode_eq_ok hr
  · obtain ⟨text, he⟩ := hr
    obtain ⟨hv, rfl⟩ := PushReceipt.encode_eq_ok.mp he
    refine roundTrips_of he ?_
    rw [PushReceipt.decode, show j.parse (j.text r.toValue) = .ok r.toValue from hj, Except.ok_bind]
    exact PushReceipt.ofValue_toValue hv
  · obtain ⟨text, he⟩ := hr
    exact roundTrips_of he (PullRequest.decode_encode hj he)
  · obtain ⟨text, he⟩ := hp
    obtain ⟨hv, rfl⟩ := PullPage.encode_eq_ok.mp he
    refine ⟨roundTrips_of he (PullPage.decode_text hv hj), fun text' he' => ?_⟩
    obtain ⟨-, rfl⟩ := PullPage.encode_eq_ok.mp he'
    have hobj : p.toValue.asObject.isSome := by
      rw [PullPage.toValue, Value.ofEntries_eq_obj]
      rfl
    rw [LiveMessage.decode, show j.parse (j.text p.toValue) = .ok p.toValue from hj]
    simp [ensure, hobj, PullPage.get_toValue, PullPage.decode_text hv hj, Except.mapError]
  · refine roundTrips_of rfl ?_
    have hmade : ∃ channels models, SubscribeRequest.make channels models = .ok r := by
      refine hr.elim (fun ⟨text, h⟩ => ?_) id
      obtain ⟨v, -, h⟩ := Except.bind_eq_ok.mp h
      simp only [SubscribeRequest.ofValue, Except.bind_eq_ok] at h
      obtain ⟨_, -, _, -, _, -, _, -, _, -, _, -, channels, -, _, -, models, -, h⟩ := h
      exact ⟨_, _, h⟩
    obtain ⟨channels, models, h⟩ := hmade
    rw [SubscribeRequest.decode, show j.parse (j.text r.toValue) = .ok r.toValue from hj,
      Except.ok_bind]
    exact SubscribeRequest.ofValue_toValue h
  · have hmade := SubscriptionAck.made ha
    refine ⟨roundTrips_of rfl (SubscriptionAck.decode_text hmade hj), fun text he => ?_⟩
    obtain rfl := Except.ok.inj he
    have hobj : a.toValue.asObject.isSome := by
      rw [SubscriptionAck.toValue, Value.ofEntries_eq_obj]
      rfl
    rw [LiveMessage.decode, show j.parse (j.text a.toValue) = .ok a.toValue from hj]
    simp [ensure, hobj, SubscriptionAck.get_toValue, SubscriptionAck.decode_text hmade hj]

namespace Sample

/-- A receipt of a deletion, a page that could not read a record, and the frames of a session. -/
def wireReceipt : PushReceipt :=
  ⟨"me", 1, [⟨2, "no"⟩], [⟨"Item", .ofEntries [("id", .str "a")], 3, .null, none⟩]⟩

def wirePage : PullPage :=
  ⟨.ofList [("type", ⟨0, 1, 2⟩)],
    [⟨"Item", .ofEntries [("id", .str "b")], 4, .null, some "loader.failed"⟩]⟩

def wirePull : PullRequest := ⟨.ofList [("Item", 1)], .ofList [("type", 0)]⟩

def wireSubscribe : SubscribeRequest := ⟨["type"], .ofList [("Item", 1)]⟩

def wireAck : SubscriptionAck := ⟨.ofList [("type", 2)]⟩

def wirePush : Value := .ofEntries [("batchSequence", .num 1), ("clientId", .str "me"),
  ("models", .ofEntries [("Item", .num 1)]),
  ("mutations", .arr [.ofEntries [("future", .bool true), ("ordinal", .num 7)]])]

/-- A parser of the texts of these messages. -/
def wireJson : Json where
  codecs := codecs
  parse text := required ([wireReceipt.toValue, wirePage.toValue, wirePull.toValue, wireSubscribe.toValue,
    wireAck.toValue, wirePush].find? fun v => canonicalJson codecs v = text) "expected value"

theorem codecs_round_trip_sample :
    (∃ r, RawPushRequest.decode wireJson (wireJson.text wirePush) = .ok r ∧
      RoundTrips (RawPushRequest.encode wireJson) (RawPushRequest.decode wireJson) r) ∧
    RoundTrips (PushReceipt.encode wireJson) (PushReceipt.decode wireJson) wireReceipt ∧
    RoundTrips (PullRequest.encode wireJson) (PullRequest.decode wireJson) wirePull ∧
    LiveMessage.decode wireJson (wireJson.text wirePage.toValue) = .ok (.page wirePage) ∧
    RoundTrips (SubscribeRequest.encode wireJson) (SubscribeRequest.decode wireJson) wireSubscribe ∧
    LiveMessage.decode wireJson (wireJson.text wireAck.toValue) =
      .ok (.acknowledged wireAck) := by
  obtain ⟨hpush, hreceipt, hpull, hpage, hsubscribe, hack⟩ := codecs_round_trip wireJson
  have hdecoded : RawPushRequest.decode wireJson (wireJson.text wirePush) = RawPushRequest.ofValue wirePush := by
    decide +kernel
  obtain ⟨r, hr⟩ := Except.exists_ok
    (show (RawPushRequest.ofValue wirePush).isOk = true by decide +kernel)
  have hraw : RawPushRequest.ofValue wirePush = .ok r → r.raw = wirePush := by
    intro h
    simp only [RawPushRequest.ofValue, Except.bind_eq_ok, Except.pure_eq_ok] at h
    obtain ⟨_, -, _, -, _, -, _, -, _, -, _, -, rfl⟩ := h
    rfl
  refine ⟨⟨r, hdecoded.trans hr, hpush _ r (hdecoded.trans hr) ?_⟩,
    hreceipt wireReceipt ⟨_, PushReceipt.encode_eq_ok.mpr ⟨by decide +kernel, rfl⟩⟩ (by decide +kernel),
    hpull wirePull ⟨_, PullRequest.encode_eq_ok.mpr ⟨by decide +kernel, by decide +kernel, rfl⟩⟩
      (by decide +kernel), ?_, ?_, ?_⟩
  · rw [hraw hr]
    decide +kernel
  · have hv : wirePage.validate = .ok () := by decide +kernel
    exact (hpage wirePage ⟨_, PullPage.encode_eq_ok.mpr ⟨hv, rfl⟩⟩ (by decide +kernel)).2 _
      (PullPage.encode_eq_ok.mpr ⟨hv, rfl⟩)
  · exact hsubscribe wireSubscribe (Or.inr ⟨["type", "type"], .ofList [("Item", 1)], by decide +kernel⟩)
      (by decide +kernel)
  · exact (hack wireAck (Or.inr ⟨.ofList [("type", 2)], by decide +kernel⟩)
      (by decide +kernel)).2 _ rfl

end Sample

end RoundTrips

end AheadSync
