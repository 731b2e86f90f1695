import AheadSync.Core.Protocol
import AheadSync.Lib.Outcome

/-! What a valid message is, check by check. -/

namespace AheadSync

theorem readModels_eq_ok {models : Models} : readModels models = .ok () ↔ models.entries ≠ [] ∧
    ∀ x ∈ models.entries, x.1 ≠ "" ∧ 0 < x.2 ∧ x.2 ≤ maxSafeInteger := by
  simp only [readModels, Except.bind_eq_ok, ensure_eq_ok, List.forM_eq_ok, positiveCounter]
  constructor
  · rintro ⟨_, hne, hall⟩
    refine ⟨hne, fun x hx => ?_⟩
    obtain ⟨_, hname, hversion⟩ := hall x hx
    exact ⟨hname, hversion⟩
  · rintro ⟨hne, hall⟩
    exact ⟨(), hne, fun x hx => ⟨(), hall x hx⟩⟩

/-- A push request names its client, a batch of the models' readers and up to 20 mutations. -/
theorem PushRequest.validate_eq_ok {r : PushRequest} : r.validate = .ok () ↔
    blank r.clientId = false ∧ (0 < r.batchSequence ∧ r.batchSequence ≤ maxSafeInteger) ∧
      readModels r.models = .ok () ∧
      (r.mutations ≠ [] ∧ r.mutations.length ≤ pushMutations) ∧
      (∀ m ∈ r.mutations, 0 < m.ordinal ∧ m.ordinal ≤ maxSafeInteger) ∧
      (r.mutations.map (·.ordinal)).Nodup := by
  simp only [validate, Except.bind_eq_ok, ensure_eq_ok, List.forM_eq_ok, positiveCounter]
  constructor
  · rintro ⟨_, hid, _, hseq, _, hmodels, _, hcount, _, hords, hnd⟩
    exact ⟨by simpa using hid, hseq, hmodels, hcount, hords, hnd⟩
  · rintro ⟨hid, hseq, hmodels, hcount, hords, hnd⟩
    exact ⟨(), by simp [hid], (), hseq, (), hmodels, (), hcount, (), hords, hnd⟩

theorem uniqueRecords_eq_ok {records : List AuthorityRecord} : uniqueRecords records = .ok () ↔
    (∀ r ∈ records, r.validate = .ok ()) ∧ (records.map (·.key)).Nodup := by
  simp only [uniqueRecords, Except.bind_eq_ok, List.forM_eq_ok, ensure_eq_ok, exists_const]

/-- A receipt counts its batch and its rejections in range, and its records are valid. -/
theorem PushReceipt.validate_bounds {r : PushReceipt} (h : r.validate = .ok ()) :
    (0 < r.batchSequence ∧ r.batchSequence ≤ maxSafeInteger) ∧
      (∀ x ∈ r.rejections, x.ordinal ≤ maxSafeInteger) ∧ ∀ x ∈ r.records, x.validate = .ok () := by
  simp only [validate, Except.bind_eq_ok, ensure_eq_ok, List.forM_eq_ok, positiveCounter, counter,
    exists_const] at h
  obtain ⟨-, hseq, hrej, -, _, hrec, -⟩ := h
  exact ⟨hseq, fun x hx => (hrej x hx).1, (uniqueRecords_eq_ok.mp hrec).1⟩

/-- A request declares models and names channels with cursors in range. -/
theorem PullRequest.validate_eq_ok {r : PullRequest} {u : Unit} : r.validate = .ok u ↔
    readModels r.models = .ok () ∧ r.cursors.entries ≠ [] ∧
      ∀ x ∈ r.cursors.entries, x.1 ≠ "" ∧ x.2 ≤ maxSafeInteger := by
  simp only [validate, readCursors, Except.bind_eq_ok, ensure_eq_ok, List.forM_eq_ok, counter,
    exists_const]
  constructor
  · rintro ⟨_, h⟩
    exact h
  · intro h
    exact ⟨(), h⟩

/-- A page names channels whose ranges are in order and in range, and it carries valid records, each
    once and within its room. -/
theorem PullPage.validate_eq_ok {p : PullPage} : p.validate = .ok () ↔ p.cursors.entries ≠ [] ∧
    (∀ x ∈ p.cursors.entries, x.1 ≠ "" ∧ x.2.fromCursor ≤ maxSafeInteger ∧
      x.2.toCursor ≤ maxSafeInteger ∧ x.2.head ≤ maxSafeInteger ∧ x.2.fromCursor ≤ x.2.toCursor ∧
      x.2.toCursor ≤ x.2.head) ∧
    p.changes.length ≤ pullChanges * p.cursors.entries.length ∧ uniqueRecords p.changes = .ok () := by
  simp only [validate, Except.bind_eq_ok, ensure_eq_ok, List.forM_eq_ok, counter, exists_const]

/-- A page names channels with cursors in range, and its records are valid. -/
theorem PullPage.validate_bounds {p : PullPage} (h : p.validate = .ok ()) :
    (∀ e ∈ p.cursors.entries, e.1 ≠ "" ∧ e.2.fromCursor ≤ maxSafeInteger ∧
      e.2.toCursor ≤ maxSafeInteger ∧ e.2.head ≤ maxSafeInteger) ∧
    ∀ x ∈ p.changes, x.validate = .ok () := by
  obtain ⟨-, hranges, -, hrec⟩ := validate_eq_ok.mp h
  refine ⟨fun e he => ?_, (uniqueRecords_eq_ok.mp hrec).1⟩
  obtain ⟨hname, hfrom, hto, hhead, -⟩ := hranges e he
  exact ⟨hname, hfrom, hto, hhead⟩

end AheadSync
