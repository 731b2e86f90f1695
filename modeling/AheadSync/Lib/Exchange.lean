import Mathlib.Data.List.Basic
import Mathlib.Data.Set.Insert
import Mathlib.Logic.Relation

/-! Numbered requests over a network that may lose, repeat, delay and reorder what it was given. The client
    has one request out at a time, and the next only after an answer to it; the server executes the
    request after the last it executed, and answers the last one again when it comes again. -/

namespace Exchange
variable {ρ α : Type}

/-- What one client has completed and the server has executed, in order, the request that is out, and
    everything the network was given with its numbers. -/
structure State (ρ α : Type) where
  completed : List (ρ × α) := []
  flight : Option ρ := none
  executed : List (ρ × α) := []
  sent : Set (ℕ × ρ) := ∅
  answers : Set (ℕ × α) := ∅

inductive Step (s : State ρ α) : State ρ α → Prop
  | take (r : ρ) (free : s.flight = none) : Step s { s with flight := some r }
  | send (r : ρ) (out : s.flight = some r) :
    Step s { s with sent := insert (s.completed.length + 1, r) s.sent }
  | execute (r : ρ) (a : α) (next : (s.executed.length + 1, r) ∈ s.sent) : Step s { s with
      executed := s.executed ++ [(r, a)], answers := insert (s.executed.length + 1, a) s.answers }
  | again (r : ρ) (a : α) (last : s.executed.getLast? = some (r, a)) :
    Step s { s with answers := insert (s.executed.length, a) s.answers }
  | complete (r : ρ) (a : α) (out : s.flight = some r)
    (answered : (s.completed.length + 1, a) ∈ s.answers) :
    Step s { s with completed := s.completed ++ [(r, a)], flight := none }

/-- The requests in the order of their numbers. -/
def State.requests (s : State ρ α) : List ρ := s.completed.map Prod.fst ++ s.flight.toList

/-- A number stands for one request and one answer, and the server is at most one request ahead. -/
structure Sound (s : State ρ α) : Prop where
  sent : ∀ n r, (n, r) ∈ s.sent → ∃ i, n = i + 1 ∧ s.requests[i]? = some r
  answers : ∀ n a, (n, a) ∈ s.answers → ∃ i r, n = i + 1 ∧ s.executed[i]? = some (r, a)
  ahead : s.executed = s.completed ∨
    ∃ r a, s.flight = some r ∧ s.executed = s.completed ++ [(r, a)]

section Sound
variable {s s' : State ρ α}

theorem getElem?_append_of {β : Type} {l : List β} {i : ℕ} {b : β} (h : l[i]? = some b) (more : List β) :
    (l ++ more)[i]? = some b := by
  obtain ⟨hlt, -⟩ := List.getElem?_eq_some_iff.mp h
  rw [List.getElem?_append_left hlt, h]

/-- The server can only execute the request that is out. -/
theorem Sound.next (h : Sound s) {r : ρ} (hr : (s.executed.length + 1, r) ∈ s.sent) :
    s.executed = s.completed ∧ s.flight = some r := by
  obtain ⟨i, hi, hget⟩ := h.sent _ r hr
  obtain rfl : s.executed.length = i := Nat.succ.inj hi
  obtain ⟨hlt, hget⟩ := List.getElem?_eq_some_iff.mp hget
  have hlen : s.requests.length ≤ s.completed.length + 1 := by
    rw [State.requests, List.length_append, List.length_map]
    cases s.flight with
    | none => simp
    | some r => simp
  rcases h.ahead with heq | ⟨r', a, hflight, heq⟩
  · refine ⟨heq, ?_⟩
    cases hf : s.flight with
    | none =>
      rw [State.requests, hf, heq] at hlt
      simp at hlt
    | some r' =>
      simp only [State.requests, hf, heq, Option.toList_some] at hget
      rw [List.getElem_append_right (by simp)] at hget
      simpa using hget
  · rw [heq, List.length_append, List.length_singleton] at hlt
    omega

/-- The request that is out was executed already when the server has answered it. -/
theorem Sound.answered (h : Sound s) {r : ρ} {a : α} (hr : s.flight = some r)
    (ha : (s.completed.length + 1, a) ∈ s.answers) : s.executed = s.completed ++ [(r, a)] := by
  obtain ⟨i, r', hi, hget⟩ := h.answers _ a ha
  obtain rfl : s.completed.length = i := Nat.succ.inj hi
  rcases h.ahead with heq | ⟨r₀, a₀, hflight, heq⟩
  · rw [heq] at hget
    simp at hget
  · obtain rfl : r = r₀ := Option.some.inj (hr.symm.trans hflight)
    rw [heq] at hget ⊢
    simp only [List.getElem?_concat_length, Option.some.injEq, Prod.mk.injEq] at hget
    rw [hget.2]

/-- Every step keeps the numbers straight. -/
theorem sound_step (h : Sound s) (hs : Step s s') : Sound s' := by
  cases hs with
  | take r free =>
    have hrequests : s.requests = s.completed.map Prod.fst := by
      rw [State.requests, free, Option.toList_none, List.append_nil]
    refine ⟨fun n r' hr => ?_, h.answers, h.ahead.imp_right ?_⟩
    · obtain ⟨i, hi, hget⟩ := h.sent n r' hr
      exact ⟨i, hi, getElem?_append_of (hrequests ▸ hget) [r]⟩
    · rintro ⟨r', a, hflight, -⟩
      rw [free] at hflight
      cases hflight
  | send r out =>
    refine ⟨fun n r' hr => ?_, h.answers, h.ahead⟩
    rcases hr with heq | hr
    · obtain ⟨rfl, rfl⟩ := Prod.mk.inj heq
      exact ⟨_, rfl, by simp [State.requests, out]⟩
    · exact h.sent n r' hr
  | execute r a next =>
    obtain ⟨heq, hflight⟩ := h.next next
    refine ⟨h.sent, fun n a' ha => ?_, .inr ⟨r, a, hflight, by rw [heq]⟩⟩
    rcases ha with hnew | ha
    · obtain ⟨rfl, rfl⟩ := Prod.mk.inj hnew
      exact ⟨_, r, rfl, by simp⟩
    · obtain ⟨i, r', hi, hget⟩ := h.answers n a' ha
      exact ⟨i, r', hi, getElem?_append_of hget _⟩
  | again r a last =>
    refine ⟨h.sent, fun n a' ha => ?_, h.ahead⟩
    rcases ha with hnew | ha
    · obtain ⟨rfl, rfl⟩ := Prod.mk.inj hnew
      rw [List.getLast?_eq_getElem?] at last
      obtain ⟨hlt, -⟩ := List.getElem?_eq_some_iff.mp last
      exact ⟨s.executed.length - 1, r, by omega, last⟩
    · exact h.answers n a' ha
  | complete r a out answered =>
    have hdone := h.answered out answered
    refine ⟨fun n r' hr => ?_, h.answers, .inl hdone⟩
    obtain ⟨i, hi, hget⟩ := h.sent n r' hr
    refine ⟨i, hi, ?_⟩
    simpa [State.requests, out] using hget

/-- Two requests of one number are the same. -/
theorem Sound.request_unique (h : Sound s) {n : ℕ} {r r' : ρ} (hr : (n, r) ∈ s.sent)
    (hr' : (n, r') ∈ s.sent) : r = r' := by
  obtain ⟨i, rfl, hget⟩ := h.sent n r hr
  obtain ⟨j, hj, hget'⟩ := h.sent _ r' hr'
  obtain rfl : i = j := Nat.succ.inj hj
  rw [hget] at hget'
  exact Option.some.inj hget'

/-- Two answers of one number are the same. -/
theorem Sound.answer_unique (h : Sound s) {n : ℕ} {a a' : α} (ha : (n, a) ∈ s.answers)
    (ha' : (n, a') ∈ s.answers) : a = a' := by
  obtain ⟨i, r, rfl, hget⟩ := h.answers n a ha
  obtain ⟨j, r', hj, hget'⟩ := h.answers _ a' ha'
  obtain rfl : i = j := Nat.succ.inj hj
  rw [hget] at hget'
  exact (Prod.mk.inj (Option.some.inj hget')).2

/-- What the client completed, the server executed, in that order. -/
theorem Sound.completed_prefix (h : Sound s) : s.completed <+: s.executed := by
  rcases h.ahead with heq | ⟨r, a, -, heq⟩
  · exact heq ▸ List.prefix_rfl
  · exact heq ▸ List.prefix_append _ _

end Sound

end Exchange
