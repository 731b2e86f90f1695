import AheadSync.Client.Live
import AheadSync.Lib.Run

/-! Connection scheduling (`client/src/connection.rs`). What a host can tell from the calls it made
    and the answers it got is a history; the driver's flags follow it, so that a wake is never lost,
    a failed sync is never tried again early and no two syncs are in flight. -/

namespace AheadSync.Lane

/-- A call of a connection driver, with the time the host makes it at. -/
inductive DriverCall where
  | start (now : ℕ)
  | stop | pause
  | resume (now : ℕ)
  | wake
  | next (now : ℕ)
  | complete (success : Bool) (now entropy : ℕ)

/-- The driver after a call. -/
def ConnectionDriver.call (d : ConnectionDriver) : DriverCall → ConnectionDriver
  | .start now => .start now
  | .stop => .stop
  | .pause => d.pause
  | .resume now => d.resume now
  | .wake => d.wake
  | .next now => (d.next now).2
  | .complete success now entropy => d.complete success now entropy

/-- The delay after the given number of consecutive failures, before it is spread. -/
def backoff (failures : ℕ) : ℕ := min (250 * 2 ^ min (failures - 1) 7) 30000

/-- The delay, spread by entropy. -/
def spread (failures entropy : ℕ) : ℕ := backoff failures * (800 + entropy % 401) / 1000

/-- The time a call is made at. -/
def DriverCall.time : DriverCall → Option ℕ
  | .start now | .resume now | .next now | .complete _ now _ => some now
  | .stop | .pause | .wake => none

/-- What the calls and the answers tell, without a look at the driver. -/
structure History where
  /-- The greatest time of a call. -/
  clock : ℕ := 0
  /-- The lane was started and not stopped since. -/
  started : Bool := false
  /-- The lane was paused and neither resumed, started nor stopped since. -/
  paused : Bool := false
  /-- The syncs answered since the last start that have not ended. -/
  flying : ℕ := 0
  /-- A wake, without a sync answered or the lane stopped since. -/
  woken : Bool := false
  /-- The failures since the last start or success. -/
  failures : ℕ := 0
  /-- The time of the retry a failure set, without a start, a resume or a success since. -/
  retry : Option ℕ := none

namespace History
variable (h : History)

/-- What one more call and its answer tell. -/
def record (answer : ConnectionAction) : DriverCall → History
  | .start _ => { clock := h.clock, started := true, woken := h.woken }
  | .stop => { clock := h.clock, flying := h.flying }
  | .pause => { h with paused := true }
  | .resume _ => { h with paused := false, retry := none }
  | .wake => { h with woken := true }
  | .next _ => if answer = .sync then { h with flying := h.flying + 1, woken := false } else h
  | .complete success now entropy =>
    if !h.started || h.flying = 0 then h
    else if success then { h with flying := h.flying - 1, failures := 0, retry := none }
    else { h with
      flying := h.flying - 1
      failures := h.failures + 1
      retry := some (now + spread (h.failures + 1) entropy) }

def tick (c : DriverCall) : History := { h with clock := max h.clock (c.time.getD 0) }

end History

/-- What a call is answered. -/
def ConnectionDriver.answer (d : ConnectionDriver) : DriverCall → ConnectionAction
  | .next now => (d.next now).1
  | _ => .idle

/-- A driver and what its host can tell of it. -/
structure Watched where
  driver : ConnectionDriver := {}
  history : History := {}

def Watched.call (w : Watched) (c : DriverCall) : Watched :=
  ⟨w.driver.call c, (w.history.tick c).record (w.driver.answer c) c⟩

/-- A sync ends at a safe time. -/
def DriverCall.Safe : DriverCall → Prop
  | .complete _ now _ => now ≤ maxSafeInteger
  | _ => True

instance : DecidablePred DriverCall.Safe
  | .complete _ now _ => inferInstanceAs (Decidable (now ≤ maxSafeInteger))
  | .start _ | .stop | .pause | .resume _ | .wake | .next _ => isTrue trivial

/-- The driver follows the history. -/
structure Follows (w : Watched) : Prop where
  running : w.driver.running = w.history.started
  paused : w.history.started → w.driver.paused = w.history.paused
  flight : w.history.started → w.history.flying = w.driver.inFlight.toNat
  grounded : w.history.started = false → w.driver.inFlight = false
  single : w.history.flying ≤ 1
  dirty : w.history.woken → w.driver.dirty
  attempt : w.driver.attempt = min w.history.failures (2 ^ 32 - 1)
  retried : ∀ t ∈ w.history.retry, w.driver.due = t
  due : w.history.retry = none → w.driver.due ≤ w.history.clock

section Spread
variable {n e now : ℕ}

/-- The delay is spread by at most a fifth. -/
theorem spread_bounds : 8 * backoff n ≤ 10 * spread n e ∧ 10 * spread n e ≤ 12 * backoff n := by
  have hmod : e % 401 ≤ 400 := by omega
  have hten : 10 ∣ backoff n := by
    unfold backoff
    rcases min_choice (250 * 2 ^ min (n - 1) 7) 30000 with h | h <;> rw [h]
    · exact Nat.dvd_trans (by decide) (Nat.dvd_mul_right 250 _)
    · decide
  obtain ⟨b, hb⟩ := hten
  rw [spread, hb]
  have hlow : 10 * b * 800 ≤ 10 * b * (800 + e % 401) := Nat.mul_le_mul_left _ (by omega)
  have hhigh : 10 * b * (800 + e % 401) ≤ 10 * b * 1200 := Nat.mul_le_mul_left _ (by omega)
  omega

/-- No step of computing a retry time leaves 64 bits. -/
theorem spread_fits (h : now ≤ maxSafeInteger) :
    backoff n * (800 + e % 401) < 2 ^ 64 ∧ now + spread n e < 2 ^ 64 := by
  have hb : backoff n ≤ 30000 := min_le_right _ _
  have hs := (spread_bounds (n := n) (e := e)).2
  unfold maxSafeInteger at h
  refine ⟨?_, by omega⟩
  calc backoff n * (800 + e % 401) ≤ 30000 * 1200 := Nat.mul_le_mul hb (by omega)
    _ < 2 ^ 64 := by decide

end Spread

section Follow
variable {w : Watched}

theorem follows_start : Follows {} where
  running := rfl
  paused := nofun
  flight := nofun
  grounded := fun _ => rfl
  single := Nat.zero_le 1
  dirty := nofun
  attempt := rfl
  retried := nofun
  due := fun _ => le_rfl

/-- Only an unpaused driver with work, no sync in flight and no time left to wait answers a sync. -/
theorem next_eq_sync {d : ConnectionDriver} {now : ℕ} : (d.next now).1 = .sync ↔
    d.running = true ∧ d.paused = false ∧ d.inFlight = false ∧ d.dirty = true ∧ d.due ≤ now := by
  unfold ConnectionDriver.next
  split
  · rename_i hidle
    simp only [Bool.or_eq_true, Bool.not_eq_true'] at hidle
    simp only [reduceCtorEq, false_iff]
    rintro ⟨hr, hp, hf, hd, -⟩
    simp [hr, hp, hf, hd] at hidle
  · rename_i hidle
    simp only [Bool.or_eq_true, Bool.not_eq_true', not_or, Bool.not_eq_true,
      Bool.not_eq_false] at hidle
    obtain ⟨⟨⟨hr, hp⟩, hf⟩, hd⟩ := hidle
    split
    · simp only [reduceCtorEq, false_iff]
      rintro ⟨-, -, -, -, hdue⟩
      omega
    · simp only [true_iff]
      exact ⟨hr, hp, hf, hd, by omega⟩

/-- A driver that does not answer a sync stays as it is. -/
theorem next_stays {d : ConnectionDriver} {now : ℕ} (h : (d.next now).1 ≠ .sync) :
    (d.next now).2 = d := by
  unfold ConnectionDriver.next at h ⊢
  split
  · rfl
  · rename_i hidle
    rw [if_neg hidle] at h
    split
    · rfl
    · rename_i hdue
      rw [if_neg hdue] at h
      exact absurd rfl h

theorem next_syncs {d : ConnectionDriver} {now : ℕ} (h : (d.next now).1 = .sync) :
    (d.next now).2 = { d with dirty := false, inFlight := true } := by
  unfold ConnectionDriver.next at h ⊢
  split
  · rename_i hidle
    rw [if_pos hidle] at h
    cases h
  · rename_i hidle
    rw [if_neg hidle] at h
    split
    · rename_i hdue
      rw [if_pos hdue] at h
      cases h
    · rfl

/-- Time alone changes nothing the driver has to follow. -/
theorem follows_tick {d : ConnectionDriver} {g : History} (h : Follows ⟨d, g⟩) (c : DriverCall) :
    Follows ⟨d, g.tick c⟩ :=
  { h with due := fun hr => (h.due hr).trans (le_max_left ..) }

/-- The driver counts failures up to a bound that the delay does not see. -/
theorem complete_failed {d : ConnectionDriver} {failures now entropy : ℕ} (hr : d.running = true)
    (hf : d.inFlight = true) (ha : d.attempt = min failures (2 ^ 32 - 1))
    (hsafe : now ≤ maxSafeInteger) : d.complete false now entropy = { d with
      inFlight := false
      attempt := min (failures + 1) (2 ^ 32 - 1)
      due := now + spread (failures + 1) entropy
      dirty := true } := by
  have hbase : min (250 * 2 ^ min d.attempt 7) 30000 = backoff (failures + 1) := by
    rw [backoff, ha, Nat.add_sub_cancel, show min (min failures (2 ^ 32 - 1)) 7 = min failures 7 by omega]
  have hdue : saturated (now + spread (failures + 1) entropy) = now + spread (failures + 1) entropy :=
    min_eq_left (Nat.le_sub_one_of_lt (spread_fits hsafe).2)
  unfold ConnectionDriver.complete
  simp only [hr, hf, Bool.not_true, Bool.or_self, Bool.false_eq_true, ↓reduceIte]
  rw [hbase, ← spread, hdue, ha, show min (min failures (2 ^ 32 - 1) + 1) (2 ^ 32 - 1) =
    min (failures + 1) (2 ^ 32 - 1) by omega]

/-- The end of a sync, as the history tells it. -/
theorem follows_complete (h : Follows w) {success : Bool} {now entropy : ℕ}
    (hsafe : now ≤ maxSafeInteger) : Follows (w.call (.complete success now entropy)) := by
  obtain ⟨d, g⟩ := w
  have hlate : now ≤ (g.tick (.complete success now entropy)).clock := le_max_right ..
  obtain ⟨hrun, hpaused, hflight, hground, hsingle, hdirty, hattempt, hretried, hdue⟩ :=
    follows_tick h (.complete success now entropy)
  simp only [Watched.call, ConnectionDriver.call]
  generalize g.tick (.complete success now entropy) = g at *
  simp only at *
  by_cases hends : g.started = true ∧ d.inFlight = true
  · obtain ⟨hstarted, hin⟩ := hends
    have hr : d.running = true := hrun.trans hstarted
    have hone : g.flying = 1 := by rw [hflight hstarted, hin]; rfl
    cases success with
    | true =>
      have hd : d.complete true now entropy = { d with inFlight := false, attempt := 0, due := now } := by
        simp [ConnectionDriver.complete, hr, hin]
      have hg : ∀ a, g.record a (.complete true now entropy) =
          { g with flying := 0, failures := 0, retry := none } := by
        simp [History.record, hstarted, hone]
      rw [hd, hg]
      exact { running := hrun, paused := fun _ => hpaused hstarted, flight := fun _ => rfl
              grounded := fun _ => rfl, single := Nat.zero_le 1, dirty := hdirty, attempt := rfl
              retried := nofun, due := fun _ => hlate }
    | false =>
      have hg : ∀ a, g.record a (.complete false now entropy) = { g with
          flying := 0
          failures := g.failures + 1
          retry := some (now + spread (g.failures + 1) entropy) } := by
        simp [History.record, hstarted, hone]
      rw [complete_failed hr hin hattempt hsafe, hg]
      exact { running := hrun, paused := fun _ => hpaused hstarted, flight := fun _ => rfl
              grounded := fun _ => rfl, single := Nat.zero_le 1, dirty := fun _ => rfl, attempt := rfl
              retried := fun t ht => Option.some.inj ht, due := nofun }
  · -- no sync in flight, and the history knows it
    have hd : d.complete success now entropy = d := by
      unfold ConnectionDriver.complete
      rw [if_pos]
      rw [← hrun] at hends
      cases hr : d.running <;> cases hi : d.inFlight <;> simp_all
    have hg : ∀ a, g.record a (.complete success now entropy) = g := by
      intro a
      simp only [History.record]
      refine if_pos ?_
      cases hs : g.started with
      | false => rfl
      | true =>
        have hin : d.inFlight = false := by simpa [hs] using hends
        simp [hflight hs, hin]
    rw [hd, hg]
    exact ⟨hrun, hpaused, hflight, hground, hsingle, hdirty, hattempt, hretried, hdue⟩

/-- Every call keeps the driver with the history. -/
theorem follows_call (h : Follows w) (c : DriverCall) (hsafe : c.Safe) : Follows (w.call c) := by
  cases c with
  | complete success now entropy => exact follows_complete h hsafe
  | next now =>
    obtain ⟨d, g⟩ := w
    have ht := follows_tick h (.next now)
    show Follows ⟨(d.next now).2, (g.tick (.next now)).record (d.next now).1 (.next now)⟩
    generalize g.tick (.next now) = g at *
    by_cases hsync : (d.next now).1 = .sync
    · obtain ⟨hr, hp, hf, hd, hdue⟩ := next_eq_sync.mp hsync
      have hs : g.started = true := ht.running ▸ hr
      have hzero : g.flying = 0 := by rw [ht.flight hs, show d.inFlight = false from hf]; rfl
      rw [next_syncs hsync, hsync]
      exact { ht with
        flight := fun _ => congrArg (· + 1) hzero, grounded := fun hn => absurd (hs.symm.trans hn) (by decide)
        single := (congrArg (· + 1) hzero).le, dirty := nofun }
    · have hg : g.record (d.next now).1 (.next now) = g := if_neg hsync
      rw [hg, next_stays hsync]
      exact ht
  | start now =>
    exact { running := rfl, paused := fun _ => rfl, flight := fun _ => rfl, grounded := fun _ => rfl
            single := Nat.zero_le 1, dirty := fun _ => rfl, attempt := rfl, retried := nofun
            due := fun _ => le_max_right .. }
  | stop =>
    exact { running := rfl, paused := nofun, flight := nofun, grounded := fun _ => rfl
            single := h.single, dirty := nofun, attempt := rfl, retried := nofun
            due := fun _ => Nat.zero_le _ }
  | pause => exact { follows_tick h .pause with paused := fun _ => rfl }
  | resume now =>
    exact { follows_tick h (.resume now) with
      paused := fun _ => rfl, dirty := fun _ => rfl, retried := nofun, due := fun _ => le_max_right .. }
  | wake => exact { follows_tick h .wake with dirty := fun _ => rfl }

theorem follows_run {calls : List DriverCall} (hsafe : ∀ c ∈ calls, c.Safe) :
    Follows (Machine.run Watched.call {} calls) :=
  List.foldlRecOn calls Watched.call follows_start fun _ h c hc => follows_call h c (hsafe c hc)

/-- With a wake to serve and no sync in flight, an unpaused lane syncs at once, or at the time of the
    retry. -/
theorem next_woken (h : Follows w) (hwoken : w.history.woken = true)
    (hstarted : w.history.started = true) (hpaused : w.history.paused = false)
    (hidle : w.history.flying = 0) {now : ℕ} (hnow : w.history.clock ≤ now) :
    (w.driver.next now).1 = match w.history.retry with
      | none => .sync
      | some t => if now < t then .wait (t - now) else .sync := by
  have hr : w.driver.running = true := h.running.trans hstarted
  have hp : w.driver.paused = false := (h.paused hstarted).trans hpaused
  have hd : w.driver.dirty = true := h.dirty hwoken
  have hf : w.driver.inFlight = false := by
    have hflight := h.flight hstarted
    cases hin : w.driver.inFlight with
    | false => rfl
    | true => simp [hidle, hin] at hflight
  cases hretry : w.history.retry with
  | none => exact next_eq_sync.mpr ⟨hr, hp, hf, hd, (h.due hretry).trans hnow⟩
  | some t =>
    have hdue : w.driver.due = t := h.retried t hretry
    simp only
    split
    · simp [ConnectionDriver.next, *]
    · exact next_eq_sync.mpr ⟨hr, hp, hf, hd, by omega⟩

/-- Connection scheduling, after any calls: at most one sync is in flight; a sync is answered only in
    a started and unpaused lane without one, and not before the retry a failure set; a wake is served
    as soon as no sync is in flight and no retry is waited for; and the delay of a retry doubles up to
    a bound, spread by at most a fifth, within 64 bits. -/
theorem connection_scheduling (calls : List DriverCall) (hsafe : ∀ c ∈ calls, c.Safe) :
    let w := Machine.run Watched.call {} calls
    w.history.flying ≤ 1 ∧
    (∀ now, (w.driver.next now).1 = .sync → w.history.started = true ∧ w.history.paused = false ∧
      w.history.flying = 0 ∧ ∀ t ∈ w.history.retry, t ≤ now) ∧
    (w.history.woken = true → w.history.started = true → w.history.paused = false →
      w.history.flying = 0 → ∀ now, w.history.clock ≤ now →
        (w.driver.next now).1 = match w.history.retry with
          | none => .sync
          | some t => if now < t then .wait (t - now) else .sync) ∧
    ∀ now entropy, w.history.started = true → w.history.flying = 1 → now ≤ maxSafeInteger →
      let delay := (w.driver.complete false now entropy).due - now
      let base := min (250 * 2 ^ min w.history.failures 7) 30000
      8 * base ≤ 10 * delay ∧ 10 * delay ≤ 12 * base ∧ base * (800 + entropy % 401) < 2 ^ 64 ∧
        now + delay < 2 ^ 64 := by
  intro w
  have h : Follows w := follows_run hsafe
  refine ⟨h.single, fun now hsync => ?_, fun hwoken hstarted hpaused hidle now hnow =>
    next_woken h hwoken hstarted hpaused hidle hnow, fun now entropy hstarted hone hnow => ?_⟩
  · obtain ⟨hr, hp, hf, hd, hdue⟩ := next_eq_sync.mp hsync
    have hstarted : w.history.started = true := h.running.symm.trans hr
    refine ⟨hstarted, (h.paused hstarted).symm.trans hp, ?_, fun t ht => h.retried t ht ▸ hdue⟩
    rw [h.flight hstarted, hf]
    rfl
  · have hin : w.driver.inFlight = true := by
      have hflight := h.flight hstarted
      cases hin : w.driver.inFlight with
      | true => rfl
      | false => simp [hone, hin] at hflight
    have hfailed := @complete_failed _ _ _ entropy (h.running.trans hstarted) hin h.attempt hnow
    have hdelay : (w.driver.complete false now entropy).due - now =
        spread (w.history.failures + 1) entropy := by
      rw [hfailed]
      exact Nat.add_sub_cancel_left ..
    obtain ⟨hlow, hhigh⟩ := @spread_bounds (w.history.failures + 1) entropy
    obtain ⟨hproduct, hsum⟩ := @spread_fits (w.history.failures + 1) entropy now hnow
    simp only [hdelay]
    exact ⟨hlow, hhigh, hproduct, hsum⟩

/-- A wake during a sync that then fails is served when the retry is due. -/
theorem connection_scheduling_failed :
    let w := Machine.run Watched.call {} [.start 0, .next 0, .wake, .complete false 10 0]
    (w.driver.next 209).1 = .wait 1 ∧ (w.driver.next 210).1 = .sync := by
  have h := (connection_scheduling [.start 0, .next 0, .wake, .complete false 10 0]
    (by decide +kernel)).2.2.1 (by decide +kernel) (by decide +kernel) (by decide +kernel)
    (by decide +kernel)
  exact ⟨(h 209 (by decide +kernel)).trans (by decide +kernel),
    (h 210 (by decide +kernel)).trans (by decide +kernel)⟩

end Follow

end AheadSync.Lane
