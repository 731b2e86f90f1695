import AheadSync.Client.Answers
import AheadSync.Lib.Savepoints

/-! Subscription changes under nested savepoints (`client/src/lib.rs`). A rollback to a savepoint takes
    back the subscription rows, but not the marks the commit moves the epochs by: an epoch follows
    the changes that were committed exactly as long as each marked channel has one. -/

namespace AheadSync
open Savepoints

/-- What `set_channel` does to the subscription rows. -/
def Store.putChannel (change : String × Bool) (st : Store) : Store :=
  (Store.setChannel (st, []) change).1

/-- A transaction or session that has not ended: its content, under the savepoints its host has open,
    and the marks it collected. -/
structure ChannelTransaction where
  db : Nested Store
  changed : List String := []

/-- One call of the host. No savepoint covers the marks. -/
def ChannelTransaction.step (t : ChannelTransaction) :
    HostStep (String × Bool) → ChannelTransaction
  | .act change => ⟨t.db.step Store.putChannel (.act change),
      (Store.setChannel (t.db.db.work, t.changed) change).2⟩
  | s => { t with db := t.db.step Store.putChannel s }

def ChannelTransaction.run (base : Store) (steps : List (HostStep (String × Bool))) :
    ChannelTransaction :=
  steps.foldl step ⟨⟨⟨base, []⟩, []⟩, []⟩

/-- A transaction or session that the host ends after these calls. With a savepoint still open its
    commit is refused. -/
def Client.channels (c : Client) (steps : List (HostStep (String × Bool))) (commits : Bool) :
    Client :=
  let t := ChannelTransaction.run c.store steps
  if commits ∧ t.db.names = [] then ⟨t.db.db.work, c.pulls.absorb (sortedSet t.changed)⟩ else c

/-- A `set_channel` that subscribes a channel that is not, or unsubscribes one that is. -/
def Flips (st : Store) (change : String × Bool) : Prop := (st.cursor change.1).isSome ≠ change.2

/-- A call of the host changed the subscription of a channel, whether or not it was rolled back. -/
def Attempted (base : Store) (steps : List (HostStep (String × Bool))) (channel : String) : Prop :=
  ∃ before subscribed after, steps = before ++ .act (channel, subscribed) :: after ∧
    Flips (Nested.run Store.putChannel base before).db.work (channel, subscribed)

/-- One of these calls changed the subscription of a channel. -/
def Logged (base : Store) (log : List (String × Bool)) (channel : String) : Prop :=
  ∃ before subscribed after, log = before ++ (channel, subscribed) :: after ∧
    Flips (before.foldl (fun st change => st.putChannel change) base) (channel, subscribed)

/-- A change of a channel's subscription was not rolled back. -/
def Survives (base : Store) (steps : List (HostStep (String × Bool))) (channel : String) : Prop :=
  Logged base (Nested.kept steps) channel

/-- The epochs and the generation follow the subscription changes that were committed: they move only
    for a change that was not rolled back, and move for each of them and for each row that is not as
    it was; where nothing was committed nothing moves. -/
def EpochsFollow (c : Client) (steps : List (HostStep (String × Bool))) (commits : Bool) : Prop :=
  let c' := c.channels steps commits
  if commits ∧ (ChannelTransaction.run c.store steps).db.names = [] then
    (∀ channel, c'.pulls.epoch channel ≠ c.pulls.epoch channel → Survives c.store steps channel) ∧
    (c'.pulls.generation ≠ c.pulls.generation → ∃ channel, Survives c.store steps channel) ∧
    ∀ channel, Survives c.store steps channel ∨ c'.store.cursor channel ≠ c.store.cursor channel →
      c.pulls.epoch channel < c'.pulls.epoch channel
  else c'.pulls = c.pulls

section Marks
variable {st base : Store} {marks : List String} {change : String × Bool} {channel : String}
  {steps : List (HostStep (String × Bool))}

/-- A `set_channel` marks its channel when it changes the subscription. -/
theorem mem_setChannel : channel ∈ (Store.setChannel (st, marks) change).2 ↔
    channel ∈ marks ∨ channel = change.1 ∧ Flips st change := by
  obtain ⟨c, subscribed⟩ := change
  cases subscribed with
  | false => cases h : st.cursor c <;> simp [Store.setChannel, Flips, h, or_comm]
  | true => cases h : st.cursor c <;> simp [Store.setChannel, Flips, h, or_comm]

/-- A `set_channel` leaves the rows of other channels, and its own when it changes nothing. -/
theorem cursor_putChannel (h : ¬(channel = change.1 ∧ Flips st change)) :
    (st.putChannel change).cursor channel = st.cursor channel := by
  obtain ⟨c, subscribed⟩ := change
  by_cases hc : channel = c
  · -- a call that changes nothing finds the subscription as it asks for it
    subst hc
    have hsame : (st.cursor channel).isSome = subscribed := by
      by_contra hne
      exact h ⟨rfl, hne⟩
    subst hsame
    cases hl : st.cursor channel with
    | none =>
      show (st.deleteSubscription channel).cursor channel = none
      rw [Store.cursor, Store.deleteSubscription, SortedMap.lookup_erase, if_pos rfl]
    | some n => simp [Store.putChannel, Store.setChannel, hl]
  · cases subscribed with
    | false =>
      show (st.deleteSubscription c).cursor channel = _
      rw [Store.cursor, Store.deleteSubscription, SortedMap.lookup_erase, if_neg hc]
      rfl
    | true =>
      simp only [Store.putChannel, Store.setChannel, if_true]
      split
      · rw [Store.cursor, Store.setCursor, SortedMap.lookup_insert, if_neg hc]
        rfl
      · rfl

theorem run_concat (s : HostStep (String × Bool)) : ChannelTransaction.run base (steps ++ [s]) =
    (ChannelTransaction.run base steps).step s := by
  rw [ChannelTransaction.run, List.foldl_append, List.foldl_cons, List.foldl_nil,
    ← ChannelTransaction.run]

/-- The rows go through the savepoints; the marks do not matter to them. -/
theorem run_db : (ChannelTransaction.run base steps).db = Nested.run Store.putChannel base steps := by
  induction steps using List.reverseRecOn with
  | nil => rfl
  | append_singleton steps s ih =>
    rw [run_concat, Nested.run_concat, ← ih]
    cases s <;> rfl

theorem attempted_concat {s : HostStep (String × Bool)} : Attempted base (steps ++ [s]) channel ↔
    Attempted base steps channel ∨ ∃ subscribed, s = .act (channel, subscribed) ∧
      Flips (Nested.run Store.putChannel base steps).db.work (channel, subscribed) := by
  constructor
  · rintro ⟨before, subscribed, after, heq, hch⟩
    rcases List.eq_nil_or_concat after with rfl | ⟨after', s', rfl⟩
    · obtain ⟨rfl, hs⟩ := List.append_inj' heq rfl
      exact Or.inr ⟨subscribed, (List.cons.inj hs).1, hch⟩
    · rw [List.concat_eq_append, ← List.cons_append, ← List.append_assoc] at heq
      exact Or.inl ⟨before, subscribed, after', (List.append_inj' heq rfl).1, hch⟩
  · rintro (⟨before, subscribed, after, rfl, hch⟩ | ⟨subscribed, rfl, hch⟩)
    · exact ⟨before, subscribed, after ++ [s], by simp, hch⟩
    · exact ⟨steps, subscribed, [], rfl, hch⟩

/-- The marks are those of every change, rolled back or not. -/
theorem mem_changed : channel ∈ (ChannelTransaction.run base steps).changed ↔
    Attempted base steps channel := by
  induction steps using List.reverseRecOn with
  | nil => exact iff_of_false nofun fun ⟨_, _, _, h, _⟩ => by simp at h
  | append_singleton steps s ih =>
    rw [run_concat, attempted_concat, ← ih, ← run_db]
    cases s with
    | act change =>
      obtain ⟨c, subscribed⟩ := change
      simp only [ChannelTransaction.step, mem_setChannel, HostStep.act.injEq, Prod.mk.injEq]
      grind
    | savepoint name => simp [ChannelTransaction.step]
    | release => simp [ChannelTransaction.step]
    | rollback => simp [ChannelTransaction.step]

theorem logged_concat {log : List (String × Bool)} : Logged base (log ++ [change]) channel →
    Logged base log channel ∨ channel = change.1 ∧
      Flips (log.foldl (fun st change => st.putChannel change) base) change := by
  rintro ⟨before, subscribed, after, heq, hch⟩
  rcases List.eq_nil_or_concat after with rfl | ⟨after', s', rfl⟩
  · obtain ⟨rfl, hs⟩ := List.append_inj' heq rfl
    obtain rfl := (List.cons.inj hs).1
    exact Or.inr ⟨rfl, hch⟩
  · rw [List.concat_eq_append, ← List.cons_append, ← List.append_assoc] at heq
    exact Or.inl ⟨before, subscribed, after', (List.append_inj' heq rfl).1, hch⟩

/-- A row that is not as it was has a change. -/
theorem logged_of_cursor {log : List (String × Bool)}
    (h : (log.foldl (fun st change => st.putChannel change) base).cursor channel ≠
      base.cursor channel) : Logged base log channel := by
  induction log using List.reverseRecOn with
  | nil => exact absurd rfl h
  | append_singleton log change ih =>
    rw [List.foldl_append, List.foldl_cons, List.foldl_nil] at h
    by_cases hch : channel = change.1 ∧
        Flips (log.foldl (fun st change => st.putChannel change) base) change
    · exact ⟨log, change.2, [], by rw [hch.1], hch.1 ▸ hch.2⟩
    · rw [cursor_putChannel hch] at h
      obtain ⟨before, subscribed, after, rfl, hc⟩ := ih h
      exact ⟨before, subscribed, after ++ [change], by simp, hc⟩

/-- A change that was not rolled back was made. -/
theorem attempted_of_survives (h : Survives base steps channel) : Attempted base steps channel := by
  have hnone : ∀ channel, Logged base [] channel → Attempted base [] channel :=
    fun channel ⟨_, _, _, h, _⟩ => by simp at h
  refine (Nested.run_induction (fun a log => log ++ [a])
    (fun steps log => ∀ channel, Logged base log channel → Attempted base steps channel) hnone
    (fun steps s log hlog channel hl => attempted_concat.mpr (Or.inl (hlog channel hl)))
    (fun steps change hlog channel hl => ?_) steps).1 channel h
  refine attempted_concat.mpr ((logged_concat hl).imp (hlog channel) fun ⟨hc, hch⟩ => ?_)
  refine ⟨change.2, by rw [hc], ?_⟩
  rw [Nested.run_kept, hc]
  exact hch

end Marks

section Ledger
variable {marks : List String} {l : PullLedger}

theorem absorb_generation : ∀ (marks : List String) (l : PullLedger),
    (l.absorb marks).generation = l.generation + marks.length
  | [], _ => rfl
  | mark :: marks, l => by
    have h := absorb_generation marks { l with
      epochs := l.epochs.insert mark (l.epoch mark + 1), generation := l.generation + 1 }
    rw [List.length_cons, ← Nat.add_assoc, Nat.add_right_comm]
    exact h

end Ledger

/-- The epochs follow the committed changes exactly when no change was rolled back whose channel has
    none that was committed. -/
theorem epochs_follow_iff (c : Client) (steps : List (HostStep (String × Bool))) (commits : Bool) :
    EpochsFollow c steps commits ↔
      (commits ∧ (ChannelTransaction.run c.store steps).db.names = [] →
        ∀ channel, Attempted c.store steps channel → Survives c.store steps channel) := by
  unfold EpochsFollow Client.channels
  by_cases hcommit : commits ∧ (ChannelTransaction.run c.store steps).db.names = []
  · simp only [hcommit, and_self, if_true, true_imp_iff]
    have hepoch := absorb_epoch (sortedSet (ChannelTransaction.run c.store steps).changed) c.pulls
    simp only [mem_sortedSet, mem_changed] at hepoch
    constructor
    · rintro ⟨hmoved, -, -⟩ channel hattempt
      exact hmoved channel (ne_of_gt ((hepoch channel).2.1 hattempt))
    · intro hcond
      refine ⟨fun channel hne => ?_, fun hne => ?_, fun channel hor => ?_⟩
      · by_contra hs
        exact hne ((hepoch channel).2.2 fun hattempt => hs (hcond channel hattempt))
      · rw [absorb_generation] at hne
        obtain ⟨channel, hmem⟩ := List.exists_mem_of_ne_nil
          (sortedSet (ChannelTransaction.run c.store steps).changed) fun h => hne (by rw [h]; rfl)
        exact ⟨channel, hcond channel (mem_changed.mp (mem_sortedSet.mp hmem))⟩
      · have hs : Survives c.store steps channel := hor.elim id fun hne => by
          rw [run_db, Nested.run_kept] at hne
          exact logged_of_cursor hne
        exact (hepoch channel).2.1 (attempted_of_survives hs)
  · simp [hcommit]

/-- A subscription that is rolled back with its savepoint moves the epoch of its channel. -/
theorem not_epochs_follow : ¬∀ c steps commits, EpochsFollow c steps commits := by
  intro h
  have hcond := (epochs_follow_iff ⟨{ clientId := "laptop" }, {}⟩
    [.savepoint "session_1", .act ("c", true), .rollback] true).mp (h _ _ _) ⟨rfl, by decide⟩ "c"
    ⟨[.savepoint "session_1"], true, [.rollback], rfl, by unfold Flips; decide⟩
  obtain ⟨before, subscribed, after, heq, -⟩ := hcond
  have hkept : Nested.kept [.savepoint "session_1", .act ("c", true), .rollback] =
    ([] : List (String × Bool)) := by decide
  rw [hkept] at heq
  simp at heq

end AheadSync
