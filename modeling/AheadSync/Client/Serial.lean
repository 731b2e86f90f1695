import AheadSync.Client.Fence
import AheadSync.Client.Isolation
import Mathlib.Logic.Function.Basic

/-! What the generation gives several clients of one file: the commits form one serial order, a
    client that was overtaken commits nothing, and what fails leaves no trace. -/

namespace AheadSync

/-- What the open transaction was told to do. -/
def Writer.steps (w : Writer) : List (Savepoints.Step Store) :=
  match w.transaction with
  | none => []
  | some t => t.steps

/-- A durable change: whose it was, what its transaction did, and what it left. -/
structure Commit (ι : Type) where
  writer : ι
  steps : List (Savepoints.Step Store)
  file : File

/-- Several clients of one file. The newest commit comes first. -/
structure Shared (ι : Type) where
  file : File
  writers : ι → Writer
  log : List (Commit ι) := []

namespace Shared
variable {ι : Type} [DecidableEq ι] (s : Shared ι)

/-- One call of one client. -/
def step (a : ι × FenceCall) : Shared ι :=
  let (_, file, w) := (s.writers a.1).call s.file a.2
  { file
    writers := Function.update s.writers a.1 w
    log := if file = s.file then s.log else ⟨a.1, (s.writers a.1).steps, file⟩ :: s.log }

abbrev run (as : List (ι × FenceCall)) : Shared ι := Machine.run step s as

/-- A `write` that has not returned is only ever followed by its commit: it borrows the client. -/
def Allowed (s : Shared ι) (a : ι × FenceCall) : Prop :=
  (s.writers a.1).writing.isSome → ∃ faults, a.2 = .finish faults

abbrev Along (as : List (ι × FenceCall)) : Prop := Machine.Along step Allowed s as

/-- Clients that were opened on the file and have done nothing since. -/
structure Opened (s : Shared ι) : Prop where
  behind : ∀ i, (s.writers i).generation ≤ s.file.generation
  idle : ∀ i, (s.writers i).session = none ∧ (s.writers i).transaction = none ∧
    (s.writers i).writing = none
  fresh : s.log = []

/-- The commits of one client. -/
def commits (i : ι) : List (Commit ι) := s.log.filter (·.writer = i)

end Shared

/-- Each commit is its transaction run alone on what the one before it left, under the next
    generation. -/
def Serial {ι : Type} (base : File) : List (Commit ι) → File → Prop
  | [], file => file = base
  | c :: log, file => c.file = file ∧ ∃ before, Serial base log before ∧
      file.generation = before.generation + 1 ∧
      file.store = (Savepoints.run before.store c.steps).work

/-- A write can begin, whatever the file holds by then. -/
def Writer.Ready (w : Writer) : Prop :=
  w.session = none ∧ ∀ file, ∃ w', w.begin file {} = .ok w'

/-- What a call that failed leaves of its client. Only a session stays open, and only when it was
    not committed. -/
structure Withdrawn (w : Writer) (c : FenceCall) (w' : Writer) : Prop where
  generation : w'.generation = w.generation
  pulls : w'.pulls = w.pulls
  ready : w.session = none ∨ (∃ faults, c = .commitSession faults) → w'.Ready
  rollback : w'.session.isSome → w'.rollbackSession.1 = .ok () ∧ w'.rollbackSession.2.Ready ∧
    w'.rollbackSession.2.generation = w.generation ∧ w'.rollbackSession.2.pulls = w.pulls
  commit : w'.session.isSome → ∀ file faults, (w'.commitSession file faults).2.2.Ready

/-- A transaction knows what it did, and a newer file has a newer generation than its snapshot. -/
structure Snapshot (file : File) (t : Transaction) : Prop where
  body : t.body = Savepoints.run t.base.store t.steps
  before : t.base.generation ≤ file.generation
  current : t.base.generation = file.generation → t.base = file

/-- The invariant of one client: a transaction is open exactly during a session or a write, and only
    a write that is about to commit has advanced its generation, from the cached one. -/
structure Fenced (file : File) (w : Writer) : Prop where
  behind : w.generation ≤ file.generation
  held : w.transaction = none ↔ w.session = none ∧ w.writing = none
  apart : w.session = none ∨ w.writing = none
  snapshot : ∀ t, w.transaction = some t → Snapshot file t
  working : ∀ t, w.transaction = some t → w.writing = none → t.generation = t.base.generation
  writing : ∀ t, w.transaction = some t → w.writing.isSome →
    w.generation = t.base.generation ∧ t.generation = t.base.generation + 1

/-- What a commit does. -/
structure Commits (file : File) (w : Writer) (file' : File) (w' : Writer) : Prop where
  cached : w.generation = file.generation
  advanced : file'.generation = file.generation + 1
  store : file'.store = (Savepoints.run file.store w.steps).work
  current : w'.generation = file'.generation
  closed : w'.session = none ∧ w'.transaction = none ∧ w'.writing = none

/-- What a call without a commit leaves of its client. -/
structure Kept (file : File) (w : Writer) (c : FenceCall) (r : Except String Unit) (w' : Writer) :
    Prop where
  fenced : Fenced file w'
  generation : w'.generation = w.generation
  pulls : w'.pulls = w.pulls
  ended : (∃ m, r = .error m) → w.session = none ∨ (∃ faults, c = .commitSession faults) →
    w'.session = none ∧ w'.writing = none

section Client
variable {w w' : Writer} {file file' : File} {faults : Faults} {body : Body}

theorem begin_ok (h : w.begin file faults = .ok w') : w.transaction = none ∧
    w' = { w with transaction := some file.transaction } := by
  unfold Writer.begin at h
  split_ifs at h with hfault ht
  · exact ⟨by simpa using ht, (Except.ok.inj h).symm⟩

theorem fence_ok (h : w.fence faults = .ok w') : ∃ t, w.transaction = some t ∧
    t.generation = w.generation ∧
    w' = { w with transaction := some { t with generation := t.generation + 1 } } := by
  unfold Writer.fence at h
  cases ht : w.transaction with
  | none => rw [ht] at h; cases h
  | some t =>
    rw [ht] at h
    simp only at h
    split_ifs at h with hfault hgen
    exact ⟨t, rfl, hgen, (Except.ok.inj h).symm⟩

theorem commit_ok {r : File × Writer} (h : w.commit file faults = .ok r) :
    ∃ t, w.transaction = some t ∧ t.base.generation = file.generation ∧
      r = (⟨t.body.work, t.generation⟩, { w with transaction := none }) := by
  unfold Writer.commit at h
  cases ht : w.transaction with
  | none => rw [ht] at h; cases h
  | some t =>
    rw [ht] at h
    simp only at h
    split_ifs at h with hfault
    exact ⟨t, rfl, by tauto, (Except.ok.inj h).symm⟩

theorem ready_of_closed (hs : w.session = none) (ht : w.transaction = none) : w.Ready :=
  ⟨hs, fun file => ⟨{ w with transaction := some file.transaction }, by simp [Writer.begin, ht]⟩⟩

theorem fenced_closed (hb : w.generation ≤ file.generation)
    (h : w.session = none ∧ w.transaction = none ∧ w.writing = none) : Fenced file w := by
  obtain ⟨hs, ht, hw⟩ := h
  exact ⟨hb, by simp [hs, ht, hw], Or.inl hs, by simp [ht], by simp [ht], by simp [ht]⟩

/-- A client keeps its invariant while others commit. -/
theorem fenced_newer (h : Fenced file w) (hlt : file.generation < file'.generation) :
    Fenced file' w :=
  ⟨h.behind.trans hlt.le, h.held, h.apart,
    fun t ht => ⟨(h.snapshot t ht).body, (h.snapshot t ht).before.trans hlt.le, fun heq =>
      absurd (h.snapshot t ht).before (by omega)⟩,
    h.working, h.writing⟩

theorem fenced_commits (h : Commits file w file' w') : Fenced file' w' :=
  fenced_closed h.current.le h.closed

/-- A step of a session keeps the snapshot. -/
theorem fenced_execute (h : Fenced file w) {s : HostSession} (hs : w.session = some s)
    (x : Savepoints.Step Store) (s' : HostSession) :
    Fenced file { w.execute x with session := some s' } := by
  have hw : w.writing = none := h.apart.resolve_left (by simp [hs])
  have hopen : w.transaction ≠ none := fun hn => by simp [(h.held.mp hn).1] at hs
  obtain ⟨t, ht⟩ := Option.ne_none_iff_exists'.mp hopen
  have hsnap := h.snapshot t ht
  refine ⟨h.behind, by simp [Writer.execute, ht], Or.inr hw, fun t' ht' => ?_, fun t' ht' _ => ?_,
    fun t' _ hw' => ?_⟩
  · obtain rfl : { t with body := t.body.step x, steps := t.steps ++ [x] } = t' := by
      simpa [Writer.execute, ht] using ht'
    exact ⟨by rw [← Savepoints.run_step, ← hsnap.body], hsnap.before, hsnap.current⟩
  · obtain rfl : { t with body := t.body.step x, steps := t.steps ++ [x] } = t' := by
      simpa [Writer.execute, ht] using ht'
    exact h.working t ht hw
  · have hsome : w.writing.isSome := hw'
    rw [hw] at hsome
    cases hsome

theorem snapshot_transaction (file : File) : Snapshot file file.transaction :=
  ⟨rfl, le_rfl, fun _ => rfl⟩

/-- A write leaves its client as it was, or is about to commit from a fresh snapshot. -/
theorem write_spec (faults : Faults) (body : Body) (h : Fenced file w) (hw : w.writing = none) :
    (∃ m, w.write file faults body = (.error m, w)) ∨
      ∃ changed, w.session = none ∧ w.generation = file.generation ∧
        w.write file faults body = (.ok (), { w with
          writing := some changed
          transaction := some
            ⟨file, ⟨(body file.store).2.2, []⟩, [.apply fun st => (body st).2.2],
              file.generation + 1⟩ }) := by
  cases hs : w.session with
  | some s => exact Or.inl ⟨"client transaction active", by simp [Writer.write, hs]⟩
  | none =>
    have ht : w.transaction = none := h.held.mpr ⟨hs, hw⟩
    have hback : ({ w with session := none, transaction := none } : Writer) = w := by
      rw [← hs, ← ht]
    cases hb : w.begin file faults with
    | error m => exact Or.inl ⟨m, by simp [Writer.write, hs, hb]⟩
    | ok w1 =>
      obtain ⟨-, rfl⟩ := begin_ok hb
      cases hr : (body file.store).1 with
      | error m =>
        refine Or.inl ⟨m, ?_⟩
        simp [Writer.write, hs, hb, Writer.perform, File.transaction, hr, Writer.rollback,
          Writer.execute, hback]
      | ok u =>
        by_cases hf : faults.fence
        · refine Or.inl ⟨"sqlite: disk I/O error", ?_⟩
          simp [Writer.write, hs, hb, Writer.perform, File.transaction, hr, Writer.rollback,
            Writer.execute, Writer.fence, hf, hback]
        · by_cases hg : file.generation = w.generation
          · refine Or.inr ⟨(body file.store).2.1, rfl, hg.symm, ?_⟩
            simp [Writer.write, hs, hb, Writer.perform, File.transaction, hr, Writer.execute,
              Writer.fence, hf, hg, Savepoints.Open.step]
          · refine Or.inl ⟨"stale client writer; reopen runtime", ?_⟩
            simp [Writer.write, hs, hb, Writer.perform, File.transaction, hr, Writer.rollback,
              Writer.execute, Writer.fence, hf, hg, hback]

/-- What is fenced and about to commit commits one generation later, or is withdrawn. -/
theorem commit_spec (faults : Faults) {t : Transaction} (ht : w.transaction = some t) (hsnap : Snapshot file t)
    (hgen : w.generation = t.base.generation) (hadv : t.generation = t.base.generation + 1) :
    (∃ m, w.commit file faults = .error m) ∨
      w.generation = file.generation ∧ w.commit file faults =
        .ok (⟨(Savepoints.run file.store t.steps).work, file.generation + 1⟩,
          { w with transaction := none }) := by
  cases hc : w.commit file faults with
  | error m => exact Or.inl ⟨m, rfl⟩
  | ok r =>
    obtain ⟨t', ht', hbase, rfl⟩ := commit_ok hc
    obtain rfl : t = t' := Option.some.inj (ht.symm.trans ht')
    have hfile : t.base = file := hsnap.current hbase
    refine Or.inr ⟨hgen.trans hbase, ?_⟩
    rw [hsnap.body, hadv, hfile]

theorem finish_spec (faults : Faults) (h : Fenced file w) : (w.writing = none ∧ w.finish file faults = (.ok (), file, w)) ∨
    (w.session = none ∧
      ∃ m, w.finish file faults = (.error m, file, { w with transaction := none, writing := none })) ∨
    ∃ file' w', w.finish file faults = (.ok (), file', w') ∧ Commits file w file' w' := by
  cases hw : w.writing with
  | none => exact Or.inl ⟨rfl, by simp [Writer.finish, hw]⟩
  | some changed =>
    refine Or.inr ?_
    have hs : w.session = none := h.apart.resolve_right (by simp [hw])
    have hopen : w.transaction ≠ none := fun hn => by simp [(h.held.mp hn).2] at hw
    obtain ⟨t, ht⟩ := Option.ne_none_iff_exists'.mp hopen
    obtain ⟨hgen, hadv⟩ := h.writing t ht (by simp [hw])
    rcases commit_spec faults ht (h.snapshot t ht) hgen hadv with ⟨m, hc⟩ | ⟨hcur, hc⟩
    · exact Or.inl ⟨hs, m, by simp [Writer.finish, hw, hc, Writer.rollback]⟩
    · have heq : w.finish file faults = (.ok (),
          ⟨(Savepoints.run file.store t.steps).work, file.generation + 1⟩,
          { ({ w with transaction := none } : Writer).notify changed with writing := none }) := by
        simp only [Writer.finish, hw, hc]
      refine Or.inr ⟨_, _, heq, hcur, rfl, ?_, congrArg (· + 1) hcur, hs, rfl, rfl⟩
      simp [Writer.steps, ht]

theorem commitSession_spec (faults : Faults) (h : Fenced file w) :
    (w.session = none ∧ ∃ m, w.commitSession file faults = (.error m, file, w)) ∨
    (∃ m, w.commitSession file faults =
      (.error m, file, { w with transaction := none, session := none })) ∨
    ∃ file' w', w.commitSession file faults = (.ok (), file', w') ∧ Commits file w file' w' := by
  cases hs : w.session with
  | none => exact Or.inl ⟨rfl, "no active transaction", by simp [Writer.commitSession, hs]⟩
  | some s =>
    refine Or.inr ?_
    have hw : w.writing = none := h.apart.resolve_left (by simp [hs])
    have hopen : w.transaction ≠ none := fun hn => by simp [(h.held.mp hn).1] at hs
    obtain ⟨t, ht⟩ := Option.ne_none_iff_exists'.mp hopen
    have hwork := h.working t ht hw
    by_cases hopened : s.savepoints = []
    · cases hf : ({ w with session := none } : Writer).fence faults with
      | error m =>
        exact Or.inl ⟨m, by simp [Writer.commitSession, hs, hopened, hf, Writer.rollback]⟩
      | ok w1 =>
        obtain ⟨t', ht', hgen, rfl⟩ := fence_ok hf
        obtain rfl : t = t' := Option.some.inj (ht.symm.trans ht')
        obtain ⟨t1, ht1⟩ : ∃ t1 : Transaction, t1 = { t with generation := t.generation + 1 } :=
          ⟨_, rfl⟩
        have hsnap : Snapshot file t1 := by
          rw [ht1]
          exact ⟨(h.snapshot t ht).body, (h.snapshot t ht).before, (h.snapshot t ht).current⟩
        have hsteps : t1.steps = w.steps := by simp [ht1, Writer.steps, ht]
        rw [← ht1] at hf
        rcases commit_spec (w := { w with session := none, transaction := some t1 }) faults
          rfl hsnap (by rw [ht1]; exact hgen.symm.trans hwork)
          (by rw [ht1]; exact congrArg (· + 1) hwork) with ⟨m, hc⟩ | ⟨hcur, hc⟩
        · refine Or.inl ⟨m, ?_⟩
          simp only [Writer.commitSession, hs, hopened, ne_eq, not_true, if_false, hf, hc,
            Writer.rollback]
        · have heq : w.commitSession file faults = (.ok (),
              ⟨(Savepoints.run file.store t1.steps).work, file.generation + 1⟩,
              ({ w with session := none, transaction := none } : Writer).notify s.changed) := by
            simp only [Writer.commitSession, hs, hopened, ne_eq, not_true, if_false, hf, hc]
          exact Or.inr ⟨_, _, heq, hcur, rfl, by rw [hsteps], congrArg (· + 1) hcur, rfl, rfl, hw⟩
    · refine Or.inl ⟨"unclosed savepoint", ?_⟩
      simp [Writer.commitSession, hs, hopened, Writer.rollback]

theorem kept_same (h : Fenced file w) {c : FenceCall} {r : Except String Unit}
    (hw : w.writing = none) (hs : (∃ faults, c = .commitSession faults) → w.session = none) :
    Kept file w c r w :=
  ⟨h, rfl, rfl, fun _ hor => ⟨hor.elim id hs, hw⟩⟩

theorem kept_closed {c : FenceCall} {r : Except String Unit} (hb : w.generation ≤ file.generation)
    (hg : w'.generation = w.generation) (hp : w'.pulls = w.pulls)
    (h : w'.session = none ∧ w'.transaction = none ∧ w'.writing = none) : Kept file w c r w' :=
  ⟨fenced_closed (hg.trans_le hb) h, hg, hp, fun _ _ => ⟨h.1, h.2.2⟩⟩

/-- A step inside the session. -/
theorem kept_execute (h : Fenced file w) {s : HostSession} (hs : w.session = some s)
    (x : Savepoints.Step Store) (s' : HostSession) {c : FenceCall} {r : Except String Unit}
    (hc : ∀ faults, c ≠ .commitSession faults) :
    Kept file w c r { w.execute x with session := some s' } :=
  ⟨fenced_execute h hs x s', rfl, rfl, fun _ hor => hor.elim (fun hn => by simp [hs] at hn)
    fun ⟨faults, heq⟩ => absurd heq (hc faults)⟩

theorem step_spec (h : Fenced file w) (hw : w.writing = none) :
    Kept file w (.step body) (w.step body).1 (w.step body).2 := by
  cases hs : w.session with
  | none =>
    simp only [Writer.step, hs]
    exact kept_same h hw (by simp)
  | some s =>
    have hopen : w.transaction ≠ none := fun hn => by simp [(h.held.mp hn).1] at hs
    obtain ⟨t, ht⟩ := Option.ne_none_iff_exists'.mp hopen
    simp only [Writer.step, hs, Writer.perform, ht]
    exact kept_execute h hs _ _ (by simp)

theorem endSavepoint_spec (h : Fenced file w) (hw : w.writing = none)
    (how : String → Savepoints.Step Store) {c : FenceCall} (hc : ∀ faults, c ≠ .commitSession faults) :
    Kept file w c (w.endSavepoint how).1 (w.endSavepoint how).2 := by
  have hsame : ∀ r, Kept file w c r w := fun r =>
    kept_same h hw fun ⟨faults, heq⟩ => absurd heq (hc faults)
  cases hs : w.session with
  | none =>
    simp only [Writer.endSavepoint, hs]
    exact hsame _
  | some s =>
    obtain ⟨changed, savepoints, counter⟩ := s
    cases savepoints with
    | nil =>
      simp only [Writer.endSavepoint, hs]
      exact hsame _
    | cons name savepoints =>
      simp only [Writer.endSavepoint, hs]
      exact kept_execute h hs _ _ hc

/-- What one call of one client does: it commits, from the cached generation, or the file is as it
    was. -/
theorem call_spec (h : Fenced file w) (c : FenceCall)
    (hallow : w.writing.isSome → ∃ faults, c = .finish faults) :
    ((w.call file c).2.1 = file ∧ Kept file w c (w.call file c).1 (w.call file c).2.2) ∨
      (w.call file c).1 = .ok () ∧ Commits file w (w.call file c).2.1 (w.call file c).2.2 := by
  have hidle : (∀ faults, c ≠ .finish faults) → w.writing = none := fun hne =>
    Option.not_isSome_iff_eq_none.mp fun hsome =>
      (hallow hsome).elim fun faults heq => hne faults heq
  cases c with
  | write faults body =>
    have hw := hidle (by simp)
    rcases write_spec faults body h hw with ⟨m, heq⟩ | ⟨changed, hs, hg, heq⟩
    · simp only [Writer.call, heq]
      exact Or.inl ⟨trivial, kept_same h hw (by simp)⟩
    · simp only [Writer.call, heq]
      refine Or.inl ⟨trivial, ⟨⟨h.behind, by simp, Or.inl hs, ?_, by simp, ?_⟩, rfl, rfl, by simp⟩⟩
      · rintro t ht
        obtain rfl := Option.some.inj ht
        exact ⟨rfl, le_rfl, fun _ => rfl⟩
      · rintro t ht -
        obtain rfl := Option.some.inj ht
        exact ⟨hg, rfl⟩
  | finish faults =>
    rcases finish_spec faults h with ⟨hw, heq⟩ | ⟨hs, m, heq⟩ | ⟨file', w', heq, hc⟩
    · simp only [Writer.call, heq]
      exact Or.inl ⟨trivial, kept_same h hw (by simp)⟩
    · simp only [Writer.call, heq]
      exact Or.inl ⟨trivial, kept_closed h.behind rfl rfl ⟨hs, rfl, rfl⟩⟩
    · simp only [Writer.call, heq]
      exact Or.inr ⟨trivial, hc⟩
  | beginSession faults =>
    have hw := hidle (by simp)
    simp only [Writer.call]
    refine Or.inl ⟨trivial, ?_⟩
    cases hs : w.session with
    | some s =>
      simp only [Writer.beginSession, hs]
      exact kept_same h hw (by simp)
    | none =>
      cases hb : w.begin file faults with
      | error m =>
        simp only [Writer.beginSession, hs, hb]
        exact kept_same h hw (by simp)
      | ok w1 =>
        obtain ⟨-, rfl⟩ := begin_ok hb
        simp only [Writer.beginSession, hs, hb]
        refine ⟨⟨h.behind, by simp, Or.inr hw, ?_, ?_, by simp [hw]⟩, rfl, rfl, by simp⟩
        · rintro t ht
          obtain rfl := Option.some.inj ht
          exact snapshot_transaction file
        · rintro t ht -
          obtain rfl := Option.some.inj ht
          rfl
  | step body => exact Or.inl ⟨rfl, step_spec h (hidle (by simp))⟩
  | savepoint =>
    have hw := hidle (by simp)
    simp only [Writer.call, Writer.savepoint]
    refine Or.inl ⟨trivial, ?_⟩
    cases hs : w.session with
    | none => exact kept_same h hw (by simp)
    | some s => exact kept_execute h hs _ _ (by simp)
  | release => exact Or.inl ⟨rfl, endSavepoint_spec h (hidle (by simp)) _ (by simp)⟩
  | rollbackSavepoint => exact Or.inl ⟨rfl, endSavepoint_spec h (hidle (by simp)) _ (by simp)⟩
  | rollbackSession =>
    have hw := hidle (by simp)
    simp only [Writer.call, Writer.rollbackSession]
    refine Or.inl ⟨trivial, ?_⟩
    cases hs : w.session with
    | none => exact kept_same h hw (by simp)
    | some s => exact kept_closed h.behind rfl rfl ⟨rfl, rfl, hw⟩
  | commitSession faults =>
    have hw := hidle (by simp)
    rcases commitSession_spec faults h with ⟨hs, m, heq⟩ | ⟨m, heq⟩ | ⟨file', w', heq, hc⟩
    · simp only [Writer.call, heq]
      exact Or.inl ⟨trivial, kept_same h hw fun _ => hs⟩
    · simp only [Writer.call, heq]
      exact Or.inl ⟨trivial, kept_closed h.behind rfl rfl ⟨rfl, rfl, hw⟩⟩
    · simp only [Writer.call, heq]
      exact Or.inr ⟨trivial, hc⟩
  | read query => exact Or.inl ⟨rfl, kept_same h (hidle (by simp)) (by simp)⟩

/-- Whatever a commit of a session answers, nothing of it stays open. -/
theorem commitSession_ready {s : HostSession} (hs : w.session = some s) :
    (w.commitSession file faults).2.2.Ready := by
  simp only [Writer.commitSession, hs]
  split_ifs with hsave
  · exact ready_of_closed rfl rfl
  · cases hf : ({ w with session := none } : Writer).fence faults with
    | error m => exact ready_of_closed rfl rfl
    | ok w1 =>
      obtain ⟨t, -, -, rfl⟩ := fence_ok hf
      simp only
      split
      · exact ready_of_closed rfl rfl
      · rename_i file' w2 hc
        obtain ⟨t', -, -, heq⟩ := commit_ok hc
        obtain ⟨-, rfl⟩ := Prod.mk.inj heq
        exact ready_of_closed rfl rfl

end Client

section Run
variable {ι : Type} [DecidableEq ι] {s : Shared ι}

/-- The invariant of the whole system, from the file it started on. -/
structure Coherent (base : File) (s : Shared ι) : Prop where
  serial : Serial base s.log s.file
  fenced : ∀ i, Fenced s.file (s.writers i)

omit [DecidableEq ι] in
theorem coherent_opened (h : s.Opened) : Coherent s.file s :=
  ⟨h.fresh ▸ rfl, fun i => fenced_closed (h.behind i) (h.idle i)⟩

/-- A step appends at most one commit, of a client that was current. -/
theorem step_log {base : File} (h : Coherent base s) {a : ι × FenceCall} (ha : s.Allowed a) :
    ((s.step a).file = s.file ∧ (s.step a).log = s.log ∧
      Kept s.file (s.writers a.1) a.2 ((s.writers a.1).call s.file a.2).1 ((s.step a).writers a.1)) ∨
    ((s.writers a.1).call s.file a.2).1 = .ok () ∧
      (s.step a).log = ⟨a.1, (s.writers a.1).steps, (s.step a).file⟩ :: s.log ∧
      Commits s.file (s.writers a.1) (s.step a).file ((s.step a).writers a.1) := by
  have hwriter : (s.step a).writers a.1 = ((s.writers a.1).call s.file a.2).2.2 :=
    Function.update_self ..
  rcases call_spec (h.fenced a.1) a.2 ha with ⟨hfile, hk⟩ | ⟨hok, hc⟩
  · exact Or.inl ⟨hfile, if_pos hfile, hwriter ▸ hk⟩
  · refine Or.inr ⟨hok, if_neg fun heq => ?_, hwriter ▸ hc⟩
    have hadv := hc.advanced.symm.trans (congrArg File.generation heq)
    omega

theorem coherent_step {base : File} (h : Coherent base s) {a : ι × FenceCall} (ha : s.Allowed a) :
    Coherent base (s.step a) := by
  have hother : ∀ i, i ≠ a.1 → (s.step a).writers i = s.writers i := fun i hi =>
    Function.update_of_ne hi ..
  rcases step_log h ha with ⟨hfile, hlog, hk⟩ | ⟨-, hlog, hc⟩
  · refine ⟨by rw [hlog, hfile]; exact h.serial, fun i => ?_⟩
    rw [hfile]
    by_cases hi : i = a.1
    · exact hi ▸ hk.fenced
    · exact hother i hi ▸ h.fenced i
  · refine ⟨hlog ▸ ⟨rfl, s.file, h.serial, hc.advanced, hc.store⟩, fun i => ?_⟩
    by_cases hi : i = a.1
    · exact hi ▸ fenced_commits hc
    · exact hother i hi ▸ fenced_newer (h.fenced i) (hc.advanced ▸ Nat.lt_succ_self _)

theorem coherent_run {base : File} (h : Coherent base s) {as : List (ι × FenceCall)}
    (ha : s.Along as) : Coherent base (s.run as) :=
  Machine.run_keeps (P := Coherent base) (fun _ _ hs ha => coherent_step hs ha) h ha

/-- A client that was overtaken stays behind and commits nothing more. -/
theorem overtaken_run {base : File} {i : ι} : ∀ {bs : List (ι × FenceCall)} {s : Shared ι},
    Coherent base s → (s.writers i).generation ≠ s.file.generation → s.Along bs →
    (s.run bs).commits i = s.commits i
  | [], _, _, _, _ => rfl
  | b :: bs, s, h, hne, hb => by
    have hrun : (s.run (b :: bs)).commits i = ((s.step b).run bs).commits i := rfl
    have hlt : (s.writers i).generation < s.file.generation :=
      lt_of_le_of_ne (h.fenced i).behind hne
    have hsame : i ≠ b.1 → (s.step b).writers i = s.writers i := fun hi =>
      Function.update_of_ne hi ..
    have key : ((s.step b).writers i).generation ≠ (s.step b).file.generation ∧
        (s.step b).commits i = s.commits i := by
      rcases step_log h hb.1 with ⟨hfile, hlog, hk⟩ | ⟨-, hlog, hc⟩
      · refine ⟨?_, by rw [Shared.commits, hlog]; rfl⟩
        rw [hfile]
        by_cases hi : i = b.1
        · exact hi ▸ hk.generation.trans_ne (hi ▸ hne)
        · exact hsame hi ▸ hne
      · have hi : i ≠ b.1 := fun hi => hne (hi ▸ hc.cached)
        refine ⟨?_, ?_⟩
        · rw [hsame hi, hc.advanced]
          omega
        · rw [Shared.commits, hlog, List.filter_cons_of_neg (by simpa using Ne.symm hi)]
          rfl
    rw [hrun, overtaken_run (coherent_step h hb.1) key.1 hb.2, key.2]

theorem kept_withdrawn {file : File} {w w' : Writer} {c : FenceCall} {m : String}
    (h : Kept file w c (.error m) w') : Withdrawn w c w' := by
  refine ⟨h.generation, h.pulls, fun hor => ?_, fun hs => ?_, fun hs file' faults => ?_⟩
  · obtain ⟨hs, hw⟩ := h.ended ⟨m, rfl⟩ hor
    exact ready_of_closed hs (h.fenced.held.mpr ⟨hs, hw⟩)
  · obtain ⟨s, hs⟩ := Option.isSome_iff_exists.mp hs
    simp only [Writer.rollbackSession, hs]
    exact ⟨trivial, ready_of_closed rfl rfl, h.generation, h.pulls⟩
  · obtain ⟨s, hs⟩ := Option.isSome_iff_exists.mp hs
    exact commitSession_ready hs

/-- Whatever several clients of one file do in turns, their commits form one serial order, each one
    generation after the one before. A client that was overtaken commits nothing from then on. What
    fails leaves the file, the cached generation and the ledger as they were, and nothing open but
    a session that the host has not ended: ending it, with any answer, lets a write begin. -/
theorem generation_fence (hopened : s.Opened) {as : List (ι × FenceCall)} (has : s.Along as) :
    Serial s.file (s.run as).log (s.run as).file ∧ ∀ i,
      (((s.run as).writers i).generation ≠ (s.run as).file.generation →
        ∀ bs, (s.run as).Along bs → ((s.run as).run bs).commits i = (s.run as).commits i) ∧
      ∀ c, (s.run as).Allowed (i, c) → ∀ m,
        (((s.run as).writers i).call (s.run as).file c).1 = .error m →
        ((s.run as).step (i, c)).file = (s.run as).file ∧
        ((s.run as).step (i, c)).log = (s.run as).log ∧
        Withdrawn ((s.run as).writers i) c (((s.run as).step (i, c)).writers i) := by
  have h := coherent_run (coherent_opened hopened) has
  refine ⟨h.serial, fun i => ⟨fun hne bs hbs => overtaken_run h hne hbs, fun c hc m herr => ?_⟩⟩
  rcases step_log h hc with ⟨hfile, hlog, hk⟩ | ⟨hok, -⟩
  · exact ⟨hfile, hlog, kept_withdrawn (herr ▸ hk)⟩
  · rw [herr] at hok
    cases hok

end Run

/-- The transaction of a single client, as a body. -/
def Body.of (r : Store → Except String (Unit × Store)) : Body := fun st =>
  match r st with
  | .ok (_, st) => (.ok (), [], st)
  | .error m => (.error m, [], st)

section Sample
open Sample

/-- Two clients of one file. -/
def Sample.shared : Shared Bool :=
  ⟨⟨(client loose []).store, 0⟩, fun _ => { generation := 0 }, []⟩

/-- A body that creates an item, one that does nothing, and one that fails. -/
def Sample.creates : Body := Body.of fun st => (loose.enqueue st
  { name := "put", operations := [create "a" "x"] }).map fun r => ((), r.2)

def Sample.passes : Body := Body.of fun st => .ok ((), st)

def Sample.fails : Body := Body.of fun _ => .error "invalid"

theorem opened_shared : shared.Opened :=
  ⟨fun _ => le_rfl, fun _ => ⟨rfl, rfl, rfl⟩, rfl⟩

/-- One client writes, the other has a session open meanwhile and is overtaken. -/
def Sample.turns : List (Bool × FenceCall) :=
  [(false, .write {} creates), (true, .beginSession {}), (false, .finish {}), (true, .step creates),
    (true, .commitSession {})]

theorem along_turns : shared.Along turns :=
  ⟨fun h => absurd h (by decide +kernel), fun h => absurd h (by decide +kernel), fun _ => ⟨{}, rfl⟩,
    fun h => absurd h (by decide +kernel), fun h => absurd h (by decide +kernel), trivial⟩

/-- The overtaken client commits nothing more, and its refused write leaves nothing open. -/
theorem generation_fence_turns :
    Serial shared.file (shared.run turns).log (shared.run turns).file ∧
      ((shared.run turns).run [(true, .write {} passes)]).commits true =
        (shared.run turns).commits true ∧
      Withdrawn ((shared.run turns).writers true) (.write {} passes)
        (((shared.run turns).step (true, .write {} passes)).writers true) := by
  obtain ⟨hserial, h⟩ := generation_fence opened_shared along_turns
  have hallowed : (shared.run turns).Allowed (true, .write {} passes) := fun h =>
    absurd h (by decide +kernel)
  exact ⟨hserial, (h true).1 (by decide +kernel) _ ⟨hallowed, trivial⟩,
    ((h true).2 _ hallowed "stale client writer; reopen runtime" (by decide +kernel)).2.2⟩

/-- A failing body leaves its session open, and a session refuses every write. -/
theorem not_generation_fence : ¬∀ (s : Shared Bool) (as : List (Bool × FenceCall)), s.Opened →
    s.Along as → ∀ i c m, (s.run as).Allowed (i, c) →
    (((s.run as).writers i).call (s.run as).file c).1 = .error m →
    (((s.run as).step (i, c)).writers i).Ready := by
  intro h
  have hready := h shared [(false, .beginSession {})] opened_shared
    ⟨fun h => absurd h (by decide +kernel), trivial⟩ false (.step fails) "invalid"
    (fun h => absurd h (by decide +kernel)) rfl
  have hopen : ((((shared.run [(false, .beginSession {})]).step (false, .step fails)).writers
      false).session).isSome = true := by decide +kernel
  rw [hready.1] at hopen
  cases hopen

end Sample

end AheadSync
