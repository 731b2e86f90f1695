import AheadSync.Client.Opening

/-! Rebuilding in place (`Client::rebuild`): the client gives up where it was opened from before the path
    is opened again, and what cannot be read on the way is forgiven. -/

namespace AheadSync
namespace Files
open Sql Stepwise Run

/-- A client whose file, laid out by this runtime, holds a schema that the one asked for does not fit. -/
structure Waiting (stored target : Engine) (st : Store) (r : Running) : Prop where
  pending : r.live.schemaState.pending.isSome
  origin : r.live.origin = some target
  layout : (r.dir.db r.live.file).layout = .current
  framework : (r.dir.db r.live.file).runFramework = .ok (r.dir.db r.live.file)
  descriptor : (r.dir.db r.live.file).descriptor = some stored
  store : (r.dir.db r.live.file).store = some st
  incompatible : ∃ reason, stored.schema.compatibility target.schema = .incompatible reason

namespace Site
variable (s : Site) (listens : ℕ → Bool)

/-- The same path with nothing failing. -/
def calm (clientId : String) : Site := { s with clientId, out := fun _ => .done }

/-- A client as it was, but for where it was opened from, and its file as it was. -/
def Kept (r r' : Running) : Prop :=
  r'.live = { r.live with origin := r'.live.origin } ∧
    r'.dir.db r.live.file = r.dir.db r.live.file

/-- Once no transaction is open, a rebuild in which nothing fails succeeds, whatever the file holds by
    then, and reports it. -/
def Recovers (stored : Engine) (r : Running) : Prop :=
  ∀ (st : Store) (clientId : String) (discardPending : Bool), discardPending = true ∨ st.queue = [] →
    ∃ report r', (s.calm clientId).rebuild listens discardPending
        ⟨r.dir.put r.live.file { r.dir.db r.live.file with store := some st },
          { r.live with session := false }⟩ = (.ok report, r') ∧
      report.oldFile = r.live.file ∧ report.leftPending = st.queue.length ∧
      report.leftDirect = LeftBehind.countDirect stored s.row s.json st

/-- The client serves a new file, with the tables of the schema asked for and the channels of the file it
    served, each at cursor 0. -/
structure Switched (target : Engine) (st : Store) (r : Running) (report : RebuildReport) (r' : Running) :
    Prop where
  oldFile : report.oldFile = r.live.file
  file : r'.live.file = report.newFile
  engine : r'.live.engine = target
  descriptor : (r'.dir.db report.newFile).descriptor = some target
  tables : ∀ m ∈ target.schema.models, Ddl.Covers (r'.dir.db report.newFile).catalog m
  store : (r'.dir.db report.newFile).store =
    some { clientId := s.clientId, subscriptions := st.subscriptions.mapValues fun _ _ => 0 }

/-- A rebuild fails and leaves everything as it was, to be tried again, or switches. -/
def AllOrNothing (stored target : Engine) (st : Store) (r : Running) :
    Except Stepwise.Stop RebuildReport × Running → Prop
  | (.error _, r') => Kept r r' ∧ s.Recovers listens stored r'
  | (.ok report, r') => s.Switched target st r report r'

/-- The rebuild is refused before the client lets go of where it was opened from. -/
def Refused (st : Store) (discardPending : Bool) (r : Running) : Prop :=
  r.live.session = true ∨ s.out .countPending ≠ .done ∨ st.queue ≠ [] ∧ discardPending = false

/-- The steps of switching to a new file. -/
def switchSteps (stored target : Engine) (channels : List String) : List FileStep :=
  [.openFile, .checkLayout, .framework, .readDescriptor, .countMutations] ++
    stored.schema.models.map (fun m => .countDirect m.name) ++
    (if channels = [] then [] else [.openOld, .readChannels]) ++ [.openNew] ++
    (openSteps target true).map .opening ++
    (if channels = [] then [] else cursorSteps channels) ++ [.writeSidecar, .renameSidecar]

/-- The file the client serves is opened again, every step of the switch succeeds, a number is left, and the
    new name is that of no finished database, in which the tables can be laid out. -/
structure GoesThrough (stored target : Engine) (st : Store) (r : Running) : Prop where
  opens : s.opens r.dir = r.live.file
  steps : ∀ step ∈ switchSteps stored target st.subscriptions.keys, s.out step = .done
  numbered : s.highest (s.cleared r.live.file r.dir) + 1 < 2 ^ 64
  vacant : ((s.cleared r.live.file r.dir).db (s.next (s.cleared r.live.file r.dir))).store = none
  laid : ∃ opened, ((s.cleared r.live.file r.dir).db (s.next (s.cleared r.live.file r.dir))).Opens target
    s.clientId opened

end Site

/-- A number is left past the files up to the one in use. -/
def Directory.Room (base file : String) (d : Directory) : Prop := ∀ other ∈ d.numberedFiles base,
  fileNumber base other ≤ fileNumber base file → fileNumber base other + 1 < 2 ^ 64

/-- The tables of a schema can be laid out in an empty file. -/
def Lays (target : Engine) : Prop := ∀ clientId, ∃ opened, ({} : DbFile).Opens target clientId opened

section Reports
variable {s : Site} {e : Engine} {file : String} {d d' : Directory} {live : Live}

theorem openClient_report (h : s.openClient file e d = (.ok live, d')) :
    live.schemaState.lastRebuild = none := by
  obtain ⟨-, rfl, -⟩ := openClient_eq_ok.mp h
  rfl

theorem rebuildBeside_report {reason : String} {p q : ℕ}
    (h : s.rebuildBeside file e reason p q d = (.ok live, d')) {report : RebuildReport}
    (hr : live.schemaState.lastRebuild = some report) : report.oldFile = file := by
  rw [Site.rebuildBeside] at h
  simp only [bind_eq_ok] at h
  obtain ⟨_, _, -, _, _, -, newFile, _, -, _, _, -, _, _, -, _, _, -, client, _, -, h⟩ := h
  have hdone : ∀ {t : Directory}, (do
      s.setCurrentFile newFile
      return { client with schemaState := { client.schemaState with
        rebuilt := true
        lastRebuild := some ⟨file, newFile, reason, p, q⟩ } } : Run Directory Live) t = (.ok live, d') →
      report.oldFile = file := by
    intro t ht
    simp only [bind_eq_ok, pure_eq_ok] at ht
    obtain ⟨_, _, -, rfl, -⟩ := ht
    obtain rfl := Option.some.inj hr
    rfl
  split_ifs at h
  · rw [bind_eq_ok] at h
    obtain ⟨_, _, -, h⟩ := h
    exact hdone h
  · exact hdone h

/-- A report names the file that was opened. -/
theorem openAt_report {discardPending : Bool} (hs : s.Uncut)
    (h : s.openAt e discardPending d = (.ok live, d')) {report : RebuildReport}
    (hr : live.schemaState.lastRebuild = some report) : report.oldFile = s.opens d := by
  rw [Site.openAt, bind_of_ok (currentFile_eq hs)] at h
  simp only [bind_eq_ok, observe_eq_ok] at h
  obtain ⟨_, _, -, _, _, -, _, _, -, db, _, -, h⟩ := h
  have hopened : ∀ {client : Live} {e : Engine} {t t' : Directory},
      s.openClient (s.opens d) e t = (.ok client, t') → client.schemaState.lastRebuild = some report →
        report.oldFile = s.opens d := by
    intro client e t t' ho hsome
    rw [openClient_report ho] at hsome
    cases hsome
  cases hl : db.layout with
  | fresh =>
    rw [hl] at h
    simp only [bind_eq_ok, pure_eq_ok] at h
    obtain ⟨client, _, hopen, rfl, -⟩ := h
    exact hopened hopen hr
  | legacy what =>
    rw [hl] at h
    simp only [bind_eq_ok, pure_eq_ok] at h
    obtain ⟨_, _, -, client, _, hopen, rfl, -⟩ := h
    exact rebuildBeside_report hopen hr
  | current =>
    rw [hl] at h
    simp only [Site.openCurrent, bind_eq_ok, pure_eq_ok] at h
    obtain ⟨client, _, ⟨_, _, -, db, _, -, framed, _, -, _, _, -, _, _, -, h⟩, rfl, -⟩ := h
    cases hdesc : framed.descriptor with
    | none =>
      rw [hdesc] at h
      simp only [bind_eq_ok] at h
      obtain ⟨_, _, -, h⟩ := h
      cases hi : framed.incompatibility e.schema with
      | none =>
        rw [hi] at h
        exact hopened h hr
      | some reason =>
        rw [hi] at h
        simp only [bind_eq_ok] at h
        obtain ⟨_, _, -, h⟩ := h
        exact rebuildBeside_report h hr
    | some stored =>
      rw [hdesc] at h
      cases hc : stored.schema.compatibility e.schema with
      | incompatible reason =>
        simp only [hc, bind_eq_ok] at h
        obtain ⟨_, _, -, _, _, -, h⟩ := h
        split_ifs at h
        · simp only [bind_eq_ok, pure_eq_ok] at h
          obtain ⟨old, _, ho, rfl, -⟩ := h
          exact hopened ho hr
        · exact rebuildBeside_report h hr
      | identical =>
        simp only [hc] at h
        exact hopened h hr
      | additive steps =>
        simp only [hc] at h
        exact hopened h hr

/-- The steps before the switch. -/
def openingSteps (stored : Engine) : List FileStep :=
  [.openFile, .checkLayout, .framework, .readDescriptor, .countMutations] ++
    stored.schema.models.map fun m => .countDirect m.name

/-- A waiting file is rebuilt beside. -/
theorem openAt_eq_ok {stored target : Engine} {st : Store} {r : Running} (hs : s.Uncut)
    (hw : Waiting stored target st r) (ho : s.opens r.dir = r.live.file) {reason : String}
    (hreason : stored.schema.compatibility target.schema = .incompatible reason) :
    s.openAt target true r.dir = (.ok live, d') ↔
      (∀ step ∈ openingSteps stored, s.out step = .done) ∧
      ∃ client, s.rebuildBeside r.live.file target reason st.queue.length
        (LeftBehind.countDirect stored s.row s.json st) r.dir = (.ok client, d') ∧
        live = { client with origin := some target } := by
  have hlookup := lookup_of_store hw.store
  have hsteps : (∀ step ∈ openingSteps stored, s.out step = .done) ↔ s.out .openFile = .done ∧
      s.out .checkLayout = .done ∧ s.out .framework = .done ∧ s.out .readDescriptor = .done ∧
      s.out .countMutations = .done ∧ ∀ m ∈ stored.schema.models, s.out (.countDirect m.name) = .done := by
    simp [openingSteps]
  have hcount : ∀ {t t' : Directory} {u : Unit}, each (fun m : ModelDescriptor =>
      Run.step (s.out (.countDirect m.name))) stored.schema.models t = (.ok u, t') ↔
        (∀ m ∈ stored.schema.models, s.out (.countDirect m.name) = .done) ∧ t = t' := each_step_eq_ok
  have hqueue : (r.dir.db r.live.file).mutations = st.queue.length := by
    rw [DbFile.mutations, hw.store, Option.elim_some]
  have hdirect : s.countDirect stored (r.dir.db r.live.file) =
      LeftBehind.countDirect stored s.row s.json st := by
    rw [Site.countDirect, hw.store, Option.elim_some]
  rw [Site.openAt, bind_of_ok (currentFile_eq hs), ho, hsteps]
  simp only [bind_eq_ok, step_eq_ok, update_eq_ok, observe_eq_ok, touch_of_lookup hlookup, hw.layout,
    Site.openCurrent, lift_eq_ok, hw.framework, Except.ok.injEq, put_db hlookup, hw.descriptor, hreason,
    hcount, hqueue, hdirect, pure_eq_ok, exists_and_left, and_assoc, exists_eq_left', exists_const,
    not_true_eq_false, and_false, if_false]
  refine and_congr_right fun _ => and_congr_right fun _ => and_congr_right fun _ => and_congr_right fun _ =>
    and_congr_right fun _ => and_congr_right fun _ => ?_
  constructor
  · rintro ⟨client, _, h, rfl, rfl⟩
    exact ⟨client, h, rfl⟩
  · rintro ⟨client, h, rfl⟩
    exact ⟨client, _, h, rfl, rfl⟩

end Reports

section Rebuilds
variable {s : Site} (listens : ℕ → Bool) {stored target : Engine} {st : Store} {r : Running}
  {discardPending : Bool}

/-- A refused rebuild changes nothing. -/
theorem rebuild_refused (hs : s.Uncut) (hw : Waiting stored target st r)
    (h : s.Refused st discardPending r) :
    ∃ message, s.rebuild listens discardPending r = (.error (.failed message), r) := by
  obtain ⟨pending, hp⟩ := Option.isSome_iff_exists.mp hw.pending
  rw [Site.rebuild, hp]
  by_cases hsession : r.live.session = true
  · simp only [hsession, if_true]
    exact ⟨_, rfl⟩
  simp only [hsession, Bool.false_eq_true, if_false]
  rcases step_uncut hs .countPending with ho | ho
  · obtain ⟨hqueue, rfl⟩ : st.queue ≠ [] ∧ discardPending = false :=
      (h.resolve_left hsession).resolve_left (not_not.mpr ho)
    have hremaining : 0 < (r.dir.db r.live.file).mutations := by
      rw [DbFile.mutations, hw.store, Option.elim_some]
      exact List.length_pos_iff.mpr hqueue
    simp only [step_of_done ho, hremaining, Bool.false_eq_true, not_false_eq_true, and_self, if_true]
    exact ⟨_, rfl⟩
  · rw [step_of_failed ho]
    exact ⟨_, rfl⟩

/-- One that is not refused opens the path again; the client has let go of where it was opened from. -/
theorem rebuild_opens (hw : Waiting stored target st r) (h : ¬s.Refused st discardPending r) :
    (∃ e dir, s.openAt target true r.dir = (.error e, dir) ∧ s.rebuild listens discardPending r =
      (.error e, ⟨dir, { r.live with origin := none }⟩)) ∨
    (∃ fresh dir message, s.openAt target true r.dir = (.ok fresh, dir) ∧
      fresh.schemaState.lastRebuild = none ∧ s.rebuild listens discardPending r =
        (.error (.failed message), ⟨dir, { r.live with origin := none }⟩)) ∨
    ∃ fresh dir report, s.openAt target true r.dir = (.ok fresh, dir) ∧
      fresh.schemaState.lastRebuild = some report ∧ s.rebuild listens discardPending r =
        (.ok report, ⟨dir, Live.notify listens { fresh with watchers := r.live.watchers }
          (fresh.engine.schema.models.map fun model => model.name)⟩) := by
  obtain ⟨pending, hp⟩ := Option.isSome_iff_exists.mp hw.pending
  simp only [Site.Refused, not_or, not_not, not_and, Bool.not_eq_true, Bool.not_eq_false] at h
  obtain ⟨hsession, ho, hdiscard⟩ := h
  have hremaining : ¬(0 < (r.dir.db r.live.file).mutations ∧ ¬discardPending = true) := by
    rintro ⟨hlt, hnot⟩
    rw [DbFile.mutations, hw.store, Option.elim_some] at hlt
    exact hnot (hdiscard (List.length_pos_iff.mp hlt))
  rw [Site.rebuild, hp]
  simp only [hsession, Bool.false_eq_true, if_false, step_of_done ho, if_neg hremaining, hw.origin]
  rcases hopen : s.openAt target true r.dir with ⟨e | fresh, dir⟩
  · exact .inl ⟨e, dir, rfl, rfl⟩
  · cases hreport : fresh.schemaState.lastRebuild with
    | none =>
      simp only [hreport]
      exact .inr (.inl ⟨fresh, dir, _, rfl, hreport, rfl⟩)
    | some report =>
      simp only [hreport]
      exact .inr (.inr ⟨fresh, dir, report, rfl, hreport, rfl⟩)

/-- A client that has let go of where it was opened from never rebuilds. -/
theorem not_recovers (h : r.live.origin = none) : ¬s.Recovers listens stored r := by
  intro hr
  obtain ⟨report, r', hok, -⟩ := hr { clientId := "" } "" true (.inl rfl)
  rw [Site.rebuild] at hok
  cases hp : r.live.schemaState.pending with
  | none => simp [hp] at hok
  | some pending => simp [hp, h, Site.calm, Run.step, pure] at hok

theorem channels_waiting (hw : Waiting stored target st r) :
    (r.dir.db r.live.file).channels = st.subscriptions.keys := by
  rw [DbFile.channels, hw.store, Option.elim_some]

theorem carried_eq (hw : Waiting stored target st r) (h : st.subscriptions.keys ≠ [] →
    s.out .openOld = .done ∧ s.out .readChannels = .done) :
    s.carried r.live.file r.dir = st.subscriptions.keys := by
  rw [Site.carried, channels_waiting hw]
  split_ifs with hdone
  · rfl
  · by_contra hne
    exact hdone (h fun hnil => hne hnil.symm)

theorem mem_switchSteps {step : FileStep} {channels : List String} :
    step ∈ Site.switchSteps stored target channels ↔ step ∈ openingSteps stored ∨
      (channels ≠ [] ∧ (step = .openOld ∨ step = .readChannels)) ∨ step = .openNew ∨
      (∃ o ∈ openSteps target true, step = .opening o) ∨ (channels ≠ [] ∧ step ∈ cursorSteps channels) ∨
      step = .writeSidecar ∨ step = .renameSidecar := by
  rw [Site.switchSteps, ← openingSteps]
  by_cases hc : channels = []
  · simp only [hc, if_true, List.append_nil, List.mem_append, List.mem_cons, List.mem_map,
      List.not_mem_nil, or_false, ne_eq, not_true_eq_false, false_and, false_or, eq_comm, or_assoc]
  · simp only [hc, if_false, List.mem_append, List.mem_cons, List.mem_map, List.not_mem_nil, or_false,
      ne_eq, not_false_eq_true, true_and, eq_comm, or_assoc]

/-- What goes through switches, and reports what it leaves behind. -/
theorem switched_of_goesThrough (hs : s.Uncut) (hw : Waiting stored target st r)
    (h : ¬s.Refused st discardPending r) (hg : s.GoesThrough stored target st r) :
    ∃ report r', s.rebuild listens discardPending r = (.ok report, r') ∧ s.Switched target st r report r' ∧
      report.leftPending = st.queue.length ∧
      report.leftDirect = LeftBehind.countDirect stored s.row s.json st := by
  obtain ⟨reason, hreason⟩ := hw.incompatible
  obtain ⟨opened, hopened⟩ := hg.laid
  have hsteps : ∀ step, step ∈ Site.switchSteps stored target st.subscriptions.keys → s.out step = .done :=
    hg.steps
  simp only [mem_switchSteps] at hsteps
  have hcarried : s.carried r.live.file r.dir = st.subscriptions.keys := carried_eq hw fun hne =>
    ⟨hsteps _ (.inr (.inl ⟨hne, .inl rfl⟩)), hsteps _ (.inr (.inl ⟨hne, .inr rfl⟩))⟩
  have hvacant : ((s.cleared r.live.file r.dir).db (s.next (s.cleared r.live.file r.dir))).store.isNone =
      true := by
    rw [hg.vacant]
    rfl
  have hbeside : s.rebuildBeside r.live.file target reason st.queue.length
      (LeftBehind.countDirect stored s.row s.json st) r.dir = (.ok _, _) :=
    (rebuildBeside_eq_ok hs (lookup_of_store hw.store)).mpr
    ⟨hg.numbered, hsteps _ (.inr (.inr (.inl rfl))),
      fun step hstep => hsteps _ (.inr (.inr (.inr (.inl ⟨step, hvacant ▸ hstep, rfl⟩)))),
      fun hne step hstep => hsteps _ (.inr (.inr (.inr (.inr (.inl ⟨hcarried ▸ hne, hcarried ▸ hstep⟩))))),
      hsteps _ (.inr (.inr (.inr (.inr (.inr (.inl rfl)))))),
      hsteps _ (.inr (.inr (.inr (.inr (.inr (.inr rfl)))))), opened, hopened, rfl, rfl⟩
  have hopen := (openAt_eq_ok hs hw hg.opens hreason).mpr
    ⟨fun step hstep => hsteps step (.inl hstep), _, hbeside, rfl⟩
  obtain ⟨e, dir, hne, -⟩ | ⟨fresh, dir, message, hok, hnone, -⟩ | ⟨fresh, dir, report, hok, hsome, hr⟩ :=
    rebuild_opens listens hw h
  · cases hopen.symm.trans hne
  · obtain ⟨hfresh, -⟩ := Prod.mk.inj (hopen.symm.trans hok)
    obtain rfl := Except.ok.inj hfresh
    cases hnone
  · obtain ⟨hfresh, rfl⟩ := Prod.mk.inj (hopen.symm.trans hok)
    obtain rfl := Except.ok.inj hfresh
    obtain rfl := Option.some.inj hsome
    have hdb : ({ (s.cleared r.live.file r.dir).put (s.next (s.cleared r.live.file r.dir))
        (opened.subscribed (s.carried r.live.file r.dir)) with
          sidecar := some (s.next (s.cleared r.live.file r.dir) ++ "\n") } : Directory).db
        (s.next (s.cleared r.live.file r.dir)) = opened.subscribed st.subscriptions.keys := by
      rw [hcarried]
      exact db_put_self
    obtain ⟨hdesc, hcovers, hstore, -⟩ := opens_spec hopened
    refine ⟨_, _, hr, ⟨rfl, rfl, rfl, ?_, ?_, ?_⟩, rfl, rfl⟩
    · exact (congrArg DbFile.descriptor hdb).trans hdesc
    · intro m hm
      rw [hdb]
      exact hcovers m hm
    · rw [hdb, DbFile.subscribed, hstore hg.vacant, Option.map_some, setCursors_fresh]

theorem setCursors_clientId (channels : List String) : ∀ st : Store,
    (channels.foldl (fun st channel => st.setCursor channel 0) st).clientId = st.clientId := by
  induction channels with
  | nil => exact fun _ => rfl
  | cons channel channels ih => exact fun st => ih _

/-- What switches has gone through. -/
theorem goesThrough_of_switched (hs : s.Uncut) (hw : Waiting stored target st r)
    (hfresh : ∀ file st', (r.dir.db file).store = some st' → st'.clientId ≠ s.clientId)
    (h : ¬s.Refused st discardPending r) {report : RebuildReport} {r' : Running}
    (hr : s.rebuild listens discardPending r = (.ok report, r')) (hsw : s.Switched target st r report r') :
    s.GoesThrough stored target st r := by
  obtain ⟨reason, hreason⟩ := hw.incompatible
  obtain ⟨e, dir, -, hne⟩ | ⟨fresh, dir, message, -, -, hne⟩ | ⟨fresh, dir, report', hok, hsome, heq⟩ :=
    rebuild_opens listens hw h
  · cases hr.symm.trans hne
  · cases hr.symm.trans hne
  obtain ⟨hreport, rfl⟩ := Prod.mk.inj (hr.symm.trans heq)
  obtain rfl := Except.ok.inj hreport
  have hopens : s.opens r.dir = r.live.file := (openAt_report hs hok hsome).symm.trans hsw.oldFile
  obtain ⟨hopening, client, hbeside, rfl⟩ := (openAt_eq_ok hs hw hopens hreason).mp hok
  obtain ⟨hnumbered, hnew, hopenSteps, hcursors, hwrite, hrename, opened, hopened, rfl, rfl⟩ :=
    (rebuildBeside_eq_ok hs (lookup_of_store hw.store)).mp hbeside
  obtain rfl := Option.some.inj hsome
  set d₁ := s.cleared r.live.file r.dir with hd₁
  obtain ⟨-, -, hempty, hkept⟩ := opens_spec hopened
  have hstore : (opened.subscribed (s.carried r.live.file r.dir)).store = some
      { clientId := s.clientId, subscriptions := st.subscriptions.mapValues fun _ _ => 0 } :=
    (congrArg DbFile.store db_put_self.symm).trans hsw.store
  have hvacant : (d₁.db (s.next d₁)).store = none := by
    cases hst : (d₁.db (s.next d₁)).store with
    | none => rfl
    | some st' =>
      obtain ⟨main, before, hold⟩ := hkept st' hst
      rw [DbFile.subscribed, hold, Option.map_some, Option.some.injEq] at hstore
      have hid := congrArg Store.clientId hstore
      rw [setCursors_clientId] at hid
      have hlookup := cleared_sub (lookup_of_store hst)
      refine absurd hid (hfresh (s.next d₁) st' ?_)
      rw [Directory.db, hlookup, Option.getD_some, hst]
  -- channels that were not read are not subscribed to
  have hread : st.subscriptions.keys ≠ [] → s.out .openOld = .done ∧ s.out .readChannels = .done := by
    intro hne
    by_contra hnot
    rw [Site.carried, if_neg hnot, subscribed_nil, hempty hvacant, Option.some.injEq] at hstore
    have hsubs := congrArg (fun st : Store => st.subscriptions.keys) hstore
    rw [SortedMap.keys_mapValues] at hsubs
    exact hne hsubs.symm
  rw [carried_eq hw hread] at hcursors
  refine ⟨hopens, fun step hstep => ?_, hnumbered, hvacant, opened, hopened⟩
  rcases mem_switchSteps.mp hstep with hstep | ⟨hne, rfl | rfl⟩ | rfl | ⟨o, ho, rfl⟩ | ⟨hne, hstep⟩ | rfl | rfl
  · exact hopening step hstep
  · exact (hread hne).1
  · exact (hread hne).2
  · exact hnew
  · refine hopenSteps o ?_
    rw [hvacant]
    exact ho
  · exact hcursors hne step hstep
  · exact hwrite
  · exact hrename

/-- The rows of the file are the client's to write, and transactions its to close. -/
theorem waiting_written (hw : Waiting stored target st r) (st' : Store) : Waiting stored target st'
    ⟨r.dir.put r.live.file { r.dir.db r.live.file with store := some st' },
      { r.live with session := false }⟩ where
  pending := hw.pending
  origin := hw.origin
  layout := by
    simp only [db_put_self]
    exact hw.layout
  framework := by
    have h := hw.framework
    simp only [db_put_self, DbFile.runFramework, Except.bind_eq_ok, Except.pure_eq_ok] at h ⊢
    obtain ⟨one, hone, two, htwo, heq⟩ := h
    exact ⟨one, hone, two, htwo, by rw [← congrArg DbFile.catalog heq]⟩
  descriptor := by
    simp only [db_put_self]
    exact hw.descriptor
  store := by simp only [db_put_self]
  incompatible := hw.incompatible

theorem calm_uncut (clientId : String) : (s.calm clientId).Uncut := by
  intro step h
  cases h

theorem calm_vacant (clientId : String) {d : Directory} (hn : (s.calm clientId).highest d + 1 < 2 ^ 64) :
    d.db ((s.calm clientId).next d) = {} := by
  rw [Directory.db, next_vacant rfl hn, Option.getD_none]

/-- With nothing failing every file past the one in use is cleared away. -/
theorem calm_clears {clientId file other : String} {d : Directory} (hm : other ∈ d.numberedFiles s.base)
    (h : fileNumber s.base file < fileNumber s.base other) :
    ((s.calm clientId).cleared file d).files.lookup other = none := by
  suffices hfold : ∀ (strays : List String) (d : Directory),
      other ∈ strays ∨ d.files.lookup other = none →
        (strays.foldl ((s.calm clientId).removed file) d).files.lookup other = none from
    hfold _ d (.inl hm)
  intro strays
  induction strays with
  | nil => exact fun _ hnone => hnone.resolve_left List.not_mem_nil
  | cons stray strays ih =>
    intro d hstray
    rw [List.foldl_cons]
    refine ih _ ?_
    obtain hmem | hnone := hstray
    · obtain rfl | hmem := List.mem_cons.mp hmem
      · exact .inr (by rw [Site.removed, if_pos ⟨h, rfl⟩, Directory.erase, SortedMap.lookup_erase, if_pos rfl])
      · exact .inl hmem
    · refine .inr ?_
      rw [Site.removed]
      split_ifs
      · rw [Directory.erase, SortedMap.lookup_erase, hnone, ite_self]
      · exact hnone

theorem highest_lt {d : Directory} {n : ℕ} : s.highest d + 1 < n ↔
    1 < n ∧ ∀ other ∈ s.listed .listFiles d, fileNumber s.base other + 1 < n := by
  rw [Site.highest]
  induction s.listed .listFiles d with
  | nil => simp
  | cons other files ih =>
    simp only [List.map_cons, List.foldr_cons, List.forall_mem_cons]
    rw [← and_left_comm, ← ih]
    omega

/-- With nothing failing the highest number is that of a file up to the one in use. -/
theorem calm_room (clientId : String) {file : String} {d : Directory} :
    (s.calm clientId).highest ((s.calm clientId).cleared file d) + 1 < 2 ^ 64 ↔ d.Room s.base file := by
  have hlisted : ∀ other, other ∈ (s.calm clientId).listed .listFiles ((s.calm clientId).cleared file d) ↔
      other ∈ d.numberedFiles s.base ∧ fileNumber s.base other ≤ fileNumber s.base file := by
    intro other
    have hmem : ∀ d : Directory, other ∈ d.numberedFiles s.base ↔
        d.files.lookup other ≠ none ∧ numbered s.base other = true := by
      intro d
      rw [Directory.numberedFiles, List.mem_filter, Ne, SortedMap.lookup_eq_none_iff, not_not]
    change other ∈ ((s.calm clientId).cleared file d).numberedFiles s.base ↔ _
    by_cases hle : fileNumber s.base other ≤ fileNumber s.base file
    · have hkept : ((s.calm clientId).cleared file d).files.lookup other = d.files.lookup other :=
        cleared_keeps hle
      rw [hmem, hmem, hkept, and_iff_left hle]
    · refine iff_of_false (fun hc => ?_) fun h => hle h.2
      obtain ⟨hsome, hnumbered⟩ := (hmem _).mp hc
      obtain ⟨db, hdb⟩ := Option.ne_none_iff_exists'.mp hsome
      have hd : other ∈ d.numberedFiles s.base := (hmem d).mpr ⟨by simp [cleared_sub hdb], hnumbered⟩
      exact hsome (calm_clears hd (not_le.mp hle))
  rw [highest_lt, and_iff_right (by norm_num)]
  simp only [hlisted, and_imp]
  rfl

/-- Writing to a file that is there takes no number. -/
theorem room_put {base file other : String} {d : Directory} {db : DbFile}
    (hl : (d.files.lookup other).isSome) : (d.put other db).Room base file ↔ d.Room base file := by
  have hmem : ∀ name, name ∈ (d.put other db).numberedFiles base ↔ name ∈ d.numberedFiles base := by
    intro name
    have hkey : name ∈ (d.put other db).files.keys ↔ name ∈ d.files.keys := by
      rw [← not_iff_not, ← SortedMap.lookup_eq_none_iff, ← SortedMap.lookup_eq_none_iff, Directory.put,
        SortedMap.lookup_insert]
      split_ifs with heq
      · rw [heq]
        exact iff_of_false (by simp) (Option.isSome_iff_ne_none.mp hl)
      · rfl
    rw [Directory.numberedFiles, Directory.numberedFiles, List.mem_filter, List.mem_filter, hkey]
  simp only [Directory.Room, hmem]

theorem calm_accepts {clientId : String} (h : discardPending = true ∨ st.queue = [])
    (hr : r.live.session = false) : ¬(s.calm clientId).Refused st discardPending r := by
  rintro (hsession | ho | ⟨hqueue, rfl⟩)
  · rw [hr] at hsession
    cases hsession
  · exact ho rfl
  · exact h.elim (by simp) hqueue

/-- A waiting client recovers when the path still leads to its file, a number is left, and the tables that
    were asked for can be laid out. -/
theorem recovers_iff (hw : Waiting stored target st r) : s.Recovers listens stored r ↔
    r.dir.current s.base = r.live.file ∧ r.dir.Room s.base r.live.file ∧ Lays target := by
  have hfile : (r.dir.files.lookup r.live.file).isSome := by rw [lookup_of_store hw.store, Option.isSome_some]
  constructor
  · intro h
    have hlast : ∀ clientId, r.dir.current s.base = r.live.file ∧ r.dir.Room s.base r.live.file ∧
        ∃ opened, ({} : DbFile).Opens target clientId opened := by
      intro clientId
      obtain ⟨reason, hreason⟩ := hw.incompatible
      obtain ⟨report, r', hok, hold, -⟩ := h st clientId true (.inl rfl)
      have hw' := waiting_written hw st
      obtain ⟨e, dir, -, hne⟩ | ⟨fresh, dir, message, -, -, hne⟩ | ⟨fresh, dir, report', hopen, hsome, heq⟩ :=
        rebuild_opens (s := s.calm clientId) listens hw' (calm_accepts (.inl rfl) rfl)
      · cases hok.symm.trans hne
      · cases hok.symm.trans hne
      obtain ⟨hreport, rfl⟩ := Prod.mk.inj (hok.symm.trans heq)
      obtain rfl := Except.ok.inj hreport
      have hopens := (openAt_report (calm_uncut clientId) hopen hsome).symm.trans hold
      obtain ⟨-, client, hbeside, rfl⟩ :=
        (openAt_eq_ok (calm_uncut clientId) hw' hopens hreason).mp hopen
      obtain ⟨hnumbered, -, -, -, -, -, opened, hopened, -⟩ :=
        (rebuildBeside_eq_ok (calm_uncut clientId) (lookup_of_store hw'.store)).mp hbeside
      rw [calm_vacant clientId hnumbered] at hopened
      exact ⟨hopens, (room_put hfile).mp ((calm_room clientId).mp hnumbered), opened, hopened⟩
    exact ⟨(hlast "").1, (hlast "").2.1, fun clientId => (hlast clientId).2.2⟩
  · rintro ⟨hcurrent, hroom, hlays⟩ st' clientId discardPending hdiscard
    have hw' := waiting_written hw st'
    obtain ⟨opened, hopened⟩ := hlays clientId
    have hnumbered : (s.calm clientId).highest ((s.calm clientId).cleared r.live.file (r.dir.put r.live.file
        { r.dir.db r.live.file with store := some st' })) + 1 < 2 ^ 64 :=
      (calm_room clientId).mpr ((room_put hfile).mpr hroom)
    obtain ⟨report, r', hok, hsw, hpending, hdirect⟩ := switched_of_goesThrough listens
      (calm_uncut clientId) hw' (calm_accepts hdiscard rfl) {
        opens := hcurrent
        steps := fun _ _ => rfl
        numbered := hnumbered
        vacant := by rw [calm_vacant clientId hnumbered]
        laid := ⟨opened, by rwa [calm_vacant clientId hnumbered]⟩ }
    exact ⟨report, r', hok, hsw.oldFile, hpending, hdirect⟩

/-- A rebuild in place is all or nothing exactly when it is refused before the client lets go of where it
    was opened from, and could be tried again, or everything goes through. -/
theorem in_place_exact (discardPending : Bool) (hs : s.Uncut)
    (hw : Waiting stored target st r)
    (hfresh : ∀ file st', (r.dir.db file).store = some st' → st'.clientId ≠ s.clientId) :
    s.AllOrNothing listens stored target st r (s.rebuild listens discardPending r) ↔
      (s.Refused st discardPending r ∧ r.dir.current s.base = r.live.file ∧
          r.dir.Room s.base r.live.file ∧ Lays target) ∨
        (¬s.Refused st discardPending r ∧ s.GoesThrough stored target st r) := by
  by_cases h : s.Refused st discardPending r
  · obtain ⟨message, hr⟩ := rebuild_refused listens hs hw h
    rw [hr, Site.AllOrNothing, recovers_iff listens hw]
    constructor
    · rintro ⟨-, hrecovers⟩
      exact .inl ⟨h, hrecovers⟩
    · rintro (⟨-, hrecovers⟩ | ⟨hnot, -⟩)
      · exact ⟨⟨rfl, rfl⟩, hrecovers⟩
      · exact absurd h hnot
  · constructor
    · intro hall
      refine .inr ⟨h, ?_⟩
      obtain ⟨e, dir, -, heq⟩ | ⟨fresh, dir, message, -, -, heq⟩ | ⟨fresh, dir, report, -, -, heq⟩ :=
        rebuild_opens listens hw h
      · rw [heq] at hall
        exact absurd hall.2 (not_recovers listens rfl)
      · rw [heq] at hall
        exact absurd hall.2 (not_recovers listens rfl)
      · rw [heq] at hall
        exact goesThrough_of_switched listens hs hw hfresh h heq hall
    · rintro (⟨hrefused, -⟩ | ⟨-, hgoes⟩)
      · exact absurd hrefused h
      · obtain ⟨report, r', hr, hsw, -⟩ := switched_of_goesThrough listens hs hw h hgoes
        rw [hr]
        exact hsw

end Rebuilds

namespace Sample
open LeftBehind.Sample

/-- Switches whose labels became numbers. -/
def counted : Engine where
  codecs := switches.codecs
  schema := {
    models := [
      { name := "Switch", identity := ["on"]
        fields := [⟨"on", .scalar .boolean, false, none⟩, ⟨"label", .scalar .int, true, none⟩] }] }
  valid := by decide +kernel

/-- What was unsent has been sent by now. -/
def served : Store := { clientId := "me", subscriptions := .ofList [("c", 3)] }

def waiting : Running where
  dir := { files := .ofList [("app.db",
    ⟨⟨Ddl.tables switches.schema.models, Ddl.indexes switches.schema.models⟩, some switches, some served⟩)] }
  live := {
    file := "app.db"
    engine := switches
    schemaState := { pending := some ⟨"app.db", "Switch.label changed type", 1, 0⟩ }
    origin := some counted }

def site (out : FileStep → Outcome) : Site := ⟨"app.db", bound, printed, "new", out⟩

/-- The new file cannot be opened. -/
def full (step : FileStep) : Outcome := if step = .openNew then .failed else .done

theorem waiting_waits : Waiting switches counted served waiting where
  pending := rfl
  origin := rfl
  layout := by decide +kernel
  framework := by
    have htables : Ddl.framework.tables.foldlM Catalog.createTable (waiting.dir.db "app.db").catalog =
        .ok (waiting.dir.db "app.db").catalog := by decide +kernel
    have hindexes : Ddl.framework.indexes.foldlM Catalog.createIndex (waiting.dir.db "app.db").catalog =
        .ok (waiting.dir.db "app.db").catalog := by decide +kernel
    change DbFile.runFramework (waiting.dir.db "app.db") = .ok (waiting.dir.db "app.db")
    rw [DbFile.runFramework, htables, Except.ok_bind, hindexes, Except.ok_bind]
    rfl
  descriptor := rfl
  store := rfl
  incompatible := ⟨"field Switch.label changed its type or nullability", by decide +kernel⟩

theorem waiting_ids (file : String) (st' : Store) (h : (waiting.dir.db file).store = some st') :
    st'.clientId ≠ "new" := by
  have hlookup := lookup_of_store h
  have hmem := SortedMap.mem_of_ofList (SortedMap.lookup_eq_some_iff.mp hlookup)
  rw [List.mem_singleton, Prod.mk.injEq] at hmem
  rw [hmem.2] at h
  obtain rfl := Option.some.inj h
  decide

theorem counted_lays : Lays counted := by
  intro clientId
  have hlaid : ∃ cat, (do
      let framed ← ({} : DbFile).runFramework
      let columned ← framed.addFrameworkColumns
      Ddl.reconcile counted.schema columned.catalog) = .ok cat := Except.exists_ok (by decide +kernel)
  simp only [Except.bind_eq_ok] at hlaid
  obtain ⟨cat, framed, hf, columned, hc, hr⟩ := hlaid
  have hlayout : ({} : DbFile).layout = .fresh := by decide +kernel
  have hstore : columned.store = none := (addFrameworkColumns_frame hc).1.trans (runFramework_frame hf).1
  refine ⟨⟨cat, some counted, some { clientId }⟩, fun what hwhat => by simp [hlayout] at hwhat, framed,
    columned, hf, hc, ?_⟩
  rw [DbFile.reconciled, hstore, hr]
  rfl

end Sample

section Sample
open Files.Sample LeftBehind.Sample

theorem counted_goesThrough : (site fun _ => .done).GoesThrough switches counted served waiting := by
  have hnumbered : (site fun _ => .done).highest ((site fun _ => .done).cleared "app.db" waiting.dir) + 1 <
      2 ^ 64 := by decide +kernel
  have hempty := calm_vacant (s := site full) "new" hnumbered
  obtain ⟨opened, hopened⟩ := counted_lays "new"
  exact {
    opens := by decide +kernel
    steps := fun _ _ => rfl
    numbered := hnumbered
    vacant := congrArg DbFile.store hempty
    laid := ⟨opened, hempty ▸ hopened⟩ }

/-- With nothing failing the client switches to a new file. -/
theorem in_place_counted : ∃ outcome, (site fun _ => .done).rebuild (fun _ => true) false waiting = outcome ∧
    (site fun _ => .done).AllOrNothing (fun _ => true) switches counted served waiting outcome := by
  have hs : (site fun _ => .done).Uncut := by
    intro step h
    cases h
  have haccepts : ¬(site fun _ => .done).Refused served false waiting := by
    rintro (hsession | ho | ⟨hqueue, -⟩)
    · cases hsession
    · exact ho rfl
    · exact hqueue rfl
  have hexact := in_place_exact (fun _ => true) false hs waiting_waits waiting_ids
  generalize (site fun _ => .done).rebuild (fun _ => true) false waiting = outcome at hexact ⊢
  refine ⟨outcome, rfl, ?_⟩
  rw [hexact]
  exact .inr ⟨haccepts, counted_goesThrough⟩

/-- When the new file cannot be opened, the rebuild is over for good. -/
theorem not_in_place_exact : ¬∀ (s : Site) (listens : ℕ → Bool) (stored target : Engine) (st : Store)
    (r : Running) (discardPending : Bool), s.Uncut → Waiting stored target st r →
    (∀ file st', (r.dir.db file).store = some st' → st'.clientId ≠ s.clientId) →
    s.AllOrNothing listens stored target st r (s.rebuild listens discardPending r) := by
  intro hall
  have hs : (site full).Uncut := by
    intro step
    change full step ≠ .crashed
    unfold full
    split_ifs
    · decide
    · decide
  have h := hall (site full) (fun _ => true) switches counted served waiting false hs waiting_waits
    waiting_ids
  have haccepts : ¬(site full).Refused served false waiting := by
    rintro (hsession | ho | ⟨hqueue, -⟩)
    · cases hsession
    · exact ho rfl
    · exact hqueue rfl
  obtain ⟨e, dir, -, heq⟩ | ⟨fresh, dir, message, -, -, heq⟩ | ⟨fresh, dir, report, hok, -, -⟩ :=
    rebuild_opens (fun _ => true) waiting_waits haccepts
  · rw [heq] at h
    exact not_recovers _ rfl h.2
  · rw [heq] at h
    exact not_recovers _ rfl h.2
  · obtain ⟨reason, hreason⟩ := waiting_waits.incompatible
    obtain ⟨-, client, hbeside, -⟩ :=
      (openAt_eq_ok hs waiting_waits (by decide +kernel) hreason).mp hok
    obtain ⟨-, hnew, -⟩ := (rebuildBeside_eq_ok hs (lookup_of_store waiting_waits.store)).mp hbeside
    cases hnew

end Sample

end Files
end AheadSync
