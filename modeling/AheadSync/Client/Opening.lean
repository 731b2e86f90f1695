import AheadSync.Client.Laid
import Mathlib.Data.List.MinMax

/-! What opening a path comes to when no step is cut short: which steps it takes, and what it leaves in
    the directory (`Client::open`, `Client::rebuild_beside`). -/

namespace AheadSync
namespace Files
open Sql Stepwise Run

/-! ### Names -/

section Names
variable {base : String} {n : ℕ}

theorem number_fileOf : number base (fileOf base n) = some (Nat.toDigits 10 n) := by
  rw [number, fileOf, String.toList_append, List.dropPrefix?_append_of_beq _ (by simp)]
  simp [toString]

theorem digits_toDigits : ∀ c ∈ Nat.toDigits 10 n, c.isDigit = true := fun _ hc =>
  Nat.isDigit_of_mem_toDigits (by decide) (by decide) hc

theorem parseNumber_toDigits (hn : n < 2 ^ 64) : parseNumber (Nat.toDigits 10 n) = some n := by
  have hplus : ∀ cs : List Char, Nat.toDigits 10 n = '+' :: cs → False := fun cs heq =>
    absurd (digits_toDigits '+' (heq ▸ List.mem_cons_self ..)) (by decide)
  simp only [parseNumber]
  rw [Nat.ofDigitChars_ten_toDigits,
    if_pos ⟨Nat.toDigits_ne_nil, List.all_eq_true.mpr digits_toDigits, hn⟩]

/-- A numbered name has the number it was made of. -/
theorem fileNumber_fileOf (hn : n < 2 ^ 64) : fileNumber base (fileOf base n) = n := by
  rw [fileNumber, number_fileOf, Option.bind_some, parseNumber_toDigits hn, Option.getD_some]

theorem numbered_fileOf : numbered base (fileOf base n) = true := by
  rw [numbered, number_fileOf, Option.any_some, Bool.and_eq_true]
  exact ⟨by simp [Nat.toDigits_ne_nil], List.all_eq_true.mpr digits_toDigits⟩

end Names

/-! ### Directories -/

section Directory
variable {d : Directory} {file : String} {db db' : DbFile}

@[simp] theorem db_put_self : (d.put file db).db file = db := by
  simp [Directory.db, Directory.put]

theorem db_put_ne {other : String} (h : other ≠ file) : (d.put file db).db other = d.db other := by
  simp [Directory.db, Directory.put, h]

theorem directory_ext {d d' : Directory} (hs : d.sidecar = d'.sidecar)
    (hf : ∀ file, d.files.lookup file = d'.files.lookup file) : d = d' := by
  obtain ⟨sidecar, files⟩ := d
  obtain ⟨sidecar', files'⟩ := d'
  obtain rfl : sidecar = sidecar' := hs
  obtain rfl : files = files' := SortedMap.ext_lookup hf
  rfl

@[simp] theorem put_put : (d.put file db).put file db' = d.put file db' := by
  refine directory_ext rfl fun other => ?_
  simp only [Directory.put, SortedMap.lookup_insert]
  split_ifs
  · rfl
  · rfl

theorem put_db (h : d.files.lookup file = some db) : d.put file db = d := by
  refine directory_ext rfl fun other => ?_
  simp only [Directory.put, SortedMap.lookup_insert]
  split_ifs with heq
  · rw [heq, h]
  · rfl

theorem lookup_of_store {st : Store} (h : (d.db file).store = some st) :
    d.files.lookup file = some (d.db file) := by
  cases hl : d.files.lookup file with
  | none => simp [Directory.db, hl] at h
  | some db => simp [Directory.db, hl]

theorem touch_of_lookup (h : d.files.lookup file = some db) : d.touch file = d := by
  simp [Directory.touch, h]

theorem db_touch (other : String) : (d.touch file).db other = d.db other := by
  rw [Directory.touch]
  split_ifs with h
  · rfl
  · by_cases heq : other = file
    · subst heq
      rw [db_put_self, Directory.db, Option.not_isSome_iff_eq_none.mp h, Option.getD_none]
    · exact db_put_ne heq

end Directory

/-! ### A file -/

namespace DbFile

/-- What the steps of `Client::open` make of a file. -/
structure Opens (db : DbFile) (e : Engine) (clientId : String) (opened : DbFile) : Prop where
  layout : ∀ what, db.layout ≠ .legacy what
  made : ∃ framed columned, db.runFramework = .ok framed ∧ framed.addFrameworkColumns = .ok columned ∧
    columned.reconciled e clientId = .ok opened

end DbFile

section Opens
variable {db framed opened : DbFile} {e : Engine} {clientId : String}

theorem runFramework_frame (h : db.runFramework = .ok framed) :
    framed.store = db.store ∧ framed.descriptor = db.descriptor := by
  simp only [DbFile.runFramework, Except.bind_eq_ok, Except.pure_eq_ok] at h
  obtain ⟨_, -, _, -, rfl⟩ := h
  exact ⟨rfl, rfl⟩

theorem addFrameworkColumns_frame (h : db.addFrameworkColumns = .ok framed) :
    framed.store = db.store ∧ framed.descriptor = db.descriptor := by
  unfold DbFile.addFrameworkColumns at h
  split at h
  · obtain rfl := Except.ok.inj h
    exact ⟨rfl, rfl⟩
  · simp only [Except.bind_eq_ok, Except.pure_eq_ok] at h
    obtain ⟨_, -, rfl⟩ := h
    exact ⟨rfl, rfl⟩

/-- Reconciling a model changes the rows of the store at most. -/
theorem fillModel_frame {cat : Catalog} {st st' : Store} {m : ModelDescriptor}
    (h : DbFile.fillModel cat st m = .ok st') : ∃ main before, st' = { st with main, before } := by
  unfold DbFile.fillModel at h
  split at h
  · obtain rfl := Except.ok.inj h
    exact ⟨st.main, st.before, rfl⟩
  · simp only [Except.bind_eq_ok, Except.pure_eq_ok] at h
    obtain ⟨added, -, _, -, rfl⟩ := h
    split_ifs
    · exact ⟨st.main, st.before, rfl⟩
    · exact ⟨_, _, rfl⟩

theorem reconcileRows_fold : ∀ {models : List ModelDescriptor} {cat cat' : Catalog} {st st' : Store},
    models.foldlM DbFile.reconcileRows (cat, st) = .ok (cat', st') →
    models.foldlM Ddl.reconcileModel cat = .ok cat' ∧ ∃ main before, st' = { st with main, before }
  | [], cat, cat', st, st', h => by
    obtain ⟨rfl, rfl⟩ := Prod.mk.inj (Except.ok.inj h)
    exact ⟨rfl, st.main, st.before, rfl⟩
  | m :: models, cat, cat', st, st', h => by
    simp only [List.foldlM_cons, Except.bind_eq_ok] at h ⊢
    obtain ⟨⟨mid, st₁⟩, hm, hrest⟩ := h
    simp only [DbFile.reconcileRows, Except.bind_eq_ok, Except.pure_eq_ok, Prod.mk.injEq] at hm
    obtain ⟨_, hcat, _, hfill, rfl, rfl⟩ := hm
    obtain ⟨main, before, rfl⟩ := fillModel_frame hfill
    obtain ⟨hcats, main', before', rfl⟩ := reconcileRows_fold hrest
    exact ⟨⟨_, hcat, hcats⟩, main', before', rfl⟩

/-- The catalog of an opened file is reconciled, and a new file gets an empty store. -/
theorem reconciled_spec (h : db.reconciled e clientId = .ok opened) :
    opened.descriptor = some e ∧ Ddl.reconcile e.schema db.catalog = .ok opened.catalog ∧
      (db.store = none → opened.store = some { clientId }) ∧
      ∀ st, db.store = some st → ∃ main before, opened.store = some { st with main, before } := by
  unfold DbFile.reconciled at h
  split at h
  · rename_i hnone
    simp only [Except.bind_eq_ok, Except.pure_eq_ok] at h
    obtain ⟨cat, hcat, rfl⟩ := h
    exact ⟨rfl, hcat, fun _ => rfl, fun st hst => absurd (hnone.symm.trans hst) (by simp)⟩
  · rename_i st hst
    simp only [Except.bind_eq_ok, Except.pure_eq_ok] at h
    obtain ⟨⟨cat, st'⟩, hfold, rfl⟩ := h
    obtain ⟨hcat, main, before, rfl⟩ := reconcileRows_fold hfold
    refine ⟨rfl, hcat, fun hnone => absurd (hnone.symm.trans hst) (by simp), fun st'' heq => ?_⟩
    obtain rfl := Option.some.inj (hst.symm.trans heq)
    exact ⟨main, before, rfl⟩

/-- An opened file records the schema, its models have their tables, and its store is a new one or the
    one it had, with its rows reconciled. -/
theorem opens_spec (h : db.Opens e clientId opened) : opened.descriptor = some e ∧
    (∀ m ∈ e.schema.models, Ddl.Covers opened.catalog m) ∧
    (db.store = none → opened.store = some { clientId }) ∧
    ∀ st, db.store = some st → ∃ main before, opened.store = some { st with main, before } := by
  obtain ⟨framed, columned, hf, hc, hr⟩ := h.made
  obtain ⟨hdesc, hcat, hnew, hold⟩ := reconciled_spec hr
  have hstore : columned.store = db.store :=
    (addFrameworkColumns_frame hc).1.trans (runFramework_frame hf).1
  rw [hstore] at hnew hold
  have hv := Schema.validate_eq_ok.mp e.valid
  exact ⟨hdesc, (Ddl.reconcile_gains (fun m hm => (hv.models m hm).fields.1) hcat).2.2, hnew, hold⟩

end Opens

/-! ### Steps -/

/-- The steps of `Client::open`, on a new file or on one that has been opened before. -/
def openSteps (e : Engine) (new : Bool) : List OpenStep :=
  [.checkLayout, .framework, .addColumns, .begin, .reconcile, .writeDescriptor, .readClient] ++
    (if new then [.insertClient] else []) ++ [.commit] ++ e.schema.models.map fun m => .load m.name

/-- The steps of subscribing a new file to some channels. -/
def cursorSteps (channels : List String) : List FileStep :=
  .beginCursors :: channels.map .setCursor ++ [.commitCursors]

/-- A file with cursors of some channels, all at 0. -/
def DbFile.subscribed (db : DbFile) (channels : List String) : DbFile :=
  { db with store := db.store.map fun st => channels.foldl (fun st channel => st.setCursor channel 0) st }

@[simp] theorem subscribed_nil (db : DbFile) : db.subscribed [] = db := by
  obtain ⟨catalog, descriptor, _ | st⟩ := db
  · rfl
  · rfl

namespace Site
variable (s : Site)

/-- No step is cut short. -/
def Uncut : Prop := ∀ step, s.out step ≠ .crashed

/-- The file that is opened. -/
def opens (d : Directory) : String := if s.out .readSidecar = .done then d.current s.base else s.base

/-- The numbered files that are found. -/
def listed (step : FileStep) (d : Directory) : List String :=
  if s.out step = .done then d.numberedFiles s.base else []

def removed (file : String) (d : Directory) (stray : String) : Directory :=
  if fileNumber s.base file < fileNumber s.base stray ∧ s.out (.remove stray) = .done then d.erase stray
  else d

/-- The directory without the files past the one in use, as far as they go. -/
def cleared (file : String) (d : Directory) : Directory :=
  (s.listed .listStrays d).foldl (s.removed file) d

/-- The highest number that is found. -/
def highest (d : Directory) : ℕ := ((s.listed .listFiles d).map (fileNumber s.base)).foldr max 0

/-- The name that is taken to be free. -/
def next (d : Directory) : String := fileOf s.base (s.highest d + 1)

/-- The channels that are carried over. -/
def carried (file : String) (d : Directory) : List String :=
  if s.out .openOld = .done ∧ s.out .readChannels = .done then (d.db file).channels else []

end Site

section Steps
variable {s : Site} {e : Engine} {file : String} {d d' : Directory} {live : Live}

theorem step_uncut (h : s.Uncut) (step : FileStep) : s.out step = .done ∨ s.out step = .failed := by
  cases ho : s.out step with
  | done => exact .inl rfl
  | failed => exact .inr rfl
  | crashed => exact absurd ho (h step)

theorem currentFile_eq (h : s.Uncut) : s.currentFile d = (.ok (s.opens d), d) := by
  rcases step_uncut h .readSidecar with ho | ho
  · rw [Site.currentFile, Site.opens, if_pos ho]
    exact orElse_of_ok (by simp [ho])
  · rw [Site.currentFile, Site.opens, if_neg (by simp [ho])]
    exact orElse_of_failed (bind_of_error (step_of_failed ho))

theorem listFiles_eq (h : s.Uncut) (step : FileStep) :
    s.listFiles step d = (.ok (s.listed step d), d) := by
  rcases step_uncut h step with ho | ho
  · rw [Site.listFiles, Site.listed, if_pos ho]
    exact orElse_of_ok (by simp [ho])
  · rw [Site.listFiles, Site.listed, if_neg (by simp [ho])]
    exact orElse_of_failed (bind_of_error (step_of_failed ho))

theorem clear_eq (h : s.Uncut) : each (fun stray => if fileNumber s.base file < fileNumber s.base stray then
    s.removeDatabaseFiles stray else pure ()) (s.listed .listStrays d) d = (.ok (), s.cleared file d) := by
  refine each_of_ok fun stray _ d => ?_
  by_cases hn : fileNumber s.base file < fileNumber s.base stray
  · rw [if_pos hn, Site.removeDatabaseFiles]
    rcases step_uncut h (.remove stray) with ho | ho
    · rw [Site.removed, if_pos ⟨hn, ho⟩]
      exact orElse_of_ok (by simp [ho])
    · rw [Site.removed, if_neg (by simp [ho])]
      exact orElse_of_failed (bind_of_error (step_of_failed ho))
  · rw [if_neg hn, Site.removed, if_neg fun hboth => hn hboth.1]
    rfl

/-- A number is left for the name of a new file. -/
theorem nextFreeFile_eq_ok (h : s.Uncut) {new : String} : s.nextFreeFile d = (.ok new, d') ↔
    s.highest d + 1 < 2 ^ 64 ∧ new = s.next d ∧ d' = d := by
  rw [Site.nextFreeFile, bind_of_ok (listFiles_eq h .listFiles)]
  simp only [bind_eq_ok, step_eq_ok, pure_eq_ok, exists_const, Site.highest, Site.next]
  constructor
  · rintro ⟨_, ⟨hstep, rfl⟩, rfl, rfl⟩
    split_ifs at hstep with hn
    exact ⟨hn, rfl, rfl⟩
  · rintro ⟨hn, rfl, rfl⟩
    exact ⟨_, ⟨if_pos hn, rfl⟩, rfl, rfl⟩

theorem oldChannels_eq (h : s.Uncut) {db : DbFile} (hl : d.files.lookup file = some db) :
    s.oldChannels file d = (.ok (s.carried file d), d) := by
  rw [Site.oldChannels, Site.carried]
  rcases step_uncut h .openOld with ho | ho
  · rcases step_uncut h .readChannels with hr | hr
    · rw [if_pos ⟨ho, hr⟩]
      exact orElse_of_ok (by simp [ho, hr, touch_of_lookup hl])
    · rw [if_neg (by simp [hr])]
      have htouch : update (·.touch file) d = (.ok (), d) := update_eq_ok.mpr (touch_of_lookup hl)
      exact orElse_of_failed ((bind_of_ok (step_of_done ho)).trans
        ((bind_of_ok htouch).trans (bind_of_error (step_of_failed hr))))
  · rw [if_neg (by simp [ho])]
    exact orElse_of_failed (bind_of_error (step_of_failed ho))

/-- A file is opened when every step of it succeeds. -/
theorem openClient_eq_ok : s.openClient file e d = (.ok live, d') ↔
    (∀ step ∈ openSteps e (d.db file).store.isNone, s.out (.opening step) = .done) ∧
      live = { file, engine := e } ∧
      ∃ opened, (d.db file).Opens e s.clientId opened ∧ d' = d.put file opened := by
  have hsteps : (∀ step ∈ openSteps e (d.db file).store.isNone, s.out (.opening step) = .done) ↔
      s.out (.opening .checkLayout) = .done ∧ s.out (.opening .framework) = .done ∧
      s.out (.opening .addColumns) = .done ∧ s.out (.opening .begin) = .done ∧
      s.out (.opening .reconcile) = .done ∧ s.out (.opening .writeDescriptor) = .done ∧
      s.out (.opening .readClient) = .done ∧
      ((d.db file).store.isNone = true → s.out (.opening .insertClient) = .done) ∧
      s.out (.opening .commit) = .done ∧
      ∀ m ∈ e.schema.models, s.out (.opening (.load m.name)) = .done := by
    cases (d.db file).store.isNone
    · simp [openSteps]
    · simp [openSteps]
  have hloads : ∀ {t t' : Directory} {u : Unit}, each (fun m : ModelDescriptor =>
      Run.step (s.out (.opening (.load m.name)))) e.schema.models t = (.ok u, t') ↔
        (∀ m ∈ e.schema.models, s.out (.opening (.load m.name)) = .done) ∧ t = t' := each_step_eq_ok
  have hstore : ∀ {framed columned : DbFile}, (d.db file).runFramework = .ok framed →
      framed.addFrameworkColumns = .ok columned → columned.store = (d.db file).store := fun hf hc =>
    (addFrameworkColumns_frame hc).1.trans (runFramework_frame hf).1
  rw [hsteps, Site.openClient]
  rcases hlayout : (d.db file).layout with _ | _ | what
  case legacy =>
    refine iff_of_false ?_ ?_
    · simp only [bind_eq_ok, Site.stepOpen, step_eq_ok, observe_eq_ok, exists_and_left, and_assoc,
        exists_eq_left', exists_const, hlayout, fail_eq_ok, and_false, not_false_eq_true]
    · rintro ⟨-, -, opened, hopens, -⟩
      exact hopens.layout what hlayout
  all_goals
    simp only [bind_eq_ok, Site.stepOpen, step_eq_ok, observe_eq_ok, lift_eq_ok, update_eq_ok,
      exists_and_left, and_assoc, exists_eq_left', exists_const, hlayout, put_put]
    constructor
    · rintro ⟨h1, h2, framed, hf, h3, columned, hc, h4, h5, opened, hr, h6, h7, h⟩
      have hopens : (d.db file).Opens e s.clientId opened :=
        ⟨fun what hwhat => by simp [hlayout] at hwhat, framed, columned, hf, hc, hr⟩
      rw [hstore hf hc] at h
      split_ifs at h with hnew
      all_goals
        simp only [bind_eq_ok, step_eq_ok, update_eq_ok, exists_and_left, and_assoc, exists_eq_left',
          exists_const, put_put, hloads, pure_eq_ok] at h
      · obtain ⟨hinsert, hcommit, hload, rfl, rfl⟩ := h
        exact ⟨h1, h2, h3, h4, h5, h6, h7, fun _ => hinsert, hcommit, hload, rfl, opened, hopens, rfl⟩
      · obtain ⟨hcommit, hload, rfl, rfl⟩ := h
        exact ⟨h1, h2, h3, h4, h5, h6, h7, fun h => absurd h hnew, hcommit, hload, rfl, opened, hopens, rfl⟩
    · rintro ⟨h1, h2, h3, h4, h5, h6, h7, hinsert, hcommit, hload, rfl, opened, hopens, rfl⟩
      obtain ⟨framed, columned, hf, hc, hr⟩ := hopens.made
      refine ⟨h1, h2, framed, hf, h3, columned, hc, h4, h5, opened, hr, h6, h7, ?_⟩
      rw [hstore hf hc]
      split_ifs with hnew
      all_goals
        simp only [bind_eq_ok, step_eq_ok, update_eq_ok, exists_and_left, and_assoc, exists_eq_left',
          exists_const, put_put, hloads, pure_eq_ok, and_self, and_true]
      · exact ⟨hinsert hnew, hcommit, hload⟩
      · exact ⟨hcommit, hload⟩

theorem touch_put {db : DbFile} : (d.touch file).put file db = d.put file db := by
  rw [Directory.touch]
  split_ifs
  · rfl
  · exact put_put

/-- A name is free when the files there are were found, and a number is left. -/
theorem next_vacant (ho : s.out .listFiles = .done) (hn : s.highest d + 1 < 2 ^ 64) :
    d.files.lookup (s.next d) = none := by
  cases hl : d.files.lookup (s.next d) with
  | none => rfl
  | some db =>
    have hkey : s.next d ∈ d.files.keys := by
      by_contra hnot
      rw [SortedMap.lookup_eq_none_iff.mpr hnot] at hl
      cases hl
    have hmem : s.next d ∈ s.listed .listFiles d := by
      rw [Site.listed, if_pos ho]
      exact List.mem_filter.mpr ⟨hkey, numbered_fileOf⟩
    have hle : fileNumber s.base (s.next d) ≤ s.highest d :=
      List.le_max_of_le' 0 (List.mem_map_of_mem hmem) le_rfl
    rw [Site.next, fileNumber_fileOf hn] at hle
    omega

/-- Clearing keeps the files up to the one in use. -/
theorem cleared_keeps {other : String} (h : fileNumber s.base other ≤ fileNumber s.base file) :
    (s.cleared file d).files.lookup other = d.files.lookup other := by
  suffices hfold : ∀ (strays : List String) (d : Directory),
      (strays.foldl (s.removed file) d).files.lookup other = d.files.lookup other from hfold _ d
  intro strays
  induction strays with
  | nil => exact fun _ => rfl
  | cons stray strays ih =>
    intro d
    rw [List.foldl_cons, ih, Site.removed]
    split_ifs with hout
    · rw [Directory.erase, SortedMap.lookup_erase, if_neg]
      rintro rfl
      omega
    · rfl

/-- Clearing adds no file. -/
theorem cleared_sub {other : String} {db : DbFile}
    (h : (s.cleared file d).files.lookup other = some db) : d.files.lookup other = some db := by
  suffices hfold : ∀ (strays : List String) (d : Directory),
      (strays.foldl (s.removed file) d).files.lookup other = some db → d.files.lookup other = some db from
    hfold _ d h
  intro strays
  induction strays with
  | nil => exact fun _ h => h
  | cons stray strays ih =>
    intro d h
    have hd := ih _ h
    rw [Site.removed] at hd
    split_ifs at hd with hout
    · rw [Directory.erase, SortedMap.lookup_erase] at hd
      split_ifs at hd with heq
      exact hd
    · exact hd

theorem subscribeAll_eq_ok {channels : List String} {u : Unit} :
    s.subscribeAll file channels d = (.ok u, d') ↔ (∀ step ∈ cursorSteps channels, s.out step = .done) ∧
      d' = d.put file ((d.db file).subscribed channels) := by
  have hcursors : ∀ {t t' : Directory} {u : Unit}, each (fun channel : String =>
      Run.step (s.out (.setCursor channel))) channels t = (.ok u, t') ↔
        (∀ channel ∈ channels, s.out (.setCursor channel) = .done) ∧ t = t' := each_step_eq_ok
  have hsteps : (∀ step ∈ cursorSteps channels, s.out step = .done) ↔ s.out .beginCursors = .done ∧
      (∀ channel ∈ channels, s.out (.setCursor channel) = .done) ∧ s.out .commitCursors = .done := by
    simp [cursorSteps, or_imp, forall_and]
  rw [hsteps, Site.subscribeAll]
  simp only [bind_eq_ok, step_eq_ok, hcursors, update_eq_ok, exists_and_left, and_assoc, exists_eq_left',
    exists_const]
  exact and_congr_right fun _ => and_congr_right fun _ => and_congr_right fun _ => eq_comm

/-- A file is rebuilt beside when every step that is not forgiven succeeds. -/
theorem rebuildBeside_eq_ok {reason : String} {leftPending leftDirect : ℕ} {db : DbFile} (h : s.Uncut)
    (hl : d.files.lookup file = some db) :
    s.rebuildBeside file e reason leftPending leftDirect d = (.ok live, d') ↔
      s.highest (s.cleared file d) + 1 < 2 ^ 64 ∧ s.out .openNew = .done ∧
      (∀ step ∈ openSteps e ((s.cleared file d).db (s.next (s.cleared file d))).store.isNone,
        s.out (.opening step) = .done) ∧
      (s.carried file d ≠ [] → ∀ step ∈ cursorSteps (s.carried file d), s.out step = .done) ∧
      s.out .writeSidecar = .done ∧ s.out .renameSidecar = .done ∧
      ∃ opened, ((s.cleared file d).db (s.next (s.cleared file d))).Opens e s.clientId opened ∧
        live = { file := s.next (s.cleared file d), engine := e, schemaState := {
          rebuilt := true
          lastRebuild := some ⟨file, s.next (s.cleared file d), reason, leftPending, leftDirect⟩ } } ∧
        d' = { (s.cleared file d).put (s.next (s.cleared file d)) (opened.subscribed (s.carried file d)) with
          sidecar := some (s.next (s.cleared file d) ++ "\n") } := by
  have hkept : (s.cleared file d).files.lookup file = some db := (cleared_keeps le_rfl).trans hl
  have hcarried : s.carried file (s.cleared file d) = s.carried file d := by
    rw [Site.carried, Site.carried, Directory.db, Directory.db, hkept, hl]
  have hold := oldChannels_eq h hkept
  rw [hcarried] at hold
  rw [Site.rebuildBeside, bind_of_ok (listFiles_eq h .listStrays), bind_of_ok (clear_eq h)]
  by_cases hn : s.highest (s.cleared file d) + 1 < 2 ^ 64
  case neg =>
    refine iff_of_false ?_ fun hall => hn hall.1
    rw [bind_eq_ok]
    rintro ⟨_, _, hnext, -⟩
    exact hn ((nextFreeFile_eq_ok h).mp hnext).1
  rw [bind_of_ok ((nextFreeFile_eq_ok h).mpr ⟨hn, rfl, rfl⟩), bind_of_ok hold, and_iff_right hn]
  clear hold hcarried hkept hl hn
  generalize s.cleared file d = d₁
  generalize s.next d₁ = newFile
  generalize s.carried file d = channels
  simp only [bind_eq_ok, step_eq_ok, update_eq_ok, openClient_eq_ok, Site.setCurrentFile, exists_and_left,
    and_assoc, exists_eq_left', exists_eq_left, exists_const, db_touch, touch_put]
  refine and_congr_right fun _ => and_congr_right fun _ => ?_
  constructor
  · rintro ⟨_, ⟨opened, hopens, rfl⟩, hrest⟩
    split_ifs at hrest with hc
    · simp only [bind_eq_ok, step_eq_ok, update_eq_ok, subscribeAll_eq_ok, pure_eq_ok, exists_and_left,
        and_assoc, exists_eq_left', exists_eq_left, exists_const, put_put, db_put_self] at hrest
      obtain ⟨hcursors, hwrite, hrename, rfl, rfl⟩ := hrest
      exact ⟨fun _ => hcursors, hwrite, hrename, opened, hopens, rfl, rfl⟩
    · simp only [bind_eq_ok, step_eq_ok, update_eq_ok, pure_eq_ok, exists_and_left, and_assoc,
        exists_eq_left', exists_const] at hrest
      obtain ⟨hwrite, hrename, rfl, rfl⟩ := hrest
      obtain rfl : channels = [] := not_not.mp hc
      exact ⟨fun hne => absurd rfl hne, hwrite, hrename, opened, hopens, rfl, by rw [subscribed_nil]⟩
  · rintro ⟨hcursors, hwrite, hrename, opened, hopens, rfl, rfl⟩
    refine ⟨_, ⟨opened, hopens, rfl⟩, ?_⟩
    split_ifs with hc
    · simp only [bind_eq_ok, step_eq_ok, update_eq_ok, subscribeAll_eq_ok, pure_eq_ok, exists_and_left,
        and_assoc, exists_eq_left', exists_eq_left, exists_const, put_put, db_put_self]
      exact ⟨hcursors hc, hwrite, hrename, trivial, trivial⟩
    · obtain rfl : channels = [] := not_not.mp hc
      simp only [bind_eq_ok, step_eq_ok, update_eq_ok, pure_eq_ok, exists_and_left, and_assoc,
        exists_eq_left', exists_const, subscribed_nil]
      exact ⟨hwrite, hrename, trivial, trivial⟩

/-- The cursors of the channels of a store, on an empty one. -/
theorem setCursors_fresh (st : Store) (clientId : String) :
    st.subscriptions.keys.foldl (fun st channel => st.setCursor channel 0) ({ clientId } : Store) =
      { clientId, subscriptions := st.subscriptions.mapValues fun _ _ => 0 } := by
  have hfold : ∀ (channels : List String) (st₁ : Store),
      channels.foldl (fun st channel => st.setCursor channel 0) st₁ =
        { st₁ with
          subscriptions := channels.foldl (fun subs channel => subs.insert channel 0) st₁.subscriptions } := by
    intro channels
    induction channels with
    | nil => exact fun _ => rfl
    | cons channel channels ih =>
      intro st₁
      rw [List.foldl_cons, List.foldl_cons, ih]
      rfl
  have hlookup : ∀ (channels : List String) (subs : SortedMap String ℕ) (k : String),
      (channels.foldl (fun subs channel => subs.insert channel 0) subs).lookup k =
        if k ∈ channels then some 0 else subs.lookup k := by
    intro channels
    induction channels with
    | nil => simp
    | cons channel channels ih =>
      intro subs k
      rw [List.foldl_cons, ih, SortedMap.lookup_insert]
      by_cases hk : k ∈ channels
      · simp [hk]
      · simp [hk, eq_comm]
  rw [hfold]
  refine congrArg (fun subs => ({ clientId, subscriptions := subs } : Store)) (SortedMap.ext_lookup fun k => ?_)
  rw [hlookup, SortedMap.lookup_mapValues, SortedMap.lookup_empty]
  cases hl : st.subscriptions.lookup k with
  | none => rw [if_neg (SortedMap.lookup_eq_none_iff.mp hl), Option.map_none]
  | some cursor =>
    rw [if_pos, Option.map_some]
    by_contra hnot
    rw [SortedMap.lookup_eq_none_iff.mpr hnot] at hl
    cases hl

end Steps

end Files
end AheadSync
