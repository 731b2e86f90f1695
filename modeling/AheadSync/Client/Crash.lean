import AheadSync.Client.InPlace
import AheadSync.Lib.Run

/-! Opening a path and rebuilding, cut short before any step: what is left is the file that was in use with
    its rows, or a new file that is ready. -/

namespace AheadSync
namespace Files
open Sql Stepwise Run

/-! ### Files -/

namespace DbFile
variable (db : DbFile)

/-- A file that recorded a schema has a store, and the tables of the schema. -/
def Described : Prop := ∀ e, db.descriptor = some e →
  db.store.isSome ∧ ∀ m ∈ e.schema.models, Ddl.Covers db.catalog m

/-- Its channels, with their cursors. -/
def subscriptions : SortedMap String ℕ := db.store.elim .empty (·.subscriptions)

/-- A schema does not fit what is in the file. -/
def Misfits (e : Engine) : Prop :=
  match db.layout with
  | .fresh => False
  | .legacy _ => True
  | .current => match db.descriptor with
    | some stored => ∃ reason, stored.schema.compatibility e.schema = .incompatible reason
    | none => ∃ framed reason, db.runFramework = .ok framed ∧ framed.incompatibility e.schema = some reason

/-- A new file, laid out for a schema and subscribed to some channels. -/
structure Ready (e : Engine) (clientId : String) (channels : SortedMap String ℕ) : Prop where
  descriptor : db.descriptor = some e
  covers : ∀ m ∈ e.schema.models, Ddl.Covers db.catalog m
  store : db.store = some { clientId, subscriptions := channels.mapValues fun _ _ => 0 }

end DbFile

theorem DbFile.channels_eq (db : DbFile) : db.channels = db.subscriptions.keys := by
  unfold DbFile.channels DbFile.subscriptions
  cases db.store with
  | none => rfl
  | some st => rfl

/-- The tables of a file are laid out further, and nothing else. -/
structure Laying (db db' : DbFile) : Prop where
  gains : Ddl.Gains db.catalog db'.catalog
  store : db'.store = db.store
  descriptor : db'.descriptor = db.descriptor

/-- A file keeps what its client wrote; its rows may have gained columns. -/
structure Grown (db db' : DbFile) : Prop where
  store : ∀ st, db.store = some st → ∃ main before, db'.store = some { st with main, before }
  described : db.Described → db'.Described

section Grown
variable {db db' db'' opened : DbFile} {e : Engine} {clientId : String}

theorem laying_refl (db : DbFile) : Laying db db := ⟨Ddl.gains_refl _, rfl, rfl⟩

theorem laying_trans (h : Laying db db') (h' : Laying db' db'') : Laying db db'' :=
  ⟨Ddl.gains_trans h.gains h'.gains, h'.store.trans h.store, h'.descriptor.trans h.descriptor⟩

theorem runFramework_laying (h : db.runFramework = .ok db') : Laying db db' := by
  obtain ⟨hstore, hdesc⟩ := runFramework_frame h
  simp only [DbFile.runFramework, Except.bind_eq_ok, Except.pure_eq_ok] at h
  obtain ⟨one, hone, two, htwo, rfl⟩ := h
  exact ⟨Ddl.gains_trans (Ddl.gains_foldlM (fun _ _ _ h => (Ddl.createTable_gains h).1) hone)
    (Ddl.gains_foldlM (fun _ _ _ h => (Ddl.createIndex_gains h).1) htwo), hstore, hdesc⟩

theorem addFrameworkColumns_laying (h : db.addFrameworkColumns = .ok db') : Laying db db' := by
  obtain ⟨hstore, hdesc⟩ := addFrameworkColumns_frame h
  refine ⟨?_, hstore, hdesc⟩
  unfold DbFile.addFrameworkColumns at h
  split at h
  · obtain rfl := Except.ok.inj h
    exact Ddl.gains_refl _
  · simp only [Except.bind_eq_ok, Except.pure_eq_ok] at h
    obtain ⟨cat, hcat, rfl⟩ := h
    exact (Ddl.addColumn_gains hcat).1

theorem laying_described (h : Laying db db') (hd : db.Described) : db'.Described := by
  intro e he
  obtain ⟨hstore, hcovers⟩ := hd e (h.descriptor ▸ he)
  exact ⟨h.store ▸ hstore, fun m hm => Ddl.covers_gains (hcovers m hm) h.gains⟩

theorem laying_grown (h : Laying db db') : Grown db db' where
  store st hst := ⟨st.main, st.before, h.store.trans hst⟩
  described := laying_described h

theorem subscribed_described (h : db.Described) (channels : List String) :
    (db.subscribed channels).Described := by
  intro e he
  obtain ⟨hstore, hcovers⟩ := h e he
  refine ⟨?_, hcovers⟩
  rw [DbFile.subscribed, Option.isSome_map]
  exact hstore

theorem opens_grown (h : db.Opens e clientId opened) : Grown db opened where
  store := (opens_spec h).2.2.2
  described _ := by
    obtain ⟨hdesc, hcovers, hnew, hold⟩ := opens_spec h
    intro e' he'
    obtain rfl := Option.some.inj (hdesc.symm.trans he')
    refine ⟨?_, hcovers⟩
    cases hst : db.store with
    | none => rw [hnew hst, Option.isSome_some]
    | some st =>
      obtain ⟨main, before, hold⟩ := hold st hst
      rw [hold, Option.isSome_some]

/-- Rows of tables that have all their columns stay as they are. -/
theorem fillModel_covered {cat : Catalog} {st st' : Store} {m : ModelDescriptor} (hc : Ddl.Covers cat m)
    (h : DbFile.fillModel cat st m = .ok st') : st' = st := by
  obtain ⟨t, ht, -, hcols⟩ := hc.table
  simp only [DbFile.fillModel, ht, Except.bind_eq_ok, Except.pure_eq_ok] at h
  obtain ⟨added, hadded, _, -, rfl⟩ := h
  have hnone : (m.fields.filter fun f => (t.columns.find? (·.name = f.name)).isNone) = [] := by
    rw [List.filter_eq_nil_iff]
    intro f hf
    obtain ⟨c, hfind, -⟩ := hcols f hf
    rw [hfind]
    simp
  rw [hnone] at hadded
  obtain rfl := Except.ok.inj hadded
  rw [if_pos List.reverse_nil]

theorem reconcileRows_covered : ∀ {models : List ModelDescriptor} {cat cat' : Catalog} {st st' : Store},
    (∀ m ∈ models, (m.fields.map (·.name)).Nodup) → (∀ m ∈ models, Ddl.Covers cat m) →
    models.foldlM DbFile.reconcileRows (cat, st) = .ok (cat', st') → st' = st
  | [], cat, cat', st, st', _, _, h => by
    obtain ⟨-, rfl⟩ := Prod.mk.inj (Except.ok.inj h)
    rfl
  | m :: models, cat, cat', st, st', hnd, hc, h => by
    simp only [List.foldlM_cons, Except.bind_eq_ok] at h
    obtain ⟨⟨mid, st₁⟩, hm, hrest⟩ := h
    simp only [DbFile.reconcileRows, Except.bind_eq_ok, Except.pure_eq_ok, Prod.mk.injEq] at hm
    obtain ⟨_, hcat, _, hfill, rfl, rfl⟩ := hm
    obtain ⟨hg, -⟩ := Ddl.reconcileModel_gains (hnd m (List.mem_cons_self ..)) hcat
    obtain rfl := fillModel_covered (hc m (List.mem_cons_self ..)) hfill
    exact reconcileRows_covered (fun m hm => hnd m (List.mem_cons_of_mem _ hm))
      (fun m hm => Ddl.covers_gains (hc m (List.mem_cons_of_mem _ hm)) hg) hrest

/-- Opening a file for the schema it recorded leaves what its client wrote. -/
theorem opens_recorded (h : db.Opens e clientId opened) (hd : db.Described)
    (he : db.descriptor = some e) : opened.store = db.store ∧ opened.descriptor = db.descriptor := by
  obtain ⟨framed, columned, hf, hc, hr⟩ := h.made
  obtain ⟨hsome, hcovers⟩ := hd e he
  obtain ⟨st, hst⟩ := Option.isSome_iff_exists.mp hsome
  have hlaying := laying_trans (runFramework_laying hf) (addFrameworkColumns_laying hc)
  refine ⟨?_, (opens_spec h).1.trans he.symm⟩
  have hstore := hlaying.store.trans hst
  unfold DbFile.reconciled at hr
  rw [hstore] at hr
  simp only [Except.bind_eq_ok, Except.pure_eq_ok] at hr
  obtain ⟨⟨cat, st'⟩, hfold, rfl⟩ := hr
  have hv := Schema.validate_eq_ok.mp e.valid
  obtain rfl := reconcileRows_covered (fun m hm => (hv.models m hm).fields.1)
    (fun m hm => Ddl.covers_gains (hcovers m hm) hlaying.gains) hfold
  exact hst.symm

end Grown

/-! ### Directories -/

/-- A file that rebuilding makes, or the path itself. -/
def Generation (base file : String) : Prop := file = base ∨ ∃ n, file = fileOf base n

/-- The directory, but for one file, which is there. -/
structure Beside (file : String) (d d' : Directory) : Prop where
  sidecar : d'.sidecar = d.sidecar
  files : ∀ other, other ≠ file → d'.files.lookup other = d.files.lookup other
  present : (d'.files.lookup file).isSome

/-- The directory up to a file. What lies past it is described as before. -/
structure Past (base file : String) (d d' : Directory) : Prop where
  files : ∀ other, fileNumber base other ≤ fileNumber base file → d'.files.lookup other = d.files.lookup other
  described : (∀ other, (d.db other).Described) → ∀ other, (d'.db other).Described

section Directories
variable {base file : String} {d d' d'' : Directory} {db : DbFile}

theorem past_refl (base file : String) (d : Directory) : Past base file d d := ⟨fun _ _ => rfl, id⟩

theorem past_trans (h : Past base file d d') (h' : Past base file d' d'') : Past base file d d'' :=
  ⟨fun other hle => (h'.files other hle).trans (h.files other hle), fun hd => h'.described (h.described hd)⟩

theorem described_empty : DbFile.Described {} := by
  intro e he
  cases he

theorem past_put {other : String} (hlt : fileNumber base file < fileNumber base other)
    (hdb : db.Described) : Past base file d (d.put other db) where
  files f hle := by
    rw [Directory.put, SortedMap.lookup_insert, if_neg]
    rintro rfl
    omega
  described hd f := by
    by_cases heq : f = other
    · subst heq
      rwa [db_put_self]
    · rw [db_put_ne heq]
      exact hd f

theorem past_erase {other : String} (hlt : fileNumber base file < fileNumber base other) :
    Past base file d (d.erase other) where
  files f hle := by
    rw [Directory.erase, SortedMap.lookup_erase, if_neg]
    rintro rfl
    omega
  described hd f := by
    rw [Directory.db, Directory.erase, SortedMap.lookup_erase]
    split_ifs
    · exact described_empty
    · exact hd f

theorem past_touch {other : String} (hlt : fileNumber base file < fileNumber base other) :
    Past base file d (d.touch other) := by
  rw [Directory.touch]
  split_ifs
  · exact past_refl ..
  · exact past_put hlt described_empty

theorem sidecar_touch : (d.touch file).sidecar = d.sidecar := by
  rw [Directory.touch]
  split_ifs
  · rfl
  · rfl

theorem le_highest {other : String} (h : other ∈ d.numberedFiles base) : fileNumber base other ≤
    ((d.numberedFiles base).map (fileNumber base)).foldr max 0 :=
  List.le_max_of_le' 0 (List.mem_map_of_mem h) le_rfl

theorem mem_numberedFiles {n : ℕ} (h : d.files.lookup (fileOf base n) = some db) :
    fileOf base n ∈ d.numberedFiles base := by
  refine List.mem_filter.mpr ⟨?_, numbered_fileOf⟩
  by_contra hnot
  rw [SortedMap.lookup_eq_none_iff.mpr hnot] at h
  cases h

/-- Past the highest number no name is taken. -/
theorem highest_vacant (hn : ((d.numberedFiles base).map (fileNumber base)).foldr max 0 + 1 < 2 ^ 64) :
    d.files.lookup (fileOf base (((d.numberedFiles base).map (fileNumber base)).foldr max 0 + 1)) = none := by
  cases hl : d.files.lookup
      (fileOf base (((d.numberedFiles base).map (fileNumber base)).foldr max 0 + 1)) with
  | none => rfl
  | some db =>
    have hle := le_highest (mem_numberedFiles hl)
    rw [fileNumber_fileOf hn] at hle
    omega

theorem fileNumber_self : fileNumber base base = 0 := by
  cases hn : number base base with
  | none => simp [fileNumber, hn]
  | some rest =>
    obtain ⟨dotted, heq, hsame⟩ := List.dropPrefix?_eq_some_iff.mp hn
    have hlen := congrArg List.length heq
    rw [List.length_append, beq_iff_eq.mp hsame, String.toList_append, List.length_append] at hlen
    simp at hlen
    omega

/-- Past the path itself there is room. -/
theorem room_base : d.Room base base := by
  intro other _ hle
  rw [fileNumber_self] at hle
  omega

theorem generation_le (hg : Generation base file) (h : d.files.lookup file = some db) :
    fileNumber base file ≤ ((d.numberedFiles base).map (fileNumber base)).foldr max 0 := by
  obtain rfl | ⟨n, rfl⟩ := hg
  · rw [fileNumber_self]
    omega
  · exact le_highest (mem_numberedFiles h)

end Directories

/-! ### Steps that are cut short -/

/-- A crash comes before any step; a read whose failure is forgiven fails where there is nothing to read
    at most. -/
structure Site.Reads (s : Site) (d : Directory) : Prop where
  sidecar : d.current s.base ≠ s.base → s.out .readSidecar ≠ .failed
  files : s.out .listFiles ≠ .failed
  channels : (d.db (d.current s.base)).channels ≠ [] →
    s.out .openOld ≠ .failed ∧ s.out .readChannels ≠ .failed

section Steps
variable {s : Site} {e : Engine} {file : String} {d : Directory}

/-- Opening a file touches no other. -/
theorem openClient_meets (s : Site) (e : Engine) (file : String) (d : Directory) :
    Meets (· = d) (s.openClient file e)
      (fun live d' => live = { file, engine := e } ∧
        ∃ opened, (d.db file).Opens e s.clientId opened ∧ d' = d.put file opened)
      (fun d' => d' = d ∨ ∃ db, d' = d.put file db ∧
        (Laying (d.db file) db ∨ (d.db file).Opens e s.clientId db)) := by
  have hnext : ∀ {P E : Directory → Prop} (step : OpenStep), (∀ d', P d' → E d') →
      Meets P (s.stepOpen step) (fun _ => P) E := fun step he => meets_step (fun _ h => h) he
  rw [Site.openClient]
  refine meets_bind (hnext .checkLayout fun _ => .inl) fun _ => ?_
  refine meets_bind (Q := fun db d' => db = d.db file ∧ d' = d)
    (meets_observe fun _ h => ⟨h ▸ rfl, h⟩) fun db => meets_of_forall ?_
  rintro d ⟨rfl, rfl⟩
  rcases hlayout : (d.db file).layout with _ | _ | what
  case legacy => exact meets_fail fun _ => .inl
  all_goals
    refine meets_bind (hnext .framework fun _ => .inl) fun _ => ?_
    refine meets_bind (Q := fun framed d' => (d.db file).runFramework = .ok framed ∧ d' = d)
      (meets_lift (fun _ _ hf h => ⟨hf, h⟩) fun _ => .inl) fun framed => meets_of_forall ?_
    rintro d ⟨hf, rfl⟩
    refine meets_bind (Q := fun _ d' => d' = d.put file framed) (meets_update fun _ h => h ▸ rfl)
      fun _ => ?_
    have hframed := runFramework_laying hf
    refine meets_bind (hnext .addColumns fun _ h => .inr ⟨framed, h, .inl hframed⟩) fun _ => ?_
    refine meets_bind (Q := fun columned d' => framed.addFrameworkColumns = .ok columned ∧
        d' = d.put file framed)
      (meets_lift (fun _ _ hc h => ⟨hc, h⟩) fun _ h => .inr ⟨framed, h, .inl hframed⟩) fun columned =>
        meets_of_forall ?_
    rintro _ ⟨hc, rfl⟩
    refine meets_bind (Q := fun _ d' => d' = d.put file columned)
      (meets_update fun _ h => by rw [h, put_put]) fun _ => ?_
    have hcolumned := laying_trans hframed (addFrameworkColumns_laying hc)
    have hleft : ∀ d', d' = d.put file columned → d' = d ∨ ∃ db, d' = d.put file db ∧
        (Laying (d.db file) db ∨ (d.db file).Opens e s.clientId db) :=
      fun _ h => .inr ⟨columned, h, .inl hcolumned⟩
    refine meets_bind (hnext .begin hleft) fun _ => meets_bind (hnext .reconcile hleft) fun _ => ?_
    refine meets_bind (Q := fun opened d' => columned.reconciled e s.clientId = .ok opened ∧
        d' = d.put file columned)
      (meets_lift (fun _ _ hr h => ⟨hr, h⟩) hleft) fun opened => meets_of_forall ?_
    rintro _ ⟨hr, rfl⟩
    have hopens : (d.db file).Opens e s.clientId opened :=
      ⟨fun what hwhat => by simp [hlayout] at hwhat, framed, columned, hf, hc, hr⟩
    refine meets_bind (hnext .writeDescriptor hleft) fun _ => meets_bind (hnext .readClient hleft) fun _ => ?_
    have hcommit : Meets (· = d.put file columned) (do
        s.stepOpen .commit
        update (·.put file opened)
        each (fun model => s.stepOpen (.load model.name)) e.schema.models
        return ({ file, engine := e } : Live))
        (fun live d' => live = { file, engine := e } ∧
          ∃ opened, (d.db file).Opens e s.clientId opened ∧ d' = d.put file opened)
        (fun d' => d' = d ∨ ∃ db, d' = d.put file db ∧
          (Laying (d.db file) db ∨ (d.db file).Opens e s.clientId db)) := by
      refine meets_bind (hnext .commit hleft) fun _ => ?_
      refine meets_bind (Q := fun _ d' => d' = d.put file opened)
        (meets_update fun _ h => by rw [h, put_put]) fun _ => ?_
      refine meets_bind (meets_each fun m _ => hnext (.load m.name)
        fun _ h => .inr ⟨opened, h, .inr hopens⟩) fun _ => ?_
      exact meets_pure fun _ h => ⟨rfl, opened, hopens, h⟩
    split_ifs
    · exact meets_bind (hnext .insertClient hleft) fun _ => hcommit
    · exact hcommit

/-- The channels of the old file, as far as they are read. -/
theorem oldChannels_meets {d : Directory} {db : DbFile} (hl : d.files.lookup file = some db)
    (h : (d.db file).channels ≠ [] → s.out .openOld ≠ .failed ∧ s.out .readChannels ≠ .failed) :
    Meets (· = d) (s.oldChannels file) (fun channels d' => channels = (d.db file).channels ∧ d' = d)
      (· = d) := by
  have htouch : update (·.touch file) d = (.ok (), d) := update_eq_ok.mpr (touch_of_lookup hl)
  have hread := meets_forgiven (o := s.out .readChannels) (f := fun d : Directory => (d.db file).channels)
    (s := d) fun hne => (h hne).2
  rintro d rfl
  rw [Site.oldChannels, orElse]
  cases ho : s.out .openOld with
  | done =>
    rw [bind_of_ok (step_of_done rfl), bind_of_ok htouch]
    exact hread d rfl
  | failed =>
    rw [bind_of_error (step_of_failed rfl)]
    exact ⟨(not_not.mp fun hne => (h hne).1 ho).symm, rfl⟩
  | crashed => exact (rfl : d = d)

end Steps

/-- The sidecar has moved to a new file that is ready. -/
structure Site.Moves (s : Site) (e : Engine) (file : String) (d d' : Directory) : Prop where
  past : Past s.base file d d'
  moved : ∃ n < 2 ^ 64, fileNumber s.base file < n ∧ d'.sidecar = some (fileOf s.base n ++ "\n") ∧
    (d'.db (fileOf s.base n)).Ready e s.clientId (d.db file).subscriptions

section Rebuild
variable {s : Site} {e : Engine} {file : String} {d : Directory} {db : DbFile}

/-- Whatever step of rebuilding is cut short, everything up to the file in use is left, and the sidecar. -/
theorem rebuildBeside_meets (reason : String) (leftPending leftDirect : ℕ)
    (hg : Generation s.base file) (hl : d.files.lookup file = some db) (hfiles : s.out .listFiles ≠ .failed)
    (hch : (d.db file).channels ≠ [] → s.out .openOld ≠ .failed ∧ s.out .readChannels ≠ .failed) :
    Meets (· = d) (s.rebuildBeside file e reason leftPending leftDirect) (fun _ => s.Moves e file d)
      (fun d' => Past s.base file d d' ∧ d'.sidecar = d.sidecar) := by
  set P : Directory → Prop := fun d' => Past s.base file d d' ∧ d'.sidecar = d.sidecar with hP
  rw [Site.rebuildBeside]
  have hstart : ∀ d', d' = d → P d' := fun d' h => h ▸ ⟨past_refl .., rfl⟩
  refine meets_bind (Q := fun _ => P) (meets_orElse (meets_bind (meets_step (fun _ h => h) hstart)
    fun _ => meets_observe hstart) fun _ h => h) fun strays => ?_
  refine meets_bind (Q := fun _ => P) (meets_each fun stray _ => ?_) fun _ => meets_of_forall ?_
  · by_cases hlt : fileNumber s.base file < fileNumber s.base stray
    · rw [if_pos hlt]
      exact meets_orElse (meets_bind (Q := fun _ => P) (meets_step (fun _ h => h) fun _ h => h) fun _ =>
        meets_update fun _ h => ⟨past_trans h.1 (past_erase hlt), h.2⟩) fun _ h => h
    · rw [if_neg hlt]
      exact meets_pure fun _ h => h
  rintro d₁ hd₁
  have hkept : d₁.files.lookup file = some db := (hd₁.1.files file le_rfl).trans hl
  have hdb : d₁.db file = d.db file := by rw [Directory.db, Directory.db, hkept, hl]
  have hstay : ∀ d', d' = d₁ → P d' := fun d' h => h ▸ hd₁
  -- the name of the new file
  set n := ((d₁.numberedFiles s.base).map (fileNumber s.base)).foldr max 0 + 1 with hn
  have hlt : fileNumber s.base file < n := Nat.lt_succ_of_le (generation_le hg hkept)
  refine meets_bind (Q := fun newFile d' => n < 2 ^ 64 ∧ newFile = fileOf s.base n ∧ d' = d₁)
    (meets_bind (meets_mono (meets_forgiven (fun _ => hfiles)) (fun _ h => h) (fun _ _ h => h) hstay)
      fun files => meets_of_forall ?_) fun newFile => meets_of_forall ?_
  · rintro _ ⟨rfl, rfl⟩
    dsimp only
    rw [← hn]
    split_ifs with hlast
    · exact meets_bind (meets_step (fun _ h => h) hstay) fun _ => meets_pure fun _ h => ⟨hlast, rfl, h⟩
    · rintro _ rfl
      exact hd₁
  rintro d₁ ⟨hlast, rfl, rfl⟩
  have hnumber : fileNumber s.base file < fileNumber s.base (fileOf s.base n) := by
    rwa [fileNumber_fileOf hlast]
  have hvacant : d₁.db (fileOf s.base n) = {} := by
    rw [Directory.db, highest_vacant hlast, Option.getD_none]
  refine meets_bind (meets_mono (oldChannels_meets hkept (hdb ▸ hch)) (fun _ h => h) (fun _ _ h => h) hstay)
    fun channels => meets_of_forall ?_
  rintro d₁ ⟨rfl, rfl⟩
  -- the new file
  refine meets_bind (Q := fun _ d' => d' = d₁) (meets_step (fun _ h => h) hstay) fun _ => ?_
  refine meets_bind (Q := fun _ d' => d' = d₁.touch (fileOf s.base n)) (meets_update fun _ h => h ▸ rfl)
    fun _ => ?_
  have hput : ∀ {new : DbFile}, new.Described → P (d₁.put (fileOf s.base n) new) := fun hnew =>
    ⟨past_trans hd₁.1 (past_put hnumber hnew), hd₁.2⟩
  have hopen := openClient_meets s e (fileOf s.base n) (d₁.touch (fileOf s.base n))
  simp only [db_touch, hvacant, touch_put] at hopen
  refine meets_bind (meets_mono hopen (fun _ h => h) (fun _ _ h => h) ?_) fun live => meets_of_forall ?_
  · rintro d' (rfl | ⟨new, rfl, hlaying | hopens⟩)
    · exact ⟨past_trans hd₁.1 (past_touch hnumber), sidecar_touch.trans hd₁.2⟩
    · exact hput (laying_described hlaying described_empty)
    · exact hput ((opens_grown hopens).described described_empty)
  rintro _ ⟨rfl, opened, hopens, rfl⟩
  have hopened := (opens_grown hopens).described described_empty
  have hready : (opened.subscribed (d₁.db file).channels).Ready e s.clientId (d₁.db file).subscriptions := by
    obtain ⟨hdesc, hcovers, hnew, -⟩ := opens_spec hopens
    refine ⟨hdesc, hcovers, ?_⟩
    rw [DbFile.subscribed, hnew rfl, Option.map_some, DbFile.channels_eq]
    exact congrArg some (setCursors_fresh
      { clientId := s.clientId, subscriptions := (d₁.db file).subscriptions } s.clientId)
  have hend : ∀ d', d' = d₁.put (fileOf s.base n) (opened.subscribed (d₁.db file).channels) → P d' :=
    fun d' h => h ▸ hput (subscribed_described hopened _)
  have hmove : ∀ report, Meets (· = d₁.put (fileOf s.base n) (opened.subscribed (d₁.db file).channels)) (do
      s.setCurrentFile (fileOf s.base n)
      return ({ file := fileOf s.base n, engine := e, schemaState := { rebuilt := true, lastRebuild := report } } :
        Live)) (fun _ => s.Moves e file d) P := by
    intro report
    refine meets_bind (Q := fun _ => s.Moves e file d) ?_ fun _ => meets_pure fun _ h => h
    refine meets_bind (Q := fun _ d' => d' = d₁.put _ _) (meets_step (fun _ h => h) hend) fun _ => ?_
    refine meets_bind (Q := fun _ d' => d' = d₁.put _ _) (meets_step (fun _ h => h) hend) fun _ => ?_
    refine meets_update fun d' h => ?_
    subst h
    exact ⟨⟨(hput (subscribed_described hopened _)).1.files, (hput (subscribed_described hopened _)).1.described⟩,
      n, hlast, hlt, rfl, by rw [← hdb]; exact db_put_self.symm ▸ hready⟩
  have hagain : ∀ d', d' = d₁.put (fileOf s.base n) opened → P d' := fun d' h => h ▸ hput hopened
  split_ifs with hc
  · refine meets_bind (meets_bind (Q := fun _ d' => d' = d₁.put (fileOf s.base n) opened)
      (meets_step (fun _ h => h) hagain) fun _ => ?_) fun _ => hmove _
    refine meets_bind (meets_each fun channel _ => meets_step (fun _ h => h) hagain) fun _ => ?_
    refine meets_bind (Q := fun _ d' => d' = d₁.put (fileOf s.base n) opened)
      (meets_step (fun _ h => h) hagain) fun _ => meets_update fun d' h => ?_
    rw [h, put_put, db_put_self]
    rfl
  · have hnone : (d₁.db file).channels = [] := not_not.mp hc
    have h := hmove (some ⟨file, fileOf s.base n, reason, leftPending, leftDirect⟩)
    rw [hnone, subscribed_nil] at h
    exact h

end Rebuild

/-- Between two openings of a path: the sidecar names a numbered file, if any. -/
structure Sound (base : String) (d : Directory) : Prop where
  sidecar : d.sidecar = none ∨ ∃ n, d.sidecar = some (fileOf base n ++ "\n")
  described : ∀ file, (d.db file).Described

/-- What opening a path leaves, wherever it stops: the earlier files, and the one in use with what its client
    wrote; where the schema does not fit, with its rows as well, unless a new file is ready to be used. -/
structure Site.Spares (s : Site) (e : Engine) (d d' : Directory) : Prop where
  earlier : ∀ file, fileNumber s.base file ≤ fileNumber s.base (d.current s.base) → file ≠ d.current s.base →
    d'.files.lookup file = d.files.lookup file
  present : (d.files.lookup (d.current s.base)).isSome → (d'.files.lookup (d.current s.base)).isSome
  written : ∀ st, (d.db (d.current s.base)).store = some st →
    ∃ main before, (d'.db (d.current s.base)).store = some { st with main, before }
  untouched : (d.db (d.current s.base)).Misfits e →
    (d'.db (d.current s.base)).store = (d.db (d.current s.base)).store ∧
      (d'.db (d.current s.base)).descriptor = (d.db (d.current s.base)).descriptor
  leads : d'.current s.base = d.current s.base ∨ (d.db (d.current s.base)).Misfits e ∧
    ∃ n < 2 ^ 64, fileNumber s.base (d.current s.base) < n ∧ d'.current s.base = fileOf s.base n ∧
      (d'.db (fileOf s.base n)).Ready e s.clientId (d.db (d.current s.base)).subscriptions

section Spares
variable {s : Site} {e : Engine} {base : String} {d d₁ d' : Directory}

/-- A line without white space at its ends is read back. -/
theorem trim_line {text : String} (hne : text.toList ≠ [])
    (hfirst : ∀ c ∈ text.toList.head?, isWhitespace c = false)
    (hlast : ∀ c ∈ text.toList.getLast?, isWhitespace c = false) : trim (text ++ "\n") = text := by
  have hstart : (text.toList ++ ['\n']).dropWhile isWhitespace = text.toList ++ ['\n'] := by
    rw [List.dropWhile_eq_self_iff]
    intro hl
    rw [List.getElem_zero, List.head_append_of_ne_nil hne, hfirst _ (List.head?_eq_some_head hne)]
    exact Bool.false_ne_true
  have hend : text.toList.rdropWhile isWhitespace = text.toList := by
    rw [List.rdropWhile_eq_self_iff]
    intro hl
    rw [hlast _ (List.getLast?_eq_some_getLast hl)]
    exact Bool.false_ne_true
  have hline : (text ++ "\n").toList = text.toList ++ ['\n'] := String.toList_append
  rw [trim, hline, hstart, List.rdropWhile_concat_pos _ _ _ (by decide), hend, String.ofList_toList]

theorem isWhitespace_digit {c : Char} (h : c.isDigit = true) : isWhitespace c = false := by
  have hlow : 48 ≤ c.toNat ∧ c.toNat ≤ 57 := by
    simpa [Char.isDigit, UInt32.le_iff_toNat_le] using h
  unfold isWhitespace
  generalize c.toNat = n at hlow ⊢
  simp
  omega

/-- The sidecar leads to the file it names, when the path does not begin with white space. -/
theorem current_fileOf (hbase : ∀ c ∈ base.toList.head?, isWhitespace c = false) {n : ℕ}
    (h : d.sidecar = some (fileOf base n ++ "\n")) : d.current base = fileOf base n := by
  have hlist : (fileOf base n).toList = base.toList ++ '.' :: Nat.toDigits 10 n := by simp [fileOf, toString]
  have hne : (fileOf base n).toList ≠ [] := by simp [hlist]
  have htrim : trim (fileOf base n ++ "\n") = fileOf base n := by
    refine trim_line hne (fun c hc => ?_) fun c hc => ?_
    · rw [hlist, List.head?_append] at hc
      cases hb : base.toList.head? with
      | none =>
        rw [hb, Option.none_or] at hc
        obtain rfl := Option.some.inj hc
        decide
      | some c' =>
        rw [hb, Option.some_or] at hc
        exact hbase c (hb ▸ hc)
    · rw [hlist, List.getLast?_append_of_ne_nil _ (List.cons_ne_nil _ _),
        List.getLast?_cons_of_ne_nil Nat.toDigits_ne_nil] at hc
      exact isWhitespace_digit (digits_toDigits c (List.mem_of_mem_getLast? hc))
  have hname : fileOf base n ≠ "" := fun heq => hne (by rw [heq]; rfl)
  simp only [Directory.current, h, htrim, if_neg hname]

theorem sound_generation (hbase : ∀ c ∈ base.toList.head?, isWhitespace c = false) (h : Sound base d) :
    Generation base (d.current base) := by
  obtain hnone | ⟨n, hn⟩ := h.sidecar
  · exact .inl (by rw [Directory.current, hnone])
  · exact .inr ⟨n, current_fileOf hbase hn⟩

theorem beside_db {file other : String} (h : Beside file d d') (hne : other ≠ file) :
    d'.db other = d.db other := by
  rw [Directory.db, Directory.db, h.files other hne]

theorem beside_put {file : String} {db : DbFile} (h : d₁.sidecar = d.sidecar ∧
    ∀ other, other ≠ file → d₁.files.lookup other = d.files.lookup other) :
    Beside file d (d₁.put file db) := by
  refine ⟨h.1, fun other hne => ?_, by simp [Directory.put]⟩
  rw [Directory.put, SortedMap.lookup_insert, if_neg hne]
  exact h.2 other hne

theorem beside_touch {file : String} : Beside file d (d.touch file) := by
  rw [Directory.touch]
  split_ifs with h
  · exact ⟨rfl, fun _ _ => rfl, h⟩
  · exact beside_put ⟨rfl, fun _ _ => rfl⟩

theorem current_congr (h : d'.sidecar = d.sidecar) : d'.current base = d.current base := by
  rw [Directory.current, Directory.current, h]

theorem spares_beside (hs : Sound s.base d) (h : Beside (d.current s.base) d d')
    (hg : Grown (d.db (d.current s.base)) (d'.db (d.current s.base)))
    (hu : (d.db (d.current s.base)).Misfits e →
      (d'.db (d.current s.base)).store = (d.db (d.current s.base)).store ∧
        (d'.db (d.current s.base)).descriptor = (d.db (d.current s.base)).descriptor) :
    s.Spares e d d' ∧ Sound s.base d' := by
  refine ⟨⟨fun file _ hne => h.files file hne, fun _ => h.present, hg.store, hu,
    .inl (current_congr h.sidecar)⟩, h.sidecar ▸ hs.sidecar, fun file => ?_⟩
  by_cases heq : file = d.current s.base
  · rw [heq]
    exact hg.described (hs.described _)
  · rw [beside_db h heq]
    exact hs.described file

/-- The tables of the file in use were laid out further, and then the files past it have changed. -/
theorem spares_past (hs : Sound s.base d) (h : Beside (d.current s.base) d d₁)
    (hl : Laying (d.db (d.current s.base)) (d₁.db (d.current s.base)))
    (hp : Past s.base (d.current s.base) d₁ d') (hside : d'.sidecar = d₁.sidecar) :
    s.Spares e d d' ∧ Sound s.base d' := by
  have hcur : d'.files.lookup (d.current s.base) = d₁.files.lookup (d.current s.base) := hp.files _ le_rfl
  have hdb : d'.db (d.current s.base) = d₁.db (d.current s.base) := by rw [Directory.db, Directory.db, hcur]
  obtain ⟨-, hsound⟩ := spares_beside (e := e) hs h (laying_grown hl) fun _ => ⟨hl.store, hl.descriptor⟩
  refine ⟨⟨fun file hle hne => (hp.files file hle).trans (h.files file hne), fun _ => hcur ▸ h.present,
    fun st hst => hdb ▸ (laying_grown hl).store st hst, fun _ => hdb ▸ ⟨hl.store, hl.descriptor⟩,
    .inl (current_congr (hside.trans h.sidecar))⟩, (hside.trans h.sidecar) ▸ hs.sidecar,
    hp.described hsound.described⟩

theorem spares_moves (hbase : ∀ c ∈ s.base.toList.head?, isWhitespace c = false) (hs : Sound s.base d)
    (h : Beside (d.current s.base) d d₁) (hl : Laying (d.db (d.current s.base)) (d₁.db (d.current s.base)))
    (hm : (d.db (d.current s.base)).Misfits e) (hmoves : s.Moves e (d.current s.base) d₁ d') :
    s.Spares e d d' ∧ Sound s.base d' := by
  obtain ⟨hp, n, hlast, hlt, hside, hready⟩ := hmoves
  -- all but the sidecar is as if the last step had been cut short
  have hback : s.Spares e d { d' with sidecar := d₁.sidecar } ∧
      Sound s.base { d' with sidecar := d₁.sidecar } := spares_past hs h hl ⟨hp.files, hp.described⟩ rfl
  obtain ⟨hkept, hsound⟩ := hback
  have hsubs : (d₁.db (d.current s.base)).subscriptions = (d.db (d.current s.base)).subscriptions := by
    rw [DbFile.subscriptions, DbFile.subscriptions, hl.store]
  exact ⟨⟨hkept.earlier, hkept.present, hkept.written, hkept.untouched,
    .inr ⟨hm, n, hlast, hlt, current_fileOf hbase hside, hsubs ▸ hready⟩⟩, .inr ⟨n, hside⟩, hsound.described⟩

/-- Opening the file in use, for a schema that fits it or the one it recorded. -/
theorem spares_openClient {e' : Engine} (hs : Sound s.base d) (h : Beside (d.current s.base) d d₁)
    (hl : Laying (d.db (d.current s.base)) (d₁.db (d.current s.base)))
    (hfits : ¬(d.db (d.current s.base)).Misfits e ∨ (d.db (d.current s.base)).descriptor = some e') :
    Meets (· = d₁) (s.openClient (d.current s.base) e') (fun _ d' => s.Spares e d d' ∧ Sound s.base d')
      (fun d' => s.Spares e d d' ∧ Sound s.base d') := by
  have hput : ∀ {db : DbFile}, Beside (d.current s.base) d (d₁.put (d.current s.base) db) :=
    beside_put ⟨h.sidecar, h.files⟩
  have hlaid : ∀ {db : DbFile}, Laying (d₁.db (d.current s.base)) db →
      s.Spares e d (d₁.put (d.current s.base) db) ∧ Sound s.base (d₁.put (d.current s.base) db) := by
    intro db hdb
    have hall := laying_trans hl hdb
    refine spares_beside hs hput ?_ fun _ => ?_
    · rw [db_put_self]
      exact laying_grown hall
    · rw [db_put_self]
      exact ⟨hall.store, hall.descriptor⟩
  have hopened : ∀ {db : DbFile}, (d₁.db (d.current s.base)).Opens e' s.clientId db →
      s.Spares e d (d₁.put (d.current s.base) db) ∧ Sound s.base (d₁.put (d.current s.base) db) := by
    intro db hdb
    refine spares_beside hs hput ?_ fun hm => ?_
    · rw [db_put_self]
      have hgrown := opens_grown hdb
      exact ⟨fun st hst => hgrown.store st (hl.store.trans hst),
        fun hd => hgrown.described (laying_described hl hd)⟩
    · rw [db_put_self]
      obtain hnot | hdesc := hfits
      · exact absurd hm hnot
      · obtain ⟨hstore, hsame⟩ := opens_recorded hdb (laying_described hl (hs.described _))
          (hl.descriptor.trans hdesc)
        exact ⟨hstore.trans hl.store, hsame.trans hl.descriptor⟩
  refine meets_mono (openClient_meets s e' (d.current s.base) d₁) (fun _ h => h) ?_ ?_
  · rintro live d' ⟨-, opened, hopens, rfl⟩
    exact hopened hopens
  · rintro d' (rfl | ⟨db, rfl, hdb | hdb⟩)
    · exact spares_beside hs h (laying_grown hl) fun _ => ⟨hl.store, hl.descriptor⟩
    · exact hlaid hdb
    · exact hopened hdb

/-- Rebuilding beside the file in use, which does not fit. -/
theorem spares_rebuildBeside (hbase : ∀ c ∈ s.base.toList.head?, isWhitespace c = false)
    (hs : Sound s.base d) (hr : s.Reads d) (h : Beside (d.current s.base) d d₁)
    (hl : Laying (d.db (d.current s.base)) (d₁.db (d.current s.base)))
    (hm : (d.db (d.current s.base)).Misfits e) (reason : String) (leftPending leftDirect : ℕ) :
    Meets (· = d₁) (s.rebuildBeside (d.current s.base) e reason leftPending leftDirect)
      (fun _ d' => s.Spares e d d' ∧ Sound s.base d') (fun d' => s.Spares e d d' ∧ Sound s.base d') := by
  obtain ⟨db, hdb⟩ := Option.isSome_iff_exists.mp h.present
  have hch : (d₁.db (d.current s.base)).channels = (d.db (d.current s.base)).channels := by
    rw [DbFile.channels, DbFile.channels, hl.store]
  refine meets_mono (rebuildBeside_meets reason leftPending leftDirect (sound_generation hbase hs) hdb hr.files
    (hch ▸ hr.channels)) (fun _ h => h) (fun _ d' hd' => ?_) fun d' hd' => ?_
  · exact spares_moves hbase hs h hl hm hd'
  · exact spares_past hs h hl hd'.1 hd'.2

theorem spares_openCurrent (hbase : ∀ c ∈ s.base.toList.head?, isWhitespace c = false)
    (hs : Sound s.base d) (hr : s.Reads d) (h : Beside (d.current s.base) d d₁)
    (hsame : d₁.db (d.current s.base) = d.db (d.current s.base))
    (hlayout : (d.db (d.current s.base)).layout = .current) (discardPending : Bool) :
    Meets (· = d₁) (s.openCurrent (d.current s.base) e discardPending)
      (fun _ d' => s.Spares e d d' ∧ Sound s.base d') (fun d' => s.Spares e d d' ∧ Sound s.base d') := by
  set K : Directory → Prop := fun d' => s.Spares e d d' ∧ Sound s.base d' with hK
  have hfirst : ∀ d', d' = d₁ → K d' := by
    rintro d' rfl
    exact spares_beside hs h (hsame ▸ laying_grown (laying_refl _)) fun _ => hsame ▸ ⟨rfl, rfl⟩
  rw [Site.openCurrent]
  refine meets_bind (Q := fun _ d' => d' = d₁) (meets_step (fun _ h => h) hfirst) fun _ => ?_
  refine meets_bind (Q := fun db d' => db = d.db (d.current s.base) ∧ d' = d₁)
    (meets_observe fun d' hd' => ⟨by rw [hd', hsame], hd'⟩) fun db => meets_of_forall ?_
  rintro d₁ ⟨rfl, rfl⟩
  refine meets_bind (Q := fun framed d' => (d.db (d.current s.base)).runFramework = .ok framed ∧ d' = d₁)
    (meets_lift (fun _ _ hf hd' => ⟨hf, hd'⟩) hfirst) fun framed => meets_of_forall ?_
  rintro d₁ ⟨hf, rfl⟩
  have hl := runFramework_laying hf
  refine meets_bind (Q := fun _ d' => d' = d₁.put (d.current s.base) framed)
    (meets_update fun _ hd' => hd' ▸ rfl) fun _ => ?_
  -- the file in use has the tables of the framework from here on
  have hbeside : Beside (d.current s.base) d (d₁.put (d.current s.base) framed) :=
    beside_put ⟨h.sidecar, h.files⟩
  have hlaid : Laying (d.db (d.current s.base))
      ((d₁.put (d.current s.base) framed).db (d.current s.base)) := by rwa [db_put_self]
  have hstay : ∀ d', d' = d₁.put (d.current s.base) framed → K d' := by
    rintro d' rfl
    exact spares_beside hs hbeside (laying_grown hlaid) fun _ => ⟨hlaid.store, hlaid.descriptor⟩
  refine meets_bind (Q := fun _ d' => d' = d₁.put (d.current s.base) framed)
    (meets_step (fun _ h => h) hstay) fun _ => ?_
  cases hdesc : framed.descriptor with
  | none =>
    have hnone : (d.db (d.current s.base)).descriptor = none := hl.descriptor.symm.trans hdesc
    refine meets_bind (Q := fun _ d' => d' = d₁.put (d.current s.base) framed)
      (meets_step (fun _ h => h) hstay) fun _ => ?_
    cases hinc : framed.incompatibility e.schema with
    | none =>
      refine spares_openClient hs hbeside hlaid (.inl ?_)
      simp only [DbFile.Misfits, hlayout, hnone, hf]
      rintro ⟨framed', reason, heq, hreason⟩
      obtain rfl := Except.ok.inj heq
      cases hinc.symm.trans hreason
    | some reason =>
      refine meets_bind (Q := fun _ d' => d' = d₁.put (d.current s.base) framed)
        (meets_step (fun _ h => h) hstay) fun _ => ?_
      refine spares_rebuildBeside hbase hs hr hbeside hlaid ?_ _ _ _
      simp only [DbFile.Misfits, hlayout, hnone]
      exact ⟨framed, reason, hf, hinc⟩
  | some stored =>
    have hsome : (d.db (d.current s.base)).descriptor = some stored := hl.descriptor.symm.trans hdesc
    dsimp only
    cases hcompat : stored.schema.compatibility e.schema with
    | incompatible reason =>
      dsimp only
      have hm : (d.db (d.current s.base)).Misfits e := by
        simp only [DbFile.Misfits, hlayout, hsome]
        exact ⟨reason, hcompat⟩
      refine meets_bind (Q := fun _ d' => d' = d₁.put (d.current s.base) framed)
        (meets_step (fun _ h => h) hstay) fun _ => ?_
      refine meets_bind (meets_each fun m _ => meets_step (fun _ h => h) hstay) fun _ => ?_
      split_ifs
      · exact meets_bind (spares_openClient hs hbeside hlaid (.inr hsome)) fun client =>
          meets_pure fun _ h => h
      · exact spares_rebuildBeside hbase hs hr hbeside hlaid hm _ _ _
    | _ =>
      refine spares_openClient hs hbeside hlaid (.inl ?_)
      simp only [DbFile.Misfits, hlayout, hsome, hcompat]
      rintro ⟨reason, hreason⟩
      cases hreason

/-- Wherever opening a path stops. -/
theorem spares_openAt (hbase : ∀ c ∈ s.base.toList.head?, isWhitespace c = false) (hs : Sound s.base d)
    (hr : s.Reads d) (discardPending : Bool) :
    s.Spares e d (s.openAt e discardPending d).2 ∧ Sound s.base (s.openAt e discardPending d).2 := by
  set K : Directory → Prop := fun d' => s.Spares e d d' ∧ Sound s.base d' with hK
  refine meets_left (P := K) (s := d) ?_
  have hstay : K d := ⟨⟨fun _ _ _ => rfl, id, fun st hst => ⟨st.main, st.before, hst⟩, fun _ => ⟨rfl, rfl⟩,
    .inl rfl⟩, hs⟩
  rw [Site.openAt]
  refine meets_bind (meets_mono (meets_forgiven (s := d) hr.sidecar) (fun _ h => h) (fun _ _ h => h)
    fun d' h => h ▸ hstay) fun file => meets_of_forall ?_
  rintro d ⟨rfl, rfl⟩
  refine meets_bind (Q := fun _ d' => d' = d) (meets_step (fun _ h => h) fun d' h => h ▸ hstay) fun _ => ?_
  refine meets_bind (Q := fun _ d' => d' = d.touch (d.current s.base)) (meets_update fun _ h => h ▸ rfl)
    fun _ => ?_
  have hbeside : Beside (d.current s.base) d (d.touch (d.current s.base)) := beside_touch
  have hsame : (d.touch (d.current s.base)).db (d.current s.base) = d.db (d.current s.base) := db_touch _
  have hlaid : Laying (d.db (d.current s.base)) ((d.touch (d.current s.base)).db (d.current s.base)) := by
    rw [hsame]
    exact laying_refl _
  have htouched : ∀ d', d' = d.touch (d.current s.base) → K d' := by
    rintro d' rfl
    exact spares_beside hs hbeside (laying_grown hlaid) fun _ => ⟨hlaid.store, hlaid.descriptor⟩
  refine meets_bind (Q := fun _ d' => d' = d.touch (d.current s.base))
    (meets_step (fun _ h => h) htouched) fun _ => ?_
  refine meets_bind (Q := fun db d' => db = d.db (d.current s.base) ∧ d' = d.touch (d.current s.base))
    (meets_observe fun d' h => ⟨by rw [h, hsame], h⟩) fun db => meets_of_forall ?_
  rintro _ ⟨rfl, rfl⟩
  cases hlayout : (d.db (d.current s.base)).layout with
  | fresh =>
    refine meets_bind (spares_openClient hs hbeside hlaid (.inl ?_)) fun _ => meets_pure fun _ h => h
    simp only [DbFile.Misfits, hlayout, not_false_eq_true]
  | legacy what =>
    have hm : (d.db (d.current s.base)).Misfits e := by simp only [DbFile.Misfits, hlayout]
    have hcount : Meets (· = d.touch (d.current s.base)) (orElse (do
        Run.step (s.out .countMutations)
        return (d.db (d.current s.base)).mutations) 0) (fun _ d' => d' = d.touch (d.current s.base))
        (· = d.touch (d.current s.base)) :=
      meets_orElse (meets_bind (meets_step (fun _ h => h) fun _ h => h) fun _ => meets_pure fun _ h => h)
        fun _ h => h
    exact meets_bind (meets_mono hcount (fun _ h => h) (fun _ _ h => h) htouched) fun pending =>
      meets_bind (spares_rebuildBeside hbase hs hr hbeside hlaid hm _ _ _) fun _ => meets_pure fun _ h => h
  | current =>
    exact meets_bind (spares_openCurrent hbase hs hr hbeside hsame hlayout discardPending)
      fun _ => meets_pure fun _ h => h

end Spares

/-! ### Runs -/

/-- What befalls the directory of a path: a client is opened there, one that is open is rebuilt, or one writes to
    its file. -/
inductive Event where
  | opened (s : Site) (e : Engine) (discardPending : Bool)
  | rebuilt (s : Site) (listens : ℕ → Bool) (live : Live) (discardPending : Bool)
  | wrote (file : String) (st : Store)

namespace Directory
variable (d : Directory)

def after : Event → Directory
  | .opened s e discardPending => (s.openAt e discardPending d).2
  | .rebuilt s listens live discardPending => (s.rebuild listens discardPending ⟨d, live⟩).2.dir
  | .wrote file st => if (d.db file).store.isSome then d.put file { d.db file with store := some st } else d

/-- Everything happens at one path. -/
def Allowed (base : String) : Event → Prop
  | .opened s _ _ => s.base = base ∧ s.Reads d
  | .rebuilt s _ _ _ => s.base = base ∧ s.Reads d
  | .wrote _ _ => True

/-- Nothing was rebuilt at a path yet. -/
structure Unbuilt : Prop where
  sidecar : d.sidecar = none
  described : ∀ file, (d.db file).Described

/-- The file in use is the same, or one of a higher number, and no file up to it is gone. -/
structure Onward (base : String) (d d' : Directory) : Prop where
  number : d'.current base = d.current base ∨
    fileNumber base (d.current base) < fileNumber base (d'.current base)
  kept : ∀ file, fileNumber base file ≤ fileNumber base (d.current base) → (d.files.lookup file).isSome →
    (d'.files.lookup file).isSome

end Directory

/-- Wherever opening a path and rebuilding are cut short, they spare what is there, and the files in use go
    onward. -/
structure Directory.Safe (base : String) (d : Directory) : Prop where
  opened : ∀ (s : Site) (e : Engine) (discardPending : Bool), s.base = base → s.Reads d →
    s.Spares e d (s.openAt e discardPending d).2
  rebuilt : ∀ (s : Site) (listens : ℕ → Bool) (live : Live) (discardPending : Bool), s.base = base →
    s.Reads d → (s.rebuild listens discardPending ⟨d, live⟩).2.dir = d ∨ ∃ e, live.origin = some e ∧
      s.Spares e d (s.rebuild listens discardPending ⟨d, live⟩).2.dir
  onward : ∀ events, Machine.Along Directory.after (Directory.Allowed · base) d events →
    d.Onward base (Machine.run Directory.after d events)

/-- Every directory that opening and rebuilding lead to is safe. -/
def CrashSafe (base : String) : Prop := ∀ (d : Directory) (events : List Event), d.Unbuilt →
  Machine.Along Directory.after (Directory.Allowed · base) d events →
  (Machine.run Directory.after d events).Safe base

section Runs
variable {base : String} {d d' d'' : Directory}

theorem onward_refl (base : String) (d : Directory) : d.Onward base d := ⟨.inl rfl, fun _ _ h => h⟩

theorem onward_trans (h : d.Onward base d') (h' : d'.Onward base d'') : d.Onward base d'' where
  number := by
    obtain heq | hlt := h.number
    · rw [← heq]
      exact h'.number
    · obtain heq | hlt' := h'.number
      · rw [heq]
        exact .inr hlt
      · exact .inr (hlt.trans hlt')
  kept file hle hf := by
    refine h'.kept file (hle.trans ?_) (h.kept file hle hf)
    obtain heq | hlt := h.number
    · rw [heq]
    · exact hlt.le

theorem spares_onward {s : Site} {e : Engine} (h : s.Spares e d d') : d.Onward s.base d' where
  number := by
    obtain heq | ⟨-, n, hlast, hlt, heq, -⟩ := h.leads
    · exact .inl heq
    · refine .inr ?_
      rwa [heq, fileNumber_fileOf hlast]
  kept file hle hf := by
    by_cases heq : file = d.current s.base
    · subst heq
      exact h.present hf
    · rwa [h.earlier file hle heq]

/-- A rebuild opens the path, if it does anything. -/
theorem rebuild_dir (s : Site) (listens : ℕ → Bool) (live : Live) (discardPending : Bool) (d : Directory) :
    (s.rebuild listens discardPending ⟨d, live⟩).2.dir = d ∨ ∃ e, live.origin = some e ∧
      (s.rebuild listens discardPending ⟨d, live⟩).2.dir = (s.openAt e true d).2 := by
  rw [Site.rebuild]
  cases live.schemaState.pending with
  | none => exact .inl rfl
  | some pending =>
    dsimp only
    split_ifs
    · exact .inl rfl
    · cases s.out .countPending with
      | failed => exact .inl rfl
      | crashed => exact .inl rfl
      | done =>
        simp only [step_of_done rfl]
        split_ifs
        · exact .inl rfl
        · cases live.origin with
          | none => exact .inl rfl
          | some e =>
            refine .inr ⟨e, rfl, ?_⟩
            dsimp only
            rcases s.openAt e true d with ⟨x | fresh, dir⟩
            · rfl
            · dsimp only
              cases fresh.schemaState.lastRebuild with
              | none => rfl
              | some report => rfl

variable (hbase : ∀ c ∈ base.toList.head?, isWhitespace c = false)
include hbase

theorem sound_after (h : Sound base d) (event : Event) (ha : d.Allowed base event) :
    Sound base (d.after event) ∧ d.Onward base (d.after event) := by
  cases event with
  | opened s e discardPending =>
    obtain ⟨rfl, hr⟩ := ha
    obtain ⟨hspares, hsound⟩ := spares_openAt (e := e) hbase h hr discardPending
    exact ⟨hsound, spares_onward hspares⟩
  | rebuilt s listens live discardPending =>
    obtain ⟨rfl, hr⟩ := ha
    obtain heq | ⟨e, -, heq⟩ := rebuild_dir s listens live discardPending d
    · rw [Directory.after, heq]
      exact ⟨h, onward_refl ..⟩
    · obtain ⟨hspares, hsound⟩ := spares_openAt (e := e) hbase h hr true
      rw [Directory.after, heq]
      exact ⟨hsound, spares_onward hspares⟩
  | wrote file st =>
    rw [Directory.after]
    split_ifs with hst
    · refine ⟨⟨h.sidecar, fun other => ?_⟩, .inl rfl, fun other _ ho => ?_⟩
      · by_cases heq : other = file
        · subst heq
          rw [db_put_self]
          exact fun e he => ⟨rfl, (h.described other e he).2⟩
        · rw [db_put_ne heq]
          exact h.described other
      · rw [Directory.put, SortedMap.lookup_insert]
        split_ifs
        · rfl
        · exact ho
    · exact ⟨h, onward_refl ..⟩

theorem onward_run : ∀ {events : List Event} {d : Directory}, Sound base d →
    Machine.Along Directory.after (Directory.Allowed · base) d events →
    d.Onward base (Machine.run Directory.after d events)
  | [], d, _, _ => onward_refl base d
  | event :: events, d, h, ha => by
    obtain ⟨hsound, honward⟩ := sound_after hbase h event ha.1
    exact onward_trans honward (onward_run hsound ha.2)

/-- A path that does not begin with white space is safe. -/
theorem crashSafe_of_plain : CrashSafe base := by
  intro d₀ events hd₀ ha
  have hsound : Sound base (Machine.run Directory.after d₀ events) :=
    Machine.run_keeps (P := Sound base) (fun d event hd hok => (sound_after hbase hd event hok).1)
      ⟨.inl hd₀.sidecar, hd₀.described⟩ ha
  refine ⟨fun s e discardPending hs hr => ?_, fun s listens live discardPending hs hr => ?_,
    fun events hevents => onward_run hbase hsound hevents⟩
  · subst hs
    exact (spares_openAt hbase hsound hr discardPending).1
  · subst hs
    obtain heq | ⟨e, he, heq⟩ := rebuild_dir s listens live discardPending
      (Machine.run Directory.after d₀ events)
    · exact .inl heq
    · refine .inr ⟨e, he, ?_⟩
      rw [heq]
      exact (spares_openAt hbase hsound hr true).1

end Runs

/-! ### Paths that begin with white space -/

theorem head_trim {text : String} (c : Char) (hc : c ∈ (trim text).toList.head?) :
    isWhitespace c = false := by
  rw [trim, String.toList_ofList] at hc
  obtain ⟨rest, hrest⟩ := List.rdropWhile_prefix isWhitespace (l := text.toList.dropWhile isWhitespace)
  cases hd : (text.toList.dropWhile isWhitespace).rdropWhile isWhitespace with
  | nil =>
    rw [hd] at hc
    cases hc
  | cons c' cs =>
    rw [hd] at hc hrest
    obtain rfl := Option.some.inj hc
    have hnot := List.head?_dropWhile_not isWhitespace text.toList
    rw [← hrest] at hnot
    exact hnot

theorem trim_ne_empty {text : String} {c : Char} (hmem : c ∈ text.toList) (hc : isWhitespace c = false) :
    trim text ≠ "" := by
  intro heq
  have hnil : (text.toList.dropWhile isWhitespace).rdropWhile isWhitespace = [] := by
    have h := congrArg String.toList heq
    rwa [trim, String.toList_ofList] at h
  rw [List.rdropWhile_eq_nil_iff] at hnil
  rw [← List.takeWhile_append_dropWhile (p := isWhitespace) (l := text.toList), List.mem_append] at hmem
  rcases hmem with hmem | hmem
  · rw [List.mem_takeWhile_imp hmem] at hc
    cases hc
  · rw [hnil c hmem] at hc
    cases hc

namespace Sample
open LeftBehind.Sample

/-- A file beside which the path is rebuilt as soon as its labels are to be numbers. -/
def switched : DbFile :=
  ⟨⟨Ddl.tables switches.schema.models, Ddl.indexes switches.schema.models⟩, some switches, some served⟩

def start (base : String) : Running := ⟨Directory.put {} base switched, { waiting.live with file := base }⟩

theorem start_waits (base : String) : Waiting switches counted served (start base) where
  pending := rfl
  origin := rfl
  layout := by
    rw [start, db_put_self]
    exact waiting_waits.layout
  framework := by
    rw [start, db_put_self]
    exact waiting_waits.framework
  descriptor := by rw [start, db_put_self, switched]
  store := by rw [start, db_put_self, switched]
  incompatible := waiting_waits.incompatible

theorem switched_described : switched.Described := by
  rintro e he
  obtain rfl := Option.some.inj he
  refine ⟨rfl, ?_⟩
  have hlaid : Ddl.reconcile switches.schema Ddl.framework = .ok switched.catalog := by decide +kernel
  have hv := Schema.validate_eq_ok.mp switches.valid
  exact (Ddl.reconcile_gains (fun m hm => (hv.models m hm).fields.1) hlaid).2.2

theorem start_unbuilt (base : String) : (start base).dir.Unbuilt := by
  refine ⟨rfl, fun file => ?_⟩
  by_cases heq : file = base
  · subst heq
    rw [start, db_put_self]
    exact switched_described
  · rw [start, db_put_ne heq]
    exact described_empty

end Sample

section Sample
open Files.Sample LeftBehind.Sample
variable {base : String}

/-- The sidecar of a path that begins with white space leads to a file that was never made. -/
theorem not_crashSafe {c : Char} (hc : c ∈ base.toList.head?) (hspace : isWhitespace c = true) :
    ¬CrashSafe base := by
  intro hsafe
  set s : Site := ⟨base, bound, printed, "new", fun _ => .done⟩ with hs
  have huncut : s.Uncut := by
    intro step h
    cases h
  have hreads : s.Reads (start base).dir := by
    refine ⟨fun _ h => ?_, fun h => ?_, fun _ => ⟨fun h => ?_, fun h => ?_⟩⟩
    all_goals cases h
  have hspares : s.Spares counted (start base).dir (s.openAt counted true (start base).dir).2 :=
    (hsafe (start base).dir [] (start_unbuilt base) trivial).opened s counted true rfl hreads
  -- the path is rebuilt beside
  have hw := start_waits base
  obtain ⟨reason, hreason⟩ := hw.incompatible
  set d₁ := s.cleared base (start base).dir with hd₁
  have hnumbered : s.highest d₁ + 1 < 2 ^ 64 := (calm_room (s := s) "new").mpr room_base
  have hvacant : d₁.db (s.next d₁) = {} := calm_vacant (s := s) "new" hnumbered
  obtain ⟨opened, hopened⟩ := counted_lays "new"
  have hbeside : s.rebuildBeside base counted reason served.queue.length
      (LeftBehind.countDirect switches s.row s.json served) (start base).dir = (.ok _, _) :=
    (rebuildBeside_eq_ok huncut (lookup_of_store hw.store)).mpr ⟨hnumbered, rfl, fun _ _ => rfl, fun _ _ _ => rfl, rfl, rfl,
      opened, hvacant ▸ hopened, rfl, rfl⟩
  have hopen := (openAt_eq_ok huncut hw rfl hreason).mpr ⟨fun _ _ => rfl, _, hbeside, rfl⟩
  rw [hopen] at hspares
  -- and the new sidecar is not read as it was written
  have hdot : '.' ∈ (s.next d₁ ++ "\n").toList := by simp [Site.next, fileOf]
  have hcurrent : ∀ {d' : Directory}, d'.sidecar = some (s.next d₁ ++ "\n") →
      d'.current base = trim (s.next d₁ ++ "\n") := by
    intro d' hd'
    simp only [Directory.current, hd', if_neg (trim_ne_empty hdot (by decide))]
  have hstays : ∀ {name : String}, c ∈ name.toList.head? → trim (s.next d₁ ++ "\n") ≠ name := by
    rintro name hname rfl
    rw [head_trim c hname] at hspace
    cases hspace
  obtain heq | ⟨-, n, -, -, heq, -⟩ := hspares.leads
  · exact hstays hc ((hcurrent rfl).symm.trans heq)
  · refine hstays ?_ ((hcurrent rfl).symm.trans heq)
    rw [fileOf, String.append_assoc, String.toList_append, List.head?_append, Option.mem_def.mp hc]
    rfl

/-- Rebuilding beside a path is crash safe exactly when its name does not begin with white space. -/
theorem crash_safe_exact (base : String) :
    CrashSafe base ↔ ∀ c ∈ base.toList.head?, isWhitespace c = false := by
  constructor
  · intro hsafe c hc
    cases hspace : isWhitespace c with
    | false => rfl
    | true => exact absurd hsafe (not_crashSafe hc hspace)
  · exact crashSafe_of_plain

theorem not_crash_safe_spaced : ¬∀ base, CrashSafe base := fun hall =>
  not_crashSafe (c := ' ') (by decide) (by decide) (hall " app.db")

end Sample

end Files
end AheadSync
