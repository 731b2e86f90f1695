import AheadSync.Server.Push
import AheadSync.Lib.Ledger

/-! What a server counts: every change of a record advances its stamp once, every publication takes the
    next cursor of its channel, and what is refused counts for nothing. -/

namespace AheadSync

/-- The counters of a server: stamps, heads and invalidations. -/
def Tables.ledger {D : Type} (t : Tables D) : Ledger String RecordKey where
  stamp := t.stamps.lookup
  head := t.head
  entry c k := (t.invalidations.lookup (c, k)).map fun row => ⟨row.cursor, row.stamp⟩

namespace Backend
variable (b : Backend)

/-- The records an intent publishes: all that changed, or those it names, once each. -/
def Members (changed : List RecordKey) (intent : PublicationIntent) (members : List RecordKey) :
    Prop :=
  match intent.records with
  | none => members = changed
  | some records => ∃ named, records.mapM b.resolve = .ok named ∧ members.Nodup ∧
      ∀ k, k ∈ members ↔ k ∈ named

/-- What a settlement publishes, intent by intent. -/
def Announces (changed : List RecordKey) : List PublicationIntent → List (String × RecordKey) → Prop
  | [], announced => announced = []
  | intent :: rest, announced => ∃ members more, b.Members changed intent members ∧
      Announces changed rest more ∧ announced = members.map (intent.channel, ·) ++ more

/-- A settlement of changes and publications: the records that changed are those its operations target
    and those its handler names, once each; and it publishes what its intents say. -/
def Settlement (targets : List RecordKey) (changes : List RecordRef)
    (publications : List PublicationIntent) (l l' : Ledger String RecordKey) : Prop :=
  ∃ named changed announced, changes.mapM b.resolve = .ok named ∧
    (changed.Nodup ∧ ∀ k, k ∈ changed ↔ k ∈ targets ∨ k ∈ named) ∧
    b.Announces changed publications announced ∧
    l' = l.settle changed announced ∧ l.Settled changed announced l'

/-- What the mutations of a batch do to the tables, in order: a rejected one leaves them as they
    were, and an accepted one settles what its handler answered. -/
inductive Pushed {D : Type} (app : App D) (owner : String) :
    List RawMutation → List Rejection → Tables D → Tables D → Prop
  | done (t : Tables D) : Pushed app owner [] [] t t
  | rejected {m : RawMutation} {code : String} {rest : List RawMutation}
      {rejections : List Rejection} {t t' : Tables D}
      (onward : Pushed app owner rest rejections t t') :
      Pushed app owner (m :: rest) (⟨m.ordinal, code⟩ :: rejections) t t'
  | accepted {m : RawMutation} {d : MutationDescriptor} {args : Value} {targets : List RecordKey}
      {changes : List RecordRef} {publications : List PublicationIntent} {handled t₁ : Tables D}
      {rest : List RawMutation} {rejections : List Rejection} {t t' : Tables D}
      (admitted : b.accept m = .ok (d, args, targets))
      (answered : app.callHandle ⟨d.name, d.version, args, owner, m.ordinal⟩ t =
        .ok (.settled changes publications, handled))
      (settled : b.Settlement targets changes publications t.ledger t₁.ledger)
      (onward : Pushed app owner rest rejections t₁ t') :
      Pushed app owner (m :: rest) rejections t t'

end Backend

/-- The tables a server can have: its application does what it wants to its content, and the rest is
    written by the pushes and the settlements that succeed, of whatever version of the backend. -/
inductive Served {D : Type} : Tables D → Prop
  | fresh (content : D) : Served { content }
  | edited {t : Tables D} (content : D) : Served t → Served { t with content }
  | pushed {t : Tables D} {b : Backend} {app : App D} {j : Json} {owner text : String}
      {savepoints : List (ℕ × Tables D)} {receipt : PushReceipt} {db : Db D} : Served t →
      b.processPush app j owner text ⟨t, savepoints⟩ = .ok (receipt, db) → Served db.tables
  | settled {t t' : Tables D} {b : Backend} {settlement : Handled} {stamps : List (RecordKey × ℕ)} :
      Served t → b.settleExternal settlement t = .ok (stamps, t') → Served t'

section Counters
variable {D : Type} {b : Backend} {t t' : Tables D}

theorem advanceStamp_ledger {key : RecordKey} {stamp : ℕ} (h : t.advanceStamp key = .ok (stamp, t')) :
    t'.ledger = t.ledger.advance key ∧ t'.stamps.lookup key = some stamp ∧
      ∀ k ≠ key, t'.stamps.lookup k = t.stamps.lookup k := by
  simp only [Tables.advanceStamp, Except.bind_eq_ok, Except.pure_eq_ok, Prod.mk.injEq] at h
  obtain ⟨-, -, rfl, rfl⟩ := h
  refine ⟨?_, AList.lookup_insert _, fun k hk => AList.lookup_insert_ne hk⟩
  have hstamp : (t.stamps.insert key (t.stamp key + 1)).lookup =
      Function.update t.stamps.lookup key (some ((t.stamps.lookup key).getD 0 + 1)) := by
    funext k
    by_cases hk : k = key
    · subst hk; simp [Tables.stamp]
    · simp [hk]
  simp only [Tables.ledger, Ledger.advance, hstamp]
  rfl

theorem allocateStamps_ledger {changed : List RecordKey} {stamps : Table RecordKey ℕ}
    (h : Backend.allocateStamps changed t = .ok (stamps, t')) :
    t'.ledger = changed.foldl Ledger.advance t.ledger :=
  List.foldlM_ok_map (fun acc : Table RecordKey ℕ × Tables D => acc.2.ledger)
    (fun acc key out ha => by
      simp only [Except.bind_eq_ok, Except.pure_eq_ok] at ha
      obtain ⟨⟨stamp, t₁⟩, h₁, rfl⟩ := ha
      exact (advanceStamp_ledger h₁).1) h

/-- Each allocated stamp is the one its record has. -/
theorem allocateStamps_lookup : ∀ {changed : List RecordKey} {acc out : Table RecordKey ℕ × Tables D},
    changed.Nodup → changed.foldlM (fun acc key => do
      let (stamp, t) ← acc.2.advanceStamp key
      return (acc.1.insert key stamp, t)) acc = (.ok out : Except Failure _) →
    (∀ k ∈ changed, ∃ s, out.1.lookup k = some s ∧ out.2.stamps.lookup k = some s) ∧
      ∀ k ∉ changed, out.1.lookup k = acc.1.lookup k ∧
        out.2.stamps.lookup k = acc.2.stamps.lookup k
  | [], acc, out, _, h => by
    obtain rfl : acc = out := by simpa using h
    exact ⟨by simp, fun k _ => ⟨rfl, rfl⟩⟩
  | key :: changed, acc, out, hnd, h => by
    obtain ⟨hkey, hnd⟩ := List.nodup_cons.mp hnd
    simp only [List.foldlM_cons, Except.bind_eq_ok, Except.pure_eq_ok] at h
    obtain ⟨acc', ⟨⟨stamp, t₁⟩, h₁, rfl⟩, h⟩ := h
    obtain ⟨-, hown, hother⟩ := advanceStamp_ledger h₁
    obtain ⟨hin, hout⟩ := allocateStamps_lookup hnd h
    refine ⟨fun k hk => ?_, fun k hk => ?_⟩
    · rcases List.mem_cons.mp hk with rfl | hk
      · obtain ⟨hl, hs⟩ := hout k hkey
        exact ⟨stamp, by rw [hl]; simp, by rw [hs]; exact hown⟩
      · exact hin k hk
    · obtain ⟨hne, hk⟩ := not_or.mp (mt List.mem_cons.mpr hk)
      obtain ⟨hl, hs⟩ := hout k hk
      exact ⟨by rw [hl]; simp [hne], by rw [hs]; exact hother k hne⟩

/-- Publishing a record at a stamp it has. -/
theorem publishOne_ledger {channel : String} {key : RecordKey} {stamp : ℕ}
    (h : Backend.publishOne t channel key stamp = .ok t') :
    t'.ledger = t.ledger.announce channel key ∧ t.stamps.lookup key = some stamp := by
  simp only [Backend.publishOne, Tables.publish, Except.bind_eq_ok, required_eq_ok, ensure_eq_ok,
    Except.pure_eq_ok] at h
  obtain ⟨⟨published, t₁⟩, ⟨current, hcurrent, -, rfl, -, -, -, rfl⟩, -, -, rfl⟩ := h
  refine ⟨?_, hcurrent⟩
  simp only [Tables.ledger, Ledger.announce, hcurrent, Option.getD_some, Ledger.mk.injEq]
  refine ⟨?_, ?_, ?_⟩
  · funext k
    by_cases hk : k = key
    · subst hk; simp [hcurrent]
    · simp [hk]
  · funext c
    by_cases hc : c = channel
    · subst hc; simp [Tables.head]
    · simp [Tables.head, hc]
  · funext c k
    by_cases hc : c = channel
    · subst hc
      by_cases hk : k = key
      · subst hk; simp
      · have hne : (c, k) ≠ (c, key) := fun he => hk (Prod.mk.inj he).2
        simp [AList.lookup_insert_ne hne, hk]
    · have hne : (c, k) ≠ (channel, key) := fun he => hc (Prod.mk.inj he).1
      simp [AList.lookup_insert_ne hne, hc]

/-- A record gets its first stamp when it is published, or keeps the one it has. -/
theorem publishMember_ledger {stamps : Table RecordKey ℕ} {channel : String} {key : RecordKey}
    (h : Backend.publishMember stamps channel t key = .ok t') :
    t'.ledger = t.ledger.announce channel key := by
  rw [Backend.publishMember] at h
  split at h
  · exact (publishOne_ledger h).1
  · obtain ⟨hledger, -⟩ := publishOne_ledger h
    rw [hledger]
    cases hl : t.stamps.lookup key with
    | some stamp => simp [Tables.ensureStamp, hl]
    | none =>
      -- the stamp the publication writes is the one just ensured
      have hstamp : (t.stamps.insert key 1).lookup =
          Function.update t.stamps.lookup key (some 1) := by
        funext k
        by_cases hk : k = key
        · subst hk; simp
        · simp [hk]
      simp only [Tables.ensureStamp, hl, Tables.ledger, Ledger.announce, hstamp, Option.getD_none,
        Function.update_self, Option.getD_some, Function.update_idem]
      rfl

end Counters

section Settlements
variable {D : Type} {b : Backend} {app : App D} {t t' : Tables D}

/-- Collecting keys keeps each once. -/
theorem insertChanges_spec (b : Backend) : ∀ (keys : List RecordKey) {changes : List RecordKey},
    changes.Nodup →
    (keys.foldl b.insertChange changes).Nodup ∧
      ∀ k, k ∈ keys.foldl b.insertChange changes ↔ k ∈ changes ∨ k ∈ keys
  | [], changes, hnd => ⟨hnd, fun k => by simp⟩
  | key :: keys, changes, hnd => by
    have hone : (b.insertChange changes key).Nodup ∧
        ∀ k, k ∈ b.insertChange changes key ↔ k ∈ changes ∨ k = key := by
      rw [Backend.insertChange]
      split
      · rename_i hmem
        exact ⟨hnd, fun k => ⟨.inl, fun h => h.elim id fun he => he ▸ hmem⟩⟩
      · rename_i hmem
        refine ⟨(List.perm_orderedInsert _ key changes).nodup_iff.mpr
          (List.nodup_cons.mpr ⟨hmem, hnd⟩), fun k => ?_⟩
        rw [List.mem_orderedInsert, or_comm]
    obtain ⟨hnd', hmem⟩ := insertChanges_spec b keys hone.1
    refine ⟨hnd', fun k => ?_⟩
    rw [List.foldl_cons, hmem, hone.2, List.mem_cons, or_assoc]

theorem changeSet_spec {targets : List RecordKey} {changes : List RecordRef}
    {set : List RecordKey} (h : b.changeSet targets changes = .ok set) :
    ∃ named, changes.mapM b.resolve = .ok named ∧ set.Nodup ∧
      ∀ k, k ∈ set ↔ k ∈ targets ∨ k ∈ named := by
  simp only [Backend.changeSet, Except.bind_eq_ok, Except.pure_eq_ok] at h
  obtain ⟨named, hnamed, rfl⟩ := h
  obtain ⟨hnd, hmem⟩ := insertChanges_spec b (targets ++ named) List.nodup_nil
  exact ⟨named, hnamed, hnd, fun k => by rw [hmem]; simp⟩

theorem publishIntent_ledger {changed : List RecordKey} {stamps : Table RecordKey ℕ}
    {intent : PublicationIntent} (h : b.publishIntent changed stamps t intent = .ok t') :
    ∃ members, b.Members changed intent members ∧
      t'.ledger = members.foldl (fun l k => l.announce intent.channel k) t.ledger := by
  have hfold : ∀ {members : List RecordKey},
      members.foldlM (Backend.publishMember stamps intent.channel) t = .ok t' →
      t'.ledger = members.foldl (fun l k => l.announce intent.channel k) t.ledger :=
    List.foldlM_ok_map Tables.ledger fun _ _ _ hs => publishMember_ledger hs
  cases hr : intent.records with
  | none =>
    simp only [Backend.publishIntent, hr, Except.bind_eq_ok, Except.ok_bind] at h
    obtain ⟨-, -, h⟩ := h
    exact ⟨changed, by simp [Backend.Members, hr], hfold h⟩
  | some records =>
    simp only [Backend.publishIntent, hr, Except.bind_eq_ok, Except.map_eq_ok] at h
    obtain ⟨-, -, _, ⟨named, hnamed, rfl⟩, h⟩ := h
    obtain ⟨hnd, hmem⟩ := insertChanges_spec b named List.nodup_nil
    refine ⟨_, ?_, hfold h⟩
    simp only [Backend.Members, hr]
    exact ⟨named, hnamed, hnd, fun k => by rw [hmem]; simp⟩

theorem publishIntents_ledger {changed : List RecordKey} {stamps : Table RecordKey ℕ} :
    ∀ {publications : List PublicationIntent} {t : Tables D},
    b.publishIntents changed stamps publications t = .ok t' →
    ∃ announced, b.Announces changed publications announced ∧
      t'.ledger = announced.foldl (fun l p => l.announce p.1 p.2) t.ledger
  | [], t, h => by
    obtain rfl : t = t' := by simpa [Backend.publishIntents] using h
    exact ⟨[], rfl, rfl⟩
  | intent :: rest, t, h => by
    simp only [Backend.publishIntents, List.foldlM_cons, Except.bind_eq_ok] at h
    obtain ⟨t₁, hone, h⟩ := h
    obtain ⟨members, hmembers, hl₁⟩ := publishIntent_ledger hone
    obtain ⟨more, hmore, hl⟩ := publishIntents_ledger h
    refine ⟨_, ⟨members, more, hmembers, hmore, rfl⟩, ?_⟩
    rw [List.foldl_append, List.foldl_map, ← hl₁, hl]

/-- Stamping a change set and publishing at those stamps is a settlement of it. -/
theorem settlement_of {targets set : List RecordKey} {changes : List RecordRef}
    {publications : List PublicationIntent} {stamps : Table RecordKey ℕ} {t₁ t₂ : Tables D}
    (hset : b.changeSet targets changes = .ok set)
    (hstamps : Backend.allocateStamps set t = .ok (stamps, t₁)) (hread : t₂.ledger = t₁.ledger)
    (hpub : b.publishIntents set stamps publications t₂ = .ok t') :
    b.Settlement targets changes publications t.ledger t'.ledger := by
  obtain ⟨named, hnamed, hnd, hmem⟩ := changeSet_spec hset
  obtain ⟨announced, hann, hl⟩ := publishIntents_ledger hpub
  have heq : t'.ledger = t.ledger.settle set announced := by
    rw [hl, hread, allocateStamps_ledger hstamps, Ledger.settle]
  exact ⟨named, set, announced, hnamed, ⟨hnd, hmem⟩, hann, heq,
    heq ▸ Ledger.settle_settled announced hnd⟩

theorem callHandle_ledger {request : HandleRequest} {handled : Handled}
    (h : app.callHandle request t = .ok (handled, t')) : t'.ledger = t.ledger := by
  simp only [App.callHandle, Except.bind_eq_ok, Except.pure_eq_ok, Prod.mk.injEq] at h
  obtain ⟨_, -, _, -, -, rfl⟩ := h
  rfl

theorem callLoad_ledger {request : LoadRequest} {loaded : Loaded}
    (h : app.callLoad request t = .ok (loaded, t')) : t'.ledger = t.ledger := by
  simp only [App.callLoad, Except.bind_eq_ok, Except.pure_eq_ok, Prod.mk.injEq] at h
  obtain ⟨_, -, _, -, -, rfl⟩ := h
  rfl

/-- Loading counts nothing. -/
theorem loadGroups_ledger {owner : String} {versions : Models} {stamps : Table RecordKey ℕ} :
    ∀ {groups : List (String × List RecordKey)} {t : Tables D} {outcome : Outcome},
    b.loadGroups app owner versions stamps groups t = .ok (outcome, t') → t'.ledger = t.ledger
  | [], t, outcome, h => by
    simp only [Backend.loadGroups, Except.ok.injEq, Prod.mk.injEq] at h
    rw [h.2]
  | group :: groups, t, outcome, h => by
    simp only [Backend.loadGroups, Except.bind_eq_ok] at h
    obtain ⟨⟨one, t₁⟩, hone, h⟩ := h
    have h₁ : t₁.ledger = t.ledger := by
      simp only [Backend.loadGroup, Except.bind_eq_ok, required_eq_ok] at hone
      obtain ⟨_, -, ⟨loaded, t₂⟩, hload, hone⟩ := hone
      have h₂ := callLoad_ledger hload
      split at hone
      · simp only [Except.pure_eq_ok, Prod.mk.injEq] at hone
        rw [← hone.2, h₂]
      · simp only [Except.pure_eq_ok, Prod.mk.injEq] at hone
        rw [← hone.2, h₂]
      · split at hone
        all_goals
          simp only [Except.pure_eq_ok, Prod.mk.injEq] at hone
          rw [← hone.2, h₂]
    split at h
    · simp only [Except.pure_eq_ok, Prod.mk.injEq] at h
      rw [← h.2, h₁]
    · simp only [Except.bind_eq_ok, Except.pure_eq_ok, Prod.mk.injEq] at h
      obtain ⟨⟨rest, t₂⟩, hrest, -, heq⟩ := h
      have hrest : b.loadGroups app owner versions stamps groups t₁ = .ok (rest, t') := heq ▸ hrest
      rw [loadGroups_ledger hrest, h₁]

/-- A readback that is not refused settles its changes and publications. -/
theorem readBack_settles {declared : Models} {owner : String} {targets set : List RecordKey}
    {changes : List RecordRef} {publications : List PublicationIntent}
    {records : List AuthorityRecord} (hset : b.changeSet targets changes = .ok set)
    (h : b.readBack app declared owner set publications t = .ok (.ok records, t')) :
    b.Settlement targets changes publications t.ledger t'.ledger := by
  simp only [Backend.readBack, Except.bind_eq_ok] at h
  obtain ⟨versions, -, h⟩ := h
  split at h
  · simp [Except.pure_eq_ok] at h
  · simp only [Except.bind_eq_ok] at h
    obtain ⟨⟨stamps, t₁⟩, hstamps, ⟨outcome, t₂⟩, hload, h⟩ := h
    split at h
    · simp [Except.pure_eq_ok] at h
    · simp only [Except.bind_eq_ok, Except.pure_eq_ok, Prod.mk.injEq] at h
      obtain ⟨t₃, hpub, -, rfl⟩ := h
      exact settlement_of hset hstamps (loadGroups_ledger hload) hpub

/-- An answer that is not refused is a settlement. -/
theorem answer_settles {declared : Models} {owner : String} {targets : List RecordKey}
    {handled : Handled} {records : List AuthorityRecord}
    (h : b.answer app declared owner targets t handled = .ok (.ok records, t')) :
    ∃ changes publications, handled = .settled changes publications ∧
      b.Settlement targets changes publications t.ledger t'.ledger := by
  cases handled with
  | rejected rejection => simp [Backend.answer] at h
  | failed error => simp [Backend.answer] at h
  | settled changes publications =>
    simp only [Backend.answer, Except.bind_eq_ok] at h
    obtain ⟨set, hset, h⟩ := h
    exact ⟨changes, publications, rfl, readBack_settles hset h⟩

/-- Going back to the savepoint just opened, and leaving it. -/
theorem savepoint_rollback (db : Db D) (ordinal : ℕ) (t : Tables D) :
    { db.savepoint ordinal with tables := t }.rollback ordinal = .ok (db.savepoint ordinal) := by
  simp [Db.rollback, Db.savepoint]

theorem savepoint_release (db : Db D) (ordinal : ℕ) (t : Tables D) :
    { db.savepoint ordinal with tables := t }.release ordinal = .ok { db with tables := t } := by
  simp [Db.release, Db.savepoint]

/-- One mutation: rejected, it leaves the tables as they were; accepted, it settles what its handler
    answered. -/
theorem pushMutation_spec {declared : Models} {owner : String} {acc out : Batch × Db D}
    {m : RawMutation} (h : b.pushMutation app declared owner acc m = .ok out) :
    out.2.savepoints = acc.2.savepoints ∧
      ((out.2.tables = acc.2.tables ∧
        ∃ code, out.1.rejections = acc.1.rejections ++ [⟨m.ordinal, code⟩]) ∨
      (out.1.rejections = acc.1.rejections ∧ ∃ d args targets changes publications handled,
        b.accept m = .ok (d, args, targets) ∧
        app.callHandle ⟨d.name, d.version, args, owner, m.ordinal⟩ acc.2.tables =
          .ok (.settled changes publications, handled) ∧
        b.Settlement targets changes publications acc.2.tables.ledger out.2.tables.ledger)) := by
  simp only [Backend.pushMutation] at h
  split at h
  · rename_i code _
    cases h
    exact ⟨rfl, .inl ⟨rfl, code, rfl⟩⟩
  · rename_i d args targets haccept
    simp only [Except.bind_eq_ok] at h
    obtain ⟨⟨handled, t₁⟩, hhandle, ⟨outcome, t₂⟩, hanswer, h⟩ := h
    cases outcome with
    | error code =>
      have hrelease := savepoint_release acc.2 m.ordinal acc.2.tables
      simp only [savepoint_rollback, Except.ok_bind] at h
      rw [show acc.2.savepoint m.ordinal = { acc.2.savepoint m.ordinal with tables := acc.2.tables }
        from rfl, hrelease] at h
      cases h
      exact ⟨rfl, .inl ⟨rfl, code, rfl⟩⟩
    | ok records =>
      simp only [Except.bind_eq_ok, savepoint_release, Except.pure_eq_ok, Except.ok.injEq] at h
      obtain ⟨batch, hcollect, _, rfl, rfl⟩ := h
      obtain ⟨changes, publications, rfl, hsettle⟩ := answer_settles hanswer
      rw [callHandle_ledger hhandle] at hsettle
      have hbatch : batch.rejections = acc.1.rejections := by
        refine List.foldlM_ok_induction (fun s => s.rejections = acc.1.rejections)
          (fun s r s' _ hs hr => ?_) rfl hcollect
        simp only [Except.bind_eq_ok, Except.pure_eq_ok] at hr
        obtain ⟨_, -, rfl⟩ := hr
        exact hs
      exact ⟨rfl, .inr ⟨hbatch, d, args, targets, changes, publications, t₁, haccept, hhandle,
        hsettle⟩⟩

/-- A batch does to the tables what its mutations do in order. -/
theorem pushMutations_pushed {declared : Models} {owner : String} : ∀ {ms : List RawMutation}
    {acc out : Batch × Db D}, ms.foldlM (b.pushMutation app declared owner) acc = .ok out →
    out.2.savepoints = acc.2.savepoints ∧ ∃ rejections,
      out.1.rejections = acc.1.rejections ++ rejections ∧
        b.Pushed app owner ms rejections acc.2.tables out.2.tables
  | [], acc, out, h => by
    obtain rfl : acc = out := by simpa using h
    exact ⟨rfl, [], by simp, .done _⟩
  | m :: ms, acc, out, h => by
    simp only [List.foldlM_cons, Except.bind_eq_ok] at h
    obtain ⟨mid, hone, h⟩ := h
    obtain ⟨hsp, rejections, hrej, hpushed⟩ := pushMutations_pushed h
    obtain ⟨hsp₁, ⟨htables, code, hcode⟩ | ⟨hkept, d, args, targets, changes, publications,
      handled, haccept, hhandle, hsettle⟩⟩ := pushMutation_spec hone
    · refine ⟨hsp.trans hsp₁, ⟨m.ordinal, code⟩ :: rejections, ?_, ?_⟩
      · rw [hrej, hcode, List.append_assoc]; rfl
      · rw [htables] at hpushed
        exact .rejected hpushed
    · refine ⟨hsp.trans hsp₁, rejections, by rw [hrej, hkept], ?_⟩
      exact .accepted haccept hhandle hsettle hpushed

end Settlements

section Runs
variable {D : Type} {b : Backend} {app : App D} {t t' : Tables D}

theorem claim_ledger (owner clientId : String) : (t.claim owner clientId).2.ledger = t.ledger := by
  rw [Tables.claim]
  split <;> rfl

theorem saveReceipt_ledger {owner clientId : String} {sequence : ℕ} {receipt : PushReceipt}
    (h : t.saveReceipt owner clientId sequence receipt = .ok t') : t'.ledger = t.ledger := by
  simp only [Tables.saveReceipt, Except.bind_eq_ok, Except.pure_eq_ok] at h
  obtain ⟨_, -, _, -, rfl⟩ := h
  rfl

/-- A batch is either the last one again, and answered from storage, or run. -/
def Backend.Batched (b : Backend) (app : App D) (owner : String) (request : RawPushRequest)
    (receipt : PushReceipt) (t t' : Tables D) : Prop :=
  (t' = t ∧ ∃ row, t.clients.lookup request.clientId = some row ∧
      row.sequence = request.batchSequence ∧ row.receipt = some receipt) ∨
    ∃ ran, b.Pushed app owner request.mutations receipt.rejections
      (t.claim owner request.clientId).2 ran ∧ t'.ledger = ran.ledger

theorem processPush_batched {j : Json} {owner text : String} {db db' : Db D} {receipt : PushReceipt}
    (h : b.processPush app j owner text db = .ok (receipt, db')) :
    ∃ request, RawPushRequest.decode j text = .ok request ∧
      b.Batched app owner request receipt db.tables db'.tables := by
  simp only [Backend.processPush, Except.bind_eq_ok, Except.mapError_eq_ok] at h
  obtain ⟨-, -, request, hrequest, -, -, -, -, h⟩ := h
  refine ⟨request, hrequest, ?_⟩
  split at h
  · rename_i hseq
    simp only [Except.bind_eq_ok, required_eq_ok, Except.pure_eq_ok, Prod.mk.injEq] at h
    obtain ⟨receipt', hreceipt, rfl, rfl⟩ := h
    -- a client the claim has just inserted has no receipt
    rw [Tables.claim] at hseq hreceipt
    left
    cases hrow : db.tables.clients.lookup request.clientId with
    | none => simp [hrow] at hreceipt
    | some row =>
      simp only [hrow] at hseq hreceipt
      exact ⟨by simp [Tables.claim, hrow], row, rfl, hseq.symm, hreceipt⟩
  · simp only [Except.bind_eq_ok, ensure_eq_ok, Backend.runBatch, Except.mapError_eq_ok,
      Except.pure_eq_ok, Prod.mk.injEq] at h
    obtain ⟨-, -, -, -, ⟨batch, ran⟩, hran, _, -, tables, hsave, rfl, rfl⟩ := h
    obtain ⟨-, rejections, hrej, hpushed⟩ := pushMutations_pushed hran
    simp only [List.nil_append] at hrej
    right
    rw [← hrej] at hpushed
    exact ⟨ran.tables, hpushed, saveReceipt_ledger hsave⟩

/-- Settlements keep the accounts. -/
theorem settlement_accounted {targets : List RecordKey} {changes : List RecordRef}
    {publications : List PublicationIntent} {l l' : Ledger String RecordKey} (hl : l.Accounted)
    (h : b.Settlement targets changes publications l l') : l'.Accounted := by
  obtain ⟨_, changed, announced, -, -, -, rfl, -⟩ := h
  exact Ledger.accounted_settle hl changed announced

theorem pushed_accounted {owner : String} {ms : List RawMutation} {rejections : List Rejection}
    (h : b.Pushed app owner ms rejections t t') (ht : t.ledger.Accounted) : t'.ledger.Accounted := by
  induction h with
  | done t => exact ht
  | rejected _ ih => exact ih ht
  | accepted _ _ settled _ ih => exact ih (settlement_accounted ht settled)

theorem batched_accounted {owner : String} {request : RawPushRequest} {receipt : PushReceipt}
    (ht : t.ledger.Accounted) (h : b.Batched app owner request receipt t t') :
    t'.ledger.Accounted := by
  rcases h with ⟨rfl, -⟩ | ⟨ran, hpushed, hl⟩
  · exact ht
  · rw [hl]
    exact pushed_accounted hpushed (by rw [claim_ledger]; exact ht)

/-- An external settlement answers the stamps its records are left with. -/
def Backend.External (b : Backend) (settlement : Handled) (stamps : List (RecordKey × ℕ))
    (l l' : Ledger String RecordKey) : Prop :=
  ∃ changes publications, settlement = .settled changes publications ∧
    b.Settlement [] changes publications l l' ∧
    (∀ named, changes.mapM b.resolve = .ok named → ∀ k, k ∈ stamps.map Prod.fst ↔ k ∈ named) ∧
    ∀ entry ∈ stamps, l'.stamp entry.1 = some entry.2

theorem settleExternal_spec {settlement : Handled} {stamps : List (RecordKey × ℕ)}
    (h : b.settleExternal settlement t = .ok (stamps, t')) :
    b.External settlement stamps t.ledger t'.ledger := by
  simp only [Backend.settleExternal, Except.bind_eq_ok, Except.mapError_eq_ok] at h
  obtain ⟨-, -, h⟩ := h
  cases settlement with
  | rejected rejection => cases h
  | failed error => cases h
  | settled changes publications =>
    simp only [Except.bind_eq_ok, Except.pure_eq_ok, Prod.mk.injEq] at h
    obtain ⟨set, hset, ⟨table, t₁⟩, hstamps, t₂, hpub, rfl, rfl⟩ := h
    obtain ⟨named, hnamed, hnd, hmem⟩ := changeSet_spec hset
    refine ⟨changes, publications, rfl, settlement_of hset hstamps rfl hpub, ?_, ?_⟩
    · intro named' hnamed' k
      obtain rfl : named = named' := Except.ok.inj (hnamed.symm.trans hnamed')
      simp [Function.comp_def, hmem]
    · intro entry he
      obtain ⟨k, hk, rfl⟩ := List.mem_map.mp he
      obtain ⟨s, hs, hs'⟩ := (allocateStamps_lookup hnd hstamps).1 k hk
      obtain ⟨announced, -, hl⟩ := publishIntents_ledger hpub
      have hstamp : t₁.ledger.stamp k = some s := hs'
      rw [hl, Ledger.announces_stamp, hstamp]
      simp [hs]

/-- The accounts of every server hold. -/
theorem served_accounted (h : Served t) : t.ledger.Accounted := by
  induction h with
  | fresh content => exact ⟨nofun, nofun, nofun⟩
  | edited content _ ih => exact ih
  | pushed _ hp ih =>
    obtain ⟨request, -, hbatched⟩ := processPush_batched hp
    exact batched_accounted ih hbatched
  | settled _ hs ih =>
    obtain ⟨_, _, -, hsettled, -, -⟩ := settleExternal_spec hs
    exact settlement_accounted ih hsettled

/-- Stamps and publications are counted right: whatever the tables, a batch that succeeds does what its
    mutations do one after the other, a settlement does what it names, and both keep the accounts of
    the tables, which hold of every server. -/
theorem stamps_accounted {D : Type} (b : Backend) :
    (∀ (app : App D) (j : Json) (owner text : String) (db db' : Db D) (receipt : PushReceipt),
      b.processPush app j owner text db = .ok (receipt, db') →
      (∃ request, RawPushRequest.decode j text = .ok request ∧
        b.Batched app owner request receipt db.tables db'.tables) ∧
      (db.tables.ledger.Accounted → db'.tables.ledger.Accounted)) ∧
    (∀ (settlement : Handled) (t t' : Tables D) (stamps : List (RecordKey × ℕ)),
      b.settleExternal settlement t = .ok (stamps, t') →
      b.External settlement stamps t.ledger t'.ledger ∧
      (t.ledger.Accounted → t'.ledger.Accounted)) ∧
    ∀ t : Tables D, Served t → t.ledger.Accounted := by
  refine ⟨fun app j owner text db db' receipt h => ?_, fun settlement t t' stamps h => ?_,
    fun t => served_accounted⟩
  · obtain ⟨request, hrequest, hbatched⟩ := processPush_batched h
    exact ⟨⟨request, hrequest, hbatched⟩, fun ht => batched_accounted ht hbatched⟩
  · have hspec := settleExternal_spec h
    obtain ⟨_, _, -, hsettled, -, -⟩ := id hspec
    exact ⟨hspec, fun ht => settlement_accounted ht hsettled⟩

end Runs

namespace Sample

/-- One model, and one mutation that creates its records. -/
def shop : Backend where
  codecs := codecs
  config :=
    { schema := { models := [{ name := "Item", identity := ["id"],
                               fields := [⟨"id", .scalar .string, false, none⟩] }] }
      mutations := [⟨"CreateItem", 1, [{ name := "item", model := "Item", operation := .create,
                                         cardinality := .single }], none, .empty⟩]
      loaders := ["Item"]
      models := [⟨"Item", 1, ["id"], [⟨"id", .scalar .string, false, none⟩], []⟩] }
  decoded := ⟨{ schema := { models := [{ name := "Item", identity := ["id"],
                                         fields := [⟨"id", .scalar .string, false, none⟩] }] }
                mutations := [⟨"CreateItem", 1, [{ name := "item", model := "Item",
                                                   operation := .create, cardinality := .single }],
                  none, .empty⟩]
                loaders := ["Item"] }, by decide +kernel⟩

def stock (id : String) : RecordRef := ⟨"Item", .ofEntries [("id", .str id)]⟩

/-- Its handler names the created record once more and publishes it with another, twice. -/
def till : App Unit where
  handle _ content := .ok (.settled [stock "a"]
    [⟨"c", none⟩, ⟨"c", some [stock "b", stock "a", stock "b"]⟩], content)
  load request content := .ok (.rows (request.identities.map fun _ => none), content)

/-- A batch of one creation. -/
def sale : Value := .ofEntries [("clientId", .str "laptop"), ("batchSequence", .num 1),
  ("models", .ofEntries [("Item", .num 1)]),
  ("mutations", .arr [.ofEntries [("ordinal", .num 1), ("name", .str "CreateItem"),
    ("version", .num 1), ("operations", .arr [.ofEntries [("model", .str "Item"),
      ("op", .str "create"), ("identity", .ofEntries [("id", .str "a")]),
      ("values", .ofEntries [("id", .str "a")])]])]])]

def saleJson : Json where
  codecs := codecs
  parse text := ensure (text = canonicalJson codecs sale) "expected value" >>= fun _ => .ok sale

end Sample

section Sample
open Sample

/-- The sale stamps its record once, publishes three times and gives the other record its first
    stamp. -/
theorem stamps_accounted_sale : ∃ receipt db, shop.processPush till saleJson "ann"
    (saleJson.text sale) ⟨{ content := () }, []⟩ = .ok (receipt, db) ∧
    (∃ request, RawPushRequest.decode saleJson (saleJson.text sale) = .ok request ∧
      shop.Batched till "ann" request receipt { content := () } db.tables) ∧
    db.tables.head "c" = 3 ∧ db.tables.stamps.lookup ⟨"Item", .ofEntries [("id", .str "a")]⟩ = some 1 ∧
    db.tables.stamps.lookup ⟨"Item", .ofEntries [("id", .str "b")]⟩ = some 1 := by
  obtain ⟨⟨receipt, db⟩, h⟩ := Except.exists_ok (show (shop.processPush till saleJson "ann"
    (saleJson.text sale) ⟨{ content := () }, []⟩).isOk = true by decide +kernel)
  have hcounts : ((shop.processPush till saleJson "ann" (saleJson.text sale)
      ⟨{ content := () }, []⟩).toOption.map fun out => (out.2.tables.head "c",
        out.2.tables.stamps.lookup ⟨"Item", .ofEntries [("id", .str "a")]⟩,
        out.2.tables.stamps.lookup ⟨"Item", .ofEntries [("id", .str "b")]⟩)) =
      some (3, some 1, some 1) := by decide +kernel
  rw [h] at hcounts
  simp only [Except.toOption, Option.map_some, Option.some.injEq, Prod.mk.injEq] at hcounts
  exact ⟨receipt, db, h, ((stamps_accounted shop).1 till saleJson "ann" _ _ db receipt h).1,
    hcounts⟩

end Sample

end AheadSync
