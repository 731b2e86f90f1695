import AheadSync.Client.Calls
import AheadSync.Client.Cells
import Mathlib.Algebra.Order.BigOperators.Group.List
import AheadSync.Core.Encoded

/-! The work that is left behind (`count_direct` in `client/src/lib.rs`): the visible rows without a
    stamp or a queued operation. SQL makes the text of an identity out of the stored cells of its row,
    beside the canonical texts that stamps and operations are kept under. -/

namespace AheadSync
namespace LeftBehind

/-- How SQLite's JSON functions write texts and reals. -/
structure SqliteJson where
  quote : String → String
  real : ℚ → String

/-- A cell in JSON. -/
def SqliteJson.value (js : SqliteJson) : Option SqlValue → String
  | none => "null"
  | some (.integer n) => toString n
  | some (.real x) => js.real x
  | some (.text s) => js.quote s

section Count
variable (e : Engine) (q : RowCodec) (js : SqliteJson) (st : Store)

/-- The cell of a record's row in a column of its identity. -/
def identityCell (model : ModelDescriptor) (identity : Value) (n : String) : Option SqlValue :=
  (model.field n).bind fun f => q.cell f (datum f.valueType (identity.index n))

/-- The columns of the identity, sorted. -/
def sortedKeys (model : ModelDescriptor) : List String := model.identity.mergeSort (· ≤ ·)

/-- `json_object` of the identity of a row. -/
def jsonObject (model : ModelDescriptor) (identity : Value) : String :=
  "\x7b" ++ ",".intercalate ((sortedKeys model).map fun n =>
    js.quote n ++ ":" ++ js.value (identityCell q model identity n)) ++ "\x7d"

/-- The identities of a model in `ahead_record`. -/
def stampTexts (model : String) : List String :=
  (st.stamps.keys.filter (·.model = model)).map (canonicalJson e.codecs ·.identity)

/-- The identities of a model in `ahead_mutation_operation`. -/
def operationTexts (model : String) : List String :=
  ((st.queue.flatMap fun q => q.mutation.allOps.map (·.key)).filter (·.model = model)).map
    (canonicalJson e.codecs ·.identity)

/-- The records of a model with a visible row. -/
def visible (model : String) : List RecordKey :=
  (st.main.rows.map Prod.fst).filter (·.model = model)

/-- `count_direct`. -/
def countDirect : ℕ :=
  (e.schema.models.map fun model => (visible st model.name).countP fun key =>
    jsonObject q js model key.identity ∉ stampTexts e st model.name ∧
      jsonObject q js model key.identity ∉ operationTexts e st model.name).sum

/-- A record has a stamp, or an operation is queued for it. -/
def Confirmed (key : RecordKey) : Prop :=
  canonicalJson e.codecs key.identity ∈ stampTexts e st key.model ∨
    canonicalJson e.codecs key.identity ∈ operationTexts e st key.model

instance (key : RecordKey) : Decidable (Confirmed e st key) := inferInstanceAs (Decidable (_ ∨ _))

/-- The visible rows of records without a stamp and a queued operation. -/
def direct : ℕ :=
  (e.schema.models.map fun model => (visible st model.name).countP fun key => ¬Confirmed e st key).sum

/-- The records of a model that have a stamp or a queued operation. -/
def confirming (model : String) : List RecordKey :=
  (st.stamps.keys ++ st.queue.flatMap fun q => q.mutation.allOps.map (·.key)).filter (·.model = model)

end Count

/-- Names in the order of their UTF-16 code units. -/
def byUtf16 (names : List String) : List String :=
  ((names.map fun n => (n, "")).foldr insertByUtf16 []).map (·.1)

/-- SQLite writes the value of an identity field as canonical JSON writes another value of the field. -/
def WrittenAs (c : Codecs) (js : SqliteJson) : ValueType → Value → Value → Prop
  | .scalar .boolean, _, _ => False
  | .scalar .float, .num x, .num y => js.real x = c.jcs (.num y)
  | _, v, w => v = w

/-- SQLite writes the identity of a record of a model as the canonical identity of another. -/
def Written (c : Codecs) (js : SqliteJson) (model : ModelDescriptor) (v w : Value) : Prop :=
  byUtf16 (sortedKeys model) = sortedKeys model ∧ ∀ n ∈ model.identity, ∀ f, model.field n = some f →
    WrittenAs c js f.valueType (v.index n) (w.index n)

/-- SQLite writes the identities of a model as canonical JSON does, but for reals. -/
def WrittenAlike (model : ModelDescriptor) : Prop :=
  byUtf16 (sortedKeys model) = sortedKeys model ∧
    ∀ n ∈ model.identity, ∀ f, model.field n = some f → f.valueType ≠ .scalar .boolean

/-- SQLite writes the identity of a row as that of a record with a stamp or a queued operation. -/
def Taken (e : Engine) (js : SqliteJson) (st : Store) (model : ModelDescriptor) (key : RecordKey) : Prop :=
  ∃ k ∈ confirming st model.name, Written e.codecs js model key.identity k.identity

open scoped Classical in
/-- The confirmed rows whose identity SQLite writes as that of no such record. -/
noncomputable def missed (e : Engine) (js : SqliteJson) (st : Store) : ℕ :=
  (e.schema.models.map fun model => (visible st model.name).countP fun key =>
    Confirmed e st key ∧ ¬Taken e js st model key).sum

open scoped Classical in
/-- The other rows, whose identity SQLite writes as that of such a record. -/
noncomputable def mistaken (e : Engine) (js : SqliteJson) (st : Store) : ℕ :=
  (e.schema.models.map fun model => (visible st model.name).countP fun key =>
    ¬Confirmed e st key ∧ Taken e js st model key).sum

/-- SQLite writes strings as `serde_jcs` does, and a real without anything that ends a value;
    `serde_jcs` writes integers in decimal. -/
structure SqliteJson.Documented (js : SqliteJson) (c : Codecs) : Prop where
  label : ∀ s, js.quote s = c.quote s
  text : ∀ s, js.quote s = c.jcs (.str s)
  real : ∀ x, ∀ ch ∈ (js.real x).toList, ¬Stop ch
  int : ∀ n : ℤ, n.natAbs ≤ maxSafeInteger → c.jcs (.num n) = toString n

/-! ### The texts of an identity -/

section Texts
variable {c : Codecs} {q : RowCodec} {js : SqliteJson}

theorem insertByUtf16_map (text : String → String) (e : String × String) : ∀ es : List (String × String),
    (insertByUtf16 e es).map (fun e => (e.1, text e.1)) =
      insertByUtf16 (e.1, text e.1) (es.map fun e => (e.1, text e.1))
  | [] => rfl
  | f :: es => by
    rw [List.map_cons, insertByUtf16, insertByUtf16]
    split
    · rfl
    · rw [List.map_cons, insertByUtf16_map text e es]

/-- Entries are sorted by their names alone. -/
theorem sorted_entries (text : String → String) (names : List String) :
    (names.map fun n => (n, text n)).foldr insertByUtf16 [] =
      (byUtf16 names).map fun n => (n, text n) := by
  have h : ∀ names : List String, ((names.map fun n => (n, "")).foldr insertByUtf16 []).map
      (fun e => (e.1, text e.1)) = (names.map fun n => (n, text n)).foldr insertByUtf16 [] := by
    intro names
    induction names with
    | nil => rfl
    | cons n names ih => rw [List.map_cons, List.map_cons, List.foldr_cons, List.foldr_cons,
        insertByUtf16_map, ih]
  rw [← h, byUtf16, List.map_map]
  rfl

theorem length_byUtf16 (names : List String) : (byUtf16 names).length = names.length := by
  have h : ∀ (e : String × String) (es : List (String × String)),
      (insertByUtf16 e es).length = es.length + 1 := by
    intro e es
    induction es with
    | nil => rfl
    | cons f es ih =>
      rw [insertByUtf16]
      split
      · rfl
      · simp [ih]
  rw [byUtf16, List.length_map]
  induction names with
  | nil => rfl
  | cons n names ih => rw [List.map_cons, List.foldr_cons, h, ih, List.length_cons]

/-- What the cell of a normalized integer holds. -/
theorem cell_int {f : FieldDescriptor} (hf : f.valueType = .scalar .int) {v : Value} {n : ℚ}
    (h : scalar c .int v = .ok (.num n)) : (n.num : ℚ) = n ∧ n.num.natAbs ≤ maxSafeInteger ∧
      q.cell f (datum f.valueType (.num n)) = some (.integer n.num) := by
  have hint : n.den = 1 ∧ n.num.natAbs ≤ maxSafeInteger := by
    cases v <;> simp only [scalar, reduceCtorEq] at h
    split at h
    · rename_i hint
      obtain rfl := Value.num.inj (Except.ok.inj h)
      exact hint
    · cases h
  have h64 : -2 ^ 63 ≤ n.num ∧ n.num < 2 ^ 63 := by
    have := hint.2
    unfold maxSafeInteger at this
    omega
  refine ⟨(Rat.den_eq_one_iff _).mp hint.1, hint.2, ?_⟩
  simp only [RowCodec.cell, hf, datum, RowCodec.parameter, Datum.asI64, if_pos h64]
  rfl

/-- The text SQLite writes of a field and a canonical text of the field are told apart, and they are the
    same exactly when SQLite writes the one value as the other. -/
theorem text_scalar (ht : c.Tokens) (hd : js.Documented c) {f : FieldDescriptor} {ty : ScalarType}
    (hf : f.valueType = .scalar ty) {v w x y : Value} (h : scalar c ty v = .ok x)
    (h' : scalar c ty w = .ok y) :
    Tokens.Parted Stop (js.value (q.cell f (datum f.valueType x))).toList (canonicalJson c y).toList ∧
      (js.value (q.cell f (datum f.valueType x)) = canonicalJson c y ↔ WrittenAs c js f.valueType x y) := by
  -- a text is written as canonical JSON writes it
  have htext : ∀ s t, Tokens.Parted Stop (js.quote s).toList (c.jcs (.str t)).toList ∧
      (js.quote s = c.jcs (.str t) ↔ Value.str s = .str t) := by
    intro s t
    rw [hd.text]
    refine ⟨Tokens.parted_of_append fun x y h => ?_, fun h => ?_, fun h => by rw [h]⟩
    · have h' : c.jcs (.str s) ++ String.ofList x = c.jcs (.str t) ++ String.ofList y := by
        rw [← String.toList_inj]
        simpa using h
      obtain ⟨rfl, hxy⟩ := ht.str h'
      exact ⟨rfl, String.ofList_injective hxy⟩
    · exact congrArg Value.str (ht.str (s := s) (t := t) (x := "") (y := "") (by rw [h])).1
  have hfree : ∀ n : ℤ, n.natAbs ≤ maxSafeInteger → ∀ ch ∈ (toString n).toList, ¬Stop ch := by
    intro n hn
    rw [← hd.int n hn]
    exact ht.num _
  have hx := scalar_normal h
  have hy := scalar_normal h'
  cases hx <;> cases hy
  case string.string s t =>
    obtain ⟨_, _, _, _⟩ := f
    obtain rfl : _ = _ := hf
    exact htext s t
  case uuid.uuid s t =>
    obtain ⟨_, _, _, _⟩ := f
    obtain rfl : _ = _ := hf
    exact htext s t
  case dateTime.dateTime s t =>
    obtain ⟨_, _, _, _⟩ := f
    obtain rfl : _ = _ := hf
    exact htext s t
  case boolean.boolean b b' =>
    -- a digit, and a name
    obtain ⟨name, _, nullable, default⟩ := f
    obtain rfl : _ = _ := hf
    have hvalue : js.value (q.cell ⟨name, .scalar .boolean, nullable, default⟩
        (datum (.scalar .boolean) (.bool b))) = if b then "1" else "0" := by cases b <;> rfl
    simp only [canonicalJson, ht.bool, WrittenAs, iff_false]
    rw [hvalue]
    refine ⟨Tokens.parted_of_free ?_ ?_, ?_⟩
    · cases b <;> simp [Stop]
    · cases b' <;> simp [Stop]
    · cases b <;> cases b' <;> decide
  case int.int n hn m hm =>
    obtain ⟨hnum, hsafe, hcell⟩ := cell_int (q := q) hf h
    obtain ⟨hnum', hsafe', -⟩ := cell_int (q := q) hf h'
    rw [hcell, hf]
    have htext' : canonicalJson c (.num m) = toString m.num := by
      rw [canonicalJson, ← hnum', hd.int _ hsafe', Rat.num_intCast]
    rw [htext']
    refine ⟨Tokens.parted_of_free (hfree _ hsafe) (hfree _ hsafe'), fun heq => ?_, fun heq => ?_⟩
    · have hjcs : c.jcs (.num n) = c.jcs (.num m) := by
        rw [← hnum, ← hnum', hd.int _ hsafe, hd.int _ hsafe']
        exact heq
      exact congrArg Value.num (ht.num_inj hn hm hjcs)
    · obtain rfl := Value.num.inj heq
      rfl
  case float.float n hn m hm =>
    obtain ⟨_, _, _, _⟩ := f
    obtain rfl : _ = _ := hf
    exact ⟨Tokens.parted_of_free (hd.real n) (ht.num m), Iff.rfl⟩

/-- The names of an identity's entries. -/
theorem keys_identity {model : ModelDescriptor} (hnd : model.identity.Nodup) (g : String → Value) :
    (Value.ofEntries (model.identity.map fun n => (n, g n))).entries.map Prod.fst = sortedKeys model := by
  have hsorted : ((Value.ofEntries (model.identity.map fun n => (n, g n))).entries.map Prod.fst).Pairwise
      (· ≤ ·) :=
    (List.pairwise_map.mpr (Value.ordered_ofEntries _).2).imp le_of_lt
  have hperm : ((Value.ofEntries (model.identity.map fun n => (n, g n))).entries.map Prod.fst).Perm
      model.identity := by
    refine (List.perm_ext_iff_of_nodup (nodup_keys_ofEntries _) hnd).mpr fun n => ?_
    rw [mem_keys_ofEntries, List.map_map]
    simp [Function.comp_def]
  exact List.Perm.eq_of_pairwise (fun a b _ _ h h' => le_antisymm h h') hsorted
    (List.pairwise_mergeSort' (· ≤ ·) model.identity) (hperm.trans (List.mergeSort_perm _ _).symm)

/-- The canonical text of an identity, as the line of its entries. -/
theorem toList_canonical {model : ModelDescriptor} (hnd : model.identity.Nodup) {g : String → Value}
    {identity : Value} (hid : identity = .ofEntries (model.identity.map fun n => (n, g n))) :
    (canonicalJson c identity).toList = '\x7b' :: ([','].intercalate
      (((byUtf16 (sortedKeys model)).map fun n => (n, (canonicalJson c (g n)).toList)).map fun e =>
        (c.quote e.1 ++ ":").toList ++ e.2) ++ ['\x7d']) := by
  have hfields : canonicalFields c identity.entries =
      (sortedKeys model).map fun n => (n, canonicalJson c (g n)) := by
    rw [canonicalFields_eq_map, ← keys_identity hnd g, ← hid, List.map_map]
    refine List.map_congr_left fun e he => ?_
    rw [hid] at he
    obtain ⟨n, hn, rfl⟩ := List.mem_map.mp (Value.mem_entries_ofEntries he)
    rfl
  have hline := toList_canonical_object (c := c) identity.entries ""
  rw [hfields, sorted_entries (fun n => canonicalJson c (g n))] at hline
  have hobj : Value.obj identity.entries = identity := by rw [hid]; exact (Value.ofEntries_eq_obj _).symm
  rw [hobj, String.append_empty] at hline
  rw [hline]
  simp [Function.comp_def]

theorem toList_jsonObject (model : ModelDescriptor) (identity : Value) :
    (jsonObject q js model identity).toList = '\x7b' :: ([','].intercalate
      (((sortedKeys model).map fun n => (n, (js.value (identityCell q model identity n)).toList)).map fun e =>
        (js.quote e.1 ++ ":").toList ++ e.2) ++ ['\x7d']) := by
  simp [jsonObject, String.toList_intercalate, Function.comp_def]

/-- SQL makes the canonical text of a record's identity out of the row of a record exactly when SQLite
    writes the one identity as the other. -/
theorem jsonObject_iff {s : Schema} (hv : s.Valid) (ht : c.Tokens) (hd : js.Documented c)
    {model : ModelDescriptor} {name : String} (hm : s.model name = .ok model) {v w : Value}
    {key key' : RecordKey} (h : s.recordKey c name v = .ok key) (h' : s.recordKey c name w = .ok key') :
    jsonObject q js model key.identity = canonicalJson c key'.identity ↔
      Written c js model key.identity key'.identity := by
  have hnd := (hv.models _ (model_mem hm)).nodup
  obtain ⟨g, -, hid, hg⟩ := recordKey_field hv hm h
  obtain ⟨g', -, hid', hg'⟩ := recordKey_field hv hm h'
  have hindex : ∀ n ∈ model.identity, key.identity.index n = g n ∧ key'.identity.index n = g' n :=
    fun n hn => by
      rw [hid, hid', Value.index, Value.index, get_ofEntries_map hn, get_ofEntries_map hn]
      exact ⟨rfl, rfl⟩
  -- the two texts of a field
  have hfield : ∀ n ∈ model.identity, ∃ f, model.field n = some f ∧
      Tokens.Parted Stop (js.value (identityCell q model key.identity n)).toList
        (canonicalJson c (g' n)).toList ∧
      (js.value (identityCell q model key.identity n) = canonicalJson c (g' n) ↔
        WrittenAs c js f.valueType (key.identity.index n) (key'.identity.index n)) := by
    intro n hn
    obtain ⟨f, hf, -⟩ := (hv.models _ (model_mem hm)).identity n hn
    obtain ⟨ty, x, hty, -, hx⟩ := hg n hn f hf
    obtain ⟨ty', y, hty', -, hy⟩ := hg' n hn f hf
    obtain rfl : ty = ty' := by simpa using hty.symm.trans hty'
    refine ⟨f, hf, ?_⟩
    rw [identityCell, hf, Option.bind_some, (hindex n hn).1, (hindex n hn).2]
    exact text_scalar ht hd hty hx hy
  have hmem : ∀ n, n ∈ sortedKeys model ↔ n ∈ model.identity := fun n => List.mem_mergeSort
  constructor
  · intro heq
    have hline := congrArg String.toList heq
    rw [toList_jsonObject, toList_canonical hnd hid'] at hline
    simp only [hd.label] at hline
    have hhead : ∀ {k l : String} {x y : List Char}, (c.quote k ++ ":").toList ++ x =
        (c.quote l ++ ":").toList ++ y → k = l ∧ x = y := by
      intro k l x y h
      have h' : c.jcs (.str k) ++ (":" ++ String.ofList x) = c.jcs (.str l) ++ (":" ++ String.ofList y) := by
        rw [← String.toList_inj, ← hd.text, ← hd.text, hd.label, hd.label]
        simpa using h
      obtain ⟨rfl, hrest⟩ := ht.str h'
      exact ⟨rfl, String.ofList_injective ((String.append_right_inj _).mp hrest)⟩
    have hsame := Tokens.intercalate_heads hhead (show Stop ',' from Or.inl rfl)
      (by simp [length_byUtf16]) (fun e he f hf hkey => by
        obtain ⟨n, hn, rfl⟩ := List.mem_map.mp he
        obtain ⟨n', hn', rfl⟩ := List.mem_map.mp hf
        obtain rfl : n = n' := hkey
        obtain ⟨_, -, hparted, -⟩ := hfield n ((hmem n).mp hn)
        exact hparted) (show Stop '\x7d' from Or.inr rfl) (show Stop '\x7d' from Or.inr rfl)
      (List.cons.inj hline).2
    have hkeys := congrArg (List.map Prod.fst) hsame
    simp only [List.map_map, Function.comp_def, List.map_id'] at hkeys
    refine ⟨hkeys.symm, fun n hn f hf => ?_⟩
    rw [← hkeys] at hsame
    obtain ⟨f', hf', -, hiff⟩ := hfield n hn
    obtain rfl : f = f' := Option.some.inj (hf.symm.trans hf')
    refine hiff.mp (String.toList_inj.mp ?_)
    exact (Prod.mk.inj (List.map_inj_left.mp hsame n ((hmem n).mpr hn))).2
  · rintro ⟨hkeys, hall⟩
    rw [← String.toList_inj, toList_jsonObject, toList_canonical hnd hid', hkeys]
    simp only [hd.label]
    congr 4
    refine List.map_congr_left fun n hn => ?_
    obtain ⟨f, hf, -, hiff⟩ := hfield n ((hmem n).mp hn)
    rw [hiff.mpr (hall n ((hmem n).mp hn) f hf)]

end Texts

/-! ### The counts -/

section Counts
variable {e : Engine} {q : RowCodec} {js : SqliteJson} {st : Store}

theorem countP_balance {α : Type} (f g : α → Prop) [DecidablePred f] [DecidablePred g] : ∀ l : List α,
    (l.countP fun a => ¬g a) + (l.countP fun a => ¬f a ∧ g a) =
      (l.countP fun a => ¬f a) + l.countP fun a => f a ∧ ¬g a
  | [] => rfl
  | a :: l => by
    have ih := countP_balance f g l
    simp only [Bool.decide_and, decide_not] at ih ⊢
    simp only [List.countP_cons]
    by_cases hf : f a <;> by_cases hg : g a <;> simp [hf, hg] <;> omega

/-- A store all of whose visible rows, stamps and operations are kept under keys of records. -/
structure AllNamed (e : Engine) (st : Store) : Prop where
  main : ∀ k ∈ st.main, Named e k
  stamps : ∀ k ∈ st.stamps, Named e k
  ops : ∀ q ∈ st.queue, ∀ op ∈ q.mutation.allOps, Named e op.key

/-- A write of the engine stamps records under their keys. -/
theorem within_named (e : Engine) : Within e fun st st' => ∀ k, k ∈ st'.stamps → k ∈ st.stamps ∨ Named e k where
  refl _ := fun _ h => .inl h
  trans h h' := fun k hk => (h' k hk).elim (h k) .inr
  main := by
    intro st st' key row h
    cases row with
    | none => obtain ⟨-, rfl⟩ := mainSet_none_eq_ok.mp h; exact fun _ h => .inl h
    | some row => obtain ⟨_, -, -, -, rfl⟩ := mainSet_some_eq_ok.mp h; exact fun _ h => .inl h
  before := by
    intro st st' key row h
    cases row with
    | none => obtain ⟨-, rfl⟩ := beforeSet_none_eq_ok.mp h; exact fun _ h => .inl h
    | some row => obtain ⟨_, -, -, rfl⟩ := beforeSet_some_eq_ok.mp h; exact fun _ h => .inl h
  aside st key := by
    unfold Store.copyAside
    split <;> exact fun _ h => .inl h
  mark st n := by
    rw [mark_stamps]
    exact fun _ h => .inl h
  effect := by
    intro st st' n op h
    simp only [Engine.addEffect, Except.bind_eq_ok, Except.pure_eq_ok] at h
    obtain ⟨op', -, rfl⟩ := h
    exact fun _ h => .inl h
  stamp st {key} stamp hkey := by
    intro k hk
    by_cases h : k = key
    · exact .inr (h ▸ hkey)
    · exact .inl ((AList.mem_insert _).mp hk |>.resolve_left h)
  subscriptions _ _ := fun _ h => .inl h

theorem allNamed_reaches {c : Client} (h : Host.Reaches e c) : AllNamed e c.store where
  main k hk := by
    obtain ⟨row, hrow⟩ := AList.lookup_isSome.mpr hk |> Option.isSome_iff_exists.mp
    exact ((primed_reaches h).wf.main k row hrow).1
  stamps := by
    refine reaches_induction (fun c => ∀ k ∈ c.store.stamps, Named e k) (fun clientId k hk => ?_)
      (fun c call hk hc => ?_) h
    · simp [Client.opened] at hk
    · obtain ⟨c', hstep, hstamps⟩ := (within_named e).call
        (fun _ _ hs k hk => .inl (hs ▸ hk)) c call hk
      exact ⟨c', hstep, fun k hk => (hstamps k hk).elim (hc k) id⟩
  ops q hq op hop := named_of_canonical (opOk_canonical ((primed_reaches h).wf.ops q hq op hop))

theorem texts_confirming {model text : String} :
    (text ∈ stampTexts e st model ∨ text ∈ operationTexts e st model) ↔
      ∃ k ∈ confirming st model, canonicalJson e.codecs k.identity = text := by
  simp only [stampTexts, operationTexts, confirming, List.filter_append, List.mem_append, List.mem_map,
    or_and_right, exists_or]

theorem named_confirming (h : AllNamed e st) {model : String} {k : RecordKey}
    (hk : k ∈ confirming st model) : k.model = model ∧ Named e k := by
  obtain ⟨hmem, hmodel⟩ := List.mem_filter.mp hk
  refine ⟨by simpa using hmodel, ?_⟩
  rcases List.mem_append.mp hmem with hs | hop
  · exact h.stamps k (AList.mem_keys.mpr hs)
  · obtain ⟨q, hq, hop⟩ := List.mem_flatMap.mp hop
    obtain ⟨op, hmem', rfl⟩ := List.mem_map.mp hop
    exact h.ops q hq op hmem'

theorem named_visible (h : AllNamed e st) {model : String} {k : RecordKey} (hk : k ∈ visible st model) :
    k.model = model ∧ Named e k := by
  obtain ⟨hmem, hmodel⟩ := List.mem_filter.mp hk
  obtain ⟨⟨_, row⟩, hrow, rfl⟩ := List.mem_map.mp hmem
  exact ⟨by simpa using hmodel, h.main _ (AList.lookup_isSome.mp (by rw [AList.mem_rows.mp hrow]; rfl))⟩

/-- SQL finds a stamp or an operation for a row exactly when the row is taken for a confirmed one. -/
theorem found_iff (ht : e.codecs.Tokens) (hd : js.Documented e.codecs) (h : AllNamed e st)
    {model : ModelDescriptor} (hm : model ∈ e.schema.models) {key : RecordKey}
    (hk : key ∈ visible st model.name) :
    (jsonObject q js model key.identity ∈ stampTexts e st model.name ∨
      jsonObject q js model key.identity ∈ operationTexts e st model.name) ↔ Taken e js st model key := by
  have hv := Schema.validate_eq_ok.mp e.valid
  have hmodel := hv.model_of_mem hm
  obtain ⟨hname, v, hv'⟩ := named_visible h hk
  rw [texts_confirming]
  refine exists_congr fun k => and_congr_right fun hmem => ?_
  obtain ⟨hname', w, hw⟩ := named_confirming h hmem
  rw [eq_comm, jsonObject_iff hv ht hd hmodel (hname ▸ hv') (hname' ▸ hw)]

/-- What is counted too much is missed, and what is not counted is mistaken. -/
theorem count_balance (ht : e.codecs.Tokens) (hd : js.Documented e.codecs) (h : AllNamed e st) :
    countDirect e q js st + mistaken e js st = direct e st + missed e js st := by
  classical
  have hmodel : ∀ model ∈ e.schema.models, ((visible st model.name).countP fun key =>
      jsonObject q js model key.identity ∉ stampTexts e st model.name ∧
        jsonObject q js model key.identity ∉ operationTexts e st model.name) =
      (visible st model.name).countP fun key => ¬Taken e js st model key := fun model hm =>
    List.countP_congr fun key hk => by
      rw [decide_eq_true_iff, decide_eq_true_iff, ← not_or, found_iff ht hd h hm hk]
  unfold countDirect mistaken direct missed
  rw [List.map_congr_left hmodel]
  induction e.schema.models with
  | nil => rfl
  | cons model models ih =>
    have hbalance := countP_balance (Confirmed e st) (Taken e js st model) (visible st model.name)
    simp only [List.map_cons, List.sum_cons]
    omega

/-- Two identities without a real are written alike when they are one and their model is written alike. -/
theorem written_iff {s : Schema} {c : Codecs} (hv : s.Valid) {model : ModelDescriptor}
    (hm : s.model model.name = .ok model)
    (hreal : ∀ n ∈ model.identity, ∀ f, model.field n = some f → f.valueType ≠ .scalar .float)
    {v w : Value} {key key' : RecordKey} (h : s.recordKey c model.name v = .ok key)
    (h' : s.recordKey c model.name w = .ok key') :
    Written c js model key.identity key'.identity ↔
      WrittenAlike model ∧ key.identity = key'.identity := by
  have has : ∀ n ∈ model.identity, ∀ f, model.field n = some f → ∀ x y,
      WrittenAs c js f.valueType x y ↔ f.valueType ≠ .scalar .boolean ∧ x = y := by
    intro n hn f hf x y
    have hfloat := hreal n hn f hf
    unfold WrittenAs
    split
    · rename_i hb
      simp [hb]
    · rename_i hr
      exact absurd hr hfloat
    · rename_i hb _
      exact ⟨fun heq => ⟨hb, heq⟩, And.right⟩
  constructor
  · rintro ⟨hkeys, hall⟩
    refine ⟨⟨hkeys, fun n hn f hf => ((has n hn f hf _ _).mp (hall n hn f hf)).1⟩, ?_⟩
    obtain ⟨g, -, hid, -⟩ := recordKey_field hv hm h
    obtain ⟨g', -, hid', -⟩ := recordKey_field hv hm h'
    have hsame : ∀ n ∈ model.identity, g n = g' n := fun n hn => by
      obtain ⟨f, hf, -⟩ := (hv.models _ (model_mem hm)).identity n hn
      have heq := ((has n hn f hf _ _).mp (hall n hn f hf)).2
      rwa [hid, hid', Value.index, Value.index, get_ofEntries_map hn, get_ofEntries_map hn] at heq
    rw [hid, hid', List.map_congr_left fun n hn => by rw [hsame n hn]]
  · rintro ⟨⟨hkeys, hbool⟩, heq⟩
    exact ⟨hkeys, fun n hn f hf => (has n hn f hf _ _).mpr ⟨hbool n hn f hf, by rw [heq]⟩⟩

/-- Without a real in an identity, a row is taken for a confirmed one exactly when it is one and its
    model is written alike. -/
theorem taken_iff (ht : e.codecs.Tokens) (h : AllNamed e st) {model : ModelDescriptor}
    (hm : model ∈ e.schema.models)
    (hreal : ∀ n ∈ model.identity, ∀ f, model.field n = some f → f.valueType ≠ .scalar .float)
    {key : RecordKey} (hk : key ∈ visible st model.name) :
    Taken e js st model key ↔ WrittenAlike model ∧ Confirmed e st key := by
  have hv := Schema.validate_eq_ok.mp e.valid
  have hmodel := hv.model_of_mem hm
  obtain ⟨hname, v, hv'⟩ := named_visible h hk
  rw [Confirmed, texts_confirming, hname, ← exists_and_left]
  refine exists_congr fun k => ?_
  rw [and_left_comm]
  refine and_congr_right fun hmem => ?_
  obtain ⟨hname', w, hw⟩ := named_confirming h hmem
  rw [written_iff hv hmodel hreal (hname ▸ hv') (hname' ▸ hw)]
  refine and_congr_right fun _ => ⟨fun heq => by rw [heq], fun heq => ?_⟩
  have hsame : k = key := encoded_inj hv ht hw hv' (by rw [encoded_eq, encoded_eq, heq, hname, hname'])
  rw [hsame]

/-- The work that is left behind. On a store that keeps everything under keys of records, as every store
    does that calls of the host reach, SQL counts the visible rows without a stamp and a queued operation
    exactly when it misses as many confirmed rows as it mistakes others for confirmed ones. Without
    reals in identities that is exactly when every confirmed row belongs to a model that is written
    alike. -/
theorem count_direct_exact (e : Engine) (q : RowCodec) (js : SqliteJson) (ht : e.codecs.Tokens)
    (hd : js.Documented e.codecs) : (∀ c, Host.Reaches e c → AllNamed e c.store) ∧
    ∀ st, AllNamed e st →
      (countDirect e q js st = direct e st ↔ missed e js st = mistaken e js st) ∧
      ((∀ model ∈ e.schema.models, ∀ n ∈ model.identity, ∀ f, model.field n = some f →
          f.valueType ≠ .scalar .float) →
        (countDirect e q js st = direct e st ↔ ∀ model ∈ e.schema.models,
          ∀ key ∈ visible st model.name, Confirmed e st key → WrittenAlike model)) := by
  refine ⟨fun c hc => allNamed_reaches hc, fun st h => ?_⟩
  have hbalance := count_balance (q := q) ht hd h
  have hexact : countDirect e q js st = direct e st ↔ missed e js st = mistaken e js st := by omega
  refine ⟨hexact, fun hreal => hexact.trans ?_⟩
  classical
  have hmistaken : mistaken e js st = 0 := by
    refine List.sum_eq_zero fun n hn => ?_
    obtain ⟨model, hm, rfl⟩ := List.mem_map.mp hn
    refine List.countP_eq_zero.mpr fun key hk => ?_
    rw [decide_eq_true_iff, taken_iff ht h hm (hreal model hm) hk]
    exact fun hno => hno.1 hno.2.2
  rw [hmistaken, missed, List.sum_eq_zero_iff]
  simp only [List.forall_mem_map, List.countP_eq_zero, decide_eq_true_iff]
  refine forall₂_congr fun model hm => forall₂_congr fun key hk => ?_
  rw [taken_iff ht h hm (hreal model hm) hk]
  tauto

end Counts

namespace Sample
open AheadSync.Sample

/-- Values as they are; SQLite prints no list and turns no text into a number here. -/
def bound : RowCodec where
  codecs := timed
  sqlite := ⟨fun _ => "", fun _ => none⟩
  json := ⟨fun _ => "", fun _ => .error ""⟩

/-- Quoted strings, and integers for reals. -/
def printed : SqliteJson := ⟨quoted, fun x => toString x.num⟩

theorem printed_documented : printed.Documented timed where
  label _ := rfl
  text _ := rfl
  real x := timed_tokens.num x
  int n _ := by simp [timed]

def agenda : Engine := ⟨timed, calendar, by decide +kernel⟩

/-- One event comes from the server, and one is written directly. -/
def planned : List HostCall :=
  [.call (.setChannels [("c", true)]),
    .call (.applyPage (page "c" 0 1 [
      { model := "Event", identity := eventAt "9999-12-31T23:59:59-01:00", stamp := 1, state := .obj [] }])),
    .transaction [.direct { op := .create, model := "Event"
                            identity := eventAt "2024-05-01T14:00:00+02:00", values := some (.obj []) }] true]

def agendaClient : Client := (Machine.run Host.step ⟨agenda, .opened "me"⟩ planned).client

/-- Switches, which are known by their position. -/
def switches : Engine where
  codecs := timed
  schema := {
    models := [
      { name := "Switch", identity := ["on"]
        fields := [⟨"on", .scalar .boolean, false, none⟩, ⟨"label", .scalar .string, true, none⟩] }] }
  valid := by decide +kernel

def switched : List HostCall :=
  [.call (.setChannels [("c", true)]),
    .call (.applyPage (page "c" 0 1 [
      { model := "Switch", identity := .obj [("on", .bool true)], stamp := 1, state := .obj [] }]))]

def switchedClient : Client := (Machine.run Host.step ⟨switches, .opened "me"⟩ switched).client

end Sample

section Sample
open AheadSync.Sample LeftBehind.Sample

/-- The event that was written directly is counted. -/
theorem count_direct_agenda : countDirect agenda bound printed agendaClient.store = 1 := by
  have hreaches : Host.Reaches agenda agendaClient := ⟨"me", planned, by decide, rfl⟩
  obtain ⟨hnamed, hexact⟩ := count_direct_exact agenda bound printed timed_tokens printed_documented
  refine (((hexact _ (hnamed _ hreaches)).2 ?_).mpr ?_).trans (by decide +kernel)
  all_goals
    intro model hm
    obtain rfl := List.mem_singleton.mp hm
  · intro n hn f hf
    obtain rfl := List.mem_singleton.mp hn
    obtain rfl := Option.some.inj hf
    decide
  · refine fun _ _ _ => ⟨by decide +kernel, fun n hn f hf => ?_⟩
    obtain rfl := List.mem_singleton.mp hn
    obtain rfl := Option.some.inj hf
    decide

/-- A switch that comes from the server is counted as work that is left behind. -/
theorem not_count_direct_exact : ¬∀ (e : Engine) (q : RowCodec) (js : SqliteJson), e.codecs.Tokens →
    js.Documented e.codecs → ∀ c, Host.Reaches e c → countDirect e q js c.store = direct e c.store := by
  intro hall
  have hcount := hall switches bound printed timed_tokens printed_documented switchedClient
    ⟨"me", switched, by decide, rfl⟩
  have hone : countDirect switches bound printed switchedClient.store = 1 := by decide +kernel
  have hnone : direct switches switchedClient.store = 0 := by decide +kernel
  rw [hone, hnone] at hcount
  cases hcount

end Sample

end LeftBehind
end AheadSync
