import AheadSync.Core.Canonical

/-! The encoded key of a record: two accepted identities have one key exactly when they name one model
    and denote equal values field by field. -/

namespace AheadSync

variable {c : Codecs} {s : Schema}

/-- What ends a value inside an object. -/
def Stop (ch : Char) : Prop := ch = ',' ∨ ch = '\x7d'

/-- How `serde_jcs` writes scalars: a string ends by itself, a boolean is its name, a number has nothing
    in it that ends a value, and different doubles are written differently. -/
structure Codecs.Tokens (c : Codecs) : Prop where
  str : ∀ {s t x y : String}, c.jcs (.str s) ++ x = c.jcs (.str t) ++ y → s = t ∧ x = y
  bool : ∀ b, c.jcs (.bool b) = if b then "true" else "false"
  num : ∀ n, ∀ ch ∈ (c.jcs (.num n)).toList, ¬Stop ch
  num_inj : ∀ {n m}, c.f64 n = n → c.f64 m = m → c.jcs (.num n) = c.jcs (.num m) → n = m

/-- Two inputs of a scalar type denote the same value. -/
def Zoned.Same (z : Zoned c) : ScalarType → Value → Value → Prop
  | .int, .num n, .num m => c.f64 n = c.f64 m
  | .float, .num n, .num m => c.f64 n = c.f64 m
  | .uuid, .str s, .str t => c.uuid s = c.uuid t
  | .dateTime, .str s, .str t => z.parse s = z.parse t
  | _, v, w => v = w

/-- Two identities of a model denote equal values field by field. -/
def Zoned.SameIdentity (z : Zoned c) (model : ModelDescriptor) (v w : Value) : Prop :=
  ∀ n ∈ model.identity, ∃ f ty x y, model.field n = some f ∧ f.valueType = .scalar ty ∧
    v.get n = some x ∧ w.get n = some y ∧ z.Same ty x y

/-- A normalized scalar is a string, a boolean or a double. -/
inductive NormalScalar (c : Codecs) : ScalarType → Value → Prop
  | string (s : String) : NormalScalar c .string (.str s)
  | boolean (b : Bool) : NormalScalar c .boolean (.bool b)
  | int (n : ℚ) (h : c.f64 n = n) : NormalScalar c .int (.num n)
  | float (n : ℚ) (h : c.f64 n = n) : NormalScalar c .float (.num n)
  | uuid (s : String) : NormalScalar c .uuid (.str s)
  | dateTime (s : String) : NormalScalar c .dateTime (.str s)

theorem scalar_normal {ty : ScalarType} {v w : Value} (h : scalar c ty v = .ok w) :
    NormalScalar c ty w := by
  unfold scalar at h
  split at h
  · obtain rfl := Except.ok.inj h
    exact .string _
  · obtain rfl := Except.ok.inj h
    exact .boolean _
  · simp only at h
    split at h
    · obtain rfl := Except.ok.inj h
      exact .int _ (c.f64_stable _)
    · cases h
  · cases h
  · obtain rfl := Except.ok.inj h
    exact .float _ (c.f64_stable _)
  · cases h
  · split at h
    · cases h
    · split at h
      · obtain rfl := Except.ok.inj h
        exact .uuid _
      · cases h
  · cases h
  · split at h
    · cases h
    · split at h
      · cases h
      · obtain rfl := Except.ok.inj h
        exact .dateTime _
  · cases h
  · cases h

/-- The texts of scalars of one type are told apart inside an object. -/
theorem parted_normal (ht : c.Tokens) {ty : ScalarType} {v w : Value} (hv : NormalScalar c ty v)
    (hw : NormalScalar c ty w) :
    Tokens.Parted Stop (canonicalJson c v).toList (canonicalJson c w).toList := by
  have hstr : ∀ s t, Tokens.Parted Stop (c.jcs (.str s)).toList (c.jcs (.str t)).toList := by
    intro s t
    refine Tokens.parted_of_append fun x y h => ?_
    have h' : c.jcs (.str s) ++ String.ofList x = c.jcs (.str t) ++ String.ofList y := by
      rw [← String.toList_inj]
      simpa using h
    obtain ⟨rfl, hxy⟩ := ht.str h'
    exact ⟨rfl, String.ofList_injective hxy⟩
  have hbool : ∀ b, ∀ ch ∈ (c.jcs (.bool b)).toList, ¬Stop ch := by
    intro b
    rw [ht.bool]
    cases b <;> simp [Stop]
  cases hv <;> cases hw <;> simp only [canonicalJson]
  · exact hstr _ _
  · exact Tokens.parted_of_free (hbool _) (hbool _)
  · exact Tokens.parted_of_free (ht.num _) (ht.num _)
  · exact Tokens.parted_of_free (ht.num _) (ht.num _)
  · exact hstr _ _
  · exact hstr _ _

/-- Scalars of one type with one text are equal. -/
theorem normal_inj (ht : c.Tokens) {ty : ScalarType} {v w : Value} (hv : NormalScalar c ty v)
    (hw : NormalScalar c ty w) (h : canonicalJson c v = canonicalJson c w) : v = w := by
  have hstr : ∀ s t, c.jcs (.str s) = c.jcs (.str t) → s = t := fun s t h =>
    (ht.str (x := "") (y := "") (by rw [h])).1
  cases hv <;> cases hw <;> simp only [canonicalJson] at h
  · rw [hstr _ _ h]
  · rename_i b b'
    rw [ht.bool, ht.bool] at h
    cases b <;> cases b' <;> simp at h ⊢
  · rename_i hn m hm
    rw [ht.num_inj hn hm h]
  · rename_i hn m hm
    rw [ht.num_inj hn hm h]
  · rw [hstr _ _ h]
  · rw [hstr _ _ h]

theorem canonicalFields_eq_map (c : Codecs) : ∀ fs : List (String × Value),
    canonicalFields c fs = fs.map fun e => (e.1, canonicalJson c e.2)
  | [] => rfl
  | (k, v) :: fs => by rw [canonicalFields, canonicalFields_eq_map c fs, List.map_cons]

/-- Two lists of entries with the same keys, whose values are related. -/
def Keyed {α β : Type} (R : α → β → Prop) : List (String × α) → List (String × β) → Prop :=
  List.Forall₂ fun e f => e.1 = f.1 ∧ R e.2 f.2

theorem insertByUtf16_keyed {R : String → String → Prop} {e f : String × String}
    (hef : e.1 = f.1 ∧ R e.2 f.2) {es fs : List (String × String)} (h : Keyed R es fs) :
    Keyed R (insertByUtf16 e es) (insertByUtf16 f fs) := by
  induction h with
  | nil => exact .cons hef .nil
  | cons h hrest ih =>
    rw [insertByUtf16, insertByUtf16, hef.1, h.1]
    split
    · exact .cons hef (.cons h hrest)
    · exact .cons h ih

theorem sorted_keyed {R : String → String → Prop} {es fs : List (String × String)}
    (h : Keyed R es fs) : Keyed R (es.foldr insertByUtf16 []) (fs.foldr insertByUtf16 []) := by
  induction h with
  | nil => exact .nil
  | cons h _ ih => exact insertByUtf16_keyed h ih

theorem mem_insertByUtf16 {e f : String × String} : ∀ {es : List (String × String)},
    f ∈ insertByUtf16 e es ↔ f = e ∨ f ∈ es
  | [] => by simp [insertByUtf16]
  | g :: es => by
    rw [insertByUtf16]
    split
    · exact List.mem_cons
    · rw [List.mem_cons, mem_insertByUtf16, List.mem_cons]
      tauto

theorem mem_sorted {f : String × String} : ∀ {es : List (String × String)},
    f ∈ es.foldr insertByUtf16 [] ↔ f ∈ es
  | [] => Iff.rfl
  | e :: es => by rw [List.foldr_cons, mem_insertByUtf16, mem_sorted, List.mem_cons]

theorem insertEntry_keyed {R : Value → Value → Prop} {k : String} {v w : Value} (hvw : R v w)
    {es fs : List (String × Value)} (h : Keyed R es fs) :
    Keyed R (insertEntry k v es) (insertEntry k w fs) := by
  induction h with
  | nil => exact .cons ⟨rfl, hvw⟩ .nil
  | @cons e f es fs h hrest ih =>
    obtain ⟨l, a⟩ := e
    obtain ⟨l', b⟩ := f
    obtain ⟨rfl, hab⟩ : l = l' ∧ R a b := h
    rw [insertEntry, insertEntry]
    split
    · exact .cons ⟨rfl, hvw⟩ hrest
    · split
      · exact .cons ⟨rfl, hvw⟩ (.cons ⟨rfl, hab⟩ hrest)
      · exact .cons ⟨rfl, hab⟩ ih

/-- Objects built from the same keys list them alike. -/
theorem ofEntries_keyed {R : Value → Value → Prop} {fs gs : List (String × Value)}
    (h : Keyed R fs gs) : Keyed R (Value.ofEntries fs).entries (Value.ofEntries gs).entries := by
  suffices hall : ∀ o o' : Value, Keyed R o.entries o'.entries →
      Keyed R (o.setAll fs).entries (o'.setAll gs).entries from hall _ _ .nil
  induction h with
  | nil => exact fun _ _ ho => ho
  | @cons e f es fs hef _ ih =>
    intro o o' ho
    refine ih (o.set e.1 e.2) (o'.set f.1 f.2) ?_
    rw [hef.1]
    exact insertEntry_keyed hef.2 ho

/-- Entries with the same keys and the same texts are the same. -/
theorem keyed_ext {R : String → String → Prop} {es fs : List (String × String)} (h : Keyed R es fs)
    (htexts : es.map (·.2) = fs.map (·.2)) : es = fs := by
  induction h with
  | nil => rfl
  | cons hef _ ih =>
    obtain ⟨htext, hrest⟩ := List.cons.inj htexts
    rw [ih hrest, Prod.ext hef.1 htext]

/-- The text of an object, as the line of its entries. -/
theorem toList_canonical_object (fs : List (String × Value)) (x : String) :
    (canonicalJson c (.obj fs) ++ x).toList =
      '\x7b' :: ([','].intercalate ((((canonicalFields c fs).foldr insertByUtf16 []).map fun e =>
        ((c.quote e.1 ++ ":").toList, e.2.toList)).map fun e => e.1 ++ e.2) ++
          '\x7d' :: x.toList) := by
  simp only [canonicalJson, String.toList_append, String.toList_intercalate, List.map_map]
  simp [Function.comp_def]

/-- Objects of the same keys, whose values are told apart, have one text only when every key has one
    text in both. -/
theorem canonical_object_inj {fs gs : List (String × Value)} (hkeys : Keyed (fun v w =>
      Tokens.Parted Stop (canonicalJson c v).toList (canonicalJson c w).toList) fs gs)
    {x y : String} (h : canonicalJson c (.obj fs) ++ x = canonicalJson c (.obj gs) ++ y) :
    ∀ e ∈ fs, ∃ f ∈ gs, f.1 = e.1 ∧ canonicalJson c f.2 = canonicalJson c e.2 := by
  have hfields : Keyed (fun a b => Tokens.Parted Stop a.toList b.toList)
      (canonicalFields c fs) (canonicalFields c gs) := by
    rw [canonicalFields_eq_map, canonicalFields_eq_map]
    exact List.forall₂_map_left_iff.mpr (List.forall₂_map_right_iff.mpr hkeys)
  have hsorted := sorted_keyed hfields
  have hline := congrArg String.toList h
  rw [toList_canonical_object, toList_canonical_object] at hline
  have htokens : List.Forall₂ (fun e f => e.1 = f.1 ∧ Tokens.Parted Stop e.2 f.2)
      (((canonicalFields c fs).foldr insertByUtf16 []).map fun e =>
        ((c.quote e.1 ++ ":").toList, e.2.toList))
      (((canonicalFields c gs).foldr insertByUtf16 []).map fun e =>
        ((c.quote e.1 ++ ":").toList, e.2.toList)) := by
    refine List.forall₂_map_left_iff.mpr (List.forall₂_map_right_iff.mpr (hsorted.imp ?_))
    rintro e f ⟨hkey, hparted⟩
    exact ⟨by rw [hkey], hparted⟩
  obtain ⟨hsame, -⟩ := Tokens.intercalate_inj (show Stop ',' from Or.inl rfl) htokens (Or.inr rfl)
    (Or.inr rfl) (List.cons.inj hline).2
  have htexts := congrArg (List.map (String.ofList ·.2)) hsame
  simp only [List.map_map, Function.comp_def, String.ofList_toList] at htexts
  have hlists := keyed_ext hsorted htexts
  intro e he
  have hmem : (e.1, canonicalJson c e.2) ∈ canonicalFields c gs := by
    rw [← mem_sorted, ← hlists, mem_sorted, canonicalFields_eq_map]
    exact List.mem_map_of_mem he
  rw [canonicalFields_eq_map] at hmem
  obtain ⟨f, hf, heq⟩ := List.mem_map.mp hmem
  exact ⟨f, hf, (Prod.mk.inj heq).1, (Prod.mk.inj heq).2⟩

theorem encoded_eq (key : RecordKey) : key.encoded c =
    "[" ++ (c.jcs (.str key.model) ++ ("," ++ (canonicalJson c key.identity ++ "]"))) := by
  simp [RecordKey.encoded, canonicalJson, canonicalList, String.append_assoc]

/-- A field of an accepted identity: its type, the value it was made from, and its normalized value. -/
theorem recordKey_field (hv : s.Valid) {model : ModelDescriptor} {name : String} {v : Value}
    {key : RecordKey} (hm : s.model name = .ok model) (h : s.recordKey c name v = .ok key) :
    ∃ g : String → Value, key.model = name ∧
      key.identity = .ofEntries (model.identity.map fun n => (n, g n)) ∧
      ∀ n ∈ model.identity, ∀ f, model.field n = some f → ∃ ty x, f.valueType = .scalar ty ∧
        v.get n = some x ∧ scalar c ty x = .ok (g n) := by
  obtain ⟨m, g, hm', hname, hid, hg⟩ := recordKey_spec h
  obtain rfl := Except.ok.inj (hm.symm.trans hm')
  refine ⟨g, hname, hid, fun n hn f hf => ?_⟩
  obtain ⟨f', hf', hnull, hscalar⟩ := (hv.models _ (model_mem hm)).identity n hn
  obtain rfl := Option.some.inj (hf.symm.trans hf')
  obtain ⟨f', x, hf', hx, hgn⟩ := hg n hn
  obtain rfl := Option.some.inj (hf.symm.trans hf')
  cases hty : f.valueType with
  | scalar ty =>
    refine ⟨ty, x, rfl, hx, ?_⟩
    unfold Schema.normalizeValue at hgn
    split at hgn
    · simp [hnull] at hgn
    · simpa [hty, Schema.value] using hgn
  | enum _ => simp [hty, ValueType.isScalar] at hscalar
  | list _ => simp [hty, ValueType.isScalar] at hscalar

/-- The encoded key determines the key. -/
theorem encoded_inj (hv : s.Valid) (ht : c.Tokens) {name name' : String} {v v' : Value}
    {key key' : RecordKey} (h : s.recordKey c name v = .ok key)
    (h' : s.recordKey c name' v' = .ok key') (heq : key.encoded c = key'.encoded c) :
    key = key' := by
  rw [encoded_eq, encoded_eq, String.append_right_inj] at heq
  obtain ⟨hmodel, hrest⟩ := ht.str heq
  rw [String.append_right_inj] at hrest
  rw [recordKey_model h, recordKey_model h'] at hmodel
  subst hmodel
  obtain ⟨model, -, hm, -⟩ := recordKey_spec h
  obtain ⟨g, hname, hid, hg⟩ := recordKey_field hv hm h
  obtain ⟨g', hname', hid', hg'⟩ := recordKey_field hv hm h'
  have hnormal : ∀ n ∈ model.identity, ∃ ty, NormalScalar c ty (g n) ∧ NormalScalar c ty (g' n) := by
    intro n hn
    obtain ⟨f, hf, -⟩ := (hv.models _ (model_mem hm)).identity n hn
    obtain ⟨ty, x, hty, -, hx⟩ := hg n hn f hf
    obtain ⟨ty', y, hty', -, hy⟩ := hg' n hn f hf
    obtain rfl : ty = ty' := by simpa using hty.symm.trans hty'
    exact ⟨ty, scalar_normal hx, scalar_normal hy⟩
  have hkeyed : Keyed (fun v w =>
      Tokens.Parted Stop (canonicalJson c v).toList (canonicalJson c w).toList)
      (model.identity.map fun n => (n, g n)) (model.identity.map fun n => (n, g' n)) := by
    refine List.forall₂_map_left_iff.mpr (List.forall₂_map_right_iff.mpr
      (List.forall₂_same.mpr fun n hn => ⟨rfl, ?_⟩))
    obtain ⟨ty, hgn, hgn'⟩ := hnormal n hn
    exact parted_normal ht hgn hgn'
  have hobject : canonicalJson c (.obj (Value.ofEntries (model.identity.map fun n => (n, g n))).entries)
      ++ "]" = canonicalJson c
        (.obj (Value.ofEntries (model.identity.map fun n => (n, g' n))).entries) ++ "]" := by
    rw [← Value.ofEntries_eq_obj, ← Value.ofEntries_eq_obj, ← hid, ← hid']
    exact hrest
  have hvalues := canonical_object_inj (ofEntries_keyed hkeyed) hobject
  have hsame : ∀ n ∈ model.identity, g n = g' n := by
    intro n hn
    obtain ⟨⟨k, w⟩, hw, rfl, htext⟩ := hvalues _ (Value.mem_of_get (get_ofEntries_map hn))
    have hget := (Value.mem_entries_iff (Value.ordered_ofEntries _)).mp hw
    rw [get_ofEntries_map hn] at hget
    obtain ⟨ty, hgn, hgn'⟩ := hnormal _ hn
    exact normal_inj ht hgn hgn' (htext.symm.trans (by rw [Option.some.inj hget]))
  obtain ⟨_, _⟩ := key
  obtain ⟨_, _⟩ := key'
  simp only at hname hname' hid hid'
  rw [hname, hname', hid, hid', List.map_congr_left fun n hn => by rw [hsame n hn]]

/-- Two inputs of a scalar type are normalized to one value exactly when they denote the same. -/
theorem scalar_same (hu : c.UuidsReread) (z : Zoned c) {ty : ScalarType} {v v' w w' : Value}
    (h : scalar c ty v = .ok w) (h' : scalar c ty v' = .ok w') : w = w' ↔ z.Same ty v v' := by
  unfold scalar at h
  split at h
  · obtain rfl := Except.ok.inj h
    cases v' <;> simp only [scalar, reduceCtorEq] at h'
    obtain rfl := Except.ok.inj h'
    simp [Zoned.Same]
  · obtain rfl := Except.ok.inj h
    cases v' <;> simp only [scalar, reduceCtorEq] at h'
    obtain rfl := Except.ok.inj h'
    simp [Zoned.Same]
  · simp only at h
    split at h
    · obtain rfl := Except.ok.inj h
      cases v' <;> simp only [scalar, reduceCtorEq] at h'
      split at h'
      · obtain rfl := Except.ok.inj h'
        simp [Zoned.Same]
      · cases h'
    · cases h
  · cases h
  · obtain rfl := Except.ok.inj h
    cases v' <;> simp only [scalar, reduceCtorEq] at h'
    obtain rfl := Except.ok.inj h'
    simp [Zoned.Same]
  · cases h
  · split at h
    · cases h
    · rename_i i hi
      split at h
      · obtain rfl := Except.ok.inj h
        cases v' <;> simp only [scalar, reduceCtorEq] at h'
        split at h'
        · cases h'
        · rename_i j hj
          split at h'
          · obtain rfl := Except.ok.inj h'
            simp only [Zoned.Same, hi, hj, Value.str.injEq, Option.some.injEq]
            refine ⟨fun htext => ?_, fun hij => by rw [hij]⟩
            have hij := (hu hi).2.symm.trans ((congrArg c.uuid htext).trans (hu hj).2)
            exact Option.some.inj hij
          · cases h'
      · cases h
  · cases h
  · split at h
    · cases h
    · split at h
      · cases h
      · rename_i t hd
        obtain rfl := Except.ok.inj h
        cases v' <;> simp only [scalar, reduceCtorEq] at h'
        split at h'
        · cases h'
        · split at h'
          · cases h'
          · rename_i t' hd'
            obtain rfl := Except.ok.inj h'
            obtain ⟨a, ha, rfl, -⟩ := z.parse_of_dateTime hd
            obtain ⟨b, hb, rfl, -⟩ := z.parse_of_dateTime hd'
            simp only [Zoned.Same, ha, hb, Value.str.injEq, Option.some.injEq]
            exact ⟨Civil.text_inj (z.ranged ha) (z.ranged hb), fun hab => by rw [hab]⟩
  · cases h
  · cases h

/-- Normalization is canonical: an accepted value is accepted again, and unchanged, exactly when every
    date and time in it has a year of four digits in UTC; and two accepted identities have one encoded
    key exactly when they are of one model and denote equal values field by field. -/
theorem normalization_canonical (hv : s.validate = .ok ()) (hu : c.UuidsReread) (ht : c.Tokens)
    (z : Zoned c) :
    (∀ name model, s.model name = .ok model →
      (∀ v key, s.recordKey c name v = .ok key →
        (s.recordKey c name key.identity = .ok key ↔ Dated z model.fields v)) ∧
      (∀ v w loader loader', s.state c name v loader = .ok w →
        (s.state c name w loader' = .ok w ↔ Dated z (Schema.stateFields model) v)) ∧
      ∀ patch w, (patch.entries.map Prod.fst).Nodup → s.validatePatch c name patch = .ok w →
        (s.validatePatch c name w = .ok w ↔ Dated z model.fields patch)) ∧
    ∀ name v key name' v' key', s.recordKey c name v = .ok key →
      s.recordKey c name' v' = .ok key' →
      (key.encoded c = key'.encoded c ↔
        name = name' ∧ ∃ model, s.model name = .ok model ∧ z.SameIdentity model v v') := by
  have hvalid := Schema.validate_eq_ok.mp hv
  refine ⟨fun name model hm => ⟨fun v key h => recordKey_again hvalid hu z hm h,
    fun v w loader loader' h => state_again hvalid hu z hm h,
    fun patch w hkeys h => patch_again hvalid hu z hm hkeys h⟩, ?_⟩
  intro name v key name' v' key' h h'
  constructor
  · intro heq
    have hkey := encoded_inj hvalid ht h h' heq
    have hname : name = name' := by rw [← recordKey_model h, ← recordKey_model h', hkey]
    subst hname
    obtain ⟨model, -, hm, -⟩ := recordKey_spec h
    refine ⟨rfl, model, hm, fun n hn => ?_⟩
    obtain ⟨g, -, hid, hg⟩ := recordKey_field hvalid hm h
    obtain ⟨g', -, hid', hg'⟩ := recordKey_field hvalid hm h'
    obtain ⟨f, hf, -⟩ := (hvalid.models _ (model_mem hm)).identity n hn
    obtain ⟨ty, x, hty, hx, hgn⟩ := hg n hn f hf
    obtain ⟨ty', y, hty', hy, hgn'⟩ := hg' n hn f hf
    obtain rfl : ty = ty' := by simpa using hty.symm.trans hty'
    have hvalue : g n = g' n := by
      have hget := congrArg (Value.get · n) (congrArg RecordKey.identity hkey)
      simp only [hid, hid', get_ofEntries_map hn] at hget
      exact Option.some.inj hget
    exact ⟨f, ty, x, y, hf, hty, hx, hy, (scalar_same hu z hgn hgn').mp hvalue⟩
  · rintro ⟨rfl, model, hm, hsame⟩
    obtain ⟨g, hname, hid, hg⟩ := recordKey_field hvalid hm h
    obtain ⟨g', hname', hid', hg'⟩ := recordKey_field hvalid hm h'
    have hvalue : ∀ n ∈ model.identity, g n = g' n := by
      intro n hn
      obtain ⟨f, ty, x, y, hf, hty, hx, hy, hxy⟩ := hsame n hn
      obtain ⟨ty₁, x', hty₁, hx', hgn⟩ := hg n hn f hf
      obtain ⟨ty₂, y', hty₂, hy', hgn'⟩ := hg' n hn f hf
      obtain rfl : ty = ty₁ := by simpa using hty.symm.trans hty₁
      obtain rfl : ty = ty₂ := by simpa using hty.symm.trans hty₂
      obtain rfl := Option.some.inj (hx.symm.trans hx')
      obtain rfl := Option.some.inj (hy.symm.trans hy')
      exact (scalar_same hu z hgn hgn').mpr hxy
    rw [RecordKey.encoded, RecordKey.encoded, hname, hname', hid, hid',
      List.map_congr_left fun n hn => by rw [hvalue n hn]]

namespace Sample

/-- Quotes and backslashes with a backslash before them. -/
def escape : List Char → List Char
  | [] => []
  | ch :: s => if ch = '"' ∨ ch = '\\' then '\\' :: ch :: escape s else ch :: escape s

def quoted (s : String) : String := "\"" ++ String.ofList (escape s.toList ++ ['"'])

/-- A quoted string ends at its closing quote. -/
theorem escape_inj : ∀ {a b x y : List Char}, escape a ++ '"' :: x = escape b ++ '"' :: y →
    a = b ∧ x = y
  | [], [], x, y, h => ⟨rfl, (List.cons.inj h).2⟩
  | [], ch :: b, x, y, h => by
    simp only [escape, List.nil_append] at h
    split_ifs at h with hch
    · cases (List.cons.inj h).1
    · exact absurd (Or.inl (List.cons.inj h).1.symm) hch
  | ch :: a, [], x, y, h => by
    simp only [escape, List.nil_append] at h
    split_ifs at h with hch
    · cases (List.cons.inj h).1
    · exact absurd (Or.inl (List.cons.inj h).1) hch
  | ch :: a, d :: b, x, y, h => by
    simp only [escape] at h
    split_ifs at h with hch hd hd <;> simp only [List.cons_append] at h
    · obtain ⟨rfl, hrest⟩ := List.cons.inj (List.cons.inj h).2
      obtain ⟨rfl, hxy⟩ := escape_inj hrest
      exact ⟨rfl, hxy⟩
    · exact absurd (Or.inr (List.cons.inj h).1.symm) hd
    · exact absurd (Or.inr (List.cons.inj h).1) hch
    · obtain ⟨rfl, hrest⟩ := List.cons.inj h
      obtain ⟨rfl, hxy⟩ := escape_inj hrest
      exact ⟨rfl, hxy⟩

theorem quoted_inj {s t x y : String} (h : quoted s ++ x = quoted t ++ y) : s = t ∧ x = y := by
  have hchars := congrArg String.toList h
  simp only [quoted, String.toList_append, String.toList_ofList, List.append_assoc,
    List.append_cancel_left_eq, List.cons_append, List.nil_append] at hchars
  obtain ⟨hst, hxy⟩ := escape_inj hchars
  exact ⟨String.toList_inj.mp hst, String.toList_inj.mp hxy⟩

theorem digits_inj {n m : ℕ} (h : Nat.toDigits 10 n = Nat.toDigits 10 m) : n = m := by
  rw [← Nat.ofDigitChars_ten_toDigits (n := n), h, Nat.ofDigitChars_ten_toDigits]

theorem stop_digits {n : ℕ} : ∀ ch ∈ Nat.toDigits 10 n, ¬Stop ch := by
  rintro ch hch (rfl | rfl) <;>
    exact absurd (Nat.isDigit_of_mem_toDigits (by decide) (by decide) hch) (by decide)

theorem toList_int (a : ℤ) : (toString a).toList =
    if 0 ≤ a then Nat.toDigits 10 a.toNat else '-' :: Nat.toDigits 10 (-a).toNat := by
  rw [Int.toString_eq_repr, Int.repr_eq_if]
  split_ifs <;> simp

theorem toString_int_inj {a b : ℤ} (h : toString a = toString b) : a = b := by
  have hsign : ∀ {n m : ℕ}, Nat.toDigits 10 n ≠ '-' :: Nat.toDigits 10 m := fun heq =>
    absurd (Nat.isDigit_of_mem_toDigits (by decide) (by decide) (heq ▸ List.mem_cons_self ..))
      (show ¬('-'.isDigit = true) by decide)
  have hchars := congrArg String.toList h
  rw [toList_int, toList_int] at hchars
  split_ifs at hchars
  · have := digits_inj hchars
    omega
  · exact absurd hchars hsign
  · exact absurd hchars.symm hsign
  · have := digits_inj (List.cons.inj hchars).2
    omega

/-- Three texts and the times they denote; the last one is in the year 10000 in UTC. -/
def times (s : String) : Option Civil :=
  if s = "2024-05-01T14:00:00+02:00" ∨ s = "2024-05-01T12:00:00.000Z" then
    some ⟨2024, 5, 1, 12, 0, 0, 0⟩
  else if s = "9999-12-31T23:59:59-01:00" then some ⟨10000, 1, 1, 0, 59, 59, 0⟩
  else none

theorem times_text {s : String} {t : Civil} (h : times s = some t) :
    t.Ranged ∧ times t.text = if Civil.FourDigits t.year then some t else none := by
  unfold times at h
  split_ifs at h
  · obtain rfl := Option.some.inj h
    exact ⟨⟨by decide, by decide, by decide, by decide, by decide, by decide, by decide⟩,
      by decide +kernel⟩
  · obtain rfl := Option.some.inj h
    exact ⟨⟨by decide, by decide, by decide, by decide, by decide, by decide, by decide⟩,
      by decide +kernel⟩

/-- Codecs that print integers, escape strings and read these times. -/
def timed : Codecs where
  quote := quoted
  jcs
    | .str s => quoted s
    | .num n => toString n.num
    | .bool b => if b then "true" else "false"
    | _ => "null"
  f64 n := n.floor
  uuid := fun _ => none
  dateTime s := (times s).map Civil.text
  f64_stable n := by simp
  uuid_stable := @unread_uuid
  dateTime_stable := by
    intro s t u h h'
    obtain ⟨a, ha, rfl⟩ := Option.map_eq_some_iff.mp h
    rw [(times_text ha).2] at h'
    split_ifs at h'
    · exact (Option.some.inj h').symm
    · cases h'

def timedDates : Zoned timed where
  parse := times
  dateTime_eq _ := rfl
  ranged h := (times_text h).1
  again h := (times_text h).2

theorem timed_tokens : timed.Tokens where
  str := quoted_inj
  bool _ := rfl
  num n := by
    show ∀ ch ∈ (toString n.num).toList, ¬Stop ch
    rw [toList_int]
    split_ifs
    · exact stop_digits
    · exact List.forall_mem_cons.mpr ⟨by simp [Stop], stop_digits⟩
  num_inj {n m} hn hm h := by
    have hint : ∀ {q : ℚ}, timed.f64 q = q → q = (q.num : ℚ) := fun {q} hq => by
      have hq' : ((q.floor : ℤ) : ℚ) = q := hq
      rw [← hq', Rat.num_intCast]
    rw [hint hn, hint hm, toString_int_inj h]

theorem timed_uuids : timed.UuidsReread := nofun

/-- Events, one for each time. -/
def event : ModelDescriptor where
  name := "Event"
  identity := ["at"]
  fields := [⟨"at", .scalar .dateTime, false, none⟩, ⟨"title", .scalar .string, true, none⟩]

def calendar : Schema where
  models := [event]

def eventAt (time : String) : Value := .obj [("at", .str time)]

end Sample

/-- An event two hours east of Greenwich: its key is accepted again. -/
theorem normalization_canonical_event :
    Sample.calendar.recordKey Sample.timed "Event" (Sample.eventAt "2024-05-01T14:00:00+02:00") =
        .ok ⟨"Event", Sample.eventAt "2024-05-01T12:00:00.000Z"⟩ ∧
      Sample.calendar.recordKey Sample.timed "Event" (Sample.eventAt "2024-05-01T12:00:00.000Z") =
        .ok ⟨"Event", Sample.eventAt "2024-05-01T12:00:00.000Z"⟩ := by
  have hkey : Sample.calendar.recordKey Sample.timed "Event"
      (Sample.eventAt "2024-05-01T14:00:00+02:00") =
        .ok ⟨"Event", Sample.eventAt "2024-05-01T12:00:00.000Z"⟩ :=
    Except.eq_ok_of_toOption (by decide +kernel)
  have hall := normalization_canonical (s := Sample.calendar)
    (Except.eq_ok_of_toOption (by decide +kernel)) Sample.timed_uuids Sample.timed_tokens
    Sample.timedDates
  refine ⟨hkey, ((hall.1 "Event" Sample.event rfl).1 _ _ hkey).mpr fun f hf x hx => ?_⟩
  rcases List.mem_pair.mp hf with rfl | rfl
  · obtain rfl := Option.some.inj hx
    exact show 0 ≤ Sample.timedDates.year _ ∧ Sample.timedDates.year _ ≤ 9999 by decide +kernel
  · cases hx

/-- An event of the last hour of the year 9999, somewhat west of Greenwich, has a key whose identity is
    refused. -/
theorem not_normalization_canonical : ¬∀ (c : Codecs) (s : Schema), s.validate = .ok () →
    c.UuidsReread → c.Tokens → Zoned c → ∀ name v key, s.recordKey c name v = .ok key →
      s.recordKey c name key.identity = .ok key := by
  intro hall
  have hagain := hall Sample.timed Sample.calendar (Except.eq_ok_of_toOption (by decide +kernel))
    Sample.timed_uuids Sample.timed_tokens Sample.timedDates "Event"
    (Sample.eventAt "9999-12-31T23:59:59-01:00")
    ⟨"Event", Sample.eventAt "+10000-01-01T00:59:59.000Z"⟩
    (Except.eq_ok_of_toOption (by decide +kernel))
  have hrefused : (Sample.calendar.recordKey Sample.timed "Event"
      (Sample.eventAt "+10000-01-01T00:59:59.000Z")).toOption = none := by decide +kernel
  rw [hagain] at hrefused
  cases hrefused

end AheadSync
