import Mathlib.Data.List.Forall2
import Mathlib.Data.List.Basic

/-! Texts put together from tokens, and when such a text determines its tokens: each token ends where a
    stop follows it. -/

namespace Tokens

/-- Wherever two tokens are followed by stops, equal texts mean equal tokens. -/
def Parted (stop : Char → Prop) (a b : List Char) : Prop :=
  ∀ p q x y, stop p → stop q → a ++ p :: x = b ++ q :: y → a = b ∧ p :: x = q :: y

variable {stop : Char → Prop} {a b : List Char}

/-- Tokens without a stop in them. -/
theorem parted_of_free : ∀ {a b : List Char}, (∀ ch ∈ a, ¬stop ch) → (∀ ch ∈ b, ¬stop ch) →
    Parted stop a b
  | [], [], _, _ => fun _ _ _ _ _ _ heq => ⟨rfl, heq⟩
  | [], d :: b, _, hb => fun p q x y hp _ heq => by
    obtain ⟨rfl, -⟩ := List.cons.inj heq
    exact absurd hp (hb p (List.mem_cons_self ..))
  | d :: a, [], ha, _ => fun p q x y _ hq heq => by
    obtain ⟨rfl, -⟩ := List.cons.inj heq
    exact absurd hq (ha d (List.mem_cons_self ..))
  | d :: a, f :: b, ha, hb => fun p q x y hp hq heq => by
    obtain ⟨rfl, hrest⟩ := List.cons.inj heq
    have ih := parted_of_free (fun ch h => ha ch (List.mem_cons_of_mem _ h))
      (fun ch h => hb ch (List.mem_cons_of_mem _ h))
    obtain ⟨rfl, htail⟩ := ih p q x y hp hq hrest
    exact ⟨rfl, htail⟩

/-- Tokens that end by themselves are parted whatever follows. -/
theorem parted_of_append (h : ∀ x y, a ++ x = b ++ y → a = b ∧ x = y) : Parted stop a b :=
  fun p q x y _ _ heq => h (p :: x) (q :: y) heq

/-- Two lines of tokens with equal heads, separated alike and followed by stops, have equal tokens as
    soon as the lines are equal. -/
theorem intercalate_inj {sep : Char} (hsep : stop sep) {es fs : List (List Char × List Char)}
    (h : List.Forall₂ (fun e f => e.1 = f.1 ∧ Parted stop e.2 f.2) es fs) {p q : Char}
    (hp : stop p) (hq : stop q) {x y : List Char}
    (heq : [sep].intercalate (es.map fun e => e.1 ++ e.2) ++ p :: x =
      [sep].intercalate (fs.map fun f => f.1 ++ f.2) ++ q :: y) : es = fs ∧ p :: x = q :: y := by
  induction h with
  | nil => exact ⟨rfl, heq⟩
  | @cons e f es fs hef hrest ih =>
    obtain ⟨k, a⟩ := e
    obtain ⟨l, b⟩ := f
    obtain ⟨rfl, hab⟩ : k = l ∧ Parted stop a b := hef
    cases hrest with
    | nil =>
      simp only [List.map_cons, List.map_nil, List.intercalate_singleton, List.append_assoc,
        List.append_cancel_left_eq] at heq
      obtain ⟨rfl, htail⟩ := hab p q x y hp hq heq
      exact ⟨rfl, htail⟩
    | cons hef' hrest' =>
      simp only [List.map_cons, List.intercalate_cons_cons, List.append_assoc, List.cons_append,
        List.nil_append, List.append_cancel_left_eq] at heq ih
      obtain ⟨rfl, htail⟩ := hab _ _ _ _ hsep hsep heq
      obtain ⟨htl, hend⟩ := ih (List.cons.inj htail).2
      exact ⟨by rw [htl], hend⟩

/-- Two lines of as many tokens, whose heads end by themselves and whose tokens are told apart where the
    heads are the same, have equal heads and tokens as soon as the lines are equal. -/
theorem intercalate_heads {κ : Type} {head : κ → List Char}
    (hhead : ∀ {k l x y}, head k ++ x = head l ++ y → k = l ∧ x = y) {sep : Char} (hsep : stop sep) :
    ∀ {es fs : List (κ × List Char)}, es.length = fs.length →
      (∀ e ∈ es, ∀ f ∈ fs, e.1 = f.1 → Parted stop e.2 f.2) → ∀ {p q : Char}, stop p → stop q →
      ∀ {x y : List Char}, [sep].intercalate (es.map fun e => head e.1 ++ e.2) ++ p :: x =
        [sep].intercalate (fs.map fun f => head f.1 ++ f.2) ++ q :: y → es = fs
  | [], [], _, _, _, _, _, _, _, _, _ => rfl
  | [e], [f], _, hpart, p, q, hp, hq, x, y, heq => by
    simp only [List.map_cons, List.map_nil, List.intercalate_singleton, List.append_assoc] at heq
    obtain ⟨hkey, htail⟩ := hhead heq
    obtain ⟨htoken, -⟩ := hpart e (List.mem_cons_self ..) f (List.mem_cons_self ..) hkey p q x y hp hq htail
    rw [Prod.ext hkey htoken]
  | e :: e' :: es, f :: f' :: fs, hlen, hpart, p, q, hp, hq, x, y, heq => by
    simp only [List.map_cons, List.intercalate_cons_cons, List.append_assoc, List.cons_append,
      List.nil_append] at heq
    obtain ⟨hkey, htail⟩ := hhead heq
    obtain ⟨htoken, hrest⟩ := hpart e (List.mem_cons_self ..) f (List.mem_cons_self ..) hkey
      _ _ _ _ hsep hsep htail
    have hline : [sep].intercalate ((e' :: es).map fun e => head e.1 ++ e.2) ++ p :: x =
        [sep].intercalate ((f' :: fs).map fun f => head f.1 ++ f.2) ++ q :: y := by
      simpa using (List.cons.inj hrest).2
    have ih : e' :: es = f' :: fs := intercalate_heads (fun h => hhead h) hsep (by simpa using hlen)
      (fun a ha b hb => hpart a (List.mem_cons_of_mem _ ha) b (List.mem_cons_of_mem _ hb)) hp hq hline
    rw [Prod.ext hkey htoken, ih]
  | [], _ :: _, hlen, _, _, _, _, _, _, _, _ => by simp at hlen
  | _ :: _, [], hlen, _, _, _, _, _, _, _, _ => by simp at hlen
  | [_], _ :: _ :: _, hlen, _, _, _, _, _, _, _, _ => by simp at hlen
  | _ :: _ :: _, [_], hlen, _, _, _, _, _, _, _, _ => by simp at hlen

end Tokens
