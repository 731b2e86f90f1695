import AheadSync.Lib.Outcome
import Mathlib.Data.Finset.Card
import Mathlib.Logic.Relation

/-! Exploring a graph from a root with a stack of discovered nodes. When the fuel covers the nodes
    there are, the exploration finds exactly the nodes reachable from the root, each once, and it
    fails exactly when the successors of one of them cannot be computed. -/

namespace Reach
variable {ε κ : Type} [DecidableEq κ]

/-- Push the successors not seen before on the stack and on the list of found nodes. -/
def discover (root : κ) : List κ → List κ × List κ → List κ × List κ
  | [], acc => acc
  | q :: qs, (todo, found) =>
    if q ∈ root :: found then discover root qs (todo, found)
    else discover root qs (q :: todo, found ++ [q])

/-- Take nodes from the stack and discover their successors, until the stack is empty. -/
def explore (next : κ → Except ε (List κ)) (root : κ) : ℕ → List κ → List κ → Except ε (List κ)
  | 0, _, found => .ok found
  | _ + 1, [], found => .ok found
  | n + 1, p :: todo, found => do
    let qs ← next p
    let acc := discover root qs (todo, found)
    explore next root n acc.1 acc.2

/-- `q` is a successor of `p`. -/
def Edge (next : κ → Except ε (List κ)) (p q : κ) : Prop := ∃ qs, next p = .ok qs ∧ q ∈ qs

/-- `q` is reached from `p` in any number of steps. -/
def Reaches (next : κ → Except ε (List κ)) : κ → κ → Prop := Relation.ReflTransGen (Edge next)

/-- What holds between two steps: found nodes are reachable, and every node that left the stack
    has its successors among the found ones. -/
structure Explored (next : κ → Except ε (List κ)) (root : κ) (todo found : List κ) : Prop where
  nodup : (root :: found).Nodup
  todo_sub : ∀ p ∈ todo, p ∈ root :: found
  reached : ∀ p ∈ found, Reaches next root p
  closed : ∀ p ∈ root :: found, p ∉ todo → ∃ qs, next p = .ok qs ∧ ∀ q ∈ qs, q ∈ root :: found

/-- The nodes of `univ` not seen yet. -/
def unseen (univ : Finset κ) (root : κ) (found : List κ) : ℕ :=
  (univ \ (root :: found).toFinset).card

theorem discover_spec {root : κ} {univ : Finset κ} : ∀ {qs : List κ} (todo : List κ) {found : List κ},
    (∀ q ∈ qs, q ∈ univ) → (root :: found).Nodup →
    ∃ new : List κ, discover root qs (todo, found) = (new.reverse ++ todo, found ++ new) ∧
      (root :: (found ++ new)).Nodup ∧ (∀ q ∈ new, q ∈ qs) ∧
      (∀ q ∈ qs, q ∈ root :: (found ++ new)) ∧
      unseen univ root (found ++ new) + new.length ≤ unseen univ root found
  | [], todo, found, _, hnd => ⟨[], by simp [discover], by simpa using hnd, by simp, by simp,
      by simp⟩
  | q :: qs, todo, found, huniv, hnd => by
    have hqs : ∀ q ∈ qs, q ∈ univ := fun x hx => huniv x (List.mem_cons_of_mem _ hx)
    by_cases hq : q ∈ root :: found
    · obtain ⟨new, heq, hnd', hsub, hall, hle⟩ := discover_spec todo hqs hnd
      refine ⟨new, by rw [discover, if_pos hq, heq], hnd', ?_, ?_, hle⟩
      · exact fun x hx => List.mem_cons_of_mem _ (hsub x hx)
      · intro x hx
        rcases List.mem_cons.mp hx with rfl | hx
        · simp only [List.mem_cons, List.mem_append] at hq ⊢
          tauto
        · exact hall x hx
    · have hnd1 : (root :: (found ++ [q])).Nodup := by
        rw [← List.cons_append]
        refine List.nodup_append.mpr ⟨hnd, by simp, fun x hx y hy hxy => ?_⟩
        rw [List.mem_singleton.mp hy] at hxy
        exact hq (hxy ▸ hx)
      obtain ⟨new, heq, hnd', hsub, hall, hle⟩ := discover_spec (q :: todo) hqs hnd1
      refine ⟨q :: new, ?_, by simpa using hnd', ?_, ?_, ?_⟩
      · rw [discover, if_neg hq, heq]; simp
      · intro x hx
        rcases List.mem_cons.mp hx with rfl | hx
        · exact List.mem_cons_self ..
        · exact List.mem_cons_of_mem _ (hsub x hx)
      · intro x hx
        rcases List.mem_cons.mp hx with rfl | hx
        · simp
        · simpa using hall x hx
      · -- `q` itself leaves the unseen nodes
        have hlt : unseen univ root (found ++ [q]) < unseen univ root found := by
          refine Finset.card_lt_card (Finset.ssubset_iff_of_subset ?_ |>.mpr ⟨q, ?_, ?_⟩)
          · intro x; simp only [Finset.mem_sdiff, List.mem_toFinset, List.mem_cons,
              List.mem_append]; tauto
          · exact Finset.mem_sdiff.mpr ⟨huniv q (List.mem_cons_self ..), by simpa using hq⟩
          · simp
        have hle' : unseen univ root (found ++ q :: new) + new.length ≤
            unseen univ root (found ++ [q]) := by simpa using hle
        simp only [List.length_cons]; omega

/-- One step keeps the invariant and spends fuel. -/
theorem explored_step {next : κ → Except ε (List κ)} {root : κ} {univ : Finset κ}
    {p : κ} {todo found qs : List κ} (hinv : Explored next root (p :: todo) found)
    (hnd : (p :: todo).Nodup) (hqs : next p = .ok qs) (huniv : ∀ q ∈ qs, q ∈ univ) :
    ∃ todo' found', discover root qs (todo, found) = (todo', found') ∧
      Explored next root todo' found' ∧ todo'.Nodup ∧
      todo'.length + unseen univ root found' ≤ todo.length + unseen univ root found := by
  obtain ⟨new, heq, hnd', hsub, hall, hle⟩ := discover_spec todo huniv hinv.nodup
  have hp : Reaches next root p := by
    rcases List.mem_cons.mp (hinv.todo_sub p (List.mem_cons_self ..)) with rfl | h
    · exact .refl
    · exact hinv.reached p h
  have hfound : ∀ x ∈ root :: found, x ∈ root :: (found ++ new) := fun x hx => by
    simp only [List.mem_cons, List.mem_append] at hx ⊢; tauto
  refine ⟨_, _, heq, ⟨hnd', ?_, ?_, ?_⟩, ?_, ?_⟩
  · intro x hx
    rcases List.mem_append.mp hx with hx | hx
    · simp [List.mem_reverse.mp hx]
    · exact hfound x (hinv.todo_sub x (List.mem_cons_of_mem _ hx))
  · intro x hx
    rcases List.mem_append.mp hx with hx | hx
    · exact hinv.reached x hx
    · exact hp.tail ⟨qs, hqs, hsub x hx⟩
  · intro x hx hnt
    simp only [List.mem_append, List.mem_reverse, not_or] at hnt
    by_cases hxp : x = p
    · exact ⟨qs, hxp ▸ hqs, hall⟩
    · have hx' : x ∈ root :: found := by
        simp only [List.mem_cons, List.mem_append] at hx ⊢; tauto
      obtain ⟨rs, hrs, hsubrs⟩ := hinv.closed x hx' (by simp [hxp, hnt.2])
      exact ⟨rs, hrs, fun r hr => hfound r (hsubrs r hr)⟩
  · have hdisj : ∀ x ∈ new, x ∉ root :: found := by
      have h := hnd'
      rw [← List.cons_append, List.nodup_append] at h
      exact fun x hx hmem => h.2.2 x hmem x hx rfl
    refine List.nodup_append.mpr ⟨?_, (List.nodup_cons.mp hnd).2, ?_⟩
    · rw [← List.cons_append, List.nodup_append] at hnd'
      exact List.nodup_reverse.mpr hnd'.2.1
    · intro x hx y hy hxy
      exact hdisj x (List.mem_reverse.mp hx)
        (hxy ▸ hinv.todo_sub y (List.mem_cons_of_mem _ hy))
  · simp only [List.length_append, List.length_reverse]; omega

/-- With enough fuel a run that succeeds ends with an empty stack. -/
theorem explore_explored {next : κ → Except ε (List κ)} {root : κ} {univ : Finset κ}
    (huniv : ∀ p qs, next p = .ok qs → ∀ q ∈ qs, q ∈ univ) :
    ∀ {n : ℕ} {todo found r : List κ}, Explored next root todo found → todo.Nodup →
      todo.length + unseen univ root found ≤ n → explore next root n todo found = .ok r →
      Explored next root [] r
  | 0, todo, found, r, hinv, _, hn, h => by
    obtain rfl : todo = [] := List.eq_nil_of_length_eq_zero (by omega)
    obtain rfl : found = r := by simpa [explore] using h
    exact hinv
  | n + 1, [], found, r, hinv, _, _, h => by
    obtain rfl : found = r := by simpa [explore] using h
    exact hinv
  | n + 1, p :: todo, found, r, hinv, hnd, hn, h => by
    simp only [explore, Except.bind_eq_ok] at h
    obtain ⟨qs, hqs, h⟩ := h
    obtain ⟨todo', found', heq, hinv', hnd', hle⟩ := explored_step hinv hnd hqs (huniv p qs hqs)
    rw [heq] at h
    exact explore_explored huniv hinv' hnd' (by simp only [List.length_cons] at hn; omega) h

omit [DecidableEq κ] in
theorem explored_root (next : κ → Except ε (List κ)) (root : κ) : Explored next root [root] [] where
  nodup := by simp
  todo_sub := by simp
  reached := by simp
  closed := by simp

theorem unseen_le (univ : Finset κ) (root : κ) (found : List κ) :
    unseen univ root found ≤ univ.card :=
  Finset.card_le_card Finset.sdiff_subset

/-- The nodes found are exactly the nodes reachable from the root, other than the root, and the
    successors of each of them could be computed. -/
theorem explore_exact {next : κ → Except ε (List κ)} {root : κ} {univ : Finset κ} {n : ℕ}
    {r : List κ} (huniv : ∀ p qs, next p = .ok qs → ∀ q ∈ qs, q ∈ univ) (hn : univ.card < n)
    (h : explore next root n [root] [] = .ok r) :
    (root :: r).Nodup ∧ (∀ q, q ∈ root :: r ↔ Reaches next root q) ∧
      ∀ q, Reaches next root q → ∃ qs, next q = .ok qs := by
  have hinv := explore_explored huniv (explored_root next root) (by simp)
    (by have := unseen_le univ root []; simp only [List.length_singleton]; omega) h
  have hclosed : ∀ q, Reaches next root q → q ∈ root :: r := by
    intro q hq
    induction hq with
    | refl => exact List.mem_cons_self ..
    | tail _ he ih =>
      obtain ⟨qs, hqs, hsub⟩ := hinv.closed _ ih (by simp)
      obtain ⟨qs', hqs', hmem⟩ := he
      rw [hqs] at hqs'
      cases hqs'
      exact hsub _ hmem
  refine ⟨hinv.nodup, fun q => ⟨fun hq => ?_, hclosed q⟩, fun q hq => ?_⟩
  · rcases List.mem_cons.mp hq with rfl | hq
    · exact .refl
    · exact hinv.reached q hq
  · obtain ⟨qs, hqs, -⟩ := hinv.closed q (hclosed q hq) (by simp)
    exact ⟨qs, hqs⟩

/-- A run from reachable nodes succeeds when the successors of every reachable node are known. -/
theorem explore_ok {next : κ → Except ε (List κ)} {root : κ}
    (hnext : ∀ p, Reaches next root p → ∃ qs, next p = .ok qs) :
    ∀ {n : ℕ} {todo found : List κ}, (∀ p ∈ todo, Reaches next root p) →
      ∃ r, explore next root n todo found = .ok r
  | 0, todo, found, _ => ⟨found, rfl⟩
  | n + 1, [], found, _ => ⟨found, rfl⟩
  | n + 1, p :: todo, found, hreach => by
    have hp := hreach p (List.mem_cons_self ..)
    obtain ⟨qs, hqs⟩ := hnext p hp
    have hdisc : ∀ {rs todo found : List κ}, (∀ q ∈ rs, Reaches next root q) →
        (∀ q ∈ todo, Reaches next root q) →
        ∀ q ∈ (discover root rs (todo, found)).1, Reaches next root q := by
      intro rs
      induction rs with
      | nil => exact fun _ h => h
      | cons x xs ih =>
        intro todo found hrs htodo
        rw [discover]
        split
        · exact ih (fun q hq => hrs q (List.mem_cons_of_mem _ hq)) htodo
        · refine ih (fun q hq => hrs q (List.mem_cons_of_mem _ hq)) fun q hq => ?_
          rcases List.mem_cons.mp hq with rfl | hq
          · exact hrs _ (List.mem_cons_self ..)
          · exact htodo q hq
    have htodo : ∀ q ∈ (discover root qs (todo, found)).1, Reaches next root q :=
      hdisc (fun q hq => hp.tail ⟨qs, hqs, hq⟩) fun q hq => hreach q (List.mem_cons_of_mem _ hq)
    obtain ⟨r, hr⟩ : ∃ r, explore next root n (discover root qs (todo, found)).1
        (discover root qs (todo, found)).2 = .ok r := explore_ok hnext htodo
    exact ⟨r, by simp only [explore, hqs, Except.ok_bind, hr]⟩

end Reach
