import AheadSync.Lib.Outcome

/-! Parsers of token lists: loops that run while there is something to take, and recursion into what is
    left. Both are written with a fuel that the tokens left always cover, so that a loop is its own
    unfolding, and a recursive parser a solution of its equation. -/

/-- A place in a list of tokens: the current token, and those after it. -/
structure Cursor (τ : Type) where
  token : τ
  rest : List τ

/-- How many tokens are left after the current one. -/
def Cursor.left {τ : Type} (c : Cursor τ) : ℕ := c.rest.length

/-- The place of the next token; the last one is never passed. -/
def Cursor.advance {τ : Type} (c : Cursor τ) : Cursor τ :=
  match c.rest with
  | [] => c
  | token :: rest => ⟨token, rest⟩

/-- A parser answers a result and the place it has come to, or an error. -/
abbrev Parser (τ ε α : Type) := StateT (Cursor τ) (Except ε) α

/-- Run a loop for at most so many turns. -/
def turns {σ ε : Type} (body : σ → Except ε (ForInStep σ)) : ℕ → σ → Except ε σ
  | 0, s => .ok s
  | n + 1, s => do
    match ← body s with
    | .done s => .ok s
    | .yield s => turns body n s

namespace Parser
variable {τ ε α β : Type}

/-- One turn of a loop on the accumulator and the place. -/
def turn (body : α → Parser τ ε (ForInStep α)) (s : α × Cursor τ) :
    Except ε (ForInStep (α × Cursor τ)) := do
  match ← body s.1 s.2 with
  | (.done a, c) => .ok (.done (a, c))
  | (.yield a, c) => .ok (.yield (a, c))

/-- A loop: each turn goes on with a new accumulator, or is the last. -/
def loop (body : α → Parser τ ε (ForInStep α)) (a : α) : Parser τ ε α := fun c =>
  turns (turn body) (c.left + 1) (a, c)

/-- A parser that calls itself at most so deep. -/
def nested (body : Parser τ ε α → Parser τ ε α) (stuck : ε) : ℕ → Parser τ ε α
  | 0 => throw stuck
  | n + 1 => body (nested body stuck n)

/-- A recursive parser. -/
def recursive (body : Parser τ ε α → Parser τ ε α) (stuck : ε) : Parser τ ε α := fun c =>
  nested body stuck (c.left + 1) c

end Parser
