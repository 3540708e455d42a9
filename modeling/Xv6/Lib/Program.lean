import Mathlib.Tactic.Lemma
import Mathlib.Data.Nat.Notation

/-!
# Programs made of instructions

A program performs instructions of a type `I`, where `I β` are those with a result of type `β`, and what it does next
depends on the results. `wp rule m Q r` is the weakest precondition of the program `m` for what `rule` says of
each instruction, in terms of what the program holds (`r`). Since the program is a tree, the meaning of an instruction
can be given elsewhere, and other programs may run between two instructions.
-/

/-- A program with instructions `I` that returns an `α`. -/
inductive Program (I : Type → Type) (α : Type) : Type 1 where
  | pure (a : α)
  | op {β : Type} (i : I β) (k : β → Program I α)

namespace Program

variable {I : Type → Type} {R α β : Type}

def bind : Program I α → (α → Program I β) → Program I β
  | .pure a, f => f a
  | .op i k, f => .op i fun b => (k b).bind f

instance : Monad (Program I) where
  pure := .pure
  bind := .bind

instance : MonadLift I (Program I) where
  monadLift i := .op i .pure

/-- Run `f 0`, `f 1` and so on, `n` times. -/
def upto (f : ℕ → Program I Unit) : ℕ → Program I Unit
  | 0 => return
  | n + 1 => do
    upto f n
    f n

/-- Run a program alone: its instructions one after another, with their meaning in a monad. -/
def eval {m : Type → Type} [Monad m] (exec : ∀ {β : Type}, I β → m β) : Program I α → m α
  | .pure a => Pure.pure a
  | .op i k => do eval exec (k (← exec i))

section

variable {m : Type → Type} [Monad m] {exec : ∀ {β : Type}, I β → m β}

@[simp]
lemma eval_pure {a : α} : eval exec (Pure.pure a : Program I α) = Pure.pure a := rfl

@[simp]
lemma eval_op [LawfulMonad m] {i : I α} : eval exec (monadLift i : Program I α) = exec i := bind_pure (exec i)

@[simp]
lemma eval_bind [LawfulMonad m] {p : Program I β} {f : β → Program I α} :
    eval exec (p >>= f) = eval exec p >>= fun b => eval exec (f b) := by
  change eval exec (p.bind f) = _
  induction p with
  | pure b => exact (pure_bind (m := m) b fun b => eval exec (f b)).symm
  | op i k ih => simp only [bind, eval, ih, bind_assoc]

end

/-- The weakest preconditions of the instructions. -/
abbrev Rules (I : Type → Type) (R : Type) := ∀ {β : Type}, I β → (β → R → Prop) → R → Prop

/-- The weakest precondition of a program. -/
def wp (rule : Rules I R) : Program I α → (α → R → Prop) → R → Prop
  | .pure a, Q, r => Q a r
  | .op i k, Q, r => rule i (fun b => wp rule (k b) Q) r

variable {rule : Rules I R} {Q : α → R → Prop} {r : R}

@[simp]
lemma wp_pure {a : α} : wp rule (Pure.pure a : Program I α) Q = Q a := rfl

@[simp]
lemma wp_op {i : I α} : wp rule (monadLift i : Program I α) Q = rule i Q := rfl

@[simp]
lemma wp_bind {m : Program I β} {f : β → Program I α} :
    wp rule (m >>= f) Q = wp rule m fun b => wp rule (f b) Q := by
  change wp rule (m.bind f) Q = _
  induction m with
  | pure b => rfl
  | op i k ih =>
    funext r
    simp only [bind, wp, ih]

lemma wp_upto {f : ℕ → Program I Unit} {n : ℕ} {Q : Unit → R → Prop} (J : ℕ → R → Prop) (init : J 0 r)
    (step : ∀ k r (Q : Unit → R → Prop), k < n → J k r → (∀ r, J (k + 1) r → Q () r) → wp rule (f k) Q r)
    (last : ∀ r, J n r → Q () r) : wp rule (upto f n) Q r := by
  induction n generalizing Q with
  | zero => exact last r init
  | succ n ih =>
    rw [upto, wp_bind]
    refine ih (fun k r Q lt => step k r Q (Nat.lt_succ_of_lt lt)) fun r h => ?_
    exact step n r Q (Nat.lt_succ_self n) h last

-- a loop is never unrolled to compare two programs
attribute [irreducible] upto

end Program
