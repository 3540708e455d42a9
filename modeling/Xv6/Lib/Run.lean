import Mathlib.Tactic.Lemma
import Mathlib.Data.List.Induction
import Mathlib.Data.Nat.Notation

/-!
# Labelled runs

A transition system is a relation `R : σ → α → σ → Prop`: in state `s` the action `a` may lead to
`s'`. `Run R s as t` says that the actions `as`, taken in order, lead from `s` to `t`. An invariant of
the initial state that every step keeps holds at the end of every run (`Run.invariant`), and since a
prefix of a run is a run, in every state the run goes through.
-/

variable {σ α : Type*}

/-- The actions `as` lead from one state to another; the last action is the head of a `snoc`. -/
inductive Run (R : σ → α → σ → Prop) (s : σ) : List α → σ → Prop where
  | nil : Run R s [] s
  | snoc {as a t u} :
    Run R s as t →
    R t a u →
    Run R s (as ++ [a]) u

namespace Run

variable {R R' : σ → α → σ → Prop} {P : σ → Prop}

lemma invariant {s as t} (run : Run R s as t) (init : P s)
    (step : ∀ {t a u}, P t → R t a u → P u) : P t := by
  induction run with
  | nil => exact init
  | snoc _ st ih => exact step ih st

lemma append {s as t bs u} (run : Run R s as t) (run' : Run R t bs u) : Run R s (as ++ bs) u := by
  induction run' with
  | nil => rwa [List.append_nil]
  | snoc _ st ih =>
    rw [← List.append_assoc]
    exact ih.snoc st

lemma split {s as bs t} (run : Run R s (as ++ bs) t) : ∃ u, Run R s as u ∧ Run R u bs t := by
  generalize eq : as ++ bs = cs at run
  induction run generalizing bs with
  | nil =>
    obtain ⟨rfl, rfl⟩ := List.append_eq_nil_iff.1 eq
    exact ⟨s, .nil, .nil⟩
  | @snoc cs c t u run st ih =>
    cases bs using List.reverseRecOn with
    | nil =>
      rw [List.append_nil] at eq
      exact ⟨u, eq ▸ run.snoc st, .nil⟩
    | append_singleton bs b _ =>
      rw [← List.append_assoc] at eq
      obtain ⟨init, rfl⟩ := List.append_singleton_inj.1 eq
      obtain ⟨v, run, run'⟩ := ih init
      exact ⟨v, run, run'.snoc st⟩

lemma eq_of_nil {s t} (run : Run R s [] t) : t = s := by
  generalize eq : [] = as at run
  cases run with
  | nil => rfl
  | snoc => simp at eq

lemma uncons {s a as t} (run : Run R s (a :: as) t) : ∃ u, R s a u ∧ Run R u as t := by
  have run : Run R s ([a] ++ as) t := run
  obtain ⟨u, first, rest⟩ := split run
  generalize eq : [a] = bs at first
  cases first with
  | nil => cases eq
  | @snoc cs b v _ run st =>
    obtain ⟨rfl, rfl⟩ := List.append_singleton_inj.1 (show [] ++ [a] = cs ++ [b] from eq)
    rw [run.eq_of_nil] at st
    exact ⟨u, st, rest⟩

lemma mono {s as t} (run : Run R s as t) (init : P s)
    (step : ∀ {t a u}, P t → R t a u → P u)
    (imp : ∀ {t a u}, P t → R t a u → R' t a u) : Run R' s as t := by
  induction run with
  | nil => exact .nil
  | snoc run st ih => exact .snoc ih (imp (run.invariant init step) st)

end Run
