import Mathlib.Tactic.Lemma
import Mathlib.Data.Nat.Notation
import Mathlib.Logic.Function.Basic

/-!
# Replaying writes

A store is a function from addresses to values and a log is a list of writes. `replay d ws` is the
store after the writes `ws`, first to last. A replay settles the addresses that the log mentions,
whatever they held before (`replay_congr`), so that replaying a log again over a store on which some of
its writes have already been done changes nothing.
-/

variable {ι β : Type*} [DecidableEq ι]

/-- The store `d` after the writes `ws`. -/
def replay (d : ι → β) : List (ι × β) → ι → β
  | [] => d
  | (i, v) :: ws => replay (Function.update d i v) ws

lemma replay_append {d : ι → β} {ws ws'} :
    replay d (ws ++ ws') = replay (replay d ws) ws' := by
  induction ws generalizing d with
  | nil => rfl
  | cons w ws ih => exact ih

lemma replay_concat {d : ι → β} {ws i v} :
    replay d (ws ++ [(i, v)]) = Function.update (replay d ws) i v := by
  rw [replay_append]
  rfl

lemma replay_congr {d d' : ι → β} {ws : List (ι × β)} {i}
    (eq : i ∉ ws.map Prod.fst → d i = d' i) : replay d ws i = replay d' ws i := by
  induction ws generalizing d d' with
  | nil => exact eq (by simp)
  | cons w ws ih =>
    apply ih
    intro nm
    by_cases e : i = w.1
    · simp [e]
    · rw [Function.update_of_ne e, Function.update_of_ne e]
      exact eq (by simp [e, nm])

/-- A log whose writes all agree with `f` brings the store into agreement with `f`, wherever it does
    not mention an address on which they differ. -/
lemma replay_eq {d f : ι → β} {ws : List (ι × β)} {i}
    (writes : ∀ w ∈ ws, w.2 = f w.1) (rest : i ∉ ws.map Prod.fst → d i = f i) :
    replay d ws i = f i := by
  induction ws generalizing d with
  | nil => exact rest (by simp)
  | cons w ws ih =>
    apply ih (fun w' mem => writes w' (by simp [mem]))
    intro nm
    by_cases e : i = w.1
    · rw [e, Function.update_self, writes w (by simp)]
    · rw [Function.update_of_ne e]
      exact rest (by simp [e, nm])
