import Mathlib.Data.List.FinRange
import Mathlib.Order.Lattice
import Mathlib.Tactic.Lemma

/-!
# A scan for the best slot of a table

A loop goes over the slots of a table in their order. It keeps the first eligible slot as its candidate and replaces
the candidate by a later eligible slot only if that one has a smaller key. `Scanned` says what the candidate is when the
loop has passed the first `k` slots, and `foldl_finRange` is the rule for loops over all slots.
-/

variable {β : Type*} {n : ℕ}

lemma foldl_finRange {P : ℕ → β → Prop} {f : β → Fin n → β} {b : β} (init : P 0 b)
    (step : ∀ (i : Fin n) {b}, P i b → P (i + 1) (f b i)) : P n ((List.finRange n).foldl f b) := by
  induction n with
  | zero => exact init
  | succ n ih =>
    rw [List.finRange_succ_last, List.foldl_append, List.foldl_map]
    exact step (Fin.last n) (ih fun i _ h => step i.castSucc h)

section

variable {K : Type*} [LinearOrder K] (eligible : Fin n → Prop) (key : Fin n → K)

/-- Slot `b` is the first one, among the eligible slots below `k`, whose key is least. -/
structure FirstLeast (k : ℕ) (b : Fin n) : Prop where
  lt : b < k
  holds : eligible b
  least : ∀ j : Fin n, j < k → eligible j → key b ≤ key j
  first : ∀ j : Fin n, j < b → eligible j → key b < key j

/-- The candidate of a scan that has passed the slots below `k`. -/
inductive Scanned (k : ℕ) : Option (Fin n) → Prop where
  | empty :
    (∀ j : Fin n, j < k → ¬ eligible j) →
    Scanned k none
  | found {b} :
    FirstLeast eligible key k b →
    Scanned k (some b)

end

variable {K : Type*} [LinearOrder K] {eligible : Fin n → Prop} {key : Fin n → K} {best : Option (Fin n)} {i b : Fin n}

private lemma lt_succ_cases {j : Fin n} (lt : (j : ℕ) < i + 1) : j = i ∨ (j : ℕ) < i := by
  rcases Nat.lt_succ_iff_lt_or_eq.1 lt with lt | eq
  · exact .inr lt
  · exact .inl (Fin.ext eq)

lemma FirstLeast.skip (h : FirstLeast eligible key i b) (no : ¬ eligible i) : FirstLeast eligible key (i + 1) b := by
  refine ⟨by have := h.lt; omega, h.holds, fun j lt el => ?_, h.first⟩
  obtain rfl | lt := lt_succ_cases lt
  · exact absurd el no
  · exact h.least j lt el

lemma FirstLeast.keep (h : FirstLeast eligible key i b) (le : key b ≤ key i) : FirstLeast eligible key (i + 1) b := by
  refine ⟨by have := h.lt; omega, h.holds, fun j lt el => ?_, h.first⟩
  obtain rfl | lt := lt_succ_cases lt
  · exact le
  · exact h.least j lt el

lemma FirstLeast.replace (h : FirstLeast eligible key i b) (el : eligible i) (lt : key i < key b) :
    FirstLeast eligible key (i + 1) i := by
  have least : ∀ j : Fin n, j < i → eligible j → key i < key j := fun j ji ej => lt.trans_le (h.least j ji ej)
  refine ⟨by omega, el, fun j ji ej => ?_, least⟩
  obtain rfl | ji := lt_succ_cases ji
  · exact le_rfl
  · exact (least j ji ej).le

namespace Scanned

lemma zero : Scanned eligible key 0 none := .empty fun _ lt => absurd lt (Nat.not_lt_zero _)

lemma skip (h : Scanned eligible key i best) (no : ¬ eligible i) : Scanned eligible key (i + 1) best := by
  cases h with
  | empty h =>
    refine .empty fun j lt => ?_
    obtain rfl | lt := lt_succ_cases lt
    · exact no
    · exact h j lt
  | found h => exact .found (h.skip no)

lemma new (h : Scanned eligible key i none) (el : eligible i) : Scanned eligible key (i + 1) (some i) := by
  obtain ⟨h⟩ := h
  refine .found ⟨by omega, el, fun j lt ej => ?_, fun j lt ej => absurd ej (h j lt)⟩
  obtain rfl | lt := lt_succ_cases lt
  · exact le_rfl
  · exact absurd ej (h j lt)

lemma next (h : Scanned eligible key i (some b)) (el : eligible i) :
    Scanned eligible key (i + 1) (some (if key i < key b then i else b)) := by
  obtain _ | ⟨h⟩ := h
  split
  case isTrue lt => exact .found (h.replace el lt)
  case isFalse le => exact .found (h.keep (not_lt.1 le))

lemma eq_none_iff (h : Scanned eligible key n best) : best = none ↔ ∀ j, ¬ eligible j := by
  cases h with
  | empty h => exact ⟨fun _ j => h j j.isLt, fun _ => rfl⟩
  | found h => exact ⟨nofun, fun no => absurd h.holds (no _)⟩

end Scanned
