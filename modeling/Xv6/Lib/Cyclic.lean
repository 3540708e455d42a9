import Mathlib.Data.Finset.Card
import Mathlib.Logic.Function.Iterate
import Mathlib.Order.Basic
import Mathlib.Tactic.Lemma

/-!
# Circular lists in the order of their elements

A circular list whose elements are sorted, with one wrap from the last to the first, is a finite set of a linear order in
which every element knows the next one. `IsNext S p q` says that `q` is the next element of `S` after `p`; `Gap p q x` that
`x` belongs between them. An element can be linked in at its gap (`IsNext.insert`) and unlinked (`IsNext.erase`). `arc S p t`
is what a walk from `p` meets until it is at `t`; it gets smaller with every step (`arc_next`).
-/

namespace Cyclic

variable {α : Type*} [LinearOrder α]

/-- `q` is the element of `S` after `p`, or `p` is the last one and `q` the first one. -/
structure IsNext (S : Finset α) (p q : α) : Prop where
  mem : q ∈ S
  next : p < q ∧ (∀ x ∈ S, p < x → q ≤ x) ∨ q ≤ p ∧ ∀ x ∈ S, q ≤ x ∧ x ≤ p

/-- `x` is between `p` and `q`, the element after it. -/
def Gap (p q x : α) : Prop := p < x ∧ x < q ∨ q ≤ p ∧ (p < x ∨ x < q)

def arc (S : Finset α) (p t : α) : Finset α := S.filter fun y => if p ≤ t then p < y ∧ y ≤ t else p < y ∨ y ≤ t

variable {S : Finset α} {p q r t u x : α}

lemma mem_arc : x ∈ arc S p t ↔ x ∈ S ∧ (p ≤ t ∧ p < x ∧ x ≤ t ∨ t < p ∧ (p < x ∨ x ≤ t)) := by
  simp only [arc, Finset.mem_filter]
  grind

namespace IsNext

lemma inj (n : IsNext S p q) (n' : IsNext S r q) (mp : p ∈ S) (mr : r ∈ S) : p = r := by
  obtain ⟨mem, next⟩ := n
  obtain ⟨mem', next'⟩ := n'
  grind

lemma ne (n : IsNext S p q) (mx : x ∈ S) (xp : x ≠ p) : q ≠ p := by
  obtain ⟨mem, next⟩ := n
  grind

lemma single (p : α) : IsNext {p} p p := ⟨Finset.mem_singleton_self p, .inr ⟨le_rfl, by simp⟩⟩

lemma insert_left (n : IsNext S p q) (gap : Gap p q x) : IsNext (insert x S) p x := by
  obtain ⟨mem, next⟩ := n
  refine ⟨Finset.mem_insert_self x S, ?_⟩
  simp only [Finset.mem_insert, Gap] at *
  grind

lemma insert_right (n : IsNext S p q) (gap : Gap p q x) : IsNext (insert x S) x q := by
  obtain ⟨mem, next⟩ := n
  refine ⟨Finset.mem_insert_of_mem mem, ?_⟩
  simp only [Finset.mem_insert, Gap] at *
  grind

lemma insert_other (n : IsNext S p q) (mp : p ∈ S) (gap : Gap p q x) (n' : IsNext S r t) (mr : r ∈ S) (rp : r ≠ p) :
    IsNext (insert x S) r t := by
  obtain ⟨mem, next⟩ := n
  obtain ⟨mem', next'⟩ := n'
  refine ⟨Finset.mem_insert_of_mem mem', ?_⟩
  simp only [Finset.mem_insert, Gap] at *
  grind

/-- The element behind an element that is removed is the next one of the element before it. -/
lemma erase_left (n : IsNext S p q) (n' : IsNext S q r) (mp : p ∈ S) (qp : q ≠ p) : IsNext (S.erase q) p r := by
  obtain ⟨mem, next⟩ := n
  obtain ⟨mem', next'⟩ := n'
  have rq : r ≠ q := IsNext.ne ⟨mem', next'⟩ mp qp.symm
  refine ⟨Finset.mem_erase.2 ⟨rq, mem'⟩, ?_⟩
  simp only [Finset.mem_erase] at *
  grind

lemma erase_other (n : IsNext S p q) (mp : p ∈ S) (n' : IsNext S r t) (mr : r ∈ S) (rp : r ≠ p) :
    IsNext (S.erase q) r t := by
  have tq : t ≠ q := by
    rintro rfl
    exact rp (n'.inj n mr mp)
  refine ⟨Finset.mem_erase.2 ⟨tq, n'.mem⟩, ?_⟩
  simp only [Finset.mem_erase]
  obtain ⟨mem', next'⟩ := n'
  grind

end IsNext

lemma next_mem_arc (n : IsNext S p q) (mt : t ∈ S) (pt : p ≠ t) : q ∈ arc S p t := by
  obtain ⟨mem, next⟩ := n
  rw [mem_arc]
  grind

lemma next_mem_arc_of_not_gap (n : IsNext S p q) (mp : p ∈ S) (mx : x ∉ S) (no : ¬ Gap p q x) : q ∈ arc S p x := by
  obtain ⟨mem, next⟩ := n
  simp only [mem_arc, Gap] at *
  grind

lemma arc_next (n : IsNext S p q) (on : q ∈ arc S p t) : arc S q t = (arc S p t).erase q := by
  obtain ⟨mem, next⟩ := n
  ext y
  simp only [mem_arc, Finset.mem_erase] at *
  grind

lemma card_arc_next (n : IsNext S p q) (on : q ∈ arc S p t) : (arc S p t).card = (arc S q t).card + 1 := by
  rw [arc_next n on, Finset.card_erase_of_mem on]
  have := Finset.card_pos.2 ⟨q, on⟩
  omega

lemma mem_arc_of_next (n : IsNext S t p) (mx : x ∈ S) : x = p ∨ x ∈ arc S p t := by
  obtain ⟨mem, next⟩ := n
  rw [mem_arc]
  grind

lemma card_arc_le : (arc S p t).card ≤ S.card := Finset.card_le_card (Finset.filter_subset _ _)

lemma exists_iterate {f : α → α} (next : ∀ p ∈ S, IsNext S p (f p)) (mp : p ∈ S) (mx : x ∈ S) : ∃ k, f^[k] p = x := by
  induction len : (arc S p x).card generalizing p with
  | zero =>
    by_cases eq : p = x
    · exact ⟨0, eq⟩
    · have := card_arc_next (next p mp) (next_mem_arc (next p mp) mx eq)
      omega
  | succ n ih =>
    by_cases eq : p = x
    · exact ⟨0, eq⟩
    · have := card_arc_next (next p mp) (next_mem_arc (next p mp) mx eq)
      obtain ⟨k, eq⟩ := ih (next p mp).mem (by omega)
      exact ⟨k + 1, eq⟩

end Cyclic
