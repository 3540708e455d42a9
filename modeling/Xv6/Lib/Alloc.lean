import Mathlib.Tactic.Lemma
import Mathlib.Data.Nat.Notation
import Mathlib.Logic.Function.Basic
import Mathlib.Data.Finset.Card

/-!
# Blocks and who refers to them

Numbered blocks below `hi`, those below `lo` reserved and 0 among them, are given out by an allocator that keeps a map of the
blocks in use. References are kept in slots `κ`: `A k` is the block slot `k` refers to, or 0. The map is exact if
the blocks in use are the reserved ones and those that are referred to, and each is referred to by one slot only
(`Exact`). Allocating a block for an empty slot and freeing the block of a slot keep it exact.
-/

/-- The map says which blocks are reserved or referred to, and each block is referred to by one slot only. -/
structure Exact {κ : Type*} (lo hi : ℕ) (used : ℕ → Bool) (A : κ → ℕ) : Prop where
  pos : 0 < lo
  range : ∀ {k}, A k ≠ 0 → lo ≤ A k ∧ A k < hi
  inj : ∀ {k l}, A k ≠ 0 → A k = A l → k = l
  bit : ∀ {b}, b < hi → (used b = true ↔ b < lo ∨ ∃ k, A k ≠ 0 ∧ A k = b)

namespace Exact

variable {κ : Type*} {lo hi : ℕ} {used : ℕ → Bool} {A : κ → ℕ}

lemma used_of_ref (E : Exact lo hi used A) {k} (ne : A k ≠ 0) : used (A k) = true :=
  (E.bit (E.range ne).2).mpr (.inr ⟨k, ne, rfl⟩)

lemma le_of_free (E : Exact lo hi used A) {b} (lt : b < hi) (free : used b = false) : lo ≤ b := by
  by_contra h
  have := (E.bit lt).mpr (.inl (by omega))
  simp [free] at this

lemma ne_of_free (E : Exact lo hi used A) {b k} (free : used b = false) (ne : A k ≠ 0) : A k ≠ b := by
  rintro rfl
  simp [E.used_of_ref ne] at free

def freeBlocks (hi : ℕ) (used : ℕ → Bool) : Finset ℕ := (Finset.range hi).filter fun b => used b = false

/-- If blocks are allocated for some of the slots `N`, and there were enough of them for those that were empty, there still
are. -/
lemma card_empty_le (E : Exact lo hi used A) {used' : ℕ → Bool} {A' : κ → ℕ} (E' : Exact lo hi used' A')
    (keep : ∀ k, A k ≠ 0 → A' k = A k) {N : Finset κ} (new : ∀ k, A' k ≠ 0 → A k ≠ 0 ∨ k ∈ N)
    (room : (N.filter (A · = 0)).card ≤ (freeBlocks hi used).card) :
    (N.filter (A' · = 0)).card ≤ (freeBlocks hi used').card := by
  -- the slots that have been filled, and the others
  have split := Finset.card_filter_add_card_filter_not (s := N.filter (A · = 0)) (A' · = 0)
  have still : (N.filter (A · = 0)).filter (A' · = 0) = N.filter (A' · = 0) := by
    ext k
    simp only [Finset.mem_filter]
    exact ⟨fun h => ⟨h.1.1, h.2⟩, fun h => ⟨⟨h.1, by_contra fun ne => ne (keep k ne ▸ h.2)⟩, h.2⟩⟩
  rw [still] at split
  have cover : freeBlocks hi used ⊆ freeBlocks hi used' ∪ ((N.filter (A · = 0)).filter (¬A' · = 0)).image A' := by
    intro b mem
    obtain ⟨lt, free⟩ := Finset.mem_filter.1 mem
    rw [Finset.mem_union]
    by_cases free' : used' b = false
    · exact .inl (Finset.mem_filter.2 ⟨lt, free'⟩)
    · rw [Finset.mem_range] at lt
      have ge := E.le_of_free lt free
      obtain ⟨k, ne, eq⟩ := ((E'.bit lt).1 (by simpa using free')).resolve_left (by omega)
      have empty : A k = 0 := by
        by_contra old
        exact E.ne_of_free free old ((keep k old).symm.trans eq)
      have mem : k ∈ N := (new k ne).resolve_left fun old => old empty
      exact .inr (Finset.mem_image.2 ⟨k, by simp [mem, empty, ne], eq⟩)
  have le := (Finset.card_le_card cover).trans (Finset.card_union_le _ _)
  have image := Finset.card_image_le (s := (N.filter (A · = 0)).filter (¬A' · = 0)) (f := A')
  omega

variable [DecidableEq κ]

lemma insert (E : Exact lo hi used A) {b k} (lt : b < hi) (free : used b = false) (empty : A k = 0) :
    Exact lo hi (Function.update used b true) (Function.update A k b) where
  pos := E.pos
  range {j} ne := by
    by_cases eq : j = k
    · subst eq
      simp only [Function.update_self]
      exact ⟨E.le_of_free lt free, lt⟩
    · rw [Function.update_of_ne eq] at ne ⊢
      exact E.range ne
  inj {j j'} ne eq := by
    simp only [Function.update_apply] at ne eq
    have := fun j (ne : A j ≠ 0) => E.ne_of_free (k := j) free ne
    have := E.inj (k := j) (l := j')
    grind
  bit {c} lc := by
    have old := E.bit lc
    have := fun j (ne : A j ≠ 0) => E.ne_of_free (k := j) free ne
    have := E.le_of_free lt free
    simp only [Function.update_apply]
    by_cases eq : c = b
    · subst eq
      have := E.pos
      simp only [if_true, true_iff]
      exact .inr ⟨k, by simp; omega⟩
    · rw [if_neg eq, old]
      grind

end Exact
