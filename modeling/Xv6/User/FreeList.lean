import Xv6.User.Malloc
import Mathlib.Algebra.BigOperators.Group.Finset.Piecewise
import Mathlib.Algebra.Order.BigOperators.Group.Finset

/-!
# Blocks and the free list

What `malloc` and `free` do to the memory. `Layout` is about the blocks, free or not, that the regions of `sbrk` are divided
into: they are apart from each other, and their units add up. Two adjacent blocks can be merged, a block can be divided, and
a new region is a new block. `FreeList` is about the free blocks among them, which are linked in the order of their addresses.
`FreeList.link` says what the end of `free` does: it links a block and merges it with its neighbours.
-/

namespace Xv6.Umalloc

open Cyclic

variable {base : ℕ} {size size' : ℕ → ℕ} {B S T : Finset ℕ} {rs : List Region} {a p q n : ℕ}

/-! ### Blocks -/

/-- The regions are divided into the blocks of `B`, beside which there is `base`, a block of no unit. -/
structure Layout (base : ℕ) (size : ℕ → ℕ) (B : Finset ℕ) (rs : List Region) : Prop where
  head : base ∈ B
  zero : size base = 0
  pos : ∀ a ∈ B, a ≠ base → base + HEADER ≤ a ∧ 0 < size a
  apart : ∀ a ∈ B, ∀ b ∈ B, a < b → behind a (size a) ≤ b
  total : ∑ a ∈ B, size a = (rs.map Region.units).sum
  covered : ∀ a ∈ B, ∀ x, a ≤ x → x < behind a (size a) → ∃ r ∈ rs, r.addr ≤ x ∧ x < behind r.addr r.units

namespace Layout

lemma congr (h : Layout base size B rs) (eq : ∀ a ∈ B, size' a = size a) : Layout base size' B rs where
  head := h.head
  zero := (eq base h.head).trans h.zero
  pos a mem ne := by
    rw [eq a mem]
    exact h.pos a mem ne
  apart a mem := by
    rw [eq a mem]
    exact h.apart a mem
  total := by rw [Finset.sum_congr rfl eq, h.total]
  covered a mem := by
    rw [eq a mem]
    exact h.covered a mem

lemma base_le (h : Layout base size B rs) (mem : a ∈ B) : base ≤ a := by
  by_cases eq : a = base
  · exact eq.ge
  · have := (h.pos a mem eq).1
    omega

lemma size_add_le (h : Layout base size B rs) (mp : p ∈ B) (mq : q ∈ B) (ne : p ≠ q) :
    size p + size q ≤ (rs.map Region.units).sum := by
  rw [← h.total, ← Finset.add_sum_erase B size mp]
  exact Nat.add_le_add_left (Finset.single_le_sum (fun _ _ => Nat.zero_le _) (Finset.mem_erase.2 ⟨ne.symm, mq⟩)) _

lemma merge (h : Layout base size B rs) (mp : p ∈ B) (mq : q ∈ B) (adj : behind p (size p) = q) (qb : q ≠ base) :
    Layout base (Function.update size p (size p + size q)) (B.erase q) rs := by
  have pos := h.pos q mq qb
  have pb : p ≠ base := by
    rintro rfl
    have := h.zero
    simp only [behind, HEADER] at *
    omega
  have lt := (h.pos p mp pb).2
  have pq : p < q := by
    simp only [behind, HEADER] at *
    omega
  constructor
  case head => exact Finset.mem_erase.2 ⟨qb.symm, h.head⟩
  case zero => rw [Function.update_of_ne pb.symm, h.zero]
  case pos =>
    intro a mem ne
    have := h.pos a (Finset.mem_of_mem_erase mem) ne
    by_cases eq : a = p
    · subst eq
      simp only [Function.update_self]
      omega
    · rwa [Function.update_of_ne eq]
  case apart =>
    intro a ma b mb ab
    obtain ⟨aq, ma⟩ := Finset.mem_erase.1 ma
    obtain ⟨bq, mb⟩ := Finset.mem_erase.1 mb
    by_cases eq : a = p
    · subst eq
      have ap := h.apart a ma b mb ab
      have := h.apart q mq b mb (by omega)
      simp only [Function.update_self, behind, HEADER] at *
      omega
    · rw [Function.update_of_ne eq]
      exact h.apart a ma b mb ab
  case total =>
    have pe : p ∈ B.erase q := Finset.mem_erase.2 ⟨pq.ne, mp⟩
    rw [← h.total, ← Finset.add_sum_erase B size mq, Finset.sum_update_of_mem pe, ← Finset.add_sum_erase _ size pe,
      Finset.sdiff_singleton_eq_erase]
    omega
  case covered =>
    intro a mem x le lt
    have ma := Finset.mem_of_mem_erase mem
    by_cases eq : a = p
    · subst eq
      rw [Function.update_self] at lt
      by_cases xq : x < q
      · exact h.covered a ma x le (by omega)
      · refine h.covered q mq x (by omega) ?_
        simp only [behind, HEADER] at *
        omega
    · rw [Function.update_of_ne eq] at lt
      exact h.covered a ma x le lt

lemma carve (h : Layout base size B rs) (mp : p ∈ B) (n0 : 0 < n) (np : n < size p) :
    behind p (size p - n) ∉ B ∧
    Layout base (Function.update (Function.update size p (size p - n)) (behind p (size p - n)) n)
      (insert (behind p (size p - n)) B) rs := by
  have pb : p ≠ base := by
    rintro rfl
    have := h.zero
    omega
  obtain ⟨above, pos⟩ := h.pos p mp pb
  generalize eqa : behind p (size p - n) = a
  have pa : p < a := by
    simp only [behind, HEADER] at *
    omega
  have aend : behind a n = behind p (size p) := by
    simp only [behind, HEADER] at *
    omega
  have new : a ∉ B := by
    intro mem
    have := h.apart p mp a mem pa
    simp only [behind, HEADER] at *
    omega
  have ne : ∀ b ∈ B, b ≠ a := fun b mb eq => new (eq ▸ mb)
  have ba : base ≠ a := ne base h.head
  refine ⟨new, ?_⟩
  constructor
  case head => exact Finset.mem_insert_of_mem h.head
  case zero => rw [Function.update_of_ne ba, Function.update_of_ne pb.symm, h.zero]
  case pos =>
    intro b mem bb
    obtain rfl | mb := Finset.mem_insert.1 mem
    · rw [Function.update_self]
      omega
    · rw [Function.update_of_ne (ne b mb)]
      have := h.pos b mb bb
      by_cases eq : b = p
      · subst eq
        rw [Function.update_self]
        omega
      · rwa [Function.update_of_ne eq]
  case apart =>
    -- the block keeps its place, and the new one is its end
    have old : ∀ b ∈ B, Function.update (Function.update size p (size p - n)) a n b ≤ size b := by
      intro b mb
      rw [Function.update_of_ne (ne b mb)]
      by_cases eq : b = p
      · subst eq
        rw [Function.update_self]
        omega
      · rw [Function.update_of_ne eq]
    intro b mb c mc bc
    obtain rfl | inb := Finset.mem_insert.1 mb
    · obtain rfl | inc := Finset.mem_insert.1 mc
      · exact absurd bc (lt_irrefl _)
      · rw [Function.update_self, aend]
        exact h.apart p mp c inc (by omega)
    · obtain rfl | inc := Finset.mem_insert.1 mc
      · by_cases eq : b = p
        · subst eq
          rw [Function.update_of_ne pa.ne, Function.update_self]
          exact eqa.le
        · by_cases bp : b < p
          · have := h.apart b inb p mp bp
            have := old b inb
            simp only [behind, HEADER] at *
            omega
          · have := h.apart p mp b inb (by omega)
            simp only [behind, HEADER] at *
            omega
      · have := h.apart b inb c inc bc
        have := old b inb
        simp only [behind, HEADER] at *
        omega
  case total =>
    rw [Finset.sum_insert new, Function.update_self, Finset.sum_update_of_notMem new, Finset.sum_update_of_mem mp,
      ← h.total, ← Finset.add_sum_erase B size mp, Finset.sdiff_singleton_eq_erase]
    omega
  case covered =>
    intro b mb x le lt
    obtain rfl | mb := Finset.mem_insert.1 mb
    · rw [Function.update_self, aend] at lt
      exact h.covered p mp x (by omega) lt
    · rw [Function.update_of_ne (ne b mb)] at lt
      refine h.covered b mb x le (lt.trans_le ?_)
      by_cases eq : b = p
      · subst eq
        rw [Function.update_self]
        simp only [behind, HEADER]
        omega
      · rw [Function.update_of_ne eq]

lemma grant (h : Layout base size B rs) (above : base + HEADER ≤ a) (n0 : 0 < n)
    (dis : ∀ r ∈ rs, Region.Disjoint ⟨a, n⟩ r) :
    a ∉ B ∧ Layout base (Function.update size a n) (insert a B) (⟨a, n⟩ :: rs) := by
  -- no byte of the region is a byte of a block
  have free : ∀ b ∈ B, ∀ x, a ≤ x → x < behind a n → ¬ (b ≤ x ∧ x < behind b (size b)) := by
    rintro b mb x ax xa ⟨bx, xb⟩
    obtain ⟨r, mr, rx, xr⟩ := h.covered b mb x bx xb
    obtain dis | dis := dis r mr <;> simp only at dis <;> omega
  have first : ∀ b ∈ B, b ≠ base → b < behind b (size b) := by
    intro b mb bb
    have := (h.pos b mb bb).2
    simp only [behind, HEADER]
    omega
  have an : a < behind a n := by
    simp only [behind, HEADER]
    omega
  have new : a ∉ B := by
    intro mem
    exact free a mem a le_rfl an ⟨le_rfl, first a mem (by simp only [HEADER] at above; omega)⟩
  have ne : ∀ b ∈ B, b ≠ a := fun b mb eq => new (eq ▸ mb)
  refine ⟨new, ?_⟩
  constructor
  case head => exact Finset.mem_insert_of_mem h.head
  case zero => rw [Function.update_of_ne (ne base h.head), h.zero]
  case pos =>
    intro b mem bb
    obtain rfl | mb := Finset.mem_insert.1 mem
    · rw [Function.update_self]
      exact ⟨above, n0⟩
    · rw [Function.update_of_ne (ne b mb)]
      exact h.pos b mb bb
  case apart =>
    intro b mb c mc bc
    obtain rfl | inb := Finset.mem_insert.1 mb
    · obtain rfl | inc := Finset.mem_insert.1 mc
      · exact absurd bc (lt_irrefl _)
      · rw [Function.update_self]
        by_contra lt
        have cb : c ≠ base := by simp only [HEADER] at above; omega
        exact free c inc c bc.le (by omega) ⟨le_rfl, first c inc cb⟩
    · rw [Function.update_of_ne (ne b inb)]
      obtain rfl | inc := Finset.mem_insert.1 mc
      · by_contra lt
        exact free b inb c le_rfl an ⟨bc.le, by omega⟩
      · exact h.apart b inb c inc bc
  case total =>
    rw [Finset.sum_insert new, Function.update_self, Finset.sum_update_of_notMem new, h.total]
    rfl
  case covered =>
    intro b mb x le lt
    obtain rfl | mb := Finset.mem_insert.1 mb
    · rw [Function.update_self] at lt
      exact ⟨_, List.mem_cons_self, le, lt⟩
    · rw [Function.update_of_ne (ne b mb)] at lt
      obtain ⟨r, mr, rx, xr⟩ := h.covered b mb x le lt
      exact ⟨r, List.mem_cons_of_mem _ mr, rx, xr⟩

end Layout

/-! ### The free list -/

variable {mem mem' : ℕ → Header} {bp : ℕ}

/-- The blocks of `S` are free and linked in the order of their addresses; those of `T` are not free. -/
structure FreeList (base : ℕ) (mem : ℕ → Header) (S T : Finset ℕ) (rs : List Region) : Prop where
  layout : Layout base (fun a => (mem a).size) (S ∪ T) rs
  head : base ∈ S
  sep : Disjoint S T
  next : ∀ p ∈ S, IsNext S p (mem p).ptr

/-- No free block is adjacent to the next one. -/
def Loose (mem : ℕ → Header) (S : Finset ℕ) : Prop :=
  ∀ p ∈ S, p < (mem p).ptr → behind p (mem p).size ≠ (mem p).ptr

namespace FreeList

lemma ne (h : FreeList base mem S T rs) (mp : p ∈ S) (mq : q ∈ T) : p ≠ q := by
  rintro rfl
  exact Finset.disjoint_left.1 h.sep mp mq

lemma congr (h : FreeList base mem S T rs) (eq : ∀ a ∈ S ∪ T, (mem' a).size = (mem a).size)
    (ptr : ∀ a ∈ S, (mem' a).ptr = (mem a).ptr) : FreeList base mem' S T rs where
  layout := h.layout.congr eq
  head := h.head
  sep := h.sep
  next p mp := by
    rw [ptr p mp]
    exact h.next p mp

lemma take (h : FreeList base mem S T rs) (mp : p ∈ S) (eq : (mem p).ptr = q) (qb : q ≠ base) :
    FreeList base (setPtr mem p (mem q).ptr) (S.erase q) (insert q T) rs := by
  have n : IsNext S p q := eq ▸ h.next p mp
  have qp : q ≠ p := by
    by_cases pb : p = base
    · rw [pb]
      exact qb
    · exact n.ne h.head (Ne.symm pb)
  have same : S.erase q ∪ insert q T = S ∪ T := by
    ext x
    have := n.mem
    simp only [Finset.mem_union, Finset.mem_erase, Finset.mem_insert]
    grind
  refine ⟨?_, Finset.mem_erase.2 ⟨qb.symm, h.head⟩, ?_, ?_⟩
  · rw [same]
    refine h.layout.congr fun a _ => ?_
    simp only [setPtr, Function.update_apply]
    split <;> simp_all
  · rw [Finset.disjoint_left]
    intro x mx
    obtain ⟨xq, mx⟩ := Finset.mem_erase.1 mx
    simp [xq, Finset.disjoint_left.1 h.sep mx]
  · intro x mx
    obtain ⟨xq, mx⟩ := Finset.mem_erase.1 mx
    by_cases xp : x = p
    · subst xp
      simp only [setPtr, Function.update_self]
      exact n.erase_left (h.next q n.mem) mp qp
    · simp only [setPtr, Function.update_of_ne xp]
      exact n.erase_other mp (h.next x mx) mx xp

lemma put (h : FreeList base mem S T rs) (mp : p ∈ S) (mb : bp ∈ T) (gap : Gap p (mem p).ptr bp) :
    FreeList base (setPtr (setPtr mem bp (mem p).ptr) p bp) (insert bp S) (T.erase bp) rs := by
  have n := h.next p mp
  have pb := h.ne mp mb
  have same : insert bp S ∪ T.erase bp = S ∪ T := by
    ext x
    simp only [Finset.mem_union, Finset.mem_erase, Finset.mem_insert]
    grind
  refine ⟨?_, Finset.mem_insert_of_mem h.head, ?_, ?_⟩
  · rw [same]
    refine h.layout.congr fun a _ => ?_
    simp only [setPtr, Function.update_apply]
    grind
  · rw [Finset.disjoint_left]
    intro x mx
    obtain rfl | mx := Finset.mem_insert.1 mx
    · simp
    · simp [Finset.disjoint_left.1 h.sep mx]
  · intro x mx
    obtain rfl | mx := Finset.mem_insert.1 mx
    · simp only [setPtr, Function.update_of_ne pb.symm, Function.update_self]
      exact n.insert_right gap
    · by_cases xp : x = p
      · subst xp
        simp only [setPtr, Function.update_self]
        exact n.insert_left gap
      · simp only [setPtr, Function.update_of_ne xp, Function.update_of_ne (h.ne mx mb)]
        exact n.insert_other mp gap (h.next x mx) mx xp

lemma merge (h : FreeList base mem S T rs) (fits : (rs.map Region.units).sum < 2 ^ 32) (mp : p ∈ S) (eq : (mem p).ptr = q)
    (adj : behind p (mem p).size = q) (qb : q ≠ base) :
    FreeList base (Function.update mem p ⟨(mem q).ptr, addUint (mem p).size (mem q).size⟩) (S.erase q) T rs := by
  have n : IsNext S p q := eq ▸ h.next p mp
  have inS : ∀ {x}, x ∈ S → x ∈ S ∪ T := fun mx => Finset.mem_union_left _ mx
  have qp : q ≠ p := by
    by_cases pb : p = base
    · rw [pb]
      exact qb
    · exact n.ne h.head (Ne.symm pb)
  have sum : addUint (mem p).size (mem q).size = (mem p).size + (mem q).size :=
    Nat.mod_eq_of_lt ((h.layout.size_add_le (inS mp) (inS n.mem) qp.symm).trans_lt fits)
  have same : S.erase q ∪ T = (S ∪ T).erase q := by
    rw [Finset.erase_union_distrib, Finset.erase_eq_of_notMem (Finset.disjoint_left.1 h.sep n.mem)]
  refine ⟨?_, Finset.mem_erase.2 ⟨qb.symm, h.head⟩, ?_, ?_⟩
  · rw [same, sum]
    refine (h.layout.merge (inS mp) (inS n.mem) adj qb).congr fun a _ => ?_
    simp only [Function.update_apply]
    split <;> rfl
  · exact Finset.disjoint_of_subset_left (Finset.erase_subset _ _) h.sep
  · intro x mx
    obtain ⟨xq, mx⟩ := Finset.mem_erase.1 mx
    by_cases xp : x = p
    · subst xp
      simp only [Function.update_self]
      exact n.erase_left (h.next q n.mem) mp qp
    · simp only [Function.update_of_ne xp]
      exact n.erase_other mp (h.next x mx) mx xp

end FreeList

/-- What `free` leaves in the header of the block, before it looks at the block in front of it. -/
def joined (mem : ℕ → Header) (q bp : ℕ) : Header :=
  if behind bp (mem bp).size = q then ⟨(mem q).ptr, addUint (mem bp).size (mem q).size⟩ else ⟨q, (mem bp).size⟩

namespace FreeList

lemma next_cases (h : FreeList base mem S T rs) (mp : p ∈ S) : p < (mem p).ptr ∨ (mem p).ptr = base := by
  obtain ⟨mem, ⟨lt, -⟩ | ⟨-, first⟩⟩ := h.next p mp
  · exact .inl lt
  · have := first base h.head
    have := h.layout.base_le (Finset.mem_union_left T mem)
    exact .inr (by omega)

lemma behind_le (h : FreeList base mem S T rs) (mp : p ∈ S) (lt : p < (mem p).ptr) :
    behind p (mem p).size ≤ (mem p).ptr :=
  h.layout.apart p (Finset.mem_union_left _ mp) _ (Finset.mem_union_left _ (h.next p mp).mem) lt

lemma take_loose (h : FreeList base mem S T rs) (loose : Loose mem S) (mp : p ∈ S) (eq : (mem p).ptr = q)
    (qb : q ≠ base) : Loose (setPtr mem p (mem q).ptr) (S.erase q) := by
  intro x mx
  have mx := Finset.mem_of_mem_erase mx
  by_cases xp : x = p
  · subst xp
    simp only [setPtr, Function.update_self]
    intro lt
    have mq : q ∈ S := eq ▸ (h.next x mx).mem
    have pos := (h.layout.pos q (Finset.mem_union_left _ mq) qb).2
    have xb := h.layout.base_le (Finset.mem_union_left T mx)
    obtain xq | eq' := h.next_cases mx
    · have := h.behind_le mx xq
      obtain qr | eq'' := h.next_cases mq
      · have := h.behind_le mq qr
        simp only [eq, behind, HEADER] at *
        omega
      · omega
    · exact absurd (eq.symm.trans eq') qb
  · simp only [setPtr, Function.update_of_ne xp]
    exact loose x mx

lemma carve (h : FreeList base mem S T rs) (loose : Loose mem S) (mp : p ∈ S) (n0 : 0 < n) (np : n < (mem p).size) :
    behind p ((mem p).size - n) ∉ S ∪ T ∧
    FreeList base (setSize (setSize mem p ((mem p).size - n)) (behind p ((mem p).size - n)) n) S
      (insert (behind p ((mem p).size - n)) T) rs ∧
    Loose (setSize (setSize mem p ((mem p).size - n)) (behind p ((mem p).size - n)) n) S := by
  obtain ⟨new, lay⟩ := h.layout.carve (Finset.mem_union_left _ mp) n0 np
  have lt : behind p ((mem p).size - n) < behind p (mem p).size := by
    simp only [behind, HEADER]
    omega
  generalize eqa : behind p ((mem p).size - n) = a at *
  have ne : ∀ x ∈ S, x ≠ a := fun x mx eq => new (Finset.mem_union_left _ (eq ▸ mx))
  refine ⟨new, ⟨?_, h.head, ?_, ?_⟩, ?_⟩
  · rw [Finset.union_insert]
    refine lay.congr fun x _ => ?_
    simp only [setSize, Function.update_apply]
    grind
  · rw [Finset.disjoint_insert_right]
    exact ⟨fun ma => new (Finset.mem_union_left _ ma), h.sep⟩
  · intro x mx
    have := h.next x mx
    simp only [setSize, Function.update_of_ne (ne x mx)]
    by_cases xp : x = p
    · subst xp
      rwa [Function.update_self]
    · rwa [Function.update_of_ne xp]
  · intro x mx
    simp only [setSize, Function.update_of_ne (ne x mx)]
    by_cases xp : x = p
    · subst xp
      simp only [Function.update_self, eqa]
      intro lt'
      exact (lt.trans_le (h.behind_le mx lt')).ne
    · rw [Function.update_of_ne xp]
      exact loose x mx

lemma grant (h : FreeList base mem S T rs) (loose : Loose mem S) (above : base + HEADER ≤ a) (n0 : 0 < n)
    (dis : ∀ r ∈ rs, Region.Disjoint ⟨a, n⟩ r) :
    a ∉ S ∪ T ∧ FreeList base (setSize mem a n) S (insert a T) (⟨a, n⟩ :: rs) ∧ Loose (setSize mem a n) S := by
  obtain ⟨new, lay⟩ := h.layout.grant above n0 dis
  have ne : ∀ x ∈ S, x ≠ a := fun x mx eq => new (Finset.mem_union_left _ (eq ▸ mx))
  refine ⟨new, ⟨?_, h.head, ?_, ?_⟩, ?_⟩
  · rw [Finset.union_insert]
    refine lay.congr fun x _ => ?_
    simp only [setSize, Function.update_apply]
    split <;> rfl
  · rw [Finset.disjoint_insert_right]
    exact ⟨fun ma => new (Finset.mem_union_left _ ma), h.sep⟩
  · intro x mx
    simp only [setSize, Function.update_of_ne (ne x mx)]
    exact h.next x mx
  · intro x mx
    simp only [setSize, Function.update_of_ne (ne x mx)]
    exact loose x mx

lemma join (h : FreeList base mem S T rs) (fits : (rs.map Region.units).sum < 2 ^ 32) (mp : p ∈ S) (mb : bp ∈ T)
    (eq : (mem p).ptr = q) (gap : Gap p q bp) :
    ∃ S₁, FreeList base (setPtr (Function.update mem bp (joined mem q bp)) p bp) S₁ (T.erase bp) rs ∧
      bp ∈ S₁ ∧ p ∈ S₁ ∧ ∀ x ∈ S₁, x = bp ∨ x ∈ S := by
  have n : IsNext S p q := eq ▸ h.next p mp
  have pb := h.ne mp mb
  have qb := h.ne n.mem mb
  have put := h.put mp mb (eq ▸ gap)
  rw [eq] at put
  by_cases adj : behind bp (mem bp).size = q
  · have qbase : q ≠ base := by
      obtain ⟨above, pos⟩ := h.layout.pos bp (Finset.mem_union_right _ mb) (h.ne h.head mb).symm
      simp only [behind, HEADER] at *
      omega
    have qp : q ≠ p := by
      by_cases eq : p = base
      · rw [eq]
        exact qbase
      · exact n.ne h.head (Ne.symm eq)
    have m := put.merge fits (p := bp) (q := q) (Finset.mem_insert_self _ _)
      (by simp [setPtr, Function.update_of_ne pb.symm])
      (by simpa [setPtr, Function.update_of_ne pb.symm] using adj) qbase
    refine ⟨_, ?_, Finset.mem_erase.2 ⟨qb.symm, Finset.mem_insert_self _ _⟩,
      Finset.mem_erase.2 ⟨qp.symm, Finset.mem_insert_of_mem mp⟩, fun x mx => ?_⟩
    · convert m using 1
      funext x
      simp only [joined, if_pos adj, setPtr, Function.update_apply]
      grind
    · exact Finset.mem_insert.1 (Finset.mem_of_mem_erase mx)
  · refine ⟨_, ?_, Finset.mem_insert_self _ _, Finset.mem_insert_of_mem mp, fun x mx => Finset.mem_insert.1 mx⟩
    rw [joined, if_neg adj]
    exact put

lemma joined_loose (h : FreeList base mem S T rs) (loose : Loose mem S) (fits : (rs.map Region.units).sum < 2 ^ 32)
    (mq : q ∈ S) (mb : bp ∈ T) :
    (mem bp).size ≤ (joined mem q bp).size ∧
      ((joined mem q bp).ptr ≠ base → behind bp (joined mem q bp).size ≠ (joined mem q bp).ptr) := by
  rw [joined]
  split
  case isTrue adj =>
    have sum : addUint (mem bp).size (mem q).size = (mem bp).size + (mem q).size :=
      Nat.mod_eq_of_lt ((h.layout.size_add_le (Finset.mem_union_right _ mb) (Finset.mem_union_left _ mq)
        (h.ne mq mb).symm).trans_lt fits)
    refine ⟨by dsimp only; omega, fun ne => ?_⟩
    obtain lt | eq := h.next_cases mq
    · have := loose q mq lt
      simp only [sum, behind, HEADER] at *
      omega
    · exact absurd eq ne
  case isFalse no => exact ⟨le_rfl, fun _ => no⟩

lemma link (h : FreeList base mem S T rs) (loose : Loose mem S) (fits : (rs.map Region.units).sum < 2 ^ 32)
    (mp : p ∈ S) (mb : bp ∈ T) (gap : Gap p (mem p).ptr bp) :
    ∃ S', FreeList base (Umalloc.link mem p bp) S' (T.erase bp) rs ∧ Loose (Umalloc.link mem p bp) S' ∧ p ∈ S' ∧
      S' ⊆ insert bp S ∧ ∃ x ∈ S', (mem bp).size ≤ (Umalloc.link mem p bp x).size := by
  have pb := h.ne mp mb
  have mq := (h.next p mp).mem
  obtain ⟨S₁, right, mb₁, mp₁, old⟩ := h.join fits mp mb rfl gap
  obtain ⟨more, apart⟩ := h.joined_loose loose fits mq mb
  generalize eqq : (mem p).ptr = q at *
  have first : (if behind bp (mem bp).size = q then
      Function.update mem bp ⟨(mem q).ptr, addUint (mem bp).size (mem q).size⟩ else setPtr mem bp q) =
      Function.update mem bp (joined mem q bp) := by
    rw [joined]
    split <;> rfl
  have bbase := (h.ne h.head mb).symm
  have sub : S₁ ⊆ insert bp S := fun x mx => Finset.mem_insert.2 (old x mx)
  generalize joined mem q bp = J at *
  simp only [Umalloc.link, eqq, first, Function.update_of_ne pb, Function.update_self]
  by_cases left : behind p (mem p).size = bp
  · have m := right.merge fits mp₁ (q := bp) (by simp [setPtr]) (by simpa [setPtr, Function.update_of_ne pb] using left) bbase
    have sum := right.layout.size_add_le (Finset.mem_union_left _ mp₁) (Finset.mem_union_left _ mb₁) pb
    simp only [setPtr, Function.update_of_ne pb, Function.update_of_ne pb.symm, Function.update_self] at m sum
    rw [if_pos left]
    have sum : addUint (mem p).size J.size = (mem p).size + J.size := Nat.mod_eq_of_lt (sum.trans_lt fits)
    refine ⟨S₁.erase bp, ?_, ?_, Finset.mem_erase.2 ⟨pb, mp₁⟩, (Finset.erase_subset _ _).trans sub, p,
      Finset.mem_erase.2 ⟨pb, mp₁⟩, ?_⟩
    · convert m using 1
      funext x
      simp only [Function.update_apply]
      grind
    · intro x mx
      obtain ⟨xb, mx⟩ := Finset.mem_erase.1 mx
      by_cases xp : x = p
      · subst xp
        simp only [Function.update_self, sum]
        intro lt
        have := apart (by have := h.layout.base_le (Finset.mem_union_left T mp); omega)
        simp only [behind, HEADER] at *
        omega
      · rw [Function.update_of_ne xp, Function.update_of_ne xb]
        exact loose x ((old x mx).resolve_left xb)
    · simp only [Function.update_self, sum]
      omega
  · rw [if_neg left]
    refine ⟨S₁, right, ?_, mp₁, sub, bp, mb₁, ?_⟩
    · intro x mx
      by_cases xp : x = p
      · subst xp
        simp only [setPtr, Function.update_self, Function.update_of_ne pb]
        exact fun _ => left
      · simp only [setPtr, Function.update_of_ne xp]
        by_cases xb : x = bp
        · subst xb
          simp only [Function.update_self]
          intro lt
          have := (h.layout.pos x (Finset.mem_union_right _ mb) bbase).1
          exact apart (by omega)
        · rw [Function.update_of_ne xb]
          exact loose x ((old x mx).resolve_left xb)
    · simpa [setPtr, Function.update_of_ne pb.symm] using more
end FreeList

end Xv6.Umalloc
