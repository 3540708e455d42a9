import Xv6.Vm.Access

/-!
# `sbrk`

`growproc` of `kernel/proc.c` adds an `int` to the size of a process. It is exact or has no effect, except when the result
would be negative: `sz + n` is then a large `uint64`, `uvmdealloc` keeps the size, and `growproc` returns 0 all the same
(`growproc_exact_iff`).
-/

namespace Xv6

open Frames Prog

attribute [local irreducible] PTE2PA PA2PTE PTE_FLAGS PX ByteVec.getLE ByteVec.putLE

variable {h : Memory} {pt tf sz : Nat} {n : Int} {V : Nat → Prop} {P : String → Prop}

/-- The new size is the old one plus `n`. The pages below both sizes are the same, with the same contents; the others up to
the new size are zeroed pages for data. -/
structure Resized (h : Memory) (pt sz : Nat) (n : Int) (sz' : Nat) (h' : Memory) : Prop where
  size : (sz' : Int) = sz + n
  same : ∀ i < pages (min sz sz'), pageAt h' pt i = pageAt h pt i
  fresh : ∀ i, pages sz ≤ i → i < pages sz' → ∃ x, pageAt h' pt i = some (x, PTE_R ||| PTE_U ||| PTE_W ||| PTE_V, fun _ => 0)

/-- The size, the mappings and the contents of all pages are the same. -/
structure Untouched (h : Memory) (pt sz sz' : Nat) (h' : Memory) : Prop where
  size : sz' = sz
  maps : ∀ va, (abs h' pt va).map (fun pte => (PTE2PA pte, PTE_FLAGS pte)) =
    (abs h pt va).map fun pte => (PTE2PA pte, PTE_FLAGS pte)
  same : ∀ i < pages sz, pageAt h' pt i = pageAt h pt i

/-- `growproc` is exact or has no effect. -/
def SbrkExact (h : Memory) (pt sz : Nat) (n : Int) (res : Int × Nat) (h' : Memory) : Prop :=
  res.1 = 0 ∧ Resized h pt sz n res.2 h' ∨ res.1 = -1 ∧ Untouched h pt sz res.2 h'

/-- What the pages of a process may have when it grows: what they have, or zero. -/
def Grown (h : Memory) (pt : Nat) (us : List Nat) (i fl : Nat) (b : Page) : Prop :=
  Leaf i fl b ∧ (i < us.length → ∃ x, us[i]? = some x ∧ pageAt h pt i = some (x, fl, b)) ∧
    (us.length ≤ i → fl = PTE_R ||| PTE_U ||| PTE_W ||| PTE_V ∧ b = fun _ => 0)

section Grown

variable {top : Nat → Option Nat} {e h' : Memory} {us us' : List Nat}

lemma Space.grown (s : Space Leaf top e us pt h) : Space (Grown h pt us) top e us pt h :=
  s.exact.mono fun lt ok => ⟨ok.1, fun _ => ok.2, fun le => absurd lt (Nat.not_lt.2 le)⟩

lemma Space.grown_same {i} (s : Space (Grown h pt us) top e us' pt h') (pre : us' <+: us ∨ us <+: us') (lt : i < us.length)
    (lt' : i < us'.length) : Xv6.pageAt h' pt i = Xv6.pageAt h pt i := by
  obtain ⟨x, fl, b, at_i, eq, -, old, -⟩ := s.pageAt lt'
  obtain ⟨y, at_y, eq'⟩ := old lt
  have frame : us[i]? = us'[i]? := by
    obtain pre | pre := pre
    · rw [List.getElem?_eq_getElem lt, List.getElem?_eq_getElem lt', pre.getElem lt']
    · rw [List.getElem?_eq_getElem lt, List.getElem?_eq_getElem lt', pre.getElem lt]
  rw [frame, at_i] at at_y
  rw [eq, eq', Option.some.inj at_y]

end Grown

lemma wp_growproc_exact (hV : ∀ c, V c → Kinit c) (p : ProcMem pt tf sz h) (int : n < 2 ^ 31) (nonneg : 0 ≤ sz + n) :
    wp V P (growproc pt sz n) (SbrkExact h pt sz n) h := by
  obtain ⟨us, e, len, dom, s⟩ := p
  have small := s.length_le
  have fits := le_pages sz
  rw [← len] at fits
  have add : (addInt sz n : Int) = sz + n := by
    simp only [addInt, PGSIZE] at *
    omega
  have ht : ∀ v, v < TRAPFRAME → kernelTop tf v = none := fun v lt => kernelTop_none lt
  have hF : ∀ {i fl b}, Grown h pt us i fl b → fl ≠ PTE_V := fun ok => ok.1.ne_valid
  rw [growproc]
  split
  · rw [wp_bind]
    refine wp_mono (wp_uvmalloc hV ht hF s.grown len (by decide) fun le => ?_) ?_
    · exact ⟨userLeaf_write.1, fun lt => absurd lt (Nat.not_lt.2 le), fun _ => ⟨rfl, rfl⟩⟩
    rintro sz1 h' (⟨eq, us', pre, len', s'⟩ | ⟨rfl, s'⟩)
    · rw [if_neg (by omega)]
      refine .inl ⟨rfl, ⟨by dsimp only; omega, fun i lt => ?_, fun i le lt => ?_⟩⟩
      · rw [Nat.min_eq_left (by omega), ← len] at lt
        exact s'.grown_same (.inr pre) lt (Nat.lt_of_lt_of_le lt pre.length_le)
      · rw [← len] at le
        rw [← len'] at lt
        obtain ⟨x, fl, b, -, eq, -, -, new⟩ := s'.pageAt lt
        obtain ⟨rfl, rfl⟩ := new le
        exact ⟨x, eq⟩
    · have same : ∀ i < us.length, pageAt h' pt i = pageAt h pt i :=
        fun i lt => s'.grown_same (.inl (List.prefix_refl us)) lt lt
      rw [if_pos rfl]
      exact .inr ⟨rfl, ⟨rfl, s.abs_congr s' same, fun i lt => same i (by rwa [len])⟩⟩
  split
  · rw [wp_bind]
    refine wp_mono (wp_uvmdealloc hV ht hF s.grown len) ?_
    rintro sz1 h' ⟨rfl, s'⟩
    have eq : min sz (addInt sz n) = addInt sz n := Nat.min_eq_right (by omega)
    rw [eq] at s' ⊢
    have le : pages (addInt sz n) ≤ us.length := by
      rw [len]
      exact pages_mono (by omega)
    refine .inl ⟨rfl, ⟨add, fun i lt => ?_, fun i le lt => ?_⟩⟩
    · rw [Nat.min_eq_right (by dsimp only; omega)] at lt
      refine s'.grown_same (.inl (List.take_prefix _ us)) (Nat.lt_of_lt_of_le lt le) ?_
      rwa [List.length_take_of_le le]
    · rw [← len] at le
      dsimp only at lt
      omega
  · refine .inl ⟨rfl, ⟨by dsimp only; omega, fun i _ => rfl, fun i le lt => ?_⟩⟩
    dsimp only at lt
    omega

lemma growproc_negative (small : sz < 2 ^ 32) (int : -2 ^ 31 ≤ n) (neg : sz + n < 0) : growproc pt sz n = pure (0, sz) := by
  have wrap : addInt sz n ≥ sz := by
    simp only [addInt]
    omega
  rw [growproc, if_neg (by omega), if_pos (by omega), uvmdealloc, if_pos wrap]
  rfl

lemma ProcMem.small (p : ProcMem pt tf sz h) : sz < 2 ^ 32 := by
  obtain ⟨us, e, len, dom, s⟩ := p
  have small := s.length_le
  have fits := le_pages sz
  rw [← len] at fits
  simp only [PGSIZE] at fits
  omega

/-- `growproc` is exact or has no effect iff the new size is not negative. -/
theorem growproc_exact_iff (hV : ∀ c, V c → Kinit c) (p : ProcMem pt tf sz h) (int : -2 ^ 31 ≤ n ∧ n < 2 ^ 31) :
    wp V P (growproc pt sz n) (SbrkExact h pt sz n) h ↔ 0 ≤ sz + n := by
  refine ⟨fun w => ?_, wp_growproc_exact hV p int.2⟩
  by_contra neg
  rw [growproc_negative p.small int.1 (Int.not_le.1 neg)] at w
  obtain ⟨-, r⟩ | ⟨bad, -⟩ := w
  · have size := r.size
    dsimp only at size
    omega
  · exact absurd bad (show (0 : Int) ≠ -1 by decide)

/-- A process with one page grows by one byte. -/
theorem growproc_exact_one : ∃ pt tf h, ProcMem pt tf PGSIZE h ∧
    wp Kinit (fun _ => False) (growproc pt PGSIZE 1) (SbrkExact h pt PGSIZE 1) h := by
  obtain ⟨pt, tf, h, x, pte, p, -⟩ := exists_pageZero (.inr rfl)
  exact ⟨pt, tf, h, p, (growproc_exact_iff (fun _ kin => kin) p (by decide)).2 (by decide)⟩

/-- A process with one page asks to shrink by a byte more than it has: `growproc` returns 0, and its size is what it was. -/
theorem growproc_below_zero : ∃ pt tf h, ProcMem pt tf PGSIZE h ∧ growproc pt PGSIZE (-4097) = pure (0, PGSIZE) ∧
    ¬wp Kinit (fun _ => False) (growproc pt PGSIZE (-4097)) (SbrkExact h pt PGSIZE (-4097)) h := by
  obtain ⟨pt, tf, h, x, pte, p, -⟩ := exists_pageZero (.inr rfl)
  have eq : growproc pt PGSIZE (-4097) = pure (0, PGSIZE) := growproc_negative (by decide) (by decide) (by decide)
  refine ⟨pt, tf, h, p, eq, fun w => ?_⟩
  rw [eq] at w
  obtain ⟨-, r⟩ | ⟨bad, -⟩ := w
  · exact absurd r.size (by decide)
  · exact absurd bad (by decide)

end Xv6
