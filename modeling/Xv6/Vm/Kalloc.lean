import Xv6.Vm.Walk
import Xv6.Lib.Pool

/-!
# The free list in memory

`kalloc.c` keeps the list of the free frames in the frames themselves: the first word of a free frame is the address of the
next one. The functions here are those of the source, on all of memory. They do what the programs of `Vm.Walk` do with the list
of a `Store`, as long as nobody frees or writes a frame that is free (`kmem_refines`).
-/

namespace Xv6.Kalloc

attribute [local irreducible] ByteVec.getLE ByteVec.putLE

/-- The memory, and `kmem.freelist`. -/
structure Kmem where
  pages : ℕ → Page
  freelist : ℕ

/-- `kfree`, which may panic. -/
def kfree (pa : ℕ) (k : Kmem) : Option Kmem :=
  if pa % PGSIZE ≠ 0 ∨ pa < «end» ∨ pa ≥ PHYSTOP then none
  else some ⟨Function.update k.pages pa (ByteVec.putLE (fun _ => 1) 0 8 k.freelist), pa⟩

/-- `kalloc`: an address, or 0. -/
def kalloc (k : Kmem) : ℕ × Kmem :=
  if k.freelist = 0 then (0, k)
  else (k.freelist, ⟨Function.update k.pages k.freelist fun _ => 5, (k.pages k.freelist).getLE 0 8⟩)

/-- The loop of `freerange`. -/
def freeFrom (pa_end pa : ℕ) (k : Kmem) : Option Kmem :=
  if pa + PGSIZE ≤ pa_end then (kfree pa k).bind (freeFrom pa_end (pa + PGSIZE)) else some k
termination_by pa_end - pa
decreasing_by
  simp only [PGSIZE] at *
  omega

def freerange (pa_start pa_end : ℕ) : Kmem → Option Kmem := freeFrom pa_end (PGROUNDUP pa_start)

/-- `kinit`, with anything in memory. -/
def kinit (pages : ℕ → Page) : Option Kmem := freerange «end» PHYSTOP ⟨pages, 0⟩

/-- The frames from an address on, each with the address of the next one. -/
def Chain (pages : ℕ → Page) : ℕ → List ℕ → Prop
  | p, [] => p = 0
  | p, q :: l => p = q ∧ Chain pages ((pages q).getLE 0 8) l

/-- The memory has the list of free frames, and the contents of the others. -/
structure Lists (k : Kmem) (s : Store ℕ Page) : Prop where
  chain : Chain k.pages k.freelist s.free
  mem : ∀ pa, pa ∉ s.free → k.pages pa = s.mem pa
  nodup : s.free.Nodup
  kinit : ∀ pa ∈ s.free, Kinit pa

variable {k : Kmem} {s : Store ℕ Page} {pa p : ℕ} {page : Page} {l : List ℕ}

lemma Chain.update {pages : ℕ → Page} (chain : Chain pages p l) (out : pa ∉ l) : Chain (Function.update pages pa page) p l := by
  induction l generalizing p with
  | nil => exact chain
  | cons q l ih =>
    obtain ⟨rfl, rest⟩ := chain
    obtain ⟨ne, out⟩ := not_or.mp (List.mem_cons.not.mp out)
    refine ⟨rfl, ?_⟩
    rw [Function.update_of_ne (Ne.symm ne)]
    exact ih rest out

lemma Lists.store (L : Lists k s) (out : pa ∉ s.free) :
    Lists { k with pages := Function.update k.pages pa page } { s with mem := Function.update s.mem pa page } := by
  refine ⟨L.chain.update out, fun x free => ?_, L.nodup, L.kinit⟩
  by_cases eq : x = pa
  · simp [eq]
  · simpa [eq] using L.mem x free

lemma Lists.kfree (L : Lists k s) (valid : Kinit pa) (out : pa ∉ s.free) :
    ∃ k', kfree pa k = some k' ∧ Lists k' ⟨Function.update s.mem pa fun _ => 1, pa :: s.free⟩ := by
  obtain ⟨aligned, low, high⟩ := valid
  have small : k.freelist < 256 ^ 8 := by
    cases free : s.free with
    | nil =>
      have zero := L.chain
      rw [free] at zero
      exact zero ▸ by decide
    | cons q l =>
      have head := L.chain
      rw [free] at head
      have lt := (L.kinit q (by simp [free])).2.2
      rw [head.1]
      exact lt.trans (by decide)
  refine ⟨_, if_neg (by omega), ⟨rfl, ?_⟩, fun x free => ?_, List.nodup_cons.mpr ⟨out, L.nodup⟩, ?_⟩
  · simp only [Function.update_self]
    rw [ByteVec.getLE_putLE (by decide), Nat.mod_eq_of_lt small]
    exact L.chain.update out
  · obtain ⟨ne, free⟩ := not_or.mp (List.mem_cons.not.mp free)
    simpa [ne] using L.mem x free
  · rintro x (_ | ⟨_, mem⟩)
    · exact ⟨aligned, low, high⟩
    · exact L.kinit x mem

lemma Lists.kalloc (L : Lists k s) :
    ∃ o s', Xv6.kalloc.run s = some (o, s') ∧ (kalloc k).1 = o.getD 0 ∧ Lists (kalloc k).2 s' := by
  obtain ⟨mem, free⟩ := s
  cases free with
  | nil =>
    have zero : k.freelist = 0 := L.chain
    have eq : Kalloc.kalloc k = (0, k) := if_pos zero
    exact ⟨none, _, rfl, by rw [eq]; rfl, eq ▸ L⟩
  | cons c fs =>
    obtain ⟨head, rest⟩ := L.chain
    have valid := L.kinit c (List.mem_cons_self ..)
    obtain ⟨out, nodup⟩ := List.nodup_cons.mp L.nodup
    have ne : k.freelist ≠ 0 := by
      rw [head]
      have := valid.2.1
      simp only [«end»] at this
      omega
    have eq : Kalloc.kalloc k = (c, ⟨Function.update k.pages c fun _ => 5, (k.pages c).getLE 0 8⟩) := by
      rw [Kalloc.kalloc, if_neg ne, head]
    refine ⟨some c, _, rfl, by rw [eq]; rfl, eq ▸ ⟨rest.update out, fun x free => ?_, nodup, fun x mem => ?_⟩⟩
    · by_cases eq : x = c
      · simp [eq]
      · simpa [eq] using L.mem x (by simp [eq, free])
    · exact L.kinit x (List.mem_cons_of_mem c mem)

lemma next_le {x : ℕ} (aligned : pa % PGSIZE = 0) (aligned' : x % PGSIZE = 0) (lt : pa < x) : pa + PGSIZE ≤ x := by
  simp only [PGSIZE] at *
  omega

/-- The rest of the range is freed. -/
lemma Lists.freeFrom (L : Lists k s) (aligned : pa % PGSIZE = 0) (low : «end» ≤ pa) (below : ∀ x ∈ s.free, x < pa) :
    ∃ k' s', freeFrom PHYSTOP pa k = some k' ∧ Lists k' s' ∧ ∀ x, x ∈ s'.free ↔ x ∈ s.free ∨ Kinit x ∧ pa ≤ x := by
  have range : ∀ x, Kinit x ↔ x % PGSIZE = 0 ∧ «end» ≤ x ∧ x < PHYSTOP := fun x => Iff.rfl
  have last : PHYSTOP % PGSIZE = 0 := by decide
  have pos : 0 < PGSIZE := by decide
  generalize PHYSTOP = pa_end at *
  generalize «end» = start at *
  induction len : pa_end - pa using Nat.strongRecOn generalizing pa k s with
  | ind m ih =>
    unfold Kalloc.freeFrom
    split_ifs with more
    · have valid : Kinit pa := (range pa).mpr ⟨aligned, low, by omega⟩
      obtain ⟨k₁, free, L₁⟩ := L.kfree valid fun mem => lt_irrefl pa (below pa mem)
      have below₁ : ∀ x ∈ pa :: s.free, x < pa + PGSIZE := by
        rintro x (_ | ⟨_, mem⟩)
        · omega
        · exact (below x mem).trans_le (Nat.le_add_right ..)
      obtain ⟨k', s', run, L', all⟩ :=
        ih (pa_end - (pa + PGSIZE)) (by omega) L₁ (by rw [Nat.add_mod_right, aligned]) below₁ (by omega) rfl
      refine ⟨k', s', by rw [free, Option.bind_some, run], L', fun x => ?_⟩
      rw [all, List.mem_cons]
      constructor
      · rintro ((rfl | mem) | ⟨kinit, ge⟩)
        exacts [.inr ⟨valid, le_rfl⟩, .inl mem, .inr ⟨kinit, by omega⟩]
      · rintro (mem | ⟨kinit, ge⟩)
        · exact .inl (.inr mem)
        · obtain rfl | gt := Nat.eq_or_lt_of_le ge
          exacts [.inl (.inl rfl), .inr ⟨kinit, next_le aligned ((range x).mp kinit).1 gt⟩]
    · refine ⟨k, s, rfl, L, fun x => ⟨.inl, ?_⟩⟩
      rintro (mem | ⟨kinit, ge⟩)
      · exact mem
      · exact absurd (next_le aligned last (ge.trans_lt ((range x).mp kinit).2.2)) more

/-- Calls of the allocator, and writes to memory. -/
inductive Call where
  | kalloc
  | kfree (pa : ℕ)
  | store (pa : ℕ) (page : Page)

def Call.prog : Call → Kernel (Option ℕ)
  | kalloc => Xv6.kalloc
  | kfree pa => do
    Xv6.kfree pa
    pure none
  | store pa page => do
    Prog.store pa page
    pure none

/-- The function of `kalloc.c`, whose result is an address or 0. -/
def Call.exec (k : Kmem) : Call → Option (ℕ × Kmem)
  | kalloc => some (Kalloc.kalloc k)
  | kfree pa => (Kalloc.kfree pa k).map fun k => (0, k)
  | store pa page => some (0, { k with pages := Function.update k.pages pa page })

/-- Nobody frees or writes a frame that is free. -/
def Call.Ok (s : Store ℕ Page) : Call → Prop
  | kalloc => True
  | kfree pa => Kinit pa ∧ pa ∉ s.free
  | store pa _ => pa ∉ s.free

/-- Calls one after another, as programs, with their results. -/
inductive Progs : Store ℕ Page → List Call → List ℕ → Store ℕ Page → Prop where
  | nil {s : Store ℕ Page} : Progs s [] [] s
  | cons {s s' s'' : Store ℕ Page} {c cs o rs} :
    c.Ok s →
    c.prog.run s = some (o, s') →
    Progs s' cs rs s'' →
    Progs s (c :: cs) (o.getD 0 :: rs) s''

def execs : List Call → Kmem → Option (List ℕ × Kmem)
  | [], k => some ([], k)
  | c :: cs, k => (c.exec k).bind fun (r, k) => (execs cs k).map fun (rs, k) => (r :: rs, k)

lemma Lists.call {c : Call} {o s'} (L : Lists k s) (ok : c.Ok s) (run : c.prog.run s = some (o, s')) :
    ∃ k', c.exec k = some (o.getD 0, k') ∧ Lists k' s' := by
  cases c with
  | kalloc =>
    obtain ⟨o', t, run', eq, L'⟩ := L.kalloc
    obtain ⟨rfl, rfl⟩ := Prod.mk.inj (Option.some.inj (run'.symm.trans run))
    exact ⟨_, congrArg some (Prod.ext eq rfl), L'⟩
  | kfree pa =>
    obtain ⟨⟨aligned, low, high⟩, out⟩ := ok
    obtain ⟨k', eq, L'⟩ := L.kfree ⟨aligned, low, high⟩ out
    have prog : Xv6.kfree pa = (do Prog.store pa fun _ => 1; Prog.drop pa) := if_neg (by omega)
    simp only [Call.prog, prog] at run
    cases run
    exact ⟨k', by simp [Call.exec, eq], L'⟩
  | store pa page =>
    cases run
    exact ⟨_, rfl, L.store ok⟩

lemma Lists.calls {cs rs s'} (L : Lists k s) (progs : Progs s cs rs s') : ∃ k', execs cs k = some (rs, k') ∧ Lists k' s' := by
  induction progs generalizing k with
  | nil => exact ⟨k, rfl, L⟩
  | cons ok run _ ih =>
    obtain ⟨k₁, eq, L₁⟩ := L.call ok run
    obtain ⟨k', rest, L'⟩ := ih L₁
    exact ⟨k', by simp [execs, eq, rest], L'⟩

/-- From `kinit` on, the functions give the results of the programs on the list of all frames, and leave the contents of the
frames that are not free as the programs do. -/
theorem kmem_refines (pages : ℕ → Page) :
    ∃ (k : Kmem) (s : Store ℕ Page), kinit pages = some k ∧ s.free.Nodup ∧ (∀ pa, pa ∈ s.free ↔ Kinit pa) ∧
      ∀ cs rs s', Progs s cs rs s' → ∃ k', execs cs k = some (rs, k') ∧ ∀ pa, pa ∉ s'.free → k'.pages pa = s'.mem pa := by
  have empty : Lists ⟨pages, 0⟩ ⟨pages, []⟩ := ⟨rfl, fun _ _ => rfl, List.nodup_nil, by simp⟩
  obtain ⟨k, s, run, L, all⟩ := empty.freeFrom (by decide : PGROUNDUP «end» % PGSIZE = 0) (by decide) (by simp)
  refine ⟨k, s, run, L.nodup, fun pa => ?_, fun cs rs s' progs => ?_⟩
  · have first : PGROUNDUP «end» = 0x80024000 := by decide
    rw [all, first]
    refine ⟨?_, fun kinit => .inr ⟨kinit, ?_⟩⟩
    · rintro (mem | ⟨kinit, -⟩)
      exacts [absurd mem List.not_mem_nil, kinit]
    · obtain ⟨aligned, low, -⟩ := kinit
      simp only [PGSIZE, «end»] at aligned low
      omega
  · obtain ⟨k', eq, L'⟩ := L.calls progs
    exact ⟨k', eq, L'.mem⟩

end Xv6.Kalloc
