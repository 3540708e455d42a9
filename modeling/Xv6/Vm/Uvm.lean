import Xv6.Vm.Map

/-!
# User page tables

The functions of `kernel/vm.c` and `kernel/proc.c` that build, grow, shrink, copy and free the page table
of a process, as programs over page frames, and the proof that `freewalk` gives back every node of a
page table without leaf entries, and nothing else.
-/

namespace Xv6

open Frames Prog

attribute [local irreducible] PTE2PA PA2PTE PTE_FLAGS PX ByteVec.getLE ByteVec.putLE

/-- A `uint64` stored in an `int` and read back as a `uint64`. -/
def asInt (n : Nat) : Nat :=
  if n % 2 ^ 32 < 2 ^ 31 then n % 2 ^ 32 else 2 ^ 64 - 2 ^ 32 + n % 2 ^ 32

/-- An empty user page table; `none` if out of memory. -/
def uvmcreate : Kernel (Option Nat) := do
  match ← kalloc with
  | none => pure none
  | some pagetable =>
    store pagetable fun _ => 0
    pure (some pagetable)

/-- Deallocate user pages to bring the process size from `oldsz` to `newsz`. Returns the new size. -/
def uvmdealloc (pagetable oldsz newsz : Nat) : Kernel Nat :=
  if newsz ≥ oldsz then
    pure oldsz
  else do
    if PGROUNDUP newsz < PGROUNDUP oldsz then
      uvmunmap pagetable (PGROUNDUP newsz) (asInt ((PGROUNDUP oldsz - PGROUNDUP newsz) / PGSIZE)) true
    pure newsz

def uvmallocFrom (pagetable oldsz newsz xperm a : Nat) : Kernel Nat :=
  if a < newsz then do
    match ← kalloc with
    | none =>
      let _ ← uvmdealloc pagetable a oldsz
      pure 0
    | some mem =>
      store mem fun _ => 0
      if (← mappages pagetable a PGSIZE mem (PTE_R ||| PTE_U ||| xperm)) ≠ 0 then
        kfree mem
        let _ ← uvmdealloc pagetable a oldsz
        pure 0
      else
        uvmallocFrom pagetable oldsz newsz xperm (a + PGSIZE)
  else
    pure newsz
termination_by newsz - a
decreasing_by simp only [PGSIZE]; omega

/-- Allocate pages to grow a process from `oldsz` to `newsz`. Returns the new size, or 0 on error. -/
def uvmalloc (pagetable oldsz newsz xperm : Nat) : Kernel Nat :=
  if newsz < oldsz then
    pure oldsz
  else
    uvmallocFrom pagetable (PGROUNDUP oldsz) newsz xperm (PGROUNDUP oldsz)

/-- The last `n` rounds of the loop of `freewalk`, with `sub` for the recursive call. -/
def freeEntries (sub : Nat → Kernel Unit) (pagetable : Nat) : Nat → Kernel Unit
  | 0 => pure ()
  | n + 1 => do
    let i := 512 - (n + 1)
    let pte ← loadPte pagetable i
    if pte &&& PTE_V ≠ 0 ∧ pte &&& (PTE_R ||| PTE_W ||| PTE_X) = 0 then
      sub (PTE2PA pte)
      storePte pagetable i 0
      freeEntries sub pagetable n
    else if pte &&& PTE_V ≠ 0 then
      .panic "freewalk: leaf"
    else
      freeEntries sub pagetable n

/-- Free the pages of a page table, whose leaf entries must have been removed. The first argument bounds
the depth of the recursion: a page table has three levels. -/
def freewalk : Nat → Nat → Kernel Unit
  | 0, _ => .panic "freewalk: too deep"
  | depth + 1, pagetable => do
    freeEntries (freewalk depth) pagetable 512
    kfree pagetable

/-- Free user memory pages, then free page-table pages. -/
def uvmfree (pagetable sz : Nat) : Kernel Unit := do
  if sz > 0 then
    uvmunmap pagetable 0 (PGROUNDUP sz / PGSIZE) true
  freewalk 3 pagetable

def uvmcopyFrom (old new sz i : Nat) : Kernel Int :=
  if i < sz then do
    match ← walk old i false with
    | none => .panic "uvmcopy: pte should exist"
    | some (node, j) =>
      let pte ← loadPte node j
      if pte &&& PTE_V = 0 then
        .panic "uvmcopy: page not present"
      else
        match ← kalloc with
        | none =>
          uvmunmap new 0 (i / PGSIZE) true
          pure (-1)
        | some mem =>
          let page ← load (PTE2PA pte)
          store mem page
          if (← mappages new i PGSIZE mem (PTE_FLAGS pte)) ≠ 0 then
            kfree mem
            uvmunmap new 0 (i / PGSIZE) true
            pure (-1)
          else
            uvmcopyFrom old new sz (i + PGSIZE)
  else
    pure 0
termination_by sz - i
decreasing_by simp only [PGSIZE]; omega

/-- Copy the memory of a parent into the page table of its child. -/
def uvmcopy (old new sz : Nat) : Kernel Int := uvmcopyFrom old new sz 0

/-- Mark an entry invalid for user access. -/
def uvmclear (pagetable va : Nat) : Kernel Unit := do
  match ← walk pagetable va false with
  | none => .panic "uvmclear"
  | some (node, i) =>
    let pte ← loadPte node i
    storePte node i (pte &&& (2 ^ 64 - 1 - PTE_U))

/-- A user page table with the trampoline and the trapframe, and no user memory. -/
def procPagetable (trapframe : Nat) : Kernel (Option Nat) := do
  match ← uvmcreate with
  | none => pure none
  | some pagetable =>
    if (← mappages pagetable TRAMPOLINE PGSIZE trampoline (PTE_R ||| PTE_X)) < 0 then
      uvmfree pagetable 0
      pure none
    else if (← mappages pagetable TRAPFRAME PGSIZE trapframe (PTE_R ||| PTE_W)) < 0 then
      uvmunmap pagetable TRAMPOLINE 1 false
      uvmfree pagetable 0
      pure none
    else
      pure (some pagetable)

/-- Free the page table of a process and the memory it refers to. -/
def procFreepagetable (pagetable sz : Nat) : Kernel Unit := do
  uvmunmap pagetable TRAMPOLINE 1 false
  uvmunmap pagetable TRAPFRAME 1 false
  uvmfree pagetable sz

/-! ### `freewalk` -/

variable {V : Nat → Prop} {P : String → Prop} {h : Memory}

lemma entry_of_le {page : Page} {i} (le : 512 ≤ i) : entry page i = none := by
  rw [entry, ByteVec.getLE_of_le (by simp only [PGSIZE]; omega)]
  rfl

/-- A tree of allocator frames with no leaf entries, whose inner entries carry no permission. -/
structure Hollow (d : Nat) (h : Memory) (r : Nat) : Prop where
  tree : IsTree entry PTE2PA d h r
  inner : ∀ {p i pte}, p.length < d → lookup entry PTE2PA h r p i = some pte →
    pte &&& (PTE_R ||| PTE_W ||| PTE_X) = 0
  leaf : ∀ {p i}, p.length = d → lookup entry PTE2PA h r p i = none
  kinit : ∀ {x}, InTree entry PTE2PA d h r x → Kinit x

lemma Hollow.child {d r i e} (t : Hollow (d + 1) h r) (s : slot entry h r i = some e) :
    Hollow d h (PTE2PA e) := by
  have look : ∀ {p j}, lookup entry PTE2PA h (PTE2PA e) p j = lookup entry PTE2PA h r (i :: p) j := by
    intro p j
    rw [lookup, lookup, IsTree.node_child s]
  refine ⟨t.tree.child s, ?_, ?_, ?_⟩
  · intro p j pte lp get
    exact t.inner (p := i :: p) (by simpa using lp) (look ▸ get)
  · intro p j lp
    rw [look]
    exact t.leaf (by simpa using lp)
  · rintro x ⟨q, lq, nq⟩
    exact t.kinit ⟨i :: q, by simpa using lq, IsTree.node_child s ▸ nq⟩

lemma Hollow.prune {d h' r i e} (t : Hollow (d + 1) h r) (c : Pruned entry PTE2PA d h h' r i e) :
    Hollow (d + 1) h' r := by
  refine ⟨c.isTree t.tree, ?_, ?_, ?_⟩
  · intro p j pte lp get
    exact t.inner lp (c.lookup_old t.tree (by omega) get)
  · intro p j lp
    by_contra ne
    obtain ⟨pte, get⟩ := Option.ne_none_iff_exists'.1 ne
    have := c.lookup_old t.tree (by omega) get
    rw [t.leaf lp] at this
    cases this
  · rintro x ⟨q, lq, nq⟩
    exact t.kinit ⟨q, lq, (c.node_old t.tree (by omega) nq).2⟩

lemma pruned_freeEntries {d r i page} (get : h r = some page)
    (val : page.getLE (8 * i) 8 &&& PTE_V ≠ 0) (lt : i < 512) :
    Pruned entry PTE2PA d h
      (Function.update (rest entry PTE2PA d h (PTE2PA (page.getLE (8 * i) 8))) r
        (some (page.putLE (8 * i) 8 0))) r i (page.getLE (8 * i) 8) := by
  constructor
  case used => rw [slot, get, Option.bind_some, entry_eq_some val]
  case cut =>
    rw [slot, Function.update_self, Option.bind_some, entry_putLE lt (by decide)]
    rfl
  case others =>
    intro j ji
    rw [slot, slot, Function.update_self, Option.bind_some, get, Option.bind_some, entry_putLE_ne ji]
  case own => simp
  case off =>
    intro y yr
    rw [Function.update_of_ne yr]

/-- The loop of `freewalk` empties the root: it frees what hangs from it and nothing else. -/
lemma wp_freeEntries {sub d r n} (le : n ≤ 512) (t : Hollow d h r)
    (hs : ∀ d', d = d' + 1 → ∀ h c, Hollow d' h c →
      wp V P (sub c) (fun _ h' => h' = rest entry PTE2PA d' h c) h)
    (done : ∀ j, j < 512 - n → slot entry h r j = none) :
    wp V P (freeEntries sub r n) (fun _ h' => rest entry PTE2PA d h' r = rest entry PTE2PA d h r ∧
      ∃ page, h' r = some page ∧ ∀ j, entry page j = none) h := by
  induction n generalizing h with
  | zero =>
    obtain ⟨page, get⟩ := Option.ne_none_iff_exists'.1 (t.tree.inTree_own InTree.root)
    refine ⟨rfl, page, get, fun j => ?_⟩
    by_cases lj : j < 512
    · have := done j (by omega)
      rwa [slot, get, Option.bind_some] at this
    · exact entry_of_le (by omega)
  | succ n ih =>
    obtain ⟨page, get⟩ := Option.ne_none_iff_exists'.1 (t.tree.inTree_own InTree.root)
    have at_i : slot entry h r (512 - (n + 1)) = entry page (512 - (n + 1)) := by
      rw [slot, get, Option.bind_some]
    -- the rounds that follow, once this entry is empty
    have next : ∀ {h₁}, Hollow d h₁ r → rest entry PTE2PA d h₁ r = rest entry PTE2PA d h r →
        (∀ j, j < 512 - n → slot entry h₁ r j = none) →
        wp V P (freeEntries sub r n) (fun _ h' =>
          rest entry PTE2PA d h' r = rest entry PTE2PA d h r ∧
            ∃ page, h' r = some page ∧ ∀ j, entry page j = none) h₁ := by
      intro h₁ t₁ eq done₁
      exact eq ▸ ih (by omega) t₁ done₁
    simp only [freeEntries, wp_bind, wp_loadPte]
    refine ⟨page, get, ?_⟩
    by_cases val : page.getLE (8 * (512 - (n + 1))) 8 &&& PTE_V ≠ 0
    · -- a valid entry belongs to an inner node
      rw [entry_eq_some val] at at_i
      obtain ⟨d', rfl⟩ : ∃ d', d = d' + 1 := by
        refine Nat.exists_eq_succ_of_ne_zero fun dz => ?_
        have none := t.leaf (p := []) (i := 512 - (n + 1)) (by simp [dz])
        rw [lookup, node, Option.bind_some, at_i] at none
        cases none
      have flags := t.inner (p := []) (i := 512 - (n + 1)) (Nat.succ_pos d') at_i
      rw [if_pos ⟨val, flags⟩]
      have c := pruned_freeEntries (d := d') get val (by omega)
      have keep : rest entry PTE2PA d' h (PTE2PA (page.getLE (8 * (512 - (n + 1))) 8)) r = some page := by
        rw [rest_of_notMem, get]
        intro it
        obtain ⟨s, bad⟩ := t.tree.inTree_child at_i (q := []) (Nat.zero_le _) rfl it
        cases bad
      simp only [wp_bind]
      refine wp_mono (hs d' rfl h _ (t.child at_i)) ?_
      rintro _ _ rfl
      rw [wp_storePte]
      refine ⟨page, keep, next (t.prune c) (c.rest_eq t.tree) ?_⟩
      intro j lj
      by_cases ji : j = 512 - (n + 1)
      · rw [ji, c.cut]
      · rw [c.others j ji, done j (by omega)]
    · rw [if_neg fun both => val both.1, if_neg val]
      rw [entry_eq_none val] at at_i
      refine next t rfl ?_
      intro j lj
      by_cases ji : j = 512 - (n + 1)
      · rw [ji, at_i]
      · exact done j (by omega)

lemma wp_freewalk {d r} (t : Hollow d h r) :
    wp V P (freewalk (d + 1) r) (fun _ h' => h' = rest entry PTE2PA d h r) h := by
  induction d generalizing h r with
  | zero =>
    simp only [freewalk, wp_bind]
    refine wp_mono (wp_freeEntries (Nat.le_refl 512) t nofun (by omega)) ?_
    rintro _ h₁ ⟨eq, page, get, emp⟩
    refine wp_kfree (t.kinit InTree.root) get ?_
    rw [← eq, rest_single get emp]
  | succ d ih =>
    rw [freewalk, wp_bind]
    refine wp_mono (wp_freeEntries (Nat.le_refl 512) t ?_ (by omega)) ?_
    · rintro d' eq h c tc
      obtain rfl := Nat.succ.inj eq
      exact ih tc
    · rintro _ h₁ ⟨eq, page, get, emp⟩
      refine wp_kfree (t.kinit InTree.root) get ?_
      rw [← eq, rest_single get emp]

end Xv6
