import Xv6.Vm.Map

/-!
# The page table as a finite map

The tree of page-table pages refines a partial map from virtual pages to physical pages and flags. The
map is what `walk` finds (`translate`); `walk` never changes it, `mappages` extends it on the pages of
the range, or on a prefix of them if it fails, and `uvmunmap` removes the pages of the range.

A tree is well formed when its nodes are distinct and none of them is also mapped. `mappages` keeps
this when the frames it is given are neither nodes nor free; `kvmmake` maps all of RAM, its own
page-table pages included, and so ends with a tree that is not well formed.
-/

namespace Xv6

open Frames Prog

attribute [local irreducible] PTE2PA PA2PTE PTE_FLAGS PX ByteVec.getLE ByteVec.putLE

/-- The physical address and the flags of a virtual address. -/
def translate (h : Memory) (pt va : Nat) : Option (Nat × Nat) :=
  (abs h pt va).map fun pte => (PTE2PA pte, PTE_FLAGS pte)

/-- The nodes are distinct and unshared, and no leaf entry names one. -/
structure WellFormed (h : Memory) (pt : Nat) : Prop where
  tree : IsTree entry PTE2PA 2 h pt
  leaves : ∀ {va pte}, abs h pt va = some pte → ¬InTree entry PTE2PA 2 h pt (PTE2PA pte)

variable {V : Nat → Prop} {P : String → Prop} {h h' : Memory} {pt va : Nat} {m : Nat → Option Nat}

lemma IsTree.table (t : IsTree entry PTE2PA 2 h pt) :
    PageTable h pt (abs h pt) (rest entry PTE2PA 2 h pt) := ⟨t, rfl, rfl⟩

/-- A tree that has grown by frames of the allocator stays well formed if its leaves are neither old
nodes nor frames of the allocator. -/
lemma PageTable.wellFormed (t : PageTable h' pt m (Frames.rest entry PTE2PA 2 h pt))
    (own : ∀ x, h' x ≠ none → h x ≠ none ∨ V x)
    (leaves : ∀ va pte, m va = some pte →
      ¬V (PTE2PA pte) ∧ ¬InTree entry PTE2PA 2 h pt (PTE2PA pte)) : WellFormed h' pt := by
  refine ⟨t.tree, ?_⟩
  intro va pte get it
  rw [t.map] at get
  obtain ⟨nv, old⟩ := leaves va pte get
  have hx := (own _ (t.tree.inTree_own it)).resolve_right nv
  -- a frame owned beside the old tree is still beside the new one
  have nr : Frames.rest entry PTE2PA 2 h' pt (PTE2PA pte) ≠ none := by
    rw [t.rest]
    exact rest_ne_none.2 ⟨old, hx⟩
  exact (rest_ne_none.1 nr).1 it

lemma walk_refines {alloc} (hV : ∀ c, V c → Frame c) (wf : WellFormed h pt)
    (inUse : ∀ va pte, abs h pt va = some pte → ¬V (PTE2PA pte)) (lt : va < MAXVA) :
    wp V P (walk pt va alloc) (fun res h' =>
      (match res with
        | none => translate h pt va = none
        | some (x, i) => ∃ page, h' x = some page ∧ entry page i = abs h pt va) ∧
      translate h' pt = translate h pt ∧ WellFormed h' pt) h := by
  refine wp_mono (wp_own (wp_walk hV (IsTree.table wf.tree) lt)) ?_
  rintro res h' ⟨w, own⟩
  refine ⟨?_, ?_, ?_⟩
  · have found := w.found
    cases nd : node entry PTE2PA h' pt (indices va 2) with
    | none =>
      rw [nd] at found
      subst found
      rw [translate, w.table.map_none nd]
      rfl
    | some x =>
      rw [nd] at found
      subst found
      obtain ⟨page, get⟩ := w.table.get nd
      exact ⟨page, get, (w.table.map_eq (Nat.lt_trans lt (by decide)) nd get).symm⟩
  · funext v
    rw [translate, w.table.map, translate]
  · exact w.table.wellFormed own fun va pte get => ⟨inUse va pte get, wf.leaves get⟩

lemma map_mapPages {a n pa perm v} (alp : pa % PGSIZE = 0) (fit : pa + n * PGSIZE ≤ 2 ^ 56)
    (hp : perm < 2 ^ 10) :
    (mapPages m a n pa perm v).map (fun pte => (PTE2PA pte, PTE_FLAGS pte)) =
      if a ≤ v ∧ v < a + n * PGSIZE then
        some (pa + (v - a) / PGSIZE * PGSIZE, perm ||| PTE_V)
      else (m v).map fun pte => (PTE2PA pte, PTE_FLAGS pte) := by
  have hp' : perm ||| PTE_V < 2 ^ 10 := Nat.or_lt_two_pow hp (by decide)
  rw [mapPages]
  split
  · rename_i rng
    have fr : Frame (pa + (v - a) / PGSIZE * PGSIZE) := by
      constructor <;> simp only [PGSIZE] at * <;> omega
    rw [Option.map_some, Nat.or_assoc, PTE2PA_or fr hp', PTE_FLAGS_or hp']
  · rfl

lemma mapPages_cases {a n pa perm v pte} (alp : pa % PGSIZE = 0) (fit : pa + n * PGSIZE ≤ 2 ^ 56)
    (hp : perm < 2 ^ 10) (get : mapPages m a n pa perm v = some pte) :
    m v = some pte ∨ ∃ i, i < n ∧ PTE2PA pte = pa + i * PGSIZE := by
  have hp' : perm ||| PTE_V < 2 ^ 10 := Nat.or_lt_two_pow hp (by decide)
  rw [mapPages] at get
  split at get
  · rename_i rng
    have fr : Frame (pa + (v - a) / PGSIZE * PGSIZE) := by
      constructor <;> simp only [PGSIZE] at * <;> omega
    refine .inr ⟨(v - a) / PGSIZE, by simp only [PGSIZE] at *; omega, ?_⟩
    rw [← Option.some.inj get, Nat.or_assoc, PTE2PA_or fr hp']
  · exact .inl get

/-- The map with `n` pages from `a` on entered, and nothing else changed. -/
def Entered (h h' : Memory) (pt a n pa perm : Nat) : Prop :=
  ∀ v, translate h' pt v =
    if a ≤ v ∧ v < a + n * PGSIZE then some (pa + (v - a) / PGSIZE * PGSIZE, perm ||| PTE_V)
    else translate h pt v

/-- The map with `n` pages from `a` on removed, and nothing else changed. -/
def Removed (h h' : Memory) (pt a n : Nat) : Prop :=
  ∀ v, translate h' pt v = if a ≤ v ∧ v < a + n * PGSIZE then none else translate h pt v

/-- `mappages` enters the pages of the range, or a prefix of them. It keeps well-formedness if the
frames it is given are neither nodes nor free. -/
lemma mappages_refines {size pa perm} (hV : ∀ c, V c → Frame c) (wf : WellFormed h pt)
    (inUse : ∀ va pte, abs h pt va = some pte → ¬V (PTE2PA pte)) (pos : 0 < size)
    (lt : va + size ≤ MAXVA) (alp : pa % PGSIZE = 0) (fit : pa + size + PGSIZE ≤ 2 ^ 56)
    (hp : perm < 2 ^ 10) :
    wp V (fun msg => msg = "mappages: remap" ∧ ∃ v, PGROUNDDOWN va ≤ v ∧
        v < PGROUNDDOWN va + npages va size * PGSIZE ∧ translate h pt v ≠ none)
      (mappages pt va size pa perm) (fun res h' =>
      ((res = 0 ∧ Entered h h' pt (PGROUNDDOWN va) (npages va size) pa perm) ∨
        (res = -1 ∧ ∃ k, k < npages va size ∧ Entered h h' pt (PGROUNDDOWN va) k pa perm)) ∧
      ((∀ i, i < npages va size →
          ¬V (pa + i * PGSIZE) ∧ ¬InTree entry PTE2PA 2 h pt (pa + i * PGSIZE)) →
        WellFormed h' pt)) h := by
  have fit' : pa + npages va size * PGSIZE ≤ 2 ^ 56 := by
    simp only [npages, PGSIZE] at *
    omega
  refine wp_mono (wp_own (wp_mappages hV (IsTree.table wf.tree) pos lt alp fit hp ?_)) ?_
  · intro v lo hi ne
    refine ⟨rfl, v, lo, hi, ?_⟩
    rwa [translate, ne_eq, Option.map_eq_none_iff]
  · rintro res h' ⟨mp, own⟩
    -- both outcomes enter some number `k` of pages
    have done : ∀ {k}, k ≤ npages va size →
        PageTable h' pt (mapPages (abs h pt) (PGROUNDDOWN va) k pa perm)
          (Frames.rest entry PTE2PA 2 h pt) →
        Entered h h' pt (PGROUNDDOWN va) k pa perm ∧
        ((∀ i, i < npages va size →
          ¬V (pa + i * PGSIZE) ∧ ¬InTree entry PTE2PA 2 h pt (pa + i * PGSIZE)) →
        WellFormed h' pt) := by
      intro k lk t
      have fk : pa + k * PGSIZE ≤ 2 ^ 56 :=
        Nat.le_trans (Nat.add_le_add_left (Nat.mul_le_mul_right _ lk) _) fit'
      refine ⟨fun v => ?_, fun frames => t.wellFormed own fun v pte get => ?_⟩
      · rw [translate, t.map, map_mapPages alp fk hp, translate]
      · obtain old | ⟨i, li, eq⟩ := mapPages_cases alp fk hp get
        · exact ⟨inUse v pte old, wf.leaves old⟩
        · rw [eq]
          exact frames i (by omega)
    obtain ⟨rz, t⟩ | ⟨rm, k, lk, t, -⟩ := mp.result
    · exact ⟨.inl ⟨rz, (done (Nat.le_refl _) t).1⟩, (done (Nat.le_refl _) t).2⟩
    · exact ⟨.inr ⟨rm, k, lk, (done (Nat.le_of_lt lk) t).1⟩, (done (Nat.le_of_lt lk) t).2⟩

lemma uvmunmap_refines {n doFree} (hV : ∀ c, V c → Frame c) (wf : WellFormed h pt)
    (al : va % PGSIZE = 0) (le : va + n * PGSIZE ≤ MAXVA)
    (leaf : ∀ v, va ≤ v → v < va + n * PGSIZE → ∃ pa fl, translate h pt v = some (pa, fl) ∧ fl ≠ PTE_V)
    (own : doFree = true → Owned (abs h pt) (rest entry PTE2PA 2 h pt) va n) :
    wp V P (uvmunmap pt va n doFree) (fun _ h' => Removed h h' pt va n ∧ WellFormed h' pt) h := by
  refine wp_mono (wp_uvmunmap hV (IsTree.table wf.tree) al le ?_ own) fun _ h' u => ⟨fun v => ?_, ?_⟩
  · intro v lo hi
    obtain ⟨pa, fl, tr, ne⟩ := leaf v lo hi
    obtain ⟨pte, get, eq⟩ := Option.map_eq_some_iff.1 tr
    cases eq
    exact ⟨pte, get, ne⟩
  · rw [translate, u.table.map, unmapPages]
    split <;> rfl
  · refine ⟨u.table.tree, ?_⟩
    intro v pte get it
    rw [u.table.map, unmapPages] at get
    split at get
    · cases get
    · refine wf.leaves get ?_
      obtain ⟨q, lq, nq⟩ := it
      exact ⟨q, lq, (u.same lq).symm.trans nq⟩

/-- The operations on a well-formed tree refine those on a finite map. The frames `V` are those the
allocator may hand out; a mapped frame is not one of them. -/
theorem page_table_refines_map (hV : ∀ c, V c → Frame c) (wf : WellFormed h pt)
    (inUse : ∀ va pte, abs h pt va = some pte → ¬V (PTE2PA pte)) :
    (∀ P va alloc, va < MAXVA → wp V P (walk pt va alloc) (fun res h' =>
      (match res with
        | none => translate h pt va = none
        | some (x, i) => ∃ page, h' x = some page ∧ entry page i = abs h pt va) ∧
      translate h' pt = translate h pt ∧ WellFormed h' pt) h) ∧
    (∀ va size pa perm, 0 < size → va + size ≤ MAXVA → pa % PGSIZE = 0 →
      pa + size + PGSIZE ≤ 2 ^ 56 → perm < 2 ^ 10 →
      wp V (fun msg => msg = "mappages: remap" ∧ ∃ v, PGROUNDDOWN va ≤ v ∧
          v < PGROUNDDOWN va + npages va size * PGSIZE ∧ translate h pt v ≠ none)
        (mappages pt va size pa perm) (fun res h' =>
        ((res = 0 ∧ Entered h h' pt (PGROUNDDOWN va) (npages va size) pa perm) ∨
          (res = -1 ∧ ∃ k, k < npages va size ∧ Entered h h' pt (PGROUNDDOWN va) k pa perm)) ∧
        ((∀ i, i < npages va size →
            ¬V (pa + i * PGSIZE) ∧ ¬InTree entry PTE2PA 2 h pt (pa + i * PGSIZE)) →
          WellFormed h' pt)) h) ∧
    (∀ P va n doFree, va % PGSIZE = 0 → va + n * PGSIZE ≤ MAXVA →
      (∀ v, va ≤ v → v < va + n * PGSIZE →
        ∃ pa fl, translate h pt v = some (pa, fl) ∧ fl ≠ PTE_V) →
      (doFree = true → Owned (abs h pt) (rest entry PTE2PA 2 h pt) va n) →
      wp V P (uvmunmap pt va n doFree) (fun _ h' => Removed h h' pt va n ∧ WellFormed h' pt) h) := by
  refine ⟨?_, ?_, ?_⟩
  · intro P va alloc lt
    exact walk_refines hV wf inUse lt
  · intro va size pa perm pos lt alp fit hp
    exact mappages_refines hV wf inUse pos lt alp fit hp
  · intro P va n doFree al le leaf own
    exact uvmunmap_refines hV wf al le leaf own

/-- An empty page table at the first frame of the allocator. -/
def rootOnly : Memory := Function.update (fun _ => none) 0x80024000 (some fun _ => 0)

/-- The same with a node for the first gigabyte of RAM. -/
def withGigabyte : Memory :=
  Function.update (Function.update rootOnly 0x80025000 (some fun _ => 0)) 0x80024000
    (some (ByteVec.putLE (fun _ => 0) (8 * 2) 8 (PA2PTE 0x80025000 ||| PTE_V)))

/-- The same with a node for the first two megabytes of RAM. -/
def withMegabytes : Memory :=
  Function.update (Function.update withGigabyte 0x80026000 (some fun _ => 0)) 0x80025000
    (some (ByteVec.putLE (fun _ => 0) (8 * 0) 8 (PA2PTE 0x80026000 ||| PTE_V)))

lemma withMegabytes_table : PageTable withMegabytes 0x80024000 (fun _ => none) (fun _ => none) ∧
    node entry PTE2PA withMegabytes 0x80024000 [2, 0] = some 0x80026000 := by
  have z : ∀ i, ¬(ByteVec.getLE (fun _ => 0 : Page) (8 * i) 8 &&& PTE_V ≠ 0) := by simp
  have t₀ : PageTable rootOnly 0x80024000 (fun _ => none) (fun _ => none) := by
    have t : PageTable rootOnly 0x80024000 (fun _ => none) _ := PageTable.empty (Function.update_self ..)
    simpa [rootOnly] using t
  have g₁ : Hangs entry PTE2PA rootOnly withGigabyte 0x80024000 2 (PA2PTE 0x80025000 ||| PTE_V) :=
    hangs_walk (Function.update_self ..) (z 2) (by decide) ⟨by decide, by decide⟩ (by simp [rootOnly])
  have n₁ := g₁.node_eq t₀.tree (p := []) rfl (by decide) (q := [2]) (by decide)
  rw [if_pos (by decide), PTE2PA_or ⟨by decide, by decide⟩ (by decide)] at n₁
  have t₁ := t₀.hang g₁ (p := []) rfl (by decide)
  have g₂ : Hangs entry PTE2PA withGigabyte withMegabytes 0x80025000 0 (PA2PTE 0x80026000 ||| PTE_V) :=
    hangs_walk (by simp [withGigabyte]) (z 0) (by decide) ⟨by decide, by decide⟩
      (by simp [withGigabyte, rootOnly])
  have n₂ := g₂.node_eq t₁.tree (p := [2]) n₁ (by decide) (q := [2, 0]) (by decide)
  rw [if_pos (by decide), PTE2PA_or ⟨by decide, by decide⟩ (by decide)] at n₂
  exact ⟨t₁.hang g₂ (p := [2]) n₁ (by decide), n₂⟩

lemma withMegabytes_wellFormed : WellFormed withMegabytes 0x80024000 := by
  obtain ⟨t, -⟩ := withMegabytes_table
  refine ⟨t.tree, ?_⟩
  intro va pte get
  rw [t.map] at get
  cases get

/-- Mapping the first user page in that table, with one frame left in the allocator. -/
theorem page_table_refines_map_first_page : WellFormed withMegabytes 0x80024000 ∧
    wp (· = 0x80027000) (fun msg => msg = "mappages: remap" ∧ ∃ v, PGROUNDDOWN 0 ≤ v ∧
        v < PGROUNDDOWN 0 + npages 0 PGSIZE * PGSIZE ∧ translate withMegabytes 0x80024000 v ≠ none)
      (mappages 0x80024000 0 PGSIZE 0x80028000 (PTE_R ||| PTE_U)) (fun res h' =>
      ((res = 0 ∧ Entered withMegabytes h' 0x80024000 (PGROUNDDOWN 0) (npages 0 PGSIZE) 0x80028000
          (PTE_R ||| PTE_U)) ∨
        (res = -1 ∧ ∃ k, k < npages 0 PGSIZE ∧ Entered withMegabytes h' 0x80024000 (PGROUNDDOWN 0) k
          0x80028000 (PTE_R ||| PTE_U))) ∧
      ((∀ i, i < npages 0 PGSIZE → ¬0x80028000 + i * PGSIZE = 0x80027000 ∧
          ¬InTree entry PTE2PA 2 withMegabytes 0x80024000 (0x80028000 + i * PGSIZE)) →
        WellFormed h' 0x80024000)) withMegabytes := by
  refine ⟨withMegabytes_wellFormed, (page_table_refines_map ?_ withMegabytes_wellFormed ?_).2.1
    0 PGSIZE 0x80028000 (PTE_R ||| PTE_U) (by decide) (by decide) (by decide) (by decide) (by decide)⟩
  · rintro c rfl
    exact ⟨by decide, by decide⟩
  · intro va pte get
    rw [withMegabytes_table.1.map] at get
    cases get

/-- The call with which `kvmmake` maps the RAM after the kernel text, on a page table that itself lies
there. The table is well formed before the call and never after it, whatever the allocator returns. -/
theorem kvmmake_maps_own_nodes : ∃ h pt, Kinit pt ∧ WellFormed h pt ∧
    ∀ V : Nat → Prop, (∀ c, V c → Frame c) → wp V (fun _ => False)
      (mappages pt etext (PHYSTOP - etext) etext (PTE_R ||| PTE_W))
      (fun _ h' => ¬WellFormed h' pt) h := by
  obtain ⟨t, nd⟩ := withMegabytes_table
  refine ⟨withMegabytes, 0x80024000, ⟨by decide, by decide, by decide⟩, withMegabytes_wellFormed, ?_⟩
  intro V hV
  refine wp_mono (wp_mappages hV t (by decide) (by decide) (by decide) (by decide) (by decide)
    fun _ _ _ ne => ne rfl) fun res h' mp wf => ?_
  -- even if no allocation succeeds, the first 504 pages need none: the page of the root is mapped
  have mapped : ∃ k, 28 < k ∧ abs h' 0x80024000 = mapPages (fun _ => none) etext k etext
      (PTE_R ||| PTE_W) := by
    obtain ⟨-, t'⟩ | ⟨-, k, -, t', lost⟩ := mp.result
    · exact ⟨_, by decide, t'.map⟩
    · refine ⟨k, ?_, t'.map⟩
      by_contra le
      have path : indices (PGROUNDDOWN etext + k * PGSIZE) 2 = [2, 0] := by
        simp only [indices, PX_eq, PGROUNDDOWN, etext, PGSIZE, List.cons.injEq, and_true]
        omega
      rw [path, mp.grow (by decide) nd] at lost
      cases lost
  obtain ⟨k, lk, eq⟩ := mapped
  have root : abs h' 0x80024000 0x80024000 =
      some (PA2PTE 0x80024000 ||| (PTE_R ||| PTE_W ||| PTE_V)) := by
    rw [eq, mapPages, if_pos (by simp only [etext, PGSIZE]; omega), Nat.or_assoc,
      show etext + (0x80024000 - etext) / PGSIZE * PGSIZE = 0x80024000 by decide]
  refine wf.leaves root ?_
  rw [PTE2PA_or ⟨by decide, by decide⟩ (by decide)]
  exact InTree.root

end Xv6
