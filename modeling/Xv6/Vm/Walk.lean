import Xv6.Lib.Bytes
import Xv6.Lib.Tree
import Xv6.Vm.Layout

/-!
# Page tables

The page allocator of `kernel/kalloc.c` as the kernel code sees it, and `walk` and `walkaddr` of
`kernel/vm.c`. Kernel code is a program over page frames: it owns the frames it has taken from the
allocator, a frame is named by its physical address and holds the bytes of a page.

A page table is a tree of frames of depth 2, whose leaf entries map virtual pages. `PageTable h pt m r`
says that `pt` is the root of such a tree in the heap `h`, that the tree stores the map `m`, and that
`r` are the frames the heap holds beside the nodes of the tree. `walk` with `alloc` grows the tree and
keeps `m` and `r`.
-/

namespace Xv6

open Frames Prog

attribute [local irreducible] PTE2PA PA2PTE PTE_FLAGS PX ByteVec.getLE ByteVec.putLE

/-- The contents of a page frame. -/
abbrev Page := ByteVec PGSIZE

/-- Kernel code that works on page frames. -/
abbrev Kernel := Prog Nat Page

/-- The frames a piece of kernel code owns. -/
abbrev Memory := Heap Nat Page

/-- Allocate one page, filled with junk; `none` when the free list is empty. -/
def kalloc : Kernel (Option Nat) := do
  match ← new with
  | none => pure none
  | some pa =>
    store pa fun _ => 5
    pure (some pa)

/-- Free a page, after filling it with junk to catch dangling references. -/
def kfree (pa : Nat) : Kernel Unit :=
  if pa % PGSIZE ≠ 0 ∨ pa < «end» ∨ pa ≥ PHYSTOP then
    .panic "kfree"
  else do
    store pa fun _ => 1
    drop pa

def loadPte (pagetable i : Nat) : Kernel Nat := do
  let page ← load pagetable
  pure (page.getLE (8 * i) 8)

def storePte (pagetable i pte : Nat) : Kernel Unit := do
  let page ← load pagetable
  store pagetable (page.putLE (8 * i) 8 pte)

/-- The loop of `walk` from a level downwards. -/
def walkFrom (va : Nat) (alloc : Bool) : Nat → Nat → Kernel (Option (Nat × Nat))
  | 0, pagetable => pure (some (pagetable, PX 0 va))
  | level + 1, pagetable => do
    let pte ← loadPte pagetable (PX (level + 1) va)
    if pte &&& PTE_V ≠ 0 then
      walkFrom va alloc level (PTE2PA pte)
    else if alloc then
      match ← kalloc with
      | none => pure none
      | some page =>
        store page fun _ => 0
        storePte pagetable (PX (level + 1) va) (PA2PTE page ||| PTE_V)
        walkFrom va alloc level page
    else
      pure none

/-- The entry for `va`, given as the page table that holds it and its index there. If `alloc`, create
the page-table pages on the way. -/
def walk (pagetable va : Nat) (alloc : Bool) : Kernel (Option (Nat × Nat)) :=
  if va ≥ MAXVA then .panic "walk" else walkFrom va alloc 2 pagetable

/-- Look up a user page: its physical address, or 0 if it is not mapped. -/
def walkaddr (pagetable va : Nat) : Kernel Nat :=
  if va ≥ MAXVA then pure 0
  else do
    match ← walk pagetable va false with
    | none => pure 0
    | some (node, i) =>
      let pte ← loadPte node i
      if pte &&& PTE_V = 0 then pure 0
      else if pte &&& PTE_U = 0 then pure 0
      else pure (PTE2PA pte)

/-- The entry of a page-table page at an index, if it is valid. -/
def entry (page : Page) (i : Nat) : Option Nat :=
  if page.getLE (8 * i) 8 &&& PTE_V ≠ 0 then some (page.getLE (8 * i) 8) else none

/-- The indices of `va` from a level down to level 1. -/
def indices (va : Nat) : Nat → List Nat
  | 0 => []
  | level + 1 => PX (level + 1) va :: indices va level

/-- The map a page table stores: the valid leaf entry for `va`. `walk` serves the addresses below
`MAXVA`; the tree has slots up to `2 ^ 39`. -/
def abs (h : Memory) (pt va : Nat) : Option Nat :=
  if va < 2 ^ 39 then lookup entry PTE2PA h pt (indices va 2) (PX 0 va) else none

/-- In the heap `h`, `pt` is the root of a page table that stores `m`, beside the frames `r`. -/
structure PageTable (h : Memory) (pt : Nat) (m : Nat → Option Nat) (r : Memory) : Prop where
  tree : IsTree entry PTE2PA 2 h pt
  map : abs h pt = m
  rest : rest entry PTE2PA 2 h pt = r

/-- The entries above the last level point to page tables: they carry no permission. -/
def Inner (h : Memory) (pt : Nat) : Prop :=
  ∀ p i pte, p.length < 2 → lookup entry PTE2PA h pt p i = some pte →
    pte &&& (PTE_R ||| PTE_W ||| PTE_X) = 0

variable {V : Nat → Prop} {P : String → Prop} {h : Memory}

@[simp]
lemma wp_kalloc {Q} :
    wp V P kalloc Q h ↔ Q none h ∧
      ∀ pa, V pa → h pa = none → Q (some pa) (Function.update h pa (some fun _ => 5)) := by
  simp only [kalloc, wp_bind, wp_new, wp_pure, wp_store, Function.update_self, Option.some.injEq,
    exists_eq', true_and, Function.update_idem]
  refine and_congr Iff.rfl (forall_congr' fun pa => ?_)
  exact ⟨fun f v n => f (fun _ => 0) v n, fun f _ v n => f v n⟩

lemma wp_kfree {pa b Q} (k : Kinit pa) (get : h pa = some b)
    (q : Q () (Function.update h pa none)) : wp V P (kfree pa) Q h := by
  obtain ⟨al, lo, hi⟩ := k
  rw [kfree, if_neg (by omega)]
  simp [get, q]

@[simp]
lemma wp_loadPte {pt i Q} :
    wp V P (loadPte pt i) Q h ↔ ∃ page, h pt = some page ∧ Q (page.getLE (8 * i) 8) h := by
  simp [loadPte]

@[simp]
lemma wp_storePte {pt i pte Q} :
    wp V P (storePte pt i pte) Q h ↔ ∃ page, h pt = some page ∧
      Q () (Function.update h pt (some (page.putLE (8 * i) 8 pte))) := by
  simp only [storePte, wp_bind, wp_load, wp_store]
  refine exists_congr fun page => and_congr_right fun get => ?_
  simp [get]

/-! ### Entries -/

@[simp]
lemma entry_zero {i} : entry (fun _ => 0) i = none := by
  simp [entry]

lemma entry_putLE {page : Page} {i pte} (lt : i < 512) (fit : pte < 2 ^ 64) :
    entry (page.putLE (8 * i) 8 pte) i = if pte &&& PTE_V ≠ 0 then some pte else none := by
  have get : (page.putLE (8 * i) 8 pte).getLE (8 * i) 8 = pte := by
    rw [ByteVec.getLE_putLE (by simp only [PGSIZE]; omega)]
    exact Nat.mod_eq_of_lt fit
  simp only [entry, get]

lemma entry_putLE_ne {page : Page} {i j pte} (ne : j ≠ i) :
    entry (page.putLE (8 * i) 8 pte) j = entry page j := by
  have get : (page.putLE (8 * i) 8 pte).getLE (8 * j) 8 = page.getLE (8 * j) 8 :=
    ByteVec.getLE_putLE_disj (by omega)
  simp only [entry, get]

lemma pte_valid {pa f} (odd : f % 2 = 1) (lt : f < 2 ^ 10) : (PA2PTE pa ||| f) &&& PTE_V ≠ 0 := by
  rw [pte_eq_add lt, PTE_V, Nat.and_one_is_mod]
  omega

lemma entry_eq_none {page : Page} {i} (inv : ¬page.getLE (8 * i) 8 &&& PTE_V ≠ 0) :
    entry page i = none := if_neg inv

lemma entry_eq_some {page : Page} {i} (val : page.getLE (8 * i) 8 &&& PTE_V ≠ 0) :
    entry page i = some (page.getLE (8 * i) 8) := if_pos val

lemma entry_eq_some_iff {page : Page} {i pte} :
    entry page i = some pte ↔ page.getLE (8 * i) 8 = pte ∧ pte &&& PTE_V ≠ 0 := by
  rw [entry, Option.ite_none_right_eq_some]
  constructor
  · rintro ⟨val, eq⟩
    rw [Option.some.injEq] at eq
    exact ⟨eq, eq ▸ val⟩
  · rintro ⟨eq, val⟩
    exact ⟨eq ▸ val, congrArg some eq⟩

/-- The body of the loop of `walk` hangs the zeroed page it has allocated into the table. -/
lemma hangs_walk {x c page i} (get : h x = some page) (inv : ¬page.getLE (8 * i) 8 &&& PTE_V ≠ 0)
    (lt : i < 512) (fr : Frame c) (fresh : h c = none) :
    Hangs entry PTE2PA h (Function.update (Function.update h c (some fun _ => 0)) x
      (some (page.putLE (8 * i) 8 (PA2PTE c ||| PTE_V)))) x i (PA2PTE c ||| PTE_V) := by
  have ne : c ≠ x := by
    rintro rfl
    simp [get] at fresh
  have new : entry (page.putLE (8 * i) 8 (PA2PTE c ||| PTE_V)) i = some (PA2PTE c ||| PTE_V) := by
    rw [entry_putLE lt (pte_lt fr (by decide)), if_pos (pte_valid rfl (by decide))]
  have ptr : PTE2PA (PA2PTE c ||| PTE_V) = c := PTE2PA_or fr (by decide)
  constructor
  case unused => simp [slot, get, entry_eq_none inv]
  case fresh => rw [ptr, fresh]
  case used => simp [slot, new]
  case others =>
    intro j ji
    simp [slot, get, entry_putLE_ne ji]
  case own => simp
  case new => simp [ptr, Function.update_of_ne ne]
  case empty => simp [slot, ptr, Function.update_of_ne ne]
  case off =>
    intro y yx yc
    rw [Function.update_of_ne yx, Function.update_of_ne (ptr ▸ yc)]

/-! ### `walk` -/

/-- What `walk` leaves behind: the same map and the same frames beside the tree, every node where it
was, and the entry it was asked for or no way to it. -/
structure Walked (va : Nat) (alloc : Bool) (h : Memory) (pt : Nat) (m : Nat → Option Nat) (r : Memory)
    (res : Option (Nat × Nat)) (h' : Memory) : Prop where
  table : PageTable h' pt m r
  grow : ∀ {q x}, q.length ≤ 2 → node entry PTE2PA h pt q = some x → node entry PTE2PA h' pt q = some x
  found : res = (node entry PTE2PA h' pt (indices va 2)).map fun x => (x, PX 0 va)
  fixed : alloc = false → h' = h
  inner : Inner h pt → Inner h' pt

variable {pt : Nat} {m : Nat → Option Nat} {r : Memory}

lemma PageTable.hang {h' x e p i} (t : PageTable h pt m r) (g : Hangs entry PTE2PA h h' x i e)
    (nd : node entry PTE2PA h pt p = some x) (lp : p.length < 2) : PageTable h' pt m r := by
  refine ⟨g.isTree t.tree nd lp, ?_, ?_⟩
  · rw [← t.map]
    funext va
    unfold abs
    split
    · rw [g.lookup_eq t.tree nd lp (q := indices va 2) (Nat.le_refl 2), if_neg]
      rintro ⟨rfl, -⟩
      exact absurd lp (by simp [indices])
    · rfl
  · rw [← t.rest]
    exact g.rest_eq t.tree nd lp

lemma Inner.hang {h' x e p i} (inn : Inner h pt) (t : PageTable h pt m r)
    (g : Hangs entry PTE2PA h h' x i e) (nd : node entry PTE2PA h pt p = some x) (lp : p.length < 2)
    (flags : e &&& (PTE_R ||| PTE_W ||| PTE_X) = 0) : Inner h' pt := by
  intro q j pte lq get
  rw [g.lookup_eq t.tree nd lp (by omega)] at get
  split at get
  · exact Option.some.inj get ▸ flags
  · exact inn q j pte lq get

lemma pte_inner {pa} : (PA2PTE pa ||| PTE_V) &&& (PTE_R ||| PTE_W ||| PTE_X) = 0 := by
  rw [and_flags (by decide), PTE_FLAGS_or (by decide)]
  rfl

lemma wp_walkFrom {va alloc level x p} (hV : ∀ c, V c → Frame c) (t : PageTable h pt m r)
    (nd : node entry PTE2PA h pt p = some x) (path : indices va 2 = p ++ indices va level)
    (len : p.length + level = 2) :
    wp V P (walkFrom va alloc level x) (Walked va alloc h pt m r) h := by
  induction level generalizing h x p with
  | zero =>
    rw [indices, List.append_nil] at path
    exact ⟨t, fun _ nq => nq, by simp [path, nd], fun _ => rfl, id⟩
  | succ level ih =>
    obtain ⟨page, get⟩ := Option.ne_none_iff_exists'.1 (t.tree.own (by omega) nd)
    have path' : indices va 2 = (p ++ [PX (level + 1) va]) ++ indices va level := by
      rw [path, indices, List.append_assoc]
      rfl
    have len' : (p ++ [PX (level + 1) va]).length + level = 2 := by
      simp only [List.length_append, List.length_singleton]
      omega
    have step : node entry PTE2PA h pt (p ++ [PX (level + 1) va]) =
        (entry page (PX (level + 1) va)).map PTE2PA := by
      rw [node_concat, lookup, nd, Option.bind_some, slot, get, Option.bind_some]
    simp only [walkFrom, wp_bind, wp_loadPte]
    refine ⟨page, get, ?_⟩
    split
    · rename_i val
      refine ih t ?_ path' len'
      rw [step, entry_eq_some val]
      rfl
    · rename_i inv
      rw [entry_eq_none inv] at step
      have lost : node entry PTE2PA h pt (indices va 2) = none := by
        rw [path', node_append]
        simp [step]
      cases alloc with
      | false => exact ⟨t, fun _ nq => nq, by simp [lost], fun _ => rfl, id⟩
      | true =>
        simp only [if_true, wp_bind, wp_kalloc]
        refine ⟨⟨t, fun _ nq => nq, by simp [lost], by simp, id⟩, ?_⟩
        intro c vc fresh
        have ne : x ≠ c := by
          rintro rfl
          simp [get] at fresh
        have g := hangs_walk get inv PX_lt (hV c vc) fresh
        simp only [wp_store, wp_storePte, Function.update_self, Option.some.injEq,
          exists_eq', true_and, Function.update_idem]
        refine ⟨page, by rw [Function.update_of_ne ne, get], ?_⟩
        have t' := t.hang g nd (by omega)
        have nd' := g.node_eq t.tree nd (by omega) (q := p ++ [PX (level + 1) va]) (by omega)
        rw [if_pos rfl, PTE2PA_or (hV c vc) (by decide)] at nd'
        refine wp_mono (ih t' nd' path' len') fun res h' w => ⟨w.table, ?_, w.found, by simp,
          fun inn => w.inner (inn.hang t g nd (by omega) pte_inner)⟩
        intro q y lq nq
        apply w.grow lq
        rw [g.node_eq t.tree nd (by omega) (by omega), if_neg]
        · exact nq
        · rintro rfl
          simp [step] at nq

lemma wp_walk {va alloc} (hV : ∀ c, V c → Frame c) (t : PageTable h pt m r) (lt : va < MAXVA) :
    wp V P (walk pt va alloc) (Walked va alloc h pt m r) h := by
  rw [walk, if_neg (by omega)]
  exact wp_walkFrom hV t (p := []) rfl rfl rfl

end Xv6
