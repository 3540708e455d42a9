import Xv6.Vm.Walk

/-!
# Mapping and unmapping pages

`mappages` and `uvmunmap` of `kernel/vm.c`, and what they do to the map a page table stores: `mappages`
enters consecutive frames for the pages of a range, or for a prefix of them when a page-table page
cannot be allocated, and `uvmunmap` removes the entries of a range and, if asked to, frees the frames
they name.
-/

namespace Xv6

open Frames Prog

attribute [local irreducible] PTE2PA PA2PTE PTE_FLAGS PX ByteVec.getLE ByteVec.putLE

/-- The loop of `mappages`. The address stays below `MAXVA`, since `walk` panics there; so the loop
ends before it has gone over all pages up to `MAXVA`. -/
def mappagesFrom (pagetable last perm : Nat) : Nat → Nat → Nat → Kernel Int
  | 0, _, _ => .panic "walk"
  | n + 1, a, pa => do
    match ← walk pagetable a true with
    | none => pure (-1)
    | some (node, i) =>
      let pte ← loadPte node i
      if pte &&& PTE_V ≠ 0 then
        .panic "mappages: remap"
      else
        storePte node i (PA2PTE pa ||| perm ||| PTE_V)
        if a = last then
          pure 0
        else
          mappagesFrom pagetable last perm n (a + PGSIZE) ((pa + PGSIZE) % 2 ^ 64)

/-- Map the pages that cover `[va, va + size)` to consecutive frames from `pa`. Returns 0, or -1 if
`walk` could not allocate a page-table page. -/
def mappages (pagetable va size pa perm : Nat) : Kernel Int :=
  if size = 0 then
    .panic "mappages: size"
  else
    mappagesFrom pagetable (PGROUNDDOWN ((va + size - 1) % 2 ^ 64)) perm (MAXVA / PGSIZE + 1)
      (PGROUNDDOWN va) pa

def uvmunmapFrom (pagetable bound : Nat) (doFree : Bool) (a : Nat) : Kernel Unit :=
  if a < bound then do
    match ← walk pagetable a false with
    | none => .panic "uvmunmap: walk"
    | some (node, i) =>
      let pte ← loadPte node i
      if pte &&& PTE_V = 0 then
        .panic "uvmunmap: not mapped"
      else if PTE_FLAGS pte = PTE_V then
        .panic "uvmunmap: not a leaf"
      else
        if doFree then
          kfree (PTE2PA pte)
        storePte node i 0
        uvmunmapFrom pagetable bound doFree (a + PGSIZE)
  else
    pure ()
termination_by bound - a
decreasing_by simp only [PGSIZE]; omega

/-- Remove `npages` mappings from the page-aligned `va` on, which must exist, and free the frames if
`doFree`. -/
def uvmunmap (pagetable va npages : Nat) (doFree : Bool) : Kernel Unit :=
  if va % PGSIZE ≠ 0 then
    .panic "uvmunmap: not aligned"
  else
    uvmunmapFrom pagetable ((va + npages * PGSIZE) % 2 ^ 64) doFree va

/-! ### Maps -/

/-- The map with the entry of one page replaced. -/
def setPage (m : Nat → Option Nat) (a : Nat) (pte : Option Nat) : Nat → Option Nat :=
  fun v => if v / PGSIZE = a / PGSIZE then pte else m v

/-- The map with `n` pages from `a` on mapped to consecutive frames from `pa` on. -/
def mapPages (m : Nat → Option Nat) (a n pa perm : Nat) : Nat → Option Nat :=
  fun v => if a ≤ v ∧ v < a + n * PGSIZE then
    some (PA2PTE (pa + (v - a) / PGSIZE * PGSIZE) ||| perm ||| PTE_V) else m v

/-- The map with `n` pages from `a` on removed. -/
def unmapPages (m : Nat → Option Nat) (a n : Nat) : Nat → Option Nat :=
  fun v => if a ≤ v ∧ v < a + n * PGSIZE then none else m v

variable {m : Nat → Option Nat} {a n pa perm : Nat}

@[simp]
lemma mapPages_zero : mapPages m a 0 pa perm = m := by
  funext v
  exact if_neg (by omega)

lemma mapPages_succ (al : a % PGSIZE = 0) :
    mapPages (setPage m a (some (PA2PTE pa ||| perm ||| PTE_V))) (a + PGSIZE) n (pa + PGSIZE) perm =
      mapPages m a (n + 1) pa perm := by
  funext v
  simp only [mapPages, setPage, PGSIZE] at *
  by_cases hd : v / 4096 = a / 4096
  · have off : (v - a) / 4096 = 0 := by omega
    rw [if_neg (by omega), if_pos hd, if_pos (by omega), off]
    simp
  · by_cases tl : a + 4096 ≤ v ∧ v < a + 4096 + n * 4096
    · have off : (v - a) / 4096 * 4096 = 4096 + (v - (a + 4096)) / 4096 * 4096 := by omega
      rw [if_pos tl, if_pos (by omega), off, Nat.add_assoc]
    · rw [if_neg tl, if_neg hd, if_neg (by omega)]

lemma mapPages_one (al : a % PGSIZE = 0) :
    mapPages m a 1 pa perm = setPage m a (some (PA2PTE pa ||| perm ||| PTE_V)) := by
  rw [← mapPages_succ al, mapPages_zero]

@[simp]
lemma unmapPages_zero : unmapPages m a 0 = m := by
  funext v
  exact if_neg (by omega)

lemma unmapPages_succ (al : a % PGSIZE = 0) :
    unmapPages (setPage m a none) (a + PGSIZE) n = unmapPages m a (n + 1) := by
  funext v
  simp only [unmapPages, setPage, PGSIZE] at *
  by_cases hd : v / 4096 = a / 4096
  · rw [if_neg (by omega), if_pos hd, if_pos (by omega)]
  · by_cases tl : a + 4096 ≤ v ∧ v < a + 4096 + n * 4096
    · rw [if_pos tl, if_pos (by omega)]
    · rw [if_neg tl, if_neg hd, if_neg (by omega)]

lemma unmapPages_one (al : a % PGSIZE = 0) : unmapPages m a 1 = setPage m a none := by
  rw [← unmapPages_succ al, unmapPages_zero]

/-! ### Reading and writing leaf entries -/

variable {V : Nat → Prop} {P : String → Prop} {h : Memory} {pt : Nat} {r : Memory} {va : Nat}

lemma PageTable.map_eq {x page} (t : PageTable h pt m r) (lt : va < 2 ^ 39)
    (nd : node entry PTE2PA h pt (indices va 2) = some x) (get : h x = some page) :
    m va = entry page (PX 0 va) := by
  rw [← t.map, abs, if_pos lt, lookup, nd]
  simp [slot, get]

lemma PageTable.map_none (t : PageTable h pt m r)
    (nd : node entry PTE2PA h pt (indices va 2) = none) : m va = none := by
  rw [← t.map, abs, lookup, nd]
  simp

lemma slot_eq_iff {v} (lt : va < 2 ^ 39) (lt' : v < 2 ^ 39) :
    indices v 2 = indices va 2 ∧ PX 0 v = PX 0 va ↔ v / PGSIZE = va / PGSIZE := by
  constructor
  · rintro ⟨path, eq0⟩
    simp only [indices, List.cons.injEq, and_true] at path
    exact PX_inj lt' lt path.1 path.2 eq0
  · intro eq
    simp only [indices, PX_congr eq, and_self]

lemma PageTable.get {x} (t : PageTable h pt m r)
    (nd : node entry PTE2PA h pt (indices va 2) = some x) : ∃ page, h x = some page :=
  Option.ne_none_iff_exists'.1 (t.tree.own (p := indices va 2) (Nat.le_refl 2) nd)

lemma PageTable.set {x page pte} (t : PageTable h pt m r) (lt : va < 2 ^ 39)
    (nd : node entry PTE2PA h pt (indices va 2) = some x) (get : h x = some page)
    (fit : pte < 2 ^ 64) :
    PageTable (Function.update h x (some (page.putLE (8 * PX 0 va) 8 pte))) pt
      (setPage m va (if pte &&& PTE_V ≠ 0 then some pte else none)) r := by
  refine ⟨t.tree.setLeaf nd rfl, ?_, ?_⟩
  · funext v
    rw [abs, setPage, ← t.map, abs]
    by_cases lv : v < 2 ^ 39
    · rw [if_pos lv, if_pos lv,
        t.tree.lookup_setLeaf nd rfl get (fun j => entry_putLE_ne) (q := indices v 2) (Nat.le_refl 2),
        entry_putLE PX_lt fit]
      simp only [slot_eq_iff lt lv]
    · rw [if_neg lv, if_neg lv, if_neg (by simp only [PGSIZE]; omega)]
  · rw [← t.rest]
    exact t.tree.rest_setLeaf nd rfl

lemma Inner.set {x page pte} (inn : Inner h pt) (t : PageTable h pt m r)
    (nd : node entry PTE2PA h pt (indices va 2) = some x) (get : h x = some page) :
    Inner (Function.update h x (some (page.putLE (8 * PX 0 va) 8 pte))) pt := by
  intro q j e lq ent
  rw [t.tree.lookup_setLeaf nd rfl get (fun j => entry_putLE_ne) (Nat.le_of_lt lq), if_neg] at ent
  · exact inn q j e lq ent
  · rintro ⟨rfl, -⟩
    exact absurd lq (by simp [indices])

lemma Inner.update {y v} (inn : Inner h pt) (ny : ¬InTree entry PTE2PA 2 h pt y) :
    Inner (Function.update h y v) pt := by
  intro q j e lq ent
  rw [lookup_congr (update_agrees ny) (Nat.le_of_lt lq)] at ent
  exact inn q j e lq ent

lemma PageTable.update {y v} (t : PageTable h pt m r) (ny : ¬InTree entry PTE2PA 2 h pt y) :
    PageTable (Function.update h y v) pt m (Function.update r y v) := by
  have eq := update_agrees (v := v) ny
  refine ⟨t.tree.congr eq, ?_, ?_⟩
  · rw [← t.map]
    funext va
    rw [abs, abs, lookup_congr eq (Nat.le_refl _)]
  · rw [← t.rest]
    exact rest_update ny

lemma PageTable.empty (get : h pt = some fun _ => 0) :
    PageTable h pt (fun _ => none) (Function.update h pt none) := by
  refine ⟨isTree_single get fun _ => entry_zero, ?_, rest_single get fun _ => entry_zero⟩
  funext va
  rw [abs, lookup_single get fun _ => entry_zero, ite_self]

lemma PageTable.fresh {y} (t : PageTable h pt m r) (new : h y = none) :
    ¬InTree entry PTE2PA 2 h pt y := fun it => t.tree.inTree_own it new

lemma PageTable.beside {y b} (t : PageTable h pt m r) (get : r y = some b) :
    ¬InTree entry PTE2PA 2 h pt y ∧ h y = some b := by
  have ne : Frames.rest entry PTE2PA 2 h pt y ≠ none := by simp [t.rest, get]
  obtain ⟨ny, -⟩ := rest_ne_none.1 ne
  rw [← t.rest, rest_of_notMem ny] at get
  exact ⟨ny, get⟩

/-! ### `mappages` -/

/-- What `mappages` leaves behind: on success the range is mapped; on failure a prefix of it is, and
the page table for the next page is missing. No node is lost. -/
structure Mapped (h : Memory) (pt : Nat) (m : Nat → Option Nat) (r : Memory) (a n pa perm : Nat)
    (res : Int) (h' : Memory) : Prop where
  grow : ∀ {q x}, q.length ≤ 2 → node entry PTE2PA h pt q = some x →
    node entry PTE2PA h' pt q = some x
  inner : Inner h pt → Inner h' pt
  result : (res = 0 ∧ PageTable h' pt (mapPages m a n pa perm) r) ∨
    (res = -1 ∧ ∃ k, k < n ∧ PageTable h' pt (mapPages m a k pa perm) r ∧
      node entry PTE2PA h' pt (indices (a + k * PGSIZE) 2) = none)

lemma wp_mappagesFrom {fuel last} (hV : ∀ c, V c → Frame c) (t : PageTable h pt m r)
    (al : a % PGSIZE = 0) (hl : last = a + n * PGSIZE) (lt : last < MAXVA)
    (alp : pa % PGSIZE = 0) (fit : pa + n * PGSIZE < 2 ^ 56) (hp : perm < 2 ^ 10)
    (remap : ∀ v, a ≤ v → v < a + (n + 1) * PGSIZE → m v ≠ none → P "mappages: remap")
    (hf : n < fuel) :
    wp V P (mappagesFrom pt last perm fuel a pa) (Mapped h pt m r a (n + 1) pa perm) h := by
  induction fuel generalizing h m a n pa with
  | zero => omega
  | succ fuel ih =>
    have la : a < MAXVA := by omega
    have l39 : a < 2 ^ 39 := Nat.lt_trans la (by decide)
    have fr : Frame pa := ⟨alp, by omega⟩
    have hp' : perm ||| PTE_V < 2 ^ 10 := Nat.or_lt_two_pow hp (by decide)
    simp only [mappagesFrom, wp_bind]
    refine wp_mono (wp_walk hV t la) fun res h₁ w => ?_
    have found := w.found
    cases nd : node entry PTE2PA h₁ pt (indices a 2) with
    | none =>
      rw [nd] at found
      subst found
      exact ⟨w.grow, w.inner, .inr ⟨rfl, 0, by omega, by simpa using w.table, by simpa using nd⟩⟩
    | some x =>
      rw [nd] at found
      subst found
      obtain ⟨page, get⟩ := w.table.get nd
      have ma := w.table.map_eq l39 nd get
      simp only [Option.map_some, wp_bind, wp_loadPte]
      refine ⟨page, get, ?_⟩
      split
      · rename_i val
        refine remap a (Nat.le_refl a) (by simp only [PGSIZE]; omega) ?_
        rw [ma, entry_eq_some val]
        exact Option.some_ne_none _
      · have t' := w.table.set l39 nd get (pte_lt fr hp')
        rw [if_pos (pte_valid (Nat.or_mod_two_eq_one.2 (.inr rfl)) hp'), ← Nat.or_assoc] at t'
        have grow : ∀ {q y}, q.length ≤ 2 → node entry PTE2PA h pt q = some y →
            node entry PTE2PA (Function.update h₁ x (some (page.putLE (8 * PX 0 a) 8
              (PA2PTE pa ||| perm ||| PTE_V)))) pt q = some y := by
          intro q y lq nq
          rw [w.table.tree.node_setLeaf nd rfl lq]
          exact w.grow lq nq
        have inner : Inner h pt → Inner (Function.update h₁ x (some (page.putLE (8 * PX 0 a) 8
            (PA2PTE pa ||| perm ||| PTE_V)))) pt :=
          fun inn => (w.inner inn).set w.table nd get
        simp only [wp_bind, wp_storePte]
        refine ⟨page, get, ?_⟩
        split
        · obtain rfl : n = 0 := by
            simp only [PGSIZE] at hl
            omega
          refine ⟨grow, inner, .inl ⟨rfl, ?_⟩⟩
          rw [← mapPages_succ al, mapPages_zero]
          exact t'
        · obtain ⟨n, rfl⟩ : ∃ k, n = k + 1 := Nat.exists_eq_succ_of_ne_zero (by rintro rfl; omega)
          have nowrap : (pa + PGSIZE) % 2 ^ 64 = pa + PGSIZE :=
            Nat.mod_eq_of_lt (by simp only [PGSIZE] at fit ⊢; omega)
          simp only [PGSIZE] at al hl alp fit
          have alp' : (pa + PGSIZE) % PGSIZE = 0 := by
            simp only [PGSIZE]
            omega
          have loop := ih (n := n) (a := a + PGSIZE) t'
            (by simp only [PGSIZE]; omega) (by simp only [PGSIZE]; omega)
            alp' (by simp only [PGSIZE]; omega) ?_ (by omega)
          · rw [nowrap]
            refine wp_mono loop fun res h₂ w₂ => ⟨fun lq nq => w₂.grow lq (grow lq nq),
              fun inn => w₂.inner (inner inn), ?_⟩
            obtain ⟨rz, t₂⟩ | ⟨rm, k, lk, t₂, nk⟩ := w₂.result
            · exact .inl ⟨rz, mapPages_succ al ▸ t₂⟩
            · refine .inr ⟨rm, k + 1, by omega, mapPages_succ al ▸ t₂, ?_⟩
              rw [Nat.succ_mul, Nat.add_comm (k * PGSIZE), ← Nat.add_assoc]
              exact nk
          · -- the pages that remain are not the page just mapped
            intro v lo hi ne
            rw [setPage, if_neg (by simp only [PGSIZE] at lo ⊢; omega)] at ne
            exact remap v (by omega) (by simp only [PGSIZE] at hi ⊢; omega) ne

/-- The number of pages that cover `[va, va + size)`. -/
def npages (va size : Nat) : Nat := (va + size - 1) / PGSIZE - va / PGSIZE + 1

lemma wp_mappages {size} (hV : ∀ c, V c → Frame c) (t : PageTable h pt m r) (pos : 0 < size)
    (lt : va + size ≤ MAXVA) (alp : pa % PGSIZE = 0) (fit : pa + size + PGSIZE ≤ 2 ^ 56) (hp : perm < 2 ^ 10)
    (remap : ∀ v, PGROUNDDOWN va ≤ v → v < PGROUNDDOWN va + npages va size * PGSIZE → m v ≠ none →
      P "mappages: remap") :
    wp V P (mappages pt va size pa perm)
      (Mapped h pt m r (PGROUNDDOWN va) (npages va size) pa perm) h := by
  rw [mappages, if_neg (by omega)]
  simp only [MAXVA] at lt
  rw [Nat.mod_eq_of_lt (show va + size - 1 < 2 ^ 64 by omega)]
  simp only [npages, PGROUNDDOWN, PGSIZE] at *
  exact wp_mappagesFrom hV t (by simp only [PGSIZE]; omega) (by simp only [PGSIZE]; omega)
    (by simp only [MAXVA]; omega) alp (by simp only [PGSIZE]; omega) hp remap
    (by simp only [MAXVA]; omega)

/-! ### `uvmunmap` -/

/-- The frame `x` backs one of the `n` pages from `a` on. -/
def Backs (m : Nat → Option Nat) (a n x : Nat) : Prop :=
  ∃ v pte, a ≤ v ∧ v < a + n * PGSIZE ∧ m v = some pte ∧ PTE2PA pte = x

open Classical in
/-- The frames `r` without those that back the range. -/
noncomputable def freed (r : Memory) (m : Nat → Option Nat) (a n : Nat) : Memory :=
  fun x => if Backs m a n x then none else r x

/-- The pages of a range are backed by distinct frames of the allocator among `r`. -/
structure Owned (m : Nat → Option Nat) (r : Memory) (a n : Nat) : Prop where
  own : ∀ {v pte}, a ≤ v → v < a + n * PGSIZE → m v = some pte →
    Kinit (PTE2PA pte) ∧ ∃ b, r (PTE2PA pte) = some b
  inj : ∀ {v v' pte pte'}, a ≤ v → v < a + n * PGSIZE → a ≤ v' → v' < a + n * PGSIZE →
    m v = some pte → m v' = some pte' → PTE2PA pte = PTE2PA pte' → v / PGSIZE = v' / PGSIZE

@[simp]
lemma freed_zero : freed r m a 0 = r := by
  funext x
  refine if_neg ?_
  rintro ⟨v, pte, lo, hi, -⟩
  omega

lemma PageTable.valid {pte} (t : PageTable h pt m r) (get : m va = some pte) :
    pte &&& PTE_V ≠ 0 := by
  rw [← t.map, abs] at get
  split at get
  · simp only [lookup, slot, Option.bind_eq_some_iff] at get
    obtain ⟨x, -, page, -, ent⟩ := get
    exact (entry_eq_some_iff.1 ent).2
  · cases get

lemma wp_walk_some {pte Q} (hV : ∀ c, V c → Frame c) (t : PageTable h pt m r) (lt : va < MAXVA)
    (get : m va = some pte)
    (post : ∀ x page, node entry PTE2PA h pt (indices va 2) = some x → h x = some page →
      page.getLE (8 * PX 0 va) 8 = pte → Q (some (x, PX 0 va)) h) :
    wp V P (walk pt va false) Q h := by
  refine wp_mono (wp_walk hV t lt) fun res h' w => ?_
  obtain rfl := w.fixed rfl
  rw [w.found]
  cases nd : node entry PTE2PA h' pt (indices va 2) with
  | none =>
    rw [t.map_none nd] at get
    cases get
  | some x =>
    obtain ⟨page, hx⟩ := t.get nd
    refine post x page nd hx ?_
    rw [t.map_eq (Nat.lt_trans lt (by decide)) nd hx] at get
    exact (entry_eq_some_iff.1 get).1

lemma freed_succ {pte} (al : a % PGSIZE = 0) (get : m a = some pte)
    (page : ∀ {v v'}, v / PGSIZE = v' / PGSIZE → m v = m v') :
    freed (Function.update r (PTE2PA pte) none) (setPage m a none) (a + PGSIZE) n =
      freed r m a (n + 1) := by
  funext x
  have iff : Backs m a (n + 1) x ↔
      x = PTE2PA pte ∨ Backs (setPage m a none) (a + PGSIZE) n x := by
    simp only [Backs, setPage, PGSIZE] at *
    constructor
    · rintro ⟨v, pte', lo, hi, mv, rfl⟩
      by_cases hd : v / 4096 = a / 4096
      · rw [page hd, get] at mv
        cases mv
        exact .inl rfl
      · exact .inr ⟨v, pte', by omega, by omega, by rw [if_neg hd, mv], rfl⟩
    · rintro (rfl | ⟨v, pte', lo, hi, mv, rfl⟩)
      · exact ⟨a, pte, by omega, by omega, get, rfl⟩
      · rw [if_neg (by omega)] at mv
        exact ⟨v, pte', by omega, by omega, mv, rfl⟩
  by_cases bx : Backs (setPage m a none) (a + PGSIZE) n x
  · rw [freed, freed, if_pos bx, if_pos (iff.2 (.inr bx))]
  · rw [freed, freed, if_neg bx]
    by_cases eq : x = PTE2PA pte
    · rw [if_pos (iff.2 (.inl eq)), eq, Function.update_self]
    · rw [if_neg fun b => (iff.1 b).elim eq bx, Function.update_of_ne eq]

lemma PageTable.page {v v'} (t : PageTable h pt m r) (eq : v / PGSIZE = v' / PGSIZE) :
    m v = m v' := by
  have lt : v < 2 ^ 39 ↔ v' < 2 ^ 39 := by
    simp only [PGSIZE] at eq
    omega
  rw [← t.map, abs, abs]
  simp only [indices, PX_congr eq, lt]

lemma Owned.tail {pte} (o : Owned m r a (n + 1)) (al : a % PGSIZE = 0) (get : m a = some pte) :
    Owned (setPage m a none) (Function.update r (PTE2PA pte) none) (a + PGSIZE) n := by
  have old : ∀ {v q}, a + PGSIZE ≤ v → setPage m a none v = some q → m v = some q := by
    intro v q lo sv
    rwa [setPage, if_neg (by simp only [PGSIZE] at al lo ⊢; omega)] at sv
  constructor
  case own =>
    intro v q lo hi sv
    have mv := old lo sv
    simp only [PGSIZE] at al lo hi
    obtain ⟨k, b, rq⟩ := o.own (by omega) (by simp only [PGSIZE]; omega) mv
    refine ⟨k, b, ?_⟩
    rw [Function.update_of_ne, rq]
    intro eq
    have := o.inj (by omega) (by simp only [PGSIZE]; omega) (Nat.le_refl a)
      (by simp only [PGSIZE]; omega) mv get eq
    simp only [PGSIZE] at this
    omega
  case inj =>
    intro v v' q q' lo hi lo' hi' sv sv' eq
    refine o.inj (by omega) ?_ (by omega) ?_ (old lo sv) (old lo' sv') eq
    all_goals simp only [PGSIZE] at *; omega

/-- What `uvmunmap` leaves behind: the entries of the range are gone, and their frames too if it was
asked to free them. No node is lost. -/
structure Unmapped (h : Memory) (pt : Nat) (m : Nat → Option Nat) (r : Memory) (a n : Nat)
    (doFree : Bool) (h' : Memory) : Prop where
  table : PageTable h' pt (unmapPages m a n) (if doFree then freed r m a n else r)
  same : ∀ {q}, q.length ≤ 2 → node entry PTE2PA h' pt q = node entry PTE2PA h pt q
  inner : Inner h pt → Inner h' pt

lemma wp_uvmunmapFrom {bound doFree} (hV : ∀ c, V c → Frame c) (t : PageTable h pt m r)
    (al : a % PGSIZE = 0) (hb : bound = a + n * PGSIZE) (le : bound ≤ MAXVA)
    (leaf : ∀ v, a ≤ v → v < bound → ∃ pte, m v = some pte ∧ PTE_FLAGS pte ≠ PTE_V)
    (own : doFree = true → Owned m r a n) :
    wp V P (uvmunmapFrom pt bound doFree a) (fun _ => Unmapped h pt m r a n doFree) h := by
  induction n generalizing h m r a with
  | zero =>
    rw [uvmunmapFrom, if_neg (by omega)]
    exact ⟨by simpa using t, fun _ => rfl, id⟩
  | succ n ih =>
    have lt : a < bound := by
      simp only [PGSIZE] at hb
      omega
    obtain ⟨pte, get, fl⟩ := leaf a (Nat.le_refl a) lt
    have la : a < MAXVA := by omega
    have l39 : a < 2 ^ 39 := Nat.lt_trans la (by decide)
    rw [uvmunmapFrom, if_pos lt, wp_bind]
    refine wp_walk_some hV t la get fun x page nd hx word => ?_
    simp only [wp_bind, wp_loadPte]
    refine ⟨page, hx, ?_⟩
    rw [word, if_neg (t.valid get), if_neg fl]
    -- what is left to do once the frame has been dealt with
    have next : ∀ {h₁ r₁}, PageTable h₁ pt m r₁ →
        (∀ {q}, q.length ≤ 2 → node entry PTE2PA h₁ pt q = node entry PTE2PA h pt q) →
        h₁ x = some page → (Inner h pt → Inner h₁ pt) →
        (doFree = true → Owned (setPage m a none) r₁ (a + PGSIZE) n) →
        (if doFree then freed r₁ (setPage m a none) (a + PGSIZE) n else r₁) =
          (if doFree then freed r m a (n + 1) else r) →
        wp V P (storePte x (PX 0 a) 0) (fun _ h₂ => wp V P (uvmunmapFrom pt bound doFree (a + PGSIZE))
          (fun _ => Unmapped h pt m r a (n + 1) doFree) h₂) h₁ := by
      intro h₁ r₁ t₁ same hx₁ inner own₁ eq
      have nd₁ := (same (q := indices a 2) (Nat.le_refl 2)).trans nd
      rw [wp_storePte]
      refine ⟨page, hx₁, ?_⟩
      have t₂ := t₁.set l39 nd₁ hx₁ (show 0 < 2 ^ 64 by decide)
      rw [if_neg (by decide)] at t₂
      have loop := ih t₂ (by simp only [PGSIZE] at *; omega) (by simp only [PGSIZE] at *; omega)
        ?_ own₁
      · refine wp_mono loop fun _ h' u => ⟨?_, fun lq => ?_,
          fun inn => u.inner ((inner inn).set t₁ nd₁ hx₁)⟩
        · rw [← unmapPages_succ al, ← eq]
          exact u.table
        · rw [u.same lq, t₁.tree.node_setLeaf nd₁ rfl lq, same lq]
      intro v lo hi
      rw [setPage, if_neg (by simp only [PGSIZE] at *; omega)]
      exact leaf v (by omega) hi
    cases doFree with
    | false =>
      simp only [Bool.false_eq_true, if_false, wp_bind]
      exact next t (fun _ => rfl) hx id (by simp) rfl
    | true =>
      obtain ⟨k, b, rb⟩ := (own rfl).own (Nat.le_refl a) (by omega) get
      obtain ⟨ny, hy⟩ := t.beside rb
      simp only [if_true, wp_bind]
      refine wp_kfree k hy ?_
      refine next (t.update ny) ?_ ?_ (fun inn => inn.update ny) (fun _ => (own rfl).tail al get) ?_
      · exact fun lq => IsTree.node_eq (update_agrees ny) (Nat.le_succ_of_le lq)
      · rw [update_agrees ny x ⟨indices a 2, Nat.le_refl 2, nd⟩, hx]
      · exact freed_succ al get t.page

lemma wp_uvmunmap {doFree} (hV : ∀ c, V c → Frame c) (t : PageTable h pt m r)
    (al : a % PGSIZE = 0) (le : a + n * PGSIZE ≤ MAXVA)
    (leaf : ∀ v, a ≤ v → v < a + n * PGSIZE → ∃ pte, m v = some pte ∧ PTE_FLAGS pte ≠ PTE_V)
    (own : doFree = true → Owned m r a n) :
    wp V P (uvmunmap pt a n doFree) (fun _ => Unmapped h pt m r a n doFree) h := by
  have nowrap : (a + n * PGSIZE) % 2 ^ 64 = a + n * PGSIZE :=
    Nat.mod_eq_of_lt (Nat.lt_of_le_of_lt le (by decide))
  rw [uvmunmap, if_neg (by omega), nowrap]
  exact wp_uvmunmapFrom hV t al rfl le leaf own

end Xv6
