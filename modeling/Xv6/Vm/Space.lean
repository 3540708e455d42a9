import Xv6.Vm.Uvm
import Mathlib.Data.List.Nodup
import Mathlib.Data.List.Perm.Subperm

/-!
# Address spaces

`Space F top e us pt h` says that the heap `h` consists of an address space and of the frames `e`, which
do not belong to it. The page table is at `pt`; the frames `us` back the user pages from address 0 on, in
order, where `F` says which flags and which contents a page may have; above them the table maps what `top`
says. Each rule below says what a
function of `kernel/vm.c` does to such an address space; since `e` is the same before and after, nothing is
leaked and nothing of what does not belong to the address space is touched.
-/

namespace Xv6

open Frames Prog

attribute [local irreducible] PTE2PA PA2PTE PTE_FLAGS PX ByteVec.getLE ByteVec.putLE

/-- The map `m` has the frames `us` behind its first pages and agrees with `top` above them; the frames
`r` are those of `us` and the extra ones `e`. -/
structure Users (F : Nat → Nat → Page → Prop) (top m : Nat → Option Nat) (r e : Memory) (us : List Nat) : Prop where
  nodup : us.Nodup
  own : ∀ {x}, x ∈ us → r x ≠ none ∧ e x = none
  extra : ∀ {x}, x ∉ us → r x = e x
  page : ∀ {v}, v < us.length * PGSIZE →
    ∃ pte, m v = some pte ∧ us[v / PGSIZE]? = some (PTE2PA pte) ∧
      ∃ b, r (PTE2PA pte) = some b ∧ F (v / PGSIZE) (PTE_FLAGS pte) b
  above : ∀ {v}, us.length * PGSIZE ≤ v → m v = top v

/-- The heap `h` is an address space beside the frames `e`. -/
structure Space (F : Nat → Nat → Page → Prop) (top : Nat → Option Nat) (e : Memory) (us : List Nat) (pt : Nat)
    (h : Memory) : Prop where
  table : ∃ m r, PageTable h pt m r ∧ Users F top m r e us
  inner : Inner h pt
  kinit : ∀ {x}, h x ≠ none → Kinit x

variable {F : Nat → Nat → Page → Prop} {top m : Nat → Option Nat} {h e r : Memory} {us : List Nat} {pt : Nat}

lemma Users.page_congr {r' : Memory} {v} (u : Users F top m r e us) (same : ∀ x ∈ us, r' x = r x)
    (lt : v < us.length * PGSIZE) : ∃ pte, m v = some pte ∧ us[v / PGSIZE]? = some (PTE2PA pte) ∧
      ∃ b, r' (PTE2PA pte) = some b ∧ F (v / PGSIZE) (PTE_FLAGS pte) b := by
  obtain ⟨pte, mv, at_v, b, rb, fl⟩ := u.page lt
  exact ⟨pte, mv, at_v, b, (same _ (List.mem_of_getElem? at_v)).trans rb, fl⟩

lemma length_le_of_kinit (nd : us.Nodup) (kin : ∀ x ∈ us, Kinit x) : us.length ≤ 32768 := by
  have sub : us ⊆ (List.range 32768).map fun i => KERNBASE + i * PGSIZE := by
    intro x mem
    obtain ⟨al, lo, hi⟩ := kin x mem
    rw [List.mem_map]
    simp only [«end», PHYSTOP, KERNBASE, PGSIZE] at al lo hi
    refine ⟨(x - KERNBASE) / PGSIZE, List.mem_range.2 ?_, ?_⟩
    all_goals
      simp only [KERNBASE, PGSIZE]
      omega
  have len := (nd.subperm sub).length_le
  rwa [List.length_map, List.length_range] at len

namespace Space

lemma user {x} (s : Space F top e us pt h) (mem : x ∈ us) :
    ¬InTree entry PTE2PA 2 h pt x ∧ (∃ b, h x = some b) ∧ e x = none := by
  obtain ⟨m, r, t, u⟩ := s.table
  obtain ⟨ne, en⟩ := u.own mem
  obtain ⟨b, get⟩ := Option.ne_none_iff_exists'.1 ne
  obtain ⟨ny, hx⟩ := t.beside get
  exact ⟨ny, ⟨b, hx⟩, en⟩

lemma kinit_root (s : Space F top e us pt h) : Kinit pt := by
  obtain ⟨m, r, t, -⟩ := s.table
  exact s.kinit (t.tree.inTree_own .root)

lemma of_extra {x b} (s : Space F top e us pt h) (get : e x = some b) :
    ¬InTree entry PTE2PA 2 h pt x ∧ x ∉ us ∧ h x = some b := by
  obtain ⟨m, r, t, u⟩ := s.table
  have nu : x ∉ us := fun mem => by simp [(u.own mem).2] at get
  obtain ⟨ny, hx⟩ := t.beside ((u.extra nu).trans get)
  exact ⟨ny, nu, hx⟩

lemma of_fresh {x} (s : Space F top e us pt h) (new : h x = none) :
    ¬InTree entry PTE2PA 2 h pt x ∧ x ∉ us ∧ e x = none := by
  obtain ⟨m, r, t, u⟩ := s.table
  refine ⟨t.fresh new, ?_, ?_⟩
  · intro mem
    obtain ⟨-, ⟨b, hb⟩, -⟩ := s.user mem
    simp [new] at hb
  · by_contra ne
    obtain ⟨b, get⟩ := Option.ne_none_iff_exists'.1 ne
    simp [(s.of_extra get).2.2] at new

lemma length_le (s : Space F top e us pt h) : us.length ≤ 32768 := by
  obtain ⟨m, r, t, u⟩ := s.table
  refine length_le_of_kinit u.nodup fun x mem => s.kinit ?_
  obtain ⟨-, ⟨b, hb⟩, -⟩ := s.user mem
  simp [hb]

lemma update {x v} (s : Space F top e us pt h) (ny : ¬InTree entry PTE2PA 2 h pt x) (nu : x ∉ us)
    (kin : v ≠ none → Kinit x) :
    Space F top (Function.update e x v) us pt (Function.update h x v) := by
  obtain ⟨m, r, t, u⟩ := s.table
  refine ⟨⟨m, Function.update r x v, t.update ny, ?_⟩, s.inner.update ny, ?_⟩
  · refine ⟨u.nodup, ?_, ?_, u.page_congr fun y mem => ?_, u.above⟩
    · intro y mem
      have yx : y ≠ x := fun yx => nu (yx ▸ mem)
      rw [Function.update_of_ne yx, Function.update_of_ne yx]
      exact u.own mem
    · intro y ny
      by_cases yx : y = x
      · rw [yx, Function.update_self, Function.update_self]
      · rw [Function.update_of_ne yx, Function.update_of_ne yx, u.extra ny]
    · have yx : y ≠ x := fun yx => nu (yx ▸ mem)
      rw [Function.update_of_ne yx]
  · intro y hy
    by_cases yx : y = x
    · rw [yx, Function.update_self] at hy
      exact yx ▸ kin hy
    · rw [Function.update_of_ne yx] at hy
      exact s.kinit hy

lemma write {F' : Nat → Nat → Page → Prop} {x b} (s : Space F top e us pt h) (mem : x ∈ us)
    (new : ∀ {i fl c}, us[i]? = some x → F i fl c → F' i fl b)
    (old : ∀ {i fl c}, us[i]? ≠ some x → F i fl c → F' i fl c) :
    Space F' top e us pt (Function.update h x (some b)) := by
  obtain ⟨ny, ⟨b', hb⟩, en⟩ := s.user mem
  obtain ⟨m, r, t, u⟩ := s.table
  refine ⟨⟨m, Function.update r x (some b), t.update ny, ?_⟩, s.inner.update ny, ?_⟩
  · refine ⟨u.nodup, ?_, ?_, fun lt => ?_, u.above⟩
    · intro y my
      refine ⟨?_, (u.own my).2⟩
      by_cases yx : y = x
      · simp [yx]
      · rw [Function.update_of_ne yx]
        exact (u.own my).1
    · intro y ny
      have yx : y ≠ x := fun yx => ny (yx ▸ mem)
      rw [Function.update_of_ne yx, u.extra ny]
    · obtain ⟨pte, mv, at_v, c, rc, fl⟩ := u.page lt
      by_cases eq : PTE2PA pte = x
      · exact ⟨pte, mv, at_v, b, by rw [eq, Function.update_self], new (eq ▸ at_v) fl⟩
      · refine ⟨pte, mv, at_v, c, by rwa [Function.update_of_ne eq], old (fun at_x => eq ?_) fl⟩
        rw [at_v] at at_x
        exact Option.some.inj at_x
  · intro y hy
    by_cases yx : y = x
    · exact yx ▸ s.kinit (by simp [hb])
    · rw [Function.update_of_ne yx] at hy
      exact s.kinit hy

end Space

/-! ### Taking an address space apart from the other frames -/

lemma Space.split (s : Space F top e us pt h) :
    ∃ g, Space F top (fun _ => none) us pt g ∧ Heap.Disjoint g e ∧ h = Heap.union g e := by
  obtain ⟨m, r, t, u⟩ := s.table
  refine ⟨fun x => if e x = none then h x else none, ?_, fun x => ?_, ?_⟩
  · have node : ∀ x, InTree entry PTE2PA 2 h pt x → (if e x = none then h x else none) = h x := by
      intro x it
      refine if_pos (by_contra fun ne => ?_)
      obtain ⟨b, get⟩ := Option.ne_none_iff_exists'.1 ne
      exact (s.of_extra get).1 it
    have user : ∀ x ∈ us, Frames.rest entry PTE2PA 2 (fun x => if e x = none then h x else none) pt x = r x := by
      intro x mem
      obtain ⟨ny, -, en⟩ := s.user mem
      rw [rest_of_notMem (mt (inTree_congr node).1 ny), if_pos en, ← rest_of_notMem ny, t.rest]
    refine ⟨⟨m, _, ⟨t.tree.congr node, ?_, rfl⟩, u.nodup, ?_, ?_, u.page_congr user, u.above⟩, ?_, ?_⟩
    · rw [← t.map]
      funext va
      rw [abs, abs, lookup_congr node (Nat.le_refl _)]
    · intro x mem
      rw [user x mem]
      exact ⟨(u.own mem).1, rfl⟩
    · intro x nx
      by_contra ne
      obtain ⟨nt, ne⟩ := rest_ne_none.1 ne
      have ny := mt (inTree_congr node).2 nt
      split_ifs at ne with en
      · rw [← rest_of_notMem ny, t.rest, u.extra nx] at ne
        exact ne en
      · exact ne rfl
    · intro p i pte lp get
      rw [lookup_congr node (Nat.le_of_lt lp)] at get
      exact s.inner p i pte lp get
    · intro x hx
      split_ifs at hx with en
      · exact s.kinit hx
      · exact absurd rfl hx
  · by_cases en : e x = none
    · exact .inr en
    · exact .inl (if_neg en)
  · funext x
    by_cases en : e x = none
    · simp [Heap.union, en]
    · obtain ⟨b, get⟩ := Option.ne_none_iff_exists'.1 en
      simp [Heap.union, get, (s.of_extra get).2.2]

lemma Space.join {g} (s : Space F top (fun _ => none) us pt g) (disj : Heap.Disjoint g e)
    (kin : ∀ {x}, e x ≠ none → Kinit x) : Space F top e us pt (Heap.union g e) := by
  obtain ⟨m, r, t, u⟩ := s.table
  have node : ∀ x, InTree entry PTE2PA 2 g pt x → Heap.union g e x = g x :=
    fun x it => Heap.union_of_ne (t.tree.inTree_own it)
  have user : ∀ x ∈ us, Frames.rest entry PTE2PA 2 (Heap.union g e) pt x = r x := by
    intro x mem
    obtain ⟨ny, ⟨b, hb⟩, -⟩ := s.user mem
    rw [rest_of_notMem (mt (inTree_congr node).1 ny), Heap.union_of_ne (by simp [hb]), ← rest_of_notMem ny, t.rest]
  refine ⟨⟨m, _, ⟨t.tree.congr node, ?_, rfl⟩, u.nodup, ?_, ?_, u.page_congr user, u.above⟩, ?_, ?_⟩
  · rw [← t.map]
    funext va
    rw [abs, abs, lookup_congr node (Nat.le_refl _)]
  · intro x mem
    obtain ⟨-, ⟨b, hb⟩, -⟩ := s.user mem
    rw [user x mem]
    exact ⟨(u.own mem).1, Heap.union_left disj (by simp [hb])⟩
  · intro x nx
    by_cases it : InTree entry PTE2PA 2 g pt x
    · have ne := t.tree.inTree_own it
      rw [Frames.rest, if_pos ((inTree_congr node).2 it), Heap.union_left disj ne]
    · have gn : g x = none := by
        rw [← rest_of_notMem it, t.rest]
        exact u.extra nx
      rw [rest_of_notMem (mt (inTree_congr node).1 it), Heap.union_of_none gn]
  · intro p i pte lp get
    rw [lookup_congr node (Nat.le_of_lt lp)] at get
    exact s.inner p i pte lp get
  · intro x hx
    by_cases gn : g x = none
    · rw [Heap.union_of_none gn] at hx
      exact kin hx
    · exact s.kinit gn

lemma Space.extend {g} (s : Space F top e us pt h) (disj : Heap.Disjoint h g)
    (kin : ∀ {x}, g x ≠ none → Kinit x) :
    Space F top (Heap.union e g) us pt (Heap.union h g) := by
  obtain ⟨a, sa, da, rfl⟩ := s.split
  have ke : ∀ {x}, e x ≠ none → Kinit x :=
    fun ne => s.kinit fun hx => ne (Heap.union_eq_none.1 hx).2
  have dag : Heap.Disjoint a g := fun x => (disj x).imp_left fun eq => (Heap.union_eq_none.1 eq).1
  rw [Heap.union_assoc]
  refine sa.join (Heap.disjoint_union.2 ⟨da, dag⟩) ?_
  intro x ne
  by_cases en : e x = none
  · rw [Heap.union_of_none en] at ne
    exact kin ne
  · exact ke en

/-- Two address spaces, one among the extra frames of the other: the inner one may be taken first, and then nothing is left
of it. -/
lemma Space.swap {F' top' us' pt' h'} (s : Space F top h us pt h') (s' : Space F' top' e us' pt' h) :
    ∃ e', Space F' top' e' us' pt' h' ∧ Space F top e us pt e' ∧ ∀ {x}, h x ≠ none → e x = none → e' x = none := by
  obtain ⟨g, sg, dg, eq⟩ := s.split
  obtain ⟨g', sg', dg', eq'⟩ := s'.split
  have kin : ∀ {x}, e x ≠ none → Kinit x := by
    intro x ne
    refine s'.kinit fun hx => ne ?_
    rw [eq'] at hx
    exact (Heap.union_eq_none.1 hx).2
  have gone : ∀ {x}, h x ≠ none → e x = none → Heap.union g e x = none := fun {x} used free =>
    Heap.union_eq_none.2 ⟨(dg x).resolve_right used, free⟩
  rw [eq'] at dg
  obtain ⟨dgg, dge⟩ := Heap.disjoint_union.1 dg
  have sn := sg.join dge kin
  refine ⟨Heap.union g e, ?_, sn, gone⟩
  have so := sg'.join (Heap.disjoint_union.2 ⟨dgg.symm, dg'⟩) sn.kinit
  rwa [← Heap.union_assoc, Heap.union_comm dgg.symm, Heap.union_assoc, ← eq', ← eq] at so

/-! ### Mapping and unmapping user pages -/

section Rules

variable {V : Nat → Prop} {P : String → Prop}

lemma wp_kinit {α} {p : Kernel α} {Q} (hV : ∀ c, V c → Kinit c) (kin : ∀ {x}, h x ≠ none → Kinit x)
    (hp : wp V P p Q h) : wp V P p (fun a h' => Q a h' ∧ ∀ x, h' x ≠ none → Kinit x) h := by
  refine wp_mono (wp_own hp) ?_
  rintro a h' ⟨q, own⟩
  exact ⟨q, fun x hx => (own x hx).elim kin (hV x)⟩

lemma Users.snoc {c b perm} (u : Users F top m r e us) (get : e c = some b) (kin : Kinit c)
    (hp : perm < 2 ^ 10) (hF : F us.length (perm ||| PTE_V) b) :
    Users F top (mapPages m (us.length * PGSIZE) 1 c perm) r (Function.update e c none) (us ++ [c]) := by
  have nu : c ∉ us := fun mem => by simp [(u.own mem).2] at get
  have hp' : perm ||| PTE_V < 2 ^ 10 := Nat.or_lt_two_pow hp (by decide)
  constructor
  case nodup =>
    refine List.nodup_append.2 ⟨u.nodup, List.nodup_singleton c, fun x mem y my xy => ?_⟩
    rw [List.mem_singleton] at my
    exact nu (my ▸ xy ▸ mem)
  case own =>
    intro x mem
    by_cases xc : x = c
    · rw [xc, u.extra nu, get, Function.update_self]
      exact ⟨Option.some_ne_none b, rfl⟩
    · rw [Function.update_of_ne xc]
      exact u.own (by simpa [xc] using mem)
  case extra =>
    intro x nx
    simp only [List.mem_append, List.mem_singleton, not_or] at nx
    rw [Function.update_of_ne nx.2, u.extra nx.1]
  case page =>
    intro v lt
    rw [List.length_append, List.length_singleton] at lt
    simp only [PGSIZE] at lt
    by_cases old : v < us.length * PGSIZE
    · obtain ⟨pte, mv, at_v, fl⟩ := u.page old
      refine ⟨pte, ?_, ?_, fl⟩
      · rw [mapPages, if_neg (by omega), mv]
      · rw [List.getElem?_append_left, at_v]
        simp only [PGSIZE] at old ⊢
        omega
    · refine ⟨PA2PTE c ||| (perm ||| PTE_V), ?_, ?_, b, ?_, ?_⟩
      · simp only [PGSIZE] at old ⊢
        have off : (v - us.length * 4096) / 4096 = 0 := by omega
        rw [mapPages, if_pos (by simp only [PGSIZE]; omega), off, Nat.or_assoc]
        simp
      · simp only [PGSIZE] at old ⊢
        have idx : v / 4096 = us.length := by omega
        rw [idx, List.getElem?_concat_length, PTE2PA_or kin.frame hp']
      · rw [PTE2PA_or kin.frame hp', u.extra nu, get]
      · have idx : v / PGSIZE = us.length := by
          simp only [PGSIZE] at old ⊢
          omega
        rwa [PTE_FLAGS_or hp', idx]
  case above =>
    intro v le
    rw [List.length_append, List.length_singleton] at le
    have ge : us.length * PGSIZE ≤ v := Nat.le_trans (Nat.mul_le_mul_right _ (Nat.le_succ _)) le
    rw [Nat.add_mul] at le
    rw [mapPages, if_neg fun rng => Nat.not_lt.2 le rng.2, u.above ge]

variable (hV : ∀ c, V c → Kinit c) (ht : ∀ v, v < TRAPFRAME → top v = none)
include hV

include ht in
lemma wp_mappages_user {c b perm} (s : Space F top e us pt h) (get : e c = some b)
    (hp : perm < 2 ^ 10) (hF : F us.length (perm ||| PTE_V) b) :
    wp V P (mappages pt (us.length * PGSIZE) PGSIZE c perm) (fun res h' =>
      (res = 0 ∧ Space F top (Function.update e c none) (us ++ [c]) pt h') ∨
        (res = -1 ∧ Space F top e us pt h')) h := by
  have len := s.length_le
  have kc : Kinit c := s.kinit (by simp [(s.of_extra get).2.2])
  obtain ⟨m, r, t, u⟩ := s.table
  have one : npages (us.length * PGSIZE) PGSIZE = 1 := by
    simp only [npages, PGSIZE]
    omega
  have al : PGROUNDDOWN (us.length * PGSIZE) = us.length * PGSIZE := by
    simp only [PGROUNDDOWN, PGSIZE]
    omega
  have spec : wp V P (mappages pt (us.length * PGSIZE) PGSIZE c perm) _ h :=
    wp_mappages (fun c v => (hV c v).frame) t (by decide) (by simp only [PGSIZE, MAXVA]; omega)
      kc.1 (by have := kc.2.2; simp only [PHYSTOP, KERNBASE, PGSIZE] at *; omega) hp ?_
  · rw [one, al] at spec
    refine wp_mono (wp_kinit hV s.kinit spec) ?_
    rintro res h' ⟨mp, kin⟩
    obtain ⟨rz, t'⟩ | ⟨rm, k, lk, t', -⟩ := mp.result
    · exact .inl ⟨rz, ⟨⟨_, _, t', u.snoc get kc hp hF⟩, mp.inner s.inner, fun hx => kin _ hx⟩⟩
    · obtain rfl : k = 0 := by omega
      rw [mapPages_zero] at t'
      exact .inr ⟨rm, ⟨⟨m, r, t', u⟩, mp.inner s.inner, fun hx => kin _ hx⟩⟩
  · intro v lo hi ne
    rw [al] at lo hi
    have lt : v < TRAPFRAME := by
      rw [one] at hi
      simp only [PGSIZE, TRAPFRAME, TRAMPOLINE, MAXVA] at hi ⊢
      omega
    exact absurd ((u.above lo).trans (ht v lt)) ne

omit hV in
lemma Users.owned {k} (u : Users F top m r e us) (kin : ∀ {x}, r x ≠ none → Kinit x)
    (lk : k ≤ us.length) : Owned m r (k * PGSIZE) (us.length - k) := by
  have len : ∀ {v}, v < k * PGSIZE + (us.length - k) * PGSIZE → v < us.length * PGSIZE := by
    intro v lt
    rwa [← Nat.add_mul, Nat.add_sub_cancel' lk] at lt
  have at_v : ∀ {v pte}, v < k * PGSIZE + (us.length - k) * PGSIZE → m v = some pte →
      us[v / PGSIZE]? = some (PTE2PA pte) := by
    intro v pte lt mv
    obtain ⟨pte', mv', at_v, -⟩ := u.page (len lt)
    rw [mv'] at mv
    cases mv
    exact at_v
  constructor
  case own =>
    intro v pte _ lt mv
    have mem := List.mem_of_getElem? (at_v lt mv)
    obtain ⟨ne, -⟩ := u.own mem
    exact ⟨kin ne, Option.ne_none_iff_exists'.1 ne⟩
  case inj =>
    intro v v' pte pte' _ lt _ lt' mv mv' eq
    have hv := at_v lt mv
    have hv' := at_v lt' mv'
    rw [← eq] at hv'
    obtain ⟨l, g⟩ := List.getElem?_eq_some_iff.1 hv
    obtain ⟨l', g'⟩ := List.getElem?_eq_some_iff.1 hv'
    exact (u.nodup.getElem_inj_iff).1 (g.trans g'.symm)

omit hV in
lemma Users.backs_iff {k x} (u : Users F top m r e us) (lk : k ≤ us.length) :
    Backs m (k * PGSIZE) (us.length - k) x ↔ x ∈ us.drop k := by
  have len : k * PGSIZE + (us.length - k) * PGSIZE = us.length * PGSIZE := by
    rw [← Nat.add_mul, Nat.add_sub_cancel' lk]
  constructor
  · rintro ⟨v, pte, lo, hi, mv, rfl⟩
    obtain ⟨pte', mv', at_v, -⟩ := u.page (len ▸ hi)
    rw [mv'] at mv
    cases mv
    apply List.mem_of_getElem? (i := v / PGSIZE - k)
    rw [List.getElem?_drop, ← at_v]
    congr 1
    simp only [PGSIZE] at lo ⊢
    omega
  · intro mem
    obtain ⟨j, lj, eq⟩ := List.getElem_of_mem mem
    rw [List.length_drop] at lj
    have lt : (k + j) * PGSIZE < us.length * PGSIZE :=
      Nat.mul_lt_mul_of_pos_right (by omega) (by decide)
    obtain ⟨pte, mv, at_v, -⟩ := u.page lt
    refine ⟨(k + j) * PGSIZE, pte, ?_, Nat.lt_of_lt_of_eq lt len.symm, mv, ?_⟩
    · exact Nat.mul_le_mul_right _ (Nat.le_add_right k j)
    · rw [Nat.mul_div_cancel _ (by decide), List.getElem?_eq_getElem (by omega)] at at_v
      rw [← Option.some.inj at_v, ← eq, List.getElem_drop]

omit hV in
include ht in
lemma Users.take {k} (u : Users F top m r e us) (lk : k ≤ us.length)
    (le : us.length * PGSIZE ≤ TRAPFRAME) :
    Users F top (unmapPages m (k * PGSIZE) (us.length - k))
      (freed r m (k * PGSIZE) (us.length - k)) e (us.take k) := by
  have len : k * PGSIZE + (us.length - k) * PGSIZE = us.length * PGSIZE := by
    rw [← Nat.add_mul, Nat.add_sub_cancel' lk]
  have lenk : (us.take k).length = k := List.length_take_of_le lk
  have split : us.take k ++ us.drop k = us := List.take_append_drop k us
  have disj : ∀ {x}, x ∈ us.take k → x ∉ us.drop k := by
    intro x mt md
    have nd := u.nodup
    rw [← split] at nd
    exact (List.nodup_append.1 nd).2.2 x mt x md rfl
  constructor
  case nodup => exact u.nodup.sublist (List.take_sublist k us)
  case own =>
    intro x mem
    rw [freed, if_neg (mt (u.backs_iff lk).1 (disj mem))]
    exact u.own (List.mem_of_mem_take mem)
  case extra =>
    intro x nx
    by_cases bx : Backs m (k * PGSIZE) (us.length - k) x
    · have mem := List.mem_of_mem_drop ((u.backs_iff lk).1 bx)
      rw [freed, if_pos bx, (u.own mem).2]
    · have nu : x ∉ us := by
        rw [← split, List.mem_append, not_or]
        exact ⟨nx, mt (u.backs_iff lk).2 bx⟩
      rw [freed, if_neg bx, u.extra nu]
  case page =>
    intro v lt
    rw [lenk] at lt
    obtain ⟨pte, mv, at_v, b, rb, fl⟩ := u.page (Nat.lt_of_lt_of_le lt (Nat.mul_le_mul_right _ lk))
    have kept : (us.take k)[v / PGSIZE]? = some (PTE2PA pte) := by
      rw [List.getElem?_take_of_lt, at_v]
      exact Nat.div_lt_of_lt_mul (Nat.mul_comm k _ ▸ lt)
    refine ⟨pte, ?_, kept, b, ?_, fl⟩
    · rw [unmapPages, if_neg fun rng => Nat.not_lt.2 rng.1 lt, mv]
    · rwa [freed, if_neg (mt (u.backs_iff lk).1 (disj (List.mem_of_getElem? kept)))]
  case above =>
    intro v ge
    rw [lenk] at ge
    rw [unmapPages, len]
    split_ifs with rng
    · rw [ht v (Nat.lt_of_lt_of_le rng.2 le)]
    · exact u.above (Nat.not_lt.1 fun lt => rng ⟨ge, lt⟩)

omit hV ht in
lemma Space.kinit_rest (s : Space F top e us pt h) (t : PageTable h pt m r) {x} (ne : r x ≠ none) :
    Kinit x := by
  obtain ⟨b, get⟩ := Option.ne_none_iff_exists'.1 ne
  exact s.kinit (by simp [(t.beside get).2])

omit hV ht in
lemma Space.below (s : Space F top e us pt h) : us.length * PGSIZE ≤ TRAPFRAME := by
  have len := s.length_le
  simp only [PGSIZE, TRAPFRAME, TRAMPOLINE, MAXVA]
  omega

include ht in
lemma wp_uvmunmap_user {a n k} (hF : ∀ {i fl b}, F i fl b → fl ≠ PTE_V) (s : Space F top e us pt h)
    (lk : k ≤ us.length) (ha : a = k * PGSIZE) (hn : n = us.length - k) :
    wp V P (uvmunmap pt a n true) (fun _ h' => Space F top e (us.take k) pt h') h := by
  subst ha hn
  have below := s.below
  obtain ⟨m, r, t, u⟩ := s.table
  have len : k * PGSIZE + (us.length - k) * PGSIZE = us.length * PGSIZE := by
    rw [← Nat.add_mul, Nat.add_sub_cancel' lk]
  have spec : wp V P (uvmunmap pt (k * PGSIZE) (us.length - k) true) _ h :=
    wp_uvmunmap (fun c v => (hV c v).frame) t (Nat.mul_mod_left k _)
      (by rw [len]; exact Nat.le_trans below (by decide)) ?_ fun _ => u.owned (s.kinit_rest t) lk
  · refine wp_mono (wp_kinit hV s.kinit spec) ?_
    rintro _ h' ⟨un, kin⟩
    exact ⟨⟨_, _, un.table, u.take ht lk below⟩, un.inner s.inner, fun hx => kin _ hx⟩
  · intro v _ lt
    obtain ⟨pte, mv, -, b, -, fl⟩ := u.page (Nat.lt_of_lt_of_eq lt len)
    exact ⟨pte, mv, hF fl⟩

lemma wp_uvmunmap_top {a pte} (s : Space F top e us pt h) (al : a % PGSIZE = 0) (lo : TRAPFRAME ≤ a)
    (hi : a + PGSIZE ≤ MAXVA) (ta : top a = some pte) (fl : PTE_FLAGS pte ≠ PTE_V) :
    wp V P (uvmunmap pt a 1 false) (fun _ h' => Space F (setPage top a none) e us pt h') h := by
  have below := s.below
  obtain ⟨m, r, t, u⟩ := s.table
  have spec : wp V P (uvmunmap pt a 1 false) _ h :=
    wp_uvmunmap (fun c v => (hV c v).frame) t al (by rwa [Nat.one_mul]) ?_ nofun
  · refine wp_mono (wp_kinit hV s.kinit spec) ?_
    rintro _ h' ⟨un, kin⟩
    have t' := un.table
    rw [unmapPages_one al] at t'
    refine ⟨⟨_, _, t', u.nodup, u.own, u.extra, ?_, ?_⟩, un.inner s.inner, fun hx => kin _ hx⟩
    · intro v lt
      rw [setPage, if_neg fun eq => ?_]
      · exact u.page lt
      · simp only [PGSIZE] at eq al lt below
        omega
    · intro v ge
      rw [setPage, setPage, u.above ge]
  · intro v lov hiv
    have eq : v / PGSIZE = a / PGSIZE := by
      simp only [PGSIZE] at al hiv ⊢
      omega
    refine ⟨pte, ?_, fl⟩
    rw [t.page eq, u.above (Nat.le_trans below lo), ta]

lemma wp_mappages_top {a pa perm} (s : Space F top e us pt h) (al : a % PGSIZE = 0)
    (lo : TRAPFRAME ≤ a) (hi : a + PGSIZE ≤ MAXVA) (ta : ∀ v, v / PGSIZE = a / PGSIZE → top v = none)
    (alp : pa % PGSIZE = 0) (fit : pa < PHYSTOP) (hp : perm < 2 ^ 10) :
    wp V P (mappages pt a PGSIZE pa perm) (fun res h' =>
      (res = 0 ∧ Space F (setPage top a (some (PA2PTE pa ||| perm ||| PTE_V))) e us pt h') ∨
        (res = -1 ∧ Space F top e us pt h')) h := by
  have below := s.below
  obtain ⟨m, r, t, u⟩ := s.table
  have one : npages a PGSIZE = 1 := by
    simp only [npages, PGSIZE] at al ⊢
    omega
  have down : PGROUNDDOWN a = a := by
    simp only [PGROUNDDOWN, PGSIZE] at al ⊢
    omega
  have spec : wp V P (mappages pt a PGSIZE pa perm) _ h :=
    wp_mappages (fun c v => (hV c v).frame) t (by decide) hi alp
      (by simp only [PHYSTOP, KERNBASE, PGSIZE] at *; omega) hp ?_
  · rw [one, down] at spec
    refine wp_mono (wp_kinit hV s.kinit spec) ?_
    rintro res h' ⟨mp, kin⟩
    obtain ⟨rz, t'⟩ | ⟨rm, k, lk, t', -⟩ := mp.result
    · rw [mapPages_one al] at t'
      refine .inl ⟨rz, ⟨⟨_, _, t', u.nodup, u.own, u.extra, ?_, ?_⟩, mp.inner s.inner,
        fun hx => kin _ hx⟩⟩
      · intro v lt
        rw [setPage, if_neg fun eq => ?_]
        · exact u.page lt
        · simp only [PGSIZE] at eq al lt below
          omega
      · intro v ge
        rw [setPage, setPage, u.above ge]
    · obtain rfl : k = 0 := by omega
      rw [mapPages_zero] at t'
      exact .inr ⟨rm, ⟨⟨m, r, t', u⟩, mp.inner s.inner, fun hx => kin _ hx⟩⟩
  · intro v lov hiv ne
    rw [down] at lov hiv
    rw [one] at hiv
    refine absurd ?_ ne
    rw [u.above (by omega)]
    refine ta v ?_
    simp only [PGSIZE] at al lov hiv ⊢
    omega

omit hV in
lemma PageTable.lookup_none (t : PageTable h pt (fun _ => none) r) {p i} (lp : p.length = 2) :
    lookup entry PTE2PA h pt p i = none := by
  obtain ⟨i₂, i₁, rfl⟩ := List.length_eq_two.1 lp
  by_contra ne
  obtain ⟨pte, get⟩ := Option.ne_none_iff_exists'.1 ne
  -- every index on the way is below 512, so that the path belongs to an address
  have bound : ∀ {x i e}, slot entry h x i = some e → i < 512 := by
    intro x i e s
    obtain ⟨page, -, ent⟩ := Option.bind_eq_some_iff.1 s
    by_contra ge
    rw [entry_of_le (by omega)] at ent
    cases ent
  obtain ⟨x, nx, l₀⟩ := Option.bind_eq_some_iff.1 get
  obtain ⟨e₂, l₂, nx⟩ := Option.bind_eq_some_iff.1 nx
  obtain ⟨e₁, l₁, -⟩ := Option.bind_eq_some_iff.1 nx
  have b₀ := bound l₀
  have b₁ := bound l₁
  have b₂ := bound l₂
  have lt : i₂ * 2 ^ 30 + i₁ * 2 ^ 21 + i * 2 ^ 12 < 2 ^ 39 := by omega
  have path : indices (i₂ * 2 ^ 30 + i₁ * 2 ^ 21 + i * 2 ^ 12) 2 = [i₂, i₁] := by
    simp only [indices, PX_eq, List.cons.injEq, and_true]
    omega
  have idx : PX 0 (i₂ * 2 ^ 30 + i₁ * 2 ^ 21 + i * 2 ^ 12) = i := by
    rw [PX_eq]
    omega
  have mv := congrFun t.map (i₂ * 2 ^ 30 + i₁ * 2 ^ 21 + i * 2 ^ 12)
  rw [abs, if_pos lt, path, idx, get] at mv
  cases mv

omit hV in
lemma Space.hollow (s : Space F (fun _ => none) e [] pt h) :
    Hollow 2 h pt ∧ rest entry PTE2PA 2 h pt = e := by
  obtain ⟨m, r, t, u⟩ := s.table
  obtain rfl : m = fun _ => none := funext fun v => u.above (by simp)
  refine ⟨⟨t.tree, ?_, t.lookup_none, fun it => s.kinit (t.tree.inTree_own it)⟩, ?_⟩
  · intro p i pte lp get
    exact s.inner p i pte lp get
  · rw [t.rest]
    exact funext fun x => u.extra List.not_mem_nil

lemma wp_uvmfree {sz} (hF : ∀ {i fl b}, F i fl b → fl ≠ PTE_V) (s : Space F (fun _ => none) e us pt h)
    (len : us.length = pages sz) : wp V P (uvmfree pt sz) (fun _ h' => h' = e) h := by
  have free : ∀ {h}, Space F (fun _ => none) e [] pt h →
      wp V P (freewalk 3 pt) (fun _ h' => h' = e) h := by
    intro h s
    obtain ⟨hol, eq⟩ := s.hollow
    exact eq ▸ wp_freewalk hol
  have small := s.length_le
  have le := le_pages sz
  rw [← len] at le
  rw [uvmfree]
  split
  · have round : PGROUNDUP sz / PGSIZE = us.length - 0 := by
      rw [PGROUNDUP_eq, ← len, Nat.mul_div_cancel _ (by decide), Nat.sub_zero]
      simp only [PGSIZE] at le
      omega
    rw [wp_bind]
    refine wp_mono (wp_uvmunmap_user hV (fun _ _ => rfl) hF s (Nat.zero_le _)
      (Nat.zero_mul _).symm round) fun _ h' s' => ?_
    rw [List.take_zero] at s'
    exact free s'
  · obtain rfl : sz = 0 := by omega
    obtain rfl : us = [] := List.length_eq_zero_iff.1 len
    exact free s

end Rules

end Xv6
