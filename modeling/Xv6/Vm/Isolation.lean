import Xv6.Vm.Ownership

/-!
# Page ownership and the shape of address spaces

What holds in every state that the system can reach once the first process has been set up. Between system
calls every frame of the allocator is in exactly one place: on the free list, a node or a page of one
process, a trapframe, a pipe that some descriptor refers to, or a frame the kernel took when it booted
(`page_ownership`). The page table of a process between calls maps the pages of its memory, the trapframe
and the trampoline, and nothing else (`address_space_shape`).
-/

namespace Xv6

open Frames Prog

attribute [local irreducible] PTE2PA PA2PTE PTE_FLAGS PX ByteVec.getLE ByteVec.putLE dups

/-- The slot is in use: it has an address space. -/
def Proc.InUse (P : Proc) : Prop := P.state = .live ∨ P.state = .zombie

/-- The process is between system calls. -/
def Proc.Between (P : Proc) : Prop := P.exiting = false ∧ P.closing = none ∧ P.call = none

/-- The places a page frame can be in. -/
inductive Place where
  | free (i : Nat)
  | node (p : Fin NPROC) (path : List Nat)
  | user (p : Fin NPROC) (va : Nat)
  | trapframe (p : Fin NPROC)
  | pipe
  | boot

/-- The frame is in that place; `B` are the frames the kernel took when it booted. -/
def Place.Holds (B : Nat → Prop) (s : Sys) (x : Nat) : Place → Prop
  | .free i => s.store.free[i]? = some x
  | .node p path => (s.procs p).InUse ∧ path.length ≤ 2 ∧
    Frames.node entry PTE2PA s.memory (s.procs p).pagetable path = some x
  | .user p va => (s.procs p).InUse ∧ va % PGSIZE = 0 ∧ va < PGROUNDUP (s.procs p).sz ∧
    ∃ pte, abs s.memory (s.procs p).pagetable va = some pte ∧ PTE2PA pte = x
  | .trapframe p => (s.procs p).InUse ∧ (s.procs p).trapframe = x
  | .pipe => ∃ p fd f w, (s.procs p).ofile fd = some f ∧ (s.files f).pipe = some (x, w)
  | .boot => B x

/-- The state in which the first process starts: it is the only one, and the frames are on the free list,
in its memory or among those of the kernel. -/
structure Booted (B : Nat → Prop) (s : Sys) : Prop where
  first : (s.procs initproc).Idle ∧ (s.procs initproc).lock = none
  others : ∀ {p}, p ≠ initproc → (s.procs p).state = .unused ∧ (s.procs p).lock = none ∧
    (s.procs p).sz = 0 ∧ (s.procs p).Between
  ofile : ∀ p fd, (s.procs p).ofile fd = none
  files : ∀ f, s.files f = ⟨0, none⟩
  pipes : ∀ pi, s.pipes pi = none
  memory : ∃ H : Owner → Memory, Owns Kinit s.store H ∧ (∀ {x}, H .boot x ≠ none ↔ B x) ∧
    (s.procs initproc).Mem (H (.proc initproc)) ∧
    ∀ t, t ≠ .boot → t ≠ .proc initproc → H t = fun _ => none

variable {B : Nat → Prop} {s s₀ : Sys} {H : Owner → Memory} {p : Fin NPROC} {pt tf sz x : Nat}
  {h M : Memory} {ps : List (Fin NPROC)}

namespace ProcMem

lemma sz_lt (m : ProcMem pt tf sz h) : sz < 2 ^ 63 := by
  obtain ⟨us, e, len, -, sp⟩ := m
  have small := sp.length_le
  have le := le_pages sz
  rw [← len] at le
  simp only [PGSIZE] at le
  omega

variable (agree : ∀ {x b}, h x = some b → M x = some b)
include agree

lemma node_eq (m : ProcMem pt tf sz h) {path} (le : path.length ≤ 2) :
    node entry PTE2PA M pt path = node entry PTE2PA h pt path := by
  obtain ⟨us, e, -, -, sp⟩ := m
  obtain ⟨m, r, t, -⟩ := sp.table
  refine IsTree.node_eq (d := 2) (fun x it => ?_) (by omega)
  obtain ⟨b, get⟩ := Option.ne_none_iff_exists'.1 (t.tree.inTree_own it)
  rw [get, agree get]

lemma user_pages (m : ProcMem pt tf sz h) : ∃ us : List Nat, us.Nodup ∧
    (∀ va, va < PGROUNDUP sz → ∃ pte, abs M pt va = some pte ∧ us[va / PGSIZE]? = some (PTE2PA pte)) ∧
    us.length * PGSIZE = PGROUNDUP sz ∧
    (∀ x, x ∈ us → h x ≠ none ∧ ¬InTree entry PTE2PA 2 h pt x ∧ x ≠ tf) ∧
    ∀ x, h x ≠ none → InTree entry PTE2PA 2 h pt x ∨ x ∈ us ∨ x = tf := by
  have round := PGROUNDUP_eq m.sz_lt
  obtain ⟨us, e, len, dom, sp⟩ := m
  obtain ⟨m, r, t, u⟩ := sp.table
  refine ⟨us, u.nodup, fun va lt => ?_, by rw [round, len], fun x mem => ?_, fun x hx => ?_⟩
  · obtain ⟨pte, mva, at_va, -⟩ := u.page (v := va) (by rwa [len, ← round])
    exact ⟨pte, by rw [(t.lift agree).map, mva], at_va⟩
  · obtain ⟨ny, ⟨b, hx⟩, ex⟩ := sp.user mem
    refine ⟨by simp [hx], ny, ?_⟩
    rintro rfl
    exact (dom x).2 rfl ex
  · by_cases it : InTree entry PTE2PA 2 h pt x
    · exact .inl it
    by_cases mem : x ∈ us
    · exact .inr (.inl mem)
    · refine .inr (.inr ((dom x).1 ?_))
      rw [← u.extra mem, ← t.rest]
      exact rest_ne_none.2 ⟨it, hx⟩

omit agree in
lemma trapframe (m : ProcMem pt tf sz h) : h tf ≠ none ∧ ¬InTree entry PTE2PA 2 h pt tf := by
  obtain ⟨us, e, len, dom, sp⟩ := m
  obtain ⟨b, get⟩ := Option.ne_none_iff_exists'.1 ((dom tf).2 rfl)
  obtain ⟨ny, -, hx⟩ := sp.of_extra get
  exact ⟨by simp [hx], ny⟩

end ProcMem

/-- What every reachable state satisfies. -/
structure Sound (B : Nat → Prop) (s : Sys) : Prop where
  links : Links s.procs
  files : Files s
  owned : ∃ H, Inv B s H

lemma Booted.sound (b : Booted B s) : Sound B s := by
  have call : ∀ p, (s.procs p).call = none := by
    intro p
    by_cases pi : p = initproc
    · exact pi ▸ b.first.1.2.2.2
    · exact (b.others pi).2.2.2.2.2
  have closing : ∀ p, (s.procs p).closing = none := by
    intro p
    by_cases pi : p = initproc
    · exact pi ▸ b.first.1.2.2.1
    · exact (b.others pi).2.2.2.2.1
  have child : ∀ p, (s.procs p).child = none := fun p => by rw [Proc.child, call, Option.bind_none]
  have lock : ∀ p, (s.procs p).lock = none := by
    intro p
    by_cases pi : p = initproc
    · exact pi ▸ b.first.2
    · exact (b.others pi).2.1
  refine ⟨⟨?_, ?_, ?_, ?_⟩, ⟨?_, ?_, ?_, ?_, ?_, ?_, ?_⟩, ?_⟩
  · exact fun ne => absurd (call _) ne
  · intro p c
    simp [child, lock]
  · intro p c st ch
    simp [child] at ch
  · intro p z
    by_cases pi : p = initproc
    · rw [pi, b.first.1.1] at z
      obtain z | z := z <;> cases z
    · exact (b.others pi).2.2.1
  · intro f
    rw [b.files]
    exact (Finset.sum_eq_zero fun p _ => by simp [dups, b.ofile]).symm
  · intro f _
    rw [b.files]
  · exact fun _ => ⟨b.ofile _, closing _⟩
  · intro p fd0 fd1 prog eq
    simp [call] at eq
  · intro pi w
    refine ⟨fun ex => by simp [b.pipes] at ex, fun ex => ?_⟩
    obtain ⟨k, eq⟩ := ex
    cases k with
    | inl f => simp [Sys.holds, b.files] at eq
    | inr q => simp [Sys.holds, closing] at eq
  · intro k k' e eq
    cases k with
    | inl f => simp [Sys.holds, b.files] at eq
    | inr q => simp [Sys.holds, closing] at eq
  · intro pi st eq
    simp [b.pipes] at eq
  · obtain ⟨H, owns, boot, mem, rest⟩ := b.memory
    refine ⟨H, owns, boot, ?_, fun p => ?_⟩
    · intro pi x
      simp [rest (.pipe pi) (by simp) (by simp), b.pipes]
    · by_cases pi : p = initproc
      · subst pi
        exact Slot.idle rfl (call _) (.inl b.first.1.1) mem
      · rw [rest (.proc p) (by simp) (by simp [pi])]
        exact Slot.empty rfl (call p) (by simp [Proc.HasMem, (b.others pi).1])

lemma Sound.step {s'} (so : Sound B s) (st : Sys.Step s p s') : Sound B s' := by
  obtain ⟨H, inv⟩ := so.owned
  exact ⟨so.links.step st, so.files.step so.links (fun _ _ => inv.fresh) st, inv.step so.links st⟩

lemma Booted.run (b : Booted B s₀) (run : Run Sys.Step s₀ ps s) : Sound B s :=
  run.invariant b.sound fun so st => so.step st

/-! ### A machine with four frames -/

def fourFrames : Store Nat Page := ⟨fun _ _ => 0, [0x80024000, 0x80025000, 0x80026000, 0x80027000]⟩

/-- The kernel has all the other frames of the allocator. -/
def allButFour (x : Nat) : Prop := Kinit x ∧ x ∉ fourFrames.free

/-- The memory after `allocproc` has set up the first process. -/
def firstStore : Store Nat Page :=
  match (allocproc 0).run fourFrames with
  | some (_, s) => s
  | none => fourFrames

/-- The first process, without user memory, on a machine with four frames. -/
def firstSys : Sys where
  store := firstStore
  procs p :=
    { state := if p = initproc then .live else .unused
      lock := none
      parent := none
      pagetable := if p = initproc then 0x80025000 else 0
      trapframe := if p = initproc then 0x80024000 else 0
      sz := 0
      ofile := fun _ => none
      exiting := false
      closing := none
      call := none }
  files := fun _ => ⟨0, none⟩
  pipes := fun _ => none

lemma allocproc_fourFrames :
    ((allocproc 0).run fourFrames).map Prod.fst = some (some (0x80024000, 0x80025000)) := by
  decide +kernel

lemma firstSys_booted : Booted allButFour firstSys := by
  classical
  refine ⟨⟨⟨rfl, rfl, rfl, rfl⟩, rfl⟩, fun ne => ⟨if_neg ne, rfl, rfl, rfl, rfl, rfl⟩, fun _ _ => rfl,
    fun _ => rfl, fun _ => rfl, ?_⟩
  -- before `allocproc` every frame is free or one of the kernel's
  have o : Owns Kinit fourFrames fun t : Owner =>
      if t = .boot then fun x => if allButFour x then some (fun _ => 0) else none else fun _ => none := by
    constructor
    · intro t x b get
      by_cases tb : t = .boot
      · by_cases bx : allButFour x
        · simp only [tb, bx, if_true] at get
          exact Option.some.inj get
        · simp [tb, bx] at get
      · simp [tb] at get
    · intro t t' x ne ne'
      by_cases tb : t = .boot
      · by_cases tb' : t' = .boot
        · rw [tb, tb']
        · simp [tb'] at ne'
      · simp [tb] at ne
    · intro t x ne
      by_cases tb : t = .boot
      · by_cases bx : allButFour x
        · exact bx
        · simp [tb, bx] at ne
      · simp [tb] at ne
    · decide
    · intro x mem
      simp only [fourFrames, List.mem_cons, List.not_mem_nil, or_false] at mem
      obtain rfl | rfl | rfl | rfl := mem <;> exact ⟨by decide, by decide, by decide⟩
    · intro x kin
      by_cases mem : x ∈ fourFrames.free
      · exact .inl mem
      · refine .inr ⟨.boot, ?_⟩
        simp [allButFour, kin, mem]
  obtain ⟨⟨res, store⟩, run, res_eq⟩ := Option.map_eq_some_iff.1 allocproc_fourFrames
  have st : firstSys.store = store := by
    show firstStore = store
    rw [firstStore, run]
  subst res_eq
  obtain ⟨h', o', post⟩ := o.run (t := .proc initproc) (P := fun _ => False)
    (wp_allocproc (fun _ k => k) (by simp)) run
  obtain ⟨no, -⟩ | ⟨tf, pt, b, eq, -, -, sp⟩ := post
  · cases no
  cases eq
  refine ⟨_, st ▸ o', ?_, ?_, fun t tb tp => ?_⟩
  · intro x
    rw [Function.update_of_ne (by simp)]
    simp
  · rw [Function.update_self]
    refine ⟨[], _, rfl, fun x => ?_, sp⟩
    by_cases xt : x = 0x80024000
    · simp [xt, firstSys]
    · simp [xt, firstSys]
  · rw [Function.update_of_ne tp]
    simp [tb]

lemma firstSys_run : ∃ s, Run Sys.Step firstSys [initproc, initproc] s ∧ (∀ p, (s.procs p).Between) ∧
    s.procs initproc = firstSys.procs initproc := by
  refine ⟨_, .snoc (.snoc .nil (.sbrk (n := 0) ⟨rfl, rfl, rfl, rfl⟩)) (@Sys.Step.sbrkRet _ initproc 0 ?_), ?_, ?_⟩
  · rw [Sys.enter, Sys.set_self]
    rfl
  · intro p
    by_cases pi : p = initproc
    · subst pi
      rw [Sys.set_self]
      exact ⟨rfl, rfl, rfl⟩
    · rw [Sys.set_ne pi, Sys.enter, Sys.set_ne pi]
      exact ⟨rfl, rfl, rfl⟩
  · rw [Sys.set_self, Sys.enter, Sys.set_self]
    rfl

/-! ### Where a frame is -/

/-- Whom a frame in a place belongs to. -/
def Place.owner (x : Nat) : Place → Option Owner
  | .free _ => none
  | .node p _ => some (.proc p)
  | .user p _ => some (.proc p)
  | .trapframe p => some (.proc p)
  | .pipe => some (.pipe x)
  | .boot => some .boot

lemma Files.descriptor {f} (fs : Files s) (ne : (s.files f).ref ≠ 0) :
    ∃ p fd, (s.procs p).ofile fd = some f := by
  rw [fs.count] at ne
  obtain ⟨p, -, ne⟩ := Finset.exists_ne_zero_of_sum_ne_zero ne
  unfold dups at ne
  obtain ⟨fd, -, ne⟩ := Finset.exists_ne_zero_of_sum_ne_zero ne
  refine ⟨p, fd, ?_⟩
  by_contra no
  exact ne (if_neg no)

section Quiet

variable (inv : Inv B s H) (l : Links s.procs) (fs : Files s) (quiet : ∀ p, (s.procs p).Between)
include inv l quiet

lemma Inv.mem_of_inUse (use : (s.procs p).InUse) : (s.procs p).Mem (H (.proc p)) := by
  refine (inv.slot p).mem (quiet p).2.2 (use.imp_right fun zo => ⟨zo, ?_⟩)
  by_contra ne
  obtain ⟨q, lk⟩ := Option.ne_none_iff_exists'.1 ne
  obtain ⟨st, ch⟩ := l.lock.2 lk
  simp [Proc.child, (quiet q).2.2] at ch

include fs

lemma Place.Holds.owned {place : Place} (at_x : place.Holds B s x) :
    match place.owner x with
    | none => x ∈ s.store.free
    | some t => H t x ≠ none := by
  have agree : ∀ {p x b}, H (.proc p) x = some b → s.memory x = some b := inv.memory
  cases place with
  | free i => exact List.mem_of_getElem? at_x
  | node p path =>
    obtain ⟨use, le, nd⟩ := at_x
    have m := inv.mem_of_inUse l quiet use
    rw [m.node_eq agree le] at nd
    obtain ⟨us, e, -, -, sp⟩ := m
    obtain ⟨m, r, t, -⟩ := sp.table
    exact t.tree.own le nd
  | user p va =>
    obtain ⟨use, -, lt, pte, get, rfl⟩ := at_x
    obtain ⟨us, -, pages, -, own, -⟩ := (inv.mem_of_inUse l quiet use).user_pages agree
    obtain ⟨pte', get', at_va⟩ := pages va lt
    obtain rfl : pte = pte' := Option.some.inj (get.symm.trans get')
    exact (own _ (List.mem_of_getElem? at_va)).1
  | trapframe p =>
    obtain ⟨use, rfl⟩ := at_x
    exact (inv.mem_of_inUse l quiet use).trapframe.1
  | pipe =>
    obtain ⟨p, fd, f, w, -, get⟩ := at_x
    obtain ⟨st, is, -⟩ := fs.ends.held.2 ⟨.inl f, get⟩
    exact inv.pipe.2 ⟨rfl, by simp [is]⟩
  | boot => exact inv.boot.2 at_x

lemma Inv.place {t} (own : H t x ≠ none) : ∃ place : Place, place.owner x = some t ∧ place.Holds B s x := by
  have agree : ∀ {p x b}, H (.proc p) x = some b → s.memory x = some b := inv.memory
  cases t with
  | proc p =>
    have use : (s.procs p).InUse := by
      by_contra no
      have gone := (inv.slot p).gone fun hm => no (hm.imp_right And.left)
      simp [gone] at own
    have m := inv.mem_of_inUse l quiet use
    obtain ⟨us, -, pages, len, -, cases_x⟩ := m.user_pages agree
    obtain ⟨path, le, nd⟩ | mem | rfl := cases_x x own
    · exact ⟨.node p path, rfl, use, le, by rw [m.node_eq agree le, nd]⟩
    · obtain ⟨i, at_i⟩ := List.getElem?_of_mem mem
      have lt : i * PGSIZE < PGROUNDUP (s.procs p).sz := by
        rw [← len]
        exact Nat.mul_lt_mul_of_pos_right (List.getElem?_eq_some_iff.1 at_i).1 (by decide)
      obtain ⟨pte, get, at_va⟩ := pages _ lt
      rw [Nat.mul_div_cancel _ (by decide), at_i] at at_va
      exact ⟨.user p (i * PGSIZE), rfl, use, Nat.mul_mod_left .., lt, pte, get,
        (Option.some.inj at_va).symm⟩
    · exact ⟨.trapframe p, rfl, use, rfl⟩
  | pipe pi =>
    obtain ⟨rfl, ne⟩ := inv.pipe.1 own
    obtain ⟨st, is⟩ := Option.ne_none_iff_exists'.1 ne
    have held : ∃ w k, s.holds k = some (x, w) := by
      obtain op | op := fs.ends.opened is
      · exact ⟨false, fs.ends.held.1 ⟨st, is, op⟩⟩
      · exact ⟨true, fs.ends.held.1 ⟨st, is, op⟩⟩
    obtain ⟨w, k, get⟩ := held
    cases k with
    | inl f =>
      obtain ⟨p, fd, get'⟩ := fs.descriptor (f := f) fun z => by simp [Sys.holds, fs.unused z] at get
      exact ⟨.pipe, rfl, p, fd, f, w, get', get⟩
    | inr q => simp [Sys.holds, (quiet q).2.1] at get
  | boot => exact ⟨.boot, rfl, inv.boot.1 own⟩

omit fs in
lemma Place.Holds.proc_unique {place place' : Place} (own : place.owner x = some (.proc p))
    (own' : place'.owner x = some (.proc p)) (at_x : place.Holds B s x) (at_x' : place'.Holds B s x) :
    place = place' := by
  have agree : ∀ {p x b}, H (.proc p) x = some b → s.memory x = some b := inv.memory
  have use : (s.procs p).InUse := by
    cases place <;> cases own <;> exact at_x.1
  have m := inv.mem_of_inUse l quiet use
  obtain ⟨us, nd, pages, len, apart, -⟩ := m.user_pages agree
  have tree : IsTree entry PTE2PA 2 (H (.proc p)) (s.procs p).pagetable := by
    obtain ⟨_, _, -, -, sp⟩ := m
    obtain ⟨_, _, t, -⟩ := sp.table
    exact t.tree
  have node_at : ∀ {path}, (Place.node p path).Holds B s x →
      path.length ≤ 2 ∧ Frames.node entry PTE2PA (H (.proc p)) (s.procs p).pagetable path = some x := by
    rintro path ⟨-, le, nd⟩
    exact ⟨le, by rw [← m.node_eq agree le, nd]⟩
  have user_at : ∀ {va}, (Place.user p va).Holds B s x → va % PGSIZE = 0 ∧ us[va / PGSIZE]? = some x := by
    rintro va ⟨-, al, lt, pte, get, rfl⟩
    obtain ⟨pte', get', at_va⟩ := pages va lt
    obtain rfl : pte = pte' := Option.some.inj (get.symm.trans get')
    exact ⟨al, at_va⟩
  -- a node is no user page, and the trapframe is neither
  have node_user : ∀ {path va}, (Place.node p path).Holds B s x → ¬(Place.user p va).Holds B s x := by
    intro path va hn hu
    obtain ⟨le, nd⟩ := node_at hn
    exact (apart x (List.mem_of_getElem? (user_at hu).2)).2.1 ⟨path, le, nd⟩
  have node_tf : ∀ {path}, (Place.node p path).Holds B s x → ¬(Place.trapframe p).Holds B s x := by
    rintro path hn ⟨-, rfl⟩
    obtain ⟨le, nd⟩ := node_at hn
    exact m.trapframe.2 ⟨path, le, nd⟩
  have user_tf : ∀ {va}, (Place.user p va).Holds B s x → ¬(Place.trapframe p).Holds B s x := by
    rintro va hu ⟨-, rfl⟩
    exact (apart _ (List.mem_of_getElem? (user_at hu).2)).2.2 rfl
  cases place with
  | node q path =>
    cases own
    cases place' with
    | node q' path' =>
      cases own'
      obtain ⟨le, nd⟩ := node_at at_x
      obtain ⟨le', nd'⟩ := node_at at_x'
      rw [tree.inj le le' nd nd']
    | user q' va => cases own'; exact absurd at_x' (node_user at_x)
    | trapframe q' => cases own'; exact absurd at_x' (node_tf at_x)
    | _ => cases own'
  | user q va =>
    cases own
    cases place' with
    | node q' path' => cases own'; exact absurd at_x (node_user at_x')
    | user q' va' =>
      cases own'
      obtain ⟨al, at_va⟩ := user_at at_x
      obtain ⟨al', at_va'⟩ := user_at at_x'
      have eq := (List.getElem?_inj (List.getElem?_eq_some_iff.1 at_va).1 nd).1 (at_va.trans at_va'.symm)
      obtain rfl : va = va' := by
        simp only [PGSIZE] at al al' eq
        omega
      rfl
    | trapframe q' => cases own'; exact absurd at_x' (user_tf at_x)
    | _ => cases own'
  | trapframe q =>
    cases own
    cases place' with
    | node q' path' => cases own'; exact absurd at_x (node_tf at_x')
    | user q' va' => cases own'; exact absurd at_x (user_tf at_x')
    | trapframe q' => cases own'; rfl
    | _ => cases own'
  | _ => cases own

include fs

lemma Inv.place_unique (kin : Kinit x) : ∃! place : Place, place.Holds B s x := by
  have owned : ∀ {place : Place}, place.Holds B s x → match place.owner x with
      | none => x ∈ s.store.free
      | some t => H t x ≠ none := fun at_x => at_x.owned inv l fs quiet
  obtain ⟨place, at_x⟩ : ∃ place : Place, place.Holds B s x := by
    obtain mem | ⟨t, own⟩ := inv.owns.total kin
    · obtain ⟨i, at_i⟩ := List.getElem?_of_mem mem
      exact ⟨.free i, at_i⟩
    · obtain ⟨place, -, at_x⟩ := inv.place l fs quiet own
      exact ⟨place, at_x⟩
  refine ⟨place, at_x, fun place' at_x' => ?_⟩
  have own := owned at_x
  have own' := owned at_x'
  cases eq : place.owner x with
  | none =>
    rw [eq] at own
    cases eq' : place'.owner x with
    | none =>
      cases place <;> cases eq
      cases place' <;> cases eq'
      have at_i : s.store.free[_]? = some x := at_x'
      have eq := (List.getElem?_inj (List.getElem?_eq_some_iff.1 at_i).1 inv.owns.nodup).1
        (at_i.trans (Eq.symm at_x))
      rw [eq]
    | some t =>
      rw [eq'] at own'
      exact absurd own (inv.owns.used own').2
  | some t =>
    rw [eq] at own
    cases eq' : place'.owner x with
    | none =>
      rw [eq'] at own'
      exact absurd own' (inv.owns.used own).2
    | some t' =>
      rw [eq'] at own'
      obtain rfl := inv.owns.disj own own'
      cases t with
      | proc p => exact at_x'.proc_unique inv l quiet eq' eq at_x
      | pipe pi =>
        cases place <;> cases eq
        cases place' <;> cases eq'
        rfl
      | boot =>
        cases place <;> cases eq
        cases place' <;> cases eq'
        rfl

end Quiet

/-- In every run, with allocations failing at any time: no frame is on the free list twice, and whenever all
processes are between system calls every frame of the allocator is in exactly one place. -/
theorem page_ownership (b : Booted B s₀) (run : Run Sys.Step s₀ ps s) :
    s.store.free.Nodup ∧
      ((∀ p, (s.procs p).Between) → ∀ x, Kinit x → ∃! place : Place, place.Holds B s x) := by
  obtain ⟨l, fs, H, inv⟩ := b.run run
  exact ⟨inv.owns.nodup, fun quiet x kin => inv.place_unique l fs quiet kin⟩

/-- The places after the first process has called `sbrk(0)`. -/
theorem page_ownership_first : ∃ s, Run Sys.Step firstSys [initproc, initproc] s ∧
    (∀ p, (s.procs p).Between) ∧ ∀ x, Kinit x → ∃! place : Place, place.Holds allButFour s x := by
  obtain ⟨s, run, quiet, -⟩ := firstSys_run
  exact ⟨s, run, quiet, (page_ownership firstSys_booted run).2 quiet⟩

/-! ### What an address space maps -/

lemma kernelTop_ne_none {va} (al : va % PGSIZE = 0) :
    kernelTop tf va ≠ none ↔ va = TRAPFRAME ∨ va = TRAMPOLINE := by
  rw [kernelTop, setPage, setPage]
  split
  · rename_i eq
    simp only [TRAPFRAME, TRAMPOLINE, MAXVA, PGSIZE] at *
    simp
    omega
  split
  · rename_i eq
    simp only [TRAPFRAME, TRAMPOLINE, MAXVA, PGSIZE] at *
    simp
    omega
  · simp only [TRAPFRAME, TRAMPOLINE, MAXVA, PGSIZE] at *
    simp
    omega

/-- The page table of a process, as the hardware finds it: its inner entries carry no permissions, its
leaves are the pages below the size of the process and two pages of the kernel. -/
structure Shape (M : Memory) (pt sz : Nat) : Prop where
  inner : Inner M pt
  leaf : ∀ va, va % PGSIZE = 0 → va < MAXVA →
    (abs M pt va ≠ none ↔ va < PGROUNDUP sz ∨ va = TRAPFRAME ∨ va = TRAMPOLINE)
  kernel : ∀ va pte, va = TRAPFRAME ∨ va = TRAMPOLINE → abs M pt va = some pte → pte &&& PTE_U = 0

lemma ProcMem.shape (m : ProcMem pt tf sz h) (agree : ∀ {x b}, h x = some b → M x = some b) :
    Shape M pt sz := by
  have round := PGROUNDUP_eq m.sz_lt
  obtain ⟨us, e, len, dom, sp⟩ := m
  have below := sp.below
  have inner := sp.inner
  obtain ⟨m, r, t, u⟩ := sp.table
  rw [← len] at round
  have map : abs M pt = m := (t.lift agree).map
  refine ⟨fun p i pte lp get => ?_, fun va al lt => ?_, fun va pte top get => ?_⟩
  · refine inner p i pte lp ?_
    rw [← get]
    refine (lookup_congr (d := 2) (fun x it => ?_) (by omega)).symm
    obtain ⟨b, hx⟩ := Option.ne_none_iff_exists'.1 (t.tree.inTree_own it)
    rw [hx, agree hx]
  · rw [map, round]
    by_cases lu : va < us.length * PGSIZE
    · obtain ⟨pte, mva, -⟩ := u.page lu
      simp [mva, lu]
    · rw [u.above (by omega), kernelTop_ne_none al]
      simp [lu]
  · rw [map, u.above] at get
    · exact kernelTop_user get
    · refine Nat.le_trans below ?_
      obtain rfl | rfl := top <;> decide

/-- In every run: the address space of every process that is not in a call has this shape, and no call
panics. -/
theorem address_space_shape (b : Booted B s₀) (run : Run Sys.Step s₀ ps s) :
    (∀ p, (s.procs p).HasMem → (s.procs p).call = none →
      Shape s.memory (s.procs p).pagetable (s.procs p).sz) ∧
    ∀ p k msg, (s.procs p).call ≠ some (k, .panic msg) := by
  obtain ⟨l, fs, H, inv⟩ := b.run run
  refine ⟨fun p hm idle => ((inv.slot p).mem idle hm).shape inv.memory, fun p k msg call => ?_⟩
  exact (inv.slot p).call call

/-- The address space after the first process has called `sbrk(0)`. -/
theorem address_space_shape_first : ∃ s, Run Sys.Step firstSys [initproc, initproc] s ∧
    (s.procs initproc).HasMem ∧ Shape s.memory 0x80025000 0 := by
  obtain ⟨s, run, quiet, same⟩ := firstSys_run
  have hm : (s.procs initproc).HasMem := by
    rw [same]
    exact .inl rfl
  have shape := (address_space_shape firstSys_booted run).1 initproc hm (quiet initproc).2.2
  rw [same] at shape
  exact ⟨s, run, hm, shape⟩

end Xv6
