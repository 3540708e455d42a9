import Xv6.Sys.Exec
import Xv6.Sched.Machine

/-!
# `fork` with its process slot, its memory and its files

`fork`, `allocproc` and `freeproc` of `kernel/proc.c` (the `RR` build): the slot of the child, its page frames, and the
references to the files of the parent. Either the child is a copy of the parent in frames of its own and every file counts its
new references, or all frames and references are as before (`fork_copies_or_undoes`); but the slot that was tried keeps the time
at which it was tried (`fork_leaves_ctime`).
-/

namespace Xv6

def fsOp {α : Type} (m : Fs.M α) (s : Fs.State) : Kernel (α × Fs.State) :=
  match m s with
  | .ok r => pure r
  | .error e => .panic e.text

namespace Fork

open Sched (Uint ProcState)

/-- `struct context`. -/
structure Context where
  ra : Nat
  sp : Nat
  s : Fin 12 → Nat

/-- `struct proc`; a null pointer is 0. The open files and the directory of a process are with the file system. -/
structure Slot where
  state : ProcState
  chan : Nat
  killed : Int
  xstate : Int
  pid : Int
  ctime : Uint
  etime : Uint
  parent : Option (Fin NPROC)
  kstack : Nat
  sz : Nat
  pagetable : Nat
  trapframe : Nat
  context : Context
  name : ByteVec 16
  rtime : Uint
  trace_mask : Int

/-- The process table, the next process number, and the file system. -/
structure Table where
  slots : Fin NPROC → Slot
  nextpid : Int
  fs : Fs.State

def Table.put (T : Table) (q : Fin NPROC) (S : Slot) : Table := { T with slots := Function.update T.slots q S }

/-- Where a new process starts (`kernel.sym`). -/
abbrev forkret : Nat := 0x800019fe

def pointer (x : Nat) : Option Nat := if x = 0 then none else some x

/-- The slot of a process that has been freed. -/
def Slot.clear (S : Slot) : Slot :=
  { S with
    trapframe := 0, pagetable := 0, sz := 0, pid := 0, parent := none, name := S.name.put8 0 0, chan := 0, killed := 0, xstate := 0,
    state := .unused }

def freeproc (S : Slot) : Kernel Slot := do
  Xv6.freeproc (pointer S.trapframe) (pointer S.pagetable) S.sz
  pure S.clear

/-- `allocproc`: the slot, if there is one and memory for it. `ticks` and `ticks'` are the time when it is read. -/
def allocproc (ticks ticks' : Uint) (T : Table) : Kernel (Option (Fin NPROC) × Table) := do
  match (List.finRange NPROC).find? fun q => (T.slots q).state = .unused with
  | none => pure (none, T)
  | some q =>
    let S := { T.slots q with pid := T.nextpid, state := .used, ctime := ticks }
    let T := { T with nextpid := T.nextpid + 1 }
    match ← kalloc with
    | none =>
      let S ← freeproc { S with trapframe := 0 }
      pure (none, T.put q S)
    | some tf =>
      let S := { S with trapframe := tf }
      match ← procPagetable tf with
      | none =>
        let S ← freeproc { S with pagetable := 0 }
        pure (none, T.put q S)
      | some pt =>
        let context := ⟨forkret, (S.kstack + PGSIZE) % 2 ^ 64, fun _ => 0⟩
        pure (some q, T.put q { S with pagetable := pt, context := context, rtime := 0, etime := 0, ctime := ticks' })

/-- `safestrcpy` after `i` bytes, while there is room for `n` and the zero. -/
def safestrcpyFrom {N : Nat} (s t : ByteVec N) : (n i : Nat) → ByteVec N
  | 0, i => s.put8 i 0
  | n + 1, i =>
    let s := s.put8 i (t.get8 i)
    -- the zero has been copied, and `s` points behind it
    if t.get8 i = 0 then s.put8 (i + 1) 0 else safestrcpyFrom s t n (i + 1)

def safestrcpy {N : Nat} (s t : ByteVec N) : ByteVec N := safestrcpyFrom s t (N - 1) 0

/-- The part of `fork` about files: the child `q` gets the descriptors and the directory of the parent `p`. -/
def forkFiles (p q : Fin NPROC) : Fs.M Unit := do
  Fallible.upto (Fs.forkFd p q) NOFILE
  let ip ← Fs.idup (← Fs.cwd p)
  Fs.setProc q fun P => { P with state := .used, cwd := some ip }

def fork (p : Fin NPROC) (ticks ticks' : Uint) (T : Table) : Kernel (Int × Table) := do
  match ← allocproc ticks ticks' T with
  | (none, T) => pure (-1, T)
  | (some np, T) =>
    let P := T.slots p
    let N := T.slots np
    if (← uvmcopy P.pagetable N.pagetable P.sz) < 0 then
      let N ← freeproc N
      pure (-1, T.put np N)
    else
      let src ← Prog.load P.trapframe
      let dst ← Prog.load N.trapframe
      Prog.store N.trapframe (copyTrapframe dst src)
      let (_, fs) ← fsOp (forkFiles p np) T.fs
      let N := { N with
        sz := P.sz, trace_mask := P.trace_mask, name := safestrcpy N.name P.name, parent := some p, state := .runnable }
      pure (N.pid, { T.put np N with fs := fs })

/-! ### Files -/

section Files

open Fs Fallible

variable {s : Fs.State} {p q : Fin NPROC} {c : Fin Fs.NINODE}

/-- How many of the first `n` descriptors of `p` are the file `f`. -/
def uses (s : Fs.State) (p : Fin NPROC) (f : Fin NFILE) (n : ℕ) : ℕ :=
  ((List.finRange NOFILE).take n).countP fun i => (s.procs p).ofile i = some f

lemma uses_succ {f : Fin NFILE} {n : ℕ} (lt : n < NOFILE) :
    uses s p f (n + 1) = uses s p f n + if (s.procs p).ofile ⟨n, lt⟩ = some f then 1 else 0 := by
  have last : (List.finRange NOFILE)[n]? = some ⟨n, lt⟩ := by simp [lt]
  rw [uses, List.take_add_one, last, List.countP_append]
  simp [uses, List.countP_singleton]

/-- The descriptors of the child `q` when it has the first `n` of the parent `p`. -/
def handed (s : Fs.State) (p q : Fin NPROC) (n : ℕ) (i : Fin NOFILE) : Option (Fin NFILE) :=
  if i.val < n then (s.procs p).ofile i else (s.procs q).ofile i

lemma handed_succ {n : ℕ} (lt : n < NOFILE) :
    handed s p q (n + 1) = Function.update (handed s p q n) ⟨n, lt⟩ ((s.procs p).ofile ⟨n, lt⟩) := by
  funext i
  by_cases here : i = ⟨n, lt⟩
  · subst here
    simp [handed]
  · have apart : i.val ≠ n := fun eq => here (Fin.ext eq)
    rw [Function.update_of_ne here, handed, handed]
    simp only [show i.val < n + 1 ↔ i.val < n by omega]

def given (s : Fs.State) (p q : Fin NPROC) (n : ℕ) : Fs.State :=
  { s with
    ftable := fun f => { s.ftable f with ref := (s.ftable f).ref + uses s p f n }
    procs := Function.update s.procs q { s.procs q with ofile := handed s p q n } }

/-- The state after the files have been shared: every file has as many more references as `p` has descriptors for it. -/
def shared (s : Fs.State) (p q : Fin NPROC) (c : Fin Fs.NINODE) : Fs.State :=
  { s with
    ftable := fun f => { s.ftable f with
      ref := (s.ftable f).ref + (List.finRange NOFILE).countP fun i => (s.procs p).ofile i = some f }
    itable := Function.update s.itable c { s.itable c with ref := (s.itable c).ref + 1 }
    procs := Function.update s.procs q { s.procs p with state := .used } }

lemma wp_forkFd {n : ℕ} (ne : p ≠ q) (idle : ∀ i, (s.procs q).ofile i = none)
    (counted : ∀ i f, (s.procs p).ofile i = some f → 0 < (s.ftable f).ref) (lt : n < NOFILE) :
    wp (fun _ => False) (forkFd p q n) (fun _ t => t = given s p q (n + 1)) (given s p q n) := by
  have old : ((given s p q n).procs p).ofile ⟨n, lt⟩ = (s.procs p).ofile ⟨n, lt⟩ := by simp [given, ne]
  rw [forkFd, dif_pos lt, wp_bind, wp_get, old]
  cases fd : (s.procs p).ofile ⟨n, lt⟩ with
  | none =>
    have same : given s p q n = given s p q (n + 1) := by
      have keep : handed s p q (n + 1) = handed s p q n := by
        rw [handed_succ lt, fd, ← idle ⟨n, lt⟩]
        exact Function.update_eq_self_iff.2 (by simp [handed])
      simp only [given, keep, uses_succ lt, fd, reduceCtorEq, if_false, Nat.add_zero]
    exact same
  | some f =>
    have pos : ¬((given s p q n).ftable f).ref < 1 := by
      have := counted _ f fd
      simp only [given]
      omega
    simp only [filedup, setFile, setProc, wp_bind, wp_get, if_neg pos, wp_modify]
    simp only [given, Function.update_idem, Function.update_self, handed_succ lt, fd]
    congr 1
    funext g
    rw [uses_succ lt, fd]
    by_cases eq : g = f
    · subst eq
      simp [Nat.add_assoc]
    · simp [eq, Ne.symm eq]

/-- The child has the files and the directory of the parent, and they have the new references. -/
lemma wp_forkFiles (ne : p ≠ q) (idle : ∀ i, (s.procs q).ofile i = none)
    (counted : ∀ i f, (s.procs p).ofile i = some f → 0 < (s.ftable f).ref) (dir : (s.procs p).cwd = some c) :
    wp (fun _ => False) (forkFiles p q) (fun _ t => t = shared s p q c) s := by
  rw [forkFiles, wp_bind]
  have start : s = given s p q 0 := by
    have first : handed s p q 0 = (s.procs q).ofile := by
      funext i
      simp [handed]
    simp [given, uses, first]
  have loop := wp_upto (f := forkFd p q) (n := NOFILE) (P := fun _ => False) (s := s) (fun n t => t = given s p q n) start ?_
  · refine wp_mono loop ?_
    rintro _ _ rfl
    have cw : ((given s p q NOFILE).procs p).cwd = some c := by simp [given, ne, dir]
    simp only [Fs.cwd, wp_bind, wp_get, cw, wp_pure, idup, setInode, wp_modify, setProc]
    have every : handed s p q NOFILE = (s.procs p).ofile := by
      funext i
      simp [handed]
    have all : ∀ f, uses s p f NOFILE = (List.finRange NOFILE).countP fun i => (s.procs p).ofile i = some f := by
      intro f
      rw [uses, List.take_of_length_le (by simp)]
    simp only [given, shared, every, all, dir, Function.update_idem, Function.update_self]
  · rintro n _ lt rfl
    exact wp_forkFd ne idle counted lt

end Files

/-! ### Memory -/

open Frames Prog

variable {V : Nat → Prop} {Q : String → Prop} {h e : Memory} {us : List Nat} {T T' : Table} {p q : Fin NPROC} {c : Fin Fs.NINODE}
  {ticks ticks' : Uint} {page : Page}

/-- What `freeproc` leaves of a slot. -/
structure Slot.Blank (S : Slot) : Prop where
  trapframe : S.trapframe = 0
  pagetable : S.pagetable = 0
  sz : S.sz = 0
  pid : S.pid = 0
  parent : S.parent = none
  name : S.name 0 = 0
  chan : S.chan = 0
  xstate : S.xstate = 0
  state : S.state = .unused

/-- The unused slots are blank and have no open files. -/
def Table.Blank (T : Table) : Prop :=
  ∀ q, (T.slots q).state = .unused → (T.slots q).Blank ∧ ∀ i, (T.fs.procs q).ofile i = none

/-- Nothing is left of a `fork` that failed, but a process number, the times and the saved registers of a slot that is not in
use, and that slot is not marked as killed. -/
def Undone (T T' : Table) : Prop :=
  T' = T ∨ ∃ q context rtime ctime etime, (T.slots q).state = .unused ∧
    T' = { T.put q { T.slots q with killed := 0, context := context, rtime := rtime, ctime := ctime, etime := etime } with
      nextpid := T.nextpid + 1 }

lemma pointer_kinit {x : Nat} (k : Kinit x) : pointer x = some x := by
  refine if_neg ?_
  rintro rfl
  exact absurd k.2.1 (by decide)

lemma Slot.Blank.clear {S : Slot} (b : S.Blank) (pid : Int) (state : ProcState) (tf pt : Nat) (context : Context)
    (rtime ctime etime : Uint) :
    ({ S with
      pid := pid, state := state, trapframe := tf, pagetable := pt, context := context, rtime := rtime, ctime := ctime,
      etime := etime } : Slot).clear =
      { S with killed := 0, context := context, rtime := rtime, ctime := ctime, etime := etime } := by
  obtain ⟨trapframe, pagetable, sz, pid', parent, name, chan, xstate, state'⟩ := b
  have same : S.name.put8 0 0 = S.name := by
    funext i
    rw [ByteVec.put8]
    split
    · rename_i first
      rw [show i = 0 from Fin.ext first, name]
    · rfl
  cases S
  simp_all [Slot.clear]

/-- The child `q` of `p` is a copy of it in frames of its own: the same pages with the same flags and contents below the trapframe,
the same saved registers but for `a0`, and the same files and directory, which have the new references. The other processes are
as before. -/
structure Copied (T : Table) (p q : Fin NPROC) (c : Fin Fs.NINODE) (h : Memory) (page : Page) (T' : Table) (h' : Memory) :
    Prop where
  ne : p ≠ q
  unused : (T.slots q).state = .unused
  others : ∀ r ≠ q, T'.slots r = T.slots r
  state : (T'.slots q).state = .runnable
  pid : (T'.slots q).pid = T.nextpid
  parent : (T'.slots q).parent = some p
  sz : (T'.slots q).sz = (T.slots p).sz
  trace_mask : (T'.slots q).trace_mask = (T.slots p).trace_mask
  memory : ∃ g us' page', us'.length = pages (T.slots p).sz ∧
    Space Leaf (kernelTop (T'.slots q).trapframe) (Heap.single (T'.slots q).trapframe page') us' (T'.slots q).pagetable g ∧
    Heap.Disjoint g h ∧ h' = Heap.union g h ∧
    (∀ i < TRAPFRAME / PGSIZE, (pageAt g (T'.slots q).pagetable i).map Prod.snd = (pageAt h (T.slots p).pagetable i).map Prod.snd) ∧
    ∀ o < sizeofTrapframe, page'.get8 o = if 112 ≤ o ∧ o < 120 then 0 else page.get8 o
  files : T'.fs = shared T.fs p q c

lemma get8_copyTrapframe {dst src : Page} {o : ℕ} (lt : o < sizeofTrapframe) :
    (copyTrapframe dst src).get8 o = if 112 ≤ o ∧ o < 120 then 0 else src.get8 o := by
  rw [copyTrapframe]
  split
  · rename_i a0
    exact ByteVec.get8_putLE_zero a0.1 a0.2
  · have size : (src.bytes 0 sizeofTrapframe).length = sizeofTrapframe := by simp [ByteVec.bytes]
    rw [ByteVec.get8_putLE (by omega), ByteVec.get8_putBytes (by rw [size]; decide) (Nat.zero_le o) (by rwa [size, Nat.zero_add])]
    simp [ByteVec.bytes, lt]

lemma wp_fsOp {α : Type} {m : Fs.M α} {s : Fs.State} {R : α × Fs.State → Memory → Prop}
    (w : Fallible.wp (fun e => Q e.text) m (fun a s' => R (a, s') h) s) : wp V Q (fsOp m s) R h := by
  rw [fsOp]
  cases eq : m s with
  | ok x => exact (Fallible.wp_ok eq).1 w
  | error e => exact (Fallible.wp_error eq).1 w

variable (hV : ∀ c, V c → Kinit c)
include hV

/-- `allocproc` gives a slot with a trapframe and an empty page table, or nothing is left of it. -/
lemma wp_allocproc (kin : ∀ {x}, h x ≠ none → Kinit x) (blank : T.Blank) :
    wp V Q (allocproc ticks ticks' T) (fun x h' => (x.1 = none ∧ h' = h ∧ Undone T x.2) ∨
      ∃ q tf pt b context, x.1 = some q ∧ (T.slots q).state = .unused ∧
        x.2 = { T.put q { T.slots q with
          pid := T.nextpid, state := .used, trapframe := tf, pagetable := pt, context := context, rtime := 0, ctime := ticks',
          etime := 0 } with nextpid := T.nextpid + 1 } ∧
        h tf = none ∧ Space Leaf (kernelTop tf) (Function.update h tf (some b)) [] pt h') h := by
  rw [allocproc]
  cases found : (List.finRange NPROC).find? fun q => (T.slots q).state = .unused with
  | none => exact .inl ⟨rfl, rfl, .inl rfl⟩
  | some q =>
    have unused : (T.slots q).state = .unused := by simpa using List.find?_some found
    obtain ⟨b, -⟩ := blank q unused
    -- the slot after a failure before the page table is there
    have undone : ∀ tf, Undone T { T.put q ({ T.slots q with
        pid := T.nextpid, state := .used, trapframe := tf, pagetable := 0, ctime := ticks } : Slot).clear with
          nextpid := T.nextpid + 1 } :=
      fun tf => .inr ⟨q, _, _, _, _, unused,
        congrArg (fun S => { T.put q S with nextpid := T.nextpid + 1 })
          (b.clear T.nextpid .used tf 0 (T.slots q).context (T.slots q).rtime ticks (T.slots q).etime)⟩
    simp only [wp_bind, wp_kalloc]
    refine ⟨?_, fun tf vt new => ?_⟩
    · rw [freeproc, wp_bind]
      dsimp only
      rw [b.pagetable]
      exact .inl ⟨rfl, rfl, undone 0⟩
    have kin' : ∀ {x}, Function.update h tf (some fun _ => 5) x ≠ none → Kinit x := by
      intro x hx
      by_cases xt : x = tf
      · exact xt ▸ hV tf vt
      · rw [Function.update_of_ne xt] at hx
        exact kin hx
    have hF : ∀ {i fl b}, Leaf i fl b → fl ≠ PTE_V := fun fl => fl.ne_valid
    refine wp_mono (wp_procPagetable (F := Leaf) hV hF kin' (hV tf vt)) ?_
    rintro res h' (⟨rfl, rfl⟩ | ⟨pt, rfl, s⟩)
    · rw [wp_bind, freeproc, wp_bind]
      dsimp only
      rw [pointer_kinit (hV tf vt)]
      refine wp_mono (wp_freeproc_trapframe (hV tf vt) (Function.update_self ..)) fun _ h' eq => .inl ⟨rfl, ?_, undone tf⟩
      rw [eq, update_back new]
    · exact .inr ⟨q, tf, pt, _, _, rfl, unused, rfl, new, s⟩

/-- Wherever memory runs out: `fork` returns -1 and all frames, files, inodes and processes are as before, or it returns the number of
a child that is a copy of the parent. -/
theorem fork_copies_or_undoes (s : Space Leaf (kernelTop (T.slots p).trapframe) e us (T.slots p).pagetable h)
    (len : us.length = pages (T.slots p).sz) (get : e (T.slots p).trapframe = some page) (live : (T.slots p).state ≠ .unused)
    (blank : T.Blank) (counted : ∀ i f, (T.fs.procs p).ofile i = some f → 0 < (T.fs.ftable f).ref)
    (dir : (T.fs.procs p).cwd = some c) :
    wp V (fun _ => False) (fork p ticks ticks' T) (fun x h' => (x.1 = -1 ∧ h' = h ∧ Undone T x.2) ∨
      (x.1 = T.nextpid ∧ ∃ q, Copied T p q c h page x.2 h')) h := by
  have hF : ∀ {i fl b}, Leaf i fl b → fl ≠ PTE_V := fun fl => fl.ne_valid
  rw [fork, wp_bind]
  refine wp_mono (wp_allocproc hV s.kinit blank) ?_
  rintro ⟨_, T₁⟩ h₁ (⟨rfl, rfl, undone⟩ | ⟨q, tf, pt, b, context, rfl, unused, rfl, new, s₁⟩)
  · exact .inl ⟨rfl, rfl, undone⟩
  have ne : p ≠ q := fun eq => live (eq ▸ unused)
  obtain ⟨b', idle⟩ := blank q unused
  have kt : Kinit tf := s₁.kinit (by simp [(s₁.of_extra (Function.update_self ..)).2.2])
  have ht : ∀ v, v < TRAPFRAME → kernelTop tf v = none := fun v lt => kernelTop_none lt
  simp only [Table.put, Function.update_self, Function.update_of_ne ne, wp_bind]
  refine wp_mono (wp_uvmcopy hV ht (fun fl => hF fl.1) (s.exact.alloc (b := b) kt new) (s₁.mono fun lt => absurd lt (by simp)) len) ?_
  rintro res h₂ (⟨rfl, us', len', s₂⟩ | ⟨rfl, s₂⟩)
  · rw [if_neg (by decide)]
    have hget := (s.of_extra get).2.2
    have apart : (T.slots p).trapframe ≠ tf := by
      intro eq
      simp [← eq, hget] at new
    have src := (s₂.of_extra ((Function.update_of_ne apart _ _).trans hget)).2.2
    have dst := (s₂.of_extra (Function.update_self ..)).2.2
    simp only [wp_bind, wp_load, wp_store]
    refine ⟨page, src, b, dst, ⟨b, dst⟩, wp_fsOp ?_⟩
    refine Fallible.wp_mono ((wp_forkFiles ne idle counted dir).error fun _ => False.elim) ?_
    rintro _ _ rfl
    have s₃ := s₂.store (d := copyTrapframe b page) (Function.update_self ..)
    rw [Function.update_idem] at s₃
    obtain ⟨g, sg, disj, eq⟩ := s₃.apart new
    refine .inr ⟨rfl, q, ne, unused, fun r out => ?_, ?_, ?_, ?_, ?_, ?_, ⟨g, us', copyTrapframe b page, len', ?_, disj, eq, ?_, ?_⟩, rfl⟩
    · simp [Function.update_of_ne out]
    any_goals simp only [Function.update_self]
    · exact sg.mono fun _ fl => fl.1
    · intro i lt
      by_cases inside : i < us'.length
      · obtain ⟨x, fl, d, -, at_g, -, y, -, at_h⟩ := sg.pageAt inside
        rw [at_g, at_h]
        rfl
      · have below : i * PGSIZE < TRAPFRAME := by
          simp only [TRAPFRAME, TRAMPOLINE, MAXVA, PGSIZE] at lt ⊢
          omega
        rw [sg.pageAt_none (by omega) (kernelTop_none below), s.pageAt_none (by omega) (kernelTop_none below)]
    · exact fun o lt => get8_copyTrapframe lt
  · rw [if_pos (by decide), wp_bind, freeproc, wp_bind]
    dsimp only
    rw [pointer_kinit kt, pointer_kinit s₂.kinit_root, b'.sz]
    refine wp_mono (wp_freeproc hV (fun fl => hF fl.1) s₂ new) ?_
    rintro _ _ rfl
    refine .inl ⟨rfl, rfl, .inr ⟨q, context, 0, ticks', 0, unused, ?_⟩⟩
    rw [Function.update_idem]
    exact congrArg (fun S => ({ slots := Function.update T.slots q S, nextpid := T.nextpid + 1, fs := T.fs } : Table))
      (b'.clear T.nextpid .used tf pt context 0 ticks' 0)

omit hV

/-- Process 0 with the given page table and trapframe is alone. -/
def oneProcess (pt tf : Nat) : Table where
  slots q := if q = 0 then
      ⟨.running, 0, 0, 0, 1, 0, 0, none, 0, 0, pt, tf, ⟨0, 0, fun _ => 0⟩, fun _ => 0, 0, 0⟩
    else ⟨.unused, 0, 0, 0, 0, 0, 0, none, 0, 0, 0, 0, ⟨0, 0, fun _ => 0⟩, fun _ => 0, 0, 0⟩
  nextpid := 2
  fs := { Fs.dirsState 1 with
    procs := fun q => if q = 0 then ⟨.used, some 0, fun _ => none⟩ else ⟨.unused, none, fun _ => none⟩ }

lemma oneProcess_blank {pt tf : Nat} : (oneProcess pt tf).Blank := by
  intro q unused
  have ne : q ≠ 0 := by
    rintro rfl
    cases unused
  rw [oneProcess]
  dsimp only
  rw [if_neg ne, if_neg ne]
  exact ⟨⟨rfl, rfl, rfl, rfl, rfl, rfl, rfl, rfl, rfl⟩, fun i => rfl⟩

/-- A process without user memory forks. -/
theorem fork_one_process : ∃ pt tf h e page, Space Leaf (kernelTop tf) e [] pt h ∧ e tf = some page ∧
    wp Kinit (fun _ => False) (fork 0 5 5 (oneProcess pt tf)) (fun x h' =>
      (x.1 = -1 ∧ h' = h ∧ Undone (oneProcess pt tf) x.2) ∨
      (x.1 = 2 ∧ ∃ q, Copied (oneProcess pt tf) 0 q 0 h page x.2 h')) h := by
  obtain ⟨pt, tf, arg, h, e, s, frame, -⟩ := exists_argProcess
  obtain ⟨page, get⟩ := Option.ne_none_iff_exists'.1 frame
  exact ⟨pt, tf, h, e, page, s, get, fork_copies_or_undoes (T := oneProcess pt tf) (p := 0) (fun _ => id) s pages_zero.symm get
    nofun oneProcess_blank nofun rfl⟩

/-- There is no memory for the trapframe of a child, and the slot that was tried has another `ctime`. -/
theorem fork_leaves_ctime : ∃ pt tf h e, Space Leaf (kernelTop tf) e [] pt h ∧ e tf ≠ none ∧ (oneProcess pt tf).Blank ∧
    ∀ mem, ∃ T', (fork 0 5 5 (oneProcess pt tf)).run ⟨mem, []⟩ = some ((-1, T'), ⟨mem, []⟩) ∧
      (T'.slots 1).ctime ≠ ((oneProcess pt tf).slots 1).ctime := by
  obtain ⟨pt, tf, arg, h, e, s, frame, -⟩ := exists_argProcess
  refine ⟨pt, tf, h, e, s, frame, oneProcess_blank, fun mem => ⟨_, rfl, ?_⟩⟩
  exact show (5 : Uint) ≠ 0 by decide

end Fork

end Xv6
