import Xv6.Vm.Image

/-!
# The memory of a process

A process owns its address space and its trapframe, and nothing else (`ProcMem`). The system calls that
change the memory of processes, as programs over page frames: `sbrk` (`growproc`), `exec`, `fork`, `wait`
and `waitx`, and `pipe`, whose kernel page belongs to no process. Each rule says which memories are there
in the end, on success and on every failure; together they are all the frames the call owns.
-/

namespace Xv6

open Frames Prog

attribute [local irreducible] PTE2PA PA2PTE PTE_FLAGS PX ByteVec.getLE ByteVec.putLE
  procPagetable uvmalloc uvmdealloc uvmcopy procFreepagetable fetchArgs exec

def addInt (sz : Nat) (n : Int) : Nat := ((sz + n) % 2 ^ 64).toNat

/-- Grow or shrink user memory by `n` bytes. Returns the result of the call and the new size. -/
def growproc (pagetable sz : Nat) (n : Int) : Kernel (Int × Nat) :=
  if n > 0 then do
    let sz1 ← uvmalloc pagetable sz (addInt sz n) PTE_W
    if sz1 = 0 then pure (-1, sz) else pure (0, sz1)
  else if n < 0 then do
    let sz1 ← uvmdealloc pagetable sz (addInt sz n)
    pure (0, sz1)
  else
    pure (0, sz)

/-- Free the trapframe and the page table of a process, if it has them. -/
def freeproc (trapframe pagetable : Option Nat) (sz : Nat) : Kernel Unit := do
  match trapframe with
  | none => pure ()
  | some tf => kfree tf
  match pagetable with
  | none => pure ()
  | some pt => procFreepagetable pt sz

/-- The frames of a new process: a trapframe and an empty page table. -/
def allocproc (sz : Nat) : Kernel (Option (Nat × Nat)) := do
  match ← kalloc with
  | none =>
    freeproc none none sz
    pure none
  | some tf =>
    match ← procPagetable tf with
    | none =>
      freeproc (some tf) none sz
      pure none
    | some pt => pure (some (tf, pt))

abbrev sizeofTrapframe : Nat := 288

/-- The trapframe of a child: the parent's registers, and 0 as the result of `fork`. -/
def copyTrapframe (dst src : Page) : Page :=
  (dst.putBytes 0 (src.bytes 0 sizeofTrapframe)).putLE 112 8 0

/-- The frames of the child of a process with the given page table, trapframe and size; `npsz` is the
size in the process slot of the child. -/
def fork (npsz pagetable trapframe sz : Nat) : Kernel (Option (Nat × Nat)) := do
  match ← allocproc npsz with
  | none => pure none
  | some (tf, pt) =>
    if (← uvmcopy pagetable pt sz) < 0 then
      freeproc (some tf) (some pt) npsz
      pure none
    else
      let src ← load trapframe
      let dst ← load tf
      store tf (copyTrapframe dst src)
      pure (some (tf, pt))

/-- What `wait` and `waitx` do with an exited child: copy out its status and free it. Returns whether it
was freed. -/
def wait (pagetable addr : Nat) (xstate : List UInt8) (ctf cpt csz : Nat) : Kernel Bool := do
  if addr ≠ 0 then
    if (← copyout pagetable addr xstate) < 0 then
      pure false
    else
      freeproc (some ctf) (some cpt) csz
      pure true
  else
    freeproc (some ctf) (some cpt) csz
    pure true

/-- What `sys_waitx` does after `waitx` has freed a child, or has found none: copy out the two times. -/
def copyTimes (pagetable addr1 addr2 : Nat) (wtime rtime : List UInt8) : Kernel Unit := do
  if (← copyout pagetable addr1 wtime) < 0 then
    pure ()
  else
    let _ ← copyout pagetable addr2 rtime
    pure ()

/-- `pipe`: allocate the page of the pipe and copy out the two descriptors, if there are any. -/
def pipe (pagetable fdarray : Nat) (fds : Option (List UInt8 × List UInt8)) : Kernel (Option Nat) := do
  match ← kalloc with
  | none => pure none
  | some pi =>
    match fds with
    | none =>
      kfree pi
      pure none
    | some (fd0, fd1) =>
      if (← copyout pagetable fdarray fd0) < 0 then
        kfree pi
        pure none
      else if (← copyout pagetable ((fdarray + 4) % 2 ^ 64) fd1) < 0 then
        kfree pi
        pure none
      else
        pure (some pi)

/-- The heap is the memory of a process: its address space and its trapframe. -/
def ProcMem (pt tf sz : Nat) (h : Memory) : Prop :=
  ∃ us e, us.length = pages sz ∧ (∀ x, e x ≠ none ↔ x = tf) ∧ Space Leaf (kernelTop tf) e us pt h

variable {pt tf sz : Nat} {h : Memory} {V : Nat → Prop} {P : String → Prop}

lemma ProcMem.kinit (p : ProcMem pt tf sz h) {x} (hx : h x ≠ none) : Kinit x := by
  obtain ⟨us, e, -, -, s⟩ := p
  exact s.kinit hx

variable (hV : ∀ c, V c → Kinit c)
include hV

lemma wp_growproc {n} (p : ProcMem pt tf sz h) :
    wp V P (growproc pt sz n) (fun res h' => ProcMem pt tf res.2 h') h := by
  obtain ⟨us, e, len, dom, s⟩ := p
  have ht : ∀ v, v < TRAPFRAME → kernelTop tf v = none := fun v lt => kernelTop_none lt
  have hF : ∀ {i fl b}, Leaf i fl b → fl ≠ PTE_V := fun fl => fl.ne_valid
  rw [growproc]
  split
  · rw [wp_bind]
    refine wp_mono (wp_uvmalloc hV ht hF s len (by decide) fun _ => userLeaf_write.1) ?_
    rintro sz1 h' (⟨eq, us', -, len', s'⟩ | ⟨rfl, s'⟩)
    · split
      · rename_i z
        obtain rfl : sz = 0 := by omega
        exact ⟨us', e, z ▸ len', dom, s'⟩
      · exact ⟨us', e, len', dom, s'⟩
    · rw [if_pos rfl]
      exact ⟨us, e, len, dom, s'⟩
  split
  · rw [wp_bind]
    refine wp_mono (wp_uvmdealloc hV ht hF s len) ?_
    rintro sz1 h' ⟨eq, s'⟩
    refine ⟨_, e, ?_, dom, s'⟩
    rw [List.length_take, len]
    exact Nat.min_eq_left (pages_mono (by omega))
  · exact ⟨us, e, len, dom, s⟩

lemma wp_sysExec {namei upath uargv} (p : ProcMem pt tf sz h) :
    wp V P (sysExec namei upath uargv tf pt sz) (fun res h' =>
      (res = none ∧ ProcMem pt tf sz h') ∨ ∃ im, res = some im ∧ ProcMem im.pagetable tf im.sz h') h := by
  obtain ⟨us, e, len, dom, s⟩ := p
  have hu : ∀ {v pte}, kernelTop tf v = some pte → pte &&& PTE_U = 0 := kernelTop_user
  -- once the pages of the arguments are freed, the trapframe is the only extra frame
  have free : ∀ {argv e₁ us₁ pt₁ sz₁ h₁}, argv.Nodup → (∀ x ∈ argv, e x = none) → (∀ x ∈ argv, e₁ x ≠ none) →
      (∀ x, x ∉ argv → (e₁ x = none ↔ e x = none)) → us₁.length = pages sz₁ →
      Space Leaf (kernelTop tf) e₁ us₁ pt₁ h₁ →
      wp V P (freeArgs argv) (fun _ h' => ProcMem pt₁ tf sz₁ h') h₁ := by
    intro argv e₁ us₁ pt₁ sz₁ h₁ nd fresh own keep len₁ s₁
    refine wp_mono (wp_freeArgs s₁ nd own) ?_
    rintro _ h' ⟨e', s', eq⟩
    refine ⟨us₁, e', len₁, fun x => ?_, s'⟩
    rw [← dom x, eq x]
    by_cases mem : x ∈ argv
    · simp [mem, fresh x mem]
    · simp [mem, keep x mem]
  rw [sysExec, wp_bind]
  refine wp_mono (wp_fetchstr_user hu hV s) ?_
  rintro ⟨n, path⟩ _ rfl
  dsimp only
  split
  · exact .inl ⟨rfl, us, e, len, dom, s⟩
  rw [wp_bind]
  refine wp_mono (wp_fetchArgs hV hu s) ?_
  rintro ⟨argv, ok⟩ h₁ ⟨⟨nd, fresh, e₁, s₁, own, keep, strings⟩, few⟩
  dsimp only at nd fresh own keep strings few ⊢
  have back : ∀ {h'}, h' = h₁ → wp V P (freeArgs argv) (fun _ h' => ProcMem pt tf sz h') h' :=
    fun eq => eq ▸ free nd fresh own (fun x out => by rw [keep x out]) len s₁
  split
  · rename_i done
    split
    · rw [wp_bind]
      exact wp_mono (back rfl) fun _ h' p => .inl ⟨rfl, p⟩
    · have tf_out : tf ∉ argv := fun mem => (dom tf).2 rfl (fresh tf mem)
      obtain ⟨page, get⟩ := Option.ne_none_iff_exists'.1 ((dom tf).2 rfl)
      obtain ⟨strs, args⟩ := strings done
      rw [wp_bind]
      refine wp_mono (wp_exec hV s₁ len ((keep tf tf_out).trans get) args (few done)) ?_
      rintro res h₂ (⟨rfl, eq⟩ | ⟨elf, im, sp, us₂, -, rfl, new⟩)
      · rw [wp_bind]
        exact wp_mono (back eq) fun _ h' p => .inl ⟨rfl, p⟩
      · rw [wp_bind]
        refine wp_mono (free nd fresh (fun x mem => ?_) (fun x out => ?_) new.length new.space) fun _ h' p => .inr ⟨_, rfl, p⟩
        · have ne : x ≠ tf := fun eq => tf_out (eq ▸ mem)
          rw [Function.update_of_ne ne]
          exact own x mem
        · by_cases eq : x = tf
          · simp [eq, get]
          · rw [Function.update_of_ne eq, keep x out]
  · rw [wp_bind]
    exact wp_mono (back rfl) fun _ h' p => .inl ⟨rfl, p⟩

omit hV in
lemma wp_freeproc_trapframe {b} (k : Kinit tf) (get : h tf = some b) :
    wp V P (freeproc (some tf) none sz) (fun _ h' => h' = Function.update h tf none) h := by
  simp only [freeproc, wp_bind]
  exact wp_kfree k get rfl

/-- `allocproc` allocates the trapframe and the address space of a process without user memory. -/
lemma wp_allocproc {npsz} (kin : ∀ {x}, h x ≠ none → Kinit x) :
    wp V P (allocproc npsz) (fun res h' => (res = none ∧ h' = h) ∨
      ∃ tf pt b, res = some (tf, pt) ∧ Kinit tf ∧ h tf = none ∧
        Space Leaf (kernelTop tf) (Function.update h tf (some b)) [] pt h') h := by
  have hF : ∀ {i fl b}, Leaf i fl b → fl ≠ PTE_V := fun fl => fl.ne_valid
  simp only [allocproc, wp_bind, wp_kalloc]
  refine ⟨.inl ⟨rfl, rfl⟩, fun tf vt new => ?_⟩
  have kin' : ∀ {x}, Function.update h tf (some fun _ => 5) x ≠ none → Kinit x := by
    intro x hx
    by_cases xt : x = tf
    · exact xt ▸ hV tf vt
    · rw [Function.update_of_ne xt] at hx
      exact kin hx
  refine wp_mono (wp_procPagetable (F := Leaf) hV hF kin' (hV tf vt)) ?_
  rintro res h' (⟨rfl, rfl⟩ | ⟨pt, rfl, s⟩)
  · rw [wp_bind]
    refine wp_mono (wp_freeproc_trapframe (hV tf vt) (Function.update_self ..)) fun _ h' eq => .inl ⟨rfl, ?_⟩
    rw [eq, update_back new]
  · exact .inr ⟨tf, pt, _, rfl, hV tf vt, new, s⟩

lemma wp_freeproc {F : Nat → Nat → Page → Prop} {e : Memory} {b} (hF : ∀ {i fl b}, F i fl b → fl ≠ PTE_V)
    (s : Space F (kernelTop tf) (Function.update e tf (some b)) [] pt h) (new : e tf = none) :
    wp V P (freeproc (some tf) (some pt) 0) (fun _ h' => h' = e) h := by
  simp only [freeproc, wp_bind]
  refine wp_kfree_extra s (Function.update_self ..) fun h₁ s₁ => ?_
  rw [update_back new] at s₁
  exact wp_procFreepagetable hV hF s₁ rfl

omit hV in
lemma Space.apart {F : Nat → Nat → Page → Prop} {e : Memory} {us b}
    (s : Space F (kernelTop tf) (Function.update e tf (some b)) us pt h) (new : e tf = none) :
    ∃ g, Space F (kernelTop tf) (Heap.single tf b) us pt g ∧ Heap.Disjoint g e ∧ h = Heap.union g e := by
  have kt : Kinit tf := s.kinit (by simp [(s.of_extra (Function.update_self ..)).2.2])
  obtain ⟨g, sg, dg, eq⟩ := s.split
  have gt : g tf = none := (dg tf).resolve_right (by simp)
  have one : Heap.Disjoint g (Heap.single tf b) := by
    intro x
    by_cases xt : x = tf
    · exact .inl (xt ▸ gt)
    · exact .inr (Function.update_of_ne xt _ _)
  refine ⟨Heap.union g (Heap.single tf b), sg.join one fun {x} ne => ?_, fun x => ?_, ?_⟩
  · by_cases xt : x = tf
    · exact xt ▸ kt
    · simp [Heap.single, Function.update_of_ne xt] at ne
  · by_cases xt : x = tf
    · exact .inr (xt ▸ new)
    · have dx := dg x
      rw [Function.update_of_ne xt] at dx
      exact dx.imp_left fun gx => Heap.union_eq_none.2 ⟨gx, Function.update_of_ne xt _ _⟩
  · rw [eq, Heap.union_assoc]
    congr 1
    funext x
    by_cases xt : x = tf
    · simp [Heap.union, Heap.single, xt]
    · simp [Heap.union, Heap.single, Function.update_of_ne xt]

lemma wp_fork (p : ProcMem pt tf sz h) :
    wp V P (fork 0 pt tf sz) (fun res h' => (res = none ∧ h' = h) ∨
      ∃ tf' pt' g, res = some (tf', pt') ∧ ProcMem pt' tf' sz g ∧ Heap.Disjoint g h ∧
        h' = Heap.union g h) h := by
  have kin : ∀ {x}, h x ≠ none → Kinit x := p.kinit
  obtain ⟨us, e, len, dom, s⟩ := p
  have hF : ∀ {i fl b}, Leaf i fl b → fl ≠ PTE_V := fun fl => fl.ne_valid
  rw [fork, wp_bind]
  refine wp_mono (wp_allocproc hV kin) ?_
  rintro res h₁ (⟨rfl, rfl⟩ | ⟨tf', pt', b, rfl, kt, new, s₁⟩)
  · exact .inl ⟨rfl, rfl⟩
  have ht : ∀ v, v < TRAPFRAME → kernelTop tf' v = none := fun v lt => kernelTop_none lt
  have old := s.alloc (b := b) kt new
  simp only [wp_bind]
  refine wp_mono (wp_uvmcopy hV ht hF old s₁ len) ?_
  rintro res h₂ (⟨rfl, us', len', s₂⟩ | ⟨rfl, s₂⟩)
  · rw [if_neg (by decide)]
    obtain ⟨src, get⟩ := Option.ne_none_iff_exists'.1 ((dom tf).2 rfl)
    have hget : Function.update h tf' (some b) tf = some src := by
      rw [Function.update_of_ne, (s.of_extra get).2.2]
      rintro rfl
      simp [(s.of_extra get).2.2] at new
    have ht₂ := (s₂.of_extra hget).2.2
    have hn₂ := (s₂.of_extra (Function.update_self ..)).2.2
    simp only [wp_bind, wp_load, wp_store]
    refine ⟨src, ht₂, b, hn₂, ⟨b, hn₂⟩, ?_⟩
    have s₃ := s₂.store (d := copyTrapframe b src) (Function.update_self ..)
    rw [Function.update_idem] at s₃
    obtain ⟨g, sg, disj, eq⟩ := s₃.apart new
    refine .inr ⟨tf', pt', g, rfl, ⟨us', _, len', fun x => ?_, sg⟩, disj, eq⟩
    by_cases xt : x = tf'
    · simp [xt, Heap.single]
    · simp [xt, Heap.single]
  · rw [if_pos (by decide), wp_bind]
    exact wp_mono (wp_freeproc hV hF s₂ new) fun _ h' eq => .inl ⟨rfl, eq⟩

/-- The address space of a process `p` and, among its extra frames, the memory `hc` of a child that it may
still have to free. -/
def Reaping (pt tf sz : Nat) (hc : Memory) (freed : Bool) (h : Memory) : Prop :=
  ∃ us ep e, us.length = pages sz ∧ (∀ x, ep x ≠ none ↔ x = tf) ∧
    Space Leaf (kernelTop tf) e us pt h ∧ e = if freed then ep else Heap.union ep hc

variable {hc : Memory} {cpt ctf csz : Nat}

omit hV in
lemma Reaping.start (p : ProcMem pt tf sz h) (c : ProcMem cpt ctf csz hc) (disj : Heap.Disjoint h hc) :
    Reaping pt tf sz hc false (Heap.union h hc) := by
  obtain ⟨us, ep, len, dom, s⟩ := p
  exact ⟨us, ep, _, len, dom, s.extend disj c.kinit, rfl⟩

omit hV in
lemma Reaping.kept (r : Reaping pt tf sz hc false h) (ne : hc tf = none) :
    ∃ hp, ProcMem pt tf sz hp ∧ Heap.Disjoint hp hc ∧ h = Heap.union hp hc := by
  obtain ⟨us, ep, e, len, dom, s, rfl⟩ := r
  obtain ⟨g, sg, dg, rfl⟩ := s.split
  obtain ⟨dge, dgc⟩ := Heap.disjoint_union.1 dg
  have dec : Heap.Disjoint ep hc := by
    intro x
    by_cases xt : x = tf
    · exact .inr (xt ▸ ne)
    · exact .inl (by_contra fun ne => xt ((dom x).1 ne))
  have kin : ∀ {x}, ep x ≠ none → Kinit x := by
    intro x ex
    refine s.kinit fun hx => ex ?_
    exact (Heap.union_eq_none.1 (Heap.union_eq_none.1 hx).2).1
  refine ⟨Heap.union g ep, ⟨us, ep, len, dom, sg.join dge kin⟩, fun x => ?_, Heap.union_assoc.symm⟩
  obtain gx | cx := dgc x
  · exact (dec x).imp_left fun ex => Heap.union_eq_none.2 ⟨gx, ex⟩
  · exact .inr cx

omit hV in
lemma Reaping.done (r : Reaping pt tf sz hc true h) : ProcMem pt tf sz h := by
  obtain ⟨us, ep, e, len, dom, s, eq⟩ := r
  rw [eq, if_pos rfl] at s
  exact ⟨us, ep, len, dom, s⟩

lemma Reaping.copyout {dstva src freed} (r : Reaping pt tf sz hc freed h) :
    wp V P (Xv6.copyout pt dstva src) (fun _ h' => Reaping pt tf sz hc freed h') h := by
  obtain ⟨us, ep, e, len, dom, s, eq⟩ := r
  exact wp_mono (wp_copyout_user kernelTop_user hV (fun ok => ok) s) fun _ h' s' => ⟨us, ep, e, len, dom, s', eq⟩

lemma Reaping.freeproc (c : ProcMem cpt ctf csz hc) (r : Reaping pt tf sz hc false h)
    (ne : hc tf = none) :
    wp V P (Xv6.freeproc (some ctf) (some cpt) csz) (fun _ h' => Reaping pt tf sz hc true h') h := by
  obtain ⟨us, ep, e, len, dom, s, rfl⟩ := r
  obtain ⟨usc, ec, lenc, domc, sc⟩ := c
  have hF : ∀ {i fl b}, Leaf i fl b → fl ≠ PTE_V := fun fl => fl.ne_valid
  have dec : Heap.Disjoint ep hc := by
    intro x
    by_cases xt : x = tf
    · exact .inr (xt ▸ ne)
    · exact .inl (by_contra fun ne => xt ((dom x).1 ne))
  have kin : ∀ {x}, ep x ≠ none → Kinit x := fun {x} ex =>
    s.kinit (by
      obtain ⟨b, get⟩ := Option.ne_none_iff_exists'.1 ex
      simp [(s.of_extra (x := x) (b := b) (by simp [Heap.union, get])).2.2])
  -- the child first: the memory of the process is among its extra frames
  have sc' := sc.extend dec.symm kin
  rw [Heap.union_comm dec.symm] at sc'
  obtain ⟨e', so, sn, -⟩ := s.swap sc'
  obtain ⟨b, get⟩ := Option.ne_none_iff_exists'.1 ((domc ctf).2 rfl)
  have uget : Heap.union ec ep ctf = some b := by simp [Heap.union, get]
  have hget := (sn.of_extra uget).2.2
  obtain ⟨ny, nu, -⟩ := sn.of_extra uget
  simp only [Xv6.freeproc, wp_bind]
  refine wp_kfree_extra so hget fun h₁ s₁ => ?_
  refine wp_mono (wp_procFreepagetable hV hF s₁ lenc) ?_
  rintro _ h' rfl
  refine ⟨us, ep, _, len, dom, sn.update ny nu (by simp), ?_⟩
  funext x
  by_cases xc : x = ctf
  · subst xc
    have hcx := (sc.of_extra get).2.2
    simp [(dec x).resolve_right (by simp [hcx])]
  · have en : ec x = none := by_contra fun ne => xc ((domc x).1 ne)
    simp [Function.update_of_ne xc, Heap.union, en]

lemma Reaping.wait {addr xstate} (c : ProcMem cpt ctf csz hc) (r : Reaping pt tf sz hc false h)
    (ne : hc tf = none) :
    wp V P (Xv6.wait pt addr xstate ctf cpt csz) (fun freed h' => Reaping pt tf sz hc freed h') h := by
  rw [Xv6.wait]
  split
  · rw [wp_bind]
    refine wp_mono (r.copyout hV) fun res h₁ r₁ => ?_
    split
    · exact r₁
    · rw [wp_bind]
      exact Reaping.freeproc hV c r₁ ne
  · rw [wp_bind]
    exact Reaping.freeproc hV c r ne

lemma wp_copyTimes {addr1 addr2 wtime rtime} (p : ProcMem pt tf sz h) :
    wp V P (copyTimes pt addr1 addr2 wtime rtime) (fun _ h' => ProcMem pt tf sz h') h := by
  obtain ⟨us, e, len, dom, s⟩ := p
  rw [copyTimes, wp_bind]
  refine wp_mono (wp_copyout_user kernelTop_user hV (fun ok => ok) s) fun res h₁ s₁ => ?_
  split
  · exact ⟨us, e, len, dom, s₁⟩
  · rw [wp_bind]
    exact wp_mono (wp_copyout_user kernelTop_user hV (fun ok => ok) s₁) fun _ h' s' => ⟨us, e, len, dom, s'⟩

lemma wp_pipe {fdarray fds} (p : ProcMem pt tf sz h) :
    wp V P (pipe pt fdarray fds) (fun res h' => (res = none ∧ ProcMem pt tf sz h') ∨
      ∃ pi b hp, res = some pi ∧ fds ≠ none ∧ ProcMem pt tf sz hp ∧ hp pi = none ∧
        h' = Function.update hp pi (some b)) h := by
  obtain ⟨us, e, len, dom, s⟩ := p
  have hu : ∀ {v pte}, kernelTop tf v = some pte → pte &&& PTE_U = 0 := kernelTop_user
  simp only [pipe, wp_bind, wp_kalloc]
  refine ⟨.inl ⟨rfl, us, e, len, dom, s⟩, fun pi vp new => ?_⟩
  have ei := (s.of_fresh new).2.2
  have s₁ := s.alloc (b := fun _ => 5) (hV pi vp) new
  have free : ∀ {h₁}, Space Leaf (kernelTop tf) (Function.update e pi (some fun _ => 5)) us pt h₁ →
      wp V P (kfree pi) (fun _ h' => ProcMem pt tf sz h') h₁ := by
    intro h₁ s₁
    refine wp_kfree_extra s₁ (Function.update_self ..) fun h' s' => ?_
    rw [update_back ei] at s'
    exact ⟨us, e, len, dom, s'⟩
  cases fds with
  | none =>
    rw [wp_bind]
    exact wp_mono (free s₁) fun _ h' p => .inl ⟨rfl, p⟩
  | some fds =>
    simp only [wp_bind]
    refine wp_mono (wp_copyout_user hu hV (fun ok => ok) s₁) fun res h₂ s₂ => ?_
    split
    · rw [wp_bind]
      exact wp_mono (free s₂) fun _ h' p => .inl ⟨rfl, p⟩
    rw [wp_bind]
    refine wp_mono (wp_copyout_user hu hV (fun ok => ok) s₂) fun res h₃ s₃ => ?_
    split
    · rw [wp_bind]
      exact wp_mono (free s₃) fun _ h' p => .inl ⟨rfl, p⟩
    · obtain ⟨ny, nu, get⟩ := s₃.of_extra (Function.update_self ..)
      have s₄ := s₃.update (v := none) ny nu (by simp)
      rw [update_back ei] at s₄
      refine .inr ⟨pi, fun _ => 5, _, rfl, by simp, ⟨us, e, len, dom, s₄⟩, Function.update_self .., ?_⟩
      rw [Function.update_idem, ← get, Function.update_eq_self]

end Xv6
