import Xv6.Vm.Files

/-!
# Who owns the page frames

Every frame that is not free belongs to a process, to a pipe or to the kernel since it booted (`Owner`).
Which one is not part of the state: `Inv B s H` says that the heaps `H` divide the frames among the owners,
that the heap of a process between calls is its memory (`ProcMem`), and that the heap of a process in a call
meets the weakest precondition of the rest of the call. Every step keeps this (`Inv.step`).
-/

namespace Xv6

open Frames Prog

attribute [local irreducible] PTE2PA PA2PTE PTE_FLAGS PX ByteVec.getLE ByteVec.putLE dups

/-- The owners of page frames. -/
inductive Owner where
  | proc (p : Fin NPROC)
  | pipe (pi : Nat)
  | boot
  deriving DecidableEq

/-- The heap is the memory of the process. -/
def Proc.Mem (P : Proc) (h : Memory) : Prop := ProcMem P.pagetable P.trapframe P.sz h

/-- The slot has memory of its own: not one that is being made, nor one that is being freed. -/
def Proc.HasMem (P : Proc) : Prop := P.state = .live ∨ P.state = .zombie ∧ P.lock = none

/-- The memory of the child a call is to free. -/
def Call.childMem (procs : Fin NPROC → Proc) : Call → Memory → Prop
  | .wait c _ => (procs c).Mem
  | _ => fun _ => False

/-- What a process with the given image owns at the end of a call. -/
def Post (pt tf sz : Nat) (child : Memory → Prop) : Call → Result → Memory → Prop
  | .sbrk, .sbrk sz', h => ProcMem pt tf sz' h
  | .exec, .exec none, h => ProcMem pt tf sz h
  | .exec, .exec (some image), h => ProcMem image.pagetable tf image.sz h
  | .fork _, .fork none, h => ProcMem pt tf sz h
  | .fork _, .fork (some (tf', pt')), h =>
    ∃ g hp, ProcMem pt' tf' sz g ∧ ProcMem pt tf sz hp ∧ Heap.Disjoint g hp ∧ h = Heap.union g hp
  | .wait _ _, .wait true, h => ProcMem pt tf sz h
  | .wait _ _, .wait false, h =>
    ∃ hc hp, child hc ∧ ProcMem pt tf sz hp ∧ Heap.Disjoint hc hp ∧ h = Heap.union hc hp
  | .times, .done, h => ProcMem pt tf sz h
  | .pipe _, .pipe none, h => ProcMem pt tf sz h
  | .pipe (some _), .pipe (some pi), h =>
    ∃ b hp, ProcMem pt tf sz hp ∧ hp pi = none ∧ h = Function.update hp pi (some b)
  | .close, .done, h => ProcMem pt tf sz h
  | _, _, _ => False

/-- The heap of a slot. -/
structure Slot (procs : Fin NPROC → Proc) (p : Fin NPROC) (h : Memory) : Prop where
  call : ∀ {k prog}, (procs p).call = some (k, prog) →
    wp Kinit (fun _ => False) prog
      (Post (procs p).pagetable (procs p).trapframe (procs p).sz (k.childMem procs) k) h
  mem : (procs p).call = none → (procs p).HasMem → (procs p).Mem h
  gone : ¬(procs p).HasMem → h = fun _ => none

/-- The frames are divided among the owners. -/
structure Inv (B : Nat → Prop) (s : Sys) (H : Owner → Memory) : Prop where
  owns : Owns Kinit s.store H
  boot : ∀ {x}, H .boot x ≠ none ↔ B x
  pipe : ∀ {pi x}, H (.pipe pi) x ≠ none ↔ x = pi ∧ s.pipes pi ≠ none
  slot : ∀ p, Slot s.procs p (H (.proc p))

/-- The slots agree in what `Slot` is about. -/
structure Proc.Alike (P' P : Proc) : Prop where
  state : P'.state = P.state
  lock : P'.lock = P.lock
  call : P'.call = P.call
  pagetable : P'.pagetable = P.pagetable
  trapframe : P'.trapframe = P.trapframe
  sz : P'.sz = P.sz

lemma Proc.Alike.mem {P' P : Proc} (a : P'.Alike P) : P'.Mem = P.Mem := by
  funext h
  rw [Proc.Mem, a.pagetable, a.trapframe, a.sz, Proc.Mem]

lemma ProcMem.store {pt tf sz va pte b} {h M : Memory} (m : ProcMem pt tf sz h)
    (agree : ∀ {x b}, h x = some b → M x = some b) (get : abs M pt va = some pte)
    (user : pte &&& PTE_U ≠ 0) :
    h (PTE2PA pte) ≠ none ∧ ProcMem pt tf sz (Function.update h (PTE2PA pte) (some b)) := by
  obtain ⟨us, e, len, dom, sp⟩ := m
  obtain ⟨m, r, t, u⟩ := sp.table
  have mva : m va = some pte := by rw [← (t.lift agree).map, get]
  have lt : va < us.length * PGSIZE := by
    by_contra ge
    rw [u.above (by omega)] at mva
    exact user (kernelTop_user mva)
  obtain ⟨pte', mva', at_va, -⟩ := u.page lt
  obtain rfl : pte = pte' := Option.some.inj (mva.symm.trans mva')
  have mem := List.mem_of_getElem? at_va
  obtain ⟨-, ⟨b', hx⟩, -⟩ := sp.user mem
  exact ⟨by simp [hx], us, e, len, dom, sp.write mem (fun _ ok => ok) fun _ ok => ok⟩

lemma ProcMem.trap {pt tf sz b} {h : Memory} (m : ProcMem pt tf sz h) :
    h tf ≠ none ∧ ProcMem pt tf sz (Function.update h tf (some b)) := by
  obtain ⟨us, e, len, dom, sp⟩ := m
  obtain ⟨b', get⟩ := Option.ne_none_iff_exists'.1 ((dom tf).2 rfl)
  refine ⟨by simp [(sp.of_extra get).2.2], us, _, len, fun x => ?_, sp.store get⟩
  by_cases xt : x = tf
  · simp [xt]
  · simp [xt, dom x]

lemma wp_kfree_beside {pt tf sz pi b P} {h : Memory} (m : ProcMem pt tf sz h) (kin : Kinit pi)
    (new : h pi = none) :
    wp Kinit P (kfree pi) (fun _ h' => ProcMem pt tf sz h') (Function.update h pi (some b)) := by
  refine wp_kfree kin (Function.update_self ..) ?_
  rwa [Function.update_idem, ← new, Function.update_eq_self]

variable {procs procs' : Fin NPROC → Proc} {p c q : Fin NPROC} {h : Memory} {s s' : Sys}
  {B : Nat → Prop} {H H' : Owner → Memory}

lemma Call.childMem_congr {k : Call} (same : ∀ c st, k.child = some (c, st) → (procs' c).Mem = (procs c).Mem) :
    k.childMem procs' = k.childMem procs := by
  cases k with
  | wait c t => exact same c .zombie rfl
  | _ => rfl

/-- A slot keeps its heap when it does not change and the child it frees does not change either. -/
lemma Slot.frame (sl : Slot procs q h) (a : (procs' q).Alike (procs q))
    (child : ∀ c st, (procs q).child = some (c, st) → (procs' c).Alike (procs c)) : Slot procs' q h := by
  have hasMem : (procs' q).HasMem ↔ (procs q).HasMem := by
    rw [Proc.HasMem, a.state, a.lock, Proc.HasMem]
  constructor
  case call =>
    intro k prog eq
    rw [a.call] at eq
    have same := Call.childMem_congr fun c st ch => (child c st (by rw [Proc.child, eq]; exact ch)).mem
    rw [a.pagetable, a.trapframe, a.sz, same]
    exact sl.call eq
  case mem =>
    intro eq hm
    rw [a.call] at eq
    rw [a.mem]
    exact sl.mem eq (hasMem.1 hm)
  case gone => exact fun hm => sl.gone fun hm' => hm (hasMem.2 hm')

/-- A step of a live process `p` that changes its slot and a slot `c` whose lock no other process holds. -/
lemma Inv.next (inv : Inv B s H) (l : Links s.procs) (live : (s.procs p).state = .live)
    (hc : c = p ∨ (s.procs c).lock = none ∨ (s.procs c).lock = some p)
    (alike : ∀ q, q ≠ p → q ≠ c → (s'.procs q).Alike (s.procs q))
    (owns : Owns Kinit s'.store H') (boot : H' .boot = H .boot)
    (pipe : ∀ {pi x}, H' (.pipe pi) x ≠ none ↔ x = pi ∧ s'.pipes pi ≠ none)
    (heap : ∀ q, q ≠ p → q ≠ c → H' (.proc q) = H (.proc q))
    (sp : Slot s'.procs p (H' (.proc p))) (sc : Slot s'.procs c (H' (.proc c))) : Inv B s' H' := by
  refine ⟨owns, by rw [boot]; exact inv.boot, pipe, fun q => ?_⟩
  by_cases qp : q = p
  · rwa [qp]
  by_cases qc : q = c
  · rwa [qc]
  rw [heap q qp qc]
  refine (inv.slot q).frame (alike q qp qc) fun d st ch => alike d ?_ ?_
  · rintro rfl
    exact Links.child_ne_live ch ((l.state ch).symm.trans live)
  · rintro rfl
    have lk := l.lock.1 ⟨st, ch⟩
    obtain rfl | eq | eq := hc
    · exact Links.child_ne_live ch ((l.state ch).symm.trans live)
    · simp [lk] at eq
    · simp [lk, qp] at eq

lemma Slot.busy {P : Proc} {k prog} (self : procs p = P) (live : P.state = .live)
    (call : P.call = some (k, prog))
    (w : wp Kinit (fun _ => False) prog (Post P.pagetable P.trapframe P.sz (k.childMem procs) k) h) :
    Slot procs p h := by
  subst self
  refine ⟨fun eq => ?_, fun eq => ?_, fun hm => absurd (.inl live) hm⟩
  · rw [call] at eq
    cases eq
    exact w
  · simp [call] at eq

lemma Slot.idle {P : Proc} (self : procs p = P) (call : P.call = none) (hm : P.HasMem) (m : P.Mem h) :
    Slot procs p h := by
  subst self
  refine ⟨fun eq => ?_, fun _ _ => m, fun hm' => absurd hm hm'⟩
  simp [call] at eq

lemma Slot.empty {P : Proc} (self : procs p = P) (call : P.call = none) (hm : ¬P.HasMem) :
    Slot procs p fun _ => none := by
  subst self
  refine ⟨fun eq => ?_, fun _ hm' => absurd hm' hm, fun _ => rfl⟩
  simp [call] at eq

lemma Inv.alone {P : Proc} {h'} (inv : Inv B s H) (l : Links s.procs) (live : (s.procs p).state = .live)
    (procs : s'.procs = Function.update s.procs p P)
    (pipes : ∀ pi, s'.pipes pi ≠ none ↔ s.pipes pi ≠ none)
    (owns : Owns Kinit s'.store (Function.update H (.proc p) h')) (sp : Slot s'.procs p h') :
    Inv B s' (Function.update H (.proc p) h') := by
  have self : Function.update H (.proc p) h' (.proc p) = h' := Function.update_self ..
  refine inv.next l live (.inl rfl) (fun q qp _ => ?_) owns (Function.update_of_ne (by simp) ..) ?_
    (fun q qp _ => Function.update_of_ne (by simp [qp]) ..) (by rwa [self]) (by rwa [self])
  · rw [procs, Function.update_of_ne qp]
    exact ⟨rfl, rfl, rfl, rfl, rfl, rfl⟩
  · intro pi x
    rw [Function.update_of_ne (by simp), pipes pi]
    exact inv.pipe

lemma Inv.mem (inv : Inv B s H) (id : (s.procs p).Idle) : (s.procs p).Mem (H (.proc p)) :=
  (inv.slot p).mem id.2.2.2 (.inl id.1)

lemma Inv.enter {P : Proc} {k prog} (inv : Inv B s H) (l : Links s.procs) (id : (s.procs p).Idle)
    (procs : s'.procs = Function.update s.procs p P) (pipes : s'.pipes = s.pipes)
    (store : s'.store = s.store) (live : P.state = .live) (call : P.call = some (k, prog))
    (image : P.pagetable = (s.procs p).pagetable ∧ P.trapframe = (s.procs p).trapframe ∧
      P.sz = (s.procs p).sz)
    (w : wp Kinit (fun _ => False) prog (Post (s.procs p).pagetable (s.procs p).trapframe (s.procs p).sz
      (k.childMem s'.procs) k) (H (.proc p))) : Inv B s' H := by
  have self : s'.procs p = P := by rw [procs, Function.update_self]
  have sp : Slot s'.procs p (H (.proc p)) := by
    refine Slot.busy self live call ?_
    rwa [image.1, image.2.1, image.2.2]
  have next := inv.alone l id.1 procs (fun pi => by rw [pipes])
    (by rw [store, Function.update_eq_self]; exact inv.owns) sp
  rwa [Function.update_eq_self] at next

lemma Inv.leave {P : Proc} (inv : Inv B s H) (l : Links s.procs) (live : (s.procs p).state = .live)
    (procs : s'.procs = Function.update s.procs p P)
    (pipes : ∀ pi, s'.pipes pi ≠ none ↔ s.pipes pi ≠ none)
    (store : s'.store = s.store) (live' : P.state = .live) (call : P.call = none)
    (m : P.Mem (H (.proc p))) : Inv B s' H := by
  have self : s'.procs p = P := by rw [procs, Function.update_self]
  have next := inv.alone l live procs pipes
    (by rw [store, Function.update_eq_self]; exact inv.owns)
    (Slot.idle self call (.inl live') m)
  rwa [Function.update_eq_self] at next

lemma Inv.memory (inv : Inv B s H) {t x b} (get : H t x = some b) : s.memory x = some b :=
  congrArg some (inv.owns.agree get)

lemma Inv.post {k r} (inv : Inv B s H) (call : (s.procs p).call = some (k, pure r)) :
    Post (s.procs p).pagetable (s.procs p).trapframe (s.procs p).sz (k.childMem s.procs) k r
      (H (.proc p)) :=
  (inv.slot p).call call

lemma Inv.fresh {fds pi} (inv : Inv B s H)
    (call : (s.procs p).call = some (.pipe fds, pure (.pipe (some pi)))) : s.pipes pi = none := by
  have post := inv.post call
  cases fds with
  | none => exact post.elim
  | some fds =>
    obtain ⟨b, hp, -, -, eq⟩ := post
    by_contra ne
    have mine : H (.proc p) pi ≠ none := by simp [eq]
    have other : H (.pipe pi) pi ≠ none := inv.pipe.2 ⟨rfl, ne⟩
    cases inv.owns.disj mine other

lemma Inv.frame {k prog prog' store'} (inv : Inv B s H) (l : Links s.procs)
    (call : (s.procs p).call = some (k, prog)) (st : Prog.Step s.store prog store' prog') :
    ∃ H', Inv B ({ s with store := store' }.enter p k prog') H' := by
  have live := l.busy (p := p) (by simp [call])
  obtain ⟨h', owns, w⟩ := inv.owns.step (t := .proc p) ((inv.slot p).call call) st
  refine ⟨_, inv.alone l live rfl (fun _ => .rfl) owns (Slot.busy Sys.set_self live rfl ?_)⟩
  rwa [Call.childMem_congr fun c st ch => ?_]
  have cp : c ≠ p := by
    rintro rfl
    exact Links.child_ne_live (P := s.procs c) (by rw [Proc.child, call]; exact ch)
      ((l.of_call call ch).2.1.symm.trans live)
  rw [Sys.enter, Sys.set_ne cp]

lemma Inv.pair {P C : Proc} (inv : Inv B s H) (l : Links s.procs)
    (live : (s.procs p).state = .live) (lk : (s.procs c).lock = none ∨ (s.procs c).lock = some p)
    (procs : s'.procs = Function.update (Function.update s.procs p P) c C) (pipes : s'.pipes = s.pipes)
    (owns : Owns Kinit s'.store H') (heaps : ∀ t, t ≠ .proc p → t ≠ .proc c → H' t = H t)
    (sp : Slot s'.procs p (H' (.proc p))) (sc : Slot s'.procs c (H' (.proc c))) : Inv B s' H' := by
  refine inv.next l live (.inr lk) (fun q qp qc => ?_) owns (heaps _ (by simp) (by simp)) ?_
    (fun q qp qc => heaps _ (by simp [qp]) (by simp [qc])) sp sc
  · rw [procs, Function.update_of_ne qc, Function.update_of_ne qp]
    exact ⟨rfl, rfl, rfl, rfl, rfl, rfl⟩
  · intro pi x
    rw [heaps _ (by simp) (by simp), pipes]
    exact inv.pipe

lemma Inv.give {P C : Proc} {hp hc} (inv : Inv B s H) (l : Links s.procs)
    (live : (s.procs p).state = .live) (cp : c ≠ p)
    (lk : (s.procs c).lock = none ∨ (s.procs c).lock = some p)
    (procs : s'.procs = Function.update (Function.update s.procs p P) c C) (pipes : s'.pipes = s.pipes)
    (store : s'.store = s.store) (none : ¬(s.procs c).HasMem) (eq : H (.proc p) = Heap.union hc hp)
    (disj : Heap.Disjoint hc hp) (sp : Slot s'.procs p hp) (sc : Slot s'.procs c hc) :
    ∃ H', Inv B s' H' := by
  have selfp : Function.update (Function.update H (.proc p) hp) (.proc c) hc (.proc p) = hp := by
    rw [Function.update_of_ne (by simp [cp.symm]), Function.update_self]
  have selfc : Function.update (Function.update H (.proc p) hp) (.proc c) hc (.proc c) = hc :=
    Function.update_self ..
  refine ⟨_, inv.pair l live lk procs pipes ?_ (fun t tp tc => ?_) (selfp.symm ▸ sp) (selfc.symm ▸ sc)⟩
  · rw [store]
    exact inv.owns.split (by simp [cp]) eq disj ((inv.slot c).gone none)
  · rw [Function.update_of_ne tc, Function.update_of_ne tp]

lemma Inv.fork (inv : Inv B s H) (l : Links s.procs) (id : (s.procs p).Idle)
    (un : (s.procs c).state = .unused) (lk : (s.procs c).lock = none) :
    Inv B ((s.enter p (.fork c) do
      let child ← Xv6.fork (s.procs c).sz (s.procs p).pagetable (s.procs p).trapframe (s.procs p).sz
      pure (.fork child)).set c { s.procs c with state := .used, lock := some p }) H := by
  have cl : (s.procs c).state ≠ .live := by simp [un]
  have pc : p ≠ c := by
    rintro rfl
    exact cl id.1
  have none : H (.proc c) = fun _ => none := (inv.slot c).gone (by simp [Proc.HasMem, un])
  refine inv.pair l id.1 (.inl lk) rfl rfl inv.owns (fun _ _ _ => rfl)
    (Slot.busy ((Sys.set_ne pc).trans Sys.set_self) id.1 rfl ?_) ?_
  · rw [l.zero (.inl un), wp_bind]
    refine wp_mono (wp_fork (fun _ k => k) (inv.mem id)) ?_
    rintro res h' (⟨rfl, rfl⟩ | ⟨tf, pt, g, rfl, mg, disj, rfl⟩)
    · exact inv.mem id
    · exact ⟨g, _, mg, inv.mem id, disj, rfl⟩
  · rw [none]
    exact Slot.empty Sys.set_self (l.idle cl) (by simp [Proc.HasMem])

lemma Inv.freed {P : Proc} {k prog st} (inv : Inv B s H) (l : Links s.procs)
    (call : (s.procs p).call = some (k, prog)) (ch : k.child = some (c, st))
    (sp : Slot ((s.set p P).set c (s.procs c).freed).procs p (H (.proc p))) :
    Inv B ((s.set p P).set c (s.procs c).freed) H := by
  obtain ⟨live, sc, lk, -⟩ := l.of_call call ch
  have cl : (s.procs c).state ≠ .live := by
    rw [sc]
    exact Links.child_ne_live (P := s.procs p) (by rw [Proc.child, call]; exact ch)
  have none : H (.proc c) = fun _ => none := (inv.slot c).gone (by simp [Proc.HasMem, cl, lk])
  refine inv.pair l live (.inr lk) rfl rfl inv.owns (fun _ _ _ => rfl) sp ?_
  rw [none]
  exact Slot.empty Sys.set_self (l.idle cl) (by simp [Proc.HasMem, Proc.freed])

lemma Inv.forkRet {tf pt files} (inv : Inv B s H) (l : Links s.procs)
    (call : (s.procs p).call = some (.fork c, pure (.fork (some (tf, pt))))) :
    ∃ H', Inv B { (s.set p { s.procs p with call := none }).set c
        ((s.procs c).forked (s.procs p) p tf pt) with files := files } H' := by
  obtain ⟨live, sc, lk, -⟩ := l.of_call call rfl
  have cl : (s.procs c).state ≠ .live := by simp [sc]
  have cp : c ≠ p := by
    rintro rfl
    exact cl live
  obtain ⟨g, hp, mg, mp, disj, eq⟩ := inv.post call
  exact inv.give l live cp (.inr lk) rfl rfl rfl (by simp [Proc.HasMem, sc]) eq disj
    (Slot.idle ((Sys.set_ne cp.symm).trans Sys.set_self) rfl (.inl live) mp)
    (Slot.idle Sys.set_self (l.idle cl) (.inl rfl) mg)

lemma Inv.wait {addr xstate times} (inv : Inv B s H) (l : Links s.procs) (id : (s.procs p).Idle)
    (zo : (s.procs c).state = .zombie) (lk : (s.procs c).lock = none) :
    ∃ H', Inv B ((s.enter p (.wait c times) do
      let freed ← Xv6.wait (s.procs p).pagetable addr xstate (s.procs c).trapframe
        (s.procs c).pagetable (s.procs c).sz
      pure (.wait freed)).set c { s.procs c with lock := some p }) H' := by
  have cl : (s.procs c).state ≠ .live := by simp [zo]
  have cp : c ≠ p := by
    rintro rfl
    exact cl id.1
  have mp := inv.mem id
  have mc : (s.procs c).Mem (H (.proc c)) := (inv.slot c).mem (l.idle cl) (.inr ⟨zo, lk⟩)
  have disj : Heap.Disjoint (H (.proc p)) (H (.proc c)) := inv.owns.disjoint (by simp [cp])
  have ne : H (.proc c) (s.procs p).trapframe = none :=
    inv.owns.other (mp.trap (b := fun _ => 0)).1 (by simp [cp])
  have sp : Slot ((s.enter p (.wait c times) do
      let freed ← Xv6.wait (s.procs p).pagetable addr xstate (s.procs c).trapframe
        (s.procs c).pagetable (s.procs c).sz
      pure (.wait freed)).set c { s.procs c with lock := some p }).procs p
      (Heap.union (H (.proc p)) (H (.proc c))) := by
    refine Slot.busy ((Sys.set_ne cp.symm).trans Sys.set_self) id.1 rfl ?_
    rw [wp_bind]
    refine wp_mono (Reaping.wait (fun _ k => k) mc (Reaping.start mp mc disj) ne) fun freed h' r => ?_
    cases freed with
    | true => exact r.done
    | false =>
      obtain ⟨hp, mp', dp, rfl⟩ := r.kept ne
      refine ⟨H (.proc c), hp, ?_, mp', dp.symm, Heap.union_comm dp⟩
      rw [Call.childMem, Sys.set_self]
      exact mc
  refine ⟨_, inv.pair l id.1 (.inl lk) rfl rfl
    (inv.owns.merge (show Owner.proc c ≠ .proc p by simp [cp]))
    (fun t tp tc => ?_) ?_ ?_⟩
  · rw [Function.update_of_ne tc, Function.update_of_ne tp]
  · rw [Function.update_of_ne (by simp [cp.symm]), Function.update_self]
    exact sp
  · rw [Function.update_self]
    exact Slot.empty Sys.set_self (l.idle cl) (by simp [Proc.HasMem, cl])

lemma Inv.waitRet {P : Proc} {times freed} (inv : Inv B s H) (l : Links s.procs)
    (call : (s.procs p).call = some (.wait c times, pure (.wait freed)))
    (sp : ∀ {procs h}, procs p = P → (s.procs p).Mem h → Slot procs p h) :
    ∃ H', Inv B ((s.set p P).set c
      (if freed then (s.procs c).freed else { s.procs c with lock := none })) H' := by
  obtain ⟨live, sc, lk, -⟩ := l.of_call call rfl
  have cl : (s.procs c).state ≠ .live := by simp [sc]
  have cp : c ≠ p := by
    rintro rfl
    exact cl live
  have post := inv.post call
  cases freed with
  | true => exact ⟨H, inv.freed l call rfl (sp ((Sys.set_ne cp.symm).trans Sys.set_self) post)⟩
  | false =>
    obtain ⟨hc, hp, mc, mp, disj, eq⟩ := post
    exact inv.give l live cp (.inr lk) rfl rfl rfl (by simp [Proc.HasMem, sc, lk]) eq disj
      (sp ((Sys.set_ne cp.symm).trans Sys.set_self) mp)
      (Slot.idle Sys.set_self (l.idle cl) (.inr ⟨sc, rfl⟩) mc)

lemma union_single {h : Memory} {x b} (new : h x = none) :
    Function.update h x (some b) = Heap.union (Heap.single x b) h ∧ Heap.Disjoint (Heap.single x b) h := by
  refine ⟨?_, fun y => ?_⟩
  · funext y
    by_cases yx : y = x
    · simp [yx, Heap.union, Heap.single]
    · simp [yx, Heap.union, Heap.single]
  · by_cases yx : y = x
    · exact .inr (yx ▸ new)
    · exact .inl (by simp [yx, Heap.single])

lemma Inv.pipeRet {fds pi files} (inv : Inv B s H) (l : Links s.procs)
    (call : (s.procs p).call = some (.pipe (some fds), pure (.pipe (some pi)))) :
    ∃ H', Inv B { s.set p { s.procs p with call := none } with
      files := files, pipes := Function.update s.pipes pi (some ⟨true, true⟩) } H' := by
  have live := l.busy (p := p) (by simp [call])
  have fresh := inv.fresh call
  obtain ⟨b, hp, mp, new, eq⟩ := inv.post call
  obtain ⟨eq', disj⟩ := union_single (b := b) new
  have empty : H (.pipe pi) = fun _ => none := by
    funext x
    by_contra ne
    exact (inv.pipe.1 ne).2 fresh
  refine ⟨_, inv.next l live (.inl rfl) (fun q qp _ => ?_)
    (inv.owns.split (show Owner.pipe pi ≠ .proc p by simp) (eq.trans eq') disj empty) ?_ ?_
    (fun q qp _ => ?_) ?_ ?_⟩
  · rw [show _ = s.procs q from Sys.set_ne qp]
    exact ⟨rfl, rfl, rfl, rfl, rfl, rfl⟩
  · rw [Function.update_of_ne (by simp), Function.update_of_ne (by simp)]
  · intro pi' x
    by_cases pp : pi' = pi
    · subst pp
      simp only [Function.update_self]
      by_cases xp : x = pi'
      · simp [xp, Heap.single]
      · simp [xp, Heap.single]
    · rw [Function.update_of_ne (by simp [pp]), Function.update_of_ne (by simp)]
      simp only [Function.update_of_ne pp]
      exact inv.pipe
  · rw [Function.update_of_ne (by simp), Function.update_of_ne (by simp [qp])]
  all_goals
    rw [Function.update_of_ne (by simp), Function.update_self]
    exact Slot.idle Sys.set_self rfl (.inl live) mp

lemma Inv.pipefree {pi st files} (inv : Inv B s H) (l : Links s.procs) (live : (s.procs p).state = .live)
    (idle : (s.procs p).call = none) (is : s.pipes pi = some st) :
    ∃ H', Inv B { s.set p { s.procs p with
        closing := none
        call := some (.close, do kfree pi; pure .done) } with
      files := files, pipes := Function.update s.pipes pi none } H' := by
  have mp : (s.procs p).Mem (H (.proc p)) := (inv.slot p).mem idle (.inl live)
  have own : H (.pipe pi) pi ≠ none := inv.pipe.2 ⟨rfl, by simp [is]⟩
  obtain ⟨b, get⟩ := Option.ne_none_iff_exists'.1 own
  have new : H (.proc p) pi = none := inv.owns.other own (by simp)
  have both : Heap.union (H (.proc p)) (H (.pipe pi)) = Function.update (H (.proc p)) pi (some b) := by
    funext x
    by_cases xp : x = pi
    · rw [xp, Heap.union_of_none new, get, Function.update_self]
    · have none : H (.pipe pi) x = none := by_contra fun ne => xp (inv.pipe.1 ne).1
      rw [Function.update_of_ne xp, Heap.union, none, Option.or_none]
  refine ⟨_, inv.next l live (.inl rfl) (fun q qp _ => ?_)
    (inv.owns.merge (show Owner.pipe pi ≠ .proc p by simp)) ?_ ?_ (fun q qp _ => ?_) ?_ ?_⟩
  · rw [show _ = s.procs q from Sys.set_ne qp]
    exact ⟨rfl, rfl, rfl, rfl, rfl, rfl⟩
  · rw [Function.update_of_ne (by simp), Function.update_of_ne (by simp)]
  · intro pi' x
    by_cases pp : pi' = pi
    · simp [pp]
    · rw [Function.update_of_ne (by simp [pp]), Function.update_of_ne (by simp)]
      simp only [Function.update_of_ne pp]
      exact inv.pipe
  · rw [Function.update_of_ne (by simp), Function.update_of_ne (by simp [qp])]
  all_goals
    rw [Function.update_of_ne (by simp), Function.update_self, both]
    refine Slot.busy Sys.set_self live rfl ?_
    rw [wp_bind]
    exact wp_mono (wp_kfree_beside mp (inv.owns.used own).1 new) fun _ h' m => m

/-- Every step keeps the frames divided among the owners. -/
theorem Inv.step (inv : Inv B s H) (l : Links s.procs) (st : Sys.Step s p s') : ∃ H', Inv B s' H' := by
  have busy : ∀ {k prog}, (s.procs p).call = some (k, prog) → (s.procs p).state = .live :=
    fun call => l.busy (by simp [call])
  have kin : ∀ x, Kinit x → Kinit x := fun _ k => k
  cases st with
  | store id _ get user _ =>
    obtain ⟨own, m⟩ := (inv.mem id).store inv.memory get user
    refine ⟨_, inv.alone (P := s.procs p) l id.1 (Function.update_eq_self ..).symm
      (fun _ => .rfl)
      (inv.owns.write own) (Slot.idle rfl id.2.2.2 (.inl id.1) m)⟩
  | trap id =>
    obtain ⟨own, m⟩ := (inv.mem id).trap
    refine ⟨_, inv.alone (P := s.procs p) l id.1 (Function.update_eq_self ..).symm
      (fun _ => .rfl)
      (inv.owns.write own) (Slot.idle rfl id.2.2.2 (.inl id.1) m)⟩
  | frame call st => exact inv.frame l call st
  | sbrk id =>
    refine ⟨H, inv.enter l id rfl rfl rfl id.1 rfl ⟨rfl, rfl, rfl⟩ ?_⟩
    rw [wp_bind]
    exact wp_mono (wp_growproc kin (inv.mem id)) fun _ h' m => m
  | sbrkRet call => exact ⟨H, inv.leave l (busy call) rfl (fun _ => .rfl) rfl (busy call) rfl (inv.post call)⟩
  | exec id =>
    refine ⟨H, inv.enter l id rfl rfl rfl id.1 rfl ⟨rfl, rfl, rfl⟩ ?_⟩
    rw [wp_bind]
    refine wp_mono (wp_sysExec kin (inv.mem id)) ?_
    rintro res h' (⟨rfl, m⟩ | ⟨im, rfl, m⟩)
    · exact m
    · exact m
  | execFail call => exact ⟨H, inv.leave l (busy call) rfl (fun _ => .rfl) rfl (busy call) rfl (inv.post call)⟩
  | execRet call => exact ⟨H, inv.leave l (busy call) rfl (fun _ => .rfl) rfl (busy call) rfl (inv.post call)⟩
  | fork id un lk => exact ⟨H, inv.fork l id un lk⟩
  | @forkFail c call =>
    have cp : p ≠ c := by
      rintro rfl
      simpa [busy call] using (l.of_call call rfl).2.1
    exact ⟨H, inv.freed l call rfl
      (Slot.idle ((Sys.set_ne cp).trans Sys.set_self) rfl (.inl (busy call)) (inv.post call))⟩
  | forkRet call => exact inv.forkRet l call
  | wait id _ zo lk => exact inv.wait l id zo lk
  | waitRet call =>
    exact inv.waitRet l call fun self m => Slot.idle self rfl (.inl (busy call)) m
  | waitxRet call =>
    refine inv.waitRet l call fun self m => Slot.busy self (busy call) rfl ?_
    rw [wp_bind]
    exact wp_mono (wp_copyTimes kin m) fun _ h' m => m
  | waitxNone id =>
    refine ⟨H, inv.enter l id rfl rfl rfl id.1 rfl ⟨rfl, rfl, rfl⟩ ?_⟩
    rw [wp_bind]
    exact wp_mono (wp_copyTimes kin (inv.mem id)) fun _ h' m => m
  | timesRet call => exact ⟨H, inv.leave l (busy call) rfl (fun _ => .rfl) rfl (busy call) rfl (inv.post call)⟩
  | pipe id _ _ =>
    refine ⟨H, inv.enter l id rfl rfl rfl id.1 rfl ⟨rfl, rfl, rfl⟩ ?_⟩
    rw [wp_bind]
    refine wp_mono (wp_pipe kin (inv.mem id)) ?_
    rintro res h' (⟨rfl, m⟩ | ⟨pi, b, hp, rfl, -, m, new, eq⟩)
    · exact m
    · exact ⟨b, hp, m, new, eq⟩
  | pipeFull id _ _ =>
    refine ⟨H, inv.enter l id rfl rfl rfl id.1 rfl ⟨rfl, rfl, rfl⟩ ?_⟩
    rw [wp_bind]
    refine wp_mono (wp_pipe kin (inv.mem id)) ?_
    rintro res h' (⟨rfl, m⟩ | ⟨pi, b, hp, rfl, no, -⟩)
    · exact m
    · exact absurd rfl no
  | pipeFullRet call => exact ⟨H, inv.leave l (busy call) rfl (fun _ => .rfl) rfl (busy call) rfl (inv.post call)⟩
  | pipeFail call => exact ⟨H, inv.leave l (busy call) rfl (fun _ => .rfl) rfl (busy call) rfl (inv.post call)⟩
  | pipeRet call => exact inv.pipeRet l call
  | dup id _ _ => exact ⟨H, inv.leave l id.1 rfl (fun _ => .rfl) rfl id.1 id.2.2.2 (inv.mem id)⟩
  | close live _ idle _ _ =>
    exact ⟨H, inv.leave l live rfl (fun _ => .rfl) rfl live idle ((inv.slot p).mem idle (.inl live))⟩
  | @pipeclose pi w st live idle _ is _ =>
    refine ⟨H, inv.leave l live rfl (fun pi' => ?_) rfl live idle ((inv.slot p).mem idle (.inl live))⟩
    by_cases pp : pi' = pi
    · simp [pp, is]
    · simp [pp]
  | pipefree live idle _ is _ => exact inv.pipefree l live idle is
  | pipefreeRet call => exact ⟨H, inv.leave l (busy call) rfl (fun _ => .rfl) rfl (busy call) rfl (inv.post call)⟩
  | exit id _ => exact ⟨H, inv.leave l id.1 rfl (fun _ => .rfl) rfl id.1 id.2.2.2 (inv.mem id)⟩
  | zombie live _ _ idle _ =>
    -- nobody holds the lock of a live process
    have lk : (s.procs p).lock = none := by
      by_contra ne
      obtain ⟨q, lk⟩ := Option.ne_none_iff_exists'.1 ne
      obtain ⟨st, ch⟩ := l.lock.2 lk
      exact Links.child_ne_live ch ((l.state ch).symm.trans live)
    have sp : Slot (fun q => { s.procs q with
        parent := if (s.procs q).parent = some p then some initproc else (s.procs q).parent
        state := if q = p then .zombie else (s.procs q).state
        exiting := if q = p then false else (s.procs q).exiting }) p (H (.proc p)) :=
      Slot.idle rfl idle (.inr ⟨if_pos rfl, lk⟩) ((inv.slot p).mem idle (.inl live))
    refine ⟨H, inv.next l live (.inl rfl) (fun q qp _ => ?_) inv.owns rfl inv.pipe (fun _ _ _ => rfl) sp sp⟩
    exact ⟨if_neg qp, rfl, rfl, rfl, rfl, rfl⟩

end Xv6
