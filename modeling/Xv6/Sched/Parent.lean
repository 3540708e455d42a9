import Xv6.Sched.Dispatch

/-!
# Parents and pids

The invariant of `parent` and `pid` in the process table: a parent is alive, for a process gives its children
away before it exits, and every process but the first and one that `fork` is creating has a parent.
-/

namespace Xv6.Sched

/-- The number of slots of which `exit` knows that their processes are not children of the caller. -/
def Pc.given : Pc → Option Nat
  | .exitReparent _ i => some i
  | .exitWakeInit _ i _ => some (i.val + 1)
  | .exitWakeParent _ _ => some NPROC
  | _ => none

/-- The fields that `freeproc` clears. -/
def Slot.Clear (S : Slot) : Prop :=
  S.pid = 0 ∧ S.parent = none ∧ S.pagetable = 0 ∧ S.trapframe = 0 ∧ S.sz = 0

/-- The invariant of the parents. -/
structure Family (s : State) : Prop where
  clear : ∀ {q}, (s.slots q).state = .unused → (s.slots q).Clear
  orphan : ∀ {q}, q ≠ initproc → (s.slots q).state ≠ .unused → (s.slots q).state ≠ .used →
    (s.slots q).parent ≠ none
  parent : ∀ {q r}, (s.slots q).parent = some r → (s.slots r).state.Active ∧ q ≠ r
  first : (s.slots initproc).state.Active ∧ (s.slots initproc).parent = none
  adopted : ∀ {p q}, (s.threads p).pc = .forkRun q → (s.slots q).parent ≠ none
  exits : ∀ {p i}, (s.threads p).pc.given = some i →
    p ≠ initproc ∧ ∀ j : Fin NPROC, j.val < i → (s.slots j).parent ≠ some p

/-- How a step of CPU `c` changes the parent of process `q`, from `P` to `P'`. -/
inductive ParentEdge (s s' : State) (c : Fin NCPU) (q : Fin NPROC) (P P' : Option (Fin NPROC)) : Prop where
  | adopt {p} :
    s.At c p (.forkParent q) →
    s.locks .wait = none →
    P' = some p →
    ParentEdge s s' c q P P'
  | reparent {p status} :
    s.At c p (.exitReparent status q.val) →
    s'.threads p = ⟨.exitWakeInit status q 0, .run⟩ →
    P = some p →
    P' = some initproc →
    ParentEdge s s' c q P P'
  | free :
    (s'.slots q).state = .unused →
    P' = none →
    ParentEdge s s' c q P P'

variable {s s' : State} {c d : Fin NCPU} {p q r : Fin NPROC} {pc pc' : Pc}

lemma upto_succ {P : Fin NPROC → Prop} {k : Fin NPROC} (old : ∀ j : Fin NPROC, j.val < k.val → P j) (h : P k) :
    ∀ j : Fin NPROC, j.val < k.val + 1 → P j := by
  intro j lt
  rcases Nat.lt_succ_iff_lt_or_eq.mp lt with lt | e
  · exact old j lt
  · rwa [Fin.ext e]

section

attribute [local simp] State.put State.goto State.setThread State.setCpu State.setLk

lemma Step.parent (st : Step s c s') : (s'.slots q).parent = (s.slots q).parent ∨
    ParentEdge s s' c q (s.slots q).parent (s'.slots q).parent := by
  cases st with simp [Function.update_apply]
  | @edit _ _ _ np _ _ r e =>
    by_cases h : q = np
    · subst h
      cases e with
      | forkFail => exact .inr (.free (by simp [freeproc]) (by simp [freeproc]))
      | exitReparent h => exact .inr (.reparent r (by simp) h (by simp))
      | _ => grind [ParentEdge, wake, setKilled]
    · simp [h]
  | @waitFree _ _ _ pp =>
    by_cases h : q = pp
    · subst h
      exact .inr (.free (by simp [freeproc]) (by simp [freeproc]))
    · simp [h]
  | _ => grind [ParentEdge, wake, timeUpdate, freeproc]

lemma Inv.step_clear (inv : Inv s) (st : Step s c s') (clear : (s.slots q).state = .unused → (s.slots q).Clear)
    (u : (s'.slots q).state = .unused) : (s'.slots q).Clear := by
  have on {p} (h : (s.cpus c).proc = some p) := (inv.on h).exists
  have child {p} := inv.child (p := p) (q := q)
  simp only [Slot.Clear] at clear ⊢
  cases st with simp [Function.update_apply] at u ⊢
  | edit r e => cases e <;> grind [State.Runs, wake, setKilled, freeproc, Pc.child]
  | _ => grind [State.Runs, wake, timeUpdate, freeproc, Pc.child]

/-- A thread in `exit` is not that of the first process, and has no children among the slots it has been
to. -/
lemma own_exits {i} (exits : ∀ {i}, (s.threads p).pc.given = some i →
      p ≠ initproc ∧ ∀ j : Fin NPROC, j.val < i → (s.slots j).parent ≠ some p)
    (st : Step s c s') (h : (s.cpus c).proc = some p) (g : (s'.threads p).pc.given = some i) :
    p ≠ initproc ∧ ∀ j : Fin NPROC, j.val < i → (s'.slots j).parent ≠ some p := by
  cases st with simp [Function.update_apply] at g ⊢
  | move r e =>
    obtain rfl := Option.some.inj (h.symm.trans r.proc)
    cases e with
    | @exitSkip status k ne =>
      obtain ⟨ni, old⟩ := exits (i := k.val) (by rw [r.thread]; rfl)
      obtain rfl : k.val + 1 = i := by simpa [Pc.given] using g
      exact ⟨ni, upto_succ old ne⟩
    | _ => grind [State.Runs, Pc.given]
  | acquire r e => grind [State.Runs, e.enters, Pc.given]
  | release r e => cases e <;> grind [State.Runs, Pc.given]
  | @edit _ _ _ k _ _ r e =>
    obtain rfl := Option.some.inj (h.symm.trans r.proc)
    cases e with
    | exitReparent =>
      obtain ⟨ni, old⟩ := exits (i := k.val) (by rw [r.thread]; rfl)
      obtain rfl : k.val + 1 = i := by simpa [Pc.given] using g
      refine ⟨ni, upto_succ (fun j lt => ?_) ?_⟩
      · have ne : j ≠ k := by rintro rfl; omega
        simpa [ne] using old j lt
      · simpa using ni.symm
    | _ => grind [State.Runs, Pc.given, wake, setKilled]
  | _ => grind [State.Runs, Pc.given, wake, timeUpdate, freeproc]

lemma Inv.alloc_cases (inv : Inv s) (st : Step s c s') :
    (s'.allocated = s.allocated ∧ s'.nextpid = s.nextpid ∧
      ∀ q, (s'.slots q).state ≠ .unused → (s'.slots q).serial = (s.slots q).serial ∧
        (s'.slots q).pid = (s.slots q).pid ∧ (s.slots q).state ≠ .unused) ∨
    ∃ np, s'.allocated = s.allocated + 1 ∧ s'.nextpid = succInt s.nextpid ∧
      (s'.slots np).serial = s.allocated ∧ (s'.slots np).pid = s.nextpid ∧
      ∀ q, q ≠ np → s'.slots q = s.slots q := by
  have on {p} (h : (s.cpus c).proc = some p) := (inv.on h).exists
  have child {p q} := inv.child (p := p) (q := q)
  cases st with
  | @fork _ p np =>
    refine .inr ⟨np, rfl, rfl, by simp, by simp, fun q ne => by simp [ne]⟩
  | edit r e =>
    refine .inl ⟨rfl, rfl, fun q h => ?_⟩
    simp [Function.update_apply] at h ⊢
    cases e <;> grind [State.Runs, wake, setKilled, freeproc, Pc.child]
  | _ =>
    refine .inl ⟨rfl, rfl, fun q h => ?_⟩
    simp [Function.update_apply] at h ⊢
    grind [State.Runs, wake, timeUpdate, freeproc, Pc.child]

lemma own_adopted (st : Step s c s') (h : (s.cpus c).proc = some p)
    (h' : (s'.threads p).pc = .forkRun q) :
    (s.threads p).pc = .forkRun q ∨ (s'.slots q).parent = some p := by
  cases st with simp [Function.update_apply] at h' ⊢
  | move r e => cases e <;> grind [State.Runs]
  | acquire r e => grind [State.Runs, e.keeps, Pc.child]
  | release r e => cases e <;> grind [State.Runs]
  | edit r e => cases e <;> grind [State.Runs]
  | _ => grind [State.Runs]

end

lemma Inv.active_or_exits (inv : Inv s) (st : Step s c s') (a : (s.slots p).state.Active) :
    (s'.slots p).state.Active ∨ ∃ status, s.At c p (.exitWakeParent status NPROC) := by
  rcases st.state (q := p) with e | e
  · exact .inl (by rwa [e])
  · cases e with
    | exit at' => exact .inr ⟨_, at'⟩
    | free at' h =>
      rcases inv.locked_state at' h with h | h <;> simp [ProcState.Active, h] at a
    | claim _ _ h => simp [ProcState.Active, h] at a
    | _ => exact .inl (by simp_all [ProcState.Active])

namespace Family

lemma step_first (fam : Family s) (inv : Inv s) (st : Step s c s') :
    (s'.slots initproc).state.Active ∧ (s'.slots initproc).parent = none := by
  refine ⟨?_, ?_⟩
  · rcases inv.active_or_exits st fam.first.1 with a | ⟨status, at'⟩
    · exact a
    · exact absurd rfl (fam.exits (p := initproc) (i := NPROC) (by rw [at'.thread]; rfl)).1
  · rcases st.parent (q := initproc) with e | e
    · rw [e, fam.first.2]
    · cases e with
      | adopt at' =>
        have u := inv.child (p := _) (q := initproc) (by rw [at'.thread]; rfl)
        have a := fam.first.1
        simp [ProcState.Active, u] at a
      | reparent _ _ h => simp [fam.first.2] at h
      | free _ h => exact h

lemma step_parent (fam : Family s) (inv : Inv s) (st : Step s c s')
    (h : (s'.slots q).parent = some r) : (s'.slots r).state.Active ∧ q ≠ r := by
  -- a process that exits has given its children away
  have alive {q r} (h : (s.slots q).parent = some r) : (s'.slots r).state.Active := by
    rcases inv.active_or_exits st (fam.parent h).1 with a | ⟨status, at'⟩
    · exact a
    · exact absurd h ((fam.exits (p := r) (i := NPROC) (by rw [at'.thread]; rfl)).2 q q.isLt)
  rcases st.parent (q := q) with e | e
  · rw [e] at h
    exact ⟨alive h, (fam.parent h).2⟩
  · cases e with
    | adopt at' _ h' =>
      obtain rfl := Option.some.inj (h.symm.trans h')
      have u := inv.child (p := r) (q := q) (by rw [at'.thread]; rfl)
      have run := inv.at_running at'
      refine ⟨?_, fun e => by simp [e, run] at u⟩
      rcases inv.active_or_exits st (.inr (.inr run)) with a | ⟨status, at''⟩
      · exact a
      · have := at'.thread.symm.trans at''.thread
        simp at this
    | reparent _ _ h' h'' =>
      obtain rfl := Option.some.inj (h.symm.trans h'')
      refine ⟨(fam.step_first inv st).1, ?_⟩
      rintro rfl
      simp [fam.first.2] at h'
    | free _ h' => simp [h] at h'

lemma keeps_parent (st : Step s c s') (h : (s.slots q).parent ≠ none)
    (nu : (s'.slots q).state ≠ .unused) : (s'.slots q).parent ≠ none := by
  rcases st.parent (q := q) with e | e
  · rwa [e]
  · cases e with
    | adopt _ _ h' | reparent _ _ _ h' => simp [h']
    | free u => exact absurd u nu

lemma step_orphan (fam : Family s) (inv : Inv s) (st : Step s c s') (ni : q ≠ initproc)
    (nu : (s'.slots q).state ≠ .unused) (nus : (s'.slots q).state ≠ .used) :
    (s'.slots q).parent ≠ none := by
  refine keeps_parent st ?_ nu
  rcases st.state (q := q) with e | e
  · rw [e] at nu nus
    exact fam.orphan ni nu nus
  · cases e with
    | launch at' => exact fam.adopted (by rw [at'.thread])
    | yield at' | sleepOther at' | exit at' =>
      exact fam.orphan ni (by simp [inv.at_running at']) (by simp [inv.at_running at'])
    | sleep r => exact fam.orphan ni (by simp [inv.in_sleep r]) (by simp [inv.in_sleep r])
    | dispatch _ _ h | wake _ h => exact fam.orphan ni (by simp [h]) (by simp [h])
    | claim _ _ _ h => exact absurd h nus
    | free _ _ h => exact absurd h nu

lemma step_adopted (fam : Family s) (inv : Inv s) (st : Step s c s')
    (h : (s'.threads p).pc = .forkRun q) : (s'.slots q).parent ≠ none := by
  have u := (inv.step st).child (p := p) (q := q) (by rw [h]; rfl)
  have old (h : (s.threads p).pc = .forkRun q) : (s'.slots q).parent ≠ none :=
    keeps_parent st (fam.adopted h) (by simp [u])
  by_cases own : (s.cpus c).proc = some p
  · rcases own_adopted st own h with h | h
    · exact old h
    · simp [h]
  · exact old (by rwa [Inv.thread_other st own (by simp [h])] at h)

lemma step_exits (fam : Family s) (st : Step s c s') {i} (g : (s'.threads p).pc.given = some i) :
    p ≠ initproc ∧ ∀ j : Fin NPROC, j.val < i → (s'.slots j).parent ≠ some p := by
  by_cases own : (s.cpus c).proc = some p
  · exact own_exits fam.exits st own g
  · rw [Inv.thread_other st own (by rintro h'; simp [h', Pc.given] at g)] at g
    obtain ⟨ne, old⟩ := fam.exits g
    refine ⟨ne, fun j lt h => ?_⟩
    rcases st.parent (q := j) with e | e
    · exact old j lt (e ▸ h)
    · cases e with
      | adopt at' _ h' => exact own (Option.some.inj (h.symm.trans h') ▸ at'.proc)
      | reparent _ _ _ h' => exact ne (Option.some.inj (h.symm.trans h'))
      | free _ h' => simp [h] at h'

/-- Every step keeps the invariant. -/
theorem step (fam : Family s) (inv : Inv s) (st : Step s c s') : Family s' where
  clear := inv.step_clear st fam.clear
  orphan := fam.step_orphan inv st
  parent := fam.step_parent inv st
  first := fam.step_first inv st
  adopted := fam.step_adopted inv st
  exits := fam.step_exits st

lemma boot (sz pt tf : Nat) : Family (boot sz pt tf) where
  clear {q} u := by
    simp only [Sched.boot] at u ⊢
    split at u
    · simp at u
    · simp [*, Slot.Clear, emptySlot]
  orphan ni nu := by simp [Sched.boot, ni, emptySlot] at nu
  parent h := by simp only [Sched.boot] at h; split at h <;> simp [emptySlot] at h
  first := ⟨.inr (.inl rfl), rfl⟩
  adopted h := by simp [Sched.boot] at h
  exits g := by simp [Sched.boot, Pc.given] at g

end Family

/-- The pid of the allocation with number `n`, as an `int`. -/
def pidOf (n : Nat) : Int := ((n : Int) + 1).bmod (2 ^ 32)

/-- Processes are numbered in the order in which they are allocated. -/
structure Pids (s : State) : Prop where
  next : s.nextpid = pidOf s.allocated
  lt : ∀ {q}, (s.slots q).state ≠ .unused → (s.slots q).serial < s.allocated
  pid : ∀ {q}, (s.slots q).state ≠ .unused → (s.slots q).pid = pidOf (s.slots q).serial
  inj : ∀ {q r}, (s.slots q).state ≠ .unused → (s.slots r).state ≠ .unused →
    (s.slots q).serial = (s.slots r).serial → q = r

lemma succInt_pidOf {n} : succInt (pidOf n) = pidOf (n + 1) := by
  unfold succInt pidOf
  rw [Int.bmod_add_bmod, Int.natCast_add, Int.natCast_one]

lemma pidOf_eq {n : Nat} (lt : n < 2 ^ 31 - 1) : pidOf n = n + 1 := by
  have small : n < 2147483647 := lt
  exact Int.bmod_eq_of_le (by omega) (by omega)

lemma Pids.step (pids : Pids s) (inv : Inv s) (st : Step s c s') : Pids s' := by
  rcases inv.alloc_cases st with ⟨ha, hn, old⟩ | ⟨np, ha, hn, hs, hp, old⟩
  · refine ⟨by rw [ha, hn, pids.next], fun h => ?_, fun h => ?_, fun h h' e => ?_⟩
    · rw [ha, (old _ h).1]
      exact pids.lt (old _ h).2.2
    · rw [(old _ h).1, (old _ h).2.1]
      exact pids.pid (old _ h).2.2
    · rw [(old _ h).1, (old _ h').1] at e
      exact pids.inj (old _ h).2.2 (old _ h').2.2 e
  · -- the numbers in use are below the new one
    have low {q} (ne : q ≠ np) (h : (s'.slots q).state ≠ .unused) :
        (s'.slots q).serial < s.allocated := by
      rw [old q ne] at h ⊢
      exact pids.lt h
    refine ⟨by rw [ha, hn, pids.next, succInt_pidOf], fun {q} h => ?_, fun {q} h => ?_,
      fun {q r} h h' e => ?_⟩
    · by_cases ne : q = np
      · rw [ne, hs]
        omega
      · have := low ne h
        omega
    · by_cases ne : q = np
      · rw [ne, hp, hs, pids.next]
      · rw [old q ne] at h ⊢
        exact pids.pid h
    · by_cases nq : q = np <;> by_cases nr : r = np
      · rw [nq, nr]
      · have := low nr h'
        rw [← e, nq, hs] at this
        omega
      · have := low nq h
        rw [e, nr, hs] at this
        omega
      · rw [old q nq] at h e
        rw [old r nr] at h' e
        exact pids.inj h h' e

lemma Pids.boot (sz pt tf : Nat) : Pids (boot sz pt tf) := by
  have first {q} (h : ((Sched.boot sz pt tf).slots q).state ≠ .unused) : q = initproc := by
    by_contra ne
    simp [Sched.boot, ne, emptySlot] at h
  have zero : pidOf 0 = 1 := pidOf_eq (by decide)
  refine ⟨(pidOf_eq (n := 1) (by decide)).symm, fun h => ?_, fun h => ?_, fun h h' _ => by rw [first h, first h']⟩
  · rw [first h]
    exact Nat.one_pos
  · rw [first h]
    exact zero.symm

lemma Family.run {sz pt tf cs} (run : Run Step (Sched.boot sz pt tf) cs s) :
    Inv s ∧ Family s ∧ Pids s :=
  run.invariant (P := fun s => Inv s ∧ Family s ∧ Pids s)
    ⟨Inv.boot sz pt tf, Family.boot sz pt tf, Pids.boot sz pt tf⟩
    fun ⟨inv, fam, pids⟩ st => ⟨inv.step st, fam.step inv st, pids.step inv st⟩

/-- In every reachable state in which fewer than 2^31 - 1 pids have been handed out, when `wait_lock` and the
locks of the slots concerned are free: processes have distinct positive pids, an unused slot is clear, a
parent is neither unused nor a zombie, and a process other than the first one and a child whose `fork` is not
complete has a parent. -/
theorem process_table {sz pt tf cs} (run : Run Step (boot sz pt tf) cs s)
    (few : s.allocated < 2 ^ 31 - 1) (_ : s.locks .wait = none) :
    (∀ p, (s.slots p).lock = none → (s.slots p).state ≠ .unused → 0 < (s.slots p).pid) ∧
    (∀ p q, (s.slots p).lock = none → (s.slots q).lock = none → (s.slots p).state ≠ .unused →
      (s.slots q).state ≠ .unused → p ≠ q → (s.slots p).pid ≠ (s.slots q).pid) ∧
    (∀ p, (s.slots p).lock = none → (s.slots p).state = .unused → (s.slots p).pid = 0 ∧
      (s.slots p).parent = none ∧ (s.slots p).pagetable = 0 ∧ (s.slots p).trapframe = 0 ∧
      (s.slots p).sz = 0) ∧
    (∀ p q, (s.slots p).lock = none → (s.slots q).lock = none → (s.slots p).parent = some q →
      (s.slots q).state ≠ .unused ∧ (s.slots q).state ≠ .zombie) ∧
    (∀ p, (s.slots p).lock = none → (s.slots p).state ≠ .unused → p ≠ initproc →
      (∀ q, (s.threads q).pc.child ≠ some p) → (s.slots p).parent ≠ none) := by
  obtain ⟨inv, fam, pids⟩ := Family.run run
  have pid {p} (h : (s.slots p).state ≠ .unused) : (s.slots p).pid = (s.slots p).serial + 1 := by
    have := pids.lt h
    rw [pids.pid h, pidOf_eq (by omega)]
  refine ⟨fun p _ h => ?_, fun p q _ _ h h' ne e => ?_, fun p _ h => fam.clear h,
    fun p q _ _ h => ?_, fun p _ h ni nc => ?_⟩
  · rw [pid h]
    omega
  · rw [pid h, pid h'] at e
    exact ne (pids.inj h h' (by omega))
  · rcases (fam.parent h).1 with h | h | h <;> simp [h]
  · refine fam.orphan ni h fun u => ?_
    obtain ⟨q, ch⟩ := inv.used u
    exact nc q ch

/-- The statement for the run that starts the first process. -/
theorem process_table_first : 0 < (resumed.slots initproc).pid :=
  (process_table run_resumed (by decide) rfl).1 initproc rfl (by decide)

end Xv6.Sched
