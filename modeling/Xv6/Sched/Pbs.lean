import Xv6.Sched.Machine

/-!
# The locks of the priority-based scheduler

The loop of `scheduler` in the build `PBS`, as each CPU runs it, with the locks of the process table. The field
`rtime`, which `struct proc` declares twice in this build, is one field. The scan keeps the lock of the first
runnable slot it meets and releases every other one, also the lock of a slot that becomes the candidate, and
the `release` after the scan is of the word behind the table, which nobody acquires. `pbs_locks` says that these
are the only faults: a run keeps the lock discipline exactly if no CPU switches to a candidate other than the
first one and none gets to the `release` after the scan.
-/

namespace Xv6.Pbs

open Sched (ProcState Uint)

/-- The fields of `struct proc` that the scheduler, `set_priority` and `waitx` use. -/
structure Proc where
  state : ProcState
  pid : Int
  ctime : Uint
  etime : Uint
  wtime : Uint
  rtime : Uint
  nrun : Uint
  spriority : Int
  niceness : Int
  deriving DecidableEq

/-- The niceness `dynamic_priority` computes: the quotient is one of unsigned integers. -/
def Proc.nice (P : Proc) : Int :=
  let denom := P.wtime + P.rtime
  if denom = 0 then 5 else (P.wtime / denom * 10).toInt

/-- The priority `dynamic_priority` computes from the static priority and the niceness. -/
def clamp (spriority niceness : Int) : Int :=
  let temp := spriority - niceness + 5
  let temp := if temp > 100 then 100 else temp
  if temp < 0 then 0 else temp

/-- `dynamic_priority`: what it leaves in the slot, and its result. -/
def dynamicPriority (P : Proc) : Proc × Int :=
  ({ P with spriority := 60, niceness := P.nice }, clamp 60 P.nice)

/-- The slot `P`, of priority `dp`, replaces the candidate `H`, of priority `hp_dp`. -/
def replaces (P H : Proc) (dp hp_dp : Int) : Bool :=
  if dp < hp_dp then true
  else if dp = hp_dp then
    if P.nrun > H.nrun then true
    else if P.nrun = H.nrun then H.ctime < P.ctime
    else false
  else false

/-- The candidate of a scan, with the first runnable slot it has met. -/
structure Best where
  first : Fin NPROC
  highest_priority : Fin NPROC
  deriving DecidableEq

/-- Where a CPU is: at the top of the loop, about to lock slot `i`, with slot `i` locked, about to test the state of
the candidate, to set it, at the call of `swtch`, in the process, in its call of `sched`, back from `swtch`, at
the `release` after the scan, or in `panic`. -/
inductive Pc where
  | top
  | scan (i : ℕ) (best : Option Best)
  | look (i : Fin NPROC) (best : Option Best)
  | test (b : Best)
  | dispatch (b : Best)
  | swtch (b : Best)
  | process (b : Best)
  | sched (b : Best)
  | back (b : Best)
  | release (b : Best)
  | panic
  deriving DecidableEq

/-- A CPU, with the depth of its `push_off`s. -/
structure Cpu where
  pc : Pc
  noff : ℕ
  proc : Option (Fin NPROC)

/-- The process table, the locks of the slots and of the word behind the table, and the CPUs. -/
structure State where
  procs : Fin NPROC → Proc
  lock : ℕ → Option (Fin NCPU)
  cpus : Fin NCPU → Cpu

namespace State

variable (s : State) (c : Fin NCPU)

def goto (pc : Pc) : State :=
  { s with cpus := Function.update s.cpus c { s.cpus c with pc := pc } }

/-- `acquire` of a lock that is free, which leads to `pc`. -/
def acquire (l : ℕ) (pc : Pc) : State :=
  { s with
    lock := Function.update s.lock l (some c)
    cpus := Function.update s.cpus c { s.cpus c with noff := (s.cpus c).noff + 1, pc := pc } }

/-- `release`, which panics if the CPU does not hold the lock. -/
def release (l : ℕ) (pc : Pc) : State :=
  if s.lock l = some c then
    { s with
      lock := Function.update s.lock l none
      cpus := Function.update s.cpus c { s.cpus c with noff := (s.cpus c).noff - 1, pc := pc } }
  else s.goto c .panic

def put (p : Fin NPROC) (P : Proc) : State :=
  { s with procs := Function.update s.procs p P }

def setProc (p : Option (Fin NPROC)) : State :=
  { s with cpus := Function.update s.cpus c { s.cpus c with proc := p } }

end State

/-- A step of CPU `c` in the loop of `scheduler`, or of other code that takes the lock of a slot. -/
inductive Step (s : State) (c : Fin NCPU) : State → Prop where
  | start :
    (s.cpus c).pc = .top →
    Step s c (s.goto c (.scan 0 none))
  | acquire {i best} :
    (s.cpus c).pc = .scan i best →
    (lt : i < NPROC) →
    s.lock i = none →
    Step s c (s.acquire c i (.look ⟨i, lt⟩ best))
  | acquireHeld {i best} :
    (s.cpus c).pc = .scan i best →
    i < NPROC →
    s.lock i = some c →
    Step s c (s.goto c .panic)
  | skip {i best} :
    (s.cpus c).pc = .look i best →
    (s.procs i).state ≠ .runnable →
    Step s c (s.release c i (.scan (i + 1) best))
  | keep {i} :
    (s.cpus c).pc = .look i none →
    (s.procs i).state = .runnable →
    Step s c (s.goto c (.scan (i + 1) (some ⟨i, i⟩)))
  | compare {i b P H dp hp_dp} :
    (s.cpus c).pc = .look i (some b) →
    (s.procs i).state = .runnable →
    dynamicPriority (s.procs i) = (P, dp) →
    dynamicPriority (s.procs b.highest_priority) = (H, hp_dp) →
    Step s c (((s.put i P).put b.highest_priority H).release c i
      (.scan (i + 1) (some (if replaces P H dp hp_dp then { b with highest_priority := i } else b))))
  | idle :
    (s.cpus c).pc = .scan NPROC none →
    Step s c (s.goto c .top)
  | chosen {b} :
    (s.cpus c).pc = .scan NPROC (some b) →
    Step s c (s.goto c (.test b))
  | test {b} :
    (s.cpus c).pc = .test b →
    Step s c (s.goto c (if (s.procs b.highest_priority).state = .runnable then .dispatch b else .release b))
  | dispatch {b} :
    (s.cpus c).pc = .dispatch b →
    Step s c (((s.put b.highest_priority { s.procs b.highest_priority with state := .running }).setProc c
      (some b.highest_priority)).goto c (.swtch b))
  -- the process comes back from its own call of `swtch`, or starts in `forkret`, and releases its lock
  | swtch {b} :
    (s.cpus c).pc = .swtch b →
    Step s c (s.release c b.highest_priority (.process b))
  -- `yield`, `sleep` or `exit`
  | sched {b S etime} :
    (s.cpus c).pc = .process b →
    s.lock b.highest_priority = none →
    S = .runnable ∨ S = .sleeping ∨ S = .zombie →
    Step s c ((s.put b.highest_priority { s.procs b.highest_priority with state := S, etime := etime }).acquire c
      b.highest_priority (.sched b))
  | back {b} :
    (s.cpus c).pc = .sched b →
    Step s c (s.goto c (if (s.cpus c).noff = 1 then .back b else .panic))
  | reset {b} :
    (s.cpus c).pc = .back b →
    Step s c (((s.put b.highest_priority
      { s.procs b.highest_priority with
        wtime := 0, rtime := 0, nrun := (s.procs b.highest_priority).nrun + 1 }).setProc c none).goto c
      (.release b))
  -- here `p` is `&proc[NPROC]`
  | release {b} :
    (s.cpus c).pc = .release b →
    Step s c (s.release c NPROC .top)
  -- other code changes a slot under its lock: only the process itself ends its run, only a scheduler starts it
  | other {p : Fin NPROC} {P} :
    s.lock p = none →
    ((s.procs p).state = .running ↔ P.state = .running) →
    Step s c (s.put p P)

/-- The CPUs enter the loop, with an arbitrary process table. -/
def boot (procs : Fin NPROC → Proc) : State where
  procs := procs
  lock _ := none
  cpus _ := ⟨.top, 0, none⟩

/-- The CPU holds the locks of the list, and no other one. -/
def State.Holds (s : State) (c : Fin NCPU) (ls : List ℕ) : Prop :=
  (s.cpus c).noff = ls.length ∧ ∀ l, s.lock l = some c ↔ l ∈ ls

/-- The lock the scheduler releases in its next step. -/
def State.releases (s : State) (c : Fin NCPU) : Option ℕ :=
  match (s.cpus c).pc with
  | .look i best => if (s.procs i).state = .runnable ∧ best = none then none else some i
  | .release _ => some NPROC
  | _ => none

/-- The lock discipline. -/
structure Disciplined (s : State) : Prop where
  top {c} : (s.cpus c).pc = .top → s.Holds c []
  swtch {c b} : (s.cpus c).pc = .swtch b → s.Holds c [b.highest_priority]
  release {c l} : s.releases c = some l → s.lock l = some c
  alone {c d p} : (s.cpus c).proc = some p → (s.cpus d).proc = some p → c = d

/-- No CPU is at a `swtch` to a candidate other than the first one, and none is at the `release` after the scan. -/
def Plain (s : State) : Prop :=
  ∀ c b, ((s.cpus c).pc = .swtch b → b.highest_priority = b.first) ∧ (s.cpus c).pc ≠ .release b

def kept (best : Option Best) : List ℕ :=
  (best.map fun b => (b.first : ℕ)).toList

def Pc.locks : Pc → List ℕ
  | .scan _ best => kept best
  | .look i best => i :: kept best
  | .test b | .dispatch b | .swtch b | .release b => [(b.first : ℕ)]
  | .sched b | .back b => [(b.highest_priority : ℕ)]
  | .top | .process _ | .panic => []

def Pc.proc : Pc → Option (Fin NPROC)
  | .swtch b | .process b | .sched b | .back b => some b.highest_priority
  | _ => none

/-- The scan has passed its first runnable slot, and only that one gets to run. -/
def Pc.Ordered : Pc → Prop
  | .scan i (some b) => (b.first : ℕ) < i
  | .look i (some b) => b.first < i
  | .process b | .sched b | .back b => b.highest_priority = b.first
  | _ => True

/-- A CPU holds the locks of its place in the loop, and runs the process it has switched to. -/
structure Own (s : State) (c : Fin NCPU) : Prop where
  holds : s.Holds c (s.cpus c).pc.locks
  proc : (s.cpus c).proc = (s.cpus c).pc.proc
  order : (s.cpus c).pc.Ordered

/-- No CPU has panicked, a process that a CPU has found or switched to is in the state it should be, and no two CPUs
run one process. -/
structure Calm (s : State) : Prop where
  awake {c} : (s.cpus c).pc ≠ .panic
  runnable {c b} : (s.cpus c).pc = .dispatch b → b.highest_priority = b.first →
    (s.procs b.highest_priority).state = .runnable
  running {c b} : (s.cpus c).pc = .swtch b ∨ (s.cpus c).pc = .process b →
    (s.procs b.highest_priority).state = .running
  alone {c d p} : (s.cpus c).proc = some p → (s.cpus d).proc = some p → c = d

/-- How a step changes the state of a slot. -/
inductive StateEdge (s : State) (c : Fin NCPU) (s' : State) (p : Fin NPROC) : Prop where
  | same :
    (s'.procs p).state = (s.procs p).state →
    StateEdge s c s' p
  | other :
    s.lock p = none →
    ((s.procs p).state = .running ↔ (s'.procs p).state = .running) →
    (s'.cpus c).pc = (s.cpus c).pc →
    StateEdge s c s' p
  | dispatch {b} :
    (s.cpus c).pc = .dispatch b →
    (s'.cpus c).pc = .swtch b →
    b.highest_priority = p →
    (s'.procs p).state = .running →
    StateEdge s c s' p
  | sched {b} :
    (s.cpus c).pc = .process b →
    (s'.cpus c).pc = .sched b →
    b.highest_priority = p →
    s.lock p = none →
    StateEdge s c s' p

variable {s s' t : State} {cs : List (Fin NCPU)} {c d : Fin NCPU} {l : ℕ} {ls : List ℕ} {pc : Pc}

@[simp]
lemma State.release_procs : (s.release c l pc).procs = s.procs := by
  unfold State.release
  split <;> rfl

@[simp]
lemma State.release_proc : ((s.release c l pc).cpus c).proc = (s.cpus c).proc := by
  unfold State.release
  split <;> simp [State.goto]

lemma State.release_pc (own : s.lock l = some c) : ((s.release c l pc).cpus c).pc = pc := by
  simp [State.release, own]

lemma State.release_pc_iff {pc'} (np : pc' ≠ .panic) :
    ((s.release c l pc).cpus c).pc = pc' ↔ s.lock l = some c ∧ pc = pc' := by
  unfold State.release
  split <;> simp [State.goto, *, np.symm]

lemma State.release_cpu_other (ne : d ≠ c) : (s.release c l pc).cpus d = s.cpus d := by
  unfold State.release
  split <;> exact Function.update_of_ne ne _ _

lemma State.release_lock_other {k} (ne : d ≠ c) :
    (s.release c l pc).lock k = some d ↔ s.lock k = some d := by
  unfold State.release
  split
  · simp only [Function.update_apply]
    grind
  · rfl

section

attribute [local simp] State.goto State.acquire State.put State.setProc Function.update_apply

lemma Step.cpu_other (st : Step s c s') (ne : d ≠ c) : s'.cpus d = s.cpus d := by
  cases st <;> simp [ne, State.release_cpu_other]

lemma Step.lock_other (st : Step s c s') (ne : d ≠ c) : s'.lock l = some d ↔ s.lock l = some d := by
  cases st <;> simp [ne, State.release_lock_other]
  all_goals grind

end

lemma Step.holds_other (st : Step s c s') (ne : d ≠ c) (h : s.Holds d ls) : s'.Holds d ls := by
  refine ⟨?_, fun l => ?_⟩
  · rw [st.cpu_other ne]
    exact h.1
  · rw [st.lock_other ne]
    exact h.2 l

lemma State.Holds.acquire (h : s.Holds c ls) :
    (s.acquire c l pc).Holds c (l :: ls) := by
  refine ⟨by simp [State.acquire, h.1], fun k => ?_⟩
  have := h.2 k
  simp only [State.acquire, Function.update_apply, List.mem_cons]
  grind

lemma State.Holds.release (h : s.Holds c (l :: ls)) (nd : l ∉ ls) (pc : Pc) :
    (s.release c l pc).Holds c ls ∧ ((s.release c l pc).cpus c).pc = pc ∧
      ((s.release c l pc).cpus c).proc = (s.cpus c).proc := by
  have own : s.lock l = some c := (h.2 l).mpr (List.mem_cons_self)
  simp only [State.release, own, if_true, Function.update_self, and_true]
  refine ⟨by simp [h.1], fun k => ?_⟩
  have := h.2 k
  simp only [Function.update_apply]
  grind

lemma Own.other (h : Own s d) (st : Step s c s') (ne : d ≠ c) : Own s' d := by
  obtain ⟨holds, proc, order⟩ := h
  refine ⟨?_, ?_, ?_⟩ <;> rw [st.cpu_other ne]
  · exact st.holds_other ne holds
  · exact proc
  · exact order

lemma Own.goto (holds : s.Holds c pc.locks) (proc : (s.cpus c).proc = pc.proc) (order : pc.Ordered) :
    Own (s.goto c pc) c := by
  refine ⟨?_, ?_, ?_⟩ <;> simp only [State.goto, Function.update_self]
  · exact ⟨by simpa using holds.1, holds.2⟩
  · exact proc
  · exact order

lemma Own.acquire (holds : s.Holds c ls) (eq : pc.locks = l :: ls) (proc : (s.cpus c).proc = pc.proc)
    (order : pc.Ordered) : Own (s.acquire c l pc) c := by
  have here : ((s.acquire c l pc).cpus c).pc = pc := by simp [State.acquire]
  refine ⟨?_, ?_, ?_⟩ <;> rw [here]
  · rw [eq]
    exact holds.acquire
  · simpa [State.acquire] using proc
  · exact order

lemma Own.release (holds : s.Holds c (l :: pc.locks)) (nd : l ∉ pc.locks)
    (proc : (s.cpus c).proc = pc.proc) (order : pc.Ordered) : Own (s.release c l pc) c := by
  obtain ⟨holds', here, proc'⟩ := holds.release nd pc
  refine ⟨?_, ?_, ?_⟩ <;> rw [here]
  · exact holds'
  · rw [proc', proc]
  · exact order

lemma State.release_held (np : ((s.release c l pc).cpus c).pc ≠ .panic) : s.lock l = some c := by
  by_contra ne
  simp [State.release, ne, State.goto] at np

lemma Own.step (h : Own s c) (st : Step s c s') (np : (s'.cpus c).pc ≠ .panic) : Own s' c := by
  obtain ⟨holds, proc, order⟩ := h
  cases st with
  | start pc => rw [pc] at holds proc order; exact .goto holds proc trivial
  | @acquire i best pc =>
    rw [pc] at holds proc order
    refine .acquire holds rfl proc ?_
    cases best with
    | none => trivial
    | some b => exact order
  | acquireHeld => simp [State.goto] at np
  | @skip i best pc =>
    rw [pc] at holds proc order
    cases best with
    | none => exact .release holds (by simp [Pc.locks, kept]) proc trivial
    | some b =>
      have lt : (b.first : ℕ) < i := order
      exact .release holds (by simp [Pc.locks, kept]; omega) proc (Nat.lt_succ_of_lt lt)
  | keep pc =>
    rw [pc] at holds proc order
    exact .goto holds proc (Nat.lt_succ_self _)
  | @compare i b P H dp hp_dp pc =>
    rw [pc] at holds proc order
    have lt : (b.first : ℕ) < i := order
    split
    · exact .release holds (by simp [Pc.locks, kept]; omega) proc (Nat.lt_succ_of_lt lt)
    · exact .release holds (by simp [Pc.locks, kept]; omega) proc (Nat.lt_succ_of_lt lt)
  | idle pc => rw [pc] at holds proc; exact .goto holds proc trivial
  | chosen pc => rw [pc] at holds proc; exact .goto holds proc trivial
  | test pc =>
    rw [pc] at holds proc
    split
    · exact .goto holds proc trivial
    · exact .goto holds proc trivial
  | dispatch pc =>
    rw [pc] at holds
    exact .goto ⟨by simp [State.setProc, State.put, holds.1, Pc.locks], holds.2⟩
      (by simp [State.setProc, Pc.proc]) trivial
  | @swtch b pc =>
    rw [pc] at holds proc
    have eq : (b.highest_priority : ℕ) = b.first := by
      simpa [Pc.locks] using (holds.2 _).mp (State.release_held np)
    exact .release (by rw [eq]; exact holds) (by simp [Pc.locks]) proc (Fin.ext eq)
  | sched pc =>
    rw [pc] at holds proc order
    exact .acquire (s := s.put _ _) holds rfl proc order
  | back pc =>
    rw [pc] at holds proc order
    split
    · exact .goto holds proc order
    · simp_all [State.goto]
  | @reset b pc =>
    rw [pc] at holds order
    have eq : b.highest_priority = b.first := order
    rw [Pc.locks, eq] at holds
    exact .goto ⟨by simp [State.setProc, State.put, holds.1, Pc.locks], holds.2⟩
      (by simp [State.setProc, Pc.proc]) trivial
  | @release b pc =>
    rw [pc] at holds
    -- the word behind the table is no lock of a slot
    have := (holds.2 _).mp (State.release_held np)
    simp only [Pc.locks, List.mem_singleton] at this
    omega
  | other => exact ⟨holds, proc, order⟩

/-- Every CPU that has not panicked is at a place it owns. -/
def Inv (s : State) : Prop :=
  ∀ c, (s.cpus c).pc ≠ .panic → Own s c

lemma Inv.step (I : Inv s) (st : Step s c s') : Inv s' := by
  intro d np
  rcases eq_or_ne d c with rfl | ne
  · by_cases stuck : (s.cpus d).pc = .panic
    · cases st <;> simp_all [State.put]
    · exact (I d stuck).step st np
  · rw [st.cpu_other ne] at np
    exact (I d np).other st ne

lemma Inv.boot {procs} : Inv (boot procs) :=
  fun _ _ => ⟨⟨rfl, by simp [Pbs.boot, Pc.locks]⟩, rfl, trivial⟩

lemma Inv.first {b} (I : Inv s) (pc : (s.cpus c).pc = .dispatch b ∨ (s.cpus c).pc = .swtch b) :
    s.lock l = some c ↔ l = b.first := by
  have own := (I c (by rcases pc with pc | pc <;> simp [pc])).holds.2 l
  rcases pc with pc | pc <;> simpa [pc, Pc.locks] using own

lemma Inv.not_behind {b} (I : Inv s) (pc : (s.cpus c).pc = .release b) : s.lock NPROC ≠ some c := by
  intro h
  have := ((I c (by simp [pc])).holds.2 _).mp h
  simp only [pc, Pc.locks, List.mem_singleton] at this
  omega

lemma Disciplined.plain (D : Disciplined s) (I : Inv s) : Plain s := by
  refine fun c b => ⟨fun pc => ?_, fun pc => ?_⟩
  · have own := ((D.swtch pc).2 b.highest_priority).mpr (List.mem_singleton_self _)
    exact Fin.ext ((I.first (.inr pc)).mp own)
  · exact I.not_behind pc (D.release (by simp [State.releases, pc]))

lemma Step.state (st : Step s c s') (p : Fin NPROC) : StateEdge s c s' p := by
  cases st with
  | @other q P free iff =>
    rcases eq_or_ne p q with rfl | ne
    · exact .other free (by simpa [State.put] using iff) rfl
    · exact .same (by simp [State.put, ne])
  | @dispatch b pc =>
    rcases eq_or_ne p b.highest_priority with rfl | ne
    · exact .dispatch pc (by simp [State.goto]) rfl (by simp [State.goto, State.setProc, State.put])
    · exact .same (by simp [State.goto, State.setProc, State.put, ne])
  | @sched b S etime pc free =>
    rcases eq_or_ne p b.highest_priority with rfl | ne
    · exact .sched pc (by simp [State.acquire]) rfl free
    · exact .same (by simp [State.acquire, State.put, ne])
  | @compare i b P H dp hp_dp _ _ hP hH =>
    refine .same ?_
    simp only [State.release_procs, State.put, Function.update_apply]
    simp only [dynamicPriority, Prod.mk.injEq] at hP hH
    grind
  | @reset b =>
    refine .same ?_
    simp only [State.goto, State.setProc, State.put, Function.update_apply]
    grind
  | _ => exact .same (by simp [State.goto, State.acquire])

lemma Step.proc {p} (st : Step s c s') (h : (s'.cpus c).proc = some p) :
    (s.cpus c).proc = some p ∨
      ∃ b, (s.cpus c).pc = .dispatch b ∧ (s'.cpus c).pc = .swtch b ∧ b.highest_priority = p := by
  cases st with
  | dispatch pc => exact .inr ⟨_, pc, by simp [State.goto], by simpa [State.goto, State.setProc] using h⟩
  | reset => simp [State.goto, State.setProc] at h
  | _ => exact .inl (by simpa [State.goto, State.acquire, State.put] using h)

/-- A CPU panics only at a `swtch` to a candidate other than the first one, or at the `release` after the scan. -/
lemma Own.awake (h : Own s c) (st : Step s c s') (plain : Plain s) (np : (s.cpus c).pc ≠ .panic) :
    (s'.cpus c).pc ≠ .panic := by
  obtain ⟨⟨noff, own⟩, _, order⟩ := h
  cases st with
  | @acquireHeld i best pc lt held =>
    -- the lock the scan has kept is of an earlier slot
    rw [own, pc] at held
    rw [pc] at order
    cases best with
    | none => simp [Pc.locks, kept] at held
    | some b =>
      have lt : (b.first : ℕ) < i := order
      simp [Pc.locks, kept] at held
      omega
  | skip pc =>
    rw [State.release_pc ((own _).mpr (by simp [pc, Pc.locks]))]
    simp
  | @compare i b P H _ _ pc =>
    rw [State.release_pc (s := (s.put i P).put b.highest_priority H) ((own _).mpr (by simp [pc, Pc.locks]))]
    simp
  | swtch pc =>
    rw [State.release_pc ((own _).mpr (by simp [pc, Pc.locks, (plain c _).1 pc]))]
    simp
  | back pc => simp [State.goto, noff, pc, Pc.locks]
  | release pc => exact absurd pc (plain c _).2
  | test =>
    simp only [State.goto, Function.update_self]
    split <;> simp
  | other => exact np
  | _ => simp [State.goto, State.acquire]

/-- A CPU that has a process is at its `swtch` or runs it, with the process running, or holds its lock. -/
lemma Calm.has {p} (C : Calm s) (I : Inv s) (h : (s.cpus c).proc = some p) :
    (s.procs p).state = .running ∨ s.lock p = some c := by
  have own := I c C.awake
  rw [own.proc] at h
  have held := own.holds.2 p
  cases pc : (s.cpus c).pc with
  | swtch b | process b =>
    simp only [pc, Pc.proc, Option.some.injEq] at h
    exact .inl (h ▸ C.running (by rw [pc]; simp))
  | sched b | back b =>
    simp only [pc, Pc.proc, Option.some.injEq] at h
    exact .inr (held.mpr (by simp [pc, Pc.locks, h]))
  | _ => simp [pc, Pc.proc] at h

lemma Calm.dispatch_alone {b} (C : Calm s) (I : Inv s) (pc : (s.cpus c).pc = .dispatch b)
    (eq : b.highest_priority = b.first) (h : (s.cpus d).proc = some b.highest_priority) : d = c := by
  rcases C.has I h with run | held
  · rw [C.runnable pc eq] at run
    simp at run
  · have own := (I.first (l := b.highest_priority) (.inl pc)).mpr (by rw [eq])
    simpa [own, eq_comm] using held

lemma Step.found {b} (st : Step s c s') (h : (s'.cpus c).pc = .dispatch b) :
    (s.cpus c).pc = .dispatch b ∨ (s'.procs b.highest_priority).state = .runnable := by
  cases st with
  | test =>
    simp only [State.goto, Function.update_self] at h ⊢
    split at h
    · cases h
      exact .inr ‹_›
    · simp at h
  | back =>
    simp only [State.goto, Function.update_self] at h
    split at h <;> simp at h
  | other => exact .inl h
  | _ => simp [State.goto, State.acquire, State.release_pc_iff] at h

lemma Step.dispatched {b} (st : Step s c s') (h : (s'.cpus c).pc = .swtch b) :
    (s.cpus c).pc = .swtch b ∨ (s'.procs b.highest_priority).state = .running := by
  cases st with
  | dispatch =>
    simp only [State.goto, Function.update_self, Pc.swtch.injEq] at h
    simp [State.goto, State.setProc, State.put, h]
  | test | back =>
    simp only [State.goto, Function.update_self] at h
    split at h <;> simp at h
  | other => exact .inl h
  | _ => simp [State.goto, State.acquire, State.release_pc_iff] at h

lemma Step.entered {b} (st : Step s c s') (h : (s'.cpus c).pc = .process b) :
    (s.cpus c).pc = .process b ∨ (s.cpus c).pc = .swtch b := by
  cases st with
  | swtch pc =>
    simp only [State.release_pc_iff, ne_eq, reduceCtorEq, not_false_iff, Pc.process.injEq] at h
    exact .inr (h.2 ▸ pc)
  | test | back =>
    simp only [State.goto, Function.update_self] at h
    split at h <;> simp at h
  | other => exact .inl h
  | _ => simp [State.goto, State.acquire, State.release_pc_iff] at h

lemma Calm.step_runnable {b} (C : Calm s) (I : Inv s) (st : Step s c s') (plain' : Plain s')
    (pc : (s'.cpus d).pc = .dispatch b) (eq : b.highest_priority = b.first) :
    (s'.procs b.highest_priority).state = .runnable := by
  have old : (s.cpus d).pc = .dispatch b ∨ (s'.procs b.highest_priority).state = .runnable := by
    rcases eq_or_ne d c with rfl | ne
    · exact st.found pc
    · exact .inl (st.cpu_other ne ▸ pc)
  rcases old with old | done
  · have own : s.lock b.highest_priority = some d := (I.first (.inl old)).mpr (by rw [eq])
    rcases st.state b.highest_priority with e | ⟨free, _⟩ | ⟨here, goes, h, _⟩ | ⟨_, _, _, free⟩
    · rw [e, C.runnable old eq]
    · simp [own] at free
    · -- two CPUs that dispatch their first candidate hold its lock
      have first := (plain' c _).1 goes
      have own' := (I.first (l := b.highest_priority) (.inl here)).mpr (by rw [← h, first])
      rw [own, Option.some.injEq] at own'
      subst own'
      simp [goes] at pc
    · simp [own] at free
  · exact done

lemma Calm.step_running {b} (C : Calm s) (I : Inv s) (st : Step s c s')
    (pc : (s'.cpus d).pc = .swtch b ∨ (s'.cpus d).pc = .process b) :
    (s'.procs b.highest_priority).state = .running := by
  have old : ((s.cpus d).pc = .swtch b ∨ (s.cpus d).pc = .process b) ∨
      (s'.procs b.highest_priority).state = .running := by
    rcases eq_or_ne d c with rfl | ne
    · rcases pc with pc | pc
      · exact (st.dispatched pc).imp_left .inl
      · exact .inl (st.entered pc).symm
    · exact .inl (st.cpu_other ne ▸ pc)
  rcases old with old | done
  · have run := C.running old
    rcases st.state b.highest_priority with e | ⟨_, iff, _⟩ | ⟨_, _, _, h⟩ | ⟨here, goes, h, _⟩
    · rw [e, run]
    · exact iff.mp run
    · exact h
    · -- only the CPU that runs the process ends its run
      have own := (I c C.awake).proc
      have own' := (I d C.awake).proc
      have : c = d := C.alone (p := b.highest_priority) (by rw [own, here, ← h]; rfl)
        (by rcases old with old | old <;> rw [own', old] <;> rfl)
      subst this
      simp [goes] at pc
  · exact done

lemma Calm.step_alone {d' p} (C : Calm s) (I : Inv s) (st : Step s c s') (plain' : Plain s')
    (h : (s'.cpus d).proc = some p) (h' : (s'.cpus d').proc = some p) : d = d' := by
  -- a CPU that gets a process in this step is the one that steps
  have new : ∀ {d}, (s'.cpus d).proc = some p → (s.cpus d).proc = some p ∨
      d = c ∧ ∃ b, (s.cpus c).pc = .dispatch b ∧ b.highest_priority = b.first ∧ b.highest_priority = p := by
    intro d h
    rcases eq_or_ne d c with rfl | ne
    · rcases st.proc h with h | ⟨b, here, goes, eq⟩
      · exact .inl h
      · exact .inr ⟨rfl, b, here, (plain' d b).1 goes, eq⟩
    · exact .inl (st.cpu_other ne ▸ h)
  rcases new h, new h' with ⟨old | ⟨rfl, b, here, first, rfl⟩, old' | ⟨rfl, b', at', first', eq'⟩⟩
  · exact C.alone old old'
  · exact C.dispatch_alone I at' first' (eq' ▸ old)
  · exact (C.dispatch_alone I here first old').symm
  · rfl

lemma Calm.step (C : Calm s) (I : Inv s) (st : Step s c s') (plain : Plain s) (plain' : Plain s') :
    Calm s' where
  awake {d} := by
    rcases eq_or_ne d c with rfl | ne
    · exact (I d C.awake).awake st plain C.awake
    · rw [st.cpu_other ne]
      exact C.awake
  runnable pc eq := C.step_runnable I st plain' pc eq
  running pc := C.step_running I st pc
  alone h h' := C.step_alone I st plain' h h'

lemma Calm.boot {procs} : Calm (boot procs) where
  awake := by simp [Pbs.boot]
  runnable h := by simp [Pbs.boot] at h
  running h := by simp [Pbs.boot] at h
  alone h := by simp [Pbs.boot] at h

lemma pass_slot {i best} (run : Run Step t cs s) (pc : (s.cpus c).pc = .scan i best) (lt : i < NPROC)
    (free : s.lock i = none) (st : (s.procs ⟨i, lt⟩).state ≠ .runnable) :
    ∃ cs, Run Step t cs (s.goto c (.scan (i + 1) best)) := by
  have here : ((s.acquire c i (.look ⟨i, lt⟩ best)).cpus c).pc = .look ⟨i, lt⟩ best := by simp [State.acquire]
  have run := (run.snoc (.acquire pc lt free)).snoc (.skip here st)
  have eq : (s.acquire c i (.look ⟨i, lt⟩ best)).release c i (.scan (i + 1) best) =
      s.goto c (.scan (i + 1) best) := by
    simp only [State.release, State.acquire, State.goto, Function.update_self, if_true, Function.update_idem]
    rw [← free, Function.update_eq_self]
    simp
  exact ⟨_, eq ▸ run⟩

lemma pass {i best} (run : Run Step t cs s) (pc : (s.cpus c).pc = .scan i best) (le : i ≤ NPROC)
    (free : ∀ j, i ≤ j → s.lock j = none) (st : ∀ j : Fin NPROC, i ≤ j → (s.procs j).state ≠ .runnable) :
    ∃ cs, Run Step t cs (s.goto c (.scan NPROC best)) := by
  induction k : NPROC - i generalizing i s cs with
  | zero =>
    obtain rfl : i = NPROC := by omega
    refine ⟨cs, ?_⟩
    rwa [State.goto, ← pc, Function.update_eq_self]
  | succ k ih =>
    obtain ⟨cs, run⟩ := pass_slot run pc (by omega) (free i (Nat.le_refl _)) (st ⟨i, by omega⟩ (Nat.le_refl _))
    have := ih run (i := i + 1) (by simp [State.goto]) (by omega) (fun j le => free j (by omega))
      (fun j le => st j (by omega)) (by omega)
    simpa [State.goto] using this

/-- A process in a state, created at a time. -/
def proc (state : ProcState) (ctime : Uint) : Proc := ⟨state, 1, ctime, 0, 0, 0, 0, 60, 5⟩

/-- Two processes, the second one created later. -/
def two (first : ProcState) (p : Fin NPROC) : Proc :=
  if p = 0 then proc first 0 else if p = 1 then proc .runnable 1 else proc .unused 0

end Xv6.Pbs
