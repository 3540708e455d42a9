import Xv6.Sched.Machine

/-!
# What a step can do

A step of CPU `c` leaves the other CPUs alone, and the threads other than the one it runs, apart from a
process that is being created. For each part of a slot there is one lemma that says how a step can change
it, and what the CPU is doing then. The invariants are proved from these lemmas.
-/

namespace Xv6.Sched

/-- The process has a kernel thread that is running or will run again. -/
def ProcState.Active (st : ProcState) : Prop := st = .sleeping ∨ st = .runnable ∨ st = .running

/-- The thread of `p` runs on CPU `c` and is at `pc`. -/
abbrev State.At (s : State) (c : Fin NCPU) (p : Fin NPROC) (pc : Pc) : Prop := s.Runs c p ⟨pc, .run⟩

/-- How a step of CPU `c` changes the state of process `q`, from `st` to `st'`. -/
inductive Edge (s : State) (c : Fin NCPU) (q : Fin NPROC) (st st' : ProcState) : Prop where
  | dispatch :
    s.Scans c q →
    (s.slots q).lock = none →
    st = .runnable →
    st' = .running →
    Edge s c q st st'
  | yield {pc} :
    s.At c q pc →
    (s.slots q).lock = none →
    st' = .runnable →
    Edge s c q st st'
  | sleep {L} :
    s.Runs c q ⟨.sleep L, .sleep⟩ →
    st' = .sleeping →
    Edge s c q st st'
  | sleepOther :
    s.At c q .user →
    (s.slots q).lock = none →
    st' = .sleeping →
    Edge s c q st st'
  | exit {status} :
    s.At c q (.exitWakeParent status NPROC) →
    (s.slots q).lock = none →
    st' = .zombie →
    Edge s c q st st'
  | wake :
    (s.slots q).lock = none →
    st = .sleeping →
    st' = .runnable →
    Edge s c q st st'
  | claim {p} :
    s.At c p .user →
    (s.slots q).lock = none →
    st = .unused →
    st' = .used →
    Edge s c q st st'
  | launch {p} :
    s.At c p (.forkRun q) →
    (s.slots q).lock = none →
    st' = .runnable →
    Edge s c q st st'
  | free {p pc} :
    s.At c p pc →
    pc.locks = some q →
    st' = .unused →
    Edge s c q st st'

/-- How a step of CPU `c` changes the lock of slot `q`, from `l` to `l'`. -/
inductive LockEdge (s : State) (c : Fin NCPU) (q : Fin NPROC) (l l' : Option (Fin NCPU)) : Prop where
  | take :
    l = none →
    l' = some c →
    LockEdge s c q l l'
  | back :
    (s.cpus c).mode = .back q →
    l' = none →
    LockEdge s c q l l'
  | resume {pc k} :
    s.Runs c q ⟨pc, .saved k⟩ →
    l' = none →
    LockEdge s c q l l'
  | drop {p pc} :
    s.At c p pc →
    pc.locks = some q →
    l' = none →
    LockEdge s c q l l'

/-- A step of CPU `c` changes another spin lock: it takes it, or a thread or the clock interrupt that
holds it gives it back. -/
inductive LkEdge (s : State) (c : Fin NCPU) (k : Lk) (l l' : Option (Fin NCPU)) : Prop where
  | take :
    l = none →
    l' = some c →
    LkEdge s c k l l'
  | drop {p t} :
    s.Runs c p t →
    t.pc.lk = some k →
    l' = none →
    LkEdge s c k l l'
  | clock :
    c = cpu0 →
    s.clock = some NPROC →
    k = .ticks →
    l' = none →
    LkEdge s c k l l'

namespace Step

variable {s s' : State} {c d : Fin NCPU} {p q : Fin NPROC}

lemma cpu (st : Step s c s') (ne : d ≠ c) : s'.cpus d = s.cpus d := by
  cases st <;> simp [State.put, State.goto, State.setThread, State.setCpu, State.setLk, ne]

/-- A thread that the CPU does not run is left alone, unless its process is being created. -/
lemma thread (st : Step s c s') (own : (s.cpus c).proc ≠ some p) : s'.threads p = s.threads p ∨
    s'.threads p = ⟨.user, .saved .forkret⟩ ∧ ∃ q, s.At c q (.forkPagetable p) := by
  cases st <;> simp only [State.put, State.goto, State.setThread, State.setCpu, State.setLk,
    Function.update_apply] <;> grind [State.Runs]

lemma state (st : Step s c s') :
    (s'.slots q).state = (s.slots q).state ∨ Edge s c q (s.slots q).state (s'.slots q).state := by
  cases st <;> simp only [State.put, State.goto, State.setThread, State.setCpu, State.setLk,
    Function.update_apply]
  case edit _ e =>
    cases e <;> grind [Edge, wake, setKilled, freeproc, Pc.locks]
  all_goals grind [Edge, wake, timeUpdate, freeproc, Pc.locks]

lemma lock (st : Step s c s') :
    (s'.slots q).lock = (s.slots q).lock ∨ LockEdge s c q (s.slots q).lock (s'.slots q).lock := by
  cases st <;> simp only [State.put, State.goto, State.setThread, State.setCpu, State.setLk,
    Function.update_apply]
  case edit _ e =>
    cases e <;> grind [LockEdge, wake, setKilled, freeproc, Pc.locks]
  all_goals grind [LockEdge, wake, timeUpdate, freeproc, Pc.locks]

lemma lk {k} (st : Step s c s') :
    s'.locks k = s.locks k ∨ LkEdge s c k (s.locks k) (s'.locks k) := by
  cases st <;> simp only [State.put, State.goto, State.setThread, State.setCpu, State.setLk,
    Function.update_apply]
  case release e _ =>
    cases e <;> grind [LkEdge, Pc.lk]
  all_goals grind [LkEdge, Pc.lk]

end Step

end Xv6.Sched
