import Xv6.Sched.Machine

/-!
# Traps and preemption

How a process gives up its CPU in the builds of the four schedulers: `usertrap`, `kerneltrap` and `devintr` of
`kernel/trap.c` and the calls of `yield` in them, with the steps by which a process is dispatched, sleeps,
wakes up and exits. Interrupts may come at any point in user mode, and in kernel mode wherever the process
runs. The scheduler may pick any runnable process.
-/

namespace Xv6.Trap

open Sched (ProcState initproc)

/-- The value of `SCHEDULER` in the `Makefile`. -/
inductive Build where
  | rr | fcfs | pbs | mlfq
  deriving DecidableEq

def ecall : BitVec 64 := 8

/-- The cause of a software interrupt, which machine mode raises for the timer. -/
def timer : BitVec 64 := 0x8000000000000001

/-- `devintr`: 2 for a timer interrupt, 1 for another device, 0 if it is not an interrupt. -/
def devintr (scause : BitVec 64) : Nat :=
  if scause &&& 0x8000000000000000 ≠ 0 ∧ scause &&& 0xff = 9 then 1
  else if scause = timer then 2
  else 0

/-- Where a process is: in user mode, in `syscall`, in `usertrap` with the cause handled, or in `exit`. -/
inductive Pc where
  | user
  | syscall
  | usertrap (which_dev : Nat)
  | exit
  deriving DecidableEq

/-- A process. -/
structure Proc where
  state : ProcState
  killed : Bool
  pc : Pc
  deriving DecidableEq

/-- `usertrap` up to the check of `killed`, for a cause other than a system call. -/
def usertrap (scause : BitVec 64) (P : Proc) : Proc :=
  { P with killed := P.killed || devintr scause = 0, pc := .usertrap (devintr scause) }

/-- The rest of `usertrap`: `exit`, `yield` or `usertrapret`. -/
def usertrapret (which_dev : Nat) (P : Proc) : Proc :=
  if P.killed then { P with pc := .exit }
  else if which_dev = 2 then { P with state := .runnable, pc := .user }
  else { P with pc := .user }

/-- `kerneltrap`, for an interrupt: only the round-robin build calls `yield`. -/
def kerneltrap (b : Build) (scause : BitVec 64) (P : Proc) : Proc :=
  if devintr scause = 2 ∧ P.state = .running ∧ b = .rr then { P with state := .runnable } else P

/-- What happens to a process. -/
inductive Event where
  | dispatch | syscall | sysret | exit | sleep | zombie
  | trap (scause : BitVec 64)
  | trapret
  | ktrap (scause : BitVec 64)
  | wakeup | kill | fork | free
  deriving DecidableEq

/-- A step of process `P` in a build. -/
inductive Next (b : Build) (P : Proc) : Event → Proc → Prop where
  | dispatch :
    P.state = .runnable →
    Next b P .dispatch { P with state := .running }
  | syscall :
    P.state = .running →
    P.pc = .user →
    Next b P .syscall { P with pc := if P.killed then .exit else .syscall }
  | sysret :
    P.state = .running →
    P.pc = .syscall →
    Next b P .sysret { P with pc := .usertrap 0 }
  -- the system call `exit`
  | exit :
    P.state = .running →
    P.pc = .syscall →
    Next b P .exit { P with pc := .exit }
  | sleep :
    P.state = .running →
    P.pc = .syscall ∨ P.pc = .exit →
    Next b P .sleep { P with state := .sleeping }
  | zombie :
    P.state = .running →
    P.pc = .exit →
    Next b P .zombie { P with state := .zombie }
  | trap (scause) :
    P.state = .running →
    P.pc = .user →
    scause ≠ ecall →
    Next b P (.trap scause) (usertrap scause P)
  | trapret {w} :
    P.state = .running →
    P.pc = .usertrap w →
    Next b P .trapret (usertrapret w P)
  -- `kerneltrap` panics if it is not an interrupt
  | ktrap (scause) :
    P.state = .running →
    P.pc ≠ .user →
    devintr scause ≠ 0 →
    Next b P (.ktrap scause) (kerneltrap b scause P)
  | wakeup :
    P.state = .sleeping →
    Next b P .wakeup { P with state := .runnable }
  | kill :
    Next b P .kill
      { P with killed := true, state := if P.state = .sleeping then .runnable else P.state }
  | fork :
    P.state = .unused →
    Next b P .fork { P with state := .runnable, pc := .user }
  | free :
    P.state = .zombie →
    Next b P .free { P with state := .unused, killed := false }

/-- A step of the system: something happens to one process. -/
inductive Step (b : Build) (s : Fin NPROC → Proc) : Fin NPROC × Event → (Fin NPROC → Proc) → Prop where
  | mk {p e P} :
    Next b (s p) e P →
    Step b s (p, e) (Function.update s p P)

/-- The first process is runnable, and returns to user mode. -/
def boot (p : Fin NPROC) : Proc :=
  if p = initproc then ⟨.runnable, false, .user⟩ else ⟨.unused, false, .user⟩

variable {b : Build} {P P' : Proc} {e : Event}

lemma devintr_eq_two {scause} : devintr scause = 2 ↔ scause = timer := by
  unfold devintr
  constructor
  · intro h
    split at h
    · simp at h
    · split at h
      · assumption
      · simp at h
  · rintro rfl
    decide

/-- Without round robin a running process leaves that state by sleeping, by exiting, or in `usertrap` after a
timer interrupt. -/
lemma Next.leaves (nb : b ≠ .rr) (st : Next b P e P') (r : P.state = .running) :
    P'.state = .running ∨ e = .sleep ∨ e = .zombie ∨
      e = .trapret ∧ P.pc = .usertrap 2 ∧ P.killed = false ∧ P'.state = .runnable := by
  cases st with
  | sleep => exact .inr (.inl rfl)
  | zombie => exact .inr (.inr (.inl rfl))
  | @trapret w _ pc =>
    unfold usertrapret
    split
    · exact .inl r
    · split
      · rename_i nk w2
        exact .inr (.inr (.inr ⟨rfl, w2 ▸ pc, by simpa using nk, rfl⟩))
      · exact .inl r
  | ktrap => simp [kerneltrap, nb, r]
  | trap => exact .inl r
  | kill => simp [r]
  | dispatch h | wakeup h | fork h | free h => simp [r] at h
  | _ => exact .inl r

lemma Next.usertrap_two (st : Next b P e P') (h : P'.pc = .usertrap 2) :
    P.pc = .usertrap 2 ∨ e = .trap timer := by
  cases st with
  | trap scause =>
    have : devintr scause = 2 := by simpa [usertrap] using h
    exact .inr (by rw [devintr_eq_two.mp this])
  | trapret =>
    unfold usertrapret at h
    split at h
    · simp at h
    · split at h <;> simp at h
  | ktrap =>
    unfold kerneltrap at h
    split at h <;> exact .inl h
  | syscall => simp at h; split at h <;> simp at h
  | _ => simp_all

/-- A step leads a process into `usertrap` for a timer interrupt only by one in user mode. -/
lemma Step.usertrap_two {s s' a p} (st : Step b s a s') (h : (s' p).pc = .usertrap 2) :
    (s p).pc = .usertrap 2 ∨ a = (p, .trap timer) := by
  obtain @⟨q, e, P, nx⟩ := st
  rcases eq_or_ne p q with rfl | ne
  · rw [Function.update_self] at h
    rcases nx.usertrap_two h with h | rfl
    · exact .inl h
    · exact .inr rfl
  · rw [Function.update_of_ne ne] at h
    exact .inl h

lemma calm {es s p} (run : Run (Step b) boot es s) (quiet : ∀ q, (q, .trap timer) ∉ es) :
    (s p).pc ≠ .usertrap 2 := by
  induction run with
  | nil =>
    unfold boot
    split <;> simp
  | snoc run st ih =>
    intro h
    rcases st.usertrap_two h with h | rfl
    · exact ih (fun q m => quiet q (List.mem_append_left _ m)) h
    · exact quiet p (List.mem_append_right _ (List.mem_singleton_self _))

/-- In every run of the build for first come, first served in which no timer interrupt comes in user mode, a
running process leaves that state only by sleeping or exiting, whatever interrupts come in kernel mode. -/
theorem fcfs_nonpreemptive {es s s' p q e} (run : Run (Step .fcfs) boot es s)
    (quiet : ∀ q, (q, .trap timer) ∉ es) (st : Step .fcfs s (q, e) s') (r : (s p).state = .running) :
    (s' p).state = .running ∨ q = p ∧ (e = .sleep ∨ e = .zombie) := by
  obtain ⟨nx⟩ := st
  rcases eq_or_ne p q with rfl | ne
  · rw [Function.update_self]
    rcases nx.leaves (by decide) r with h | h | h | ⟨_, pc, _⟩
    · exact .inl h
    · exact .inr ⟨rfl, .inl h⟩
    · exact .inr ⟨rfl, .inr h⟩
    · exact absurd pc (calm run quiet)
  · rw [Function.update_of_ne ne]
    exact .inl r

lemma first_dispatched :
    Run (Step b) boot [(initproc, .dispatch)] (Function.update boot initproc ⟨.running, false, .user⟩) :=
  Run.nil.snoc (.mk (.dispatch rfl))

/-- A timer interrupt comes while the first process is in a system call, and leaves it running. -/
theorem fcfs_nonpreemptive_first :
    ∃ es s s', Run (Step .fcfs) boot es s ∧ Step .fcfs s (initproc, .ktrap timer) s' ∧
      (s initproc).state = .running ∧
      ((s' initproc).state = .running ∨
        initproc = initproc ∧ (Event.ktrap timer = .sleep ∨ Event.ktrap timer = .zombie)) :=
  have run := first_dispatched.snoc (.mk (p := initproc) (.syscall rfl rfl))
  have st := .mk (p := initproc) (.ktrap timer rfl (by decide) (by decide))
  ⟨_, _, _, run, st, rfl, fcfs_nonpreemptive run (by simp) st rfl⟩

/-- A timer interrupt comes while the first process is in user mode, and makes it runnable. -/
theorem fcfs_preempts :
    ∃ s s', Run (Step .fcfs) boot [(initproc, .dispatch), (initproc, .trap timer)] s ∧
      Step .fcfs s (initproc, .trapret) s' ∧
      (s initproc).state = .running ∧ (s' initproc).state = .runnable :=
  have run := first_dispatched.snoc (.mk (p := initproc) (.trap timer rfl rfl (by decide)))
  ⟨_, _, run, .mk (.trapret rfl rfl), rfl, rfl⟩

end Xv6.Trap
