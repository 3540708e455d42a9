import Xv6.Lib.Run
import Mathlib.Algebra.Group.Nat.Defs

/-!
# The system call `sleep`

`sys_sleep` of `kernel/sysproc.c` with `clockintr` of `kernel/trap.c`, as one process that runs the loop of the call among
clock ticks, wakeups and kills. The counter `ticks` is a 32-bit word, and `elapsed` counts the ticks since the call without
wrapping around: the code does not have it. The test of the loop and the `sleep` or the return behind it are one step, since
the process holds `tickslock` between them and `clockintr` takes it to increment the counter.

The counter is `ticks0 + elapsed` modulo `2^32` (`Inv`), so a test of the loop compares `elapsed % 2^32` with `n` as an unsigned
word. That is the comparison of `elapsed` with the signed `n` unless `n` is negative or the counter has wrapped around.
-/

namespace Xv6.Sleep

/-- Where the process is: at the test of the loop with `tickslock` held, SLEEPING on `&ticks`, woken up but without the lock,
or behind the call. -/
inductive Pc where
  | test
  | asleep
  | woken
  | returned (r : Int)
  deriving DecidableEq

/-- The counter, the process and the number of ticks since the call. -/
structure State where
  ticks : BitVec 32
  killed : Bool
  pc : Pc
  elapsed : Nat

/-- What a test of the loop leads to. -/
inductive Outcome where
  | sleep
  | ret (r : Int)
  deriving DecidableEq

def Outcome.pc : Outcome → Pc
  | sleep => .asleep
  | ret r => .returned r

/-- What happens. A test of the loop is recorded with the ticks that have elapsed and what it leads to. -/
inductive Event where
  | tick
  | wakeup
  | kill
  | resume
  | test (elapsed : Nat) (killed : Bool) (outcome : Outcome)
  deriving DecidableEq

/-- A SLEEPING process is made RUNNABLE. -/
def State.wake (s : State) : State := { s with pc := if s.pc = .asleep then .woken else s.pc }

/-- The loop of `sys_sleep(n)`: the `int` is converted for the comparison with the `uint`. -/
def loop (n ticks0 : BitVec 32) (s : State) : Outcome :=
  if s.ticks - ticks0 < n then
    if s.killed then .ret (-1) else .sleep
  else .ret 0

/-- The steps. `clockintr` needs `tickslock`; `kill` and a spurious wakeup do not. -/
inductive Step (n ticks0 : BitVec 32) (s : State) : Event → State → Prop where
  | tick : s.pc ≠ .test → Step n ticks0 s .tick { s.wake with ticks := s.ticks + 1, elapsed := s.elapsed + 1 }
  | wakeup : Step n ticks0 s .wakeup s.wake
  | kill : Step n ticks0 s .kill { s.wake with killed := true }
  | resume : s.pc = .woken → Step n ticks0 s .resume { s with pc := .test }
  | test : s.pc = .test →
    Step n ticks0 s (.test s.elapsed s.killed (loop n ticks0 s)) { s with pc := (loop n ticks0 s).pc }

/-- The process has just read `ticks0 = ticks`. -/
def call (ticks0 : BitVec 32) (killed : Bool) : State := ⟨ticks0, killed, .test, 0⟩

/-- At a test the process goes to sleep only while fewer than `n` ticks have elapsed, it returns 0 exactly if `n` or more have,
and it returns -1 only if it has been killed. -/
def Event.Right (n : BitVec 32) : Event → Prop
  | .test elapsed killed outcome =>
    (outcome = .sleep → (elapsed : Int) < n.toInt) ∧ (outcome = .ret 0 ↔ n.toInt ≤ elapsed) ∧
      (outcome = .ret (-1) → killed = true)
  | _ => True

/-- At a test the argument is not negative and the counter has not wrapped around to a smaller distance. -/
def Event.Bounded (n : BitVec 32) : Event → Prop
  | .test elapsed _ _ => 0 ≤ n.toInt ∧ (elapsed < 2 ^ 32 ∨ n.toNat ≤ elapsed % 2 ^ 32)
  | _ => True

variable {n ticks0 : BitVec 32} {s s' : State} {e : Event}

/-- The counter is the one of the call plus the ticks since then. -/
def Inv (ticks0 : BitVec 32) (s : State) : Prop := s.ticks = ticks0 + BitVec.ofNat 32 s.elapsed

lemma Inv.step (inv : Inv ticks0 s) (st : Step n ticks0 s e s') : Inv ticks0 s' := by
  cases st with
  | tick =>
    simp only [Inv] at inv ⊢
    rw [inv, BitVec.ofNat_add, BitVec.add_assoc]
    rfl
  | _ => exact inv

lemma Inv.sub_lt (inv : Inv ticks0 s) : s.ticks - ticks0 < n ↔ s.elapsed % 2 ^ 32 < n.toNat := by
  have diff : s.ticks - ticks0 = BitVec.ofNat 32 s.elapsed := by
    rw [inv, BitVec.add_comm, BitVec.add_sub_cancel]
  rw [diff, BitVec.lt_def, BitVec.toNat_ofNat]

lemma Inv.right_iff (inv : Inv ticks0 s) : (Event.test s.elapsed s.killed (loop n ticks0 s)).Right n ↔
    (s.elapsed % 2 ^ 32 < n.toNat ↔ (s.elapsed : Int) < n.toInt) := by
  rw [← inv.sub_lt (n := n)]
  by_cases less : s.ticks - ticks0 < n
  · by_cases killed : s.killed
    · simp [Event.Right, loop, less, killed]
    · simp [Event.Right, loop, less, killed]
  · simp [Event.Right, loop, less]

/-- For an argument that is not negative that is so unless the counter has wrapped around. -/
lemma compare_iff {k : Nat} (pos : 0 ≤ n.toInt) :
    (k % 2 ^ 32 < n.toNat ↔ (k : Int) < n.toInt) ↔ k < 2 ^ 32 ∨ n.toNat ≤ k % 2 ^ 32 := by
  have value := BitVec.toInt_eq_toNat_cond n
  have width := n.isLt
  split at value <;> omega

lemma toNat_pos_of_neg (neg : n.toInt < 0) : 0 < n.toNat := by
  have value := BitVec.toInt_eq_toNat_cond n
  split at value <;> omega

lemma Step.right_iff (pos : 0 ≤ n.toInt) (inv : Inv ticks0 s) (st : Step n ticks0 s e s') : e.Right n ↔ e.Bounded n := by
  cases st with
  | test =>
    rw [inv.right_iff, compare_iff pos]
    exact (and_iff_right pos).symm
  | _ => exact Iff.rfl

lemma Step.first_test (neg : n.toInt < 0) (inv : Inv ticks0 s) (here : s.pc = .test ∧ s.elapsed = 0)
    (st : Step n ticks0 s e s') : (e.Bounded n ∧ s'.pc = .test ∧ s'.elapsed = 0) ∨ ¬e.Right n := by
  obtain ⟨pc, zero⟩ := here
  cases st with
  | tick free => exact absurd pc free
  | wakeup => exact .inl ⟨trivial, by simp [State.wake, pc], zero⟩
  | kill => exact .inl ⟨trivial, by simp [State.wake, pc], zero⟩
  | resume woken => rw [pc] at woken; cases woken
  | test =>
    right
    rw [inv.right_iff, zero]
    have pos := toNat_pos_of_neg neg
    omega

lemma inv_call {killed : Bool} : Inv ticks0 (call ticks0 killed) := (BitVec.add_zero ticks0).symm

section runs
variable {killed : Bool} {es : List Event} {t : State} (run : Run (Step n ticks0) (call ticks0 killed) es t)
include run

lemma run_inv : Inv ticks0 t := run.invariant inv_call fun inv st => inv.step st

lemma run_right_iff (pos : 0 ≤ n.toInt) : ∀ e ∈ es, (e.Right n ↔ e.Bounded n) := by
  induction run with
  | nil => exact fun e mem => absurd mem List.not_mem_nil
  | snoc run st ih =>
    intro e mem
    obtain before | last := List.mem_append.mp mem
    · exact ih e before
    · rw [List.mem_singleton.mp last]
      exact st.right_iff pos (run_inv run)

lemma run_first_test (neg : n.toInt < 0) :
    ((∀ e ∈ es, e.Bounded n) ∧ t.pc = .test ∧ t.elapsed = 0) ∨ ∃ e ∈ es, ¬e.Right n := by
  induction run with
  | nil => exact .inl ⟨fun e mem => absurd mem List.not_mem_nil, rfl, rfl⟩
  | @snoc es e _ _ run st ih =>
    obtain ⟨none, here⟩ | ⟨e', mem, wrong⟩ := ih
    · obtain ⟨plain, here⟩ | wrong := st.first_test neg (run_inv run) here
      · refine .inl ⟨fun e' mem => ?_, here⟩
        obtain before | last := List.mem_append.mp mem
        · exact none e' before
        · rw [List.mem_singleton.mp last]
          exact plain
      · exact .inr ⟨e, by simp, wrong⟩
    · exact .inr ⟨e', List.mem_append_left _ mem, wrong⟩

end runs

/-- Along any run of ticks, wakeups and kills, every test of the loop does what it should exactly if at every test the argument
is not negative and the counter has not wrapped around to less than the argument. -/
theorem sleep_right_iff (n ticks0 : BitVec 32) (killed : Bool) (es : List Event) (t : State)
    (run : Run (Step n ticks0) (call ticks0 killed) es t) :
    (∀ e ∈ es, e.Right n) ↔ ∀ e ∈ es, e.Bounded n := by
  by_cases pos : 0 ≤ n.toInt
  · exact forall₂_congr (run_right_iff run pos)
  · obtain ⟨none, -⟩ | ⟨e, mem, wrong⟩ := run_first_test run (by omega)
    · refine iff_of_true (fun e mem => ?_) none
      have bounded := none e mem
      cases e with
      | test => exact absurd bounded.1 pos
      | _ => trivial
    · refine iff_of_false (fun right => wrong (right e mem)) fun bounded => ?_
      have bounded := bounded e mem
      cases e with
      | test => exact pos bounded.1
      | _ => exact wrong trivial

/-- The call `sleep(-1)` goes to sleep. -/
theorem sleep_minus_one :
    Run (Step (-1) 0) (call 0 false) [.test 0 false .sleep] ⟨0, false, .asleep, 0⟩ ∧
      ¬Event.Right (-1) (.test 0 false .sleep) :=
  ⟨Run.snoc .nil (Step.test rfl), fun right => absurd (right.1 rfl) (by decide)⟩

/-- The call `sleep(1)` around the end of the counter sleeps, and returns 0 after a tick. -/
theorem sleep_one_wraps :
    Run (Step 1 (-1)) (call (-1) false)
      [.test 0 false .sleep, .tick, .resume, .test 1 false (.ret 0)] ⟨0, false, .returned 0, 1⟩ ∧
    ∀ e ∈ [Event.test 0 false .sleep, .tick, .resume, .test 1 false (.ret 0)], e.Right 1 := by
  have run : Run (Step 1 (-1)) (call (-1) false)
      [.test 0 false .sleep, .tick, .resume, .test 1 false (.ret 0)] ⟨0, false, .returned 0, 1⟩ :=
    (((Run.nil.snoc (.test rfl)).snoc (.tick (by decide))).snoc (.resume rfl)).snoc (.test rfl)
  refine ⟨run, (sleep_right_iff 1 (-1) false _ _ run).mpr fun e mem => ?_⟩
  simp only [List.mem_cons, List.not_mem_nil, or_false] at mem
  obtain rfl | rfl | rfl | rfl := mem
  · exact ⟨by decide, by decide⟩
  · trivial
  · trivial
  · exact ⟨by decide, by decide⟩

end Xv6.Sleep
