import Xv6.Params
import Xv6.Lib.Run
import Mathlib.Data.Int.Notation
import Mathlib.Logic.Function.Basic

/-!
# Tracing of system calls

`syscall()` of `kernel/syscall.c`, with `sys_trace` and the part of `fork` about the trace mask. After every call
`syscall()` tests `p->trace_mask >> num`, an arithmetic shift of which the machine uses the five low bits of the
count. So a line is printed whenever a bit at or above the number of the call is set, also for numbers without a
handler, where the tables of names and argument counts are indexed beyond their ends (`trace_selection`). The line is
made of the trapframe after the call, in which the first argument has been replaced by the result, and of tables in which
two names are exchanged and three counts are missing (`trace_content`).
-/

namespace Xv6.Trace

/-- The calls, in the order of their numbers (`syscall.h`). -/
inductive Call where
  | fork | exit | wait | pipe | read | kill | exec | fstat | chdir | dup | getpid | sbrk | sleep | uptime | open | write
  | mknod | unlink | link | mkdir | close | trace | set_priority | waitx
  deriving DecidableEq

/-- The table of handlers; there is none at 0. -/
def syscalls : List (Option Call) :=
  [none, some .fork, some .exit, some .wait, some .pipe, some .read, some .kill, some .exec, some .fstat, some .chdir,
    some .dup, some .getpid, some .sbrk, some .sleep, some .uptime, some .open, some .write, some .mknod, some .unlink,
    some .link, some .mkdir, some .close, some .trace, some .set_priority, some .waitx]

def syscall_names : List String :=
  ["none", "fork", "exit", "wait", "pipe", "read", "kill", "exec", "fstat", "chdir", "dup", "getpid", "sbrk", "sleep",
    "uptime", "open", "write", "mknod", "unlink", "link", "mkdir", "close", "trace", "waitx", "set_priority"]

/-- The numbers of arguments that are printed. -/
def syscall_argc : List ℕ :=
  [0, 0, 1, 1, 1, 3, 1, 2, 2, 1, 1, 0, 1, 1, 0, 2, 3, 3, 1, 2, 1, 1, 0, 0, 0]

/-- The registers `syscall()` reads. -/
structure Trapframe where
  a0 : BitVec 64
  a1 : BitVec 64
  a2 : BitVec 64
  a3 : BitVec 64
  a4 : BitVec 64
  a5 : BitVec 64
  a7 : BitVec 64

/-- `argraw`, which panics for other numbers. -/
def Trapframe.argraw (tf : Trapframe) : ℕ → BitVec 64
  | 0 => tf.a0
  | 1 => tf.a1
  | 2 => tf.a2
  | 3 => tf.a3
  | 4 => tf.a4
  | _ => tf.a5

def Trapframe.argint (tf : Trapframe) (n : ℕ) : BitVec 32 := (tf.argraw n).setWidth 32

def Trapframe.num (tf : Trapframe) : BitVec 32 := tf.a7.setWidth 32

/-- The handler that `syscall()` calls. -/
def handler (num : BitVec 32) : Option Call :=
  if 0 < num.toInt ∧ num.toInt < syscalls.length then (syscalls[num.toNat]?).join else none

/-- A trace line. An index beyond the table of names gives no name. -/
structure Line where
  pid : Int
  name : Option String
  args : List (BitVec 32)
  value : BitVec 32

/-- The end of `syscall()`, with the trapframe after the call. -/
def traceLine (pid : Int) (trace_mask : BitVec 32) (tf : Trapframe) : Option Line :=
  if trace_mask.sshiftRight (tf.num.toNat % 32) ≠ 0#32 then
    some
      { pid := pid
        name := syscall_names[tf.num.toNat]?
        args := (List.range (syscall_argc[tf.num.toNat]?.getD 0)).map tf.argint
        value := tf.a0.setWidth 32 }
  else none

/-- The fields of `struct proc` about tracing. -/
structure Proc where
  pid : Int
  trace_mask : BitVec 32

/-- The process table. -/
abbrev State := Fin NPROC → Proc

/-- What a call is about. -/
inductive Event where
  | trace (p : Fin NPROC) (mask : BitVec 32)
  | fork (p np : Fin NPROC)
  | other (p : Fin NPROC)

def Event.caller : Event → Fin NPROC
  | .trace p _ => p
  | .fork p _ => p
  | .other p => p

/-- A call that has returned: what it is about, its number and the line that is printed. -/
structure Record where
  event : Event
  num : BitVec 32
  line : Option Line

/-- The trapframe after a call that returns `ret`. -/
def Trapframe.ret (tf : Trapframe) (ret : BitVec 64) : Trapframe := { tf with a0 := ret }

/-- The trapframe after a call that returns `ret`; `exec` leaves the address of the arguments of the program in `a1`. -/
inductive Returns (tf : Trapframe) (ret : BitVec 64) : Call → Trapframe → Prop where
  | most {c} : c ≠ .exit → Returns tf ret c (tf.ret ret)
  | exec {sp} : Returns tf ret .exec { tf.ret ret with a1 := sp }

/-- A system call that returns. -/
inductive Step (s : State) : Record → State → Prop where
  | trace {p} {tf : Trapframe} :
    handler tf.num = some .trace →
    Step s ⟨.trace p (tf.argint 0), tf.num, traceLine (s p).pid (tf.argint 0) (tf.ret 0)⟩
      (Function.update s p { s p with trace_mask := tf.argint 0 })
  -- a `fork` that succeeds; the slot of the child was unused
  | fork {p np} {tf : Trapframe} {pid} :
    np ≠ p →
    handler tf.num = some .fork →
    Step s ⟨.fork p np, tf.num, traceLine (s p).pid (s p).trace_mask (tf.ret (BitVec.ofInt 64 pid))⟩
      (Function.update s np ⟨pid, (s p).trace_mask⟩)
  -- the other calls, and a `fork` that fails
  | other {p} {tf tf' : Trapframe} {c ret} :
    handler tf.num = some c →
    c ≠ .trace →
    Returns tf ret c tf' →
    Step s ⟨.other p, tf.num, traceLine (s p).pid (s p).trace_mask tf'⟩ s
  | unknown {p} {tf : Trapframe} :
    handler tf.num = none →
    Step s ⟨.other p, tf.num, traceLine (s p).pid (s p).trace_mask (tf.ret (-1))⟩ s

def boot : State := fun _ => ⟨0, 0⟩

/-- The mask that a process has given to `trace` last, or inherited from its parent. The latest call is the first of
the list. -/
def given (p : Fin NPROC) : List Event → BitVec 32
  | [] => 0
  | .trace q mask :: es => if q = p then mask else given p es
  | .fork q np :: es => if np = p then given q es else given p es
  | .other _ :: es => given p es

/-- The calls for which the test of `syscall()` is right: with a handler, the bit of the call is set or none above it
is; without one, no bit is set from the position on that the shift uses. -/
def Exact (mask num : BitVec 32) : Prop :=
  if (handler num).isSome then mask.getLsbD num.toNat ∨ ∀ i, num.toNat < i → mask.getLsbD i = false
  else ∀ i, num.toNat % 32 ≤ i → mask.getLsbD i = false

variable {s s' : State} {mask num : BitVec 32} {r : Record} {rs : List Record} {tf tf' : Trapframe} {c : Call}
  {ret : BitVec 64}

lemma num_lt (h : (handler num).isSome) : num.toNat < 32 := by
  unfold handler at h
  split at h
  · rename_i bounds
    have len : syscalls.length = 25 := rfl
    rw [len, BitVec.toInt] at bounds
    split at bounds <;> omega
  · simp at h

lemma sshiftRight_eq_zero {k : ℕ} (lt : k < 32) :
    mask.sshiftRight k = 0#32 ↔ ∀ i, k ≤ i → mask.getLsbD i = false := by
  constructor
  · intro zero i le
    by_cases li : i < 32
    · have bit := congrArg (BitVec.getLsbD · (i - k)) zero
      simp only [BitVec.getLsbD_sshiftRight, BitVec.getLsbD_zero] at bit
      rw [if_pos (by omega), show k + (i - k) = i by omega] at bit
      simpa [show ¬ 32 ≤ i - k by omega] using bit
    · exact BitVec.getLsbD_of_ge mask i (by omega)
  · intro all
    apply BitVec.eq_of_getLsbD_eq
    intro i li
    rw [BitVec.getLsbD_sshiftRight, BitVec.getLsbD_zero]
    split
    · rw [all _ (Nat.le_add_right k i), Bool.and_false]
    · rw [BitVec.msb_eq_getLsbD_last, all 31 (by omega), Bool.and_false]

lemma traceLine_exact {pid : Int} {tf : Trapframe} :
    ((traceLine pid mask tf).isSome ↔ (handler tf.num).isSome ∧ mask.getLsbD tf.num.toNat) ↔ Exact mask tf.num := by
  have mod : tf.num.toNat % 32 < 32 := Nat.mod_lt _ (by decide)
  have prints : (traceLine pid mask tf).isSome ↔ ¬∀ i, tf.num.toNat % 32 ≤ i → mask.getLsbD i = false := by
    rw [← sshiftRight_eq_zero mod]
    unfold traceLine
    split <;> simp_all
  rw [prints, Exact]
  split
  · rename_i valid
    rw [Nat.mod_eq_of_lt (num_lt valid)]
    by_cases bit : mask.getLsbD tf.num.toNat
    · have some : ¬∀ i, tf.num.toNat ≤ i → mask.getLsbD i = false := fun all => by simp [all _ (Nat.le_refl _)] at bit
      simp [bit, valid, some]
    · simp only [bit, and_false, iff_false, not_not, Bool.false_eq_true, false_or]
      refine ⟨fun all i lt => all i (Nat.le_of_lt lt), fun above i le => ?_⟩
      rcases Nat.eq_or_lt_of_le le with rfl | lt
      · simpa using bit
      · exact above i lt
  · rename_i invalid
    simp [invalid]

lemma mask_eq (run : Run Step boot rs s) (p : Fin NPROC) :
    (s p).trace_mask = given p (rs.map Record.event).reverse := by
  induction run generalizing p with
  | nil => rfl
  | snoc _ st ih =>
    rw [List.map_append, List.map_singleton, List.reverse_append]
    cases st with
    | @trace q tf =>
      by_cases eq : q = p
      · subst eq
        simp [given]
      · simp [given, eq, Function.update_of_ne (Ne.symm eq), ih]
    | @fork q np tf pid =>
      by_cases eq : np = p
      · subst eq
        simp [given, ih]
      · simp [given, eq, Function.update_of_ne (Ne.symm eq), ih]
    | other => simpa [given] using ih p
    | unknown => simpa [given] using ih p

lemma Returns.num_eq (h : Returns tf ret c tf') : tf'.num = tf.num := by
  cases h with
  | most => rfl
  | exec => rfl

lemma Step.line (st : Step s r s') :
    ∃ pid tf, r.num = tf.num ∧ r.line = traceLine pid (s' r.event.caller).trace_mask tf := by
  cases st with
  | @trace p tf => exact ⟨(s p).pid, tf.ret 0, rfl, by simp [Event.caller]⟩
  | @fork p np tf pid ne =>
    exact ⟨(s p).pid, tf.ret (BitVec.ofInt 64 pid), rfl, by simp [Event.caller, Function.update_of_ne (Ne.symm ne)]⟩
  | @other p tf tf' c ret _ _ returns => exact ⟨(s p).pid, tf', returns.num_eq.symm, rfl⟩
  | @unknown p tf => exact ⟨(s p).pid, tf.ret (-1), rfl, rfl⟩

/-- After every call of every run, a line is printed exactly if the number has a handler and its bit of the mask given
to the caller is set, if and only if the call is one for which the test is right. -/
theorem trace_selection (run : Run Step boot rs s) (st : Step s r s') :
    (r.line.isSome ↔ (handler r.num).isSome ∧
      (given r.event.caller ((rs ++ [r]).map Record.event).reverse).getLsbD r.num.toNat) ↔
    Exact (given r.event.caller ((rs ++ [r]).map Record.event).reverse) r.num := by
  obtain ⟨pid, tf, num, line⟩ := st.line
  rw [← mask_eq (run.snoc st), num, line]
  exact traceLine_exact

/-- A trapframe with a number and a first argument. -/
def Trapframe.of (num arg : BitVec 64) : Trapframe := ⟨arg, 0, 0, 0, 0, 0, num⟩

/-- A process that traces `kill` gets a line for a `kill`. -/
theorem trace_selection_kill :
    ∃ rs s, Run Step boot rs s ∧ ∃ r s', Step s r s' ∧ r.num = 6 ∧ Exact 64 6 ∧ r.line.isSome := by
  have run := Run.nil.snoc (@Step.trace boot 0 (.of 22 64) (by decide))
  have st := @Step.other (Function.update boot 0 { boot 0 with trace_mask := 64 }) 0 (.of 6 0) _ .kill 0
    (by decide) (by decide) (.most (by decide))
  have exact : Exact 64 6 := by
    rw [Exact, if_pos (by decide)]
    exact .inl (by decide)
  exact ⟨_, _, run, _, _, st, rfl, exact, ((trace_selection run st).mpr exact).mpr (by decide)⟩

/-- A process that traces `kill` gets a line for `read`, whose bit is not set, and one for number 33, which has no handler
and is beyond the table of names. -/
theorem trace_selection_fails :
    ∃ rs s, Run Step boot rs s ∧
      (∃ r s', Step s r s' ∧ r.num = 5 ∧ r.line.isSome ∧
        (given r.event.caller ((rs ++ [r]).map Record.event).reverse).getLsbD 5 = false) ∧
      ∃ r s', Step s r s' ∧ r.num = 33 ∧ handler 33 = none ∧ ∃ l, r.line = some l ∧ l.name = none := by
  have run := Run.nil.snoc (@Step.trace boot 0 (.of 22 64) (by decide))
  have read := @Step.other (Function.update boot 0 { boot 0 with trace_mask := 64 }) 0 (.of 5 0) _ .read 0
    (by decide) (by decide) (.most (by decide))
  have beyond := @Step.unknown (Function.update boot 0 { boot 0 with trace_mask := 64 }) 0 (.of 33 0) (by decide)
  exact ⟨_, _, run, ⟨_, _, read, rfl, by decide, by decide⟩, _, _, beyond, rfl, by decide, _, rfl, by decide⟩

/-! ### What a line shows -/

/-- The numbers of the calls (`syscall.h`). -/
def Call.number : Call → ℕ
  | .fork => 1
  | .exit => 2
  | .wait => 3
  | .pipe => 4
  | .read => 5
  | .kill => 6
  | .exec => 7
  | .fstat => 8
  | .chdir => 9
  | .dup => 10
  | .getpid => 11
  | .sbrk => 12
  | .sleep => 13
  | .uptime => 14
  | .open => 15
  | .write => 16
  | .mknod => 17
  | .unlink => 18
  | .link => 19
  | .mkdir => 20
  | .close => 21
  | .trace => 22
  | .set_priority => 23
  | .waitx => 24

/-- The names of the calls (`syscall.h`). -/
def Call.name : Call → String
  | .fork => "fork"
  | .exit => "exit"
  | .wait => "wait"
  | .pipe => "pipe"
  | .read => "read"
  | .kill => "kill"
  | .exec => "exec"
  | .fstat => "fstat"
  | .chdir => "chdir"
  | .dup => "dup"
  | .getpid => "getpid"
  | .sbrk => "sbrk"
  | .sleep => "sleep"
  | .uptime => "uptime"
  | .open => "open"
  | .write => "write"
  | .mknod => "mknod"
  | .unlink => "unlink"
  | .link => "link"
  | .mkdir => "mkdir"
  | .close => "close"
  | .trace => "trace"
  | .set_priority => "set_priority"
  | .waitx => "waitx"

/-- The numbers of arguments that the handlers read. -/
def Call.argc : Call → ℕ
  | .fork | .getpid | .uptime => 0
  | .exit | .wait | .pipe | .kill | .chdir | .dup | .sbrk | .sleep | .unlink | .mkdir | .close | .trace => 1
  | .exec | .fstat | .open | .link | .set_priority => 2
  | .read | .write | .mknod | .waitx => 3

lemma handler_number (valid : handler num = some c) : num.toNat = c.number := by
  have table : ∀ n, n < 25 → (syscalls[n]?).join.all fun c => n = c.number := by decide
  unfold handler at valid
  split at valid
  · rename_i bounds
    have lt : num.toNat < 25 := by
      by_contra ge
      rw [List.getElem?_eq_none (Nat.le_of_not_lt ge)] at valid
      cases valid
    have here := table _ lt
    rw [valid] at here
    simpa using here
  · cases valid

lemma names_eq : syscall_names[c.number]? = some c.name ↔ c ≠ .set_priority ∧ c ≠ .waitx := by
  cases c <;> decide

lemma argc_eq : syscall_argc[c.number]?.getD 0 = if c = .trace ∨ c = .set_priority ∨ c = .waitx then 0 else c.argc := by
  cases c <;> rfl

lemma Returns.argint (h : Returns tf ret c tf') {i : ℕ} (first : i ≠ 0) (exec : c = .exec → i ≠ 1) :
    tf'.argint i = tf.argint i := by
  cases h with
  | most => match i, first with | i + 1, _ => match i with | 0 | 1 | 2 | 3 | _ + 4 => rfl
  | exec => match i, first, exec rfl with | i + 2, _, _ => match i with | 0 | 1 | 2 | _ + 3 => rfl

lemma Returns.argint_zero (h : Returns tf ret c tf') : tf'.argint 0 = ret.setWidth 32 := by
  cases h with
  | most => rfl
  | exec => rfl

/-- The line shows the call: its name, its arguments and its result. -/
structure Shows (c : Call) (tf : Trapframe) (ret : BitVec 64) (l : Line) : Prop where
  name : l.name = some c.name
  args : l.args = (List.range c.argc).map tf.argint
  value : l.value = ret.setWidth 32

lemma line_eq {pid : Int} {l : Line} (valid : handler tf.num = some c) (returns : Returns tf ret c tf')
    (printed : traceLine pid mask tf' = some l) :
    l = ⟨pid, syscall_names[c.number]?, (List.range (syscall_argc[c.number]?.getD 0)).map tf'.argint, tf'.argint 0⟩ := by
  have num : tf'.num.toNat = c.number := by rw [returns.num_eq, handler_number valid]
  unfold traceLine at printed
  split at printed
  · rw [num] at printed
    exact (Option.some.inj printed).symm
  · cases printed

/-- Whenever a line is printed after a call has returned, it shows the call if and only if the call is not one of the last
three, its result is its first argument if it has one, and `exec` has left its second argument. -/
theorem trace_content {pid : Int} {l : Line} (valid : handler tf.num = some c) (returns : Returns tf ret c tf')
    (printed : traceLine pid mask tf' = some l) :
    Shows c tf ret l ↔ c ≠ .trace ∧ c ≠ .set_priority ∧ c ≠ .waitx ∧ (0 < c.argc → ret.setWidth 32 = tf.argint 0) ∧
      (c = .exec → tf'.argint 1 = tf.argint 1) := by
  obtain rfl := line_eq valid returns printed
  constructor
  · rintro ⟨name, args, -⟩
    obtain ⟨np, nw⟩ := names_eq.1 name
    have nt : c ≠ .trace := by
      rintro rfl
      simp [argc_eq, Call.argc] at args
    rw [argc_eq, if_neg (by simp [nt, np, nw]), List.map_inj_left] at args
    refine ⟨nt, np, nw, fun pos => ?_, fun exec => args 1 (by simp [exec, Call.argc])⟩
    rw [← returns.argint_zero]
    exact args 0 (List.mem_range.2 pos)
  · rintro ⟨nt, np, nw, first, exec⟩
    refine ⟨names_eq.2 ⟨np, nw⟩, ?_, returns.argint_zero⟩
    rw [argc_eq, if_neg (by simp [nt, np, nw]), List.map_inj_left]
    intro i mem
    by_cases zero : i = 0
    · subst zero
      rw [returns.argint_zero, first (List.mem_range.1 mem)]
    · by_cases one : c = .exec ∧ i = 1
      · rw [one.2, exec one.1]
      · exact returns.argint zero fun eq eq' => one ⟨eq, eq'⟩

/-- A process that traces everything gets a line that shows `getpid`. -/
theorem trace_content_getpid : ∃ l, traceLine 3 (-1) ((Trapframe.of 11 0).ret 3) = some l ∧ Shows .getpid (.of 11 0) 3 l := by
  have printed : traceLine 3 (-1) ((Trapframe.of 11 0).ret 3) = some _ := if_pos (by decide)
  refine ⟨_, printed, (trace_content (by decide) (.most (by decide)) printed).2 ?_⟩
  exact ⟨by decide, by decide, by decide, by decide, by decide⟩

/-- The line for `kill` of process 7 shows the result 0 as its argument, and that of `set_priority` the name `waitx` and no
arguments. -/
theorem trace_content_fails :
    (∃ l, handler (Trapframe.of 6 7).num = some .kill ∧ Returns (.of 6 7) 0 .kill ((Trapframe.of 6 7).ret 0) ∧
      traceLine 3 (-1) ((Trapframe.of 6 7).ret 0) = some l ∧ l.args = [0] ∧ ¬Shows .kill (.of 6 7) 0 l) ∧
    ∃ l, handler (Trapframe.of 23 60).num = some .set_priority ∧
      Returns (.of 23 60) 60 .set_priority ((Trapframe.of 23 60).ret 60) ∧
      traceLine 3 (-1) ((Trapframe.of 23 60).ret 60) = some l ∧ l.name = some "waitx" ∧ l.args = [] := by
  refine ⟨⟨_, by decide, .most (by decide), if_pos (by decide), by decide, fun shows => ?_⟩,
    _, by decide, .most (by decide), if_pos (by decide), by decide, by decide⟩
  exact absurd shows.args (by decide)

end Xv6.Trace
