import Xv6.Sched.Pbs

/-!
# Priorities and times in the priority-based build

The fields of a process that the build `PBS` keeps for its priority, over whole runs: `allocproc`, `time_updates`,
the comparison and the dispatch of `scheduler`, `set_priority` and `waitx`. Each slot has beside it the
numbers of visits of `time_updates` that found it sleeping or running since its last dispatch, and running over
its life. A section under the lock of a slot is one step. The `release` after the scan, which is of a word that
is no lock, is taken to give back the lock of the process that has run: what it does to the locks is the subject
of `Xv6.Sched.Pbs`.
-/

namespace Xv6.Priority

open Sched (ProcState Uint)
open Pbs (Proc clamp dynamicPriority)

/-- Whether a process is dispatched: not, or it runs, or it is on its way from `sched` back to the scheduler. -/
inductive Place where
  | off | on | leaving
  deriving DecidableEq

/-- A slot, with the visits that found the process sleeping and running since its last dispatch, and running since
its creation. -/
structure Slot where
  proc : Proc
  place : Place
  slept : ℕ
  ran : ℕ
  total : ℕ

/-- A call of `set_priority`: its arguments, the slot its loop is at, and whether that has the number. -/
structure Call where
  new_priority : Int
  pid : Int
  i : ℕ
  found : Bool

/-- The process table, the clock, and the calls of `set_priority` of the processes. -/
structure State where
  slots : Fin NPROC → Slot
  ticks : Uint
  nextpid : Int
  calls : Fin NPROC → Option Call

/-- What happens, with the results of the computations. -/
inductive Event where
  | alloc (p : Fin NPROC)
  | ready (p : Fin NPROC)
  | free (p : Fin NPROC)
  | dispatch (p : Fin NPROC)
  | sched (p : Fin NPROC) (S : ProcState)
  | back (p : Fin NPROC)
  | wakeup (p : Fin NPROC)
  | tick
  | visit (p : Fin NPROC)
  | compare (p h : Fin NPROC) (P H : Proc × Int)
  | look (q : Fin NPROC)
  | set (q p : Fin NPROC) (call : Call) (old : Int)
  | waitx (p : Fin NPROC) (rtime wtime : Uint)

/-- A scheduling decision has left niceness `n` in the slot and computed priority `dp` for it. -/
def Event.Decides (p : Fin NPROC) (n dp : Int) : Event → Prop
  | .compare q h P H => p = q ∧ (P.1.niceness, P.2) = (n, dp) ∨ p = h ∧ (H.1.niceness, H.2) = (n, dp)
  | _ => False

namespace State

variable (s : State)

def put (p : Fin NPROC) (S : Slot) : State :=
  { s with slots := Function.update s.slots p S }

/-- The fields of the process become `P`. -/
def setProc (p : Fin NPROC) (P : Proc) : State :=
  s.put p { s.slots p with proc := P }

def setCall (q : Fin NPROC) (call : Option Call) : State :=
  { s with calls := Function.update s.calls q call }

end State

/-- `allocproc`, with its lock held from the choice of the slot to the end. -/
def allocproc (ticks : Uint) (nextpid : Int) (P : Proc) : Proc :=
  { P with
    state := .used, pid := nextpid, ctime := ticks, etime := 0
    rtime := 0, wtime := 0, niceness := 5, spriority := 60, nrun := 0 }

/-- The visit of `time_updates` to a slot. -/
def visit (S : Slot) : Slot :=
  if S.proc.state = .running then
    { S with proc := { S.proc with rtime := S.proc.rtime + 1 }, ran := S.ran + 1, total := S.total + 1 }
  else if S.proc.state = .sleeping then { S with slept := S.slept + 1 }
  else S

/-- A step of the system. -/
inductive Step (s : State) : Event → State → Prop where
  | alloc {p} :
    (s.slots p).proc.state = .unused →
    Step s (.alloc p)
      { s.put p ⟨allocproc s.ticks s.nextpid (s.slots p).proc, .off, 0, 0, 0⟩ with nextpid := s.nextpid + 1 }
  -- the end of `fork`
  | ready {p} :
    (s.slots p).proc.state = .used →
    Step s (.ready p) (s.setProc p { (s.slots p).proc with state := .runnable })
  -- `freeproc`, in a `fork` that fails or in `wait`
  | free {p} :
    (s.slots p).proc.state = .used ∨ (s.slots p).proc.state = .zombie ∧ (s.slots p).place = .off →
    Step s (.free p) (s.setProc p { (s.slots p).proc with state := .unused, pid := 0 })
  | dispatch {p} :
    (s.slots p).proc.state = .runnable →
    (s.slots p).place = .off →
    Step s (.dispatch p)
      (s.put p
        { s.slots p with
          proc := { (s.slots p).proc with state := .running }, place := .on, slept := 0, ran := 0 })
  -- `yield`, `sleep` or `exit`
  | sched {p S} :
    (s.slots p).place = .on →
    S = .runnable ∨ S = .sleeping ∨ S = .zombie →
    Step s (.sched p S)
      (s.put p
        { s.slots p with
          proc :=
            { (s.slots p).proc with
              state := S, etime := if S = .zombie then s.ticks else (s.slots p).proc.etime }
          place := .leaving })
  | back {p} :
    (s.slots p).place = .leaving →
    Step s (.back p)
      (s.put p
        { s.slots p with
          proc := { (s.slots p).proc with wtime := 0, rtime := 0, nrun := (s.slots p).proc.nrun + 1 }
          place := .off })
  -- `wakeup` or `kill`
  | wakeup {p} :
    (s.slots p).proc.state = .sleeping →
    (s.slots p).place = .off →
    Step s (.wakeup p) (s.setProc p { (s.slots p).proc with state := .runnable })
  | tick :
    Step s .tick { s with ticks := s.ticks + 1 }
  | visit {p} :
    (s.slots p).place ≠ .leaving →
    Step s (.visit p) (s.put p (visit (s.slots p)))
  -- the scan has found `p` runnable, with the candidate `h`
  | compare {p h} :
    (s.slots p).proc.state = .runnable →
    h < p →
    Step s (.compare p h (dynamicPriority (s.slots p).proc) (dynamicPriority (s.slots h).proc))
      ((s.setProc p (dynamicPriority (s.slots p).proc).1).setProc h (dynamicPriority (s.slots h).proc).1)
  | call {q new_priority pid} :
    s.calls q = none →
    Step s (.look q) (s.setCall q (some ⟨new_priority, pid, 0, false⟩))
  -- the loop reads the number of a slot without its lock
  | look {q call} :
    s.calls q = some call →
    call.found = false →
    (lt : call.i < NPROC) →
    (s.slots ⟨call.i, lt⟩).proc.pid ≠ call.pid →
    Step s (.look q) (s.setCall q (some { call with i := call.i + 1 }))
  | found {q call} :
    s.calls q = some call →
    call.found = false →
    (lt : call.i < NPROC) →
    (s.slots ⟨call.i, lt⟩).proc.pid = call.pid →
    Step s (.look q) (s.setCall q (some { call with found := true }))
  | missing {q call} :
    s.calls q = some call →
    call.found = false →
    call.i = NPROC →
    Step s (.look q) (s.setCall q none)
  | set {q p call} :
    s.calls q = some call →
    call.found = true →
    call.i = p.val →
    (s.slots p).place ≠ .leaving →
    Step s (.set q p call (s.slots p).proc.spriority)
      ((s.setProc p { (s.slots p).proc with spriority := call.new_priority, niceness := 5 }).setCall q none)
  | waitx {p} :
    (s.slots p).proc.state = .zombie →
    (s.slots p).place = .off →
    Step s (.waitx p (s.slots p).proc.rtime
      ((s.slots p).proc.etime - (s.slots p).proc.ctime - (s.slots p).proc.rtime)) s

def emptySlot : Slot := ⟨⟨.unused, 0, 0, 0, 0, 0, 0, 0, 0⟩, .off, 0, 0, 0⟩

def boot : State where
  slots _ := emptySlot
  ticks := 0
  nextpid := 1
  calls _ := none

/-- The niceness of a process that has slept and run for a number of ticks since its last dispatch. -/
def niceness (slept ran : ℕ) : ℕ :=
  if slept + ran = 0 then 5 else 10 * slept / (slept + ran)

/-- What the fields of a slot say: `wtime` counts nothing, and `rtime` the visits of a dispatched process. -/
structure Slot.Ok (S : Slot) : Prop where
  wtime : S.proc.wtime = 0
  off : S.place = .off → S.proc.rtime = 0
  disp : S.place ≠ .off → S.proc.rtime = BitVec.ofNat 32 S.ran ∧ S.slept = 0
  on : S.place = .on ↔ S.proc.state = .running
  used : S.proc.state = .unused ∨ S.proc.state = .used → S.place = .off

variable {s s' t : State} {e : Event} {p : Fin NPROC} {n dp : Int} {es : List Event}

lemma Slot.Ok.visit {S : Slot} (ok : S.Ok) (nl : S.place ≠ .leaving) : (visit S).Ok := by
  obtain ⟨wtime, off, disp, on, used⟩ := ok
  unfold Priority.visit
  split
  · have here : S.place = .on := on.mpr ‹_›
    have ⟨rtime, slept⟩ := disp (by simp [here])
    exact ⟨wtime, by simp [here], fun _ => ⟨by simp [rtime, BitVec.ofNat_add], slept⟩, on, used⟩
  · split
    · have here : S.place = .off := by cases h : S.place <;> simp_all
      exact ⟨wtime, off, by simp [here], on, used⟩
    · exact ⟨wtime, off, disp, on, used⟩

lemma ok_step (ok : ∀ p, (s.slots p).Ok) (st : Step s e s') (r : Fin NPROC) : (s'.slots r).Ok := by
  obtain ⟨wtime, off, disp, on, used⟩ := ok r
  have old := ok r
  cases st with
  | @alloc p =>
    simp only [State.put, Function.update_apply]
    split
    · subst r
      exact ⟨rfl, fun _ => rfl, by simp, by simp [allocproc], by simp⟩
    · exact old
  | @visit p nl =>
    simp only [State.put, Function.update_apply]
    split
    · subst r
      exact old.visit nl
    · exact old
  | tick | call | look | found | missing | waitx => exact old
  | _ =>
    simp only [State.put, State.setProc, State.setCall, Function.update_apply]
    constructor <;> grind [dynamicPriority]

lemma ok_run (run : Run Step boot es s) (p : Fin NPROC) : (s.slots p).Ok := by
  have ok : ∀ p, (s.slots p).Ok := by
    refine run.invariant (fun p => ?_) (fun ok st => ok_step ok st)
    exact ⟨rfl, fun _ => rfl, by simp [boot, emptySlot], by simp [boot, emptySlot], fun _ => rfl⟩
  exact ok p

lemma Slot.Ok.nice {S : Slot} (ok : S.Ok) : S.proc.nice = if S.proc.rtime = 0 then 5 else 0 := by
  simp [Pbs.Proc.nice, ok.wtime]

lemma Step.decides (st : Step s e s') (d : e.Decides p n dp) :
    n = (s.slots p).proc.nice ∧ dp = clamp 60 n := by
  cases st with
  | compare =>
    rcases d with ⟨rfl, eq⟩ | ⟨rfl, eq⟩ <;> · cases eq; exact ⟨rfl, rfl⟩
  | _ => exact d.elim

/-- A niceness of 5 is that of a process that has slept for half of the time, or for none of none. -/
lemma niceness_eq_five {a b : ℕ} :
    niceness a b = 5 ↔ a + b = 0 ∨ 5 * (a + b) ≤ 10 * a ∧ 10 * a < 6 * (a + b) := by
  unfold niceness
  split
  · simp [*]
  · rw [Nat.div_eq_iff (by omega)]
    omega

lemma niceness_zero {b : ℕ} : niceness 0 b = if b = 0 then 5 else 0 := by
  simp [niceness]

/-- The niceness of a decision is the one that the sleeps and runs since the last dispatch give if and only if the
process is dispatched and has not run for a positive multiple of 2 ^ 32 ticks, or it is not dispatched and
has neither slept nor run, or has slept for at least five and less than six tenths of that time. -/
theorem niceness_exact (run : Run Step boot es s) (st : Step s e s') (d : e.Decides p n dp) :
    n = niceness (s.slots p).slept (s.slots p).ran ↔
      if (s.slots p).place = .off then
        (s.slots p).slept + (s.slots p).ran = 0 ∨
          5 * ((s.slots p).slept + (s.slots p).ran) ≤ 10 * (s.slots p).slept ∧
            10 * (s.slots p).slept < 6 * ((s.slots p).slept + (s.slots p).ran)
      else (s.slots p).ran = 0 ∨ ¬ 2 ^ 32 ∣ (s.slots p).ran := by
  have ok := ok_run run p
  rw [(st.decides d).1, ok.nice]
  generalize s.slots p = S at ok
  by_cases off : S.place = .off
  · rw [if_pos off, if_pos (ok.off off), ← niceness_eq_five]
    omega
  · obtain ⟨rtime, slept⟩ := ok.disp off
    have zero : (BitVec.ofNat 32 S.ran = 0) ↔ 2 ^ 32 ∣ S.ran := by
      rw [← BitVec.toNat_inj, BitVec.toNat_ofNat, Nat.dvd_iff_mod_eq_zero]
      rfl
    rw [if_neg off, rtime, slept, niceness_zero]
    simp only [zero]
    grind

/-- Two new processes are compared, and nothing has happened to the second one. -/
theorem niceness_exact_new :
    ∃ es s e s' dp, Run Step boot es s ∧ Step s e s' ∧ e.Decides 1 5 dp ∧
      ((5 : Int) = niceness (s.slots 1).slept (s.slots 1).ran ↔
        if (s.slots 1).place = .off then
          (s.slots 1).slept + (s.slots 1).ran = 0 ∨
            5 * ((s.slots 1).slept + (s.slots 1).ran) ≤ 10 * (s.slots 1).slept ∧
              10 * (s.slots 1).slept < 6 * ((s.slots 1).slept + (s.slots 1).ran)
        else (s.slots 1).ran = 0 ∨ ¬ 2 ^ 32 ∣ (s.slots 1).ran) := by
  have run := Run.nil (R := Step) (s := boot).snoc (.alloc (p := 0) rfl)
  have run := run.snoc (.ready (p := 0) rfl)
  have run := run.snoc (.alloc (p := 1) rfl)
  have run := run.snoc (.ready (p := 1) rfl)
  refine ⟨_, _, _, _, _, run, .compare (p := 1) (h := 0) rfl (by decide), .inl ⟨rfl, rfl⟩, ?_⟩
  exact niceness_exact run (.compare (p := 1) (h := 0) rfl (by decide)) (.inl ⟨rfl, rfl⟩)

/-- A process that has run for a tick since its dispatch, and yielded, is taken to have niceness 5 and not 0. -/
theorem niceness_of_run :
    ∃ es s e s' dp, Run Step boot es s ∧ Step s e s' ∧ e.Decides 1 5 dp ∧
      niceness (s.slots 1).slept (s.slots 1).ran = 0 := by
  have run := Run.nil (R := Step) (s := boot).snoc (.alloc (p := 0) rfl)
  have run := run.snoc (.ready (p := 0) rfl)
  have run := run.snoc (.alloc (p := 1) rfl)
  have run := run.snoc (.ready (p := 1) rfl)
  have run := run.snoc (.dispatch (p := 1) rfl rfl)
  have run := run.snoc (.visit (p := 1) (by decide))
  have run := run.snoc (.sched (p := 1) (S := .runnable) rfl (.inl rfl))
  have run := run.snoc (.back (p := 1) rfl)
  exact ⟨_, _, _, _, _, run, .compare (p := 1) (h := 0) rfl (by decide), .inl ⟨rfl, rfl⟩, rfl⟩

/-- What a step does to the static priority of a process, other than its creation and `set_priority` on it. -/
lemma Step.spriority (st : Step s e s') (na : e ≠ .alloc p) (ns : ∀ q call old, e ≠ .set q p call old) :
    (s'.slots p).proc.spriority = (s.slots p).proc.spriority ∧ (∀ n dp, ¬ e.Decides p n dp) ∨
      (s'.slots p).proc.spriority = 60 ∧ ∃ n dp, e.Decides p n dp := by
  cases st with
  | @compare q h =>
    by_cases eq : p = q ∨ p = h
    · refine .inr ⟨?_, ?_⟩
      · simp only [State.setProc, State.put, Function.update_apply, dynamicPriority]
        grind
      · rcases eq with rfl | rfl
        · exact ⟨_, _, .inl ⟨rfl, rfl⟩⟩
        · exact ⟨_, _, .inr ⟨rfl, rfl⟩⟩
    · rw [not_or] at eq
      refine .inl ⟨?_, ?_⟩
      · simp [State.setProc, State.put, eq]
      · rintro n dp (⟨rfl, _⟩ | ⟨rfl, _⟩)
        · exact eq.1 rfl
        · exact eq.2 rfl
  | @alloc q =>
    have ne : p ≠ q := fun h => na (by rw [h])
    exact .inl ⟨by simp [State.put, ne], fun _ _ h => h⟩
  | @set q r call =>
    have ne : p ≠ r := fun h => ns _ _ _ (by rw [h])
    exact .inl ⟨by simp [State.setCall, State.setProc, State.put, ne], fun _ _ h => h⟩
  | visit =>
    refine .inl ⟨?_, fun _ _ h => h⟩
    simp only [State.put, Function.update_apply]
    grind [Priority.visit]
  | tick | call | look | found | missing | waitx => exact .inl ⟨rfl, fun _ _ h => h⟩
  | _ =>
    refine .inl ⟨?_, fun _ _ h => h⟩
    simp only [State.setProc, State.put, Function.update_apply]
    grind

/-- The call of `set_priority` on the second process, when it has found it. -/
def second (new_priority : Int) : Call := ⟨new_priority, 2, 1, true⟩

/-- The first process runs in user mode, and two other ones, the second one of number 2, are ready. -/
structure Ready (s : State) (spriority : Int) : Prop where
  call : s.calls 0 = none
  first : (s.slots 0).proc.pid ≠ 2
  pid : (s.slots 1).proc.pid = 2
  place : (s.slots 1).place ≠ .leaving
  spriority : (s.slots 1).proc.spriority = spriority
  nice : (s.slots 1).proc.nice = 5
  third : (s.slots 2).proc.state = .runnable

lemma ready : ∃ es s, Run Step boot es s ∧ Ready s 60 := by
  have run := Run.nil (R := Step) (s := boot).snoc (.alloc (p := 0) rfl)
  have run := run.snoc (.ready (p := 0) rfl)
  have run := run.snoc (.alloc (p := 1) rfl)
  have run := run.snoc (.ready (p := 1) rfl)
  have run := run.snoc (.alloc (p := 2) rfl)
  have run := run.snoc (.ready (p := 2) rfl)
  have run := run.snoc (.dispatch (p := 0) rfl rfl)
  exact ⟨_, _, run, rfl, by decide, rfl, by decide, rfl, rfl, rfl⟩

lemma State.setCall_calls {q call} : (s.setCall q call).calls q = call := Function.update_self _ _ _

lemma State.setCall_setCall {q call call'} : (s.setCall q call).setCall q call' = s.setCall q call' := by
  simp [State.setCall]

lemma Ready.find {sp} (h : Ready s sp) (np : Int) :
    Run Step s [.look 0, .look 0, .look 0] (s.setCall 0 (some (second np))) := by
  have run := Run.nil.snoc (@Step.call s 0 np 2 h.call)
  have run := run.snoc (.look State.setCall_calls rfl (Nat.zero_lt_succ _) h.first)
  rw [State.setCall_setCall] at run
  have run := run.snoc (.found State.setCall_calls rfl (Nat.one_lt_succ_succ _) h.pid)
  rw [State.setCall_setCall] at run
  exact run

lemma Ready.set {sp} (h : Ready s sp) (np : Int) :
    ∃ s', Step (s.setCall 0 (some (second np))) (.set 0 1 (second np) sp) s' ∧ Ready s' np := by
  have st := Step.set (s := s.setCall 0 (some (second np))) (q := 0) (p := 1) State.setCall_calls rfl rfl h.place
  have old : ((s.setCall 0 (some (second np))).slots 1).proc.spriority = sp := h.spriority
  rw [old] at st
  exact ⟨_, st, State.setCall_calls, h.first, h.pid, h.place, rfl, h.nice, h.third⟩

lemma Ready.compare {sp} (h : Ready s sp) :
    ∃ e t, Step s e t ∧ e.Decides 1 5 60 ∧ Ready t 60 := by
  refine ⟨_, _, .compare (p := 2) (h := 1) h.third (by decide), .inr ⟨rfl, ?_⟩, ?_⟩
  · simp [dynamicPriority, h.nice, clamp]
  · exact ⟨h.call, h.first, h.pid, h.place, rfl, h.nice, h.third⟩

/-- The time that `waitx` reports is the total of the visits that found the process running if and only if there was
none. -/
theorem waitx_total {rtime wtime} (run : Run Step boot es s) (st : Step s (.waitx p rtime wtime) s') :
    rtime.toNat = (s.slots p).total ↔ (s.slots p).total = 0 := by
  cases st with
  | waitx _ off =>
    rw [(ok_run run p).off off]
    exact eq_comm

/-- A process exits before the clock finds it running. -/
theorem waitx_total_none :
    ∃ es s rtime wtime s', Run Step boot es s ∧ Step s (.waitx 0 rtime wtime) s' ∧
      (rtime.toNat = (s.slots 0).total ↔ (s.slots 0).total = 0) := by
  have run := Run.nil (R := Step) (s := boot).snoc (.alloc (p := 0) rfl)
  have run := run.snoc (.ready (p := 0) rfl)
  have run := run.snoc (.dispatch (p := 0) rfl rfl)
  have run := run.snoc (.sched (p := 0) (S := .zombie) rfl (.inr (.inr rfl)))
  have run := run.snoc (.back (p := 0) rfl)
  exact ⟨_, _, _, _, _, run, .waitx (p := 0) rfl rfl, waitx_total run (.waitx (p := 0) rfl rfl)⟩

/-- The clock finds a process running once before it exits, and `waitx` reports 0. -/
theorem waitx_reports_zero :
    ∃ es s wtime s', Run Step boot es s ∧ Step s (.waitx 0 0 wtime) s' ∧ (s.slots 0).total = 1 := by
  have run := Run.nil (R := Step) (s := boot).snoc (.alloc (p := 0) rfl)
  have run := run.snoc (.ready (p := 0) rfl)
  have run := run.snoc (.dispatch (p := 0) rfl rfl)
  have run := run.snoc (.visit (p := 0) (by decide))
  have run := run.snoc (.sched (p := 0) (S := .zombie) rfl (.inr (.inr rfl)))
  have run := run.snoc (.back (p := 0) rfl)
  exact ⟨_, _, _, _, run, .waitx (p := 0) rfl rfl, rfl⟩

end Xv6.Priority
