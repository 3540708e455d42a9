import Xv6.Sched.Mlfq

/-!
# Slice accounting of the multilevel feedback scheduler

The tests of the two loops of `scheduler` read `ticks_in_curr_slice` and `last_exec`. Here the runs of `Sched.Mlfq` are
recorded with what the two fields stand for: the ticks that found a process running since it entered its queue, and the
clock at its last dispatch. `time_updates` does not increase the one and the dispatch code does not assign the other, so
that both are zero in every state, and a process is accounted for only if nothing would have had to be counted
(`slice_accounting`).
-/

namespace Xv6.Mlfq

open Sched (ProcState Uint)

/-- A state with, for each process, the ticks at which it was running since it entered its queue, and the value of `ticks`
at its last dispatch. -/
structure Recorded where
  sys : State
  ran : Fin NPROC → ℕ
  dispatched : Fin NPROC → Option Uint

/-- The record after a step that leads to `sys`. -/
def Recorded.next (s : Recorded) (e : Event) (sys : State) : Recorded where
  sys := sys
  ran p :=
    match e with
    | .alloc q _ => if q = p then 0 else s.ran p
    | .tick => if (s.sys.procs p).state = .running then s.ran p + 1 else s.ran p
    | _ => if (sys.procs p).queue = (s.sys.procs p).queue then s.ran p else 0
  dispatched p :=
    match e with
    | .alloc q _ => if q = p then none else s.dispatched p
    | .move q => if q = p ∧ (sys.procs p).state = .running then some s.sys.ticks else s.dispatched p
    | _ => s.dispatched p

/-- A step with its record. -/
inductive RecordedStep (s : Recorded) (e : Event) : Recorded → Prop where
  | step {sys} :
    Step s.sys e sys →
    RecordedStep s e (s.next e sys)

def recordedBoot : Recorded := ⟨boot, fun _ => 0, fun _ => none⟩

/-- What the two tests rest on, and what follows: a process that has used up its slice goes to the next queue, and one
that was dispatched within the last 1000 ticks does not go to the queue before. -/
structure Accounted (s : Recorded) (p : Fin NPROC) : Prop where
  slice : (s.sys.procs p).ticks_in_curr_slice = s.ran p
  last : ∀ t, s.dispatched p = some t → (s.sys.procs p).last_exec = t
  expires : (s.sys.procs p).queue ≠ 4 → max_ticks_in_queue (s.sys.procs p).queue ≤ s.ran p →
    (expire (s.sys.procs p)).queue = (s.sys.procs p).queue + 1
  stays : ∀ t, s.dispatched p = some t → s.sys.ticks - t ≤ 1000 →
    (age s.sys.ticks (s.sys.procs p)).queue = (s.sys.procs p).queue

variable {s s' : State} {e : Event} {p : Fin NPROC} {r : Recorded} {es : List Event}

lemma last_exec_step (zero : ∀ p, (s.procs p).last_exec = 0) (st : Step s e s') : ∀ p, (s'.procs p).last_exec = 0 := by
  intro q
  have := zero q
  cases st with
  | tick | allocFail => exact this
  | _ =>
    simp only [State.put, State.allocproc, Function.update_apply, expire, age]
    grind

lemma fields_zero (run : Run RecordedStep recordedBoot es r) :
    Level r.sys ∧ ∀ p, (r.sys.procs p).last_exec = 0 := by
  refine run.invariant (P := fun r => Level r.sys ∧ ∀ p, (r.sys.procs p).last_exec = 0) ?_ ?_
  · exact ⟨fun _ => ⟨rfl, rfl⟩, fun _ => rfl⟩
  · rintro r e _ ⟨L, zero⟩ ⟨st⟩
    exact ⟨L.step st, last_exec_step zero st⟩

/-- In whatever state the scheduler evaluates its tests, a process is accounted for if and only if no tick has found it
running since it entered its queue, and it has not been dispatched last at a time other than 0. -/
theorem slice_accounting (run : Run RecordedStep recordedBoot es r) :
    Accounted r p ↔ r.ran p = 0 ∧ ∀ t, r.dispatched p = some t → t = 0 := by
  obtain ⟨L, zero⟩ := fields_zero run
  obtain ⟨queue, slice⟩ := L p
  constructor
  · intro a
    have ran := a.slice
    rw [slice] at ran
    exact ⟨by omega, fun t eq => (a.last t eq).symm.trans (zero p)⟩
  · rintro ⟨ran, at_⟩
    refine ⟨by rw [slice, ran]; rfl, fun t eq => (zero p).trans (at_ t eq).symm, fun _ used => ?_, fun _ _ _ => ?_⟩
    · rw [queue, ran] at used
      exact absurd used (by decide)
    · rw [age_eq queue]

/-- A process that has just been made runnable is accounted for. -/
theorem slice_accounting_new : ∃ es r, Run RecordedStep recordedBoot es r ∧ (r.sys.procs 0).state = .runnable ∧
    Accounted r 0 := by
  have run : Run RecordedStep recordedBoot [] recordedBoot := .nil
  have run := run.snoc (.step (.alloc (p := 0) rfl)) |>.snoc (.step (.move (p := 0) .fork))
  exact ⟨_, _, run, rfl, (slice_accounting run).mpr ⟨rfl, nofun⟩⟩

/-- A process is dispatched at time 1, a tick finds it running, and it yields: its slice of one tick in queue 0 is used
up, but the fields are zero and it stays in queue 0. -/
theorem slice_not_counted : ∃ es r, Run RecordedStep recordedBoot es r ∧ (r.sys.procs 0).state = .runnable ∧
    (r.sys.procs 0).queue = 0 ∧ r.ran 0 = 1 ∧ (r.sys.procs 0).ticks_in_curr_slice = 0 ∧
    r.dispatched 0 = some 1 ∧ (r.sys.procs 0).last_exec = 0 ∧
    max_ticks_in_queue 0 ≤ r.ran 0 ∧ (expire (r.sys.procs 0)).queue = 0 := by
  have run : Run RecordedStep recordedBoot [] recordedBoot := .nil
  have run := run.snoc (.step (.alloc (p := 0) rfl)) |>.snoc (.step (.move (p := 0) .fork)) |>.snoc (.step .tick)
    |>.snoc (.step (.move (p := 0) .scheduler)) |>.snoc (.step .tick) |>.snoc (.step (.move (p := 0) .yield))
  exact ⟨_, _, run, rfl, rfl, rfl, rfl, rfl, rfl, by decide, rfl⟩

end Xv6.Mlfq
