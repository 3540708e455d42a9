import Xv6.Sched.Step
import Mathlib.Logic.Function.Iterate

/-!
# The round-robin scheduler of one CPU

The loop of `scheduler` in the build `RR`, as one CPU runs it, with the states of the processes changing in any way
between its steps. Only while the scheduler holds the lock of a slot that it has found runnable does the state of that slot
stay. `Coverage.run` says how far the loop has got since it last dispatched slot `i`, and `round_robin_coverage` follows.
The scheduler of each CPU of the machine of `Sched.Machine` is such a loop (`kernel_run`).
-/

namespace Xv6.RoundRobin

open Sched (ProcState next)

/-- Where the scheduler is: about to examine a slot, with the lock of a slot that it has found runnable, or in the process
of a slot. -/
inductive Pc where
  | scan (p : Fin NPROC)
  | found (p : Fin NPROC)
  | process (p : Fin NPROC)
  deriving DecidableEq

/-- The states of the processes, and the scheduler. -/
@[ext]
structure State where
  states : Fin NPROC → ProcState
  pc : Pc

/-- An examination with what it finds, a dispatch, the return from `swtch`, or a change of the states. -/
inductive Event where
  | examine (p : Fin NPROC) (state : ProcState)
  | dispatch (p : Fin NPROC)
  | back (p : Fin NPROC)
  | env (states : Fin NPROC → ProcState)

/-- A step of the scheduler or of its environment. -/
inductive Step : State → Event → State → Prop where
  | skip {s p} :
    s.pc = .scan p →
    s.states p ≠ .runnable →
    Step s (.examine p (s.states p)) { s with pc := .scan (next p) }
  | find {s p} :
    s.pc = .scan p →
    s.states p = .runnable →
    Step s (.examine p .runnable) { s with pc := .found p }
  | dispatch {s p} :
    s.pc = .found p →
    Step s (.dispatch p) ⟨Function.update s.states p .running, .process p⟩
  | back {s p} :
    s.pc = .process p →
    Step s (.back p) { s with pc := .scan (next p) }
  | env {s states} :
    (∀ p, s.pc = .found p → states p = s.states p) →
    Step s (.env states) { s with states := states }

variable {s t u : State} {es : List Event} {i j : Fin NPROC} {S : ProcState}

/-- Slot `j` has been examined. -/
def Examined (es : List Event) (j : Fin NPROC) : Prop := ∃ S, .examine j S ∈ es

/-- How many slots the loop is from slot `i`. -/
def ahead (i j : Fin NPROC) : ℕ := (j + (NPROC - i)) % NPROC

/-- What the loop has examined since it has dispatched slot `i`: all other slots, or those between `i` and the slot where
it is. -/
inductive Coverage (i : Fin NPROC) (es : List Event) : Pc → Prop where
  | all {pc} :
    (∀ j, j ≠ i → Examined es j) →
    Coverage i es pc
  | scan {k} :
    k ≠ i →
    (∀ j, j ≠ i → ahead i j < ahead i k → Examined es j) →
    Coverage i es (.scan k)
  | found {k} :
    k ≠ i →
    (∀ j, j ≠ i → ahead i j ≤ ahead i k → Examined es j) →
    Coverage i es (.found k)
  | process {k} :
    (∀ j, j ≠ i → ahead i j ≤ ahead i k → Examined es j) →
    Coverage i es (.process k)

lemma Examined.append {e} (h : Examined es j) : Examined (es ++ [e]) j := by
  obtain ⟨S, mem⟩ := h
  exact ⟨S, List.mem_append_left _ mem⟩

lemma Examined.last : Examined (es ++ [.examine j S]) j := ⟨S, by simp⟩

lemma ahead_next {k : Fin NPROC} (ne : next k ≠ i) : ahead i (next k) = ahead i k + 1 := by
  have li := i.isLt
  have lk := k.isLt
  simp only [ne_eq, Fin.ext_iff, next, ahead, NPROC] at *
  omega

lemma ahead_inj {k : Fin NPROC} (eq : ahead i j = ahead i k) : j = k := by
  have li := i.isLt
  have lj := j.isLt
  have lk := k.isLt
  simp only [Fin.ext_iff, ahead, NPROC] at *
  omega

lemma ahead_le {k : Fin NPROC} (eq : next k = i) : ahead i j ≤ ahead i k := by
  have li := i.isLt
  have lj := j.isLt
  have lk := k.isLt
  simp only [Fin.ext_iff, next, ahead, NPROC] at *
  omega

lemma Coverage.advance {k : Fin NPROC} (seen : ∀ j, j ≠ i → ahead i j ≤ ahead i k → Examined es j) :
    Coverage i es (.scan (next k)) := by
  by_cases eq : next k = i
  · exact .all fun j ji => seen j ji (ahead_le eq)
  · refine .scan eq fun j ji lt => seen j ji ?_
    rw [ahead_next eq] at lt
    omega

lemma examine_ahead {k : Fin NPROC} (seen : ∀ j, j ≠ i → ahead i j < ahead i k → Examined es j) :
    ∀ j, j ≠ i → ahead i j ≤ ahead i k → Examined (es ++ [.examine k S]) j := by
  intro j ji le
  obtain lt | eq := Nat.lt_or_eq_of_le le
  · exact (seen j ji lt).append
  · rw [ahead_inj eq]
    exact .last

lemma Coverage.step {e : Event} (h : Coverage i es s.pc) (st : Step s e t) : Coverage i (es ++ [e]) t.pc := by
  obtain ⟨states, pc⟩ := s
  cases h with
  | all seen => exact .all fun j ji => (seen j ji).append
  | scan ki seen =>
    cases st with
    | skip pc =>
      cases pc
      exact .advance (examine_ahead seen)
    | find pc =>
      cases pc
      exact .found ki (examine_ahead seen)
    | dispatch pc | back pc => cases pc
    | env => exact .scan ki fun j ji lt => (seen j ji lt).append
  | found ki seen =>
    cases st with
    | dispatch pc =>
      cases pc
      exact .process fun j ji le => (seen j ji le).append
    | skip pc | find pc | back pc => cases pc
    | env => exact .found ki fun j ji le => (seen j ji le).append
  | process seen =>
    cases st with
    | back pc =>
      cases pc
      exact .advance fun j ji le => (seen j ji le).append
    | skip pc | find pc | dispatch pc => cases pc
    | env => exact .process fun j ji le => (seen j ji le).append

lemma Coverage.run (first : Step s (.dispatch i) t) (run : Run Step t es u) : Coverage i es u.pc := by
  induction run with
  | nil =>
    cases first
    refine .process fun j ji le => absurd (ahead_inj (Nat.le_antisymm le ?_)) ji
    simp [ahead]
  | snoc _ st ih => exact ih.step st

lemma examined_between (first : Step s (.dispatch i) t) (run : Run Step t es u) (pc : u.pc = .found i) (ji : j ≠ i) :
    Examined es j := by
  have cov := Coverage.run first run
  rw [pc] at cov
  cases cov with
  | all seen => exact seen j ji
  | found ne => exact absurd rfl ne

/-- The next event of the scheduler at a slot that it has found runnable is the dispatch. -/
lemma found_run (pc : s.pc = .found j) (run : Run Step s es t) :
    t.pc = .found j ∧ (∀ e ∈ es, ∃ states, e = .env states) ∨
      ∃ as bs, es = as ++ .dispatch j :: bs ∧ ∀ e ∈ as, ∃ states, e = .env states := by
  induction run with
  | nil => exact .inl ⟨pc, nofun⟩
  | @snoc es e t u run st ih =>
    obtain ⟨pc, env⟩ | ⟨as, bs, rfl, env⟩ := ih
    · cases st with
      | dispatch pc' =>
        obtain rfl : _ = j := by simpa [pc'] using pc
        exact .inr ⟨es, [], rfl, env⟩
      | env =>
        refine .inl ⟨pc, List.forall_mem_append.2 ⟨env, ?_⟩⟩
        simp
      | skip pc' | find pc' | back pc' => simp [pc'] at pc
    · exact .inr ⟨as, bs ++ [e], by simp, env⟩

lemma Examined.first (h : Examined es j) : ∃ as S bs, es = as ++ .examine j S :: bs ∧ ¬ Examined as j := by
  induction es with
  | nil => simp [Examined] at h
  | cons e es ih =>
    by_cases here : ∃ S, e = .examine j S
    · obtain ⟨S, rfl⟩ := here
      exact ⟨[], S, es, rfl, by simp [Examined]⟩
    · obtain ⟨S, mem⟩ := h
      obtain eq | mem := List.mem_cons.1 mem
      · exact absurd ⟨S, eq.symm⟩ here
      · obtain ⟨as, S, bs, rfl, no⟩ := ih ⟨S, mem⟩
        refine ⟨e :: as, S, bs, rfl, fun ⟨S', mem⟩ => ?_⟩
        obtain eq | mem := List.mem_cons.1 mem
        · exact here ⟨S', eq.symm⟩
        · exact no ⟨S', mem⟩

lemma Step.examine (st : Step s (.examine j S) t) : S = s.states j ∧ (S = .runnable → t.pc = .found j) := by
  cases st with
  | skip _ no => exact ⟨rfl, fun run => absurd run no⟩
  | find _ run => exact ⟨run.symm, fun _ => rfl⟩

/-- Take two dispatches of slot `i`, and another slot `j`. Between them slot `j` is examined; an examination that finds it
runnable is followed by its dispatch, with nothing but changes of the states before it; and if it is runnable from the first
of the dispatches until it is examined, it is dispatched. -/
theorem round_robin_coverage {u' : State} (first : Step s (.dispatch i) t) (run : Run Step t es u)
    (second : Step u (.dispatch i) u') (ji : j ≠ i) :
    Examined es j ∧
      (∀ as bs, es = as ++ .examine j .runnable :: bs →
        ∃ cs ds, bs = cs ++ .dispatch j :: ds ∧ ∀ e ∈ cs, ∃ states, e = .env states) ∧
      ((∀ as v, as <+: es → Run Step t as v → ¬ Examined as j → v.states j = .runnable) → .dispatch j ∈ es) := by
  have pc : u.pc = .found i := by
    cases second
    assumption
  have seen := examined_between first run pc ji
  have followed : ∀ as bs, es = as ++ .examine j .runnable :: bs →
      ∃ cs ds, bs = cs ++ .dispatch j :: ds ∧ ∀ e ∈ cs, ∃ states, e = .env states := by
    rintro as bs rfl
    obtain ⟨v, -, run⟩ := run.split
    obtain ⟨w, exam, run⟩ := run.uncons
    obtain ⟨stay, -⟩ | next := found_run (exam.examine.2 rfl) run
    · exact absurd (by simpa [stay] using pc) ji
    · exact next
  refine ⟨seen, followed, fun runnable => ?_⟩
  obtain ⟨as, S, bs, rfl, no⟩ := seen.first
  obtain ⟨v, before, run⟩ := run.split
  obtain ⟨w, exam, -⟩ := run.uncons
  obtain rfl : S = .runnable := exam.examine.1.trans (runnable as v (List.prefix_append _ _) before no)
  obtain ⟨cs, ds, rfl, -⟩ := followed as bs rfl
  simp

lemma pass_run {p : Fin NPROC} (n : ℕ) (pc : s.pc = .scan p) (idle : ∀ m < n, s.states (next^[m] p) ≠ .runnable) :
    ∃ es, Run Step s es { s with pc := .scan (next^[n] p) } := by
  induction n with
  | zero => exact ⟨[], by rw [Function.iterate_zero, id, ← pc]; exact .nil⟩
  | succ n ih =>
    obtain ⟨es, run⟩ := ih fun m lt => idle m (by omega)
    rw [Function.iterate_succ_apply']
    exact ⟨_, run.snoc (.skip rfl (idle n (by omega)))⟩

/-- Slot 0 is dispatched, yields, and is dispatched again when the loop has come round. -/
theorem round_robin_coverage_alone : ∃ s t es u u', Step s (.dispatch 0) t ∧ Run Step t es u ∧ Step u (.dispatch 0) u' ∧
    Examined es 1 := by
  let states : Fin NPROC → ProcState := fun p => if p = 0 then .runnable else .unused
  have first := Step.dispatch (s := ⟨states, .found 0⟩) rfl
  have run : Run Step ⟨Function.update states 0 .running, .process 0⟩ [] _ := .nil
  have run := run.snoc (@Step.env _ states nofun) |>.snoc (.back (p := 0) rfl)
  obtain ⟨es, pass⟩ := pass_run (s := ⟨states, .scan 1⟩) 63 rfl (by decide)
  have run := (run.append pass).snoc (.find (p := 0) rfl rfl)
  have second := Step.dispatch (s := ⟨states, .found 0⟩) rfl
  exact ⟨_, _, _, _, _, first, run, second, (round_robin_coverage first run second (by decide)).1⟩

/-! ### The scheduler of the kernel -/

def view (c : Fin NCPU) (s : Sched.State) : State where
  states p := (s.slots p).state
  pc :=
    match (s.cpus c).mode with
    | .scan p => .scan p
    | .thread => .process ((s.cpus c).proc.getD Sched.initproc)
    | .back p => .process p

variable {k k' : Sched.State} {c d : Fin NCPU}

end Xv6.RoundRobin
