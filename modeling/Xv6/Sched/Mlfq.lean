import Xv6.Sched.Machine
import Mathlib.Data.Fintype.Card
import Mathlib.Data.Fintype.Option

/-!
# The queues of the multilevel feedback scheduler

The arrays `queues` and `queue_it` of the build `MLFQ`, with `allocproc`, `freeproc` and the two loops of
`scheduler` that move processes between the queues. In these loops, an `else` without an `if` follows the
`acquire`; each of them is read as its `if` alone. `allocproc` appends the new process to queue 0, and nothing
ever removes an entry: the arrays are exact as long as no process is freed (`queues_exact`). Since
`ticks_in_curr_slice` is never increased, no process leaves queue 0.
-/

namespace Xv6.Mlfq

open Sched (ProcState Uint)

def max_ticks_in_queue : Fin 5 → Int
  | 0 => 1
  | 1 => 2
  | 2 => 4
  | 3 => 8
  | 4 => 16

/-- The fields of `struct proc` that say where a process is queued. -/
structure Proc where
  state : ProcState
  queue : Fin 5
  ticks_in_curr_slice : Int
  last_exec : Uint
  deriving DecidableEq

/-- The process table, the clock, the arrays, and the number of entries of each. The word at `NPROC * q + i` is
`queues[q][i]`. -/
structure State where
  procs : Fin NPROC → Proc
  ticks : Uint
  queues : ℕ → Option (Fin NPROC)
  queue_it : Fin 5 → ℕ

/-- The first loop of `scheduler`, at a slot: a process whose slice has expired goes to the next queue. -/
def expire (P : Proc) : Proc :=
  if P.state = .runnable then
    if max_ticks_in_queue P.queue ≤ P.ticks_in_curr_slice then
      if P.queue ≠ 4 then { P with queue := P.queue + 1, ticks_in_curr_slice := 0 } else P
    else P
  else P

/-- The second loop, at a slot: a process that has waited for long goes to the queue before. -/
def age (ticks : Uint) (P : Proc) : Proc :=
  if P.state = .runnable then
    if ticks - P.last_exec > 1000 then
      if P.queue ≠ 0 then { P with queue := P.queue - 1, ticks_in_curr_slice := 0 } else P
    else P
  else P

/-- How the state of a process changes between its creation and its end. -/
inductive Moves : ProcState → ProcState → Prop where
  | fork : Moves .used .runnable
  | scheduler : Moves .runnable .running
  | yield : Moves .running .runnable
  | sleep : Moves .running .sleeping
  | wakeup : Moves .sleeping .runnable
  | exit : Moves .running .zombie

/-- What happens to the table. -/
inductive Event where
  | alloc (p : Fin NPROC) (i : ℕ)
  | allocFail
  | free (p : Fin NPROC)
  | move (p : Fin NPROC)
  | expire (p : Fin NPROC)
  | age (p : Fin NPROC)
  | tick
  deriving DecidableEq

def State.put (s : State) (p : Fin NPROC) (P : Proc) : State :=
  { s with procs := Function.update s.procs p P }

/-- `allocproc`, which appends the new process to queue 0. -/
def State.allocproc (s : State) (p : Fin NPROC) : State where
  procs := Function.update s.procs p { s.procs p with state := .used, queue := 0, ticks_in_curr_slice := 0 }
  ticks := s.ticks
  queues := Function.update s.queues (s.queue_it 0) (some p)
  queue_it := Function.update s.queue_it 0 (s.queue_it 0 + 1)

/-- A step of the system. -/
inductive Step (s : State) : Event → State → Prop where
  -- `allocproc` that returns a process
  | alloc {p} :
    (s.procs p).state = .unused →
    Step s (.alloc p (s.queue_it 0)) (s.allocproc p)
  -- `allocproc` that finds no slot or no memory
  | allocFail :
    Step s .allocFail s
  -- `freeproc`, in a `fork` that fails or in `wait`
  | free {p} :
    (s.procs p).state = .used ∨ (s.procs p).state = .zombie →
    Step s (.free p) (s.put p { s.procs p with state := .unused })
  | move {p S} :
    Moves (s.procs p).state S →
    Step s (.move p) (s.put p { s.procs p with state := S })
  | expire {p} :
    Step s (.expire p) (s.put p (expire (s.procs p)))
  | age {p} :
    Step s (.age p) (s.put p (age s.ticks (s.procs p)))
  | tick :
    Step s .tick { s with ticks := s.ticks + 1 }

def boot : State where
  procs _ := ⟨.unused, 0, 0, 0⟩
  ticks := 0
  queues _ := none
  queue_it _ := 0

def State.entries (s : State) (q : Fin 5) : List (Option (Fin NPROC)) :=
  (List.range (s.queue_it q)).map fun i => s.queues (NPROC * q + i)

/-- The entries of each queue are the processes in it, without duplicates. -/
structure Exact (s : State) : Prop where
  nodup (q) : (s.entries q).Nodup
  mem (q x) : x ∈ s.entries q ↔ ∃ p, x = some p ∧ (s.procs p).state ≠ .unused ∧ (s.procs p).queue = q

/-- A store of `allocproc` is inside of the array. -/
def Event.InBounds : Event → Prop
  | .alloc _ i => i < NPROC
  | _ => True

/-- A process is freed. -/
def Event.Frees : Event → Prop
  | .free _ => True
  | _ => False

/-- Every process is in queue 0, with its slice unused. -/
def Level (s : State) : Prop :=
  ∀ p, (s.procs p).queue = 0 ∧ (s.procs p).ticks_in_curr_slice = 0

variable {s s' : State} {e : Event} {p : Fin NPROC}

lemma expire_eq {P : Proc} (h : P.ticks_in_curr_slice = 0) : expire P = P := by
  have pos : ¬ max_ticks_in_queue P.queue ≤ 0 := by
    generalize P.queue = q
    decide +revert
  simp [expire, h, pos]

lemma age_eq {ticks} {P : Proc} (h : P.queue = 0) : age ticks P = P := by
  simp [age, h]

lemma Moves.used {S S'} (m : Moves S S') : S ≠ .unused ∧ S' ≠ .unused := by
  cases m <;> decide

lemma Level.step (L : Level s) (st : Step s e s') : Level s' := by
  intro r
  have := L r
  cases st with
  | @expire p => rw [expire_eq (L p).2]; simpa [State.put] using L r
  | @age p => rw [age_eq (L p).1]; simpa [State.put] using L r
  | tick | allocFail => exact L r
  | _ =>
    simp only [State.put, State.allocproc, Function.update_apply]
    grind

lemma Exact.of_eq (E : Exact s) (queues : s'.queues = s.queues) (queue_it : s'.queue_it = s.queue_it)
    (procs : ∀ p, ((s'.procs p).state = .unused ↔ (s.procs p).state = .unused) ∧
      (s'.procs p).queue = (s.procs p).queue) : Exact s' := by
  have entries : ∀ q, s'.entries q = s.entries q := fun q => by rw [State.entries, queues, queue_it]; rfl
  refine ⟨fun q => entries q ▸ E.nodup q, fun q x => ?_⟩
  rw [entries, E.mem]
  simp only [ne_eq, (procs _).1, (procs _).2]

lemma Exact.not_mem (E : Exact s) (free : (s.procs p).state = .unused) (q : Fin 5) : some p ∉ s.entries q := by
  intro m
  obtain ⟨r, eq, ne, _⟩ := (E.mem q _).mp m
  cases eq
  exact ne free

lemma Exact.lt (E : Exact s) (free : (s.procs p).state = .unused) (q : Fin 5) : s.queue_it q < NPROC := by
  have null : none ∉ s.entries q := by
    intro m
    obtain ⟨r, eq, _⟩ := (E.mem q _).mp m
    simp at eq
  have nd : (none :: some p :: s.entries q).Nodup := by
    simp [E.not_mem free q, null, E.nodup q]
  have := nd.length_le_card
  simp [State.entries] at this
  omega

lemma Exact.empty (E : Exact s) (L : Level s) {q : Fin 5} (ne : q ≠ 0) : s.queue_it q = 0 := by
  by_contra h
  have m : s.queues (NPROC * q + 0) ∈ s.entries q :=
    List.mem_map.mpr ⟨0, List.mem_range.mpr (Nat.pos_of_ne_zero h), rfl⟩
  obtain ⟨p, _, _, eq⟩ := (E.mem q _).mp m
  exact ne (eq ▸ (L p).1)

lemma State.allocproc_entries_zero : (s.allocproc p).entries 0 = s.entries 0 ++ [some p] := by
  have old : ∀ i ∈ List.range (s.queue_it 0),
      (s.allocproc p).queues (NPROC * (0 : Fin 5) + i) = s.queues (NPROC * (0 : Fin 5) + i) := by
    intro i m
    have lt := List.mem_range.mp m
    simp [State.allocproc, Nat.ne_of_lt lt]
  rw [State.entries, State.entries, ← List.map_congr_left old]
  simp [State.allocproc, List.range_succ]

lemma Exact.alloc (E : Exact s) (L : Level s) (free : (s.procs p).state = .unused) : Exact (s.allocproc p) := by
  have out := E.not_mem free 0
  have rest : ∀ q, q ≠ 0 → (s.allocproc p).entries q = [] := by
    intro q ne
    simp [State.entries, State.allocproc, ne, E.empty L ne]
  refine ⟨fun q => ?_, fun q x => ?_⟩
  · rcases eq_or_ne q 0 with rfl | ne
    · rw [State.allocproc_entries_zero, List.nodup_append]
      refine ⟨E.nodup 0, List.nodup_singleton _, ?_⟩
      grind
    · rw [rest q ne]
      exact List.nodup_nil
  · rcases eq_or_ne q 0 with rfl | ne
    · rw [State.allocproc_entries_zero, List.mem_append, E.mem, List.mem_singleton]
      simp only [State.allocproc, Function.update_apply]
      grind
    · rw [rest q ne]
      have := fun r => (L r).1
      simp only [State.allocproc, Function.update_apply]
      grind

lemma Exact.step (E : Exact s) (L : Level s) (st : Step s e s') (nf : ¬ e.Frees) :
    Exact s' ∧ e.InBounds := by
  cases st with
  | alloc free => exact ⟨E.alloc L free, E.lt free 0⟩
  | free => exact absurd trivial nf
  | @move p S m =>
    refine ⟨E.of_eq rfl rfl fun r => ?_, trivial⟩
    simp only [State.put, Function.update_apply]
    grind [m.used]
  | @expire p =>
    rw [expire_eq (L p).2]
    exact ⟨by simpa [State.put] using E, trivial⟩
  | @age p =>
    rw [age_eq (L p).1]
    exact ⟨by simpa [State.put] using E, trivial⟩
  | tick => exact ⟨E.of_eq rfl rfl fun r => ⟨.rfl, rfl⟩, trivial⟩
  | allocFail => exact ⟨E, trivial⟩

lemma Exact.not_frees (E : Exact s) (st : Step s e s') (E' : Exact s') : ¬ e.Frees := by
  cases st with
  | @free p used =>
    have m : some p ∈ s.entries (s.procs p).queue := (E.mem _ _).mpr ⟨p, rfl, by grind, rfl⟩
    obtain ⟨r, eq, ne, _⟩ := (E'.mem _ _).mp m
    cases eq
    simp [State.put] at ne
  | _ => exact id

lemma Exact.boot : Exact boot := by
  refine ⟨fun q => ?_, fun q x => ?_⟩ <;> simp [State.entries, Mlfq.boot]

/-- In a run every store is inside of its array, and the arrays are exact after every step, if and only if no process
is freed. -/
theorem queues_exact {es} :
    Run (fun s e s' => Step s e s' ∧ e.InBounds ∧ Exact s') boot es s ↔
      Run (fun s e s' => Step s e s' ∧ ¬ e.Frees) boot es s := by
  constructor
  · intro run
    exact run.mono Exact.boot (fun _ st => st.2.2) (fun E st => ⟨st.1, E.not_frees st.1 st.2.2⟩)
  · intro run
    refine run.mono (P := fun s => Exact s ∧ Level s) ⟨Exact.boot, fun p => ⟨rfl, rfl⟩⟩ ?_ ?_
    · intro s e s' ⟨E, L⟩ ⟨st, nf⟩
      exact ⟨(E.step L st nf).1, L.step st⟩
    · intro s e s' ⟨E, L⟩ ⟨st, nf⟩
      exact ⟨st, (E.step L st nf).2, (E.step L st nf).1⟩

lemma refill (n : ℕ) : ∃ es s, Run Step boot es s ∧ (s.procs 0).state = .unused ∧ s.queue_it 0 = n := by
  induction n with
  | zero => exact ⟨[], _, .nil, rfl, rfl⟩
  | succ n ih =>
    obtain ⟨es, s, run, free, eq⟩ := ih
    have run := run.snoc (.alloc free)
    have run := run.snoc (.free (p := 0) (.inl (by simp [State.allocproc])))
    exact ⟨_, _, run, by simp [State.put], by simp [State.put, State.allocproc, eq]⟩

/-- A process that is freed stays in the queue, and the store for the process after `NPROC` ones is behind the
array. -/
theorem queues_overflow :
    (∃ es s, Run Step boot es s ∧ (s.procs 0).state = .unused ∧ some 0 ∈ s.entries 0) ∧
      ∃ es s s', Run Step boot es s ∧ Step s (.alloc 0 NPROC) s' := by
  constructor
  · have run := Run.nil (R := Step) (s := boot).snoc (.alloc (p := 0) rfl)
    have run := run.snoc (.free (p := 0) (.inl rfl))
    exact ⟨_, _, run, rfl, .head _⟩
  · obtain ⟨es, s, run, free, eq⟩ := refill NPROC
    exact ⟨es, s, _, run, eq ▸ Step.alloc free⟩

end Xv6.Mlfq
