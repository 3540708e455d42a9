import Xv6.Lib.Scan
import Xv6.Sched.Machine

/-!
# The first-come-first-served scheduler

One pass of the loop of `scheduler` in the build `FCFS`. The scan of the table finds a runnable slot of least `ctime` and
leaves it in `first` (`scan_first`). What follows works on `p`, which is behind the table when the scan is over: the pass
acquires, tests, switches to and releases `proc[NPROC]`. So it does what it should exactly if there is nothing to do
(`fcfs_selection`).
-/

namespace Xv6.Fcfs

open Sched (ProcState Uint)

/-- The fields of `struct proc` that a pass uses; `lock` is the CPU that holds the lock. -/
structure Proc where
  lock : Option (Fin NCPU)
  state : ProcState
  ctime : Uint

/-- The memory from `proc` on, as an array of `struct proc`: the table, and what lies behind it. -/
abbrev Memory := ℕ → Proc

/-- What a pass does with the slot of a number. -/
inductive Access where
  | readState (slot : ℕ)
  | readCtime (slot : ℕ)
  | acquire (slot : ℕ)
  | swtch (slot : ℕ)
  | release (slot : ℕ)
  deriving DecidableEq

def Access.slot : Access → ℕ
  | .readState slot | .readCtime slot | .acquire slot | .swtch slot | .release slot => slot

/-- The pointer `first`, with what the pass has accessed. -/
structure Scan where
  first : Option (Fin NPROC)
  trace : List Access

variable (m : Memory)

def Scan.visit (s : Scan) (p : Fin NPROC) : Scan :=
  let trace := s.trace ++ [.readState p]
  if (m p).state = .runnable then
    match s.first with
    | none => ⟨some p, trace⟩
    | some first =>
      ⟨if (m first).ctime > (m p).ctime then some p else some first, trace ++ [.readCtime first, .readCtime p]⟩
  else ⟨s.first, trace⟩

def scan : Scan := (List.finRange NPROC).foldl (Scan.visit m) ⟨none, []⟩

/-- The ends of a pass that does not get back to the top of the loop. -/
inductive Stop where
  | panic | spin
  deriving DecidableEq

/-- What the pass on CPU `c` does with `p` if `first` is not null. `acquire` panics if the CPU holds the lock, and spins
if another one does. -/
def run (c : Fin NCPU) (p : ℕ) : List Access × Option Stop :=
  match (m p).lock with
  | some d => ([.acquire p], if d = c then some .panic else some .spin)
  | none =>
    if (m p).state = .runnable then ([.acquire p, .readState p, .swtch p, .release p], none)
    else ([.acquire p, .readState p, .release p], none)

/-- A pass. When the loop is over, `p` is `&proc[NPROC]`. -/
def pass (c : Fin NCPU) : List Access × Option Stop :=
  match (scan m).first with
  | none => ((scan m).trace, none)
  | some _ => ((scan m).trace ++ (run m c NPROC).1, (run m c NPROC).2)

/-- The pass switches to a runnable slot if there is one, to none but a runnable slot of least `ctime`, and stays in the
table. -/
structure Selects (trace : List Access) : Prop where
  switches : (∃ i : Fin NPROC, (m i).state = .runnable) → ∃ i : Fin NPROC, .swtch i ∈ trace
  least : ∀ i, .swtch i ∈ trace →
    (m i).state = .runnable ∧ ∀ j : Fin NPROC, (m j).state = .runnable → (m i).ctime ≤ (m j).ctime
  bounds : ∀ a ∈ trace, a.slot < NPROC

variable {m}

/-- Accesses of slots of the table, without a switch. -/
def Inside (trace : List Access) : Prop :=
  ∀ a ∈ trace, a.slot < NPROC ∧ ∀ i, a ≠ .swtch i

lemma Scan.visit_inside {s : Scan} (h : Inside s.trace) (p : Fin NPROC) : Inside (s.visit m p).trace := by
  have state : Inside (s.trace ++ [.readState p]) :=
    List.forall_mem_append.2 ⟨h, by simp [Access.slot]⟩
  unfold Scan.visit
  split
  · split
    · exact state
    · exact List.forall_mem_append.2 ⟨state, by simp [Access.slot]⟩
  · exact state

lemma scan_inside : Inside (scan m).trace :=
  foldl_finRange (P := fun _ (s : Scan) => Inside s.trace) nofun fun i _ h => Scan.visit_inside h i

lemma scan_first :
    Scanned (fun i : Fin NPROC => (m i).state = .runnable) (fun i => (m i).ctime.toNat) NPROC (scan m).first := by
  refine foldl_finRange (P := fun k (s : Scan) => Scanned _ _ k s.first) .zero ?_
  rintro i ⟨first, trace⟩ h
  simp only [Scan.visit]
  split
  case isFalse no => exact h.skip no
  case isTrue yes =>
    cases first with
    | none => exact h.new yes
    | some first =>
      have next := h.next yes
      simp only [gt_iff_lt, BitVec.lt_def]
      split at next <;> simp only [*, if_true, if_false]

/-- A pass does what it should if and only if no process is runnable. -/
theorem fcfs_selection (m : Memory) (c : Fin NCPU) :
    Selects m (pass m c).1 ↔ ∀ i : Fin NPROC, (m i).state ≠ .runnable := by
  rw [← scan_first.eq_none_iff]
  constructor
  · intro h
    by_contra some
    obtain ⟨first, eq⟩ := Option.ne_none_iff_exists'.1 some
    -- whatever lies behind the table, the pass acquires its lock
    have behind : .acquire NPROC ∈ (pass m c).1 := by
      simp only [pass, eq, run, List.mem_append]
      right
      split
      · exact List.mem_cons_self
      · split <;> exact List.mem_cons_self
    exact absurd (h.bounds _ behind) (lt_irrefl NPROC)
  · intro none
    have no := scan_first.eq_none_iff.1 none
    simp only [pass, none]
    exact ⟨fun ⟨i, run⟩ => absurd run (no i), fun i sw => absurd rfl ((scan_inside _ sw).2 i),
      fun a mem => (scan_inside a mem).1⟩

/-- Only `proc[0]` is runnable, and the memory behind the table is zero: the scan finds `proc[0]`, and then the pass acquires
and releases the lock of `proc[NPROC]` and switches to nothing. -/
theorem fcfs_no_switch :
    let m : Memory := fun i => ⟨none, if i = 0 then .runnable else .unused, 0⟩
    (scan m).first = some 0 ∧ (pass m 0).1.drop NPROC = [.acquire 64, .readState 64, .release 64] ∧
      (∀ a ∈ (pass m 0).1, ∀ i, a ≠ .swtch i) ∧ ¬ Selects m (pass m 0).1 := by
  intro m
  have trace : (pass m 0).1 = (List.range NPROC).map .readState ++ [.acquire 64, .readState 64, .release 64] := by
    decide
  have none : ∀ a ∈ (pass m 0).1, ∀ i, a ≠ .swtch i := by
    rw [trace]
    simp [or_imp, forall_and]
  refine ⟨by decide, by decide, none, fun h => ?_⟩
  obtain ⟨i, sw⟩ := h.switches ⟨0, rfl⟩
  exact none _ sw i rfl

end Xv6.Fcfs
