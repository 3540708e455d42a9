import Xv6.Lib.Scan
import Xv6.Sched.Pbs
import Mathlib.Data.Prod.Lex

/-!
# The choice of the priority-based scheduler

The scan of `scheduler` in the build `PBS` as a function of the process table. `dynamic_priority` writes `spriority` and
`niceness` of the slots that are compared, but its result depends on `wtime` and `rtime` only, so that the comparisons are
those of the table before the scan (`Alike`). The candidate of the scan is the first one of the best runnable slots
(`pbs_selection`), and it is the one that a CPU finds that scans the table alone (`scan_run`).
-/

namespace Xv6.Pbs

/-- The process table and `highest_priority` during the scan. -/
structure Scan where
  procs : Fin NPROC → Proc
  highest_priority : Option (Fin NPROC)

def Scan.visit (s : Scan) (p : Fin NPROC) : Scan :=
  if (s.procs p).state = .runnable then
    match s.highest_priority with
    | none => { s with highest_priority := some p }
    | some h =>
      let (P, dp) := dynamicPriority (s.procs p)
      let procs := Function.update s.procs p P
      let (H, hp_dp) := dynamicPriority (procs h)
      let procs := Function.update procs h H
      ⟨procs, some (if replaces (procs p) (procs h) dp hp_dp then p else h)⟩
  else s

def scan (procs : Fin NPROC → Proc) : Scan :=
  (List.finRange NPROC).foldl Scan.visit ⟨procs, none⟩

/-- The dynamic priority of a slot is smaller, or it is the same and the slot has run more often, or as often and was
created later. -/
def Proc.Precedes (P H : Proc) : Prop :=
  (dynamicPriority P).2 < (dynamicPriority H).2 ∨
    (dynamicPriority P).2 = (dynamicPriority H).2 ∧
      (H.nrun < P.nrun ∨ H.nrun = P.nrun ∧ H.ctime < P.ctime)

/-- The order of the slots, as one key. -/
def Proc.key (P : Proc) : ℤ ×ₗ ℕᵒᵈ ×ₗ ℕᵒᵈ :=
  toLex ((dynamicPriority P).2, toLex (OrderDual.toDual P.nrun.toNat, OrderDual.toDual P.ctime.toNat))

/-- The slots differ at most in what `dynamic_priority` writes. -/
def Alike (P Q : Proc) : Prop :=
  P = { Q with spriority := P.spriority, niceness := P.niceness }

variable {P Q H : Proc} {procs : Fin NPROC → Proc} {s : Scan} {p h : Fin NPROC}

lemma Proc.key_lt : P.key < H.key ↔ P.Precedes H := by
  simp only [Proc.key, Prod.Lex.toLex_lt_toLex, OrderDual.toDual_lt_toDual, EmbeddingLike.apply_eq_iff_eq,
    Proc.Precedes, BitVec.lt_def, BitVec.toNat_inj]
  grind

/-- The comparison of the scan, whose slots have been written by `dynamic_priority`. -/
lemma replaces_iff :
    replaces (dynamicPriority P).1 (dynamicPriority H).1 (dynamicPriority P).2 (dynamicPriority H).2 = true ↔
      P.key < H.key := by
  rw [Proc.key_lt, replaces, Proc.Precedes]
  simp only [dynamicPriority]
  grind

namespace Alike

lemma refl : Alike P P := rfl

lemma dynamicPriority (h : Alike P Q) : Alike (dynamicPriority P).1 Q := by
  rw [h]
  rfl

lemma state (h : Alike P Q) : P.state = Q.state := by rw [h]

lemma key (h : Alike P Q) : P.key = Q.key := by
  rw [h]
  rfl

end Alike

lemma Scan.visit_skip (no : (s.procs p).state ≠ .runnable) : s.visit p = s := if_neg no

lemma Scan.visit_new (run : (s.procs p).state = .runnable) (eq : s.highest_priority = none) :
    s.visit p = ⟨s.procs, some p⟩ := by
  simp [Scan.visit, run, eq]

lemma Scan.visit_compare (run : (s.procs p).state = .runnable) (eq : s.highest_priority = some h) (ne : p ≠ h) :
    s.visit p = ⟨Function.update (Function.update s.procs p (dynamicPriority (s.procs p)).1) h
      (dynamicPriority (s.procs h)).1, some (if (s.procs p).key < (s.procs h).key then p else h)⟩ := by
  simp [Scan.visit, run, eq, Function.update_of_ne ne, Function.update_of_ne ne.symm, replaces_iff]

/-- The scan of `procs` has passed the slots below `k`: it has changed at most what `dynamic_priority` writes, and its
candidate is the best slot of the table as it was. -/
structure Scan.Inv (procs : Fin NPROC → Proc) (k : ℕ) (s : Scan) : Prop where
  alike : ∀ i, Alike (s.procs i) (procs i)
  best : Scanned (fun i => (procs i).state = .runnable) (fun i => (procs i).key) k s.highest_priority

lemma Scan.Inv.visit {i : Fin NPROC} (inv : s.Inv procs i) : (s.visit i).Inv procs (i + 1) := by
  have alike := inv.alike
  by_cases run : (procs i).state = .runnable
  case neg =>
    rw [Scan.visit_skip ((alike i).state.trans_ne run)]
    exact ⟨alike, inv.best.skip run⟩
  case pos =>
    cases eq : s.highest_priority with
    | none =>
      rw [Scan.visit_new ((alike i).state.trans run) eq]
      exact ⟨alike, (eq ▸ inv.best).new run⟩
    | some b =>
      have h := inv.best
      rw [eq] at h
      have next := h.next run
      obtain _ | ⟨⟨lt, _⟩⟩ := h
      rw [Scan.visit_compare ((alike i).state.trans run) eq (by omega)]
      simp only [(alike _).key]
      refine ⟨fun j => ?_, next⟩
      simp only [Function.update_apply]
      split
      case isTrue eq =>
        subst eq
        exact (alike _).dynamicPriority
      case isFalse =>
        split
        case isTrue eq =>
          subst eq
          exact (alike _).dynamicPriority
        case isFalse => exact alike j

lemma scan_inv (procs : Fin NPROC → Proc) : (scan procs).Inv procs NPROC :=
  foldl_finRange (P := Scan.Inv procs) ⟨fun _ => .refl, .zero⟩ fun _ _ inv => inv.visit

/-- The scan leaves no candidate if no slot is runnable. Otherwise its candidate is runnable, no runnable slot precedes it, and
it precedes every runnable slot before it. -/
theorem pbs_selection (procs : Fin NPROC → Proc) :
    match (scan procs).highest_priority with
    | none => ∀ i, (procs i).state ≠ .runnable
    | some h => (procs h).state = .runnable ∧
      (∀ j, (procs j).state = .runnable → ¬ (procs j).Precedes (procs h)) ∧
      ∀ j < h, (procs j).state = .runnable → (procs h).Precedes (procs j) := by
  have found := (scan_inv procs).best
  generalize (scan procs).highest_priority = best at found
  cases found with
  | empty none => exact fun i => none i i.isLt
  | found h =>
    refine ⟨h.holds, fun j run => ?_, fun j lt run => ?_⟩
    · rw [← Proc.key_lt, not_lt]
      exact h.least j j.isLt run
    · rw [← Proc.key_lt]
      exact h.first j lt run

/-! ### The scan of one CPU -/

variable {st : State} {c : Fin NCPU}

/-- CPU `c` has passed the slots below `k` in a run from `st`: the table and the candidate are those of the scan, the candidate
is one of the slots it has passed, and the locks before it are free. -/
def Passed (st : State) (c : Fin NCPU) (k : ℕ) (s : Scan) : Prop :=
  ∃ cs t best, Run Step st cs t ∧ (t.cpus c).pc = .scan k best ∧ t.procs = s.procs ∧
    best.map (·.highest_priority) = s.highest_priority ∧ (∀ h, s.highest_priority = some h → (h : ℕ) < k) ∧
    ∀ l, k ≤ l → l < NPROC → t.lock l = none

lemma released {t : State} {i : Fin NPROC} (pc : Pc) (lock : t.lock i = some c)
    (free : ∀ l : ℕ, i + 1 ≤ l → l < NPROC → t.lock l = none) :
    ∀ l : ℕ, i + 1 ≤ l → l < NPROC → (t.release c i pc).lock l = none := by
  intro l le lt
  simp only [State.release, lock, if_true]
  rw [Function.update_of_ne (by omega)]
  exact free l le lt

lemma Passed.visit {i : Fin NPROC} (h : Passed st c i s) : Passed st c (i + 1) (s.visit i) := by
  obtain ⟨cs, t, best, run, pc, procs, eq, lt, free⟩ := h
  have run := run.snoc (.acquire pc i.isLt (free i le_rfl i.isLt))
  generalize eqt : t.acquire c i (.look i best) = t' at run
  have pc' : (t'.cpus c).pc = .look i best := by simp [← eqt, State.acquire]
  have lock : t'.lock i = some c := by simp [← eqt, State.acquire]
  have free' : ∀ l : ℕ, i + 1 ≤ l → l < NPROC → t'.lock l = none := by
    intro l le lt
    simp only [← eqt, State.acquire]
    rw [Function.update_of_ne (by omega)]
    exact free l (by omega) lt
  have procs' : t'.procs = s.procs := by simp [← eqt, State.acquire, procs]
  by_cases runnable : (s.procs i).state = .runnable
  case neg =>
    rw [Scan.visit_skip runnable]
    have run := run.snoc (.skip pc' (by rwa [procs']))
    refine ⟨_, _, best, run, State.release_pc lock, by simp [procs'], eq, fun h eq => ?_, released _ lock free'⟩
    have := lt h eq
    omega
  case pos =>
    cases best with
    | none =>
      rw [Scan.visit_new runnable eq.symm]
      have run := run.snoc (.keep pc' (by rwa [procs']))
      exact ⟨_, _, some ⟨i, i⟩, run, by simp [State.goto], procs', rfl, by simp, free'⟩
    | some b =>
      have ne : i ≠ b.highest_priority := by
        have := lt b.highest_priority eq.symm
        omega
      rw [Scan.visit_compare runnable eq.symm ne]
      have run := run.snoc (.compare pc' (by rwa [procs']) Prod.mk.eta.symm Prod.mk.eta.symm)
      simp only [procs', replaces_iff] at run
      refine ⟨_, _, _, run, State.release_pc lock, by simp [State.put, procs'], ?_, ?_, released _ lock free'⟩
      · simp only [Option.map_some]
        split <;> rfl
      · rintro h ⟨⟩
        have := lt b.highest_priority eq.symm
        dsimp only
        split <;> omega

lemma scan_run (pc : (st.cpus c).pc = .top) (free : ∀ l, l < NPROC → st.lock l = none) :
    Passed st c NPROC (scan st.procs) := by
  refine foldl_finRange (P := Passed st c) ?_ fun _ _ h => h.visit
  have run : Run Step st [] st := .nil
  exact ⟨_, _, none, run.snoc (.start pc), by simp [State.goto], rfl, rfl, nofun, fun l _ lt => free l lt⟩

end Xv6.Pbs
