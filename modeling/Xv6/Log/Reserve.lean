import Xv6.Log.Invariant
import Mathlib.Tactic.IntervalCases
import Mathlib.Order.Interval.Finset.Nat

/-!
# Log reservation

`begin_op` admits an operation when the blocks already logged and `MAXOPBLOCKS` blocks for every
operation in progress fit into `LOGSIZE`. The log that `mkfs` builds has `LOGSIZE` blocks including the
header block, and `log_write` refuses to log when `log.size - 1` blocks are in the header, so the last
of the blocks that `begin_op` has promised cannot be used: three operations that each log `MAXOPBLOCKS`
distinct blocks panic at the thirtieth.

A run panics in `log_write` exactly when one of its calls is made while the transaction already holds
`LOGSIZE - 1` distinct blocks (`log_write_panic_iff`).
-/

namespace Xv6.Log

/-- The distinct blocks logged since the last commit. -/
def State.logged (s : State) : Finset Nat := (s.cur.map Update.block).toFinset

/-- The distinct blocks that operation `o` has logged in the current transaction. -/
def State.loggedBy (s : State) (o : Nat) : Finset Nat :=
  ((s.cur.filter (·.op = o)).map Update.block).toFinset

/-- The operation that makes the call stays within `MAXOPBLOCKS` distinct blocks. -/
def Budget (s : State) : Act → Prop
  | .logWrite p b _ => ∀ o, (p, o) ∈ s.active → (insert b (s.loggedBy o)).card ≤ MAXOPBLOCKS
  | _ => True

/-- The call finds fewer than `LOGSIZE - 1` distinct blocks in the transaction. -/
def Roomy (s : State) : Act → Prop
  | .logWrite _ _ _ => s.logged.card < LOGSIZE - 1
  | _ => True

/-- A step of a machine whose operations keep to their budgets. -/
def Frugal (s : State) (a : Act) (s' : State) : Prop := Step s a s' ∧ Budget s a

/-- While no commit is in progress the header lists the distinct blocks of the transaction. -/
lemma Consistent.length_lh {s} (inv : Consistent s) (run : s.pc = .run) :
    s.log.lh.length = s.logged.card := by
  obtain ⟨_, _, cur⟩ := inv.at_run run
  rw [← List.toFinset_card_of_nodup inv.nodup]
  congr 1
  ext b
  simp only [State.logged, List.mem_toFinset, cur]

/-- No step but a panicking one leads out of a machine that runs, and none out of a stopped one. -/
lemma Step.panic_none {s a s'} (st : Step s a s') : s.panic = none := by
  cases st <;> assumption

lemma Step.size {s a s'} (st : Step s a s') : s'.log.size = s.log.size := by
  cases st with
  | beginOp _ _ _ _ adm => obtain ⟨_, _, rfl⟩ := beginOp_some adm; rfl
  | logWrite _ _ _ _ ok => obtain ⟨_, _, _, rfl⟩ := logWrite_ok ok; rfl
  | endOp _ _ ok => obtain ⟨_, rfl, _⟩ := endOp_ok ok; rfl
  | endOpCommit _ _ ok => obtain ⟨_, rfl, _⟩ := endOp_ok ok; rfl
  | _ => rfl

/-- On the log that `mkfs` builds a step panics exactly when it calls `log_write` without room. -/
lemma Step.panic_iff {s a s'} (st : Step s a s') (inv : Consistent s) (size : s.log.size = LOGSIZE) :
    (s'.panic = none ∧ Roomy s a) ∨ (s'.panic = some "too big a transaction" ∧ ¬ Roomy s a) := by
  cases st with
  | logWrite np mem _ _ ok =>
    obtain ⟨_, lt, _⟩ := logWrite_ok ok
    have len := inv.length_lh (inv.pc_run mem)
    left
    refine ⟨np, ?_⟩
    simp only [Roomy]
    omega
  | logWritePanic np mem _ _ err =>
    have pos := inv.outstanding_pos mem
    have len := inv.length_lh (inv.pc_run mem)
    obtain ⟨rfl, full⟩ | ⟨_, zero⟩ := logWrite_error err
    · right
      refine ⟨rfl, ?_⟩
      simp only [Roomy, LOGSIZE, MAXOPBLOCKS] at *
      omega
    · omega
  | endOpPanic np mem err =>
    have c := endOp_error err
    obtain ⟨nc, _⟩ := inv.at_run (inv.pc_run mem)
    simp [nc] at c
  | beginOp np => exact .inl ⟨np, trivial⟩
  | endOp np => exact .inl ⟨np, trivial⟩
  | endOpCommit np => exact .inl ⟨np, trivial⟩
  | bread np => exact .inl ⟨np, trivial⟩
  | recycle np => exact .inl ⟨np, trivial⟩
  | writeLog np => exact .inl ⟨np, trivial⟩
  | writeHead np => exact .inl ⟨np, trivial⟩
  | install np => exact .inl ⟨np, trivial⟩
  | clearHead np => exact .inl ⟨np, trivial⟩
  | finish np => exact .inl ⟨np, trivial⟩

lemma Frugal.run_inv {start disk as s} (run : Run Frugal (initial start LOGSIZE disk) as s) :
    Consistent s ∧ s.log.size = LOGSIZE := by
  apply run.invariant ⟨Consistent.initial, rfl⟩
  intro t a u inv st
  exact ⟨inv.1.step st.1, st.1.size.trans inv.2⟩

lemma Frugal.panic_cases {start disk as s} (run : Run Frugal (initial start LOGSIZE disk) as s) :
    s.panic = none ∨ s.panic = some "too big a transaction" := by
  cases run with
  | nil => exact .inl rfl
  | snoc run st =>
    obtain ⟨inv, size⟩ := Frugal.run_inv run
    obtain ⟨np, _⟩ | ⟨pan, _⟩ := st.1.panic_iff inv size
    · exact .inl np
    · exact .inr pan

lemma Frugal.panic_none_of_roomy {start disk as s}
    (run : Run (fun s a s' => Frugal s a s' ∧ Roomy s a) (initial start LOGSIZE disk) as s) :
    s.panic = none := by
  have inv : Consistent s ∧ s.log.size = LOGSIZE ∧ s.panic = none := by
    apply run.invariant ⟨Consistent.initial, rfl, rfl⟩
    intro t a u inv st
    refine ⟨inv.1.step st.1.1, st.1.1.size.trans inv.2.1, ?_⟩
    obtain ⟨np, _⟩ | ⟨_, full⟩ := st.1.1.panic_iff inv.1 inv.2.1
    · exact np
    · exact absurd st.2 full
  exact inv.2.2

lemma Frugal.roomy_of_panic_none {start disk as s}
    (run : Run Frugal (initial start LOGSIZE disk) as s) (np : s.panic = none) :
    Run (fun s a s' => Frugal s a s' ∧ Roomy s a) (initial start LOGSIZE disk) as s := by
  induction run with
  | nil => exact .nil
  | snoc run st ih =>
    obtain ⟨inv, size⟩ := Frugal.run_inv run
    obtain ⟨_, room⟩ | ⟨pan, _⟩ := st.1.panic_iff inv size
    · exact .snoc (ih st.1.panic_none) ⟨st, room⟩
    · simp [np] at pan

/-- In every run whose operations keep to their budgets, on the log that `mkfs` builds, no `log_write`
    is outside of a transaction, and none finds the transaction too big exactly when every call is made
    while the transaction holds fewer than `LOGSIZE - 1` distinct blocks. -/
theorem log_write_panic_iff {start disk as s} (run : Run Frugal (initial start LOGSIZE disk) as s) :
    s.panic ≠ some "log_write outside of trans" ∧
      (s.panic ≠ some "too big a transaction" ↔
        Run (fun s a s' => Frugal s a s' ∧ Roomy s a) (initial start LOGSIZE disk) as s) := by
  obtain np | pan := Frugal.panic_cases run
  · refine ⟨by simp [np], ?_⟩
    exact ⟨fun _ => Frugal.roomy_of_panic_none run np, fun _ => by simp [np]⟩
  · refine ⟨by simp [pan], fun ne => absurd pan ne, fun roomy => ?_⟩
    simp [Frugal.panic_none_of_roomy roomy]

/-- Three operations in progress, of processes `0`, `1` and `2`, which have logged the blocks
    `100, …, 100 + n - 1` between them, ten blocks each. -/
def threeOps : Nat → State
  | 0 =>
    { initial 2 LOGSIZE (fun _ _ => 0) with
      log := ⟨2, LOGSIZE, 3, false, []⟩
      active := [(2, 2), (1, 1), (0, 0)]
      nextOp := 3 }
  | n + 1 =>
    { threeOps n with
      cache := Function.update (threeOps n).cache (100 + n) (some fun _ => 0)
      log := { (threeOps n).log with lh := absorb (threeOps n).log.lh (100 + n) }
      cur := (threeOps n).cur ++ [⟨n / 10, 100 + n, fun _ => 0⟩] }

lemma threeOps_log {n} :
    (threeOps n).log = ⟨2, LOGSIZE, 3, false, (List.range n).map (100 + ·)⟩ := by
  induction n with
  | zero => rfl
  | succ n ih =>
    simp only [threeOps, ih, List.range_succ, List.map_append, List.map_singleton]
    rw [absorb_of_notMem (by simp)]

lemma threeOps_cur {n} :
    (threeOps n).cur = (List.range n).map fun i => ⟨i / 10, 100 + i, fun _ => 0⟩ := by
  induction n with
  | zero => rfl
  | succ n ih => simp [threeOps, ih, List.range_succ]

lemma threeOps_frame {n} :
    (threeOps n).panic = none ∧ (threeOps n).active = [(2, 2), (1, 1), (0, 0)] := by
  induction n with
  | zero => exact ⟨rfl, rfl⟩
  | succ n ih => exact ih

lemma threeOps_budget {n} :
    Budget (threeOps n) (.logWrite (n / 10) (100 + n) fun _ => 0) := by
  intro o mem
  have e : o = n / 10 := by
    rw [threeOps_frame.2] at mem
    simp only [List.mem_cons, Prod.mk.injEq, List.not_mem_nil, or_false] at mem
    omega
  subst e
  have sub : insert (100 + n) ((threeOps n).loggedBy (n / 10)) ⊆
      Finset.Ico (100 + 10 * (n / 10)) (100 + 10 * (n / 10) + 10) := by
    intro b hb
    simp only [Finset.mem_insert, State.loggedBy, threeOps_cur, List.mem_toFinset, List.mem_map,
      List.mem_filter, List.mem_range, decide_eq_true_eq] at hb
    rw [Finset.mem_Ico]
    obtain rfl | ⟨_, ⟨⟨i, _, rfl⟩, e⟩, rfl⟩ := hb
    · omega
    · simp only at e ⊢
      omega
  have card := Finset.card_le_card sub
  simpa using card

lemma threeOps_active {n} (lt : n < 30) : (n / 10, n / 10) ∈ (threeOps n).active := by
  rw [threeOps_frame.2]
  have : n / 10 < 3 := by omega
  interval_cases n / 10 <;> simp

lemma threeOps_run {n} (le : n ≤ 29) :
    ∃ as, Run Frugal (initial 2 LOGSIZE fun _ _ => 0) as (threeOps n) := by
  induction n with
  | zero =>
    have s0 : Run Frugal (initial 2 LOGSIZE fun _ _ => 0) [] _ := .nil
    have s1 := s0.snoc ⟨.beginOp (p := 0) rfl (by simp [initial]) (by simp [initial]) (by simp [initial]) rfl, trivial⟩
    have s2 := s1.snoc ⟨.beginOp (p := 1) rfl (by simp [initial]) (by simp [initial]) (by simp [initial]) rfl, trivial⟩
    have s3 := s2.snoc ⟨.beginOp (p := 2) rfl (by simp [initial]) (by simp [initial]) (by simp [initial]) rfl, trivial⟩
    exact ⟨_, s3⟩
  | succ n ih =>
    obtain ⟨as, run⟩ := ih (by omega)
    refine ⟨as ++ [.logWrite (n / 10) (100 + n) fun _ => 0], .snoc run ⟨?_, threeOps_budget⟩⟩
    apply Step.logWrite threeOps_frame.1 (threeOps_active (by omega))
    · simp only [threeOps_log, Home, LOGSIZE, MAXOPBLOCKS]
      omega
    · omega
    · have len : ((List.range n).map (100 + ·)).length = n := by simp
      rw [threeOps_log, logWrite, if_neg (by simp only [len, LOGSIZE, MAXOPBLOCKS]; omega),
        if_neg (by simp)]

/-- Three operations within their budgets that panic: the thirtieth block that `begin_op` has reserved
    cannot be logged. -/
theorem log_write_too_big :
    ¬ ∀ start disk as s, Run Frugal (initial start LOGSIZE disk) as s →
      s.panic ≠ some "too big a transaction" ∧ s.panic ≠ some "log_write outside of trans" := by
  intro all
  obtain ⟨as, run⟩ := threeOps_run (n := 29) (by omega)
  have st : Step (threeOps 29) (.logWrite 2 129 fun _ => 0)
      { threeOps 29 with panic := some "too big a transaction" } := by
    apply Step.logWritePanic threeOps_frame.1 (threeOps_active (n := 29) (by omega))
    · simp [threeOps_log, Home, LOGSIZE, MAXOPBLOCKS]
    · omega
    · simp [threeOps_log, logWrite, LOGSIZE, MAXOPBLOCKS]
  have run' := Run.snoc run ⟨st, threeOps_budget (n := 29)⟩
  exact (all _ _ _ _ run').1 rfl

/-- The run up to the twenty-ninth block has had room at every call. -/
theorem log_write_panic_iff_threeOps :
    ∃ as, Run Frugal (initial 2 LOGSIZE fun _ _ => 0) as (threeOps 29) ∧
      Run (fun s a s' => Frugal s a s' ∧ Roomy s a) (initial 2 LOGSIZE fun _ _ => 0) as
        (threeOps 29) := by
  obtain ⟨as, run⟩ := threeOps_run (n := 29) (by omega)
  refine ⟨as, run, (log_write_panic_iff run).2.mp ?_⟩
  rw [threeOps_frame.1]
  exact nofun

end Xv6.Log
