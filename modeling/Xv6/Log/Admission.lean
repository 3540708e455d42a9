import Xv6.Lib.Monitor
import Xv6.Log.Invariant

/-!
# Admission to the log

The processes that call `begin_op`, `log_write` and `end_op`, as a monitor under `log.lock`. What they do to the log are
the steps of the machine of `Log.Machine`; here a caller of `begin_op` that is not admitted sleeps on `&log`, `end_op`
gives up the lock for `commit()` and takes it again, and the pins of the buffers are counted: `log_write` pins a block
that is new in the header, `install_trans` unpins it.

`log_admission` is the state machine of the log over all interleavings: nobody sleeps who could be admitted.
-/

namespace Xv6.Log

open Monitor

/-- The log and the buffer cache, the number of pins that the log has on the buffer of each block, and the process that
runs `commit()`. -/
structure Shared where
  state : State
  pins : ℕ → ℕ
  committer : Option (Fin NPROC)

/-- The places at which `log.lock` is held. -/
inductive Place where
  -- `begin_op`: the loop, and `sleep`
  | beginOp
  | beginSleep
  | logWrite (b : ℕ) (v : Block)
  -- `end_op`: the first critical section, its `wakeup`, the second one and its `wakeup`
  | endOp
  | endWakeup
  | finish
  | finishWakeup
  | release
  /-- After a `panic`, which does not return. -/
  | panic

/-- `bpin`, for a block that is new in the header. -/
def bpin (s : State) (pins : ℕ → ℕ) (b : ℕ) : ℕ → ℕ :=
  if b ∈ s.log.lh then pins else Function.update pins b (pins b + 1)

/-- `bunpin`, in an iteration of `install_trans`. -/
def bunpin (s : State) (pins : ℕ → ℕ) : ℕ → ℕ :=
  match s.pc with
  | .installTrans tail =>
    match s.log.lh[tail]? with
    | some b => Function.update pins b (pins b - 1)
    | none => pins
  | _ => pins

/-- A place at which a process takes the lock. -/
inductive Start (p : Fin NPROC) (d : Shared) : Place → Prop where
  | beginOp :
    (∀ o, (p.val, o) ∉ d.state.active) →
    d.committer ≠ some p →
    Start p d .beginOp
  | logWrite {b v o} :
    (p.val, o) ∈ d.state.active →
    Start p d (.logWrite b v)
  | endOp {o} :
    (p.val, o) ∈ d.state.active →
    Start p d .endOp
  | finish :
    d.committer = some p →
    d.state.pc = .committed →
    Start p d .finish

/-- What a process does at a place. -/
inductive Action (p : Fin NPROC) (d : Shared) : Place → Place → Shared → Prop where
  | admitted {s} :
    Step d.state (.beginOp p) s →
    Action p d .beginOp .release { d with state := s }
  | refused :
    Log.beginOp d.state.log = none →
    Action p d .beginOp .beginSleep d
  | logWrite {b v s} :
    Step d.state (.logWrite p b v) s →
    s.panic = none →
    Action p d (.logWrite b v) .release { d with state := s, pins := bpin d.state d.pins b }
  | more {s} :
    Step d.state (.endOp p) s →
    s.panic = none →
    s.log.committing = false →
    Action p d .endOp .endWakeup { d with state := s }
  | last {s} :
    Step d.state (.endOp p) s →
    s.panic = none →
    s.log.committing = true →
    Action p d .endOp .release { d with state := s, committer := some p }
  | finish {s} :
    d.state.pc = .committed →
    Step d.state .commit s →
    Action p d .finish .finishWakeup { d with state := s, committer := none }
  | logWritePanic {b v s} :
    Step d.state (.logWrite p b v) s →
    s.panic ≠ none →
    Action p d (.logWrite b v) .panic { d with state := s }
  | endOpPanic {s} :
    Step d.state (.endOp p) s →
    s.panic ≠ none →
    Action p d .endOp .panic { d with state := s }

/-- What a process does without the lock: it reads and recycles buffers, and the committer runs `commit()`. -/
inductive Free (p : Fin NPROC) (d : Shared) : Shared → Prop where
  | bread {b s} :
    Step d.state (.bread b) s →
    Free p d { d with state := s }
  | recycle {b s} :
    Step d.state (.recycle b) s →
    Free p d { d with state := s }
  | commit {s} :
    d.committer = some p →
    d.state.pc ≠ .committed →
    Step d.state .commit s →
    Free p d { d with state := s, pins := bunpin d.state d.pins }

/-- The calls of `wakeup(&log)`. -/
inductive Wakes : Place → Unit → Place → Prop where
  | endOp : Wakes .endWakeup () .release
  | finish : Wakes .finishWakeup () .release

def monitor : Monitor (Fin NPROC) Shared Place Unit where
  start p l d := Start p d l
  act p l d _ l' d' := Action p d l l' d'
  wakes := Wakes
  sleeps l _ l' := l = .beginSleep ∧ l' = .beginOp
  ends l := l = .release
  free := Free

/-- A caller of `begin_op` has to wait. -/
def Full (l : Log) : Prop := l.committing ∨ l.lh.length + (l.outstanding + 1) * MAXOPBLOCKS > LOGSIZE

/-- The pins are those of the header. -/
def Pinned (d : Shared) : Prop := ∀ b, d.pins b = if b ∈ d.state.pinned then 1 else 0

/-- The invariant of the log and its pins. -/
structure Accounted (d : Shared) : Prop where
  log : Consistent d.state
  pinned : Pinned d
  panic : d.state.panic ≠ some "log.committing"

variable {d d' : Shared} {p : Fin NPROC} {l l' : Place} {s s' : State} {b : ℕ} {v : Block}

lemma beginOp_none {l : Log} (h : Log.beginOp l = none) : Full l := by
  unfold Log.beginOp at h
  split at h
  · rename_i c
    exact .inl c
  · split at h
    · rename_i room
      exact .inr room
    · cases h

lemma Full.mono {l l' : Log} (f : Full l) (committing : l.committing → l'.committing)
    (lh : l.lh.length ≤ l'.lh.length) (out : l.outstanding ≤ l'.outstanding) : Full l' := by
  rcases f with c | room
  · exact .inl (committing c)
  · have : (l.outstanding + 1) * MAXOPBLOCKS ≤ (l'.outstanding + 1) * MAXOPBLOCKS := Nat.mul_le_mul_right _ (by omega)
    exact .inr (by omega)

lemma absorb_of_mem {lh : List ℕ} (mem : b ∈ lh) : absorb lh b = lh := by
  induction lh with
  | nil => cases mem
  | cons c lh ih =>
    unfold absorb
    split
    · rename_i eq
      rw [eq]
    · rename_i ne
      rw [ih ((List.mem_cons.mp mem).resolve_left (Ne.symm ne))]

lemma le_length_absorb {lh : List ℕ} : lh.length ≤ (absorb lh b).length := by
  by_cases mem : b ∈ lh
  · rw [absorb_of_mem mem]
  · simp [absorb_of_notMem mem]

/-- Steps other than those of `commit()` leave a full log full, or are an `end_op` after which operations remain. -/
lemma Full.step {a : Act} (f : Full s.log) (st : Step s a s') (inv : Consistent s) :
    Full s'.log ∨ (∃ p, a = .endOp p) ∧ s'.log.committing = false ∨ s.pc = .committed ∧ a = .commit := by
  cases st with
  | beginOp _ _ _ _ ok =>
    obtain ⟨-, -, rfl⟩ := beginOp_some ok
    exact .inl (f.mono id (Nat.le_refl _) (Nat.le_succ _))
  | logWrite _ _ _ _ ok =>
    obtain ⟨-, -, -, rfl⟩ := logWrite_ok ok
    exact .inl (f.mono id le_length_absorb (Nat.le_refl _))
  | @endOp p o l _ _ ok =>
    obtain ⟨-, rfl, -⟩ := endOp_ok ok
    exact .inr (.inl ⟨⟨p, rfl⟩, rfl⟩)
  | endOpCommit _ _ ok =>
    obtain ⟨-, rfl, -⟩ := endOp_ok ok
    exact .inl (.inl rfl)
  | clearHead _ at_ => exact .inl (.inl (inv.at_installTrans at_).1)
  | finish _ at_ => exact .inr (.inr ⟨at_, rfl⟩)
  | _ => exact .inl f

lemma Pinned.logWrite (pin : Pinned d) (run : d.state.pc = .run) (lh : s.log.lh = absorb d.state.log.lh b)
    (pc : s.pc = .run) : Pinned { d with state := s, pins := bpin d.state d.pins b } := by
  intro c
  have old := pin c
  simp only [State.pinned, run, pc, lh, mem_absorb] at old ⊢
  unfold bpin
  split
  · rename_i mem
    by_cases eq : c = b
    · subst eq
      simp [old, mem]
    · simp [old, eq]
  · rename_i new
    by_cases eq : c = b
    · subst eq
      simp [old, new]
    · simp [old, eq]

lemma Pinned.install {tail : ℕ} (pin : Pinned d) (nodup : d.state.log.lh.Nodup) (pc : d.state.pc = .installTrans tail)
    (get : d.state.log.lh[tail]? = some b) (lh : s.log.lh = d.state.log.lh) (pc' : s.pc = .installTrans (tail + 1)) :
    Pinned { d with state := s, pins := bunpin d.state d.pins } := by
  obtain ⟨lt, rfl⟩ := List.getElem?_eq_some_iff.mp get
  intro c
  have old := pin c
  have drop := List.drop_eq_getElem_cons lt
  have fresh : d.state.log.lh[tail] ∉ d.state.log.lh.drop (tail + 1) := by
    have := nodup.sublist (List.drop_sublist tail d.state.log.lh)
    rw [drop, List.nodup_cons] at this
    exact this.1
  simp only [State.pinned, pc, pc', lh, drop, List.mem_cons] at old ⊢
  simp only [bunpin, pc, get]
  by_cases eq : c = d.state.log.lh[tail]
  · subst eq
    simp [old, fresh]
  · simp [old, eq]

/-- Steps that change neither the header nor the position of the committer leave the pins. -/
lemma Pinned.same (pin : Pinned d) (eq : ∀ b, b ∈ s.pinned ↔ b ∈ d.state.pinned) : Pinned { d with state := s } := by
  intro c
  simp only [pin c, eq]

lemma panic_of_step {a : Act} (st : Step s a s') (inv : Consistent s) : s'.panic ≠ some "log.committing" := by
  cases st with
  | logWritePanic _ _ _ _ err =>
    rcases logWrite_error err with ⟨rfl, -⟩ | ⟨rfl, -⟩ <;> simp
  | endOpPanic _ mem err =>
    -- the caller is inside of an operation, so that nobody commits
    have := (inv.at_run (inv.pc_run mem)).1
    rw [endOp_error err] at this
    cases this
  | _ =>
    rename_i none
    simp_all [State.fill, State.writeLog, State.bwrite, State.writeHead, State.install, State.clearHead]

lemma Accounted.act (i : Accounted d) (a : Action p d l l' d') : Accounted d' := by
  cases a with
  | admitted st =>
    refine ⟨i.log.step st, i.pinned.same ?_, panic_of_step st i.log⟩
    cases st with
    | beginOp _ _ _ _ ok =>
      obtain ⟨-, -, rfl⟩ := beginOp_some ok
      simp [State.pinned]
  | refused => exact i
  | logWrite st none =>
    refine ⟨i.log.step st, ?_, panic_of_step st i.log⟩
    cases st with
    | logWrite _ mem _ _ ok =>
      obtain ⟨-, -, -, rfl⟩ := logWrite_ok ok
      exact i.pinned.logWrite (i.log.pc_run mem) rfl (i.log.pc_run mem)
    | logWritePanic => simp at none
  | more st none more =>
    refine ⟨i.log.step st, i.pinned.same ?_, panic_of_step st i.log⟩
    cases st with
    | endOp _ _ ok =>
      obtain ⟨-, rfl, -⟩ := endOp_ok ok
      simp [State.pinned]
    | endOpCommit _ _ ok =>
      obtain ⟨-, rfl, -⟩ := endOp_ok ok
      simp at more
    | endOpPanic => simp at none
  | last st none last =>
    refine ⟨i.log.step st, i.pinned.same ?_, panic_of_step st i.log⟩
    cases st with
    | endOp _ _ ok =>
      obtain ⟨-, rfl, -⟩ := endOp_ok ok
      simp at last
    | endOpCommit _ mem ok =>
      obtain ⟨-, rfl, -⟩ := endOp_ok ok
      by_cases e : d.state.log.lh = [] <;> simp [State.pinned, i.log.pc_run mem, e]
    | endOpPanic => simp at none
  | finish at_ st =>
    refine ⟨i.log.step st, i.pinned.same ?_, panic_of_step st i.log⟩
    cases st with
    | finish => simp [State.pinned, at_]
    | _ => simp_all
  | logWritePanic st some =>
    refine ⟨i.log.step st, i.pinned.same ?_, panic_of_step st i.log⟩
    cases st with
    | logWritePanic => simp [State.pinned]
    | logWrite none => simp [none] at some
  | endOpPanic st some =>
    refine ⟨i.log.step st, i.pinned.same ?_, panic_of_step st i.log⟩
    cases st with
    | endOpPanic => simp [State.pinned]
    | endOp none => simp [none] at some
    | endOpCommit none => simp [none] at some

lemma Accounted.free (i : Accounted d) (f : Free p d d') : Accounted d' := by
  cases f with
  | bread st =>
    refine ⟨i.log.step st, i.pinned.same ?_, panic_of_step st i.log⟩
    cases st with
    | bread => simp [State.pinned, State.fill]
  | recycle st =>
    refine ⟨i.log.step st, i.pinned.same ?_, panic_of_step st i.log⟩
    cases st with
    | recycle => simp [State.pinned]
  | commit _ running st =>
    refine ⟨i.log.step st, ?_, panic_of_step st i.log⟩
    cases st with
    | writeLog _ at_ =>
      simp only [bunpin, at_]
      exact i.pinned.same (by simp [State.pinned, State.writeLog, State.bwrite, State.fill, at_])
    | writeHead _ at_ =>
      simp only [bunpin, at_]
      exact i.pinned.same (by simp [State.pinned, State.writeHead, State.bwrite, at_])
    | install _ at_ get => exact i.pinned.install i.log.nodup at_ get rfl rfl
    | clearHead _ at_ =>
      simp only [bunpin, at_, List.getElem?_length]
      exact i.pinned.same (by simp [State.pinned, State.clearHead, State.writeHead, State.bwrite, at_])
    | finish _ at_ => exact absurd at_ running

/-- The call will wake those who sleep on `&log`. -/
def owes : Place → Unit → Prop
  | .endWakeup, _ | .finishWakeup, _ => True
  | _, _ => False

/-- Before it sleeps a caller of `begin_op` has found the log full. -/
def At : Place → Shared → Prop
  | .beginSleep, d => Full d.state.log
  | _, _ => True

lemma discipline : Discipline monitor Accounted At (fun _ d => Full d.state.log) owes where
  start {p l d} _ start := by
    cases start <;> trivial
  act {p l d k l' d'} i _ a := by
    refine ⟨i.act a, ?_⟩
    cases a with
    | refused none => exact ⟨beginOp_none none, fun c => ⟨False.elim, .inl⟩⟩
    | admitted st =>
      refine ⟨trivial, fun c => ⟨False.elim, fun f => .inl ?_⟩⟩
      simpa using f.step st i.log
    | logWrite st =>
      refine ⟨trivial, fun c => ⟨False.elim, fun f => .inl ?_⟩⟩
      simpa using f.step st i.log
    | more => exact ⟨trivial, fun c => ⟨False.elim, fun _ => .inr trivial⟩⟩
    | last _ _ last => exact ⟨trivial, fun c => ⟨False.elim, fun _ => .inl (.inl last)⟩⟩
    | finish => exact ⟨trivial, fun c => ⟨False.elim, fun _ => .inr trivial⟩⟩
    | logWritePanic st =>
      refine ⟨trivial, fun c => ⟨False.elim, fun f => .inl ?_⟩⟩
      simpa using f.step st i.log
    | endOpPanic st some =>
      refine ⟨trivial, fun c => ⟨False.elim, fun f => .inl ?_⟩⟩
      cases st with
      | endOpPanic => exact f
      | endOp none => simp [none] at some
      | endOpCommit none => simp [none] at some
  wakes {l c l' d} _ wakes := by
    cases wakes <;> exact ⟨trivial, fun c' ne => absurd rfl ne⟩
  sleeps {l c l' d} _ found sleeps := by
    obtain ⟨rfl, rfl⟩ := sleeps
    exact ⟨found, fun _ => id, fun _ _ => trivial⟩
  free {p d d'} i f := by
    have full : Full d.state.log → Full d'.state.log := by
      intro full
      cases f with
      | bread st => simpa using full.step st i.log
      | recycle st => simpa using full.step st i.log
      | commit _ running st => simpa [running] using full.step st i.log
    refine ⟨i.free f, fun l found => ?_, fun _ => full⟩
    cases l with
    | beginSleep => exact full found
    | _ => trivial

/-- A log after `initlog`: no operation, no commit, an empty header. -/
def initlog (first size : ℕ) (disk : ℕ → Block) : Shared := ⟨initial first size disk, fun _ => 0, none⟩

lemma accounted_initlog {first size : ℕ} {disk : ℕ → Block} : Accounted (initlog first size disk) :=
  ⟨.initial, fun b => by simp [initlog, initial, State.pinned], by simp [initlog, initial]⟩

/-- In every state that any interleaving of `begin_op`, `log_write`, `end_op` and the steps of `commit()` leads to: nobody
commits while an operation is in progress; the header is empty if neither is the case; `panic("log.committing")` is not
reached; the entries of the header are distinct and have one pin each until `install_trans` gets to them, and nothing
else is pinned; and if `log.lock` is free, whoever sleeps on `&log` would not be admitted. -/
theorem log_admission {first size : ℕ} {disk : ℕ → Block} {es : List (Event NPROC Place)}
    {s : Monitor.State NPROC Shared Place Unit} (run : Run (Monitor.Step monitor) (init (initlog first size disk)) es s) :
    (s.data.state.log.committing → s.data.state.log.outstanding = 0) ∧
    (s.data.state.log.outstanding = 0 → s.data.state.log.committing = false → s.data.state.log.lh = []) ∧
    s.data.state.panic ≠ some "log.committing" ∧
    s.data.state.log.lh.Nodup ∧
    (∀ b, b ∉ s.data.state.log.lh → s.data.pins b = 0) ∧
    (∀ b ∈ s.data.state.log.lh, (∀ tail, s.data.state.pc ≠ .installTrans tail) → s.data.pins b = 1) ∧
    (∀ tail b, s.data.state.pc = .installTrans tail →
      s.data.pins b = if b ∈ s.data.state.log.lh.drop tail then 1 else 0) ∧
    (s.holder = none → ∀ p l, s.threads p = .sleeping () l false →
      s.data.state.log.committing ∨
        s.data.state.log.lh.length + (s.data.state.log.outstanding + 1) * MAXOPBLOCKS > LOGSIZE) := by
  have paid : ∀ {l}, monitor.ends l → ∀ c, ¬owes l c := by
    rintro l rfl c
    exact id
  have sound := discipline.sound accounted_initlog (run.mono (P := fun _ => True) trivial (fun _ _ => trivial)
    fun _ st => ⟨st, st.paid paid⟩)
  have i := sound.data
  have phase := i.log.phase
  refine ⟨fun c => ?_, fun out nc => ?_, i.panic, i.log.nodup, fun b no => ?_, fun b mem at_ => ?_, fun tail b at_ => ?_,
    fun free p l is => ?_⟩
  · unfold Phase at phase
    split at phase <;> simp_all
  · unfold Phase at phase
    split at phase <;> simp_all
  · have no' : b ∉ s.data.state.pinned := by
      unfold State.pinned
      split
      · exact fun mem => no (List.mem_of_mem_drop mem)
      · exact List.not_mem_nil
      · exact no
    rw [i.pinned b, if_neg no']
  · have mem' : b ∈ s.data.state.pinned := by
      unfold State.pinned
      unfold Phase at phase
      split <;> simp_all
    rw [i.pinned b, if_pos mem']
  · rw [i.pinned b, State.pinned, at_]
  · exact sound.blocked_of_free free (p := p) (c := ()) (by simp [is, Thread.chan])

abbrev thirty : Monitor.State NPROC Shared Place Unit := init (initlog 2 31 fun _ => default)

lemma notMem_active {p : ℕ} {active : List (ℕ × ℕ)} (no : p ∉ active.map Prod.fst) : ∀ o, (p, o) ∉ active :=
  fun _ mem => no (List.mem_map_of_mem mem)

/-- Three operations are in progress, and a fourth caller of `begin_op` sleeps because the log might get full. -/
theorem log_admission_sleeper :
    ∃ es s, Run (Monitor.Step monitor) thirty es s ∧ s.holder = none ∧ s.threads 3 = .sleeping () .beginOp false ∧
      s.data.state.log.outstanding = 3 ∧
      (s.data.state.log.committing ∨
        s.data.state.log.lh.length + (s.data.state.log.outstanding + 1) * MAXOPBLOCKS > LOGSIZE) := by
  have run : Run (Monitor.Step monitor) thirty [] thirty := .nil
  have run := run.snoc (.enter (p := 0) (l := Place.beginOp) rfl rfl (.beginOp (notMem_active (by decide)) nofun))
    |>.snoc (.act (p := 0) rfl (.admitted (.beginOp rfl nofun nofun (notMem_active (by decide)) rfl)))
    |>.snoc (.leave (p := 0) rfl rfl)
  have run := run.snoc (.enter (p := 1) (l := Place.beginOp) rfl rfl (.beginOp (notMem_active (by decide)) nofun))
    |>.snoc (.act (p := 1) rfl (.admitted (.beginOp rfl nofun nofun (notMem_active (by decide)) rfl)))
    |>.snoc (.leave (p := 1) rfl rfl)
  have run := run.snoc (.enter (p := 2) (l := Place.beginOp) rfl rfl (.beginOp (notMem_active (by decide)) nofun))
    |>.snoc (.act (p := 2) rfl (.admitted (.beginOp rfl nofun nofun (notMem_active (by decide)) rfl)))
    |>.snoc (.leave (p := 2) rfl rfl)
  have run := run.snoc (.enter (p := 3) (l := Place.beginOp) rfl rfl (.beginOp (notMem_active (by decide)) nofun))
    |>.snoc (.act (p := 3) rfl (.refused rfl)) |>.snoc (.sleep (p := 3) (c := ()) rfl ⟨rfl, rfl⟩)
    |>.snoc (.release (p := 3) rfl) |>.snoc (.sleeping (p := 3) rfl) |>.snoc (.sched (p := 3) rfl)
  exact ⟨_, _, run, rfl, rfl, rfl, (log_admission run).2.2.2.2.2.2.2 rfl 3 _ rfl⟩

end Xv6.Log
