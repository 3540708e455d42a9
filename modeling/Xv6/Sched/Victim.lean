import Xv6.Sched.Progress

/-!
# The victims of `kill`

`kill` of `kernel/proc.c` looks for the first slot with the pid it is given, whatever the state of the slot. A free slot
has pid 0, so that `kill(0)` finds one and marks it. `allocproc` does not clear the mark: the next process in that slot is
born killed. If no call marks a free slot, every process that `allocproc` returns is unmarked (`kill_targets_live`).
-/

namespace Xv6.Sched

/-- The loop of `kill` over the slots. -/
def killFrom (pid : Int) (slots : Fin NPROC → Slot) : List (Fin NPROC) → Int × (Fin NPROC → Slot)
  | [] => (-1, slots)
  | p :: rest =>
    if (slots p).pid = pid then (0, Function.update slots p (setKilled (slots p))) else killFrom pid slots rest

/-- `kill`: the result and the table afterwards. -/
def kill (pid : Int) (slots : Fin NPROC → Slot) : Int × (Fin NPROC → Slot) := killFrom pid slots (List.finRange NPROC)

def victim (pid : Int) (slots : Fin NPROC → Slot) : Option (Fin NPROC) :=
  (List.finRange NPROC).find? fun p => (slots p).pid = pid

/-- The slot is that of a live process with the pid. -/
def Slot.IsLive (S : Slot) (pid : Int) : Prop := S.state ≠ .unused ∧ S.pid = pid

/-- `kill` returns 0 and changes the killed flag, and the state if it sleeps, of one live process with the pid; or it returns
-1 and changes nothing, and there is no such process. -/
def KillsLive (pid : Int) (slots : Fin NPROC → Slot) : Prop :=
  (∃ q, (slots q).IsLive pid ∧ kill pid slots = (0, Function.update slots q (setKilled (slots q)))) ∨
    (∀ q, ¬(slots q).IsLive pid) ∧ kill pid slots = (-1, slots)

/-- `kill` finds no free slot; or a free one that is marked already, and there is a live process with that pid which `kill`
would not have changed either. -/
def KillSafe (pid : Int) (slots : Fin NPROC → Slot) : Prop :=
  ∀ q, victim pid slots = some q → (slots q).state ≠ .unused ∨
    (slots q).killed = true ∧ ∃ r, (slots r).IsLive pid ∧ setKilled (slots r) = slots r

section Table

variable {pid : Int} {slots : Fin NPROC → Slot} {q : Fin NPROC}

lemma kill_eq : kill pid slots = match victim pid slots with
    | some q => (0, Function.update slots q (setKilled (slots q)))
    | none => (-1, slots) := by
  rw [kill, victim]
  induction List.finRange NPROC with
  | nil => rfl
  | cons p rest ih =>
    rw [killFrom]
    by_cases h : (slots p).pid = pid
    · rw [if_pos h, List.find?_cons_of_pos (by simpa using h)]
    · rw [if_neg h, ih, List.find?_cons_of_neg (by simpa using h)]

lemma victim_pid (h : victim pid slots = some q) : (slots q).pid = pid := by
  simpa using List.find?_some h

lemma victim_none (h : victim pid slots = none) : (slots q).pid ≠ pid := by
  simpa using List.find?_eq_none.1 h q (List.mem_finRange q)

lemma setKilled_eq {S : Slot} : setKilled S = S ↔ S.killed = true ∧ S.state ≠ .sleeping := by
  constructor
  · intro eq
    have killed := congrArg Slot.killed eq
    have state := congrArg Slot.state eq
    simp only [setKilled] at killed state
    exact ⟨killed.symm, fun asleep => by simp [asleep] at state⟩
  · rintro ⟨killed, awake⟩
    rw [setKilled, if_neg awake, ← killed]

lemma killsLive_iff : KillsLive pid slots ↔ KillSafe pid slots := by
  cases h : victim pid slots with
  | none =>
    have eq : kill pid slots = (-1, slots) := by rw [kill_eq, h]
    constructor
    · rintro - q found
      rw [h] at found
      cases found
    · exact fun _ => .inr ⟨fun q live => victim_none h live.2, eq⟩
  | some q =>
    have eq : kill pid slots = (0, Function.update slots q (setKilled (slots q))) := by rw [kill_eq, h]
    have pidq := victim_pid h
    by_cases live : (slots q).state = .unused
    · rw [KillsLive, KillSafe, eq]
      constructor
      · rintro (⟨r, liver, same⟩ | ⟨-, same⟩) q' found
        · obtain rfl := Option.some.inj (h.symm.trans found)
          have ne : r ≠ q := fun e => liver.1 (e ▸ live)
          have same := (Prod.mk.inj same).2
          have atq := congrFun same q
          have atr := congrFun same r
          rw [Function.update_self, Function.update_of_ne ne.symm] at atq
          rw [Function.update_self, Function.update_of_ne ne] at atr
          exact .inr ⟨(setKilled_eq.1 atq).1, r, liver, atr.symm⟩
        · exact absurd (Prod.mk.inj same).1 (by decide)
      · intro safe
        obtain ⟨marked, r, liver, same⟩ := (safe q h).resolve_left (not_not.2 live)
        have keep : setKilled (slots q) = slots q := setKilled_eq.2 ⟨marked, by simp [live]⟩
        refine .inl ⟨r, liver, ?_⟩
        rw [keep, same, Function.update_eq_self, Function.update_eq_self]
    · constructor
      · rintro - r found
        obtain rfl := Option.some.inj (h.symm.trans found)
        exact .inl live
      · exact fun _ => .inl ⟨q, ⟨live, pidq⟩, eq⟩

end Table

/-- A step that does not mark a free slot. -/
def LiveStep (s : State) (c : Fin NCPU) (s' : State) : Prop :=
  Step s c s' ∧ ∀ q, (s.slots q).state = .unused → (s.slots q).killed = false → (s'.slots q).killed = false

/-- The slot that `allocproc` works on in the place `pc`, or has just returned. -/
def Pc.allocates : Pc → Option (Fin NPROC)
  | .forkTrapframe np => some np
  | .forkPagetable np => some np
  | .forkCopy np => some np
  | _ => none

/-- Free slots and new processes are not marked. -/
structure Unmarked (s : State) : Prop where
  free : ∀ {q}, (s.slots q).state = .unused → (s.slots q).killed = false
  fresh : ∀ {p np}, (s.threads p).pc.allocates = some np → (s.slots np).killed = false

section Run

variable {s s' : State} {c : Fin NCPU} {p q np : Fin NPROC}

lemma Pc.allocates_locks {pc : Pc} (h : pc.allocates = some np) : pc.locks = some np := by
  cases pc <;> simp_all [Pc.allocates, Pc.locks]

lemma kill_step {pid : Int} (here : s.At c p .user) (found : victim pid s.slots = some q) (lock : (s.slots q).lock = none) :
    Step s c { s with slots := (kill pid s.slots).2 } := by
  have st : Step s c ((s.put q (setKilled (s.slots q))).goto p .user) := .edit here (.kill lock (victim_pid found))
  have threads : Function.update s.threads p ⟨.user, .run⟩ = s.threads := by
    rw [← here.thread, Function.update_eq_self]
  simpa only [State.put, State.goto, State.setThread, threads, kill_eq, found] using st

lemma Local.allocates {pc pc' : Pc} (l : Local s p pc pc') : pc'.allocates = none := by
  cases l <;> rfl

lemma Takes.allocates {pc pc' : Pc} {k : Lk} (t : Takes p pc k pc') : pc'.allocates = none := by
  cases t with
  | @woken L => cases L <;> rfl
  | _ => rfl

lemma Drops.allocates {pc pc' : Pc} {k : Lk} (d : Drops s p pc k pc') : pc'.allocates = none := by
  cases d <;> rfl

/-- A step leaves the mark of a slot, or clears it, or it marks a slot whose lock was free. -/
lemma Step.killed (st : Step s c s') : (s'.slots q).killed = (s.slots q).killed ∨ (s'.slots q).killed = false ∨
    (s.slots q).lock = none := by
  cases st <;> simp only [State.put, State.goto, State.setThread, State.setCpu, State.setLk, Function.update_apply]
  case edit _ e =>
    cases e <;> grind [wake, setKilled, freeproc]
  all_goals grind [wake, timeUpdate, freeproc]

lemma Step.freed (st : Step s c s') (free : (s'.slots q).state = .unused) :
    (s.slots q).state = .unused ∨ (s'.slots q).killed = false := by
  revert free
  cases st <;> simp only [State.put, State.goto, State.setThread, State.setCpu, State.setLk, Function.update_apply]
  case edit _ e =>
    cases e <;> grind [wake, setKilled, freeproc]
  all_goals grind [wake, timeUpdate, freeproc]

lemma Step.allocates (st : Step s c s') (h : (s'.threads p).pc.allocates = some np) :
    (s.threads p).pc.allocates = some np ∨
      (s.slots np).state = .unused ∧ (s'.slots np).killed = (s.slots np).killed := by
  revert h
  cases st <;> simp only [State.put, State.goto, State.setThread, State.setCpu, State.setLk, Function.update_apply]
  case edit _ e =>
    cases e <;> grind [Pc.allocates, State.Runs]
  all_goals grind [Pc.allocates, State.Runs, Local.allocates, Takes.allocates, Drops.allocates]

lemma Unmarked.step (unmarked : Unmarked s) (inv : Inv s) (st : LiveStep s c s') : Unmarked s' where
  free {q} free := by
    obtain old | clear := st.1.freed free
    · exact st.2 q old (unmarked.free old)
    · exact clear
  fresh {p np} h := by
    obtain old | ⟨free, same⟩ := st.1.allocates h
    · -- the lock of the slot is held, so that no other process marks it
      have held : (s.slots np).lock ≠ none := by
        obtain ⟨d, -, -, lock⟩ := inv.locks (Pc.allocates_locks old)
        simp [lock]
      obtain same | clear | lock := st.1.killed (q := np)
      · rw [same]
        exact unmarked.fresh old
      · exact clear
      · exact absurd lock held
    · rw [same]
      exact unmarked.free free

lemma Unmarked.boot (sz pt tf : Nat) : Unmarked (boot sz pt tf) where
  free {q} _ := by
    by_cases first : q = initproc <;> simp [Sched.boot, first, emptySlot]
  fresh h := by simp [Sched.boot, Pc.allocates] at h

end Run

/-- A call of `kill` marks the live process with the pid and nothing else, and fails if there is none, iff it does not find a
free slot. In every run in which no free slot is marked, the processes that `allocproc` returns are not marked. -/
theorem kill_targets_live (pid : Int) (slots : Fin NPROC → Slot) : (KillsLive pid slots ↔ KillSafe pid slots) ∧
    ∀ {sz pt tf cs s p np}, Run LiveStep (boot sz pt tf) cs s → (s.threads p).pc = .forkCopy np →
      (s.slots np).killed = false := by
  refine ⟨killsLive_iff, fun run h => ?_⟩
  have inv := run.invariant (P := fun s => Inv s ∧ Unmarked s) ⟨Inv.boot _ _ _, Unmarked.boot _ _ _⟩
    fun ⟨inv, unmarked⟩ st => ⟨inv.step st.1, unmarked.step inv st⟩
  exact inv.2.fresh (by rw [h, Pc.allocates])

/-- A step that marks nothing. -/
def QuietStep (s : State) (c : Fin NCPU) (s' : State) : Prop :=
  Step s c s' ∧ ∀ q, (s'.slots q).killed = (s.slots q).killed

lemma QuietStep.live {s s' : State} {c : Fin NCPU} (st : QuietStep s c s') : LiveStep s c s' :=
  ⟨st.1, fun q _ clear => (st.2 q).trans clear⟩

/-- `allocproc`, called by `p`, returns the free slot `np`; it does not change the marks. -/
lemma alloc_run {s : State} {c : Fin NCPU} {p np : Fin NPROC} (here : s.At c p .user) (lock : (s.slots np).lock = none)
    (free : (s.slots np).state = .unused) :
    ∃ s', Run QuietStep s [c, c, c] s' ∧ (s'.threads p).pc = .forkCopy np ∧
      (s'.slots np).killed = (s.slots np).killed := by
  have there {t : State} {pc} (cpu : t.cpus = s.cpus) (clock : t.clock = s.clock) (thr : t.threads p = ⟨pc, .run⟩) :
      t.At c p pc := ⟨cpu ▸ here.mode, cpu ▸ here.proc, thr, clock ▸ here.clock⟩
  have at_goto {t : State} {pc} : (t.goto p pc).threads p = ⟨pc, .run⟩ := by simp [State.goto, State.setThread]
  have keep {t : State} {S : Slot} {q} (same : S.killed = (t.slots np).killed) :
      ((t.put np S).slots q).killed = (t.slots q).killed := by
    by_cases h : q = np <;> simp [State.put, h, same]
  have r : Run QuietStep s _ _ := .snoc .nil ⟨.fork here lock free, fun _ => keep rfl⟩
  have r := r.snoc ⟨.edit (there rfl rfl at_goto) (@Edit.forkTrapframe _ _ _ np 1), fun _ => keep rfl⟩
  have r := r.snoc ⟨@Step.forkPagetable _ c p np 1 (there rfl rfl at_goto), fun _ => keep rfl⟩
  exact ⟨_, r, by rw [at_goto], by simp [State.put, State.goto, State.setThread]⟩

/-- The first process creates another one, which is not marked when `allocproc` returns it. -/
theorem kill_targets_live_fork : ∃ cs s, Run LiveStep (boot 1 1 1) cs s ∧ (s.threads initproc).pc = .forkCopy child ∧
    (s.slots child).killed = false := by
  have first : QuietStep (boot 1 1 1) cpu0 dispatched := by
    refine ⟨.dispatch ⟨rfl, fun _ => rfl⟩ rfl rfl, fun q => ?_⟩
    by_cases h : q = initproc <;> simp [dispatched, State.put, State.setCpu, h]
  have second : QuietStep dispatched cpu0 resumed := by
    refine ⟨.resume (k := .forkret) ⟨rfl, rfl, rfl, fun _ => rfl⟩ (by decide), fun q => ?_⟩
    by_cases h : q = initproc <;> simp [resumed, State.put, State.goto, State.setThread, h]
  obtain ⟨s, run, pc, -⟩ := alloc_run (c := cpu0) (p := initproc) (s := resumed) ⟨rfl, rfl, rfl, fun _ => rfl⟩
    (show (resumed.slots child).lock = none from rfl) rfl
  have run := ((Run.nil.snoc first).snoc second).append run
  have run := run.mono (P := fun _ => True) trivial (fun _ _ => trivial) fun _ st => QuietStep.live st
  exact ⟨_, s, run, pc, (kill_targets_live 0 (boot 1 1 1).slots).2 run pc⟩

/-- The first process has called `kill(0)`. -/
def killedZero : State := { resumed with slots := (kill 0 resumed.slots).2 }

/-- `kill(0)` marks a free slot, and the process that is created there is born killed. -/
theorem kill_marks_free : ¬KillsLive 0 (boot 1 1 1).slots ∧
    ∃ cs s, Run Step (boot 1 1 1) cs s ∧ (s.threads initproc).pc = .forkCopy child ∧
      (s.slots child).killed = true := by
  constructor
  · rw [killsLive_iff]
    intro safe
    have found : victim 0 (boot 1 1 1).slots = some child := by decide
    simpa [boot, child, initproc, emptySlot] using safe child found
  · have found : victim 0 resumed.slots = some child := by decide
    have slot : killedZero.slots child = { emptySlot with killed := true } := by
      simp only [killedZero, kill_eq, found]
      rfl
    have r : Run Step (boot 1 1 1) _ killedZero :=
      run_resumed.snoc (kill_step (c := cpu0) (p := initproc) ⟨rfl, rfl, rfl, fun _ => rfl⟩ found rfl)
    obtain ⟨s, run, pc, killed⟩ := alloc_run (c := cpu0) (p := initproc) (s := killedZero) ⟨rfl, rfl, rfl, fun _ => rfl⟩
      (show (killedZero.slots child).lock = none by rw [slot]; rfl) (by rw [slot]; rfl)
    have run : Run Step killedZero _ s := run.mono (P := fun _ => True) trivial (fun _ _ => trivial) fun _ st => st.1
    exact ⟨_, s, r.append run, pc, by rw [killed, slot]⟩

end Xv6.Sched
