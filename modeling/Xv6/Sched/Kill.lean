import Xv6.Sched.Progress

/-!
# Kill and sleep

The loops of `wait`, `waitx`, `piperead`, `pipewrite`, `consoleread` and `sys_sleep` check `killed` and then
call `sleep`. `kill` wakes a sleeping process up, but a process that it finds between the check and the sleep
goes to sleep all the same, and stays there until something else wakes it up.
-/

namespace Xv6.Sched

/-- The process `p` sleeps in one of the loops although it has been killed. -/
def State.LostKill (s : State) (p : Fin NPROC) : Prop :=
  (s.slots p).lock = none ∧ (s.slots p).state = .sleeping ∧ (∃ L, (s.threads p).pc = .woken L) ∧
    (s.slots p).killed = true

/-- The process `p` has found `killed` clear and has not gone to sleep yet. -/
def State.Gap (s : State) (p : Fin NPROC) : Prop := ∃ L, (s.threads p).pc = .sleep L

/-- A step that does not kill a process between its check and its sleep. -/
def HeardStep (s : State) (c : Fin NCPU) (s' : State) : Prop :=
  Step s c s' ∧ ∀ p, s.Gap p → (s.slots p).killed = false → (s'.slots p).killed = false

/-- A process that is about to sleep, or sleeps, in one of the loops has not been killed. -/
structure Heard (s : State) : Prop where
  gap : ∀ {p L}, (s.threads p).pc = .sleep L → (s.slots p).killed = false
  asleep : ∀ {p L}, (s.threads p).pc = .woken L → (s.slots p).state = .sleeping →
    (s.slots p).killed = false

variable {s s' : State} {c d : Fin NCPU} {p q r : Fin NPROC} {pc pc' : Pc}

section

attribute [local simp] State.put State.goto State.setThread State.setCpu State.setLk

lemma Step.gap {L} (st : Step s c s') (g : (s'.threads p).pc = .sleep L) :
    s.Gap p ∨ (s'.slots p).killed = false := by
  simp only [State.Gap]
  cases st with simp [Function.update_apply] at g ⊢
  | move r e => cases e <;> grind [State.Runs]
  | acquire r e => grind [State.Runs, e.enters]
  | release r e => grind [State.Runs, e.keeps]
  | edit r e => cases e <;> grind [State.Runs]
  | _ => grind [State.Runs]

lemma Step.gap_asleep {L} (st : Step s c s') (g : (s'.threads p).pc = .woken L)
    (a : (s'.slots p).state = .sleeping) :
    (s.Gap p ∨ (s.threads p).pc = .woken L ∧ (s.slots p).state = .sleeping) ∧
      (s'.slots p).killed = (s.slots p).killed := by
  simp only [State.Gap]
  cases st with simp [Function.update_apply] at g a ⊢
  | move r e => cases e <;> grind [State.Runs]
  | acquire r e => grind [State.Runs, e.enters]
  | release r e => grind [State.Runs, e.keeps]
  | edit r e => cases e <;> grind [State.Runs, wake, setKilled, freeproc]
  | _ => grind [State.Runs, wake, timeUpdate, freeproc]

end

lemma Heard.step (heard : Heard s) (st : HeardStep s c s') : Heard s' where
  gap {p L} g := by
    rcases st.1.gap g with ⟨L, h⟩ | h
    · exact st.2 p ⟨L, h⟩ (heard.gap h)
    · exact h
  asleep {p L} g a := by
    obtain ⟨⟨L, h⟩ | ⟨h, a⟩, e⟩ := st.1.gap_asleep g a
    · rw [e, heard.gap h]
    · rw [e, heard.asleep h a]

/-- In every run in which no kill lands between a check and the sleep that follows it, no process sleeps in
one of the loops although it has been killed. -/
theorem kill_heard {sz pt tf cs} (run : Run HeardStep (boot sz pt tf) cs s) : ¬ s.LostKill p := by
  have heard : Heard s := run.invariant
    ⟨fun g => by simp [boot] at g, fun g => by simp [boot] at g⟩ fun h st => h.step st
  rintro ⟨-, st, ⟨L, g⟩, k⟩
  simp [heard.asleep g st] at k

/-- The statement for the run that starts the first process. -/
theorem kill_heard_first : ¬ resumed.LostKill initproc := by
  have first : HeardStep (boot 1 1 1) cpu0 dispatched := by
    refine ⟨.dispatch ⟨rfl, fun _ => rfl⟩ rfl rfl, ?_⟩
    rintro p ⟨L, h⟩
    simp [boot] at h
  have second : HeardStep dispatched cpu0 resumed := by
    refine ⟨.resume (k := .forkret) ⟨rfl, rfl, rfl, fun _ => rfl⟩ (by decide), ?_⟩
    rintro p ⟨L, h⟩
    simp [dispatched, State.put, State.setCpu, boot] at h
  exact kill_heard (.snoc (.snoc .nil first) second)

/-- The first process creates a child, which CPU 1 runs and which calls `piperead`, `pipewrite`,
`consoleread` or `sys_sleep`. It finds `killed` clear; then the first process, on CPU 0, kills it; then it
goes to sleep. -/
lemma loses_kill {L : Loop} (nw : L.isWait = false) :
    ∃ cs s, Run Step (boot 1 1 1) cs s ∧ s.LostKill child := by
  have other {P : Prop} (h : cpu1 = cpu0) : P := absurd h (by decide)
  have r := fork_run (c := cpu0) (p := initproc) 1 1 run_resumed ⟨rfl, rfl, rfl, fun _ => rfl⟩
    (show child ≠ initproc by decide) rfl rfl rfl
  have r := r.snoc (.skip (c := cpu1) (i := initproc) ⟨rfl, other⟩ rfl (by decide))
  have r := r.snoc (.dispatch (c := cpu1) (i := child) ⟨rfl, other⟩ rfl rfl)
  have r := r.snoc (.resume (c := cpu1) (p := child) (k := .forkret)
    ⟨rfl, rfl, rfl, other⟩ (by decide))
  have r := r.snoc (.acquire (c := cpu1) (p := child) ⟨rfl, rfl, rfl, other⟩ (.loop nw) rfl)
  have r := r.snoc (.move (c := cpu1) (p := child) ⟨rfl, rfl, rfl, other⟩ (.loop nw))
  -- the check, the kill and the sleep
  have r := r.snoc (.move (c := cpu1) (p := child) ⟨rfl, rfl, rfl, other⟩ (.alive (fun _ => rfl) rfl))
  have r := r.snoc (.edit (c := cpu0) (p := initproc) ⟨rfl, rfl, rfl, fun _ => rfl⟩
    (.kill (q := child) rfl rfl))
  have r := r.snoc (.sleepLock (c := cpu1) (p := child) ⟨rfl, rfl, rfl, other⟩ rfl)
  have r := r.snoc (.sleep (c := cpu1) (p := child) ⟨rfl, rfl, rfl, other⟩)
  have r := r.snoc (.swtch (c := cpu1) (p := child) ⟨rfl, rfl, rfl, other⟩ rfl nofun)
  have r := r.snoc (.back (c := cpu1) (p := child) rfl)
  exact ⟨_, _, r, rfl, rfl, ⟨L, rfl⟩, rfl⟩

/-- A killed process sleeps in `consoleread`. -/
theorem kill_lost : ∃ cs s, Run Step (boot 1 1 1) cs s ∧ s.LostKill child :=
  loses_kill (L := .consoleread) rfl

end Xv6.Sched
