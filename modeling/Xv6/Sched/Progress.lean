import Xv6.Sched.Dispatch

/-!
# Runs of fork and exit

A thread that calls `fork`, or `exit` without children, gets through when the locks it needs are free. The
lemmas give the state that it leads to, as the calls of the thread alone.
-/

namespace Xv6.Sched

variable {s s₀ : State} {c : Fin NCPU} {p : Fin NPROC}

/-- The process `p` has created the process `np`. -/
def forkedBy (s : State) (p np : Fin NPROC) (tf pt : Nat) : State :=
  { (s.put np { s.slots np with
      pid := s.nextpid, state := .runnable, ctime := s.ticks, rtime := 0, etime := 0, parent := some p
      sz := (s.slots p).sz, trapframe := tf, pagetable := pt, serial := s.allocated, runs := 0 }).setThread np
        ⟨.user, .saved .forkret⟩ with
    nextpid := succInt s.nextpid
    allocated := s.allocated + 1 }

lemma fork_run {cs np} (tf pt : Nat) (run : Run Step s₀ cs s) (at' : s.At c p .user) (ne : np ≠ p)
    (l : (s.slots np).lock = none) (u : (s.slots np).state = .unused) (wl : s.locks .wait = none) :
    Run Step s₀ (cs ++ [c] ++ [c] ++ [c] ++ [c] ++ [c] ++ [c]) (forkedBy s p np tf pt) := by
  have here {t : State} {pc} (cpu : t.cpus = s.cpus) (ck : t.clock = s.clock)
      (thr : t.threads p = ⟨pc, .run⟩) : t.At c p pc :=
    ⟨cpu ▸ at'.mode, cpu ▸ at'.proc, thr, ck ▸ at'.clock⟩
  have at_goto {t : State} {pc} : (t.goto p pc).threads p = ⟨pc, .run⟩ := by
    simp [State.goto, State.setThread]
  have r := run.snoc (.fork at' l u)
  have r := r.snoc (.edit (here rfl rfl at_goto) (@Edit.forkTrapframe _ _ _ np tf))
  have r := r.snoc (@Step.forkPagetable _ c p np pt (here rfl rfl at_goto))
  have r := r.snoc (.edit (c := c) (p := p) (here rfl rfl at_goto) (@Edit.forkCopy _ _ _ np))
  have r := r.snoc (.edit (c := c) (p := p) (here rfl rfl at_goto) (@Edit.forkParent _ _ _ np wl))
  have r := r.snoc (.edit (c := c) (p := p) (here rfl rfl at_goto)
    (@Edit.forkRun _ _ _ np (by simp [State.put, State.goto, State.setThread])))
  -- the parent is back where it was
  have thr (x y) : Function.update (Function.update (Function.update s.threads p x) np y) p ⟨.user, .run⟩ =
      Function.update s.threads np y := by
    rw [Function.update_comm ne, Function.update_idem, ← at'.thread, Function.update_eq_self]
  simp only [State.put, State.goto, State.setThread, Function.update_idem, Function.update_self,
    Function.update_of_ne ne.symm, thr] at r
  simpa [forkedBy, State.put, State.setThread, l] using r
/-- The thread of `p` is in `exit`, on CPU `c`, and holds `wait_lock`; nothing else has changed. -/
def exiting (s : State) (c : Fin NCPU) (p : Fin NPROC) (pc : Pc) : State :=
  (s.goto p pc).setLk .wait (some c)

def exitedBy (s : State) (c : Fin NCPU) (p : Fin NPROC) (status : Int) : State :=
  { ((s.put p { s.slots p with
        lock := some c, xstate := status, state := .zombie, etime := s.ticks }).setThread p
          ⟨.user, .sched .exit⟩).setLk .wait none with
      exited := s.exited ++ [⟨(s.slots p).serial, (s.slots p).pid, status⟩] }

lemma exit_run {cs} (status : Int) (run : Run Step s₀ cs s) (at' : s.At c p .user) (ni : p ≠ initproc)
    (wl : s.locks .wait = none) (childless : ∀ j, (s.slots j).parent ≠ some p)
    (free : ∀ j, (s.slots j).lock = none) (awake : ∀ j, (s.slots j).state ≠ .sleeping) :
    ∃ cs, Run Step s₀ cs (exitedBy s c p status) := by
  have here (pc) : (exiting s c p pc).At c p pc :=
    ⟨at'.mode, at'.proc, by simp [exiting, State.goto, State.setThread, State.setLk], at'.clock⟩
  have goto (pc pc') : (exiting s c p pc).goto p pc' = exiting s c p pc' := by
    simp [exiting, State.goto, State.setThread, State.setLk]
  have given : ∀ i ≤ NPROC, ∃ cs, Run Step s₀ cs (exiting s c p (.exitReparent status i)) := by
    intro i
    induction i with
    | zero => exact fun _ => ⟨_, run.snoc (.acquire at' (.exit ni) wl)⟩
    | succ i ih =>
      intro lt
      obtain ⟨cs, run⟩ := ih (by omega)
      have st := Step.move (here _) (@Local.exitSkip _ p status ⟨i, lt⟩ (childless ⟨i, lt⟩))
      rw [goto] at st
      exact ⟨_, run.snoc st⟩
  have woken : ∀ j ≤ NPROC, ∃ cs, Run Step s₀ cs (exiting s c p (.exitWakeParent status j)) := by
    intro j
    induction j with
    | zero =>
      intro _
      obtain ⟨cs, run⟩ := given NPROC (by omega)
      have st := Step.move (here _) (@Local.exitGiven _ p status)
      rw [goto] at st
      exact ⟨_, run.snoc st⟩
    | succ j ih =>
      intro lt
      obtain ⟨cs, run⟩ := ih (by omega)
      by_cases e : ⟨j, lt⟩ = p
      · have hj : p.val = j := congrArg Fin.val e.symm
        have st := Step.wakeSelf (here (.exitWakeParent status j)) (.inr ⟨status, by rw [hj], rfl⟩)
        rw [goto, hj] at st
        exact ⟨_, run.snoc st⟩
      · have st := Step.edit (here _) (@Edit.exitWakeParent _ c p status ⟨j, lt⟩ e (free ⟨j, lt⟩))
        -- nobody is woken up
        have same : wake (((exiting s c p (.exitWakeParent status j)).slots p).parent.map .proc)
            ((exiting s c p (.exitWakeParent status j)).slots ⟨j, lt⟩) =
              (exiting s c p (.exitWakeParent status j)).slots ⟨j, lt⟩ := by
          rw [wake, if_neg]
          exact fun h => awake ⟨j, lt⟩ h.1
        rw [same, State.put, Function.update_eq_self] at st
        exact ⟨_, run.snoc (goto _ _ ▸ st)⟩
  obtain ⟨cs, run⟩ := woken NPROC (by omega)
  have st := Step.exitZombie (here (.exitWakeParent status NPROC)) (free p)
  have eq : exitedBy s c p status = exitedBy (exiting s c p (.exitWakeParent status NPROC)) c p status := by
    simp [exitedBy, exiting, State.put, State.goto, State.setThread, State.setLk]
  rw [eq]
  exact ⟨_, run.snoc st⟩

def child : Fin NPROC := ⟨1, by decide⟩

def cpu1 : Fin NCPU := ⟨1, by decide⟩

end Xv6.Sched
