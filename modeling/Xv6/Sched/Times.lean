import Xv6.Sched.Progress

/-!
# Running and waiting times

`rtime` counts the visits of `time_updates` that found the process running. Between two visits of a slot there
is a tick, so the count is bounded by the ticks since the process was created, unless it is created after the
tick and before the visit of the same sweep: then it can be counted for a tick before its `ctime`, and the
waiting time that `waitx` computes wraps below zero.
-/

namespace Xv6.Sched

variable {s s' : State} {c d : Fin NCPU} {p q r : Fin NPROC} {pc pc' : Pc}

/-- The clock fields of the process are set: it is alive, or `fork` has allocated its page table. -/
def State.Live (s : State) (q : Fin NPROC) : Prop :=
  (s.slots q).state.Active ∨ ∃ p, (s.threads p).pc.child = some q ∧
    (s.threads p).pc ≠ .forkTrapframe q ∧ (s.threads p).pc ≠ .forkPagetable q

/-- The sweep of the current tick has not been to slot `q`. -/
def State.Due (s : State) (q : Fin NPROC) : Prop := ∃ i, s.clock = some i ∧ i ≤ q.val

/-- The number of ticks since the process was created. -/
def State.age (s : State) (q : Fin NPROC) : Nat := (s.ticks - (s.slots q).ctime).toNat

/-- A step in which no visit counts a process that was created in the current tick, and no process gets as
old as `ticks` counts. -/
def TimedStep (s : State) (c : Fin NCPU) (s' : State) : Prop :=
  Step s c s' ∧
  (∀ q, (s'.slots q).runs = (s.slots q).runs + 1 → (s.slots q).ctime ≠ s.ticks) ∧
  (s'.ticks = s.ticks + 1 → ∀ q, (s.slots q).state ≠ .unused → (s.slots q).state ≠ .zombie →
    (s.slots q).ctime ≠ s'.ticks)

/-- A process has not been found running more often than there were ticks in its life. -/
structure Timed (s : State) : Prop where
  live : ∀ {q}, s.Live q → (s.slots q).runs ≤ s.age q
  due : ∀ {q}, s.Live q → s.Due q → (s.slots q).ctime ≠ s.ticks → (s.slots q).runs + 1 ≤ s.age q
  zombie : ∀ {q}, (s.slots q).state = .zombie →
    (s.slots q).runs ≤ ((s.slots q).etime - (s.slots q).ctime).toNat

/-- How a step changes the clock and the clock fields of the slots. -/
inductive TimeEdge (s s' : State) (c : Fin NCPU) : Prop where
  | none :
    s'.ticks = s.ticks →
    s'.clock = s.clock →
    (∀ q, (s.slots q).state ≠ .unused → (∀ p, ¬ s.At c p (.forkPagetable q)) →
      (s'.slots q).ctime = (s.slots q).ctime ∧ (s'.slots q).runs = (s.slots q).runs) →
    (∀ p q, s.At c p (.forkPagetable q) → s'.threads p ≠ s.threads p → (s'.slots q).state ≠ .unused →
      (s'.slots q).ctime = s.ticks ∧ (s'.slots q).runs = 0) →
    TimeEdge s s' c
  | tick :
    s.clock = .none →
    s' = { s with locks := s'.locks, ticks := s.ticks + 1, clock := some 0 } →
    TimeEdge s s' c
  | visit {i} :
    s.clock = some i.val →
    s' = { s.put i (timeUpdate (s.slots i)) with clock := some (i.val + 1) } →
    TimeEdge s s' c
  | done :
    s.clock = some NPROC →
    s' = { s with locks := s'.locks, clock := .none } →
    TimeEdge s s' c

section

attribute [local simp] State.put State.goto State.setThread State.setCpu State.setLk

lemma Step.time (st : Step s c s') : TimeEdge s s' c := by
  cases st with
  | tick en =>
    refine .tick ?_ rfl
    rcases en with ⟨_, sc⟩ | ⟨_, _, r, -⟩
    · exact sc.clock rfl
    · exact r.clock rfl
  | visit h => exact .visit h rfl
  | tickDone h => exact .done h rfl
  | edit r e =>
    refine .none rfl rfl (fun q nu nf => ?_) (fun p q at' ne => ?_)
    · simp [Function.update_apply]
      cases e <;> grind [wake, setKilled, freeproc]
    · simp [Function.update_apply] at ne ⊢
      cases e <;> grind [State.Runs, wake, setKilled, freeproc]
  | move r e =>
    refine .none rfl rfl (fun q nu nf => ⟨rfl, rfl⟩) (fun p q at' ne => ?_)
    have := e.keeps
    simp [Function.update_apply] at ne ⊢
    grind [State.Runs, Pc.child]
  | acquire r e =>
    refine .none rfl rfl (fun q nu nf => ⟨rfl, rfl⟩) (fun p q at' ne => ?_)
    have := e.keeps
    simp [Function.update_apply] at ne ⊢
    grind [State.Runs, Pc.child]
  | release r e =>
    refine .none rfl rfl (fun q nu nf => ⟨rfl, rfl⟩) (fun p q at' ne => ?_)
    have := e.keeps
    simp [Function.update_apply] at ne ⊢
    grind [State.Runs, Pc.child]
  | _ =>
    refine .none rfl rfl (fun q nu nf => ?_) (fun p q at' ne => ?_)
    · simp [Function.update_apply] <;> grind [wake, freeproc]
    · simp [Function.update_apply] at ne ⊢ <;> grind [State.Runs, wake, freeproc, Pc.locks]

lemma Inv.zombie_time (inv : Inv s) (st : Step s c s') (z : (s'.slots q).state = .zombie) :
    (s'.slots q).ctime = (s.slots q).ctime ∧ (s'.slots q).runs = (s.slots q).runs ∧
    ((s.slots q).state = .zombie ∧ (s'.slots q).etime = (s.slots q).etime ∨
      (s.slots q).state = .running ∧ (s'.slots q).etime = s.ticks) := by
  have running {p pc} (r : s.At c p pc) := inv.at_running r
  have child {p q} := inv.child (p := p) (q := q)
  cases st with simp [Function.update_apply] at z ⊢
  | edit r e => cases e <;> grind [State.Runs, wake, setKilled, freeproc, Pc.child]
  | _ => grind [State.Runs, wake, timeUpdate, freeproc, Pc.child]

lemma Step.own_live (st : Step s c s') (h : (s.cpus c).proc = some p)
    (ch : (s'.threads p).pc.child = some q) (nt : (s'.threads p).pc ≠ .forkTrapframe q)
    (np : (s'.threads p).pc ≠ .forkPagetable q) : ((s.threads p).pc.child = some q ∧
      (s.threads p).pc ≠ .forkTrapframe q ∧ (s.threads p).pc ≠ .forkPagetable q) ∨
    s.At c p (.forkPagetable q) ∧ s'.threads p ≠ s.threads p := by
  cases st with simp [Function.update_apply] at ch nt np ⊢
  | move r e => grind [State.Runs, e.keeps]
  | acquire r e => grind [State.Runs, e.keeps]
  | release r e => grind [State.Runs, e.keeps, Pc.child]
  | edit r e => cases e <;> grind [State.Runs, Pc.child]
  | _ => grind [State.Runs, Pc.child]

end

lemma Inv.live_cases (inv : Inv s) (st : Step s c s') (live : s'.Live q) : s.Live q ∨
    ∃ p, s.At c p (.forkPagetable q) ∧ s'.threads p ≠ s.threads p := by
  rcases live with act | ⟨p, ch, nt, np⟩
  · rcases st.state (q := q) with e | e
    · exact .inl (.inl (e ▸ act))
    · cases e with
      | dispatch _ _ h => exact .inl (.inl (.inr (.inl h)))
      | wake _ h => exact .inl (.inl (.inl h))
      | yield at' | sleepOther at' | exit at' => exact .inl (.inl (.inr (.inr (inv.at_running at'))))
      | sleep r => exact .inl (.inl (.inr (.inr (inv.in_sleep r).1)))
      | launch at' => exact .inl (.inr ⟨_, by rw [at'.thread]; simp [Pc.child]⟩)
      | claim _ _ _ h | free _ _ h => simp [ProcState.Active, h] at act
  · by_cases own : (s.cpus c).proc = some p
    · rcases st.own_live own ch nt np with h | h
      · exact .inl (.inr ⟨p, h⟩)
      · exact .inr ⟨p, h⟩
    · have e := Inv.thread_other st own (by rintro h; simp [h, Pc.child] at ch)
      rw [e] at ch nt np
      exact .inl (.inr ⟨p, ch, nt, np⟩)

lemma Inv.live_set (inv : Inv s) (live : s.Live q) :
    (s.slots q).state ≠ .unused ∧ ∀ p, ¬ s.At c p (.forkPagetable q) := by
  have used {p} (at' : s.At c p (.forkPagetable q)) := inv.child (p := p) (q := q) (by rw [at'.thread]; rfl)
  rcases live with act | ⟨r, ch, -, np⟩
  · refine ⟨fun u => by simp [ProcState.Active, u] at act, fun p at' => ?_⟩
    simp [ProcState.Active, used at'] at act
  · refine ⟨by simp [inv.child ch], fun p at' => ?_⟩
    obtain rfl := inv.sole ch (p := r) (q := p) (by rw [at'.thread]; rfl)
    exact np (by rw [at'.thread])

lemma age_succ {t u : Uint} (ne : u ≠ t + 1) : (t + 1 - u).toNat = (t - u).toNat + 1 := by
  bv_omega

namespace Timed

lemma keep (timed : Timed s) (inv : Inv s) (st : Step s c s') (ht : s'.ticks = s.ticks)
    (hc : s'.clock = s.clock)
    (same : ∀ q, (s.slots q).state ≠ .unused → (∀ p, ¬ s.At c p (.forkPagetable q)) →
      (s'.slots q).ctime = (s.slots q).ctime ∧ (s'.slots q).runs = (s.slots q).runs)
    (reset : ∀ p q, s.At c p (.forkPagetable q) → s'.threads p ≠ s.threads p →
      (s'.slots q).state ≠ .unused → (s'.slots q).ctime = s.ticks ∧ (s'.slots q).runs = 0) :
    (∀ {q}, s'.Live q → (s'.slots q).runs ≤ s'.age q) ∧
    ∀ {q}, s'.Live q → s'.Due q → (s'.slots q).ctime ≠ s'.ticks → (s'.slots q).runs + 1 ≤ s'.age q := by
  refine ⟨fun {q} live => ?_, fun {q} live due ne => ?_⟩
  all_goals
    rcases inv.live_cases st live with l | ⟨p, at', np⟩
    · obtain ⟨hct, hr⟩ := same q (inv.live_set (c := c) l).1 (inv.live_set l).2
      simp only [State.age, State.Due, ht, hc, hct, hr] at *
      first | exact timed.live l | exact timed.due l due ne
    · obtain ⟨hct, hr⟩ := reset p q at' np ((inv.step st).live_set (c := c) live).1
      first | omega | exact absurd (hct.trans ht.symm) ne

lemma step (timed : Timed s) (inv : Inv s) (st : TimedStep s c s') : Timed s' := by
  obtain ⟨st, once, young⟩ := st
  have zombie {q} (z : (s'.slots q).state = .zombie) :
      (s'.slots q).runs ≤ ((s'.slots q).etime - (s'.slots q).ctime).toNat := by
    obtain ⟨hct, hr, ⟨z, he⟩ | ⟨r, he⟩⟩ := inv.zombie_time st z
    · rw [hct, hr, he]
      exact timed.zombie z
    · rw [hct, hr, he]
      exact timed.live (.inl (.inr (.inr r)))
  cases st.time with
  | none ht hc same reset =>
    obtain ⟨live, due⟩ := timed.keep inv st ht hc same reset
    exact ⟨live, due, zombie⟩
  | tick hc e =>
    -- the process is one tick older, and may be counted once
    have older {q} (live : s'.Live q) : (s'.slots q).runs + 1 ≤ s'.age q := by
      have l : s.Live q := by rw [e] at live; exact live
      have nz : (s.slots q).state ≠ .zombie := by
        rcases l with act | ⟨p, ch, -⟩
        · rcases act with h | h | h <;> simp [h]
        · simp [inv.child ch]
      have ne := young (by rw [e]) q (inv.live_set (c := c) l).1 nz
      have old := timed.live l
      rw [e] at ne ⊢
      simp only [State.age] at old ⊢
      rw [age_succ ne]
      omega
    exact ⟨fun l => Nat.le_of_succ_le (older l), fun l _ _ => older l, zombie⟩
  | @visit i hc e =>
    subst e
    have keeps (q) : ((s.put i (timeUpdate (s.slots i))).slots q).state = (s.slots q).state ∧
        ((s.put i (timeUpdate (s.slots i))).slots q).ctime = (s.slots q).ctime := by
      simp only [State.put, Function.update_apply, timeUpdate]
      grind
    have live {q} (l : State.Live { s.put i (timeUpdate (s.slots i)) with clock := some (i.val + 1) } q) :
        s.Live q := by
      rcases l with act | h
      · exact .inl ((keeps q).1 ▸ act)
      · exact .inr h
    refine ⟨fun {q} l => ?_, fun {q} l h ne => ?_, zombie⟩
    · have l' := live l
      have old := timed.live l'
      by_cases e : q = i ∧ (s.slots q).state = .running
      · obtain ⟨rfl, r⟩ := e
        have counted : ((s.put q (timeUpdate (s.slots q))).slots q).runs = (s.slots q).runs + 1 := by
          simp [State.put, timeUpdate, r]
        have due := timed.due l' ⟨q.val, hc, Nat.le_refl _⟩ (once q counted)
        rwa [← counted, State.age, ← (keeps q).2] at due
      · have same : ((s.put i (timeUpdate (s.slots i))).slots q).runs = (s.slots q).runs := by
          simp only [State.put, Function.update_apply, timeUpdate]
          grind
        rwa [← same, State.age, ← (keeps q).2] at old
    · obtain ⟨k, hk, le⟩ := h
      obtain rfl : i.val + 1 = k := by simpa using hk
      have other : q ≠ i := by rintro rfl; omega
      have old := timed.due (live l) ⟨i.val, hc, by omega⟩ ((keeps q).2 ▸ ne)
      simpa [State.age, State.put, other] using old
  | done hc e =>
    rw [e]
    refine ⟨fun l => ?_, fun _ h => ?_, ?_⟩
    · exact timed.live l
    · obtain ⟨_, hk, _⟩ := h
      simp at hk
    · exact timed.zombie

lemma boot (sz pt tf : Nat) : Timed (boot sz pt tf) where
  live {q} _ := by
    simp only [Sched.boot]
    split <;> simp [emptySlot]
  due _ d := by simp [Sched.boot, State.Due] at d
  zombie z := by
    simp only [Sched.boot] at z
    split at z <;> simp [emptySlot] at z

end Timed

lemma Step.rtime (st : Step s c s') (h : (s.slots q).rtime = BitVec.ofNat 32 (s.slots q).runs) :
    (s'.slots q).rtime = BitVec.ofNat 32 (s'.slots q).runs := by
  cases st with simp [State.put, State.goto, State.setThread, State.setCpu, State.setLk, Function.update_apply]
  | edit r e => cases e <;> grind [wake, setKilled, freeproc]
  | _ => grind [wake, timeUpdate, freeproc, BitVec.ofNat_add]

lemma Timed.run {sz pt tf cs} (run : Run TimedStep (Sched.boot sz pt tf) cs s) :
    Inv s ∧ Timed s ∧ ∀ q, (s.slots q).rtime = BitVec.ofNat 32 (s.slots q).runs := by
  refine run.invariant (P := fun s => Inv s ∧ Timed s ∧
    ∀ q, (s.slots q).rtime = BitVec.ofNat 32 (s.slots q).runs)
    ⟨Inv.boot sz pt tf, Timed.boot sz pt tf, fun q => ?_⟩
    fun ⟨inv, timed, eq⟩ st => ⟨inv.step st.1, timed.step inv st, fun q => st.1.rtime (eq q)⟩
  simp only [Sched.boot]
  split <;> simp [emptySlot]

end Xv6.Sched
