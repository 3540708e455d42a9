import Xv6.Sched.Step

/-!
# One CPU for each process

The invariant behind the locks of the process table. A process is the current one of at most one CPU, and its
state and lock agree with how far its thread is on the way to or from the scheduler (`OnCpu`). A thread in
`fork` or `wait` holds the lock of the slot it works on, and a slot whose lock another CPU holds does not
change (`Inv.guarded`).
-/

namespace Xv6.Sched

/-- The state in which a caller of `sched` leaves the process. -/
def Switch.Fits : Switch → ProcState → Prop
  | .yield, st => st = .runnable
  | .sleep, st => st = .sleeping
  | .exit, st => st = .zombie
  | .forkret, _ => False

/-- CPU `c` runs the kernel thread of `p`, and not the scheduler. -/
def State.Thr (s : State) (c : Fin NCPU) (p : Fin NPROC) : Prop :=
  (s.cpus c).mode = .thread ∧ (s.cpus c).proc = some p

/-- The process `p` of CPU `c` runs, is on its way to the scheduler with its lock held, or comes from
there. -/
inductive OnCpu (s : State) (c : Fin NCPU) (p : Fin NPROC) : Prop where
  | run :
    (s.cpus c).mode = .thread →
    (s.threads p).sw = .run →
    (s.slots p).state = .running →
    OnCpu s c p
  | sleep :
    (s.cpus c).mode = .thread →
    (s.threads p).sw = .sleep →
    (s.slots p).state = .running →
    (s.slots p).lock = some c →
    OnCpu s c p
  | sched {k} :
    (s.cpus c).mode = .thread →
    (s.threads p).sw = .sched k →
    k.Fits (s.slots p).state →
    (s.slots p).lock = some c →
    OnCpu s c p
  | saved {k} :
    (s.cpus c).mode = .thread →
    (s.threads p).sw = .saved k →
    k ≠ .exit →
    (s.slots p).state = .running →
    (s.slots p).lock = some c →
    OnCpu s c p
  | back {k} :
    (s.cpus c).mode = .back p →
    (s.threads p).sw = .saved k →
    k.Fits (s.slots p).state →
    (s.slots p).lock = some c →
    OnCpu s c p

/-- The invariant of the CPUs, the threads and the locks of the slots. -/
structure Inv (s : State) : Prop where
  on : ∀ {c p}, (s.cpus c).proc = some p → OnCpu s c p
  back : ∀ {c p}, (s.cpus c).mode = .back p → (s.cpus c).proc = some p
  once : ∀ {c d p}, (s.cpus c).proc = some p → (s.cpus d).proc = some p → c = d
  running : ∀ {p}, (s.slots p).state = .running → ∃ c, (s.cpus c).proc = some p
  off : ∀ {p}, (s.slots p).state = .sleeping ∨ (s.slots p).state = .runnable →
    (∀ c, (s.cpus c).proc ≠ some p) → ∃ k, k ≠ .exit ∧ (s.threads p).sw = .saved k
  ended : ∀ {p}, (s.threads p).sw = .sched .exit ∨ (s.threads p).sw = .saved .exit →
    (s.threads p).pc = .user
  active : ∀ {p}, (s.threads p).pc ≠ .user → (s.slots p).state.Active
  -- the locks that a thread holds at its place in the code
  locks : ∀ {p q}, (s.threads p).pc.locks = some q →
    ∃ c, s.Thr c p ∧ (s.threads p).sw = .run ∧ (s.slots q).lock = some c
  waits : ∀ {p}, (s.threads p).pc.lk = some .wait →
    ∃ c, s.Thr c p ∧ ((s.threads p).sw = .run ∨ (s.threads p).sw = .sleep) ∧ s.locks .wait = some c
  -- the slots that it works on
  child : ∀ {p q}, (s.threads p).pc.child = some q → (s.slots q).state = .used
  found : ∀ {p q w}, (s.threads p).pc = .waitFound w q → (s.slots q).state = .zombie
  sole : ∀ {p q r}, (s.threads p).pc.child = some r → (s.threads q).pc.child = some r → p = q
  used : ∀ {q}, (s.slots q).state = .used → ∃ p, (s.threads p).pc.child = some q
  fresh : ∀ {p q}, (s.threads p).pc.child = some q → (s.threads p).pc ≠ .forkTrapframe q →
    (s.threads p).pc ≠ .forkPagetable q → s.threads q = ⟨.user, .saved .forkret⟩

variable {s s' : State} {c d : Fin NCPU} {p q : Fin NPROC} {pc pc' : Pc}

lemma Pc.locks_eq {pc : Pc} (h : pc.locks = some q) : pc.child = some q ∨ ∃ w, pc = .waitFound w q := by
  cases pc <;> simp_all [Pc.locks, Pc.child]

lemma OnCpu.congr (on : OnCpu s c p) (cpu : s'.cpus c = s.cpus c)
    (sw : (s'.threads p).sw = (s.threads p).sw) (st : (s'.slots p).state = (s.slots p).state)
    (lk : (s'.slots p).lock = (s.slots p).lock) : OnCpu s' c p := by
  cases on with
  | run m t r => exact .run (cpu ▸ m) (sw ▸ t) (st ▸ r)
  | sleep m t r l => exact .sleep (cpu ▸ m) (sw ▸ t) (st ▸ r) (lk ▸ l)
  | sched m t f l => exact .sched (cpu ▸ m) (sw ▸ t) (st ▸ f) (lk ▸ l)
  | saved m t ne r l => exact .saved (cpu ▸ m) (sw ▸ t) ne (st ▸ r) (lk ▸ l)
  | back m t f l => exact .back (cpu ▸ m) (sw ▸ t) (st ▸ f) (lk ▸ l)

lemma Switch.Fits.exists {k : Switch} {st} (f : k.Fits st) : st ≠ .unused ∧ st ≠ .used := by
  cases k <;> simp_all [Switch.Fits]

lemma OnCpu.exists (on : OnCpu s c p) : (s.slots p).state ≠ .unused ∧ (s.slots p).state ≠ .used := by
  cases on with
  | @sched k _ _ f => exact f.exists
  | @back k _ _ f => exact f.exists
  | _ => simp_all

lemma Local.keeps (h : Local s p pc pc') : pc.child = none ∧ pc'.child = none ∧ pc.locks = none ∧
    pc'.locks = none ∧ pc'.lk = pc.lk := by
  cases h <;> simp [Pc.child, Pc.locks, Pc.lk, Loop.lk]

lemma Takes.keeps {k} (h : Takes p pc k pc') : pc.child = none ∧ pc'.child = none ∧ pc.locks = none ∧
    pc'.locks = none ∧ pc.lk = none ∧ pc'.lk = some k := by
  cases h with
  | @woken L => cases L <;> simp [Pc.child, Pc.locks, Pc.lk, Loop.top, Loop.lk]
  | _ => simp [Pc.child, Pc.locks, Pc.lk]

lemma Takes.enters {k} (h : Takes p pc k pc') : (∃ status, pc' = .exitReparent status 0 ∧ p ≠ initproc) ∨
    (∃ w, pc' = .waitScan w 0 false) ∨ ∃ L, pc' = .loop L := by
  cases h with
  | exit ne => exact .inl ⟨_, rfl, ne⟩
  | wait => exact .inr (.inl ⟨_, rfl⟩)
  | loop => exact .inr (.inr ⟨_, rfl⟩)
  | @woken L => cases L <;> simp [Loop.top]

lemma Drops.keeps {k} (h : Drops s p pc k pc') : pc.child = none ∧ pc' = .user ∧ pc.locks = none ∧
    pc.lk = some k := by
  cases h <;> simp [Pc.child, Pc.locks, Pc.lk]

namespace Inv

lemma locked {pc} (inv : Inv s) (at' : s.At c p pc) (h : pc.locks = some q) :
    (s.slots q).lock = some c := by
  obtain ⟨d, thr, -, l⟩ := inv.locks (p := p) (by rw [at'.thread]; exact h)
  rwa [inv.once at'.proc thr.2]

lemma locked_state {pc} (inv : Inv s) (at' : s.At c p pc) (h : pc.locks = some q) :
    (s.slots q).state = .used ∨ (s.slots q).state = .zombie := by
  rcases Pc.locks_eq h with h | ⟨w, rfl⟩
  · exact .inl (inv.child (p := p) (by rw [at'.thread]; exact h))
  · exact .inr (inv.found (p := p) (w := w) (by rw [at'.thread]))

lemma at_running {pc} (inv : Inv s) (at' : s.At c p pc) : (s.slots p).state = .running := by
  have sw : (s.threads p).sw = .run := by rw [at'.thread]
  cases inv.on at'.proc with
  | run _ _ r => exact r
  | _ => simp_all

lemma in_sleep {pc} (inv : Inv s) (r : s.Runs c p ⟨pc, .sleep⟩) :
    (s.slots p).state = .running ∧ (s.slots p).lock = some c := by
  have sw : (s.threads p).sw = .sleep := by rw [r.thread]
  cases inv.on r.proc with
  | sleep _ _ st l => exact ⟨st, l⟩
  | _ => simp_all

lemma in_sched {pc k} (inv : Inv s) (r : s.Runs c p ⟨pc, .sched k⟩) :
    k.Fits (s.slots p).state ∧ (s.slots p).lock = some c := by
  have sw : (s.threads p).sw = .sched k := by rw [r.thread]
  cases inv.on r.proc with
  | sched _ _ f l => simp_all
  | _ => simp_all

/-- A thread that has just been switched to holds its lock, and its process has not exited. -/
lemma in_saved {pc k} (inv : Inv s) (r : s.Runs c p ⟨pc, .saved k⟩) :
    k ≠ .exit ∧ (s.slots p).state = .running ∧ (s.slots p).lock = some c := by
  have sw : (s.threads p).sw = .saved k := by rw [r.thread]
  have m := r.mode
  cases inv.on r.proc with
  | saved _ _ ne st l => simp_all
  | _ => simp_all

lemma in_back (inv : Inv s) (m : (s.cpus c).mode = .back p) :
    ∃ k, (s.threads p).sw = .saved k ∧ k.Fits (s.slots p).state ∧ (s.slots p).lock = some c := by
  cases inv.on (inv.back m) with
  | @back k _ sw f l => exact ⟨k, sw, f, l⟩
  | _ => simp_all

lemma guarded (inv : Inv s) (st : Step s c s') (l : (s.slots q).lock = some d) (ne : d ≠ c) :
    (s'.slots q).lock = some d ∧ (s'.slots q).state = (s.slots q).state := by
  have nl : (s.slots q).lock ≠ some c := by rw [l]; simpa using ne
  have nn : (s.slots q).lock ≠ none := by simp [l]
  have free {p pc} (at' : s.At c p pc) (h : pc.locks = some q) : False := nl (inv.locked at' h)
  constructor
  · rcases st.lock (q := q) with e | e
    · rw [e, l]
    · cases e with
      | take h => contradiction
      | back m =>
        obtain ⟨_, _, _, h⟩ := inv.in_back m
        contradiction
      | resume r => exact absurd (inv.in_saved r).2.2 nl
      | drop at' h => exact (free at' h).elim
  · rcases st.state (q := q) with e | e
    · exact e
    · cases e with
      | sleep r => exact absurd (inv.in_sleep r).2 nl
      | free at' h => exact (free at' h).elim
      | _ => contradiction

lemma idle (inv : Inv s) (l : (s.slots p).lock = none) (st : (s.slots p).state ≠ .running) :
    (s.cpus d).proc ≠ some p := by
  intro h
  cases inv.on h <;> simp_all

lemma thread_eq (inv : Inv s) (st : Step s c s') (own : (s.cpus c).proc ≠ some p)
    (nu : (s.slots p).state ≠ .used) : s'.threads p = s.threads p := by
  rcases st.thread own with e | ⟨-, q, at'⟩
  · exact e
  · have h := inv.child (p := q) (q := p) (by rw [at'.thread]; rfl)
    contradiction

lemma stays_running (inv : Inv s) (st : Step s c s') (own : (s.cpus c).proc ≠ some p)
    (r : (s.slots p).state = .running) : (s'.slots p).state = .running := by
  rcases st.state (q := p) with e | e
  · rw [e, r]
  · cases e with
    | yield at' | sleepOther at' | exit at' => exact absurd at'.proc own
    | sleep r => exact absurd r.proc own
    | launch at' =>
      have h := inv.child (p := _) (q := p) (by rw [at'.thread]; rfl)
      simp_all
    | free at' h => rcases inv.locked_state at' h with h | h <;> simp_all
    | _ => simp_all

lemma on_other (inv : Inv s) (st : Step s c s') (ne : d ≠ c) (h : (s.cpus d).proc = some p) :
    OnCpu s' d p := by
  have own : (s.cpus c).proc ≠ some p := fun h' => ne (inv.once h h')
  have on := inv.on h
  have cpu := st.cpu ne
  have thr := inv.thread_eq st own on.exists.2
  cases on with
  | run m t r => exact .run (cpu ▸ m) (thr ▸ t) (inv.stays_running st own r)
  | sleep _ _ _ l | sched _ _ _ l | saved _ _ _ _ l | back _ _ _ l =>
    obtain ⟨gl, gs⟩ := inv.guarded st l ne
    exact (inv.on h).congr cpu (by rw [thr]) gs (gl.trans l.symm)

lemma edit_running {pc S pc'} (inv : Inv s) (at' : s.At c p pc) (e : Edit s c p pc q S pc') :
    ((s.put q S).slots p).state = .running := by
  have r := inv.at_running at'
  have child {q} (h : pc.child = some q) : q ≠ p := by
    rintro rfl
    have := inv.child (p := q) (by rw [at'.thread]; exact h)
    simp_all
  simp only [State.put, Function.update_apply]
  split
  · rename_i e'
    subst e'
    cases e <;> simp_all [setKilled, Pc.child]
    rcases ‹_ ∨ _› with rfl | rfl | rfl <;> simp at child
  · exact r

section

attribute [local simp] State.put State.goto State.setThread State.setCpu State.setLk

lemma on_self (inv : Inv s) (st : Step s c s') (h : (s'.cpus c).proc = some p) : OnCpu s' c p := by
  -- a thread that goes on
  have goes {p q pc pc'} (at' : s.At c p pc) (cpu : s'.cpus c = s.cpus c)
      (thr : s'.threads p = ⟨pc', .run⟩) (r : (s'.slots p).state = .running)
      (h : (s'.cpus c).proc = some q) : OnCpu s' c q := by
    rw [cpu, at'.proc] at h
    cases h
    exact .run (cpu ▸ at'.mode) (by rw [thr]) r
  cases st with
  | skip sc =>
    have m := sc.mode
    cases inv.on (p := p) (by simpa using h) <;> simp_all
  | dispatch sc l r =>
    obtain rfl : _ = p := by simpa using h
    obtain ⟨k, ne, sw⟩ := inv.off (.inr r) (fun d => inv.idle l (by simp [r]))
    exact .saved (k := k) (by simp) sw ne (by simp) (by simp)
  | back => simp at h
  | resume r ne =>
    obtain rfl : _ = p := by simpa [r.proc] using h
    exact .run (by simpa using r.mode) (by simp) (by simpa using (inv.in_saved r).2.1)
  | yield r =>
    obtain rfl : _ = p := by simpa [r.proc] using h
    exact .sched (k := .yield) (by simpa using r.mode) (by simp) (by simp [Switch.Fits]) (by simp)
  | sleepLock r =>
    obtain rfl : _ = p := by simpa [r.proc] using h
    exact .sleep (by simpa using r.mode) (by simp) (by simpa using inv.at_running r) (by simp)
  | sleep r =>
    obtain rfl : _ = p := by simpa [r.proc] using h
    exact .sched (k := .sleep) (by simpa using r.mode) (by simp) (by simp [Switch.Fits])
      (by simpa using (inv.in_sleep r).2)
  | sleepOther r =>
    obtain rfl : _ = p := by simpa [r.proc] using h
    exact .sched (k := .sleep) (by simpa using r.mode) (by simp) (by simp [Switch.Fits]) (by simp)
  | @swtch _ _ _ k r l =>
    obtain rfl : _ = p := by simpa [r.proc] using h
    exact .back (k := k) (by simp) (by simp) (inv.in_sched r).1 l
  | @wakeup _ r _ own =>
    have ne : p ≠ r := by rintro rfl; exact own h
    exact (inv.on h).congr rfl rfl (by simp [ne]) (by simp [ne])
  | move at' => exact goes at' rfl (by simp; rfl) (inv.at_running at') h
  | acquire at' => exact goes at' rfl (by simp; rfl) (inv.at_running at') h
  | release at' => exact goes at' rfl (by simp; rfl) (inv.at_running at') h
  | wakeSelf at' => exact goes at' rfl (by simp; rfl) (inv.at_running at') h
  | edit at' e => exact goes at' rfl (by simp; rfl) (inv.edit_running at' e) h
  | fork at' l u =>
    have r := inv.at_running at'
    exact goes at' rfl (by simp; rfl) (by simp [Function.update_apply]; grind) h
  | forkPagetable at' =>
    have r := inv.at_running at'
    exact goes at' rfl (by simp; rfl) (by simp [Function.update_apply]; grind) h
  | waitFree at' =>
    have r := inv.at_running at'
    have z := inv.locked_state at' rfl
    exact goes at' rfl (by simp; rfl) (by simp [Function.update_apply]; grind) h
  | exitZombie r =>
    obtain rfl : _ = p := by simpa [r.proc] using h
    exact .sched (k := .exit) (by simpa using r.mode) (by simp) (by simp [Switch.Fits]) (by simp)
  | tick => exact (inv.on h).congr rfl rfl rfl rfl
  | visit =>
    refine (inv.on h).congr rfl rfl ?_ ?_ <;> simp [Function.update_apply, timeUpdate] <;> grind
  | tickDone => exact (inv.on h).congr rfl rfl rfl rfl

lemma own_child (inv : Inv s) (st : Step s c s') (h : (s.cpus c).proc = some p)
    (ch : (s'.threads p).pc.child = some q) : (s'.slots q).state = .used ∧
      ((s.threads p).pc.child = some q ∨ (s.slots q).state = .unused ∧ s'.threads p = ⟨.forkTrapframe q, .run⟩) := by
  have u := inv.child (p := p) (q := q)
  have on := (inv.on h).exists
  cases st with simp [Function.update_apply] at ch ⊢
  | move r e => grind [State.Runs, e.keeps]
  | acquire r e => grind [State.Runs, e.keeps]
  | release r e => grind [State.Runs, e.keeps, Pc.child]
  | edit r e => cases e <;> grind [State.Runs, Pc.child, setKilled, wake]
  | _ => grind [State.Runs, State.Scans, Pc.child, timeUpdate, wake]

lemma own_locks (inv : Inv s) (st : Step s c s') (h : (s.cpus c).proc = some p)
    (ch : (s'.threads p).pc.locks = some q) :
    s'.Thr c p ∧ (s'.threads p).sw = .run ∧ (s'.slots q).lock = some c := by
  have l (hl : (s.threads p).pc.locks = some q) :
      s.Thr c p ∧ (s.threads p).sw = .run ∧ (s.slots q).lock = some c := by
    obtain ⟨d, thr, rest⟩ := inv.locks hl
    obtain rfl := inv.once h thr.2
    exact ⟨thr, rest⟩
  simp only [State.Thr] at l ⊢
  cases st with simp [Function.update_apply] at ch ⊢
  | move r e => grind [State.Runs, e.keeps]
  | acquire r e => grind [State.Runs, e.keeps]
  | release r e => grind [State.Runs, e.keeps, Pc.locks]
  | edit r e => cases e <;> grind [State.Runs, Pc.locks, setKilled, wake]
  | _ => grind [State.Runs, State.Scans, Pc.locks, timeUpdate, wake]

lemma own_waits (inv : Inv s) (st : Step s c s') (h : (s.cpus c).proc = some p)
    (ch : (s'.threads p).pc.lk = some .wait) :
    s'.Thr c p ∧ ((s'.threads p).sw = .run ∨ (s'.threads p).sw = .sleep) ∧ s'.locks .wait = some c := by
  have l (hl : (s.threads p).pc.lk = some .wait) : s.Thr c p ∧
      ((s.threads p).sw = .run ∨ (s.threads p).sw = .sleep) ∧ s.locks .wait = some c := by
    obtain ⟨d, thr, rest⟩ := inv.waits hl
    obtain rfl := inv.once h thr.2
    exact ⟨thr, rest⟩
  simp only [State.Thr] at l ⊢
  cases st with simp [Function.update_apply] at ch ⊢
  | move r e => grind [State.Runs, e.keeps]
  | acquire r e => grind [State.Runs, e.keeps]
  | release r e => grind [State.Runs, e.keeps, Pc.lk]
  | edit r e => cases e <;> grind [State.Runs, Pc.lk]
  | _ => grind [State.Runs, State.Scans, Pc.lk]

lemma own_found {w} (inv : Inv s) (st : Step s c s') (h : (s.cpus c).proc = some p)
    (ch : (s'.threads p).pc = .waitFound w q) : (s'.slots q).state = .zombie := by
  have u := inv.found (p := p) (q := q) (w := w)
  have on := inv.on h
  cases st with simp [Function.update_apply] at ch ⊢
  | move r e => grind [State.Runs, e.keeps, Pc.locks]
  | acquire r e => grind [State.Runs, e.keeps, Pc.locks]
  | release r e => grind [State.Runs, e.keeps, Pc.locks]
  | edit r e => cases e <;> grind [State.Runs, Pc.locks, setKilled, wake]
  | _ => grind [State.Runs, State.Scans, Pc.locks, timeUpdate, wake]

lemma own_ended (inv : Inv s) (st : Step s c s') (h : (s.cpus c).proc = some p)
    (ch : (s'.threads p).sw = .sched .exit ∨ (s'.threads p).sw = .saved .exit) :
    (s'.threads p).pc = .user := by
  have u := inv.ended (p := p)
  cases st with simp [Function.update_apply] at ch ⊢
  | edit r e => cases e <;> grind [State.Runs]
  | _ => grind [State.Runs]

lemma own_fresh (inv : Inv s) (st : Step s c s') (h : (s.cpus c).proc = some p)
    (ch : (s'.threads p).pc.child = some q) (nt : (s'.threads p).pc ≠ .forkTrapframe q)
    (np : (s'.threads p).pc ≠ .forkPagetable q) : s'.threads q = ⟨.user, .saved .forkret⟩ := by
  have u := inv.fresh (p := p) (q := q)
  have us := inv.child (p := p) (q := q)
  have on := inv.on h
  have ne : (s.threads p).pc.child = some q → q ≠ p := by
    rintro h' rfl
    exact on.exists.2 (us h')
  cases st with simp [Function.update_apply] at ch nt np ⊢
  | move r e => grind [State.Runs, e.keeps]
  | acquire r e => grind [State.Runs, e.keeps]
  | release r e => grind [State.Runs, e.keeps, Pc.child]
  | edit r e => cases e <;> grind [State.Runs, Pc.child]
  | _ => grind [State.Runs, State.Scans, Pc.child]

lemma own_used (inv : Inv s) (st : Step s c s') (h : (s.cpus c).proc = some p)
    (ch : (s.threads p).pc.child = some q) (u : (s'.slots q).state = .used) :
    (s'.threads p).pc.child = some q := by
  have on := inv.on h
  cases st with simp [Function.update_apply] at u ⊢
  | move r e => grind [State.Runs, e.keeps]
  | acquire r e => grind [State.Runs, e.keeps]
  | release r e => grind [State.Runs, e.keeps, Pc.child]
  | edit r e => cases e <;> grind [State.Runs, Pc.child, freeproc]
  | _ => grind [State.Runs, State.Scans, Pc.child]

lemma claim_used (st : Step s c s') (h : (s.slots q).state ≠ .used) (u : (s'.slots q).state = .used) :
    ∃ p, (s'.threads p).pc.child = some q := by
  cases st with simp [Function.update_apply] at u ⊢
  | edit r e => cases e <;> grind [freeproc, setKilled, wake]
  | @fork _ p =>
    refine ⟨p, ?_⟩
    simp
    grind [Pc.child]
  | _ => grind [State.Runs, State.Scans, Pc.child, wake, timeUpdate, freeproc]

/-- The process of the CPU changes when it is dispatched, and when the scheduler is back. -/
lemma proc_cases (st : Step s c s') : (s'.cpus c).proc = (s.cpus c).proc ∨
    (∃ q, s.Scans c q ∧ (s.slots q).lock = none ∧ (s.slots q).state = .runnable ∧
      (s'.cpus c).proc = some q) ∨
    ∃ q, (s.cpus c).mode = .back q ∧ (s'.cpus c).proc = none ∧ s'.threads = s.threads := by
  cases st <;> simp <;> grind [State.Runs, State.Scans]

lemma own_back (inv : Inv s) (st : Step s c s') (m : (s'.cpus c).mode = .back p) :
    (s'.cpus c).proc = some p := by
  have b := inv.back (c := c) (p := p)
  cases st <;> simp at m ⊢ <;> grind [State.Runs, State.Scans]

lemma starts (st : Step s c s') (h : (s.slots p).state ≠ .running)
    (r : (s'.slots p).state = .running) : (s'.cpus c).proc = some p := by
  cases st with simp [Function.update_apply] at r ⊢
  | edit r e => cases e <;> grind [freeproc, setKilled, wake]
  | _ => grind [wake, timeUpdate, freeproc]

end

lemma back_state (inv : Inv s) (st : Step s c s') (m : (s.cpus c).mode = .back p) :
    (s'.slots p).state = (s.slots p).state := by
  obtain ⟨k, -, -, l⟩ := inv.in_back m
  rcases st.state (q := p) with e | e
  · exact e
  · cases e with
    | sleep r => simp [r.mode] at m
    | free at' => simp [at'.mode] at m
    | _ => simp_all

lemma step_once (inv : Inv s) (st : Step s c s') (h : (s'.cpus c).proc = some p) (ne : d ≠ c)
    (h' : (s.cpus d).proc = some p) : False := by
  rcases proc_cases st with e | ⟨q, -, l, r, e⟩ | ⟨q, -, e, -⟩
  · exact ne (inv.once h' (e ▸ h))
  · obtain rfl : q = p := by simpa [h] using e.symm
    exact inv.idle l (by simp [r]) h'
  · simp [h] at e

lemma step_running (inv : Inv s) (st : Step s c s') (r : (s'.slots p).state = .running) :
    ∃ c, (s'.cpus c).proc = some p := by
  by_cases r' : (s.slots p).state = .running
  · obtain ⟨d, h⟩ := inv.running r'
    by_cases e : d = c
    · subst e
      rcases proc_cases st with e | ⟨q, sc, -⟩ | ⟨q, m, -⟩
      · exact ⟨d, e ▸ h⟩
      · have m := sc.mode
        cases inv.on h <;> simp_all
      · obtain rfl : q = p := by simpa [h] using (inv.back m).symm
        obtain ⟨k, -, f, -⟩ := inv.in_back m
        cases k <;> simp_all [Switch.Fits]
    · exact ⟨d, by rw [st.cpu e, h]⟩
  · exact ⟨c, starts st r' r⟩

lemma step_off (inv : Inv s) (st : Step s c s')
    (r : (s'.slots p).state = .sleeping ∨ (s'.slots p).state = .runnable)
    (off : ∀ c, (s'.cpus c).proc ≠ some p) : ∃ k, k ≠ .exit ∧ (s'.threads p).sw = .saved k := by
  by_cases own : (s.cpus c).proc = some p
  · -- the scheduler is back from it
    rcases proc_cases st with e | ⟨q, sc, -⟩ | ⟨q, m, -, thr⟩
    · exact absurd (e ▸ own) (off c)
    · have m := sc.mode
      cases inv.on own <;> simp_all
    · obtain rfl : q = p := by simpa [own] using (inv.back m).symm
      obtain ⟨k, sw, f, l⟩ := inv.in_back m
      refine ⟨k, ?_, by rw [thr, sw]⟩
      rintro rfl
      have z : (s.slots q).state = .zombie := f
      simp [inv.back_state st m, z] at r
  · have off' : ∀ d, (s.cpus d).proc ≠ some p := by
      intro d h
      have ne : d ≠ c := by rintro rfl; exact own h
      exact off d (by rw [st.cpu ne, h])
    have old (h : (s.slots p).state = .sleeping ∨ (s.slots p).state = .runnable) :
        ∃ k, k ≠ .exit ∧ (s'.threads p).sw = .saved k := by
      rw [inv.thread_eq st own (by rcases h with h | h <;> simp [h])]
      exact inv.off h off'
    rcases st.state (q := p) with e | e
    · exact old (by rwa [e] at r)
    · cases e with
      | yield at' | sleepOther at' | exit at' => exact absurd at'.proc own
      | sleep r => exact absurd r.proc own
      | wake _ h => exact old (.inl h)
      | launch at' =>
        have f := inv.fresh (p := _) (q := p) (by rw [at'.thread]; rfl) (by rw [at'.thread]; simp)
          (by rw [at'.thread]; simp)
        refine ⟨.forkret, by simp, ?_⟩
        rcases st.thread own with e | ⟨e, -⟩
        · rw [e, f]
        · rw [e]
      | _ => simp_all

lemma wait_guarded (inv : Inv s) (st : Step s c s') (l : s.locks .wait = some d) (ne : d ≠ c) :
    s'.locks .wait = some d := by
  rcases st.lk (k := .wait) with e | e
  · rw [e, l]
  · cases e with
    | take h => simp [l] at h
    | @drop p t r h =>
      obtain ⟨e, thr, -, l'⟩ := inv.waits (p := p) (by rw [r.thread]; exact h)
      rw [inv.once thr.2 r.proc] at l'
      exact absurd (Option.some.inj (l.symm.trans l')) ne
    | clock _ _ h => simp at h

/-- A process that the CPU does not run stays alive, unless it is being created or has exited. -/
lemma stays_active (inv : Inv s) (st : Step s c s') (own : (s.cpus c).proc ≠ some p)
    (a : (s.slots p).state.Active) : (s'.slots p).state.Active := by
  rcases st.state (q := p) with e | e
  · rwa [e]
  · cases e with
    | yield at' | sleepOther at' | exit at' => exact absurd at'.proc own
    | sleep r => exact absurd r.proc own
    | free at' h =>
      rcases inv.locked_state at' h with h | h <;> simp [ProcState.Active, h] at a
    | _ => simp_all [ProcState.Active]

lemma thread_other (st : Step s c s') (own : (s.cpus c).proc ≠ some p)
    (np : (s'.threads p).pc ≠ .user) : s'.threads p = s.threads p := by
  rcases st.thread own with e | ⟨e, -⟩
  · exact e
  · simp [e] at np

lemma step_active (inv : Inv s) (st : Step s c s') (np : (s'.threads p).pc ≠ .user) :
    (s'.slots p).state.Active := by
  by_cases own : (s.cpus c).proc = some p
  · by_cases h : (s'.cpus c).proc = some p
    · cases inv.on_self st h with
      | run _ _ r | sleep _ _ r | saved _ _ _ r => exact .inr (.inr r)
      | @sched k _ sw f | @back k _ sw f =>
        cases k with
        | yield => exact .inr (.inl f)
        | sleep => exact .inl f
        | exit => exact absurd (inv.own_ended st own (by simp [sw])) np
        | forkret => exact f.elim
    · rcases proc_cases st with e | ⟨q, sc, -⟩ | ⟨q, m, -, thr⟩
      · exact absurd (e ▸ own) h
      · have m := sc.mode
        cases inv.on own <;> simp_all
      · obtain rfl : q = p := by simpa [own] using (inv.back m).symm
        rw [inv.back_state st m]
        exact inv.active (by rwa [thr] at np)
  · have e := thread_other st own np
    exact inv.stays_active st own (inv.active (by rwa [e] at np))

lemma stays_used (inv : Inv s) (st : Step s c s') (own : (s.cpus c).proc ≠ some p)
    (ch : (s.threads p).pc.child = some q) : (s'.slots q).state = .used := by
  have u := inv.child ch
  have sole {r} (h : (s.threads r).pc.child = some q) (h' : (s.cpus c).proc = some r) : False :=
    own (inv.sole h ch ▸ h')
  rcases st.state (q := q) with e | e
  · rw [e, u]
  · cases e with
    | yield at' | sleepOther at' | exit at' => simp [inv.at_running at'] at u
    | sleep r => simp [(inv.in_sleep r).1] at u
    | launch at' => exact (sole (by rw [at'.thread]; rfl) at'.proc).elim
    | free at' h =>
      rcases Pc.locks_eq h with h | ⟨w, rfl⟩
      · exact (sole (by rw [at'.thread]; exact h) at'.proc).elim
      · have := inv.found (p := _) (q := q) (w := w) (by rw [at'.thread])
        simp_all
    | _ => simp_all

lemma child_old (inv : Inv s) (st : Step s c s') (h : (s'.threads p).pc.child = some q) :
    (s.threads p).pc.child = some q ∨ (s.cpus c).proc = some p ∧ (s.slots q).state = .unused := by
  by_cases own : (s.cpus c).proc = some p
  · rcases (inv.own_child st own h).2 with h | ⟨u, -⟩
    · exact .inl h
    · exact .inr ⟨own, u⟩
  · have e := thread_other st own (by rintro h'; simp [h', Pc.child] at h)
    exact .inl (e ▸ h)

/-- Every step keeps the invariant. -/
theorem step (inv : Inv s) (st : Step s c s') : Inv s' where
  on {d p} h := by
    by_cases e : d = c
    · subst e
      exact inv.on_self st h
    · exact inv.on_other st e (by rwa [st.cpu e] at h)
  back {d p} m := by
    by_cases e : d = c
    · subst e
      exact inv.own_back st m
    · rw [st.cpu e] at m ⊢
      exact inv.back m
  once {d e p} hd he := by
    by_cases ed : d = c
    · subst ed
      by_contra ne
      rw [st.cpu (Ne.symm ne)] at he
      exact inv.step_once st hd (Ne.symm ne) he
    · rw [st.cpu ed] at hd
      by_cases ee : e = c
      · subst ee
        exact (inv.step_once st he ed hd).elim
      · rw [st.cpu ee] at he
        exact inv.once hd he
  running r := inv.step_running st r
  off r h := inv.step_off st r h
  ended {p} sw := by
    by_cases own : (s.cpus c).proc = some p
    · exact inv.own_ended st own sw
    · rcases st.thread own with e | ⟨e, -⟩
      · rw [e] at sw ⊢
        exact inv.ended sw
      · rw [e]
  active np := inv.step_active st np
  locks {p q} h := by
    by_cases own : (s.cpus c).proc = some p
    · exact ⟨c, inv.own_locks st own h⟩
    · have e := thread_other st own (by rintro h'; simp [h', Pc.locks] at h)
      rw [e] at h ⊢
      obtain ⟨d, thr, sw, l⟩ := inv.locks h
      have ne : d ≠ c := by rintro rfl; exact own thr.2
      exact ⟨d, by rw [State.Thr, st.cpu ne]; exact thr, sw, (inv.guarded st l ne).1⟩
  waits {p} h := by
    by_cases own : (s.cpus c).proc = some p
    · exact ⟨c, inv.own_waits st own h⟩
    · have e := thread_other st own (by rintro h'; simp [h', Pc.lk] at h)
      rw [e] at h ⊢
      obtain ⟨d, thr, sw, l⟩ := inv.waits h
      have ne : d ≠ c := by rintro rfl; exact own thr.2
      exact ⟨d, by rw [State.Thr, st.cpu ne]; exact thr, sw, inv.wait_guarded st l ne⟩
  child {p q} h := by
    by_cases own : (s.cpus c).proc = some p
    · exact (inv.own_child st own h).1
    · have e := thread_other st own (by rintro h'; simp [h', Pc.child] at h)
      exact inv.stays_used st own (e ▸ h)
  found {p q w} h := by
    by_cases own : (s.cpus c).proc = some p
    · exact inv.own_found st own h
    · have e := thread_other st own (by rintro h'; simp [h'] at h)
      rw [e] at h
      obtain ⟨d, thr, sw, l⟩ := inv.locks (p := p) (q := q) (by rw [h]; rfl)
      have ne : d ≠ c := by rintro rfl; exact own thr.2
      rw [(inv.guarded st l ne).2, inv.found h]
  sole {p q r} hp hq := by
    rcases inv.child_old st hp with hp | ⟨hp, u⟩ <;> rcases inv.child_old st hq with hq | ⟨hq, u'⟩
    · exact inv.sole hp hq
    · simp [inv.child hp] at u'
    · simp [inv.child hq] at u
    · exact Option.some.inj (hp.symm.trans hq)
  used {q} u := by
    by_cases u' : (s.slots q).state = .used
    · obtain ⟨p, ch⟩ := inv.used u'
      refine ⟨p, ?_⟩
      by_cases own : (s.cpus c).proc = some p
      · exact inv.own_used st own ch u
      · rw [inv.thread_eq st own ?_, ch]
        have := inv.active (p := p) (by rintro h'; simp [h', Pc.child] at ch)
        rintro h'
        simp [h', ProcState.Active] at this
    · exact claim_used st u' u
  fresh {p q} h nt np := by
    by_cases own : (s.cpus c).proc = some p
    · exact inv.own_fresh st own h nt np
    · have e := thread_other st own (by rintro h'; simp [h', Pc.child] at h)
      rw [e] at h nt np
      have f := inv.fresh h nt np
      have own' : (s.cpus c).proc ≠ some q := fun h' => (inv.on h').exists.2 (inv.child h)
      rcases st.thread own' with e | ⟨e, -⟩
      · rw [e, f]
      · exact e

lemma boot (sz pt tf : Nat) : Inv (boot sz pt tf) where
  on h := by simp [Sched.boot] at h
  back m := by simp [Sched.boot] at m
  once h := by simp [Sched.boot] at h
  running r := by simp only [Sched.boot] at r; split at r <;> simp [emptySlot] at r
  off _ _ := ⟨.forkret, by simp, rfl⟩
  ended _ := rfl
  active np := absurd rfl np
  locks h := by simp [Sched.boot, Pc.locks] at h
  waits h := by simp [Sched.boot, Pc.lk] at h
  child h := by simp [Sched.boot, Pc.child] at h
  found h := by simp [Sched.boot] at h
  sole h := by simp [Sched.boot, Pc.child] at h
  used u := by simp only [Sched.boot] at u; split at u <;> simp [emptySlot] at u
  fresh h := by simp [Sched.boot, Pc.child] at h

lemma run {sz pt tf cs} (run : Run Step (Sched.boot sz pt tf) cs s) : Inv s :=
  run.invariant (Inv.boot sz pt tf) Inv.step

end Inv

/-- `sched` is about to panic with "sched running". -/
def State.SchedRunning (s : State) : Prop :=
  ∃ c p k, s.Thr c p ∧ (s.threads p).sw = .sched k ∧ (s.slots p).state = .running

/-- The call of `sched` in `exit` has returned, and `exit` is about to panic with "zombie exit". -/
def State.ZombieExit (s : State) : Prop :=
  ∃ c p, s.Thr c p ∧ (s.threads p).sw = .saved .exit

/-- In every reachable state a process is the current one of at most one CPU, and when its lock is free it is
running iff it is that of exactly one. A CPU only switches to a runnable process, so an exited one never runs
again, and neither `sched` nor `exit` panics. -/
theorem one_cpu_per_process {sz pt tf cs} (run : Run Step (boot sz pt tf) cs s) :
    (∀ p c d, (s.cpus c).proc = some p → (s.cpus d).proc = some p → c = d) ∧
    (∀ p, (s.slots p).lock = none →
      ((s.slots p).state = .running ↔ ∃! c, (s.cpus c).proc = some p)) ∧
    (∀ p c s', Step s c s' → (s.cpus c).proc ≠ some p → (s'.cpus c).proc = some p →
      (s.slots p).state = .runnable) ∧
    ¬ s.SchedRunning ∧ ¬ s.ZombieExit := by
  have inv := Inv.run run
  refine ⟨fun _ _ _ => inv.once, fun p l => ⟨fun r => ?_, fun ⟨c, h, _⟩ => ?_⟩, fun p c s' st h h' => ?_,
    ?_, ?_⟩
  · obtain ⟨c, h⟩ := inv.running r
    exact ⟨c, h, fun d h' => inv.once h' h⟩
  · by_contra r
    exact inv.idle l r h
  · rcases Inv.proc_cases st with e | ⟨q, -, -, r, e⟩ | ⟨q, -, e, -⟩
    · exact absurd (e ▸ h') h
    · obtain rfl : p = q := by simpa [h'] using e
      exact r
    · simp [h'] at e
  · rintro ⟨c, p, k, ⟨m, h⟩, sw, r⟩
    cases inv.on h with
    | @sched k' _ sw' f => cases k' <;> simp_all [Switch.Fits]
    | _ => simp_all
  · rintro ⟨c, p, ⟨m, h⟩, sw⟩
    cases inv.on h <;> simp_all

/-- CPU 0 has switched to the first process. -/
def dispatched : State :=
  ((boot 1 1 1).put initproc
    { (boot 1 1 1).slots initproc with lock := some cpu0, state := .running }).setCpu cpu0
      ⟨some initproc, .thread⟩

def resumed : State :=
  (dispatched.put initproc { dispatched.slots initproc with lock := none, chan := none }).goto initproc .user

lemma run_resumed : Run Step (boot 1 1 1) [cpu0, cpu0] resumed := by
  have first : Step (boot 1 1 1) cpu0 dispatched := .dispatch ⟨rfl, fun _ => rfl⟩ rfl rfl
  have second : Step dispatched cpu0 resumed :=
    .resume (k := .forkret) ⟨rfl, rfl, rfl, fun _ => rfl⟩ (by decide)
  exact .snoc (.snoc .nil first) second

/-- The statement for the run that starts the first process. -/
theorem one_cpu_per_process_first :
    ((resumed.slots initproc).state = .running ↔ ∃! c, (resumed.cpus c).proc = some initproc) ∧
    ¬ resumed.SchedRunning ∧ ¬ resumed.ZombieExit := by
  obtain ⟨-, iff, -, rest⟩ := one_cpu_per_process run_resumed
  exact ⟨iff initproc rfl, rest⟩

end Xv6.Sched
