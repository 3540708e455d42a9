import Mathlib.Logic.Function.Basic
import Xv6.Lib.Run

/-!
# Code under one lock that sleeps and wakes

A monitor is code that runs with a lock held, and that may give it up by `sleep(chan, lk)`. `sleep` takes the lock of the
process itself before it gives up the monitor's, and `wakeup(chan)` takes the lock of each process of the table in turn.
Processes are the numbers below `n`; any of them may be killed, which also ends its sleep.

`Blocked c` is the condition that a process which sleeps on the channel `c` waits for the end of. The code keeps the
discipline if whoever ends it owes a `wakeup` of `c` and has paid before it gives up the lock. Then nobody sleeps for
nothing (`Discipline.sound`, `Sound.blocked_of_free`).
-/

/-- The code of a monitor, with `L` the places of its code and `χ` its channels. -/
structure Monitor (ι σ L χ : Type*) where
  /-- Where a process may be after it has taken the lock. -/
  start : ι → L → σ → Prop
  /-- One step under the lock. The code may look at the flag that says that the caller has been killed. -/
  act : ι → L → σ → Bool → L → σ → Prop
  /-- Calls `wakeup`, and the place after it. -/
  wakes : L → χ → L → Prop
  /-- Calls `sleep`, and the place after it. -/
  sleeps : L → χ → L → Prop
  /-- The places where the lock is given up. -/
  ends : L → Prop
  /-- What a process may do without the lock. -/
  free : ι → σ → σ → Prop

namespace Monitor

variable {n : ℕ} {σ L χ : Type*}

/-- Where a process is. -/
inductive Thread (L χ : Type*) where
  | out
  /-- At a place of the code, with the lock. -/
  | run (l : L)
  /-- In the loop of `wakeup`, at the process `j` of the table, with the lock. -/
  | wake (c : χ) (j : ℕ) (l : L)
  /-- In `sleep`, with the lock and its own one. -/
  | lock (c : χ) (l : L)
  /-- In `sleep`, with its own lock only. -/
  | fall (c : χ) (l : L)
  /-- SLEEPING, and whether its own lock is still held for it. -/
  | sleeping (c : χ) (l : L) (held : Bool)
  /-- Has been woken. -/
  | ready (l : L)

namespace Thread

/-- The process has the lock of the monitor. -/
def holds : Thread L χ → Prop
  | run _ | wake _ _ _ | lock _ _ => True
  | _ => False

/-- The lock of the process itself is held. -/
def locked : Thread L χ → Bool
  | lock _ _ | fall _ _ => true
  | sleeping _ _ held => held
  | _ => false

/-- The place the process is at or goes on at, with the lock. -/
def place : Thread L χ → Option L
  | run l | wake _ _ l => some l
  | _ => none

/-- The place a process that is in `sleep` goes on at. -/
def next : Thread L χ → Option L
  | lock _ l | fall _ l | sleeping _ l _ | ready l => some l
  | _ => none

/-- The channel of a process that has given up the lock. -/
def chan : Thread L χ → Option χ
  | fall c _ | sleeping c _ _ => some c
  | _ => none

/-- What `wakeup(c)` does to a process. -/
def wakeup [DecidableEq χ] (c : χ) : Thread L χ → Thread L χ
  | sleeping c' l held => if c' = c then ready l else sleeping c' l held
  | t => t

def kill : Thread L χ → Thread L χ
  | sleeping _ l _ => ready l
  | t => t

end Thread

/-- The data, the holder of the lock and the processes. -/
structure State (n : ℕ) (σ L χ : Type*) where
  data : σ
  holder : Option (Fin n)
  threads : Fin n → Thread L χ
  killed : Fin n → Bool

/-- What a step is: the lock is given up at a place of the code, or anything else. -/
inductive Event (n : ℕ) (L : Type*) where
  | leave (p : Fin n) (l : L)
  | other

/-- The state with another status of a process. -/
@[simp]
def State.set (s : State n σ L χ) (p : Fin n) (t : Thread L χ) : State n σ L χ :=
  { s with threads := Function.update s.threads p t }

/-- The steps of the processes that use a monitor. -/
inductive Step [DecidableEq χ] (M : Monitor (Fin n) σ L χ) (s : State n σ L χ) :
    Event n L → State n σ L χ → Prop where
  | enter {p l} :
    s.threads p = .out →
    s.holder = none →
    M.start p l s.data →
    Step M s .other { s.set p (.run l) with holder := some p }
  | act {p l l' d} :
    s.threads p = .run l →
    M.act p l s.data (s.killed p) l' d →
    Step M s .other { s.set p (.run l') with data := d }
  | leave {p l} :
    s.threads p = .run l →
    M.ends l →
    Step M s (.leave p l) { s.set p .out with holder := none }
  | wakeup {p l c l'} :
    s.threads p = .run l →
    M.wakes l c l' →
    Step M s .other (s.set p (.wake c 0 l'))
  -- the caller itself is not asleep, so that nothing happens for it
  | visit {p c j l} (lt : j < n) :
    s.threads p = .wake c j l →
    (s.threads ⟨j, lt⟩).locked = false →
    Step M s .other ((s.set ⟨j, lt⟩ ((s.threads ⟨j, lt⟩).wakeup c)).set p (.wake c (j + 1) l))
  | visited {p c l} :
    s.threads p = .wake c n l →
    Step M s .other (s.set p (.run l))
  | sleep {p l c l'} :
    s.threads p = .run l →
    M.sleeps l c l' →
    Step M s .other (s.set p (.lock c l'))
  | release {p c l} :
    s.threads p = .lock c l →
    Step M s .other { s.set p (.fall c l) with holder := none }
  | sleeping {p c l} :
    s.threads p = .fall c l →
    Step M s .other (s.set p (.sleeping c l true))
  -- the scheduler gives up the lock of the process
  | sched {p c l} :
    s.threads p = .sleeping c l true →
    Step M s .other (s.set p (.sleeping c l false))
  | resume {p l} :
    s.threads p = .ready l →
    s.holder = none →
    Step M s .other { s.set p (.run l) with holder := some p }
  | kill {q} :
    (s.threads q).locked = false →
    Step M s .other { s.set q (s.threads q).kill with killed := Function.update s.killed q true }
  -- the slot is given to another process
  | reuse {p} :
    s.threads p = .out →
    Step M s .other { s with killed := Function.update s.killed p false }
  | free {p d} :
    s.threads p = .out →
    M.free p s.data d →
    Step M s .other { s with data := d }

def init (d : σ) : State n σ L χ := ⟨d, none, fun _ => .out, fun _ => false⟩

/-- The code keeps the discipline of its wakeups. `J` holds of the data always, `A l` when a process is at `l` with the
lock, and `owes l c` says that it will call `wakeup(c)`. -/
structure Discipline (M : Monitor (Fin n) σ L χ) (J : σ → Prop) (A : L → σ → Prop) (Blocked : χ → σ → Prop)
    (owes : L → χ → Prop) : Prop where
  start : ∀ {p l d}, J d → M.start p l d → A l d
  act : ∀ {p l d k l' d'}, J d → A l d → M.act p l d k l' d' →
    J d' ∧ A l' d' ∧ ∀ c, (owes l c → owes l' c) ∧ (Blocked c d → Blocked c d' ∨ owes l' c)
  wakes : ∀ {l c l' d}, A l d → M.wakes l c l' → A l' d ∧ ∀ c', c' ≠ c → owes l c' → owes l' c'
  sleeps : ∀ {l c l' d}, J d → A l d → M.sleeps l c l' →
    Blocked c d ∧ (∀ c', ¬owes l c') ∧ ∀ d', J d' → A l' d'
  free : ∀ {p d d'}, J d → M.free p d d' → J d' ∧ (∀ l, A l d → A l d') ∧ ∀ c, Blocked c d → Blocked c d'

/-- A process will wake the process `p` if that sleeps on `c`. -/
def Thread.Owes (owes : L → χ → Prop) (p : Fin n) (c : χ) : Thread L χ → Prop
  | run l => owes l c
  | wake c' j l => owes l c ∨ c' = c ∧ j ≤ p
  | _ => False

/-- What holds in every state of a monitor whose code keeps the discipline. -/
structure Sound (J : σ → Prop) (A : L → σ → Prop) (Blocked : χ → σ → Prop) (owes : L → χ → Prop)
    (s : State n σ L χ) : Prop where
  data : J s.data
  holder : ∀ p, (s.threads p).holds ↔ s.holder = some p
  place : ∀ {p l}, l ∈ (s.threads p).place → A l s.data
  next : ∀ {p l}, l ∈ (s.threads p).next → ∀ d, J d → A l d
  lock : ∀ {p c l}, s.threads p = .lock c l → Blocked c s.data
  chan : ∀ {p c}, c ∈ (s.threads p).chan → Blocked c s.data ∨ ∃ q, (s.threads q).Owes owes p c

section

variable {J : σ → Prop} {A : L → σ → Prop} {Blocked : χ → σ → Prop} {owes : L → χ → Prop} {s s' : State n σ L χ}

lemma sound_init {d : σ} (data : J d) : Sound J A Blocked owes (init d : State n σ L χ) where
  data := data
  holder p := by simp [init, Thread.holds]
  place h := by simp [init, Thread.place] at h
  next h := by simp [init, Thread.next] at h
  lock h := by simp [init] at h
  chan h := by simp [init, Thread.chan] at h

lemma Sound.only (i : Sound J A Blocked owes s) {p q : Fin n} (holds : (s.threads p).holds)
    (holds' : (s.threads q).holds) : q = p :=
  Option.some.inj (((i.holder q).mp holds').symm.trans ((i.holder p).mp holds))

lemma Thread.holds_of_place {t : Thread L χ} {l : L} (mem : l ∈ t.place) : t.holds := by
  cases t <;> simp_all [Thread.place, Thread.holds]

lemma Thread.holds_of_owes {t : Thread L χ} {p : Fin n} {c : χ} (ow : t.Owes owes p c) : t.holds := by
  cases t <;> simp_all [Thread.Owes, Thread.holds]

lemma Thread.not_holds_of_chan {t : Thread L χ} {c : χ} (mem : c ∈ t.chan) : ¬t.holds := by
  cases t <;> simp_all [Thread.chan, Thread.holds]

/-- One process moves to another status. It goes on to owe what it owes to those who sleep, and it owes a wakeup to all if
it ends what they wait for. -/
lemma Sound.move (i : Sound J A Blocked owes s) {p : Fin n} {t : Thread L χ} {d : σ} {h : Option (Fin n)}
    {k : Fin n → Bool} (data : J d) (holds : t.holds ↔ h = some p) (others : ∀ q, q ≠ p → (s.holder = some q ↔ h = some q))
    (place : ∀ l ∈ t.place, A l d) (places : ∀ q, q ≠ p → ∀ l ∈ (s.threads q).place, A l d)
    (next : ∀ l ∈ t.next, ∀ d, J d → A l d) (lock : ∀ c l, t = .lock c l → Blocked c d)
    (locks : ∀ q c l, q ≠ p → s.threads q = .lock c l → Blocked c d)
    (blocked : ∀ c, Blocked c s.data → Blocked c d ∨ ∀ q, t.Owes owes (n := n) q c)
    (owed : ∀ q, q ≠ p → ∀ c ∈ (s.threads q).chan, (s.threads p).Owes owes q c → t.Owes owes q c)
    (chan : ∀ c ∈ t.chan, Blocked c d ∨ ∃ q, q ≠ p ∧ (s.threads q).Owes owes p c) :
    Sound J A Blocked owes ⟨d, h, Function.update s.threads p t, k⟩ where
  data := data
  holder q := by
    by_cases eq : q = p
    · subst eq
      simpa using holds
    · simpa [Function.update_of_ne eq, i.holder q] using others q eq
  place {q l} mem := by
    by_cases eq : q = p
    · subst eq
      exact place l (by simpa using mem)
    · exact places q eq l (by simpa [Function.update_of_ne eq] using mem)
  next {q l} mem := by
    by_cases eq : q = p
    · subst eq
      exact next l (by simpa using mem)
    · exact i.next (p := q) (by simpa [Function.update_of_ne eq] using mem)
  lock {q c l} is := by
    by_cases eq : q = p
    · subst eq
      exact lock c l (by simpa using is)
    · exact locks q c l eq (by simpa [Function.update_of_ne eq] using is)
  chan {q c} mem := by
    by_cases eq : q = p
    · subst eq
      simp only [Function.update_self] at mem
      rcases chan c mem with bl | ⟨r, ne, ow⟩
      · exact .inl bl
      · exact .inr ⟨r, by simpa [Function.update_of_ne ne] using ow⟩
    · simp only [Function.update_of_ne eq] at mem
      rcases i.chan mem with bl | ⟨r, ow⟩
      · rcases blocked c bl with bl | ow
        · exact .inl bl
        · exact .inr ⟨p, by simpa using ow q⟩
      · by_cases er : r = p
        · subst er
          exact .inr ⟨r, by simpa using owed q eq c mem ow⟩
        · exact .inr ⟨r, by simpa [Function.update_of_ne er] using ow⟩

/-- A process moves to another status, keeps or does not keep the lock, and leaves the data as they are. -/
lemma Sound.shift (i : Sound J A Blocked owes s) {p : Fin n} {t : Thread L χ} {k : Fin n → Bool}
    (holds : t.holds ↔ (s.threads p).holds) (place : ∀ l ∈ t.place, A l s.data)
    (next : ∀ l ∈ t.next, ∀ d, J d → A l d) (lock : ∀ c l, t = .lock c l → Blocked c s.data)
    (owed : ∀ q, q ≠ p → ∀ c ∈ (s.threads q).chan, (s.threads p).Owes owes q c → t.Owes owes q c)
    (chan : ∀ c ∈ t.chan, c ∈ (s.threads p).chan) :
    Sound J A Blocked owes ⟨s.data, s.holder, Function.update s.threads p t, k⟩ := by
  refine i.move i.data (holds.trans (i.holder p)) (fun _ _ => Iff.rfl) place (fun _ _ _ => i.place) next lock
    (fun _ _ _ _ => i.lock) (fun _ => .inl) owed fun c mem => ?_
  rcases i.chan (chan c mem) with bl | ⟨q, ow⟩
  · exact .inl bl
  · refine .inr ⟨q, ?_, ow⟩
    rintro rfl
    exact Thread.not_holds_of_chan (chan c mem) (Thread.holds_of_owes ow)

lemma Sound.take (i : Sound J A Blocked owes s) {p : Fin n} {l : L} (free : s.holder = none) (place : A l s.data) :
    Sound J A Blocked owes { s.set p (.run l) with holder := some p } := by
  refine i.move i.data (by simp [Thread.holds]) ?_ (by simpa [Thread.place] using place) (fun _ _ _ => i.place)
    (by simp [Thread.next]) (by simp) (fun _ _ _ _ => i.lock) (fun _ => .inl) ?_ (by simp [Thread.chan])
  · intro q ne
    simp [free, Ne.symm ne]
  · intro q ne c mem ow
    have holds := (i.holder p).mp (Thread.holds_of_owes ow)
    rw [free] at holds
    cases holds

lemma Sound.drop (i : Sound J A Blocked owes s) {p : Fin n} {t : Thread L χ} (holds : (s.threads p).holds)
    (owed : ∀ (q : Fin n) c, ¬(s.threads p).Owes owes q c) (out : ¬t.holds) (next : ∀ l ∈ t.next, ∀ d, J d → A l d)
    (chan : ∀ c ∈ t.chan, Blocked c s.data) :
    Sound J A Blocked owes { s.set p t with holder := none } := by
  refine i.move i.data (by simp [out]) ?_ ?_ (fun _ _ _ => i.place) next ?_ (fun _ _ _ _ => i.lock) (fun _ => .inl)
    (fun q _ c _ ow => absurd ow (owed q c)) (fun c mem => .inl (chan c mem))
  · intro q ne
    simp [(i.holder p).mp holds, Ne.symm ne]
  · exact fun l mem => absurd (Thread.holds_of_place mem) out
  · rintro c l rfl
    exact absurd trivial out

lemma Sound.blocked_of_free (i : Sound J A Blocked owes s) (free : s.holder = none) {p : Fin n} {c : χ}
    (mem : c ∈ (s.threads p).chan) : Blocked c s.data := by
  rcases i.chan mem with bl | ⟨q, ow⟩
  · exact bl
  · have holds := (i.holder q).mp (Thread.holds_of_owes ow)
    rw [free] at holds
    cases holds

variable [DecidableEq χ] {M : Monitor (Fin n) σ L χ} {e : Event n L}

/-- A step at which nobody gives up the lock while it owes a wakeup. -/
def Event.Paid (owes : L → χ → Prop) : Event n L → Prop
  | leave _ l => ∀ c, ¬owes l c
  | other => True

lemma Thread.chan_wakeup {c : χ} {t : Thread L χ} (free : t.locked = false) : c ∉ (t.wakeup c).chan := by
  cases t with
  | sleeping c' l held =>
    simp only [Thread.wakeup]
    split <;> simp_all [Thread.chan]
  | fall => simp [Thread.locked] at free
  | _ => simp [Thread.wakeup, Thread.chan]

omit [DecidableEq χ] in
lemma Sound.awake (i : Sound J A Blocked owes s) {p : Fin n} {t : Thread L χ} {k : Fin n → Bool}
    (woken : t = s.threads p ∨ ∃ c l held, s.threads p = .sleeping c l held ∧ t = .ready l) :
    Sound J A Blocked owes ⟨s.data, s.holder, Function.update s.threads p t, k⟩ := by
  rcases woken with rfl | ⟨c, l, held, is, rfl⟩
  · rw [Function.update_eq_self]
    exact ⟨i.data, i.holder, i.place, i.next, i.lock, i.chan⟩
  · have next := i.next (p := p) (l := l) (by simp [is, Thread.next])
    exact i.shift (by simp [is, Thread.holds]) (by simp [Thread.place]) (by simpa [Thread.next] using next) (by simp)
      (by simp [is, Thread.Owes]) (by simp [Thread.chan])

lemma Thread.wakeup_eq (c : χ) (t : Thread L χ) :
    t.wakeup c = t ∨ ∃ c' l held, t = .sleeping c' l held ∧ t.wakeup c = .ready l := by
  cases t with
  | sleeping c' l held =>
    by_cases eq : c' = c
    · exact .inr ⟨c', l, held, rfl, if_pos eq⟩
    · exact .inl (if_neg eq)
  | _ => exact .inl rfl

omit [DecidableEq χ] in
lemma Thread.kill_eq (t : Thread L χ) : t.kill = t ∨ ∃ c l held, t = .sleeping c l held ∧ t.kill = .ready l := by
  cases t with
  | sleeping c l held => exact .inr ⟨c, l, held, rfl, rfl⟩
  | _ => exact .inl rfl

lemma Sound.step (D : Discipline M J A Blocked owes) (i : Sound J A Blocked owes s) (st : Step M s e s')
    (paid : e.Paid owes) : Sound J A Blocked owes s' := by
  cases st with
  | @enter p l is free start =>
    exact i.take free (D.start i.data start)
  | @act p l l' d is act =>
    have holds : (s.threads p).holds := by simp [is, Thread.holds]
    obtain ⟨data, place, keep⟩ := D.act i.data (i.place (p := p) (by simp [is, Thread.place])) act
    refine i.move data ?_ (fun _ _ => Iff.rfl) ?_ ?_ ?_ ?_ ?_ ?_ ?_ ?_
    · simp [Thread.holds, (i.holder p).mp holds]
    · simpa [Thread.place] using place
    · exact fun q ne l mem => absurd (i.only holds (Thread.holds_of_place mem)) ne
    · simp [Thread.next]
    · simp
    · intro q c l ne lock
      exact absurd (i.only holds (by simp [lock, Thread.holds])) ne
    · exact fun c bl => ((keep c).2 bl).imp id fun ow _ => ow
    · intro q ne c mem ow
      rw [is] at ow
      exact (keep c).1 ow
    · simp [Thread.chan]
  | @leave p l is ends =>
    refine i.drop (by simp [is, Thread.holds]) ?_ (by simp [Thread.holds]) (by simp [Thread.next]) (by simp [Thread.chan])
    intro q c ow
    rw [is] at ow
    exact paid c ow
  | @wakeup p l c l' is wakes =>
    obtain ⟨place, keep⟩ := D.wakes (i.place (p := p) (by simp [is, Thread.place])) wakes
    refine i.shift (by simp [is, Thread.holds]) (by simpa [Thread.place] using place) (by simp [Thread.next]) (by simp) ?_
      (by simp [Thread.chan])
    intro q ne c' mem ow
    rw [is] at ow
    by_cases eq : c' = c
    · exact .inr ⟨eq.symm, Nat.zero_le _⟩
    · exact .inl (keep c' eq ow)
  | @visit p c j l lt is free =>
    have woken : Sound J A Blocked owes (s.set ⟨j, lt⟩ ((s.threads ⟨j, lt⟩).wakeup c)) :=
      i.awake (Thread.wakeup_eq c _)
    have now : (s.set ⟨j, lt⟩ ((s.threads ⟨j, lt⟩).wakeup c)).threads p = .wake c j l := by
      by_cases eq : p = ⟨j, lt⟩
      · subst eq
        simp [is, Thread.wakeup]
      · simp [Function.update_of_ne eq, is]
    have place := i.place (p := p) (l := l) (by simp [is, Thread.place])
    refine woken.shift (by simp only [now, Thread.holds]) (by simpa [Thread.place] using place) (by simp [Thread.next])
      (by simp) ?_ (by simp [Thread.chan])
    intro q ne c' mem ow
    rw [now] at ow
    rcases ow with ow | ⟨rfl, le⟩
    · exact .inl ow
    -- the process that has been visited is not on the channel any more
    · refine .inr ⟨rfl, Nat.lt_of_le_of_ne le ?_⟩
      rintro rfl
      exact Thread.chan_wakeup free (by simpa using mem)
  | @visited p c l is =>
    have place := i.place (p := p) (l := l) (by simp [is, Thread.place])
    refine i.shift (by simp [is, Thread.holds]) (by simpa [Thread.place] using place) (by simp [Thread.next]) (by simp) ?_
      (by simp [Thread.chan])
    intro q ne c' mem ow
    rw [is] at ow
    exact ow.resolve_right fun h => absurd h.2 (Nat.not_le_of_lt q.isLt)
  | @sleep p l c l' is sleeps =>
    obtain ⟨blocked, paid, next⟩ := D.sleeps i.data (i.place (p := p) (by simp [is, Thread.place])) sleeps
    refine i.shift (by simp [is, Thread.holds]) (by simp [Thread.place]) (by simpa [Thread.next] using next) ?_ ?_
      (by simp [Thread.chan])
    · rintro _ _ ⟨rfl, rfl⟩
      exact blocked
    · intro q ne c' mem ow
      rw [is] at ow
      exact absurd ow (paid c')
  | @release p c l is =>
    have next := i.next (p := p) (l := l) (by simp [is, Thread.next])
    refine i.drop (by simp [is, Thread.holds]) (by simp [is, Thread.Owes]) (by simp [Thread.holds])
      (by simpa [Thread.next] using next) ?_
    simpa [Thread.chan] using i.lock is
  | @sleeping p c l is =>
    have next := i.next (p := p) (l := l) (by simp [is, Thread.next])
    exact i.shift (by simp [is, Thread.holds]) (by simp [Thread.place]) (by simpa [Thread.next] using next) (by simp)
      (by simp [is, Thread.Owes]) (by simp [is, Thread.chan])
  | @sched p c l is =>
    have next := i.next (p := p) (l := l) (by simp [is, Thread.next])
    exact i.shift (by simp [is, Thread.holds]) (by simp [Thread.place]) (by simpa [Thread.next] using next) (by simp)
      (by simp [is, Thread.Owes]) (by simp [is, Thread.chan])
  | @resume p l is free => exact i.take free (i.next (p := p) (by simp [is, Thread.next]) _ i.data)
  | @kill q free => exact i.awake (Thread.kill_eq _)
  | @reuse p is => exact ⟨i.data, i.holder, i.place, i.next, i.lock, i.chan⟩
  | @free p d is free =>
    obtain ⟨data, keep, blocked⟩ := D.free i.data free
    exact ⟨data, i.holder, fun mem => keep _ (i.place mem), i.next, fun lock => blocked _ (i.lock lock),
      fun mem => (i.chan mem).imp (blocked _) id⟩

lemma Step.paid (ends : ∀ {l}, M.ends l → ∀ c, ¬owes l c) (st : Step M s e s') : e.Paid owes := by
  cases st with
  | leave _ at_ => exact ends at_
  | _ => trivial

lemma data_of_run {d : σ} (init : J d) (act : ∀ {p l d k l' d'}, J d → M.act p l d k l' d' → J d')
    (free : ∀ {p d d'}, J d → M.free p d d' → J d') {es : List (Event n L)} (run : Run (Step M) (Monitor.init d) es s) :
    J s.data := by
  refine run.invariant (P := fun s => J s.data) init fun j st => ?_
  cases st with
  | act _ a => exact act j a
  | free _ f => exact free j f
  | _ => exact j

/-- In every run in which nobody gives up the lock while it owes a wakeup, the processes are where the discipline has
them. -/
lemma Discipline.sound (D : Discipline M J A Blocked owes) {d : σ} (init : J d) {es : List (Event n L)}
    (run : Run (fun s e s' => Step M s e s' ∧ e.Paid owes) (Monitor.init d) es s) :
    Sound J A Blocked owes s :=
  run.invariant (sound_init init) fun i st => i.step D st.1 st.2

end

/-! ### Invariants of the free lock

A `Discipline` has one condition `J` on the data that holds always. Code that breaks a condition while it holds the lock has
another kind of invariant: `F` holds when the lock is free, and `I l` when its holder is at `l`. -/

/-- The code keeps `F` when it gives up the lock, with `I l` at the places between. -/
structure Guard (M : Monitor (Fin n) σ L χ) (F : σ → Prop) (I : L → σ → Prop) : Prop where
  start : ∀ {p l d}, F d → M.start p l d → I l d
  act : ∀ {p l d k l' d'}, I l d → M.act p l d k l' d' → I l' d'
  wakes : ∀ {l c l' d}, I l d → M.wakes l c l' → I l' d
  sleeps : ∀ {l c l' d}, I l d → M.sleeps l c l' → F d ∧ ∀ d', F d' → I l' d'
  ends : ∀ {l d}, I l d → M.ends l → F d
  free : ∀ {p d d'}, M.free p d d' → (F d → F d') ∧ ∀ l, I l d → I l d'

/-- What holds in every state of a monitor whose code keeps a guard. -/
structure Guarded (F : σ → Prop) (I : L → σ → Prop) (s : State n σ L χ) : Prop where
  holder : ∀ p, (s.threads p).holds ↔ s.holder = some p
  free : s.holder = none → F s.data
  place : ∀ {p l}, l ∈ (s.threads p).place → I l s.data
  lock : ∀ {p c l}, s.threads p = .lock c l → F s.data
  next : ∀ {p l}, l ∈ (s.threads p).next → ∀ d, F d → I l d

section

variable {F : σ → Prop} {I : L → σ → Prop} {s s' : State n σ L χ}

lemma guarded_init {d : σ} (free : F d) : Guarded F I (init d : State n σ L χ) where
  holder p := by simp [init, Thread.holds]
  free _ := free
  place h := by simp [init, Thread.place] at h
  lock h := by simp [init] at h
  next h := by simp [init, Thread.next] at h

lemma Guarded.update (i : Guarded F I s) {p : Fin n} {t : Thread L χ} {d : σ} {h : Option (Fin n)} {k : Fin n → Bool}
    (holds : t.holds ↔ h = some p) (others : ∀ q, q ≠ p → (s.holder = some q ↔ h = some q)) (free : h = none → F d)
    (place : ∀ l ∈ t.place, I l d) (rest : ∀ q, q ≠ p → (s.threads q).holds → (F s.data → F d) ∧ ∀ l, I l s.data → I l d)
    (lock : ∀ c l, t = .lock c l → F d) (next : ∀ l ∈ t.next, ∀ d, F d → I l d) :
    Guarded F I ⟨d, h, Function.update s.threads p t, k⟩ where
  free := free
  holder q := by
    by_cases eq : q = p
    · subst eq
      simpa using holds
    · simpa [Function.update_of_ne eq, i.holder q] using others q eq
  place {q l} mem := by
    by_cases eq : q = p
    · subst eq
      exact place l (by simpa using mem)
    · replace mem : l ∈ (s.threads q).place := by simpa [Function.update_of_ne eq] using mem
      exact (rest q eq (Thread.holds_of_place mem)).2 l (i.place mem)
  lock {q c l} is := by
    by_cases eq : q = p
    · subst eq
      exact lock c l (by simpa using is)
    · replace is : s.threads q = .lock c l := by simpa [Function.update_of_ne eq] using is
      exact (rest q eq (by simp [is, Thread.holds])).1 (i.lock is)
  next {q l} mem := by
    by_cases eq : q = p
    · subst eq
      exact next l (by simpa using mem)
    · exact i.next (p := q) (by simpa [Function.update_of_ne eq] using mem)

lemma Guarded.move (i : Guarded F I s) {p : Fin n} {t : Thread L χ} {d : σ} {h : Option (Fin n)} {k : Fin n → Bool}
    (own : s.holder = some p ∨ s.holder = none) (holds : t.holds ↔ h = some p) (only : h = some p ∨ h = none)
    (free : h = none → F d) (place : ∀ l ∈ t.place, I l d) (lock : ∀ c l, t = .lock c l → F d)
    (next : ∀ l ∈ t.next, ∀ d, F d → I l d) :
    Guarded F I ⟨d, h, Function.update s.threads p t, k⟩ := by
  have others : ∀ q, q ≠ p → s.holder ≠ some q := by
    rintro q ne holder
    obtain own | own := own <;> simp_all
  refine i.update holds (fun q ne => iff_of_false (others q ne) ?_) free place ?_ lock next
  · obtain only | only := only <;> simp [only, Ne.symm ne]
  · exact fun q ne holds => absurd ((i.holder q).mp holds) (others q ne)

/-- The condition of the free lock holds, or that of the place at which the lock is held. -/
lemma Guarded.free_or_place (i : Guarded F I s) : F s.data ∨ s.holder ≠ none ∧ ∃ l, I l s.data := by
  cases is : s.holder with
  | none => exact .inl (i.free is)
  | some p =>
    have holds := (i.holder p).mpr is
    cases at_p : s.threads p with
    | run l => exact .inr ⟨nofun, l, i.place (p := p) (by simp [at_p, Thread.place])⟩
    | wake c j l => exact .inr ⟨nofun, l, i.place (p := p) (by simp [at_p, Thread.place])⟩
    | lock c l => exact .inl (i.lock at_p)
    | out | fall | sleeping | ready => simp [at_p, Thread.holds] at holds

lemma Guarded.idle (i : Guarded F I s) {p : Fin n} {t : Thread L χ} {k : Fin n → Bool} (was : ¬(s.threads p).holds)
    (out : ¬t.holds) (next : ∀ l ∈ t.next, ∀ d, F d → I l d) :
    Guarded F I ⟨s.data, s.holder, Function.update s.threads p t, k⟩ := by
  refine i.update (iff_of_false out (was ∘ (i.holder p).mpr)) (fun _ _ => Iff.rfl) i.free
    (fun l mem => absurd (Thread.holds_of_place mem) out) (fun _ _ _ => ⟨id, fun _ => id⟩) ?_ next
  rintro c l rfl
  exact absurd trivial out

lemma Guarded.awake (i : Guarded F I s) {p : Fin n} {t : Thread L χ} {k : Fin n → Bool}
    (cases : t = s.threads p ∨ ∃ c l held, s.threads p = .sleeping c l held ∧ t = .ready l) :
    Guarded F I ⟨s.data, s.holder, Function.update s.threads p t, k⟩ := by
  obtain rfl | ⟨c, l, held, is, rfl⟩ := cases
  · rw [Function.update_eq_self]
    exact ⟨i.holder, i.free, i.place, i.lock, i.next⟩
  · refine i.idle (by simp [is, Thread.holds]) (by simp [Thread.holds]) fun l' mem => ?_
    exact i.next (p := p) (by simpa [is, Thread.next] using mem)

variable [DecidableEq χ] {M : Monitor (Fin n) σ L χ} {e : Event n L}

lemma Guarded.step (G : Guard M F I) (i : Guarded F I s) (st : Step M s e s') : Guarded F I s' := by
  have own {p : Fin n} (holds : (s.threads p).holds) : s.holder = some p := (i.holder p).mp holds
  cases st with
  | @enter p l is free start =>
    exact i.move (.inr free) (by simp [Thread.holds]) (.inl rfl) (by simp)
      (by simpa [Thread.place] using G.start (i.free free) start) (by simp) (by simp [Thread.next])
  | @act p l l' d is act =>
    have holder := own (p := p) (by simp [is, Thread.holds])
    have place := G.act (i.place (p := p) (by simp [is, Thread.place])) act
    exact i.move (.inl holder) (by simp [Thread.holds, holder]) (.inl holder) (by simp [holder])
      (by simpa [Thread.place] using place) (by simp) (by simp [Thread.next])
  | @leave p l is ends =>
    have holder := own (p := p) (by simp [is, Thread.holds])
    have free := G.ends (i.place (p := p) (by simp [is, Thread.place])) ends
    exact i.move (.inl holder) (by simp [Thread.holds]) (.inr rfl) (fun _ => free) (by simp [Thread.place]) (by simp)
      (by simp [Thread.next])
  | @wakeup p l c l' is wakes =>
    have holder := own (p := p) (by simp [is, Thread.holds])
    have place := G.wakes (i.place (p := p) (by simp [is, Thread.place])) wakes
    exact i.move (.inl holder) (by simp [Thread.holds, holder]) (.inl holder) (by simp [holder])
      (by simpa [Thread.place] using place) (by simp) (by simp [Thread.next])
  | @visit p c j l lt is free =>
    have woken : Guarded F I (s.set ⟨j, lt⟩ ((s.threads ⟨j, lt⟩).wakeup c)) := i.awake (Thread.wakeup_eq c _)
    have holder := own (p := p) (by simp [is, Thread.holds])
    have place := i.place (p := p) (l := l) (by simp [is, Thread.place])
    exact woken.move (.inl holder) (by simp [Thread.holds, holder]) (.inl holder) (by simp [holder])
      (by simpa [Thread.place] using place) (by simp) (by simp [Thread.next])
  | @visited p c l is =>
    have holder := own (p := p) (by simp [is, Thread.holds])
    have place := i.place (p := p) (l := l) (by simp [is, Thread.place])
    exact i.move (.inl holder) (by simp [Thread.holds, holder]) (.inl holder) (by simp [holder])
      (by simpa [Thread.place] using place) (by simp) (by simp [Thread.next])
  | @sleep p l c l' is sleeps =>
    have holder := own (p := p) (by simp [is, Thread.holds])
    obtain ⟨free, next⟩ := G.sleeps (i.place (p := p) (by simp [is, Thread.place])) sleeps
    exact i.move (.inl holder) (by simp [Thread.holds, holder]) (.inl holder) (fun _ => free) (by simp [Thread.place])
      (fun _ _ _ => free) (by simpa [Thread.next] using next)
  | @release p c l is =>
    have next := i.next (p := p) (l := l) (by simp [is, Thread.next])
    exact i.move (.inl (own (by simp [is, Thread.holds]))) (by simp [Thread.holds]) (.inr rfl) (fun _ => i.lock is)
      (by simp [Thread.place]) (by simp) (by simpa [Thread.next] using next)
  | @sleeping p c l is =>
    have next := i.next (p := p) (l := l) (by simp [is, Thread.next])
    exact i.idle (by simp [is, Thread.holds]) (by simp [Thread.holds]) (by simpa [Thread.next] using next)
  | @sched p c l is =>
    have next := i.next (p := p) (l := l) (by simp [is, Thread.next])
    exact i.idle (by simp [is, Thread.holds]) (by simp [Thread.holds]) (by simpa [Thread.next] using next)
  | @resume p l is free =>
    have place := i.next (p := p) (l := l) (by simp [is, Thread.next]) _ (i.free free)
    exact i.move (.inr free) (by simp [Thread.holds]) (.inl rfl) (by simp) (by simpa [Thread.place] using place) (by simp)
      (by simp [Thread.next])
  | @kill q free => exact i.awake (Thread.kill_eq _)
  | @reuse p is => exact ⟨i.holder, i.free, i.place, i.lock, i.next⟩
  | @free p d is free =>
    obtain ⟨keep, places⟩ := G.free free
    exact ⟨i.holder, fun none => keep (i.free none), fun mem => places _ (i.place mem), fun lock => keep (i.lock lock), i.next⟩

lemma Guard.guarded (G : Guard M F I) {d : σ} (free : F d) {es : List (Event n L)}
    (run : Run (Step M) (Monitor.init d) es s) : Guarded F I s :=
  run.invariant (guarded_init free) fun i st => i.step G st

end

end Monitor
