import Xv6.Lib.Monitor

/-!
# Where the processes of a monitor are

What a process has of the data of a monitor it keeps while it sleeps, so that an invariant may be about the data together with
the places of all processes. Such an invariant has to be kept by each part of the code with all other processes out of
the monitor or at a place behind a `sleep` (`Quiet`), since they do not have the lock (`Keeps.run`).
-/

namespace Monitor

variable {n : ℕ} {σ L χ : Type*}

/-- The place a process is at, or goes on at when it has the lock again. -/
def Thread.loc : Thread L χ → Option L
  | out => none
  | run l | wake _ _ l | lock _ l | fall _ l | sleeping _ l _ | ready l => some l

def locs (t : Fin n → Thread L χ) : Fin n → Option L := fun p => (t p).loc

/-- All processes but `p` are out of the monitor, or behind a `sleep`. -/
def Quiet (M : Monitor (Fin n) σ L χ) (pl : Fin n → Option L) (p : Fin n) : Prop :=
  ∀ q, q ≠ p → ∀ m ∈ pl q, ∃ l c, M.sleeps l c m

/-- The code keeps `G`, which is about the places of all processes and the data. -/
structure Keeps (M : Monitor (Fin n) σ L χ) (G : (Fin n → Option L) → σ → Prop) : Prop where
  start : ∀ {pl p l d}, G pl d → M.Quiet pl p → pl p = none → M.start p l d → G (Function.update pl p (some l)) d
  act : ∀ {pl p l d k l' d'}, G pl d → M.Quiet pl p → pl p = some l → M.act p l d k l' d' →
    G (Function.update pl p (some l')) d'
  wakes : ∀ {pl p l c l' d}, G pl d → M.Quiet pl p → pl p = some l → M.wakes l c l' →
    G (Function.update pl p (some l')) d
  sleeps : ∀ {pl p l c l' d}, G pl d → M.Quiet pl p → pl p = some l → M.sleeps l c l' →
    G (Function.update pl p (some l')) d
  ends : ∀ {pl p l d}, G pl d → M.Quiet pl p → pl p = some l → M.ends l → G (Function.update pl p none) d
  free : ∀ {pl p d d'}, G pl d → pl p = none → M.free p d d' → G pl d'

/-- One process has the lock, and the others are behind a `sleep`. -/
structure Exclusive (M : Monitor (Fin n) σ L χ) (s : State n σ L χ) : Prop where
  holder : ∀ p, (s.threads p).holds ↔ s.holder = some p
  next : ∀ {p l}, l ∈ (s.threads p).next → ∃ l' c, M.sleeps l' c l

variable {M : Monitor (Fin n) σ L χ} {G : (Fin n → Option L) → σ → Prop} {s s' : State n σ L χ}

lemma Exclusive.behind (x : Exclusive M s) {p : Fin n} (out : ¬(s.threads p).holds) {m : L} (mem : m ∈ (s.threads p).loc) :
    ∃ l c, M.sleeps l c m := by
  refine x.next (p := p) ?_
  cases is : s.threads p <;> simp_all [Thread.loc, Thread.next, Thread.holds]

lemma Exclusive.quiet (x : Exclusive M s) {p : Fin n} (holder : s.holder = none ∨ s.holder = some p) :
    M.Quiet (locs s.threads) p := by
  intro q ne m mem
  refine x.behind (fun holds => ?_) mem
  rw [x.holder q] at holds
  rcases holder with eq | eq
  · rw [eq] at holds
    cases holds
  · rw [eq] at holds
    exact ne (Option.some.inj holds).symm

lemma locs_update (t : Fin n → Thread L χ) (p : Fin n) (t' : Thread L χ) :
    locs (Function.update t p t') = Function.update (locs t) p t'.loc := by
  funext q
  by_cases eq : q = p
  · subst eq
    simp [locs]
  · simp [locs, Function.update_of_ne eq]

lemma locs_update_self {t : Fin n → Thread L χ} {p : Fin n} {t' : Thread L χ} (same : t'.loc = (t p).loc) :
    locs (Function.update t p t') = locs t := by
  rw [locs_update, same]
  exact Function.update_eq_self p (locs t)

lemma next_update {Q : L → Prop} {t : Fin n → Thread L χ} {t' : Thread L χ} {p : Fin n} (all : ∀ q, ∀ l ∈ (t q).next, Q l)
    (new : ∀ l ∈ t'.next, Q l) (q : Fin n) : ∀ l ∈ (Function.update t p t' q).next, Q l := by
  by_cases eq : q = p
  · subst eq
    simpa using new
  · simpa [Function.update_of_ne eq] using all q

lemma Thread.awake {t t' : Thread L χ} (woken : t' = t ∨ ∃ c l held, t = .sleeping c l held ∧ t' = .ready l) :
    t'.loc = t.loc ∧ t'.next = t.next := by
  rcases woken with rfl | ⟨c, l, held, rfl, rfl⟩ <;> exact ⟨rfl, rfl⟩

variable [DecidableEq χ] {e : Event n L}

lemma Step.next (st : Step M s e s') (next : ∀ p, ∀ l ∈ (s.threads p).next, ∃ l' c, M.sleeps l' c l) :
    ∀ p, ∀ l ∈ (s'.threads p).next, ∃ l' c, M.sleeps l' c l := by
  cases st with
  | @sleep p l c l' is sleeps =>
    refine next_update next fun m mem => ?_
    obtain rfl : l' = m := by simpa [Thread.next] using mem
    exact ⟨l, c, sleeps⟩
  | @visit p c j l lt is free =>
    refine next_update (next_update next ?_) (by simp [Thread.next])
    rw [(Thread.awake (Thread.wakeup_eq c _)).2]
    exact next _
  | @kill q free =>
    refine next_update next ?_
    rw [(Thread.awake (Thread.kill_eq _)).2]
    exact next q
  | @release p c l is | @sleeping p c l is | @sched p c l is =>
    refine next_update next ?_
    have := next p
    simpa [is, Thread.next] using this
  | @enter p | @act p | @leave p | @wakeup p | @visited p | @resume p =>
    exact next_update next (by simp [Thread.next])
  | reuse | free => exact next

lemma Keeps.step (K : Keeps M G) (x : Exclusive M s) (g : G (locs s.threads) s.data) (st : Step M s e s') : G (locs s'.threads) s'.data := by
  -- who has the lock sees all others quiet
  have quiet : ∀ {p : Fin n}, (s.threads p).holds → M.Quiet (locs s.threads) p := fun {p} holds => x.quiet (.inr ((x.holder p).1 holds))
  cases st with
  | @enter p l is free start =>
    change G (locs (Function.update s.threads p (.run l))) s.data
    rw [locs_update]
    exact K.start g (x.quiet (p := p) (.inl free)) (by simp [locs, is, Thread.loc]) start
  | @act p l l' d is act =>
    change G (locs (Function.update s.threads p (.run l'))) d
    rw [locs_update]
    exact K.act g (quiet (p := p) (by simp [is, Thread.holds])) (by simp [locs, is, Thread.loc]) act
  | @leave p l is ends =>
    change G (locs (Function.update s.threads p .out)) s.data
    rw [locs_update]
    exact K.ends g (quiet (p := p) (by simp [is, Thread.holds])) (by simp [locs, is, Thread.loc]) ends
  | @wakeup p l c l' is wakes =>
    change G (locs (Function.update s.threads p (.wake c 0 l'))) s.data
    rw [locs_update]
    exact K.wakes g (quiet (p := p) (by simp [is, Thread.holds])) (by simp [locs, is, Thread.loc]) wakes
  | @sleep p l c l' is sleeps =>
    change G (locs (Function.update s.threads p (.lock c l'))) s.data
    rw [locs_update]
    exact K.sleeps g (quiet (p := p) (by simp [is, Thread.holds])) (by simp [locs, is, Thread.loc]) sleeps
  | @visit p c j l lt is free =>
    have woken := locs_update_self (t := s.threads) (p := ⟨j, lt⟩) (Thread.awake (Thread.wakeup_eq c _)).1
    change G (locs (Function.update (Function.update s.threads ⟨j, lt⟩ _) p (.wake c (j + 1) l))) s.data
    have now : Thread.loc (.wake c (j + 1) l) = locs s.threads p := by simp [locs, is, Thread.loc]
    rwa [locs_update, woken, now, Function.update_eq_self]
  | @visited p c l is | @sleeping p c l is | @sched p c l is | @release p c l is | @resume p l is =>
    change G (locs (Function.update s.threads p _)) s.data
    rwa [locs_update_self (by simp [is, Thread.loc])]
  | @kill q free =>
    change G (locs (Function.update s.threads q _)) s.data
    rwa [locs_update_self (Thread.awake (Thread.kill_eq _)).1]
  | @reuse p is => exact g
  | @free p d is free => exact K.free g (by simp [locs, is, Thread.loc]) free

omit [DecidableEq χ] in
lemma discipline_trivial : Discipline M (fun _ => True) (fun _ _ => True) (fun _ _ => True) (fun _ _ => False) where
  start _ _ := trivial
  act _ _ _ := ⟨trivial, trivial, fun _ => ⟨id, .inl⟩⟩
  wakes _ _ := ⟨trivial, fun _ _ => id⟩
  sleeps _ _ _ := ⟨trivial, fun _ => id, fun _ _ => trivial⟩
  free _ _ := ⟨trivial, fun _ => id, fun _ => id⟩

/-- In every run of a monitor one process at a time has the lock, and what the code keeps holds. -/
lemma Keeps.run (K : Keeps M G) {d : σ} (init : G (fun _ => none) d) {es : List (Event n L)}
    (run : Run (Step M) (Monitor.init d) es s) : Exclusive M s ∧ G (locs s.threads) s.data := by
  have first : Exclusive M (Monitor.init d) := ⟨by simp [Monitor.init, Thread.holds], by simp [Monitor.init, Thread.next]⟩
  refine (run.invariant (P := fun s => Sound (fun _ => True) (fun _ _ => True) (fun _ _ => True) (fun _ _ => False) s ∧
    Exclusive M s ∧ G (locs s.threads) s.data) ⟨sound_init trivial, first, init⟩ ?_).2
  rintro s e s' ⟨sound, x, g⟩ st
  have sound := sound.step discipline_trivial st (st.paid fun _ _ => id)
  exact ⟨sound, ⟨sound.holder, fun mem => st.next (fun _ _ => x.next) _ _ mem⟩, K.step x g st⟩

end Monitor
