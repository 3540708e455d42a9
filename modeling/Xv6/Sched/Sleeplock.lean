import Mathlib.Logic.Basic
import Xv6.Lib.Monitor

/-!
# Sleep-locks

`acquiresleep`, `releasesleep` and `holdingsleep` of `sleeplock.c` as a monitor under the spin lock `lk->lk`. Any number of
processes call them, in any interleaving; `releasesleep` is called only by a process that has the sleep-lock, as `brelse` and
`iunlock` make sure. Beside the lock the runs record the processes that have taken it and not released it (`owners`).
-/

namespace Xv6.SleepLock

variable {n : ℕ}

/-- `struct sleeplock`, with the processes that have it. -/
structure Sleeplock (n : ℕ) where
  locked : Bool
  pid : ℕ
  owners : List (Fin n)

def initsleeplock : Sleeplock n := ⟨false, 0, []⟩

/-- The places at which the spin lock is held. -/
inductive Place (n : ℕ) where
  -- `acquiresleep`: the test of the loop, `sleep`, and the two assignments
  | test (p : Fin n)
  | sleep (p : Fin n)
  | take (p : Fin n)
  | setPid (p : Fin n)
  -- `releasesleep`
  | clear (p : Fin n)
  | clearPid
  | wakeup
  -- `holdingsleep`, before and after `r` is known
  | test' (p : Fin n)
  | result (p : Fin n) (r : Bool)
  /-- `release`. -/
  | return

variable (pid : Fin n → ℕ)

/-- What a call does at a place where it calls neither `sleep` nor `wakeup` nor `release`. -/
def act (lk : Sleeplock n) : Place n → Option (Place n × Sleeplock n)
  | .test p => some (if lk.locked then .sleep p else .take p, lk)
  | .take p => some (.setPid p, { lk with locked := true, owners := p :: lk.owners })
  | .setPid p => some (.return, { lk with pid := pid p })
  | .clear p => some (.clearPid, { lk with locked := false, owners := lk.owners.erase p })
  | .clearPid => some (.wakeup, { lk with pid := 0 })
  | .test' p => some (.result p (lk.locked && lk.pid = pid p), lk)
  | _ => none

/-- The first places of the calls. -/
inductive Start (lk : Sleeplock n) (p : Fin n) : Place n → Prop where
  | acquiresleep : Start lk p (.test p)
  | releasesleep : p ∈ lk.owners → Start lk p (.clear p)
  | holdingsleep : Start lk p (.test' p)

/-- The end of the calls. -/
inductive Ends : Place n → Prop where
  | return : Ends .return
  | result {p r} : Ends (.result p r)

/-- The call of `wakeup`. -/
inductive Wakes : Place n → Unit → Place n → Prop where
  | releasesleep : Wakes .wakeup () .return

/-- The call of `sleep`. -/
inductive Sleeps : Place n → Unit → Place n → Prop where
  | acquiresleep {p} : Sleeps (.sleep p) () (.test p)

/-- The calls of the processes, whose numbers are `pid`. -/
def sleeplock : Monitor (Fin n) (Sleeplock n) (Place n) Unit where
  start p l lk := Start lk p l
  act _ l lk _ l' lk' := act pid lk l = some (l', lk')
  wakes := Wakes
  sleeps := Sleeps
  ends := Ends
  free _ _ _ := False

/-- The fields say who has the lock. -/
inductive Fits : Sleeplock n → Prop where
  | free : Fits ⟨false, 0, []⟩
  | taken {p} : Fits ⟨true, pid p, [p]⟩

/-- What holds at a place. -/
def Place.Ok (lk : Sleeplock n) : Place n → Prop
  | test _ | test' _ | «return» => Fits pid lk
  | sleep _ => Fits pid lk ∧ lk.locked = true
  | take _ => Fits pid lk ∧ lk.locked = false
  | setPid p => lk.owners = [p] ∧ lk.locked = true
  | clear p => Fits pid lk ∧ p ∈ lk.owners
  | clearPid => lk.owners = [] ∧ lk.locked = false
  | wakeup => lk = ⟨false, 0, []⟩
  | result p r => Fits pid lk ∧ (r = true ↔ p ∈ lk.owners)

/-- Between the release of the lock and `wakeup`. -/
def Place.owes : Place n → Unit → Prop
  | clearPid, _ | wakeup, _ => True
  | _, _ => False

variable {pid} {lk lk' : Sleeplock n} {l l' : Place n}

lemma Place.Ok.act (inj : pid.Injective) (ok : l.Ok pid lk) (a : act pid lk l = some (l', lk')) : l'.Ok pid lk' := by
  cases l with
  | test p =>
    cases a
    split
    case isTrue locked => exact ⟨ok, locked⟩
    case isFalse free => exact ⟨ok, by simpa using free⟩
  | take p =>
    cases a
    obtain ⟨fits, free⟩ := ok
    cases fits with
    | free => exact ⟨rfl, rfl⟩
    | taken => cases free
  | setPid p =>
    cases a
    obtain ⟨locked, pid, owners⟩ := lk
    obtain ⟨rfl, rfl⟩ := ok
    exact .taken
  | clear p =>
    cases a
    obtain ⟨fits, mem⟩ := ok
    cases fits with
    | free => cases mem
    | taken =>
      obtain rfl := List.mem_singleton.mp mem
      exact ⟨by simp, rfl⟩
  | clearPid =>
    cases a
    obtain ⟨locked, pid, owners⟩ := lk
    obtain ⟨rfl, rfl⟩ := ok
    rfl
  | test' p =>
    cases a
    refine ⟨ok, ?_⟩
    cases ok with
    | free => simp
    | taken => simp [inj.eq_iff, eq_comm]
  | sleep | wakeup | result | «return» => cases a

/-- The lock is given to a process, or taken back from it. -/
inductive Moves : List (Fin n) → List (Fin n) → Prop where
  | stays {ps} : Moves ps ps
  | acquire {p} : Moves [] [p]
  | release {p} : Moves [p] []

lemma Place.Ok.moves (ok : l.Ok pid lk) (a : SleepLock.act pid lk l = some (l', lk')) : Moves lk.owners lk'.owners := by
  cases l with
  | take p =>
    cases a
    obtain ⟨fits, free⟩ := ok
    cases fits with
    | free => exact .acquire
    | taken => cases free
  | clear p =>
    cases a
    obtain ⟨fits, mem⟩ := ok
    cases fits with
    | free => cases mem
    | taken =>
      obtain rfl := List.mem_singleton.mp mem
      simpa using Moves.release
  | test | setPid | clearPid | test' =>
    cases a
    exact .stays
  | sleep | wakeup | result | «return» => cases a

lemma guard (inj : pid.Injective) : Monitor.Guard (sleeplock pid) (Fits pid) fun l lk => l.Ok pid lk where
  start fits start := by
    cases start with
    | acquiresleep => exact fits
    | releasesleep mem => exact ⟨fits, mem⟩
    | holdingsleep => exact fits
  act ok a := ok.act inj a
  wakes ok w := by
    cases w
    exact ok ▸ .free
  sleeps ok s := by
    cases s
    exact ⟨ok.1, fun _ => id⟩
  ends ok e := by
    cases e with
    | «return» => exact ok
    | result => exact ok.1
  free f := f.elim

/-- Who releases the lock wakes those who wait for it. -/
lemma discipline : Monitor.Discipline (sleeplock pid) (fun _ => True)
    (fun l lk => ∀ p, l = .sleep p → lk.locked = true) (fun _ lk => lk.locked = true) Place.owes where
  start _ start := by cases start <;> nofun
  act {_ l _ _ _ _} _ _ a := by
    refine ⟨trivial, ?_⟩
    cases l <;> cases a
    case test lk p =>
      refine ⟨fun q eq => ?_, fun _ => ⟨False.elim, .inl⟩⟩
      split at eq
      case isTrue locked => exact locked
      case isFalse => cases eq
    all_goals exact ⟨nofun, fun _ => by simp [Place.owes]⟩
  wakes _ w := by
    cases w
    exact ⟨nofun, fun c ne => absurd rfl ne⟩
  sleeps _ ok s := by
    cases s
    exact ⟨ok _ rfl, fun _ => id, fun _ _ => nofun⟩
  free _ f := f.elim

variable {s : Monitor.State n (Sleeplock n) (Place n) Unit} {es : List (Monitor.Event n (Place n))}

/-- At most one process has the lock; `holdingsleep` tells its caller whether that is the one, and nobody sleeps while none has
it. A step gives the lock to a process only if none has it. -/
theorem acquiresleep_exclusive (inj : pid.Injective)
    (run : Run (Monitor.Step (sleeplock pid)) (Monitor.init initsleeplock) es s) :
    (∀ p ∈ s.data.owners, s.data.owners = [p]) ∧
      (∀ q p r, s.threads q = .run (.result p r) → (r = true ↔ p ∈ s.data.owners)) ∧
      (s.holder = none → ∀ p, () ∈ (s.threads p).chan → s.data.owners ≠ []) ∧
      ∀ e s', Monitor.Step (sleeplock pid) s e s' → Moves s.data.owners s'.data.owners := by
  have guarded := (guard inj).guarded .free run
  have sound := discipline.sound trivial (run.mono (P := fun _ => True) trivial (fun _ _ => trivial) fun _ st =>
    ⟨st, st.paid fun ends _ => by cases ends <;> exact id⟩)
  have single {lk : Sleeplock n} (fits : Fits pid lk) : ∀ p ∈ lk.owners, lk.owners = [p] := by
    cases fits <;> simp
  have busy {lk : Sleeplock n} (fits : Fits pid lk) (locked : lk.locked = true) : lk.owners ≠ [] := by
    cases fits <;> simp_all
  have place {q l} (at_ : s.threads q = .run l) : l.Ok pid s.data :=
    guarded.place (p := q) (by simp [at_, Monitor.Thread.place])
  refine ⟨?_, fun q p r at_ => (place at_).2, fun free p mem => ?_, fun e s' st => ?_⟩
  · obtain fits | ⟨-, l, ok⟩ := guarded.free_or_place
    · exact single fits
    · cases l with
      | test | test' | «return» => exact single ok
      | sleep | take | clear | result => exact single ok.1
      | setPid | clearPid => simp [ok.1]
      | wakeup => simp [show s.data = _ from ok]
  · exact busy (guarded.free free) (sound.blocked_of_free free mem)
  · cases st with
    | act at_ a => exact (place at_).moves a
    | free _ f => exact f.elim
    | _ => exact .stays

/-- A process takes the lock. -/
theorem acquiresleep_exclusive_first : ∃ es s, Run (Monitor.Step (sleeplock fun p : Fin 2 => p.val + 1))
    (Monitor.init initsleeplock) es s ∧ s.data.owners = [0] := by
  have inj : (fun p : Fin 2 => p.val + 1).Injective := fun p q eq => Fin.ext (Nat.succ.inj eq)
  have start : (sleeplock fun p : Fin 2 => p.val + 1).start 0 (.test 0) initsleeplock := .acquiresleep
  have test : act (fun p : Fin 2 => p.val + 1) initsleeplock (.test 0) = some (.take 0, initsleeplock) := rfl
  have take : act (fun p : Fin 2 => p.val + 1) initsleeplock (.take 0) = some (.setPid 0, ⟨true, 0, [0]⟩) := rfl
  have run := (Run.nil.snoc (Monitor.Step.enter (s := Monitor.init _) rfl rfl start)).snoc (.act (p := 0) rfl test)
  have run := run.snoc (.act (p := 0) rfl take)
  exact ⟨_, _, run, (acquiresleep_exclusive inj run).1 0 (List.mem_singleton.mpr rfl)⟩

end Xv6.SleepLock
