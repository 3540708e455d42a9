import Xv6.Pipe.Ring

/-!
# Sleepers of a pipe

Readers sleep on `&pi->nread` while the ring is empty and the write end is open, writers on `&pi->nwrite` while it is
full and the read end is open. All exits of the three functions wake those whom the call has given a reason to go on,
with one exception: a `pipewrite` that is killed, or finds the read end closed, returns without a `wakeup` also if it has
put bytes into the ring since its last one (`writer_gives_up`). In runs in which this does not happen no wakeup is lost
(`pipe_wakeup`).
-/

namespace Xv6.Pipes

open Monitor

/-- Whoever sleeps on the channel has to wait. -/
def Blocked : Chan → Pipe → Prop
  | .nread, pi => pi.empty ∧ pi.writeopen
  | .nwrite, pi => pi.full ∧ pi.readopen

/-- The call will wake the sleepers of the channel. -/
def owes : Place → Chan → Prop
  | .writeLoop _ _ fresh, c | .writeKilled _ _ fresh, c | .writeByte _ _ fresh, c => fresh ∧ c = .nread
  | .writeWakeup _ _ fresh, c | .writeDone _ fresh, c | .return _ fresh, c => fresh ∧ c = .nread
  | .readByte _ _, c | .readDone _, c => c = .nwrite
  | .closeWakeup true, c => c = .nread
  | .closeWakeup false, c => c = .nwrite
  | _, _ => False

/-- What a call has found at a place. -/
def At : Place → Pipe → Prop
  | .writeKilled _ _ _, pi | .writeByte _ _ _, pi => pi.readopen
  | .writeWakeup _ _ _, pi | .writeSleep _ _, pi => Blocked .nwrite pi
  | .readKilled _, pi | .readSleep _, pi => Blocked .nread pi
  | _, _ => True

/-- No `pipewrite` gives up after it has put bytes into the ring since its last `wakeup`. -/
def Woken : Event NPROC Place → Prop
  | .leave _ (.return _ fresh) => fresh = false
  | _ => True

variable {pi pi' : Pipe} {l l' : Place} {killed : Bool}

/-- A call goes on to owe what it owes, and whoever gives sleepers a reason to go on owes them a wakeup. -/
lemma act_keeps (found : At l pi) (a : act killed pi l = some (l', pi')) :
    At l' pi' ∧ ∀ c, (owes l c → owes l' c) ∧ (Blocked c pi → Blocked c pi' ∨ owes l' c) := by
  cases l with
  | writeByte w i fresh =>
    simp only [act] at a
    split at a
    · rename_i full
      cases a
      exact ⟨⟨full, found⟩, fun c => ⟨id, .inl⟩⟩
    · rename_i room
      split at a <;> cases a
      · exact ⟨trivial, fun c => ⟨id, .inl⟩⟩
      · refine ⟨trivial, fun c => ⟨fun h => ⟨rfl, h.2⟩, fun blocked => ?_⟩⟩
        cases c with
        | nread => exact .inr ⟨rfl, rfl⟩
        | nwrite => exact absurd blocked.1 room
  | readByte r i =>
    have next : ∀ c, owes l' c ↔ c = .nwrite := by
      simp only [act] at a
      repeat' split at a
      all_goals cases a
      all_goals simp [owes]
    have keep : At l' pi' ∧ (pi' = pi ∨ ¬pi.empty) := by
      simp only [act] at a
      repeat' split at a
      all_goals cases a
      all_goals simp_all [At]
    refine ⟨keep.1, fun c => ⟨(next c).mpr, fun blocked => ?_⟩⟩
    rcases keep.2 with rfl | some
    · exact .inl blocked
    · cases c with
      | nread => exact absurd blocked.1 some
      | nwrite => exact .inr ((next _).mpr rfl)
  | close writable =>
    cases writable <;> cases a <;> refine ⟨trivial, fun c => ⟨False.elim, ?_⟩⟩ <;> cases c
    · exact .inl
    · exact fun _ => .inr rfl
    · exact fun _ => .inr rfl
    · exact .inl
  | _ =>
    simp only [act] at a
    repeat' split at a
    all_goals cases a
    all_goals refine ⟨?_, fun c => ⟨?_, .inl⟩⟩
    all_goals simp_all [At, Blocked, owes]

lemma discipline : Discipline pipe (fun _ => True) At Blocked owes where
  start {p l pi} _ start := by
    cases l <;> simp_all [pipe, Place.Start, At]
  act _ found a := ⟨trivial, act_keeps found a⟩
  wakes {l c l' pi} found wakes := by
    cases wakes <;> refine ⟨?_, ?_⟩ <;> simp_all [At, owes]
  sleeps {l c l' pi} _ found sleeps := by
    cases sleeps <;> exact ⟨found, fun _ => id, fun _ _ => trivial⟩
  free _ := False.elim

lemma woken_iff {e : Event NPROC Place} (ends : ∀ p l, e = .leave p l → l.Return) : Woken e ↔ e.Paid owes := by
  cases e with
  | leave p l =>
    have := ends p l rfl
    cases l <;> simp_all [Woken, Event.Paid, owes, Place.Return]
  | other => simp [Woken, Event.Paid]

/-- In every run in which no `pipewrite` gives up after it has put bytes into the ring since its last `wakeup`, whenever
the lock of the pipe and that of the sleeper are free: a reader sleeps only if the ring is empty and the write end is
open, a writer only if the ring is full and the read end is open. -/
theorem pipe_wakeup {data : ℕ → UInt8} {es : List (Event NPROC Place)} {s : State NPROC Pipe Place Chan}
    (run : Run (fun s e s' => Step pipe s e s' ∧ Woken e) (init (pipealloc data)) es s) (free : s.holder = none)
    {p : Fin NPROC} {l : Place} :
    (s.threads p = .sleeping .nread l false → s.data.nread = s.data.nwrite ∧ s.data.writeopen) ∧
    (s.threads p = .sleeping .nwrite l false →
      s.data.nwrite = s.data.nread + BitVec.ofNat 32 PIPESIZE ∧ s.data.readopen) := by
  have paid : Run (fun s e s' => Step pipe s e s' ∧ e.Paid owes) (init (pipealloc data)) es s := by
    refine run.mono (P := fun _ => True) trivial (fun _ _ => trivial) fun _ st => ⟨st.1, (woken_iff ?_).mp st.2⟩
    rintro p l rfl
    cases st.1 with
    | leave _ ends => exact ends
  have sound := discipline.sound trivial paid
  refine ⟨fun is => ?_, fun is => ?_⟩
  · simpa [Blocked, Pipe.empty] using sound.blocked_of_free free (p := p) (c := .nread) (by simp [is, Thread.chan])
  · simpa [Blocked, Pipe.full] using sound.blocked_of_free free (p := p) (c := .nwrite) (by simp [is, Thread.chan])

def oneByte : Read := ⟨fun _ => true, 1⟩

/-- A reader sleeps in a pipe that has just been made. -/
def asleep : State NPROC Pipe Place Chan :=
  { fresh with threads := Function.update (fun _ => .out) 0 (.sleeping .nread (.readLoop oneByte) false) }

lemma run_asleep : ∃ es, Run (fun s e s' => Step pipe s e s' ∧ Woken e) fresh es asleep := by
  have run : Run (fun s e s' => Step pipe s e s' ∧ Woken e) fresh [] fresh := .nil
  have run := run.snoc ⟨.enter (p := 0) (l := Place.readLoop oneByte) rfl rfl trivial, trivial⟩
    |>.snoc ⟨.act (p := 0) rfl rfl, trivial⟩ |>.snoc ⟨.act (p := 0) rfl rfl, trivial⟩
    |>.snoc ⟨.sleep (p := 0) rfl .read, trivial⟩ |>.snoc ⟨.release (p := 0) rfl, trivial⟩
    |>.snoc ⟨.sleeping (p := 0) rfl, trivial⟩ |>.snoc ⟨.sched (p := 0) rfl, trivial⟩
  simp only [State.set, Function.update_idem] at run
  exact ⟨_, run⟩

theorem pipe_wakeup_asleep :
    asleep.holder = none ∧ asleep.threads 0 = .sleeping .nread (.readLoop oneByte) false ∧
      asleep.data.nread = asleep.data.nwrite ∧ asleep.data.writeopen := by
  obtain ⟨es, run⟩ := run_asleep
  exact ⟨rfl, rfl, (pipe_wakeup run rfl (p := 0)).1 rfl⟩

/-- A reader sleeps, a writer puts a byte into the ring, is killed and returns: both locks are free, the reader sleeps
on and the ring is not empty. -/
theorem writer_gives_up :
    ∃ es s, Run (Step pipe) fresh es s ∧ s.holder = none ∧ s.threads 1 = .out ∧
      s.threads 0 = .sleeping .nread (.readLoop oneByte) false ∧ s.data.nread ≠ s.data.nwrite := by
  obtain ⟨es, run⟩ := run_asleep
  have run : Run (Step pipe) fresh es asleep :=
    run.mono (P := fun _ => True) trivial (fun _ _ => trivial) (fun _ st => st.1)
  have run := run.snoc (.enter (p := 1) (l := Place.writeLoop twoBytes 0 false) rfl rfl ⟨rfl, rfl⟩)
    |>.snoc (.act (p := 1) rfl rfl) |>.snoc (.act (p := 1) rfl rfl) |>.snoc (.act (p := 1) rfl rfl)
    |>.snoc (.kill (q := 1) rfl) |>.snoc (.act (p := 1) rfl rfl) |>.snoc (.act (p := 1) rfl rfl)
    |>.snoc (.leave (p := 1) rfl trivial)
  exact ⟨_, _, run, rfl, rfl, rfl, by decide⟩

end Xv6.Pipes
