import Xv6.Lib.Circular
import Xv6.Lib.Monitor

/-!
# The transmit queue of the UART

`uartputc`, `uartstart` and `uartintr` of `uart.c` as a monitor under `uart_tx_lock`. Any number of processes put bytes, and
any of them may take the interrupts; a handler that interrupts no process is one more of them. What the device has in its
status register is not the driver's: a read of the ready bit gives any value, and so does a look at `panicked`.

Beside the queue the runs record the bytes that have been queued, those that `uartstart` has written to THR, and those whose
call of `uartputc` has returned. While the lock is free, what has been written and what is in the queue make up what has been
queued; between the read of the queue and the write to THR one byte is in the hand of the process that holds the lock
(`Place.hand`).
-/

namespace Xv6.Uart

abbrev UART_TX_BUF_SIZE : ℕ := 32

/-- The queue, with the bytes that have been queued, written to THR, and returned for. -/
structure Queue where
  buf : ℕ → UInt8
  w : BitVec 64
  r : BitVec 64
  queued : List UInt8
  written : List UInt8
  returned : List UInt8

/-- Who has called `uartstart`. -/
inductive Caller where
  | uartputc (c : UInt8)
  | uartintr

/-- The places at which the lock is held. -/
inductive Place where
  -- `uartputc`: `if(panicked)`, the test of the loop, `sleep`, and what follows up to `uartstart`
  | panicked (c : UInt8)
  | full (c : UInt8)
  | sleep (c : UInt8)
  | put (c : UInt8)
  -- the loop of `uartstart`
  | empty (caller : Caller)
  | ready (caller : Caller)
  | take (caller : Caller)
  | wakeup (caller : Caller) (c : UInt8)
  | write (caller : Caller) (c : UInt8)
  /-- `release`. -/
  | return

/-- The channel `&uart_tx_r`. -/
inductive Chan where
  | r
  deriving DecidableEq

/-- `uartstart` returns to its caller, which has nothing left to do. -/
def Queue.done (u : Queue) : Caller → Place × Queue
  | .uartputc c => (.return, { u with returned := u.returned ++ [c] })
  | .uartintr => (.return, u)

/-- What a call does at a place where it calls neither `sleep` nor `wakeup` nor `release`. -/
def act (panicked ready : Bool) (u : Queue) : Place → Option (Place × Queue)
  | .panicked c => some (if panicked then .panicked c else .full c, u)
  | .full c => some (if u.w = u.r + BitVec.ofNat 64 UART_TX_BUF_SIZE then .sleep c else .put c, u)
  | .put c => some (.empty (.uartputc c), { u with
      buf := Function.update u.buf (u.w.toNat % UART_TX_BUF_SIZE) c
      w := u.w + 1#64
      queued := u.queued ++ [c] })
  | .empty caller => some (if u.w = u.r then u.done caller else (.ready caller, u))
  | .ready caller => some (if ready then (.take caller, u) else u.done caller)
  | .take caller => some (.wakeup caller (u.buf (u.r.toNat % UART_TX_BUF_SIZE)), { u with r := u.r + 1#64 })
  | .write caller c => some (.empty caller, { u with written := u.written ++ [c] })
  | _ => none

/-- The first places of `uartputc` and `uartintr`. -/
inductive Place.Start : Place → Prop where
  | uartputc {c} : Place.Start (.panicked c)
  | uartintr : Place.Start (.empty .uartintr)

/-- The call of `wakeup`. -/
inductive Wakes : Place → Chan → Place → Prop where
  | uartstart {caller c} : Wakes (.wakeup caller c) .r (.write caller c)

/-- The call of `sleep`. -/
inductive Sleeps : Place → Chan → Place → Prop where
  | uartputc {c} : Sleeps (.sleep c) .r (.full c)

def uart {n : ℕ} : Monitor (Fin n) Queue Place Chan where
  start _ l _ := l.Start
  act _ l u _ l' u' := ∃ panicked ready, act panicked ready u l = some (l', u')
  wakes := Wakes
  sleeps := Sleeps
  ends l := l = .return
  free _ _ _ := False

/-- The queue before the first byte, with the indices anywhere. -/
def uartinit (buf : ℕ → UInt8) (i : BitVec 64) : Queue := ⟨buf, i, i, [], [], []⟩

/-! ### The bytes -/

def Queue.content (u : Queue) : List UInt8 := Circular.window UART_TX_BUF_SIZE u.buf u.r (u.w - u.r).toNat

/-- The byte that has left the queue and has not been written yet. -/
def Place.hand : Place → List UInt8
  | wakeup _ c | write _ c => [c]
  | _ => []

/-- The byte that the caller of `uartstart` has queued. -/
def Caller.byte : Caller → List UInt8
  | uartputc c => [c]
  | uartintr => []

/-- The byte that has been queued by a call that has not returned yet. -/
def Place.call : Place → List UInt8
  | empty k | ready k | take k | wakeup k _ | write k _ => k.byte
  | _ => []

/-- No byte is lost or doubled, with `hand` out of the queue and `call` not returned for. -/
structure Kept (u : Queue) (hand call : List UInt8) : Prop where
  sent : u.queued = u.written ++ hand ++ u.content
  returned : u.queued = u.returned ++ call

variable {u u' : Queue} {c : UInt8} {caller : Caller}

lemma dvd : UART_TX_BUF_SIZE ∣ 2 ^ 64 := by decide

lemma full_iff : u.w = u.r + BitVec.ofNat 64 UART_TX_BUF_SIZE ↔ (u.w - u.r).toNat = UART_TX_BUF_SIZE := by
  constructor
  · intro eq
    rw [eq, BitVec.add_comm, BitVec.add_sub_cancel]
    rfl
  · intro eq
    rw [← eq, Circular.add_sub_index]

/-- What holds at a place about the number of bytes in the queue. -/
def Place.Ok (u : Queue) : Place → Prop
  | sleep _ => (u.w - u.r).toNat = UART_TX_BUF_SIZE
  | put _ => (u.w - u.r).toNat < UART_TX_BUF_SIZE
  | ready _ | take _ => u.r ≠ u.w
  | _ => True

/-- At most `UART_TX_BUF_SIZE` bytes are in the queue. -/
def Room (u : Queue) : Prop := (u.w - u.r).toNat ≤ UART_TX_BUF_SIZE

lemma dist_put (room : (u.w - u.r).toNat < UART_TX_BUF_SIZE) : (u.w - u.r).toNat + 1 < 2 ^ 64 := by
  simp only [UART_TX_BUF_SIZE] at room
  omega

lemma Queue.done_eq (u : Queue) (caller : Caller) :
    u.done caller = (.return, { u with returned := u.returned ++ caller.byte }) := by
  cases caller <;> simp [Queue.done, Caller.byte]

lemma Room.act {panicked ready : Bool} {l l' : Place} (room : Room u) (ok : l.Ok u)
    (a : act panicked ready u l = some (l', u')) : Room u' ∧ l'.Ok u' := by
  cases l with
  | panicked c =>
    cases a
    refine ⟨room, ?_⟩
    split <;> trivial
  | full c =>
    cases a
    refine ⟨room, ?_⟩
    split
    case isTrue full => exact full_iff.mp full
    case isFalse more => exact Nat.lt_of_le_of_ne room fun eq => more (full_iff.mpr eq)
  | put c =>
    cases a
    refine ⟨?_, trivial⟩
    rw [Room, Circular.dist_succ (dist_put ok)]
    exact ok
  | empty caller =>
    simp only [Uart.act, Option.some.injEq, Queue.done_eq] at a
    split at a
    case isTrue =>
      cases a
      exact ⟨room, trivial⟩
    case isFalse ne =>
      cases a
      exact ⟨room, Ne.symm ne⟩
  | ready caller =>
    simp only [Uart.act, Option.some.injEq, Queue.done_eq] at a
    split at a
    case isTrue =>
      cases a
      exact ⟨room, ok⟩
    case isFalse =>
      cases a
      exact ⟨room, trivial⟩
  | take caller =>
    cases a
    have dist := Circular.dist_rear ok
    refine ⟨?_, trivial⟩
    simp only [Room] at room ⊢
    omega
  | write caller c =>
    cases a
    exact ⟨room, trivial⟩
  | sleep | wakeup | «return» => cases a

lemma Kept.act {panicked ready : Bool} {l l' : Place} (k : Kept u l.hand l.call) (ok : l.Ok u)
    (a : act panicked ready u l = some (l', u')) : Kept u' l'.hand l'.call := by
  obtain ⟨sent, returned⟩ := k
  cases l with
  | panicked c =>
    cases a
    split <;> exact ⟨sent, returned⟩
  | full c =>
    cases a
    split <;> exact ⟨sent, returned⟩
  | put c =>
    cases a
    refine ⟨?_, ?_⟩
    · have push : Circular.window UART_TX_BUF_SIZE (Function.update u.buf (u.w.toNat % UART_TX_BUF_SIZE) c) u.r
          (u.w + 1#64 - u.r).toNat = u.content ++ [c] := Circular.window_push dvd ok (dist_put ok)
      simp only [Queue.content, push, sent, Place.hand, List.append_nil, List.append_assoc]
    · simp only [returned, Place.call, List.append_nil, Caller.byte]
  | empty caller =>
    simp only [Uart.act, Option.some.injEq, Queue.done_eq] at a
    split at a
    case isTrue =>
      cases a
      exact ⟨sent, returned.trans (List.append_nil _).symm⟩
    case isFalse =>
      cases a
      exact ⟨sent, returned⟩
  | ready caller =>
    simp only [Uart.act, Option.some.injEq, Queue.done_eq] at a
    split at a
    case isTrue =>
      cases a
      exact ⟨sent, returned⟩
    case isFalse =>
      cases a
      exact ⟨sent, returned.trans (List.append_nil _).symm⟩
  | take caller =>
    cases a
    have first : u.content = u.buf (u.r.toNat % UART_TX_BUF_SIZE) :: Queue.content { u with r := u.r + 1#64 } :=
      Circular.window_take ok
    refine ⟨?_, returned⟩
    simpa only [first, Place.hand, List.append_nil, List.append_assoc, List.singleton_append] using sent
  | write caller c =>
    cases a
    refine ⟨sent.trans ?_, returned⟩
    simp only [Place.hand, List.append_nil]
    rfl
  | sleep | wakeup | «return» => cases a

/-! ### Runs -/

/-- Who has taken a byte from the queue calls `wakeup`. -/
def Owes (l : Place) (_ : Chan) : Prop := ∃ caller c, l = .wakeup caller c

/-- A process that sleeps waits for room in the queue. -/
def Waits (_ : Chan) (u : Queue) : Prop := (u.w - u.r).toNat = UART_TX_BUF_SIZE

lemma discipline {n : ℕ} : Monitor.Discipline (uart (n := n)) Room (fun l u => l.Ok u) Waits Owes where
  start _ st := by cases st <;> trivial
  act {p l d k l' d'} room ok a := by
    obtain ⟨panicked, ready, a⟩ := a
    obtain ⟨room', ok'⟩ := room.act ok a
    refine ⟨room', ok', fun c => ⟨?_, fun waits => ?_⟩⟩
    · rintro ⟨caller, c, rfl⟩
      cases a
    · cases l with
      | put => exact absurd waits (Nat.ne_of_lt ok)
      | take =>
        cases a
        exact .inr ⟨_, _, rfl⟩
      | panicked | full | write =>
        cases a
        exact .inl waits
      | empty | ready =>
        simp only [act, Option.some.injEq, Queue.done_eq] at a
        split at a <;> cases a <;> exact .inl waits
      | sleep | wakeup | «return» => cases a
  wakes _ w := by
    cases w
    exact ⟨trivial, fun c ne => absurd rfl ne⟩
  sleeps _ ok sl := by
    cases sl
    refine ⟨ok, ?_, fun _ _ => trivial⟩
    rintro _ ⟨_, _, eq⟩
    cases eq
  free _ f := f.elim

lemma guard {n : ℕ} : Monitor.Guard (uart (n := n)) (fun u => Kept u [] [] ∧ Room u)
    (fun l u => Kept u l.hand l.call ∧ Room u ∧ l.Ok u) where
  start kept st := by cases st <;> exact ⟨kept.1, kept.2, trivial⟩
  act i a := by
    obtain ⟨panicked, ready, a⟩ := a
    exact ⟨i.1.act i.2.2 a, i.2.1.act i.2.2 a⟩
  wakes i w := by
    cases w
    exact ⟨i.1, i.2.1, trivial⟩
  sleeps i sl := by
    cases sl
    exact ⟨⟨i.1, i.2.1⟩, fun _ kept => ⟨kept.1, kept.2, trivial⟩⟩
  ends i is := by
    cases is
    exact ⟨i.1, i.2.1⟩
  free f := f.elim

variable {n : ℕ} {buf : ℕ → UInt8} {i : BitVec 64} {es : List (Monitor.Event n Place)}
  {s : Monitor.State n Queue Place Chan}

lemma room_uartinit : Room (uartinit buf i) := by simp [Room, uartinit]

lemma kept_uartinit : Kept (uartinit buf i) [] [] := by
  constructor <;> simp [uartinit, Queue.content]

lemma sound (run : Run (Monitor.Step uart) (Monitor.init (uartinit buf i)) es s) :
    Monitor.Sound Room (fun l u => l.Ok u) Waits Owes s := by
  refine discipline.sound room_uartinit (run.mono (P := fun _ => True) trivial (fun _ _ => trivial) fun _ st => ⟨st, ?_⟩)
  refine st.paid ?_
  rintro _ rfl c ⟨_, _, eq⟩
  cases eq

lemma kept_of_run (run : Run (Monitor.Step uart) (Monitor.init (uartinit buf i)) es s) :
    ∃ hand call, Kept s.data hand call ∧ hand.length ≤ 1 ∧ (s.holder = none → hand = [] ∧ call = []) := by
  have guarded := guard.guarded ⟨kept_uartinit, room_uartinit⟩ run
  obtain ⟨kept, -⟩ | ⟨held, l, kept, -⟩ := guarded.free_or_place
  · exact ⟨[], [], kept, Nat.zero_le 1, fun _ => ⟨rfl, rfl⟩⟩
  · refine ⟨l.hand, l.call, kept, ?_, fun free => absurd free held⟩
    cases l <;> simp [Place.hand]

/-- After every run, whatever was put, however the device was ready and in whatever order the processes and handlers came: at
most `UART_TX_BUF_SIZE` bytes are in the queue; what has been written to THR, at most one byte that is on its way there and
the queue make up what has been queued, in this order; while the lock is free none is on its way, and the queued bytes are
those of the calls of `uartputc` that have returned, in their order; and while the lock is free nobody sleeps on `&uart_tx_r`
unless the queue is full. -/
theorem uart_transmit_queue (run : Run (Monitor.Step uart) (Monitor.init (uartinit buf i)) es s) :
    (s.data.w - s.data.r).toNat ≤ UART_TX_BUF_SIZE ∧
      (∃ hand, hand.length ≤ 1 ∧ s.data.queued = s.data.written ++ hand ++ s.data.content) ∧
      (s.holder = none → s.data.queued = s.data.written ++ s.data.content ∧ s.data.queued = s.data.returned ∧
        ∀ p c, c ∈ (s.threads p).chan → (s.data.w - s.data.r).toNat = UART_TX_BUF_SIZE) := by
  obtain ⟨hand, call, ⟨sent, returned⟩, short, none⟩ := kept_of_run run
  refine ⟨(sound run).data, ⟨hand, short, sent⟩, fun free => ?_⟩
  obtain ⟨rfl, rfl⟩ := none free
  exact ⟨by simpa using sent, by simpa using returned, fun p c mem => (sound run).blocked_of_free free mem⟩

/-- A queue with one process, which also takes the interrupts. -/
abbrev idle : Monitor.State 1 Queue Place Chan := Monitor.init (uartinit (fun _ => 0) 0)

/-- A byte is put and written at once. -/
theorem uart_transmit_one : ∃ es s, Run (Monitor.Step uart) idle es s ∧ s.holder = none ∧ s.data.written = [97] ∧
    s.data.queued = s.data.written ++ s.data.content := by
  have run := Run.nil.snoc (@Monitor.Step.enter _ _ _ _ _ uart idle 0 (.panicked 97) rfl rfl .uartputc)
    |>.snoc (.act (p := 0) rfl ⟨false, true, rfl⟩) |>.snoc (.act (p := 0) rfl ⟨false, true, rfl⟩)
    |>.snoc (.act (p := 0) rfl ⟨false, true, rfl⟩) |>.snoc (.act (p := 0) rfl ⟨false, true, rfl⟩)
    |>.snoc (.act (p := 0) rfl ⟨false, true, rfl⟩) |>.snoc (.act (p := 0) rfl ⟨false, true, rfl⟩)
    |>.snoc (.wakeup (p := 0) rfl .uartstart) |>.snoc (.visit (p := 0) (by decide) rfl rfl) |>.snoc (.visited (p := 0) rfl)
    |>.snoc (.act (p := 0) rfl ⟨false, true, rfl⟩) |>.snoc (.act (p := 0) rfl ⟨false, true, rfl⟩)
    |>.snoc (.leave (p := 0) rfl rfl)
  exact ⟨_, _, run, rfl, rfl, ((uart_transmit_queue run).2.2 rfl).1⟩

end Xv6.Uart
