import Xv6.Bio.Structure
import Xv6.Log.Crash

/-!
# Coherence of the buffer cache with the log

The machine of `Log.Machine` on the buffers of `Bio.Cache`: the processes get buffers by `bread`, change the data of those
they hold, pass them to `log_write` and release them, and `commit()` copies from buffer to buffer. Here a buffer is
recycled because its count is zero, and the log keeps those of its header by their pins. In `State` the component `cache`
of the log is history: what the buffer of a block held when it was read, logged or written last.

Every step is one of the abstract machine, in which only buffers that the log has not pinned are recycled, so that what
holds there of `bread` holds of the buffers (`bread_coherent`).
-/

namespace Xv6.Coherence

/-- Device number of the file system (`param.h`). -/
abbrev ROOTDEV : BitVec 32 := 1

/-- The buffers, and the disk and the log. -/
structure State where
  bio : Bio.State
  log : Log.State

namespace State

def buf (s : State) (i : Fin NBUF) : Bio.Buf := s.bio.cache.buf i

def block (s : State) (i : Fin NBUF) : ℕ := (s.buf i).blockno.toNat

/-- The process has got the buffer from `bread`. -/
structure Has (s : State) (p : Fin NPROC) (i : Fin NBUF) : Prop where
  out : s.bio.at_ p = .out
  lock : (s.buf i).lock = some p
  valid : (s.buf i).valid

/-- The buffers after new data have been put into one of them. -/
def store (s : State) (i : Fin NBUF) (v : Block) : Bio.State :=
  { s.bio with cache := s.bio.cache.set i { s.buf i with valid := true, data := v } }

/-- The buffer holds what it held when its block was read, logged or written last. -/
def Logged (s : State) (i : Fin NBUF) : Prop := s.log.cache (s.block i) = some (s.buf i).data

/-- The history after `bget`: the block that a buffer has been taken from is not cached any more. -/
def forget (s : State) (bio : Bio.State) (i : Fin NBUF) : Log.State :=
  if (s.buf i).dev = ROOTDEV ∧ (bio.cache.buf i).blockno ≠ (s.buf i).blockno then
    { s.log with cache := Function.update s.log.cache (s.block i) none }
  else s.log

end State

/-- What happens. -/
inductive Event where
  | acquiresleep (p : Fin NPROC) (i : Fin NBUF)
  | read (p : Fin NPROC) (i : Fin NBUF)
  | logWrite (b : ℕ) (v : Block)
  | other

/-- The steps. A client changes a buffer that it has got from `bread` inside of an operation, and has passed it to
`log_write` before it releases it and before it ends the operation. A copy of `commit()` and the write of the copy to the
disk are one step; the buffers are locked, so that nobody sees what is between them. -/
inductive Step (s : State) : Event → State → Prop where
  | bget {p b i bio} :
    Bio.Step s.bio (.bget p ROOTDEV b i) bio →
    Step s .other ⟨bio, s.forget bio i⟩
  | acquiresleep {p i bio} :
    Bio.Step s.bio (.acquiresleep p i) bio →
    Step s (.acquiresleep p i) ⟨bio, s.log⟩
  -- the rest of `bread` for a buffer that is not valid
  | read {p i} :
    s.bio.at_ p = .out →
    (s.buf i).lock = some p →
    (s.buf i).valid = false →
    Step s (.read p i) ⟨s.store i (s.log.disk (s.block i)),
      { s.log with cache := Function.update s.log.cache (s.block i) (some (s.log.disk (s.block i))) }⟩
  | change {p o i v} :
    s.Has p i →
    (p.val, o) ∈ s.log.active →
    s.log.log.Home (s.block i) →
    Step s .other ⟨s.store i v, s.log⟩
  | logWrite {p o i l} :
    s.Has p i →
    (p.val, o) ∈ s.log.active →
    s.log.log.Home (s.block i) →
    Log.logWrite s.log.log (s.block i) = .ok l →
    Step s (.logWrite (s.block i) (s.buf i).data)
      ⟨if s.block i ∈ s.log.log.lh then s.bio else s.bio.bpin i,
      { s.log with
        cache := Function.update s.log.cache (s.block i) (some (s.buf i).data)
        log := l
        cur := s.log.cur ++ [⟨o, s.block i, (s.buf i).data⟩] }⟩
  | releasesleep {p i bio} :
    s.Logged i →
    Bio.Step s.bio (.releasesleep p i) bio →
    Step s .other ⟨bio, s.log⟩
  | brelse {p i bio} :
    Bio.Step s.bio (.brelse p i) bio →
    Step s .other ⟨bio, s.log⟩
  | beginOp {p : Fin NPROC} {log} :
    Log.Step s.log (.beginOp p) log →
    Step s .other ⟨s.bio, log⟩
  | endOp {p : Fin NPROC} {log} :
    (∀ i, (s.buf i).lock = some p → (s.buf i).valid → s.Logged i) →
    Log.Step s.log (.endOp p) log →
    Step s .other ⟨s.bio, log⟩
  | writeLog {p i j tail} :
    s.log.pc = .writeLog tail →
    s.log.log.lh[tail]? = some (s.block j) →
    s.block i = s.log.log.start + tail + 1 →
    s.Has p i →
    s.Has p j →
    Step s .other ⟨s.store i (s.buf j).data,
      { s.log.bwrite (s.block i) (s.buf j).data with pc := .writeLog (tail + 1) }⟩
  | writeHead {p i} :
    s.log.pc = .writeLog s.log.log.lh.length →
    s.block i = s.log.log.start →
    s.Has p i →
    Step s .other ⟨s.store i (Log.writeHead (s.buf i).data s.log.log.lh),
      { s.log.bwrite (s.block i) (Log.writeHead (s.buf i).data s.log.log.lh) with pc := .installTrans 0 }⟩
  | install {p i j tail} :
    s.log.pc = .installTrans tail →
    s.log.log.lh[tail]? = some (s.block j) →
    s.block i = s.log.log.start + tail + 1 →
    s.Has p i →
    s.Has p j →
    Step s .other ⟨(s.store j (s.buf i).data).bunpin j,
      { s.log.bwrite (s.block j) (s.buf i).data with pc := .installTrans (tail + 1) }⟩
  | clearHead {p i} :
    s.log.pc = .installTrans s.log.log.lh.length →
    s.block i = s.log.log.start →
    s.Has p i →
    Step s .other ⟨s.store i (Log.writeHead (s.buf i).data []),
      { s.log.bwrite (s.block i) (Log.writeHead (s.buf i).data []) with
        log := { s.log.log with lh := [] }, pc := .committed, returned := s.log.returned + 1 }⟩
  | finish {log} :
    s.log.pc = .committed →
    Log.Step s.log .commit log →
    Step s .other ⟨s.bio, log⟩

/-- After `binit` and `initlog`, which leaves the header of the log cleared. -/
def boot (start size : ℕ) (disk : ℕ → Block) : State :=
  ⟨Bio.boot, Log.initial start size (Function.update disk start (Log.writeHead (disk start) []))⟩

/-- What has been passed to `log_write`. -/
def logged : List Event → List (ℕ × Block)
  | [] => []
  | .logWrite b v :: es => (b, v) :: logged es
  | _ :: es => logged es

/-- The buffers agree with the abstract machine. -/
structure Coherent (s : State) : Prop where
  bio : Bio.Inv s.bio
  log : Log.Running s.log
  panic : s.log.panic = none
  dev : ∀ i, (s.buf i).dev = ROOTDEV ∨ (s.buf i).dev = 0 ∧ (s.buf i).valid = false ∧ (s.buf i).refcnt = 0
  cached : ∀ {b v}, s.log.cache b = some v → ∃ i, (s.buf i).dev = ROOTDEV ∧ s.block i = b ∧ (s.buf i).valid
  valid : ∀ {i}, (s.buf i).valid → (∃ v, s.log.cache (s.block i) = some v) ∧
    (s.Logged i ∨ ∃ p o, (s.buf i).lock = some p ∧ (p.val, o) ∈ s.log.active)
  pins : ∀ i, s.bio.pins i = if (s.buf i).dev = ROOTDEV ∧ s.block i ∈ s.log.pinned then 1 else 0
  pinned : ∀ {b}, b ∈ s.log.pinned → ∃ v, s.log.cache b = some v

variable {s s' : State} {p : Fin NPROC} {i j : Fin NBUF} {b : ℕ} {v : Block} {bio : Bio.State} {log : Log.State}

namespace Coherent

lemma unique (c : Coherent s) (di : (s.buf i).dev = ROOTDEV) (dj : (s.buf j).dev = ROOTDEV)
    (eq : s.block i = s.block j) : i = j :=
  c.bio.unique i j (by rw [← State.buf, di]; decide) (di.trans dj.symm) (BitVec.eq_of_toNat_eq eq)

lemma dev_of_valid (c : Coherent s) (valid : (s.buf i).valid) : (s.buf i).dev = ROOTDEV := by
  rcases c.dev i with dev | ⟨-, no, -⟩
  · exact dev
  · rw [valid] at no
    cases no

lemma dev_of_refs (c : Coherent s) (pos : 0 < s.bio.refs i) : (s.buf i).dev = ROOTDEV := by
  rcases c.dev i with dev | ⟨-, -, zero⟩
  · exact dev
  · have count := c.bio.counted.refcnt i
    rw [← State.buf, zero] at count
    change 0 = _ at count
    omega

lemma dev_of_lock (c : Coherent s) (lock : (s.buf i).lock = some p) : (s.buf i).dev = ROOTDEV := by
  apply c.dev_of_refs
  rw [Bio.State.refs, show (s.bio.cache.buf i).lock = some p from lock]
  exact Nat.succ_pos _

lemma dev_of_place (c : Coherent s) (pos : 0 < (s.bio.at_ p).refs i) : (s.buf i).dev = ROOTDEV := by
  apply c.dev_of_refs
  have le := Finset.single_le_sum (f := fun p => (s.bio.at_ p).refs i) (fun _ _ => Nat.zero_le _) (Finset.mem_univ p)
  rw [Bio.State.refs]
  omega

lemma cache_none (c : Coherent s) (dev : (s.buf i).dev = ROOTDEV) (no : (s.buf i).valid = false) :
    s.log.cache (s.block i) = none := by
  rw [Option.eq_none_iff_forall_ne_some]
  intro v some
  obtain ⟨j, dj, eq, valid⟩ := c.cached some
  rw [c.unique dj dev eq, no] at valid
  cases valid

lemma logged_of_idle (c : Coherent s) (idle : s.log.log.outstanding = 0) (valid : (s.buf i).valid) : s.Logged i := by
  have none : s.log.active = [] := List.eq_nil_of_length_eq_zero (c.log.consistent.count.trans idle)
  rcases (c.valid valid).2 with ok | ⟨p, o, -, mem⟩
  · exact ok
  · rw [none] at mem
    cases mem

lemma bread_eq (logged : s.Logged i) : s.log.bread (s.block i) = (s.buf i).data := by
  rw [Log.State.bread, show s.log.cache (s.block i) = _ from logged, Option.getD_some]

lemma fill_eq (logged : s.Logged i) : s.log.fill (s.block i) = s.log := by
  rw [Log.State.fill, bread_eq logged, ← show s.log.cache (s.block i) = _ from logged, Function.update_eq_self]

lemma frame (c : Coherent s) (inv : Bio.Inv bio) (pins : bio.pins = s.bio.pins)
    (zero : ∀ i, (s.buf i).dev ≠ ROOTDEV → (bio.cache.buf i).refcnt = (s.buf i).refcnt)
    (same : ∀ i, (bio.cache.buf i).dev = (s.buf i).dev ∧ (bio.cache.buf i).blockno = (s.buf i).blockno ∧
      (bio.cache.buf i).valid = (s.buf i).valid ∧ (bio.cache.buf i).data = (s.buf i).data)
    (lock : ∀ i p o, (s.buf i).lock = some p → (p.val, o) ∈ s.log.active →
      s.Logged i ∨ (bio.cache.buf i).lock = some p) : Coherent ⟨bio, s.log⟩ := by
  have block : ∀ i, State.block ⟨bio, s.log⟩ i = s.block i := fun i => congrArg BitVec.toNat (same i).2.1
  refine ⟨inv, c.log, c.panic, fun i => ?_, fun {b v} some => ?_, fun {i} valid => ?_, fun i => ?_, c.pinned⟩
  · simp only [State.buf, same]
    rcases c.dev i with dev | ⟨no, valid, ref⟩
    · exact .inl dev
    · exact .inr ⟨no, valid, (zero i (by rw [no]; decide)).trans ref⟩
  · obtain ⟨i, dev, eq, valid⟩ := c.cached some
    exact ⟨i, (same i).1.trans dev, (block i).trans eq, (same i).2.2.1.trans valid⟩
  · obtain ⟨cached, ok⟩ := c.valid ((same i).2.2.1.symm.trans valid)
    rw [State.Logged, block, State.buf, (same i).2.2.2]
    refine ⟨cached, ?_⟩
    rcases ok with ok | ⟨p, o, held, mem⟩
    · exact .inl ok
    · exact (lock i p o held mem).imp id fun held => ⟨p, o, held, mem⟩
  · rw [block, State.buf, (same i).1, pins]
    exact c.pins i

lemma touch (c : Coherent s) {B : Bio.Buf} (inv : Bio.Inv bio) (pins : bio.pins = s.bio.pins)
    (dev : (s.buf i).dev = ROOTDEV)
    (buf : bio.cache.buf = Function.update s.bio.cache.buf i B)
    (same : B.dev = (s.buf i).dev ∧ B.blockno = (s.buf i).blockno ∧ B.valid = (s.buf i).valid ∧ B.data = (s.buf i).data)
    (lock : ∀ p, (s.buf i).lock = some p → s.Logged i ∨ B.lock = some p) : Coherent ⟨bio, s.log⟩ := by
  have self : bio.cache.buf i = B := by rw [buf, Function.update_self]
  have other : ∀ {j}, j ≠ i → bio.cache.buf j = s.buf j := fun ne => by rw [buf, Function.update_of_ne ne]; rfl
  refine c.frame inv pins (fun j no => ?_) (fun j => ?_) fun j p o held _ => ?_
  · by_cases eq : j = i
    · exact absurd (eq ▸ dev) no
    · rw [other eq]
  · by_cases eq : j = i
    · rw [eq, self]
      exact same
    · rw [other eq]
      exact ⟨rfl, rfl, rfl, rfl⟩
  · by_cases eq : j = i
    · subst eq
      rw [self]
      exact lock p held
    · rw [other eq]
      exact .inr held

/-- New data in a buffer that become what its block was read, logged or written with last. -/
lemma put (c : Coherent s) {B : Bio.Buf} (inv : Bio.Inv bio) (run : Log.Running log) (panic : log.panic = none)
    (dev : (s.buf i).dev = ROOTDEV) (buf : bio.cache.buf = Function.update s.bio.cache.buf i B)
    (dev' : B.dev = ROOTDEV) (blockno : B.blockno = (s.buf i).blockno) (valid : B.valid)
    (cache : log.cache = Function.update s.log.cache (s.block i) (some B.data)) (active : log.active = s.log.active)
    (pins : ∀ j, bio.pins j = if (s.buf j).dev = ROOTDEV ∧ s.block j ∈ log.pinned then 1 else 0)
    (pinned : ∀ b ∈ log.pinned, b ∈ s.log.pinned ∨ b = s.block i) : Coherent ⟨bio, log⟩ := by
  have self : bio.cache.buf i = B := by rw [buf, Function.update_self]
  have other : ∀ {j}, j ≠ i → bio.cache.buf j = s.buf j := fun ne => by rw [buf, Function.update_of_ne ne]; rfl
  have devs : ∀ j, (bio.cache.buf j).dev = (s.buf j).dev := by
    intro j
    by_cases eq : j = i
    · rw [eq, self, dev', dev]
    · rw [other eq]
  have block : ∀ j, State.block ⟨bio, log⟩ j = s.block j := by
    intro j
    simp only [State.block, State.buf]
    by_cases eq : j = i
    · rw [eq, self, blockno]
      rfl
    · rw [other eq]
      rfl
  refine ⟨inv, run, panic, fun j => ?_, fun {b v} some => ?_, fun {j} ok => ?_, fun j => ?_, fun {b} mem => ?_⟩
  · by_cases eq : j = i
    · exact .inl (by rw [State.buf, eq, self, dev'])
    · rw [State.buf, other eq]
      exact c.dev j
  · by_cases eq : b = s.block i
    · exact ⟨i, (devs i).trans dev, (block i).trans eq.symm, by rw [State.buf, self, valid]⟩
    · simp only [cache, Function.update_of_ne eq] at some
      obtain ⟨j, dj, rfl, vj⟩ := c.cached some
      have ne : j ≠ i := fun h => eq (by rw [h])
      exact ⟨j, (devs j).trans dj, block j, by rw [State.buf, other ne, vj]⟩
  · rw [State.Logged, block]
    simp only [cache]
    by_cases eq : j = i
    · subst eq
      simp [State.buf, self]
    · simp only [State.buf, other eq] at ok ⊢
      have ne : s.block j ≠ s.block i := fun h => eq (c.unique (c.dev_of_valid ok) dev h)
      simp only [Function.update_of_ne ne, active]
      exact c.valid ok
  · rw [block, State.buf, devs]
    exact pins j
  · simp only [cache]
    by_cases eq : b = s.block i
    · subst eq
      exact ⟨_, Function.update_self ..⟩
    · rw [Function.update_of_ne eq]
      exact c.pinned ((pinned b mem).resolve_right eq)

lemma relog (c : Coherent s) (run : Log.Running log) (panic : log.panic = none) (cache : log.cache = s.log.cache)
    (pinned : ∀ b, b ∈ log.pinned ↔ b ∈ s.log.pinned)
    (active : ∀ i p o, (s.buf i).lock = some p → (s.buf i).valid → (p.val, o) ∈ s.log.active →
      s.Logged i ∨ (p.val, o) ∈ log.active) : Coherent ⟨s.bio, log⟩ := by
  refine ⟨c.bio, run, panic, c.dev, fun {b v} some => ?_, fun {i} valid => ?_, fun i => ?_, fun {b} mem => ?_⟩
  · exact c.cached (cache ▸ some)
  · obtain ⟨cached, ok⟩ := c.valid valid
    rw [State.Logged, cache]
    refine ⟨cached, ?_⟩
    rcases ok with ok | ⟨p, o, held, mem⟩
    · exact .inl ok
    · exact (active i p o held valid mem).imp id fun mem => ⟨p, o, held, mem⟩
  · simp only [pinned]
    exact c.pins i
  · rw [cache]
    exact c.pinned ((pinned b).mp mem)

lemma change (c : Coherent s) {o : ℕ} (has : s.Has p i) (mem : (p.val, o) ∈ s.log.active) :
    Coherent ⟨s.store i v, s.log⟩ := by
  have inv : Bio.Inv (s.store i v) := c.bio.step (.data has.out has.lock)
  have self : (s.store i v).cache.buf i = { s.buf i with valid := true, data := v } := Function.update_self ..
  have other : ∀ {j}, j ≠ i → (s.store i v).cache.buf j = s.buf j := fun ne => Function.update_of_ne ne ..
  have dev : ∀ j, ((s.store i v).cache.buf j).dev = (s.buf j).dev := by
    intro j
    by_cases eq : j = i
    · rw [eq, self]
    · rw [other eq]
  have block : ∀ j, State.block ⟨s.store i v, s.log⟩ j = s.block j := by
    intro j
    simp only [State.block, State.buf]
    by_cases eq : j = i
    · rw [eq, self]
      rfl
    · rw [other eq]
      rfl
  refine ⟨inv, c.log, c.panic, fun j => ?_, fun {b w} some => ?_, fun {j} valid => ?_, fun j => ?_, c.pinned⟩
  · by_cases eq : j = i
    · subst eq
      exact .inl (by rw [State.buf, dev, c.dev_of_valid has.valid])
    · rw [State.buf, other eq]
      exact c.dev j
  · obtain ⟨j, dj, eq, vj⟩ := c.cached some
    refine ⟨j, (dev j).trans dj, (block j).trans eq, ?_⟩
    by_cases eq : j = i
    · rw [State.buf, eq, self]
    · rw [State.buf, other eq, vj]
  · rw [State.Logged, block]
    by_cases eq : j = i
    · subst eq
      exact ⟨(c.valid has.valid).1, .inr ⟨p, o, by rw [State.buf, self]; exact has.lock, mem⟩⟩
    · simp only [State.buf, other eq] at valid ⊢
      exact c.valid valid
  · rw [block, State.buf, dev]
    exact c.pins j

lemma reassign (c : Coherent s) {B : Bio.Buf} (inv : Bio.Inv bio) (run : Log.Running log) (panic : log.panic = none)
    (buf : bio.cache.buf = Function.update s.bio.cache.buf i B) (dev : B.dev = ROOTDEV) (valid : B.valid = false)
    (new : ∀ j, (s.buf j).dev = ROOTDEV → s.block j ≠ B.blockno.toNat) (pins : bio.pins = s.bio.pins)
    (free : s.bio.pins i = 0) (pinned : log.pinned = s.log.pinned) (active : log.active = s.log.active)
    (keep : ∀ b, (∀ v, log.cache b = some v → s.log.cache b = some v ∧ ¬((s.buf i).dev = ROOTDEV ∧ s.block i = b)) ∧
      (¬((s.buf i).dev = ROOTDEV ∧ s.block i = b) → log.cache b = s.log.cache b)) : Coherent ⟨bio, log⟩ := by
  have self : bio.cache.buf i = B := by rw [buf, Function.update_self]
  have other : ∀ {j}, j ≠ i → bio.cache.buf j = s.buf j := fun ne => by rw [buf, Function.update_of_ne ne]; rfl
  have block : ∀ {j}, j ≠ i → State.block ⟨bio, log⟩ j = s.block j := fun ne => by
    simp only [State.block, State.buf, other ne]
  have notPinned : (s.buf i).dev = ROOTDEV → s.block i ∉ s.log.pinned := by
    intro dev mem
    have := c.pins i
    rw [if_pos ⟨dev, mem⟩] at this
    omega
  refine ⟨inv, run, panic, fun j => ?_, fun {b v} some => ?_, fun {j} ok => ?_, fun j => ?_, fun {b} mem => ?_⟩
  · by_cases eq : j = i
    · exact .inl (by rw [State.buf, eq, self, dev])
    · rw [State.buf, other eq]
      exact c.dev j
  · obtain ⟨some, no⟩ := (keep b).1 v some
    obtain ⟨j, dj, eq, vj⟩ := c.cached some
    have ne : j ≠ i := by
      rintro rfl
      exact no ⟨dj, eq⟩
    exact ⟨j, by rw [State.buf, other ne, dj], (block ne).trans eq, by rw [State.buf, other ne, vj]⟩
  · by_cases eq : j = i
    · rw [State.buf, eq, self, valid] at ok
      cases ok
    · simp only [State.Logged, block eq, State.buf, other eq, active] at ok ⊢
      have no : ¬((s.buf i).dev = ROOTDEV ∧ s.block i = s.block j) := fun h =>
        eq (c.unique (c.dev_of_valid ok) h.1 h.2.symm)
      rw [(keep _).2 no]
      exact c.valid ok
  · rw [pins, pinned]
    by_cases eq : j = i
    · subst eq
      have no : ¬(B.dev = ROOTDEV ∧ B.blockno.toNat ∈ s.log.pinned) := by
        rintro ⟨-, mem⟩
        obtain ⟨v, some⟩ := c.pinned mem
        obtain ⟨k, dk, eq, -⟩ := c.cached some
        exact new k dk eq
      simp only [State.block, State.buf, self, if_neg no]
      exact free
    · rw [block eq, State.buf, other eq]
      exact c.pins j
  · rw [pinned] at mem
    obtain ⟨v, some⟩ := c.pinned mem
    have no : ¬((s.buf i).dev = ROOTDEV ∧ s.block i = b) := fun h => notPinned h.1 (h.2 ▸ mem)
    exact ⟨v, ((keep b).2 no).trans some⟩

lemma bget (c : Coherent s) {n : BitVec 32} (st : Bio.Step s.bio (.bget p ROOTDEV n i) bio) :
    Coherent ⟨bio, s.forget bio i⟩ := by
  have inv := c.bio.step st
  cases st with
  | bget out _ get =>
    obtain ⟨l, r, all, -⟩ := c.bio.listed.ring
    rcases Bio.bget_cases r all get with ⟨dev, -, rfl⟩ | ⟨new, zero, -, rfl⟩
    · -- the block is cached: only the count of its buffer changes
      rw [State.forget, if_neg (by simp [Bio.State.move, Bio.Bcache.set, State.buf])]
      exact c.touch (i := i) inv rfl dev rfl ⟨rfl, rfl, rfl, rfl⟩ fun _ => .inr
    · have count := c.bio.counted.refcnt i
      rw [zero] at count
      change 0 = _ at count
      have free : s.bio.pins i = 0 := by omega
      have new' : ∀ j, (s.buf j).dev = ROOTDEV → s.block j ≠ n.toNat := fun j dev eq =>
        new j dev (BitVec.eq_of_toNat_eq eq)
      unfold State.forget
      split
      · rename_i old
        have step : Log.Step s.log (.recycle (s.block i)) _ := .recycle c.panic fun mem => by
          have := c.pins i
          rw [if_pos ⟨old.1, mem⟩] at this
          omega
        refine c.reassign inv (c.log.step step) c.panic rfl rfl rfl new' rfl free rfl rfl fun b => ⟨fun v some => ?_, fun no => ?_⟩
        · by_cases eq : b = s.block i
          · subst eq
            simp at some
          · exact ⟨(Function.update_of_ne eq _ _).symm.trans some, fun h => eq h.2.symm⟩
        · refine Function.update_of_ne ?_ _ _
          rintro rfl
          exact no ⟨old.1, rfl⟩
      · rename_i old
        have other : (s.buf i).dev ≠ ROOTDEV := by
          intro dev
          refine old ⟨dev, fun eq => new i dev ?_⟩
          simpa [Bio.State.move, Bio.Bcache.set, State.buf] using eq.symm
        exact c.reassign inv c.log c.panic rfl rfl rfl new' rfl free rfl rfl fun b =>
          ⟨fun v some => ⟨some, fun h => other h.1⟩, fun _ => rfl⟩

lemma logWrite (c : Coherent s) {o : ℕ} {l : Log} (has : s.Has p i) (mem : (p.val, o) ∈ s.log.active)
    (home : s.log.log.Home (s.block i)) (ok : Log.logWrite s.log.log (s.block i) = .ok l) :
    Coherent ⟨if s.block i ∈ s.log.log.lh then s.bio else s.bio.bpin i,
      { s.log with
        cache := Function.update s.log.cache (s.block i) (some (s.buf i).data)
        log := l
        cur := s.log.cur ++ [⟨o, s.block i, (s.buf i).data⟩] }⟩ := by
  have run := c.log.step (.logWrite (v := (s.buf i).data) c.panic mem home (BitVec.isLt _) ok)
  have dev := c.dev_of_valid has.valid
  have at_ := c.log.consistent.pc_run mem
  obtain ⟨-, -, -, rfl⟩ := Log.logWrite_ok ok
  have pin := c.pins i
  simp only [Log.State.pinned, at_, dev, true_and] at pin
  split
  · rename_i old
    refine c.put (i := i) c.bio run c.panic dev (Function.update_eq_self i _).symm dev rfl has.valid rfl rfl
      (fun j => ?_) fun b => ?_
    · have := c.pins j
      simp only [Log.State.pinned, at_, Log.mem_absorb] at this ⊢
      rw [this]
      by_cases eq : s.block j = s.block i <;> simp [eq, old]
    · simp [Log.State.pinned, at_]
  · rename_i new
    rw [if_neg new] at pin
    refine c.put (i := i) (c.bio.step (.bpin (by rw [pin]; decide))) run c.panic dev rfl dev rfl has.valid rfl rfl (fun j => ?_)
      fun b => ?_
    · have := c.pins j
      simp only [Log.State.pinned, at_, Log.mem_absorb] at this ⊢
      by_cases eq : j = i
      · subst eq
        simp [Bio.State.bpin, pin, dev]
      · have ne : (s.buf j).dev = ROOTDEV → s.block j ≠ s.block i := fun dj h => eq (c.unique dj dev h)
        simp only [Bio.State.bpin, Function.update_of_ne eq, this]
        by_cases dj : (s.buf j).dev = ROOTDEV
        · simp [dj, ne dj]
        · exact (if_neg fun h => dj h.1).trans (if_neg fun h => dj h.1).symm
    · simp [Log.State.pinned, at_]

lemma endOp (c : Coherent s) (clean : ∀ i, (s.buf i).lock = some p → (s.buf i).valid → s.Logged i)
    (st : Log.Step s.log (.endOp p) log) : Coherent ⟨s.bio, log⟩ := by
  have run := c.log.step st
  have active : ∀ {a : ℕ × ℕ}, a.1 = p.val → ∀ i q o, (s.buf i).lock = some q → (s.buf i).valid →
      (q.val, o) ∈ s.log.active → s.Logged i ∨ (q.val, o) ∈ s.log.active.erase a := by
    intro a fst i q o held valid mem
    by_cases eq : q = p
    · exact .inl (clean i (eq ▸ held) valid)
    · refine .inr ((List.mem_erase_of_ne ?_).mpr mem)
      rintro rfl
      exact eq (Fin.ext fst)
  cases st with
  | endOp none _ ok =>
    obtain ⟨-, rfl, -⟩ := Log.endOp_ok ok
    exact c.relog run none rfl (fun _ => Iff.rfl) (active rfl)
  | endOpCommit none mem ok =>
    obtain ⟨-, rfl, -⟩ := Log.endOp_ok ok
    refine c.relog run none rfl (fun b => ?_) (active rfl)
    by_cases e : s.log.log.lh = [] <;> simp [Log.State.pinned, c.log.consistent.pc_run mem, e]
  | endOpPanic _ mem err =>
    have := (c.log.consistent.at_run (c.log.consistent.pc_run mem)).1
    rw [Log.endOp_error err] at this
    cases this

lemma install (c : Coherent s) {tail : ℕ} (at_ : s.log.pc = .installTrans tail)
    (get : s.log.log.lh[tail]? = some (s.block j)) (block : s.block i = s.log.log.start + tail + 1) (has : s.Has p i)
    (has' : s.Has p j) : Coherent ⟨(s.store j (s.buf i).data).bunpin j,
      { s.log.bwrite (s.block j) (s.buf i).data with pc := .installTrans (tail + 1) }⟩ := by
  have idle := (c.log.consistent.at_installTrans at_).2.1
  have logged := c.logged_of_idle idle has.valid
  have run := c.log.step (.install c.panic at_ get)
  rw [Log.State.install, ← block, fill_eq logged, bread_eq logged] at run
  have dev := c.dev_of_valid has'.valid
  obtain ⟨lt, eq⟩ := List.getElem?_eq_some_iff.mp get
  have drop := List.drop_eq_getElem_cons lt
  rw [eq] at drop
  have nodup := c.log.consistent.nodup.sublist (List.drop_sublist tail _)
  rw [drop, List.nodup_cons] at nodup
  have pin := c.pins j
  simp only [Log.State.pinned, at_, drop, dev, List.mem_cons, true_or, and_self, if_true] at pin
  have stored : Bio.Inv (s.store j (s.buf i).data) := c.bio.step (.data has'.out has'.lock)
  have pos : 0 < (s.store j (s.buf i).data).pins j := by
    change 0 < s.bio.pins j
    omega
  refine c.put (i := j)
    (B := { s.buf j with valid := true, data := (s.buf i).data, refcnt := (s.buf j).refcnt - 1 })
    (stored.step (.bunpin pos)) run c.panic dev ?_ dev rfl rfl rfl rfl (fun k => ?_) fun b => ?_
  · simp only [Bio.State.bunpin, Bio.bunpin, State.store, Bio.Bcache.set, Function.update_idem, Function.update_self]
  · have := c.pins k
    simp only [Log.State.pinned, at_, drop, List.mem_cons] at this
    simp only [Bio.State.bunpin, State.store, Log.State.pinned, Log.State.bwrite]
    by_cases eq : k = j
    · subst eq
      simp [pin, nodup.1]
    · have ne : (s.buf k).dev = ROOTDEV → s.block k ≠ s.block j := fun dk h => eq (c.unique dk dev h)
      rw [Function.update_of_ne eq, this]
      by_cases dk : (s.buf k).dev = ROOTDEV
      · simp [dk, ne dk]
      · exact (if_neg fun h => dk h.1).trans (if_neg fun h => dk h.1).symm
  · simp only [Log.State.pinned, at_, drop, List.mem_cons]
    exact fun mem => .inl (.inr mem)

lemma step (c : Coherent s) {e : Event} (st : Step s e s') : Coherent s' := by
  cases st with
  | bget st => exact c.bget st
  | @acquiresleep p i bio st =>
    have inv := c.bio.step st
    cases st with
    | acquiresleep at_ free =>
      refine c.touch (i := i) inv rfl (c.dev_of_place (p := p) (by simp [at_])) rfl ⟨rfl, rfl, rfl, rfl⟩ fun p held => ?_
      rw [State.buf, free] at held
      cases held
  | @read p i out lock no =>
    have dev := c.dev_of_lock lock
    have fill : s.log.fill (s.block i) =
        { s.log with cache := Function.update s.log.cache (s.block i) (some (s.log.disk (s.block i))) } := by
      rw [Log.State.fill, Log.State.bread, c.cache_none dev no]
      rfl
    refine c.put (i := i) (c.bio.step (.data out lock)) (fill ▸ c.log.step (.bread c.panic)) c.panic dev rfl dev rfl rfl rfl
      rfl c.pins fun b => .inl
  | @change p o i v has mem home => exact c.change has mem
  | @logWrite p o i l has mem home ok => exact c.logWrite has mem home ok
  | @releasesleep p i bio logged st =>
    have inv := c.bio.step st
    cases st with
    | releasesleep _ lock =>
      exact c.touch (i := i) inv rfl (c.dev_of_lock lock) rfl ⟨rfl, rfl, rfl, rfl⟩ fun _ _ => .inl logged
  | @brelse p i bio st =>
    have inv := c.bio.step st
    cases st with
    | brelse at_ =>
      refine c.touch (i := i) inv ?_ (c.dev_of_place (p := p) (by simp [at_])) Bio.State.brelse_buf ⟨rfl, rfl, rfl, rfl⟩
        fun _ => .inr
      simp only [Bio.State.move, Bio.State.brelse]
      split <;> rfl
  | @beginOp p log st =>
    have run := c.log.step st
    cases st with
    | beginOp none _ _ _ ok =>
      obtain ⟨-, -, rfl⟩ := Log.beginOp_some ok
      exact c.relog run none rfl (fun _ => Iff.rfl) fun i q o _ _ mem => .inr (List.mem_cons_of_mem _ mem)
  | @endOp p log clean st => exact c.endOp clean st
  | @writeLog p i j tail at_ get block has has' =>
    have idle := (c.log.consistent.at_writeLog at_).2.1
    have logged := c.logged_of_idle idle has'.valid
    have run := c.log.step (.writeLog c.panic at_ get)
    rw [Log.State.writeLog, fill_eq logged, bread_eq logged, ← block] at run
    refine c.put (i := i) (c.bio.step (.data has.out has.lock)) run c.panic (c.dev_of_valid has.valid) rfl
      (c.dev_of_valid has.valid) rfl rfl rfl rfl (fun k => ?_) fun b => ?_
    · simpa [State.store, Log.State.pinned, Log.State.bwrite, at_] using c.pins k
    · simpa [Log.State.pinned, Log.State.bwrite, at_] using .inl
  | @writeHead p i at_ block has =>
    have idle := (c.log.consistent.at_writeLog at_).2.1
    have run := c.log.step (.writeHead c.panic at_)
    rw [Log.State.writeHead, ← block, bread_eq (c.logged_of_idle idle has.valid)] at run
    refine c.put (i := i) (c.bio.step (.data has.out has.lock)) run c.panic (c.dev_of_valid has.valid) rfl
      (c.dev_of_valid has.valid) rfl rfl rfl rfl (fun k => ?_) fun b => ?_
    · simpa [State.store, Log.State.pinned, Log.State.bwrite, at_] using c.pins k
    · simpa [Log.State.pinned, Log.State.bwrite, at_] using .inl
  | @install p i j tail at_ get block has has' => exact c.install at_ get block has has'
  | @clearHead p i at_ block has =>
    have idle := (c.log.consistent.at_installTrans at_).2.1
    have run := c.log.step (.clearHead c.panic at_)
    have bread : Log.State.bread { s.log with log := { s.log.log with lh := [] } } (s.block i) = (s.buf i).data :=
      bread_eq (c.logged_of_idle idle has.valid)
    have header : ({ s.log with log := { s.log.log with lh := [] } } : Log.State).log.start = s.block i := block.symm
    rw [Log.State.clearHead, Log.State.writeHead, header, bread] at run
    refine c.put (i := i) (c.bio.step (.data has.out has.lock)) run c.panic (c.dev_of_valid has.valid) rfl
      (c.dev_of_valid has.valid) rfl rfl rfl rfl (fun k => ?_) fun b => ?_
    · simpa [State.store, Log.State.pinned, Log.State.bwrite, at_] using c.pins k
    · simp [Log.State.pinned]
  | @finish log at_ st =>
    have run := c.log.step st
    cases st with
    | finish none =>
      refine c.relog run none rfl (fun b => ?_) fun i q o _ _ mem => .inr mem
      simp [Log.State.pinned, at_]
    | _ => simp_all

end Coherent

lemma coherent_boot {start size : ℕ} {disk : ℕ → Block} (pos : 1 ≤ size) : Coherent (boot start size disk) where
  bio := Bio.inv_boot
  log := by
    refine ⟨.initial, pos, fun _ _ => rfl, fun _ _ => rfl, rfl, ?_, fun _ _ => rfl⟩
    change Log.readHead (Function.update disk start (Log.writeHead (disk start) []) start) = []
    rw [Function.update_self]
    exact Log.readHead_writeHead_nil
  panic := rfl
  dev _ := .inr ⟨rfl, rfl, rfl⟩
  cached some := by simp [boot, Log.initial] at some
  valid valid := by simp [boot, State.buf, Bio.boot, Bio.binit] at valid
  pins _ := by simp [boot, Bio.boot, Log.initial, Log.State.pinned]
  pinned mem := by simp [boot, Log.initial, Log.State.pinned] at mem

lemma logged_append {es es' : List Event} : logged (es ++ es') = logged es ++ logged es' := by
  induction es with
  | nil => rfl
  | cons e es ih => cases e <;> simp [logged, ih]

/-- All that has been logged, in order. -/
def State.updates (s : State) : List (ℕ × Block) := (s.log.txns.flatten ++ s.log.cur).map fun u => (u.block, u.data)

lemma Step.updates {e : Event} (st : Step s e s') : s'.log.base = s.log.base ∧ s'.log.log.start = s.log.log.start ∧
    s'.log.log.size = s.log.log.size ∧ s'.updates = s.updates ++ logged [e] := by
  cases st with
  | bget =>
    unfold State.forget State.updates
    split <;> simp [logged]
  | logWrite _ _ _ ok =>
    obtain ⟨-, -, -, rfl⟩ := Log.logWrite_ok ok
    simp [State.updates, logged]
  | beginOp st =>
    cases st with
    | beginOp _ _ _ _ ok =>
      obtain ⟨-, -, rfl⟩ := Log.beginOp_some ok
      simp [State.updates, logged]
  | endOp _ st =>
    cases st with
    | endOp _ _ ok =>
      obtain ⟨-, rfl, -⟩ := Log.endOp_ok ok
      simp [State.updates, logged]
    | endOpCommit _ _ ok =>
      obtain ⟨-, rfl, -⟩ := Log.endOp_ok ok
      simp [State.updates, logged]
    | endOpPanic => simp [State.updates, logged]
  | finish at_ st =>
    cases st with
    | finish => simp [State.updates, logged]
    | _ => simp_all
  | _ => simp [State.updates, logged, Log.State.bwrite]

lemma updates_eq {start size : ℕ} {disk : ℕ → Block} {es : List Event} (run : Run Step (boot start size disk) es s) :
    s.log.base = (boot start size disk).log.base ∧ s.log.log.start = start ∧ s.log.log.size = size ∧
      s.updates = logged es := by
  induction run with
  | nil => exact ⟨rfl, rfl, rfl, rfl⟩
  | snoc _ st ih =>
    obtain ⟨base, first, size, updates⟩ := st.updates
    refine ⟨base.trans ih.1, first.trans ih.2.1, size.trans ih.2.2.1, ?_⟩
    rw [updates, ih.2.2.2, logged_append]

lemma Coherent.logged_of_bread (c : Coherent s) {e : Event} (st : Step s e s')
    (ret : e = .acquiresleep p i ∨ e = .read p i) (valid : (s'.buf i).valid) : s'.Logged i := by
  rcases ret with rfl | rfl
  · cases st with
    | acquiresleep st =>
      cases st with
      | acquiresleep at_ free =>
        rw [State.Logged, State.block]
        simp only [State.buf, Bio.State.move, Bio.Bcache.set, Function.update_self] at valid ⊢
        -- nobody has held the buffer, so that nobody has changed it
        rcases (c.valid valid).2 with ok | ⟨q, o, held, -⟩
        · exact ok
        · rw [State.buf, free] at held
          cases held
  · cases st with
    | read => simp [State.Logged, State.block, State.buf, State.store, Bio.Bcache.set]

/-- A buffer to which there are references or that is pinned is not taken for another block. -/
lemma Coherent.kept (c : Coherent s) {e : Event} (st : Step s e s') (used : (s.buf i).refcnt ≠ 0) :
    (s'.buf i).dev = (s.buf i).dev ∧ s'.block i = s.block i := by
  have bio : ∀ {e bio}, Bio.Step s.bio e bio → (bio.cache.buf i).dev = (s.buf i).dev ∧
      (bio.cache.buf i).blockno.toNat = s.block i := by
    intro e bio st
    by_contra no
    have new : (bio.cache.buf i).dev ≠ (s.bio.cache.buf i).dev ∨
        (bio.cache.buf i).blockno ≠ (s.bio.cache.buf i).blockno := by
      by_contra same
      push Not at same
      exact no ⟨same.1, congrArg BitVec.toNat same.2⟩
    obtain ⟨dev, blockno, get⟩ := c.bio.listed.reassigned st new
    exact used (c.bio.listed.victim get new).1
  have set : ∀ {B j}, B.dev = (s.buf j).dev → B.blockno = (s.buf j).blockno →
      ((s.bio.cache.set j B).buf i).dev = (s.buf i).dev ∧
      ((s.bio.cache.set j B).buf i).blockno.toNat = s.block i := by
    intro B j dev blockno
    obtain ⟨same, same'⟩ := Bio.Bcache.set_same (c := s.bio.cache) dev blockno i
    exact ⟨same, congrArg BitVec.toNat same'⟩
  cases st with
  | bget st | acquiresleep st | releasesleep _ st | brelse st => exact bio st
  | read | change | writeLog | writeHead | clearHead => exact set rfl rfl
  | @logWrite p o j =>
    by_cases old : s.block j ∈ s.log.log.lh
    · rw [if_pos old]
      exact ⟨rfl, rfl⟩
    · rw [if_neg old]
      exact set (j := j) rfl rfl
  | @install p k j =>
    have buf : ((s.store j (s.buf k).data).bunpin j).cache.buf = (s.bio.cache.set j
        { s.buf j with valid := true, data := (s.buf k).data, refcnt := (s.buf j).refcnt - 1 }).buf := by
      simp only [Bio.State.bunpin, Bio.bunpin, State.store, Bio.Bcache.set, Function.update_idem, Function.update_self]
    change (((s.store j (s.buf k).data).bunpin j).cache.buf i).dev = _ ∧
      (((s.store j (s.buf k).data).bunpin j).cache.buf i).blockno.toNat = _
    rw [buf]
    exact set rfl rfl
  | beginOp | endOp | finish => exact ⟨rfl, rfl⟩

/-- In every run: the data of a buffer that `bread` returns are those of the last change of its block that has been passed
to `log_write`, or those of the disk if there is none; for a block of the log they are those of the disk. A buffer that is
listed in the header keeps its block until `install_trans` has written it. -/
theorem bread_coherent {start size : ℕ} {disk : ℕ → Block} (pos : 1 ≤ size) {es : List Event} {e : Event}
    (run : Run Step (boot start size disk) es s) (st : Step s e s') :
    (∀ p i, e = .acquiresleep p i ∨ e = .read p i → (s'.buf i).valid →
      (s'.block i < start ∨ start + size ≤ s'.block i → (s'.buf i).data = replay disk (logged es) (s'.block i)) ∧
      (start ≤ s'.block i ∧ s'.block i < start + size → (s'.buf i).data = s'.log.disk (s'.block i))) ∧
    ∀ i, (s.buf i).dev = ROOTDEV → s.block i ∈ s.log.pinned → (s'.buf i).dev = ROOTDEV ∧ s'.block i = s.block i := by
  have c : Coherent s := run.invariant (coherent_boot pos) fun c st => c.step st
  have c' := c.step st
  obtain ⟨base, first, len, updates⟩ := updates_eq (run.snoc st)
  refine ⟨fun p i ret valid => ?_, fun i dev mem => ?_⟩
  · have logged' := c.logged_of_bread st ret valid
    have bread := Coherent.bread_eq logged'
    have none : logged [e] = [] := by
      rcases ret with rfl | rfl <;> rfl
    rw [logged_append, none, List.append_nil] at updates
    refine ⟨fun home => ?_, fun inside => ?_⟩
    · have latest := c'.log.latest (s'.block i) (by rw [Log.Home, first, len]; exact home)
      rw [← bread, latest, Log.State.view, ← State.updates, updates, base]
      refine replay_congr fun _ => Function.update_of_ne ?_ _ _
      omega
    · rw [← bread]
      refine c'.log.clean _ fun mem => ?_
      have lh : s'.block i ∈ s'.log.log.lh := by
        unfold Log.State.pinned at mem
        split at mem
        · exact List.mem_of_mem_drop mem
        · cases mem
        · exact mem
      have home := (c'.log.consistent.home _ lh).1
      rw [Log.Home, first, len] at home
      omega
  · have pins := c.pins i
    rw [if_pos ⟨dev, mem⟩] at pins
    have count := c.bio.counted.refcnt i
    obtain ⟨same, block⟩ := c.kept st (i := i) fun zero => by
      rw [← State.buf, zero] at count
      change 0 = _ at count
      omega
    exact ⟨same.trans dev, block⟩

abbrev small : State := boot 2 31 fun _ => default

/-- A process changes a block and logs it; another one reads the block and gets the change. -/
theorem bread_coherent_change :
    ∃ es s s', Run Step small es s ∧ Step s (.acquiresleep 1 0) s' ∧ (s'.buf 0).valid ∧ s'.block 0 = 50 ∧
      logged es = [(50, fun _ => 7)] ∧ (s'.buf 0).data = replay (fun _ => default) (logged es) 50 := by
  have run : Run Step small [] small := .nil
  have run := run.snoc (.beginOp (p := 0) (.beginOp rfl nofun nofun (fun _ => List.not_mem_nil) rfl))
    |>.snoc (.bget (p := 0) (b := 50) (i := 0) (.bget rfl (by decide) rfl))
    |>.snoc (.acquiresleep (p := 0) (i := 0) (.acquiresleep rfl rfl))
    |>.snoc (.read (p := 0) (i := 0) rfl rfl rfl)
    |>.snoc (.change (p := 0) (i := 0) (v := fun _ => 7) ⟨rfl, rfl, rfl⟩ (List.mem_cons_self ..) (.inr (by decide)))
    |>.snoc (.logWrite (p := 0) (i := 0) ⟨rfl, rfl, rfl⟩ (List.mem_cons_self ..) (.inr (by decide)) rfl)
    |>.snoc (.releasesleep (p := 0) (i := 0) rfl (.releasesleep rfl rfl))
    |>.snoc (.brelse (p := 0) (i := 0) (.brelse rfl))
    |>.snoc (.bget (p := 1) (b := 50) (i := 0) (.bget rfl (by decide) rfl))
  refine ⟨_, _, _, run, .acquiresleep (p := 1) (i := 0) (.acquiresleep rfl rfl), rfl, rfl, rfl, ?_⟩
  exact ((bread_coherent (by decide) run (.acquiresleep (.acquiresleep rfl rfl))).1 1 0 (.inl rfl) rfl).1 (.inr (by decide))

end Xv6.Coherence
