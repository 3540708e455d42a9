import Mathlib.Data.Finset.Card
import Xv6.Virtio.Invariant

/-!
# The request protocol of the disk

Who sleeps on `&disk.free[0]` waits until three descriptors are free, and who sleeps on a buffer until it has been cleared
(`discipline`). `virtio_protocol` puts this together with what the driver keeps, for runs of any length with any number of
processes.
-/

namespace Xv6.Virtio

variable {ι β : Type*} {n k : ℕ} {c : Call β} {x : Idx}

/-! ### Sleep and wakeup -/

section

def count (free : ℕ → Bool) : ℕ := ((Finset.range NUM).filter fun i => free i = true).card

/-- What holds at a place as long as the lock is held. -/
def At : Place β → Disk ι β → Prop
  | .undo _ l, d | .undoWakeup _ l, d => count d.free + l.length < 3
  | .sleepFree _, d => count d.free < 3
  | .sleepBuf c _, d => d.disk c.b = true
  | _, _ => True

/-- What a process that sleeps on a channel waits for the end of. -/
def Blocked : Chan β → Disk ι β → Prop
  | .free, d => count d.free < 3
  | .buf b, d => d.disk b = true

def owes : Place β → Chan β → Prop
  | .undoWakeup _ _, ch | .chainWakeup _ _ _, ch => ch = .free
  | .intrWakeup b, ch => ch = .buf b
  | _, _ => False

lemma count_mono {free free' : ℕ → Bool} (le : ∀ i, free' i = true → free i = true) : count free' ≤ count free := by
  refine Finset.card_le_card fun i mem => ?_
  simp only [Finset.mem_filter] at mem ⊢
  exact ⟨mem.1, le i mem.2⟩

lemma count_update (free : ℕ → Bool) (i : ℕ) : count (Function.update free i true) ≤ count free + 1 := by
  refine (Finset.card_le_card fun j mem => ?_).trans (Finset.card_insert_le i _)
  simp only [Finset.mem_filter, Finset.mem_insert] at mem ⊢
  by_cases eq : j = i
  · exact .inl eq
  · exact .inr ⟨mem.1, by simpa [Function.update_of_ne eq] using mem.2⟩

variable {d d' : Disk ι β}

lemma freeDesc_eq {i : ℕ} (eq : d.freeDesc i = .ok d') : d'.free = Function.update d.free i true ∧ d'.disk = d.disk := by
  unfold Disk.freeDesc at eq
  split at eq
  · cases eq
  split at eq
  · cases eq
  · cases eq
    exact ⟨rfl, rfl⟩

lemma alloc_fails {l : List ℕ} {free free' : ℕ → Bool} (eq : Disk.alloc 3 free = (l, free'))
    (no : ∀ i0 i1 i2, l ≠ [i0, i1, i2]) : count free' + l.length < 3 := by
  obtain ⟨-, -, -, len, all⟩ := alloc_spec 3 free
  rw [eq] at len all
  have short : l.length < 3 := by
    refine lt_of_le_of_ne len fun three => ?_
    obtain ⟨i0, i1, i2, rfl⟩ := List.length_eq_three.1 three
    exact no i0 i1 i2 rfl
  have zero : count free' = 0 := by
    simp only [count, Finset.card_eq_zero, Finset.filter_eq_empty_iff, Finset.mem_range]
    intro i lt
    have used : free' i = false := all short i lt
    simp [used]
  omega

lemma alloc_mono {free : ℕ → Bool} (i : ℕ) (now : (Disk.alloc 3 free).2 i = true) : free i = true := by
  obtain ⟨-, -, spec, -⟩ := alloc_spec 3 free
  by_contra no
  have := (spec i).2 (.inr (by simpa using no))
  simp [now] at this

variable [DecidableEq β]

lemma act_blocked {l l' : Place β} (found : At l d) (a : act d l = some (l', d')) :
    At l' d' ∧ ∀ ch, (owes l ch → owes l' ch) ∧ (Blocked ch d → Blocked ch d' ∨ owes l' ch) := by
  -- the descriptors that are free become no more, and no buffer is cleared
  have stay : ∀ {l' : Place β} {d' : Disk ι β}, (∀ ch, ¬owes l ch) → count d'.free ≤ count d.free →
      (∀ b, d.disk b = true → d'.disk b = true) →
      ∀ ch, (owes l ch → owes l' ch) ∧ (Blocked ch d → Blocked ch d' ∨ owes l' ch) := by
    intro l' d' no free disk ch
    refine ⟨fun ow => absurd ow (no ch), fun bl => .inl ?_⟩
    cases ch with
    | free => exact lt_of_le_of_lt free bl
    | buf b => exact disk b bl
  cases l with
  | alloc c =>
    simp only [act] at a
    split at a
    case h_1 i0 i1 i2 free eq =>
      obtain ⟨rfl, rfl⟩ : _ ∧ _ := by simpa using a
      refine ⟨trivial, stay (fun _ => id) (count_mono fun i now => alloc_mono i ?_) fun _ => id⟩
      rwa [eq]
    case h_2 l free no eq =>
      obtain ⟨rfl, rfl⟩ : _ ∧ _ := by simpa using a
      refine ⟨alloc_fails eq fun i0 i1 i2 is => ?_, stay (fun _ => id) (count_mono fun i now => alloc_mono i ?_) fun _ => id⟩
      · exact no i0 i1 i2 is
      · rwa [eq]
  | undo c l =>
    cases l with
    | nil =>
      obtain ⟨rfl, rfl⟩ : _ ∧ _ := by simpa [act] using a
      exact ⟨by simpa [At] using found, stay (fun _ => id) le_rfl fun _ => id⟩
    | cons i l =>
      simp only [act] at a
      split at a
      case h_1 d'' eq =>
        obtain ⟨rfl, rfl⟩ : _ ∧ _ := by simpa using a
        obtain ⟨free, disk⟩ := freeDesc_eq eq
        have more := count_update d.free i
        simp only [At, List.length_cons] at found ⊢
        refine ⟨by rw [free]; omega, fun ch => ⟨False.elim, fun bl => ?_⟩⟩
        cases ch with
        | free => exact .inr rfl
        | buf b => exact .inl (by simpa [Blocked, disk] using bl)
      case h_2 =>
        obtain ⟨rfl, rfl⟩ : _ ∧ _ := by simpa using a
        exact ⟨trivial, stay (fun _ => id) le_rfl fun _ => id⟩
  | format c x =>
    obtain ⟨rfl, rfl⟩ : _ ∧ _ := by simpa [act] using a
    refine ⟨trivial, stay (fun _ => id) le_rfl fun b busy => ?_⟩
    by_cases eq : b = c.b
    · simp [Disk.format, eq]
    · simpa [Disk.format, Function.update_of_ne eq] using busy
  | wait c x =>
    simp only [act, Option.some.injEq, Prod.mk.injEq] at a
    obtain ⟨rfl, rfl⟩ := a
    split
    case isTrue busy => exact ⟨busy, stay (fun _ => id) le_rfl fun _ => id⟩
    · exact ⟨trivial, stay (fun _ => id) le_rfl fun _ => id⟩
  | publish c x | collect c x | intrNext =>
    obtain ⟨rfl, rfl⟩ : _ ∧ _ := by simpa [act] using a
    exact ⟨trivial, stay (fun _ => id) le_rfl fun _ => id⟩
  | chain c x i =>
    simp only [act] at a
    split at a
    case h_1 d'' eq =>
      obtain ⟨rfl, rfl⟩ : _ ∧ _ := by simpa using a
      obtain ⟨free, disk⟩ := freeDesc_eq eq
      refine ⟨trivial, fun ch => ⟨False.elim, fun bl => ?_⟩⟩
      cases ch with
      | free => exact .inr rfl
      | buf b => exact .inl (by simpa [Blocked, disk] using bl)
    case h_2 =>
      obtain ⟨rfl, rfl⟩ : _ ∧ _ := by simpa using a
      exact ⟨trivial, stay (fun _ => id) le_rfl fun _ => id⟩
  | intr =>
    simp only [act, Option.some.injEq, Prod.mk.injEq] at a
    obtain ⟨rfl, rfl⟩ := a
    split <;> exact ⟨trivial, stay (fun _ => id) le_rfl fun _ => id⟩
  | intrBody =>
    simp only [act] at a
    split at a
    · obtain ⟨rfl, rfl⟩ : _ ∧ _ := by simpa using a
      exact ⟨trivial, stay (fun _ => id) le_rfl fun _ => id⟩
    split at a
    case h_1 =>
      obtain ⟨rfl, rfl⟩ : _ ∧ _ := by simpa using a
      exact ⟨trivial, stay (fun _ => id) le_rfl fun _ => id⟩
    case h_2 b' _ =>
      obtain ⟨rfl, rfl⟩ : _ ∧ _ := by simpa using a
      refine ⟨trivial, fun ch => ⟨False.elim, fun bl => ?_⟩⟩
      cases ch with
      | free => exact .inl bl
      | buf b =>
        by_cases eq : b = b'
        · exact .inr (congrArg Chan.buf eq)
        · exact .inl (by simpa [Blocked, Function.update_of_ne eq] using bl)
  | _ => simp [act] at a

end

variable [DecidableEq β]

lemma discipline : Monitor.Discipline (driver (n := n) (β := β)) (fun _ => True) At Blocked owes where
  start := by
    rintro p l d - ⟨-, start⟩
    cases start <;> trivial
  act _ found a := ⟨trivial, act_blocked found a⟩
  wakes {l ch l' d} found wakes := by
    cases wakes <;> refine ⟨?_, fun ch' ne ow => absurd ow ne⟩ <;> exact found
  sleeps {l ch l' d} _ found sleeps := by
    cases sleeps <;> exact ⟨found, fun _ => id, fun _ _ => trivial⟩
  free {p d d'} _ st := by
    have same : d'.free = d.free ∧ d'.disk = d.disk := by
      rcases st with ⟨-, st⟩ | ⟨-, st⟩ <;> cases st <;> exact ⟨rfl, rfl⟩
    refine ⟨trivial, fun l found => ?_, fun ch bl => ?_⟩
    · cases l with
      | undo | undoWakeup | sleepFree | sleepBuf => simpa only [At, same] using found
      | _ => trivial
    · cases ch <;> simpa [Blocked, same] using bl

/-! ### The protocol -/

variable {avail used : Ring} {info : ℕ → Info β} {ops : ℕ → Req} {es : List (Monitor.Event (n + 1) (Place β))}
  {s : Monitor.State (n + 1) (Disk (Fin (n + 1)) β) (Place β) (Chan β)}

/-- What holds when `vdisk_lock` is free. A request that has not been collected is a process at `wait`. The descriptors that
are in use are divided into chains of three, one for each such request; its buffer has been cleared exactly if the device has
reported its chain and the handler has looked at it; and nobody sleeps for descriptors while three are free. -/
structure Settled (s : Monitor.State (n + 1) (Disk (Fin (n + 1)) β) (Place β) (Chan β)) : Prop where
  chain : ∀ {p c x}, (s.threads p).loc = some (.wait c x) →
    x.toList.Nodup ∧ (∀ i ∈ x.toList, i < NUM ∧ s.data.free i = false) ∧ s.data.Formatted c x
  used : ∀ {i}, i < NUM → s.data.free i = false → ∃ p c x, (s.threads p).loc = some (.wait c x) ∧ i ∈ x.toList
  apart : ∀ {p q c c' x x' i}, (s.threads p).loc = some (.wait c x) → (s.threads q).loc = some (.wait c' x') →
    i ∈ x.toList → i ∈ x'.toList → p = q
  cleared : ∀ {p c x}, (s.threads p).loc = some (.wait c x) →
    (s.data.disk c.b = false ↔ s.data.done x.i0 = true ∧ x.i0 ∉ s.data.back)
  asleep : ∀ {p}, Chan.free ∈ (s.threads p).chan → count s.data.free < 3

omit [DecidableEq β] in
lemma claimed_wait {p : Fin (n + 1)} (is : (s.threads p).loc = some (.wait c x)) :
    claimed (Monitor.locs s.threads) p = x.toList := by
  simp [claimed, Monitor.locs, is, Place.held]

lemma settled (exclusive : Monitor.Exclusive driver s) (h : Inv (Monitor.locs s.threads) k s.data)
    (sound : Monitor.Sound (fun _ => True) At Blocked owes s) (free : s.holder = none) : Settled s := by
  have quiet : ∀ p, driver.Quiet (Monitor.locs s.threads) p := fun p => exclusive.quiet (.inl free)
  have none_holds : ∀ p, ¬(s.threads p).holds := by
    intro p holds
    rw [exclusive.holder p, free] at holds
    cases holds
  have behind : ∀ {p l}, (s.threads p).loc = some l → (∃ c, l = .alloc c) ∨ ∃ c x, l = .wait c x := by
    intro p l is
    obtain ⟨_, _, sleeps⟩ := exclusive.behind (none_holds p) is
    cases sleeps
    · exact .inl ⟨_, rfl⟩
    · exact .inr ⟨_, _, rfl⟩
  obtain rfl : k = 0 := by
    refine h.none_skipped (quiet 0) fun l is => ?_
    rcases behind is with ⟨c, rfl⟩ | ⟨c, x, rfl⟩ <;> exact id
  constructor
  case chain =>
    intro p c x is
    have held := claimed_wait is
    refine ⟨held ▸ h.shares.nodup p, fun i mem => ?_, h.ok (p := p) is⟩
    have mem : i ∈ claimed (Monitor.locs s.threads) p := held ▸ mem
    exact ⟨h.shares.bound mem, (h.shares.used (h.shares.bound mem)).2 ⟨p, mem⟩⟩
  case used =>
    intro i lt busy
    obtain ⟨p, mem⟩ := (h.shares.used lt).1 busy
    cases is : (s.threads p).loc with
    | none => simp [claimed, Monitor.locs, is] at mem
    | some l =>
      rcases behind is with ⟨c, rfl⟩ | ⟨c, x, rfl⟩
      · simp [claimed, Monitor.locs, is, Place.held] at mem
      · exact ⟨p, c, x, is, by simpa [claimed_wait is] using mem⟩
  case apart =>
    intro p q c c' x x' i is is' mem mem'
    exact h.shares.apart (i := i) (by rwa [claimed_wait is]) (by rwa [claimed_wait is'])
  case cleared =>
    intro p c x is
    exact h.rings.disk_eq_false_iff (p := p) (by simp [waiting, Monitor.locs, is, Place.waits])
  case asleep => exact fun mem => sound.blocked_of_free free mem

/-- In every run of any number of processes that call `virtio_disk_rw` on different buffers and take interrupts, and of the
device: the driver is `Settled` whenever the lock is free; a call leaves its loop only after the device has reported its
chain; the handler clears the buffer of a request that is waited for, whose chain has been reported; and `free_desc` does
not panic. -/
theorem virtio_protocol
    (run : Run (Monitor.Step driver) (Monitor.init (virtioDiskInit avail used info ops)) es s) :
    (s.holder = none → Settled s) ∧
      (∀ p c x, s.threads p = .run (.collect c x) → s.data.done x.i0 = true) ∧
      (∀ p, s.threads p = .run .intrBody →
        ∃ q c x, (s.threads q).loc = some (.wait c x) ∧ x.i0 = s.data.used.ring (s.data.usedIdx.toNat % NUM) ∧
          (s.data.info x.i0).b = some c.b ∧ s.data.done x.i0 = true ∧ s.data.disk c.b = true) ∧
      ∀ p l, s.threads p = .run l → l ≠ .panic "free_desc 1" ∧ l ≠ .panic "free_desc 2" ∧ l ≠ .fault := by
  obtain ⟨exclusive, k, h⟩ := Inv.keeps.run ⟨0, Inv.init⟩ run
  have sound : Monitor.Sound (fun _ => True) At Blocked owes s := by
    refine discipline.sound trivial (run.mono (P := fun _ => True) trivial (fun _ _ => trivial) fun _ st => ⟨st, st.paid ?_⟩)
    rintro _ rfl ch ow
    exact ow
  have loc : ∀ {p l}, s.threads p = .run l → Monitor.locs s.threads p = some l := by
    intro p l is
    simp [Monitor.locs, is, Monitor.Thread.loc]
  refine ⟨settled exclusive h sound, fun p c x is => (h.ok (loc is)).2, fun p is => ?_, fun p l is => ?_⟩
  · have quiet : driver.Quiet (Monitor.locs s.threads) p :=
      exclusive.quiet (.inr ((exclusive.holder p).1 (by simp [is, Monitor.Thread.holds])))
    obtain rfl := h.none_skipped quiet (by simp [loc is, Place.Skips])
    obtain ⟨q, c, x, w, formatted, head, disk, done⟩ := h.reported (h.ok (loc is))
    have ne : q ≠ p := by
      rintro rfl
      simp [waiting, loc is, Place.waits] at w
    cases is' : Monitor.locs s.threads q with
    | none => simp [waiting, is'] at w
    | some l =>
      rcases quiet_cases quiet ne is' with ⟨c', rfl⟩ | ⟨c', x', rfl⟩
      · simp [waiting, is', Place.waits] at w
      · obtain ⟨eb, ei⟩ : c'.b = c.b ∧ x'.i0 = x.i0 := by simpa [waiting, is', Place.waits] using w
        exact ⟨q, c', x', is', by rw [ei, head], by rw [ei, eb, formatted.b], by rw [ei, done], by rw [eb, disk]⟩
  · have ok := h.ok (loc is)
    refine ⟨?_, ?_, ?_⟩ <;> rintro rfl
    · exact absurd (show "free_desc 1" = "virtio_disk_intr status" from ok) (by decide)
    · exact absurd (show "free_desc 2" = "virtio_disk_intr status" from ok) (by decide)
    · exact ok

/-- One process and one buffer, and a device. -/
abbrev quietDisk : Monitor.State 2 (Disk (Fin 2) Unit) (Place Unit) (Chan Unit) :=
  Monitor.init (virtioDiskInit ⟨fun _ => 0, 0⟩ ⟨fun _ => 0, 0⟩ (fun _ => ⟨none, 0⟩) fun _ => ⟨0, 0, 0⟩)

/-- The process asks for a block and goes to sleep: the first three descriptors are its chain. -/
theorem virtio_protocol_asleep : ∃ es s, Run (Monitor.Step driver) quietDisk es s ∧ s.holder = none ∧
    (s.threads 0).loc = some (.wait ⟨(), 1, false⟩ ⟨0, 1, 2⟩) ∧ Settled s := by
  have run : Run (Monitor.Step (driver (n := 1) (β := Unit))) quietDisk [] _ := .nil
  have run := run.snoc (@Monitor.Step.free _ _ _ _ _ _ _ 0 _ rfl (.inr ⟨by decide, .acquire (b := ()) rfl⟩))
  have run := run.snoc (@Monitor.Step.enter _ _ _ _ _ _ _ 0 (.alloc ⟨(), 1, false⟩) rfl rfl ⟨by decide, .rw rfl⟩)
  have run := run.snoc (.act (p := 0) rfl rfl) |>.snoc (.act (p := 0) rfl rfl) |>.snoc (.act (p := 0) rfl rfl)
    |>.snoc (.act (p := 0) rfl rfl) |>.snoc (.sleep (p := 0) rfl .buf) |>.snoc (.release (p := 0) rfl)
  exact ⟨_, _, run, rfl, rfl, (virtio_protocol run).1 rfl⟩

end Xv6.Virtio
