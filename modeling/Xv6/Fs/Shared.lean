import Xv6.Fs.Reserve
import Mathlib.Algebra.Order.BigOperators.Group.Finset

/-!
# Writes through a shared open file

Processes that have inherited a `struct file` all write to it with `filewrite` (`kernel/file.c`), which cuts what it writes
into pieces (`pieces`) and writes each of them under the lock of the inode: it reads `f->off`, calls `writei` and advances
`f->off`. So whatever the order in which the processes come to the lock, their pieces stand one after another from the
first offset on (`shared_writes`). What a process holds on the way is what it has still to write and how far it is with
the piece at hand (`Res`).
-/

namespace Xv6.Shared

open Fs Fallible Logging
open Calls (WRITEMAX)

/-- The pieces that are written in one operation each. -/
def pieces (bs : List UInt8) : List (List UInt8) :=
  if _h : bs = [] then [] else bs.take WRITEMAX :: pieces (bs.drop WRITEMAX)
termination_by bs.length
decreasing_by
  have := List.length_pos_iff.2 _h
  simp only [List.length_drop, WRITEMAX, MAXOPBLOCKS, BSIZE]
  omega

/-- Write some strings, one after another. -/
def writer (f : Fin NFILE) : List (List UInt8) → Call (List Int)
  | [] => return []
  | bs :: rest => do
    let r ← Calls.filewrite f (bs[·]?) bs.length
    return r :: (← writer f rest)

def writers (sb : Superblock) : Threads.Machine Instr (Fin NPROC) Kernel Stop (List Int) where
  exec p i := i.exec sb p
  start _ _ _ := False
  env _ _ _ := False

/-- How far a process is with a piece: it has not locked the inode; it has, at an offset of the file; it has written a
number of bytes; it has advanced the offset. -/
inductive Stage where
  | out
  | locked (off : ℕ)
  | wrote (n : ℕ)
  | sought
  deriving DecidableEq

/-- What a process has still to write, and how far it is with a piece. -/
structure Res where
  todo : List (List UInt8)
  stage : Stage

/-- At the end all is written. -/
structure Res.Done (r : Res) : Prop where
  todo : r.todo = []
  stage : r.stage = .out

section

variable (f : Fin NFILE) (ip : Fin NINODE)

/-- The rules of the instructions, for the open file `f` of the inode `ip`. -/
def rule {β : Type} : Instr β → (β → Res → Prop) → Res → Prop
  | .beginOp, Q, r => Q () r
  | .endOp, Q, r => Q () r
  | .ilock jp, Q, r => jp = ip ∧ r.stage = .out ∧ ∀ off, Q () { r with stage := .locked off }
  | .file g, Q, r => g = f ∧ ∀ F : File, F.type = .inode → F.writable = true → F.ip = ip →
    (∀ off, r.stage = .locked off → F.off = off) → Q F r
  | .writei jp src off n, Q, r => jp = ip ∧ r.stage = .locked off ∧ ∃ bs rest, r.todo = bs :: rest ∧ n = bs.length ∧
    (∀ i, i < n → src i = bs[i]?) ∧ Q (some n) ⟨rest, .wrote n⟩
  | .seek g n, Q, r => g = f ∧ r.stage = .wrote n ∧ Q () { r with stage := .sought }
  | .iunlock jp, Q, r => jp = ip ∧ r.stage = .sought ∧ Q () { r with stage := .out }
  | _, _, _ => False

end

variable {f : Fin NFILE} {ip : Fin NINODE} {rest : List (List UInt8)} {bs : List UInt8}

lemma pieces_nil : pieces [] = [] := by
  unfold pieces
  exact dif_pos rfl

lemma pieces_cons (ne : bs ≠ []) : pieces bs = bs.take WRITEMAX :: pieces (bs.drop WRITEMAX) := by
  conv_lhs => unfold pieces
  exact dif_neg ne

lemma wp_filewriteLoop {Q : Bool → Res → Prop} {src : ℕ → Option UInt8} {i : ℕ}
    (bytes : ∀ j, j < bs.length → src (i + j) = bs[j]?) (q : Q true ⟨rest, .out⟩) :
    Program.wp (fun {_} => rule f ip) (Calls.filewriteLoop f ip src i bs.length) Q ⟨pieces bs ++ rest, .out⟩ := by
  induction hn : bs.length using Nat.strongRecOn generalizing bs i with
  | ind n ih =>
    subst hn
    unfold Calls.filewriteLoop
    by_cases nil : bs = []
    · subst nil
      rw [pieces_nil]
      exact q
    · have pos : bs.length ≠ 0 := fun zero => nil (List.length_eq_zero_iff.1 zero)
      rw [dif_neg pos, pieces_cons nil]
      have len : (bs.take WRITEMAX).length = min bs.length WRITEMAX := by rw [List.length_take, Nat.min_comm]
      have drop : (bs.drop WRITEMAX).length = bs.length - min bs.length WRITEMAX := by
        rw [List.length_drop]
        omega
      have tail : Program.wp (fun {_} => rule f ip) (Calls.filewriteLoop f ip src (i + min bs.length WRITEMAX)
          (bs.length - min bs.length WRITEMAX)) Q ⟨pieces (bs.drop WRITEMAX) ++ rest, .out⟩ := by
        rw [← drop]
        refine ih _ ?_ (fun j lt => ?_) rfl
        · simp only [drop, WRITEMAX, MAXOPBLOCKS, BSIZE]
          omega
        · have le : WRITEMAX ≤ bs.length := by omega
          rw [Nat.min_eq_right le, List.getElem?_drop, Nat.add_assoc]
          exact bytes _ (by omega)
      simp only [Program.wp_bind, Program.wp_op]
      refine ⟨rfl, rfl, fun off => ⟨rfl, fun F _ _ _ at_ => ?_⟩⟩
      obtain rfl := at_ off rfl
      refine ⟨rfl, rfl, _, _, rfl, len.symm, fun j lt => ?_, ?_⟩
      · rw [List.getElem?_take_of_lt (by omega)]
        exact bytes j (by omega)
      · simp only [Program.wp_bind, Program.wp_op, if_true]
        exact ⟨rfl, rfl, rfl, rfl, tail⟩

lemma wp_writer (calls : List (List UInt8)) :
    Program.wp (fun {_} => rule f ip) (writer f calls) (fun _ => Res.Done) ⟨calls.flatMap pieces, .out⟩ := by
  suffices h : ∀ {Q : List Int → Res → Prop}, (∀ v, Q v ⟨[], .out⟩) →
      Program.wp (fun {_} => rule f ip) (writer f calls) Q ⟨calls.flatMap pieces, .out⟩ from h fun _ => ⟨rfl, rfl⟩
  induction calls with
  | nil => exact fun q => q []
  | cons bs calls ih =>
    intro Q q
    rw [writer, Calls.filewrite, List.flatMap_cons]
    simp only [Program.wp_bind, Program.wp_op]
    refine ⟨rfl, fun F type writable inode _ => ?_⟩
    obtain rfl := inode
    simp only [type, writable, if_true, Program.wp_bind]
    refine wp_filewriteLoop (fun j _ => by rw [Nat.zero_add]) ?_
    exact ih fun v => q _

lemma flatten_pieces (bs : List UInt8) : (pieces bs).flatten = bs := by
  induction hn : bs.length using Nat.strongRecOn generalizing bs with
  | ind n ih =>
    by_cases nil : bs = []
    · rw [nil, pieces_nil]
      rfl
    · have pos := List.length_pos_iff.2 nil
      rw [pieces_cons nil, List.flatten_cons, ih _ ?_ _ rfl, List.take_append_drop]
      simp only [← hn, List.length_drop, WRITEMAX, MAXOPBLOCKS, BSIZE]
      omega

lemma flatten_flatMap_pieces (calls : List (List UInt8)) : (calls.flatMap pieces).flatten = calls.flatten := by
  induction calls with
  | nil => rfl
  | cons bs calls ih => rw [List.flatMap_cons, List.flatten_append, flatten_pieces, ih, List.flatten_cons]

lemma length_of_mem_pieces {c : List UInt8} (mem : c ∈ pieces bs) : c.length ≤ WRITEMAX := by
  induction hn : bs.length using Nat.strongRecOn generalizing bs with
  | ind n ih =>
    by_cases nil : bs = []
    · rw [nil, pieces_nil] at mem
      cases mem
    · have pos := List.length_pos_iff.2 nil
      rw [pieces_cons nil] at mem
      rcases List.mem_cons.1 mem with rfl | mem
      · exact List.length_take_le _ _
      · refine ih _ ?_ mem rfl
        simp only [← hn, List.length_drop, WRITEMAX, MAXOPBLOCKS, BSIZE]
        omega

/-- Pieces that have been written, with the processes that have written them. -/
abbrev Log := List (Fin NPROC × List UInt8)

def Log.bytes (log : Log) : List UInt8 := log.flatMap Prod.snd

def Log.of (log : Log) (p : Fin NPROC) : List (List UInt8) := (log.filter (·.1 = p)).map Prod.snd

lemma Log.length_bytes (log : Log) : log.bytes.length = ∑ p, (log.of p).flatten.length := by
  induction log with
  | nil => rfl
  | cons x log ih =>
    have cons : ∀ p, (Log.of (x :: log) p).flatten.length = (Log.of log p).flatten.length + if x.1 = p then x.2.length else 0 := by
      intro p
      by_cases eq : x.1 = p
      · simp [Log.of, eq, Nat.add_comm]
      · simp [Log.of, eq]
    have bytes : (Log.bytes (x :: log)).length = x.2.length + (Log.bytes log).length := by
      simp [Log.bytes]
    rw [bytes, Finset.sum_congr rfl fun p _ => cons p, Finset.sum_add_distrib, Finset.sum_ite_eq, if_pos (Finset.mem_univ _), ih,
      Nat.add_comm]

lemma Log.bytes_snoc {log : Log} {p : Fin NPROC} {c : List UInt8} : Log.bytes (log ++ [(p, c)]) = log.bytes ++ c := by
  simp [Log.bytes]

lemma Log.of_snoc {log : Log} {p : Fin NPROC} {c : List UInt8} : Log.of (log ++ [(p, c)]) p = log.of p ++ [c] := by
  simp [Log.of]

lemma Log.of_snoc_ne {log : Log} {p q : Fin NPROC} {c : List UInt8} (ne : q ≠ p) :
    Log.of (log ++ [(p, c)]) q = log.of q := by
  simp [Log.of, ne.symm]

instance {bn : ℕ} {l : Slot} : Decidable (Covers bn l) :=
  inferInstanceAs (Decidable (l = slotOf bn ∨ l = .addr NDIRECT ∧ NDIRECT ≤ bn))

instance {off n : ℕ} : DecidablePred (Spans off n) := fun l =>
  inferInstanceAs (Decidable (∃ i, i < n ∧ Covers ((off + i) / BSIZE) l))

/-- The slots of inode `n` that a write of `len` bytes at `off` may fill. -/
def span (n off len : ℕ) : Finset (ℕ × Slot) :=
  (((Finset.range MAXFILE).image slotOf ∪ {Slot.addr NDIRECT}).filter (Spans off len)).image (Prod.mk n)

/-- There are enough free blocks for a write of `len` bytes at `off`. -/
def Room (sb : Superblock) (D : Disk) (n off len : ℕ) : Prop :=
  ((span n off len).filter (D.slots sb · = 0)).card ≤ (Exact.freeBlocks sb.size D.bitmap).card

section

variable {sb : Superblock} {s s₁ s' : State} {src : ℕ → Option UInt8} {n off len a : ℕ}

lemma mem_span {w : ℕ} {l : Slot} (fits : off + len ≤ MAXFILE * BSIZE) (le : a + w ≤ len) (spans : Spans (off + a) w l) :
    (n, l) ∈ span n off len := by
  obtain ⟨i, li, covers⟩ := spans
  have lt : (off + a + i) / BSIZE < MAXFILE := block_lt (by omega)
  refine Finset.mem_image.2 ⟨l, Finset.mem_filter.2 ⟨?_, a + i, by omega, by rwa [← Nat.add_assoc]⟩, rfl⟩
  rw [Finset.mem_union, Finset.mem_singleton]
  rcases covers with rfl | ⟨rfl, -⟩
  · exact .inl (Finset.mem_image_of_mem _ (Finset.mem_range.2 lt))
  · exact .inr rfl

lemma Room.writes {m w : ℕ} (R : Room sb s.disk (s.itable ip).inum off len) (O : Owned sb s.disk) (c : s.Clean ip)
    (fits : off + len ≤ MAXFILE * BSIZE) (le : a + m ≤ len) (all : ∀ i, i < m → (src i).isSome) (lw : w ≤ m)
    (ends : Ends sb ip src s s₁ (off + a) 0 m w) {size : ℕ} (eq : s' = s₁.resize ip size) (O' : Owned sb s'.disk) :
    w = m ∧ Room sb s'.disk (s.itable ip).inum off len := by
  have slots : s'.disk.slots sb = (s₁.flush ip).slots sb := by rw [eq, slots_resize]
  have room : Room sb s'.disk (s.itable ip).inum off len := by
    refine O.sound.card_empty_le O'.sound (fun k ne => ?_) (fun k ne => ?_) R
    · rw [slots, ← c.flush]
      rw [← c.flush] at ne
      exact ends.wrote.slots k ne
    · rw [slots] at ne
      refine (ends.fresh k ne).imp (fun old => c.flush ▸ old) ?_
      rintro ⟨inum, spans⟩
      have := mem_span (n := (s.itable ip).inum) fits le spans
      rwa [← inum] at this ⊢
  refine ⟨?_, room⟩
  by_contra ne
  obtain ⟨full, empty⟩ | short := ends.stop (by omega)
  · -- there is no free block, but a slot that needs one
    have none : Exact.freeBlocks sb.size s'.disk.bitmap = ∅ := by
      rw [eq]
      exact Finset.filter_eq_empty_iff.2 fun b lt => by simp [State.resize, full b (Finset.mem_range.1 lt)]
    have mem : ((s.itable ip).inum, slotOf ((off + a + w) / BSIZE)) ∈ span (s.itable ip).inum off len :=
      mem_span fits le ⟨w, by omega, .inl rfl⟩
    rw [Room, none, Finset.card_empty, Nat.le_zero, Finset.card_eq_zero] at room
    have := Finset.filter_eq_empty_iff.1 room mem
    rw [slots] at this
    exact this empty
  · exact short.not_all (by simpa using all)

end

/-- The offset of the file at a stage, if `last` is the one after the bytes that have been written. -/
def Stage.At (off last : ℕ) : Stage → Prop
  | .out => True
  | .locked o => o = off ∧ off = last
  | .wrote n => off + n = last
  | .sought => off = last

section

variable (sb : Superblock) (f : Fin NFILE) (k₀ : Kernel) (calls : Fin NPROC → List (List UInt8))

abbrev slot : Fin NINODE := (k₀.fs.ftable f).ip

/-- The number of bytes that are written in all. -/
def amount : ℕ := ∑ p, (calls p).flatten.length

/-- Before the writes: the file is open for writing at an offset not above its size, nobody has locked its inode, and there
is room for all that is to be written. -/
structure Ready : Prop where
  type : (k₀.fs.ftable f).type = .inode
  writable : (k₀.fs.ftable f).writable = true
  ok : Writable sb (slot f k₀) k₀.fs
  unlocked : k₀.lock (slot f k₀) = none
  off : (k₀.fs.ftable f).off ≤ (k₀.fs.disk.inodes (k₀.fs.itable (slot f k₀)).inum).size
  fits : (k₀.fs.ftable f).off + amount calls ≤ MAXFILE * BSIZE
  room : Room sb k₀.fs.disk (k₀.fs.itable (slot f k₀)).inum (k₀.fs.ftable f).off (amount calls)

/-- The state after the pieces of `log` have been written, if the processes hold `h`. -/
structure Good (log : Log) (k : Kernel) (h : Fin NPROC → Option Res) : Prop where
  ok : Writable sb (slot f k₀) k.fs
  inum : (k.fs.itable (slot f k₀)).inum = (k₀.fs.itable (slot f k₀)).inum
  node : k.fs.disk.node sb (k₀.fs.itable (slot f k₀)).inum =
    (k₀.fs.disk.node sb (k₀.fs.itable (slot f k₀)).inum).write (log.bytes[·]?) (k₀.fs.ftable f).off log.bytes.length
  file : k.fs.ftable f = { k₀.fs.ftable f with off := (k.fs.ftable f).off }
  clean : k.lock (slot f k₀) ≠ none → k.fs.Clean (slot f k₀)
  room : Room sb k.fs.disk (k₀.fs.itable (slot f k₀)).inum (k₀.fs.ftable f).off (amount calls)
  plan : ∀ p, log.of p ++ (h p).elim [] Res.todo = (calls p).flatMap pieces
  holder : ∀ p, k.lock (slot f k₀) = some p ↔ ∃ r, h p = some r ∧ r.stage ≠ .out
  stage : ∀ p r, h p = some r → r.stage.At (k.fs.ftable f).off ((k₀.fs.ftable f).off + log.bytes.length)
  idle : k.lock (slot f k₀) = none → (k.fs.ftable f).off = (k₀.fs.ftable f).off + log.bytes.length

end

variable {sb : Superblock} {k₀ k k' : Kernel} {calls : Fin NPROC → List (List UInt8)} {log log' : Log}
  {h : Fin NPROC → Option Res} {p : Fin NPROC} {r r' : Res}

namespace Good

lemma fits (g : Good sb f k₀ calls log k h) (at_ : h p = some r) : log.bytes.length + r.todo.flatten.length ≤ amount calls := by
  have each : ∀ q, (calls q).flatten.length = (log.of q).flatten.length + ((h q).elim [] Res.todo).flatten.length := by
    intro q
    rw [← flatten_flatMap_pieces, ← g.plan q, List.flatten_append, List.length_append]
  have mine : r.todo.flatten.length ≤ ∑ q, ((h q).elim [] Res.todo).flatten.length := by
    have single := Finset.single_le_sum (f := fun q => ((h q).elim [] Res.todo).flatten.length) (fun _ _ => Nat.zero_le _)
      (Finset.mem_univ p)
    simp only [at_] at single
    exact single
  rw [amount, Finset.sum_congr rfl fun q _ => each q, Finset.sum_add_distrib, ← Log.length_bytes]
  exact Nat.add_le_add_left mine _

lemma congr (g : Good sb f k₀ calls log k h) (fs : k'.fs = k.fs) (lock : k'.lock = k.lock) : Good sb f k₀ calls log k' h := by
  obtain ⟨fs', lock', ops'⟩ := k'
  subst fs lock
  exact ⟨g.ok, g.inum, g.node, g.file, g.clean, g.room, g.plan, g.holder, g.stage, g.idle⟩

lemma update (g : Good sb f k₀ calls log k h) (at_ : h p = some r)
    (alone : k.lock (slot f k₀) = none ∨ k.lock (slot f k₀) = some p)
    (lock : k'.lock (slot f k₀) = if r'.stage = .out then none else some p)
    (ok : Writable sb (slot f k₀) k'.fs) (inum : (k'.fs.itable (slot f k₀)).inum = (k₀.fs.itable (slot f k₀)).inum)
    (node : k'.fs.disk.node sb (k₀.fs.itable (slot f k₀)).inum =
      (k₀.fs.disk.node sb (k₀.fs.itable (slot f k₀)).inum).write (log'.bytes[·]?) (k₀.fs.ftable f).off log'.bytes.length)
    (file : k'.fs.ftable f = { k₀.fs.ftable f with off := (k'.fs.ftable f).off })
    (clean : r'.stage ≠ .out → k'.fs.Clean (slot f k₀))
    (room : Room sb k'.fs.disk (k₀.fs.itable (slot f k₀)).inum (k₀.fs.ftable f).off (amount calls))
    (mine : log'.of p ++ r'.todo = log.of p ++ r.todo) (others : ∀ q, q ≠ p → log'.of q = log.of q)
    (stage : r'.stage.At (k'.fs.ftable f).off ((k₀.fs.ftable f).off + log'.bytes.length))
    (idle : r'.stage = .out → (k'.fs.ftable f).off = (k₀.fs.ftable f).off + log'.bytes.length) :
    Good sb f k₀ calls log' k' (Function.update h p (some r')) := by
  have out : ∀ q s, q ≠ p → h q = some s → s.stage = .out := by
    intro q s ne hq
    by_contra busy
    have held := (g.holder q).2 ⟨s, hq, busy⟩
    rcases alone with none | self
    · rw [none] at held
      cases held
    · rw [self] at held
      exact ne (Option.some.inj held).symm
  refine ⟨ok, inum, node, file, fun held => clean ?_, room, fun q => ?_, fun q => ?_, fun q s hq => ?_, fun free => idle ?_⟩
  · rintro eq
    rw [lock, if_pos eq] at held
    exact held rfl
  · by_cases eq : q = p
    · subst eq
      rw [Function.update_self, ← g.plan q, at_]
      exact mine
    · rw [Function.update_of_ne eq, others q eq, g.plan q]
  · by_cases eq : q = p
    · subst eq
      rw [lock, Function.update_self]
      by_cases st : r'.stage = .out <;> simp [st]
    · rw [lock, Function.update_of_ne eq]
      refine iff_of_false ?_ ?_
      · split
        · exact nofun
        · exact fun same => eq (Option.some.inj same).symm
      · rintro ⟨s, hq, busy⟩
        exact busy (out q s eq hq)
  · by_cases eq : q = p
    · subst eq
      rw [Function.update_self] at hq
      obtain rfl := Option.some.inj hq
      exact stage
    · rw [Function.update_of_ne eq] at hq
      rw [out q s eq hq]
      trivial
  · by_contra busy
    rw [lock, if_neg busy] at free
    cases free

end Good

/-- A state after some pieces. -/
def Inv (sb : Superblock) (f : Fin NFILE) (k₀ : Kernel) (calls : Fin NPROC → List (List UInt8)) (k : Kernel)
    (h : Fin NPROC → Option Res) : Prop :=
  ∃ log, Good sb f k₀ calls log k h

/-- What an instruction does that follows the rule: it keeps the invariant, or waits for another process. -/
abbrev Steps (sb : Superblock) (f : Fin NFILE) (k₀ : Kernel) (calls : Fin NPROC → List (List UInt8)) (k : Kernel)
    (h : Fin NPROC → Option Res) (p : Fin NPROC) (r : Res) {β : Type} (i : Instr β) (Q : β → Res → Prop) : Prop :=
  wp (fun e => e = .wait ∧ r.stage = .out ∧ k.lock (slot f k₀) ≠ none) (i.exec sb p)
    (fun b k' => ∃ r', Q b r' ∧ Inv sb f k₀ calls k' (Function.update h p (some r'))) k

section

variable (g : Good sb f k₀ calls log k h) (at_ : h p = some r)

include g at_

lemma locked (busy : r.stage ≠ .out) : k.lock (slot f k₀) = some p := (g.holder p).2 ⟨r, at_, busy⟩

lemma step_ilock {Q : Unit → Res → Prop} (out : r.stage = .out) (q : ∀ off, Q () { r with stage := .locked off }) :
    Steps sb f k₀ calls k h p r (.ilock (slot f k₀)) Q := by
  have ref := g.ok.ref
  simp only [Steps, Instr.exec, wp_bind, wp_get, if_neg (Nat.not_lt.2 ref), acquiresleep]
  by_cases free : k.lock (slot f k₀) = none
  · simp only [free, if_true, wp_modify, wp_kernel]
    refine wp_load_loaded (fun type => absurd type g.ok.alloc) ⟨_, q (k.fs.ftable f).off, log, ?_⟩
    obtain ⟨ok, clean⟩ := g.ok.loaded
    refine g.update at_ (.inl free) (by simp) ok (by simpa using g.inum) ?_ ?_ (fun _ => clean) ?_ rfl (fun _ _ => rfl) ?_ (by simp)
    · rw [State.loaded_disk]
      exact g.node
    · rw [State.loaded_ftable]
      exact g.file
    · rw [State.loaded_disk]
      exact g.room
    · rw [State.loaded_ftable]
      exact ⟨rfl, g.idle free⟩
  · simp only [free, if_false, wp_throw]
    exact ⟨trivial, out, free⟩

lemma step_file (R : Ready sb f k₀ calls) {Q : File → Res → Prop} (q : ∀ F : File, F.type = .inode → F.writable = true →
    F.ip = slot f k₀ → (∀ off, r.stage = .locked off → F.off = off) → Q F r) :
    Steps sb f k₀ calls k h p r (.file f) Q := by
  refine ⟨r, q (k.fs.ftable f) ?_ ?_ ?_ fun off eq => ?_, log, ?_⟩
  · rw [g.file]
    exact R.type
  · rw [g.file]
    exact R.writable
  · rw [g.file]
  · have stage := g.stage p r at_
    rw [eq] at stage
    exact stage.1.symm
  · rw [← at_, Function.update_eq_self]
    exact g

lemma step_writei (R : Ready sb f k₀ calls) {Q : Option ℕ → Res → Prop} {src : ℕ → Option UInt8} {off : ℕ} {bs : List UInt8}
    {rest : List (List UInt8)} (stage : r.stage = .locked off) (todo : r.todo = bs :: rest)
    (bytes : ∀ i, i < bs.length → src i = bs[i]?) (q : Q (some bs.length) ⟨rest, .wrote bs.length⟩) :
    Steps sb f k₀ calls k h p r (.writei (slot f k₀) src off bs.length) Q := by
  have held := locked g at_ (by simp [stage])
  have clean := g.clean (by simp [held])
  have here := g.stage p r at_
  rw [stage] at here
  obtain ⟨rfl, off⟩ := here
  have total := g.fits at_
  rw [todo, List.flatten_cons, List.length_append] at total
  have fits := R.fits
  have small : MAXFILE * BSIZE < 2 ^ 32 := by decide
  have all : ∀ i, i < bs.length → (src i).isSome := fun i lt => by simp [bytes i lt, lt]
  have size : (k.fs.itable (slot f k₀)).din.size =
      max (k₀.fs.disk.inodes (k₀.fs.itable (slot f k₀)).inum).size ((k₀.fs.ftable f).off + log.bytes.length) := by
    rw [clean, g.inum]
    exact congrArg Node.size g.node
  simp only [Steps, Instr.exec, wp_kernel]
  refine Fs.wp_writei g.ok.owned clean g.ok.lt (clean ▸ g.ok.alloc) (fun bad => ?_)
    fun w s₁ s' lo _ le ends eq W => ?_
  · have := R.off
    omega
  · rw [off] at ends
    obtain ⟨rfl, room⟩ := Room.writes (g.inum ▸ g.room) g.ok.owned clean R.fits (by omega) all le ends eq W.owned
    refine ⟨_, q, log ++ [(p, bs)], ?_⟩
    have node := W.file.eq all
    rw [g.inum] at node room
    refine g.update at_ (.inr held) (by simpa using held) (g.ok.writes W) ?_ ?_ ?_ (fun _ => W.clean) room ?_
      (fun q ne => Log.of_snoc_ne ne) ?_ (by simp)
    · rw [W.self]
      exact g.inum
    · rw [node, g.node, off, Node.write_congr bytes, Node.write_append, Log.bytes_snoc]
    · rw [W.ftable]
      exact g.file
    · rw [Log.of_snoc, todo, List.append_assoc]
      rfl
    · rw [W.ftable, Log.bytes_snoc, List.length_append, ← Nat.add_assoc, ← off]
      rfl

lemma step_seek {Q : Unit → Res → Prop} {n : ℕ} (stage : r.stage = .wrote n) (q : Q () { r with stage := .sought }) :
    Steps sb f k₀ calls k h p r (.seek f n) Q := by
  have held := locked g at_ (by simp [stage])
  have here := g.stage p r at_
  rw [stage] at here
  refine ⟨_, q, log, ?_⟩
  refine g.update at_ (.inr held) (by simpa using held) ?_ g.inum g.node ?_ (fun _ => g.clean (by simp [held])) g.room rfl
    (fun _ _ => rfl) ?_ nofun
  · exact ⟨g.ok.owned, g.ok.lt, g.ok.alloc, g.ok.clean, g.ok.ref⟩
  · simp only [Function.update_self]
    rw [g.file]
  · simp only [Function.update_self]
    exact here

lemma step_iunlock {Q : Unit → Res → Prop} (stage : r.stage = .sought) (q : Q () { r with stage := .out }) :
    Steps sb f k₀ calls k h p r (.iunlock (slot f k₀)) Q := by
  have held := locked g at_ (by simp [stage])
  have here := g.stage p r at_
  rw [stage] at here
  simp only [Steps, Instr.exec, wp_bind, wp_get]
  rw [if_pos ⟨held, g.ok.ref⟩, wp_modify]
  refine ⟨_, q, log, ?_⟩
  exact g.update at_ (.inr held) (by simp) g.ok g.inum g.node g.file (fun ne => absurd rfl ne) g.room rfl (fun _ _ => rfl)
    trivial fun _ => here

lemma step_rule (R : Ready sb f k₀ calls) {β : Type} {i : Instr β} {Q : β → Res → Prop} (holds : rule f (slot f k₀) i Q r) :
    Steps sb f k₀ calls k h p r i Q := by
  cases i with
  | beginOp | endOp =>
    refine ⟨r, holds, log, ?_⟩
    rw [← at_, Function.update_eq_self]
    exact g.congr rfl rfl
  | ilock jp =>
    obtain ⟨rfl, out, q⟩ := holds
    exact step_ilock g at_ out q
  | file g' =>
    obtain ⟨rfl, q⟩ := holds
    exact step_file g at_ R q
  | writei jp src off n =>
    obtain ⟨rfl, stage, bs, rest, todo, rfl, bytes, q⟩ := holds
    exact step_writei g at_ R stage todo bytes q
  | seek g' n =>
    obtain ⟨rfl, stage, q⟩ := holds
    exact step_seek g at_ stage q
  | iunlock jp =>
    obtain ⟨rfl, stage, q⟩ := holds
    exact step_iunlock g at_ stage q
  | _ => exact holds.elim

end

lemma sound (R : Ready sb f k₀ calls) :
    Threads.Sound (writers sb) (fun {_} => rule f (slot f k₀)) Res.Done (Inv sb f k₀ calls) where
  start _ _ start := start.elim
  op := by
    rintro k h p β k' b r i Q ⟨log, g⟩ at_ holds exec
    exact (wp_ok exec).1 (step_rule g at_ R holds)
  done := by
    rintro k h p r ⟨log, g⟩ at_ ⟨todo, stage⟩
    refine ⟨log, g.ok, g.inum, g.node, g.file, g.clean, g.room, fun q => ?_, fun q => ?_, fun q s hq => ?_, g.idle⟩
    · by_cases eq : q = p
      · subst eq
        rw [Function.update_self, ← g.plan q, at_]
        exact congrArg (log.of q ++ ·) todo.symm
      · rw [Function.update_of_ne eq, g.plan q]
    · by_cases eq : q = p
      · subst eq
        rw [g.holder q, at_, Function.update_self]
        simp [stage]
      · rw [Function.update_of_ne eq, g.holder q]
    · by_cases eq : q = p
      · subst eq
        rw [Function.update_self] at hq
        cases hq
      · rw [Function.update_of_ne eq] at hq
        exact g.stage q s hq
  env _ env := env.elim

lemma Ready.good (R : Ready sb f k₀ calls) :
    Good sb f k₀ calls [] k₀ fun p => some ⟨(calls p).flatMap pieces, .out⟩ where
  ok := R.ok
  inum := rfl
  node := (Node.write_zero R.off).symm
  file := rfl
  clean held := absurd R.unlocked held
  room := R.room
  plan _ := rfl
  holder p := by simp [R.unlocked]
  stage _ _ eq := by
    obtain rfl := Option.some.inj eq
    trivial
  idle _ := rfl

/-- The processes write to the file. -/
abbrev Step (sb : Superblock) := Threads.Step (writers sb)

lemma progress (R : Ready sb f k₀ calls) {s : Threads.State Instr (Fin NPROC) Kernel (List Int)}
    (proved : Threads.Proved (fun {_} => rule f (slot f k₀)) Res.Done (Inv sb f k₀ calls) s) (busy : ∃ p, s.thread p ≠ none) :
    ∃ e s', Step sb s e s' := by
  obtain ⟨h, ⟨log, g⟩, agree⟩ := proved
  -- the process that has locked the inode, or any
  obtain ⟨p, running, able⟩ : ∃ p, s.thread p ≠ none ∧ ∀ r, h p = some r → r.stage = .out → s.shared.lock (slot f k₀) = none := by
    cases lock : s.shared.lock (slot f k₀) with
    | none =>
      obtain ⟨p, running⟩ := busy
      exact ⟨p, running, fun _ _ _ => rfl⟩
    | some p =>
      obtain ⟨r, hp, at_⟩ := (g.holder p).1 lock
      refine ⟨p, fun idle => ?_, fun r' hp' out => ?_⟩
      · rw [(agree p).none_iff.1 idle] at hp
        cases hp
      · rw [hp] at hp'
        exact absurd (Option.some.inj hp' ▸ out) at_
  obtain ⟨m, run⟩ := Option.ne_none_iff_exists'.1 running
  obtain ⟨r, hp, holds⟩ := (run ▸ agree p).some
  cases m with
  | pure v => exact ⟨_, _, .done run⟩
  | op i next =>
    have steps := step_rule g hp R holds
    cases exec : i.exec sb p s.shared with
    | ok x => exact ⟨_, _, .op run exec⟩
    | error e =>
      obtain ⟨-, out, wait⟩ := (wp_error exec).1 steps
      exact absurd (able r hp out) wait

/-- Writes through a shared open file are not lost. Processes write strings to the file `f` with `filewrite`, each one after
another, in any interleaving, from an offset not above the size of the file on, and there is room for all of them. At any time
what has been written are pieces of at most three blocks, of each process in its order, and they stand in the file one after
another from the first offset on; when the inode is not locked, the offset of the file is the one after them. As long as a
process has not finished, some process can go on, and when all have finished all pieces have been written. -/
theorem shared_writes (R : Ready sb f k₀ calls) {es : List (Threads.Event (Fin NPROC) (List Int))}
    {s : Threads.State Instr (Fin NPROC) Kernel (List Int)} (run : Run (Step sb) ⟨k₀, fun p => some (writer f (calls p))⟩ es s) :
    (∃ log : Log, (∀ p, log.of p <+: (calls p).flatMap pieces) ∧ (∀ c ∈ log, c.2.length ≤ 3 * BSIZE) ∧
      s.shared.fs.disk.node sb (k₀.fs.itable (slot f k₀)).inum =
        (k₀.fs.disk.node sb (k₀.fs.itable (slot f k₀)).inum).write (log.bytes[·]?) (k₀.fs.ftable f).off log.bytes.length ∧
      (s.shared.lock (slot f k₀) = none → (s.shared.fs.ftable f).off = (k₀.fs.ftable f).off + log.bytes.length) ∧
      ((∀ p, s.thread p = none) → s.shared.lock (slot f k₀) = none ∧ ∀ p, log.of p = (calls p).flatMap pieces)) ∧
    ((∃ p, s.thread p ≠ none) → ∃ e s', Step sb s e s') := by
  have init : Threads.Proved (fun {_} => rule f (slot f k₀)) Res.Done (Inv sb f k₀ calls)
      ⟨k₀, fun p => some (writer f (calls p))⟩ := ⟨_, ⟨[], R.good⟩, fun p => wp_writer (calls p)⟩
  have proved := (sound R).run init run
  refine ⟨?_, progress R proved⟩
  obtain ⟨h, ⟨log, g⟩, agree⟩ := proved
  have order : ∀ p, log.of p <+: (calls p).flatMap pieces := fun p => ⟨_, g.plan p⟩
  refine ⟨log, order, fun c mem => ?_, g.node, g.idle, fun finished => ?_⟩
  · have share : c.2 ∈ log.of c.1 := List.mem_map.2 ⟨c, List.mem_filter.2 ⟨mem, by simp⟩, rfl⟩
    obtain ⟨bs, -, piece⟩ := List.mem_flatMap.1 ((order c.1).subset share)
    exact length_of_mem_pieces piece
  · have idle : ∀ p, h p = none := fun p => (agree p).none_iff.1 (finished p)
    constructor
    · cases lock : s.shared.lock (slot f k₀) with
      | none => rfl
      | some p =>
        obtain ⟨r, hp, -⟩ := (g.holder p).1 lock
        rw [idle p] at hp
        cases hp
    · intro p
      have plan := g.plan p
      rw [idle p] at plan
      simpa using plan

def twoCalls (p : Fin NPROC) : List (List UInt8) := if p = 0 then [[1]] else if p = 1 then [[2]] else []

lemma ready_two : Ready smallSb 0 ⟨smallState, fun _ => none, fun _ => 0⟩ twoCalls where
  type := rfl
  writable := rfl
  ok := ⟨smallDisk_owned, by decide, by decide, fun _ => rfl, by decide⟩
  unlocked := rfl
  off := Nat.zero_le _
  fits := by decide
  room := by
    have two : amount twoCalls = 2 := by decide
    have filled : ∀ k ∈ span 1 0 2, ¬smallDisk.slots smallSb k = 0 := by
      intro k mem
      obtain ⟨l, slot, rfl⟩ := Finset.mem_image.1 mem
      obtain ⟨-, i, li, covers⟩ := Finset.mem_filter.1 slot
      have first : (0 + i) / BSIZE = 0 := Nat.div_eq_of_lt (by simp only [BSIZE]; omega)
      rw [first] at covers
      obtain rfl : l = slotOf 0 := covers.resolve_right nofun
      rw [smallDisk_slots]
      decide
    rw [two]
    refine (Nat.le_of_eq ?_).trans (Nat.zero_le _)
    exact Finset.card_eq_zero.2 (Finset.filter_eq_empty_iff.2 fun _ mem => filled _ mem)

/-- They begin, and what has been written after a step are pieces of theirs. -/
theorem shared_writes_two : ∃ e s, Step smallSb
      ⟨⟨smallState, fun _ => none, fun _ => 0⟩, fun p => some (writer 0 (twoCalls p))⟩ e s ∧
    ∃ log : Log, (∀ p, log.of p <+: (twoCalls p).flatMap pieces) ∧
      s.shared.fs.disk.node smallSb 1 = (smallDisk.node smallSb 1).write (log.bytes[·]?) 0 log.bytes.length := by
  obtain ⟨-, more⟩ := shared_writes ready_two .nil
  obtain ⟨e, s, st⟩ := more ⟨0, nofun⟩
  obtain ⟨⟨log, order, -, node, -⟩, -⟩ := shared_writes ready_two (.snoc .nil st)
  exact ⟨e, s, st, log, order, node⟩

end Xv6.Shared
