import Xv6.Sched.Machine
import Xv6.Vm.UserMemory

/-!
# What `wait` and `waitx` do when they fail

`wait` and `waitx` of `kernel/proc.c` with `sys_wait` and `sys_waitx` of `kernel/sysproc.c`, on the process table and the
memory of the caller. A call makes one pass over the table after the other and sleeps between them, when the other
processes change the table; it is given what its passes find. A call of `waitx` has freed the child before `sys_waitx`
copies out the two times, so that it is lost if one of these copies fails (`failed_wait`). The times are variables on the
kernel stack of `sys_waitx`, to which `waitx` assigns only if it finds an exited child (`waitx_no_leak`).
-/

namespace Xv6.Waiting

open Sched

/-- The process table and the memory of the caller. -/
structure World where
  slots : Fin NPROC → Slot
  mem : UserMemory

/-- `uint wtime, rtime` of `sys_waitx`. -/
structure Times where
  wtime : Uint
  rtime : Uint

def word (v : Uint) : List UInt8 :=
  [⟨v.extractLsb' 0 8⟩, ⟨v.extractLsb' 8 8⟩, ⟨v.extractLsb' 16 8⟩, ⟨v.extractLsb' 24 8⟩]

variable (p : Fin NPROC)

/-- Scan through the table looking for exited children: the first one, or whether there are children. -/
def scan (slots : Fin NPROC → Slot) : List (Fin NPROC) → Bool → Fin NPROC ⊕ Bool
  | [], havekids => .inr havekids
  | pp :: rest, havekids =>
    if (slots pp).parent = some p then
      if (slots pp).state = .zombie then .inl pp else scan slots rest true
    else scan slots rest havekids

/-- A pass of `wait` and `waitx`: the exited child that was found, what is returned and the world then. There is no result
if the pass ends with `sleep`. -/
def pass (addr : ℕ) (w : World) : Option (Option Slot × ℤ × World) :=
  match scan p w.slots (List.finRange NPROC) false with
  | .inl pp =>
    let np := w.slots pp
    let (r, mem) := if addr ≠ 0 then w.mem.copyout addr (word (BitVec.ofInt 32 np.xstate)) else (0, w.mem)
    if r < 0 then some (some np, -1, ⟨w.slots, mem⟩)
    else some (some np, np.pid, ⟨Function.update w.slots pp (freeproc np), mem⟩)
  | .inr havekids => if !havekids || (w.slots p).killed then some (none, -1, w) else none

def sysWait (addr : ℕ) (w : World) : Option (ℤ × World) := (pass p addr w).map Prod.snd

/-- A pass of `waitx`, with the variables its second and third argument point to. -/
def waitx (addr : ℕ) (times : Times) (w : World) : Option (Times × ℤ × World) :=
  (pass p addr w).map fun (found, r) => (found.elim times fun np => ⟨np.etime - np.ctime - np.rtime, np.rtime⟩, r)

/-- What `sys_waitx` does when `waitx` has returned: it copies out the times. -/
def copyTimes (addr1 addr2 : ℕ) (t : Times) (ret : ℤ) (w : World) : ℤ × World :=
  let (r1, mem1) := w.mem.copyout addr1 (word t.wtime)
  if r1 < 0 then (-1, { w with mem := mem1 })
  else
    let (r2, mem2) := mem1.copyout addr2 (word t.rtime)
    if r2 < 0 then (-1, { w with mem := mem2 }) else (ret, { w with mem := mem2 })

/-- `sys_waitx`; `times` is what is on the stack. -/
def sysWaitx (addr addr1 addr2 : ℕ) (times : Times) (w : World) : Option (ℤ × World) :=
  (waitx p addr times w).map fun (t, ret, w) => copyTimes addr1 addr2 t ret w

/-- A call whose passes find the worlds `ws`: the world that its last pass has found, and its result. -/
def call (pass : World → Option (ℤ × World)) (ws : List World) : Option (World × ℤ × World) :=
  ws.findSome? fun w => (pass w).map (w, ·)

/-- The slot holds an exited child. -/
def ExitedChild (slots : Fin NPROC → Slot) (pp : Fin NPROC) : Bool :=
  (slots pp).parent = some p ∧ (slots pp).state = .zombie

/-- The exited child that a pass finds. -/
def World.found (w : World) : Option (Fin NPROC) := (List.finRange NPROC).find? (ExitedChild p w.slots)

/-- A pass frees the child `pp`: it finds it, and can copy out its status if it is asked to. -/
def Reaps (addr : ℕ) (w : World) (pp : Fin NPROC) : Prop :=
  w.found p = some pp ∧ (addr = 0 ∨ w.mem.Ready addr 4)

/-- A pass ends the call: it finds an exited child, or there are no children, or the caller has been killed. -/
def World.ends (w : World) : Bool :=
  (w.found p).isSome || !(List.finRange NPROC).any (fun q => (w.slots q).parent = some p) || (w.slots p).killed

section Pass

variable {p} {addr addr1 addr2 : ℕ} {w w' : World} {pp : Fin NPROC} {ws : List World} {ret : ℤ}

lemma scan_eq {slots : Fin NPROC → Slot} {l : List (Fin NPROC)} {havekids : Bool} :
    scan p slots l havekids = match l.find? (ExitedChild p slots) with
      | some pp => .inl pp
      | none => .inr (havekids || l.any fun q => (slots q).parent = some p) := by
  induction l generalizing havekids with
  | nil => simp [scan]
  | cons q l ih =>
    rw [scan]
    by_cases child : (slots q).parent = some p
    · by_cases exited : (slots q).state = .zombie
      · simp [ExitedChild, child, exited]
      · rw [if_pos child, if_neg exited, ih, List.find?_cons_of_neg (by simp [ExitedChild, exited])]
        simp [child]
    · rw [if_neg child, ih, List.find?_cons_of_neg (by simp [ExitedChild, child])]
      simp [child]

lemma pass_none (none : w.found p = none) : pass p addr w = if w.ends p then some (.none, -1, w) else .none := by
  have eq : scan p w.slots (List.finRange NPROC) false =
      .inr ((List.finRange NPROC).any fun q => (w.slots q).parent = some p) := by
    rw [scan_eq, ← World.found, none, Bool.false_or]
  simp only [pass, eq, World.ends, none, Option.isSome_none, Bool.false_or]

/-- A pass that finds an exited child: the status is copied out or not, and the child is freed if that has not failed. -/
lemma pass_some (addr : ℕ) (some : w.found p = some pp) :
    ∃ mem, (∀ b, mem.Accessible b ↔ w.mem.Accessible b) ∧ pass p addr w = .some (.some (w.slots pp),
      if addr = 0 ∨ w.mem.Ready addr 4 then
        ((w.slots pp).pid, ⟨Function.update w.slots pp (freeproc (w.slots pp)), mem⟩)
      else (-1, ⟨w.slots, mem⟩)) := by
  have eq : scan p w.slots (List.finRange NPROC) false = .inl pp := by
    rw [scan_eq, ← World.found, some]
  simp only [pass, eq]
  by_cases zero : addr = 0
  · exact ⟨w.mem, fun _ => Iff.rfl, by simp [zero]⟩
  · refine ⟨(w.mem.copyout addr (word (BitVec.ofInt 32 (w.slots pp).xstate))).2, fun _ => by simp, ?_⟩
    by_cases ready : w.mem.Ready addr 4
    · simp [zero, ready, UserMemory.copyout_fst, word]
    · simp [zero, ready, UserMemory.copyout_fst, word]

lemma found_zombie (some : w.found p = some pp) : (w.slots pp).state = .zombie := by
  have exited := List.find?_some some
  simp only [ExitedChild, decide_eq_true_eq] at exited
  exact exited.2

/-- A pass that ends the call has freed the child it has found, or the table is as it was and it returns -1. -/
lemma pass_cases {found : Option Slot} (ends : pass p addr w = some (found, ret, w')) :
    (∀ b, w'.mem.Accessible b ↔ w.mem.Accessible b) ∧
      ((∃ pp, Reaps p addr w pp ∧ ret = (w.slots pp).pid ∧ w'.slots ≠ w.slots) ∨
        (∀ pp, ¬Reaps p addr w pp) ∧ ret = -1 ∧ w'.slots = w.slots) := by
  cases h : w.found p with
  | none =>
    rw [pass_none h] at ends
    split at ends
    · cases ends
      refine ⟨fun _ => Iff.rfl, .inr ⟨fun pp reaps => ?_, rfl, rfl⟩⟩
      rw [reaps.1] at h
      cases h
    · cases ends
  | some pp =>
    obtain ⟨mem, acc, eq⟩ := pass_some addr h
    rw [eq] at ends
    split at ends
    · rename_i ready
      cases ends
      refine ⟨acc, .inl ⟨pp, ⟨h, ready⟩, rfl, fun same => ?_⟩⟩
      have state := congrArg Slot.state (congrFun same pp)
      simp [freeproc, found_zombie h] at state
    · rename_i fails
      cases ends
      exact ⟨acc, .inr ⟨fun pp reaps => fails reaps.2, rfl, rfl⟩⟩

lemma Reaps.forall_iff {P : Fin NPROC → Prop} (reaps : Reaps p addr w pp) : (∀ q, Reaps p addr w q → P q) ↔ P pp := by
  refine ⟨fun all => all pp reaps, fun h q other => ?_⟩
  obtain rfl := Option.some.inj (other.1.symm.trans reaps.1)
  exact h

lemma copyTimes_slots {t : Times} : (copyTimes addr1 addr2 t ret w).2.slots = w.slots := by
  simp only [copyTimes]
  repeat' split
  all_goals rfl

lemma copyTimes_fst {t : Times} : (copyTimes addr1 addr2 t ret w).1 =
    if w.mem.Ready addr1 4 ∧ w.mem.Ready addr2 4 then ret else -1 := by
  simp only [copyTimes, UserMemory.copyout_fst, UserMemory.ready_copyout, word, List.length_cons, List.length_nil]
  by_cases one : w.mem.Ready addr1 4
  · by_cases two : w.mem.Ready addr2 4
    · simp [one, two]
    · simp [one, two]
  · simp [one]

lemma call_some {f : World → Option (ℤ × World)} {r : ℤ × World} (h : call f ws = some (w, r)) : f w = some r := by
  obtain ⟨v, -, eq⟩ := List.exists_of_findSome?_eq_some h
  obtain ⟨a, ha, eq⟩ := Option.map_eq_some_iff.1 eq
  cases eq
  exact ha

lemma call_sysWaitx {found : Option Slot} {v : World} (times : Times) (ends : pass p addr w = some (found, ret, v)) :
    ∃ w', call (sysWaitx p addr addr1 addr2 times) [w] =
      some (w, if v.mem.Ready addr1 4 ∧ v.mem.Ready addr2 4 then ret else -1, w') ∧ w'.slots = v.slots := by
  simp only [call, List.findSome?_cons, sysWaitx, waitx, ends, Option.map_some]
  exact ⟨_, by rw [← copyTimes_fst], copyTimes_slots⟩

end Pass

/-- A failed `wait` has freed no child unless the pid of the child it freed is -1. A failed `waitx` has freed none iff none
was found whose status could be copied out, or the times could be copied out as well. -/
theorem failed_wait {p : Fin NPROC} {addr : ℕ} {ws : List World} {w w' : World} {ret : ℤ} :
    (call (sysWait p addr) ws = some (w, ret, w') →
      ((ret = -1 → w'.slots = w.slots) ↔ ∀ pp, Reaps p addr w pp → (w.slots pp).pid ≠ -1)) ∧
    ∀ {addr1 addr2 times}, call (sysWaitx p addr addr1 addr2 times) ws = some (w, ret, w') →
      ((ret = -1 → w'.slots = w.slots) ↔
        ∀ pp, Reaps p addr w pp → (w.slots pp).pid ≠ -1 ∧ w.mem.Ready addr1 4 ∧ w.mem.Ready addr2 4) := by
  constructor
  · intro returns
    obtain ⟨⟨found, ret, v⟩, ends, ⟨⟩⟩ := Option.map_eq_some_iff.1 (call_some returns)
    obtain ⟨-, ⟨pp, reaps, rfl, changed⟩ | ⟨none, -, same⟩⟩ := pass_cases ends
    · rw [reaps.forall_iff]
      exact ⟨fun same minus => changed (same minus), fun ne minus => absurd minus ne⟩
    · exact ⟨fun _ pp reaps => absurd reaps (none pp), fun _ _ => same⟩
  · intro addr1 addr2 times returns
    obtain ⟨⟨t, r, v⟩, ends, eq⟩ := Option.map_eq_some_iff.1 (call_some returns)
    obtain ⟨⟨found, x⟩, ends, ⟨⟩⟩ := Option.map_eq_some_iff.1 ends
    obtain ⟨acc, cases⟩ := pass_cases ends
    have ready : v.mem.Ready addr1 4 ∧ v.mem.Ready addr2 4 ↔ w.mem.Ready addr1 4 ∧ w.mem.Ready addr2 4 :=
      and_congr (forall₂_congr fun _ _ => acc _) (forall₂_congr fun _ _ => acc _)
    have fst := congrArg Prod.fst eq
    have snd := congrArg (World.slots ∘ Prod.snd) eq
    simp only [copyTimes_fst, copyTimes_slots, Function.comp, ready] at fst snd
    rw [← fst, ← snd]
    obtain ⟨pp, reaps, rfl, changed⟩ | ⟨none, -, same⟩ := cases
    · rw [reaps.forall_iff]
      split
      · rename_i both
        exact ⟨fun same => ⟨fun minus => changed (same minus), both⟩, fun h minus => absurd minus h.1⟩
      · rename_i fails
        exact ⟨fun same => absurd (same rfl) changed, fun h => absurd h.2 fails⟩
    · exact ⟨fun _ pp reaps => absurd reaps (none pp), fun _ _ => same⟩

/-- The first process with a child that has called `exit(7)`, and a memory with one page. -/
def exitedWorld : World where
  slots q :=
    if q = initproc then { emptySlot with state := .running, pid := 1 }
    else if q = 1 then { emptySlot with state := .zombie, pid := 2, parent := some initproc, xstate := 7 }
    else emptySlot
  mem := UserMemory.onePage

lemma exitedWorld_found : exitedWorld.found initproc = some 1 := by decide

lemma exitedWorld_ready {a : ℕ} : exitedWorld.mem.Ready a 4 ↔ PGSIZE ≤ a ∧ a + 3 < 2 * PGSIZE := by
  have acc : ∀ b, exitedWorld.mem.Accessible b ↔ b / PGSIZE = 1 := by
    intro b
    simp only [UserMemory.Accessible, exitedWorld, UserMemory.onePage]
    split <;> simp_all
  simp only [UserMemory.Ready, acc, PGSIZE]
  constructor
  · intro ready
    have first := ready 0 (by decide)
    have last := ready 3 (by decide)
    omega
  · intro in_page i lt
    omega

/-- A status that cannot be copied out can be collected again. -/
theorem failed_wait_again : ∃ w w', call (sysWait initproc 1) [exitedWorld] = some (exitedWorld, -1, w) ∧
    w.slots = exitedWorld.slots ∧
    call (sysWaitx initproc 1 PGSIZE PGSIZE ⟨0, 0⟩) [exitedWorld] = some (exitedWorld, -1, w') ∧
    w'.slots = exitedWorld.slots := by
  obtain ⟨mem, acc, eq⟩ := pass_some 1 exitedWorld_found
  have fails : ¬(1 = 0 ∨ exitedWorld.mem.Ready 1 4) := by
    rw [exitedWorld_ready]
    decide
  rw [if_neg fails] at eq
  obtain ⟨w', returns, -⟩ := call_sysWaitx (p := initproc) ⟨0, 0⟩ eq
  rw [ite_self] at returns
  have returns' : call (sysWait initproc 1) [exitedWorld] = some (exitedWorld, -1, ⟨exitedWorld.slots, mem⟩) := by
    simp only [call, List.findSome?_cons, sysWait, eq, Option.map_some]
  have none : ∀ pp, ¬Reaps initproc 1 exitedWorld pp := fun pp reaps => fails reaps.2
  exact ⟨_, w', returns', (failed_wait.1 returns').2 (fun pp reaps => absurd reaps (none pp)) rfl, returns,
    (failed_wait.2 returns).2 (fun pp reaps => absurd reaps (none pp)) rfl⟩

/-- The child has been freed when `sys_waitx` fails because the first time cannot be copied out. -/
theorem failed_waitx_frees : ∃ w, call (sysWaitx initproc PGSIZE 0 PGSIZE ⟨0, 0⟩) [exitedWorld] = some (exitedWorld, -1, w) ∧
    (exitedWorld.slots 1).state = .zombie ∧ (w.slots 1).state = .unused := by
  obtain ⟨mem, acc, eq⟩ := pass_some PGSIZE exitedWorld_found
  rw [if_pos (.inr (exitedWorld_ready.2 (by decide)))] at eq
  obtain ⟨w, returns, slots⟩ := call_sysWaitx (p := initproc) ⟨0, 0⟩ eq
  have fails : ¬mem.Ready 0 4 := fun ready => absurd (exitedWorld_ready.1 fun i lt => (acc _).1 (ready i lt)) (by decide)
  refine ⟨w, ?_, rfl, ?_⟩
  · rw [returns, if_neg fun ready => fails ready.1]
  · rw [slots]
    rfl

/-- What the caller can see of a call: the result and its memory. -/
def Seen (r : World × ℤ × World) : ℤ × UserMemory := (r.2.1, r.2.2.mem)

section Leak

variable {p : Fin NPROC} {addr addr1 addr2 : ℕ} {ws : List World} {w : World}

lemma pass_isSome : (pass p addr w).isSome = w.ends p := by
  cases h : w.found p with
  | none =>
    rw [pass_none h]
    cases w.ends p <;> rfl
  | some pp =>
    obtain ⟨mem, -, eq⟩ := pass_some addr h
    simp [eq, World.ends, h]

lemma call_eq {f : World → Option (ℤ × World)} (ends : ∀ w, (f w).isSome = w.ends p) :
    call f ws = (ws.find? (World.ends p)).bind fun w => (f w).map (w, ·) := by
  induction ws with
  | nil => rfl
  | cons w ws ih =>
    rw [call, List.findSome?_cons]
    cases h : f w with
    | none =>
      rw [List.find?_cons_of_neg (by simp [← ends, h]), ← ih]
      rfl
    | some r =>
      rw [List.find?_cons_of_pos (by simp [← ends, h])]
      simp [h]

lemma call_sysWaitx_eq {t : Times} : call (sysWaitx p addr addr1 addr2 t) ws =
    (ws.find? (World.ends p)).bind fun w => (sysWaitx p addr addr1 addr2 t w).map (w, ·) := by
  refine call_eq fun w => ?_
  simp only [sysWaitx, waitx, Option.isSome_map, pass_isSome]

lemma copyTimes_byte {t : Times} {ret : ℤ} {x : UInt8} (acc : w.mem.Accessible addr1)
    (wtime : word t.wtime = List.replicate 4 x) (rtime : word t.rtime = List.replicate 4 x) :
    (copyTimes addr1 addr2 t ret w).2.mem.byte addr1 = some x := by
  have one : (w.mem.copyout addr1 (word t.wtime)).2.byte addr1 = some x := by
    have ready : w.mem.Ready addr1 (addr1 - addr1 + 1) := by simpa [UserMemory.Ready] using acc
    rw [UserMemory.copyout_byte, wtime, if_pos ⟨Nat.le_refl _, by simp, ready⟩]
    simp
  have two : ((w.mem.copyout addr1 (word t.wtime)).2.copyout addr2 (word t.rtime)).2.byte addr1 = some x := by
    rw [UserMemory.copyout_byte, one, rtime]
    split
    · rename_i h
      rw [List.getElem?_replicate, if_pos (by simp at h; omega)]
    · rfl
  simp only [copyTimes]
  split
  · exact one
  · split <;> exact two

lemma copyTimes_none {t : Times} {ret : ℤ} (no : ¬w.mem.Accessible addr1) :
    copyTimes addr1 addr2 t ret w = (-1, w) := by
  have eq : w.mem.copyout addr1 (word t.wtime) = (-1, w.mem) := by
    rw [UserMemory.copyout_eq, word, UserMemory.copyBytes, if_neg no]
  simp [copyTimes, eq]

lemma sysWaitx_none {t : Times} (ends : w.ends p) (none : w.found p = none) :
    sysWaitx p addr addr1 addr2 t w = some (copyTimes addr1 addr2 t (-1) w) := by
  rw [sysWaitx, waitx, pass_none none, if_pos ends]
  rfl

lemma sysWaitx_some {t t' : Times} {pp : Fin NPROC} (some : w.found p = some pp) :
    sysWaitx p addr addr1 addr2 t w = sysWaitx p addr addr1 addr2 t' w := by
  obtain ⟨mem, -, eq⟩ := pass_some addr some
  rw [sysWaitx, sysWaitx, waitx, waitx, eq]
  rfl

lemma sysWaitx_leaks (ends : w.ends p) (none : w.found p = none) (acc : w.mem.Accessible addr1) :
    ((sysWaitx p addr addr1 addr2 ⟨0, 0⟩ w).map (w, ·)).map Seen ≠
      ((sysWaitx p addr addr1 addr2 ⟨0x01010101, 0x01010101⟩ w).map (w, ·)).map Seen := by
  intro eq
  simp only [sysWaitx_none ends none, Option.map_some, Seen, Option.some.injEq, Prod.mk.injEq] at eq
  have byte := congrArg (UserMemory.byte · addr1) eq.2
  rw [copyTimes_byte (x := 0) acc rfl rfl, copyTimes_byte (x := 1) acc rfl rfl] at byte
  exact absurd byte (by decide)

end Leak

/-- What was on the stack of `sys_waitx` cannot be seen iff the last pass finds an exited child, or the first byte of the
first time cannot be copied out. -/
theorem waitx_no_leak {p : Fin NPROC} {addr addr1 addr2 : ℕ} {ws : List World} :
    (∀ t t', (call (sysWaitx p addr addr1 addr2 t) ws).map Seen = (call (sysWaitx p addr addr1 addr2 t') ws).map Seen) ↔
      ∀ w, ws.find? (World.ends p) = some w → (w.found p).isSome ∨ ¬w.mem.Accessible addr1 := by
  simp only [call_sysWaitx_eq]
  constructor
  · intro same w last
    by_contra leak
    obtain ⟨none, acc⟩ := not_or.1 leak
    have eq := same ⟨0, 0⟩ ⟨0x01010101, 0x01010101⟩
    rw [last] at eq
    exact sysWaitx_leaks (List.find?_some last) (Option.not_isSome_iff_eq_none.1 none) (not_not.1 acc) eq
  · intro safe t t'
    cases last : ws.find? (World.ends p) with
    | none => rfl
    | some w =>
      simp only [Option.bind_some]
      cases found : w.found p with
      | some pp => rw [sysWaitx_some found]
      | none =>
        have no : ¬w.mem.Accessible addr1 := (safe w last).resolve_left (by simp [found])
        have ends : w.ends p := List.find?_some last
        simp only [sysWaitx_none ends found, copyTimes_none no]

/-- The first process without a child. -/
def aloneWorld : World := ⟨fun q => if q = initproc then { emptySlot with state := .running, pid := 1 } else emptySlot,
  UserMemory.onePage⟩

/-- A call without children copies out what has been on the stack. -/
theorem waitx_leaks : (call (sysWaitx initproc 0 PGSIZE 0 ⟨0, 0⟩) [aloneWorld]).map Seen ≠
    (call (sysWaitx initproc 0 PGSIZE 0 ⟨0x01010101, 0x01010101⟩) [aloneWorld]).map Seen := by
  have acc : aloneWorld.mem.Accessible PGSIZE := exitedWorld_ready.2 (by decide) 0 (by decide)
  have ends : aloneWorld.ends initproc := by decide
  have none : aloneWorld.found initproc = none := by decide
  rw [call_sysWaitx_eq, call_sysWaitx_eq, List.find?_cons_of_pos ends, Option.bind_some, Option.bind_some]
  exact sysWaitx_leaks ends none acc

end Xv6.Waiting
