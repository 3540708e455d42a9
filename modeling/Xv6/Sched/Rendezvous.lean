import Xv6.Sched.Parent
import Xv6.Sched.Progress

/-!
# Exit and wait

No wakeup of a waiting parent is lost: a parent that sleeps in `wait` has no exited child, except while a
thread that holds `wait_lock` is about to wake it up. A zombie is freed once, by its parent, which gets its
pid and the status it passed to `exit`.
-/

namespace Xv6.Sched

/-- The number of slots of which a thread in `wait` knows that they are not exited children. -/
def Pc.scanned : Pc → Option Nat
  | .waitScan _ i _ => some i
  | .check (.wait _) => some NPROC
  | .sleep (.wait _) => some NPROC
  | _ => none

/-- The process sleeps on its own slot, as `wait` does. -/
def State.Asleep (s : State) (p : Fin NPROC) : Prop :=
  (s.slots p).state = .sleeping ∧ (s.slots p).chan = some (.proc p)

/-- The invariant of `exit` and `wait`. -/
structure Meet (s : State) : Prop where
  scanned : ∀ {p i}, (s.threads p).pc.scanned = some i →
    ∀ j : Fin NPROC, j.val < i → (s.slots j).parent = some p → (s.slots j).state ≠ .zombie
  found : ∀ {p q w}, (s.threads p).pc = .waitFound w q → (s.slots q).parent = some p
  -- the slots that `wakeup` has been to
  parent : ∀ {p r status j}, (s.threads p).pc = .exitWakeParent status j → r.val < j →
    (s.slots p).parent = some r → ¬ s.Asleep r
  first : ∀ {p status i j}, (s.threads p).pc = .exitWakeInit status i j → initproc.val < j →
    ¬ s.Asleep initproc
  -- a sleeping parent of a zombie is the first process, about to be woken up
  pending : ∀ {p q}, s.Asleep p → (s.slots q).parent = some p → (s.slots q).state = .zombie →
    p = initproc ∧ ∃ e status i, (s.threads e).pc = .exitWakeInit status i initproc.val

variable {s s' : State} {c d : Fin NCPU} {p q r : Fin NPROC} {pc pc' : Pc}

lemma Inv.wait_sole (inv : Inv s) (hp : (s.threads p).pc.lk = some .wait)
    (hq : (s.threads q).pc.lk = some .wait) : p = q := by
  obtain ⟨c, ⟨-, cp⟩, -, l⟩ := inv.waits hp
  obtain ⟨d, ⟨-, dq⟩, -, l'⟩ := inv.waits hq
  obtain rfl := Option.some.inj (l.symm.trans l')
  exact Option.some.inj (cp.symm.trans dq)

lemma Inv.wait_at {t} (inv : Inv s) (r : s.Runs c p t) (hp : t.pc.lk = some .wait)
    (hq : (s.threads q).pc.lk = some .wait) : (s.cpus c).proc = some q := by
  rw [← inv.wait_sole (by rw [r.thread]; exact hp) hq]
  exact r.proc

lemma Pc.lk_of_scanned {i} (h : pc.scanned = some i) : pc.lk = some .wait := by
  match pc, h with
  | .waitScan .., _ => rfl
  | .check (.wait _), _ => rfl
  | .sleep (.wait _), _ => rfl

section

attribute [local simp] State.put State.goto State.setThread State.setCpu State.setLk

lemma Step.asleep (st : Step s c s') (a : s'.Asleep p) :
    s.Asleep p ∨ ∃ w, s.Runs c p ⟨.sleep (.wait w), .sleep⟩ := by
  have chan (L : Loop) (h : L.chan p = .proc p) : ∃ w, L = .wait w := by
    cases L <;> simp_all [Loop.chan]
  simp only [State.Asleep] at a ⊢
  cases st with simp [Function.update_apply] at a ⊢
  | edit r e => cases e <;> grind [wake, setKilled, freeproc]
  | _ => grind [wake, timeUpdate, freeproc]

lemma Meet.own_scanned {i} (meet : Meet s) (st : Step s c s')
    (h : (s.cpus c).proc = some p) (g : (s'.threads p).pc.scanned = some i) :
    ∀ j : Fin NPROC, j.val < i → (s'.slots j).parent = some p → (s'.slots j).state ≠ .zombie := by
  have old {i} := meet.scanned (p := p) (i := i)
  cases st with simp [Function.update_apply] at g ⊢
  | move r e =>
    obtain rfl := Option.some.inj (h.symm.trans r.proc)
    cases e with
    | @waitSkip w k _ ne =>
      obtain rfl : k.val + 1 = i := by simpa [Pc.scanned] using g
      exact upto_succ (old (by rw [r.thread]; rfl)) (fun e => absurd e ne)
    | @waitLive w k _ _ _ nz =>
      obtain rfl : k.val + 1 = i := by simpa [Pc.scanned] using g
      exact upto_succ (old (by rw [r.thread]; rfl)) (fun _ => nz)
    | waitKids =>
      obtain rfl : NPROC = i := by simpa [Pc.scanned] using g
      exact old (by rw [r.thread]; rfl)
    | @alive L _ _ =>
      cases L with
      | wait w => exact old (by rw [r.thread]; simpa [Pc.scanned] using g)
      | _ => simp [Pc.scanned] at g
    | @loop L nw => cases L <;> simp_all [Pc.scanned, Loop.isWait]
    | _ => simp [Pc.scanned] at g
  | acquire r e =>
    obtain rfl := Option.some.inj (h.symm.trans r.proc)
    rcases e.enters with ⟨status, rfl, -⟩ | ⟨w, rfl⟩ | ⟨L, rfl⟩ <;> simp [Pc.scanned] at g
    intro j lt
    omega
  | release r e => grind [State.Runs, e.keeps, Pc.scanned]
  | edit r e => cases e <;> grind [State.Runs, Pc.scanned]
  | _ => grind [State.Runs, Pc.scanned, wake, timeUpdate]

lemma Meet.own_found {w} (meet : Meet s) (st : Step s c s') (h : (s.cpus c).proc = some p)
    (g : (s'.threads p).pc = .waitFound w q) : (s'.slots q).parent = some p := by
  have old := meet.found (p := p) (q := q) (w := w)
  cases st with simp [Function.update_apply] at g ⊢
  | move r e => grind [State.Runs, e.keeps, Pc.locks]
  | acquire r e => grind [State.Runs, e.keeps, Pc.locks]
  | release r e => grind [State.Runs, e.keeps, Pc.locks]
  | edit r e => cases e <;> grind [State.Runs, wake, setKilled]
  | _ => grind [State.Runs, wake, timeUpdate]

lemma Meet.own_parent {status j} (meet : Meet s) (fam : Family s) (st : Step s c s')
    (h : (s.cpus c).proc = some p) (g : (s'.threads p).pc = .exitWakeParent status j) (lt : r.val < j)
    (e : (s.slots p).parent = some r) : ¬ s'.Asleep r := by
  intro a
  have old {status j} := @meet.parent p r status j
  have ne := (fam.parent e).2
  simp only [State.Asleep] at a old
  cases st with simp [Function.update_apply] at g a
  | move r e => cases e <;> grind [State.Runs]
  | acquire r e => grind [State.Runs, e.enters]
  | release r e => grind [State.Runs, e.keeps]
  | edit r e => cases e <;> grind [State.Runs, wake, setKilled]
  | _ => grind [State.Runs, wake, timeUpdate, freeproc]

lemma Meet.own_first {status i j} (meet : Meet s) (fam : Family s) (st : Step s c s')
    (h : (s.cpus c).proc = some p) (g : (s'.threads p).pc = .exitWakeInit status i j)
    (lt : initproc.val < j) : ¬ s'.Asleep initproc := by
  intro a
  have old {status i j} := @meet.first p status i j
  have ni {i} := fam.exits (p := p) (i := i)
  simp only [State.Asleep] at a old
  cases st with simp [Function.update_apply] at g a
  | move r e => cases e <;> grind [State.Runs]
  | acquire r e => grind [State.Runs, e.enters]
  | release r e => grind [State.Runs, e.keeps]
  | edit r e => cases e <;> grind [State.Runs, wake, setKilled]
  | _ => grind [State.Runs, wake, timeUpdate, freeproc, Pc.given]

lemma Meet.own_pending {status i} (fam : Family s) (st : Step s c s')
    (h : (s.cpus c).proc = some p) (g : (s.threads p).pc = .exitWakeInit status i initproc.val)
    (a : s'.Asleep initproc) : (s'.threads p).pc = .exitWakeInit status i initproc.val := by
  have ni := (fam.exits (p := p) (i := i.val + 1) (by rw [g]; rfl)).1
  have zero : initproc.val < NPROC := initproc.isLt
  simp only [State.Asleep] at a
  cases st with simp [Function.update_apply] at a ⊢
  | move r e => cases e <;> grind [State.Runs]
  | acquire r e => cases e <;> grind [State.Runs]
  | release r e => cases e <;> grind [State.Runs]
  | edit r e => cases e <;> grind [State.Runs, wake]
  | _ => grind [State.Runs]

end

namespace Meet

/-- The parent of a process changes only through a thread that holds `wait_lock`, when it is created, or when
it is freed. -/
lemma parent_eq (inv : Inv s) (st : Step s c s') (lk : (s.threads p).pc.lk = some .wait)
    (own : (s.cpus c).proc ≠ some p) (nu : (s.slots q).state ≠ .used) (h : (s'.slots q).parent = some r) :
    (s.slots q).parent = some r := by
  rcases st.parent (q := q) with e | e
  · rwa [e] at h
  · cases e with
    | adopt at' => exact absurd (inv.child (by rw [at'.thread]; rfl)) nu
    | reparent at' => exact absurd (inv.wait_at at' rfl lk) own
    | free _ h' => simp [h] at h'

lemma zombie_old (inv : Inv s) (st : Step s c s') (lk : (s.threads p).pc.lk = some .wait)
    (own : (s.cpus c).proc ≠ some p) (z : (s'.slots q).state = .zombie) :
    (s.slots q).state = .zombie := by
  rcases st.state (q := q) with e | e
  · rwa [e] at z
  · cases e with
    | exit at' => exact absurd (inv.wait_at at' rfl lk) own
    | _ => simp_all

lemma asleep_old (inv : Inv s) (st : Step s c s') (lk : (s.threads p).pc.lk = some .wait)
    (own : (s.cpus c).proc ≠ some p) (a : s'.Asleep r) : s.Asleep r := by
  rcases st.asleep a with a | ⟨w, run⟩
  · exact a
  · exact absurd (inv.wait_at run rfl lk) own

lemma step_scanned (meet : Meet s) (inv : Inv s) (st : Step s c s') {i}
    (g : (s'.threads p).pc.scanned = some i) :
    ∀ j : Fin NPROC, j.val < i → (s'.slots j).parent = some p → (s'.slots j).state ≠ .zombie := by
  by_cases own : (s.cpus c).proc = some p
  · exact meet.own_scanned st own g
  · rw [Inv.thread_other st own (by rintro h; simp [h, Pc.scanned] at g)] at g
    have lk := Pc.lk_of_scanned g
    intro j lt h z
    have z' := zombie_old inv st lk own z
    exact meet.scanned g j lt (parent_eq inv st lk own (by simp [z']) h) z'

lemma step_found (meet : Meet s) (inv : Inv s) (st : Step s c s') {w}
    (g : (s'.threads p).pc = .waitFound w q) : (s'.slots q).parent = some p := by
  by_cases own : (s.cpus c).proc = some p
  · exact meet.own_found st own g
  · have z' := (inv.step st).found g
    rw [Inv.thread_other st own (by simp [g])] at g
    have old := meet.found g
    rcases st.parent (q := q) with e | e
    · rw [e, old]
    · cases e with
      | adopt at' =>
        have u := inv.child (p := _) (q := q) (by rw [at'.thread]; rfl)
        simp [inv.found g] at u
      | reparent at' => exact absurd (inv.wait_at at' rfl (by rw [g]; rfl)) own
      | free u => simp [z'] at u

lemma step_parent (meet : Meet s) (inv : Inv s) (fam : Family s) (st : Step s c s') {status j}
    (g : (s'.threads p).pc = .exitWakeParent status j) (lt : r.val < j)
    (h : (s'.slots p).parent = some r) : ¬ s'.Asleep r := by
  by_cases own : (s.cpus c).proc = some p
  · refine meet.own_parent fam st own g lt ?_
    rcases st.parent (q := p) with e | e
    · rwa [e] at h
    · cases e with
      | adopt at' => exact absurd (inv.child (by rw [at'.thread]; rfl)) (inv.on own).exists.2
      | reparent at' _ h' =>
        obtain rfl := Option.some.inj (own.symm.trans at'.proc)
        exact absurd rfl (fam.parent h').2
      | free _ h' => simp [h] at h'
  · rw [Inv.thread_other st own (by simp [g])] at g
    have lk : (s.threads p).pc.lk = some .wait := by rw [g]; rfl
    have act := inv.active (p := p) (by simp [g])
    intro a
    refine meet.parent g lt ?_ (asleep_old inv st lk own a)
    exact parent_eq inv st lk own (fun u => by simp [ProcState.Active, u] at act) h

lemma step_first (meet : Meet s) (inv : Inv s) (fam : Family s) (st : Step s c s') {status i j}
    (g : (s'.threads p).pc = .exitWakeInit status i j) (lt : initproc.val < j) :
    ¬ s'.Asleep initproc := by
  by_cases own : (s.cpus c).proc = some p
  · exact meet.own_first fam st own g lt
  · rw [Inv.thread_other st own (by simp [g])] at g
    exact fun a => meet.first g lt (asleep_old inv st (by rw [g]; rfl) own a)

lemma step_pending (meet : Meet s) (inv : Inv s) (fam : Family s) (st : Step s c s')
    (a : s'.Asleep p) (h : (s'.slots q).parent = some p) (z : (s'.slots q).state = .zombie) :
    p = initproc ∧ ∃ e status i, (s'.threads e).pc = .exitWakeInit status i initproc.val := by
  have nu : (s'.slots q).state ≠ .unused := by simp [z]
  -- the places of the threads that could make the parent sleep or the child a zombie
  have zombie : (s.slots q).state = .zombie ∨ ∃ status, s.At c q (.exitWakeParent status NPROC) := by
    rcases st.state (q := q) with e | e
    · exact .inl (by rwa [e] at z)
    · cases e with
      | exit at' => exact .inr ⟨_, at'⟩
      | _ => simp_all
  have nus : (s.slots q).state ≠ .used := by
    rcases zombie with z | ⟨_, at'⟩
    · simp [z]
    · simp [inv.at_running at']
  rcases st.parent (q := q) with e | e
  · rw [e] at h
    rcases st.asleep a with a | ⟨w, run⟩
    · rcases zombie with z | ⟨status, at'⟩
      · obtain ⟨rfl, e, status, i, g⟩ := meet.pending a h z
        refine ⟨rfl, e, status, i, ?_⟩
        by_cases own : (s.cpus c).proc = some e
        · exact own_pending fam st own g ‹_›
        · rw [inv.thread_eq st own, g]
          have act := inv.active (p := e) (by simp [g])
          exact fun u => by simp [ProcState.Active, u] at act
      · exact absurd a (meet.parent (p := q) (by rw [at'.thread]) p.isLt h)
    · rcases zombie with z | ⟨status, at'⟩
      · exact absurd z (meet.scanned (p := p) (i := NPROC) (by rw [run.thread]; rfl) q q.isLt h)
      · obtain rfl := Option.some.inj (run.proc.symm.trans at'.proc)
        have := run.thread.symm.trans at'.thread
        simp at this
  · cases e with
    | adopt at' => exact absurd (inv.child (by rw [at'.thread]; rfl)) nus
    | reparent _ g _ h' =>
      obtain rfl := Option.some.inj (h.symm.trans h')
      exact ⟨rfl, _, _, _, by rw [g]; rfl⟩
    | free u => exact absurd u nu

/-- Every step keeps the invariant. -/
theorem step (meet : Meet s) (inv : Inv s) (fam : Family s) (st : Step s c s') : Meet s' where
  scanned := meet.step_scanned inv st
  found := meet.step_found inv st
  parent := meet.step_parent inv fam st
  first := meet.step_first inv fam st
  pending := meet.step_pending inv fam st

lemma boot (sz pt tf : Nat) : Meet (boot sz pt tf) where
  scanned g := by simp [Sched.boot, Pc.scanned] at g
  found g := by simp [Sched.boot] at g
  parent g := by simp [Sched.boot] at g
  first g := by simp [Sched.boot] at g
  pending a := by
    obtain ⟨a, -⟩ := a
    simp only [Sched.boot] at a
    split at a <;> simp [emptySlot] at a

end Meet

/-- What `exited` and `reaped` say about the processes. -/
structure History (s : State) : Prop where
  zombie : ∀ {q}, (s.slots q).state = .zombie →
    ⟨(s.slots q).serial, (s.slots q).pid, (s.slots q).xstate⟩ ∈ s.exited
  reaped : ∀ {r}, r ∈ s.reaped → ∃ e ∈ s.exited, e.serial = r.serial ∧ e.pid = r.pid ∧
    (r.call.addr ≠ 0 → r.status = some e.status)
  old : ∀ {r}, r ∈ s.reaped → r.serial < s.allocated
  gone : ∀ {q r}, (s.slots q).state ≠ .unused → r ∈ s.reaped → r.serial ≠ (s.slots q).serial
  once : (s.reaped.map Reap.serial).Nodup

section

attribute [local simp] State.put State.goto State.setThread State.setCpu State.setLk

lemma Step.reap_cases (st : Step s c s') : s'.reaped = s.reaped ∨
    ∃ p w pp, s.At c p (.waitFound w pp) ∧ s'.reaped = s.reaped ++ [reap p w (s.slots pp)] ∧
      (s'.slots pp).state = .unused := by
  cases st with
  | @waitFree _ p w pp r => exact .inr ⟨p, w, pp, r, rfl, by simp [freeproc]⟩
  | _ => exact .inl rfl

lemma Step.exited (st : Step s c s') : ∀ e ∈ s.exited, e ∈ s'.exited := by
  cases st <;> simp
  all_goals grind

lemma Inv.zombie_cases (inv : Inv s) (st : Step s c s') (z : (s'.slots q).state = .zombie) :
    ((s.slots q).state = .zombie ∧ (s'.slots q).serial = (s.slots q).serial ∧
      (s'.slots q).pid = (s.slots q).pid ∧ (s'.slots q).xstate = (s.slots q).xstate) ∨
    ⟨(s'.slots q).serial, (s'.slots q).pid, (s'.slots q).xstate⟩ ∈ s'.exited := by
  have on {p} (h : (s.cpus c).proc = some p) := inv.on h
  have child {p q} := inv.child (p := p) (q := q)
  cases st with simp [Function.update_apply] at z ⊢
  | edit r e => cases e <;> grind [State.Runs, wake, setKilled, freeproc, Pc.child]
  | _ => grind [State.Runs, wake, timeUpdate, freeproc, Pc.child]

lemma Inv.freed (inv : Inv s) (st : Step s c s') (z : (s.slots q).state = .zombie)
    (nz : (s'.slots q).state ≠ .zombie) : ∃ p w, s.At c p (.waitFound w q) ∧
      (s'.slots q).state = .unused ∧ s'.reaped = s.reaped ++ [reap p w (s.slots q)] := by
  have running {p pc} (r : s.At c p pc) := inv.at_running r
  have child {p q} := inv.child (p := p) (q := q)
  have insleep {p pc} (r : s.Runs c p ⟨pc, .sleep⟩) := inv.in_sleep r
  cases st with simp [Function.update_apply] at nz ⊢
  | edit r e => cases e <;> grind [State.Runs, wake, setKilled, freeproc, Pc.child]
  | _ => grind [State.Runs, wake, timeUpdate, freeproc, Pc.child]

end

namespace History

lemma step_gone (hist : History s) (pids : Pids s) (inv : Inv s) (st : Step s c s') {x}
    (nu : (s'.slots q).state ≠ .unused) (h : x ∈ s'.reaped) : x.serial ≠ (s'.slots q).serial := by
  -- the number of the slot is new, or was there before
  have num : (s'.slots q).serial = s.allocated ∨
      (s.slots q).state ≠ .unused ∧ (s'.slots q).serial = (s.slots q).serial := by
    rcases inv.alloc_cases st with ⟨-, -, old⟩ | ⟨np, -, -, hs, -, old⟩
    · exact .inr ⟨(old q nu).2.2, (old q nu).1⟩
    · by_cases ne : q = np
      · exact .inl (ne ▸ hs)
      · rw [old q ne] at nu
        exact .inr ⟨nu, by rw [old q ne]⟩
  have before (h : x ∈ s.reaped) : x.serial ≠ (s'.slots q).serial := by
    rcases num with e | ⟨nu, e⟩
    · exact e ▸ Nat.ne_of_lt (hist.old h)
    · exact e ▸ hist.gone nu h
  rcases st.reap_cases with e | ⟨p, w, pp, at', e, u⟩
  · exact before (e ▸ h)
  · rw [e, List.mem_append, List.mem_singleton] at h
    rcases h with h | rfl
    · exact before h
    · have z : (s.slots pp).state ≠ .unused := by
        simp [inv.found (p := p) (q := pp) (w := w) (by rw [at'.thread])]
      rcases num with e | ⟨nu', e⟩
      · exact e ▸ Nat.ne_of_lt (pids.lt z)
      · intro e'
        obtain rfl := pids.inj z nu' (e'.trans e)
        exact nu u

lemma step (hist : History s) (pids : Pids s) (inv : Inv s) (st : Step s c s') : History s' where
  zombie {q} z := by
    rcases inv.zombie_cases st z with ⟨z, hs, hp, hx⟩ | h
    · rw [hs, hp, hx]
      exact st.exited _ (hist.zombie z)
    · exact h
  reaped {x} h := by
    have before (h : x ∈ s.reaped) : ∃ e ∈ s'.exited, e.serial = x.serial ∧ e.pid = x.pid ∧
        (x.call.addr ≠ 0 → x.status = some e.status) := by
      obtain ⟨e, he, rest⟩ := hist.reaped h
      exact ⟨e, st.exited e he, rest⟩
    rcases st.reap_cases with e | ⟨p, w, pp, at', e, -⟩
    · exact before (e ▸ h)
    · rw [e, List.mem_append, List.mem_singleton] at h
      rcases h with h | rfl
      · exact before h
      · have z := inv.found (p := p) (q := pp) (w := w) (by rw [at'.thread])
        exact ⟨_, st.exited _ (hist.zombie z), rfl, rfl, fun h => by simp [reap] at h ⊢; simp [h]⟩
  old {x} h := by
    have le : s.allocated ≤ s'.allocated := by
      rcases inv.alloc_cases st with ⟨e, -⟩ | ⟨_, e, -⟩ <;> omega
    rcases st.reap_cases with e | ⟨p, w, pp, at', e, -⟩
    · exact Nat.lt_of_lt_of_le (hist.old (e ▸ h)) le
    · rw [e, List.mem_append, List.mem_singleton] at h
      rcases h with h | rfl
      · exact Nat.lt_of_lt_of_le (hist.old h) le
      · have z := inv.found (p := p) (q := pp) (w := w) (by rw [at'.thread])
        exact Nat.lt_of_lt_of_le (pids.lt (q := pp) (by simp [z])) le
  gone nu h := hist.step_gone pids inv st nu h
  once := by
    rcases st.reap_cases with e | ⟨p, w, pp, at', e, -⟩
    · rw [e]
      exact hist.once
    · have z := inv.found (p := p) (q := pp) (w := w) (by rw [at'.thread])
      rw [e, List.map_append, List.map_singleton]
      refine List.nodup_append.mpr ⟨hist.once, by simp, ?_⟩
      rintro n h m h' e
      obtain ⟨x, hx, rfl⟩ := List.mem_map.mp h
      exact hist.gone (q := pp) (by simp [z]) hx (e.trans (List.mem_singleton.mp h'))

lemma boot (sz pt tf : Nat) : History (boot sz pt tf) where
  zombie z := by simp only [Sched.boot] at z; split at z <;> simp [emptySlot] at z
  reaped h := by simp [Sched.boot] at h
  old h := by simp [Sched.boot] at h
  gone _ h := by simp [Sched.boot] at h
  once := by simp [Sched.boot]

end History

lemma Meet.run {sz pt tf cs} (run : Run Step (Sched.boot sz pt tf) cs s) :
    Inv s ∧ Family s ∧ Pids s ∧ Meet s ∧ History s :=
  run.invariant (P := fun s => Inv s ∧ Family s ∧ Pids s ∧ Meet s ∧ History s)
    ⟨Inv.boot sz pt tf, Family.boot sz pt tf, Pids.boot sz pt tf, Meet.boot sz pt tf,
      History.boot sz pt tf⟩
    fun ⟨inv, fam, pids, meet, hist⟩ st => ⟨inv.step st, fam.step inv st, pids.step inv st,
      meet.step inv fam st, hist.step pids inv st⟩

/-- In every reachable state: when `wait_lock` and the lock of `p` are free, `p` does not sleep in `wait` or
`waitx` while it has an exited child. Whenever a zombie stops being one, it is freed by a call of `wait` or
`waitx` of its current parent, which is recorded in `reaped`. No process is freed twice, and a call that has
freed one returns the pid it had when it exited and, if it was given an address, the status it passed to
`exit`. -/
theorem exit_wait_rendezvous {sz pt tf cs} (run : Run Step (boot sz pt tf) cs s) :
    (∀ p w, s.locks .wait = none → (s.slots p).lock = none → (s.threads p).pc = .woken (.wait w) →
      (s.slots p).state = .sleeping → (s.slots p).chan = some (.proc p) →
      ∀ q, (s.slots q).parent = some p → (s.slots q).state ≠ .zombie) ∧
    (∀ q c s', Step s c s' → (s.slots q).state = .zombie → (s'.slots q).state ≠ .zombie →
      ∃ p w, (s.slots q).parent = some p ∧ s.At c p (.waitFound w q) ∧ (s'.slots q).state = .unused ∧
        s'.reaped = s.reaped ++ [reap p w (s.slots q)]) ∧
    (s.reaped.map Reap.serial).Nodup ∧
    (∀ r ∈ s.reaped, ∃ e ∈ s.exited, e.serial = r.serial ∧ r.pid = e.pid ∧
      (r.call.addr ≠ 0 → r.status = some e.status)) := by
  obtain ⟨inv, fam, -, meet, hist⟩ := Meet.run run
  refine ⟨fun p w l _ _ st ch q h z => ?_, fun q c s' st z nz => ?_, hist.once, fun r h => ?_⟩
  · -- the thread that would wake it up holds the lock
    obtain ⟨-, e, status, i, g⟩ := meet.pending ⟨st, ch⟩ h z
    obtain ⟨d, -, -, l'⟩ := inv.waits (p := e) (by rw [g]; rfl)
    simp [l] at l'
  · obtain ⟨p, w, at', rest⟩ := inv.freed st z nz
    exact ⟨p, w, meet.found (by rw [at'.thread]), at', rest⟩
  · obtain ⟨e, he, hs, hp, hst⟩ := hist.reaped h
    exact ⟨e, he, hs, hp.symm, hst⟩

/-- The first process creates a child, which exits with status 7 on CPU 1, and waits for it: the call returns
the status with which the child exited. -/
theorem exit_wait_rendezvous_first : ∃ (cs : _) (s : State) (r : Reap), Run Step (boot 1 1 1) cs s ∧
    r ∈ s.reaped ∧ r.parent = initproc ∧ r.status = some 7 ∧
    ∃ e ∈ s.exited, e.serial = r.serial ∧ r.pid = e.pid ∧ r.status = some e.status := by
  have one {P : Prop} (h : cpu1 = cpu0) : P := absurd h (by decide)
  have r := fork_run (c := cpu0) (p := initproc) 1 1 run_resumed ⟨rfl, rfl, rfl, fun _ => rfl⟩
    (show child ≠ initproc by decide) rfl rfl rfl
  have r := r.snoc (.skip (c := cpu1) (i := initproc) ⟨rfl, one⟩ rfl (by decide))
  have r := r.snoc (.dispatch (c := cpu1) (i := child) ⟨rfl, one⟩ rfl rfl)
  have r := r.snoc (.resume (c := cpu1) (p := child) (k := .forkret) ⟨rfl, rfl, rfl, one⟩ (by decide))
  obtain ⟨cs, r⟩ := exit_run (c := cpu1) (p := child) 7 r ⟨rfl, rfl, rfl, one⟩ (by decide) rfl
    (by decide) (by decide) (by decide)
  have r := r.snoc (.swtch (c := cpu1) (p := child) ⟨rfl, rfl, rfl, one⟩ rfl (by decide))
  have r := r.snoc (.back (c := cpu1) (p := child) rfl)
  -- the first process waits
  have r := r.snoc (.acquire (c := cpu0) (p := initproc) ⟨rfl, rfl, rfl, fun _ => rfl⟩
    (.wait (w := ⟨false, 1⟩)) rfl)
  have r := r.snoc (.move (c := cpu0) (p := initproc) ⟨rfl, rfl, rfl, fun _ => rfl⟩
    (.waitSkip (i := initproc) (by decide)))
  have r := r.snoc (.edit (c := cpu0) (p := initproc) ⟨rfl, rfl, rfl, fun _ => rfl⟩
    (.waitFound (i := child) rfl rfl rfl))
  have r := r.snoc (.waitFree (c := cpu0) (p := initproc) ⟨rfl, rfl, rfl, fun _ => rfl⟩)
  have mem := (exit_wait_rendezvous r).2.2.2 _ List.mem_cons_self
  obtain ⟨e, he, hs, hp, hst⟩ := mem
  exact ⟨_, _, _, r, List.mem_cons_self, rfl, rfl, e, he, hs, hp, hst (by decide)⟩

end Xv6.Sched
