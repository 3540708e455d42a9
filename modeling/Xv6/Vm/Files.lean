import Xv6.Lib.Counting
import Xv6.Vm.System

/-!
# Slots, descriptors, files and pipes

What the steps of the system keep without regard to the memory of the processes. The lock of a slot is held
by the process whose call works on that slot (`Links`). Each file has as many references as there are
descriptors of it, and each open end of a pipe is held by exactly one file, or by a process that has taken
it from its file and is about to close it (`Files`). So a pipe is freed exactly when its last descriptor is
closed, and only once.
-/

namespace Xv6

/-! ### Slots and their locks -/

/-- Locks are held by the calls that work on the slot, and only live processes make calls. -/
structure Links (procs : Fin NPROC → Proc) : Prop where
  busy : ∀ {p}, (procs p).call ≠ none → (procs p).state = .live
  lock : ∀ {p c}, (∃ st, (procs p).child = some (c, st)) ↔ (procs c).lock = some p
  state : ∀ {p c st}, (procs p).child = some (c, st) → (procs c).state = st
  zero : ∀ {p}, (procs p).state = .unused ∨ (procs p).state = .used → (procs p).sz = 0

/-- The slots agree in what `Links` is about. -/
structure Proc.Twin (P' P : Proc) : Prop where
  state : P'.state = P.state
  lock : P'.lock = P.lock
  call : P'.call = P.call
  sz : P'.sz = P.sz

namespace Links

variable {procs procs' : Fin NPROC → Proc} {p c : Fin NPROC}

lemma child_ne_live {P : Proc} {st} (ch : P.child = some (c, st)) : st ≠ .live := by
  rintro rfl
  obtain ⟨⟨k, prog⟩, -, ch⟩ := Option.bind_eq_some_iff.1 ch
  cases k <;> simp [Call.child] at ch

lemma idle (l : Links procs) (nl : (procs c).state ≠ .live) : (procs c).call = none := by
  by_contra ne
  exact nl (l.busy ne)

lemma alone (l : Links procs) (live : (procs p).state = .live)
    (same : ∀ q, q ≠ p → (procs' q).Twin (procs q)) (lk : (procs' p).lock = (procs p).lock)
    (ch : (procs' p).child = (procs p).child)
    (st : (procs' p).state = .live ∨ (procs' p).state = .zombie ∧ (procs' p).call = none) :
    Links procs' := by
  have child : ∀ q, (procs' q).child = (procs q).child := by
    intro q
    by_cases qp : q = p
    · rw [qp, ch]
    · rw [Proc.child, (same q qp).call, Proc.child]
  have lock : ∀ q, (procs' q).lock = (procs q).lock := by
    intro q
    by_cases qp : q = p
    · rw [qp, lk]
    · exact (same q qp).lock
  constructor
  case busy =>
    intro q ne
    by_cases qp : q = p
    · subst qp
      obtain st | ⟨-, none⟩ := st
      · exact st
      · exact absurd none ne
    · rw [(same q qp).call] at ne
      rw [(same q qp).state]
      exact l.busy ne
  case lock =>
    intro q d
    rw [child, lock]
    exact l.lock
  case state =>
    intro q d st' ch'
    rw [child] at ch'
    have sd := l.state ch'
    have dp : d ≠ p := by
      rintro rfl
      exact child_ne_live ch' (sd.symm.trans live)
    rw [(same d dp).state, sd]
  case zero =>
    intro q z
    by_cases qp : q = p
    · subst qp
      obtain st | ⟨st, -⟩ := st <;> simp [st] at z
    · rw [(same q qp).state] at z
      rw [(same q qp).sz]
      exact l.zero z

lemma pair (l : Links procs) (live : (procs p).state = .live) (cl : (procs c).state ≠ .live)
    (lk : (procs c).lock = none ∨ (procs c).lock = some p)
    (only : ∀ d st, (procs p).child = some (d, st) → d = c)
    (same : ∀ q, q ≠ p → q ≠ c → (procs' q).Twin (procs q))
    (live' : (procs' p).state = .live) (lk' : (procs' p).lock = (procs p).lock)
    (idle' : (procs' c).call = none)
    (zero' : (procs' c).state = .unused ∨ (procs' c).state = .used → (procs' c).sz = 0)
    (new : ((procs' p).child = none ∧ (procs' c).lock = none) ∨
      ∃ st, (procs' p).child = some (c, st) ∧ (procs' c).state = st ∧ (procs' c).lock = some p) :
    Links procs' := by
  have cp : c ≠ p := by
    rintro rfl
    exact cl live
  have lock : ∀ d, d ≠ c → (procs' d).lock = (procs d).lock := by
    intro d dc
    by_cases dp : d = p
    · rw [dp, lk']
    · exact (same d dp dc).lock
  have mine : ∀ q, (procs' c).lock = some q → q = p := by
    intro q eq
    obtain ⟨-, none⟩ | ⟨st, -, -, some⟩ := new
    · simp [none] at eq
    · simpa [some] using eq.symm
  have childc : (procs' c).child = none := by simp [Proc.child, idle']
  have other : ∀ q d, d ≠ c → (procs d).lock = some q → q ≠ p ∧ q ≠ c := by
    intro q d dc eq
    obtain ⟨st, ch⟩ := l.lock.2 eq
    refine ⟨?_, ?_⟩
    · rintro rfl
      exact dc (only d st ch)
    · rintro rfl
      simp [Proc.child, l.idle cl] at ch
  -- a child of a third process is neither the process nor the slot
  have third : ∀ {q d st}, q ≠ p → q ≠ c → (procs' q).child = some (d, st) →
      (procs q).child = some (d, st) ∧ d ≠ c ∧ d ≠ p := by
    intro q d st qp qc ch
    rw [Proc.child, (same q qp qc).call] at ch
    refine ⟨ch, ?_, ?_⟩
    · rintro rfl
      obtain eq | eq := lk <;> simp [l.lock.1 ⟨st, ch⟩, qp] at eq
    · rintro rfl
      exact child_ne_live ch ((l.state ch).symm.trans live)
  constructor
  case busy =>
    intro q ne
    by_cases qp : q = p
    · rw [qp, live']
    by_cases qc : q = c
    · rw [qc, idle'] at ne
      exact absurd rfl ne
    rw [(same q qp qc).call] at ne
    rw [(same q qp qc).state]
    exact l.busy ne
  case lock =>
    intro q d
    constructor
    · rintro ⟨st, ch⟩
      by_cases qp : q = p
      · subst qp
        obtain ⟨none, -⟩ | ⟨st', some, -, lk⟩ := new
        · simp [none] at ch
        · obtain ⟨rfl, rfl⟩ : c = d ∧ st' = st := by simpa [some] using ch
          exact lk
      by_cases qc : q = c
      · rw [qc, childc] at ch
        cases ch
      obtain ⟨ch, dc, -⟩ := third qp qc ch
      rw [lock d dc]
      exact l.lock.1 ⟨st, ch⟩
    · intro eq
      by_cases dc : d = c
      · subst dc
        obtain rfl := mine q eq
        obtain ⟨-, none⟩ | ⟨st, some, -, -⟩ := new
        · simp [none] at eq
        · exact ⟨st, some⟩
      · rw [lock d dc] at eq
        obtain ⟨qp, qc⟩ := other q d dc eq
        obtain ⟨st, ch⟩ := l.lock.2 eq
        refine ⟨st, ?_⟩
        rw [Proc.child, (same q qp qc).call]
        exact ch
  case state =>
    intro q d st ch
    by_cases qp : q = p
    · subst qp
      obtain ⟨none, -⟩ | ⟨st', some, eq, -⟩ := new
      · simp [none] at ch
      · obtain ⟨rfl, rfl⟩ : c = d ∧ st' = st := by simpa [some] using ch
        exact eq
    by_cases qc : q = c
    · rw [qc, childc] at ch
      cases ch
    obtain ⟨ch, dc, dp⟩ := third qp qc ch
    rw [(same d dp dc).state, l.state ch]
  case zero =>
    intro q z
    by_cases qc : q = c
    · subst qc
      exact zero' z
    by_cases qp : q = p
    · subst qp
      simp [live'] at z
    rw [(same q qp qc).state] at z
    rw [(same q qp qc).sz]
    exact l.zero z

lemma set (l : Links procs) {P : Proc} (live : (procs p).state = .live)
    (lk : P.lock = (procs p).lock) (ch : P.child = (procs p).child)
    (st : P.state = .live ∨ P.state = .zombie ∧ P.call = none) : Links (Function.update procs p P) := by
  refine l.alone live (fun q qp => ?_) ?_ ?_ ?_
  · rw [Function.update_of_ne qp]
    exact ⟨rfl, rfl, rfl, rfl⟩
  all_goals rwa [Function.update_self]

lemma set_set (l : Links procs) {P C : Proc} (live : (procs p).state = .live)
    (cl : (procs c).state ≠ .live) (lk : (procs c).lock = none ∨ (procs c).lock = some p)
    (only : ∀ d st, (procs p).child = some (d, st) → d = c)
    (live' : P.state = .live) (lk' : P.lock = (procs p).lock) (idle' : C.call = none)
    (zero' : C.state = .unused ∨ C.state = .used → C.sz = 0)
    (new : (P.child = none ∧ C.lock = none) ∨
      ∃ st, P.child = some (c, st) ∧ C.state = st ∧ C.lock = some p) :
    Links (Function.update (Function.update procs p P) c C) := by
  have pc : p ≠ c := by
    rintro rfl
    exact cl live
  refine l.pair live cl lk only (fun q qp qc => ?_) ?_ ?_ ?_ ?_ ?_
  · rw [Function.update_of_ne qc, Function.update_of_ne qp]
    exact ⟨rfl, rfl, rfl, rfl⟩
  all_goals simpa only [Function.update_of_ne pc, Function.update_self]

/-- The child of a call in progress: its lock is held, and it has the state the call gave it. -/
lemma of_call {k prog d st} (l : Links procs) (call : (procs p).call = some (k, prog))
    (ch : k.child = some (d, st)) :
    (procs p).state = .live ∧ (procs d).state = st ∧ (procs d).lock = some p ∧
      ∀ d' st', (procs p).child = some (d', st') → d' = d := by
  have child : (procs p).child = some (d, st) := by rw [Proc.child, call, Option.bind_some, ch]
  refine ⟨l.busy (by simp [call]), l.state child, l.lock.1 ⟨st, child⟩, fun d' st' ch' => ?_⟩
  rw [child] at ch'
  cases ch'
  rfl

variable {s s' : Sys}

/-- Every step keeps the locks with the calls. -/
theorem step (l : Links s.procs) (st : Sys.Step s p s') : Links s'.procs := by
  have busy : ∀ {k prog}, (s.procs p).call = some (k, prog) → (s.procs p).state = .live :=
    fun call => l.busy (by simp [call])
  cases st with
  | store => exact l
  | trap => exact l
  | frame call ps =>
    exact l.set (busy call) rfl (by simp [Proc.child, call]) (.inl (busy call))
  | sbrk id | exec id | waitxNone id | pipe id _ _ | pipeFull id _ _ | dup id _ _ | exit id _ =>
    obtain ⟨live, -, -, idle⟩ := id
    exact l.set live rfl (by simp [Proc.child, Call.child, idle]) (.inl live)
  | sbrkRet call | execFail call | execRet call | timesRet call | pipeFullRet call
  | pipeFail call | pipeRet call | pipefreeRet call =>
    exact l.set (busy call) rfl (by simp [Proc.child, Call.child, call]) (.inl (busy call))
  | fork id un lk =>
    obtain ⟨live, -, -, idle⟩ := id
    refine l.set_set live (by simp [un]) (.inl lk) (by simp [Proc.child, idle]) live rfl ?_ ?_ ?_
    · exact l.idle (by simp [un])
    · exact fun _ => l.zero (.inl un)
    · exact .inr ⟨.used, rfl, rfl, rfl⟩
  | forkFail call =>
    obtain ⟨live, st, lk, only⟩ := l.of_call call rfl
    exact l.set_set live (by simp [st]) (.inr lk) only live rfl (l.idle (by simp [st])) (fun _ => rfl)
      (.inl ⟨rfl, rfl⟩)
  | forkRet call =>
    obtain ⟨live, st, lk, only⟩ := l.of_call call rfl
    exact l.set_set live (by simp [st]) (.inr lk) only live rfl (l.idle (by simp [st]))
      (by simp [Proc.forked]) (.inl ⟨rfl, rfl⟩)
  | wait id _ zo lk =>
    obtain ⟨live, -, -, idle⟩ := id
    refine l.set_set live (by simp [zo]) (.inl lk) (by simp [Proc.child, idle]) live rfl ?_ ?_ ?_
    · exact l.idle (by simp [zo])
    · simp [zo]
    · exact .inr ⟨.zombie, rfl, zo, rfl⟩
  | @waitRet _ freed call | @waitxRet _ freed _ call =>
    obtain ⟨live, st, lk, only⟩ := l.of_call call rfl
    refine l.set_set live (by simp [st]) (.inr lk) only live rfl ?_ ?_ ?_
    · cases freed <;> exact l.idle (by simp [st])
    · cases freed
      · simp [st]
      · exact fun _ => rfl
    · cases freed <;> exact .inl ⟨rfl, rfl⟩
  | close live _ idle _ _ => exact l.set live rfl (by simp [Proc.child]) (.inl live)
  | pipeclose live idle _ _ _ | pipefree live idle _ _ _ =>
    exact l.set live rfl (by simp [Proc.child, Call.child, idle]) (.inl live)
  | zombie live _ _ idle _ =>
    refine l.alone live (fun q qp => ?_) rfl rfl (.inr ⟨by simp, idle⟩)
    constructor <;> simp [qp]

end Links

/-! ### Descriptors, files and pipes -/

lemma sum_sole {n} {g : Fin n → Nat} {i} (one : ∑ j, g j = 1) (gi : g i ≠ 0) :
    g i = 1 ∧ ∀ j, j ≠ i → g j = 0 := by
  have eq := Fin.sum_update g i 0
  refine ⟨by omega, fun j ji => ?_⟩
  have le : Function.update g i 0 j ≤ ∑ j, Function.update g i 0 j :=
    Finset.single_le_sum (fun _ _ => Nat.zero_le _) (Finset.mem_univ j)
  rw [Function.update_of_ne ji] at le
  omega

lemma dups_update (ofile fd v f) :
    dups (Function.update ofile fd v) f + (if ofile fd = some f then 1 else 0) =
      dups ofile f + if v = some f then 1 else 0 :=
  Fin.sum_comp_update (fun F => if F = some f then 1 else 0) ofile fd v

lemma dups_set {ofile fd} (new : ofile fd = none) (f g) :
    dups (Function.update ofile fd (some f)) g = dups ofile g + if g = f then 1 else 0 := by
  have eq := dups_update ofile fd (some f) g
  simpa [new, eq_comm (a := f)] using eq

lemma dups_clear {ofile fd f} (get : ofile fd = some f) (g) :
    dups (Function.update ofile fd none) g + (if g = f then 1 else 0) = dups ofile g := by
  have eq := dups_update ofile fd none g
  simpa [get, eq_comm (a := f)] using eq

lemma dups_ne_zero {ofile fd f} (get : ofile fd = some f) : dups ofile f ≠ 0 := by
  have eq := dups_clear get f
  rw [if_pos rfl] at eq
  omega

attribute [local irreducible] dups

/-- Each open end of a pipe has exactly one holder, and a pipe has an open end. -/
structure Ends {κ} (pipes : Nat → Option Pipe) (holds : κ → Option (Nat × Bool)) : Prop where
  held : ∀ {pi w}, (∃ st, pipes pi = some st ∧ st.isOpen w = true) ↔ ∃ k, holds k = some (pi, w)
  once : ∀ {k k' e}, holds k = some e → holds k' = some e → k = k'
  opened : ∀ {pi st}, pipes pi = some st → st.readopen = true ∨ st.writeopen = true

namespace Ends

variable {κ : Type} [DecidableEq κ] {pipes : Nat → Option Pipe} {holds : κ → Option (Nat × Bool)} {k k' : κ}

lemma move (es : Ends pipes holds) (free : holds k' = none) :
    Ends pipes (Function.update (Function.update holds k none) k' (holds k)) := by
  -- who has the end afterwards, and who had it before
  have iff : ∀ {j e}, Function.update (Function.update holds k none) k' (holds k) j = some e ↔
      (j = k' ∧ holds k = some e) ∨ (j ≠ k' ∧ j ≠ k ∧ holds j = some e) := by
    intro j e
    by_cases jk' : j = k'
    · simp [jk']
    by_cases jk : j = k
    · subst jk
      simp [jk']
    · simp [jk', jk]
  constructor
  case held =>
    intro pi w
    rw [es.held]
    constructor
    · rintro ⟨j, get⟩
      by_cases jk : j = k
      · exact ⟨k', iff.2 (.inl ⟨rfl, jk ▸ get⟩)⟩
      · refine ⟨j, iff.2 (.inr ⟨?_, jk, get⟩)⟩
        rintro rfl
        simp [free] at get
    · rintro ⟨j, get⟩
      obtain ⟨-, get⟩ | ⟨-, -, get⟩ := iff.1 get
      · exact ⟨k, get⟩
      · exact ⟨j, get⟩
  case once =>
    intro j j' e get get'
    obtain ⟨eq, hk⟩ | ⟨-, jk, hj⟩ := iff.1 get
    · obtain ⟨eq', -⟩ | ⟨-, jk', hj'⟩ := iff.1 get'
      · rw [eq, eq']
      · exact absurd (es.once hj' hk) jk'
    · obtain ⟨-, hk⟩ | ⟨-, -, hj'⟩ := iff.1 get'
      · exact absurd (es.once hj hk) jk
      · exact es.once hj hj'
  case opened => exact es.opened

lemma close {pi w st} {new : Option Pipe} (es : Ends pipes holds) (get : holds k = some (pi, w))
    (is : pipes pi = some st)
    (rest : ∀ w', (∃ st', new = some st' ∧ st'.isOpen w' = true) ↔ w' ≠ w ∧ st.isOpen w' = true)
    (opened : ∀ st', new = some st' → st'.readopen = true ∨ st'.writeopen = true) :
    Ends (Function.update pipes pi new) (Function.update holds k none) := by
  have iff : ∀ {j e}, Function.update holds k none j = some e ↔ j ≠ k ∧ holds j = some e := by
    intro j e
    by_cases jk : j = k
    · simp [jk]
    · simp [jk]
  constructor
  case held =>
    intro pi' w'
    by_cases pp : pi' = pi
    · subst pp
      rw [Function.update_self, rest w']
      constructor
      · rintro ⟨ne, op⟩
        obtain ⟨j, hj⟩ := es.held.1 ⟨st, is, op⟩
        refine ⟨j, iff.2 ⟨?_, hj⟩⟩
        rintro rfl
        simp [get, ne.symm] at hj
      · rintro ⟨j, hj⟩
        obtain ⟨jk, hj⟩ := iff.1 hj
        obtain ⟨st', is', op⟩ := es.held.2 ⟨j, hj⟩
        obtain rfl : st = st' := by simpa [is] using is'
        refine ⟨?_, op⟩
        rintro rfl
        exact jk (es.once hj get)
    · rw [Function.update_of_ne pp, es.held]
      refine exists_congr fun j => ?_
      rw [iff, iff_and_self]
      rintro hj rfl
      simp [get, Ne.symm pp] at hj
  case once =>
    intro j j' e hj hj'
    exact es.once (iff.1 hj).2 (iff.1 hj').2
  case opened =>
    intro pi' st' is'
    by_cases pp : pi' = pi
    · subst pp
      rw [Function.update_self] at is'
      exact opened st' is'
    · rw [Function.update_of_ne pp] at is'
      exact es.opened is'

lemma create {pi} (es : Ends pipes holds) (new : pipes pi = none) (hk : holds k = none)
    (hk' : holds k' = none) (ne : k ≠ k') :
    Ends (Function.update pipes pi (some ⟨true, true⟩))
      (Function.update (Function.update holds k (some (pi, false))) k' (some (pi, true))) := by
  have iff : ∀ {j e}, Function.update (Function.update holds k (some (pi, false))) k'
      (some (pi, true)) j = some e ↔
      (j = k ∧ e = (pi, false)) ∨ (j = k' ∧ e = (pi, true)) ∨ holds j = some e := by
    intro j e
    by_cases jk' : j = k'
    · subst jk'
      simp [hk', ne.symm, eq_comm]
    by_cases jk : j = k
    · subst jk
      simp [hk, jk', eq_comm]
    · simp [jk', jk]
  have fresh : ∀ {j w}, holds j ≠ some (pi, w) := by
    intro j w hj
    obtain ⟨st, is, -⟩ := es.held.2 ⟨j, hj⟩
    simp [new] at is
  constructor
  case held =>
    intro pi' w'
    by_cases pp : pi' = pi
    · subst pp
      rw [Function.update_self]
      refine ⟨fun _ => ?_, fun _ => ⟨⟨true, true⟩, rfl, by cases w' <;> rfl⟩⟩
      cases w' with
      | false => exact ⟨k, iff.2 (.inl ⟨rfl, rfl⟩)⟩
      | true => exact ⟨k', iff.2 (.inr (.inl ⟨rfl, rfl⟩))⟩
    · rw [Function.update_of_ne pp, es.held]
      refine exists_congr fun j => ?_
      rw [iff]
      simp [pp]
  case once =>
    intro j j' e hj hj'
    obtain ⟨rfl, rfl⟩ | ⟨rfl, rfl⟩ | hj := iff.1 hj
    · obtain ⟨rfl, -⟩ | ⟨-, eq⟩ | hj' := iff.1 hj'
      · rfl
      · simp at eq
      · exact absurd hj' fresh
    · obtain ⟨-, eq⟩ | ⟨rfl, -⟩ | hj' := iff.1 hj'
      · simp at eq
      · rfl
      · exact absurd hj' fresh
    · obtain ⟨-, rfl⟩ | ⟨-, rfl⟩ | hj' := iff.1 hj'
      · exact absurd hj fresh
      · exact absurd hj fresh
      · exact es.once hj hj'
  case opened =>
    intro pi' st' is'
    by_cases pp : pi' = pi
    · subst pp
      rw [Function.update_self] at is'
      cases is'
      exact .inl rfl
    · rw [Function.update_of_ne pp] at is'
      exact es.opened is'

end Ends

/-- What a file or a process that is closing one holds: an end of a pipe. -/
def Sys.holds (s : Sys) : Fin NFILE ⊕ Fin NPROC → Option (Nat × Bool) :=
  Sum.elim (fun f => (s.files f).pipe) fun p => (s.procs p).closing

/-- Descriptors, files and pipes agree. -/
structure Files (s : Sys) : Prop where
  count : ∀ f, (s.files f).ref = ∑ p, dups (s.procs p).ofile f
  unused : ∀ {f}, (s.files f).ref = 0 → (s.files f).pipe = none
  shut : ∀ {p}, (s.procs p).state ≠ .live →
    (∀ fd, (s.procs p).ofile fd = none) ∧ (s.procs p).closing = none
  making : ∀ {p fd0 fd1 prog}, (s.procs p).call = some (.pipe (some (fd0, fd1)), prog) →
    ∃ rf wf, (s.procs p).ofile fd0 = some rf ∧ (s.procs p).ofile fd1 = some wf ∧ rf ≠ wf ∧
      s.files rf = ⟨1, none⟩ ∧ s.files wf = ⟨1, none⟩
  ends : Ends s.pipes s.holds

namespace Files

variable {s s' : Sys} {p : Fin NPROC}

lemma sole {fd f} (fs : Files s) (one : (s.files f).ref = 1) (get : (s.procs p).ofile fd = some f) :
    (∀ q, q ≠ p → dups (s.procs q).ofile f = 0) ∧ dups (s.procs p).ofile f = 1 := by
  rw [fs.count] at one
  obtain ⟨mine, others⟩ := sum_sole (i := p) one (dups_ne_zero get)
  exact ⟨others, mine⟩

lemma making_ne {q fd f rf} (fs : Files s) (qp : q ≠ p) (get : (s.procs p).ofile fd = some f)
    {fd' : Fin NOFILE} (mk : (s.procs q).ofile fd' = some rf) (one : s.files rf = ⟨1, none⟩) : rf ≠ f := by
  rintro rfl
  obtain ⟨others, -⟩ := fs.sole (by rw [one]) get
  exact dups_ne_zero mk (others q qp)

/-- The slots agree in what `Files` is about. -/
structure Keeps (P' P : Proc) : Prop where
  ofile : P'.ofile = P.ofile
  closing : P'.closing = P.closing
  shut : P'.state ≠ .live → (∀ fd, P.ofile fd = none) ∧ P.closing = none
  making : ∀ {fds prog'}, P'.call = some (.pipe (some fds), prog') →
    ∃ prog, P.call = some (.pipe (some fds), prog)

lemma refl (fs : Files s) {q} : Keeps (s.procs q) (s.procs q) := ⟨rfl, rfl, fs.shut, fun call => ⟨_, call⟩⟩

lemma update {procs' : Fin NPROC → Proc} {P : Proc} (ks : ∀ q, Keeps (procs' q) (s.procs q))
    (k : Keeps P (s.procs p)) (q) : Keeps (Function.update procs' p P q) (s.procs q) := by
  by_cases qp : q = p
  · subst qp
    rwa [Function.update_self]
  · rw [Function.update_of_ne qp]
    exact ks q

lemma keep (fs : Files s) (files : s'.files = s.files) (pipes : s'.pipes = s.pipes)
    (procs : ∀ q, Keeps (s'.procs q) (s.procs q)) : Files s' := by
  have holds : s'.holds = s.holds := by
    funext k
    cases k with
    | inl f => simp only [Sys.holds, Sum.elim_inl, files]
    | inr q => simp only [Sys.holds, Sum.elim_inr, (procs q).closing]
  constructor
  case count =>
    intro f
    rw [files, fs.count]
    exact Finset.sum_congr rfl fun q _ => by rw [(procs q).ofile]
  case unused => exact fun z => files ▸ fs.unused (files ▸ z)
  case shut =>
    intro q nl
    rw [(procs q).ofile, (procs q).closing]
    exact (procs q).shut nl
  case making =>
    intro q fd0 fd1 prog call
    obtain ⟨prog', call'⟩ := (procs q).making call
    rw [files, (procs q).ofile]
    exact fs.making call'
  case ends =>
    rw [holds, pipes]
    exact fs.ends

lemma change {P : Proc} (fs : Files s) (procs : s'.procs = Function.update s.procs p P)
    (live : P.state = .live)
    (count : ∀ f, (s'.files f).ref + dups (s.procs p).ofile f = (s.files f).ref + dups P.ofile f)
    (unused : ∀ f, (s'.files f).ref = 0 → (s'.files f).pipe = none)
    (others : ∀ q fd rf, q ≠ p → (s.procs q).call ≠ none → (s.procs q).ofile fd = some rf →
      s.files rf = ⟨1, none⟩ → s'.files rf = ⟨1, none⟩)
    (making : ∀ {fd0 fd1 prog}, P.call = some (.pipe (some (fd0, fd1)), prog) →
      ∃ rf wf, P.ofile fd0 = some rf ∧ P.ofile fd1 = some wf ∧ rf ≠ wf ∧
        s'.files rf = ⟨1, none⟩ ∧ s'.files wf = ⟨1, none⟩)
    {holds : Fin NFILE ⊕ Fin NPROC → Option (Nat × Bool)} (ends : Ends s'.pipes holds)
    (hf : ∀ f, (s'.files f).pipe = holds (.inl f))
    (hp : P.closing = holds (.inr p)) (hq : ∀ q, q ≠ p → s.holds (.inr q) = holds (.inr q)) :
    Files s' := by
  constructor
  case count =>
    intro f
    have sum := Fin.sum_update (fun q => dups (s.procs q).ofile f) p (dups P.ofile f)
    have eq : ∀ q, Function.update (fun q => dups (s.procs q).ofile f) p (dups P.ofile f) q =
        dups (s'.procs q).ofile f := by
      intro q
      rw [procs]
      by_cases qp : q = p
      · subst qp
        simp
      · simp [qp]
    have cf := count f
    rw [Finset.sum_congr rfl fun q _ => eq q, ← fs.count] at sum
    omega
  case unused => exact unused _
  case shut =>
    intro q nl
    rw [procs] at nl ⊢
    by_cases qp : q = p
    · subst qp
      rw [Function.update_self] at nl
      exact absurd live nl
    · rw [Function.update_of_ne qp] at nl ⊢
      exact fs.shut nl
  case making =>
    intro q fd0 fd1 prog call
    rw [procs] at call ⊢
    by_cases qp : q = p
    · subst qp
      rw [Function.update_self] at call ⊢
      exact making call
    · rw [Function.update_of_ne qp] at call ⊢
      obtain ⟨rf, wf, get0, get1, ne, hr, hw⟩ := fs.making call
      have busy : (s.procs q).call ≠ none := by simp [call]
      exact ⟨rf, wf, get0, get1, ne, others q fd0 rf qp busy get0 hr, others q fd1 wf qp busy get1 hw⟩
  case ends =>
    have eq : s'.holds = holds := by
      funext k
      cases k with
      | inl f => exact hf f
      | inr q =>
        rw [Sys.holds, Sum.elim_inr, procs]
        by_cases qp : q = p
        · rw [qp, Function.update_self, hp]
        · rw [Function.update_of_ne qp]
          exact hq q qp
    rw [eq]
    exact ends

lemma fdalloc_none {ofile fd} (eq : fdalloc ofile = some fd) : ofile fd = none := by
  simpa using List.find?_some eq

lemma filealloc_zero {files f} (eq : filealloc files = some f) : (files f).ref = 0 := by
  simpa using List.find?_some eq

lemma dup {fd fd' f} (fs : Files s) (live : (s.procs p).state = .live) (idle : (s.procs p).call = none)
    (get : (s.procs p).ofile fd = some f) (new : (s.procs p).ofile fd' = none) :
    Files { s.set p { s.procs p with ofile := Function.update (s.procs p).ofile fd' (some f) } with
      files := Function.update s.files f (filedup (s.files f) 1) } := by
  refine fs.change (p := p) rfl live (fun g => ?_) (fun g z => ?_) (fun q fd'' rf qp _ get' one => ?_)
    (fun call => by simp [idle] at call) fs.ends (fun g => ?_) rfl fun _ _ => rfl
  · rw [dups_set new]
    by_cases gf : g = f
    · simp only [gf, Function.update_self, filedup, if_true]
      omega
    · simp only [Function.update_of_ne gf, if_neg gf, Nat.add_zero]
  · by_cases gf : g = f
    · simp [gf, filedup] at z
    · simp only [Function.update_of_ne gf] at z ⊢
      exact fs.unused z
  · simp only [Function.update_of_ne (fs.making_ne qp get get' one), one]
  · by_cases gf : g = f
    · simp [gf, filedup, Sys.holds]
    · simp [gf, Sys.holds]

lemma fileclose_eq {f f' cl} (eq : fileclose f = some (f', cl)) :
    (1 < f.ref ∧ f' = { f with ref := f.ref - 1 } ∧ cl = none) ∨ (f.ref = 1 ∧ f' = ⟨0, none⟩ ∧ cl = f.pipe) := by
  rw [fileclose] at eq
  split at eq
  · cases eq
  · split at eq
    · cases eq
      exact .inl ⟨by omega, rfl, rfl⟩
    · cases eq
      exact .inr ⟨by omega, rfl, rfl⟩

lemma close {fd f f' cl} (fs : Files s) (live : (s.procs p).state = .live)
    (idle : (s.procs p).call = none) (nc : (s.procs p).closing = none)
    (get : (s.procs p).ofile fd = some f) (eq : fileclose (s.files f) = some (f', cl)) :
    Files { s.set p { s.procs p with
        ofile := Function.update (s.procs p).ofile fd none
        closing := cl } with
      files := Function.update s.files f f' } := by
  have count : ∀ g, f'.ref + 1 = (s.files f).ref → (Function.update s.files f f' g).ref +
      dups (s.procs p).ofile g = (s.files g).ref + dups (Function.update (s.procs p).ofile fd none) g := by
    intro g less
    rw [← dups_clear get g]
    by_cases gf : g = f
    · rw [gf, Function.update_self, if_pos rfl]
      omega
    · rw [Function.update_of_ne gf, if_neg gf, Nat.add_zero]
  have unused : ∀ g, (f'.ref = 0 → f'.pipe = none) → (Function.update s.files f f' g).ref = 0 →
      (Function.update s.files f f' g).pipe = none := by
    intro g un z
    by_cases gf : g = f
    · rw [gf, Function.update_self] at z ⊢
      exact un z
    · rw [Function.update_of_ne gf] at z ⊢
      exact fs.unused z
  have others : ∀ q fd' rf, q ≠ p → (s.procs q).call ≠ none → (s.procs q).ofile fd' = some rf →
      s.files rf = ⟨1, none⟩ → Function.update s.files f f' rf = ⟨1, none⟩ := by
    intro q fd' rf qp _ get' one
    rw [Function.update_of_ne (fs.making_ne qp get get' one), one]
  obtain ⟨ge, rfl, rfl⟩ | ⟨one, rfl, rfl⟩ := fileclose_eq eq
  · refine fs.change (p := p) rfl live (fun g => count g (Nat.sub_add_cancel (by omega)))
      (fun g => unused g fun z => absurd z (by dsimp only; omega)) others
      (fun call => by simp [idle] at call) fs.ends (fun g => ?_) nc.symm fun _ _ => rfl
    by_cases gf : g = f
    · simp [gf, Sys.holds]
    · simp [gf, Sys.holds]
  · refine fs.change (p := p) rfl live (fun g => count g one.symm) (fun g => unused g fun _ => rfl) others
      (fun call => by simp [idle] at call) (fs.ends.move (k := .inl f) (show s.holds (.inr p) = none from nc))
      (fun g => ?_) ?_ fun q qp => ?_
    · by_cases gf : g = f
      · simp [gf]
      · rw [Function.update_of_ne Sum.inl_ne_inr, Function.update_of_ne (by simp [gf])]
        simp [gf, Sys.holds]
    · rw [Function.update_self]
      rfl
    · rw [Function.update_of_ne (by simp [qp]), Function.update_of_ne Sum.inr_ne_inl]

lemma pipeclose {pi w st call new} (fs : Files s) (live : (s.procs p).state = .live)
    (nc : ∀ fds prog, call ≠ some (.pipe (some fds), prog))
    (get : (s.procs p).closing = some (pi, w)) (is : s.pipes pi = some st)
    (rest : ∀ w', (∃ st', new = some st' ∧ st'.isOpen w' = true) ↔ w' ≠ w ∧ st.isOpen w' = true)
    (opened : ∀ st', new = some st' → st'.readopen = true ∨ st'.writeopen = true) :
    Files { s.set p { s.procs p with closing := none, call := call } with
      pipes := Function.update s.pipes pi new } := by
  refine fs.change (p := p) rfl live (fun g => rfl) (fun g z => fs.unused z) (fun _ _ _ _ _ _ one => one)
    (fun eq => absurd eq (nc _ _)) (fs.ends.close (show s.holds (.inr p) = _ from get) is rest opened) (fun f => ?_) ?_
    fun q qp => ?_
  · rw [Function.update_of_ne Sum.inl_ne_inr]
    rfl
  · rw [Function.update_self]
  · rw [Function.update_of_ne (by simp [qp])]

lemma pipe {rf wf fd0 fd1 prog} (fs : Files s) (live : (s.procs p).state = .live)
    (files : pipeFiles s.files = some (rf, wf)) (fds : pipeFds (s.procs p).ofile rf = some (fd0, fd1)) :
    Files { s.set p { s.procs p with
        ofile := Function.update (Function.update (s.procs p).ofile fd0 (some rf)) fd1 (some wf)
        call := some (.pipe (some (fd0, fd1)), prog) } with
      files := Function.update (Function.update s.files rf (filedup (s.files rf) 1)) wf
        (filedup (s.files wf) 1) } := by
  obtain ⟨hr, hw, ne⟩ : s.files rf = ⟨0, none⟩ ∧ s.files wf = ⟨0, none⟩ ∧ wf ≠ rf := by
    obtain ⟨rf', ar, rest⟩ := Option.bind_eq_some_iff.1 files
    obtain ⟨wf', aw, eq⟩ := Option.bind_eq_some_iff.1 rest
    cases eq
    have zr := filealloc_zero ar
    have zw := filealloc_zero aw
    have ne : wf ≠ rf := by
      rintro rfl
      simp [filedup] at zw
    rw [Function.update_of_ne ne] at zw
    exact ⟨congrArg₂ File.mk zr (fs.unused zr), congrArg₂ File.mk zw (fs.unused zw), ne⟩
  obtain ⟨n0, n1⟩ : (s.procs p).ofile fd0 = none ∧
      Function.update (s.procs p).ofile fd0 (some rf) fd1 = none := by
    obtain ⟨fd0', a0, rest⟩ := Option.bind_eq_some_iff.1 fds
    obtain ⟨fd1', a1, eq⟩ := Option.bind_eq_some_iff.1 rest
    cases eq
    exact ⟨fdalloc_none a0, fdalloc_none a1⟩
  have new : ∀ f, Function.update (Function.update s.files rf (filedup (s.files rf) 1)) wf
      (filedup (s.files wf) 1) f = if f = rf ∨ f = wf then ⟨1, none⟩ else s.files f := by
    intro f
    by_cases fw : f = wf
    · simp [fw, hw, filedup]
    by_cases fr : f = rf
    · simp [fr, ne.symm, hr, filedup]
    · simp [fw, fr]
  have fd : fd0 ≠ fd1 := by
    rintro rfl
    simp at n1
  refine fs.change (p := p) rfl live (fun f => ?_) (fun f z => ?_) (fun q fd f qp _ get one => ?_)
    (fun call => ?_) fs.ends (fun f => ?_) rfl fun _ _ => rfl
  · simp only [new, dups_set n1, dups_set n0]
    by_cases fr : f = rf
    · simp only [fr, hr, true_or, if_true, if_neg ne.symm]
      omega
    by_cases fw : f = wf
    · simp only [fw, hw, or_true, if_true, if_neg ne]
      omega
    · simp [fr, fw]
  · simp only [new] at z ⊢
    split
    · rfl
    · rename_i no
      rw [if_neg no] at z
      exact fs.unused z
  · simp only [new]
    split
    · rfl
    · exact one
  · simp only [Option.some.injEq, Prod.mk.injEq, Call.pipe.injEq] at call
    obtain ⟨⟨rfl, rfl⟩, -⟩ := call
    refine ⟨rf, wf, ?_, Function.update_self .., ne.symm, ?_, ?_⟩
    · exact (Function.update_of_ne fd ..).trans (Function.update_self ..)
    · simp only [new, true_or, if_true]
    · simp only [new, or_true, if_true]
  · simp only [new]
    split
    · rename_i eq
      obtain rfl | rfl := eq <;> simp [Sys.holds, hr, hw]
    · rfl

lemma pipeFail {fd0 fd1 rf wf rf' wf' prog} (fs : Files s) (live : (s.procs p).state = .live)
    (call : (s.procs p).call = some (.pipe (some (fd0, fd1)), prog))
    (get0 : (s.procs p).ofile fd0 = some rf) (get1 : (s.procs p).ofile fd1 = some wf)
    (close0 : fileclose (s.files rf) = some (rf', none))
    (close1 : fileclose (s.files wf) = some (wf', none)) :
    Files { s.set p { s.procs p with
        ofile := Function.update (Function.update (s.procs p).ofile fd0 none) fd1 none
        call := none } with
      files := Function.update (Function.update s.files rf rf') wf wf' } := by
  obtain ⟨rf₁, wf₁, get0', get1', ne, hr, hw⟩ := fs.making call
  obtain rfl : rf₁ = rf := by simpa [get0] using get0'.symm
  obtain rfl : wf₁ = wf := by simpa [get1] using get1'.symm
  obtain rfl : rf' = ⟨0, none⟩ := by
    obtain ⟨gt, -⟩ | ⟨-, eq, -⟩ := fileclose_eq close0
    · simp [hr] at gt
    · exact eq
  obtain rfl : wf' = ⟨0, none⟩ := by
    obtain ⟨gt, -⟩ | ⟨-, eq, -⟩ := fileclose_eq close1
    · simp [hw] at gt
    · exact eq
  have new : ∀ f, Function.update (Function.update s.files rf₁ ⟨0, none⟩) wf₁ ⟨0, none⟩ f =
      if f = rf₁ ∨ f = wf₁ then ⟨0, none⟩ else s.files f := by
    intro f
    by_cases fw : f = wf₁
    · simp [fw]
    by_cases fr : f = rf₁
    · simp [fr, ne]
    · simp [fw, fr]
  have get1'' : Function.update (s.procs p).ofile fd0 none fd1 = some wf₁ := by
    rw [Function.update_of_ne, get1]
    rintro rfl
    exact ne (Option.some.inj (get0.symm.trans get1))
  refine fs.change (p := p) rfl live (fun f => ?_) (fun f z => ?_) (fun q fd f qp _ get one => ?_)
    nofun fs.ends (fun f => ?_) rfl fun _ _ => rfl
  · have e0 := dups_clear get0 f
    have e1 := dups_clear get1'' f
    simp only [new]
    by_cases fr : f = rf₁
    · simp only [fr, if_true, if_neg ne, hr, true_or] at e0 e1 ⊢
      omega
    by_cases fw : f = wf₁
    · simp only [fw, if_true, if_neg ne.symm, hw, or_true] at e0 e1 ⊢
      omega
    · simp only [fr, fw, if_false, or_self] at e0 e1 ⊢
      omega
  · simp only [new] at z ⊢
    split
    · rfl
    · rename_i no
      rw [if_neg no] at z
      exact fs.unused z
  · simp only [new]
    rw [if_neg, one]
    rintro (rfl | rfl)
    · exact fs.making_ne qp get0 get one rfl
    · exact fs.making_ne qp get1 get one rfl
  · simp only [new]
    split
    · rename_i eq
      obtain rfl | rfl := eq <;> simp [Sys.holds, hr, hw]
    · rfl

lemma pipeRet {fd0 fd1 rf wf pi prog} (fs : Files s) (live : (s.procs p).state = .live)
    (call : (s.procs p).call = some (.pipe (some (fd0, fd1)), prog))
    (get0 : (s.procs p).ofile fd0 = some rf) (get1 : (s.procs p).ofile fd1 = some wf)
    (fresh : s.pipes pi = none) :
    Files { s.set p { s.procs p with call := none } with
      files := Function.update (Function.update s.files rf { s.files rf with pipe := some (pi, false) }) wf
        { s.files wf with pipe := some (pi, true) }
      pipes := Function.update s.pipes pi (some ⟨true, true⟩) } := by
  obtain ⟨rf₁, wf₁, get0', get1', ne, hr, hw⟩ := fs.making call
  obtain rfl : rf₁ = rf := by simpa [get0] using get0'.symm
  obtain rfl : wf₁ = wf := by simpa [get1] using get1'.symm
  have hold0 : s.holds (.inl rf₁) = none := by simp [Sys.holds, hr]
  have hold1 : s.holds (.inl wf₁) = none := by simp [Sys.holds, hw]
  refine fs.change (p := p) rfl live (fun f => ?_) (fun f z => ?_) (fun q fd f qp _ get one => ?_)
    nofun (fs.ends.create fresh hold0 hold1 (by simp [ne])) (fun f => ?_) ?_ fun q qp => ?_
  · by_cases fw : f = wf₁
    · simp [fw]
    by_cases fr : f = rf₁
    · simp [fr, ne]
    · simp [fw, fr]
  · by_cases fw : f = wf₁
    · simp [fw, hw] at z
    by_cases fr : f = rf₁
    · simp [fr, ne, hr] at z
    · simp only [Function.update_of_ne fw, Function.update_of_ne fr] at z ⊢
      exact fs.unused z
  · simp only [Function.update_of_ne (fs.making_ne qp get1 get one),
      Function.update_of_ne (fs.making_ne qp get0 get one), one]
  · by_cases fw : f = wf₁
    · simp [fw]
    by_cases fr : f = rf₁
    · simp [fr, ne]
    · rw [Function.update_of_ne (by simp [fw]), Function.update_of_ne (by simp [fr])]
      simp only [Function.update_of_ne fw, Function.update_of_ne fr]
      rfl
  · rw [Function.update_of_ne Sum.inr_ne_inl, Function.update_of_ne Sum.inr_ne_inl]
    rfl
  · rw [Function.update_of_ne Sum.inr_ne_inl, Function.update_of_ne Sum.inr_ne_inl]

lemma forkRet {c tf pt prog} (fs : Files s) (l : Links s.procs)
    (call : (s.procs p).call = some (.fork c, prog)) :
    Files { (s.set p { s.procs p with call := none }).set c ((s.procs c).forked (s.procs p) p tf pt) with
      files := fun f => filedup (s.files f) (dups (s.procs p).ofile f) } := by
  obtain ⟨live, used, -, -⟩ := l.of_call call rfl
  have cp : c ≠ p := by
    rintro rfl
    simp [live] at used
  obtain ⟨nofile, nc⟩ := fs.shut (p := c) (by simp [used])
  -- first the parent leaves the call, then the child gets its descriptors
  have fs₁ : Files (s.set p { s.procs p with call := none }) :=
    fs.keep rfl rfl (update (fun q => fs.refl) ⟨rfl, rfl, fun nl => absurd live nl, nofun⟩)
  have same : (s.set p { s.procs p with call := none }).procs c = s.procs c := Sys.set_ne cp
  have child : ((s.procs c).forked (s.procs p) p tf pt).ofile = (s.procs p).ofile := by
    funext fd
    simp [Proc.forked, nofile fd]
  have zero : ∀ f, dups (s.procs c).ofile f = 0 := fun f => by simp [dups, nofile]
  refine fs₁.change (p := c) rfl rfl (fun f => ?_) (fun f z => ?_) (fun q fd f qc busy get one => ?_)
    (fun eq => ?_) fs₁.ends (fun f => rfl) ?_ fun _ _ => rfl
  · rw [same, zero, child]
    rfl
  · exact fs.unused (Nat.eq_zero_of_add_eq_zero_right z)
  · have qp : q ≠ p := by
      rintro rfl
      simp at busy
    rw [Sys.set_ne qp] at get
    have none : dups (s.procs p).ofile f = 0 := (fs.sole (by rw [show s.files f = _ from one]) get).1 p qp.symm
    simp only [filedup, none]
    exact one
  · have idle := l.idle (c := c) (by simp [used])
    simp [Proc.forked, idle] at eq
  · rw [Sys.holds, Sum.elim_inr, same]
    rfl

/-- Every step keeps descriptors, files and pipes in agreement; a new pipe is in a page that has none. -/
theorem step (fs : Files s) (l : Links s.procs)
    (fresh : ∀ fds pi, (s.procs p).call = some (.pipe fds, pure (.pipe (some pi))) → s.pipes pi = none)
    (st : Sys.Step s p s') : Files s' := by
  have busy : ∀ {k prog}, (s.procs p).call = some (k, prog) → (s.procs p).state = .live :=
    fun call => l.busy (by simp [call])
  have old : ∀ q, Keeps (s.procs q) (s.procs q) := fun q => fs.refl
  have child : ∀ {c C}, (s.procs c).state ≠ .live → C.ofile = (s.procs c).ofile →
      C.closing = (s.procs c).closing → C.call = (s.procs c).call → Keeps C (s.procs c) :=
    fun nl ofile closing call => ⟨ofile, closing, fun _ => fs.shut nl, fun eq => ⟨_, call ▸ eq⟩⟩
  cases st with
  | store | trap => exact fs.keep rfl rfl old
  | frame call _ =>
    refine fs.keep rfl rfl (update old ⟨rfl, rfl, fun nl => absurd (busy call) nl, fun eq => ?_⟩)
    simp only [Option.some.injEq, Prod.mk.injEq] at eq
    exact ⟨_, eq.1 ▸ call⟩
  | sbrk id | exec id | waitxNone id | pipeFull id _ _ | exit id _ =>
    obtain ⟨live, -, -, idle⟩ := id
    refine fs.keep rfl rfl (update old ⟨rfl, rfl, fun nl => absurd live nl, fun eq => ?_⟩)
    simp [idle] at eq
  | sbrkRet call | execFail call | execRet call | timesRet call | pipeFullRet call | pipefreeRet call =>
    exact fs.keep rfl rfl (update old ⟨rfl, rfl, fun nl => absurd (busy call) nl, nofun⟩)
  | fork id un _ =>
    obtain ⟨live, -, -, idle⟩ := id
    exact fs.keep rfl rfl (update (update old ⟨rfl, rfl, fun nl => absurd live nl, nofun⟩)
      (child (by simp [un]) rfl rfl rfl))
  | forkFail call =>
    obtain ⟨live, used, -, -⟩ := l.of_call call rfl
    exact fs.keep rfl rfl (update (update old ⟨rfl, rfl, fun nl => absurd live nl, nofun⟩)
      (child (by simp [used]) rfl rfl rfl))
  | forkRet call => exact fs.forkRet l call
  | wait id _ zo _ =>
    obtain ⟨live, -, -, idle⟩ := id
    exact fs.keep rfl rfl (update (update old ⟨rfl, rfl, fun nl => absurd live nl, nofun⟩)
      (child (by simp [zo]) rfl rfl rfl))
  | @waitRet _ freed call | @waitxRet _ freed _ call =>
    obtain ⟨live, zo, -, -⟩ := l.of_call call rfl
    refine fs.keep rfl rfl (update (update old ⟨rfl, rfl, fun nl => absurd live nl, nofun⟩) ?_)
    cases freed <;> exact child (by simp [zo]) rfl rfl rfl
  | pipe id files fds => exact fs.pipe id.1 files fds
  | pipeFail call get0 get1 close0 close1 => exact fs.pipeFail (busy call) call get0 get1 close0 close1
  | pipeRet call get0 get1 => exact fs.pipeRet (busy call) call get0 get1 (fresh _ _ call)
  | dup id get new => exact fs.dup id.1 id.2.2.2 get (fdalloc_none new)
  | close live nc idle get eq => exact fs.close live idle nc get eq
  | @pipeclose pi w st live idle get is op =>
    refine fs.pipeclose live (by simp [idle]) get is (fun w' => ?_) fun st' eq => ?_
    · cases w <;> cases w' <;> simp [Pipe.shut, Pipe.isOpen]
    · cases eq
      exact op
  | @pipefree pi w st live idle get is cl =>
    refine fs.pipeclose live (by simp) get is (fun w' => ?_) nofun
    cases w <;> cases w' <;> simp_all [Pipe.shut, Pipe.isOpen]
  | zombie live _ nc idle none =>
    refine fs.keep rfl rfl fun q => ⟨rfl, rfl, fun nl => ?_, fun call => ⟨_, call⟩⟩
    by_cases qp : q = p
    · exact qp ▸ ⟨none, nc⟩
    · exact fs.shut (by simpa [qp] using nl)

end Files

end Xv6
