import Xv6.Lib.Fallible
import Xv6.Lib.Program
import Xv6.Lib.Run
import Mathlib.Logic.Function.Basic

/-!
# Threads that share a state

A fixed number of threads run programs one after another. The instructions of a program act on a state that all
threads share, one at a time and in any order; an instruction that cannot be performed yet has no step. What a thread
holds while it runs a program is a value of a type `R`, of which the state knows nothing: a proof gives rules
for the instructions in terms of it, and an invariant of the state and of what the threads hold. If the two fit
(`Threads.Sound`), then in every state of a run each program satisfies its weakest precondition (`Sound.run`).
-/

namespace Threads

/-- The meaning of the instructions, the programs that a thread may start, and what else happens to the state, given
the threads that run no program. -/
structure Machine (I : Type → Type) (ι κ ε ρ : Type) where
  exec {β : Type} : ι → I β → Fallible κ ε β
  start : κ → ι → Program I ρ → Prop
  env : (ι → Prop) → κ → κ → Prop

/-- The state, and the rest of the program that each thread runs. -/
structure State (I : Type → Type) (ι κ ρ : Type) where
  shared : κ
  thread : ι → Option (Program I ρ)

/-- What happens. -/
inductive Event (ι ρ : Type) where
  | start (p : ι)
  | op (p : ι)
  | done (p : ι) (v : ρ)
  | env

section

variable {I : Type → Type} {ι κ ε ρ R : Type} [DecidableEq ι]

/-- A step of a thread, or something else. -/
inductive Step (M : Machine I ι κ ε ρ) (s : State I ι κ ρ) : Event ι ρ → State I ι κ ρ → Prop where
  | start {p m} :
    s.thread p = none →
    M.start s.shared p m →
    Step M s (.start p) ⟨s.shared, Function.update s.thread p (some m)⟩
  | op {p β k' b} {i : I β} {k : β → Program I ρ} :
    s.thread p = some (.op i k) →
    M.exec p i s.shared = .ok (b, k') →
    Step M s (.op p) ⟨k', Function.update s.thread p (some (k b))⟩
  | done {p v} :
    s.thread p = some (.pure v) →
    Step M s (.done p v) ⟨s.shared, Function.update s.thread p none⟩
  | env {k'} :
    M.env (fun p => s.thread p = none) s.shared k' →
    Step M s .env ⟨k', s.thread⟩

/-- The rules of the instructions are sound for an invariant `J` of the state and of what the threads hold, if they hold
`rest` at the end of a program. -/
structure Sound (M : Machine I ι κ ε ρ) (rule : Program.Rules I R) (rest : R → Prop)
    (J : κ → (ι → Option R) → Prop) : Prop where
  start : ∀ {k h p m}, J k h → h p = none → M.start k p m →
    ∃ r, m.wp rule (fun _ => rest) r ∧ J k (Function.update h p (some r))
  op : ∀ {k h p β k' b r} {i : I β} {Q : β → R → Prop}, J k h → h p = some r → rule i Q r →
    M.exec p i k = .ok (b, k') → ∃ r', Q b r' ∧ J k' (Function.update h p (some r'))
  done : ∀ {k h p r}, J k h → h p = some r → rest r → J k (Function.update h p none)
  env : ∀ {k h k'}, J k h → M.env (fun p => h p = none) k k' → J k' h

/-- A thread that runs a program holds what it needs, and the others hold nothing. -/
def Agree (rule : Program.Rules I R) (rest : R → Prop) : Option (Program I ρ) → Option R → Prop
  | none, none => True
  | some m, some r => m.wp rule (fun _ => rest) r
  | _, _ => False

variable {M : Machine I ι κ ε ρ} {rule : Program.Rules I R} {rest : R → Prop} {J : κ → (ι → Option R) → Prop}
  {s s' : State I ι κ ρ} {h : ι → Option R} {p : ι}

/-- The invariant holds, and every thread holds what its program needs. -/
def Proved (rule : Program.Rules I R) (rest : R → Prop) (J : κ → (ι → Option R) → Prop) (s : State I ι κ ρ) : Prop :=
  ∃ h, J s.shared h ∧ ∀ p, Agree rule rest (s.thread p) (h p)

lemma Agree.none_iff {t : Option (Program I ρ)} {r : Option R} (a : Agree rule rest t r) : t = none ↔ r = none := by
  cases t <;> cases r <;> simp_all [Agree]

lemma Agree.some {m : Program I ρ} {r : Option R} (a : Agree rule rest (.some m) r) :
    ∃ r', r = .some r' ∧ m.wp rule (fun _ => rest) r' := by
  cases r with
  | none => exact a.elim
  | some r => exact ⟨r, rfl, a⟩

lemma Agree.update {t : ι → Option (Program I ρ)} {m : Option (Program I ρ)} {r : Option R}
    (agree : ∀ p, Agree rule rest (t p) (h p)) (self : Agree rule rest m r) (q : ι) :
    Agree rule rest (Function.update t p m q) (Function.update h p r q) := by
  by_cases eq : q = p
  · subst eq
    simpa using self
  · simpa [eq] using agree q

lemma Sound.step (S : Sound M rule rest J) {e} (proved : Proved rule rest J s) (st : Step M s e s') :
    Proved rule rest J s' := by
  obtain ⟨h, inv, agree⟩ := proved
  cases st with
  | @start p m idle start =>
    obtain ⟨r, wp, inv'⟩ := S.start inv ((agree p).none_iff.mp idle) start
    exact ⟨_, inv', Agree.update agree wp⟩
  | @op p β k' b i k at_ exec =>
    obtain ⟨r, eq, wp⟩ := (at_ ▸ agree p).some
    obtain ⟨r', wp', inv'⟩ := S.op inv eq wp exec
    exact ⟨_, inv', Agree.update agree wp'⟩
  | @done p v at_ =>
    obtain ⟨r, eq, wp⟩ := (at_ ▸ agree p).some
    exact ⟨_, S.done inv eq wp, Agree.update agree trivial⟩
  | env env =>
    have idle : (fun p => s.thread p = none) = fun p => h p = none := by
      funext p
      exact propext (agree p).none_iff
    rw [idle] at env
    exact ⟨h, S.env inv env, agree⟩

lemma Sound.run (S : Sound M rule rest J) {es} (init : Proved rule rest J s) (run : Run (Step M) s es s') :
    Proved rule rest J s' :=
  run.invariant init S.step

end

end Threads
