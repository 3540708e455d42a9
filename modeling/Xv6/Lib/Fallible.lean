import Mathlib.Tactic.Lemma
import Mathlib.Tactic.SplitIfs
import Mathlib.Data.Nat.Notation

/-!
# Programs with a state that may panic

An action reads and changes a state `σ` and returns a value, or panics with an `ε`. `wp P m Q s` says that
`m`, started in `s`, panics only with an `ε` in `P`, and else ends with a value and a state that satisfy `Q`.
There is one rule for each construct of a program. Loops with a counter are `upto`, with a rule for an
invariant (`wp_upto`).
-/

/-- A program with state `σ` that may panic. -/
abbrev Fallible (σ ε α : Type) := StateT σ (Except ε) α

namespace Fallible

variable {σ ε α β : Type}

/-- Run `f 0`, `f 1` and so on, `n` times. -/
def upto (f : ℕ → Fallible σ ε Unit) : ℕ → Fallible σ ε Unit
  | 0 => pure ()
  | n + 1 => do
    upto f n
    f n

/-- The weakest precondition of an action, for the panics in `P`. -/
def wp (P : ε → Prop) (m : Fallible σ ε α) (Q : α → σ → Prop) (s : σ) : Prop :=
  match m s with
  | .ok (a, s') => Q a s'
  | .error e => P e

variable {P : ε → Prop} {Q Q' : α → σ → Prop} {s s' : σ}

lemma wp_ok {m : Fallible σ ε α} {a} (eq : m s = .ok (a, s')) : wp P m Q s ↔ Q a s' := by
  rw [wp, eq]

lemma wp_error {m : Fallible σ ε α} {e} (eq : m s = .error e) : wp P m Q s ↔ P e := by
  rw [wp, eq]

lemma bind_ok {m : Fallible σ ε β} {f : β → Fallible σ ε α} {b} (eq : m s = .ok (b, s')) : (m >>= f) s = f b s' := by
  simp only [bind, StateT.bind, Except.bind, eq]

lemma bind_error {m : Fallible σ ε β} {f : β → Fallible σ ε α} {e} (eq : m s = .error e) : (m >>= f) s = .error e := by
  simp only [bind, StateT.bind, Except.bind, eq]

lemma ok_of_bind {m : Fallible σ ε β} {f : β → Fallible σ ε α} {a} (eq : (m >>= f) s = .ok (a, s')) :
    ∃ b t, m s = .ok (b, t) ∧ f b t = .ok (a, s') := by
  simp only [bind, StateT.bind, Except.bind] at eq
  split at eq
  · cases eq
  · rename_i r h
    exact ⟨r.1, r.2, h, eq⟩

@[simp]
lemma wp_pure {a : α} : wp P (pure a) Q s ↔ Q a s := .rfl

@[simp]
lemma wp_bind {m : Fallible σ ε β} {f : β → Fallible σ ε α} :
    wp P (m >>= f) Q s ↔ wp P m (fun b => wp P (f b) Q) s := by
  simp only [wp, bind, StateT.bind, Except.bind]
  cases m s <;> rfl

@[simp]
lemma wp_get {Q : σ → σ → Prop} : wp P (get : Fallible σ ε σ) Q s ↔ Q s s := .rfl

@[simp]
lemma wp_modify {f : σ → σ} {Q : Unit → σ → Prop} :
    wp P (modify f : Fallible σ ε Unit) Q s ↔ Q () (f s) := .rfl

@[simp]
lemma wp_throw {e : ε} : wp P (throw e : Fallible σ ε α) Q s ↔ P e := .rfl

lemma eq_ok {m : Fallible σ ε α} {a} (h : wp (fun _ => False) m (fun b t => b = a ∧ t = s') s) :
    m s = .ok (a, s') := by
  revert h
  simp only [wp]
  cases m s with
  | error e => exact False.elim
  | ok r =>
    rintro ⟨rfl, rfl⟩
    rfl

lemma eq_error {m : Fallible σ ε α} {e} (h : wp (· = e) m (fun _ _ => False) s) : m s = .error e := by
  revert h
  simp only [wp]
  cases m s with
  | error e => exact congrArg _
  | ok r => exact False.elim

lemma cases_of_wp {m : Fallible σ ε Unit} {Q : Unit → σ → Prop} (h : wp P m Q s) :
    (∃ s', m s = .ok ((), s') ∧ Q () s') ∨ ∃ e, m s = .error e ∧ P e := by
  revert h
  simp only [wp]
  cases m s with
  | error e => exact fun h => .inr ⟨e, rfl, h⟩
  | ok r => exact fun h => .inl ⟨r.2, rfl, h⟩

lemma exists_of_wp {m : Fallible σ ε α} (h : wp (fun _ => False) m Q s) : ∃ a s', m s = .ok (a, s') ∧ Q a s' := by
  revert h
  simp only [wp]
  cases m s with
  | error e => exact False.elim
  | ok r => exact fun h => ⟨r.1, r.2, rfl, h⟩

lemma wp_mono {m : Fallible σ ε α} (h : wp P m Q s) (imp : ∀ a s', Q a s' → Q' a s') : wp P m Q' s := by
  revert h
  simp only [wp]
  cases m s with
  | error e => exact id
  | ok r => exact imp r.1 r.2

lemma wp.error {P' : ε → Prop} {m : Fallible σ ε α} (h : wp P m Q s) (imp : ∀ e, P e → P' e) : wp P' m Q s := by
  unfold wp at h ⊢
  cases eq : m s with
  | ok x => simpa only [eq] using h
  | error e =>
    rw [eq] at h
    exact imp e h

lemma wp_upto {f : ℕ → Fallible σ ε Unit} {n} (I : ℕ → σ → Prop) (init : I 0 s)
    (step : ∀ k s, k < n → I k s → wp P (f k) (fun _ => I (k + 1)) s) :
    wp P (upto f n) (fun _ => I n) s := by
  induction n with
  | zero => exact init
  | succ n ih =>
    rw [upto, wp_bind]
    refine wp_mono (ih fun k s lt => step k s (Nat.lt_succ_of_lt lt)) ?_
    intro _ s h
    exact step n s (Nat.lt_succ_self n) h

/-! ### What an action leaves alone -/

section

variable {τ : Type} {v : σ → τ}

/-- If the action returns, `v` sees no difference. -/
def Spares (v : σ → τ) (m : Fallible σ ε α) : Prop := ∀ s a s', m s = .ok (a, s') → v s' = v s

lemma Spares.pure {a : α} : Spares v (pure a : Fallible σ ε α) := by
  rintro s _ _ ⟨⟩
  rfl

lemma Spares.get : Spares v (get : Fallible σ ε σ) := by
  rintro s _ _ ⟨⟩
  rfl

lemma Spares.throw {e : ε} : Spares v (throw e : Fallible σ ε α) := by
  rintro s _ _ ⟨⟩

lemma Spares.modify {f : σ → σ} (h : ∀ s, v (f s) = v s) : Spares v (modify f : Fallible σ ε Unit) := by
  rintro s _ _ ⟨⟩
  exact h s

lemma Spares.bind {m : Fallible σ ε β} {f : β → Fallible σ ε α} (hm : Spares v m) (hf : ∀ b, Spares v (f b)) :
    Spares v (m >>= f) := by
  intro s a s' eq
  obtain ⟨b, t, eq₁, eq₂⟩ := ok_of_bind eq
  exact (hf b t a s' eq₂).trans (hm s b t eq₁)

lemma Spares.ite {c : Prop} [Decidable c] {m m' : Fallible σ ε α} (h : Spares v m) (h' : Spares v m') :
    Spares v (if c then m else m') := by
  split_ifs
  · exact h
  · exact h'

lemma Spares.wp {m : Fallible σ ε α} (h : Spares v m) (imp : ∀ a s', v s' = v s → Q a s') : wp (fun _ => True) m Q s := by
  unfold Fallible.wp
  cases eq : m s with
  | ok r => exact imp r.1 r.2 (h s r.1 r.2 eq)
  | error e => trivial

lemma Spares.upto {f : ℕ → Fallible σ ε Unit} (h : ∀ i, Spares v (f i)) (n : ℕ) : Spares v (upto f n) := by
  induction n with
  | zero => exact .pure
  | succ n ih => exact ih.bind fun _ => h n

end

/-! ### Through an abstraction

A program on the state `σ` that is described by what it does to a `τ`, of which the state is a representation.
-/

variable {τ : Type} {V : σ → τ → Prop} {R R' : α → τ → Prop} {t : τ}

/-- From a state that represents `t`, the action panics only with an `ε` in `P`, and else ends in a state that represents one
of `R`. -/
def via (V : σ → τ → Prop) (P : ε → Prop) (m : Fallible σ ε α) (R : α → τ → Prop) (t : τ) : Prop :=
  ∀ s, V s t → wp P m (fun a s' => ∃ t', V s' t' ∧ R a t') s

lemma via_pure {a : α} (h : R a t) : via V P (pure a) R t := fun _ v => ⟨t, v, h⟩

lemma via_throw {e : ε} (h : P e) : via V P (throw e : Fallible σ ε α) R t := fun _ _ => h

lemma via_bind {m : Fallible σ ε β} {f : β → Fallible σ ε α} (h : via V P m (fun b => via V P (f b) R) t) :
    via V P (m >>= f) R t := by
  intro s v
  rw [wp_bind]
  refine wp_mono (h s v) ?_
  rintro b s' ⟨t', v', h'⟩
  exact h' s' v'

lemma via.mono {m : Fallible σ ε α} (h : via V P m R t) (imp : ∀ a t', R a t' → R' a t') : via V P m R' t := by
  intro s v
  refine wp_mono (h s v) ?_
  rintro a s' ⟨t', v', h'⟩
  exact ⟨t', v', imp a t' h'⟩

end Fallible
