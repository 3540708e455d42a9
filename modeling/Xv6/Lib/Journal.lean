import Xv6.Lib.Fallible

/-!
# Programs that keep a journal

A program on a state `σ` that also writes what it does into a journal, a list of `ω`. Without the journal it is a
program on `σ` alone (`Erases`), so that a journal can be added to a program that is already there to count what it does.
-/

/-- A program with state `σ` and a journal of `ω` that may panic. -/
abbrev Journal (σ ω ε α : Type) := Fallible (σ × List ω) ε α

namespace Journal

variable {σ ω ε α β : Type}

def lift (m : Fallible σ ε α) : Journal σ ω ε α := fun x =>
  match m x.1 with
  | .ok (a, s) => .ok (a, (s, x.2))
  | .error e => .error e

def tell (w : ω) : Journal σ ω ε Unit := modify fun x => (x.1, x.2 ++ [w])

/-- Without its journal a program is another one. -/
def Erases (m' : Journal σ ω ε α) (m : Fallible σ ε α) : Prop :=
  ∀ s l, (m' (s, l)).map (fun r => (r.1, r.2.1)) = m s

section

variable {P : ε → Prop} {s : σ} {l : List ω}

@[simp]
lemma wp_lift {m : Fallible σ ε α} {Q : α → σ × List ω → Prop} :
    Fallible.wp P (lift m) Q (s, l) ↔ Fallible.wp P m (fun a s' => Q a (s', l)) s := by
  simp only [Fallible.wp, lift]
  cases m s <;> rfl

@[simp]
lemma wp_tell {w : ω} {Q : Unit → σ × List ω → Prop} :
    Fallible.wp P (tell w) Q (s, l) ↔ Q () (s, l ++ [w]) := .rfl

end

namespace Erases

variable {m' : Journal σ ω ε α} {m : Fallible σ ε α}

lemma pure {a : α} : Erases (Pure.pure a : Journal σ ω ε α) (Pure.pure a) := fun _ _ => rfl

lemma throw {e : ε} : Erases (MonadExcept.throw e : Journal σ ω ε α) (MonadExcept.throw e) := fun _ _ => rfl

lemma lift : Erases (Journal.lift m : Journal σ ω ε α) m := by
  intro s l
  simp only [Journal.lift]
  cases m s <;> rfl

lemma bind {f' : α → Journal σ ω ε β} {f : α → Fallible σ ε β} (h : Erases m' m) (next : ∀ a, Erases (f' a) (f a)) :
    Erases (m' >>= f') (m >>= f) := by
  intro s l
  have eq := h s l
  simp only [Bind.bind, StateT.bind, Except.bind]
  rw [← eq]
  cases m' (s, l) with
  | error e => rfl
  | ok r => exact next r.1 r.2.1 r.2.2

lemma get {f' : σ × List ω → Journal σ ω ε α} {f : σ → Fallible σ ε α} (h : ∀ s l, Erases (f' (s, l)) (f s)) :
    Erases (MonadState.get >>= f') (MonadState.get >>= f) := fun s l => h s l s l

lemma tell {w : ω} (h : Erases m' m) : Erases (do Journal.tell w; m') m := fun s l => h s (l ++ [w])

lemma exists_ok (h : Erases m' m) {s s' : σ} {a : α} (eq : m s = .ok (a, s')) (l : List ω) :
    ∃ l', m' (s, l) = .ok (a, (s', l')) := by
  rw [← h s l] at eq
  revert eq
  cases m' (s, l) with
  | error e => exact nofun
  | ok r =>
    rintro ⟨⟩
    exact ⟨r.2.2, rfl⟩

end Erases

end Journal
