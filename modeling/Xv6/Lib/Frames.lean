import Mathlib.Tactic.Lemma
import Mathlib.Data.Nat.Notation
import Mathlib.Logic.Function.Basic

/-!
# Programs over page frames

A program over frames `ι` with contents `β` allocates and frees frames, reads and writes the frames it
owns, and may panic. What a program owns is a partial map `ι → Option β`, its heap. `wp V P p Q h` says
that `p`, started with the heap `h`, touches only frames it owns, panics only with messages in `P`, and
ends with a value and a heap that satisfy `Q`, whichever allocations fail and whichever frames of `V`
outside the heap the others return. Nothing is said about frames outside the heap, so that a program may
be run beside others that own them.
-/

/-- Programs over frames. -/
inductive Prog (ι β α : Type) : Type where
  | ret (a : α)
  | panic (msg : String)
  | alloc (k : Option ι → Prog ι β α)
  | free (i : ι) (k : Prog ι β α)
  | read (i : ι) (k : β → Prog ι β α)
  | write (i : ι) (b : β) (k : Prog ι β α)

/-- The frames a program owns, with their contents. -/
abbrev Heap (ι β : Type) := ι → Option β

namespace Heap

variable {ι β : Type}

/-- The frames of both heaps; the first one comes first. -/
def union (g h : Heap ι β) : Heap ι β := fun x => (g x).or (h x)

/-- The heaps share no frame. -/
def Disjoint (g h : Heap ι β) : Prop := ∀ x, g x = none ∨ h x = none

lemma union_comm {g h : Heap ι β} (d : Disjoint g h) : union g h = union h g := by
  funext x
  obtain eq | eq := d x <;> simp [union, eq]

lemma union_assoc {f g h : Heap ι β} : union (union f g) h = union f (union g h) := by
  funext x
  simp [union, Option.or_assoc]

lemma union_left {g h : Heap ι β} {x} (d : Disjoint g h) (ne : g x ≠ none) : h x = none :=
  (d x).resolve_left ne

@[simp]
lemma union_of_none {g h : Heap ι β} {x} (eq : g x = none) : union g h x = h x := by
  simp [union, eq]

lemma union_of_ne {g h : Heap ι β} {x} (ne : g x ≠ none) : union g h x = g x := by
  obtain ⟨b, eq⟩ := Option.ne_none_iff_exists'.1 ne
  simp [union, eq]

lemma union_eq_none {g h : Heap ι β} {x} : union g h x = none ↔ g x = none ∧ h x = none := by
  simp [union]

lemma Disjoint.symm {g h : Heap ι β} (d : Disjoint g h) : Disjoint h g := fun x => (d x).symm

lemma disjoint_union {f g h : Heap ι β} : Disjoint f (union g h) ↔ Disjoint f g ∧ Disjoint f h := by
  constructor
  · intro d
    refine ⟨fun x => ?_, fun x => ?_⟩
    · exact (d x).imp_right fun eq => (union_eq_none.1 eq).1
    · exact (d x).imp_right fun eq => (union_eq_none.1 eq).2
  · rintro ⟨dg, dh⟩ x
    obtain eq | eq := dg x
    · exact .inl eq
    · exact (dh x).imp_right fun eq' => union_eq_none.2 ⟨eq, eq'⟩

def single [DecidableEq ι] (x : ι) (b : β) : Heap ι β := Function.update (fun _ => none) x (some b)

end Heap

namespace Prog

variable {ι β α γ : Type}

def bind : Prog ι β α → (α → Prog ι β γ) → Prog ι β γ
  | .ret a, f => f a
  | .panic msg, _ => .panic msg
  | .alloc k, f => .alloc fun i => (k i).bind f
  | .free i k, f => .free i (k.bind f)
  | .read i k, f => .read i fun b => (k b).bind f
  | .write i b k, f => .write i b (k.bind f)

instance : Monad (Prog ι β) where
  pure := .ret
  bind := .bind

variable [DecidableEq ι]

/-- The weakest precondition of a program. -/
def wp (V : ι → Prop) (P : String → Prop) :
    Prog ι β α → (α → Heap ι β → Prop) → Heap ι β → Prop
  | .ret a, Q, h => Q a h
  | .panic msg, _, _ => P msg
  | .alloc k, Q, h =>
    wp V P (k none) Q h ∧
      ∀ i b, V i → h i = none → wp V P (k (some i)) Q (Function.update h i (some b))
  | .free i k, Q, h => (∃ b, h i = some b) ∧ wp V P k Q (Function.update h i none)
  | .read i k, Q, h => ∃ b, h i = some b ∧ wp V P (k b) Q h
  | .write i b k, Q, h => (∃ b', h i = some b') ∧ wp V P k Q (Function.update h i (some b))

variable {V : ι → Prop} {P : String → Prop}

@[simp]
lemma wp_pure {a : α} {Q : α → Heap ι β → Prop} {h} :
    wp V P (pure a) Q h ↔ Q a h := Iff.rfl

@[simp]
lemma wp_bind {p : Prog ι β α} {f : α → Prog ι β γ} {Q h} :
    wp V P (p >>= f) Q h ↔ wp V P p (fun a h => wp V P (f a) Q h) h := by
  change wp V P (p.bind f) Q h ↔ _
  induction p generalizing h with
  | ret a => exact Iff.rfl
  | panic msg => exact Iff.rfl
  | alloc k ih =>
    simp only [bind, wp]
    exact and_congr (ih none) (forall_congr' fun i => forall_congr' fun b =>
      forall_congr' fun _ => forall_congr' fun _ => ih (some i))
  | free i k ih => exact and_congr Iff.rfl ih
  | read i k ih => exact exists_congr fun b => and_congr Iff.rfl (ih b)
  | write i b k ih => exact and_congr Iff.rfl ih

/-- Take a frame from the allocator, which may have none. -/
def new : Prog ι β (Option ι) := .alloc .ret

def drop (i : ι) : Prog ι β Unit := .free i (.ret ())

def load (i : ι) : Prog ι β β := .read i .ret

def store (i : ι) (b : β) : Prog ι β Unit := .write i b (.ret ())

@[simp]
lemma wp_new {Q : Option ι → Heap ι β → Prop} {h} :
    wp V P new Q h ↔
      Q none h ∧ ∀ i b, V i → h i = none → Q (some i) (Function.update h i (some b)) := Iff.rfl

@[simp]
lemma wp_drop {i} {Q : Unit → Heap ι β → Prop} {h} :
    wp V P (drop i) Q h ↔ (∃ b, h i = some b) ∧ Q () (Function.update h i none) := Iff.rfl

@[simp]
lemma wp_load {i} {Q : β → Heap ι β → Prop} {h} :
    wp V P (load i) Q h ↔ ∃ b, h i = some b ∧ Q b h := Iff.rfl

@[simp]
lemma wp_store {i b} {Q : Unit → Heap ι β → Prop} {h} :
    wp V P (store i b) Q h ↔ (∃ b', h i = some b') ∧ Q () (Function.update h i (some b)) := Iff.rfl

lemma wp_mono {p : Prog ι β α} {Q Q' : α → Heap ι β → Prop} {h}
    (hp : wp V P p Q h) (imp : ∀ a h, Q a h → Q' a h) : wp V P p Q' h := by
  induction p generalizing h with
  | ret a => exact imp a h hp
  | panic msg => exact hp
  | alloc k ih => exact ⟨ih none hp.1, fun i b v fr => ih (some i) (hp.2 i b v fr)⟩
  | free i k ih => exact ⟨hp.1, ih hp.2⟩
  | read i k ih =>
    obtain ⟨b, get, hp⟩ := hp
    exact ⟨b, get, ih b hp⟩
  | write i b k ih => exact ⟨hp.1, ih hp.2⟩

lemma wp_own {p : Prog ι β α} {Q : α → Heap ι β → Prop} {h} (hp : wp V P p Q h) :
    wp V P p (fun a h' => Q a h' ∧ ∀ x, h' x ≠ none → h x ≠ none ∨ V x) h := by
  induction p generalizing h with
  | ret a => exact ⟨hp, fun x => .inl⟩
  | panic msg => exact hp
  | alloc k ih =>
    refine ⟨ih none hp.1, fun i b v fr => wp_mono (ih (some i) (hp.2 i b v fr)) ?_⟩
    rintro a h' ⟨q, own⟩
    refine ⟨q, fun x nx => ?_⟩
    by_cases eq : x = i
    · exact .inr (eq ▸ v)
    · simpa [Function.update_of_ne eq] using own x nx
  | free i k ih =>
    refine ⟨hp.1, wp_mono (ih hp.2) ?_⟩
    rintro a h' ⟨q, own⟩
    refine ⟨q, fun x nx => (own x nx).imp_left fun up => ?_⟩
    by_cases eq : x = i
    · simp [eq] at up
    · simpa [Function.update_of_ne eq] using up
  | read i k ih =>
    obtain ⟨b, get, hp⟩ := hp
    exact ⟨b, get, ih b hp⟩
  | write i b k ih =>
    obtain ⟨⟨b', get⟩, hp⟩ := hp
    refine ⟨⟨b', get⟩, wp_mono (ih hp) ?_⟩
    rintro a h' ⟨q, own⟩
    refine ⟨q, fun x nx => (own x nx).imp_left fun up => ?_⟩
    by_cases eq : x = i
    · simp [eq, get]
    · simpa [Function.update_of_ne eq] using up

lemma wp_meet {p : Prog ι β α} {Q R : α → Heap ι β → Prop} {h} (hp : wp V P p Q h) (one : wp V (fun _ => False) p R h) :
    ∃ a h', Q a h' ∧ R a h' := by
  induction p generalizing h with
  | ret a => exact ⟨a, h, hp, one⟩
  | panic msg => exact one.elim
  | alloc k ih => exact ih none hp.1 one.1
  | free i k ih => exact ih hp.2 one.2
  | read i k ih =>
    obtain ⟨b, get, hp⟩ := hp
    obtain ⟨b', get', one⟩ := one
    obtain rfl := Option.some.inj (get.symm.trans get')
    exact ih b hp one
  | write i b k ih => exact ih hp.2 one.2

lemma wp_exact {p : Prog ι β α} {Q : α → Heap ι β → Prop} {h r} (hp : wp V P p Q h)
    (one : wp V (fun _ => False) p (fun a h' => (a, h') = r) h) : Q r.1 r.2 := by
  obtain ⟨a, h', q, rfl⟩ := wp_meet hp one
  exact q

end Prog
