import Mathlib.Data.List.Induction
import Mathlib.Data.List.Nodup
import Mathlib.Logic.Function.Basic

/-!
# Doubly linked rings

The cells of a circular list with a head are the values `some x`, and the head is `none`. `Cells` is the `next` and the
`prev` field of every cell. `Cells.Ring L l` says that the ring consists of the cells `l`, in this order from `next` of the
head on; `push` and `unlink` are the usual assignments, and `scan` is the loop that follows one of the fields from the
head until a cell passes a test.
-/

/-- The two fields of all cells and of the head. -/
structure Cells (α : Type*) where
  next : Option α → Option α
  prev : Option α → Option α

namespace Cells

variable {α : Type*}

/-- The cells `l` lie between `a` and `b`. -/
def Segment (L : Cells α) : Option α → List α → Option α → Prop
  | a, [], b => L.next a = b ∧ L.prev b = a
  | a, x :: l, b => L.next a = some x ∧ L.prev (some x) = a ∧ Segment L (some x) l b

/-- The ring consists of the distinct cells `l`. -/
structure Ring (L : Cells α) (l : List α) : Prop where
  nodup : l.Nodup
  segment : L.Segment none l none

/-- Following a field from `a` on visits `l` and then the head. -/
def Path (f : Option α → Option α) : Option α → List α → Prop
  | a, [] => f a = none
  | a, x :: l => f a = some x ∧ Path f (some x) l

/-- The loop that starts at the cell `a` and follows a field until the head or a cell that passes the test; there is no
result if it makes no end within the given number of rounds. -/
def scan (f : Option α → Option α) (test : α → Bool) : ℕ → Option α → Option (Option α)
  | 0, _ => none
  | _ + 1, none => some none
  | n + 1, some x => if test x then some (some x) else scan f test n (f (some x))

variable {L L' : Cells α} {a b : Option α} {x : α} {l l₁ l₂ : List α} {f : Option α → Option α}

lemma segment_append : L.Segment a (l₁ ++ x :: l₂) b ↔ L.Segment a l₁ (some x) ∧ L.Segment (some x) l₂ b := by
  induction l₁ generalizing a with
  | nil => simp [Segment, and_assoc]
  | cons y l₁ ih => simp [Segment, ih, and_assoc]

/-- A segment depends on the `next` fields of all its cells but the last and the `prev` fields of all but the first. -/
lemma Segment.congr (seg : L.Segment a l b) (start : L'.next a = L.next a) (stop : L'.prev b = L.prev b)
    (next : ∀ y ∈ l, L'.next (some y) = L.next (some y)) (prev : ∀ y ∈ l, L'.prev (some y) = L.prev (some y)) :
    L'.Segment a l b := by
  induction l generalizing a with
  | nil => exact ⟨start.trans seg.1, stop.trans seg.2⟩
  | cons y l ih =>
    refine ⟨start.trans seg.1, (prev y (by simp)).trans seg.2.1, ?_⟩
    exact ih seg.2.2 (next y (by simp)) (fun z mem => next z (by simp [mem])) (fun z mem => prev z (by simp [mem]))

lemma Segment.path_next (seg : L.Segment a l none) : Path L.next a l := by
  induction l generalizing a with
  | nil => exact seg.1
  | cons y l ih => exact ⟨seg.1, ih seg.2.2⟩

lemma Segment.path_prev (seg : L.Segment none l b) : Path L.prev b l.reverse := by
  induction l using List.reverseRecOn generalizing b with
  | nil => exact seg.2
  | append_singleton l y ih =>
    rw [segment_append] at seg
    rw [List.reverse_append]
    exact ⟨seg.2.2, ih seg.1⟩

lemma Path.scan {test : α → Bool} {n : ℕ} (path : Path f a l) (lt : l.length < n) :
    scan f test n (f a) = some (l.find? test) := by
  induction l generalizing a n with
  | nil =>
    obtain ⟨n, rfl⟩ := Nat.exists_eq_succ_of_ne_zero (by omega : n ≠ 0)
    rw [show f a = none from path]
    rfl
  | cons y l ih =>
    obtain ⟨n, rfl⟩ := Nat.exists_eq_succ_of_ne_zero (by omega : n ≠ 0)
    rw [path.1, Cells.scan, List.find?_cons]
    rw [List.length_cons] at lt
    split
    · simp [*]
    · simp [*, ih path.2 (Nat.lt_of_succ_lt_succ lt)]

lemma Segment.next_eq (seg : L.Segment a l b) : L.next a = (l.head?.map some).getD b := by
  cases l with
  | nil => exact seg.1
  | cons y l => exact seg.1

lemma Segment.prev_eq (seg : L.Segment a l b) : L.prev b = (l.getLast?.map some).getD a := by
  induction l generalizing a with
  | nil => exact seg.2
  | cons y l ih =>
    rw [ih seg.2.2]
    cases l <;> simp [List.getLast?_cons]

variable [DecidableEq α]

/-- The assignments that make `x` the first cell of the ring. -/
def push (L : Cells α) (x : α) : Cells α :=
  let L := { L with next := Function.update L.next (some x) (L.next none) }
  let L := { L with prev := Function.update L.prev (some x) none }
  let L := { L with prev := Function.update L.prev (L.next none) (some x) }
  { L with next := Function.update L.next none (some x) }

/-- The assignments that take `x` out of the ring. -/
def unlink (L : Cells α) (x : α) : Cells α :=
  let L := { L with prev := Function.update L.prev (L.next (some x)) (L.prev (some x)) }
  { L with next := Function.update L.next (L.prev (some x)) (L.next (some x)) }

lemma Ring.push (r : L.Ring l) (new : x ∉ l) : (L.push x).Ring (x :: l) := by
  refine ⟨List.nodup_cons.mpr ⟨new, r.nodup⟩, ?_⟩
  have seg := r.segment
  cases l with
  | nil =>
    simp only [Segment] at seg
    simp [Segment, Cells.push, seg.1]
  | cons y l =>
    have nodup := List.nodup_cons.mp r.nodup
    have ne : x ≠ y := fun eq => new (by simp [eq])
    obtain ⟨first, -, rest⟩ := seg
    refine ⟨?_, ?_, ?_, ?_, rest.congr ?_ ?_ ?_ ?_⟩
    all_goals simp only [Cells.push, Function.update_apply, first]
    all_goals simp
    all_goals grind

lemma Ring.foldl_push (r : L.Ring l) (nodup : l₁.Nodup) (new : ∀ x ∈ l₁, x ∉ l) :
    (l₁.foldl Cells.push L).Ring (l₁.reverse ++ l) := by
  induction l₁ generalizing L l with
  | nil => exact r
  | cons x l₁ ih =>
    rw [List.nodup_cons] at nodup
    have rest : ∀ y ∈ l₁, y ∉ x :: l := by
      intro y mem
      rw [List.mem_cons, not_or]
      exact ⟨fun eq => nodup.1 (eq ▸ mem), new y (by simp [mem])⟩
    have := ih (r.push (new x (by simp))) nodup.2 rest
    simpa using this

lemma unlink_eq (self : some x ≠ L.next (some x)) :
    L.unlink x = ⟨Function.update L.next (L.prev (some x)) (L.next (some x)),
      Function.update L.prev (L.next (some x)) (L.prev (some x))⟩ := by
  simp only [unlink, Function.update_of_ne self]

lemma Segment.unlink (seg : L.Segment a (l₁ ++ x :: l₂) b) (nodup : (l₁ ++ x :: l₂).Nodup)
    (start : ∀ y ∈ l₁ ++ x :: l₂, a ≠ some y) (stop : ∀ y ∈ l₁ ++ x :: l₂, b ≠ some y) :
    (L.unlink x).Segment a (l₁ ++ l₂) b := by
  have next := (segment_append.mp seg).2.next_eq
  have prev := (segment_append.mp seg).1.prev_eq
  have self : some x ≠ L.next (some x) := by
    rw [next]
    cases l₂ with
    | nil => exact (stop x (by simp)).symm
    | cons y l₂ =>
      have := (List.nodup_append.mp nodup).2.1
      grind
  rw [unlink_eq self]
  induction l₁ generalizing a with
  | nil =>
    obtain ⟨-, -, rest⟩ := seg
    cases l₂ with
    | nil => simp_all [Segment]
    | cons y l₂ =>
      obtain ⟨-, -, rest⟩ := rest
      refine ⟨?_, ?_, rest.congr ?_ ?_ ?_ ?_⟩
      all_goals simp only [Function.update_apply, next, prev]
      all_goals simp
      all_goals grind
  | cons z l ih =>
    obtain ⟨first, back, rest⟩ := seg
    simp only [List.cons_append, List.nodup_cons, List.mem_cons, forall_eq_or_imp] at nodup start stop
    refine ⟨?_, ?_, ih rest nodup.2 ?_ stop.2 ?_⟩
    · refine (Function.update_of_ne ?_ _ _).trans first
      rw [prev]
      -- the cell before `x` is one of `z :: l`
      obtain ⟨y, last⟩ := Option.isSome_iff_exists.mp (List.getLast?_isSome.mpr (List.cons_ne_nil z l))
      have mem := List.mem_of_getLast? last
      rw [last]
      grind
    · refine (Function.update_of_ne ?_ _ _).trans back
      rw [next]
      cases l₂ <;> grind
    · rintro y mem ⟨rfl⟩
      exact nodup.1 mem
    · rw [prev, List.getLast?_cons]
      cases l <;> simp

lemma Ring.unlink (r : L.Ring (l₁ ++ x :: l₂)) : (L.unlink x).Ring (l₁ ++ l₂) where
  nodup := r.nodup.sublist (by simp)
  segment := r.segment.unlink r.nodup nofun nofun

end Cells
