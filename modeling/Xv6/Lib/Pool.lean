import Xv6.Lib.Frames
import Mathlib.Data.List.Nodup

/-!
# Programs that share an allocator

Programs over frames run side by side on one memory with one free list; a step is one frame operation of
one of them, and an allocation may fail at any time. Which frames a program or any other owner has is not
part of that state: `Owns V s H` says that the heaps `H` divide the frames `V` that are not free among the
owners. If a program's weakest precondition holds of the heap it owns, then after each of its steps there
is again a division for which it holds (`Owns.step`), whatever the other owners are. So what is proved of
a program alone holds in every interleaving.
-/

variable {ι β τ α : Type}

/-- The contents of the frames and the list of free frames. -/
structure Store (ι β : Type) where
  mem : ι → β
  free : List ι

namespace Prog

variable [DecidableEq ι]

/-- One frame operation of a program. -/
inductive Step : Store ι β → Prog ι β α → Store ι β → Prog ι β α → Prop where
  | fail {s k} :
    Step s (.alloc k) s (k none)
  | alloc {s c fs k} :
    s.free = c :: fs →
    Step s (.alloc k) { s with free := fs } (k (some c))
  | free {s i k} :
    Step s (.free i k) { s with free := i :: s.free } k
  | read {s i k} :
    Step s (.read i k) s (k (s.mem i))
  | write {s i b k} :
    Step s (.write i b k) { s with mem := Function.update s.mem i b } k

/-- Run a program alone to its end; an allocation fails when no frame is free. -/
def run : Prog ι β α → Store ι β → Option (α × Store ι β)
  | .ret a, s => some (a, s)
  | .panic _, _ => none
  | .alloc k, s =>
    match s.free with
    | [] => (k none).run s
    | c :: fs => (k (some c)).run { s with free := fs }
  | .free i k, s => k.run { s with free := i :: s.free }
  | .read i k, s => (k (s.mem i)).run s
  | .write i b k, s => k.run { s with mem := Function.update s.mem i b }

end Prog

/-- The heaps `H` divide among the owners the frames `V` that are not free. -/
structure Owns (V : ι → Prop) (s : Store ι β) (H : τ → Heap ι β) : Prop where
  agree : ∀ {t x b}, H t x = some b → s.mem x = b
  disj : ∀ {t t' x}, H t x ≠ none → H t' x ≠ none → t = t'
  used : ∀ {t x}, H t x ≠ none → V x ∧ x ∉ s.free
  nodup : s.free.Nodup
  valid : ∀ {x}, x ∈ s.free → V x
  total : ∀ {x}, V x → x ∈ s.free ∨ ∃ t, H t x ≠ none

namespace Owns

variable {V : ι → Prop} {s : Store ι β} {H : τ → Heap ι β}

lemma regroup {τ' : Type} {H' : τ' → Heap ι β} (o : Owns V s H)
    (old : ∀ {t x b}, H' t x = some b → ∃ t', H t' x = some b)
    (new : ∀ {t x b}, H t x = some b → ∃ t', H' t' x = some b)
    (disj : ∀ {t t' x}, H' t x ≠ none → H' t' x ≠ none → t = t') : Owns V s H' := by
  have back : ∀ {t x}, H' t x ≠ none → ∃ t', H t' x ≠ none := by
    intro t x ne
    obtain ⟨b, get⟩ := Option.ne_none_iff_exists'.1 ne
    obtain ⟨t', get'⟩ := old get
    exact ⟨t', by simp [get']⟩
  constructor
  case agree =>
    intro t x b get
    obtain ⟨t', get'⟩ := old get
    exact o.agree get'
  case disj => exact disj
  case used =>
    intro t x ne
    obtain ⟨t', ne'⟩ := back ne
    exact o.used ne'
  case nodup => exact o.nodup
  case valid => exact o.valid
  case total =>
    intro x vx
    refine (o.total vx).imp_right ?_
    rintro ⟨t, ne⟩
    obtain ⟨b, get⟩ := Option.ne_none_iff_exists'.1 ne
    obtain ⟨t', get'⟩ := new get
    exact ⟨t', by simp [get']⟩

lemma other {t t' x} (o : Owns V s H) (ne : H t x ≠ none) (tt : t' ≠ t) : H t' x = none := by
  by_contra ne'
  exact tt (o.disj ne' ne)

lemma same {t t' x b b'} (o : Owns V s H) (get : H t x = some b) (get' : H t' x = some b') : t = t' :=
  o.disj (x := x) (by simp [get]) (by simp [get'])

lemma disjoint {t t'} (o : Owns V s H) (tt : t' ≠ t) : Heap.Disjoint (H t) (H t') := by
  intro x
  by_cases eq : H t x = none
  · exact .inl eq
  · exact .inr (o.other eq tt)

variable [DecidableEq τ]

lemma split {t t' g h} (o : Owns V s H) (tt : t' ≠ t) (eq : H t = Heap.union g h)
    (disj : Heap.Disjoint g h) (empty : H t' = fun _ => none) :
    Owns V s (Function.update (Function.update H t h) t' g) := by
  have iff : ∀ {r x b}, Function.update (Function.update H t h) t' g r x = some b →
      (r = t' ∧ g x = some b) ∨ (r = t ∧ h x = some b) ∨ (r ≠ t' ∧ r ≠ t ∧ H r x = some b) := by
    intro r x b get
    by_cases rt' : r = t'
    · subst rt'
      rw [Function.update_self] at get
      exact .inl ⟨rfl, get⟩
    by_cases rt : r = t
    · subst rt
      rw [Function.update_of_ne rt', Function.update_self] at get
      exact .inr (.inl ⟨rfl, get⟩)
    · rw [Function.update_of_ne rt', Function.update_of_ne rt] at get
      exact .inr (.inr ⟨rt', rt, get⟩)
  have hg : ∀ {x b}, g x = some b → H t x = some b := by
    intro x b get
    rw [eq, Heap.union_of_ne (by simp [get]), get]
  have hh : ∀ {x b}, h x = some b → H t x = some b := by
    intro x b get
    rw [eq, Heap.union_of_none ((disj x).resolve_right (by simp [get])), get]
  refine o.regroup ?_ ?_ ?_
  · intro r x b get
    obtain ⟨-, get⟩ | ⟨-, get⟩ | ⟨-, -, get⟩ := iff get
    · exact ⟨t, hg get⟩
    · exact ⟨t, hh get⟩
    · exact ⟨r, get⟩
  · intro r x b get
    by_cases rt : r = t
    · subst rt
      rw [eq] at get
      by_cases gx : g x = none
      · rw [Heap.union_of_none gx] at get
        exact ⟨r, by rwa [Function.update_of_ne tt.symm, Function.update_self]⟩
      · rw [Heap.union_of_ne gx] at get
        exact ⟨t', by rwa [Function.update_self]⟩
    · have rt' : r ≠ t' := by
        rintro rfl
        simp [empty] at get
      exact ⟨r, by rwa [Function.update_of_ne rt', Function.update_of_ne rt]⟩
  · intro r r' x ne ne'
    obtain ⟨b, get⟩ := Option.ne_none_iff_exists'.1 ne
    obtain ⟨b', get'⟩ := Option.ne_none_iff_exists'.1 ne'
    have apart : ∀ {b b'}, g x = some b → h x ≠ some b' := by
      intro b b' gx hx
      obtain none | none := disj x
      · simp [gx] at none
      · simp [hx] at none
    obtain ⟨eq₁, gx⟩ | ⟨eq₁, hx⟩ | ⟨-, rt, rx⟩ := iff get
    · obtain ⟨eq₂, -⟩ | ⟨-, hx'⟩ | ⟨-, rt', rx'⟩ := iff get'
      · rw [eq₁, eq₂]
      · exact absurd hx' (apart gx)
      · exact absurd (o.same rx' (hg gx)) rt'
    · obtain ⟨-, gx'⟩ | ⟨eq₂, -⟩ | ⟨-, rt', rx'⟩ := iff get'
      · exact absurd hx (apart gx')
      · rw [eq₁, eq₂]
      · exact absurd (o.same rx' (hh hx)) rt'
    · obtain ⟨-, gx'⟩ | ⟨-, hx'⟩ | ⟨-, -, rx'⟩ := iff get'
      · exact absurd (o.same rx (hg gx')) rt
      · exact absurd (o.same rx (hh hx')) rt
      · exact o.same rx rx'

lemma merge {t t'} (o : Owns V s H) (tt : t' ≠ t) :
    Owns V s (Function.update (Function.update H t (Heap.union (H t) (H t'))) t' fun _ => none) := by
  have iff : ∀ {r x b}, Function.update (Function.update H t (Heap.union (H t) (H t'))) t'
      (fun _ => none) r x = some b → r ≠ t' ∧ ∃ r', H r' x = some b ∧ (r' = r ∨ r = t ∧ r' = t') := by
    intro r x b get
    by_cases rt' : r = t'
    · subst rt'
      simp at get
    refine ⟨rt', ?_⟩
    by_cases rt : r = t
    · subst rt
      rw [Function.update_of_ne rt', Function.update_self] at get
      by_cases hx : H r x = none
      · rw [Heap.union_of_none hx] at get
        exact ⟨t', get, .inr ⟨rfl, rfl⟩⟩
      · rw [Heap.union_of_ne hx] at get
        exact ⟨r, get, .inl rfl⟩
    · rw [Function.update_of_ne rt', Function.update_of_ne rt] at get
      exact ⟨r, get, .inl rfl⟩
  refine o.regroup ?_ ?_ ?_
  · intro r x b get
    obtain ⟨-, r', get', -⟩ := iff get
    exact ⟨r', get'⟩
  · intro r x b get
    by_cases mine : r = t ∨ r = t'
    · refine ⟨t, ?_⟩
      rw [Function.update_of_ne tt.symm, Function.update_self]
      obtain rfl | rfl := mine
      · rw [Heap.union_of_ne (by simp [get]), get]
      · rw [Heap.union_of_none (o.other (by simp [get]) tt.symm), get]
    · rw [not_or] at mine
      exact ⟨r, by rwa [Function.update_of_ne mine.2, Function.update_of_ne mine.1]⟩
  · intro r r' x ne ne'
    obtain ⟨b, get⟩ := Option.ne_none_iff_exists'.1 ne
    obtain ⟨b', get'⟩ := Option.ne_none_iff_exists'.1 ne'
    obtain ⟨rt, q, hq, via⟩ := iff get
    obtain ⟨rt', q', hq', via'⟩ := iff get'
    obtain rfl : q = q' := o.same hq hq'
    obtain rfl | ⟨rfl, rfl⟩ := via
    · obtain rfl | ⟨-, rfl⟩ := via'
      · rfl
      · exact absurd rfl rt
    · obtain rfl | ⟨rfl, -⟩ := via'
      · exact absurd rfl rt'
      · rfl

variable [DecidableEq ι]

lemma write {t i b} (o : Owns V s H) (ne : H t i ≠ none) :
    Owns V { s with mem := Function.update s.mem i b }
      (Function.update H t (Function.update (H t) i (some b))) := by
  have dom : ∀ {t' x}, Function.update H t (Function.update (H t) i (some b)) t' x ≠ none ↔
      H t' x ≠ none := by
    intro t' x
    by_cases tt : t' = t
    · subst tt
      by_cases xi : x = i
      · simp [xi, ne]
      · simp [xi]
    · rw [Function.update_of_ne tt]
  constructor
  case agree =>
    intro t' x b' get
    by_cases xi : x = i
    · subst xi
      by_cases tt : t' = t
      · subst tt
        simpa using get
      · rw [Function.update_of_ne tt] at get
        simp [o.other ne tt] at get
    · refine (Function.update_of_ne xi b s.mem).trans ?_
      by_cases tt : t' = t
      · subst tt
        rw [Function.update_self, Function.update_of_ne xi] at get
        exact o.agree get
      · rw [Function.update_of_ne tt] at get
        exact o.agree get
  case disj => exact fun h h' => o.disj (dom.1 h) (dom.1 h')
  case used => exact fun h => o.used (dom.1 h)
  case nodup => exact o.nodup
  case valid => exact o.valid
  case total =>
    intro x vx
    refine (o.total vx).imp_right ?_
    rintro ⟨t', h⟩
    exact ⟨t', dom.2 h⟩

lemma alloc {t c fs} (o : Owns V s H) (eq : s.free = c :: fs) :
    Owns V { s with free := fs } (Function.update H t (Function.update (H t) c (some (s.mem c)))) := by
  have mem : c ∈ s.free := eq ▸ List.mem_cons_self
  have nd := o.nodup
  rw [eq, List.nodup_cons] at nd
  have notFree : ∀ {t'}, H t' c = none := fun {t'} => by_contra fun ne => (o.used ne).2 mem
  have dom : ∀ {t' x}, Function.update H t (Function.update (H t) c (some (s.mem c))) t' x ≠ none ↔
      H t' x ≠ none ∨ t' = t ∧ x = c := by
    intro t' x
    by_cases tt : t' = t
    · subst tt
      by_cases xc : x = c
      · simp [xc]
      · simp [xc]
    · rw [Function.update_of_ne tt]
      simp [tt]
  constructor
  case agree =>
    intro t' x b' get
    by_cases tt : t' = t
    · subst tt
      by_cases xc : x = c
      · subst xc
        simpa using get
      · rw [Function.update_self, Function.update_of_ne xc] at get
        exact o.agree get
    · rw [Function.update_of_ne tt] at get
      exact o.agree get
  case disj =>
    intro t' t'' x h h'
    obtain h₁ | ⟨tt, xc⟩ := dom.1 h
    · obtain h₂ | ⟨-, xc⟩ := dom.1 h'
      · exact o.disj h₁ h₂
      · exact absurd notFree (xc ▸ h₁)
    · obtain h₂ | ⟨tt', -⟩ := dom.1 h'
      · exact absurd notFree (xc ▸ h₂)
      · rw [tt, tt']
  case used =>
    intro t' x h
    obtain h | ⟨rfl, rfl⟩ := dom.1 h
    · obtain ⟨vx, nf⟩ := o.used h
      rw [eq] at nf
      exact ⟨vx, fun m => nf (List.mem_cons_of_mem c m)⟩
    · exact ⟨o.valid mem, nd.1⟩
  case nodup => exact nd.2
  case valid => exact fun m => o.valid (eq ▸ List.mem_cons_of_mem c m)
  case total =>
    intro x vx
    obtain h | ⟨t', h⟩ := o.total vx
    · rw [eq] at h
      obtain rfl | m := List.mem_cons.1 h
      · exact .inr ⟨t, dom.2 (.inr ⟨rfl, rfl⟩)⟩
      · exact .inl m
    · exact .inr ⟨t', dom.2 (.inl h)⟩

lemma drop {t i} (o : Owns V s H) (ne : H t i ≠ none) :
    Owns V { s with free := i :: s.free }
      (Function.update H t (Function.update (H t) i none)) := by
  have dom : ∀ {t' x}, Function.update H t (Function.update (H t) i none) t' x ≠ none ↔
      H t' x ≠ none ∧ x ≠ i := by
    intro t' x
    by_cases xi : x = i
    · subst xi
      by_cases tt : t' = t
      · simp [tt]
      · rw [Function.update_of_ne tt]
        simp [o.other ne tt]
    · by_cases tt : t' = t
      · subst tt
        simp [xi]
      · rw [Function.update_of_ne tt]
        simp [xi]
  constructor
  case agree =>
    intro t' x b' get
    by_cases tt : t' = t
    · subst tt
      by_cases xi : x = i
      · subst xi
        simp at get
      · rw [Function.update_self, Function.update_of_ne xi] at get
        exact o.agree get
    · rw [Function.update_of_ne tt] at get
      exact o.agree get
  case disj => exact fun h h' => o.disj (dom.1 h).1 (dom.1 h').1
  case used =>
    intro t' x h
    obtain ⟨h, xi⟩ := dom.1 h
    obtain ⟨vx, nf⟩ := o.used h
    exact ⟨vx, fun m => (List.mem_cons.1 m).elim xi nf⟩
  case nodup => exact List.nodup_cons.2 ⟨(o.used ne).2, o.nodup⟩
  case valid =>
    intro x m
    obtain rfl | m := List.mem_cons.1 m
    · exact (o.used ne).1
    · exact o.valid m
  case total =>
    intro x vx
    by_cases xi : x = i
    · exact .inl (xi ▸ List.mem_cons_self)
    · refine (o.total vx).imp (List.mem_cons_of_mem i) ?_
      rintro ⟨t', h⟩
      exact ⟨t', dom.2 ⟨h, xi⟩⟩

/-- A step of one program changes the heap of that program only, and the program goes on as its weakest
precondition says. -/
theorem step {t P s'} {p p' : Prog ι β α} {Q} (o : Owns V s H) (w : p.wp V P Q (H t))
    (st : Prog.Step s p s' p') : ∃ h, Owns V s' (Function.update H t h) ∧ p'.wp V P Q h := by
  cases st with
  | fail => exact ⟨H t, by rwa [Function.update_eq_self], w.1⟩
  | @alloc c fs k eq =>
    have mem : c ∈ s.free := eq ▸ List.mem_cons_self
    have new : H t c = none := by_contra fun ne => (o.used ne).2 mem
    exact ⟨_, o.alloc eq, w.2 c _ (o.valid mem) new⟩
  | @free i k =>
    obtain ⟨⟨b, get⟩, w⟩ := w
    exact ⟨_, o.drop (by simp [get]), w⟩
  | @read i k =>
    obtain ⟨b, get, w⟩ := w
    rw [o.agree get]
    exact ⟨H t, by rwa [Function.update_eq_self], w⟩
  | @write i b k =>
    obtain ⟨⟨b', get⟩, w⟩ := w
    exact ⟨_, o.write (by simp [get]), w⟩

/-- A program that runs alone ends with a heap that satisfies its postcondition. -/
theorem run {t P s' a} {p : Prog ι β α} {Q} (o : Owns V s H) (w : p.wp V P Q (H t))
    (r : p.run s = some (a, s')) : ∃ h, Owns V s' (Function.update H t h) ∧ Q a h := by
  -- every operation is a step, and the heap of the program is all that changes
  have more : ∀ {p q : Prog ι β α} {s s₁} {H : τ → Heap ι β}, Owns V s H → p.wp V P Q (H t) →
      Prog.Step s p s₁ q → (∀ {H'}, Owns V s₁ H' → q.wp V P Q (H' t) →
        ∃ h, Owns V s' (Function.update H' t h) ∧ Q a h) →
      ∃ h, Owns V s' (Function.update H t h) ∧ Q a h := by
    intro p q s s₁ H o w st ih
    obtain ⟨h₁, o₁, w₁⟩ := o.step w st
    obtain ⟨h, o₂, post⟩ := ih o₁ (by rwa [Function.update_self])
    exact ⟨h, by rwa [Function.update_idem] at o₂, post⟩
  induction p generalizing s H with
  | ret a' =>
    cases r
    exact ⟨H t, by rwa [Function.update_eq_self], w⟩
  | panic msg => cases r
  | alloc k ih =>
    rw [Prog.run] at r
    split at r
    · exact more o w .fail fun o' w' => ih none o' w' r
    · rename_i c fs eq
      exact more o w (.alloc eq) fun o' w' => ih (some c) o' w' r
  | free i k ih => exact more o w .free fun o' w' => ih o' w' r
  | read i k ih => exact more o w .read fun o' w' => ih _ o' w' r
  | write i b k ih => exact more o w .write fun o' w' => ih o' w' r

/-- The same where the program is the only owner. -/
theorem run_alone {P s' a h} {p : Prog ι β α} {Q} (o : Owns V s fun _ : Unit => h) (w : p.wp V P Q h)
    (r : p.run s = some (a, s')) : ∃ h', Owns V s' (fun _ : Unit => h') ∧ Q a h' := by
  obtain ⟨h', o', post⟩ := o.run (t := ()) w r
  have single : Function.update (fun _ : Unit => h) () h' = fun _ => h' := funext fun _ => Function.update_self ..
  exact ⟨h', single ▸ o', post⟩

omit [DecidableEq ι] in
/-- A program that has no frames owns none. -/
theorem empty (nodup : s.free.Nodup) : Owns (· ∈ s.free) s (fun _ : Unit => (fun _ => none : Heap ι β)) :=
  ⟨nofun, fun ne => absurd rfl ne, fun ne => absurd rfl ne, nodup, id, .inl⟩

/-- A program that begins without frames ends with a heap that satisfies its postcondition. -/
theorem run_empty {P s' a} {p : Prog ι β α} {Q} (nodup : s.free.Nodup) (w : p.wp (· ∈ s.free) P Q fun _ => none)
    (r : p.run s = some (a, s')) : ∃ h, Q a h := by
  obtain ⟨h, -, post⟩ := (empty nodup).run_alone w r
  exact ⟨h, post⟩

end Owns
