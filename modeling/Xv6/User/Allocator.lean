import Xv6.User.FreeList
import Mathlib.Order.Interval.Finset.Nat
import Mathlib.Tactic.Ring

/-!
# The allocator keeps its heap

The invariant of the allocator (`Inv`) in every state of a run, also within a call, and a bound for the steps that a call still
needs (`work`). `user_allocator` holds as long as `sbrk` gives memory behind `base`, where a heap is, and fewer than `2 ^ 32`
units in all: the size of a free block is an `uint`, and when more memory is freed and merged it wraps
(`user_allocator_wraps`).
-/

namespace Xv6.Umalloc

open Cyclic

variable {base : ℕ} {s s' : State} {S : Finset ℕ} {e : Event} {es : List Event} {mem : ℕ → Header}

/-- `sbrk` has given memory behind `base` only, and fewer than `2 ^ 32` units. -/
structure Fits (base : ℕ) (s : State) : Prop where
  above : ∀ r ∈ s.regions, base + HEADER ≤ r.addr
  obtained : s.obtained < 2 ^ 32

/-- The blocks that are not free: the live ones, and the one that is about to be linked. -/
def State.taken (s : State) : Finset ℕ :=
  match s.pc with
  | .insert bp _ _ => insert bp s.live
  | _ => s.live

/-- The units of a request are enough for its bytes and a header. -/
structure Request.Ok (r : Request) : Prop where
  pos : 0 < r.nunits
  enough : r.nbytes + HEADER ≤ HEADER * r.nunits

/-- What holds at a place. When `malloc` has got memory, a block that is large enough is still before it. -/
def State.At (s : State) (S : Finset ℕ) : Pc → Prop
  | .idle => True
  | .search r prevp p grown => r.Ok ∧ prevp ∈ S ∧ (s.mem prevp).ptr = p ∧
    (grown = true → ∃ x ∈ S, r.nunits ≤ (s.mem x).size ∧ (x = p ∨ x ∈ arc S p s.freep))
  | .insert bp p back => p ∈ S ∧ bp ∉ s.live ∧ ∀ r ∈ back, r.Ok ∧ r.nunits ≤ (s.mem bp).size

/-- The allocator with the free blocks `S`. -/
structure Inv (base : ℕ) (s : State) (S : Finset ℕ) : Prop where
  list : FreeList base s.mem S s.taken s.regions
  loose : Loose s.mem S
  freep : s.freep ∈ S
  asked : ∀ a ∈ s.live, s.asked a + HEADER ≤ HEADER * (s.mem a).size
  pc : s.At S s.pc

/-- The allocator has not been called. -/
structure Fresh (s : State) : Prop where
  freep : s.freep = 0
  pc : s.pc = .idle
  live : s.live = ∅
  regions : s.regions = []

/-- The number of steps that the call in progress needs at most. -/
def State.work (s : State) (S : Finset ℕ) : ℕ :=
  match s.pc with
  | .idle => 0
  | .search _ _ p true => (arc S p s.freep).card + 1
  | .search _ _ p false => (arc S p s.freep).card + 2 * S.card + 6
  | .insert bp p none => (arc S p bp).card + 1
  | .insert bp p (some _) => (arc S p bp).card + S.card + 4

/-- A step of the code or of `sbrk` within a call. -/
def Event.Inner : Event → Prop
  | .code | .grant _ | .deny => True
  | _ => False

lemma request_ok {nbytes : ℕ} (lt : nbytes < 2 ^ 32) : (Request.mk nbytes (units nbytes)).Ok := by
  constructor <;> simp only [units, HEADER] <;> omega

lemma link_other {p bp x : ℕ} (xp : x ≠ p) (xb : x ≠ bp) : link mem p bp x = mem x := by
  by_cases right : behind bp (mem bp).size = (mem p).ptr
  · simp only [link, if_pos right, setPtr]
    split <;> simp [Function.update_of_ne, xp, xb]
  · simp only [link, if_neg right, setPtr]
    split <;> simp [Function.update_of_ne, xp, xb]

lemma Fresh.malloc (h : Fresh s) {nbytes : ℕ} (lt : nbytes < 2 ^ 32) : Inv base (s.malloc base nbytes) {base} := by
  have list : FreeList base (s.malloc base nbytes).mem {base} ∅ [] := by
    have header : (s.malloc base nbytes).mem base = ⟨base, 0⟩ := by simp [State.malloc, h.freep]
    refine ⟨⟨?_, ?_, ?_, ?_, ?_, ?_⟩, Finset.mem_singleton_self _, Finset.disjoint_empty_right _, ?_⟩
    · simp
    · rw [header]
    · simp
    · simp
    · simp [header]
    · simp [header, behind]
    · simp only [Finset.mem_singleton, forall_eq, header]
      exact .single base
  have taken : (s.malloc base nbytes).taken = ∅ := h.live
  have freep : (s.malloc base nbytes).freep = base := if_pos h.freep
  refine ⟨?_, ?_, ?_, ?_, request_ok lt, ?_, rfl, nofun⟩
  · rw [taken, show (s.malloc base nbytes).regions = [] from h.regions]
    exact list
  · intro p mp less
    have := (list.next p mp).mem
    simp only [Finset.mem_singleton] at *
    omega
  · rw [freep]
    exact Finset.mem_singleton_self _
  · intro a mem
    rw [show (s.malloc base nbytes).live = ∅ from h.live] at mem
    simp at mem
  · simp [h.freep]

namespace Inv

lemma freep_ne (h : Inv base s S) (pos : 0 < base) : s.freep ≠ 0 := by
  have := h.list.layout.base_le (Finset.mem_union_left _ h.freep)
  omega

lemma malloc (h : Inv base s S) (pos : 0 < base) (pc : s.pc = .idle) {nbytes : ℕ} (lt : nbytes < 2 ^ 32) :
    Inv base (s.malloc base nbytes) S := by
  have ne := h.freep_ne pos
  have taken : s.taken = s.live := by rw [State.taken, pc]
  have list := h.list
  rw [taken] at list
  have eq : s.malloc base nbytes =
      { s with pc := .search ⟨nbytes, units nbytes⟩ s.freep (s.mem s.freep).ptr false } := by
    simp [State.malloc, ne]
  rw [eq]
  exact ⟨list, h.loose, h.freep, h.asked, request_ok lt, h.freep, rfl, nofun⟩

lemma search (h : Inv base s S) {r : Request} {prevp p : ℕ} {g : Bool} (pc : s.pc = .search r prevp p g) :
    FreeList base s.mem S s.live s.regions ∧ r.Ok ∧ prevp ∈ S ∧ (s.mem prevp).ptr = p ∧ p ∈ S ∧
      (g = true → ∃ x ∈ S, r.nunits ≤ (s.mem x).size ∧ (x = p ∨ x ∈ arc S p s.freep)) := by
  have list := h.list
  have at_ := h.pc
  rw [State.taken, pc] at list
  rw [pc] at at_
  obtain ⟨ok, mprev, eq, big⟩ := at_
  exact ⟨list, ok, mprev, eq, eq ▸ (list.next prevp mprev).mem, big⟩

lemma insert (h : Inv base s S) {bp p : ℕ} {back : Option Request} (pc : s.pc = .insert bp p back) :
    FreeList base s.mem S (insert bp s.live) s.regions ∧ p ∈ S ∧ bp ∉ s.live ∧ bp ∉ S ∧
      ∀ r ∈ back, r.Ok ∧ r.nunits ≤ (s.mem bp).size := by
  have list := h.list
  have at_ := h.pc
  rw [State.taken, pc] at list
  rw [pc] at at_
  obtain ⟨mp, new, ok⟩ := at_
  exact ⟨list, mp, new, fun mb => list.ne mb (Finset.mem_insert_self _ _) rfl, ok⟩

lemma unlink (h : Inv base s S) {r : Request} {prevp p : ℕ} {g : Bool} (pc : s.pc = .search r prevp p g)
    (size : (s.mem p).size = r.nunits) :
    Inv base (s.give r prevp p (setPtr s.mem prevp (s.mem p).ptr)) (S.erase p) := by
  obtain ⟨list, ok, mprev, eq, mp, -⟩ := h.search pc
  have pb : p ≠ base := by
    rintro rfl
    have := list.layout.zero
    have := ok.pos
    omega
  have ne : prevp ≠ p := by
    rintro rfl
    exact (list.next prevp mprev).ne list.head (Ne.symm pb) eq
  have sizes : ∀ a, (setPtr s.mem prevp (s.mem p).ptr a).size = (s.mem a).size := by
    intro a
    simp only [setPtr, Function.update_apply]
    grind
  refine ⟨list.take mprev eq pb, list.take_loose h.loose mprev eq pb, Finset.mem_erase.2 ⟨ne, mprev⟩, ?_, trivial⟩
  intro a mem
  simp only [State.give, sizes, Function.update_apply]
  split
  case isTrue eq =>
    rw [eq, size]
    exact ok.enough
  case isFalse ne => exact h.asked a ((Finset.mem_insert.1 mem).resolve_left ne)

lemma split (h : Inv base s S) {r : Request} {prevp p : ℕ} {g : Bool} (pc : s.pc = .search r prevp p g)
    (size : r.nunits < (s.mem p).size) :
    Inv base (s.give r prevp (behind p ((s.mem p).size - r.nunits))
      (setSize (setSize s.mem p ((s.mem p).size - r.nunits)) (behind p ((s.mem p).size - r.nunits)) r.nunits)) S := by
  obtain ⟨list, ok, mprev, -, mp, -⟩ := h.search pc
  obtain ⟨new, list', loose⟩ := list.carve h.loose mp ok.pos size
  refine ⟨list', loose, mprev, ?_, trivial⟩
  generalize behind p ((s.mem p).size - r.nunits) = a' at *
  intro a mem
  simp only [State.give, Function.update_apply, setSize]
  split
  case isTrue => exact ok.enough
  case isFalse ne =>
    have live := (Finset.mem_insert.1 mem).resolve_left ne
    have ap : a ≠ p := (list.ne mp live).symm
    simp only [ap, if_false]
    exact h.asked a live

lemma next (h : Inv base s S) {r : Request} {prevp p : ℕ} {g : Bool} (pc : s.pc = .search r prevp p g)
    (size : (s.mem p).size < r.nunits) (ne : p ≠ s.freep) :
    Inv base { s with pc := .search r p (s.mem p).ptr g } S ∧
      (arc S p s.freep).card = (arc S (s.mem p).ptr s.freep).card + 1 := by
  obtain ⟨list, ok, -, -, mp, big⟩ := h.search pc
  have on := next_mem_arc (list.next p mp) h.freep ne
  refine ⟨⟨list, h.loose, h.freep, h.asked, ok, mp, rfl, fun grown => ?_⟩, card_arc_next (list.next p mp) on⟩
  obtain ⟨x, mx, large, rfl | ahead⟩ := big grown
  · omega
  · refine ⟨x, mx, large, ?_⟩
    by_cases eq : x = (s.mem p).ptr
    · exact .inl eq
    · refine .inr ?_
      dsimp only
      rw [arc_next (list.next p mp) on]
      exact Finset.mem_erase.2 ⟨eq, ahead⟩

lemma not_grown (h : Inv base s S) {r : Request} {prevp p : ℕ} {g : Bool} (pc : s.pc = .search r prevp p g)
    (size : (s.mem p).size < r.nunits) (eq : p = s.freep) : g = false := by
  obtain ⟨-, -, -, -, -, big⟩ := h.search pc
  cases g with
  | false => rfl
  | true =>
    obtain ⟨x, mx, large, rfl | ahead⟩ := big rfl
    · omega
    · rw [eq, mem_arc] at ahead
      omega

lemma deny (h : Inv base s S) {r : Request} {prevp p : ℕ} {g : Bool} (pc : s.pc = .search r prevp p g) :
    Inv base { s with pc := .idle } S := by
  obtain ⟨list, -⟩ := h.search pc
  exact ⟨list, h.loose, h.freep, h.asked, trivial⟩

lemma grant (h : Inv base s S) {r : Request} {prevp p hp : ℕ} {g : Bool} (pc : s.pc = .search r prevp p g)
    (above : base + HEADER ≤ hp) (dis : ∀ x ∈ s.regions, Region.Disjoint ⟨hp, core r.nunits⟩ x) :
    Inv base { s with
      mem := setSize s.mem hp (core r.nunits)
      regions := ⟨hp, core r.nunits⟩ :: s.regions
      pc := .insert hp s.freep (some r) } S := by
  obtain ⟨list, ok, -⟩ := h.search pc
  have core_pos : 0 < core r.nunits := by
    rw [core]
    split <;> omega
  obtain ⟨new, list', loose⟩ := list.grant h.loose above core_pos dis
  have notLive : hp ∉ s.live := fun mem => new (Finset.mem_union_right _ mem)
  refine ⟨list', loose, h.freep, fun a mem => ?_, h.freep, notLive, ?_⟩
  · simp only [setSize, Function.update_of_ne (fun eq => notLive (eq ▸ mem) : a ≠ hp)]
    exact h.asked a mem
  · rintro _ ⟨⟩
    refine ⟨ok, ?_⟩
    simp only [setSize, Function.update_self, core]
    split <;> omega

lemma free (h : Inv base s S) (pc : s.pc = .idle) {bp : ℕ} (live : bp ∈ s.live) :
    Inv base { s with live := s.live.erase bp, pc := .insert bp s.freep none } S := by
  have list := h.list
  rw [State.taken, pc] at list
  refine ⟨?_, h.loose, h.freep, fun a mem => h.asked a (Finset.mem_of_mem_erase mem), h.freep, Finset.notMem_erase _ _, nofun⟩
  simpa [State.taken, Finset.insert_erase live] using list

lemma walk (h : Inv base s S) {bp p : ℕ} {back : Option Request} (pc : s.pc = .insert bp p back)
    (no : ¬ Gap p (s.mem p).ptr bp) :
    Inv base { s with pc := .insert bp (s.mem p).ptr back } S ∧
      (arc S p bp).card = (arc S (s.mem p).ptr bp).card + 1 := by
  obtain ⟨list, mp, new, free, ok⟩ := h.insert pc
  have n := list.next p mp
  exact ⟨⟨list, h.loose, h.freep, h.asked, n.mem, new, ok⟩, card_arc_next n (next_mem_arc_of_not_gap n mp free no)⟩

lemma link (h : Inv base s S) (pos : 0 < base) (fits : s.obtained < 2 ^ 32) {bp p : ℕ} {back : Option Request}
    (pc : s.pc = .insert bp p back) (gap : Gap p (s.mem p).ptr bp) :
    ∃ S', Inv base (s.linked bp p back) S' ∧ S'.card ≤ S.card + 1 ∧
      (s.linked bp p back).pc = match back with
        | none => .idle
        | some r => .search r p ((s.linked bp p back).mem p).ptr true := by
  obtain ⟨list, mp, new, free, ok⟩ := h.insert pc
  obtain ⟨S', list', loose, mp', sub, x, mx, large⟩ := list.link h.loose fits mp (Finset.mem_insert_self _ _) gap
  rw [Finset.erase_insert new] at list'
  have asked : ∀ a ∈ s.live, s.asked a + HEADER ≤ HEADER * (Umalloc.link s.mem p bp a).size := by
    intro a mem
    have ap : a ≠ p := (list.ne mp (Finset.mem_insert_of_mem mem)).symm
    have ab : a ≠ bp := fun eq => new (eq ▸ mem)
    rw [link_other ap ab]
    exact h.asked a mem
  have p0 : p ≠ 0 := by
    have := list.layout.base_le (Finset.mem_union_left _ mp)
    omega
  refine ⟨S', ?_, (Finset.card_le_card sub).trans (Finset.card_insert_le _ _), ?_⟩
  · cases back with
    | none => exact ⟨list', loose, mp', asked, trivial⟩
    | some r =>
      obtain ⟨rok, small⟩ := ok r rfl
      have eq : s.linked bp p (some r) = { s with
          mem := Umalloc.link s.mem p bp
          freep := p
          pc := .search r p (Umalloc.link s.mem p bp p).ptr true } := by
        simp [State.linked, p0]
      rw [eq]
      refine ⟨list', loose, mp', asked, rok, mp', rfl, fun _ => ⟨x, mx, small.trans large, ?_⟩⟩
      exact mem_arc_of_next (list'.next p mp') mx
  · cases back with
    | none => rfl
    | some r => exact if_neg p0

lemma write (h : Inv base s S) (pc : s.pc = .idle)
    (only : ∀ q, mem q ≠ s.mem q → ∃ a ∈ s.live, q < behind a (s.mem a).size ∧ a < q) :
    Inv base { s with mem := mem } S := by
  have list := h.list
  rw [State.taken, pc] at list
  have same : ∀ q ∈ S ∪ s.live, mem q = s.mem q := by
    intro q mq
    by_contra ne
    obtain ⟨a, live, lt, aq⟩ := only q ne
    have := list.layout.apart a (Finset.mem_union_right _ live) q mq aq
    omega
  have inS : ∀ q ∈ S, mem q = s.mem q := fun q mq => same q (Finset.mem_union_left _ mq)
  refine ⟨?_, fun p mp => ?_, h.freep, fun a live => ?_, ?_⟩
  · rw [State.taken]
    simp only [pc]
    exact list.congr (fun a ma => by rw [same a ma]) (fun a ma => by rw [inS a ma])
  · simp only [inS p mp]
    exact h.loose p mp
  · simp only [same a (Finset.mem_union_right _ live)]
    exact h.asked a live
  · simp only [pc]
    trivial

end Inv

/-- The allocator has not been called, or it is as it should be. -/
def Good (base : ℕ) (s : State) : Prop := Fresh s ∨ ∃ S, Inv base s S

lemma work_pos (pc : s.pc ≠ .idle) : 0 < s.work S := by
  unfold State.work
  split <;> first | contradiction | omega

/-- A step of the program keeps the heap, and a step within a call also brings it nearer to its end. -/
lemma Inv.step (h : Inv base s S) (pos : 0 < base) (st : Step base s e s') (before : s.obtained < 2 ^ 32)
    (fits : Fits base s') : ∃ S', Inv base s' S' ∧ (e.Inner → s'.work S' < s.work S) := by
  cases st with
  | malloc pc lt => exact ⟨S, h.malloc pos pc (by omega), False.elim⟩
  | unlink pc size => exact ⟨_, h.unlink pc size, fun _ => work_pos (by simp [pc])⟩
  | split pc size => exact ⟨_, h.split pc size, fun _ => work_pos (by simp [pc])⟩
  | deny pc => exact ⟨_, h.deny pc, fun _ => work_pos (by simp [pc])⟩
  | @next r prevp p g pc size ne =>
    obtain ⟨h', less⟩ := h.next pc size ne
    refine ⟨_, h', fun _ => ?_⟩
    cases g <;> simp only [State.work, pc] <;> omega
  | @grant r prevp p g hp pc size eq dis =>
    obtain rfl := h.not_grown pc size eq
    refine ⟨_, h.grant pc (fits.above _ List.mem_cons_self) dis, fun _ => ?_⟩
    have := card_arc_le (S := S) (p := s.freep) (t := hp)
    simp only [State.work, pc]
    omega
  | free pc live => exact ⟨_, h.free pc live, False.elim⟩
  | @walk bp p back pc no =>
    obtain ⟨h', less⟩ := h.walk pc no
    refine ⟨_, h', fun _ => ?_⟩
    cases back <;> simp only [State.work, pc] <;> omega
  | @link bp p back pc gap =>
    obtain ⟨S', h', card, pc'⟩ := h.link pos before pc gap
    refine ⟨S', h', fun _ => ?_⟩
    cases back with
    | none =>
      simp only [State.work, pc, pc']
      omega
    | some r =>
      have := card_arc_le (S := S') (p := ((s.linked bp p (some r)).mem p).ptr) (t := (s.linked bp p (some r)).freep)
      simp only [State.work, pc, pc']
      omega
  | write pc only => exact ⟨_, h.write pc only, False.elim⟩

/-- A step that has left the memory within its limits. -/
abbrev FitStep (base : ℕ) (s : State) (e : Event) (s' : State) : Prop := Step base s e s' ∧ Fits base s'

lemma Fresh.step (h : Fresh s) (st : Step base s e s') : Good base s' ∧ ¬ e.Inner := by
  have pc := h.pc
  cases st with
  | malloc _ lt => exact ⟨.inr ⟨_, h.malloc (by omega)⟩, id⟩
  | free _ live => simp [h.live] at live
  | write => exact ⟨.inl ⟨h.freep, h.pc, h.live, h.regions⟩, id⟩
  | unlink pc' | split pc' | next pc' | deny pc' | grant pc' | walk pc' | link pc' =>
    rw [pc] at pc'
    cases pc'

lemma good (pos : 0 < base) (run : Run (FitStep base) (boot mem) es s) : Good base s ∧ s.obtained < 2 ^ 32 := by
  refine run.invariant (P := fun s => Good base s ∧ s.obtained < 2 ^ 32) ?_ ?_
  · exact ⟨.inl ⟨rfl, rfl, rfl, rfl⟩, by simp [boot, State.obtained]⟩
  · rintro s e s' ⟨fresh | ⟨S, h⟩, before⟩ ⟨st, fits⟩
    · exact ⟨(fresh.step st).1, fits.obtained⟩
    · obtain ⟨S', h', -⟩ := h.step pos st before fits
      exact ⟨.inr ⟨S', h'⟩, fits.obtained⟩

lemma Inv.inner (h : Inv base s S) (pos : 0 < base) (before : s.obtained < 2 ^ 32) (run : Run (FitStep base) s es s')
    (inner : ∀ e ∈ es, e.Inner) : ∃ S', Inv base s' S' ∧ s'.obtained < 2 ^ 32 ∧ s'.work S' + es.length ≤ s.work S := by
  induction run with
  | nil => exact ⟨S, h, before, le_rfl⟩
  | @snoc es e t u run st ih =>
    obtain ⟨in₁, in₂⟩ := List.forall_mem_append.1 inner
    obtain ⟨S₁, h₁, before₁, le₁⟩ := ih in₁
    obtain ⟨S₂, h₂, less⟩ := h₁.step pos st.1 before₁ st.2
    have := less (in₂ e (List.mem_singleton_self _))
    refine ⟨S₂, h₂, st.2.obtained, ?_⟩
    rw [List.length_append, List.length_singleton]
    omega

lemma progress (pc : s.pc ≠ .idle) : ∃ e s', Step base s e s' ∧ e.Inner := by
  cases eq : s.pc with
  | idle => exact absurd eq pc
  | search r prevp p g =>
    obtain small | fit | large := Nat.lt_trichotomy (s.mem p).size r.nunits
    · by_cases last : p = s.freep
      · exact ⟨_, _, .deny eq small last, trivial⟩
      · exact ⟨_, _, .next eq small last, trivial⟩
    · exact ⟨_, _, .unlink eq fit, trivial⟩
    · exact ⟨_, _, .split eq large, trivial⟩
  | insert bp p back =>
    by_cases gap : Gap p (s.mem p).ptr bp
    · exact ⟨_, _, .link eq gap, trivial⟩
    · exact ⟨_, _, .walk eq gap, trivial⟩

/-- The heap between two calls, with the free blocks `S`: the free list goes once through them in the order of their addresses
and back to the first one; they are apart from each other and not adjacent, and apart from the live blocks; a live block has as
many bytes behind its header as were asked for; and the blocks have all units. -/
structure WellFormed (s : State) (S : Finset ℕ) : Prop where
  freep : s.freep = 0 ∧ S = ∅ ∨ s.freep ∈ S
  circular : ∀ x ∈ S, ∃ k, (fun p => (s.mem p).ptr)^[k] s.freep = x
  sorted : ∀ p ∈ S, IsNext S p (s.mem p).ptr
  apart : ∀ p ∈ S, ∀ q ∈ S, p < q → behind p (s.mem p).size < q
  live : ∀ p ∈ S, ∀ a ∈ s.live, p ≠ a ∧ (behind p (s.mem p).size ≤ a ∨ behind a (s.mem a).size ≤ p)
  lives : ∀ a ∈ s.live, ∀ b ∈ s.live, a < b → behind a (s.mem a).size ≤ b
  asked : ∀ a ∈ s.live, a + HEADER + s.asked a ≤ behind a (s.mem a).size
  units : ∑ p ∈ S, (s.mem p).size + ∑ a ∈ s.live, (s.mem a).size = s.obtained

lemma Inv.wellFormed (h : Inv base s S) (pc : s.pc = .idle) : WellFormed s S := by
  have list := h.list
  rw [State.taken, pc] at list
  have lay := list.layout
  constructor
  case freep => exact .inr h.freep
  case circular => exact fun x mx => exists_iterate list.next h.freep mx
  case sorted => exact list.next
  case apart =>
    intro p mp q mq pq
    obtain ⟨mem, ⟨lt, least⟩ | ⟨-, last⟩⟩ := list.next p mp
    · exact (lt_of_le_of_ne (list.behind_le mp lt) (h.loose p mp lt)).trans_le (least q mq pq)
    · have := (last q mq).2
      omega
  case live =>
    intro p mp a ma
    have ne := list.ne mp ma
    refine ⟨ne, ?_⟩
    obtain lt | lt := lt_or_gt_of_ne ne
    · exact .inl (lay.apart p (Finset.mem_union_left _ mp) a (Finset.mem_union_right _ ma) lt)
    · exact .inr (lay.apart a (Finset.mem_union_right _ ma) p (Finset.mem_union_left _ mp) lt)
  case lives => exact fun a ma b mb => lay.apart a (Finset.mem_union_right _ ma) b (Finset.mem_union_right _ mb)
  case asked =>
    intro a ma
    have := h.asked a ma
    simp only [behind]
    omega
  case units =>
    rw [State.obtained, ← lay.total, Finset.sum_union list.sep]

/-- In every run in which `sbrk` gives memory behind `base` and fewer than `2 ^ 32` units, the heap is well formed between two
calls; a call in progress always has a next step, and only so many steps until it is over. -/
theorem user_allocator (pos : 0 < base) (run : Run (FitStep base) (boot mem) es s) :
    (s.pc = .idle → ∃ S, WellFormed s S) ∧
      (s.pc ≠ .idle → ∃ e s', Step base s e s' ∧ e.Inner) ∧
      ∃ n, ∀ es' t, Run (FitStep base) s es' t → (∀ e ∈ es', e.Inner) → es'.length ≤ n := by
  obtain ⟨fresh | ⟨S, h⟩, before⟩ := good pos run
  · refine ⟨fun _ => ⟨∅, ?_⟩, fun pc => absurd fresh.pc pc, 0, fun es' t run inner => ?_⟩
    · have obtained : s.obtained = 0 := by simp [State.obtained, fresh.regions]
      refine ⟨.inl ⟨fresh.freep, rfl⟩, ?_, ?_, ?_, ?_, ?_, ?_, ?_⟩ <;> simp [fresh.live, obtained]
    · cases es' with
      | nil => exact le_rfl
      | cons e es' =>
        obtain ⟨u, st, -⟩ := run.uncons
        exact absurd (inner e List.mem_cons_self) (fresh.step st.1).2
  · refine ⟨fun pc => ⟨S, h.wellFormed pc⟩, progress, s.work S, fun es' t run inner => ?_⟩
    obtain ⟨_, -, -, le⟩ := h.inner pos before run inner
    omega

/-- A program whose `base` is at 16 gets a block for ten bytes, at the end of a region at 64. -/
theorem user_allocator_first : ∃ es s, Run (FitStep 16) (boot fun _ => ⟨0, 0⟩) es s ∧ s.live = {65568} ∧
    ∃ S, WellFormed s S := by
  have fits : ∀ {s : State}, s.regions = [] ∨ s.regions = [⟨64, 4096⟩] → Fits 16 s := by
    rintro s (eq | eq) <;> constructor <;> simp [State.obtained, eq, HEADER]
  have run : Run (FitStep 16) (boot fun _ => ⟨0, 0⟩) [] _ := .nil
  have run := run.snoc (a := .malloc 10) ⟨.malloc rfl (by decide), fits (.inl rfl)⟩
    |>.snoc (a := .grant 64) ⟨.grant rfl (by decide) rfl fun _ mem => absurd mem List.not_mem_nil, fits (.inr rfl)⟩
    |>.snoc ⟨.link rfl (.inr ⟨by decide, .inl (by decide)⟩), fits (.inr rfl)⟩
    |>.snoc ⟨@Step.split _ _ ⟨10, 2⟩ 16 64 true rfl (by decide), fits (.inr rfl)⟩
  exact ⟨_, _, run, rfl, (user_allocator (by decide) run).1 rfl⟩

/-! ### The size of a block wraps -/

/-- The units of a request for `2 ^ 30 - 16` bytes. -/
def gib : ℕ := 2 ^ 26

/-- The address of the block of number `i`, when `sbrk` gives one region behind the other. -/
def gibAt (i : ℕ) : ℕ := 32 + HEADER * (gib * i)

/-- A step of a program whose `base` is at 16, with memory given behind it. -/
def HeapStep (s : State) (e : Event) (s' : State) : Prop :=
  Step 16 s e s' ∧ ∀ r ∈ s'.regions, 16 + HEADER ≤ r.addr

/-- The program has `k` blocks, and nothing is free. -/
structure Filled (k : ℕ) (s : State) : Prop where
  pc : s.pc = .idle
  freep : s.freep = 0 ∧ k = 0 ∨ s.freep = 16 ∧ s.mem 16 = ⟨16, 0⟩
  live : s.live = (Finset.range k).image gibAt
  size : ∀ i < k, (s.mem (gibAt i)).size = gib
  regions : ∀ r ∈ s.regions, ∃ i < k, r = ⟨gibAt i, gib⟩
  obtained : s.obtained = gib * k

lemma gibAt_ge (i : ℕ) : 16 + HEADER ≤ gibAt i := by
  simp only [gibAt, HEADER]
  omega

lemma gibAt_le {i j : ℕ} (lt : i < j) : behind (gibAt i) gib ≤ gibAt j := by
  simp only [behind, gibAt, gib, HEADER]
  omega

lemma link_lone {bp : ℕ} (base : mem 16 = ⟨16, 0⟩) (gt : 16 < bp) :
    link mem 16 bp = setPtr (setPtr mem bp 16) 16 bp := by
  have right : behind bp (mem bp).size ≠ 16 := by
    simp only [behind, HEADER]
    omega
  have left : behind 16 0 ≠ bp := by
    simp only [behind]
    omega
  simp [link, base, right, setPtr, Function.update_of_ne gt.ne, left]

/-- The program asks for a block: `base` is the free list, and there is nothing in it. -/
lemma Filled.malloc {k : ℕ} (h : Filled k s) : ∃ mem, Step 16 s (.malloc (2 ^ 30 - 16))
    { s with mem := mem, freep := 16, pc := .search ⟨2 ^ 30 - 16, gib⟩ 16 16 false } ∧
      mem 16 = ⟨16, 0⟩ ∧ ∀ a, a ≠ 16 → mem a = s.mem a := by
  have call : Step 16 s (.malloc (2 ^ 30 - 16)) (s.malloc 16 (2 ^ 30 - 16)) := .malloc h.pc (by decide)
  rw [State.malloc, show units (2 ^ 30 - 16) = gib by decide] at call
  obtain ⟨eq, -⟩ | ⟨eq, base⟩ := h.freep
  · refine ⟨Function.update s.mem 16 ⟨16, 0⟩, ?_, Function.update_self .., fun a ne => Function.update_of_ne ne _ _⟩
    simpa only [eq, if_true, Function.update_self] using call
  · refine ⟨s.mem, ?_, base, fun _ _ => rfl⟩
    simpa [eq, base] using call

/-- `free` of a block when the free list is `base` alone, in a call of `morecore` or of the program. -/
lemma Step.lone {t : State} {bp : ℕ} {back : Option Request} (pc : t.pc = .insert bp 16 back)
    (base : t.mem 16 = ⟨16, 0⟩) (gt : 16 < bp) :
    Step 16 t .code { t with
      mem := setPtr (setPtr t.mem bp 16) 16 bp
      freep := 16
      pc := match back with
        | none => .idle
        | some r => .search r 16 bp true } := by
  have st := @Step.link 16 t bp 16 back pc (.inr ⟨by rw [base], .inl gt⟩)
  simp only [State.linked, link_lone base gt] at st
  cases back <;> simpa [setPtr] using st

lemma Filled.more {k : ℕ} (h : Filled k s) : ∃ es s', Run HeapStep s es s' ∧ Filled (k + 1) s' := by
  have gt : 16 < gibAt k := (gibAt_ge k).trans_lt' (by decide)
  have ne : ∀ i < k, gibAt i ≠ gibAt k := by
    intro i lt
    have := gibAt_le lt
    simp only [behind, gib, HEADER] at this
    omega
  have dis : ∀ x ∈ s.regions, Region.Disjoint ⟨gibAt k, gib⟩ x := by
    intro x mx
    obtain ⟨i, lt, rfl⟩ := h.regions x mx
    exact .inr (gibAt_le lt)
  have above : ∀ x ∈ s.regions, 16 + HEADER ≤ x.addr := by
    intro x mx
    obtain ⟨i, -, rfl⟩ := h.regions x mx
    exact gibAt_ge i
  have above' : ∀ x ∈ (⟨gibAt k, gib⟩ : Region) :: s.regions, 16 + HEADER ≤ x.addr :=
    List.forall_mem_cons.2 ⟨gibAt_ge k, above⟩
  obtain ⟨mem, call, base, same⟩ := h.malloc
  have grant := @Step.grant 16 { s with mem := mem, freep := 16, pc := .search ⟨2 ^ 30 - 16, gib⟩ 16 16 false } _ 16 16 false
    (gibAt k) rfl (by simp only [base]; decide) rfl dis
  have base' : setSize mem (gibAt k) gib 16 = ⟨16, 0⟩ := by rw [setSize, Function.update_of_ne gt.ne, base]
  have run : Run HeapStep s [] s := .nil
  have run := run.snoc ⟨call, above⟩ |>.snoc ⟨grant, above'⟩ |>.snoc ⟨.lone rfl base' gt, above'⟩
    |>.snoc ⟨.unlink rfl (by simp [setPtr, setSize, Function.update_of_ne gt.ne']; rfl), above'⟩
  refine ⟨_, _, run, ?_⟩
  constructor
  case pc => rfl
  case freep => simp [State.give, setPtr, setSize, base, Function.update_of_ne gt.ne, Function.update_of_ne gt.ne']
  case live => simp [State.give, h.live, Finset.range_add_one]
  case size =>
    intro i lt
    obtain rfl | lt := Nat.lt_succ_iff_lt_or_eq.1 lt |>.symm
    · simp [State.give, setPtr, setSize, Function.update_of_ne gt.ne']
      rfl
    · have i16 : gibAt i ≠ 16 := by
        have := gibAt_ge i
        simp only [HEADER] at this
        omega
      simpa [State.give, setPtr, setSize, Function.update_of_ne, i16, ne i lt, same _ i16] using h.size i lt
  case regions =>
    intro x mx
    obtain rfl | mx := List.mem_cons.1 mx
    · exact ⟨k, by omega, rfl⟩
    · obtain ⟨i, lt, eq⟩ := h.regions x mx
      exact ⟨i, by omega, eq⟩
  case obtained =>
    have := h.obtained
    have core : core gib = gib := by decide
    simp only [State.obtained, State.give, List.map_cons, List.sum_cons, core] at *
    rw [this]
    ring

/-- The program has freed the first `k` of 64 blocks: they are one block, at the address of the first one. -/
structure Emptied (k : ℕ) (s : State) : Prop where
  pc : s.pc = .idle
  freep : s.freep = 16 ∨ s.freep = gibAt 0
  base : s.mem 16 = ⟨gibAt 0, 0⟩
  free : s.mem (gibAt 0) = ⟨16, gib * k % 2 ^ 32⟩
  live : s.live = (Finset.Ico k 64).image gibAt
  size : ∀ i, k ≤ i → i < 64 → (s.mem (gibAt i)).size = gib
  obtained : s.obtained = 2 ^ 32
  regions : ∀ x ∈ s.regions, 16 + HEADER ≤ x.addr

lemma gibAt_lt {i j : ℕ} : gibAt i < gibAt j ↔ i < j := by
  simp only [gibAt, gib, HEADER]
  omega

lemma erase_gibAt (k : ℕ) :
    ((Finset.Ico k 64).image gibAt).erase (gibAt k) = (Finset.Ico (k + 1) 64).image gibAt := by
  have inj : Function.Injective gibAt := by
    intro i j eq
    simp only [gibAt, gib, HEADER] at eq
    omega
  rw [← Finset.image_erase inj]
  congr 1
  ext x
  simp only [Finset.mem_erase, Finset.mem_Ico]
  omega

lemma Filled.empty (h : Filled 64 s) : ∃ es s', Run HeapStep s es s' ∧ Emptied 1 s' := by
  have gt : 16 < gibAt 0 := by decide
  obtain ⟨-, eq⟩ | ⟨freep, base⟩ := h.freep
  · cases eq
  have above : ∀ x ∈ s.regions, 16 + HEADER ≤ x.addr := by
    intro x mx
    obtain ⟨i, -, rfl⟩ := h.regions x mx
    exact gibAt_ge i
  have free := @Step.free 16 s (gibAt 0) h.pc (by rw [h.live]; exact Finset.mem_image_of_mem _ (by simp))
  rw [freep] at free
  have run : Run HeapStep s [] s := .nil
  have run := run.snoc ⟨free, above⟩ |>.snoc ⟨.lone rfl base gt, above⟩
  refine ⟨_, _, run, rfl, .inl rfl, ?_, ?_, ?_, fun i le lt => ?_, h.obtained, above⟩
  · simp [setPtr, Function.update_of_ne gt.ne, base]
  · simp [setPtr, Function.update_of_ne gt.ne', h.size 0 (by decide)]
    decide
  · rw [← erase_gibAt 0, ← Finset.range_eq_Ico, ← h.live]
  · have i0 : gibAt i ≠ gibAt 0 := (gibAt_lt.2 (by omega)).ne'
    have i16 : gibAt i ≠ 16 := ((gibAt_ge i).trans_lt' (by decide)).ne'
    simpa [setPtr, Function.update_of_ne, i0, i16] using h.size i lt

lemma link_behind {bp n : ℕ} (free : mem (gibAt 0) = ⟨16, n⟩) (gt : 16 < bp) (adj : behind (gibAt 0) n = bp) (pos : 0 < n) :
    link mem (gibAt 0) bp = Function.update (setPtr mem bp 16) (gibAt 0) ⟨16, addUint n (mem bp).size⟩ := by
  have right : behind bp (mem bp).size ≠ 16 := by
    simp only [behind, HEADER]
    omega
  have ne : gibAt 0 ≠ bp := by
    simp only [behind, HEADER] at adj
    omega
  simp [link, free, right, setPtr, Function.update_of_ne ne, adj]

lemma Emptied.more {k : ℕ} (h : Emptied k s) (lt : k < 64) (pos : 0 < k) :
    ∃ es s', Run HeapStep s es s' ∧ Emptied (k + 1) s' := by
  have gt : 16 < gibAt k := (gibAt_ge k).trans_lt' (by decide)
  have lt0 : gibAt 0 < gibAt k := gibAt_lt.2 pos
  have size : gib * k % 2 ^ 32 = gib * k := by
    simp only [gib]
    omega
  have free := @Step.free 16 s (gibAt k) h.pc (by rw [h.live]; exact Finset.mem_image_of_mem _ (by simp [lt]))
  have run : Run HeapStep s [] s := .nil
  have run := run.snoc ⟨free, h.regions⟩
  -- the loop gets to the free block, if it does not start there
  have walk : ∃ es, Run HeapStep s es { s with live := s.live.erase (gibAt k), pc := .insert (gibAt k) (gibAt 0) none } := by
    obtain eq | eq := h.freep
    · rw [eq] at run
      have no : ¬ Gap 16 (s.mem 16).ptr (gibAt k) := by
        rw [h.base]
        simp only [Gap]
        have : 16 < gibAt 0 := by decide
        omega
      have run := run.snoc ⟨.walk rfl no, h.regions⟩
      simp only [h.base] at run
      simp only [eq]
      exact ⟨_, run⟩
    · simp only [eq] at run ⊢
      exact ⟨_, run⟩
  obtain ⟨es, run⟩ := walk
  have gap : Gap (gibAt 0) (s.mem (gibAt 0)).ptr (gibAt k) := by
    rw [h.free]
    exact .inr ⟨by simp [gibAt, HEADER], .inl lt0⟩
  have link := @Step.link 16 { s with live := s.live.erase (gibAt k), pc := .insert (gibAt k) (gibAt 0) none } (gibAt k)
    (gibAt 0) none rfl gap
  have run := run.snoc ⟨link, h.regions⟩
  have eq : Umalloc.link s.mem (gibAt 0) (gibAt k) = _ :=
    link_behind h.free gt (by rw [size]; simp [behind, gibAt]) (by rw [size]; simp [gib]; omega)
  refine ⟨_, _, run, ?_⟩
  simp only [State.linked, eq, size]
  have ne : gibAt 0 ≠ 16 := by decide
  refine ⟨rfl, .inr rfl, ?_, ?_, ?_, fun i le lt => ?_, h.obtained, h.regions⟩
  · simp [setPtr, Function.update_of_ne, ne.symm, gt.ne, h.base]
  · simp [h.size k le_rfl lt, addUint, mul_add]
  · rw [← erase_gibAt k, ← h.live]
  · have i0 : gibAt i ≠ gibAt 0 := (gibAt_lt.2 (by omega)).ne'
    have ik : gibAt i ≠ gibAt k := (gibAt_lt.2 (by omega)).ne'
    simpa [setPtr, Function.update_of_ne, i0, ik] using h.size i (by omega) lt

lemma emptied : ∃ es s, Run HeapStep (boot fun _ => ⟨0, 0⟩) es s ∧ Emptied 64 s := by
  have filled : ∀ k, ∃ es s, Run HeapStep (boot fun _ => ⟨0, 0⟩) es s ∧ Filled k s := by
    intro k
    induction k with
    | zero => exact ⟨[], _, .nil, rfl, .inl ⟨rfl, rfl⟩, rfl, nofun, nofun, rfl⟩
    | succ k ih =>
      obtain ⟨es, s, run, h⟩ := ih
      obtain ⟨es', s', run', h'⟩ := h.more
      exact ⟨_, s', run.append run', h'⟩
  have emptied : ∀ k, k < 64 → ∃ es s, Run HeapStep (boot fun _ => ⟨0, 0⟩) es s ∧ Emptied (k + 1) s := by
    intro k
    induction k with
    | zero =>
      intro _
      obtain ⟨es, s, run, h⟩ := filled 64
      obtain ⟨es', s', run', h'⟩ := h.empty
      exact ⟨_, s', run.append run', h'⟩
    | succ k ih =>
      intro lt
      obtain ⟨es, s, run, h⟩ := ih (by omega)
      obtain ⟨es', s', run', h'⟩ := h.more lt (by omega)
      exact ⟨_, s', run.append run', h'⟩
  exact emptied 63 (by decide)

/-- The program gets 64 blocks of `2 ^ 26` units, one behind the other, and frees them in the same order: they are merged to
one free block, whose size wraps to 0, and no unit is left. -/
theorem user_allocator_wraps : ∃ es s, Run HeapStep (boot fun _ => ⟨0, 0⟩) es s ∧ s.pc = .idle ∧ s.live = ∅ ∧
    s.obtained = 2 ^ 32 ∧ s.mem (gibAt 0) = ⟨16, 0⟩ ∧ ∀ S, ¬ WellFormed s S := by
  obtain ⟨es, s, run, h⟩ := emptied
  have live : s.live = ∅ := by simp [h.live]
  have free : s.mem (gibAt 0) = ⟨16, 0⟩ := h.free
  refine ⟨es, s, run, h.pc, live, h.obtained, free, fun S wf => ?_⟩
  have closed : ∀ k, (fun p => (s.mem p).ptr)^[k] s.freep = 16 ∨ (fun p => (s.mem p).ptr)^[k] s.freep = gibAt 0 := by
    intro k
    induction k with
    | zero => exact h.freep
    | succ k ih =>
      rw [Function.iterate_succ_apply']
      obtain eq | eq := ih <;> simp [eq, h.base, free]
  have zero : ∀ x ∈ S, (s.mem x).size = 0 := by
    intro x mx
    obtain ⟨k, eq⟩ := wf.circular x mx
    obtain eq' | eq' := closed k <;> rw [← eq, eq']
    · rw [h.base]
    · rw [free]
  have units := wf.units
  rw [live, Finset.sum_eq_zero zero, h.obtained] at units
  simp at units

end Xv6.Umalloc
