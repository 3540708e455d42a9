import Xv6.User.Allocator
import Xv6.Vm.Sbrk

/-!
# malloc with the memory of a process

The allocator of `umalloc.c` with the system call `sbrk` in the place of the regions that it may be given. `morecore` passes the
product `nu * sizeof(Header)` to `sbrk`, whose parameter is an `int`. `sys_sbrk` returns the old size of the process if
`growproc` succeeds, also for an argument that is negative; the kernel's model is connected by `wp_growproc_sbrk`.

A step of the process is a step of the allocator, or a `sbrk` of its own or of `morecore`. `morecore` writes the size of the new
block at the address that it has got, and the process is killed if there is no page. The heap is inside the memory of the
process (`Within`) as long as no product is too large for an `int`; a call with one that is cannot end well
(`malloc_safe_iff`).
-/

namespace Xv6.Umalloc

/-- The number of bytes of RAM behind the kernel: no process is larger. -/
abbrev MAXSZ : ℕ := 32768 * PGSIZE

/-- What `sys_sbrk(n)` may return for a process of the size `sz`, and its size then. -/
inductive Sbrk (sz : ℕ) (n : ℤ) : Option ℕ → ℕ → Prop where
  | grow : 0 < n → sz + n ≤ MAXSZ → Sbrk sz n (some sz) (sz + n).toNat
  | fail : 0 < n → Sbrk sz n none sz
  | shrink : n ≤ 0 → 0 ≤ sz + n → Sbrk sz n (some sz) (sz + n).toNat
  -- the new size would be negative: nothing happens
  | wrap : sz + n < 0 → Sbrk sz n (some sz) sz

/-- The argument of `sbrk` in `morecore(nunits)`. -/
def increment (nunits : ℕ) : ℤ := (BitVec.ofNat 32 (HEADER * core nunits)).toInt

/-- The allocator, the size of the process, and whether the process has been killed. -/
structure Proc where
  heap : State
  sz : ℕ
  killed : Bool

/-- The address of the size in a header, with its four bytes, is in the memory of a process of the size `sz`. -/
def Mapped (sz p : ℕ) : Prop := p + 12 ≤ PGROUNDUP sz

instance {sz p : ℕ} : Decidable (Mapped sz p) := Nat.decLe _ _

/-- `morecore` has got the address `hp` and calls `free`. -/
def State.granted (s : State) (r : Request) (hp : ℕ) : State :=
  { s with
    mem := setSize s.mem hp (core r.nunits)
    regions := ⟨hp, core r.nunits⟩ :: s.regions
    pc := .insert hp s.freep (some r) }

/-- What happens in a step. `sbrk` and `fault` have the units that `morecore` asks for. -/
inductive Action where
  | malloc (nbytes : ℕ)
  | free (bp : ℕ)
  | write
  | grow (n : ℤ)
  | code
  | sbrk (nu : ℕ)
  | fault (nu : ℕ)
  | deny

/-- The step is part of a call. -/
def Action.Inner : Action → Prop
  | .code | .sbrk _ | .fault _ | .deny => True
  | _ => False

/-- `morecore` has not passed too much to `sbrk`. -/
def Action.Fitting : Action → Prop
  | .sbrk nu | .fault nu => HEADER * nu < 2 ^ 31
  | _ => True

/-- `malloc` has found no block and calls `morecore` for the request `r`. -/
structure Lacks (s : State) (r : Request) : Prop where
  search : ∃ prevp g, s.pc = .search r prevp s.freep g
  small : (s.mem s.freep).size < r.nunits

/-- A step of the process. Its own calls of `sbrk` do not take memory away. -/
inductive ProcStep (base : ℕ) (s : Proc) : Action → Proc → Prop where
  | malloc {nbytes} :
    s.killed = false →
    s.heap.pc = .idle →
    nbytes < 2 ^ 32 →
    ProcStep base s (.malloc nbytes) { s with heap := s.heap.malloc base nbytes }
  | free {bp heap} :
    s.killed = false →
    Step base s.heap (.free bp) heap →
    ProcStep base s (.free bp) { s with heap := heap }
  | write {heap} :
    s.killed = false →
    Step base s.heap .write heap →
    ProcStep base s .write { s with heap := heap }
  | grow {n r sz} :
    s.killed = false →
    s.heap.pc = .idle →
    0 ≤ n →
    Sbrk s.sz n r sz →
    ProcStep base s (.grow n) { s with sz := sz }
  | code {heap} :
    s.killed = false →
    Step base s.heap .code heap →
    ProcStep base s .code { s with heap := heap }
  | sbrk {r hp sz} :
    s.killed = false →
    Lacks s.heap r →
    Sbrk s.sz (increment r.nunits) (some hp) sz →
    Mapped sz hp →
    ProcStep base s (.sbrk (core r.nunits)) ⟨s.heap.granted r hp, sz, false⟩
  | fault {r hp sz} :
    s.killed = false →
    Lacks s.heap r →
    Sbrk s.sz (increment r.nunits) (some hp) sz →
    ¬Mapped sz hp →
    ProcStep base s (.fault (core r.nunits)) ⟨s.heap, sz, true⟩
  | deny {r sz} :
    s.killed = false →
    Lacks s.heap r →
    Sbrk s.sz (increment r.nunits) none sz →
    ProcStep base s .deny ⟨{ s.heap with pc := .idle }, sz, false⟩

/-- A call of `malloc(nbytes)` in the state `s` has ended in the state `t` with a null pointer, or with a pointer to `nbytes`
bytes inside the memory of the process and outside of the other live blocks. -/
inductive Safe (s : Proc) (nbytes : ℕ) (t : Proc) : Prop where
  | null :
    t.killed = false →
    t.heap.live = s.heap.live →
    Safe s nbytes t
  | block {p} :
    t.killed = false →
    p ∉ s.heap.live →
    t.heap.live = insert p s.heap.live →
    p + HEADER + nbytes ≤ t.sz →
    (∀ a ∈ s.heap.live, behind a (t.heap.mem a).size ≤ p + HEADER ∨ p + HEADER + nbytes ≤ a) →
    Safe s nbytes t

/-! ### The system call -/

section kernel

open Frames Prog

lemma wp_growproc_sbrk {V : ℕ → Prop} {P : String → Prop} {h : Memory} {pt tf sz : ℕ} {n : ℤ} (hV : ∀ c, V c → Kinit c)
    (p : ProcMem pt tf sz h) (int : -2 ^ 31 ≤ n ∧ n < 2 ^ 31) :
    wp V P (growproc pt sz n) (fun res _ => Sbrk sz n (if res.1 < 0 then none else some sz) res.2) h := by
  have small := p.small
  obtain ⟨us, e, len, -, space⟩ := p
  have top : ∀ v, v < TRAPFRAME → kernelTop tf v = none := fun v lt => kernelTop_none lt
  have valid : ∀ {i fl b}, Leaf i fl b → fl ≠ PTE_V := fun leaf => leaf.ne_valid
  obtain pos | rfl | neg := lt_trichotomy 0 n
  · have size : addInt sz n = (sz + n).toNat := by
      simp only [addInt]
      omega
    rw [growproc, if_pos pos, wp_bind]
    refine wp_mono (wp_uvmalloc hV top valid space len (by decide) fun _ => userLeaf_write.1) ?_
    rintro sz1 h' (⟨rfl, us', -, len', space'⟩ | ⟨rfl, -⟩)
    · -- the new pages are page frames of the allocator
      have ram := space'.length_le
      have fits := le_pages (max sz (addInt sz n))
      rw [← len'] at fits
      have new : max sz (addInt sz n) = (sz + n).toNat := by omega
      rw [if_neg (by omega), new]
      rw [new] at fits
      refine .grow pos ?_
      simp only [MAXSZ, PGSIZE] at *
      omega
    · exact .fail pos
  · rw [growproc, if_neg (lt_irrefl 0), if_neg (lt_irrefl 0)]
    exact .shrink le_rfl (by omega)
  · rw [growproc, if_neg (by omega), if_pos neg, wp_bind]
    refine wp_mono (wp_uvmdealloc hV top valid space len) ?_
    rintro sz1 h' ⟨rfl, -⟩
    by_cases enough : 0 ≤ (sz : ℤ) + n
    · have size : min sz (addInt sz n) = (sz + n).toNat := by
        simp only [addInt]
        omega
      rw [size]
      exact .shrink neg.le enough
    · have size : min sz (addInt sz n) = sz := by
        simp only [addInt]
        omega
      rw [size]
      exact .wrap (by omega)

end kernel

/-! ### The heap is inside the process -/

variable {base : ℕ} {s s' t : Proc} {a : Action} {as : List Action} {S : Finset ℕ} {r : Request} {L : Finset ℕ}
  {mem : ℕ → Header} {nbytes : ℕ}

lemma Sbrk.addr {sz sz' hp : ℕ} {n : ℤ} (call : Sbrk sz n (some hp) sz') : hp = sz := by
  cases call <;> rfl

lemma Sbrk.le {sz sz' : ℕ} {n : ℤ} {res : Option ℕ} (call : Sbrk sz n res sz') (le : sz ≤ MAXSZ) : sz' ≤ MAXSZ := by
  cases call <;> omega

lemma Sbrk.ge {sz sz' : ℕ} {n : ℤ} {res : Option ℕ} (call : Sbrk sz n res sz') (pos : 0 ≤ n) : sz ≤ sz' := by
  cases call <;> omega

lemma increment_eq {nunits : ℕ} (fits : HEADER * core nunits < 2 ^ 31) : increment nunits = HEADER * core nunits := by
  rw [increment, BitVec.toInt_eq_toNat_of_lt, BitVec.toNat_ofNat, Nat.mod_eq_of_lt (by omega)]
  · push_cast
    rfl
  · rw [BitVec.toNat_ofNat, Nat.mod_eq_of_lt (by omega)]
    omega

lemma core_pos (nunits : ℕ) : 0 < core nunits := by
  rw [core]
  split <;> omega

/-- What holds of a process in which `morecore` has not passed too much to `sbrk`. -/
structure Within (base : ℕ) (s : Proc) : Prop where
  good : Good base s.heap
  above : base + HEADER ≤ s.sz
  le : s.sz ≤ MAXSZ
  regions : ∀ x ∈ s.heap.regions, base + HEADER ≤ x.addr ∧ behind x.addr x.units ≤ s.sz
  obtained : HEADER * s.heap.obtained ≤ s.sz

/-- What holds of the allocator when it has got any region above the memory of the process. -/
structure Beyond (base : ℕ) (s : Proc) (S : Finset ℕ) : Prop where
  inv : Inv base s.heap S
  fits : Fits base s.heap
  le : s.sz ≤ MAXSZ

lemma Within.fits (h : Within base s) : Fits base s.heap where
  above x mem := (h.regions x mem).1
  obtained := by
    have le := h.le
    have obtained := h.obtained
    simp only [MAXSZ, PGSIZE, HEADER] at *
    omega

lemma regions_code {s s' : State} {e : Event} (st : Step base s e s') (plain : ∀ addr, e ≠ .grant addr) :
    s'.regions = s.regions := by
  cases st with
  | grant => exact absurd rfl (plain _)
  | link => rfl
  | _ => rfl

lemma Within.disjoint (h : Within base s) {units : ℕ} :
    ∀ x ∈ s.heap.regions, Region.Disjoint ⟨s.sz, units⟩ x := fun x mem => .inr (h.regions x mem).2

lemma Lacks.step {s : State} (lacks : Lacks s r) {hp : ℕ} (dis : ∀ x ∈ s.regions, Region.Disjoint ⟨hp, core r.nunits⟩ x) :
    Step base s (.grant hp) (s.granted r hp) := by
  obtain ⟨⟨prevp, g, pc⟩, small⟩ := lacks
  exact .grant pc small rfl dis

lemma Lacks.deny {s : State} (lacks : Lacks s r) : Step base s .deny { s with pc := .idle } := by
  obtain ⟨⟨prevp, g, pc⟩, small⟩ := lacks
  exact .deny pc small rfl

lemma mapped_of_le {sz hp : ℕ} (le : sz ≤ MAXSZ) (behind : hp + HEADER ≤ sz) : Mapped sz hp := by
  have up := le_pages sz
  rw [Mapped, PGROUNDUP_eq (by simp only [MAXSZ, PGSIZE] at le; omega)]
  simp only [HEADER] at behind
  omega

lemma Good.step {s s' : State} {e : Event} (h : Good base s) (pos : 0 < base) (st : Step base s e s') (fits : Fits base s)
    (fits' : Fits base s') : Good base s' := by
  obtain fresh | ⟨S, inv⟩ := h
  · exact (fresh.step st).1
  · obtain ⟨S', inv', -⟩ := inv.step pos st fits.obtained fits'
    exact .inr ⟨S', inv'⟩

lemma Within.heap (h : Within base s) (pos : 0 < base) {heap : State} {e : Event} (st : Step base s.heap e heap)
    (plain : ∀ addr, e ≠ .grant addr) : Within base { s with heap := heap } := by
  have regions := regions_code st plain
  have obtained : heap.obtained = s.heap.obtained := by rw [State.obtained, regions]; rfl
  refine ⟨h.good.step pos st h.fits ⟨?_, ?_⟩, h.above, h.le, ?_, ?_⟩
  · rw [regions]
    exact h.fits.above
  · rw [obtained]
    exact h.fits.obtained
  · rw [regions]
    exact h.regions
  · rw [obtained]
    exact h.obtained

lemma Sbrk.fitting {sz sz' hp nunits : ℕ} (call : Sbrk sz (increment nunits) (some hp) sz')
    (fits : HEADER * core nunits < 2 ^ 31) : hp = sz ∧ sz' = sz + HEADER * core nunits := by
  have pos := core_pos nunits
  rw [increment_eq fits] at call
  have positive : 0 < HEADER * core nunits := Nat.mul_pos (by decide) pos
  rw [← Nat.cast_mul] at call
  generalize HEADER * core nunits = n at *
  cases call <;> omega

lemma Within.malloc (h : Within base s) (pos : 0 < base) (pc : s.heap.pc = .idle) (lt : nbytes < 2 ^ 32) :
    Within base { s with heap := s.heap.malloc base nbytes } ∧ ∃ S, Inv base (s.heap.malloc base nbytes) S := by
  have inv : ∃ S, Inv base (s.heap.malloc base nbytes) S := by
    obtain fresh | ⟨S, inv⟩ := h.good
    · exact ⟨_, fresh.malloc lt⟩
    · exact ⟨S, inv.malloc pos pc lt⟩
  exact ⟨⟨.inr inv, h.above, h.le, h.regions, h.obtained⟩, inv⟩

lemma Within.sbrk (h : Within base s) (pos : 0 < base) (lacks : Lacks s.heap r) {hp sz : ℕ}
    (call : Sbrk s.sz (increment r.nunits) (some hp) sz) (fits : HEADER * core r.nunits < 2 ^ 31) :
    Within base ⟨s.heap.granted r hp, sz, false⟩ := by
  have le := call.le h.le
  obtain ⟨rfl, rfl⟩ := call.fitting fits
  have above := h.above
  have obtained : (s.heap.granted r s.sz).obtained = core r.nunits + s.heap.obtained := by
    simp [State.obtained, State.granted]
  have bytes : HEADER * (s.heap.granted r s.sz).obtained ≤ s.sz + HEADER * core r.nunits := by
    have := h.obtained
    rw [obtained, Nat.mul_add]
    omega
  have regions : ∀ x ∈ (s.heap.granted r s.sz).regions, base + HEADER ≤ x.addr ∧
      behind x.addr x.units ≤ s.sz + HEADER * core r.nunits := by
    intro x mem
    obtain rfl | mem := List.mem_cons.mp mem
    · exact ⟨above, le_rfl⟩
    · exact ⟨(h.regions x mem).1, (h.regions x mem).2.trans (Nat.le_add_right _ _)⟩
  have fits' : Fits base (s.heap.granted r s.sz) := by
    refine ⟨fun x mem => (regions x mem).1, ?_⟩
    simp only [MAXSZ, PGSIZE, HEADER] at *
    omega
  exact ⟨h.good.step pos (lacks.step h.disjoint) h.fits fits', by dsimp only; omega, le, regions, bytes⟩

lemma Within.step (h : Within base s) (pos : 0 < base) (st : ProcStep base s a s') (fits : a.Fitting) :
    Within base s' ∧ s'.killed = false := by
  cases st with
  | malloc alive pc lt => exact ⟨(h.malloc pos pc lt).1, alive⟩
  | free alive st => exact ⟨h.heap pos st nofun, alive⟩
  | write alive st => exact ⟨h.heap pos st nofun, alive⟩
  | code alive st => exact ⟨h.heap pos st nofun, alive⟩
  | grow alive _ nonneg call =>
    have ge := call.ge nonneg
    exact ⟨⟨h.good, h.above.trans ge, call.le h.le, fun x mem => (h.regions x mem).imp id fun le => le.trans ge,
      h.obtained.trans ge⟩, alive⟩
  | sbrk alive lacks call mapped => exact ⟨h.sbrk pos lacks call fits, rfl⟩
  | @fault r hp sz alive lacks call unmapped =>
    have le := call.le h.le
    obtain ⟨rfl, rfl⟩ := call.fitting fits
    have core := core_pos r.nunits
    exact absurd (mapped_of_le le (by simp only [HEADER]; omega)) unmapped
  | deny alive lacks call =>
    cases call
    have same := h.heap pos lacks.deny nofun
    exact ⟨⟨same.good, same.above, same.le, same.regions, same.obtained⟩, rfl⟩

/-! ### One call -/

/-- A call of `malloc` for the request `r` goes on, with the live blocks `L`; `grown` says that it has got memory. -/
def Calls (L : Finset ℕ) (r : Request) (grown : Bool) (s : State) : Prop :=
  s.live = L ∧
    ((∃ prevp p, s.pc = .search r prevp p grown) ∨ grown = true ∧ ∃ bp p, s.pc = .insert bp p (some r))

/-- The call has given a block. -/
def Gives (L : Finset ℕ) (r : Request) (s : State) : Prop :=
  s.pc = .idle ∧ ∃ p ∉ L, s.live = insert p L ∧ s.asked p = r.nbytes

section calls
variable {s s' : State} {g : Bool}

lemma not_code_of_idle (pc : s.pc = .idle) : ¬Step base s .code s' := by
  intro st
  cases st with
  | unlink is | split is | next is | walk is | link is =>
    rw [pc] at is
    cases is

lemma Calls.ne_idle (c : Calls L r g s) : s.pc ≠ .idle := by
  obtain ⟨-, ⟨_, _, pc⟩ | ⟨-, _, _, pc⟩⟩ := c <;> simp [pc]

lemma Calls.search (c : Calls L r g s) {r' : Request} {prevp p : ℕ} {g' : Bool} (pc : s.pc = .search r' prevp p g') :
    r' = r ∧ g' = g := by
  obtain ⟨-, ⟨_, _, is⟩ | ⟨-, _, _, is⟩⟩ := c
  · rw [pc] at is
    cases is
    exact ⟨rfl, rfl⟩
  · rw [pc] at is
    cases is

/-- `morecore` is called for the request of the call, which has not got memory before. -/
lemma Calls.lacks (c : Calls L r g s) (inv : Inv base s S) {r' : Request} (lacks : Lacks s r') : r' = r ∧ g = false := by
  obtain ⟨⟨prevp, g', pc⟩, small⟩ := lacks
  obtain ⟨rfl, rfl⟩ := c.search pc
  exact ⟨rfl, inv.not_grown pc small rfl⟩

lemma Calls.code (c : Calls L r g s) (inv : Inv base s S) (pos : 0 < base) (fits : s.obtained < 2 ^ 32)
    (st : Step base s .code s') : Calls L r g s' ∨ Gives L r s' := by
  have live := c.1
  cases st with
  | unlink pc size =>
    obtain ⟨rfl, -⟩ := c.search pc
    obtain ⟨list, -, -, -, mp, -⟩ := inv.search pc
    refine .inr ⟨rfl, _, fun mem => list.ne mp (live ▸ mem) rfl, by rw [← live]; rfl, ?_⟩
    simp [State.give]
  | @split r' prevp p g' pc size =>
    obtain ⟨rfl, -⟩ := c.search pc
    obtain ⟨list, ok, -, -, mp, -⟩ := inv.search pc
    refine .inr ⟨rfl, _, fun mem => ?_, by rw [← live]; rfl, ?_⟩
    · -- the tail of a free block is not a block
      have units := ok.pos
      have apart := list.layout.apart p (Finset.mem_union_left _ mp) _ (Finset.mem_union_right _ (live ▸ mem))
      simp only [behind, HEADER] at apart
      omega
    · simp [State.give]
  | next pc =>
    obtain ⟨rfl, rfl⟩ := c.search pc
    exact .inl ⟨live, .inl ⟨_, _, rfl⟩⟩
  | walk pc =>
    obtain ⟨-, ⟨_, _, is⟩ | ⟨grown, _, _, is⟩⟩ := c
    · rw [pc] at is
      cases is
    · rw [pc] at is
      cases is
      exact .inl ⟨live, .inr ⟨grown, _, _, rfl⟩⟩
  | link pc gap =>
    obtain ⟨-, ⟨_, _, is⟩ | ⟨rfl, _, _, is⟩⟩ := c
    · rw [pc] at is
      cases is
    · rw [pc] at is
      cases is
      obtain ⟨S', -, -, pc'⟩ := inv.link pos fits pc gap
      exact .inl ⟨live, .inl ⟨_, _, pc'⟩⟩

end calls

lemma Within.block (h : Within base s) (inv : Inv base s.heap S) (pc : s.heap.pc = .idle) {p : ℕ} (live : p ∈ s.heap.live) :
    p + HEADER + s.heap.asked p ≤ s.sz ∧
      ∀ a ∈ s.heap.live, a ≠ p → behind a (s.heap.mem a).size ≤ p ∨ p + HEADER + s.heap.asked p ≤ a := by
  have list := inv.list
  rw [State.taken, pc] at list
  have asked := inv.asked p live
  have block : p ∈ S ∪ s.heap.live := Finset.mem_union_right _ live
  constructor
  · obtain ⟨x, mem, -, lt⟩ := list.layout.covered p block (behind p (s.heap.mem p).size - 1)
      (by simp only [behind, HEADER] at *; omega) (by simp only [behind, HEADER] at *; omega)
    have inside := (h.regions x mem).2
    simp only [behind, HEADER] at *
    omega
  · intro a mem ne
    obtain below | above := Nat.lt_or_gt_of_ne ne
    · exact .inl (list.layout.apart a (Finset.mem_union_right _ mem) p block below)
    · have apart := list.layout.apart p block a (Finset.mem_union_right _ mem) above
      simp only [behind, HEADER] at *
      omega

/-- How far a call for the request `r` has come after the steps `as`, of which there can be `W`: all is well and the heap is
inside the process; or `sbrk` was given too large a product, and the block that is going to be returned is outside; or the
process has been killed at the header of this block. -/
inductive Status (base : ℕ) (L : Finset ℕ) (r : Request) (W : ℕ) (as : List Action) (t : Proc) : Prop where
  | fine {S : Finset ℕ} :
    (∀ a ∈ as, a.Fitting) →
    Within base t →
    t.killed = false →
    Inv base t.heap S →
    as.length + t.heap.work S ≤ W →
    ((∃ g, Calls L r g t.heap) ∨ (t.heap.pc = .idle ∧ t.heap.live = L) ∨ Gives L r t.heap) →
    Status base L r W as t
  | beyond {S : Finset ℕ} :
    ¬(∀ a ∈ as, a.Fitting) →
    2 ^ 31 ≤ HEADER * core r.nunits →
    t.killed = false →
    Beyond base t S →
    as.length + t.heap.work S ≤ W →
    (Calls L r true t.heap ∨ Gives L r t.heap) →
    Status base L r W as t
  | dead :
    ¬(∀ a ∈ as, a.Fitting) →
    t.killed = true →
    as.length ≤ W →
    Status base L r W as t

section status
variable {W : ℕ}

lemma fitting_append (fine : ∀ a ∈ as, a.Fitting) (last : a.Fitting) : ∀ b ∈ as ++ [a], b.Fitting := by
  intro b mem
  obtain before | here := List.mem_append.mp mem
  · exact fine b before
  · rw [List.mem_singleton.mp here]
    exact last

lemma not_fitting_append (bad : ¬∀ a ∈ as, a.Fitting) : ¬∀ b ∈ as ++ [a], b.Fitting :=
  fun fine => bad fun b mem => fine b (List.mem_append_left _ mem)

lemma Beyond.step (h : Beyond base t S) (pos : 0 < base) (c : Calls L r true t.heap ∨ Gives L r t.heap)
    (st : ProcStep base t a s) (inner : a.Inner) :
    ∃ S', Beyond base s S' ∧ s.heap.work S' < t.heap.work S ∧ s.killed = false ∧
      (Calls L r true s.heap ∨ Gives L r s.heap) := by
  have none (r' : Request) (lacks : Lacks t.heap r') : False := by
    obtain c | ⟨idle, -⟩ := c
    · exact Bool.noConfusion (c.lacks h.inv lacks).2
    · obtain ⟨⟨prevp, g, pc⟩, -⟩ := lacks
      rw [idle] at pc
      cases pc
  cases st with
  | code alive st =>
    obtain c | ⟨idle, -⟩ := c
    · have regions := regions_code st nofun
      have fits : Fits base _ := ⟨by rw [regions]; exact h.fits.above, by
        rw [State.obtained, regions]; exact h.fits.obtained⟩
      obtain ⟨S', inv, less⟩ := h.inv.step pos st h.fits.obtained fits
      exact ⟨S', ⟨inv, fits, h.le⟩, less trivial, alive, c.code h.inv pos h.fits.obtained st⟩
    · exact absurd st (not_code_of_idle idle)
  | sbrk _ lacks => exact (none _ lacks).elim
  | fault _ lacks => exact (none _ lacks).elim
  | deny _ lacks => exact (none _ lacks).elim
  | malloc | free | write | grow => exact inner.elim

/-- The allocator has got a region above the process, of at most `2 ^ 28 + 1` units. -/
lemma Within.granted (h : Within base t) (lacks : Lacks t.heap r) (most : r.nunits ≤ 2 ^ 28 + 1) :
    Step base t.heap (.grant t.sz) (t.heap.granted r t.sz) ∧ Fits base (t.heap.granted r t.sz) := by
  refine ⟨lacks.step h.disjoint, fun x mem => ?_, ?_⟩
  · obtain rfl | mem := List.mem_cons.mp mem
    · exact h.above
    · exact (h.regions x mem).1
  · have obtained : (t.heap.granted r t.sz).obtained = core r.nunits + t.heap.obtained := by
      simp [State.obtained, State.granted]
    have core : core r.nunits ≤ 2 ^ 28 + 1 := by
      rw [core]
      split <;> omega
    have le := h.le
    have bytes := h.obtained
    simp only [MAXSZ, PGSIZE, HEADER] at *
    omega

lemma Status.step (h : Status base L r W as t) (pos : 0 < base) (most : r.nunits ≤ 2 ^ 28 + 1) (st : ProcStep base t a s)
    (inner : a.Inner) : Status base L r W (as ++ [a]) s := by
  have length : (as ++ [a]).length = as.length + 1 := by simp
  cases h with
  | dead bad killed =>
    cases st with
    | malloc alive | free alive | write alive | grow alive | code alive | sbrk alive | fault alive | deny alive =>
      rw [killed] at alive
      cases alive
  | beyond bad large alive beyond bound c =>
    obtain ⟨S', beyond', less, alive', c'⟩ := beyond.step pos c st inner
    exact .beyond (not_fitting_append bad) large alive' beyond' (by omega) c'
  | @fine S fine within alive inv bound c =>
    have idle (pc : t.heap.pc = .idle) (r' : Request) (lacks : Lacks t.heap r') : False := by
      obtain ⟨⟨prevp, g, is⟩, -⟩ := lacks
      rw [pc] at is
      cases is
    have called (r' : Request) (lacks : Lacks t.heap r') : ∃ g, Calls L r g t.heap ∧ r' = r := by
      obtain ⟨g, c⟩ | ⟨pc, -⟩ | ⟨pc, -⟩ := c
      · exact ⟨g, c, (c.lacks inv lacks).1⟩
      · exact (idle pc r' lacks).elim
      · exact (idle pc r' lacks).elim
    cases st with
    | malloc | free | write | grow => exact inner.elim
    | code _ st =>
      have regions := regions_code st nofun
      have fits : Fits base _ := ⟨by rw [regions]; exact within.fits.above, by
        rw [State.obtained, regions]; exact within.fits.obtained⟩
      obtain ⟨S', inv', less⟩ := inv.step pos st within.fits.obtained fits
      have less := less trivial
      refine .fine (fitting_append fine trivial) (within.heap pos st nofun) alive inv' (by dsimp only; omega) ?_
      obtain ⟨g, c⟩ | ⟨pc, -⟩ | ⟨pc, -⟩ := c
      · exact (c.code inv pos within.fits.obtained st).imp (fun c => ⟨g, c⟩) .inr
      · exact absurd st (not_code_of_idle pc)
      · exact absurd st (not_code_of_idle pc)
    | @sbrk r' hp sz _ lacks call mapped =>
      obtain ⟨g, c, rfl⟩ := called _ lacks
      obtain rfl := call.addr
      obtain ⟨grant, fits⟩ := within.granted lacks most
      obtain ⟨S', inv', less⟩ := inv.step pos grant within.fits.obtained fits
      have less := less trivial
      have c' : Calls L r' true (t.heap.granted r' t.sz) := ⟨c.1, .inr ⟨rfl, _, _, rfl⟩⟩
      by_cases small : HEADER * core r'.nunits < 2 ^ 31
      · exact .fine (fitting_append fine small) (within.sbrk pos lacks call small) rfl inv' (by dsimp only; omega)
          (.inl ⟨true, c'⟩)
      · refine .beyond (fun all => small (all (.sbrk _) (by simp))) (Nat.not_lt.mp small) rfl ⟨inv', fits, call.le within.le⟩
          (by dsimp only; omega) (.inl c')
    | @fault r' hp sz _ lacks call unmapped =>
      obtain ⟨g, c, rfl⟩ := called _ lacks
      have more := work_pos (S := S) c.ne_idle
      by_cases small : HEADER * core r'.nunits < 2 ^ 31
      · have alive := (within.step pos (.fault alive lacks call unmapped) small).2
        cases alive
      · exact .dead (fun all => small (all (.fault _) (by simp))) rfl (by omega)
    | @deny _ sz _ lacks call =>
      obtain ⟨g, c, rfl⟩ := called _ lacks
      have more := work_pos (S := S) c.ne_idle
      have inv' : Inv base { t.heap with pc := .idle } S := by
        obtain ⟨⟨prevp, g', pc⟩, -⟩ := lacks
        exact inv.deny pc
      refine .fine (fitting_append fine trivial) (within.step pos (.deny alive lacks call) trivial).1 rfl inv' ?_
        (.inr (.inl ⟨rfl, c.1⟩))
      rw [length]
      exact (Nat.add_le_add_left more _).trans bound

end status

lemma large_request (large : 2 ^ 31 ≤ HEADER * core (units nbytes)) : MAXSZ < nbytes := by
  have many : 2 ^ 27 ≤ units nbytes := by
    rw [core] at large
    split at large <;> simp only [HEADER] at large <;> omega
  simp only [units, HEADER] at many
  simp only [MAXSZ, PGSIZE]
  omega

lemma units_le (lt : nbytes < 2 ^ 32) : units nbytes ≤ 2 ^ 28 + 1 := by
  simp only [units, HEADER]
  omega

lemma Within.status (h : Within base s) (pos : 0 < base) (alive : s.killed = false) (pc : s.heap.pc = .idle)
    (lt : nbytes < 2 ^ 32) : ∃ W, ∀ as t, Run (ProcStep base) { s with heap := s.heap.malloc base nbytes } as t →
      (∀ a ∈ as, a.Inner) → Status base s.heap.live ⟨nbytes, units nbytes⟩ W as t := by
  obtain ⟨within, S, inv⟩ := h.malloc pos pc lt
  refine ⟨(s.heap.malloc base nbytes).work S, fun as t run inner => ?_⟩
  induction run with
  | nil => exact .fine nofun within alive inv (by simp) (.inl ⟨false, rfl, .inl ⟨_, _, rfl⟩⟩)
  | snoc run st ih =>
    obtain ⟨before, last⟩ := List.forall_mem_append.mp inner
    exact (ih before).step pos (units_le lt) st (last _ (List.mem_singleton_self _))

lemma ProcStep.progress (alive : t.killed = false) (pc : t.heap.pc ≠ .idle) : ∃ a t', ProcStep base t a t' ∧ a.Inner := by
  obtain ⟨e, heap, st, inner⟩ : ∃ e s', Step base t.heap e s' ∧ e.Inner := Umalloc.progress pc
  have core (r : Request) (lacks : Lacks t.heap r) : ∃ a t', ProcStep base t a t' ∧ a.Inner := by
    by_cases grows : 0 < increment r.nunits
    · exact ⟨_, _, .deny alive lacks (.fail grows), trivial⟩
    · obtain ⟨sz, call⟩ : ∃ sz, Sbrk t.sz (increment r.nunits) (some t.sz) sz := by
        by_cases enough : 0 ≤ (t.sz : ℤ) + increment r.nunits
        · exact ⟨_, .shrink (by omega) enough⟩
        · exact ⟨_, .wrap (by omega)⟩
      by_cases mapped : Mapped sz t.sz
      · exact ⟨_, _, .sbrk alive lacks call mapped, trivial⟩
      · exact ⟨_, _, .fault alive lacks call mapped, trivial⟩
  cases e with
  | code => exact ⟨_, _, .code alive st, trivial⟩
  | deny =>
    cases st with
    | deny is small last =>
      subst last
      exact core _ ⟨⟨_, _, is⟩, small⟩
  | grant =>
    cases st with
    | grant is small last =>
      subst last
      exact core _ ⟨⟨_, _, is⟩, small⟩
  | malloc | free | write => exact inner.elim

/-- A program whose `base` is in its memory, of any size, has called `malloc`, `free` and `sbrk`, and `morecore` has not passed
too large a product to `sbrk`. Then a call of `malloc` with any number of bytes is over after finitely many steps. It has
returned a null pointer or a pointer to that many bytes inside the memory and outside of the other live blocks if and only if
`morecore` has not been called in it with a product that is too large for an `int`. -/
theorem malloc_safe_iff {sz : ℕ} (pos : 0 < base) (above : base + HEADER ≤ sz) (le : sz ≤ MAXSZ)
    (run : Run (fun s a s' => ProcStep base s a s' ∧ a.Fitting) ⟨boot mem, sz, false⟩ as s) (idle : s.heap.pc = .idle)
    (lt : nbytes < 2 ^ 32) :
    (∃ W, ∀ as' t, Run (ProcStep base) { s with heap := s.heap.malloc base nbytes } as' t → (∀ a ∈ as', a.Inner) →
      as'.length ≤ W ∧ (t.killed = false → t.heap.pc ≠ .idle → ∃ a t', ProcStep base t a t' ∧ a.Inner)) ∧
    ∀ as' t, Run (ProcStep base) { s with heap := s.heap.malloc base nbytes } as' t → (∀ a ∈ as', a.Inner) →
      t.killed = true ∨ t.heap.pc = .idle → (Safe s nbytes t ↔ ∀ a ∈ as', a.Fitting) := by
  have start : Within base ⟨boot mem, sz, false⟩ :=
    ⟨.inl ⟨rfl, rfl, rfl, rfl⟩, above, le, nofun, by simp [boot, State.obtained]⟩
  have reached : Within base s ∧ s.killed = false :=
    run.invariant (P := fun s => Within base s ∧ s.killed = false) ⟨start, rfl⟩ fun h st => h.1.step pos st.1 st.2
  obtain ⟨W, status⟩ := reached.1.status pos reached.2 idle lt
  refine ⟨⟨W, fun as' t run inner => ⟨?_, fun alive pc => ProcStep.progress alive pc⟩⟩, fun as' t run inner done => ?_⟩
  · cases status as' t run inner <;> omega
  · cases status as' t run inner with
    | dead bad killed =>
      refine iff_of_false ?_ bad
      rintro (⟨alive, -⟩ | ⟨alive, -⟩) <;> rw [killed] at alive <;> cases alive
    | beyond bad large alive beyond bound c =>
      refine iff_of_false ?_ bad
      have large := large_request large
      have le := beyond.le
      obtain c | ⟨-, p, new, live, -⟩ := c
      · simp [alive, c.ne_idle] at done
      · rintro (⟨-, same⟩ | ⟨-, -, -, inside, -⟩)
        · rw [same] at live
          exact new (live ▸ Finset.mem_insert_self p _)
        · omega
    | fine fine within alive inv bound c =>
      refine iff_of_true ?_ fine
      have pc : t.heap.pc = .idle := by simpa [alive] using done
      obtain ⟨g, c⟩ | ⟨-, same⟩ | ⟨-, p, new, live, asked⟩ := c
      · exact absurd pc c.ne_idle
      · exact .null alive same
      · have block := within.block inv pc (p := p) (by rw [live]; exact Finset.mem_insert_self p _)
        rw [asked] at block
        refine .block alive new live block.1 fun a mem => ?_
        obtain below | above := block.2 a (by rw [live]; exact Finset.mem_insert_of_mem mem) (fun eq => new (eq ▸ mem))
        · exact .inl (below.trans (Nat.le_add_right p HEADER))
        · exact .inr above

/-- A program of one page, with its `base` at 16, which has not called the allocator. -/
def onePage : Proc := ⟨boot fun _ => ⟨0, 0⟩, 4096, false⟩

lemma first_call {nbytes sz : ℕ} (call : Sbrk 4096 (increment (units nbytes)) (some 4096) sz) (mapped : Mapped sz 4096)
    (pos : 0 < units nbytes) {heap : State}
    (give : Step 16 (((onePage.heap.malloc 16 nbytes).granted ⟨nbytes, units nbytes⟩ 4096).linked 4096 16
      (some ⟨nbytes, units nbytes⟩)) .code heap) :
    Run (ProcStep 16) { onePage with heap := onePage.heap.malloc 16 nbytes } [.sbrk (core (units nbytes)), .code, .code]
      ⟨heap, sz, false⟩ := by
  have lacks : Lacks (onePage.heap.malloc 16 nbytes) ⟨nbytes, units nbytes⟩ := ⟨⟨16, false, rfl⟩, pos⟩
  have gap : Cyclic.Gap 16 16 4096 := .inr ⟨by decide, .inl (by decide)⟩
  have link := @Step.link 16 ((onePage.heap.malloc 16 nbytes).granted ⟨nbytes, units nbytes⟩ 4096) 4096 16
    (some ⟨nbytes, units nbytes⟩) rfl gap
  have grown := @ProcStep.sbrk 16 { onePage with heap := onePage.heap.malloc 16 nbytes } ⟨nbytes, units nbytes⟩ 4096 sz rfl
    lacks call mapped
  have linked := @ProcStep.code 16 ⟨(onePage.heap.malloc 16 nbytes).granted ⟨nbytes, units nbytes⟩ 4096, sz, false⟩ _ rfl link
  exact ((Run.nil.snoc grown).snoc linked).snoc (.code rfl give)

/-- Ten bytes for the program of one page. -/
theorem malloc_ten : ∃ as t, Run (ProcStep 16) { onePage with heap := onePage.heap.malloc 16 10 } as t ∧
    t.heap.pc = .idle ∧ t.heap.live = {69600} ∧ Safe onePage 10 t := by
  have run := first_call (.grow (by decide) (by decide)) (by decide) (by decide)
    (@Step.split _ _ ⟨10, 2⟩ 16 4096 true rfl (by decide))
  have inner : ∀ a ∈ [Action.sbrk (core (units 10)), .code, .code], a.Inner := by simp [Action.Inner]
  have fitting : ∀ a ∈ [Action.sbrk (core (units 10)), .code, .code], a.Fitting := by
    simp only [List.mem_cons, List.not_mem_nil, or_false, forall_eq_or_imp, forall_eq]
    exact ⟨show HEADER * core (units 10) < 2 ^ 31 by decide, trivial, trivial⟩
  have call := malloc_safe_iff (show 0 < 16 by decide) (show 16 + HEADER ≤ 4096 by decide) (by decide)
    (.nil : Run _ onePage [] onePage) rfl (show 10 < 2 ^ 32 by decide)
  exact ⟨_, _, run, rfl, rfl, (call.2 _ _ run inner (.inr rfl)).mpr fitting⟩

/-- A call with the largest number of bytes: `sbrk` is asked for 16 bytes, and the pointer that is returned is the end of the
memory. -/
theorem malloc_most : ∃ as t, Run (ProcStep 16) { onePage with heap := onePage.heap.malloc 16 (2 ^ 32 - 1) } as t ∧
    t.heap.pc = .idle ∧ t.heap.live = {4096} ∧ t.sz = 4096 + HEADER ∧ ¬Safe onePage (2 ^ 32 - 1) t := by
  have run := first_call (.grow (by decide) (by decide)) (by decide) (by decide)
    (@Step.unlink _ _ ⟨2 ^ 32 - 1, 2 ^ 28 + 1⟩ 16 4096 true rfl rfl)
  refine ⟨_, _, run, rfl, rfl, by decide, ?_⟩
  rintro (⟨-, same⟩ | ⟨-, -, -, inside, -⟩)
  · exact absurd same (by decide)
  · have end_ : (4096 + increment (units (2 ^ 32 - 1)) : ℤ).toNat = 4112 := by decide
    simp only at inside
    omega

end Xv6.Umalloc
