import Xv6.Vm.Load
import Xv6.Vm.Args

/-!
# The image `exec` installs

`exec` changes nothing, or replaces the memory of the process by the program and its arguments (`wp_exec`).
-/

namespace Xv6

open Frames Prog

attribute [local irreducible] PTE2PA PA2PTE PTE_FLAGS PX ByteVec.getLE ByteVec.putLE

variable {top : Nat → Option Nat} {h e : Memory} {us : List Nat} {pt : Nat}
  {V : Nat → Prop} {P : String → Prop} {ip : Executable} {mem : Nat → UInt8}

/-! ### The stack -/

/-- The page `n`, the stack guard, can be read by the kernel only; the user can access the others and they hold the bytes
`mem`. -/
def Guarded (mem : Nat → UInt8) (n i fl : Nat) (b : Page) : Prop := Leaf i fl b ∧ (i ≠ n → Holding mem i fl b)

lemma leaf_clear {i fl b} (leaf : UserLeaf i fl b) : Leaf i (fl &&& (2 ^ 10 - 1 - PTE_U)) b := by
  rw [Leaf, Nat.and_assoc]
  exact leaf.1

lemma Space.view_guarded {n a} (s : Space (Guarded mem n) top e us pt h) (lt : a < us.length * PGSIZE)
    (other : a / PGSIZE ≠ n) : (view h pt).byte a = some (mem a) := by
  obtain ⟨x, fl, b, -, hb, ⟨-, holding⟩, found⟩ := s.userFrame_eq lt
  obtain ⟨leaf, bytes⟩ := holding other
  rw [view_byte, found, if_neg leaf.2, Option.bind_some, hb, Option.map_some, bytes _ (Nat.mod_lt a (by decide)),
    Nat.div_add_mod']

lemma Space.view_exact {F : Nat → Nat → Page → Prop} {e' h' : Memory} (s : Space F top e us pt h)
    (hu : ∀ {v pte}, top v = some pte → pte &&& PTE_U = 0)
    (s' : Space (fun i fl b => F i fl b ∧ ∃ x, us[i]? = some x ∧ Xv6.pageAt h pt i = some (x, fl, b)) top e' us pt h') :
    view h' pt = view h pt := by
  have frames : ∀ a, ((userFrame h' pt a).bind fun x => (h' x).map fun page => page.get8 (a % PGSIZE)) =
      (userFrame h pt a).bind fun x => (h x).map fun page => page.get8 (a % PGSIZE) := by
    intro a
    by_cases lt : a < us.length * PGSIZE
    · obtain ⟨x, fl, b, at_x, hb, ⟨_, _, _, eq⟩, found⟩ := s.exact.userFrame_eq lt
      obtain ⟨x', fl', b', at_x', hb', ⟨_, _, _, eq'⟩, found'⟩ := s'.userFrame_eq lt
      simp only [eq', Option.some.injEq, Prod.mk.injEq] at eq
      obtain ⟨-, rfl, rfl⟩ := eq
      obtain rfl := Option.some.inj (at_x'.symm.trans at_x)
      rw [found, found']
      split
      · rfl
      · rw [Option.bind_some, Option.bind_some, hb, hb']
    · have none : ∀ {G : Nat → Nat → Page → Prop} {e h}, Space G top e us pt h → userFrame h pt a = none := by
        intro G e h s
        cases get : userFrame h pt a with
        | none => rfl
        | some x => exact absurd (s.lt_of_userFrame hu get) lt
      rw [none s, none s']
      rfl
  exact UserMemory.ext (funext frames)

lemma stack_pages {n : Nat} (le : n ≤ 32768) : (n + 2) * PGSIZE % 16 = 0 ∧ (n + 1) * PGSIZE + PGSIZE = (n + 2) * PGSIZE ∧
    PGSIZE ≤ (n + 1) * PGSIZE ∧ (n + 2) * PGSIZE < 2 ^ 64 := by
  simp only [PGSIZE]
  omega

lemma stack_sub (n : Nat) : (n + 2) * PGSIZE ≠ 0 ∧ (n + 2) * PGSIZE - PGSIZE = (n + 1) * PGSIZE ∧
    (n + 2) * PGSIZE - 2 * PGSIZE = n * PGSIZE := by
  simp only [PGSIZE]
  omega

attribute [local irreducible] procPagetable loadSegments uvmalloc uvmclear pushArgs procFreepagetable

variable (hV : ∀ c, V c → Kinit c)
include hV

/-- Make the stack and push the arguments: the new address space goes, or it has the program and the arguments. -/
lemma wp_execStack {argv strs tf sz un h₁} (args : List.Forall₂ (StringPage h) argv strs) (few : argv.length < MAXARG)
    (held : Holds mem (kernelTop tf) h un pt h₁) (lenn : un.length = pages sz) :
    wp V P (execStack pt sz argv) (fun res h' => (res = none ∧ h' = h) ∨
      ∃ sz' us' sp, res = some (sz', strs.length, sp) ∧ us'.length = pages sz' ∧ Space Leaf (kernelTop tf) h us' pt h' ∧
        blockSize strs ≤ PGSIZE ∧ ArgBlock (view h' pt) sz' sp strs ∧
        ∀ a < un.length * PGSIZE, (view h' pt).byte a = some (mem a)) h₁ := by
  have ht : ∀ v, v < TRAPFRAME → kernelTop tf v = none := fun v lt => kernelTop_none lt
  have leaf : ∀ {i fl b}, Leaf i fl b → fl ≠ PTE_V := fun fl => fl.ne_valid
  have hF : ∀ {i fl b}, Holding mem i fl b → fl ≠ PTE_V := fun fl => fl.1.1.ne_valid
  have small := held.space.length_le
  have round : PGROUNDUP sz = un.length * PGSIZE := by
    have le := le_pages sz
    rw [← lenn] at le
    rw [PGROUNDUP_eq, lenn]
    simp only [PGSIZE] at le
    omega
  rw [execStack, round, wp_bind]
  refine wp_mono (wp_uvmalloc hV ht hF held.space pages_mul.symm (by decide)
    fun {i} le => ⟨userLeaf_write, fun o _ => ?_⟩) ?_
  · rw [ByteVec.get8_zero, held.zero]
    exact Nat.le_trans (Nat.mul_le_mul_right PGSIZE le) (Nat.le_add_right _ o)
  rintro sz1 h₃ (⟨eq, us₃, -, len₃, s₃⟩ | ⟨rfl, s₃⟩)
  · obtain rfl : sz1 = (un.length + 2) * PGSIZE := by
      rw [eq, Nat.add_mul]
      omega
    clear eq
    rw [pages_mul] at len₃
    have index : un.length * PGSIZE / PGSIZE = un.length := Nat.mul_div_cancel _ (by decide)
    obtain ⟨al, page_eq, two, big⟩ := stack_pages small
    obtain ⟨nz, base, guard⟩ := stack_sub un.length
    rw [if_neg nz, base, guard, wp_bind]
    have clear : wp V P (uvmclear pt (un.length * PGSIZE))
        (fun _ h' => Space (Guarded mem un.length) (kernelTop tf) h us₃ pt h') h₃ := by
      refine wp_uvmclear hV s₃ ?_ ?_ ?_
      · rw [len₃]
        exact Nat.mul_lt_mul_of_pos_right (by omega) (by decide)
      · intro fl b holding
        rw [index]
        exact ⟨leaf_clear holding.1, fun ne => absurd rfl ne⟩
      · intro i fl b _ holding
        exact ⟨holding.1.1, fun _ => holding⟩
    refine wp_mono clear fun _ h₄ s₄ => ?_
    have seen : ∀ a, a < (un.length + 2) * PGSIZE → a / PGSIZE ≠ un.length → (view h₄ pt).byte a = some (mem a) :=
      fun a lt other => s₄.view_guarded (len₃ ▸ lt) other
    have s₄' : Space Leaf (kernelTop tf) h us₃ pt h₄ := s₄.mono fun _ ok => ok.1
    rw [wp_bind]
    refine wp_mono (wp_pushArgs hV kernelTop_user (fun ok => ok) s₄' args few al page_eq two big fun a lo hi => ?_) ?_
    · have other : a / PGSIZE ≠ un.length := by
        have := (Nat.le_div_iff_mul_le (show 0 < PGSIZE by decide)).2 lo
        omega
      rw [UserMemory.Accessible, seen a hi other]
      rfl
    rintro res h₅ ⟨s₅, ⟨rfl, -⟩ | ⟨room, sp, rfl, block, same⟩⟩
    · rw [wp_bind]
      exact wp_mono (wp_procFreepagetable hV leaf s₅ (by rw [len₃, pages_mul])) fun _ h' eq => .inl ⟨rfl, eq⟩
    · refine .inr ⟨_, us₃, sp, rfl, by rw [len₃, pages_mul], s₅, room, block, fun a lt => ?_⟩
      have page : a / PGSIZE < un.length := Nat.div_lt_of_lt_mul (Nat.mul_comm _ PGSIZE ▸ lt)
      have more : ∀ k, a < (un.length + k) * PGSIZE :=
        fun k => Nat.lt_of_lt_of_le lt (Nat.mul_le_mul_right _ (Nat.le_add_right _ k))
      rw [same (more 1), seen a (more 2) (Nat.ne_of_lt page)]
  · rw [if_pos rfl, wp_bind]
    exact wp_mono (wp_procFreepagetable hV hF s₃ pages_mul.symm) fun _ h' eq => .inl ⟨rfl, eq⟩

/-- Commit: the old address space, which is among the extra frames of the new one, goes, and the user sees the new one. -/
lemma wp_execCommit {entry sp tf page old oldsz un h₁} (s : Space Leaf (kernelTop tf) e us old h)
    (len : us.length = pages oldsz) (get : e tf = some page) (sn : Space Leaf (kernelTop tf) h un pt h₁) :
    wp V P (execCommit entry sp tf old oldsz) (fun _ h' => view h' pt = view h₁ pt ∧
      Space Leaf (kernelTop tf) (Function.update e tf (some (setRegisters page entry sp))) un pt h' ∧
      ∀ {x}, h x ≠ none → e x = none → h' x = none) h₁ := by
  have hget := (s.of_extra get).2.2
  have get₁ := (sn.of_extra hget).2.2
  simp only [execCommit, wp_bind, wp_load, wp_store]
  refine ⟨page, get₁, ⟨page, get₁⟩, ?_⟩
  obtain ⟨e', so, sn', gone⟩ := (sn.exact.store hget).swap (s.store get)
  refine wp_mono (wp_procFreepagetable hV (fun fl => fl.ne_valid) so len) ?_
  rintro _ h' rfl
  refine ⟨sn.view_exact kernelTop_user sn', sn'.mono fun _ ok => ok.1, fun {x} used free => ?_⟩
  have ne : x ≠ tf := by
    rintro rfl
    simp [get] at free
  exact gone (by rwa [Function.update_of_ne ne]) (by rwa [Function.update_of_ne ne])

/-- The image `im` has replaced the old one, which was the part of `h` beside `e`: the memory has the program of the file and
the arguments, with the stack pointer `sp`, and nothing of the old image is left. -/
structure Installed (ip : Executable) (elf : ByteVec sizeofElfhdr) (strs : List (List UInt8)) (tf : Nat) (page : Page)
    (e h : Memory) (im : Image) (sp : Nat) (us' : List Nat) (h' : Memory) : Prop where
  argc : im.argc = strs.length
  length : us'.length = pages im.sz
  space : Space Leaf (kernelTop tf) (Function.update e tf (some (setRegisters page (elf.getLE 24 8) sp))) us' im.pagetable h'
  freed : ∀ {x}, h x ≠ none → e x = none → h' x = none
  room : blockSize strs ≤ PGSIZE
  args : ArgBlock (view h' im.pagetable) im.sz sp strs
  memory : ∃ n, (∀ ph ∈ ip.segments elf, ph.Fits n) ∧
    ∀ a < n, (view h' im.pagetable).byte a = some (placed ip (ip.segments elf) (fun _ => 0) a)

section Exec

variable {argv : List Nat} {strs : List (List UInt8)} {tf old oldsz : Nat} {page : Page}
  (s : Space Leaf (kernelTop tf) e us old h) (len : us.length = pages oldsz) (get : e tf = some page)
  (args : List.Forall₂ (StringPage e) argv strs) (few : argv.length < MAXARG)
include s len get args few

/-- After the program has been loaded: nothing has changed, or the new image is installed. -/
lemma wp_execFinish {elf sz un h₁} (lenn : un.length = pages sz) (fits : ∀ ph ∈ ip.segments elf, ph.Fits sz)
    (held : Holds (placed ip (ip.segments elf) fun _ => 0) (kernelTop tf) h un pt h₁) :
    wp V P (execFinish (elf.getLE 24 8) pt sz argv tf old oldsz) (fun res h' => (res = none ∧ h' = h) ∨
      ∃ im sp us', res = some im ∧ Installed ip elf strs tf page e h im sp us' h') h₁ := by
  have args' : List.Forall₂ (StringPage h) argv strs := by
    refine args.imp fun x str first => ?_
    obtain ⟨b, gx, rest⟩ := first
    exact ⟨b, (s.of_extra gx).2.2, rest⟩
  rw [execFinish, wp_bind]
  refine wp_mono (wp_execStack hV args' few held lenn) ?_
  rintro res h₂ (⟨rfl, rfl⟩ | ⟨sz', us', sp, rfl, len', s₂, room, block, seen⟩)
  · exact .inl ⟨rfl, rfl⟩
  dsimp only
  rw [wp_bind]
  refine wp_mono (wp_execCommit hV s len get s₂) ?_
  rintro _ h' ⟨view_eq, s', freed⟩
  rw [← view_eq] at block seen
  refine .inr ⟨_, sp, us', rfl, rfl, len', s', freed, room, block, sz, fits, fun a lt => seen a ?_⟩
  rw [lenn]
  exact Nat.lt_of_lt_of_le lt (le_pages sz)

lemma wp_exec : wp V P (exec ip argv tf old oldsz) (fun res h' => (res = none ∧ h' = h) ∨
    ∃ elf im sp us', ip.elfhdr = some elf ∧ res = some im ∧ Installed ip elf strs tf page e h im sp us' h') h := by
  have hget := (s.of_extra get).2.2
  rw [exec, wp_bind]
  refine wp_mono (wp_execLoad hV s.kinit (s.kinit (by simp [hget]))) ?_
  rintro res h₁ (⟨rfl, rfl⟩ | ⟨elf, pt, sz, un, hdr, rfl, lenn, fits, held⟩)
  · exact .inl ⟨rfl, rfl⟩
  refine wp_mono (wp_execFinish hV s len get args few lenn fits held) ?_
  rintro res h' (failed | ⟨im, sp, us', rfl, new⟩)
  · exact .inl failed
  · exact .inr ⟨elf, im, sp, us', hdr, rfl, new⟩

end Exec

end Xv6
