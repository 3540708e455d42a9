import Mathlib.Data.List.TakeWhile
import Xv6.Vm.View
import Xv6.Vm.Exec

/-!
# The arguments of a program

What `exec` leaves on the user stack. Each push moves the stack pointer down by a multiple of 16 (`pushDown_eq`), so the
objects lie one below the other in the stack page (`ArgBlock`), and all of them fit iff the sum of their sizes does
(`blockSize`).
-/

namespace Xv6

open Frames Prog

attribute [local irreducible] PTE2PA PA2PTE PTE_FLAGS PX ByteVec.getLE ByteVec.putLE

variable {top : Nat → Option Nat} {h e : Memory} {us : List Nat} {pt : Nat}
  {V : Nat → Prop} {P : String → Prop}

/-! ### Sizes -/

/-- A size rounded up to the alignment of the stack pointer. -/
def round16 (n : Nat) : Nat := (n + 15) / 16 * 16

/-- The space that the argument strings take up. -/
def stringsSize (argv : List (List UInt8)) : Nat := (argv.map fun s => round16 (s.length + 1)).sum

/-- The space that the arguments take up: the strings, and the array of pointers. -/
def blockSize (argv : List (List UInt8)) : Nat := stringsSize argv + round16 ((argv.length + 1) * 8)

/-- Where the strings are, from `sp` down. -/
def pointers : Nat → List (List UInt8) → List Nat
  | _, [] => []
  | sp, s :: argv => (sp - round16 (s.length + 1)) :: pointers (sp - round16 (s.length + 1)) argv

lemma le_round16 (n : Nat) : n ≤ round16 n := by
  rw [round16]
  omega

lemma round16_mod (n : Nat) : round16 n % 16 = 0 := Nat.mul_mod_left ..

lemma pushDown_eq {sp n} (al : sp % 16 = 0) (le : n ≤ sp) (lt : sp < 2 ^ 64) :
    pushDown sp n = sp - round16 n ∧ round16 n ≤ sp := by
  rw [pushDown, round16]
  omega

lemma stringsSize_mod (argv : List (List UInt8)) : stringsSize argv % 16 = 0 := by
  induction argv with
  | nil => rfl
  | cons s argv ih =>
    have mod := round16_mod (s.length + 1)
    rw [stringsSize] at ih ⊢
    rw [List.map_cons, List.sum_cons]
    omega

lemma length_pointers {sp argv} : (pointers sp argv).length = argv.length := by
  induction argv generalizing sp with
  | nil => rfl
  | cons s argv ih => rw [pointers, List.length_cons, List.length_cons, ih]

/-! ### The block -/

/-- The strings of `argv` are at `ptrs`, between `lo` and `hi`, each of them below those before it. -/
structure StringBlock (m : UserMemory) (lo hi : Nat) (ptrs : List Nat) (argv : List (List UInt8)) : Prop where
  length : ptrs.length = argv.length
  string : ∀ x ∈ ptrs.zip argv, m.Holds x.1 (x.2 ++ [0]) ∧ lo ≤ x.1 ∧ x.1 + (x.2.length + 1) ≤ hi
  apart : (ptrs.zip argv).Pairwise fun x y => y.1 + (y.2.length + 1) ≤ x.1

/-- The arguments of a program on its stack, which is the last page of a memory of `sz` bytes: at `sp` the array of pointers to
the strings with a 0 at its end, and above it the strings. -/
structure ArgBlock (m : UserMemory) (sz sp : Nat) (argv : List (List UInt8)) : Prop where
  aligned : sp % 16 = 0
  inside : sz - PGSIZE ≤ sp ∧ sp + (argv.length + 1) * 8 ≤ sz
  block : ∃ ptrs, m.Holds sp (pointerBytes (ptrs ++ [0])) ∧ StringBlock m (sp + (argv.length + 1) * 8) sz ptrs argv

/-- The page `x` holds the string `s`. -/
def StringPage (e : Memory) (x : Nat) (s : List UInt8) : Prop := ∃ page, e x = some page ∧ pageString page = s ∧ s.length < PGSIZE

lemma pageString_lt {page : Page} {k} (lt : k < PGSIZE) (nul : page.get8 k = 0) : (pageString page).length < PGSIZE := by
  have len : (page.bytes 0 PGSIZE).length = PGSIZE := by simp [ByteVec.bytes]
  have pre := List.takeWhile_prefix (l := page.bytes 0 PGSIZE) (· ≠ 0)
  refine Nat.lt_of_le_of_ne (len ▸ pre.length_le) fun eq => ?_
  have all := List.takeWhile_eq_self_iff.1 (pre.eq_of_length (eq.trans len.symm))
  have mem : (0 : UInt8) ∈ page.bytes 0 PGSIZE := List.mem_map.2 ⟨k, List.mem_range.2 lt, by rw [Nat.zero_add, nul]⟩
  simpa using all 0 mem

lemma length_pointerBytes {ptrs} : (pointerBytes ptrs).length = ptrs.length * 8 := by
  simp [pointerBytes, ByteVec.bytes, List.length_flatMap]

lemma StringBlock.cons {m : UserMemory} {lo mid hi p ptrs s argv} (rest : StringBlock m lo mid ptrs argv)
    (holds : m.Holds p (s ++ [0])) (le : lo ≤ mid) (above : mid ≤ p) (below : p + (s.length + 1) ≤ hi) :
    StringBlock m lo hi (p :: ptrs) (s :: argv) := by
  refine ⟨congrArg Nat.succ rest.length, ?_, ?_⟩
  · rw [List.zip_cons_cons, List.forall_mem_cons]
    refine ⟨⟨holds, Nat.le_trans le above, below⟩, fun x mem => ?_⟩
    obtain ⟨hx, lx, ux⟩ := rest.string x mem
    exact ⟨hx, lx, by omega⟩
  · rw [List.zip_cons_cons, List.pairwise_cons]
    exact ⟨fun x mem => Nat.le_trans (rest.string x mem).2.2 above, rest.apart⟩

lemma StringBlock.congr {m m' : UserMemory} {lo hi ptrs argv} (block : StringBlock m lo hi ptrs argv)
    (same : ∀ a, lo ≤ a → m'.byte a = m.byte a) : StringBlock m' lo hi ptrs argv := by
  refine ⟨block.length, fun x mem => ?_, block.apart⟩
  obtain ⟨hx, lx, ux⟩ := block.string x mem
  exact ⟨hx.congr fun i _ => same _ (by omega), lx, ux⟩

section Rules

variable {F : Nat → Nat → Page → Prop} (hV : ∀ c, V c → Kinit c) (hu : ∀ {v pte}, top v = some pte → pte &&& PTE_U = 0)
  (free : ∀ {i fl b c}, F i fl b → F i fl c)
include hV hu free

lemma wp_copyout_ready {a src} (s : Space F top e us pt h) (ready : (view h pt).Ready a src.length) :
    wp V P (copyout pt a src) (fun res h' => res = 0 ∧ Space F top e us pt h' ∧ (view h' pt).Holds a src ∧
      (∀ {b}, (view h' pt).Accessible b ↔ (view h pt).Accessible b) ∧
      ∀ {b}, b < a ∨ a + src.length ≤ b → (view h' pt).byte b = (view h pt).byte b) h := by
  refine wp_mono (wp_copyout_view hV @hu @free s) ?_
  rintro res h' ⟨eq, s'⟩
  obtain ⟨rfl, view_eq⟩ := Prod.mk.inj eq
  rw [UserMemory.copyout_fst, if_pos ready, view_eq]
  exact ⟨rfl, s', UserMemory.holds_copyout ready, UserMemory.copyout_accessible, UserMemory.copyout_byte_ne⟩

lemma wp_pushStrings {stackbase argv strs ustack sp} (s : Space F top e us pt h) (args : List.Forall₂ (StringPage e) argv strs)
    (few : ustack.length + argv.length < MAXARG) (al : sp % 16 = 0) (base : PGSIZE ≤ stackbase) (lo : stackbase ≤ sp)
    (lt : sp < 2 ^ 64) (ready : ∀ a, stackbase ≤ a → a < sp → (view h pt).Accessible a) :
    wp V P (pushStrings pt stackbase argv ustack sp) (fun res h' => Space F top e us pt h' ∧
      ((res = none ∧ sp < stackbase + stringsSize strs) ∨
       (stackbase + stringsSize strs ≤ sp ∧ res = some (ustack ++ pointers sp strs, sp - stringsSize strs) ∧
        StringBlock (view h' pt) (sp - stringsSize strs) sp (pointers sp strs) strs ∧
        (∀ {a}, (view h' pt).Accessible a ↔ (view h pt).Accessible a) ∧
        ∀ {a}, a < sp - stringsSize strs ∨ sp ≤ a → (view h' pt).byte a = (view h pt).byte a))) h := by
  induction args generalizing ustack sp h with
  | nil =>
    refine ⟨s, .inr ⟨lo, ?_, ⟨rfl, by simp [pointers], by simp [pointers]⟩, Iff.rfl, fun _ => rfl⟩⟩
    rw [pointers, List.append_nil]
    rfl
  | @cons arg str argv strs first _ ih =>
    obtain ⟨page, get, rfl, short⟩ := first
    rw [List.length_cons] at few
    rw [pushStrings, if_neg (by omega)]
    simp only [wp_bind, wp_load]
    refine ⟨page, (s.of_extra get).2.2, ?_⟩
    obtain ⟨down, room⟩ := pushDown_eq (n := (pageString page).length + 1) al (by omega) lt
    have size : stringsSize (pageString page :: strs) = round16 ((pageString page).length + 1) + stringsSize strs := by
      simp [stringsSize]
    have le := le_round16 ((pageString page).length + 1)
    have mod := round16_mod ((pageString page).length + 1)
    rw [down, pointers, size]
    generalize pageString page = str at *
    generalize round16 (str.length + 1) = n at *
    split
    · exact ⟨s, .inl ⟨rfl, by omega⟩⟩
    · rename_i fits
      have len : (str ++ [0]).length = str.length + 1 := by simp
      rw [wp_bind]
      have room : (view h pt).Ready (sp - n) (str ++ [0]).length := fun i li => ready _ (by omega) (by omega)
      refine wp_mono (wp_copyout_ready hV @hu @free s room) ?_
      rintro res h₁ ⟨rfl, s₁, holds, acc, same⟩
      rw [if_neg (by decide)]
      refine wp_mono (ih s₁ (by simp; omega) (by omega) (by omega) (by omega) fun a la ua => ?_) ?_
      · exact acc.2 (ready a la (by omega))
      rintro res h₂ ⟨s₂, ⟨rfl, more⟩ | ⟨le', rfl, block, acc', same'⟩⟩
      · exact ⟨s₂, .inl ⟨rfl, by omega⟩⟩
      · refine ⟨s₂, .inr ⟨by omega, ?_, ?_, acc'.trans acc, fun out => ?_⟩⟩
        · rw [List.append_assoc, List.singleton_append, Nat.sub_sub]
        · rw [← Nat.sub_sub]
          exact block.cons (holds.congr fun i _ => same' (.inr (by omega))) (by omega) (by omega) (by omega)
        · rw [same' (by omega), same (by omega)]

lemma wp_pushArgs {argv strs base sz} (s : Space F top e us pt h) (args : List.Forall₂ (StringPage e) argv strs)
    (few : argv.length < MAXARG) (al : sz % 16 = 0) (page : base + PGSIZE = sz) (two : PGSIZE ≤ base)
    (lt : sz < 2 ^ 64) (ready : ∀ a, base ≤ a → a < sz → (view h pt).Accessible a) :
    wp V P (pushArgs pt base argv sz) (fun res h' => Space F top e us pt h' ∧
      ((res = none ∧ PGSIZE < blockSize strs) ∨
       (blockSize strs ≤ PGSIZE ∧ ∃ sp, res = some (strs.length, sp) ∧ ArgBlock (view h' pt) sz sp strs ∧
        ∀ {a}, a < base → (view h' pt).byte a = (view h pt).byte a))) h := by
  rw [pushArgs, wp_bind]
  refine wp_mono (wp_pushStrings hV @hu @free s args (by simpa using few) al two (by omega) lt ready) ?_
  rintro res h₁ ⟨s₁, ⟨rfl, more⟩ | ⟨le, rfl, strings, acc, same⟩⟩
  · refine ⟨s₁, .inl ⟨rfl, ?_⟩⟩
    rw [blockSize]
    omega
  · dsimp only
    rw [List.nil_append, length_pointers]
    have mod : (sz - stringsSize strs) % 16 = 0 := by
      have := stringsSize_mod strs
      omega
    have count : (strs.length + 1) * 8 ≤ 256 := by
      have := args.length_eq
      simp only [MAXARG] at few
      omega
    obtain ⟨down, room⟩ := pushDown_eq (n := (strs.length + 1) * 8) mod (by simp only [PGSIZE] at *; omega) (by omega)
    have size := le_round16 ((strs.length + 1) * 8)
    have rmod := round16_mod ((strs.length + 1) * 8)
    rw [down, blockSize]
    generalize round16 ((strs.length + 1) * 8) = n at *
    split
    · exact ⟨s₁, .inl ⟨rfl, by omega⟩⟩
    · have len : (pointerBytes (pointers sz strs ++ [0])).length = (strs.length + 1) * 8 := by
        rw [length_pointerBytes, List.length_append, length_pointers, List.length_singleton]
      rw [wp_bind]
      refine wp_mono (wp_copyout_ready hV @hu @free s₁ fun i li => acc.2 (ready _ (by omega) (by omega))) ?_
      rintro res h₂ ⟨rfl, s₂, holds, -, same'⟩
      rw [if_neg (by decide)]
      refine ⟨s₂, .inr ⟨by omega, _, rfl, ⟨by omega, ⟨by omega, by omega⟩, _, holds, ?_⟩, fun below => ?_⟩⟩
      · have block := strings.congr fun a above => same' (.inr (by omega))
        exact ⟨block.length, fun x mem => ⟨(block.string x mem).1, by have := (block.string x mem).2.1; omega,
          (block.string x mem).2.2⟩, block.apart⟩
      · rw [same' (by omega), same (by omega)]

end Rules

/-! ### Fetching the arguments -/

/-- The heap is an address space with the extra frames `e` and `argv`; if all arguments have been fetched, the latter hold
strings. -/
structure Fetched (top : Nat → Option Nat) (e : Memory) (us : List Nat) (pt : Nat) (argv : List Nat) (ok : Bool)
    (h : Memory) : Prop where
  nodup : argv.Nodup
  fresh : ∀ x ∈ argv, e x = none
  space : ∃ e', Space Leaf top e' us pt h ∧ (∀ x ∈ argv, e' x ≠ none) ∧ (∀ x, x ∉ argv → e' x = e x) ∧
    (ok = true → ∃ strs, List.Forall₂ (StringPage e') argv strs)

lemma Fetched.nil {ok} (s : Space Leaf top e us pt h) : Fetched top e us pt [] ok h :=
  ⟨List.nodup_nil, by simp, e, s, by simp, fun _ _ => rfl, fun _ => ⟨[], .nil⟩⟩

lemma Fetched.cons {c b argv ok} (ec : e c = none) (string : ok = true → (pageString b).length < PGSIZE)
    (f : Fetched top (Function.update e c (some b)) us pt argv ok h) : Fetched top e us pt (c :: argv) ok h := by
  have nc : c ∉ argv := fun mem => by simpa using f.fresh c mem
  obtain ⟨e', s, own, keep, strings⟩ := f.space
  have at_c : e' c = some b := by rw [keep c nc, Function.update_self]
  refine ⟨List.nodup_cons.2 ⟨nc, f.nodup⟩, List.forall_mem_cons.2 ⟨ec, fun x mem => ?_⟩, e', s,
    List.forall_mem_cons.2 ⟨by simp [at_c], own⟩, fun x out => ?_, fun done => ?_⟩
  · rw [← f.fresh x mem, Function.update_of_ne]
    rintro rfl
    exact nc mem
  · obtain ⟨ne, out⟩ := List.ne_and_not_mem_of_not_mem_cons out
    rw [keep x out, Function.update_of_ne ne]
  · obtain ⟨strs, all⟩ := strings done
    exact ⟨pageString b :: strs, .cons ⟨b, at_c, rfl, string done⟩ all⟩

section Fetch

variable (hV : ∀ c, V c → Kinit c) (hu : ∀ {v pte}, top v = some pte → pte &&& PTE_U = 0)
include hV hu

lemma wp_fetchaddr {sz addr} (s : Space Leaf top e us pt h) : wp V P (fetchaddr pt sz addr) (fun _ h' => h' = h) h := by
  rw [fetchaddr]
  split
  · exact rfl
  · rw [wp_bind]
    refine wp_mono (wp_copyin (fun c v => (hV c v).frame) (s.userTable hu)) ?_
    rintro res h' ⟨-, rfl⟩
    dsimp only
    split <;> exact rfl

lemma wp_fetchstr_page {addr} (s : Space Leaf top e us pt h) :
    wp V P (fetchstr pt addr PGSIZE) (fun res h' => h' = h ∧
      (¬res.1 < 0 → ∀ b : Page, (pageString (b.putBytes 0 res.2)).length < PGSIZE)) h := by
  have size : ((PGSIZE : Int) % 2 ^ 64).toNat = PGSIZE := rfl
  rw [fetchstr, size, wp_bind]
  refine wp_mono (wp_copyinstr (fun c v => (hV c v).frame) (s.userTable hu)) ?_
  rintro res h' ⟨rfl, rfl⟩
  obtain ⟨holds, le, ⟨done, k, len, str, -⟩ | ⟨failed, -⟩⟩ := (view h' pt).fetchString_spec addr PGSIZE
  · dsimp only
    rw [done, if_neg (by decide)]
    refine ⟨rfl, fun _ b => pageString_lt (k := k) (by omega) ?_⟩
    have last := holds k (by omega)
    rw [str] at last
    dsimp only
    rw [ByteVec.get8_putBytes (by omega) (Nat.zero_le k) (by omega), Nat.sub_zero, List.getD, ← last, Option.getD_some]
  · dsimp only
    rw [failed, if_pos (by decide)]
    exact ⟨rfl, fun ok => absurd (show (-1 : Int) < 0 by decide) ok⟩

lemma wp_fetchArgs {sz n uargv} (s : Space Leaf top e us pt h) :
    wp V P (fetchArgs pt sz n uargv) (fun res h' => Fetched top e us pt res.1 res.2 h' ∧
      (res.2 = true → res.1.length < n)) h := by
  induction n generalizing uargv h e with
  | zero => exact ⟨.nil s, by simp⟩
  | succ n ih =>
    rw [fetchArgs, wp_bind]
    refine wp_mono (wp_fetchaddr hV hu s) ?_
    rintro res h₁ rfl
    cases res with
    | none => exact ⟨.nil s, by simp⟩
    | some uarg =>
      dsimp only
      split
      · exact ⟨.nil s, by simp⟩
      simp only [wp_bind, wp_kalloc]
      refine ⟨⟨.nil s, by simp⟩, fun c vc new => ?_⟩
      have ec := (s.of_fresh new).2.2
      have s₁ := s.alloc (b := fun _ => 5) (hV c vc) new
      refine wp_mono (wp_fetchstr_page hV hu s₁) ?_
      rintro ⟨len, buf⟩ h₂ ⟨rfl, short⟩
      simp only [wp_load, wp_store, Function.update_self, Option.some.injEq, exists_eq',
        exists_eq_left', true_and, Function.update_idem]
      have s₂ := s.alloc (hV c vc) new (b := ByteVec.putBytes (fun _ => 5) 0 buf)
      split
      · exact ⟨.cons ec (by simp) (.nil s₂), by simp⟩
      · rename_i ok
        rw [wp_bind]
        refine wp_mono (ih s₂) fun res h₃ f => ⟨.cons ec (fun _ => short ok _) f.1, fun done => ?_⟩
        exact Nat.succ_lt_succ (f.2 done)

end Fetch

lemma wp_freeArgs {F argv} (s : Space F top e us pt h) (nd : argv.Nodup)
    (own : ∀ x ∈ argv, e x ≠ none) :
    wp V P (freeArgs argv) (fun _ h' => ∃ e', Space F top e' us pt h' ∧
      ∀ x, e' x = if x ∈ argv then none else e x) h := by
  induction argv generalizing e h with
  | nil => exact ⟨e, s, by simp⟩
  | cons c argv ih =>
    obtain ⟨b, get⟩ := Option.ne_none_iff_exists'.1 (own c List.mem_cons_self)
    obtain ⟨nc, nd⟩ := List.nodup_cons.1 nd
    rw [freeArgs, wp_bind]
    refine wp_kfree_extra s get fun h₁ s₁ => ?_
    refine wp_mono (ih s₁ nd fun x mem => ?_) ?_
    · have xc : x ≠ c := by
        rintro rfl
        exact nc mem
      rw [Function.update_of_ne xc]
      exact own x (List.mem_cons_of_mem c mem)
    · rintro _ h₂ ⟨e', s₂, eq⟩
      refine ⟨e', s₂, fun x => ?_⟩
      by_cases xc : x = c
      · simp [eq, xc]
      · simp [eq, xc]

end Xv6
