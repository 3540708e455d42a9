import Xv6.Lib.Pool
import Xv6.Vm.View
import Xv6.Vm.Process

/-!
# What the kernel copies to and from user memory

`copyout` and `copyin` of `kernel/vm.c` agree with a copy of byte after byte (`copy_bytewise`), and `copyinstr` with
`fetchstr` of `kernel/syscall.c` fetches the string at an address and nothing else (`string_fetch`). Permissions are another
matter: `walkaddr` looks at `PTE_V` and `PTE_U` only, so that `copyout` stores into pages that the user can read but not
write. It respects them iff all bytes it reaches are in pages with `PTE_W` (`copyout_respects_iff`); the text pages that
`exec` maps are not.
-/

namespace Xv6

open Frames Prog

attribute [local irreducible] PTE2PA PA2PTE PTE_FLAGS PX ByteVec.getLE ByteVec.putLE

variable {h h' : Memory} {pt a : Nat} {V : Nat → Prop} {P : String → Prop}

/-- The address is below `MAXVA`, in a page with `PTE_V` and `PTE_U`. -/
def UserPage (h : Memory) (pt va : Nat) : Prop :=
  va < MAXVA ∧ ∃ pte, abs h pt va = some pte ∧ pte &&& PTE_V ≠ 0 ∧ pte &&& PTE_U ≠ 0

/-- The page is also one with `PTE_W`. -/
def Writable (h : Memory) (pt va : Nat) : Prop :=
  va < MAXVA ∧ ∃ pte, abs h pt va = some pte ∧ pte &&& PTE_V ≠ 0 ∧ pte &&& PTE_U ≠ 0 ∧ pte &&& PTE_W ≠ 0

lemma userPage_iff {va} (tree : IsTree entry PTE2PA 2 h pt) : UserPage h pt va ↔ userFrame h pt va ≠ none := by
  have t : PageTable h pt (abs h pt) (rest entry PTE2PA 2 h pt) := ⟨tree, rfl, rfl⟩
  rw [UserPage, userFrame]
  constructor
  · rintro ⟨lt, pte, get, -, user⟩
    simp [lt, get, user]
  · intro ne
    split_ifs at ne with lt
    · obtain ⟨x, some⟩ := Option.ne_none_iff_exists'.1 ne
      obtain ⟨pte, get, user⟩ := Option.bind_eq_some_iff.1 some
      refine ⟨lt, pte, get, t.valid get, fun none => ?_⟩
      rw [if_pos none] at user
      cases user
    · exact absurd rfl ne

/-! ### Byte after byte -/

/-- Of the `n` bytes from `a` on, the first `k` are accessible, and the next one is not. -/
structure Reaches (h : Memory) (pt a n k : Nat) : Prop where
  le : k ≤ n
  before : ∀ i < k, UserPage h pt (a + i)
  stop : k < n → ¬UserPage h pt (a + k)

/-- The first `k` bytes of `src` are in memory, in order, each at its place, and all other places are as before. Two addresses
may have the same place if two pages have the same frame. -/
structure CopiedOut (h : Memory) (pt a : Nat) (src : List UInt8) (k : Nat) (h' : Memory) : Prop where
  bytes : ∀ {i l}, i < k → place h pt (a + i) = some l → (∀ j < k, i < j → place h pt (a + j) ≠ some l) →
    byteAt h' l = src[i]?
  other : ∀ {l}, (∀ i < k, place h pt (a + i) ≠ some l) → byteAt h' l = byteAt h l

lemma Reaches.zero {n} (no : ¬UserPage h pt a) : Reaches h pt a n 0 :=
  ⟨Nat.zero_le n, fun i lt => absurd lt (Nat.not_lt_zero i), fun _ => no⟩

lemma Reaches.succ {n k} (first : UserPage h pt a) (rest : Reaches h pt (a + 1) n k) : Reaches h pt a (n + 1) (k + 1) := by
  refine ⟨Nat.succ_le_succ rest.le, ?_, fun lt => ?_⟩
  · rintro (_ | i) lt
    · exact first
    · rw [Nat.add_comm i, ← Nat.add_assoc]
      exact rest.before i (Nat.lt_of_succ_lt_succ lt)
  · rw [Nat.add_comm k, ← Nat.add_assoc]
    exact rest.stop (Nat.lt_of_succ_lt_succ lt)

lemma CopiedOut.zero {src} : CopiedOut h pt a src 0 h := ⟨fun lt => absurd lt (Nat.not_lt_zero _), fun _ => rfl⟩

lemma CopiedOut.succ {b bs k l} (t : UserTable h pt) (at_a : place h pt a = some l)
    (rest : CopiedOut (poke h pt a b) pt (a + 1) bs k h') : CopiedOut h pt a (b :: bs) (k + 1) h' := by
  have same : ∀ {va}, place (poke h pt a b) pt va = place h pt va := by
    intro va
    rw [place, place, t.userFrame_poke]
  have shift : ∀ i, a + 1 + i = a + (i + 1) := fun i => by omega
  constructor
  case bytes =>
    rintro (_ | i) m lt at_i last
    · obtain rfl := Option.some.inj (at_a.symm.trans at_i)
      rw [rest.other, byteAt_poke t at_a, List.getElem?_cons_zero]
      intro i li
      rw [same, shift]
      exact last (i + 1) (Nat.succ_lt_succ li) (Nat.succ_pos i)
    · rw [List.getElem?_cons_succ]
      refine rest.bytes (Nat.lt_of_succ_lt_succ lt) (by rwa [same, shift]) fun j lj ij => ?_
      rw [same, shift]
      exact last (j + 1) (Nat.succ_lt_succ lj) (Nat.succ_lt_succ ij)
  case other =>
    intro m no
    have first : place h pt a ≠ some m := no 0 (Nat.succ_pos k)
    rw [rest.other, byteAt_poke_ne t first]
    intro i li
    rw [same, shift]
    exact no (i + 1) (Nat.succ_lt_succ li)

lemma copyBytes_spec (t : UserTable h pt) (a : Nat) (src : List UInt8) : ∃ k, Reaches h pt a src.length k ∧
    (copyBytes pt h a src).1 = (if k = src.length then 0 else -1) ∧ CopiedOut h pt a src k (copyBytes pt h a src).2 := by
  induction src generalizing h a with
  | nil => exact ⟨0, ⟨Nat.le_refl 0, fun i lt => absurd lt (Nat.not_lt_zero i), fun lt => absurd lt (Nat.not_lt_zero 0)⟩,
      rfl, .zero⟩
  | cons b bs ih =>
    rw [copyBytes]
    cases get : userFrame h pt a with
    | none => exact ⟨0, .zero fun page => (userPage_iff t.tree).1 page get, rfl, .zero⟩
    | some x =>
      have page : ∀ {va}, UserPage (poke h pt a b) pt va ↔ UserPage h pt va := by
        intro va
        rw [userPage_iff t.poke.tree, userPage_iff t.tree, t.userFrame_poke]
      obtain ⟨k, reach, result, copied⟩ := ih (t.poke (a := a) (b := b)) (a + 1)
      have at_a : place h pt a = some (x, a % PGSIZE) := by rw [place, get, Option.map_some]
      refine ⟨k + 1, .succ ((userPage_iff t.tree).2 (by simp [get])) ⟨reach.le, fun i lt => page.1 (reach.before i lt),
        fun lt => mt page.2 (reach.stop lt)⟩, ?_, copied.succ t at_a⟩
      rw [if_neg (by simp), result, List.length_cons]
      exact if_congr Nat.add_right_cancel_iff.symm rfl rfl

/-- `copyout` and `copyin` agree with a copy of byte after byte. They return 0 iff all bytes of the range are accessible.
`copyout` stores the bytes before the first one that is not accessible, in order and each in the frame of its own page, and
changes nothing else; `copyin` has copied these bytes, and changes nothing. -/
theorem copy_bytewise (hV : ∀ c, V c → Frame c) (t : UserTable h pt) (a : Nat) (src : List UInt8) (len : Nat) :
    wp V P (copyout pt a src) (fun res h' => ∃ k, Reaches h pt a src.length k ∧
      res = (if k = src.length then 0 else -1) ∧ CopiedOut h pt a src k h') h ∧
    wp V P (copyin pt a len) (fun res h' => ∃ k, Reaches h pt a len k ∧ res.1 = (if k = len then 0 else -1) ∧
      res.2.length = k ∧ (∀ i < k, res.2[i]? = (place h pt (a + i)).bind (byteAt h)) ∧ h' = h) h := by
  constructor
  · refine wp_mono (wp_copyout hV t) fun res h' eq => ?_
    obtain ⟨rfl, rfl⟩ := Prod.mk.inj eq
    exact copyBytes_spec t a src
  · refine wp_mono (wp_copyin hV t) ?_
    rintro res h' ⟨rfl, rfl⟩
    obtain ⟨holds, le, result⟩ := UserMemory.fetch_spec (m := view h' pt) (a := a) (n := len)
    have page : ∀ {va}, UserPage h' pt va ↔ (view h' pt).byte va ≠ none := by
      intro va
      rw [userPage_iff t.tree, ← t.accessible, UserMemory.Accessible, Option.isSome_iff_ne_none]
    refine ⟨_, ⟨le, fun i lt => ?_, fun lt => ?_⟩, ?_, rfl, fun i lt => ?_, rfl⟩
    · rw [page, holds i lt]
      simpa using lt
    · obtain done | failed := result
      · omega
      · rw [page, not_not]
        exact failed.2.2
    · obtain done | failed := result
      · rw [done.1, if_pos done.2]
      · rw [failed.1, if_neg (Nat.ne_of_lt failed.2.1)]
    · rw [← holds i lt, view_byte_eq]

/-! ### Strings -/

/-- The string at `a` in user memory: it ends with a NUL at index `k`, and all of it is accessible. -/
structure UserString (h : Memory) (pt a k : Nat) : Prop where
  pages : ∀ i ≤ k, UserPage h pt (a + i)
  null : (view h pt).byte (a + k) = some 0
  chars : ∀ i < k, (view h pt).byte (a + i) ≠ some 0

lemma UserTable.userString_iff {k} (t : UserTable h pt) : UserString h pt a k ↔ (view h pt).StringAt a k := by
  have page : ∀ {va}, UserPage h pt va ↔ (view h pt).byte va ≠ none := by
    intro va
    rw [userPage_iff t.tree, ← t.accessible, UserMemory.Accessible, Option.isSome_iff_ne_none]
  constructor
  · rintro ⟨pages, null, chars⟩
    refine ⟨null, fun i lt => ?_⟩
    obtain ⟨x, byte⟩ := Option.ne_none_iff_exists'.1 (page.1 (pages i (Nat.le_of_lt lt)))
    exact ⟨x, fun zero => chars i lt (zero ▸ byte), byte⟩
  · rintro ⟨null, chars⟩
    refine ⟨fun i le => page.2 ?_, null, fun i lt zero => ?_⟩
    · obtain rfl | lt := Nat.eq_or_lt_of_le le
      · simp [null]
      · obtain ⟨x, -, byte⟩ := chars i lt
        simp [byte]
    · obtain ⟨x, ne, byte⟩ := chars i lt
      exact ne (Option.some.inj (byte.symm.trans zero))

/-- What `copyinstr` returns and has stored at `dst`: 0 and the string, if it has less than `max` characters. -/
structure FetchedString (h : Memory) (pt a max : Nat) (res : Int) (dst : List UInt8) : Prop where
  zero_iff : res = 0 ↔ ∃ k < max, UserString h pt a k
  failed : res ≠ 0 → res = -1
  bytes : res = 0 → ∀ {k}, UserString h pt a k → dst.length = k + 1 ∧ ∀ i ≤ k, dst[i]? = (view h pt).byte (a + i)
  room : dst.length ≤ max

lemma UserTable.fetchedString (t : UserTable h pt) (a max : Nat) :
    FetchedString h pt a max ((view h pt).fetchString a max).1 ((view h pt).fetchString a max).2 := by
  obtain ⟨holds, le, ⟨zero, k, len, str⟩ | ⟨failed, no⟩⟩ := (view h pt).fetchString_spec a max
  · refine ⟨iff_of_true zero ⟨k, by omega, t.userString_iff.2 str⟩, fun ne => absurd zero ne, fun _ k' str' => ?_, le⟩
    obtain rfl := str.unique (t.userString_iff.1 str')
    exact ⟨len, fun i li => (holds i (by omega)).symm⟩
  · have ne : ((view h pt).fetchString a max).1 ≠ 0 := by rw [failed]; decide
    refine ⟨iff_of_false ne ?_, fun _ => failed, fun zero => absurd zero ne, le⟩
    rintro ⟨k, lt, str⟩
    exact no k lt (t.userString_iff.1 str)

lemma FetchedString.strlen {max k dst} (f : FetchedString h pt a max 0 dst) (str : UserString h pt a k) :
    strlen dst = k := by
  obtain ⟨len, bytes⟩ := f.bytes rfl str
  have last : dst = dst.take k ++ [0] := by
    have null := bytes k (Nat.le_refl k)
    rw [str.null, List.getElem?_eq_some_iff] at null
    obtain ⟨lt, null⟩ := null
    rw [← null, List.take_append_getElem, List.take_of_length_le (Nat.le_of_eq len)]
  have chars : ∀ x ∈ dst.take k, decide (x ≠ 0) = true := by
    intro x mem
    obtain ⟨i, lt, rfl⟩ := List.getElem_of_mem mem
    rw [List.length_take, len] at lt
    have byte := bytes i (by omega)
    rw [List.getElem?_eq_getElem (by omega)] at byte
    rw [List.getElem_take, decide_eq_true_iff]
    intro zero
    exact str.chars i (by omega) (byte ▸ congrArg some zero)
  rw [Xv6.strlen, last, List.takeWhile_append_of_pos chars]
  simp [len]

/-- The `n`th argument of a system call, as a string in `buf`: `argstr` of `kernel/syscall.c`. -/
def argstr (pagetable : Nat) (arg : Fin 6 → Nat) (n : Fin 6) (max : Int) : Kernel (Int × List UInt8) :=
  fetchstr pagetable (arg n) max

/-- What `fetchstr` returns: the length of the string, or -1. -/
structure StringLength (h : Memory) (pt a max : Nat) (res : Int) (buf : List UInt8) : Prop where
  fetched : ∃ copied, FetchedString h pt a max copied buf
  length : ∀ k < max, UserString h pt a k → res = k
  failed : (∀ k < max, ¬UserString h pt a k) → res = -1

lemma wp_fetchstr {max} (hV : ∀ c, V c → Frame c) (t : UserTable h pt) : wp V P (fetchstr pt a max)
    (fun res h' => StringLength h pt a (max % 2 ^ 64).toNat res.1 res.2 ∧ h' = h) h := by
  rw [fetchstr, wp_bind]
  refine wp_mono (wp_copyinstr hV t) ?_
  rintro res h' ⟨rfl, rfl⟩
  have f := t.fetchedString a (max % 2 ^ 64).toNat
  dsimp only
  generalize (view h' pt).fetchString a (max % 2 ^ 64).toNat = res at f
  obtain ⟨copied, buf⟩ := res
  by_cases zero : copied = 0
  · subst zero
    rw [if_neg (show ¬(0 : Int) < 0 by decide)]
    refine ⟨⟨⟨0, f⟩, fun k lt str => congrArg Nat.cast (f.strlen str), fun no => ?_⟩, rfl⟩
    obtain ⟨k, lt, str⟩ := f.zero_iff.1 rfl
    exact absurd str (no k lt)
  · have neg := f.failed zero
    subst neg
    rw [if_pos (show (-1 : Int) < 0 by decide)]
    exact ⟨⟨⟨-1, f⟩, fun k lt str => absurd (f.zero_iff.2 ⟨k, lt, str⟩) zero, fun _ => rfl⟩, rfl⟩

/-- `copyinstr` returns 0 iff the string at the address has a NUL within the first `max` bytes and is accessible up to it.
Then it has stored the string with its NUL, and never more than `max` bytes. `fetchstr` and `argstr` return the length of
the string; the `int` they are given for `max` is taken as a `uint64`. -/
theorem string_fetch (hV : ∀ c, V c → Frame c) (t : UserTable h pt) (a max : Nat) (n : Int) (arg : Fin 6 → Nat) (i : Fin 6) :
    wp V P (copyinstr pt a max) (fun res h' => FetchedString h pt a max res.1 res.2 ∧ h' = h) h ∧
    wp V P (fetchstr pt a n) (fun res h' => StringLength h pt a (n % 2 ^ 64).toNat res.1 res.2 ∧ h' = h) h ∧
    wp V P (argstr pt arg i n) (fun res h' => StringLength h pt (arg i) (n % 2 ^ 64).toNat res.1 res.2 ∧ h' = h) h := by
  refine ⟨?_, wp_fetchstr hV t, wp_fetchstr hV t⟩
  refine wp_mono (wp_copyinstr hV t) ?_
  rintro res h' ⟨rfl, rfl⟩
  exact ⟨t.fetchedString a max, rfl⟩

/-! ### Permissions -/

/-- A copy to the user respects the permissions of the pages: only pages with `PTE_U` and `PTE_W` change, and the call fails
if any byte of the range is in another page. -/
structure RespectsWrite (h : Memory) (pt a : Nat) (src : List UInt8) (res : Int) (h' : Memory) : Prop where
  pages : ∀ {x}, h' x ≠ h x → ∃ va, userFrame h pt va = some x ∧ Writable h pt va
  result : ∀ i < src.length, ¬Writable h pt (a + i) → res = -1

variable {tf sz : Nat}

lemma ProcMem.userTable (p : ProcMem pt tf sz h) : UserTable h pt := by
  obtain ⟨us, e, -, -, s⟩ := p
  exact s.userTable kernelTop_user

lemma ProcMem.page_inj {va va' x} (p : ProcMem pt tf sz h) (get : userFrame h pt va = some x)
    (get' : userFrame h pt va' = some x) : va / PGSIZE = va' / PGSIZE := by
  obtain ⟨us, e, -, -, s⟩ := p
  exact s.page_inj kernelTop_user get get'

lemma ProcMem.place_inj {va va' l} (p : ProcMem pt tf sz h) (get : place h pt va = some l) (get' : place h pt va' = some l) :
    va = va' := by
  obtain ⟨us, e, -, -, s⟩ := p
  exact s.place_inj kernelTop_user get get'

lemma writable_page {va va'} (eq : va / PGSIZE = va' / PGSIZE) : Writable h pt va ↔ Writable h pt va' := by
  have lt : va < MAXVA ↔ va' < MAXVA := by
    simp only [PGSIZE, MAXVA] at eq ⊢
    omega
  have lt39 : va < 2 ^ 39 ↔ va' < 2 ^ 39 := by
    simp only [PGSIZE] at eq
    omega
  simp only [Writable, abs, indices, PX_congr eq, lt, lt39]

lemma Writable.userPage {va} (w : Writable h pt va) : UserPage h pt va := by
  obtain ⟨lt, pte, get, val, user, -⟩ := w
  exact ⟨lt, pte, get, val, user⟩

lemma CopiedOut.changed {src k x} (c : CopiedOut h pt a src k h') (dom : h' x = none ↔ h x = none) (ne : h' x ≠ h x) :
    ∃ i < k, userFrame h pt (a + i) = some x := by
  by_contra no
  refine ne ?_
  have other : ∀ o, byteAt h' (x, o) = byteAt h (x, o) := by
    refine fun o => c.other fun i lt at_i => no ⟨i, lt, ?_⟩
    obtain ⟨y, get, eq⟩ := Option.map_eq_some_iff.1 at_i
    rw [get, ← (Prod.mk.inj eq).1]
  cases hx : h x with
  | none => rw [dom.2 hx]
  | some page =>
    have own : h' x ≠ none := fun none => by simp [dom.1 none] at hx
    obtain ⟨page', hx'⟩ := Option.ne_none_iff_exists'.1 own
    rw [hx']
    congr 1
    funext i
    have byte := other i
    simp only [byteAt, hx, hx', Option.map_some, Option.some.injEq] at byte
    simpa [ByteVec.get8] using byte

lemma copyBytes_eq_none {src x} (t : UserTable h pt) : (copyBytes pt h a src).2 x = none ↔ h x = none := by
  induction src generalizing h a with
  | nil => rfl
  | cons b bs ih =>
    rw [copyBytes]
    cases get : userFrame h pt a with
    | none => rfl
    | some y =>
      rw [if_neg (by simp), ih t.poke]
      obtain ⟨page, hy, eq⟩ := t.poke_eq (b := b) get
      rw [eq]
      by_cases xy : x = y
      · simp [xy, hy]
      · rw [Function.update_of_ne xy]

/-- `copyout` respects the permissions of the pages, whatever it copies, iff all bytes that it reaches are in pages with
`PTE_W`. -/
theorem copyout_respects_iff (hV : ∀ c, V c → Kinit c) (p : ProcMem pt tf sz h) (a n : Nat) :
    (∀ src : List UInt8, src.length = n → wp V P (copyout pt a src) (RespectsWrite h pt a src) h) ↔
      ∀ i < n, (∀ j ≤ i, UserPage h pt (a + j)) → Writable h pt (a + i) := by
  have t := p.userTable
  have exact : ∀ {P src}, wp V P (copyout pt a src) (fun res h' => (res, h') = copyBytes pt h a src) h :=
    wp_copyout (fun c v => (hV c v).frame) t
  constructor
  · intro respects i lt reached
    -- a source that differs from what is in memory
    let src := (List.range n).map fun j => (((place h pt (a + j)).bind (byteAt h)).getD 0 + 1 : UInt8)
    have len : src.length = n := by simp [src]
    have ok := wp_exact (respects src len) exact
    obtain ⟨k, reach, result, copied⟩ := copyBytes_spec t a src
    have ik : i < k := by
      by_contra ge
      exact reach.stop (by omega) (reached k (Nat.not_lt.1 ge))
    obtain ⟨x, get⟩ := Option.ne_none_iff_exists'.1 ((userPage_iff t.tree).1 (reached i (Nat.le_refl i)))
    have at_i : place h pt (a + i) = some (x, (a + i) % PGSIZE) := by rw [place, get, Option.map_some]
    have new := copied.bytes ik at_i fun j _ ij at_j => by
      have := p.place_inj at_i at_j
      omega
    obtain ⟨page, hx⟩ := Option.ne_none_iff_exists'.1 (t.user get).2.1
    have changed : (copyBytes pt h a src).2 x ≠ h x := by
      intro same
      simp only [byteAt, same, hx, Option.map_some] at new
      simp [src, lt, at_i, byteAt, hx] at new
    obtain ⟨va, get', w⟩ := ok.pages changed
    exact (writable_page (p.page_inj get' get)).1 w
  · intro reached src len
    refine wp_mono exact fun res h' eq => ?_
    obtain ⟨rfl, rfl⟩ := Prod.mk.inj eq
    obtain ⟨k, reach, result, copied⟩ := copyBytes_spec t a src
    have writable : ∀ i < k, Writable h pt (a + i) := fun i lt =>
      reached i (by have := reach.le; omega) fun j le => reach.before j (by omega)
    refine ⟨fun ne => ?_, fun i lt no => ?_⟩
    · obtain ⟨i, lt, get⟩ := copied.changed (copyBytes_eq_none t) ne
      exact ⟨a + i, get, writable i lt⟩
    · rw [result, if_neg]
      rintro rfl
      exact no (writable i lt)

/-! ### A process with one page -/

/-- Make a process with one page, which has the permissions `xperm` beside those to read. -/
def pageProcess (xperm : Nat) : Kernel (Option (Nat × Nat)) := do
  match ← allocproc 0 with
  | none => pure none
  | some (tf, pt) =>
    let sz ← uvmalloc pt 0 PGSIZE xperm
    pure (if sz = 0 then none else some (tf, pt))

def sevenFrames : Store Nat Page := ⟨fun _ _ => 0, (List.range 7).map fun i => 0x80024000 + i * PGSIZE⟩

/-- The page has these permissions and is zeroed. -/
def ZeroPage (xperm _ fl : Nat) (b : Page) : Prop := fl = PTE_R ||| PTE_U ||| xperm ||| PTE_V ∧ b = fun _ => 0

/-- The loop of `uvmalloc`, at most `n` times. -/
def growLoop (pt oldsz newsz xperm : Nat) : Nat → Nat → Kernel Nat
  | 0, _ => pure newsz
  | n + 1, a =>
    if a < newsz then do
      match ← kalloc with
      | none =>
        let _ ← uvmdealloc pt a oldsz
        pure 0
      | some mem =>
        store mem fun _ => 0
        if (← mappages pt a PGSIZE mem (PTE_R ||| PTE_U ||| xperm)) ≠ 0 then
          kfree mem
          let _ ← uvmdealloc pt a oldsz
          pure 0
        else
          growLoop pt oldsz newsz xperm n (a + PGSIZE)
    else
      pure newsz

lemma uvmallocFrom_loop {oldsz newsz xperm a} :
    uvmallocFrom pt oldsz newsz xperm a = growLoop pt oldsz newsz xperm (newsz - a) a := by
  have bounded : ∀ n a, newsz ≤ a + n → uvmallocFrom pt oldsz newsz xperm a = growLoop pt oldsz newsz xperm n a := by
    intro n
    induction n with
    | zero =>
      intro a le
      rw [uvmallocFrom, if_neg (by omega), growLoop]
    | succ n ih =>
      intro a le
      rw [uvmallocFrom, ih (a + PGSIZE) (by simp only [PGSIZE]; omega)]
      rfl
  exact bounded _ a (by omega)

/-- Seven frames are enough, for a page of text that `exec` maps as well as for a page of data. -/
lemma pageProcess_run {xperm} (perm : xperm = flags2perm 5 ∨ xperm = PTE_W) :
    ((pageProcess xperm).run sevenFrames).map Prod.fst = some (some (0x80024000, 0x80025000)) := by
  simp only [pageProcess, uvmalloc, uvmallocFrom_loop]
  obtain rfl | rfl := perm <;> decide +kernel

lemma exists_pageProcess {xperm} (perm : xperm = flags2perm 5 ∨ xperm = PTE_W) : ∃ pt tf h us e, us.length = 1 ∧
    (∀ x, e x ≠ none ↔ x = tf) ∧ Space (ZeroPage xperm) (kernelTop tf) e us pt h := by
  have kin : ∀ c, c ∈ sevenFrames.free → Kinit c := by
    intro c mem
    obtain ⟨i, lt, rfl⟩ := List.mem_map.1 mem
    rw [List.mem_range] at lt
    refine ⟨?_, ?_, ?_⟩
    all_goals
      simp only [«end», PHYSTOP, KERNBASE, PGSIZE]
      omega
  have w : wp (· ∈ sevenFrames.free) (fun _ => False) (pageProcess xperm) (fun res h => ∀ tf pt, res = some (tf, pt) →
      ∃ us e, us.length = 1 ∧ (∀ x, e x ≠ none ↔ x = tf) ∧ Space (ZeroPage xperm) (kernelTop tf) e us pt h)
      fun _ => none := by
    rw [pageProcess, wp_bind]
    refine wp_mono (wp_allocproc kin (fun ne => absurd rfl ne)) ?_
    rintro res h₁ (⟨rfl, rfl⟩ | ⟨tf, pt, b, rfl, kt, new, s⟩)
    · exact nofun
    have hF : ∀ {i fl b}, ZeroPage xperm i fl b → fl ≠ PTE_V := by
      rintro i fl b ⟨rfl, -⟩
      obtain rfl | rfl := perm <;> decide
    have s₁ : Space (ZeroPage xperm) (kernelTop tf) _ [] pt h₁ := s.mono fun lt => absurd lt (Nat.not_lt_zero _)
    have hx : xperm < 2 ^ 10 := by obtain rfl | rfl := perm <;> decide
    rw [wp_bind]
    refine wp_mono (wp_uvmalloc kin (fun v lt => kernelTop_none lt) hF s₁ rfl hx fun _ => ⟨rfl, rfl⟩) ?_
    rintro sz h₂ (⟨rfl, us, -, len, s₂⟩ | ⟨rfl, s₂⟩)
    · rintro _ _ ⟨rfl, rfl⟩
      refine ⟨us, _, len, fun x => ?_, s₂⟩
      by_cases xt : x = tf <;> simp [xt]
    · exact nofun
  obtain ⟨⟨res, s'⟩, run, eq⟩ := Option.map_eq_some_iff.1 (pageProcess_run perm)
  obtain ⟨h, post⟩ := Owns.run_empty (by decide) w run
  obtain ⟨us, e, len, dom, s⟩ := post _ _ eq
  exact ⟨_, _, h, us, e, len, dom, s⟩

lemma exists_pageZero {xperm} (perm : xperm = flags2perm 5 ∨ xperm = PTE_W) : ∃ pt tf h x pte, ProcMem pt tf PGSIZE h ∧
    userFrame h pt 0 = some x ∧ h x = some (fun _ => 0) ∧ abs h pt 0 = some pte ∧
    PTE_FLAGS pte = PTE_R ||| PTE_U ||| xperm ||| PTE_V := by
  obtain ⟨pt, tf, h, us, e, len, dom, s⟩ := exists_pageProcess perm
  have lt : 0 < us.length * PGSIZE := by rw [len]; decide
  obtain ⟨pte, b, -, get, at_0, hb, flags, rfl⟩ := s.at_page lt
  have user : pte &&& PTE_U ≠ 0 := by
    rw [and_flags (by decide), flags]
    obtain rfl | rfl := perm <;> decide
  refine ⟨pt, tf, h, PTE2PA pte, pte, ⟨us, e, len, dom, s.mono ?_⟩, ?_, hb, get, flags⟩
  · rintro i fl b - ⟨rfl, -⟩
    rw [Leaf]
    obtain rfl | rfl := perm <;> decide
  · rw [userFrame, if_pos (by decide), get, Option.bind_some, if_neg user]

/-- Two bytes are copied to a page of data and from there. -/
theorem copy_bytewise_two : ∃ pt h, UserPage h pt 0 ∧
    wp (fun _ => False) (fun _ => False) (copyout pt 0 [1, 2]) (fun res h' => ∃ k, Reaches h pt 0 2 k ∧
      res = (if k = 2 then 0 else -1) ∧ CopiedOut h pt 0 [1, 2] k h') h ∧
    wp (fun _ => False) (fun _ => False) (copyin pt 0 2) (fun res h' => ∃ k, Reaches h pt 0 2 k ∧
      res.1 = (if k = 2 then 0 else -1) ∧ res.2.length = k ∧
      (∀ i < k, res.2[i]? = (place h pt (0 + i)).bind (byteAt h)) ∧ h' = h) h := by
  obtain ⟨pt, tf, h, x, pte, p, get, -⟩ := exists_pageZero (.inr rfl)
  exact ⟨pt, h, (userPage_iff p.userTable.tree).2 (by simp [get]), copy_bytewise (fun _ => False.elim) p.userTable 0 [1, 2] 2⟩

/-- The empty string at the beginning of a zeroed page is fetched. -/
theorem string_fetch_empty : ∃ pt h, UserString h pt 0 0 ∧
    wp (fun _ => False) (fun _ => False) (copyinstr pt 0 8) (fun res h' => FetchedString h pt 0 8 res.1 res.2 ∧ h' = h) h ∧
    wp (fun _ => False) (fun _ => False) (fetchstr pt 0 8) (fun res h' => StringLength h pt 0 (8 % 2 ^ 64 : Int).toNat
      res.1 res.2 ∧ h' = h) h ∧
    wp (fun _ => False) (fun _ => False) (argstr pt (fun _ => 0) 0 8) (fun res h' => StringLength h pt 0
      (8 % 2 ^ 64 : Int).toNat res.1 res.2 ∧ h' = h) h := by
  obtain ⟨pt, tf, h, x, pte, p, get, hx, -⟩ := exists_pageZero (.inr rfl)
  have null : (view h pt).byte (0 + 0) = some 0 := by
    rw [view_byte, get, Option.bind_some, hx, Option.map_some, ByteVec.get8_zero]
  refine ⟨pt, h, p.userTable.userString_iff.2 ⟨null, fun i lt => absurd lt (Nat.not_lt_zero i)⟩,
    string_fetch (fun _ => False.elim) p.userTable 0 8 8 (fun _ => 0) 0⟩

/-- A byte is copied to a page of data. -/
theorem copyout_respects_data : ∃ pt tf h, ProcMem pt tf PGSIZE h ∧ UserPage h pt 0 ∧
    ∀ src : List UInt8, src.length = 1 →
      wp (fun _ => False) (fun _ => False) (copyout pt 0 src) (RespectsWrite h pt 0 src) h := by
  obtain ⟨pt, tf, h, x, pte, p, get, -, mv, flags⟩ := exists_pageZero (.inr rfl)
  obtain ⟨lt, pte', mv', val, user⟩ := (userPage_iff p.userTable.tree).2 (show userFrame h pt 0 ≠ none by simp [get])
  obtain rfl := Option.some.inj (mv.symm.trans mv')
  refine ⟨pt, tf, h, p, ⟨lt, pte, mv, val, user⟩, (copyout_respects_iff (fun _ => False.elim) p 0 1).2 fun i li _ => ?_⟩
  obtain rfl : i = 0 := by omega
  refine ⟨lt, pte, mv, val, user, ?_⟩
  rw [and_flags (by decide), flags]
  decide

/-- A byte is copied into a page of text, which is mapped without `PTE_W`: the page changes, and 0 is returned. -/
theorem copyout_writes_text : ∃ pt tf h x, ProcMem pt tf PGSIZE h ∧ userFrame h pt 0 = some x ∧ ¬Writable h pt 0 ∧
    (∃ pte, abs h pt 0 = some pte ∧ PTE_FLAGS pte = PTE_R ||| PTE_U ||| flags2perm 5 ||| PTE_V) ∧
    wp (fun _ => False) (fun _ => False) (copyout pt 0 [42]) (fun res h' => res = 0 ∧ h' x ≠ h x ∧
      ¬RespectsWrite h pt 0 [42] res h') h := by
  obtain ⟨pt, tf, h, x, pte, p, get, hx, mv, flags⟩ := exists_pageZero (.inl rfl)
  have t := p.userTable
  have page : UserPage h pt 0 := (userPage_iff t.tree).2 (by simp [get])
  have no : ¬Writable h pt 0 := by
    rintro ⟨-, pte', mv', -, -, write⟩
    obtain rfl := Option.some.inj (mv.symm.trans mv')
    rw [and_flags (by decide), flags] at write
    exact write (by decide)
  refine ⟨pt, tf, h, x, p, get, no, ⟨pte, mv, flags⟩, wp_mono (wp_copyout (fun _ => False.elim) t) fun res h' eq => ?_⟩
  obtain ⟨k, reach, result, copied⟩ := copyBytes_spec t 0 [42]
  rw [← eq] at result copied
  dsimp only at result copied
  obtain rfl : k = 1 := by
    have le := reach.le
    rw [List.length_singleton] at le
    by_contra ne
    obtain rfl : k = 0 := by omega
    exact reach.stop (by decide) page
  have at_0 : place h pt (0 + 0) = some (x, 0) := by
    rw [place, Nat.zero_add, get]
    rfl
  have new := copied.bytes (by decide) at_0 fun j lj ij => by omega
  refine ⟨result, fun same => ?_, fun respects => ?_⟩
  · rw [byteAt, same, hx, Option.map_some, ByteVec.get8_zero] at new
    exact absurd new (by decide)
  · have failed := respects.result 0 (by decide) no
    rw [result] at failed
    exact absurd failed (by decide)

end Xv6
