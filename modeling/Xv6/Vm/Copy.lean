import Xv6.Vm.Grow
import Xv6.Vm.UserMemory

/-!
# Copying between kernel and user memory

`copyout`, `copyin` and `copyinstr` of `kernel/vm.c`. The memory of the user is what `walkaddr` finds, a byte at every
address of a page the user can access (`view`). The functions go from page to page; what they copy and what they return is
what a copy of byte after byte does (`wp_copyout`, `wp_copyin`, `wp_copyinstr`), as long as no page of the user is a node of
the page table (`UserTable`). This is so in an address space whose kernel mappings are not accessible to the user, and there
they reach user frames only.
-/

namespace Xv6

open Frames Prog

attribute [local irreducible] PTE2PA PA2PTE PTE_FLAGS PX ByteVec.getLE ByteVec.putLE

/-- Copy the bytes `src` to the virtual address `dstva`. Returns 0, or -1 on error. -/
def copyout (pagetable dstva : Nat) (src : List UInt8) : Kernel Int :=
  if src.length > 0 then do
    let va0 := PGROUNDDOWN dstva
    let pa0 ← walkaddr pagetable va0
    if pa0 = 0 then
      pure (-1)
    else
      let n := min (PGSIZE - (dstva - va0)) src.length
      let page ← load pa0
      store pa0 (page.putBytes (dstva - va0) (src.take n))
      copyout pagetable ((va0 + PGSIZE) % 2 ^ 64) (src.drop n)
  else
    pure 0
termination_by src.length
decreasing_by
  simp only [PGROUNDDOWN, PGSIZE, List.length_drop]
  omega

/-- Copy `len` bytes from the virtual address `srcva`. Returns 0, or -1 on error, and the bytes stored at `dst`. -/
def copyin (pagetable srcva len : Nat) : Kernel (Int × List UInt8) :=
  if len > 0 then do
    let va0 := PGROUNDDOWN srcva
    let pa0 ← walkaddr pagetable va0
    if pa0 = 0 then
      pure (-1, [])
    else
      let n := min (PGSIZE - (srcva - va0)) len
      let page ← load pa0
      let (res, dst) ← copyin pagetable ((va0 + PGSIZE) % 2 ^ 64) (len - n)
      pure (res, page.bytes (srcva - va0) n ++ dst)
  else
    pure (0, [])
termination_by len
decreasing_by
  simp only [PGROUNDDOWN, PGSIZE]
  omega

/-- The inner loop of `copyinstr` over the bytes at `p`: the bytes stored at `dst`, and `got_null`. -/
def copyUntilNull : List UInt8 → List UInt8 × Bool
  | [] => ([], false)
  | c :: p => if c = 0 then ([0], true) else (c :: (copyUntilNull p).1, (copyUntilNull p).2)

/-- Copy bytes from the virtual address `srcva` until a NUL, or `max`. Returns 0, or -1 on error, and the bytes stored at
`dst`. -/
def copyinstr (pagetable srcva max : Nat) : Kernel (Int × List UInt8) :=
  if max > 0 then do
    let va0 := PGROUNDDOWN srcva
    let pa0 ← walkaddr pagetable va0
    if pa0 = 0 then
      pure (-1, [])
    else
      let n := min (PGSIZE - (srcva - va0)) max
      let page ← load pa0
      let (dst, gotNull) := copyUntilNull (page.bytes (srcva - va0) n)
      if gotNull then
        pure (0, dst)
      else
        let (res, dst') ← copyinstr pagetable ((va0 + PGSIZE) % 2 ^ 64) (max - n)
        pure (res, dst ++ dst')
  else
    pure (-1, [])
termination_by max
decreasing_by
  simp only [PGROUNDDOWN, PGSIZE]
  omega

/-- `strlen` of the string in a buffer. -/
def strlen (buf : List UInt8) : Nat := (buf.takeWhile (· ≠ 0)).length

/-- Fetch the string at `addr`. Returns its length, or -1 on error, and the bytes stored at `buf`. -/
def fetchstr (pagetable addr : Nat) (max : Int) : Kernel (Int × List UInt8) := do
  let (res, buf) ← copyinstr pagetable addr (max % 2 ^ 64).toNat
  if res < 0 then
    pure (-1, buf)
  else
    pure (strlen buf, buf)

/-! ### What the user can access -/

/-- The frame of an address that the user can access: the address is below `MAXVA`, in a page with `PTE_V` and `PTE_U`. -/
def userFrame (h : Memory) (pt va : Nat) : Option Nat :=
  if va < MAXVA then
    (abs h pt va).bind fun pte => if pte &&& PTE_U = 0 then none else some (PTE2PA pte)
  else none

variable {h : Memory} {pt : Nat} {V : Nat → Prop} {P : String → Prop}

lemma userFrame_page {va va'} (eq : va / PGSIZE = va' / PGSIZE) : userFrame h pt va = userFrame h pt va' := by
  have lt : va < MAXVA ↔ va' < MAXVA := by
    simp only [PGSIZE, MAXVA] at eq ⊢
    omega
  have lt39 : va < 2 ^ 39 ↔ va' < 2 ^ 39 := by
    simp only [PGSIZE] at eq
    omega
  simp only [userFrame, abs, indices, PX_congr eq, lt, lt39]

lemma userFrame_round {va} : userFrame h pt (PGROUNDDOWN va) = userFrame h pt va := by
  apply userFrame_page
  simp only [PGROUNDDOWN, PGSIZE]
  omega

lemma userFrame_lt {va x} (get : userFrame h pt va = some x) : va < MAXVA := by
  by_contra ge
  rw [userFrame, if_neg ge] at get
  cases get

def view (h : Memory) (pt : Nat) : UserMemory where
  byte a := (userFrame h pt a).bind fun x => (h x).map fun page => page.get8 (a % PGSIZE)
  paged a := by
    rw [userFrame_round]
    cases userFrame h pt a with
    | none => rfl
    | some x => cases hx : h x <;> simp [hx]

lemma view_byte {a} : (view h pt).byte a = (userFrame h pt a).bind fun x => (h x).map fun page => page.get8 (a % PGSIZE) :=
  rfl

lemma wp_walkaddr {va} (hV : ∀ c, V c → Frame c) (t : IsTree entry PTE2PA 2 h pt) :
    wp V P (walkaddr pt va) (fun pa h' => pa = (userFrame h pt va).getD 0 ∧ h' = h) h := by
  have t : PageTable h pt (abs h pt) (rest entry PTE2PA 2 h pt) := ⟨t, rfl, rfl⟩
  rw [walkaddr]
  split
  · rename_i ge
    rw [userFrame, if_neg (Nat.not_lt.2 ge)]
    exact ⟨rfl, rfl⟩
  · rename_i lm
    have l39 : va < 2 ^ 39 := Nat.lt_trans (Nat.not_le.1 lm) (by decide)
    rw [userFrame, if_pos (Nat.not_le.1 lm), wp_bind]
    refine wp_mono (wp_walk hV t (Nat.not_le.1 lm)) fun res h' w => ?_
    obtain rfl := w.fixed rfl
    rw [w.found]
    cases nd : node entry PTE2PA h' pt (indices va 2) with
    | none =>
      rw [t.map_none nd]
      exact ⟨rfl, rfl⟩
    | some x =>
      obtain ⟨page, hx⟩ := t.get nd
      rw [t.map_eq l39 nd hx]
      simp only [Option.map_some, wp_bind, wp_loadPte]
      refine ⟨page, hx, ?_⟩
      split
      · rename_i inv
        rw [entry_eq_none (by simpa using inv)]
        exact ⟨rfl, rfl⟩
      · rename_i val
        rw [entry_eq_some val, Option.bind_some]
        split <;> exact ⟨rfl, rfl⟩

/-- In the heap `h`, `pt` is a page table whose user pages are in frames beside its nodes. -/
structure UserTable (h : Memory) (pt : Nat) : Prop where
  tree : IsTree entry PTE2PA 2 h pt
  user : ∀ {va x}, userFrame h pt va = some x → x ≠ 0 ∧ h x ≠ none ∧ ¬InTree entry PTE2PA 2 h pt x

namespace UserTable

lemma userFrame_update {x b va} (ny : ¬InTree entry PTE2PA 2 h pt x) :
    userFrame (Function.update h x b) pt va = userFrame h pt va := by
  rw [userFrame, userFrame, abs, abs, lookup_congr (update_agrees ny) (Nat.le_refl _)]

lemma update {x b} (t : UserTable h pt) (ny : ¬InTree entry PTE2PA 2 h pt x) :
    UserTable (Function.update h x (some b)) pt := by
  refine ⟨t.tree.congr (update_agrees ny), ?_⟩
  intro va y get
  rw [userFrame_update ny] at get
  obtain ⟨nz, ne, nt⟩ := t.user get
  refine ⟨nz, ?_, mt (inTree_congr (update_agrees ny)).1 nt⟩
  by_cases yx : y = x
  · simp [yx]
  · rwa [Function.update_of_ne yx]

lemma accessible {va} (t : UserTable h pt) : (view h pt).Accessible va ↔ userFrame h pt va ≠ none := by
  rw [UserMemory.Accessible, view_byte]
  cases get : userFrame h pt va with
  | none => simp
  | some x => simp [Option.isSome_iff_ne_none, (t.user get).2.1]

lemma holds {a n x page} (get : userFrame h pt a = some x) (hx : h x = some page) (fit : a % PGSIZE + n ≤ PGSIZE) :
    (view h pt).Holds a (page.bytes (a % PGSIZE) n) := by
  intro i lt
  simp only [ByteVec.bytes, List.length_map, List.length_range] at lt
  have same : userFrame h pt (a + i) = some x := by
    rw [← get]
    apply userFrame_page
    simp only [PGSIZE] at fit ⊢
    omega
  have off : (a + i) % PGSIZE = a % PGSIZE + i := by
    simp only [PGSIZE] at fit ⊢
    omega
  rw [view_byte, same, Option.bind_some, hx, Option.map_some, off]
  simp [ByteVec.bytes, lt]

end UserTable

lemma next_page {a k n} (lt : a < MAXVA) (hk : min (PGSIZE - a % PGSIZE) n = k) (more : ¬n ≤ k) :
    (PGROUNDDOWN a + PGSIZE) % 2 ^ 64 = a + k := by
  simp only [PGROUNDDOWN, PGSIZE, MAXVA] at *
  omega

/-! ### Copying to the user -/

/-- A byte is stored at an address that the user can access. -/
def poke (h : Memory) (pt a : Nat) (b : UInt8) : Memory :=
  match userFrame h pt a with
  | none => h
  | some x => Function.update h x ((h x).map fun page => page.put8 (a % PGSIZE) b)

/-- Copy byte after byte to the user, up to the first address that is not accessible. -/
def copyBytes (pt : Nat) : Memory → Nat → List UInt8 → Int × Memory
  | h, _, [] => (0, h)
  | h, a, b :: bs => if userFrame h pt a = none then (-1, h) else copyBytes pt (poke h pt a b) (a + 1) bs

lemma copyBytes_append {a x page xs ys} (t : UserTable h pt) (get : userFrame h pt a = some x) (hx : h x = some page)
    (fit : a % PGSIZE + xs.length ≤ PGSIZE) : copyBytes pt h a (xs ++ ys) =
      copyBytes pt (Function.update h x (some (page.putBytes (a % PGSIZE) xs))) (a + xs.length) ys := by
  induction xs generalizing h a page with
  | nil =>
    have none : page.putBytes (a % PGSIZE) [] = page := by
      funext i
      simp [ByteVec.putBytes]
    rw [none, ← hx, Function.update_eq_self]
    rfl
  | cons b xs ih =>
    have ny := (t.user get).2.2
    have stored : poke h pt a b = Function.update h x (some (page.put8 (a % PGSIZE) b)) := by
      rw [poke, get]
      dsimp only
      rw [hx, Option.map_some]
    rw [List.cons_append, copyBytes, get, if_neg (by simp), stored]
    cases xs with
    | nil =>
      have one : page.putBytes (a % PGSIZE) [b] = page.put8 (a % PGSIZE) b := by
        funext i
        rw [ByteVec.putBytes, ByteVec.put8]
        grind
      rw [one]
      rfl
    | cons c xs =>
      have next : (a + 1) / PGSIZE = a / PGSIZE ∧ (a + 1) % PGSIZE = a % PGSIZE + 1 := by
        simp only [List.length_cons, PGSIZE] at fit ⊢
        omega
      have get' : userFrame (Function.update h x (some (page.put8 (a % PGSIZE) b))) pt (a + 1) = some x := by
        rw [UserTable.userFrame_update ny, userFrame_page next.1, get]
      have both : (page.put8 (a % PGSIZE) b).putBytes (a % PGSIZE + 1) (c :: xs) = page.putBytes (a % PGSIZE) (b :: c :: xs) := by
        funext i
        simp only [ByteVec.putBytes, ByteVec.put8, List.getD_eq_getElem?_getD]
        grind
      rw [ih (t.update ny) get' (Function.update_self ..) (by rw [next.2]; simp only [List.length_cons] at fit ⊢; omega),
        Function.update_idem, next.2, both]
      simp only [List.length_cons, Nat.add_assoc, Nat.add_comm 1]

lemma wp_copyout {a src} (hV : ∀ c, V c → Frame c) (t : UserTable h pt) :
    wp V P (copyout pt a src) (fun res h' => (res, h') = copyBytes pt h a src) h := by
  induction n : src.length using Nat.strong_induction_on generalizing src a h with
  | _ n ih =>
    rw [copyout]
    split
    · rename_i pos
      simp only [wp_bind]
      refine wp_mono (wp_walkaddr hV t.tree) ?_
      rintro pa h' ⟨rfl, rfl⟩
      rw [userFrame_round]
      cases get : userFrame h' pt a with
      | none =>
        obtain ⟨b, bs, rfl⟩ := List.exists_cons_of_length_pos pos
        rw [Option.getD_none, if_pos rfl, copyBytes, if_pos get]
        rfl
      | some x =>
        obtain ⟨nz, own, ny⟩ := t.user get
        obtain ⟨page, hx⟩ := Option.ne_none_iff_exists'.1 own
        have lt := userFrame_lt get
        have off : a - PGROUNDDOWN a = a % PGSIZE := by
          simp only [PGROUNDDOWN, PGSIZE]
          omega
        rw [Option.getD_some, if_neg nz, off]
        simp only [wp_bind, wp_load, wp_store]
        refine ⟨page, hx, ⟨page, hx⟩, wp_mono (ih _ ?_ (t.update ny) rfl) ?_⟩
        · simp only [PGSIZE, List.length_drop]
          omega
        rintro res h'' eq
        generalize hk : min (PGSIZE - a % PGSIZE) src.length = k at eq
        have len : (src.take k).length = k := List.length_take_of_le (by omega)
        have fit : a % PGSIZE + (src.take k).length ≤ PGSIZE := by
          rw [len]
          simp only [PGSIZE] at hk ⊢
          omega
        have split : copyBytes pt h' a (src.take k ++ src.drop k) = _ := copyBytes_append t get hx fit
        rw [List.take_append_drop, len] at split
        rw [eq, split]
        -- the next page is where the copy goes on, unless it has ended
        by_cases ends : src.length ≤ k
        · rw [List.drop_eq_nil_of_le ends, copyBytes, copyBytes]
        · rw [next_page lt hk ends]
    · rename_i none
      rw [List.eq_nil_of_length_eq_zero (Nat.eq_zero_of_not_pos none), copyBytes]
      rfl

/-! ### Copying from the user -/

lemma wp_copyin {a len} (hV : ∀ c, V c → Frame c) (t : UserTable h pt) :
    wp V P (copyin pt a len) (fun res h' => res = (view h pt).fetch a len ∧ h' = h) h := by
  induction len using Nat.strong_induction_on generalizing a with
  | _ len ih =>
    rw [copyin]
    split
    · rename_i pos
      simp only [wp_bind]
      refine wp_mono (wp_walkaddr hV t.tree) ?_
      rintro pa h' ⟨rfl, rfl⟩
      rw [userFrame_round]
      cases get : userFrame h' pt a with
      | none =>
        obtain ⟨k, rfl⟩ := Nat.exists_eq_succ_of_ne_zero (Nat.ne_of_gt pos)
        have byte : (view h' pt).byte a = none := by rw [view_byte, get, Option.bind_none]
        rw [Option.getD_none, if_pos rfl, UserMemory.fetch, byte]
        exact ⟨rfl, rfl⟩
      | some x =>
        obtain ⟨nz, own, -⟩ := t.user get
        obtain ⟨page, hx⟩ := Option.ne_none_iff_exists'.1 own
        have lt := userFrame_lt get
        have off : a - PGROUNDDOWN a = a % PGSIZE := by
          simp only [PGROUNDDOWN, PGSIZE]
          omega
        rw [Option.getD_some, if_neg nz, off]
        generalize hk : min (PGSIZE - a % PGSIZE) len = k
        simp only [wp_bind, wp_load]
        refine ⟨page, hx, wp_mono (ih _ (by simp only [PGSIZE] at hk; omega)) ?_⟩
        rintro res _ ⟨rfl, rfl⟩
        refine ⟨?_, rfl⟩
        have append := UserMemory.fetch_append (n := len - k)
          (UserTable.holds get hx (n := k) (by simp only [PGSIZE] at hk ⊢; omega))
        have size : (page.bytes (a % PGSIZE) k).length = k := by simp [ByteVec.bytes]
        rw [size, show k + (len - k) = len by omega] at append
        rw [append]
        by_cases ends : len ≤ k
        · rw [Nat.sub_eq_zero_of_le ends, UserMemory.fetch, UserMemory.fetch]
        · rw [next_page lt hk ends]
    · rename_i none
      rw [Nat.eq_zero_of_not_pos none]
      exact ⟨rfl, rfl⟩

lemma fetchString_append {m : UserMemory} {a n xs} (holds : m.Holds a xs) : m.fetchString a (xs.length + n) =
    if (copyUntilNull xs).2 then (0, (copyUntilNull xs).1)
    else ((m.fetchString (a + xs.length) n).1, (copyUntilNull xs).1 ++ (m.fetchString (a + xs.length) n).2) := by
  induction xs generalizing a with
  | nil => simp [copyUntilNull]
  | cons x xs ih =>
    obtain ⟨first, rest⟩ := UserMemory.holds_cons.1 holds
    rw [List.length_cons, Nat.add_right_comm, UserMemory.fetchString, first, copyUntilNull]
    dsimp only
    by_cases zero : x = 0
    · rw [if_pos zero, if_pos zero, if_pos rfl]
    · rw [if_neg zero, if_neg zero, ih rest, Nat.add_right_comm, ← Nat.add_assoc]
      split <;> rfl

lemma wp_copyinstr {a max} (hV : ∀ c, V c → Frame c) (t : UserTable h pt) :
    wp V P (copyinstr pt a max) (fun res h' => res = (view h pt).fetchString a max ∧ h' = h) h := by
  induction max using Nat.strong_induction_on generalizing a with
  | _ max ih =>
    rw [copyinstr]
    split
    · rename_i pos
      simp only [wp_bind]
      refine wp_mono (wp_walkaddr hV t.tree) ?_
      rintro pa h' ⟨rfl, rfl⟩
      rw [userFrame_round]
      cases get : userFrame h' pt a with
      | none =>
        obtain ⟨k, rfl⟩ := Nat.exists_eq_succ_of_ne_zero (Nat.ne_of_gt pos)
        have byte : (view h' pt).byte a = none := by rw [view_byte, get, Option.bind_none]
        rw [Option.getD_none, if_pos rfl, UserMemory.fetchString, byte]
        exact ⟨rfl, rfl⟩
      | some x =>
        obtain ⟨nz, own, -⟩ := t.user get
        obtain ⟨page, hx⟩ := Option.ne_none_iff_exists'.1 own
        have lt := userFrame_lt get
        have off : a - PGROUNDDOWN a = a % PGSIZE := by
          simp only [PGROUNDDOWN, PGSIZE]
          omega
        rw [Option.getD_some, if_neg nz, off]
        generalize hk : min (PGSIZE - a % PGSIZE) max = k
        simp only [wp_bind, wp_load]
        refine ⟨page, hx, ?_⟩
        have append := fetchString_append (n := max - k)
          (UserTable.holds get hx (n := k) (by simp only [PGSIZE] at hk ⊢; omega))
        have size : (page.bytes (a % PGSIZE) k).length = k := by simp [ByteVec.bytes]
        rw [size, show k + (max - k) = max by omega] at append
        rw [append]
        split
        · exact ⟨rfl, rfl⟩
        · rw [wp_bind]
          refine wp_mono (ih _ (by simp only [PGSIZE] at hk; omega)) ?_
          rintro res _ ⟨rfl, rfl⟩
          refine ⟨?_, rfl⟩
          by_cases ends : max ≤ k
          · rw [Nat.sub_eq_zero_of_le ends, UserMemory.fetchString, UserMemory.fetchString]
          · rw [next_page lt hk ends]
    · rename_i none
      rw [Nat.eq_zero_of_not_pos none]
      exact ⟨rfl, rfl⟩

/-! ### Address spaces -/

section Space

variable {F : Nat → Nat → Page → Prop} {top : Nat → Option Nat} {e : Memory} {us : List Nat}

lemma Space.userFrame_eq {va} (s : Space F top e us pt h) (lt : va < us.length * PGSIZE) :
    ∃ x fl b, us[va / PGSIZE]? = some x ∧ h x = some b ∧ F (va / PGSIZE) fl b ∧
      userFrame h pt va = if fl &&& PTE_U = 0 then none else some x := by
  obtain ⟨pte, b, -, mv, at_v, hb, fl⟩ := s.at_page lt
  refine ⟨PTE2PA pte, PTE_FLAGS pte, b, at_v, hb, fl, ?_⟩
  rw [userFrame, if_pos, mv, Option.bind_some, and_flags (by decide)]
  have below := s.below
  simp only [TRAPFRAME, TRAMPOLINE, MAXVA, PGSIZE] at *
  omega

variable (hu : ∀ {v pte}, top v = some pte → pte &&& PTE_U = 0)
include hu

lemma Space.lt_of_userFrame {va x} (s : Space F top e us pt h) (get : userFrame h pt va = some x) :
    va < us.length * PGSIZE := by
  by_contra ge
  obtain ⟨m, r, t, u⟩ := s.table
  rw [userFrame, if_pos (userFrame_lt get), t.map, u.above (Nat.not_lt.1 ge)] at get
  obtain ⟨pte, mv, user⟩ := Option.bind_eq_some_iff.1 get
  rw [if_pos (hu mv)] at user
  cases user

lemma Space.mem_of_userFrame {va x} (s : Space F top e us pt h) (get : userFrame h pt va = some x) :
    us[va / PGSIZE]? = some x ∧ ∃ fl b, h x = some b ∧ F (va / PGSIZE) fl b ∧ fl &&& PTE_U ≠ 0 := by
  obtain ⟨y, fl, b, at_v, hb, ok, eq⟩ := s.userFrame_eq (s.lt_of_userFrame hu get)
  rw [get] at eq
  split at eq
  · cases eq
  · rename_i user
    obtain rfl := Option.some.inj eq
    exact ⟨at_v, fl, b, hb, ok, user⟩

lemma Space.userTable (s : Space F top e us pt h) : UserTable h pt := by
  refine ⟨?_, ?_⟩
  · obtain ⟨m, r, t, u⟩ := s.table
    exact t.tree
  · intro va x get
    have mem := List.mem_of_getElem? (s.mem_of_userFrame hu get).1
    obtain ⟨ny, ⟨b, hb⟩, -⟩ := s.user mem
    have own : h x ≠ none := by simp [hb]
    refine ⟨?_, own, ny⟩
    rintro rfl
    exact absurd (s.kinit own).2.1 (by decide)

omit hu in
lemma Space.copyBytes {a src} (s : Space F top e us pt h) (hu : ∀ {v pte}, top v = some pte → pte &&& PTE_U = 0)
    (free : ∀ {i fl b c}, F i fl b → F i fl c) : Space F top e us pt (copyBytes pt h a src).2 := by
  induction src generalizing h a with
  | nil => exact s
  | cons b bs ih =>
    rw [Xv6.copyBytes]
    cases get : userFrame h pt a with
    | none => exact s
    | some x =>
      have mem := List.mem_of_getElem? (s.mem_of_userFrame hu get).1
      obtain ⟨-, ⟨page, hb⟩, -⟩ := s.user mem
      refine ih ?_
      rw [poke, get]
      dsimp only
      rw [hb, Option.map_some]
      exact s.write mem (fun _ => free) (fun _ ok => ok)

variable (hV : ∀ c, V c → Kinit c)
include hV

lemma wp_copyout_user (free : ∀ {i fl b c}, F i fl b → F i fl c) {a src} (s : Space F top e us pt h) :
    wp V P (copyout pt a src) (fun _ h' => Space F top e us pt h') h := by
  refine wp_mono (wp_copyout (fun c v => (hV c v).frame) (s.userTable hu)) fun res h' eq => ?_
  obtain ⟨-, rfl⟩ := Prod.mk.inj eq
  exact s.copyBytes hu free

lemma wp_fetchstr_user {addr max} (s : Space F top e us pt h) :
    wp V P (fetchstr pt addr max) (fun _ h' => h' = h) h := by
  rw [fetchstr, wp_bind]
  refine wp_mono (wp_copyinstr (fun c v => (hV c v).frame) (s.userTable hu)) ?_
  rintro res h' ⟨-, rfl⟩
  dsimp only
  split <;> exact rfl

end Space

end Xv6
