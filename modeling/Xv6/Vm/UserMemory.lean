import Xv6.Vm.Layout

/-!
# The memory a process sees

The user memory of a process as its page table gives it: a byte at every virtual address the user can access. Pages are
accessible as a whole. `copyout` of `kernel/vm.c` goes from page to page and stops at the first one that is not
accessible, when the bytes before it have been stored. It does the same as a copy of byte after byte (`copyout_eq`),
for which `copyout_fst` and `copyout_byte` say what is returned and what is in memory afterwards. `fetch` and `fetchString`
read byte after byte, up to the first one that is not accessible.
-/

namespace Xv6

/-- The bytes at the virtual addresses that the user can access. -/
@[ext]
structure UserMemory where
  byte : ℕ → Option UInt8
  paged : ∀ a, (byte a).isSome = (byte (PGROUNDDOWN a)).isSome

namespace UserMemory

/-- The user can access the address. -/
def Accessible (m : UserMemory) (a : ℕ) : Prop := (m.byte a).isSome = true

instance (m : UserMemory) (a : ℕ) : Decidable (m.Accessible a) := inferInstanceAs (Decidable (_ = true))

/-- The user can access the `n` addresses from `a` on. -/
def Ready (m : UserMemory) (a n : ℕ) : Prop := ∀ i < n, m.Accessible (a + i)

instance (m : UserMemory) (a n : ℕ) : Decidable (m.Ready a n) := inferInstanceAs (Decidable (∀ i < n, _))

/-- The bytes `bs` are stored at `a`, as far as it is accessible. -/
def store (m : UserMemory) (a : ℕ) (bs : List UInt8) : UserMemory where
  byte b := (m.byte b).map fun old => if a ≤ b then bs.getD (b - a) old else old
  paged b := by simp only [Option.isSome_map, m.paged b]

/-- Copy the bytes `src` to the virtual address `dstva`. Returns 0, or -1 on error. -/
def copyout (m : UserMemory) (dstva : ℕ) (src : List UInt8) : ℤ × UserMemory :=
  if 0 < src.length then
    let va0 := PGROUNDDOWN dstva
    if m.Accessible va0 then
      let n := min (PGSIZE - (dstva - va0)) src.length
      (m.store dstva (src.take n)).copyout (va0 + PGSIZE) (src.drop n)
    else (-1, m)
  else (0, m)
termination_by src.length
decreasing_by
  simp only [PGROUNDDOWN, PGSIZE, List.length_drop]
  omega

def copyBytes (m : UserMemory) (a : ℕ) : List UInt8 → ℤ × UserMemory
  | [] => (0, m)
  | x :: xs => if m.Accessible a then (m.store a [x]).copyBytes (a + 1) xs else (-1, m)

variable {m : UserMemory} {a b : ℕ} {bs xs ys : List UInt8}

@[simp]
lemma accessible_store : (m.store a bs).Accessible b ↔ m.Accessible b := by
  simp [Accessible, store]

@[simp]
lemma ready_store {c n : ℕ} : (m.store a bs).Ready c n ↔ m.Ready c n := by
  simp only [Ready, accessible_store]

lemma ready_succ {n : ℕ} : m.Ready a (n + 1) ↔ m.Accessible a ∧ m.Ready (a + 1) n := by
  constructor
  · intro ready
    refine ⟨ready 0 (Nat.succ_pos n), fun i lt => ?_⟩
    rw [Nat.add_assoc, Nat.add_comm 1]
    exact ready (i + 1) (Nat.succ_lt_succ lt)
  · rintro ⟨first, rest⟩ (_ | i) lt
    · exact first
    · rw [Nat.add_comm i, ← Nat.add_assoc]
      exact rest i (Nat.lt_of_succ_lt_succ lt)

lemma accessible_round : m.Accessible (PGROUNDDOWN a) ↔ m.Accessible a := by
  rw [Accessible, Accessible, m.paged a]

lemma Accessible.page (acc : m.Accessible a) (page : PGROUNDDOWN b = PGROUNDDOWN a) : m.Accessible b := by
  rwa [← accessible_round, page, accessible_round]

lemma byte_store_self {x : UInt8} (acc : m.Accessible a) : (m.store a [x]).byte a = some x := by
  obtain ⟨old, eq⟩ := Option.isSome_iff_exists.1 acc
  simp [store, eq]

lemma byte_store_ne (out : b < a ∨ a + bs.length ≤ b) : (m.store a bs).byte b = m.byte b := by
  cases h : m.byte b with
  | none => simp [store, h]
  | some old =>
    have keep : bs.length ≤ b - a ∨ ¬a ≤ b := by omega
    obtain ge | lt := keep
    · simp [store, h, ge]
    · simp [store, h, lt]

@[simp]
lemma store_nil : m.store a [] = m := by
  ext b x
  simp [store]

lemma store_append : (m.store a xs).store (a + xs.length) ys = m.store a (xs ++ ys) := by
  ext b x
  simp only [store, Option.map_map]
  congr! 2
  funext old
  simp only [Function.comp, List.getD_eq_getElem?_getD, List.getElem?_append]
  split_ifs <;> first | omega | grind

lemma copyBytes_append (acc : m.Ready a xs.length) :
    m.copyBytes a (xs ++ ys) = (m.store a xs).copyBytes (a + xs.length) ys := by
  induction xs generalizing m a with
  | nil => simp
  | cons x xs ih =>
    obtain ⟨first, rest⟩ := ready_succ.1 acc
    have both : (m.store a [x]).store (a + 1) xs = m.store a (x :: xs) := store_append
    rw [List.cons_append, copyBytes, if_pos first, ih (ready_store.2 rest), both, List.length_cons, Nat.add_assoc, Nat.add_comm 1]

lemma copyout_eq : m.copyout a bs = m.copyBytes a bs := by
  induction len : bs.length using Nat.strong_induction_on generalizing m a bs with
  | _ len ih =>
    rw [copyout]
    split
    · rename_i pos
      simp only [accessible_round]
      split
      · rename_i acc
        generalize hn : min (PGSIZE - (a - PGROUNDDOWN a)) bs.length = n
        have bounds : PGROUNDDOWN a ≤ a ∧ a < PGROUNDDOWN a + PGSIZE := by
          simp only [PGROUNDDOWN, PGSIZE]
          omega
        have page : m.Ready a (bs.take n).length := by
          intro i lt
          refine acc.page ?_
          simp only [List.length_take, PGROUNDDOWN, PGSIZE] at *
          omega
        rw [ih _ (by simp only [List.length_drop]; omega) rfl]
        conv_rhs => rw [← List.take_append_drop n bs, copyBytes_append page]
        -- the next page is where the copy goes on, unless it has ended
        by_cases ends : bs.length ≤ n
        · rw [List.drop_eq_nil_of_le ends, copyBytes, copyBytes]
        · congr 1
          rw [List.length_take]
          omega
      · rename_i no
        obtain ⟨x, xs, rfl⟩ := List.exists_cons_of_length_pos pos
        rw [copyBytes, if_neg no]
    · rename_i none
      rw [List.eq_nil_of_length_eq_zero (Nat.eq_zero_of_not_pos none), copyBytes]

@[simp]
lemma copyBytes_accessible : (m.copyBytes a bs).2.Accessible b ↔ m.Accessible b := by
  induction bs generalizing m a with
  | nil => rfl
  | cons x xs ih =>
    rw [copyBytes]
    split
    · rw [ih, accessible_store]
    · rfl

@[simp]
lemma copyout_accessible : (m.copyout a bs).2.Accessible b ↔ m.Accessible b := by
  rw [copyout_eq, copyBytes_accessible]

@[simp]
lemma ready_copyout {c n : ℕ} : (m.copyout a bs).2.Ready c n ↔ m.Ready c n := by
  simp only [Ready, copyout_accessible]

lemma copyout_fst : (m.copyout a bs).1 = if m.Ready a bs.length then 0 else -1 := by
  rw [copyout_eq]
  induction bs generalizing m a with
  | nil => exact (if_pos fun i lt => absurd lt (Nat.not_lt_zero i)).symm
  | cons x xs ih =>
    rw [copyBytes, List.length_cons]
    split
    · rename_i acc
      rw [ih]
      exact if_congr (by rw [ready_store, ready_succ, and_iff_right acc]) rfl rfl
    · rename_i no
      rw [if_neg fun ready => no (ready_succ.1 ready).1]

/-- An address holds the byte that is copied there if the copy has come that far, and else what it has held before. -/
lemma copyout_byte : (m.copyout a bs).2.byte b =
    if a ≤ b ∧ b < a + bs.length ∧ m.Ready a (b - a + 1) then bs[b - a]? else m.byte b := by
  rw [copyout_eq]
  induction bs generalizing m a with
  | nil => rw [copyBytes, if_neg (by simp; omega)]
  | cons x xs ih =>
    rw [copyBytes]
    split
    · rename_i acc
      rw [ih]
      simp only [ready_store, List.length_cons]
      obtain lt | rfl | gt := Nat.lt_trichotomy b a
      · rw [if_neg (by omega), if_neg (by omega), byte_store_ne (by simp; omega)]
      · rw [if_neg (by omega), Nat.sub_self, if_pos ⟨Nat.le_refl b, by omega, ready_succ.2 ⟨acc, by simp [Ready]⟩⟩,
          byte_store_self acc, List.getElem?_cons_zero]
      · obtain ⟨k, rfl⟩ := Nat.exists_eq_add_of_lt gt
        rw [byte_store_ne (by simp), show a + k + 1 - (a + 1) = k by omega, show a + k + 1 - a = k + 1 by omega,
          List.getElem?_cons_succ]
        refine if_congr ?_ rfl rfl
        rw [ready_succ (n := k + 1)]
        constructor
        · rintro ⟨-, lt, ready⟩
          exact ⟨by omega, by omega, acc, ready⟩
        · rintro ⟨-, lt, -, ready⟩
          exact ⟨by omega, by omega, ready⟩
    · rename_i no
      rw [if_neg fun h => no (ready_succ.1 h.2.2).1]

lemma copyout_append : m.copyout a (xs ++ ys) =
    if (m.copyout a xs).1 = -1 then m.copyout a xs else (m.copyout a xs).2.copyout (a + xs.length) ys := by
  simp only [copyout_eq]
  induction xs generalizing m a with
  | nil => simp [copyBytes]
  | cons x xs ih =>
    rw [List.cons_append, copyBytes, copyBytes]
    split
    · rw [ih, List.length_cons, Nat.add_assoc, Nat.add_comm 1]
    · rfl

/-! ### Reading -/

/-- Read `n` bytes. Returns 0, or -1 on error, and the bytes that have been read. -/
def fetch (m : UserMemory) : ℕ → ℕ → ℤ × List UInt8
  | _, 0 => (0, [])
  | a, n + 1 =>
    match m.byte a with
    | none => (-1, [])
    | some x => ((m.fetch (a + 1) n).1, x :: (m.fetch (a + 1) n).2)

/-- Read up to a NUL, but at most `max` bytes. Returns 0, or -1 on error, and the bytes that have been read. -/
def fetchString (m : UserMemory) : ℕ → ℕ → ℤ × List UInt8
  | _, 0 => (-1, [])
  | a, max + 1 =>
    match m.byte a with
    | none => (-1, [])
    | some x => if x = 0 then (0, [0]) else ((m.fetchString (a + 1) max).1, x :: (m.fetchString (a + 1) max).2)

/-- The bytes `bs` are at `a`. -/
def Holds (m : UserMemory) (a : ℕ) (bs : List UInt8) : Prop := ∀ i, i < bs.length → m.byte (a + i) = bs[i]?

/-- The string at `a` ends with a NUL at index `k`. -/
def StringAt (m : UserMemory) (a k : ℕ) : Prop := m.byte (a + k) = some 0 ∧ ∀ i < k, ∃ x ≠ 0, m.byte (a + i) = some x

lemma copyout_byte_ne (out : b < a ∨ a + bs.length ≤ b) : (m.copyout a bs).2.byte b = m.byte b := by
  rw [copyout_byte, if_neg (by omega)]

lemma holds_copyout (ready : m.Ready a bs.length) : (m.copyout a bs).2.Holds a bs := by
  intro i lt
  rw [copyout_byte, Nat.add_sub_cancel_left, if_pos]
  exact ⟨Nat.le_add_right a i, by omega, fun j lj => ready j (by omega)⟩

lemma Holds.congr {m' : UserMemory} (holds : m.Holds a bs) (same : ∀ i < bs.length, m'.byte (a + i) = m.byte (a + i)) :
    m'.Holds a bs := fun i lt => (same i lt).trans (holds i lt)

lemma holds_nil : m.Holds a [] := fun i lt => absurd lt (Nat.not_lt_zero i)

lemma holds_cons {x : UInt8} : m.Holds a (x :: xs) ↔ m.byte a = some x ∧ m.Holds (a + 1) xs := by
  constructor
  · intro holds
    refine ⟨holds 0 (Nat.succ_pos _), fun i lt => ?_⟩
    have byte := holds (i + 1) (Nat.succ_lt_succ lt)
    rwa [Nat.add_comm i, ← Nat.add_assoc, Nat.add_comm 1 i, List.getElem?_cons_succ] at byte
  · rintro ⟨first, rest⟩ (_ | i) lt
    · exact first
    · rw [Nat.add_comm i, ← Nat.add_assoc, rest i (Nat.lt_of_succ_lt_succ lt), Nat.add_comm 1 i, List.getElem?_cons_succ]

lemma fetch_append {n : ℕ} (holds : m.Holds a xs) :
    m.fetch a (xs.length + n) = ((m.fetch (a + xs.length) n).1, xs ++ (m.fetch (a + xs.length) n).2) := by
  induction xs generalizing a with
  | nil => simp
  | cons x xs ih =>
    obtain ⟨first, rest⟩ := holds_cons.1 holds
    rw [List.length_cons, Nat.add_right_comm, fetch, first]
    simp only [ih rest, List.cons_append, Nat.add_assoc, Nat.add_comm 1]

/-- What has been read is in memory; all has been read, or the next byte is not accessible. -/
lemma fetch_spec {n : ℕ} : m.Holds a (m.fetch a n).2 ∧ (m.fetch a n).2.length ≤ n ∧
    ((m.fetch a n).1 = 0 ∧ (m.fetch a n).2.length = n ∨
      (m.fetch a n).1 = -1 ∧ (m.fetch a n).2.length < n ∧ m.byte (a + (m.fetch a n).2.length) = none) := by
  induction n generalizing a with
  | zero => exact ⟨holds_nil, Nat.le_refl 0, .inl ⟨rfl, rfl⟩⟩
  | succ n ih =>
    rw [fetch]
    cases first : m.byte a with
    | none => exact ⟨holds_nil, Nat.zero_le _, .inr ⟨rfl, Nat.succ_pos n, first⟩⟩
    | some x =>
      obtain ⟨holds, le, done | ⟨failed, lt, next⟩⟩ := ih (a := a + 1)
      · exact ⟨holds_cons.2 ⟨first, holds⟩, Nat.succ_le_succ le, .inl ⟨done.1, congrArg Nat.succ done.2⟩⟩
      · refine ⟨holds_cons.2 ⟨first, holds⟩, Nat.succ_le_succ le, .inr ⟨failed, Nat.succ_lt_succ lt, ?_⟩⟩
        rwa [List.length_cons, Nat.add_comm _ 1, ← Nat.add_assoc]

lemma StringAt.unique {k k' : ℕ} (str : m.StringAt a k) (str' : m.StringAt a k') : k = k' := by
  have before : ∀ {k k'}, m.StringAt a k → m.StringAt a k' → ¬k < k' := by
    intro k k' str str' lt
    obtain ⟨x, ne, byte⟩ := str'.2 k lt
    rw [str.1, Option.some.injEq] at byte
    exact ne byte.symm
  exact Nat.le_antisymm (Nat.not_lt.1 (before str' str)) (Nat.not_lt.1 (before str str'))

/-- What has been read is in memory; it is a string, or there is no string of that length. -/
lemma fetchString_spec (m : UserMemory) (a max : ℕ) : m.Holds a (m.fetchString a max).2 ∧ (m.fetchString a max).2.length ≤ max ∧
    ((m.fetchString a max).1 = 0 ∧ (∃ k, (m.fetchString a max).2.length = k + 1 ∧ m.StringAt a k) ∨
      (m.fetchString a max).1 = -1 ∧ ∀ k < max, ¬m.StringAt a k) := by
  induction max generalizing a with
  | zero => exact ⟨holds_nil, Nat.le_refl 0, .inr ⟨rfl, fun k lt => absurd lt (Nat.not_lt_zero k)⟩⟩
  | succ max ih =>
    rw [fetchString]
    cases first : m.byte a with
    | none =>
      refine ⟨holds_nil, Nat.zero_le _, .inr ⟨rfl, ?_⟩⟩
      rintro (_ | k) - ⟨last, before⟩
      · simp [first] at last
      · obtain ⟨x, -, byte⟩ := before 0 (Nat.succ_pos k)
        simp [first] at byte
    | some x =>
      dsimp only
      split
      · rename_i zero
        refine ⟨holds_cons.2 ⟨zero ▸ first, holds_nil⟩, Nat.succ_le_succ (Nat.zero_le _), .inl ⟨rfl, 0, rfl, ?_, ?_⟩⟩
        · rw [Nat.add_zero, first, zero]
        · exact fun i lt => absurd lt (Nat.not_lt_zero i)
      · rename_i ne
        have shift : ∀ {k}, m.StringAt a (k + 1) ↔ m.StringAt (a + 1) k := by
          intro k
          rw [StringAt, StringAt, Nat.add_assoc a 1 k, Nat.add_comm 1 k]
          refine and_congr_right fun last => ⟨fun before i lt => ?_, fun before i lt => ?_⟩
          · rw [Nat.add_assoc, Nat.add_comm 1]
            exact before (i + 1) (Nat.succ_lt_succ lt)
          · cases i with
            | zero => exact ⟨x, ne, first⟩
            | succ i =>
              rw [Nat.add_comm i, ← Nat.add_assoc]
              exact before i (Nat.lt_of_succ_lt_succ lt)
        obtain ⟨holds, le, ⟨done, k, len, str⟩ | ⟨failed, no⟩⟩ := ih (a + 1)
        · exact ⟨holds_cons.2 ⟨first, holds⟩, Nat.succ_le_succ le, .inl ⟨done, k + 1, congrArg Nat.succ len, shift.2 str⟩⟩
        · refine ⟨holds_cons.2 ⟨first, holds⟩, Nat.succ_le_succ le, .inr ⟨failed, ?_⟩⟩
          rintro (_ | k) lt str
          · have last := str.1
            rw [Nat.add_zero, first, Option.some.injEq] at last
            exact ne last
          · exact no k (Nat.lt_of_succ_lt_succ lt) (shift.1 str)

/-- A memory with one page, at `PGSIZE`, that is filled with 0. -/
def onePage : UserMemory where
  byte a := if a / PGSIZE = 1 then some 0 else none
  paged a := by simp only [PGROUNDDOWN, PGSIZE, Nat.mul_div_cancel _ (show 0 < 4096 by decide)]

end UserMemory

end Xv6
