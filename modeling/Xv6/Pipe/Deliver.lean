import Mathlib.Logic.Relation
import Xv6.Pipe.Ring
import Xv6.Vm.UserMemory

/-!
# What `piperead` delivers

`piperead` with the memory of its caller. The copy takes a byte out of the ring before it knows whether it can be stored:
a byte that cannot be is lost, and the others are delivered in order (`piperead_delivers`).
-/

namespace Xv6.Pipes

def dst (addr : BitVec 64) (i : ℕ) : ℕ := (addr + BitVec.ofNat 64 i).toNat

/-- The copy of `piperead` when `k` more bytes are wanted: the number of bytes it has copied, the pipe and the memory. -/
def readBytes (addr : BitVec 64) : ℕ → ℕ → Pipe → UserMemory → ℕ × Pipe × UserMemory
  | 0, i, pi, m => (i, pi, m)
  | k + 1, i, pi, m =>
    if pi.empty then (i, pi, m)
    else
      let (r, m') := m.copyout (dst addr i) [pi.next]
      if r = -1 then (i, pi.take, m') else readBytes addr k (i + 1) pi.take m'

/-- `piperead`. The test of the first loop finds the pipes and killed flags of the list, one after each `sleep`. The pipe
that the last test has found, the result, the pipe and the memory. -/
def piperead (addr : BitVec 64) (n : ℤ) (m : UserMemory) : List (Pipe × Bool) → Option (Pipe × ℤ × Pipe × UserMemory)
  | [] => none
  | (pi, killed) :: rest =>
    if pi.empty && pi.writeopen then
      if killed then some (pi, -1, pi, m) else piperead addr n m rest
    else
      let (i, pi', m') := readBytes addr n.toNat 0 pi m
      some (pi, i, pi', m')

/-- The `i` oldest bytes of the pipe have left it, and are at `addr`. -/
structure Delivers (addr : BitVec 64) (pi : Pipe) (i : ℕ) (pi' : Pipe) (m' : UserMemory) : Prop where
  nread : pi'.nread = pi.nread + BitVec.ofNat 32 i
  ring : pi'.ring = pi.ring.drop i
  stored : ∀ j < i, ∃ ch, pi.ring[j]? = some ch ∧ m'.byte (dst addr j) = some ch

section Copy

variable {addr : BitVec 64} {k i j : ℕ} {pi : Pipe} {m : UserMemory}

lemma dst_ne (lt : i < j) (near : j < i + 2 ^ 64) : dst addr i ≠ dst addr j := by
  simp only [dst, BitVec.toNat_add, BitVec.toNat_ofNat]
  omega

lemma length_ring : pi.ring.length = pi.count := by simp [Pipe.ring]

lemma count_lt : pi.count < 2 ^ 32 := BitVec.isLt _

lemma copyout_one {a : ℕ} {ch : UInt8} (acc : m.Accessible a) : m.copyout a [ch] = (0, m.store a [ch]) := by
  rw [UserMemory.copyout_eq, UserMemory.copyBytes, if_pos acc, UserMemory.copyBytes]

lemma copyout_one_fails {a : ℕ} {ch : UInt8} (no : ¬m.Accessible a) : m.copyout a [ch] = (-1, m) := by
  rw [UserMemory.copyout_eq, UserMemory.copyBytes, if_neg no]

lemma readBytes_empty (empty : pi.count = 0) : readBytes addr k i pi m = (i, pi, m) := by
  cases k with
  | zero => rfl
  | succ k => rw [readBytes, if_pos (empty_iff.2 empty)]

lemma readBytes_succ (some : 0 < pi.count) (acc : m.Accessible (dst addr i)) :
    readBytes addr (k + 1) i pi m = readBytes addr k (i + 1) pi.take (m.store (dst addr i) [pi.next]) := by
  rw [readBytes, if_neg (fun empty => Nat.ne_of_gt some (empty_iff.1 empty)), copyout_one acc]
  rfl

lemma readBytes_fails (some : 0 < pi.count) (no : ¬m.Accessible (dst addr i)) :
    readBytes addr (k + 1) i pi m = (i, pi.take, m) := by
  rw [readBytes, if_neg (fun empty => Nat.ne_of_gt some (empty_iff.1 empty)), copyout_one_fails no]
  rfl

/-- The copy where it does not fail: it goes on to the end of the ring or to the last byte that is wanted, and leaves the
rest of the memory as it is. -/
lemma readBytes_ok (acc : ∀ j < min k pi.count, m.Accessible (dst addr (i + j))) :
    ∃ pi' m', readBytes addr k i pi m = (i + min k pi.count, pi', m') ∧
      pi'.nread = pi.nread + BitVec.ofNat 32 (min k pi.count) ∧ pi'.ring = pi.ring.drop (min k pi.count) ∧
      (∀ j < min k pi.count, m'.byte (dst addr (i + j)) = pi.ring[j]?) ∧
      ∀ b, (∀ j < min k pi.count, b ≠ dst addr (i + j)) → m'.byte b = m.byte b := by
  induction k generalizing i pi m with
  | zero => exact ⟨pi, m, by simp [readBytes]⟩
  | succ k ih =>
    obtain empty | some := Nat.eq_zero_or_pos pi.count
    · rw [readBytes_empty empty, empty]
      exact ⟨pi, m, by simp⟩
    · have count := count_take some
      have bound : pi.count < 2 ^ 32 := count_lt
      have size : min (k + 1) pi.count = min k pi.take.count + 1 := by omega
      rw [size] at acc ⊢
      have first : m.Accessible (dst addr i) := acc 0 (Nat.succ_pos _)
      rw [readBytes_succ some first]
      have later : ∀ j < min k pi.take.count, (m.store (dst addr i) [pi.next]).Accessible (dst addr (i + 1 + j)) := by
        intro j lt
        rw [UserMemory.accessible_store, Nat.add_right_comm, Nat.add_assoc]
        exact acc (j + 1) (Nat.succ_lt_succ lt)
      obtain ⟨pi', m', eq, nread, ring, stored, rest⟩ := ih later
      refine ⟨pi', m', ?_, ?_, ?_, ?_, ?_⟩
      · rw [eq, Nat.add_right_comm, Nat.add_assoc]
      · rw [nread, Pipe.take, BitVec.add_assoc, BitVec.add_comm 1#32, ← BitVec.ofNat_add]
      · rw [ring, ring_take some, List.drop_succ_cons]
      · rintro (_ | j) lt
        · rw [ring_take some, rest _ fun j lt => dst_ne (by omega) (by omega)]
          exact UserMemory.byte_store_self first
        · have byte := stored j (Nat.lt_of_succ_lt_succ lt)
          rw [Nat.add_right_comm, Nat.add_assoc] at byte
          rw [byte, ring_take some, List.getElem?_cons_succ]
      · intro b out
        rw [rest b fun j lt => by
          rw [Nat.add_right_comm, Nat.add_assoc]
          exact out (j + 1) (Nat.succ_lt_succ lt)]
        have ne := out 0 (Nat.succ_pos _)
        exact UserMemory.byte_store_ne (by simp at ne ⊢; omega)

lemma readBytes_lost (lost : ∃ j < min k pi.count, ¬m.Accessible (dst addr (i + j))) :
    ∃ d pi' m', readBytes addr k i pi m = (i + d, pi', m') ∧ pi'.nread = pi.nread + BitVec.ofNat 32 (d + 1) := by
  obtain ⟨j, lt, no⟩ := lost
  induction k generalizing i j pi m with
  | zero => omega
  | succ k ih =>
    have some : 0 < pi.count := by omega
    have count := count_take some
    by_cases first : m.Accessible (dst addr i)
    · rw [readBytes_succ some first]
      obtain _ | j := j
      · exact absurd first no
      · have later : ¬(m.store (dst addr i) [pi.next]).Accessible (dst addr (i + 1 + j)) := by
          rwa [UserMemory.accessible_store, Nat.add_right_comm, Nat.add_assoc]
        have within : j < min k pi.take.count := by omega
        obtain ⟨d, pi', m', eq, nread⟩ := ih j within later
        refine ⟨d + 1, pi', m', by rw [eq, Nat.add_right_comm, Nat.add_assoc], ?_⟩
        rw [nread, Pipe.take, BitVec.add_assoc, BitVec.add_comm 1#32, ← BitVec.ofNat_add]
    · rw [readBytes_fails some first]
      exact ⟨0, pi.take, m, rfl, rfl⟩

lemma delivers_iff {pi' : Pipe} {m' : UserMemory} (eq : readBytes addr k 0 pi m = (i, pi', m')) :
    Delivers addr pi i pi' m' ↔ ∀ j < min k pi.count, m.Accessible (dst addr j) := by
  constructor
  · intro delivers
    by_contra lost
    simp only [not_forall] at lost
    obtain ⟨j, lt, fault⟩ := lost
    obtain ⟨d, pi', m', eq', nread⟩ := readBytes_lost (i := 0) ⟨j, lt, by rwa [Nat.zero_add]⟩
    rw [eq', Nat.zero_add] at eq
    cases eq
    have nread' := delivers.nread
    rw [nread, BitVec.ofNat_add, ← BitVec.add_assoc] at nread'
    exact absurd nread' (by bv_omega)
  · intro acc
    obtain ⟨pi', m', eq', nread, ring, stored, -⟩ := readBytes_ok (i := 0) (by simpa using acc)
    rw [eq', Nat.zero_add] at eq
    cases eq
    refine ⟨nread, ring, fun j lt => ?_⟩
    have in_ring : j < pi.ring.length := by
      rw [length_ring]
      omega
    have byte := stored j lt
    rw [Nat.zero_add, List.getElem?_eq_getElem in_ring] at byte
    exact ⟨_, List.getElem?_eq_getElem in_ring, byte⟩

lemma readBytes_acts {killed : Bool} {r : Read} (same : ∀ j, r.dst j = true ↔ m.Accessible (dst addr j))
    (size : r.n.toNat = i + k) :
    Relation.ReflTransGen (fun a b => act killed a.2 a.1 = some b) (.readByte r i, pi)
      (.readDone (readBytes addr k i pi m).1, (readBytes addr k i pi m).2.1) := by
  induction k generalizing i pi m with
  | zero => exact .single (if_neg (show ¬(i : ℤ) < r.n by omega))
  | succ k ih =>
    have more : (i : ℤ) < r.n := by omega
    obtain empty | some := Nat.eq_zero_or_pos pi.count
    · rw [readBytes_empty empty]
      refine .single ?_
      simp only [act, if_pos more, empty_iff.2 empty, if_true]
    · have full : ¬pi.empty := fun empty => Nat.ne_of_gt some (empty_iff.1 empty)
      by_cases acc : m.Accessible (dst addr i)
      · rw [readBytes_succ some acc]
        refine .head (b := (.readByte r (i + 1), pi.take)) ?_ (ih (fun j => ?_) (by omega))
        · simp only [act, if_pos more, if_neg full, (same i).2 acc, if_true]
        · rw [same, UserMemory.accessible_store]
      · rw [readBytes_fails some acc]
        have fails : ¬r.dst i = true := fun h => acc ((same i).1 h)
        refine .single ?_
        simp only [act, if_pos more, if_neg full, if_neg fails]

end Copy

/-- A call of `piperead` that does not fail delivers what it takes iff all bytes it could copy can be stored. -/
theorem piperead_delivers {addr : BitVec 64} {n ret : ℤ} {m m' : UserMemory} {found : List (Pipe × Bool)} {pi pi' : Pipe}
    (returns : piperead addr n m found = some (pi, ret, pi', m')) (nonneg : 0 ≤ ret) :
    Delivers addr pi ret.toNat pi' m' ↔ ∀ j < min n.toNat pi.count, m.Accessible (dst addr j) := by
  induction found with
  | nil => cases returns
  | cons x rest ih =>
    rw [piperead] at returns
    split at returns
    · split at returns
      · cases returns
        exact absurd nonneg (by decide)
      · exact ih returns
    · cases returns
      exact delivers_iff rfl


/-- A pipe that holds the bytes 7 and 8. -/
def twoInRing : Pipe := ((pipealloc fun _ => 0).store 7).store 8

lemma piperead_two {addr : BitVec 64} {m : UserMemory} : piperead addr 2 m [(twoInRing, false)] =
    some (twoInRing, ((readBytes addr 2 0 twoInRing m).1 : ℤ), (readBytes addr 2 0 twoInRing m).2) := by
  have full : ¬(twoInRing.empty && twoInRing.writeopen) = true := by decide
  rw [piperead, if_neg full]
  rfl

/-- Both bytes are read. -/
theorem piperead_delivers_two : ∃ pi' m', piperead 0x1000#64 2 UserMemory.onePage [(twoInRing, false)] = some (twoInRing, 2, pi', m') ∧
    Delivers 0x1000#64 twoInRing 2 pi' m' := by
  have acc : ∀ j < min 2 twoInRing.count, UserMemory.onePage.Accessible (dst 0x1000#64 (0 + j)) := by decide
  obtain ⟨pi', m', eq, -⟩ := readBytes_ok acc
  have returns : piperead 0x1000#64 2 UserMemory.onePage [(twoInRing, false)] = some (twoInRing, 2, pi', m') := by
    rw [piperead_two, eq]
    rfl
  exact ⟨pi', m', returns, (piperead_delivers returns (by decide)).2 (by decide)⟩

/-- With a buffer whose second byte is not accessible, the second byte is lost: one byte is returned, and two have left the
ring. -/
theorem piperead_loses : ∃ pi' m', piperead 0x1fff#64 2 UserMemory.onePage [(twoInRing, false)] = some (twoInRing, 1, pi', m') ∧
    pi'.nread = twoInRing.nread + 2#32 ∧ ¬Delivers 0x1fff#64 twoInRing 1 pi' m' := by
  have eq : readBytes 0x1fff#64 2 0 twoInRing UserMemory.onePage =
      (1, twoInRing.take.take, UserMemory.onePage.store (dst 0x1fff#64 0) [twoInRing.next]) := by
    rw [readBytes_succ (by decide) (by decide), readBytes_fails (by decide)]
    rw [UserMemory.accessible_store]
    decide
  refine ⟨twoInRing.take.take, UserMemory.onePage.store (dst 0x1fff#64 0) [twoInRing.next], ?_, by decide, fun delivers => ?_⟩
  · rw [piperead_two, eq]
    rfl
  · exact absurd delivers.nread (by decide)

end Xv6.Pipes
