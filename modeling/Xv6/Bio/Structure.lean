import Mathlib.Algebra.Module.NatInt
import Mathlib.Data.List.Sort
import Xv6.Bio.Cache

/-!
# The structure of the buffer cache

The invariant of the cache over all interleavings: the list is a ring of all buffers in the order in which `brelse` has
brought their counts to zero, no block is cached twice, and the count of a buffer is the number of its references and
pins. The least recently used free buffer is therefore the one that `bget` reassigns (`bcache_structure`).
-/

namespace Xv6.Bio

/-- The references to a buffer that a process has while it is in `bget` or in `brelse`. -/
def Place.refs (b : Fin NBUF) : Place → ℕ
  | .out => 0
  | .acquiresleep c => if c = b then 1 else 0
  | .brelse c => if c = b then 1 else 0

/-- The references to a buffer that `bget` has given and `brelse` has not taken back: those of the processes that are in
one of the two, and that of the holder of its sleep-lock. -/
def State.refs (s : State) (b : Fin NBUF) : ℕ :=
  ∑ p, (s.at_ p).refs b + if (s.cache.buf b).lock.isSome then 1 else 0

/-- The list is a ring of all buffers, from the one that was used last to the one that was used first. -/
structure Listed (s : State) : Prop where
  ring : ∃ l, s.cache.links.Ring l ∧ (∀ b, b ∈ l) ∧ l.Pairwise fun a b => s.used b < s.used a
  used : ∀ b, s.used b < s.clock

/-- No block is cached twice. -/
def Unique (c : Bcache) : Prop :=
  ∀ a b, (c.buf a).dev ≠ 0 → (c.buf a).dev = (c.buf b).dev → (c.buf a).blockno = (c.buf b).blockno → a = b

/-- The counts are those of the references and pins. -/
structure Counted (s : State) : Prop where
  refs : ∀ b, (s.cache.buf b).refcnt = BitVec.ofNat 32 (s.refs b + s.pins b)
  pins : ∀ b, s.pins b ≤ LOGSIZE

variable {s s' : State} {b : Fin NBUF} {p : Fin NPROC} {c c' : Bcache} {dev blockno : BitVec 32} {e : Event}

@[simp]
lemma Place.refs_out : Place.out.refs b = 0 := rfl

@[simp]
lemma Place.refs_acquiresleep : (Place.acquiresleep b).refs b = 1 := if_pos rfl

@[simp]
lemma Place.refs_brelse : (Place.brelse b).refs b = 1 := if_pos rfl

lemma Place.refs_le (l : Place) : l.refs b ≤ 1 := by
  cases l with
  | out => exact Nat.zero_le _
  | acquiresleep c | brelse c =>
    simp only [Place.refs]
    split <;> omega

lemma State.refs_le : s.refs b ≤ NPROC + 1 := by
  have le : ∑ p, (s.at_ p).refs b ≤ ∑ _p : Fin NPROC, 1 := Finset.sum_le_sum fun p _ => Place.refs_le _
  simp only [Finset.sum_const, Finset.card_univ, Fintype.card_fin, smul_eq_mul, Nat.mul_one] at le
  unfold State.refs
  split <;> omega

lemma Counted.refcnt (i : Counted s) (b : Fin NBUF) : (s.cache.buf b).refcnt.toNat = s.refs b + s.pins b := by
  have le := State.refs_le (s := s) (b := b)
  have pins := i.pins b
  rw [i.refs b, BitVec.toNat_ofNat, Nat.mod_eq_of_lt]
  have : NPROC + 1 + LOGSIZE < 2 ^ 32 := by decide
  omega

lemma length_lt {l : List (Fin NBUF)} (r : c.links.Ring l) : l.length < NBUF + 1 := by
  have := r.nodup.length_le_card
  rw [Fintype.card_fin] at this
  omega

/-- The first loop of `bget` finds the first buffer of the list that passes its test. -/
lemma scan_next {l : List (Fin NBUF)} {f : Fin NBUF → Bool} (r : c.links.Ring l) :
    Cells.scan c.links.next f (NBUF + 1) (c.links.next none) = some (l.find? f) :=
  r.segment.path_next.scan (length_lt r)

lemma scan_prev {l : List (Fin NBUF)} {f : Fin NBUF → Bool} (r : c.links.Ring l) :
    Cells.scan c.links.prev f (NBUF + 1) (c.links.prev none) = some (l.reverse.find? f) :=
  r.segment.path_prev.scan (by rw [List.length_reverse]; exact length_lt r)

/-- What `bget` does: it finds the block, or it takes the last buffer of the list whose count is zero. -/
lemma bget_cases {l : List (Fin NBUF)} (r : c.links.Ring l) (all : ∀ b, b ∈ l)
    (get : bget c dev blockno = some (.ok (b, c'))) :
    ((c.buf b).dev = dev ∧ (c.buf b).blockno = blockno ∧
      c' = c.set b { c.buf b with refcnt := (c.buf b).refcnt + 1 }) ∨
    ((∀ a, (c.buf a).dev = dev → (c.buf a).blockno ≠ blockno) ∧ (c.buf b).refcnt = 0 ∧
      (∃ l₁ l₂, l = l₁ ++ b :: l₂ ∧ ∀ a ∈ l₂, (c.buf a).refcnt ≠ 0) ∧
      c' = c.set b { c.buf b with dev := dev, blockno := blockno, valid := false, refcnt := 1 }) := by
  simp only [bget, scan_next r, scan_prev r] at get
  split at get
  · cases get
  · rename_i a found
    cases get
    have ok := List.find?_some (Option.some.inj found)
    simp only [Bool.and_eq_true, beq_iff_eq] at ok
    exact .inl ⟨ok.1, ok.2, rfl⟩
  · rename_i none
    have none := List.find?_eq_none.mp (Option.some.inj none)
    split at get
    · cases get
    · rename_i a found
      cases get
      obtain ⟨ok, l₂, l₁, eq, before⟩ := List.find?_eq_some_iff_append.mp (Option.some.inj found)
      refine .inr ⟨fun a dev blockno => ?_, by simpa using ok, ⟨l₁.reverse, l₂.reverse, ?_, ?_⟩, rfl⟩
      · exact none a (all a) (by simp [dev, blockno])
      · rw [← List.reverse_reverse l, eq]
        simp
      · intro a mem
        simpa using before a (List.mem_reverse.mp mem)
    · cases get

lemma Listed.bget_ends (i : Listed s) : bget s.cache dev blockno ≠ none := by
  obtain ⟨l, r, all, -⟩ := i.ring
  simp only [bget, scan_next r, scan_prev r]
  split <;> simp_all
  split <;> simp_all

/-- The buffer that `bget` reassigns is the least recently used one whose count is zero. -/
lemma Listed.victim (i : Listed s) (get : bget s.cache dev blockno = some (.ok (b, c)))
    (new : (c.buf b).dev ≠ (s.cache.buf b).dev ∨ (c.buf b).blockno ≠ (s.cache.buf b).blockno) :
    (s.cache.buf b).refcnt = 0 ∧ ∀ a, a ≠ b → (s.cache.buf a).refcnt = 0 → s.used b < s.used a := by
  obtain ⟨l, r, all, sorted⟩ := i.ring
  rcases bget_cases r all get with ⟨-, -, rfl⟩ | ⟨-, zero, ⟨l₁, l₂, rfl, after⟩, -⟩
  · simp [Bcache.set] at new
  · refine ⟨zero, fun a ne free => ?_⟩
    have mem := all a
    rw [List.mem_append, List.mem_cons] at mem
    rcases mem with mem | eq | mem
    · exact (List.pairwise_append.mp sorted).2.2 a mem b (by simp)
    · exact absurd eq ne
    · exact absurd free (after a mem)

lemma listed_boot : Listed boot where
  ring := by
    have empty : (⟨fun _ => none, fun _ => none⟩ : Cells (Fin NBUF)).Ring [] := ⟨List.nodup_nil, rfl, rfl⟩
    refine ⟨_, empty.foldl_push (List.nodup_finRange NBUF) (fun _ _ => List.not_mem_nil), fun b => ?_, ?_⟩
    · simp [List.mem_finRange]
    · rw [List.append_nil, List.pairwise_reverse]
      exact (List.sortedLT_finRange NBUF).pairwise
  used b := b.isLt

lemma Listed.touch (i : Listed s) {buf : Fin NBUF → Buf} {l : Fin NPROC → Place} {q : Fin NBUF → ℕ} :
    Listed ⟨⟨buf, (s.cache.links.unlink b).push b⟩, l, q, Function.update s.used b s.clock, s.clock + 1⟩ := by
  obtain ⟨l, r, all, sorted⟩ := i.ring
  obtain ⟨l₁, l₂, rfl⟩ := List.append_of_mem (all b)
  have nodup := r.nodup
  rw [List.nodup_middle, List.nodup_cons] at nodup
  have other : ∀ a ∈ l₁ ++ l₂, a ≠ b := fun a mem eq => nodup.1 (eq ▸ mem)
  refine ⟨⟨b :: (l₁ ++ l₂), r.unlink.push nodup.1, fun a => ?_, ?_⟩, fun a => ?_⟩
  · have := all a
    grind
  · rw [List.pairwise_cons]
    refine ⟨fun a mem => ?_, ?_⟩
    · simpa only [Function.update_self, Function.update_of_ne (other a mem)] using i.used a
    · refine (sorted.sublist (by simp)).imp_of_mem fun {a c} ma mc lt => ?_
      simpa only [Function.update_of_ne (other a ma), Function.update_of_ne (other c mc)] using lt
  · by_cases eq : a = b
    · subst eq
      simp
    · simpa only [Function.update_of_ne eq] using Nat.lt_succ_of_lt (i.used a)

lemma Listed.step (i : Listed s) (st : Step s e s') : Listed s' := by
  cases st with
  | bget _ _ get =>
    obtain ⟨l, r, all, -⟩ := i.ring
    rcases bget_cases r all get with ⟨-, -, rfl⟩ | ⟨-, -, -, rfl⟩ <;> exact ⟨i.ring, i.used⟩
  | @brelse p b _ =>
    simp only [State.brelse, Bio.brelse, Bcache.set, Function.update_self]
    split
    · exact i.touch
    · exact ⟨i.ring, i.used⟩
  | _ => exact ⟨i.ring, i.used⟩

lemma Bcache.set_same {B : Buf} (dev : B.dev = (c.buf b).dev) (blockno : B.blockno = (c.buf b).blockno) (a : Fin NBUF) :
    ((c.set b B).buf a).dev = (c.buf a).dev ∧ ((c.set b B).buf a).blockno = (c.buf a).blockno := by
  by_cases eq : a = b
  · subst eq
    simp [Bcache.set, dev, blockno]
  · simp [Bcache.set, eq]

lemma Bcache.not_new {B : Buf} {a : Fin NBUF}
    (new : ((c.set b B).buf a).dev ≠ (c.buf a).dev ∨ ((c.set b B).buf a).blockno ≠ (c.buf a).blockno)
    (dev : B.dev = (c.buf b).dev) (blockno : B.blockno = (c.buf b).blockno) : False := by
  obtain ⟨same, same'⟩ := set_same dev blockno a
  exact new.elim (· same) (· same')

lemma State.brelse_buf : (s.brelse b).cache.buf =
    (s.cache.set b { s.cache.buf b with refcnt := (s.cache.buf b).refcnt - 1 }).buf := by
  simp only [State.brelse, Bio.brelse, Bcache.set, Function.update_self]
  split <;> rfl

lemma Unique.congr (u : Unique c) (dev : ∀ b, (c'.buf b).dev = (c.buf b).dev)
    (blockno : ∀ b, (c'.buf b).blockno = (c.buf b).blockno) : Unique c' := by
  intro a b ne eq eq'
  rw [dev, dev] at eq
  rw [blockno, blockno] at eq'
  rw [dev] at ne
  exact u a b ne eq eq'

lemma Unique.set (u : Unique c) {B : Buf} (dev : B.dev = (c.buf b).dev) (blockno : B.blockno = (c.buf b).blockno) :
    Unique (c.set b B) :=
  u.congr (fun a => (Bcache.set_same dev blockno a).1) fun a => (Bcache.set_same dev blockno a).2

lemma Unique.step (u : Unique s.cache) (i : Listed s) (st : Step s e s') : Unique s'.cache := by
  cases st with
  | @bget p dev blockno b c _ nz get =>
    obtain ⟨l, r, all, -⟩ := i.ring
    rcases bget_cases r all get with ⟨-, -, rfl⟩ | ⟨new, -, -, rfl⟩
    · exact u.set (b := b) rfl rfl
    · intro a a' ne eq eq'
      have nb := new a
      have nb' := new a'
      have old := u a a'
      simp only [State.move, Bcache.set, Function.update_apply] at ne eq eq'
      grind
  | @brelse p b _ =>
    have same := Bcache.set_same (c := s.cache) (b := b)
      (B := { s.cache.buf b with refcnt := (s.cache.buf b).refcnt - 1 }) rfl rfl
    refine u.congr (fun a => ?_) fun a => ?_
    all_goals rw [State.move, State.brelse_buf]
    · exact (same a).1
    · exact (same a).2
  | @acquiresleep p b | @data p b | @releasesleep p b | @bpin b | @bunpin b => exact u.set (b := b) rfl rfl

lemma counted_boot : Counted boot where
  refs b := by simp [boot, binit, State.refs, Place.refs]
  pins b := Nat.zero_le _

lemma Counted.change (k : Counted s) {B : Buf} {l : Place} {q u : Fin NBUF → ℕ} {L : Cells (Fin NBUF)} {t : ℕ}
    (others : ∀ a, a ≠ b → l.refs a = (s.at_ p).refs a ∧ q a = s.pins a) (pins : q b ≤ LOGSIZE)
    (count : ∀ n, n + (s.at_ p).refs b = ∑ p, (s.at_ p).refs b + l.refs b →
      B.refcnt = BitVec.ofNat 32 (n + (if B.lock.isSome then 1 else 0) + q b)) :
    Counted ⟨⟨Function.update s.cache.buf b B, L⟩, Function.update s.at_ p l, q, u, t⟩ where
  refs a := by
    have sum := Fin.sum_comp_update (Place.refs a) s.at_ p l
    by_cases eq : a = b
    · subst eq
      simpa [State.refs] using count _ sum
    · obtain ⟨same, pin⟩ := others a eq
      rw [same] at sum
      simp only [State.refs, Function.update_of_ne eq, pin, Nat.add_right_cancel sum]
      exact k.refs a
  pins a := by
    by_cases eq : a = b
    · subst eq
      exact pins
    · exact (others a eq).2.trans_le (k.pins a)

lemma Counted.set (k : Counted s) {B : Buf} {q : Fin NBUF → ℕ} (others : ∀ a, a ≠ b → q a = s.pins a)
    (pins : q b ≤ LOGSIZE) (lock : B.lock = (s.cache.buf b).lock)
    (count : B.refcnt = BitVec.ofNat 32 (s.refs b + q b)) :
    Counted { s with cache := s.cache.set b B, pins := q } := by
  have := k.change (p := 0) (l := s.at_ 0) (q := q) (u := s.used) (L := s.cache.links) (t := s.clock) (B := B)
    (fun a ne => ⟨rfl, others a ne⟩) pins fun n eq => by rw [count, State.refs, lock, Nat.add_right_cancel eq]
  rwa [Function.update_eq_self] at this

lemma ofNat_add_one {n : ℕ} : BitVec.ofNat 32 n + 1 = BitVec.ofNat 32 (n + 1) := (BitVec.ofNat_add n 1).symm

lemma ofNat_sub_one {n : ℕ} (pos : 0 < n) : BitVec.ofNat 32 n - 1 = BitVec.ofNat 32 (n - 1) := by
  obtain ⟨m, rfl⟩ := Nat.exists_eq_succ_of_ne_zero (Nat.ne_of_gt pos)
  rw [Nat.succ_eq_add_one, BitVec.ofNat_add, Nat.add_sub_cancel]
  exact BitVec.add_sub_cancel _ _

lemma Counted.step (k : Counted s) (i : Listed s) (st : Step s e s') : Counted s' := by
  cases st with
  | @bget p dev blockno b c out _ get =>
    obtain ⟨l, r, all, -⟩ := i.ring
    have others : ∀ a, a ≠ b → (Place.acquiresleep b).refs a = (s.at_ p).refs a ∧ s.pins a = s.pins a := by
      intro a ne
      simp [Place.refs, out, Ne.symm ne]
    rcases bget_cases r all get with ⟨-, -, rfl⟩ | ⟨-, zero, -, rfl⟩
    · refine k.change others (k.pins b) fun n eq => ?_
      simp only [out, Place.refs_out, Place.refs_acquiresleep, Nat.add_zero] at eq
      dsimp only
      rw [k.refs b, State.refs, eq, ofNat_add_one]
      congr 1
      omega
    · have none := k.refcnt b
      rw [zero, State.refs] at none
      change 0 = _ at none
      refine k.change others (k.pins b) fun n eq => ?_
      simp only [out, Place.refs_out, Place.refs_acquiresleep, Nat.add_zero] at eq
      change 1#32 = _
      congr 1
      dsimp only
      omega
  | @acquiresleep p b at_ free =>
    refine k.change (fun a ne => by simp [Place.refs, at_, Ne.symm ne]) (k.pins b) fun n eq => ?_
    simp only [at_, Place.refs_out, Place.refs_acquiresleep, Nat.add_zero] at eq
    simp [k.refs b, State.refs, ← eq, free]
  | @data p b valid data out held =>
    exact k.set (fun _ _ => rfl) (k.pins b) rfl (k.refs b)
  | @releasesleep p b out held =>
    refine k.change (fun a ne => by simp [Place.refs, out, Ne.symm ne]) (k.pins b) fun n eq => ?_
    simp only [out, Place.refs_out, Place.refs_brelse, Nat.add_zero] at eq
    simp [k.refs b, State.refs, eq, held]
  | @brelse p b at_ =>
    have others : ∀ a, a ≠ b → Place.out.refs a = (s.at_ p).refs a ∧ s.pins a = s.pins a := by
      intro a ne
      simp [Place.refs, at_, Ne.symm ne]
    have count : ∀ n, n + (s.at_ p).refs b = ∑ p, (s.at_ p).refs b + Place.out.refs b →
        (s.cache.buf b).refcnt - 1 =
          BitVec.ofNat 32 (n + (if (s.cache.buf b).lock.isSome then 1 else 0) + s.pins b) := by
      intro n eq
      simp only [at_, Place.refs_out, Place.refs_brelse, Nat.add_zero] at eq
      rw [k.refs b, State.refs, ← eq, ofNat_sub_one (by omega)]
      congr 1
      omega
    simp only [State.brelse, Bio.brelse, Bcache.set, Function.update_self]
    split <;> exact k.change others (k.pins b) count
  | @bpin b lt =>
    refine k.set (fun a ne => Function.update_of_ne ne _ _) (by rwa [Function.update_self]) rfl ?_
    rw [Function.update_self, ← Nat.add_assoc, ← ofNat_add_one, ← k.refs b]
  | @bunpin b pos =>
    have le := k.pins b
    refine k.set (fun a ne => Function.update_of_ne ne _ _) (by rw [Function.update_self]; omega) rfl ?_
    rw [Function.update_self, ← Nat.add_sub_assoc pos, ← ofNat_sub_one (by omega), ← k.refs b]

/-- Only `bget` changes the block of a buffer, and only that of the one that it chooses. -/
lemma Listed.reassigned (i : Listed s) (st : Step s e s') (new : (s'.cache.buf b).dev ≠ (s.cache.buf b).dev ∨
    (s'.cache.buf b).blockno ≠ (s.cache.buf b).blockno) :
    ∃ dev blockno, bget s.cache dev blockno = some (.ok (b, s'.cache)) := by
  cases st with
  | @bget p dev blockno a c _ _ get =>
    obtain ⟨l, r, all, -⟩ := i.ring
    have eq : b = a := by
      by_contra ne
      rcases bget_cases r all get with ⟨-, -, rfl⟩ | ⟨-, -, -, rfl⟩ <;> simp [State.move, Bcache.set, ne] at new
    subst eq
    exact ⟨dev, blockno, get⟩
  | @brelse p a =>
    rw [State.move, State.brelse_buf] at new
    exact (Bcache.not_new new rfl rfl).elim
  | @acquiresleep p a | @data p a | @releasesleep p a | @bpin a | @bunpin a =>
    exact (Bcache.not_new new rfl rfl).elim

/-- The three parts of the invariant. -/
structure Inv (s : State) : Prop where
  listed : Listed s
  unique : Unique s.cache
  counted : Counted s

lemma inv_boot : Inv boot := ⟨listed_boot, fun _ _ ne => by simp [boot, binit] at ne, counted_boot⟩

lemma Inv.step (i : Inv s) (st : Step s e s') : Inv s' :=
  ⟨i.listed.step st, i.unique.step i.listed st, i.counted.step i.listed st⟩

/-- In every state that any interleaving of `bget`, `brelse`, `bpin` and `bunpin` leads to: `next` and `prev` visit each
buffer once, in reverse orders; no block of a device other than 0 is in two buffers; the count of a buffer is the number
of its references that have not been released and its pins; and a buffer that is reassigned has the count zero and is the
least recently used one of those that have. -/
theorem bcache_structure {es : List Event} (run : Run Step boot es s) :
    (∃ l : List (Fin NBUF), l.Nodup ∧ (∀ b, b ∈ l) ∧ Cells.Path s.cache.links.next none l ∧
      Cells.Path s.cache.links.prev none l.reverse) ∧
    (∀ a b, (s.cache.buf a).dev ≠ 0 → (s.cache.buf a).dev = (s.cache.buf b).dev →
      (s.cache.buf a).blockno = (s.cache.buf b).blockno → a = b) ∧
    (∀ b, (s.cache.buf b).refcnt.toNat = s.refs b + s.pins b) ∧
    ∀ e s', Step s e s' → ∀ b, (s'.cache.buf b).dev ≠ (s.cache.buf b).dev ∨
        (s'.cache.buf b).blockno ≠ (s.cache.buf b).blockno →
      (s.cache.buf b).refcnt = 0 ∧ ∀ a, a ≠ b → (s.cache.buf a).refcnt = 0 → s.used b < s.used a := by
  have i : Inv s := run.invariant inv_boot fun i st => i.step st
  obtain ⟨l, r, all, -⟩ := i.listed.ring
  refine ⟨⟨l, r.nodup, all, r.segment.path_next, r.segment.path_prev⟩, i.unique, i.counted.refcnt, ?_⟩
  intro e s' st b new
  obtain ⟨dev, blockno, get⟩ := i.listed.reassigned st new
  exact i.listed.victim get new

/-- The first block that is read gets the first buffer, which was the least recently used one. -/
theorem bcache_structure_first :
    ∃ s', Step boot (.bget 0 1 33 0) s' ∧ (s'.cache.buf 0).blockno = 33 ∧ ∀ a, a ≠ 0 → boot.used 0 < boot.used a := by
  have get : bget boot.cache 1 33 = some (.ok (0, boot.cache.set 0 ⟨false, 1, 33, 1, none, 0⟩)) := rfl
  have st := Step.bget (s := boot) (p := 0) rfl (by decide) get
  refine ⟨_, st, rfl, fun a ne => ?_⟩
  exact ((bcache_structure .nil).2.2.2 _ _ st 0 (.inl (by decide))).2 a ne rfl

end Xv6.Bio
