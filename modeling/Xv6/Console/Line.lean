import Xv6.Params
import Xv6.Lib.Circular
import Xv6.Lib.Monitor

/-!
# The console

`consoleread` and `consoleintr` of `console.c` as a monitor under `cons.lock`. A character that is typed is one call of
`consoleintr`; the loop of `consoleread` goes from place to place, and other reads and characters come between when it
sleeps.

`Line` is what the line discipline is about: the characters that have been committed, of which readers have taken a
first part, and those that can still be erased. Beside the buffer the runs record it, the bytes that readers have been given
and the results of the reads. The indices run freely modulo `2 ^ 32`; the buffer holds the committed characters that have not
been taken and then the pending ones (`Buffered`). `console_line_discipline` follows for any number of readers.
-/

namespace Xv6.Console

abbrev INPUT_BUF_SIZE : ℕ := 128

abbrev C (x : Char) : UInt8 := x.toUInt8 - '@'.toUInt8

abbrev newline : UInt8 := '\n'.toUInt8

/-! ### The line discipline -/

/-- The committed characters, how many of them readers have taken, and the characters that are not committed yet. -/
structure Line where
  committed : List UInt8
  taken : ℕ
  pending : List UInt8

namespace Line

/-- The number of characters that are buffered. -/
def buffered (L : Line) : ℕ := L.committed.length - L.taken + L.pending.length

/-- A character is accepted. It commits itself and what is pending if it is a newline or `^D` or fills the buffer. -/
def accept (L : Line) (c : UInt8) : Line :=
  if c = newline ∨ c = C 'D' ∨ L.buffered + 1 = INPUT_BUF_SIZE then
    { L with committed := L.committed ++ (L.pending ++ [c]), pending := [] }
  else { L with pending := L.pending ++ [c] }

def type (L : Line) (c : UInt8) : Line :=
  if c = C 'P' then L
  else if c = C 'U' then { L with pending := [] }
  else if c = C 'H' ∨ c = 0x7f then { L with pending := L.pending.dropLast }
  else if c ≠ 0 ∧ L.buffered < INPUT_BUF_SIZE then L.accept (if c = '\r'.toUInt8 then newline else c)
  else L

end Line

/-! ### The code -/

/-- A call of `consoleread` has left its loop: the size it was called with, the bytes it has copied out, and its result. -/
structure Result where
  size : ℤ
  bytes : List UInt8
  ret : ℤ

/-- `cons`, with the line, the bytes that have been copied out to readers and the results of the reads. -/
structure Cons where
  buf : ℕ → UInt8
  r : BitVec 32
  w : BitVec 32
  e : BitVec 32
  line : Line
  delivered : List UInt8
  results : List Result

/-- The loop for `^U`. It ends after at most `n` rounds if `n` characters are between `w` and `e`. -/
def Cons.killLine : ℕ → Cons → Cons
  | 0, k => k
  | n + 1, k =>
    if k.e ≠ k.w ∧ k.buf ((k.e - 1#32).toNat % INPUT_BUF_SIZE) ≠ newline then
      Cons.killLine n { k with e := k.e - 1#32 }
    else k

/-- `consoleintr`, up to `wakeup`, and whether it calls `wakeup`. -/
def Cons.intr (k : Cons) (c : UInt8) : Bool × Cons :=
  let line := k.line.type c
  if c = C 'P' then (false, { k with line := line })
  else if c = C 'U' then (false, { k.killLine (k.e - k.w).toNat with line := line })
  else if c = C 'H' ∨ c = 0x7f then
    (false, if k.e ≠ k.w then { k with e := k.e - 1#32, line := line } else { k with line := line })
  else if c ≠ 0 ∧ k.e - k.r < BitVec.ofNat 32 INPUT_BUF_SIZE then
    let c := if c = '\r'.toUInt8 then newline else c
    let buf := Function.update k.buf (k.e.toNat % INPUT_BUF_SIZE) c
    let e := k.e + 1#32
    if c = newline ∨ c = C 'D' ∨ e - k.r = BitVec.ofNat 32 INPUT_BUF_SIZE then
      (true, { k with buf := buf, e := e, w := e, line := line })
    else (false, { k with buf := buf, e := e, line := line })
  else (false, { k with line := line })

/-- A call of `consoleread`: the size, which addresses from `dst` on can be written, how many bytes are still wanted, and the
bytes that have been copied out. -/
structure Read where
  target : ℤ
  dst : ℕ → Bool
  n : ℤ
  got : List UInt8

/-- The places of the two functions at which the lock is held. -/
inductive Place where
  -- `consoleread`: the tests of the two loops, `killed(myproc())`, `sleep`, and the rest of the body
  | readLoop (q : Read)
  | readWait (q : Read)
  | readKilled (q : Read)
  | readSleep (q : Read)
  | readByte (q : Read)
  -- `consoleintr`
  | intr (c : UInt8)
  | intrWakeup
  /-- `release`. -/
  | return

/-- The channel `&cons.r`. -/
inductive Chan where
  | r
  deriving DecidableEq

def Cons.result (k : Cons) (q : Read) (ret : ℤ) : Place × Cons :=
  (.return, { k with results := k.results ++ [⟨q.target, q.got, ret⟩] })

/-- The body of the loop of `consoleread` from the read of the buffer on. -/
def Cons.take (k : Cons) (q : Read) : Place × Cons :=
  let c := k.buf (k.r.toNat % INPUT_BUF_SIZE)
  let k' := { k with r := k.r + 1#32, line := { k.line with taken := k.line.taken + 1 } }
  if c = C 'D' then
    -- a `^D` behind other bytes is left for the next read
    if q.n < q.target then { k with r := k.r + 1#32 - 1#32 }.result q (q.target - q.n)
    else k'.result q (q.target - q.n)
  else if q.dst q.got.length then
    let q' := { q with n := q.n - 1, got := q.got ++ [c] }
    let k' := { k' with delivered := k.delivered ++ [c] }
    if c = newline then k'.result q' (q'.target - q'.n) else (.readLoop q', k')
  else k'.result q (q.target - q.n)

/-- What a call does at a place where it calls neither `sleep` nor `wakeup` nor `release`. -/
def act (killed : Bool) (k : Cons) : Place → Option (Place × Cons)
  | .readLoop q => some (if 0 < q.n then (.readWait q, k) else k.result q (q.target - q.n))
  | .readWait q => some (if k.r = k.w then (.readKilled q, k) else (.readByte q, k))
  | .readKilled q => some (if killed then k.result q (-1) else (.readSleep q, k))
  | .readByte q => some (k.take q)
  | .intr c => some (if (k.intr c).1 then .intrWakeup else .return, (k.intr c).2)
  | _ => none

/-- The first places of the two functions. All addresses that a read may write to can be written. -/
inductive Place.Start : Place → Prop where
  | read {n : ℤ} {dst : ℕ → Bool} :
    (∀ i : ℕ, i < n → dst i) →
    Place.Start (.readLoop ⟨n, dst, n, []⟩)
  | intr {c} :
    Place.Start (.intr c)

/-- The call of `wakeup`. -/
inductive Wakes : Place → Chan → Place → Prop where
  | intr : Wakes .intrWakeup .r .return

/-- The call of `sleep`. -/
inductive Sleeps : Place → Chan → Place → Prop where
  | read {q} : Sleeps (.readSleep q) .r (.readWait q)

/-- Any number of readers, and of interrupt handlers. -/
def console {n : ℕ} : Monitor (Fin n) Cons Place Chan where
  start _ l _ := l.Start
  act _ l k killed l' k' := act killed k l = some (l', k')
  wakes := Wakes
  sleeps := Sleeps
  ends l := l = .return
  free _ _ _ := False

/-- The console before the first character, with the indices anywhere. -/
def consoleinit (buf : ℕ → UInt8) (i : BitVec 32) : Cons := ⟨buf, i, i, i, ⟨[], 0, []⟩, [], []⟩

/-! ### The buffer -/

/-- The buffer holds the committed characters that have not been taken, and then the pending ones. -/
structure Buffered (k : Cons) : Prop where
  window : Circular.window INPUT_BUF_SIZE k.buf k.r (k.e - k.r).toNat =
    k.line.committed.drop k.line.taken ++ k.line.pending
  room : (k.e - k.r).toNat ≤ INPUT_BUF_SIZE
  write : k.line.taken + (k.w - k.r).toNat = k.line.committed.length
  plain : newline ∉ k.line.pending

variable {k k' : Cons} {c : UInt8} {q : Read}

lemma dvd : INPUT_BUF_SIZE ∣ 2 ^ 32 := by decide

namespace Buffered

lemma count (h : Buffered k) : (k.e - k.r).toNat = k.line.buffered := by
  have len := congrArg List.length h.window
  simpa [Line.buffered] using len

lemma write_le (h : Buffered k) : (k.w - k.r).toNat ≤ (k.e - k.r).toNat := by
  have := h.count
  have := h.write
  simp only [Line.buffered] at *
  omega

lemma edit (h : Buffered k) : (k.e - k.w).toNat = k.line.pending.length := by
  have := h.count
  have := h.write
  have := Circular.dist_between h.write_le
  simp only [Line.buffered] at *
  omega

lemma erase (h : Buffered k) (ne : k.e ≠ k.w) :
    Buffered { k with e := k.e - 1#32, line := { k.line with pending := k.line.pending.dropLast } } ∧
      k.buf ((k.e - 1#32).toNat % INPUT_BUF_SIZE) ≠ newline := by
  have edit := h.edit
  have count := h.count
  have pos : k.line.pending ≠ [] := by
    intro nil
    rw [nil, List.length_nil, Circular.dist_eq_zero] at edit
    exact ne edit.symm
  have le := Circular.dist_between h.write_le
  have len := List.length_pos_of_ne_nil pos
  have er : k.r ≠ k.e := by
    intro eq
    have := Circular.dist_eq_zero.2 eq
    omega
  have win := h.window
  rw [Circular.window_pop er, ← List.dropLast_append_getLast pos, ← List.append_assoc] at win
  obtain ⟨rest, last⟩ := List.append_inj' win rfl
  refine ⟨⟨rest, ?_, h.write, fun mem => h.plain (List.mem_of_mem_dropLast mem)⟩, ?_⟩
  · have := Circular.dist_front er
    have := h.room
    dsimp only
    omega
  · rw [List.singleton_inj.1 last]
    exact fun eq => h.plain (eq ▸ List.getLast_mem pos)

lemma pending_nil (h : Buffered k) (eq : k.e = k.w) : k.line.pending = [] := by
  have edit := h.edit
  rw [Circular.dist_eq_zero.2 eq.symm] at edit
  exact List.length_eq_zero_iff.1 edit.symm

lemma killLine {n : ℕ} {L : Line} (h : Buffered { k with line := L }) (eq : (k.e - k.w).toNat = n) :
    k.killLine n = { k with e := k.w } ∧ Buffered { k with e := k.w, line := { L with pending := [] } } := by
  induction n generalizing k L with
  | zero =>
    obtain ⟨buf, r, w, e, line, delivered, results⟩ := k
    obtain rfl : w = e := Circular.dist_eq_zero.1 eq
    obtain ⟨committed, taken, pending⟩ := L
    obtain rfl : pending = [] := h.pending_nil rfl
    exact ⟨rfl, h⟩
  | succ n ih =>
    have ne : k.e ≠ k.w := by
      intro we
      simp [we] at eq
    obtain ⟨h', last⟩ := h.erase ne
    have eq' : (k.e - 1#32 - k.w).toNat = n := by
      have := Circular.dist_front ne.symm
      omega
    obtain ⟨kill, fin⟩ := ih (k := { k with e := k.e - 1#32 }) h' eq'
    refine ⟨?_, fin⟩
    rw [Cons.killLine, if_pos ⟨ne, last⟩]
    exact kill

lemma store (h : Buffered k) (room : (k.e - k.r).toNat < INPUT_BUF_SIZE) (c : UInt8) :
    Circular.window INPUT_BUF_SIZE (Function.update k.buf (k.e.toNat % INPUT_BUF_SIZE) c) k.r (k.e + 1#32 - k.r).toNat =
      k.line.committed.drop k.line.taken ++ (k.line.pending ++ [c]) ∧ (k.e + 1#32 - k.r).toNat = (k.e - k.r).toNat + 1 := by
  have lt : (k.e - k.r).toNat + 1 < 2 ^ 32 := by
    simp only [INPUT_BUF_SIZE] at room
    omega
  rw [Circular.window_push dvd room lt, h.window, List.append_assoc]
  exact ⟨rfl, Circular.dist_succ lt⟩

lemma room_iff (h : Buffered k) : k.e - k.r < BitVec.ofNat 32 INPUT_BUF_SIZE ↔ k.line.buffered < INPUT_BUF_SIZE := by
  rw [BitVec.lt_def, ← h.count]
  rfl

lemma intr (h : Buffered k) (c : UInt8) : Buffered (k.intr c).2 := by
  simp only [Cons.intr, Line.type]
  by_cases cp : c = C 'P'
  · simpa only [cp, if_true] using h
  by_cases cu : c = C 'U'
  · obtain ⟨kill, fin⟩ := h.killLine (k := k) rfl
    simp only [cu, if_true, kill]
    rw [if_neg (by decide), if_neg (by decide)]
    exact fin
  by_cases ch : c = C 'H' ∨ c = 0x7f
  · simp only [cp, cu, ch, if_true, if_false]
    split
    case isTrue ne => exact (h.erase ne).1
    case isFalse eq =>
      have same : k.line.pending.dropLast = k.line.pending := by simp [h.pending_nil (not_not.1 eq)]
      rw [same]
      exact h
  simp only [cp, cu, ch, if_false, h.room_iff]
  by_cases room : c ≠ 0 ∧ k.line.buffered < INPUT_BUF_SIZE
  case neg => simpa only [if_neg room] using h
  simp only [if_pos room]
  generalize (if c = '\r'.toUInt8 then newline else c) = c
  obtain ⟨win, succ⟩ := h.store (by rw [h.count]; exact room.2) c
  have full : k.e + 1#32 - k.r = BitVec.ofNat 32 INPUT_BUF_SIZE ↔ k.line.buffered + 1 = INPUT_BUF_SIZE := by
    rw [← BitVec.toNat_inj, succ, h.count]
    rfl
  have count := h.count
  have write := h.write
  simp only [Line.accept, full]
  by_cases commit : c = newline ∨ c = C 'D' ∨ k.line.buffered + 1 = INPUT_BUF_SIZE
  · simp only [if_pos commit]
    refine ⟨?_, ?_, ?_, List.not_mem_nil⟩
    · have le : k.line.taken ≤ k.line.committed.length := by omega
      rw [win, List.drop_append_of_le_length le, List.append_nil]
    · dsimp only
      omega
    · simp only [succ, List.length_append, List.length_singleton, Line.buffered] at *
      omega
  · simp only [if_neg commit]
    refine ⟨win, ?_, write, ?_⟩
    · dsimp only
      omega
    · simp only [not_or] at commit
      simp [h.plain, Ne.symm commit.1]

lemma take (h : Buffered k) (ne : k.r ≠ k.w) :
    k.line.committed[k.line.taken]? = some (k.buf (k.r.toNat % INPUT_BUF_SIZE)) ∧
      Buffered { k with r := k.r + 1#32, line := { k.line with taken := k.line.taken + 1 } } := by
  have write := h.write
  have le := h.write_le
  have rw := Circular.dist_rear ne
  have re : k.r ≠ k.e := by
    intro eq
    have := Circular.dist_eq_zero.2 eq
    omega
  have re' := Circular.dist_rear re
  have lt : k.line.taken < k.line.committed.length := by omega
  have win := h.window
  rw [Circular.window_take re, List.drop_eq_getElem_cons lt, List.cons_append] at win
  obtain ⟨first, rest⟩ := List.cons.inj win
  refine ⟨by rw [List.getElem?_eq_getElem lt, first], rest, ?_, ?_, h.plain⟩
  · have := h.room
    dsimp only
    omega
  · dsimp only
    omega

lemma result (h : Buffered k) {ret : ℤ} : Buffered (k.result q ret).2 := ⟨h.window, h.room, h.write, h.plain⟩

end Buffered

/-! ### What readers are given -/

/-- What has been delivered is what has been taken, without each `^D`, for which a read has returned 0; and no read goes beyond
a newline. -/
structure Served (k : Cons) : Prop where
  delivered : k.delivered = (k.line.committed.take k.line.taken).filter (· ≠ C 'D')
  eof : (k.results.filter fun x => 0 < x.size ∧ x.ret = 0).length = (k.line.committed.take k.line.taken).count (C 'D')
  line : ∀ x ∈ k.results, newline ∉ x.bytes.dropLast ∧ (x.ret = -1 ∨ x.ret = x.bytes.length)

/-- What holds of a read in its loop. -/
structure Read.Ok (q : Read) : Prop where
  line : newline ∉ q.got
  left : q.got.length + q.n = q.target
  dst : ∀ i : ℕ, i < q.target → q.dst i

/-- What holds at a place. -/
def Place.Ok (k : Cons) : Place → Prop
  | .readLoop q => q.Ok
  | .readWait q => q.Ok ∧ 0 < q.n
  | .readKilled q => q.Ok ∧ 0 < q.n ∧ k.r = k.w
  | .readSleep q => q.Ok ∧ 0 < q.n ∧ k.r = k.w
  | .readByte q => q.Ok ∧ 0 < q.n ∧ k.r ≠ k.w
  | _ => True

lemma Line.type_take (L : Line) (c : UInt8) (le : L.taken ≤ L.committed.length) :
    (L.type c).committed.take (L.type c).taken = L.committed.take L.taken := by
  unfold Line.type Line.accept
  grind

lemma Cons.killLine_eq (n : ℕ) (k : Cons) : k.killLine n = { k with e := (k.killLine n).e } := by
  induction n generalizing k with
  | zero => rfl
  | succ n ih =>
    rw [Cons.killLine]
    split
    · rw [ih]
    · rfl

lemma Cons.intr_eq (k : Cons) (c : UInt8) :
    (k.intr c).2.line = k.line.type c ∧ (k.intr c).2.delivered = k.delivered ∧ (k.intr c).2.results = k.results ∧
      (k.intr c).2.r = k.r ∧ ((k.intr c).1 = false → (k.intr c).2.w = k.w) := by
  have kill := Cons.killLine_eq (k.e - k.w).toNat k
  unfold Cons.intr
  grind

namespace Served

lemma intr (h : Served k) (b : Buffered k) (c : UInt8) : Served (k.intr c).2 := by
  obtain ⟨line, delivered, results, -⟩ := k.intr_eq c
  have take := k.line.type_take c (by have := b.write; omega)
  constructor
  · rw [delivered, line, take, h.delivered]
  · rw [results, line, take, h.eof]
  · rw [results]
    exact h.line

lemma result (h : Served k) {ret : ℤ} (line : newline ∉ q.got.dropLast) (eq : ret = -1 ∨ ret = q.got.length)
    (ne : 0 < q.target → ret ≠ 0) : Served (k.result q ret).2 := by
  refine ⟨h.delivered, ?_, ?_⟩
  · simp only [Cons.result, List.filter_append, List.length_append, h.eof]
    grind
  · intro x mem
    simp only [Cons.result, List.mem_append, List.mem_singleton] at mem
    obtain mem | rfl := mem
    · exact h.line x mem
    · exact ⟨line, eq⟩

end Served

lemma Read.Ok.dropLast (ok : q.Ok) : newline ∉ q.got.dropLast := fun mem => ok.line (List.mem_of_mem_dropLast mem)

lemma Served.take (h : Served k) (b : Buffered k) (ok : q.Ok) (pos : 0 < q.n) (ne : k.r ≠ k.w) :
    Served (k.take q).2 ∧ Buffered (k.take q).2 ∧ (k.take q).1.Ok (k.take q).2 := by
  obtain ⟨next, b'⟩ := b.take ne
  obtain ⟨lt, eq⟩ := List.getElem?_eq_some_iff.1 next
  have taken : k.line.committed.take (k.line.taken + 1) =
      k.line.committed.take k.line.taken ++ [k.buf (k.r.toNat % INPUT_BUF_SIZE)] := by
    rw [← eq, List.take_append_getElem]
  have left := ok.left
  unfold Cons.take
  generalize k.buf (k.r.toNat % INPUT_BUF_SIZE) = c at *
  by_cases cd : c = C 'D'
  case pos =>
    simp only [if_pos cd]
    by_cases some : q.n < q.target
    · -- the `^D` is left
      simp only [if_pos some, BitVec.add_sub_cancel]
      exact ⟨h.result ok.dropLast (.inr (by omega)) (fun _ => by omega), b.result, trivial⟩
    · simp only [if_neg some]
      refine ⟨⟨?_, ?_, ?_⟩, b'.result, trivial⟩
      · simp [Cons.result, taken, cd, h.delivered]
      · have zero : q.target - q.n = 0 := by omega
        have size : 0 < q.target := by omega
        simp only [Cons.result, List.filter_append, List.length_append, taken, h.eof]
        simp [cd, zero, size]
      · intro x mem
        simp only [Cons.result, List.mem_append, List.mem_singleton] at mem
        obtain mem | rfl := mem
        · exact h.line x mem
        · exact ⟨ok.dropLast, .inr (by dsimp only; omega)⟩
  case neg =>
    have dst : q.dst q.got.length = true := ok.dst _ (by omega)
    have served : Served { k with
        r := k.r + 1#32
        line := { k.line with taken := k.line.taken + 1 }
        delivered := k.delivered ++ [c] } := by
      refine ⟨?_, ?_, h.line⟩
      · simp [taken, cd, h.delivered]
      · simp only [taken, h.eof]
        simp [cd]
    have b' : Buffered { k with
        r := k.r + 1#32
        line := { k.line with taken := k.line.taken + 1 }
        delivered := k.delivered ++ [c] } := ⟨b'.window, b'.room, b'.write, b'.plain⟩
    simp only [if_neg cd, dst, if_true]
    by_cases nl : c = newline
    · simp only [if_pos nl]
      refine ⟨served.result ?_ (.inr ?_) ?_, b'.result, trivial⟩
      · simpa using ok.line
      · simp
        omega
      · intro _
        omega
    · simp only [if_neg nl]
      refine ⟨served, b', ?_, ?_, ok.dst⟩
      · simp [ok.line, Ne.symm nl]
      · simp
        omega

/-- What holds of the console. -/
structure Inv (k : Cons) : Prop where
  buffered : Buffered k
  served : Served k

lemma Inv.act {killed : Bool} {l l' : Place} (i : Inv k) (ok : l.Ok k) (a : act killed k l = some (l', k')) :
    Inv k' ∧ l'.Ok k' := by
  obtain ⟨b, s⟩ := i
  cases l with
  | readLoop q =>
    simp only [Console.act] at a
    split at a
    case isTrue pos =>
      cases a
      exact ⟨⟨b, s⟩, ok, pos⟩
    case isFalse le =>
      cases a
      have left := ok.left
      exact ⟨⟨b.result, s.result ok.dropLast (.inr (by omega)) (fun _ => by omega)⟩, trivial⟩
  | readWait q =>
    simp only [Console.act] at a
    split at a <;> cases a
    · exact ⟨⟨b, s⟩, ok.1, ok.2, ‹_›⟩
    · exact ⟨⟨b, s⟩, ok.1, ok.2, ‹_›⟩
  | readKilled q =>
    simp only [Console.act] at a
    split at a <;> cases a
    · exact ⟨⟨b.result, s.result ok.1.dropLast (.inl rfl) (fun _ => by omega)⟩, trivial⟩
    · exact ⟨⟨b, s⟩, ok⟩
  | readByte q =>
    have taken := s.take b ok.1 ok.2.1 ok.2.2
    rw [show k.take q = (l', k') from Option.some.inj a] at taken
    exact ⟨⟨taken.2.1, taken.1⟩, taken.2.2⟩
  | intr c =>
    cases a
    refine ⟨⟨b.intr c, s.intr b c⟩, ?_⟩
    split <;> trivial
  | readSleep | intrWakeup | «return» => cases a

/-- A handler that has committed characters calls `wakeup`. -/
def Owes (l : Place) (_ : Chan) : Prop := l = .intrWakeup

/-- A reader that sleeps waits for a committed character. -/
def Waits (_ : Chan) (k : Cons) : Prop := k.r = k.w

lemma discipline {n : ℕ} : Monitor.Discipline (console (n := n)) Inv (fun l k => l.Ok k) Waits Owes where
  start _ st := by
    cases st with
    | read dst => exact ⟨List.not_mem_nil, by simp, dst⟩
    | intr => trivial
  act {p l d k l' d'} i ok a := by
    obtain ⟨i', ok'⟩ := i.act ok a
    refine ⟨i', ok', fun c => ⟨?_, fun wait => ?_⟩⟩
    · rintro rfl
      cases a
    · cases l with
      | intr c =>
        cases a
        obtain ⟨-, -, -, r, w⟩ := d.intr_eq c
        cases eq : (d.intr c).1 with
        | true => exact .inr rfl
        | false => exact .inl (r.trans (wait.trans (w eq).symm))
      | readByte => exact absurd wait ok.2.2
      | readLoop | readWait | readKilled =>
        simp only [console, Console.act] at a
        split at a <;> cases a <;> exact .inl wait
      | readSleep | intrWakeup | «return» => cases a
  wakes _ w := by
    cases w
    exact ⟨trivial, fun c ne => absurd rfl ne⟩
  sleeps _ ok sl := by
    cases sl
    exact ⟨ok.2.2, nofun, fun _ _ => ⟨ok.1, ok.2.1⟩⟩
  free _ f := f.elim

lemma inv_consoleinit {buf : ℕ → UInt8} {i : BitVec 32} : Inv (consoleinit buf i) := by
  refine ⟨⟨?_, ?_, ?_, ?_⟩, ⟨rfl, rfl, nofun⟩⟩ <;> simp [consoleinit]

variable {n : ℕ} {buf : ℕ → UInt8} {i : BitVec 32} {es : List (Monitor.Event n Place)}
  {s : Monitor.State n Cons Place Chan}

lemma sound (run : Run (Monitor.Step console) (Monitor.init (consoleinit buf i)) es s) :
    Monitor.Sound Inv (fun l k => l.Ok k) Waits Owes s := by
  refine discipline.sound inv_consoleinit (run.mono (P := fun _ => True) trivial (fun _ _ => trivial) fun _ st => ⟨st, ?_⟩)
  refine st.paid ?_
  rintro _ rfl c ow
  cases ow

/-- After every run, whatever was typed and read: the indices are in order and the buffer holds at most `INPUT_BUF_SIZE`
characters; what readers have been given is a first part of the committed characters other than `^D`, namely those among the
characters that have been taken; no read has been given bytes beyond a newline; and as many reads of a positive size have
returned 0 as there are `^D` among the characters that have been taken. -/
theorem console_line_discipline (run : Run (Monitor.Step console) (Monitor.init (consoleinit buf i)) es s) :
    (s.data.w - s.data.r).toNat ≤ (s.data.e - s.data.r).toNat ∧
      (s.data.e - s.data.r).toNat ≤ INPUT_BUF_SIZE ∧
      s.data.delivered <+: s.data.line.committed.filter (· ≠ C 'D') ∧
      s.data.delivered = (s.data.line.committed.take s.data.line.taken).filter (· ≠ C 'D') ∧
      (∀ x ∈ s.data.results, newline ∉ x.bytes.dropLast ∧ (x.ret = -1 ∨ x.ret = x.bytes.length)) ∧
      (s.data.results.filter fun x => 0 < x.size ∧ x.ret = 0).length =
        (s.data.line.committed.take s.data.line.taken).count (C 'D') := by
  obtain ⟨b, h⟩ := (sound run).data
  refine ⟨b.write_le, b.room, ?_, h.delivered, h.line, h.eof⟩
  rw [h.delivered]
  exact (List.take_prefix _ _).filter _

/-- A console with one process, which also takes the interrupts. -/
abbrev quiet : Monitor.State 1 Cons Place Chan := Monitor.init (consoleinit (fun _ => 0) 0)

/-- Somebody types `^D`, and a read of one byte returns 0. -/
theorem console_line_discipline_eof : ∃ es s, Run (Monitor.Step console) quiet es s ∧ s.data.line.committed = [C 'D'] ∧
    s.data.line.taken = 1 ∧ (s.data.results.filter fun x => 0 < x.size ∧ x.ret = 0).length = 1 := by
  have start : Place.Start (.readLoop ⟨1, fun _ => true, 1, []⟩) := .read fun _ _ => rfl
  have run := Run.nil.snoc (@Monitor.Step.enter _ _ _ _ _ console quiet 0 (.intr (C 'D')) rfl rfl .intr)
    |>.snoc (.act (p := 0) rfl rfl) |>.snoc (.wakeup (p := 0) rfl .intr) |>.snoc (.visit (p := 0) (by decide) rfl rfl)
    |>.snoc (.visited (p := 0) rfl) |>.snoc (.leave (p := 0) rfl rfl)
    |>.snoc (@Monitor.Step.enter _ _ _ _ _ _ _ 0 _ rfl rfl start)
    |>.snoc (.act (p := 0) rfl rfl) |>.snoc (.act (p := 0) rfl rfl) |>.snoc (.act (p := 0) rfl rfl)
  exact ⟨_, _, run, rfl, rfl, (console_line_discipline run).2.2.2.2.2⟩

/-- Nobody sleeps while there are committed characters to take. -/
theorem console_sleep (run : Run (Monitor.Step console) (Monitor.init (consoleinit buf i)) es s) (free : s.holder = none)
    {p : Fin n} {c : Chan} (mem : c ∈ (s.threads p).chan) : s.data.r = s.data.w :=
  (sound run).blocked_of_free free mem

/-- A reader sleeps, as nobody has typed anything. -/
theorem console_sleep_first : ∃ es s, Run (Monitor.Step console) quiet es s ∧ s.holder = none ∧
    Chan.r ∈ (s.threads 0).chan ∧ s.data.r = s.data.w := by
  have start : Place.Start (.readLoop ⟨1, fun _ => true, 1, []⟩) := .read fun _ _ => rfl
  have run := Run.nil.snoc (@Monitor.Step.enter _ _ _ _ _ console quiet 0 _ rfl rfl start)
    |>.snoc (.act (p := 0) rfl rfl) |>.snoc (.act (p := 0) rfl rfl) |>.snoc (.act (p := 0) rfl rfl)
    |>.snoc (.sleep (p := 0) rfl .read) |>.snoc (.release (p := 0) rfl) |>.snoc (.sleeping (p := 0) rfl)
  exact ⟨_, _, run, rfl, rfl, console_sleep run rfl (p := 0) (c := .r) rfl⟩

end Xv6.Console
