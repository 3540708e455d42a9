import Xv6.User.Match

/-!
# The lines that grep prints

The function `grep` of `grep.c`. The buffer is the list of its first `m` bytes, and behind them stands a zero. The input is
the list of the bytes that are still to be read; a read returns some of what it asks for, as it pleases but at least one byte
of what there is, and the choice of the `i`-th read is `piece i`. The output is the list of the bytes written.

A line is a list of bytes up to its newline, or up to the end of the input. Whatever the pieces are, `grep` looks at the lines
before the first one that does not fit into the buffer with its newline, or that has none (`grepLoop_eq`).
-/

namespace Xv6.Grep

abbrev newline : UInt8 := 10

/-- The bytes that the buffer holds besides the zero at the end: `sizeof(buf)-1`. -/
abbrev ROOM : ℕ := 1023

/-- `strchr(p, '\n')`: what stands before the newline and behind it. -/
def strchr : List UInt8 → Option (List UInt8 × List UInt8)
  | [] => none
  | c :: p =>
    if c = 0 then none
    else if c = newline then some ([], p)
    else (strchr p).map fun (line, rest) => (c :: line, rest)

lemma strchr_eq_some {p line rest : List UInt8} (eq : strchr p = some (line, rest)) :
    p = line ++ newline :: rest ∧ newline ∉ line := by
  induction p generalizing line with
  | nil => cases eq
  | cons c p ih =>
    rw [strchr] at eq
    split_ifs at eq with zero found
    · cases eq
      exact ⟨by rw [found]; rfl, List.not_mem_nil⟩
    · obtain ⟨⟨line', rest'⟩, there, same⟩ := Option.map_eq_some_iff.mp eq
      cases same
      obtain ⟨rfl, plain⟩ := ih there
      exact ⟨rfl, List.not_mem_cons_of_ne_of_not_mem (Ne.symm found) plain⟩

lemma strchr_eq_none {p : List UInt8} (text : 0 ∉ p) (eq : strchr p = none) : newline ∉ p := by
  induction p with
  | nil => exact List.not_mem_nil
  | cons c p ih =>
    rw [List.mem_cons, not_or] at text
    rw [strchr, if_neg (Ne.symm text.1)] at eq
    split_ifs at eq with found
    exact List.not_mem_cons_of_ne_of_not_mem (Ne.symm found) (ih text.2 (Option.map_eq_none_iff.mp eq))

/-- `while((q = strchr(p, '\n')) != 0)`: what is written, and what is left from `p` on. -/
def lineLoop (pattern p : List UInt8) : List UInt8 × List UInt8 :=
  match _found : strchr p with
  | none => ([], p)
  | some (line, rest) =>
    let (out, left) := lineLoop pattern rest
    (if matchText pattern line then line ++ newline :: out else out, left)
termination_by p.length
decreasing_by
  rw [(strchr_eq_some _found).1]
  simp
  omega

/-- `while((n = read(fd, buf+m, sizeof(buf)-m-1)) > 0)` from the `i`-th read on. -/
def grepLoop (pattern : List UInt8) (piece : ℕ → ℕ) (i : ℕ) (buf input : List UInt8) : List UInt8 :=
  let n := min (ROOM - buf.length) (min input.length (piece i + 1))
  if n = 0 then []
  else
    let (out, left) := lineLoop pattern (buf ++ input.take n)
    out ++ grepLoop pattern piece (i + 1) left (input.drop n)
termination_by input.length
decreasing_by
  simp only [List.length_drop]
  omega

def grep (pattern : List UInt8) (piece : ℕ → ℕ) (input : List UInt8) : List UInt8 :=
  grepLoop pattern piece 0 [] input

/-! ### Lines -/

/-- The lines of a text, each with its newline. -/
def linesOf : List UInt8 → List (List UInt8)
  | [] => []
  | c :: text =>
    if c = newline then [c] :: linesOf text
    else match linesOf text with
      | [] => [[c]]
      | line :: lines => (c :: line) :: lines

/-- A line without its newline matches the pattern. -/
def Selects (pattern line : List UInt8) : Bool := matchText pattern (line.takeWhile (· ≠ newline))

/-- The lines that match, one after another. -/
def selected (pattern : List UInt8) (lines : List (List UInt8)) : List UInt8 := (lines.filter (Selects pattern)).flatten

/-- A line has a newline and fits into the buffer with it. -/
def Whole (line : List UInt8) : Bool := newline ∈ line ∧ line.length ≤ ROOM

section lines
variable {line text : List UInt8}

lemma linesOf_newline (plain : newline ∉ line) :
    linesOf (line ++ newline :: text) = (line ++ [newline]) :: linesOf text := by
  induction line with
  | nil => simp [linesOf]
  | cons c line ih =>
    rw [List.mem_cons, not_or] at plain
    simp [linesOf, Ne.symm plain.1, ih plain.2]

lemma linesOf_append (plain : newline ∉ line) (some : line ≠ []) :
    ∃ rest lines, linesOf (line ++ text) = (line ++ rest) :: lines := by
  induction line with
  | nil => exact absurd rfl some
  | cons c line ih =>
    rw [List.mem_cons, not_or] at plain
    cases line with
    | nil =>
      cases eq : linesOf text with
      | nil => exact ⟨[], [], by simp [linesOf, Ne.symm plain.1, eq]⟩
      | cons rest lines => exact ⟨rest, lines, by simp [linesOf, Ne.symm plain.1, eq]⟩
    | cons d line =>
      obtain ⟨rest, lines, eq⟩ := ih plain.2 (List.cons_ne_nil d line)
      exact ⟨rest, lines, by rw [List.cons_append, linesOf, if_neg (Ne.symm plain.1), eq]; rfl⟩

lemma flatten_linesOf : (linesOf text).flatten = text := by
  induction text with
  | nil => rfl
  | cons c text ih =>
    rw [linesOf]
    split_ifs with found
    · rw [List.flatten_cons, ih, List.singleton_append]
    · cases eq : linesOf text with
      | nil =>
        rw [eq] at ih
        rw [← ih]
        rfl
      | cons line lines =>
        rw [eq] at ih
        rw [← ih]
        rfl

lemma ne_nil_of_mem_linesOf (mem : line ∈ linesOf text) : line ≠ [] := by
  induction text generalizing line with
  | nil => cases mem
  | cons c text ih =>
    rw [linesOf] at mem
    grind

lemma selects_newline {pattern : List UInt8} (plain : newline ∉ line) :
    Selects pattern (line ++ [newline]) = matchText pattern line := by
  have all : ∀ c ∈ line, decide (c ≠ newline) = true := fun c mem => decide_eq_true fun eq => plain (eq ▸ mem)
  rw [Selects, List.takeWhile_append_of_pos all]
  simp

/-- What is printed of a text: the lines that match, up to the first one that is not whole. -/
def printed (pattern text : List UInt8) : List UInt8 := selected pattern ((linesOf text).takeWhile Whole)

lemma printed_newline {pattern : List UInt8} (plain : newline ∉ line) (short : line.length < ROOM) :
    printed pattern (line ++ newline :: text) =
      if matchText pattern line then line ++ newline :: printed pattern text else printed pattern text := by
  have whole : Whole (line ++ [newline]) := by simp [Whole]; omega
  rw [printed, linesOf_newline plain, List.takeWhile_cons_of_pos whole, selected, List.filter_cons,
    selects_newline plain]
  split <;> simp [printed, selected]

lemma printed_of_not_whole {pattern : List UInt8} (plain : newline ∉ line) (stuck : line.length = ROOM ∨ text = []) :
    printed pattern (line ++ text) = [] := by
  by_cases empty : line = []
  · subst empty
    obtain rfl : text = [] := stuck.resolve_left (by simp)
    rfl
  obtain ⟨rest, lines, eq⟩ : ∃ rest lines, linesOf (line ++ text) = (line ++ rest) :: lines := linesOf_append plain empty
  have none : Whole (line ++ rest) → rest = [] := by
    intro whole
    obtain full | rfl := stuck
    · have fits : (line ++ rest).length ≤ ROOM := (of_decide_eq_true whole).2
      rw [List.length_append] at fits
      exact List.eq_nil_of_length_eq_zero (by omega)
    · have all : (linesOf (line ++ [])).flatten = line ++ [] := flatten_linesOf
      rw [eq, List.flatten_cons, List.append_assoc] at all
      exact (List.append_eq_nil_iff.mp (List.append_cancel_left all)).1
  have part : ¬Whole (line ++ rest) := by
    intro whole
    have mem : newline ∈ line ++ rest := (of_decide_eq_true whole).1
    rw [none whole, List.append_nil] at mem
    exact plain mem
  rw [printed, eq, List.takeWhile_cons_of_neg part]
  rfl

end lines

section loops
variable {pattern : List UInt8}

lemma lineLoop_none {p : List UInt8} (none : strchr p = none) : lineLoop pattern p = ([], p) := by
  rw [lineLoop]
  split
  · rfl
  · simp_all

lemma lineLoop_some {p line rest : List UInt8} (found : strchr p = some (line, rest)) :
    lineLoop pattern p = (if matchText pattern line then line ++ newline :: (lineLoop pattern rest).1
      else (lineLoop pattern rest).1, (lineLoop pattern rest).2) := by
  rw [lineLoop]
  split
  · simp_all
  next found' =>
    cases found.symm.trans found'
    rfl

/-- The loop over the lines of the buffer writes those that match and leaves a part of a line. -/
lemma lineLoop_eq (pattern : List UInt8) {p : List UInt8} (rest : List UInt8) (text : 0 ∉ p) (short : p.length ≤ ROOM) :
    printed pattern (p ++ rest) = (lineLoop pattern p).1 ++ printed pattern ((lineLoop pattern p).2 ++ rest) ∧
      newline ∉ (lineLoop pattern p).2 ∧ (lineLoop pattern p).2 <:+ p := by
  induction length : p.length using Nat.strongRecOn generalizing p with
  | ind n ih =>
    cases found : strchr p with
    | none =>
      rw [lineLoop_none found]
      exact ⟨rfl, strchr_eq_none text found, List.suffix_rfl⟩
    | some parts =>
      obtain ⟨line, tail⟩ := parts
      obtain ⟨rfl, plain⟩ := strchr_eq_some found
      simp only [List.length_append, List.length_cons] at length short
      simp only [List.mem_append, List.mem_cons, not_or] at text
      obtain ⟨later, part, suffix⟩ := ih tail.length (by omega) text.2.2 (by omega) rfl
      rw [lineLoop_some found]
      refine ⟨?_, part, suffix.trans ⟨line ++ [newline], by simp⟩⟩
      rw [List.append_assoc, List.cons_append, printed_newline plain (by omega), later]
      split <;> simp

/-- Whatever the pieces are, the loop prints what is to be printed of the buffer and the rest of the input. -/
lemma grepLoop_eq {piece : ℕ → ℕ} {i : ℕ} {buf input : List UInt8}
    (text : 0 ∉ buf ++ input) (plain : newline ∉ buf) (short : buf.length ≤ ROOM) :
    grepLoop pattern piece i buf input = printed pattern (buf ++ input) := by
  induction length : input.length using Nat.strongRecOn generalizing i buf input with
  | ind k ih =>
    rw [grepLoop]
    generalize bytes : min (ROOM - buf.length) (min input.length (piece i + 1)) = n
    by_cases stop : n = 0
    · have stuck : buf.length = ROOM ∨ input = [] := by
        rw [← List.length_eq_zero_iff]
        omega
      simp only [if_pos stop, printed_of_not_whole plain stuck]
    · simp only [if_neg stop]
      have parts : buf ++ input = buf ++ input.take n ++ input.drop n := by
        rw [List.append_assoc, List.take_append_drop]
      rw [parts] at text ⊢
      rw [List.mem_append, not_or] at text
      have fits : (buf ++ input.take n).length ≤ ROOM := by
        rw [List.length_append, List.length_take]
        omega
      obtain ⟨print, part, suffix⟩ := lineLoop_eq pattern (input.drop n) text.1 fits
      rw [print]
      congr 1
      refine ih (input.drop n).length (by rw [List.length_drop]; omega) ?_ part (suffix.length_le.trans fits) rfl
      rw [List.mem_append, not_or]
      exact ⟨fun mem => text.1 (suffix.mem mem), text.2⟩

end loops

lemma selected_eq_nil {pattern : List UInt8} {lines : List (List UInt8)} (ne : ∀ line ∈ lines, line ≠ []) :
    selected pattern lines = [] ↔ ∀ line ∈ lines, Selects pattern line = false := by
  simp only [selected, List.flatten_eq_nil_iff, List.mem_filter]
  constructor
  · intro empty line mem
    by_contra selects
    exact ne line mem (empty line ⟨mem, by simpa using selects⟩)
  · rintro none line ⟨mem, selects⟩
    rw [none line mem] at selects
    cases selects

/-- Whatever the pieces are that the input is read in, grep prints exactly the lines that match if and only if no line matches
that comes at or behind the first line without a newline or of more than 1022 bytes before it. -/
theorem grep_eq_selected_iff (pattern : List UInt8) (piece : ℕ → ℕ) (input : List UInt8) (text : 0 ∉ input) :
    grep pattern piece input = selected pattern (linesOf input) ↔
      ∀ line ∈ (linesOf input).dropWhile Whole, Selects pattern line = false := by
  have parts : selected pattern (linesOf input) =
      printed pattern input ++ selected pattern ((linesOf input).dropWhile Whole) := by
    rw [printed, selected, selected, selected, ← List.flatten_append, ← List.filter_append,
      List.takeWhile_append_dropWhile]
  have lines : ∀ line ∈ (linesOf input).dropWhile Whole, line ≠ [] := fun line mem =>
    ne_nil_of_mem_linesOf ((List.dropWhile_suffix _).mem mem)
  rw [grep, grepLoop_eq (by simpa using text) List.not_mem_nil (Nat.zero_le _), List.nil_append, parts,
    ← selected_eq_nil lines]
  exact List.self_eq_append_right

/-- Every line matches the empty pattern, but nothing is printed of a file that has only an `a`, and nothing of a line of 1023
bytes. -/
theorem grep_drops_lines :
    (grep [] (fun _ => 0) [97] = [] ∧ selected [] (linesOf [97]) = [97]) ∧
    (grep [] (fun _ => 0) (List.replicate ROOM 97 ++ [newline]) = [] ∧
      selected [] (linesOf (List.replicate ROOM 97 ++ [newline])) = List.replicate ROOM 97 ++ [newline]) := by
  have plain : newline ∉ List.replicate ROOM (97 : UInt8) := fun mem =>
    absurd (List.eq_of_mem_replicate mem) (by decide)
  have text : 0 ∉ List.replicate ROOM (97 : UInt8) ++ [newline] := by
    rw [List.mem_append, not_or]
    exact ⟨fun mem => absurd (List.eq_of_mem_replicate mem) (by decide), by decide⟩
  have all (line : List UInt8) : Selects [] line = true := matchText_nil
  refine ⟨⟨?_, ?_⟩, ?_, ?_⟩
  · rw [grep, grepLoop_eq (by decide) List.not_mem_nil (by decide)]
    rfl
  · rw [selected, List.filter_eq_self.mpr fun line _ => all line, flatten_linesOf]
  · rw [grep, grepLoop_eq (by simpa using text) List.not_mem_nil (by decide), List.nil_append]
    exact printed_of_not_whole plain (.inl List.length_replicate)
  · rw [selected, List.filter_eq_self.mpr fun line _ => all line, flatten_linesOf]

/-- The lines `a` and `b` of a file, read one byte at a time, and the pattern `a`. -/
theorem grep_two_lines :
    0 ∉ [97, newline, 98, newline] ∧
      grep [97] (fun _ => 0) [97, newline, 98, newline] = selected [97] (linesOf [97, newline, 98, newline]) :=
  ⟨by decide, (grep_eq_selected_iff [97] (fun _ => 0) [97, newline, 98, newline] (by decide)).mpr (by decide)⟩

end Xv6.Grep
