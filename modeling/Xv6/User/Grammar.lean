import Mathlib.Data.List.GetD
import Xv6.User.Shell

/-!
# The grammar of the shell

`tokens` cuts a line into words and symbols, and `Line`, `Pipe`, `Exec` and `Redirs` are the grammar of the shell over the
tokens, each with the tree of the derivation. `Left line s ts` says that at the position `s` the tokens `ts` are left. Through
this relation `peek` looks at the first token and `gettoken` takes it (`via_peek`, `via_gettoken`), and the parser is
described by what it does to the list of tokens.

A parse function that returns has taken a sequence of tokens that derives from its symbol, and it has enough fuel
(`parse_sound`). It takes all of such a sequence if what follows is something that may follow it (`parse_complete`). Words end
where no byte of a word is, so the zeros of `nulterminate` fall on no byte of a word.
-/

namespace Xv6.Shell

open Fallible

/-! ### Lines as sequences of tokens -/

/-- The tokens of a text that starts at the position `s`. -/
def lex (s : ℕ) : List UInt8 → List Token
  | [] => []
  | c :: text =>
    if isSpace c then lex (s + 1) text
    else match single c with
      | some k => ⟨k, s, s + 1⟩ :: lex (s + 1) text
      | none =>
        if c = '>'.toUInt8 then
          if text.head? = some '>'.toUInt8 then ⟨.append, s, s + 2⟩ :: lex (s + 2) text.tail
          else ⟨.gt, s, s + 1⟩ :: lex (s + 1) text
        else
          let n := (text.takeWhile isWord).length
          ⟨.word, s, s + 1 + n⟩ :: lex (s + 1 + n) (text.drop n)
termination_by text => text.length
decreasing_by all_goals (simp; try omega)

/-- The tokens of a line: words, and the symbols `<`, `>`, `>>`, `|`, `&`, `;`, `(` and `)`. -/
def tokens (line : List UInt8) : List Token := lex 0 line

def Span.text (line : List UInt8) (w : Span) : List UInt8 := (line.drop w.q).take (w.eq - w.q)

/-! ### The grammar -/

/-- `redir ::= ('<' | '>' | '>>') word`, any number of times: the redirections in the order they stand in. -/
inductive Redirs : List Token → List (Kind × Span) → Prop where
  | nil : Redirs [] []
  | cons {k a file ts rs} (symbol : k ∈ [Kind.lt, .gt, .append]) (more : Redirs ts rs) :
    Redirs (⟨k, a⟩ :: ⟨.word, file⟩ :: ts) ((k, file) :: rs)

/-- `(word redir*)*`: the words and the redirections. -/
inductive Args : List Token → List Span → List (Kind × Span) → Prop where
  | nil : Args [] [] []
  | cons {w ts rs ts' ws rs'} (redirs : Redirs ts rs) (more : Args ts' ws rs') :
    Args (⟨.word, w⟩ :: (ts ++ ts')) (w :: ws) (rs ++ rs')

/-- A command with redirections, later ones outermost. -/
def wrap (rs : List (Kind × Span)) (cmd : Cmd) : Cmd := rs.foldl (fun cmd r => redirect cmd (some r.1) r.2) cmd

/-- `'&'*`, with the command before it. -/
inductive Backs : Cmd → List Token → Cmd → Prop where
  | nil {cmd} : Backs cmd [] cmd
  | cons {cmd a ts cmd'} (more : Backs (.back cmd) ts cmd') : Backs cmd (⟨.amp, a⟩ :: ts) cmd'

mutual

/-- `line ::= pipe '&'* [';' line]`. -/
inductive Line : List Token → Cmd → Prop where
  | last {ts cmd ts' cmd'} (pipe : Pipe ts cmd) (backs : Backs cmd ts' cmd') : Line (ts ++ ts') cmd'
  | list {ts cmd ts' cmd' a us right} (pipe : Pipe ts cmd) (backs : Backs cmd ts' cmd') (more : Line us right) :
    Line (ts ++ (ts' ++ ⟨.semi, a⟩ :: us)) (.list cmd' right)

/-- `pipe ::= exec ['|' pipe]`. -/
inductive Pipe : List Token → Cmd → Prop where
  | last {ts cmd} (exec : Exec ts cmd) : Pipe ts cmd
  | pipe {ts cmd a us right} (exec : Exec ts cmd) (more : Pipe us right) :
    Pipe (ts ++ ⟨.bar, a⟩ :: us) (.pipe cmd right)

/-- `exec ::= '(' line ')' redir* | redir* (word redir*)*`, the latter with fewer than `MAXARGS` words. -/
inductive Exec : List Token → Cmd → Prop where
  | block {a ts cmd b us rs} (line : Line ts cmd) (redirs : Redirs us rs) :
    Exec (⟨.lpar, a⟩ :: (ts ++ ⟨.rpar, b⟩ :: us)) (wrap rs cmd)
  | simple {ts rs us ws rs'} (redirs : Redirs ts rs) (args : Args us ws rs') (few : ws.length < MAXARGS) :
    Exec (ts ++ us) (wrap (rs ++ rs') (.exec ws))

end

variable {line : List UInt8} {s : ℕ}

/-! ### The position and the tokens that are left -/

/-- At the position `s` of the line the tokens `ts` are left. -/
def Left (line : List UInt8) (s : ℕ) (ts : List Token) : Prop := s ≤ line.length ∧ lex s (line.drop s) = ts

lemma byte_eq (lt : s < line.length) : byte line s = (line)[s] := by
  rw [byte, List.getD_eq_getElem _ _ lt]

lemma drop_eq (lt : s < line.length) : line.drop s = byte line s :: line.drop (s + 1) := by
  rw [byte_eq lt, List.drop_eq_getElem_cons lt]

lemma byte_eq_zero (text : 0 ∉ line) : byte line s = 0 ↔ line.length ≤ s := by
  constructor
  · intro eq
    by_contra! lt
    exact text (eq ▸ byte_eq lt ▸ List.getElem_mem lt)
  · intro le
    rw [byte, List.getD_eq_default _ _ le]

lemma skip_eq (p : UInt8 → Bool) (s : ℕ) : skip line p s = s + ((line.drop s).takeWhile p).length := by
  fun_induction skip line p s with
  | case1 s go ih =>
    rw [ih, drop_eq go.1, List.takeWhile_cons_of_pos go.2, List.length_cons]
    omega
  | case2 s stop =>
    rcases Nat.lt_or_ge s line.length with lt | ge
    · rw [drop_eq lt, List.takeWhile_cons_of_neg fun go => stop ⟨lt, go⟩]
      rfl
    · rw [List.drop_eq_nil_of_le ge]
      rfl

lemma skip_le (p : UInt8 → Bool) (le : s ≤ line.length) : skip line p s ≤ line.length := by
  have short := (List.takeWhile_prefix p (l := line.drop s)).length_le
  rw [List.length_drop] at short
  rw [skip_eq]
  omega

lemma lex_skip (s : ℕ) : lex (skip line isSpace s) (line.drop (skip line isSpace s)) = lex s (line.drop s) := by
  fun_induction skip line isSpace s with
  | case1 s go ih => rw [ih, drop_eq go.1, lex, if_pos go.2]
  | case2 s stop => rfl

lemma not_isSpace_skip (lt : skip line isSpace s < line.length) : ¬isSpace (byte line (skip line isSpace s)) := by
  fun_induction skip line isSpace s with
  | case1 s go ih => exact ih lt
  | case2 s stop => exact fun space => stop ⟨lt, space⟩

def Kind.byte : Kind → Option UInt8
  | bar => some '|'.toUInt8
  | lpar => some '('.toUInt8
  | rpar => some ')'.toUInt8
  | semi => some ';'.toUInt8
  | amp => some '&'.toUInt8
  | lt => some '<'.toUInt8
  | gt => some '>'.toUInt8
  | append => some '>'.toUInt8
  | word => none

lemma single_eq {c k} (eq : single c = some k) : k.byte = some c := by
  unfold single at eq
  grind [Kind.byte]

lemma isSymbol_eq {c} (none : single c = none) (gt : c ≠ '>'.toUInt8) : isSymbol c = false := by
  unfold single at none
  simp only [isSymbol, List.map_cons, List.map_nil, List.contains_eq_mem]
  grind

lemma head?_drop_eq (line : List UInt8) (s : ℕ) {c : UInt8} (nonzero : c ≠ 0) : (line.drop s).head? = some c ↔ byte line s = c := by
  rw [List.head?_drop, byte, List.getD_eq_getElem?_getD]
  cases (line)[s]? with
  | none => simpa using nonzero.symm
  | some d => simp

lemma scan_eq (text : 0 ∉ line) (lt : s < line.length) (space : ¬isSpace (byte line s)) :
    ∃ k e, scan line s = (some k, e) ∧ s < e ∧ e ≤ line.length ∧ lex s (line.drop s) = ⟨k, s, e⟩ :: lex e (line.drop e) ∧
      (k.byte = some (byte line s) ∨ k = .word ∧ isSymbol (byte line s) = false ∧ e = skip line isWord s) := by
  have nonzero : byte line s ≠ 0 := mt (byte_eq_zero text).1 (Nat.not_le.2 lt)
  rw [scan, if_neg nonzero, drop_eq lt, lex, if_neg space]
  cases sym : single (byte line s) with
  | some k => exact ⟨k, s + 1, rfl, s.lt_add_one, lt, rfl, .inl (single_eq sym)⟩
  | none =>
    simp only [head?_drop_eq line (s + 1) (show '>'.toUInt8 ≠ 0 by decide), List.tail_drop]
    by_cases gt : byte line s = '>'.toUInt8
    · by_cases again : byte line (s + 1) = '>'.toUInt8
      · have lt' : s + 1 < line.length := by
          by_contra! ge
          rw [(byte_eq_zero text).2 ge] at again
          exact absurd again (by decide)
        exact ⟨.append, s + 2, by simp [gt, again], by omega, lt', by simp [gt, again], .inl (by rw [gt, Kind.byte])⟩
      · exact ⟨.gt, s + 1, by simp [gt, again], s.lt_add_one, lt, by simp [gt, again], .inl (by rw [gt, Kind.byte])⟩
    · have plain := isSymbol_eq sym gt
      have inside : isWord (byte line s) := by simp [isWord, space, plain]
      have stop : skip line isWord s = s + 1 + ((line.drop (s + 1)).takeWhile isWord).length := by
        rw [skip_eq, drop_eq lt, List.takeWhile_cons_of_pos inside, List.length_cons]
        omega
      refine ⟨.word, _, if_neg gt, by omega, skip_le isWord lt.le, ?_, .inr ⟨rfl, plain, rfl⟩⟩
      rw [if_neg gt, List.drop_drop, ← stop]

/-! ### What the parser does to the tokens -/

/-- Whether `peek` finds one of the bytes. -/
def peeks (toks : List Char) (ts : List Token) : Bool :=
  ts.head?.any fun t => t.kind.byte.any (toks.map Char.toUInt8).contains

variable {P : Stop → Prop} {ts : List Token}

lemma via_peek (text : 0 ∉ line) {toks : List Char} {R : Bool → List Token → Prop}
    (symbols : toks.all fun t => isSymbol t.toUInt8) (h : R (peeks toks ts) ts) : via (Left line) P (peek line toks) R ts := by
  rintro s ⟨le, rfl⟩
  simp only [peek, wp_bind, wp_modify, wp_get, wp_pure]
  refine ⟨_, ⟨skip_le isSpace le, lex_skip s⟩, ?_⟩
  convert h using 1
  rw [← lex_skip]
  rcases Nat.lt_or_ge (skip line isSpace s) line.length with lt | ge
  · obtain ⟨k, e, _, _, _, eq, sym⟩ := scan_eq text lt (not_isSpace_skip lt)
    have nonzero := mt (byte_eq_zero text).1 (Nat.not_le.2 lt)
    rw [eq]
    rcases sym with sym | ⟨rfl, plain, _⟩
    · simp [peeks, sym, nonzero]
    · have other : ∀ t ∈ toks, t.toUInt8 ≠ byte line (skip line isSpace s) := by
        intro t mem eq
        exact absurd (eq ▸ List.all_eq_true.1 symbols t mem) (by simp [plain])
      simpa [peeks, Kind.byte] using fun _ => other
  · rw [List.drop_eq_nil_of_le ge, (byte_eq_zero text).2 ge]
    simp [peeks, lex]

lemma via_gettoken (text : 0 ∉ line) {R : Option Token → List Token → Prop} (h : R ts.head? ts.tail) :
    via (Left line) P (gettoken line) R ts := by
  rintro s ⟨le, rfl⟩
  simp only [gettoken, wp_bind, wp_modify, wp_get, wp_pure]
  rw [← lex_skip] at h
  rcases Nat.lt_or_ge (skip line isSpace s) line.length with lt | ge
  · obtain ⟨k, e, eq, _, le', eq', _⟩ := scan_eq text lt (not_isSpace_skip lt)
    rw [eq'] at h
    rw [eq]
    exact ⟨_, ⟨skip_le isSpace le', lex_skip e⟩, h⟩
  · have zero := (byte_eq_zero text).2 ge
    rw [List.drop_eq_nil_of_le ge, lex] at h
    rw [scan, if_pos zero]
    exact ⟨[], ⟨skip_le isSpace (skip_le isSpace le), by rw [lex_skip, List.drop_eq_nil_of_le ge, lex]⟩, h⟩

/-! ### What the parser accepts derives from the grammar -/

lemma exists_of_peeks {toks : List Char} (first : peeks toks ts = true) :
    ∃ k a us, ts = ⟨k, a⟩ :: us ∧ k.byte.any (toks.map Char.toUInt8).contains = true := by
  cases ts with
  | nil => cases first
  | cons t us => exact ⟨t.kind, t.span, us, rfl, first⟩

lemma wrap_append (rs rs' : List (Kind × Span)) (cmd : Cmd) : wrap (rs ++ rs') cmd = wrap rs' (wrap rs cmd) :=
  List.foldl_append

lemma wrap_cons (k file) (rs : List (Kind × Span)) (cmd : Cmd) :
    wrap ((k, file) :: rs) cmd = wrap rs (redirect cmd (some k) file) := rfl

lemma push_redirect (arg cmd k file) : (redirect cmd k file).push arg = redirect (cmd.push arg) k file := by
  unfold redirect
  split <;> rfl

lemma push_wrap (rs : List (Kind × Span)) (arg : Span) (cmd : Cmd) : (wrap rs cmd).push arg = wrap rs (cmd.push arg) := by
  induction rs generalizing cmd with
  | nil => rfl
  | cons r rs ih => rw [wrap_cons, ih, push_redirect, wrap_cons]

/-- Of the tokens `ts` a sequence with the property `D` was taken, and `us` are left. -/
def Took (ts : List Token) (D : List Token → Prop) (us : List Token) : Prop := ∃ used, ts = used ++ us ∧ D used

lemma parseredirs_sound (text : 0 ∉ line) {fuel} (enough : ts.length < fuel) (cmd : Cmd) :
    via (Left line) (· ≠ .fuel) (parseredirs line fuel cmd)
      (fun cmd' => Took ts fun used => ∃ rs, Redirs used rs ∧ cmd' = wrap rs cmd) ts := by
  induction fuel generalizing ts cmd with
  | zero => omega
  | succ fuel ih =>
    rw [parseredirs]
    refine via_bind (via_peek text (by decide) ?_)
    cases first : peeks ['<', '>'] ts with
    | false => exact via_pure ⟨[], rfl, [], .nil, rfl⟩
    | true =>
      obtain ⟨k, a, us, rfl, symbol⟩ := exists_of_peeks first
      have symbol : k ∈ [Kind.lt, .gt, .append] := by cases k <;> revert symbol <;> decide
      refine via_bind (via_gettoken text (via_bind (via_gettoken text ?_)))
      match us with
      | [] => exact via_throw nofun
      | ⟨.word, file⟩ :: us =>
        have enough : us.length < fuel := by
          simp only [List.length_cons] at enough
          omega
        refine (ih enough _).mono ?_
        rintro cmd' us' ⟨used, rfl, rs, redirs, rfl⟩
        exact ⟨_ :: _ :: used, rfl, _, .cons symbol redirs, rfl⟩
      | ⟨.bar, _⟩ :: _ | ⟨.lpar, _⟩ :: _ | ⟨.rpar, _⟩ :: _ | ⟨.semi, _⟩ :: _ | ⟨.amp, _⟩ :: _ | ⟨.lt, _⟩ :: _
      | ⟨.gt, _⟩ :: _ | ⟨.append, _⟩ :: _ => exact via_throw nofun

lemma parseargs_sound (text : 0 ∉ line) {fuel} (enough : ts.length < fuel) (ws : List Span) (few : ws.length < MAXARGS)
    (rs : List (Kind × Span)) :
    via (Left line) (· ≠ .fuel) (parseargs line fuel ws.length (wrap rs (.exec ws)))
      (fun cmd => Took ts fun used => ∃ ws' rs', Args used ws' rs' ∧ (ws ++ ws').length < MAXARGS ∧
        cmd = wrap (rs ++ rs') (.exec (ws ++ ws'))) ts := by
  induction fuel generalizing ts ws rs with
  | zero => omega
  | succ fuel ih =>
    have stop : Took ts (fun used => ∃ ws' rs', Args used ws' rs' ∧ (ws ++ ws').length < MAXARGS ∧
        wrap rs (.exec ws) = wrap (rs ++ rs') (.exec (ws ++ ws'))) ts := by
      refine ⟨[], rfl, [], [], .nil, ?_⟩
      simpa using few
    rw [parseargs]
    refine via_bind (via_peek text (by decide) ?_)
    cases first : peeks ['|', ')', '&', ';'] ts with
    | true => exact via_pure stop
    | false =>
      refine via_bind (via_gettoken text ?_)
      match ts with
      | [] => exact via_pure stop
      | ⟨.word, arg⟩ :: us =>
        simp only [List.length_cons] at enough
        dsimp only [List.head?_cons, List.tail_cons]
        split_ifs with many
        · exact via_throw nofun
        · rw [push_wrap]
          refine via_bind ((parseredirs_sound text (Nat.lt_of_succ_lt_succ enough) _).mono ?_)
          rintro cmd us' ⟨used, rfl, rs', redirs, rfl⟩
          rw [← wrap_append]
          have few' : (ws ++ [arg]).length < MAXARGS := by simpa using many
          have enough' : us'.length < fuel := by
            rw [List.length_append] at enough
            omega
          have more := ih enough' (ws ++ [arg]) few' (rs ++ rs')
          rw [List.length_append, List.length_singleton] at more
          refine more.mono ?_
          rintro cmd us'' ⟨used', rfl, ws'', rs'', args, few'', rfl⟩
          refine ⟨_ :: (used ++ used'), by simp, arg :: ws'', rs' ++ rs'', .cons redirs args, ?_⟩
          simpa using few''
      | ⟨.bar, _⟩ :: _ | ⟨.lpar, _⟩ :: _ | ⟨.rpar, _⟩ :: _ | ⟨.semi, _⟩ :: _ | ⟨.amp, _⟩ :: _ | ⟨.lt, _⟩ :: _
      | ⟨.gt, _⟩ :: _ | ⟨.append, _⟩ :: _ => exact via_throw nofun

lemma parseback_sound (text : 0 ∉ line) {fuel} (enough : ts.length < fuel) (cmd : Cmd) :
    via (Left line) (· ≠ .fuel) (parseback line fuel cmd) (fun cmd' => Took ts fun used => Backs cmd used cmd') ts := by
  induction fuel generalizing ts cmd with
  | zero => omega
  | succ fuel ih =>
    rw [parseback]
    refine via_bind (via_peek text (by decide) ?_)
    cases first : peeks ['&'] ts with
    | false => exact via_pure ⟨[], rfl, .nil⟩
    | true =>
      obtain ⟨k, a, us, rfl, symbol⟩ := exists_of_peeks first
      obtain rfl : k = .amp := by cases k <;> revert symbol <;> decide
      refine via_bind (via_gettoken text ((ih (Nat.lt_of_succ_lt_succ enough) _).mono ?_))
      rintro cmd' us' ⟨used, rfl, backs⟩
      exact ⟨_ :: used, rfl, .cons backs⟩

/-- The four functions with fuel for the tokens that are left, and what they return. -/
structure Sound (input : List UInt8) (fuel : ℕ) : Prop where
  line : ∀ ts, 4 * ts.length + 4 ≤ fuel →
    via (Left input) (· ≠ .fuel) (parseline input fuel) (fun cmd => Took ts fun used => Line used cmd) ts
  pipe : ∀ ts, 4 * ts.length + 3 ≤ fuel →
    via (Left input) (· ≠ .fuel) (parsepipe input fuel) (fun cmd => Took ts fun used => Pipe used cmd) ts
  exec : ∀ ts, 4 * ts.length + 2 ≤ fuel →
    via (Left input) (· ≠ .fuel) (parseexec input fuel) (fun cmd => Took ts fun used => Exec used cmd) ts
  block : ∀ ts, 4 * ts.length + 1 ≤ fuel →
    via (Left input) (· ≠ .fuel) (parseblock input fuel) (fun cmd => Took ts fun used => Exec used cmd) ts

namespace Sound

variable {fuel : ℕ}

lemma parseline (sound : Sound line fuel) (text : 0 ∉ line) (enough : 4 * ts.length + 4 ≤ fuel + 1) :
    via (Left line) (· ≠ .fuel) (parseline line (fuel + 1)) (fun cmd => Took ts fun used => Line used cmd) ts := by
  rw [Shell.parseline]
  refine via_bind ((sound.pipe ts (by omega)).mono ?_)
  rintro cmd us ⟨used, rfl, pipe⟩
  rw [List.length_append] at enough
  have enough' : us.length < fuel := by omega
  refine via_bind ((parseback_sound text enough' cmd).mono ?_)
  rintro cmd' us' ⟨used', rfl, backs⟩
  rw [List.length_append] at enough
  refine via_bind (via_peek text (by decide) ?_)
  cases first : peeks [';'] us' with
  | false => exact via_pure ⟨used ++ used', (List.append_assoc ..).symm, .last pipe backs⟩
  | true =>
    obtain ⟨k, a, vs, rfl, symbol⟩ := exists_of_peeks first
    obtain rfl : k = .semi := by cases k <;> revert symbol <;> decide
    rw [List.length_cons] at enough
    refine via_bind (via_gettoken text (via_bind ((sound.line vs (by omega)).mono ?_)))
    rintro right vs' ⟨used'', rfl, more⟩
    exact via_pure ⟨used ++ (used' ++ ⟨.semi, a⟩ :: used''), by simp, .list pipe backs more⟩

lemma parsepipe (sound : Sound line fuel) (text : 0 ∉ line) (enough : 4 * ts.length + 3 ≤ fuel + 1) :
    via (Left line) (· ≠ .fuel) (parsepipe line (fuel + 1)) (fun cmd => Took ts fun used => Pipe used cmd) ts := by
  rw [Shell.parsepipe]
  refine via_bind ((sound.exec ts (by omega)).mono ?_)
  rintro cmd us ⟨used, rfl, exec⟩
  rw [List.length_append] at enough
  refine via_bind (via_peek text (by decide) ?_)
  cases first : peeks ['|'] us with
  | false => exact via_pure ⟨used, rfl, .last exec⟩
  | true =>
    obtain ⟨k, a, vs, rfl, symbol⟩ := exists_of_peeks first
    obtain rfl : k = .bar := by cases k <;> revert symbol <;> decide
    rw [List.length_cons] at enough
    refine via_bind (via_gettoken text (via_bind ((sound.pipe vs (by omega)).mono ?_)))
    rintro right vs' ⟨used', rfl, more⟩
    exact via_pure ⟨used ++ ⟨.bar, a⟩ :: used', by simp, .pipe exec more⟩

lemma parseexec (sound : Sound line fuel) (text : 0 ∉ line) (enough : 4 * ts.length + 2 ≤ fuel + 1) :
    via (Left line) (· ≠ .fuel) (parseexec line (fuel + 1)) (fun cmd => Took ts fun used => Exec used cmd) ts := by
  rw [Shell.parseexec]
  refine via_bind (via_peek text (by decide) ?_)
  cases peeks ['('] ts with
  | true => exact sound.block ts (by omega)
  | false =>
    have enough : ts.length < fuel := by omega
    refine via_bind ((parseredirs_sound text enough _).mono ?_)
    rintro cmd us ⟨used, rfl, rs, redirs, rfl⟩
    rw [List.length_append] at enough
    have enough : us.length < fuel := by omega
    refine (parseargs_sound text enough [] (by decide) rs).mono ?_
    rintro cmd us' ⟨used', rfl, ws, rs', args, few, rfl⟩
    exact ⟨used ++ used', (List.append_assoc ..).symm, .simple redirs args few⟩

lemma parseblock (sound : Sound line fuel) (text : 0 ∉ line) (enough : 4 * ts.length + 1 ≤ fuel + 1) :
    via (Left line) (· ≠ .fuel) (parseblock line (fuel + 1)) (fun cmd => Took ts fun used => Exec used cmd) ts := by
  rw [Shell.parseblock]
  refine via_bind (via_peek text (by decide) ?_)
  cases first : peeks ['('] ts with
  | false => exact via_throw nofun
  | true =>
    obtain ⟨k, a, us, rfl, symbol⟩ := exists_of_peeks first
    obtain rfl : k = .lpar := by cases k <;> revert symbol <;> decide
    rw [List.length_cons] at enough
    refine via_bind (via_gettoken text (via_bind ((sound.line us (by omega)).mono ?_)))
    rintro cmd us' ⟨used, rfl, line⟩
    refine via_bind (via_peek text (by decide) ?_)
    cases first : peeks [')'] us' with
    | false => exact via_throw nofun
    | true =>
      obtain ⟨k, b, vs, rfl, symbol⟩ := exists_of_peeks first
      obtain rfl : k = .rpar := by cases k <;> revert symbol <;> decide
      rw [List.length_append, List.length_cons] at enough
      have enough : vs.length < fuel := by omega
      refine via_bind (via_gettoken text ((parseredirs_sound text enough cmd).mono ?_))
      rintro cmd' vs' ⟨used', rfl, rs, redirs, rfl⟩
      exact ⟨⟨.lpar, a⟩ :: (used ++ ⟨.rpar, b⟩ :: used'), by simp, .block line redirs⟩

end Sound

/-- What a parse function takes derives from its symbol, and it has enough fuel. -/
theorem parse_sound (text : 0 ∉ line) (fuel : ℕ) : Sound line fuel := by
  induction fuel with
  | zero => constructor <;> (intro ts enough; omega)
  | succ fuel ih =>
    exact ⟨fun _ => ih.parseline text, fun _ => ih.parsepipe text, fun _ => ih.parseexec text, fun _ => ih.parseblock text⟩

/-! ### What derives from the grammar is accepted -/

/-- The next token, if there is one, is of a kind in `ks`. -/
def Follow (ks : List Kind) (rest : List Token) : Prop := ∀ t ∈ rest.head?, t.kind ∈ ks

variable {ks ks' : List Kind} {used rest : List Token}

lemma Follow.mono (follow : Follow ks rest) (sub : ks ⊆ ks') : Follow ks' rest := fun t mem => sub (follow t mem)

lemma follow_nil : Follow ks [] := nofun

lemma follow_cons {k a} (mem : k ∈ ks) : Follow ks (⟨k, a⟩ :: rest) := by
  rintro t ⟨⟩
  exact mem

lemma Follow.peeks {toks : List Char} (follow : Follow ks rest)
    (other : ∀ k ∈ ks, k.byte.any (toks.map Char.toUInt8).contains = false) : peeks toks rest = false := by
  cases rest with
  | nil => rfl
  | cons t rest => exact other t.kind (follow t rfl)

lemma Follow.args {ws rs} (follow : Follow ks rest) (args : Args used ws rs) : Follow (.word :: ks) (used ++ rest) := by
  cases args with
  | nil => exact follow.mono (List.subset_cons_self ..)
  | cons redirs more => exact follow_cons List.mem_cons_self

lemma Follow.redirs {rs} (follow : Follow ks rest) (redirs : Redirs used rs) :
    Follow (.lt :: .gt :: .append :: ks) (used ++ rest) := by
  cases redirs with
  | nil => exact follow.mono fun k mem => by simp [mem]
  | cons symbol more => exact follow_cons (List.mem_append_left ks symbol)

lemma Follow.backs {cmd cmd'} (follow : Follow ks rest) (backs : Backs cmd used cmd') :
    Follow (.amp :: ks) (used ++ rest) := by
  cases backs with
  | nil => exact follow.mono (List.subset_cons_self ..)
  | cons more => exact follow_cons List.mem_cons_self

/-- The parser ends with the command `cmd` and the tokens `rest`. -/
def Ends (cmd : Cmd) (rest : List Token) (cmd' : Cmd) (us : List Token) : Prop := cmd' = cmd ∧ us = rest

lemma parseredirs_complete (text : 0 ∉ line) {rs fuel} (redirs : Redirs used rs)
    (follow : Follow [.word, .bar, .amp, .semi, .rpar] rest) (enough : used.length < fuel) (cmd : Cmd) :
    via (Left line) P (parseredirs line fuel cmd) (Ends (wrap rs cmd) rest) (used ++ rest) := by
  induction redirs generalizing fuel cmd with
  | nil =>
    obtain ⟨fuel, rfl⟩ := Nat.exists_eq_add_one.2 enough
    rw [parseredirs]
    refine via_bind (via_peek text (by decide) ?_)
    rw [List.nil_append, follow.peeks (by decide)]
    exact via_pure ⟨rfl, rfl⟩
  | @cons k a file ts rs symbol _ ih =>
    obtain ⟨fuel, rfl⟩ := Nat.exists_eq_add_one.2 (Nat.zero_lt_of_lt enough)
    rw [parseredirs]
    refine via_bind (via_peek text (by decide) ?_)
    have first : peeks ['<', '>'] (⟨k, a⟩ :: ⟨.word, file⟩ :: (ts ++ rest)) = true := by
      change k.byte.any _ = true
      revert symbol
      cases k <;> decide
    rw [List.cons_append, List.cons_append, first]
    simp only [List.length_cons] at enough
    exact via_bind (via_gettoken text (via_bind (via_gettoken text (ih (by omega) _))))

lemma parseargs_complete (text : 0 ∉ line) {ws' rs' fuel} (args : Args used ws' rs')
    (follow : Follow [.bar, .amp, .semi, .rpar] rest) (enough : used.length < fuel) (ws : List Span)
    (few : (ws ++ ws').length < MAXARGS) (rs : List (Kind × Span)) :
    via (Left line) P (parseargs line fuel ws.length (wrap rs (.exec ws)))
      (Ends (wrap (rs ++ rs') (.exec (ws ++ ws'))) rest) (used ++ rest) := by
  induction args generalizing fuel ws rs with
  | nil =>
    obtain ⟨fuel, rfl⟩ := Nat.exists_eq_add_one.2 enough
    simp only [List.append_nil, List.nil_append]
    rw [parseargs]
    refine via_bind (via_peek text (by decide) ?_)
    cases rest with
    | nil => exact via_bind (via_gettoken text (via_pure ⟨rfl, rfl⟩))
    | cons t rest =>
      have first : peeks ['|', ')', '&', ';'] (t :: rest) = true := by
        have mem := follow t rfl
        change t.kind.byte.any _ = true
        revert mem
        cases t.kind <;> decide
      rw [first]
      exact via_pure ⟨rfl, rfl⟩
  | @cons w ts rs' ts' ws' rs'' redirs more ih =>
    obtain ⟨fuel, rfl⟩ := Nat.exists_eq_add_one.2 (Nat.zero_lt_of_lt enough)
    simp only [List.length_cons, List.length_append] at enough few
    rw [parseargs, List.cons_append]
    refine via_bind (via_peek text (by decide) ?_)
    refine via_bind (via_gettoken text ?_)
    dsimp only [List.head?_cons, List.tail_cons]
    rw [if_neg (by omega), push_wrap, List.append_assoc]
    have enough' : ts.length < fuel := by omega
    refine via_bind ((parseredirs_complete text redirs (follow.args more) enough' _).mono ?_)
    rintro _ _ ⟨rfl, rfl⟩
    have few' : (ws ++ [w] ++ ws').length < MAXARGS := by
      simp only [List.length_append, List.length_cons, List.length_nil]
      omega
    have enough'' : ts'.length < fuel := by omega
    have tail := ih enough'' (ws ++ [w]) few' (rs ++ rs')
    rw [wrap_append] at tail
    simpa [Cmd.push] using tail

lemma parseback_complete (text : 0 ∉ line) {cmd cmd' fuel} (backs : Backs cmd used cmd')
    (follow : Follow [.semi, .rpar] rest) (enough : used.length < fuel) :
    via (Left line) P (parseback line fuel cmd) (Ends cmd' rest) (used ++ rest) := by
  induction backs generalizing fuel with
  | nil =>
    obtain ⟨fuel, rfl⟩ := Nat.exists_eq_add_one.2 enough
    rw [parseback]
    refine via_bind (via_peek text (by decide) ?_)
    rw [List.nil_append, follow.peeks (by decide)]
    exact via_pure ⟨rfl, rfl⟩
  | cons _ ih =>
    obtain ⟨fuel, rfl⟩ := Nat.exists_eq_add_one.2 (Nat.zero_lt_of_lt enough)
    rw [parseback]
    refine via_bind (via_peek text (by decide) ?_)
    exact via_bind (via_gettoken text (ih (Nat.lt_of_succ_lt_succ enough)))

/-- The four functions with fuel for a sequence of tokens, and something after it that may follow. -/
structure Complete (P : Stop → Prop) (input : List UInt8) (fuel : ℕ) : Prop where
  line : ∀ {ts cmd rest}, Line ts cmd → Follow [.rpar] rest → 4 * ts.length + 4 ≤ fuel →
    via (Left input) P (parseline input fuel) (Ends cmd rest) (ts ++ rest)
  pipe : ∀ {ts cmd rest}, Pipe ts cmd → Follow [.amp, .semi, .rpar] rest → 4 * ts.length + 3 ≤ fuel →
    via (Left input) P (parsepipe input fuel) (Ends cmd rest) (ts ++ rest)
  exec : ∀ {ts cmd rest}, Exec ts cmd → Follow [.bar, .amp, .semi, .rpar] rest → 4 * ts.length + 2 ≤ fuel →
    via (Left input) P (parseexec input fuel) (Ends cmd rest) (ts ++ rest)
  block : ∀ {ts cmd us rs a b rest}, Line ts cmd → Redirs us rs → Follow [.bar, .amp, .semi, .rpar] rest →
    4 * (ts.length + us.length + 2) + 1 ≤ fuel →
    via (Left input) P (parseblock input fuel) (Ends (wrap rs cmd) rest) (⟨.lpar, a⟩ :: (ts ++ ⟨.rpar, b⟩ :: us ++ rest))

namespace Complete

variable {fuel : ℕ} {cmd : Cmd}

lemma parseline (complete : Complete P line fuel) (text : 0 ∉ line) (derives : Line ts cmd) (follow : Follow [.rpar] rest)
    (enough : 4 * ts.length + 4 ≤ fuel + 1) :
    via (Left line) P (parseline line (fuel + 1)) (Ends cmd rest) (ts ++ rest) := by
  rw [Shell.parseline]
  cases derives with
  | @last ts cmd ts' _ pipe backs =>
    have follow' : Follow [.semi, .rpar] rest := follow.mono (by decide)
    rw [List.length_append] at enough
    rw [List.append_assoc]
    refine via_bind ((complete.pipe pipe (follow'.backs backs) (by omega)).mono ?_)
    rintro _ _ ⟨rfl, rfl⟩
    refine via_bind ((parseback_complete text backs follow' (by omega)).mono ?_)
    rintro _ _ ⟨rfl, rfl⟩
    refine via_bind (via_peek text (by decide) ?_)
    rw [follow.peeks (by decide)]
    exact via_pure ⟨rfl, rfl⟩
  | @list ts cmd ts' cmd' a us right pipe backs more =>
    have follow' : Follow [.semi, .rpar] (⟨.semi, a⟩ :: (us ++ rest)) := follow_cons (by decide)
    simp only [List.length_append, List.length_cons] at enough
    rw [List.append_assoc, List.append_assoc, List.cons_append]
    refine via_bind ((complete.pipe pipe (follow'.backs backs) (by omega)).mono ?_)
    rintro _ _ ⟨rfl, rfl⟩
    refine via_bind ((parseback_complete text backs follow' (by omega)).mono ?_)
    rintro _ _ ⟨rfl, rfl⟩
    refine via_bind (via_peek text (by decide) ?_)
    refine via_bind (via_gettoken text (via_bind ((complete.line more follow (by omega)).mono ?_)))
    rintro _ _ ⟨rfl, rfl⟩
    exact via_pure ⟨rfl, rfl⟩

lemma parsepipe (complete : Complete P line fuel) (text : 0 ∉ line) (derives : Pipe ts cmd)
    (follow : Follow [.amp, .semi, .rpar] rest) (enough : 4 * ts.length + 3 ≤ fuel + 1) :
    via (Left line) P (parsepipe line (fuel + 1)) (Ends cmd rest) (ts ++ rest) := by
  rw [Shell.parsepipe]
  cases derives with
  | last exec =>
    refine via_bind ((complete.exec exec (follow.mono (by decide)) (by omega)).mono ?_)
    rintro _ _ ⟨rfl, rfl⟩
    refine via_bind (via_peek text (by decide) ?_)
    rw [follow.peeks (by decide)]
    exact via_pure ⟨rfl, rfl⟩
  | pipe exec more =>
    simp only [List.length_append, List.length_cons] at enough
    rw [List.append_assoc, List.cons_append]
    refine via_bind ((complete.exec exec (follow_cons (by decide)) (by omega)).mono ?_)
    rintro _ _ ⟨rfl, rfl⟩
    refine via_bind (via_peek text (by decide) ?_)
    refine via_bind (via_gettoken text (via_bind ((complete.pipe more follow (by omega)).mono ?_)))
    rintro _ _ ⟨rfl, rfl⟩
    exact via_pure ⟨rfl, rfl⟩

lemma parseexec (complete : Complete P line fuel) (text : 0 ∉ line) (derives : Exec ts cmd)
    (follow : Follow [.bar, .amp, .semi, .rpar] rest) (enough : 4 * ts.length + 2 ≤ fuel + 1) :
    via (Left line) P (parseexec line (fuel + 1)) (Ends cmd rest) (ts ++ rest) := by
  rw [Shell.parseexec]
  refine via_bind (via_peek text (by decide) ?_)
  cases derives with
  | block derives redirs =>
    simp only [List.length_append, List.length_cons] at enough
    exact complete.block derives redirs follow (by omega)
  | @simple ts rs us ws rs' redirs args few =>
    have first : peeks ['('] (ts ++ (us ++ rest)) = false := ((follow.args args).redirs redirs).peeks (by decide)
    rw [List.length_append] at enough
    rw [List.append_assoc, first]
    refine via_bind ((parseredirs_complete text redirs (follow.args args) (by omega) _).mono ?_)
    rintro _ _ ⟨rfl, rfl⟩
    exact parseargs_complete text args follow (by omega) [] few rs

lemma parseblock (complete : Complete P line fuel) (text : 0 ∉ line) {us rs a b} (derives : Line ts cmd)
    (redirs : Redirs us rs) (follow : Follow [.bar, .amp, .semi, .rpar] rest)
    (enough : 4 * (ts.length + us.length + 2) + 1 ≤ fuel + 1) :
    via (Left line) P (parseblock line (fuel + 1)) (Ends (wrap rs cmd) rest)
      (⟨.lpar, a⟩ :: (ts ++ ⟨.rpar, b⟩ :: us ++ rest)) := by
  rw [Shell.parseblock, List.append_assoc]
  refine via_bind (via_peek text (by decide) (via_bind (via_gettoken text ?_)))
  refine via_bind ((complete.line derives (follow_cons (by decide)) (by omega)).mono ?_)
  rintro _ _ ⟨rfl, rfl⟩
  refine via_bind (via_peek text (by decide) (via_bind (via_gettoken text ?_)))
  exact parseredirs_complete text redirs (follow.mono (by decide)) (by omega) _

end Complete

/-- A parse function takes all of a sequence of tokens that derives from its symbol. -/
theorem parse_complete (text : 0 ∉ line) (fuel : ℕ) : Complete P line fuel := by
  induction fuel with
  | zero => constructor <;> (intros; omega)
  | succ fuel ih => exact ⟨ih.parseline text, ih.parsepipe text, ih.parseexec text, ih.parseblock text⟩

/-! ### The strings of the tree -/

def Cmd.spans : Cmd → List Span
  | exec argv => argv
  | redir cmd file _ _ => cmd.spans ++ [file]
  | pipe left right => left.spans ++ right.spans
  | list left right => left.spans ++ right.spans
  | back cmd => cmd.spans

def cstring (buf : List UInt8) (q : ℕ) : List UInt8 := (buf.drop q).takeWhile (· ≠ 0)

lemma spans_redirect {cmd : Cmd} {k file w} (mem : w ∈ (redirect cmd k file).spans) : w = file ∨ w ∈ cmd.spans := by
  unfold redirect at mem
  split at mem <;> simp_all [Cmd.spans, or_comm]

lemma spans_wrap {rs : List (Kind × Span)} {cmd : Cmd} {w} (mem : w ∈ (wrap rs cmd).spans) :
    w ∈ cmd.spans ∨ w ∈ rs.map Prod.snd := by
  induction rs generalizing cmd with
  | nil => exact .inl mem
  | cons r rs ih =>
    rcases ih mem with mem | mem
    · rcases spans_redirect mem with rfl | mem
      · exact .inr List.mem_cons_self
      · exact .inl mem
    · exact .inr (List.mem_cons_of_mem _ mem)

lemma Redirs.spans {rs w} (redirs : Redirs ts rs) (mem : w ∈ rs.map Prod.snd) : ⟨.word, w⟩ ∈ ts := by
  induction redirs with
  | nil => cases mem
  | cons symbol more ih =>
    rcases List.mem_cons.1 mem with rfl | mem
    · simp
    · simp [ih mem]

lemma Args.spans {ws rs w} (args : Args ts ws rs) (mem : w ∈ ws ∨ w ∈ rs.map Prod.snd) : ⟨.word, w⟩ ∈ ts := by
  induction args with
  | nil => simp at mem
  | cons redirs more ih =>
    rw [List.map_append, List.mem_append, List.mem_cons] at mem
    rcases mem with (rfl | mem) | mem | mem
    · simp
    · simp [ih (.inl mem)]
    · simp [redirs.spans mem]
    · simp [ih (.inr mem)]

lemma Backs.spans {cmd cmd'} (backs : Backs cmd ts cmd') : cmd'.spans = cmd.spans := by
  induction backs with
  | nil => rfl
  | cons _ ih => exact ih

mutual

lemma Line.spans {ts cmd w} : Line ts cmd → w ∈ cmd.spans → ⟨.word, w⟩ ∈ ts
  | .last pipe backs, mem => by
    rw [backs.spans] at mem
    exact List.mem_append_left _ (pipe.spans mem)
  | .list pipe backs more, mem => by
    rw [Cmd.spans, backs.spans, List.mem_append] at mem
    rcases mem with mem | mem
    · exact List.mem_append_left _ (pipe.spans mem)
    · have := more.spans mem
      simp [this]

lemma Pipe.spans {ts cmd w} : Pipe ts cmd → w ∈ cmd.spans → ⟨.word, w⟩ ∈ ts
  | .last exec, mem => exec.spans mem
  | .pipe exec more, mem => by
    rw [Cmd.spans, List.mem_append] at mem
    rcases mem with mem | mem
    · exact List.mem_append_left _ (exec.spans mem)
    · have := more.spans mem
      simp [this]

lemma Exec.spans {ts cmd w} : Exec ts cmd → w ∈ cmd.spans → ⟨.word, w⟩ ∈ ts
  | .block line redirs, mem => by
    rcases spans_wrap mem with mem | mem
    · have := line.spans mem
      simp [this]
    · have := redirs.spans mem
      simp [this]
  | .simple redirs args _, mem => by
    rcases spans_wrap mem with mem | mem
    · exact List.mem_append_right _ (args.spans (.inl mem))
    · rw [List.map_append, List.mem_append] at mem
      rcases mem with mem | mem
      · exact List.mem_append_left _ (redirs.spans mem)
      · exact List.mem_append_right _ (args.spans (.inr mem))

end

/-- The text between the pointers is a word of the line that cannot be made longer. -/
structure IsToken (line : List UInt8) (w : Span) : Prop where
  le : w.q ≤ w.eq
  fits : w.eq ≤ line.length
  inside : ∀ i, w.q ≤ i → i < w.eq → isWord (byte line i)
  stop : w.eq < line.length → ¬isWord (byte line w.eq)

lemma isToken_skip (le : s ≤ line.length) : IsToken line ⟨s, skip line isWord s⟩ := by
  fun_induction skip line isWord s with
  | case1 s go ih =>
    obtain ⟨le', fits, inside, stop⟩ := ih go.1
    refine ⟨Nat.le_of_succ_le le', fits, ?_, stop⟩
    intro i ge lt
    rcases Nat.eq_or_lt_of_le ge with rfl | gt
    · exact go.2
    · exact inside i gt lt
  | case2 s stop => exact ⟨le_rfl, le, fun i ge lt => absurd lt (Nat.not_lt.2 ge), fun lt word => stop ⟨lt, word⟩⟩

lemma isToken_of_mem (text : 0 ∉ line) {w} (mem : ⟨.word, w⟩ ∈ lex s (line.drop s)) : IsToken line w := by
  -- by induction on what is left of the line
  induction left : line.length - s using Nat.strong_induction_on generalizing s with
  | _ n ih =>
    subst left
    rcases Nat.lt_or_ge s line.length with lt | ge
    · by_cases space : isSpace (byte line s)
      · rw [drop_eq lt, lex, if_pos space] at mem
        exact ih _ (by omega) mem rfl
      · obtain ⟨k, e, _, more, fits, eq, sym⟩ := scan_eq text lt space
        rw [eq] at mem
        rcases List.mem_cons.1 mem with here | mem
        · cases here
          rcases sym with sym | ⟨_, _, rfl⟩
          · cases sym
          · exact isToken_skip lt.le
        · exact ih _ (by omega) mem rfl
    · rw [List.drop_eq_nil_of_le ge, lex] at mem
      cases mem

lemma nulterminate_eq (cmd : Cmd) (buf : List UInt8) :
    nulterminate cmd buf = cmd.spans.foldl (fun buf w => buf.set w.eq 0) buf := by
  induction cmd generalizing buf with
  | exec argv => rfl
  | redir cmd file mode fd ih =>
    rw [nulterminate, ih, Cmd.spans, List.foldl_append]
    rfl
  | pipe left right ihl ihr => rw [nulterminate, ihl, ihr, Cmd.spans, List.foldl_append]
  | list left right ihl ihr => rw [nulterminate, ihl, ihr, Cmd.spans, List.foldl_append]
  | back cmd ih => exact ih buf

lemma getElem?_foldl_set (ws : List Span) (buf : List UInt8) (i : ℕ) :
    (ws.foldl (fun buf w => buf.set w.eq 0) buf)[i]? =
      if ∃ w ∈ ws, w.eq = i then buf[i]?.map (Function.const UInt8 0) else buf[i]? := by
  induction ws generalizing buf with
  | nil => simp
  | cons w ws ih =>
    rw [List.foldl_cons, ih, List.getElem?_set']
    by_cases last : ∃ w' ∈ ws, w'.eq = i <;> by_cases here : w.eq = i <;> simp [last, here]

lemma cstring_eq (text : 0 ∉ line) {ws : List Span} (tokens : ∀ w ∈ ws, IsToken line w) {w} (mem : w ∈ ws) :
    cstring (ws.foldl (fun buf w => buf.set w.eq 0) (line ++ [0])) w.q = w.text line := by
  obtain ⟨le, fits, inside, _⟩ := tokens w mem
  set buf := ws.foldl (fun buf w => buf.set w.eq 0) (line ++ [0]) with hbuf
  have same : (buf.drop w.q).take (w.eq - w.q) = w.text line := by
    apply List.ext_getElem?
    intro i
    rw [Span.text, List.getElem?_take, List.getElem?_take]
    split_ifs with lt
    · have free : ¬∃ w' ∈ ws, w'.eq = w.q + i := by
        rintro ⟨w', mem', eq⟩
        exact (tokens w' mem').stop (by omega) (eq ▸ inside _ (by omega) (by omega))
      rw [List.getElem?_drop, List.getElem?_drop, getElem?_foldl_set, if_neg free, List.getElem?_append_left (by omega)]
    · rfl
  have zero : buf[w.eq]? = some 0 := by
    rw [getElem?_foldl_set, if_pos ⟨w, mem, rfl⟩, Option.map_eq_some_iff]
    exact ⟨_, List.getElem?_eq_getElem (by simp; omega), rfl⟩
  obtain ⟨lt, zero⟩ := List.getElem?_eq_some_iff.1 zero
  have nonzero : ∀ c ∈ w.text line, decide (c ≠ 0) := by
    intro c mem
    rw [decide_eq_true_eq]
    rintro rfl
    exact text (List.mem_of_mem_drop (List.mem_of_mem_take mem))
  rw [cstring, ← List.take_append_drop (w.eq - w.q) (buf.drop w.q), same, List.takeWhile_append_of_pos nonzero,
    List.drop_drop, Nat.add_sub_of_le le, List.drop_eq_getElem_cons lt, zero]
  simp

/-! ### `parsecmd` -/

lemma length_lex_le (s : ℕ) (text : List UInt8) : (lex s text).length ≤ text.length := by
  fun_induction lex s text with
  | case1 => exact le_rfl
  | case2 => rw [List.length_cons]; omega
  | case3 => simp only [List.length_cons]; omega
  | case4 => simp_all; omega
  | case5 => simp only [List.length_cons]; omega
  | case6 => simp_all; omega

lemma wp_parseall (text : 0 ∉ line) {fuel} {R : Cmd → List Token → Prop}
    (h : via (Left line) P (parseline line fuel) R (tokens line))
    (leftovers : ∀ cmd t ts, R cmd (t :: ts) → P (.panic "syntax")) : wp P (parseall line fuel) (fun cmd _ => R cmd []) 0 := by
  rw [parseall, wp_bind]
  refine wp_mono (h 0 ⟨Nat.zero_le _, rfl⟩) ?_
  rintro cmd s ⟨ts, ⟨le, rfl⟩, r⟩
  simp only [peek, wp_bind, wp_modify, wp_get, wp_pure]
  rw [← lex_skip] at r
  split_ifs with left
  · have lt : skip line isSpace s < line.length := Nat.lt_of_le_of_ne (skip_le isSpace le) left
    obtain ⟨k, e, _, _, _, eq, _⟩ := scan_eq text lt (not_isSpace_skip lt)
    rw [eq] at r
    exact leftovers _ _ _ r
  · rw [List.drop_eq_nil_of_le (not_not.1 left).ge, lex] at r
    exact r

lemma parsecmd_eq_ok {fuel cmd buf} :
    parsecmd line fuel = .ok (cmd, buf) ↔ (∃ s, parseall line fuel 0 = .ok (cmd, s)) ∧ buf = nulterminate cmd (line ++ [0]) := by
  unfold parsecmd
  cases parseall line fuel 0 with
  | error e => simp [bind, Except.bind]
  | ok r =>
    constructor
    · rintro ⟨⟩
      exact ⟨⟨r.2, rfl⟩, rfl⟩
    · rintro ⟨⟨_, ⟨⟩⟩, rfl⟩
      rfl

/-- `parsecmd` returns on every line. It succeeds iff the tokens of the line derive from the grammar, with the tree of the
derivation, and then every string of the tree is the text of a word of the line. -/
theorem parsecmd_iff_line (line : List UInt8) (text : 0 ∉ line) (fuel : ℕ) (enough : 4 * line.length + 4 ≤ fuel) :
    (parsecmd line fuel ≠ .error .fuel) ∧
    (∀ cmd, (∃ buf, parsecmd line fuel = .ok (cmd, buf)) ↔ Line (tokens line) cmd) ∧
    ∀ cmd buf, parsecmd line fuel = .ok (cmd, buf) →
      ∀ w ∈ cmd.spans, ⟨.word, w⟩ ∈ tokens line ∧ cstring buf w.q = w.text line := by
  have short : 4 * (tokens line).length + 4 ≤ fuel := by
    have := length_lex_le 0 line
    rw [tokens]
    omega
  have sound : wp (· ≠ .fuel) (parseall line fuel)
      (fun cmd _ => Took (tokens line) (fun used => Line used cmd) []) 0 :=
    wp_parseall text ((parse_sound text fuel).line _ short) nofun
  have derives : ∀ cmd buf, parsecmd line fuel = .ok (cmd, buf) → Line (tokens line) cmd := by
    intro cmd buf eq
    obtain ⟨⟨s, ok⟩, _⟩ := parsecmd_eq_ok.1 eq
    obtain ⟨used, all, derives⟩ := (wp_ok ok).1 sound
    rwa [all, List.append_nil]
  refine ⟨?_, fun cmd => ⟨fun ⟨buf, eq⟩ => derives cmd buf eq, ?_⟩, ?_⟩
  · intro eq
    unfold parsecmd at eq
    cases outcome : parseall line fuel 0 with
    | ok r => simp [outcome, bind, Except.bind, pure, Except.pure] at eq
    | error e =>
      rw [outcome] at eq
      cases eq
      exact (wp_error outcome).1 sound rfl
  · intro derives
    have complete := (parse_complete (P := fun _ => False) text fuel).line derives follow_nil short
    rw [List.append_nil] at complete
    obtain ⟨cmd', s, eq, rfl, _⟩ := exists_of_wp (wp_parseall text complete nofun)
    exact ⟨_, parsecmd_eq_ok.2 ⟨⟨s, eq⟩, rfl⟩⟩
  · intro cmd buf eq w mem
    have words : ∀ w ∈ cmd.spans, ⟨.word, w⟩ ∈ tokens line := fun w => (derives cmd buf eq).spans
    obtain ⟨_, rfl⟩ := parsecmd_eq_ok.1 eq
    rw [nulterminate_eq]
    refine ⟨words w mem, cstring_eq text (fun w mem => ?_) mem⟩
    exact isToken_of_mem (s := 0) text (words w mem)

/-- The line `a>f|b`. -/
theorem parsecmd_pipe :
    ∃ buf, parsecmd [97, 62, 102, 124, 98] 24 =
      .ok (.pipe (.redir (.exec [⟨0, 1⟩]) ⟨2, 3⟩ 0x601 1) (.exec [⟨4, 5⟩]), buf) := by
  refine ((parsecmd_iff_line [97, 62, 102, 124, 98] (by decide) 24 (by decide)).2.1 _).2 ?_
  have cut : tokens [97, 62, 102, 124, 98] =
      [⟨.word, 0, 1⟩, ⟨.gt, 1, 2⟩, ⟨.word, 2, 3⟩] ++ ⟨.bar, 3, 4⟩ :: [⟨.word, 4, 5⟩] ++ [] := by
    simp [tokens, lex, isSpace, isWord, isSymbol, single, Char.toUInt8]
  rw [cut]
  have file : Redirs [⟨.gt, 1, 2⟩, ⟨.word, 2, 3⟩] [(.gt, ⟨2, 3⟩)] := .cons (by decide) .nil
  have left : Exec [⟨.word, 0, 1⟩, ⟨.gt, 1, 2⟩, ⟨.word, 2, 3⟩] _ := .simple .nil (.cons file .nil) (by decide)
  have right : Exec [⟨.word, 4, 5⟩] _ := .simple .nil (.cons .nil .nil) (by decide)
  exact .last (.pipe left (.last right)) .nil

end Xv6.Shell
