import Mathlib.Computability.Language

/-!
# The matcher of grep

`match`, `matchhere` and `matchstar` of `grep.c`. A string is the list of its bytes without the terminating zero, and a
pointer into it is the list of the bytes from there on. A pattern is read as a sequence of items with an anchor at either end
(`items`), an item as a language over the bytes and a sequence of items as the product of their languages (`lang`).

`Starts L e text` says that `text` begins with a word of `L`, which is all of it if `e` is set. The three functions follow the
equations of this predicate, the star by `L* = 1 + L L*`.
-/

namespace Xv6.Grep

mutual

def matchhere (re text : List UInt8) : Bool :=
  match re with
  | [] => true
  | c :: re =>
    if re.head? = some '*'.toUInt8 then matchstar c re.tail text
    else if c = '$'.toUInt8 ∧ re = [] then decide (text = [])
    else match text with
      | [] => false
      | t :: text => if c = '.'.toUInt8 ∨ c = t then matchhere re text else false
termination_by (re.length, text.length)
decreasing_by
  · cases re <;> simp_all [Prod.lex_def]
  · simp [Prod.lex_def]

/-- `matchstar`: the loop goes on after a byte that is `c`, or any byte if `c` is `'.'`. -/
def matchstar (c : UInt8) (re text : List UInt8) : Bool :=
  if matchhere re text then true
  else match text with
    | [] => false
    | t :: text => if t = c ∨ c = '.'.toUInt8 then matchstar c re text else false
termination_by (re.length + 1, text.length)
decreasing_by
  · simp [Prod.lex_def]
  · simp [Prod.lex_def]

end

/-- The loop of `match`, which also looks at the empty string at the end. -/
def matchLoop (re : List UInt8) : List UInt8 → Bool
  | [] => matchhere re []
  | t :: text => if matchhere re (t :: text) then true else matchLoop re text

def matchText (re text : List UInt8) : Bool :=
  if re.head? = some '^'.toUInt8 then matchhere re.tail text else matchLoop re text

/-! ### The language of a pattern -/

/-- An item of a pattern: a byte or `'.'`, once or any number of times. -/
inductive Item where
  | one (c : UInt8)
  | star (c : UInt8)

/-- The words of one byte that a byte of the pattern stands for. -/
def atom (c : UInt8) : Language UInt8 := {w | ∃ t, w = [t] ∧ (c = '.'.toUInt8 ∨ c = t)}

/-- The words that an item stands for. -/
def Item.lang : Item → Language UInt8
  | one c => atom c
  | star c => KStar.kstar (atom c)

/-- The items of a pattern without its leading `'^'`, and whether a `'$'` that is not starred ends it. -/
def items : List UInt8 → List Item × Bool
  | [] => ([], false)
  | [c] => if c = '$'.toUInt8 then ([], true) else ([.one c], false)
  | c :: d :: re =>
    if d = '*'.toUInt8 then (.star c :: (items re).1, (items re).2)
    else (.one c :: (items (d :: re)).1, (items (d :: re)).2)

/-- The words that a sequence of items stands for. -/
def lang (is : List Item) : Language UInt8 := (is.map Item.lang).prod

/-- Some part of `text` is a word of the pattern. The part is the beginning of `text` if the pattern starts with `'^'`, and the
end if the pattern ends with an anchor. -/
def Matches (re text : List UInt8) : Prop :=
  let start := re.head? = some '^'.toUInt8
  let (is, finish) := items (if start then re.tail else re)
  ∃ front word back, text = front ++ word ++ back ∧ word ∈ lang is ∧ (start → front = []) ∧ (finish → back = [])

/-- `text` begins with a word of `L`, which is all of it if `finish` is set. -/
def Starts (L : Language UInt8) (finish : Bool) (text : List UInt8) : Prop :=
  ∃ word back, text = word ++ back ∧ word ∈ L ∧ (finish → back = [])

section starts
variable {L M : Language UInt8} {finish : Bool} {text : List UInt8} {c : UInt8}

lemma starts_one : Starts 1 finish text ↔ finish = true → text = [] := by
  constructor
  · rintro ⟨word, back, rfl, empty, last⟩ anchored
    rw [Language.mem_one] at empty
    simp [empty, last anchored]
  · exact fun last => ⟨[], text, rfl, rfl, last⟩

lemma starts_add : Starts (L + M) finish text ↔ Starts L finish text ∨ Starts M finish text := by
  simp only [Starts, Language.mem_add]
  grind

lemma starts_atom_mul : Starts (atom c * L) finish text ↔
    ∃ t rest, text = t :: rest ∧ (c = '.'.toUInt8 ∨ c = t) ∧ Starts L finish rest := by
  constructor
  · rintro ⟨_, back, rfl, ⟨_, ⟨t, rfl, fits⟩, word, mem, rfl⟩, last⟩
    exact ⟨t, word ++ back, rfl, fits, word, back, rfl, mem, last⟩
  · rintro ⟨t, _, rfl, fits, word, back, rfl, mem, last⟩
    exact ⟨t :: word, back, rfl, ⟨[t], ⟨t, rfl, fits⟩, word, mem, rfl⟩, last⟩

lemma starts_star_mul : Starts (KStar.kstar (atom c) * L) finish text ↔
    Starts L finish text ∨
      ∃ t rest, text = t :: rest ∧ (c = '.'.toUInt8 ∨ c = t) ∧ Starts (KStar.kstar (atom c) * L) finish rest := by
  have unfold : KStar.kstar (atom c) * L = L + atom c * (KStar.kstar (atom c) * L) := by
    conv_lhs => rw [← Language.one_add_self_mul_kstar_eq_kstar, add_mul, one_mul, mul_assoc]
  conv_lhs => rw [unfold, starts_add, starts_atom_mul]

end starts

lemma matchstar_iff {c : UInt8} {re : List UInt8} {L : Language UInt8} {finish : Bool}
    (here : ∀ text, matchhere re text ↔ Starts L finish text) (text : List UInt8) :
    matchstar c re text ↔ Starts (KStar.kstar (atom c) * L) finish text := by
  induction text with
  | nil =>
    rw [matchstar, starts_star_mul, ← here]
    simp
  | cons t text ih =>
    rw [matchstar, starts_star_mul, ← here]
    by_cases found : matchhere re (t :: text)
    · simp [found]
    · by_cases fits : t = c ∨ c = '.'.toUInt8
      · have fits' : c = '.'.toUInt8 ∨ c = t := by tauto
        simp [found, fits, fits', ih]
      · have fits' : ¬(c = '.'.toUInt8 ∨ c = t) := by tauto
        simp [found, fits, fits']

lemma matchhere_star {c : UInt8} {re text : List UInt8} :
    matchhere (c :: '*'.toUInt8 :: re) text = matchstar c re text := by
  rw [matchhere.eq_def]
  rfl

lemma matchhere_finish {text : List UInt8} : matchhere ['$'.toUInt8] text = decide (text = []) := by
  rw [matchhere.eq_def]
  rfl

lemma matchhere_one_iff {c : UInt8} {re : List UInt8} {L : Language UInt8} {finish : Bool}
    (plain : re.head? ≠ some '*'.toUInt8) (more : ¬(c = '$'.toUInt8 ∧ re = []))
    (here : ∀ text, matchhere re text ↔ Starts L finish text) (text : List UInt8) :
    matchhere (c :: re) text ↔ Starts (atom c * L) finish text := by
  rw [matchhere.eq_def, starts_atom_mul]
  simp only [if_neg plain, if_neg more]
  cases text with
  | nil => simp
  | cons t text =>
    by_cases fits : c = '.'.toUInt8 ∨ c = t
    · simp [fits, here]
    · simp [fits]

lemma matchhere_iff (re text : List UInt8) :
    matchhere re text ↔ Starts (lang (items re).1) (items re).2 text := by
  induction re using items.induct generalizing text with
  | case1 => simp [matchhere, items, lang, starts_one]
  | case2 => simp [matchhere_finish, items, lang, starts_one]
  | case3 c other =>
    have empty (text : List UInt8) : matchhere [] text ↔ Starts 1 false text := by simp [matchhere, starts_one]
    simpa [items, other, lang, Item.lang] using
      matchhere_one_iff (c := c) (by simp) (fun ⟨dollar, _⟩ => other dollar) empty text
  | case4 c re ih =>
    rw [matchhere_star]
    simpa [items, lang, Item.lang] using matchstar_iff (c := c) ih text
  | case5 c d re plain ih =>
    simpa [items, plain, lang, Item.lang] using
      matchhere_one_iff (c := c) (by simpa using plain) (by simp) ih text

lemma matchLoop_iff (re text : List UInt8) :
    matchLoop re text ↔ ∃ front rest, text = front ++ rest ∧ matchhere re rest := by
  induction text with
  | nil => simp [matchLoop]
  | cons t text ih =>
    rw [matchLoop]
    by_cases found : matchhere re (t :: text)
    · rw [if_pos found]
      exact iff_of_true rfl ⟨[], t :: text, rfl, found⟩
    · rw [if_neg found, ih]
      constructor
      · rintro ⟨front, rest, rfl, later⟩
        exact ⟨t :: front, rest, rfl, later⟩
      · rintro ⟨front, rest, eq, later⟩
        cases front with
        | nil => exact absurd (eq ▸ later) found
        | cons t' front => exact ⟨front, rest, (List.cons.inj eq).2, later⟩

lemma matchText_nil {text : List UInt8} : matchText [] text = true := by
  cases text <;> simp [matchText, matchLoop, matchhere]

/-- The matcher returns 1 exactly for the texts with a part that the pattern stands for. -/
theorem match_iff_matches (re text : List UInt8) : matchText re text = true ↔ Matches re text := by
  unfold matchText Matches
  by_cases start : re.head? = some '^'.toUInt8
  · simp only [start, if_true, forall_const, matchhere_iff]
    constructor
    · rintro ⟨word, back, eq, mem, last⟩
      exact ⟨[], word, back, eq, mem, rfl, last⟩
    · rintro ⟨_, word, back, eq, mem, rfl, last⟩
      exact ⟨word, back, eq, mem, last⟩
  · simp only [start, if_false, false_implies, true_and, matchLoop_iff, matchhere_iff]
    constructor
    · rintro ⟨front, _, rfl, word, back, rfl, mem, last⟩
      exact ⟨front, word, back, (List.append_assoc ..).symm, mem, last⟩
    · rintro ⟨front, word, back, rfl, mem, last⟩
      exact ⟨front, word ++ back, List.append_assoc .., word, back, rfl, mem, last⟩

end Xv6.Grep
