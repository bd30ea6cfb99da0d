/-
# The matcher of `grep`

`match`, `matchhere` and `matchstar` of `grep.c`.  A string is the list of its bytes before the 0, so
a look at the end of the list stands for a look at the 0.

A pattern is read from left to right into atoms (`atoms`): a character that is followed by a star
takes the star with it, whatever it is; a dollar that is left at the very end stands for the end of
the text; every other character is an atom of its own.  The atoms denote a language, and the matcher
looks for a word of this language in the text (`matchText_iff`).
-/
import Mathlib.Computability.Language
import Mathlib.Tactic

namespace Xv6.Grep

/-! ## 1. The code -/

abbrev CARET : UInt8 := 94
abbrev STAR : UInt8 := 42
abbrev DOLLAR : UInt8 := 36
abbrev DOT : UInt8 := 46

/-- `matchstar(c, re, text)`, where `here` is `matchhere(re, ·)`. -/
def matchstar (c : UInt8) (here : List UInt8 → Bool) : List UInt8 → Bool
  | [] => here []
  | t :: text => here (t :: text) || ((t = c || c = DOT) && matchstar c here text)

/-- The last test of `matchhere`, where `here` is `matchhere(re+1, ·)`. -/
def matchone (c : UInt8) (here : List UInt8 → Bool) : List UInt8 → Bool
  | [] => false
  | t :: text => (c = DOT || c = t) && here text

def matchhere : List UInt8 → List UInt8 → Bool
  | [], _ => true
  | [c], text => if c = DOLLAR then text.isEmpty else matchone c (fun _ => true) text
  | c :: d :: re, text =>
    if d = STAR then matchstar c (matchhere re) text else matchone c (matchhere (d :: re)) text

/-- The loop of `match`. -/
def matchLoop (re : List UInt8) : List UInt8 → Bool
  | [] => matchhere re []
  | t :: text => matchhere re (t :: text) || matchLoop re text

/-- `match(re, text)`. -/
def matchText (re text : List UInt8) : Bool :=
  match re with
  | [] => matchLoop [] text
  | c :: re => if c = CARET then matchhere re text else matchLoop (c :: re) text

/-! ## 2. The language of a pattern -/

inductive Atom
  | one (c : UInt8)
  | many (c : UInt8)
  | eol
  deriving DecidableEq, Repr

/-- A pattern without a leading caret, read from left to right. -/
def atoms : List UInt8 → List Atom
  | [] => []
  | [c] => [if c = DOLLAR then .eol else .one c]
  | c :: d :: re => if d = STAR then .many c :: atoms re else .one c :: atoms (d :: re)

/-- The character `c` of a pattern stands for the character `t` of a text. -/
def Stands (c t : UInt8) : Prop := c = DOT ∨ c = t

def charClass (c : UInt8) : Language UInt8 := fun w => ∃ t, Stands c t ∧ w = [t]

def Atom.lang : Atom → Language UInt8
  | .one c => charClass c
  | .many c => KStar.kstar (charClass c)
  | .eol => 1

/-- The words that a list of atoms stands for. -/
def lang (as : List Atom) : Language UInt8 := (as.map Atom.lang).prod

/-- **What `match` looks for**: a word of the pattern in the text, which begins the text if the pattern
has a leading caret, and ends it if the pattern ends with a dollar that no star belongs to. -/
def Occurs (re text : List UInt8) : Prop :=
  let caret := re.head? = some CARET
  let as := atoms (if caret then re.tail else re)
  ∃ pre w post, text = pre ++ w ++ post ∧ w ∈ lang as ∧ (caret → pre = []) ∧
    (Atom.eol ∈ as → post = [])

/-! ## 3. The matcher is right -/

/-- A word of the atoms begins the text. -/
def Begins (as : List Atom) (text : List UInt8) : Prop :=
  ∃ w post, text = w ++ post ∧ w ∈ lang as ∧ (Atom.eol ∈ as → post = [])

section

variable {c : UInt8} {as : List Atom} {re text : List UInt8} {here : List UInt8 → Bool}

/-- The first atom takes a word, and the others go on behind it. -/
theorem begins_cons {a : Atom} (ha : a ≠ .eol) :
    Begins (a :: as) text ↔ ∃ u rest, text = u ++ rest ∧ u ∈ a.lang ∧ Begins as rest := by
  have hlang : lang (a :: as) = a.lang * lang as := by
    rw [lang, List.map_cons, List.prod_cons]
    rfl
  have hmem : Atom.eol ∈ a :: as ↔ Atom.eol ∈ as := by
    rw [List.mem_cons]
    exact or_iff_right fun h => ha h.symm
  rw [Begins, hlang, hmem]
  constructor
  · rintro ⟨w, post, rfl, hw, hend⟩
    obtain ⟨u, hu, v, hv, rfl⟩ := Language.mem_mul.mp hw
    exact ⟨u, v ++ post, List.append_assoc .., hu, v, post, rfl, hv, hend⟩
  · rintro ⟨u, _, rfl, hu, v, post, rfl, hv, hend⟩
    exact ⟨u ++ v, post, (List.append_assoc ..).symm, Language.mem_mul.mpr ⟨u, hu, v, hv, rfl⟩, hend⟩

theorem begins_nil : Begins [] text := ⟨[], text, rfl, Language.nil_mem_one, fun h => nomatch h⟩

theorem begins_eol : Begins [.eol] text ↔ text = [] := by
  have hlang : lang [.eol] = 1 := by
    rw [lang, List.map_singleton, List.prod_singleton]
    rfl
  rw [Begins, hlang]
  constructor
  · rintro ⟨w, post, rfl, hw, hend⟩
    rw [(Language.mem_one w).mp hw, hend (List.mem_singleton_self _)]
    rfl
  · rintro rfl
    exact ⟨[], [], rfl, Language.nil_mem_one, fun _ => rfl⟩

theorem mem_charClass_star {w : List UInt8} :
    w ∈ KStar.kstar (charClass c) ↔ ∀ t ∈ w, Stands c t := by
  rw [Language.mem_kstar]
  constructor
  · rintro ⟨L, rfl, hL⟩ t ht
    obtain ⟨u, hu, htu⟩ := List.mem_flatten.mp ht
    obtain ⟨t', hc, rfl⟩ := hL u hu
    rw [List.mem_singleton.mp htu]
    exact hc
  · intro h
    refine ⟨w.map fun t => [t], ?_, fun u hu => ?_⟩
    · induction w with
      | nil => rfl
      | cons t w ih =>
        rw [List.map_cons, List.flatten_cons, ← ih fun u hu => h u (List.mem_cons_of_mem t hu)]
        rfl
    · obtain ⟨t, ht, rfl⟩ := List.mem_map.mp hu
      exact ⟨t, h t ht, rfl⟩

theorem matchone_iff : matchone c here text = true ↔
    ∃ u rest, text = u ++ rest ∧ u ∈ charClass c ∧ here rest = true := by
  cases text with
  | nil =>
    refine iff_of_false Bool.false_ne_true ?_
    rintro ⟨_, rest, heq, ⟨t, -, rfl⟩, -⟩
    cases heq
  | cons t text =>
    rw [matchone, Bool.and_eq_true, Bool.or_eq_true, decide_eq_true_iff, decide_eq_true_iff]
    constructor
    · rintro ⟨hc, h⟩
      exact ⟨[t], text, rfl, ⟨t, hc, rfl⟩, h⟩
    · rintro ⟨_, rest, heq, ⟨t', hc, rfl⟩, h⟩
      obtain ⟨rfl, rfl⟩ := List.cons.inj heq
      exact ⟨hc, h⟩

theorem matchstar_iff : matchstar c here text = true ↔
    ∃ u rest, text = u ++ rest ∧ u ∈ KStar.kstar (charClass c) ∧ here rest = true := by
  simp only [mem_charClass_star]
  induction text with
  | nil =>
    rw [matchstar]
    constructor
    · intro h
      exact ⟨[], [], rfl, List.forall_mem_nil _, h⟩
    · rintro ⟨u, rest, heq, -, h⟩
      obtain ⟨rfl, rfl⟩ := List.append_eq_nil_iff.mp heq.symm
      exact h
  | cons t text ih =>
    have htest : (decide (t = c) || decide (c = DOT)) = true ↔ Stands c t := by
      rw [Bool.or_eq_true, decide_eq_true_iff, decide_eq_true_iff, Stands, or_comm, eq_comm (a := t)]
    rw [matchstar, Bool.or_eq_true, Bool.and_eq_true, htest, ih]
    constructor
    · rintro (h | ⟨ht, u, rest, rfl, hu, h⟩)
      · exact ⟨[], t :: text, rfl, List.forall_mem_nil _, h⟩
      · exact ⟨t :: u, rest, rfl, List.forall_mem_cons.mpr ⟨ht, hu⟩, h⟩
    · rintro ⟨u, rest, heq, hu, h⟩
      cases u with
      | nil => exact .inl (heq ▸ h)
      | cons v u =>
        obtain ⟨rfl, rfl⟩ := List.cons.inj heq
        obtain ⟨ht, hu⟩ := List.forall_mem_cons.mp hu
        exact .inr ⟨ht, u, rest, rfl, hu, h⟩

/-- **`matchhere`**, by the pattern: one atom after the other. -/
theorem matchhere_iff : ∀ re text, matchhere re text = true ↔ Begins (atoms re) text
  | [], text => iff_of_true rfl begins_nil
  | [c], text => by
    rw [matchhere, atoms]
    split
    next => rw [begins_eol, List.isEmpty_iff]
    next =>
      rw [matchone_iff, begins_cons (by simp)]
      simp only [Atom.lang, begins_nil]
  | c :: d :: re, text => by
    rw [matchhere, atoms]
    split
    next =>
      rw [matchstar_iff, begins_cons (by simp)]
      simp only [Atom.lang, matchhere_iff re]
    next =>
      rw [matchone_iff, begins_cons (by simp)]
      simp only [Atom.lang, matchhere_iff (d :: re)]

/-- The loop of `match` tries every place, the end of the text too. -/
theorem matchLoop_iff : matchLoop re text = true ↔
    ∃ pre rest, text = pre ++ rest ∧ Begins (atoms re) rest := by
  induction text with
  | nil =>
    rw [matchLoop, matchhere_iff]
    constructor
    · intro h
      exact ⟨[], [], rfl, h⟩
    · rintro ⟨pre, rest, heq, h⟩
      obtain ⟨rfl, rfl⟩ := List.append_eq_nil_iff.mp heq.symm
      exact h
  | cons t text ih =>
    rw [matchLoop, Bool.or_eq_true, matchhere_iff, ih]
    constructor
    · rintro (h | ⟨pre, rest, rfl, h⟩)
      · exact ⟨[], t :: text, rfl, h⟩
      · exact ⟨t :: pre, rest, rfl, h⟩
    · rintro ⟨pre, rest, heq, h⟩
      cases pre with
      | nil => exact .inl (heq ▸ h)
      | cons u pre =>
        obtain ⟨rfl, rfl⟩ := List.cons.inj heq
        exact .inr ⟨pre, rest, rfl, h⟩

end

/-- A word somewhere in the text. -/
theorem begins_somewhere {as : List Atom} {text : List UInt8} :
    (∃ pre rest, text = pre ++ rest ∧ Begins as rest) ↔
      ∃ pre w post, text = pre ++ w ++ post ∧ w ∈ lang as ∧ (Atom.eol ∈ as → post = []) := by
  constructor
  · rintro ⟨pre, _, rfl, w, post, rfl, hw, hend⟩
    exact ⟨pre, w, post, (List.append_assoc ..).symm, hw, hend⟩
  · rintro ⟨pre, w, post, rfl, hw, hend⟩
    exact ⟨pre, w ++ post, List.append_assoc .., w, post, rfl, hw, hend⟩

/-- **The matcher is right.** -/
theorem matchText_iff (re text : List UInt8) : matchText re text = true ↔ Occurs re text := by
  by_cases hcaret : re.head? = some CARET
  · obtain ⟨re, rfl⟩ := List.head?_eq_some_iff.mp hcaret
    simp only [matchText, if_true, matchhere_iff, Occurs, hcaret, List.tail_cons, true_implies]
    constructor
    · rintro ⟨w, post, rfl, hw, hend⟩
      exact ⟨[], w, post, rfl, hw, rfl, hend⟩
    · rintro ⟨_, w, post, rfl, hw, rfl, hend⟩
      exact ⟨w, post, rfl, hw, hend⟩
  · have hloop : matchText re text = matchLoop re text := by
      cases re with
      | nil => rfl
      | cons c re =>
        refine if_neg fun hc => hcaret ?_
        rw [hc, List.head?_cons]
    simp only [hloop, matchLoop_iff, Occurs, hcaret, if_false, false_implies, true_and]
    exact begins_somewhere

end Xv6.Grep
