/-
# Texts that both scanners understand

The scanner of fragments and that of documents differ in commas, comments, numbers and the
characters of strings.  But where neither of them meets anything that it does not know, they
find the same tokens: they walk through a token side by side, and what one of them lets pass
and the other does not is a stray lexeme or a flaw.
-/
import Mathlib.Data.List.Chain
import Mathlib.Data.List.TakeWhile
import SchemaCatalog.Proofs.Spelling
import SchemaCatalog.Proofs.StraylessFragments

namespace SchemaCatalog

open Lexeme (Kind)
open Decimal (isExponentMark)
open Text (hexDigit?)

/-- The tokens among some kinds. -/
def tokensIn (ks : List Kind) : List Token :=
  ks.filterMap fun k => match k with
    | .token t => some t
    | _ => none

theorem tokensIn_append (ks ls : List Kind) : tokensIn (ks ++ ls) = tokensIn ks ++ tokensIn ls :=
  List.filterMap_append

/-! ## Numbers -/

namespace Fragment

/-- What may stand behind a digit of a number: another digit, the point, or the mark of the
exponent. -/
def FollowsDigit (c d : Char) : Prop :=
  c.isDigit = true → d.isDigit = true ∨ d = '.' ∨ isExponentMark d = true

/-- Whether digits of a text are followed by what may follow the digits of a number. -/
abbrev IsNumeric (cs : List Char) : Prop := cs.IsChain FollowsDigit

theorem isNumeric_digits {cs : List Char} (h : cs.all Char.isDigit = true) : IsNumeric cs := by
  induction cs with
  | nil => exact .nil
  | cons c cs ih =>
    rw [List.all_cons, Bool.and_eq_true] at h
    refine List.isChain_cons.2 ⟨fun d hd _ => Or.inl ?_, ih h.2⟩
    exact List.all_eq_true.1 h.2 d (List.mem_of_mem_head? hd)

/-- A sign may stand in front. -/
theorem isNumeric_cons {c : Char} (hc : c.isDigit = false) {cs : List Char} (h : IsNumeric cs) :
    IsNumeric (c :: cs) :=
  List.isChain_cons.2 ⟨fun _ _ hdigit => absurd (hc.symm.trans hdigit) Bool.false_ne_true, h⟩

theorem isNumeric_whole {cs : List Char} (h : isWhole cs = true) : IsNumeric cs := by
  have hdigits : ∀ ds : List Char, (ds == ['0'] || (ds ≠ [] && ds.head? ≠ some '0' &&
      ds.all Char.isDigit)) = true → IsNumeric ds := by
    intro ds hds
    rw [Bool.or_eq_true, beq_iff_eq, Bool.and_eq_true] at hds
    rcases hds with rfl | ⟨-, hds⟩
    · exact isNumeric_digits rfl
    · exact isNumeric_digits hds
  rw [isWhole] at h
  cases cs with
  | nil => exact .nil
  | cons c cs =>
    by_cases hc : c = '-'
    · subst hc
      exact isNumeric_cons rfl (hdigits cs h)
    · exact hdigits (c :: cs) (by simpa [hc] using h)

/-- A part of a number goes on with a point or with the mark of an exponent. -/
theorem IsNumeric.append {cs ds : List Char} {d : Char} (h : IsNumeric cs)
    (hd : d = '.' ∨ isExponentMark d = true) (hds : IsNumeric ds) : IsNumeric (cs ++ d :: ds) := by
  refine List.isChain_append.2 ⟨h, isNumeric_cons ?_ hds, ?_⟩
  · rcases hd with rfl | hd
    · rfl
    · simp only [isExponentMark, Bool.or_eq_true, beq_iff_eq] at hd
      rcases hd with rfl | rfl <;> rfl
  · rintro x - y hy -
    cases hy
    exact Or.inr hd

/-- Digits with a point among them are characters of numbers. -/
theorem isNumeric_mantissa {cs : List Char} (h : isMantissa cs = true) : IsNumeric cs := by
  rw [← List.takeWhile_append_dropWhile (p := (· != '.')) (l := cs)]
  rw [isMantissa] at h
  cases hrest : cs.dropWhile (· != '.') with
  | nil =>
    rw [hrest] at h
    rw [List.append_nil]
    exact isNumeric_whole h
  | cons d fraction =>
    rw [hrest] at h
    have hd : d = '.' := by
      have := List.head?_dropWhile_not (· != '.') cs
      simpa [hrest] using this
    rw [Bool.and_eq_true, isDigits, Bool.and_eq_true] at h
    exact (isNumeric_whole h.1).append (Or.inl hd) (isNumeric_digits h.2.2)

theorem isNumeric_exponent {cs : List Char} (h : isExponent cs = true) : IsNumeric cs := by
  cases cs with
  | nil => exact .nil
  | cons c cs =>
    rw [isExponent, Bool.and_eq_true] at h
    refine List.isChain_cons.2 ⟨fun d hd _ => Or.inl ?_, isNumeric_digits h.2⟩
    exact List.all_eq_true.1 h.2 d (List.mem_of_mem_head? hd)

/-- A text with a mark in it consists of what stands before the last one and behind it. -/
theorem exists_last_mark {P : Char → Bool} {cs : List Char} (h : cs.any P = true) :
    ∃ m, P m = true ∧ cs = cs.take (cs.length -
      (cs.reverse.takeWhile fun c => !P c).reverse.length - 1) ++
        m :: (cs.reverse.takeWhile fun c => !P c).reverse := by
  have hsplit := List.takeWhile_append_dropWhile (p := fun c => !P c) (l := cs.reverse)
  cases hrest : cs.reverse.dropWhile fun c => !P c with
  | nil =>
    rw [List.dropWhile_eq_nil_iff] at hrest
    obtain ⟨c, hc, hP⟩ := List.any_eq_true.1 h
    have := hrest c (List.mem_reverse.2 hc)
    simp [hP] at this
  | cons m before =>
    have hm : P m = true := by
      have := List.head?_dropWhile_not (fun c => !P c) cs.reverse
      simpa [hrest] using this
    rw [hrest] at hsplit
    refine ⟨m, hm, ?_⟩
    have hcs : cs = before.reverse ++ m :: (cs.reverse.takeWhile fun c => !P c).reverse := by
      have := congrArg List.reverse hsplit
      simpa using this.symm
    have hlength : cs.length - (cs.reverse.takeWhile fun c => !P c).reverse.length - 1 =
        before.reverse.length := by
      have := congrArg List.length hcs
      simp only [List.length_append, List.length_cons] at this
      omega
    rw [hlength]
    conv_lhs => rw [hcs]
    congr 1
    rw [hcs, List.take_left]

/-- So are all characters of a float. -/
theorem isNumeric_float {cs : List Char} (h : isFloat cs = true) : IsNumeric cs := by
  rw [isFloat] at h
  split at h
  · next hany =>
    obtain ⟨m, hm, hcs⟩ := exists_last_mark hany
    rw [Bool.and_eq_true] at h
    rw [hcs]
    exact (isNumeric_mantissa h.1).append (Or.inr hm) (isNumeric_exponent h.2)
  · exact isNumeric_mantissa h

/-- A number with something else behind a digit is stray. -/
theorem finish_of_not_numeric {cs : List Char} (h : ¬IsNumeric cs) :
    ∃ m, ScanState.number.finish cs = .stray m := by
  rw [ScanState.finish]
  split
  · split
    · next hfloat => exact absurd (isNumeric_float hfloat) h
    · exact ⟨_, rfl⟩
  · split
    · next hwhole => exact absurd (isNumeric_whole hwhole) h
    · exact ⟨_, rfl⟩

end Fragment

namespace Document

/-- Whether a number has a fraction or an exponent, as far as it is read. -/
def ScanState.isFractional : ScanState → Bool
  | point | fraction | exponent | exponentSign | exponentDigits => true
  | _ => false

/-- Whether a number may end, since a digit was read last. -/
def ScanState.isComplete : ScanState → Bool
  | zero | digits | fraction | exponentDigits => true
  | _ => false

/-- Whether a state is one inside a number. -/
def ScanState.isNumber : ScanState → Bool
  | minus | zero | digits | point | fraction | exponent | exponentSign | exponentDigits => true
  | _ => false

/-- A state inside a number whose characters have been read, the last one first. -/
structure IsNumber (st : ScanState) (read : List Char) : Prop where
  state : st.isNumber = true
  fractional : Fragment.looksFractional read = st.isFractional
  digit : st.isComplete = true → ∃ d ds, read = d :: ds ∧ d.isDigit = true

/-- A state in which only a flaw can end. -/
def ScanState.IsDoomed : ScanState → Prop
  | flaw _ | quoted _ (some _) | closed (some _) => True
  | _ => False

/-- A doomed lexeme ends as a flaw. -/
theorem ScanState.IsDoomed.finish {st : ScanState} (h : st.IsDoomed) (text : List Char) :
    ∃ m, st.finish text = .flaw m := by
  match st, h with
  | .flaw m, _ => exact ⟨m, rfl⟩
  | .quoted _ (some _), _ => exact ⟨_, rfl⟩
  | .closed (some p), _ => exact ⟨p, rfl⟩

/-- A problem in a string is not forgotten. -/
theorem Quoted.isDoomed_next (q : Quoted) (p : String) (c : Char) :
    (q.next (some p) c).IsDoomed := by
  unfold Quoted.next Quoted.nextPlain Quoted.afterUnit
  split <;> repeat' split
  all_goals trivial

/-- A doomed lexeme stays so until it ends. -/
theorem ScanState.IsDoomed.next {st : ScanState} (h : st.IsDoomed) (c : Char) :
    st.next c = none ∨ ∃ st', st.next c = some st' ∧ st'.IsDoomed := by
  match st, h with
  | .flaw m, _ => exact Or.inl rfl
  | .quoted q (some p), _ => exact Or.inr ⟨_, rfl, q.isDoomed_next p c⟩
  | .closed (some p), _ => exact Or.inl rfl

section

variable {st st' : ScanState} {read : List Char} {c : Char}

theorem looksFractional_cons (c : Char) (cs : List Char) :
    Fragment.looksFractional (c :: cs) =
      (c == '.' || isExponentMark c || Fragment.looksFractional cs) := rfl

theorem not_fractional_of_isDigit (hc : c.isDigit = true) :
    (c == '.' || isExponentMark c) = false := by
  rw [Bool.eq_false_iff]
  intro h
  simp only [isExponentMark, Bool.or_eq_true, beq_iff_eq] at h
  rcases h with rfl | rfl | rfl <;> cases hc

/-- A digit leaves a number as fractional as it was. -/
theorem IsNumber.digit_next (h : IsNumber st read) (hc : c.isDigit = true)
    (hstate : st'.isNumber = true) (hfractional : st'.isFractional = st.isFractional) :
    IsNumber st' (c :: read) where
  state := hstate
  fractional := by
    rw [looksFractional_cons, not_fractional_of_isDigit hc, h.fractional, hfractional,
      Bool.false_or]
  digit _ := ⟨c, read, rfl, hc⟩

/-- Behind a point, the mark of an exponent or its sign a digit has to come. -/
theorem isNumber_of_fractional (hstate : st'.isNumber = true)
    (hfractional : st'.isFractional = true) (hcomplete : st'.isComplete = false)
    (h : Fragment.looksFractional (c :: read) = true) : IsNumber st' (c :: read) where
  state := hstate
  fractional := h.trans hfractional.symm
  digit hst := absurd (hcomplete.symm.trans hst) Bool.false_ne_true

theorem looksFractional_point (read : List Char) : Fragment.looksFractional ('.' :: read) = true :=
  rfl

theorem looksFractional_exponent (hc : isExponentMark c = true) (read : List Char) :
    Fragment.looksFractional (c :: read) = true := by
  rw [looksFractional_cons, hc, Bool.or_true, Bool.true_or]

/-- Behind the digits of an integer, what goes on is a float or doomed. -/
theorem isNumber_afterInteger (hnext : ScanState.afterInteger c = some st') :
    IsNumber st' (c :: read) ∨ st'.IsDoomed := by
  rw [ScanState.afterInteger] at hnext
  split at hnext
  · next hc =>
    cases hnext
    rw [eq_of_beq hc]
    exact Or.inl (isNumber_of_fractional rfl rfl rfl (looksFractional_point read))
  · split at hnext
    · next hc =>
      cases hnext
      exact Or.inl (isNumber_of_fractional rfl rfl rfl (looksFractional_exponent hc read))
    · split at hnext
      · cases hnext
        exact Or.inr trivial
      · cases hnext

/-- Behind the digits of a float, what goes on is doomed. -/
theorem isDoomed_afterFloat (hnext : ScanState.afterFloat c = some st') : st'.IsDoomed := by
  rw [ScanState.afterFloat] at hnext
  split at hnext
  · cases hnext
    trivial
  · cases hnext

/-- A number goes on with a digit, unless its only digit is a zero. -/
theorem IsNumber.next_of_isDigit (h : IsNumber st read) (hc : c.isDigit = true)
    (hnext : st.next c = some st') : IsNumber st' (c :: read) ∨ st'.IsDoomed := by
  cases st with
  | minus =>
    rw [ScanState.next] at hnext
    split at hnext
    · cases hnext
      exact Or.inl (h.digit_next hc rfl rfl)
    · cases hnext
      exact Or.inl (h.digit_next hc rfl rfl)
  | zero =>
    rw [ScanState.next, if_pos hc] at hnext
    cases hnext
    exact Or.inr trivial
  | digits | point | fraction | exponent | exponentSign | exponentDigits =>
    rw [ScanState.next, if_pos hc] at hnext
    cases hnext
    exact Or.inl (h.digit_next hc rfl rfl)
  | blank | comment | comma | mark | name | oneDot | twoDots | quote | emptyString | quoted
  | block | closed | flaw => cases h.state

/-- What else a number goes on with begins its fraction or its exponent, or is a flaw. -/
theorem IsNumber.next_of_not_isDigit (h : IsNumber st read) (hc : ¬c.isDigit = true)
    (hnext : st.next c = some st') : IsNumber st' (c :: read) ∨ st'.IsDoomed := by
  -- a fraction or an exponent stays one, whatever ends it
  have hstays : st.isFractional = true → Fragment.looksFractional (c :: read) = true := by
    intro hst
    rw [looksFractional_cons, h.fractional, hst, Bool.or_true]
  cases st with
  | minus =>
    have hzero : ¬(c == '0') = true := fun hzero => hc (by rw [eq_of_beq hzero]; rfl)
    rw [ScanState.next, if_neg hzero, if_neg hc] at hnext
    cases hnext
    exact Or.inr trivial
  | zero | digits =>
    rw [ScanState.next, if_neg hc] at hnext
    exact isNumber_afterInteger hnext
  | point | exponentSign =>
    rw [ScanState.next, if_neg hc] at hnext
    cases hnext
    exact Or.inr trivial
  | fraction =>
    rw [ScanState.next, if_neg hc] at hnext
    split at hnext
    · cases hnext
      exact Or.inl (isNumber_of_fractional rfl rfl rfl (hstays rfl))
    · exact Or.inr (isDoomed_afterFloat hnext)
  | exponent =>
    rw [ScanState.next, if_neg hc] at hnext
    split at hnext
    · cases hnext
      exact Or.inl (isNumber_of_fractional rfl rfl rfl (hstays rfl))
    · cases hnext
      exact Or.inr trivial
  | exponentDigits =>
    rw [ScanState.next, if_neg hc] at hnext
    exact Or.inr (isDoomed_afterFloat hnext)
  | blank | comment | comma | mark | name | oneDot | twoDots | quote | emptyString | quoted
  | block | closed | flaw => cases h.state

/-- A number goes on as a number, or as a flaw. -/
theorem IsNumber.next (h : IsNumber st read) (hnext : st.next c = some st') :
    IsNumber st' (c :: read) ∨ st'.IsDoomed := by
  by_cases hc : c.isDigit = true
  · exact h.next_of_isDigit hc hnext
  · exact h.next_of_not_isDigit hc hnext

/-- Where a number of a fragment ends, a number of a document ends or is flawed. -/
theorem isDoomed_of_endsNumber (hc : Fragment.endsNumber c = true) (hst : st.isNumber = true)
    (hnext : st.next c = some st') : st'.IsDoomed := by
  have hall : (" \n\r\t,#!$:=@|&()[]\x7b\x7d".toList.all fun c => decide
      (c.isDigit = false ∧ (c == '.') = false ∧ isExponentMark c = false ∧
        isNameStart c = false ∧ (c == '+') = false ∧ (c == '-') = false)) = true := by decide
  obtain ⟨hdigit, hpoint, hexponent, hstart, hplus, hminus⟩ :=
    of_decide_eq_true (List.all_eq_true.1 hall c (List.mem_of_elem_eq_true hc))
  have hzero : (c == '0') = false := by
    rw [beq_eq_false_iff_ne]
    rintro rfl
    cases hdigit
  cases st <;>
    simp [ScanState.next, ScanState.afterInteger, ScanState.afterFloat, ScanState.isNumber,
      hdigit, hpoint, hexponent, hstart, hplus, hminus, hzero] at hnext hst <;>
    subst hnext <;> trivial

/-- Where a number of a document ends, its last character is a digit, and none that may stand
behind a digit comes next. -/
theorem IsNumber.complete (h : IsNumber st read) (hnext : st.next c = none) :
    st.isComplete = true ∧ c.isDigit = false ∧ c ≠ '.' ∧ isExponentMark c = false := by
  have hstart : isNameStart c = false → isExponentMark c = false := by
    intro hc
    rw [Bool.eq_false_iff]
    intro hmark
    simp only [isExponentMark, Bool.or_eq_true, beq_iff_eq] at hmark
    rcases hmark with rfl | rfl <;> cases hc
  have hstate := h.state
  cases st <;>
    simp [ScanState.next, ScanState.afterInteger, ScanState.afterFloat, ScanState.isNumber,
      ScanState.isComplete] at hnext hstate ⊢ <;> grind

end

/-- Whether the next character of a quoted string is escaped. -/
def Quoted.isEscaped : Quoted → Bool
  | escape | halfEscape => true
  | _ => false

/-- Whether a backslash stands before the quotes that may end a block string. -/
def Block.isEscaped : Block → Bool
  | escape | escapedOne | escapedTwo => true
  | _ => false

/-- The number of quotes that may begin the end of a block string. -/
def Block.quotes : Block → Nat
  | oneQuote | escapedOne => 1
  | twoQuotes | escapedTwo => 2
  | _ => 0

end Document

/-! ## Side by side -/

/-- Both scanners are inside the same lexeme, and have read the same of it, or both are inside
white space or comments. -/
inductive Alike : Fragment.ScanState → List Char → Document.ScanState → List Char → Prop
  | blank (read read' : List Char) : Alike .blank read .blank read'
  | comma (read read' : List Char) : Alike .blank read .comma read'
  | comment (read read' : List Char) : Alike .comment read .comment read'
  | lineEnd (read read' : List Char) : Alike .commentEnd read .blank read'
  | mark (m : Mark) (read : List Char) : Alike (.mark m) read (.mark m) read
  | name (read : List Char) : Alike .name read .name read
  | oneDot (read : List Char) : Alike .oneDot read .oneDot read
  | twoDots (read : List Char) : Alike .twoDots read .twoDots read
  | number {st : Document.ScanState} {read : List Char} (h : Document.IsNumber st read) :
    Alike .number read st read
  | quote (read : List Char) : Alike .quote read .quote read
  | emptyString (read : List Char) : Alike .emptyString read .emptyString read
  | quoted (q : Document.Quoted) (read : List Char) :
    Alike (.quoted q.isEscaped) read (.quoted q none) read
  | block (b : Document.Block) (read : List Char) :
    Alike (.block b.isEscaped b.quotes) read (.block b) read
  | closed (read : List Char) : Alike .closed read (.closed none) read

/-- The scanner of fragments can only end in a stray lexeme. -/
def Fragment.IsAstray (st : Fragment.ScanState) (read : List Char) : Prop :=
  st = .broken ∨ st = .unknown ∨ st = .number ∧ ¬Fragment.IsNumeric read.reverse

theorem Fragment.IsAstray.finish {st : Fragment.ScanState} {read : List Char}
    (h : IsAstray st read) : ∃ m, st.finish read.reverse = .stray m := by
  rcases h with rfl | rfl | ⟨rfl, h⟩
  · exact ⟨_, rfl⟩
  · exact ⟨_, rfl⟩
  · exact finish_of_not_numeric h

/-- A lexeme that is astray makes a text stray, whatever follows. -/
theorem Fragment.IsAstray.exists_stray {st : Fragment.ScanState} {read : List Char}
    (h : IsAstray st read) (cs : List Char) :
    ∃ l ∈ Fragment.scanner.scanFrom st read cs, ∃ m, l.kind = .stray m := by
  induction cs generalizing read with
  | nil => exact ⟨_, List.mem_singleton_self _, h.finish⟩
  | cons c cs ih =>
    cases hnext : Fragment.scanner.next st c with
    | none =>
      rw [Scanner.scanFrom_cons_of_end _ hnext]
      exact ⟨_, List.mem_cons_self, h.finish⟩
    | some st' =>
      rw [Scanner.scanFrom_cons_of_next _ hnext]
      rcases h with rfl | rfl | ⟨rfl, h⟩
      · cases hnext
      · cases hnext
      · have hst' : st' = .number := by
          change Fragment.ScanState.next .number c = some st' at hnext
          rw [Fragment.ScanState.next] at hnext
          split at hnext <;> cases hnext
          rfl
        subst hst'
        refine ih (Or.inr (Or.inr ⟨rfl, fun hnumeric => h ?_⟩))
        rw [List.reverse_cons] at hnumeric
        exact hnumeric.left_of_append

/-- A doomed lexeme makes a text flawed, whatever follows. -/
theorem Document.ScanState.IsDoomed.exists_flaw {st : Document.ScanState} (h : st.IsDoomed)
    (read cs : List Char) :
    ∃ l ∈ Document.scanner.scanFrom st read cs, ∃ m, l.kind = .flaw m := by
  induction cs generalizing st read with
  | nil => exact ⟨_, List.mem_singleton_self _, h.finish _⟩
  | cons c cs ih =>
    rcases h.next c with hnext | ⟨st', hnext, hst'⟩
    · rw [Scanner.scanFrom_cons_of_end Document.scanner hnext]
      exact ⟨_, List.mem_cons_self, h.finish _⟩
    · rw [Scanner.scanFrom_cons_of_next Document.scanner hnext]
      exact ih hst' _

/-! ## Single steps -/

/-- In fragments a comma is white space. -/
theorem isBlank_fragment (c : Char) :
    Fragment.isBlank c = (Document.isBlank c || c == ',') := by
  simp only [Fragment.isBlank, Document.isBlank]
  cases (c == ',') <;> simp

theorem isNumber_start {c : Char} (hc : c.isDigit = true) :
    Document.IsNumber (if c == '0' then .zero else .digits) [c] where
  state := by split <;> rfl
  fractional := by
    rw [Document.looksFractional_cons, Document.not_fractional_of_isDigit hc]
    split <;> rfl
  digit _ := ⟨c, [], rfl, hc⟩

/-- Both scanners start a lexeme alike, unless that of fragments does not know it. -/
theorem alike_start (c : Char) :
    Alike (.start c) [c] (.start c) [c] ∨ Fragment.IsAstray (.start c) [c] := by
  have hF := isBlank_fragment c
  unfold Fragment.ScanState.start Document.ScanState.start
  -- one case for each kind of first character, in the order in which both scanners ask
  by_cases hblank : Document.isBlank c = true
  · rw [hF, hblank]
    exact Or.inl (.blank _ _)
  by_cases hcomma : c = ','
  · subst hcomma
    exact Or.inl (.comma _ _)
  have hcomma' : (c == ',') = false := beq_eq_false_iff_ne.2 hcomma
  rw [Bool.not_eq_true] at hblank
  simp only [hF, hblank, hcomma', Bool.false_or, Bool.false_eq_true, if_false]
  by_cases hcomment : (c == '#') = true
  · simp only [hcomment, if_true]
    exact Or.inl (.comment _ _)
  by_cases hdot : (c == '.') = true
  · simp only [hcomment, hdot, if_true, if_false, Bool.false_eq_true]
    exact Or.inl (.oneDot _)
  by_cases hminus : (c == '-') = true
  · cases eq_of_beq hminus
    exact Or.inl (.number ⟨rfl, rfl, fun h => Bool.noConfusion h⟩)
  simp only [hcomment, hdot, hminus, Bool.false_or, if_false, Bool.false_eq_true]
  by_cases hdigit : c.isDigit = true
  · have hnumber := isNumber_start hdigit
    by_cases hzero : (c == '0') = true
    · simp only [hdigit, hzero, if_true] at hnumber ⊢
      exact Or.inl (.number hnumber)
    · simp only [hdigit, hzero, if_true, if_false, Bool.false_eq_true] at hnumber ⊢
      exact Or.inl (.number hnumber)
  have hzero : ¬(c == '0') = true := fun hzero => hdigit (by rw [eq_of_beq hzero]; rfl)
  simp only [hdigit, hzero, if_false, Bool.false_eq_true]
  split
  · exact Or.inl (.quote _)
  · split
    · exact Or.inl (.name _)
    · cases Mark.ofChar? c with
      | some m => exact Or.inl (.mark _ _)
      | none => exact Or.inr (Or.inr (Or.inl rfl))

/-- What one more character leads to: both scanners go on with the lexeme or both end it, or
there is no token in what only one of them ends, or one of them cannot go on well. -/
inductive Steps (st : Fragment.ScanState) (read : List Char) (st' : Document.ScanState)
    (read' : List Char) (c : Char) : Prop
  | onward {next : Fragment.ScanState} {next' : Document.ScanState} (h : st.next c = some next)
    (h' : st'.next c = some next') (alike : Alike next (c :: read) next' (c :: read'))
  | ended (h : st.next c = none) (h' : st'.next c = none)
  | endedDocument {next : Fragment.ScanState} (h : st.next c = some next) (h' : st'.next c = none)
    (void : ∀ text, tokensIn [st'.finish text] = [])
    (alike : Alike next (c :: read) (.start c) [c])
  | endedFragment {next' : Document.ScanState} (h : st.next c = none)
    (h' : st'.next c = some next') (void : ∀ text, tokensIn [st.finish text] = [])
    (alike : Alike (.start c) [c] next' (c :: read'))
  | astray {next : Fragment.ScanState} (h : st.next c = some next)
    (astray : Fragment.IsAstray next (c :: read))
  | doomed {next' : Document.ScanState} (h' : st'.next c = some next') (doomed : next'.IsDoomed)

/-- Each character of a number leads both scanners on alike, or astray. -/
theorem alike_number {st : Document.ScanState} {read : List Char} (h : Document.IsNumber st read)
    (c : Char) : Steps .number read st read c := by
  by_cases hends : Fragment.endsNumber c = true
  · cases hnext : st.next c with
    | none => exact .ended (if_pos hends) hnext
    | some next' =>
      exact .doomed hnext (Document.isDoomed_of_endsNumber hends h.state hnext)
  · cases hnext : st.next c with
    | none =>
      -- a fragment goes on with the number, though this cannot stand behind its last digit
      obtain ⟨hcomplete, hdigit, hpoint, hexponent⟩ := h.complete hnext
      obtain ⟨d, ds, rfl, hd⟩ := h.digit hcomplete
      refine .astray (if_neg hends) (Or.inr (Or.inr ⟨rfl, fun hnumeric => ?_⟩))
      rw [List.reverse_cons, List.reverse_cons, List.append_assoc,
        List.singleton_append] at hnumeric
      have hfollows := (List.isChain_cons_cons.1 hnumeric.right_of_append).1 hd
      rcases hfollows with hc | hc | hc
      · exact Bool.false_ne_true (hdigit.symm.trans hc)
      · exact hpoint hc
      · exact Bool.false_ne_true (hexponent.symm.trans hc)
    | some next' =>
      rcases h.next hnext with hnumber | hdoomed
      · exact .onward (if_neg hends) hnext (.number hnumber)
      · exact .doomed hnext hdoomed

theorem nextQuoted_escaped {c : Char} (hline : c ≠ '\n') :
    Fragment.ScanState.nextQuoted true c = .quoted false := by
  simp [Fragment.ScanState.nextQuoted, hline]

theorem nextQuoted_plain {c : Char} (hquote : c ≠ '"') (hline : c ≠ '\n') (hslash : c ≠ '\\') :
    Fragment.ScanState.nextQuoted false c = .quoted false := by
  simp [Fragment.ScanState.nextQuoted, hquote, hline, hslash]

/-- A digit of an escape is neither a quote nor a backslash. -/
theorem nextQuoted_hexDigit (q : Document.Quoted) (hq : q.isEscaped = false) {c : Char} {d : Nat}
    (hd : hexDigit? c = some d) : Fragment.ScanState.nextQuoted q.isEscaped c = .quoted false := by
  rw [hq]
  apply nextQuoted_plain <;> rintro rfl <;> cases hd

section

variable (read : List Char) {c : Char}

/-- The closing quote and the backslash are the same for both scanners. -/
theorem alike_nextPlain (hline : c ≠ '\n') :
    Alike (.nextQuoted false c) read (Document.Quoted.nextPlain none c) read ∨
      (Document.Quoted.nextPlain none c).IsDoomed := by
  by_cases hquote : c = '"'
  · subst hquote
    exact Or.inl (.closed read)
  by_cases hslash : c = '\\'
  · subst hslash
    exact Or.inl (.quoted .escape read)
  rw [nextQuoted_plain hquote hline hslash, Document.Quoted.nextPlain]
  simp only [beq_iff_eq, hquote, hslash, if_false]
  split
  · exact Or.inr trivial
  · exact Or.inl (.quoted .plain read)

/-- Where an escape of four digits is complete, both scanners are back in the string. -/
theorem alike_afterUnit (value : Nat) :
    Alike (.quoted false) read (Document.Quoted.afterUnit value none) read ∨
      (Document.Quoted.afterUnit value none).IsDoomed := by
  rw [Document.Quoted.afterUnit]
  split
  · exact Or.inl (.quoted .half read)
  · split
    · exact Or.inr trivial
    · exact Or.inl (.quoted .plain read)

/-- Inside a quoted string a document sees an escape where a fragment does, and the closing
quote as well, or there is a problem. -/
theorem alike_nextQuoted (q : Document.Quoted) (hline : c ≠ '\n') :
    Alike (.nextQuoted q.isEscaped c) read (q.next none c) read ∨ (q.next none c).IsDoomed := by
  -- by what the document expects next; the fragment only knows whether an escape is open
  cases q with
  | plain => exact alike_nextPlain read hline
  | escape =>
    simp only [Document.Quoted.isEscaped, nextQuoted_escaped hline, Document.Quoted.next]
    split
    · exact Or.inl (.quoted .unicode read)
    · split
      · exact Or.inl (.quoted .plain read)
      · exact Or.inr trivial
  | unicode =>
    unfold Document.Quoted.next
    dsimp only
    split
    · next hbrace =>
      rw [eq_of_beq hbrace]
      exact Or.inl (.quoted (.braced false 0) read)
    · split
      · exact Or.inr trivial
      · split
        · next d hd =>
          rw [nextQuoted_hexDigit .unicode rfl hd]
          exact Or.inl (.quoted (.digits 1 d) read)
        · exact Or.inr trivial
  | digits count value =>
    unfold Document.Quoted.next
    dsimp only
    split
    · exact Or.inr trivial
    · split
      · next d hd =>
        rw [nextQuoted_hexDigit (.digits count value) rfl hd]
        split
        · exact alike_afterUnit read (16 * value + d)
        · exact Or.inl (.quoted (.digits (count + 1) (16 * value + d)) read)
      · exact Or.inr trivial
  | braced any value =>
    unfold Document.Quoted.next
    dsimp only
    split
    · exact Or.inr trivial
    · split
      · next hbrace =>
        rw [eq_of_beq hbrace]
        split
        · exact Or.inl (.quoted .plain read)
        · exact Or.inr trivial
      · split
        · next d hd =>
          rw [nextQuoted_hexDigit (.braced any value) rfl hd]
          exact Or.inl (.quoted (.braced true (16 * value + d)) read)
        · exact Or.inr trivial
  | half =>
    unfold Document.Quoted.next
    dsimp only
    split
    · next hslash =>
      rw [eq_of_beq hslash]
      exact Or.inl (.quoted .halfEscape read)
    · split <;> exact Or.inr trivial
  | halfEscape =>
    simp only [Document.Quoted.isEscaped, nextQuoted_escaped hline, Document.Quoted.next]
    split
    · exact Or.inl (.quoted (.halfDigits 0 0) read)
    · exact Or.inr trivial
  | halfDigits count value =>
    unfold Document.Quoted.next
    dsimp only
    split
    · exact Or.inr trivial
    · split
      · next d hd =>
        rw [nextQuoted_hexDigit (.halfDigits count value) rfl hd]
        split
        · split
          · exact Or.inl (.quoted .plain read)
          · exact Or.inr trivial
        · exact Or.inl (.quoted (.halfDigits (count + 1) (16 * value + d)) read)
      · exact Or.inr trivial

/-- Inside a block string both scanners count the same quotes. -/
theorem alike_nextBlock (b : Document.Block) (c : Char) :
    Alike (.nextBlock b.isEscaped b.quotes c) read (b.next c) read := by
  by_cases hquote : c = '"'
  · subst hquote
    cases b with
    | plain => exact .block .oneQuote read
    | oneQuote => exact .block .twoQuotes read
    | twoQuotes => exact .closed read
    | escape => exact .block .escapedOne read
    | escapedOne => exact .block .escapedTwo read
    | escapedTwo => exact .block .plain read
  by_cases hslash : c = '\\'
  · subst hslash
    cases b <;> exact .block .escape read
  · have hfragment : Fragment.ScanState.nextBlock b.isEscaped b.quotes c = .block false 0 := by
      simp [Fragment.ScanState.nextBlock, hquote, hslash]
    have hdocument : b.next c = .block .plain := by
      cases b <;> simp [Document.Block.next, Document.Block.nextPlain, hquote, hslash]
    rw [hfragment, hdocument]
    exact .block .plain read

end

/-- So does each character of a string in quotes, escaped or not. -/
theorem alike_quoted (q : Document.Quoted) (read : List Char) (c : Char) :
    Steps (.quoted q.isEscaped) read (.quoted q none) read c := by
  by_cases hline : c = '\n'
  · subst hline
    exact .astray rfl (Or.inl rfl)
  rcases alike_nextQuoted (c :: read) q hline with halike | hdoomed
  · exact .onward rfl rfl halike
  · exact .doomed rfl hdoomed

/-- So does each character of a block string, whose quotes are counted. -/
theorem alike_block (b : Document.Block) (read : List Char) (c : Char) :
    Steps (.block b.isEscaped b.quotes) read (.block b) read c :=
  .onward rfl rfl (alike_nextBlock (c :: read) b c)

section

variable (read read' : List Char) (c : Char)

theorem alike_blank : Steps .blank read .blank read' c := by
  by_cases hblank : Document.isBlank c = true
  · refine .onward (if_pos ?_) (if_pos hblank) (.blank _ _)
    rw [isBlank_fragment, hblank, Bool.true_or]
  by_cases hcomma : c = ','
  · subst hcomma
    exact .endedDocument rfl rfl (fun _ => rfl) (.comma _ _)
  · refine .ended (if_neg ?_) (if_neg hblank)
    simp [isBlank_fragment, hblank, hcomma]

theorem alike_comma : Steps .blank read .comma read' c := by
  by_cases hblank : Document.isBlank c = true
  · refine .endedDocument (if_pos ?_) rfl (fun _ => rfl) ?_
    · rw [isBlank_fragment, hblank, Bool.true_or]
    · rw [Document.ScanState.start, if_pos hblank]
      exact .blank _ _
  by_cases hcomma : c = ','
  · subst hcomma
    exact .endedDocument rfl rfl (fun _ => rfl) (.comma _ _)
  · refine .ended (if_neg ?_) rfl
    simp [isBlank_fragment, hblank, hcomma]

theorem alike_comment : Steps .comment read .comment read' c := by
  by_cases hend : Document.isLineEnd c = true
  · refine .endedDocument (if_pos hend) (if_pos hend) (fun _ => rfl) ?_
    rw [Document.ScanState.start, if_pos]
    · exact .lineEnd _ _
    · rw [Document.isLineEnd, Bool.or_eq_true] at hend
      rcases hend with hend | hend <;> simp [Document.isBlank, hend]
  · exact .onward (if_neg hend) (if_neg hend) (.comment _ _)

theorem alike_lineEnd : Steps .commentEnd read .blank read' c := by
  by_cases hblank : Document.isBlank c = true
  · refine .endedFragment rfl (if_pos hblank) (fun _ => rfl) ?_
    rw [Fragment.ScanState.start, if_pos]
    · exact .blank _ _
    · rw [isBlank_fragment, hblank, Bool.true_or]
  · exact .ended rfl (if_neg hblank)

/-- Behind an opening quote a line end is no flaw of a document, but a fragment goes astray. -/
theorem alike_quote : Steps .quote read .quote read c := by
  by_cases hquote : (c == '"') = true
  · exact .onward (if_pos hquote) (if_pos hquote) (.emptyString _)
  rw [beq_iff_eq] at hquote
  by_cases hline : c = '\n'
  · subst hline
    exact .astray rfl (Or.inl rfl)
  by_cases hslash : c = '\\'
  · subst hslash
    exact .onward rfl rfl (.quoted .escape _)
  · refine .onward ?_ ?_ (.quoted .plain _)
    · simp [Fragment.ScanState.next, hquote, nextQuoted_plain hquote hline hslash,
        Document.Quoted.isEscaped]
    · simp [Document.ScanState.next, hquote, hslash]

end

/-- **One step.**  What one more character leads to, wherever both scanners are. -/
theorem Alike.steps {st : Fragment.ScanState} {read read' : List Char} {st' : Document.ScanState}
    (h : Alike st read st' read') (c : Char) : Steps st read st' read' c := by
  cases h with
  | blank => exact alike_blank _ _ c
  | comma => exact alike_comma _ _ c
  | comment => exact alike_comment _ _ c
  | lineEnd => exact alike_lineEnd _ _ c
  | mark m => exact .ended rfl rfl
  | name =>
    by_cases hc : isNameContinue c = true
    · exact .onward (if_pos hc) (if_pos hc) (.name _)
    · exact .ended (if_neg hc) (if_neg hc)
  | oneDot =>
    by_cases hc : (c == '.') = true
    · exact .onward (if_pos hc) (if_pos hc) (.twoDots _)
    · exact .doomed (if_neg hc) trivial
  | twoDots =>
    by_cases hc : (c == '.') = true
    · exact .onward (if_pos hc) (if_pos hc) (.mark _ _)
    · exact .ended (if_neg hc) (if_neg hc)
  | number h => exact alike_number h c
  | quote => exact alike_quote _ c
  | emptyString =>
    by_cases hc : (c == '"') = true
    · exact .onward (if_pos hc) (if_pos hc) (.block .plain _)
    · exact .ended (if_neg hc) (if_neg hc)
  | quoted q => exact alike_quoted q _ c
  | block b => exact alike_block b _ c
  | closed => exact .ended rfl rfl

/-! ## Texts -/

/-- A number that is not stray is one of two tokens. -/
theorem Fragment.finish_number {cs : List Char}
    (h : ∀ m, ScanState.number.finish cs ≠ .stray m) :
    ScanState.number.finish cs =
      .token (if looksFractional cs then .float (String.ofList cs)
        else .int (String.ofList cs)) := by
  rw [ScanState.finish] at h ⊢
  cases hfractional : looksFractional cs with
  | true =>
    cases hfloat : isFloat cs with
    | true => rfl
    | false => simp [hfractional, hfloat] at h
  | false =>
    cases hwhole : isWhole cs with
    | true => rfl
    | false => simp [hfractional, hwhole] at h

/-- Where both scanners end a lexeme, it is the same token for both or for neither. -/
theorem Alike.finish {st : Fragment.ScanState} {read read' : List Char}
    {st' : Document.ScanState} (h : Alike st read st' read')
    (hstray : ∀ m, st.finish read.reverse ≠ .stray m)
    (hflaw : ∀ m, st'.finish read'.reverse ≠ .flaw m) :
    tokensIn [st.finish read.reverse] = tokensIn [st'.finish read'.reverse] := by
  cases h with
  | blank | comma | comment | lineEnd | mark | emptyString | closed => rfl
  | name =>
    unfold Fragment.ScanState.finish Document.ScanState.finish
    dsimp only
    cases hname : Name.ofText? (String.ofList read.reverse) with
    | some n => rfl
    | none =>
      refine absurd ?_ (hstray "malformed name")
      unfold Fragment.ScanState.finish
      rw [hname]
  | oneDot | twoDots | quote | quoted | block => exact absurd rfl (hstray _)
  | number h =>
    have hfractional : Fragment.looksFractional read.reverse = st'.isFractional := by
      rw [← h.fractional]
      exact List.any_reverse
    rw [Fragment.finish_number hstray, hfractional]
    -- a number that is not complete is flawed
    have hstate := h.state
    cases st' with
    | zero | digits | fraction | exponentDigits => rfl
    | minus | point | exponent | exponentSign => exact absurd rfl (hflaw _)
    | blank | comment | comma | mark | name | oneDot | twoDots | quote | emptyString | quoted
    | block | closed | flaw => cases hstate

/-- The tokens among some lexemes. -/
theorem tokensIn_cons (l : Lexeme) (ls : List Lexeme) :
    tokensIn ((l :: ls).map Lexeme.kind) =
      tokensIn [l.kind] ++ tokensIn (ls.map Lexeme.kind) := by
  rw [← tokensIn_append]
  rfl

/-- Scanners that are alike in their states find the same tokens, unless one of them meets what it
cannot read. -/
theorem Alike.tokens_scanFrom {st : Fragment.ScanState} {read read' : List Char}
    {st' : Document.ScanState} (h : Alike st read st' read') (cs : List Char)
    (hstray : ∀ l ∈ Fragment.scanner.scanFrom st read cs, ∀ m, l.kind ≠ .stray m)
    (hflaw : ∀ l ∈ Document.scanner.scanFrom st' read' cs, ∀ m, l.kind ≠ .flaw m) :
    tokensIn ((Fragment.scanner.scanFrom st read cs).map Lexeme.kind) =
      tokensIn ((Document.scanner.scanFrom st' read' cs).map Lexeme.kind) := by
  -- on the characters left: at each of them the lexemes go on or end, together or one alone
  induction cs generalizing st read st' read' with
  | nil =>
    exact h.finish (hstray _ (List.mem_singleton_self _)) (hflaw _ (List.mem_singleton_self _))
  | cons c cs ih =>
    cases h.steps c with
    | onward hnext hnext' alike =>
      rw [Scanner.scanFrom_cons_of_next Fragment.scanner hnext] at hstray ⊢
      rw [Scanner.scanFrom_cons_of_next Document.scanner hnext'] at hflaw ⊢
      exact ih alike hstray hflaw
    | ended hnext hnext' =>
      rw [Scanner.scanFrom_cons_of_end Fragment.scanner hnext, List.forall_mem_cons] at hstray
      rw [Scanner.scanFrom_cons_of_end Document.scanner hnext', List.forall_mem_cons] at hflaw
      rw [Scanner.scanFrom_cons_of_end Fragment.scanner hnext,
        Scanner.scanFrom_cons_of_end Document.scanner hnext', tokensIn_cons, tokensIn_cons]
      refine congr (congrArg _ (h.finish hstray.1 hflaw.1)) ?_
      rcases alike_start c with alike | astray
      · exact ih alike hstray.2 hflaw.2
      · obtain ⟨l, hl, m, hm⟩ := astray.exists_stray cs
        exact absurd hm (hstray.2 l hl m)
    -- a lexeme that ends alone holds no token, so it adds nothing to its side
    | endedDocument hnext hnext' void alike =>
      rw [Scanner.scanFrom_cons_of_next Fragment.scanner hnext] at hstray ⊢
      rw [Scanner.scanFrom_cons_of_end Document.scanner hnext', List.forall_mem_cons] at hflaw
      rw [Scanner.scanFrom_cons_of_end Document.scanner hnext', tokensIn_cons]
      exact (ih alike hstray hflaw.2).trans (congrArg (· ++ _) (void _)).symm
    | endedFragment hnext hnext' void alike =>
      rw [Scanner.scanFrom_cons_of_end Fragment.scanner hnext, List.forall_mem_cons] at hstray
      rw [Scanner.scanFrom_cons_of_next Document.scanner hnext'] at hflaw ⊢
      rw [Scanner.scanFrom_cons_of_end Fragment.scanner hnext, tokensIn_cons]
      exact (congrArg (· ++ _) (void _)).trans (ih alike hstray.2 hflaw)
    | astray hnext astray =>
      rw [Scanner.scanFrom_cons_of_next Fragment.scanner hnext] at hstray
      obtain ⟨l, hl, m, hm⟩ := astray.exists_stray cs
      exact absurd hm (hstray l hl m)
    | doomed hnext' doomed =>
      rw [Scanner.scanFrom_cons_of_next Document.scanner hnext'] at hflaw
      obtain ⟨l, hl, m, hm⟩ := doomed.exists_flaw (c :: read') cs
      exact absurd hm (hflaw l hl m)

/-- Whether lexemes are stray can be told from their kinds. -/
theorem forall_ne_stray {ls : List Lexeme} (h : Rule.strayCount (kindsOf ls) = 0) :
    ∀ l ∈ ls, ∀ m, l.kind ≠ .stray m := by
  intro l hl m hm
  rw [Rule.strayCount, List.countP_eq_zero] at h
  refine h l.kind ?_ ?_
  · simp only [kindsOf, List.mem_filter, List.mem_map, decide_eq_true_eq]
    exact ⟨⟨l, hl, rfl⟩, by simp [hm]⟩
  · rw [hm]

theorem forall_ne_flaw {ls : List Lexeme} (h : Rule.flawCount (kindsOf ls) = 0) :
    ∀ l ∈ ls, ∀ m, l.kind ≠ .flaw m := by
  intro l hl m hm
  rw [Rule.flawCount, List.countP_eq_zero] at h
  refine h l.kind ?_ ?_
  · simp only [kindsOf, List.mem_filter, List.mem_map, decide_eq_true_eq]
    exact ⟨⟨l, hl, rfl⟩, by simp [hm]⟩
  · rw [hm]
    rfl

/-- White space holds no tokens. -/
theorem tokensIn_kindsOf (ls : List Lexeme) :
    tokensIn (kindsOf ls) = tokensIn (ls.map Lexeme.kind) := by
  induction ls with
  | nil => rfl
  | cons l ls ih =>
    rw [kindsOf_cons, tokensIn_cons]
    split
    · next hl =>
      rw [hl, ih]
      rfl
    · rw [← ih, ← tokensIn_append]
      rfl

/-- Brackets that may be opened are left as they are. -/
theorem Fragment.limitBrackets_eq {room : Nat} {ls : List Lexeme}
    (h : ∀ l ∈ limitBrackets room ls, ∀ m, l.kind ≠ .stray m) : limitBrackets room ls = ls := by
  induction ls generalizing room with
  | nil => rfl
  | cons l ls ih =>
    rw [limitBrackets] at h ⊢
    cases hroom : roomAfter room l with
    | some rest =>
      rw [hroom, List.forall_mem_cons] at h
      exact congrArg _ (ih h.2)
    | none =>
      rw [hroom, List.forall_mem_cons] at h
      exact absurd rfl (h.1 _)

/-- **Tokens.**  In a text without stray lexemes and without flaws fragments and documents have
the same tokens. -/
theorem tokensIn_scan {cs : List Char}
    (hstray : Rule.strayCount (kindsOf (Fragment.scan cs)) = 0)
    (hflaw : Rule.flawCount (Document.kindsIn cs) = 0) :
    tokensIn (kindsOf (Fragment.scan cs)) = tokensIn (Document.kindsIn cs) := by
  have hlimit : Fragment.scan cs = Fragment.scanner.scan cs :=
    Fragment.limitBrackets_eq (forall_ne_stray hstray)
  have hstray' := forall_ne_stray hstray
  have hflaw' := forall_ne_flaw hflaw
  rw [hlimit] at hstray' ⊢
  rw [Document.kindsIn, tokensIn_kindsOf, tokensIn_kindsOf]
  cases cs with
  | nil => rfl
  | cons c cs =>
    rcases alike_start c with alike | astray
    · exact alike.tokens_scanFrom cs hstray' hflaw'
    · obtain ⟨l, hl, m, hm⟩ := astray.exists_stray cs
      exact absurd hm (hstray' l hl m)

end SchemaCatalog
