/-
# What a repair puts in

A repair puts marks between lexemes.  None of them runs into what stands before it, since
whatever ends before a name ends before such a mark as well.  So the repaired text has the
lexemes of the text, and one mark and one space more before each name that lacks a
separator.
-/
import SchemaCatalog.Catalog.Assembly
import SchemaCatalog.Proofs.Boundaries

namespace SchemaCatalog.Document

open Lexeme (Kind join)
open Rule

/-! ## What ends a lexeme -/

/-- What ends before another character than the end of a line ends before a separator. -/
theorem ScanState.next_ampersand {st : ScanState} {c : Char} (hc : isLineEnd c = false)
    (h : st.next c = none) : st.next '&' = none := by
  cases st with
  | comment =>
    unfold next at h
    rw [hc] at h
    cases h
  | oneDot | minus | point | exponent | exponentSign | quote =>
    unfold next at h
    dsimp only at h
    split_ifs at h
  | quoted | block => cases h
  | blank | comma | mark | name | twoDots | zero | digits | fraction | exponentDigits
    | emptyString | closed | flaw => rfl

/-- What ends before a separator ends before white space, unless it is white space. -/
theorem ScanState.next_space {st : ScanState} (h : st.next '&' = none) :
    st = .blank ∨ st.next ' ' = none := by
  cases st with
  | blank => exact Or.inl rfl
  | comment | oneDot | minus | point | exponent | exponentSign | quote | quoted | block => cases h
  | comma | mark | name | twoDots | zero | digits | fraction | exponentDigits | emptyString
    | closed | flaw => exact Or.inr rfl

/-- The lexeme of a name is the name. -/
theorem toList_of_finish {st : ScanState} {cs : List Char} {n : Name}
    (h : st.finish cs = .token (.name n)) : n.text.toList = cs := by
  cases st with
  | name =>
    unfold ScanState.finish at h
    dsimp only at h
    split at h
    · next m hm =>
      rw [Name.ofText?] at hm
      split at hm
      · cases hm
        cases h
        exact String.toList_ofList
      · cases hm
    · cases h
  | closed problem => cases problem <;> cases h
  | _ => cases h

/-- The lexeme of a name starts as a name does. -/
theorem isNameStart_of_finish {st : ScanState} {c : Char} {cs : List Char} {n : Name}
    (h : st.finish (c :: cs) = .token (.name n)) : isNameStart c = true := by
  have hname := n.isName_text
  rw [toList_of_finish h, isName, Bool.and_eq_true] at hname
  exact hname.1

namespace Implements

/-! ## Places in a list of interfaces -/

/-- Only before a name a separator can be missing. -/
theorem exists_name_of_lacksSeparator {p : Passed} {t : Token} (h : p.lacksSeparator t = true) :
    ∃ n, t = .name n ∧ p.place = .afterName ∧ n.text ∉ definitionWords := by
  cases t with
  | name n =>
    simp only [Passed.lacksSeparator, Bool.and_eq_true, decide_eq_true_eq] at h
    exact ⟨n, rfl, h⟩
  | mark | int | float | string => cases h

namespace Passed

variable {p : Passed} {n : Name}

/-- A separator can be missing only behind an interface of a list. -/
theorem lacksSeparator_of_place (h : p.place ≠ .afterName) (t : Token) :
    p.lacksSeparator t = false := by
  cases t with
  | name n => simp [lacksSeparator, h]
  | mark | int | float | string => rfl

/-- No separator is missing behind a mark. -/
theorem place_pass_mark (p : Passed) (m : Mark) : (p.pass (.mark m)).place ≠ .afterName := by
  cases m with
  | ampersand =>
    show (if p.place = .outside then Place.outside else .expectingName) ≠ .afterName
    split <;> simp
  | _ => exact nofun

/-- Only the separator leaves a list open. -/
theorem place_pass_of_ne_ampersand (p : Passed) {m : Mark} (hm : m ≠ .ampersand) :
    (p.pass (.mark m)).place = .outside := by
  cases m with
  | ampersand => exact absurd rfl hm
  | _ => rfl

/-- A separator is missing only behind a name. -/
theorem isName_of_place_pass {t : Token} (h : (p.pass t).place = .afterName) :
    t.isName = true := by
  cases t with
  | name => rfl
  | mark m => exact absurd h (p.place_pass_mark m)
  | int | float | string => cases h

/-- Outside a list a name leads at most to where the first interface is to come. -/
theorem place_pass_ne_of_outside (hp : p.place = .outside) :
    (p.pass (.name n)).place ≠ .afterName := by
  show p.placeAfterName n ≠ .afterName
  unfold placeAfterName
  rw [hp]
  dsimp only
  split <;> simp

/-- A list is opened by its word only, and not directly behind a mark. -/
theorem place_pass_of_outside (hp : p.place = .outside)
    (hn : n.text ≠ "implements" ∨ p.last = none) : (p.pass (.name n)).place = .outside := by
  show p.placeAfterName n = .outside
  unfold placeAfterName
  rw [hp]
  rcases hn with hn | hn
  · simp [hn]
  · simp [followsDeclaredName, hn]

/-- A word that opens a definition ends every list, and opens none. -/
theorem place_pass_definitionWord (p : Passed) (hn : n.text ∈ definitionWords) :
    (p.pass (.name n)).place = .outside := by
  have himplements : n.text ≠ "implements" := by
    intro h
    rw [h] at hn
    exact absurd hn (by decide)
  cases hp : p.place with
  | outside => exact place_pass_of_outside hp (Or.inl himplements)
  | expectingName | afterName =>
    show p.placeAfterName n = .outside
    unfold placeAfterName
    rw [hp]
    exact if_pos hn

/-- In a list an interface leads to a place where separators may be missing. -/
theorem place_pass_interface (hp : p.place ≠ .outside) (hn : n.text ∉ definitionWords) :
    (p.pass (.name n)).place = .afterName := by
  show p.placeAfterName n = .afterName
  unfold placeAfterName
  cases hplace : p.place with
  | outside => exact absurd hplace hp
  | expectingName | afterName => exact if_neg hn

/-- The word that opens a list leads into it, wherever it stands. -/
theorem place_pass_opening (hn : n.text = "implements") (hp : p.followsDeclaredName = true) :
    (p.pass (.name n)).place ≠ .outside := by
  show p.placeAfterName n ≠ .outside
  unfold placeAfterName
  rw [hn, hp]
  cases p.place <;> decide

end Passed

/-! ## Repairing kinds -/

/-- The kinds of lexemes with the missing separators put in. -/
def repairKinds (p : Passed) : List Kind → List Kind
  | [] => []
  | .token t :: ks =>
    if p.lacksSeparator t then Mark.ampersand.lexeme :: .token t :: repairKinds (p.pass t) ks
    else .token t :: repairKinds (p.pass t) ks
  | k :: ks => k :: repairKinds p ks

/-- The kinds of repaired lexemes are the repaired kinds. -/
theorem kindsOf_repairFrom (p : Passed) (ls : List Lexeme) :
    kindsOf (repairFrom p ls) = repairKinds p (kindsOf ls) := by
  induction ls generalizing p with
  | nil => rfl
  | cons l ls ih =>
    rw [repairFrom, Lexeme.token?, kindsOf_cons]
    cases hl : l.kind with
    | token t =>
      dsimp only
      rw [if_neg (show ¬Kind.token t = .blank by simp), repairKinds]
      split
      · rw [kindsOf_append, kindsOf_cons, hl, ih]
        rfl
      · simp [kindsOf_cons, hl, ih]
    | blank => simp [kindsOf_cons, hl, ih]
    | comma => simp [kindsOf_cons, hl, ih, repairKinds]
    | flaw m => simp [kindsOf_cons, hl, ih, repairKinds]
    | stray m => simp [kindsOf_cons, hl, ih, repairKinds]

/-- A repair makes no flaws. -/
theorem flawCount_repairKinds (p : Passed) (ks : List Kind) :
    flawCount (repairKinds p ks) = flawCount ks := by
  induction ks generalizing p with
  | nil => rfl
  | cons k ks ih =>
    cases k with
    | token t =>
      rw [repairKinds]
      split <;> simpa [flawCount, isFlawKind] using ih _
    | blank | comma | flaw | stray =>
      simpa [repairKinds, flawCount, List.countP_cons, isFlawKind] using ih p

/-- Whether any lexeme is a flaw can be told from the kinds. -/
theorem any_isFlaw_iff (ls : List Lexeme) :
    ls.any Lexeme.isFlaw = true ↔ flawCount (kindsOf ls) ≠ 0 := by
  induction ls with
  | nil => simp [kindsOf, flawCount]
  | cons l ls ih =>
    rw [List.any_cons, Bool.or_eq_true, ih, kindsOf_cons, Lexeme.isFlaw]
    cases hl : l.kind <;> simp [flawCount, isFlawKind]

/-! ## Repaired texts -/

/-- The start of a name is neither white space nor the end of a line. -/
theorem not_blank_of_isNameStart {c : Char} (h : isNameStart c = true) :
    isBlank c = false ∧ isLineEnd c = false := by
  have hne : ∀ d, isNameStart d = false → (c == d) = false :=
    fun d hd => beq_eq_false_iff_ne.2 (ne_of_test h hd)
  simp only [isBlank, isLineEnd, hne ' ' (by decide), hne '\t' (by decide), hne '\n' (by decide),
    hne '\r' (by decide), hne '\uFEFF' (by decide), Bool.or_false, and_self]

theorem kind_of_token? {l : Lexeme} {t : Token} (h : l.token? = some t) : l.kind = .token t := by
  rw [Lexeme.token?] at h
  split at h
  · next hl =>
    cases h
    exact hl
  · cases h

/-- Where a name lacks a separator, its lexeme starts as a name does. -/
theorem isNameStart_of_lacksSeparator {p : Passed} {st : ScanState} {c : Char} {cs : List Char}
    {t : Token} (hkind : st.finish (c :: cs) = .token t) (h : p.lacksSeparator t = true) :
    isNameStart c = true := by
  obtain ⟨n, rfl, -⟩ := exists_name_of_lacksSeparator h
  exact isNameStart_of_finish hkind

/-- What ends before a lexeme ends before it when a separator is put between them. -/
theorem stops_repairFrom {ls : List Lexeme} {rest : List Char} (h : scanner.Bounded ls rest)
    {st : ScanState} (stops : ∀ d ∈ (join ls ++ rest).head?, st.next d = none) (p : Passed) :
    ∀ d ∈ (join (repairFrom p ls) ++ rest).head?, st.next d = none := by
  cases h with
  | nil => exact stops
  | @cons c cs st' ls _ walk stops' tail =>
    rw [repairFrom]
    split
    · exact stops
    · next t ht =>
      split
      · next hlacks =>
        have hkind : ScanState.finish st' (c :: cs) = .token t := kind_of_token? ht
        have hc := not_blank_of_isNameStart (isNameStart_of_lacksSeparator hkind hlacks)
        intro d hd
        cases hd
        exact ScanState.next_ampersand hc.2 (stops c rfl)
      · exact stops

/-- A separator is a lexeme of its own, and so is the space behind it, if no white space
follows. -/
theorem bounded_separator {ls : List Lexeme} {rest : List Char} (h : scanner.Bounded ls rest)
    (hrest : ∀ d ∈ (join ls ++ rest).head?, isBlank d = false) :
    scanner.Bounded (separator ++ ls) rest := by
  have hspace : scanner.Bounded (⟨[' '], .blank⟩ :: ls) rest := by
    refine @Scanner.Bounded.cons scanner ' ' [] .blank ls rest rfl ?_ h
    intro d hd
    exact if_neg (by rw [hrest d hd]; simp)
  exact @Scanner.Bounded.cons scanner '&' [] (.mark .ampersand) _ rest rfl (fun _ _ => rfl) hspace

/-- The lexemes of a repaired text are told apart as those of the text are. -/
theorem bounded_repairFrom {ls : List Lexeme} {rest : List Char}
    (h : scanner.Bounded ls rest) (p : Passed) : scanner.Bounded (repairFrom p ls) rest := by
  induction h generalizing p with
  | nil => exact .nil _
  | @cons c cs st ls rest walk stops tail ih =>
    have hcons (q : Passed) : scanner.Bounded
        (⟨c :: cs, scanner.finish st (c :: cs)⟩ :: repairFrom q ls) rest :=
      .cons walk (stops_repairFrom tail stops q) (ih q)
    rw [repairFrom]
    split
    · exact hcons p
    · next t ht =>
      split
      · next hlacks =>
        have hkind : ScanState.finish st (c :: cs) = .token t := kind_of_token? ht
        have hc := not_blank_of_isNameStart (isNameStart_of_lacksSeparator hkind hlacks)
        refine bounded_separator (hcons _) fun d hd => ?_
        cases hd
        exact hc.1
      · exact hcons _

/-- The lexemes of a repaired text are the repaired lexemes of the text. -/
theorem scan_join_repairFrom (p : Passed) (cs : List Char) :
    scan (join (repairFrom p (scan cs))) = repairFrom p (scan cs) := by
  have h := (bounded_repairFrom (scanner.bounded_scan cs) p).scan_eq
  rwa [List.append_nil, show scanner.scan [] = [] from rfl, List.append_nil] at h

/-- The kinds of the lexemes of a repaired text. -/
theorem kindsIn_repair {text : String} (h : flawCount (kindsIn text.toList) = 0) :
    kindsIn (repair text).toList = repairKinds .nothing (kindsIn text.toList) := by
  have hflaw : ¬(scan text.toList).any Lexeme.isFlaw = true := by
    rw [any_isFlaw_iff, not_not]
    exact h
  rw [repair, if_neg hflaw, String.toList_ofList, kindsIn, scan_join_repairFrom,
    kindsOf_repairFrom, kindsIn]

/-- A text with a flaw is left as it is. -/
theorem repair_eq_of_flaw {text : String} (h : flawCount (kindsIn text.toList) ≠ 0) :
    repair text = text := by
  have hflaw : (scan text.toList).any Lexeme.isFlaw = true := (any_isFlaw_iff _).2 h
  rw [repair, if_pos hflaw]

end Implements

open Implements in
/-- A text is catalogued as its repaired kinds are read. -/
theorem definitionsOf_eq_ok_iff (text : String) (ds : List Definition) :
    Catalog.definitionsOf text = .ok ds ↔
      (document (tokenCount (repairKinds .nothing (kindsIn text.toList)))).feed
        (repairKinds .nothing (kindsIn text.toList)) = some (ds, []) := by
  rw [Catalog.definitionsOf, ofText_eq_ok_iff]
  by_cases hflaw : flawCount (kindsIn text.toList) = 0
  · rw [kindsIn_repair hflaw]
  · -- neither the text nor its repaired kinds can be read, as they hold a flaw
    rw [repair_eq_of_flaw hflaw]
    constructor
    · intro h
      exact absurd (flawCount_of_feed _ h) hflaw
    · intro h
      have := flawCount_of_feed _ h
      rw [flawCount_repairKinds] at this
      exact absurd this hflaw

end SchemaCatalog.Document
