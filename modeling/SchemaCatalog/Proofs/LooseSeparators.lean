/-
# Lists of interfaces with loose separators

An old text leaves out separators that a new one has.  Where such a separator stood, the
repair finds a name behind a name, and puts the separator in again, if not at the very same
place among commas and white space.  So both texts are read alike.
-/
import SchemaCatalog.Proofs.RepairedDocuments
import SchemaCatalog.Proofs.Catalogs

namespace SchemaCatalog

namespace Document

open Lexeme (Kind join)
open Implements Rule

/-! ## Texts with loose separators -/

/-- Tokens that lead into a list of interfaces: the head of an object or of an interface that
is being declared, and then names and separators.  None of these names opens a definition. -/
inductive LeadsIntoList : List Token → Prop where
  | opened (before : List Token) {keyword name word : Name}
      (hkeyword : keyword.text = "type" ∨ keyword.text = "interface")
      (hword : word.text = "implements") :
      LeadsIntoList (before ++ [.name keyword, .name name, .name word])
  | separator {ts : List Token} (h : LeadsIntoList ts) : LeadsIntoList (ts ++ [.mark .ampersand])
  | interface {ts : List Token} (h : LeadsIntoList ts) {n : Name}
      (hn : n.text ∉ definitionWords) : LeadsIntoList (ts ++ [.name n])

/-- The tokens among some lexemes. -/
def tokensOf (ls : List Lexeme) : List Token := ls.filterMap Lexeme.token?

/-- Behind some tokens, lexemes of which some separators are replaced by a space, each of them
between two names of a list of interfaces. -/
inductive Loosens : List Token → List Lexeme → List Lexeme → Prop where
  | nil (ts : List Token) : Loosens ts [] []
  | keep {ts : List Token} (l : Lexeme) {ls ms : List Lexeme}
      (h : Loosens (ts ++ l.token?.toList) ls ms) : Loosens ts (l :: ls) (l :: ms)
  | loosen {ts : List Token} {a b : Name} {ls ms : List Lexeme} (hlist : LeadsIntoList ts)
      (ha : a.text ∉ definitionWords) (hb : b.text ∉ definitionWords)
      (hnext : (tokensOf ls).head? = some (.name b))
      (h : Loosens (ts ++ [.name a, .mark .ampersand]) ls ms) :
      Loosens (ts ++ [.name a]) (⟨['&'], Mark.ampersand.lexeme⟩ :: ls) (⟨[' '], .blank⟩ :: ms)

/-- Whether a text comes from another one by replacing separators by spaces, some or all of
those that stand between two names of a list of interfaces. -/
def IsLooserThan (legacy modern : String) : Prop :=
  ∃ ms, Loosens [] (scan modern.toList) ms ∧ legacy = String.ofList (join ms)

/-! ## The lexemes of a looser text -/

variable {ts : List Token} {ls ms : List Lexeme}

/-- What ends a lexeme ends it in the looser text as well, unless it is white space. -/
theorem Loosens.ends (h : Loosens ts ls ms) (hls : scanner.Bounded ls []) {st : ScanState}
    (stops : ∀ d ∈ (join ls).head?, st.next d = none) :
    st = .blank ∨ ∀ d ∈ (join ms).head?, st.next d = none := by
  cases h with
  | nil => exact Or.inr stops
  | keep l h =>
    cases hls with
    | cons => exact Or.inr stops
  | loosen =>
    rcases ScanState.next_space (stops '&' rfl) with hblank | hspace
    · exact Or.inl hblank
    · right
      rintro d hd
      cases hd
      exact hspace

/-- White space that is entered spells nothing. -/
theorem kindsIn_blank {c : Char} {cs : List Char}
    (h : scanner.walk (scanner.start c) cs = some ScanState.blank) (rest : List Char) :
    kindsIn (c :: cs ++ rest) = kindsIn rest := by
  show kindsOf (scanner.scanFrom (scanner.start c) [c] (cs ++ rest)) = _
  rw [scanner.scanFrom_walk h, kindsOf_scanFrom_blank]

/-- The kinds of a looser text are those of its lexemes, although white space may run together
there. -/
theorem Loosens.kindsIn_join (h : Loosens ts ls ms) (hls : scanner.Bounded ls []) :
    kindsIn (join ms) = kindsOf ms := by
  induction h with
  | nil => rfl
  | loosen _ _ _ _ _ ih =>
    rw [kindsOf_cons, if_pos rfl, ← ih hls.tail]
    exact kindsIn_blank (c := ' ') rfl _
  | keep l h ih =>
    cases hls with
    | @cons c cs st _ _ walk stops tail =>
      rw [Lexeme.join_cons, kindsOf_cons, ← ih tail]
      rw [List.append_nil] at stops
      rcases h.ends tail stops with rfl | hends
      · exact (kindsIn_blank walk _).trans (if_pos rfl).symm
      · rw [kindsIn, scan, scanner.scan_append walk hends, kindsOf_cons]
        rfl

/-! ## Following the tokens of both texts -/

/-- What is known after some tokens. -/
def passTokens (ts : List Token) : Passed := ts.foldl Passed.pass .nothing

theorem passTokens_concat (ts : List Token) (t : Token) :
    passTokens (ts ++ [t]) = (passTokens ts).pass t := List.foldl_append

theorem LeadsIntoList.place_ne_outside (h : LeadsIntoList ts) :
    (passTokens ts).place ≠ .outside := by
  induction h with
  | @opened before keyword name word hkeyword hword =>
    have hpass : passTokens (before ++ [.name keyword, .name name, .name word]) =
        (((passTokens before).pass (.name keyword)).pass (.name name)).pass (.name word) := by
      simp [passTokens]
    rw [hpass]
    refine Passed.place_pass_opening hword ?_
    simpa [Passed.followsDeclaredName, Passed.pass, Passed.nameOf?] using hkeyword
  | separator h ih =>
    rw [passTokens_concat]
    show (if (passTokens _).place = .outside then Place.outside else .expectingName) ≠ .outside
    rw [if_neg ih]
    decide
  | interface h hn ih =>
    rw [passTokens_concat, Passed.place_pass_interface ih hn]
    decide

/-- What is known at the same place of two texts agrees, as far as it matters. -/
structure Agrees (p q : Passed) : Prop where
  place : q.place = p.place
  last : q.last = p.last
  beforeLast : p.place = .outside → q.beforeLast = p.beforeLast

theorem Agrees.lacksSeparator_eq {p q : Passed} (h : Agrees p q) (t : Token) :
    q.lacksSeparator t = p.lacksSeparator t := by
  cases t with
  | name n => rw [Passed.lacksSeparator, Passed.lacksSeparator, h.place]
  | mark | int | float | string => rfl

theorem Agrees.pass {p q : Passed} (h : Agrees p q) (t : Token) :
    Agrees (p.pass t) (q.pass t) := by
  refine ⟨?_, rfl, fun _ => h.last⟩
  cases t with
  | name n =>
    show q.placeAfterName n = p.placeAfterName n
    unfold Passed.placeAfterName
    rw [h.place]
    cases hp : p.place with
    | outside =>
      have hfollows : q.followsDeclaredName = p.followsDeclaredName := by
        rw [Passed.followsDeclaredName, h.last, h.beforeLast hp]
        rfl
      rw [hfollows]
    | expectingName | afterName => rfl
  | mark m =>
    show q.placeAfter (.mark m) = p.placeAfter (.mark m)
    cases m <;> simp only [Passed.placeAfter, h.place]
  | int | float | string => rfl

/-- A separator has been passed in one text, and stands as a space in the other one. -/
structure Pending (p q : Passed) : Prop where
  passed : p.place = .expectingName
  missing : q.place = .afterName

/-- With the next interface both texts agree again. -/
theorem Pending.pass {p q : Passed} (h : Pending p q) {b : Name} (hb : b.text ∉ definitionWords) :
    Agrees (p.pass (.name b)) (q.pass (.name b)) := by
  have hp : (p.pass (.name b)).place = .afterName :=
    Passed.place_pass_interface (by rw [h.passed]; exact nofun) hb
  have hq : (q.pass (.name b)).place = .afterName :=
    Passed.place_pass_interface (by rw [h.missing]; exact nofun) hb
  refine ⟨hq.trans hp.symm, rfl, fun hplace => ?_⟩
  rw [hp] at hplace
  cases hplace

/-! ## The repaired kinds of both texts -/

theorem SeesAs.refl (ks : List Kind) : SeesAs ks ks := Or.inl rfl

/-- A separator does not care for commas behind it. -/
theorem Similar.comma_behind_separator {ks ls : List Kind}
    (h : Similar (Mark.ampersand.lexeme :: ks) ls) :
    Similar (Mark.ampersand.lexeme :: .comma :: ks) ls := by
  generalize hks : Mark.ampersand.lexeme :: ks = ks' at h
  induction h with
  | nil => cases hks
  | commaLeft => cases hks
  | commaRight _ ih => exact .commaRight (ih hks)
  | token t h _ =>
    cases hks
    exact .token _ (.commaLeft h) fun hne => absurd rfl hne

/-- The repaired kinds of both texts are similar from a place on, as they are seen from before
it. -/
def SimilarAs (ks ls : List Kind) : Prop := Similar ks ls ∧ SeesAs ks ls

theorem SimilarAs.token {ks ls : List Kind} (h : SimilarAs ks ls) (t : Token) :
    SimilarAs (.token t :: ks) (.token t :: ls) :=
  ⟨.token t h.1 fun _ => h.2, Or.inl rfl⟩

/-- A token that both texts have, at a place where they agree. -/
theorem Agrees.similarAs {p q : Passed} (h : Agrees p q) {t : Token} {ks ls : List Kind}
    (hks : SimilarAs (repairKinds (p.pass t) ks) (repairKinds (q.pass t) ls)) :
    SimilarAs (repairKinds p (.token t :: ks)) (repairKinds q (.token t :: ls)) := by
  rw [repairKinds, repairKinds, h.lacksSeparator_eq]
  split
  · exact (hks.token t).token _
  · exact hks.token t

/-- The interface behind a separator that stands as a space in the other text. -/
theorem Pending.similarAs {p q : Passed} (h : Pending p q) {b : Name}
    (hb : b.text ∉ definitionWords) {ks ls : List Kind}
    (hks : SimilarAs (repairKinds (p.pass (.name b)) ks) (repairKinds (q.pass (.name b)) ls)) :
    SimilarAs (Mark.ampersand.lexeme :: repairKinds p (b.lexeme :: ks))
      (repairKinds q (b.lexeme :: ls)) := by
  have hp : p.lacksSeparator (.name b) = false := by
    simp [Passed.lacksSeparator, h.passed]
  have hq : q.lacksSeparator (.name b) = true := by
    simp [Passed.lacksSeparator, h.missing, hb]
  rw [repairKinds, repairKinds, hp, hq]
  exact (hks.token _).token _

/-- How the repaired kinds of some lexemes and of looser ones compare: the repairs are alike
where what is known agrees, and also where a separator has been passed in one text only, if an
interface comes next. -/
structure RepairsAlike (p : Passed) (ls ms : List Lexeme) : Prop where
  agreeing : ∀ q, Agrees p q →
    SimilarAs (repairKinds p (kindsOf ls)) (repairKinds q (kindsOf ms))
  pending : ∀ q, Pending p q → ∀ b : Name, (tokensOf ls).head? = some (.name b) →
    b.text ∉ definitionWords →
      SimilarAs (Mark.ampersand.lexeme :: repairKinds p (kindsOf ls)) (repairKinds q (kindsOf ms))

theorem tokensOf_cons (l : Lexeme) (ls : List Lexeme) :
    tokensOf (l :: ls) = l.token?.toList ++ tokensOf ls := by
  rw [tokensOf, List.filterMap_cons]
  cases l.token? <;> rfl

namespace RepairsAlike

variable {p : Passed} {l : Lexeme}

theorem nil (p : Passed) : RepairsAlike p [] [] where
  agreeing _ _ := ⟨.nil, .refl _⟩
  pending _ _ b hb := by cases hb

theorem blank (h : RepairsAlike p ls ms) (hl : l.kind = .blank) :
    RepairsAlike p (l :: ls) (l :: ms) := by
  have hkinds (ks : List Lexeme) : kindsOf (l :: ks) = kindsOf ks := by
    rw [kindsOf_cons, if_pos hl]
  have htokens : tokensOf (l :: ls) = tokensOf ls := by
    rw [tokensOf_cons, Lexeme.token?, hl]
    rfl
  constructor
  · simpa only [hkinds] using h.agreeing
  · simpa only [hkinds, htokens] using h.pending

theorem comma (h : RepairsAlike p ls ms) (hl : l.kind = .comma) :
    RepairsAlike p (l :: ls) (l :: ms) := by
  have hkinds (ks : List Lexeme) : kindsOf (l :: ks) = .comma :: kindsOf ks := by
    rw [kindsOf_cons, hl]
    rfl
  have htokens : tokensOf (l :: ls) = tokensOf ls := by
    rw [tokensOf_cons, Lexeme.token?, hl]
    rfl
  constructor
  · intro q hq
    rw [hkinds, hkinds]
    exact ⟨.commaLeft (.commaRight (h.agreeing q hq).1), Or.inl rfl⟩
  · intro q hq b hb hn
    rw [htokens] at hb
    rw [hkinds, hkinds]
    have hsim := (h.pending q hq b hb hn).1
    exact ⟨.commaRight hsim.comma_behind_separator, Or.inr ⟨rfl, rfl⟩⟩

theorem token {t : Token} (h : RepairsAlike (p.pass t) ls ms) (hl : l.kind = .token t) :
    RepairsAlike p (l :: ls) (l :: ms) := by
  have hkinds (ks : List Lexeme) : kindsOf (l :: ks) = .token t :: kindsOf ks := by
    rw [kindsOf_cons, hl]
    rfl
  have htokens : tokensOf (l :: ls) = t :: tokensOf ls := by
    rw [tokensOf_cons, Lexeme.token?, hl]
    rfl
  constructor
  · intro q hq
    rw [hkinds, hkinds]
    exact hq.similarAs (h.agreeing _ (hq.pass t))
  · intro q hq b hb hn
    rw [htokens] at hb
    obtain rfl : t = .name b := Option.some.inj hb
    rw [hkinds, hkinds]
    exact hq.similarAs hn (h.agreeing _ (hq.pass hn))

/-- Where a separator is replaced, it is pending until the next interface comes. -/
theorem loosen (h : RepairsAlike (p.pass (.mark .ampersand)) ls ms) (hp : p.place = .afterName)
    {b : Name} (hnext : (tokensOf ls).head? = some (.name b)) (hb : b.text ∉ definitionWords) :
    RepairsAlike p (⟨['&'], Mark.ampersand.lexeme⟩ :: ls) (⟨[' '], .blank⟩ :: ms) where
  agreeing q hq := by
    refine h.pending q ⟨?_, hq.place.trans hp⟩ b hnext hb
    show (if p.place = .outside then Place.outside else .expectingName) = .expectingName
    rw [hp]
    rfl
  pending _ _ b' hb' := by cases hb'

end RepairsAlike

/-- **Repairs.**  A repair leaves similar kinds of a text and of a looser one. -/
theorem Loosens.repairsAlike (h : Loosens ts ls ms) (hls : IsClean (kindsOf ls)) :
    RepairsAlike (passTokens ts) ls ms := by
  induction h with
  | nil ts => exact .nil (passTokens ts)
  | @loosen ts a b ls ms hlist ha hb hnext h ih =>
    -- the only place for a missing separator: the name just passed is an interface
    have hplace : (passTokens (ts ++ [.name a])).place = .afterName := by
      rw [passTokens_concat]
      exact Passed.place_pass_interface hlist.place_ne_outside ha
    have hpast : passTokens (ts ++ [.name a, .mark .ampersand]) =
        (passTokens (ts ++ [.name a])).pass (.mark .ampersand) := by
      simp [passTokens]
    rw [kindsOf_cons, if_neg nofun] at hls
    cases hls with
    | token _ hls => exact (hpast ▸ ih hls).loosen hplace hnext hb
  | @keep ts l ls ms h ih =>
    rw [kindsOf_cons] at hls
    rw [Lexeme.token?] at ih
    cases hkind : l.kind with
    | blank =>
      simp only [hkind, if_true, Option.toList_none, List.append_nil] at hls ih
      exact (ih hls).blank hkind
    | comma =>
      simp only [hkind, reduceCtorEq, if_false, Option.toList_none, List.append_nil] at hls ih
      cases hls with
      | comma hls => exact (ih hls).comma hkind
    | token t =>
      simp only [hkind, reduceCtorEq, if_false, Option.toList_some] at hls ih
      rw [passTokens_concat] at ih
      cases hls with
      | token _ hls => exact (ih hls).token hkind
    | flaw m =>
      rw [hkind] at hls
      cases hls
    | stray m =>
      rw [hkind] at hls
      cases hls

/-! ## Reading a looser text -/

/-- What is read of a text is read of a looser one. -/
theorem definitionsOf_of_isLooserThan {legacy modern : String} (h : IsLooserThan legacy modern)
    {ds : List Definition} (hds : Catalog.definitionsOf modern = .ok ds) :
    Catalog.definitionsOf legacy = .ok ds := by
  obtain ⟨ms, hloose, rfl⟩ := h
  rw [definitionsOf_eq_ok_iff] at hds ⊢
  rw [String.toList_ofList, hloose.kindsIn_join (scanner.bounded_scan _)]
  have hclean : IsClean (kindsIn modern.toList) := by
    refine isClean_kindsIn ?_
    rw [← flawCount_repairKinds .nothing]
    exact flawCount_of_feed _ hds
  have hsim : Similar (repairKinds .nothing (kindsIn modern.toList))
      (repairKinds .nothing (kindsOf ms)) :=
    ((hloose.repairsAlike hclean).agreeing .nothing ⟨rfl, rfl, fun _ => rfl⟩).1
  rw [hsim.tokenCount_eq] at hds
  obtain ⟨ks, ls, hks, hls, hhere⟩ := hsim.settle
  obtain ⟨ks', hks', -, hcount, -⟩ := hsim.isClean.settle
  cases hks.symm.trans hks'
  have hfuel : tokenCount ks ≤ tokenCount (repairKinds .nothing (kindsOf ms)) :=
    Nat.le_of_eq (hcount.trans hsim.tokenCount_eq)
  rw [feed, hks, Option.bind_some] at hds
  rw [feed, hls, Option.bind_some]
  exact (lockstep_document hfuel hfuel).run_similar (Stand.describes_start ks) hhere hds

end Document

/-- **The old syntax means the new one.**  A text from which some separators of its lists of
interfaces are taken out, each of them between two names, is catalogued as the text itself
is. -/
theorem catalog_of_isLooserThan {legacy modern : String}
    (hloose : Document.IsLooserThan legacy modern) {c : Catalog}
    (h : (Source.text modern).catalog = .ok c) : (Source.text legacy).catalog = .ok c := by
  obtain ⟨text, ds, htext, hds, hc⟩ := Source.catalog_eq_ok h
  cases htext
  have hlegacy := Document.definitionsOf_of_isLooserThan hloose hds
  rw [Source.catalog_eq rfl hlegacy, hc]
  rfl

/-- One separator of two is taken out. -/
theorem catalog_of_isLooserThan_one_of_two :
    let t : TypeEntry := ⟨.definition .object, none, [], [], [], ["A", "B", "C"]⟩
    let c : Catalog := ⟨⟨[("T", t)], by decide⟩, [], none⟩
    Document.IsLooserThan "type T implements A&B C" "type T implements A&B&C" ∧
      (Source.text "type T implements A&B&C").catalog = .ok c ∧
      (Source.text "type T implements A&B C").catalog = .ok c := by
  intro t c
  let a : Name := ⟨"A", by decide⟩
  let b : Name := ⟨"B", by decide⟩
  let d : Name := ⟨"C", by decide⟩
  let keyword : Name := ⟨"type", by decide⟩
  let name : Name := ⟨"T", by decide⟩
  let word : Name := ⟨"implements", by decide⟩
  let space : Lexeme := ⟨[' '], .blank⟩
  let separator : Lexeme := ⟨['&'], Mark.ampersand.lexeme⟩
  let head : List Lexeme := [⟨['t', 'y', 'p', 'e'], keyword.lexeme⟩, space, ⟨['T'], name.lexeme⟩,
    space, ⟨['i', 'm', 'p', 'l', 'e', 'm', 'e', 'n', 't', 's'], word.lexeme⟩, space,
    ⟨['A'], a.lexeme⟩, separator, ⟨['B'], b.lexeme⟩]
  have hloose : Document.IsLooserThan "type T implements A&B C" "type T implements A&B&C" := by
    refine ⟨head ++ [space, ⟨['C'], d.lexeme⟩], ?_, by decide⟩
    have hscan : Document.scan "type T implements A&B&C".toList =
        head ++ [separator, ⟨['C'], d.lexeme⟩] := by rfl
    rw [hscan]
    have hlist : Document.LeadsIntoList
        [.name keyword, .name name, .name word, .name a, .mark .ampersand] :=
      .separator (.interface (.opened [] (Or.inl rfl) rfl) (by decide))
    have hend : Document.Loosens
        ([.name keyword, .name name, .name word, .name a, .mark .ampersand] ++ [.name b])
        [separator, ⟨['C'], d.lexeme⟩] [space, ⟨['C'], d.lexeme⟩] :=
      .loosen hlist (by decide) (b := d) (by decide) rfl (.keep _ (.nil _))
    exact .keep _ (.keep _ (.keep _ (.keep _ (.keep _ (.keep _ (.keep _ (.keep _ (.keep _
      hend))))))))
  have hmodern : (Source.text "type T implements A&B&C").catalog = .ok c := by rfl
  exact ⟨hloose, hmodern, catalog_of_isLooserThan hloose hmodern⟩

end SchemaCatalog
