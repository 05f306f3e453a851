/-
# Texts with flaws

A rule takes every token that it passes, and whoever takes a token comes by all that stands
before the next one.  So no reading gets past a lexeme that the language does not have: it
stops there, or at a token before it.  Looking past the current token overlooks such a lexeme
but does not move on.  A repair leaves a text with a flaw alone, and the place that is reported
is one of the text as it was given.
-/
import SchemaCatalog.Proofs.Insertions

namespace SchemaCatalog

/-! ## Lexemes up to a flaw -/

/-- Lexemes with a first one that the language does not have: those before it, its message, and
the lexemes from it on. -/
structure FirstFlaw (ls good : List Lexeme) (message : String) (flawed : List Lexeme) : Prop where
  eq_append : ls = good ++ flawed
  forall_good : ∀ l ∈ good, l.isFlaw = false
  exists_head : ∃ bad rest, flawed = bad :: rest ∧ bad.kind = .flaw message

/-- Among lexemes with a flaw there is a first one. -/
theorem exists_firstFlaw {ls : List Lexeme} (h : ls.any Lexeme.isFlaw = true) :
    ∃ good message flawed, FirstFlaw ls good message flawed := by
  obtain ⟨bad, hfind⟩ := Option.isSome_iff_exists.1 (List.find?_isSome.2 (List.any_eq_true.1 h))
  obtain ⟨hbad, good, rest, rfl, hgood⟩ := List.find?_eq_some_iff_append.1 hfind
  cases hkind : bad.kind with
  | flaw message =>
    exact ⟨good, message, bad :: rest, rfl, by simpa using hgood, bad, rest, rfl, hkind⟩
  | blank | comma | token | stray =>
    rw [Lexeme.isFlaw, hkind] at hbad
    cases hbad

namespace Rule

variable {ε α : Type} {good flawed : List Lexeme} {message : String}

/-! ## Reading up to a flaw -/

/-- Some lexemes lead from a token to the flaw. -/
def LeadsToFlaw (good flawed ahead : List Lexeme) : Prop :=
  ∃ l after, l :: after <:+ good ∧ l.kind ≠ .blank ∧ l.kind ≠ .comma ∧
    ahead = (l :: after) ++ flawed

/-- A reading stopped at the flaw, or at a lexeme before it. -/
def StopsBy (good : List Lexeme) (message : String) (flawed : List Lexeme) (e : Failure ε) :
    Prop :=
  e = ⟨.flaw message, flawed⟩ ∨ LeadsToFlaw good flawed e.ahead

/-- Whoever moves on finds something before the flaw, or the flaw. -/
theorem settle_firstFlaw {ls : List Lexeme} (h : FirstFlaw ls good message flawed) :
    match (settle ls : Except (Failure ε) (List Lexeme)) with
    | .ok ahead => LeadsToFlaw good flawed ahead
    | .error e => e = ⟨.flaw message, flawed⟩ := by
  obtain ⟨rfl, hgood, bad, rest, rfl, hbad⟩ := h
  induction good with
  | nil => simp [settle, hbad]
  | cons l good ih =>
    have hfurther : ∀ ahead, LeadsToFlaw good (bad :: rest) ahead →
        LeadsToFlaw (l :: good) (bad :: rest) ahead :=
      fun ahead ⟨t, after, hsuffix, ht⟩ => ⟨t, after, hsuffix.trans (List.suffix_cons l good), ht⟩
    have ih := ih fun m hm => hgood m (List.mem_cons_of_mem l hm)
    have hl := hgood l List.mem_cons_self
    rw [List.cons_append, settle.eq_def]
    cases hkind : l.kind with
    | blank | comma =>
      simp only [hkind]
      split at ih
      · next h => simpa only [h] using hfurther _ ih
      · next h => simpa only [h] using ih
    | token t | stray m =>
      simp only [hkind]
      exact ⟨l, good, List.suffix_refl _, by simp [hkind], by simp [hkind], rfl⟩
    | flaw m =>
      rw [Lexeme.isFlaw, hkind] at hl
      cases hl

/-- What lies behind a token before the flaw leads to the flaw, too. -/
theorem firstFlaw_tail {ls ahead : List Lexeme} (h : FirstFlaw ls good message flawed)
    (hahead : LeadsToFlaw good flawed ahead) :
    ∃ after, after <:+ good ∧ FirstFlaw ahead.tail after message flawed := by
  obtain ⟨l, after, hsuffix, -, -, rfl⟩ := hahead
  have hafter := (List.suffix_cons l after).trans hsuffix
  exact ⟨after, hafter, rfl, fun m hm => h.forall_good m (hafter.subset hm), h.exists_head⟩

/-- **Running up to a flaw.**  A rule that comes to its end before a flaw leaves the flaw ahead,
and one that fails stops at the flaw or before it. -/
theorem run_firstFlaw {ls ahead : List Lexeme} (h : FirstFlaw ls good message flawed)
    (r : Rule ε α) (hahead : LeadsToFlaw good flawed ahead) :
    match r.run ahead with
    | .ok (_, rest) => LeadsToFlaw good flawed rest
    | .error e => StopsBy good message flawed e := by
  -- only taking a token moves on, and whoever moves on settles
  induction r generalizing ahead with
  | done a => exact hahead
  | fail complaint => exact Or.inr hahead
  | look k ih => exact ih _ hahead
  | lookPast k ih => exact ih _ hahead
  | take k ih =>
    obtain ⟨after, hsuffix, htail⟩ := firstFlaw_tail h hahead
    have hsettle := settle_firstFlaw (ε := ε) htail
    rw [run]
    cases hrest : settle (ε := ε) ahead.tail with
    | ok rest =>
      rw [hrest] at hsettle
      obtain ⟨l, behind, hbehind, hl⟩ := hsettle
      exact ih ⟨l, behind, hbehind.trans hsuffix, hl⟩
    | error e =>
      rw [hrest] at hsettle
      exact Or.inl hsettle

/-- **Reading up to a flaw.**  No reading succeeds on lexemes with a flaw. -/
theorem read_firstFlaw {ls : List Lexeme} (h : FirstFlaw ls good message flawed) (r : Rule ε α) :
    ∃ e, r.read ls = .error e ∧ StopsBy good message flawed e := by
  have hsettle := settle_firstFlaw (ε := ε) h
  rw [read]
  cases hahead : settle (ε := ε) ls with
  | error e =>
    rw [hahead] at hsettle
    exact ⟨e, rfl, Or.inl hsettle⟩
  | ok ahead =>
    rw [hahead] at hsettle
    have hrun := run_firstFlaw h r hsettle
    cases hresult : r.run ahead with
    | error e =>
      rw [hresult] at hrun
      exact ⟨e, by simp only [hresult], hrun⟩
    | ok result =>
      obtain ⟨a, rest⟩ := result
      rw [hresult] at hrun
      obtain ⟨l, after, hsuffix, hblank, hcomma, rfl⟩ := hrun
      refine ⟨⟨.surplus, l :: (after ++ flawed)⟩, ?_,
        Or.inr ⟨l, after, hsuffix, hblank, hcomma, rfl⟩⟩
      simp only [hresult, List.cons_append]

end Rule

namespace Document

open Implements

/-! ## Documents with flaws -/

/-- The lexemes before a token of a text, and the offset at which it stands. -/
theorem ofFailure_offset (passed ahead : List Lexeme) (cause : Rule.Cause String) :
    (SyntaxError.ofFailure (passed ++ ahead) ⟨cause, ahead⟩).offset = Lexeme.byteSize passed := by
  show Lexeme.byteSize (passed ++ ahead) - Lexeme.byteSize ahead = _
  rw [Lexeme.byteSize_append, Nat.add_sub_cancel]

/-- An error is reported at the first flaw of a text, or at a token before it. -/
def SyntaxError.IsDueTo (e : SyntaxError) (good : List Lexeme) (message : String) : Prop :=
  e = ⟨Lexeme.byteSize good, message⟩ ∨
    ∃ passed l after, good = passed ++ l :: after ∧ l.isToken = true ∧
      e.offset = Lexeme.byteSize passed

/-- A text with a flaw is refused because of the flaw or before it. -/
theorem exists_ofText_error {text : String} {good flawed : List Lexeme} {message : String}
    (h : FirstFlaw (scan text.toList) good message flawed) :
    ∃ e, ofText text = .error e ∧ e.IsDueTo good message := by
  obtain ⟨failure, hread, hstops⟩ := Rule.read_firstFlaw h
    (document ((scan text.toList).countP Lexeme.isToken))
  refine ⟨.ofFailure (scan text.toList) failure, by simp only [ofText, ofLexemes, hread], ?_⟩
  rcases hstops with rfl | ⟨l, after, ⟨passed, rfl⟩, hblank, hcomma, hahead⟩
  · left
    rw [h.eq_append]
    exact congrArg (SyntaxError.mk · message) (ofFailure_offset good flawed (.flaw message))
  · right
    have hl : l ∈ scan text.toList := by
      rw [h.eq_append]
      simp
    have htoken : l.isToken = true := by
      have hgood := h.forall_good l (by simp)
      rw [Lexeme.isFlaw] at hgood
      have hstray := kind_ne_stray (scanner.bounded_scan text.toList) l hl
      rw [Lexeme.isToken]
      cases hkind : l.kind <;> simp_all
    refine ⟨passed, l, after, rfl, htoken, ?_⟩
    obtain ⟨cause, ahead⟩ := failure
    obtain rfl : ahead = l :: after ++ flawed := hahead
    rw [h.eq_append, List.append_assoc]
    exact ofFailure_offset passed _ cause

end Document

open Document Implements

/-- **Texts with flaws.**  A text with a lexeme that the language does not have is refused as it
stands, whatever source it comes from: no separator is put in, and the error that is reported
stands at the first such lexeme or at a token before it.  Where there is a catalog, the text had
no flaw and all separators that it lacked are put in. -/
theorem Catalog.ofText_of_flaw (text : String) :
    ((scan text.toList).any Lexeme.isFlaw = true →
      repair text = text ∧ Implements.log text = [] ∧
      ∃ e, (∀ s : Source, s.toText = .ok text → s.catalog = .error (.parsing e)) ∧
        Document.ofText text = .error e ∧
        ∃ good message flawed, FirstFlaw (scan text.toList) good message flawed ∧
          e.IsDueTo good message) ∧
    ∀ (s : Source) c, s.toText = .ok text → s.catalog = .ok c →
      (scan text.toList).any Lexeme.isFlaw = false ∧
      scan (repair text).toList = repairFrom .nothing (scan text.toList) ∧
      missing (repair text) = 0 := by
  have hrefused : (scan text.toList).any Lexeme.isFlaw = true →
      ∃ e, (∀ s : Source, s.toText = .ok text → s.catalog = .error (.parsing e)) ∧
        Document.ofText text = .error e ∧
        ∃ good message flawed, FirstFlaw (scan text.toList) good message flawed ∧
          e.IsDueTo good message := by
    intro hflaw
    obtain ⟨good, message, flawed, hfirst⟩ := exists_firstFlaw hflaw
    obtain ⟨e, he, hdue⟩ := exists_ofText_error hfirst
    have hrepair : repair text = text := if_pos hflaw
    refine ⟨e, fun s hs => ?_, he, good, message, flawed, hfirst, hdue⟩
    simp only [Source.catalog, hs, Attempt.bind_eq, Attempt.ok_bind, Catalog.ofText, definitionsOf,
      hrepair, he]
    rfl
  refine ⟨fun hflaw => ⟨if_pos hflaw, ?_, hrefused hflaw⟩, fun s c hs hc => ?_⟩
  · have hmissing : missing text = 0 := if_pos hflaw
    simp only [Implements.log, hmissing, if_pos]
  · have hflaw : ¬(scan text.toList).any Lexeme.isFlaw = true := by
      intro hflaw
      obtain ⟨e, hs', -⟩ := hrefused hflaw
      cases hc.symm.trans (hs' s hs)
    refine ⟨Bool.eq_false_iff.2 hflaw, scan_repair hflaw, ?_⟩
    rw [missing, if_neg (by rwa [any_isFlaw_repair]), scan_repair hflaw]
    exact missingFrom_repairFrom (.refl .nothing) _

/-- Behind an old list of interfaces stands a character that is no lexeme: the list is not
repaired, and the second interface is refused before the character is met. -/
theorem Catalog.ofText_of_flaw_of_question_mark :
    (scan "type T implements A B ?".toList).any Lexeme.isFlaw = true ∧
      repair "type T implements A B ?" = "type T implements A B ?" ∧
      missing "type T implements A B" = 1 ∧
      (Source.text "type T implements A B ?").catalog =
        .error (.parsing ⟨20, "expected definition"⟩) := by
  have hflaw : (scan "type T implements A B ?".toList).any Lexeme.isFlaw = true := by
    decide +kernel
  obtain ⟨hrepair, -, e, hrefused, he, -⟩ := (Catalog.ofText_of_flaw _).1 hflaw
  have herror : Document.ofText "type T implements A B ?" =
      .error ⟨20, "expected definition"⟩ := by rfl
  cases he.symm.trans herror
  exact ⟨hflaw, hrepair, by decide +kernel, hrefused _ rfl⟩

end SchemaCatalog
