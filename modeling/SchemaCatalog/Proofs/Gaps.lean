/-
# Gaps inside and outside brackets

A gap is a place where a repair puts in a separator.  In a document that can be read all
separators stand outside brackets, and so do the gaps of a text that can be read once it is
repaired.  Parts of a text that stand between brackets, or begin with a mark, have no gaps
anywhere else.
-/
import SchemaCatalog.Proofs.RepairedDocuments

namespace SchemaCatalog.Document

open Lexeme (Kind)
open Implements Rule

/-! ## Following kinds -/

namespace Spot

/-- The place behind one more lexeme. -/
def passKind (s : Spot) : Kind → Spot
  | .token t => s.pass t
  | _ => s

/-- The place behind some lexemes. -/
def passKinds (s : Spot) (ks : List Kind) : Spot := ks.foldl passKind s

/-- Lexemes are passed one after the other. -/
theorem passKinds_append (s : Spot) (ks ls : List Kind) :
    s.passKinds (ks ++ ls) = (s.passKinds ks).passKinds ls := List.foldl_append

@[simp] theorem passKinds_token (s : Spot) (t : Token) (ks : List Kind) :
    s.passKinds (.token t :: ks) = (s.pass t).passKinds ks := rfl

end Spot

/-- Whether all gaps among some kinds lie inside so many brackets as a condition allows. -/
def Gaps (P : Nat → Prop) (s : Spot) : List Kind → Prop
  | [] => True
  | .token t :: ks => (s.passed.lacksSeparator t = true → P s.depth) ∧ Gaps P (s.pass t) ks
  | _ :: ks => Gaps P s ks

/-- All gaps are outside brackets. -/
abbrev GapsOutside (s : Spot) (ks : List Kind) : Prop := Gaps (· = 0) s ks

/-- All gaps are inside brackets. -/
abbrev GapsInside (s : Spot) (ks : List Kind) : Prop := Gaps (0 < ·) s ks

section

variable {P Q R : Nat → Prop} {s : Spot} {ks ls : List Kind}

/-- The gaps of two parts are those of the first and those of the second behind it. -/
theorem gaps_append : Gaps P s (ks ++ ls) ↔ Gaps P s ks ∧ Gaps P (s.passKinds ks) ls := by
  induction ks generalizing s with
  | nil => exact ⟨fun h => ⟨trivial, h⟩, fun h => h.2⟩
  | cons k ks ih =>
    cases k with
    | token t => exact (and_congr_right fun _ => ih).trans and_assoc.symm
    | blank | comma | flaw | stray => exact ih

/-- What is known of all gaps can be put together. -/
theorem Gaps.and (h : Gaps P s ks) (h' : Gaps Q s ks) (hR : ∀ n, P n → Q n → R n) :
    Gaps R s ks := by
  induction ks generalizing s with
  | nil => trivial
  | cons k ks ih =>
    cases k with
    | token t => exact ⟨fun ht => hR _ (h.1 ht) (h'.1 ht), ih h.2 h'.2⟩
    | blank | comma | flaw | stray => exact ih h h'

/-- Kinds without gaps are not changed by a repair. -/
theorem repairKinds_of_noGaps (h : Gaps (fun _ => False) s ks) :
    repairKinds s.passed ks = ks := by
  induction ks generalizing s with
  | nil => rfl
  | cons k ks ih =>
    cases k with
    | token t =>
      rw [repairKinds, if_neg h.1]
      exact congrArg _ (ih h.2)
    | blank | comma | flaw | stray => exact congrArg _ (ih h)

/-- Gaps that are neither inside nor outside brackets are nowhere. -/
theorem repairKinds_of_gaps (hinside : GapsInside s ks) (houtside : GapsOutside s ks) :
    repairKinds s.passed ks = ks :=
  repairKinds_of_noGaps (hinside.and houtside fun _ hpos hzero => Nat.ne_of_gt hpos hzero)

/-- Two parts are repaired one after the other. -/
theorem repairKinds_append (s : Spot) (ks ls : List Kind) :
    repairKinds s.passed (ks ++ ls) =
      repairKinds s.passed ks ++ repairKinds (s.passKinds ks).passed ls := by
  induction ks generalizing s with
  | nil => rfl
  | cons k ks ih =>
    cases k with
    | token t =>
      have htail : repairKinds (s.passed.pass t) (ks ++ ls) =
          repairKinds (s.passed.pass t) ks ++
            repairKinds (s.passKinds (.token t :: ks)).passed ls := ih (s.pass t)
      rw [List.cons_append, repairKinds, repairKinds, htail]
      split <;> rfl
    | blank | comma | flaw | stray => exact congrArg _ (ih s)

end

/-! ## Separators in documents -/

/-- Whether all separators among some kinds stand outside brackets. -/
def SeparatorsOutside (depth : Nat) : List Kind → Prop
  | [] => True
  | .token t :: ks =>
    (t = .mark .ampersand → depth = 0) ∧ SeparatorsOutside (Spot.depthAfter depth t) ks
  | _ :: ks => SeparatorsOutside depth ks

/-- The commas in front are no separators, so it is enough to look at what is left without them.
-/
theorem IsClean.separatorsOutside_settle {ks rest : List Kind} (h : IsClean ks)
    (hsettle : settleKinds ks = some rest) (depth : Nat) :
    SeparatorsOutside depth ks ↔ SeparatorsOutside depth rest := by
  induction h with
  | nil =>
    cases hsettle
    rfl
  | comma _ ih => exact ih hsettle
  | token t =>
    cases hsettle
    rfl

/-- A rule that goes in lockstep with any other takes separators only outside brackets. -/
theorem Lockstep.separatorsOutside {α : Type} {Q : α → Stand → Prop} {r r' : Production α}
    {σ : Stand} (h : Lockstep Q r r' σ) {ks : List Kind} (hclean : IsClean ks)
    (hsettled : settleKinds ks = some ks) (hσ : σ.Describes ks)
    (hguard : σ.guard ≠ .mark → σ.depth = 0) {a : α} (hrun : r.runKinds ks = some (a, [])) :
    SeparatorsOutside σ.depth ks := by
  induction r generalizing r' σ ks with
  | done b =>
    cases hrun
    trivial
  | fail m => cases hrun
  | look go ih =>
    rw [runKinds, ← hσ.current] at hrun
    exact ih _ h hclean hsettled hσ hguard hrun
  | lookPast go ih =>
    obtain ⟨go', -, -, -, hgo⟩ := h
    rcases hclean.cases_of_settled hsettled with rfl | ⟨t, tl, rfl, -⟩
    · trivial
    · rw [runKinds, List.tail_cons] at hrun
      exact ih _ (hgo (kindPast tl)) hclean hsettled hσ.glance hguard hrun
  | take go ih =>
    obtain ⟨go', -, hgo⟩ := h
    rcases hclean.cases_of_settled hsettled with rfl | ⟨t, tl, rfl, htl⟩
    · trivial
    · rw [hσ.current] at hgo
      obtain ⟨hmay, g, hkeeps, hnext⟩ := hgo
      obtain ⟨rest, hsettle, hrest, -, hcases⟩ := htl.settle
      obtain ⟨hallows, hdescribes⟩ := hσ.past htl hsettle g
      have hrest' : settleKinds rest = some rest := by
        rcases hcases with rfl | ⟨u, tl', rfl⟩ <;> rfl
      rw [runKinds, List.tail_cons, hsettle] at hrun
      refine ⟨fun ht => hguard fun hmark => ?_, ?_⟩
      · unfold Stand.MayTake at hmay
        rw [hmark] at hmay
        exact hmay.1 ht
      · rw [htl.separatorsOutside_settle hsettle]
        exact ih (hnext _ hallows) hrest hrest' hdescribes hkeeps.depth_eq hrun

/-- **Separators.**  In a document that is read all separators stand outside brackets. -/
theorem separatorsOutside_of_feed {ks : List Kind} {ds : List Definition}
    (h : (document (tokenCount ks)).feed ks = some (ds, [])) (hclean : IsClean ks) :
    SeparatorsOutside 0 ks := by
  obtain ⟨rest, hsettle, hrest, hcount, hhead⟩ := hclean.settle
  have hsettled : settleKinds rest = some rest := by
    rcases hhead with rfl | ⟨t, tl, rfl⟩ <;> rfl
  have hrun : (document (tokenCount ks)).runKinds rest = some (ds, []) := by
    rwa [feed, hsettle] at h
  have hle : tokenCount rest ≤ tokenCount ks := Nat.le_of_eq hcount
  rw [hclean.separatorsOutside_settle hsettle]
  exact (lockstep_document hle hle).separatorsOutside hrest hsettled
    (Stand.describes_start rest) (fun hmark => absurd rfl hmark) hrun

/-- Where a separator may be put in, the gap is outside brackets. -/
theorem gapsOutside_of_separators {s : Spot} {ks : List Kind}
    (h : SeparatorsOutside s.depth (repairKinds s.passed ks)) : GapsOutside s ks := by
  induction ks generalizing s with
  | nil => trivial
  | cons k ks ih =>
    cases k with
    | token t =>
      rw [repairKinds] at h
      split at h
      · exact ⟨fun _ => h.1 rfl, ih h.2.2⟩
      · next ht => exact ⟨fun hlacks => absurd hlacks ht, ih h.2⟩
    | blank | comma | flaw | stray => exact ih h

/-! ## Parts between brackets -/

/-- Kinds that may stand between brackets: they leave no bracket open and close none. -/
def Enclosed (ks : List Kind) : Prop :=
  ∀ s : Spot, 0 < s.depth → GapsInside s ks ∧ (s.passKinds ks).depth = s.depth

/-- Kinds without gaps outside brackets that leave no bracket open and close none. -/
def Contained (ks : List Kind) : Prop :=
  ∀ s : Spot, GapsInside s ks ∧ (s.passKinds ks).depth = s.depth

/-- Whether a token is no bracket. -/
def IsLevel : Token → Prop
  | .mark m => m.isOpening = false ∧ m.isClosing = false
  | _ => True

section

variable {ks ls : List Kind} {t : Token}

/-- A lexeme that is no bracket keeps the depth. -/
theorem IsLevel.depthAfter_eq (h : IsLevel t) (depth : Nat) : Spot.depthAfter depth t = depth := by
  cases t with
  | mark m => rw [Spot.depthAfter, h.1, h.2, if_neg Bool.false_ne_true, if_neg Bool.false_ne_true]
  | name | int | float | string => rfl

theorem Contained.enclosed (h : Contained ks) : Enclosed ks := fun s _ => h s

theorem contained_nil : Contained [] := fun _ => ⟨trivial, rfl⟩

/-- Parts without gaps outside brackets make up such a part. -/
theorem Contained.append (h : Contained ks) (h' : Contained ls) : Contained (ks ++ ls) := by
  intro s
  rw [Spot.passKinds_append]
  exact ⟨gaps_append.2 ⟨(h s).1, (h' _).1⟩, (h' _).2.trans (h s).2⟩

/-- What may stand between brackets may be followed by more of it. -/
theorem Enclosed.append (h : Enclosed ks) (h' : Enclosed ls) : Enclosed (ks ++ ls) := by
  intro s hs
  obtain ⟨hgaps, hdepth⟩ := h s hs
  obtain ⟨hgaps', hdepth'⟩ := h' (s.passKinds ks) (hdepth ▸ hs)
  rw [Spot.passKinds_append]
  exact ⟨gaps_append.2 ⟨hgaps, hgaps'⟩, hdepth'.trans hdepth⟩

theorem enclosed_nil : Enclosed [] := contained_nil.enclosed

/-- Between brackets there may be any token that is no bracket. -/
theorem Enclosed.token (h : Enclosed ks) (ht : IsLevel t) : Enclosed (.token t :: ks) := by
  intro s hs
  have hdepth : (s.pass t).depth = s.depth := ht.depthAfter_eq s.depth
  obtain ⟨hgaps, hdepth'⟩ := h (s.pass t) (hdepth ▸ hs)
  exact ⟨⟨fun _ => hs, hgaps⟩, hdepth'.trans hdepth⟩

theorem Enclosed.comma (h : Enclosed ks) : Enclosed (.comma :: ks) := h

theorem Enclosed.flaw (h : Enclosed ks) (m : String) : Enclosed (.flaw m :: ks) := h

theorem Enclosed.flatMap {α : Type} {kinds : α → List Kind} {xs : List α}
    (h : ∀ x ∈ xs, Enclosed (kinds x)) : Enclosed (xs.flatMap kinds) := by
  induction xs with
  | nil => exact enclosed_nil
  | cons x xs ih =>
    rw [List.forall_mem_cons] at h
    rw [List.flatMap_cons]
    exact h.1.append (ih h.2)

theorem Contained.flatMap {α : Type} {kinds : α → List Kind} {xs : List α}
    (h : ∀ x ∈ xs, Contained (kinds x)) : Contained (xs.flatMap kinds) := by
  induction xs with
  | nil => exact contained_nil
  | cons x xs ih =>
    rw [List.forall_mem_cons] at h
    rw [List.flatMap_cons]
    exact h.1.append (ih h.2)

theorem Enclosed.commaSeparated {α : Type} {kinds : α → List Kind} {xs : List α}
    (h : ∀ x ∈ xs, Enclosed (kinds x)) : Enclosed (commaSeparated (xs.map kinds)) := by
  cases xs with
  | nil => exact enclosed_nil
  | cons x xs =>
    rw [List.forall_mem_cons] at h
    rw [SchemaCatalog.commaSeparated, intercalate_cons_map]
    exact h.1.append (.flatMap fun y hy => (h.2 y hy).comma)

/-- Brackets contain what is between them. -/
theorem Enclosed.bracketed (h : Enclosed ks) (opening closing : Mark)
    (ho : opening.isOpening = true) (hc : closing.isClosing = true) :
    Contained (opening.lexeme :: (ks ++ [closing.lexeme])) := by
  intro s
  have hopen : (s.pass (.mark opening)).depth = s.depth + 1 := if_pos ho
  obtain ⟨hgaps, hdepth⟩ := h (s.pass (.mark opening)) (hopen ▸ Nat.succ_pos _)
  have hne : closing.isOpening = false := by
    cases closing <;> first | rfl | cases hc
  have hmark : ∀ m, GapsInside m [closing.lexeme] := fun m => ⟨nofun, trivial⟩
  refine ⟨⟨nofun, gaps_append.2 ⟨hgaps, hmark _⟩⟩, ?_⟩
  show (((s.pass (.mark opening)).passKinds (ks ++ [closing.lexeme]))).depth = s.depth
  rw [Spot.passKinds_append]
  show Spot.depthAfter ((s.pass (.mark opening)).passKinds ks).depth (.mark closing) = s.depth
  rw [hdepth, hopen, Spot.depthAfter, hne, hc, if_neg Bool.false_ne_true, if_pos rfl,
    Nat.add_sub_cancel]

/-- A mark, and a name behind it, which lacks no separator. -/
theorem contained_markedName {m : Mark} (hm : IsLevel (.mark m)) (n : Name) :
    Contained [m.lexeme, n.lexeme] := by
  intro s
  have hgap : (s.passed.pass (.mark m)).lacksSeparator (.name n) = false := by
    simp [Passed.lacksSeparator, Passed.place_pass_mark]
  refine ⟨⟨fun h => absurd h Bool.false_ne_true, fun h => ?_, trivial⟩, ?_⟩
  · exact absurd (hgap.symm.trans h) Bool.false_ne_true
  · exact hm.depthAfter_eq s.depth

end

end SchemaCatalog.Document
