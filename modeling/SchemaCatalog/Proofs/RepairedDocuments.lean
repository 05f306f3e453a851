/-
# What a repair does to documents that can be read

A document that can be read as it stands may still hold names that a repair takes for the
interfaces of an old list: the automaton of the repair does not know of brackets.  It is
settled here which documents are read as before once they are repaired; all others are
refused then, and none is read as anything else.
-/
import SchemaCatalog.Proofs.LockstepDocuments
import SchemaCatalog.Proofs.LockstepRuns

namespace SchemaCatalog.Document

open Lexeme (Kind)
open Implements Rule

/-! ## Documents without flaws -/

/-- No lexeme of a schema document is stray. -/
theorem kind_ne_stray {ls : List Lexeme} {rest : List Char} (h : scanner.Bounded ls rest) :
    ∀ l ∈ ls, ∀ m, l.kind ≠ .stray m := by
  induction h with
  | nil => simp
  | @cons c cs st ls rest _ _ _ ih =>
    intro l hl m
    rcases List.mem_cons.1 hl with rfl | hl
    · show ScanState.finish st (c :: cs) ≠ .stray m
      cases st with
      | name =>
        unfold ScanState.finish
        dsimp only
        split <;> exact nofun
      | closed problem => cases problem <;> exact nofun
      | _ => exact nofun
    · exact ih l hl m

/-- Among the kinds of a text without a flaw there are only tokens and commas. -/
theorem isClean_kindsIn {cs : List Char} (h : flawCount (kindsIn cs) = 0) :
    IsClean (kindsIn cs) := by
  rw [isClean_iff]
  intro k hk
  obtain ⟨l, hl, rfl⟩ : ∃ l ∈ scan cs, l.kind = k := by
    have := (List.mem_filter.1 hk).1
    simpa using this
  have hblank : l.kind ≠ .blank := by simpa using (List.mem_filter.1 hk).2
  have hflaw : isFlawKind l.kind = false := by
    rw [flawCount, List.countP_eq_zero] at h
    simpa using h _ hk
  cases hkind : l.kind with
  | blank => exact absurd hkind hblank
  | comma => exact Or.inl rfl
  | token t => exact Or.inr ⟨t, rfl⟩
  | flaw m =>
    rw [hkind] at hflaw
    cases hflaw
  | stray m => exact absurd hkind (kind_ne_stray (scanner.bounded_scan cs) l hl m)

/-! ## From the first token on -/

/-- The stand at the beginning of a document. -/
def Stand.start (ks : List Kind) : Stand :=
  ⟨⟨.nothing, 0⟩, headKind ks, none, tokenCount ks, .mark⟩

theorem Stand.describes_start (ks : List Kind) : (Stand.start ks).Describes ks :=
  ⟨rfl, Nat.le_refl _, nofun⟩

theorem at_start (ks : List Kind) : At 0 (tokenCount ks) (Stand.start ks) := by
  refine ⟨Nat.le_refl _, fun t ht => ⟨?_, rfl, nofun⟩⟩
  have hhead : headKind ks = some t := ht
  unfold headKind at hhead
  split at hhead
  · show 0 < tokenCount _
    simp
  · cases hhead

/-- Documents are read in lockstep from their first token on. -/
theorem lockstep_document {ks : List Kind} {fuel fuel' : Nat} (hfuel : tokenCount ks ≤ fuel)
    (hfuel' : tokenCount ks ≤ fuel') :
    Lockstep (fun _ τ => At 0 (tokenCount ks) τ) (document fuel) (document fuel')
      (Stand.start ks) :=
  steps_document hfuel hfuel' _ (at_start ks)

/-- A repair takes away no token. -/
theorem tokenCount_le_repairKinds (p : Passed) (ks : List Kind) :
    tokenCount ks ≤ tokenCount (repairKinds p ks) := by
  induction ks generalizing p with
  | nil => exact Nat.le_refl _
  | cons k ks ih =>
    cases k with
    | token t =>
      rw [repairKinds]
      have := ih (p.pass t)
      split <;> simp only [Mark.lexeme, tokenCount_token] <;> omega
    | blank | comma | flaw | stray => exact ih p

/-! ## Repaired documents -/

/-- Before the first token no separator is missing. -/
theorem lacksSeparator_nothing (t : Token) : Passed.nothing.lacksSeparator t = false := by
  cases t <;> rfl

theorem repairPast_nothing {ks : List Kind} (h : settleKinds ks = some ks) (hclean : IsClean ks) :
    repairPast .nothing ks = repairKinds .nothing ks := by
  rcases hclean.cases_of_settled h with rfl | ⟨t, tl, rfl, -⟩
  · rfl
  · rw [repairKinds, lacksSeparator_nothing]
    rfl

theorem harmlessPast_nothing {ks : List Kind} (h : settleKinds ks = some ks)
    (hclean : IsClean ks) :
    HarmlessFrom ⟨.nothing, 0⟩ ks ↔ HarmlessPast ⟨.nothing, 0⟩ ks := by
  rcases hclean.cases_of_settled h with rfl | ⟨t, tl, rfl, -⟩
  · rfl
  · refine and_iff_right fun ht => ?_
    rw [lacksSeparator_nothing] at ht
    cases ht

/-- **Repaired documents.**  A document that can be read is read as it stands once it is
repaired, exactly if all separators that it lacks can be put in without harm: outside all
brackets and directly behind the word that opens a list of interfaces.  A document is never
read as another one. -/
theorem definitionsOf_exact {text : String} {ds : List Definition} (h : ofText text = .ok ds) :
    (Catalog.definitionsOf text = .ok ds ↔
        HarmlessFrom ⟨.nothing, 0⟩ (kindsIn text.toList)) ∧
      ∀ ds', Catalog.definitionsOf text = .ok ds' → ds' = ds := by
  rw [ofText_eq_ok_iff] at h
  simp only [definitionsOf_eq_ok_iff]
  generalize hks : kindsIn text.toList = ks at h ⊢
  have hclean : IsClean ks := by
    rw [← hks]
    exact isClean_kindsIn (hks ▸ flawCount_of_feed _ h)
  obtain ⟨rest, hsettle, hrest, hcount, hhead⟩ := hclean.settle
  have hsettled : settleKinds rest = some rest := by
    rcases hhead with rfl | ⟨t, tl, rfl⟩ <;> rfl
  have hrun : (document (tokenCount ks)).runKinds rest = some (ds, []) := by
    rwa [feed, hsettle] at h
  have hlockstep := lockstep_document (Nat.le_of_eq hcount)
    (hcount ▸ tokenCount_le_repairKinds .nothing ks)
  have hsucceeds := (hlockstep.run_repaired hrest hsettled (Stand.describes_start rest)
    (fun _ _ _ hu => by cases hu) hrun).congr (harmlessPast_nothing hsettled hrest)
  simp only [feed, hclean.settle_repairKinds hsettle, Option.bind_some,
    ← repairPast_nothing hsettled hrest, hclean.harmlessFrom_settle hsettle]
  rcases hsucceeds with ⟨hharmless, hread⟩ | ⟨hharm, hread⟩
  · refine ⟨⟨fun _ => hharmless, fun _ => hread⟩, fun ds' hds' => ?_⟩
    cases hread.symm.trans hds'
    rfl
  · exact ⟨⟨fun hds => absurd hds (hread ds), fun h => absurd h hharm⟩,
      fun ds' hds' => absurd hds' (hread ds')⟩

/-- The values of an enum that spell the head of a type do not survive. -/
theorem definitionsOf_of_enum_values :
    let e : Name := ⟨"E", by decide⟩
    let typeWord : Name := ⟨"type", by decide⟩
    let a : Name := ⟨"A", by decide⟩
    let implementsWord : Name := ⟨"implements", by decide⟩
    let b : Name := ⟨"B", by decide⟩
    let c : Name := ⟨"C", by decide⟩
    let ds : List Definition := [.type ⟨.definition none, e, [],
      .enum [⟨none, typeWord, []⟩, ⟨none, a, []⟩, ⟨none, implementsWord, []⟩, ⟨none, b, []⟩,
        ⟨none, c, []⟩]⟩]
    ofText "enum E {type A implements B C}" = .ok ds ∧
      ¬HarmlessFrom ⟨.nothing, 0⟩ (kindsIn "enum E {type A implements B C}".toList) ∧
      Catalog.definitionsOf "enum E {type A implements B C}" =
        .error ⟨28, "expected R_CURLY, got &"⟩ := by
  intro e typeWord a implementsWord b c ds
  have hread : ofText "enum E {type A implements B C}" = .ok ds := by rfl
  have hrepair : Implements.repair "enum E {type A implements B C}" =
      "enum E {type A implements B & C}" := by rfl
  have hrefused : Catalog.definitionsOf "enum E {type A implements B C}" =
      .error ⟨28, "expected R_CURLY, got &"⟩ := by
    rw [Catalog.definitionsOf, hrepair]
    rfl
  refine ⟨hread, fun hharmless => ?_, hrefused⟩
  have hsame := (definitionsOf_exact hread).1.2 hharmless
  rw [hrefused] at hsame
  cases hsame

/-- A separator that is put in without harm: the type is called as the word that opens its list,
and the name before it makes it look as if its list had been opened already. -/
example : Implements.repair "union U=type type implements implements A" =
    "union U=type type implements implements & A" := by rfl

end SchemaCatalog.Document
