/-
# What rules in lockstep read

Two rules that go in lockstep read the same from kinds that hold the same tokens.  Commas may
be put elsewhere where they only hide a separator.  Separators may be put in where they are
missing: that does no harm exactly where the first name of a list of interfaces lacks one,
and otherwise it keeps the second rule from reading to the end.
-/
import SchemaCatalog.Proofs.Lockstep

namespace SchemaCatalog.Document

open Lexeme (Kind)
open Implements Rule

/-! ## Kinds without flaws -/

/-- There are only tokens and commas among some kinds. -/
inductive IsClean : List Kind → Prop where
  | nil : IsClean []
  | comma {ks : List Kind} (h : IsClean ks) : IsClean (.comma :: ks)
  | token (t : Token) {ks : List Kind} (h : IsClean ks) : IsClean (.token t :: ks)

section

variable {ks ls rest : List Kind} {t : Token}

theorem isClean_iff : IsClean ks ↔ ∀ k ∈ ks, k = .comma ∨ ∃ t, k = .token t := by
  constructor
  · intro h
    induction h with
    | nil => simp
    | comma _ ih => simpa using ih
    | token t _ ih => simpa using ih
  · intro h
    induction ks with
    | nil => exact .nil
    | cons k ks ih =>
      have hks : IsClean ks := ih fun k' hk' => h k' (List.mem_cons_of_mem k hk')
      rcases h k List.mem_cons_self with rfl | ⟨t, rfl⟩
      · exact hks.comma
      · exact hks.token t

/-- Settling clean kinds comes to their next token or to their end. -/
theorem IsClean.settle (h : IsClean ks) : ∃ rest, settleKinds ks = some rest ∧ IsClean rest ∧
    tokenCount rest = tokenCount ks ∧ (rest = [] ∨ ∃ t tl, rest = .token t :: tl) := by
  induction h with
  | nil => exact ⟨[], rfl, .nil, rfl, Or.inl rfl⟩
  | comma _ ih =>
    obtain ⟨rest, hsettle, hrest⟩ := ih
    exact ⟨rest, hsettle, by simpa using hrest⟩
  | @token t ks h => exact ⟨_, rfl, h.token t, rfl, Or.inr ⟨t, ks, rfl⟩⟩

/-- Clean kinds that are settled begin with a token, if they are not empty. -/
theorem IsClean.cases_of_settled (h : IsClean ks) (hks : settleKinds ks = some ks) :
    ks = [] ∨ ∃ t tl, ks = .token t :: tl ∧ IsClean tl := by
  cases h with
  | nil => exact Or.inl rfl
  | comma h =>
    obtain ⟨rest, hrest, -, -, hcases⟩ := h.settle
    cases hks.symm.trans hrest
    rcases hcases with hcases | ⟨t, tl, hcases⟩ <;> cases hcases
  | token t h => exact Or.inr ⟨t, _, rfl, h⟩

/-- What is seen past a token, if it is a token, comes next. -/
theorem IsClean.eq_of_kindPast (h : IsClean ks) (ht : kindPast ks = some t) :
    ∃ tl, ks = .token t :: tl := by
  cases h with
  | nil => cases ht
  | comma => cases ht
  | token u =>
    cases ht
    exact ⟨_, rfl⟩

end

/-! ## Stands in a text -/

/-- What is known of a stand holds of the kinds that lie ahead. -/
structure Stand.Describes (σ : Stand) (ks : List Kind) : Prop where
  current : σ.current = headKind ks
  left : tokenCount ks ≤ σ.left
  ahead : ∀ t, σ.ahead = some t → kindPast ks.tail = some t

namespace Stand.Describes

variable {σ : Stand} {t : Token} {tl rest : List Kind}

/-- Seeing past the current token. -/
theorem glance (h : σ.Describes (.token t :: tl)) :
    (σ.glance (kindPast tl)).Describes (.token t :: tl) :=
  ⟨h.current, h.left, fun _ ht => ht⟩

theorem glance_none {ks : List Kind} (h : σ.Describes ks) : (σ.glance none).Describes ks :=
  ⟨h.current, h.left, fun _ ht => by cases ht⟩

/-- Taking the current token. -/
theorem past (h : σ.Describes (.token t :: tl)) (htl : IsClean tl)
    (hsettle : settleKinds tl = some rest) (g : Guard) :
    σ.Allows (headKind rest) ∧ (σ.past t (headKind rest) g).Describes rest := by
  obtain ⟨rest', hsettle', hclean, hcount, hhead⟩ := htl.settle
  cases hsettle.symm.trans hsettle'
  have hleft := h.left
  rw [tokenCount_token, ← hcount] at hleft
  refine ⟨⟨fun u hu => ?_, fun hnext => ?_⟩, rfl, ?_, fun u hu => by cases hu⟩
  · obtain ⟨tl', rfl⟩ := htl.eq_of_kindPast (h.ahead u hu)
    cases hsettle
    rfl
  · rcases hhead with rfl | ⟨u, tl', rfl⟩
    · cases hnext
    · rw [tokenCount_token] at hleft
      omega
  · show tokenCount rest ≤ σ.left - 1
    omega

end Stand.Describes

/-! ## Commas that hide separators -/

/-- Past one place stands what stands past another, or a separator there and nothing here. -/
def SeesAs (ks ls : List Kind) : Prop :=
  kindPast ls = kindPast ks ∨ kindPast ks = some (.mark .ampersand) ∧ kindPast ls = none

/-- Kinds that hold the same tokens, with commas that make no difference: what is seen past a
token is the same, or a separator is hidden, unless the token is a separator itself. -/
inductive Similar : List Kind → List Kind → Prop where
  | nil : Similar [] []
  | commaLeft {ks ls : List Kind} (h : Similar ks ls) : Similar (.comma :: ks) ls
  | commaRight {ks ls : List Kind} (h : Similar ks ls) : Similar ks (.comma :: ls)
  | token (t : Token) {ks ls : List Kind} (h : Similar ks ls)
      (sees : t ≠ .mark .ampersand → SeesAs ks ls) : Similar (.token t :: ks) (.token t :: ls)

theorem Similar.isClean {ks ls : List Kind} (h : Similar ks ls) : IsClean ks := by
  induction h with
  | nil => exact .nil
  | commaLeft _ ih => exact ih.comma
  | commaRight _ ih => exact ih
  | token t _ _ ih => exact ih.token t

theorem Similar.tokenCount_eq {ks ls : List Kind} (h : Similar ks ls) :
    tokenCount ks = tokenCount ls := by
  induction h with
  | nil => rfl
  | commaLeft _ ih => simpa using ih
  | commaRight _ ih => simpa using ih
  | token t _ _ ih => simpa using ih

/-- Similar kinds that begin with a token, if they are not empty. -/
inductive SimilarHere : List Kind → List Kind → Prop where
  | nil : SimilarHere [] []
  | token (t : Token) {ks ls : List Kind} (h : Similar ks ls)
      (sees : t ≠ .mark .ampersand → SeesAs ks ls) : SimilarHere (.token t :: ks) (.token t :: ls)

/-- Similar kinds come to the same token. -/
theorem Similar.settle {ks ls : List Kind} (h : Similar ks ls) :
    ∃ ks' ls', settleKinds ks = some ks' ∧ settleKinds ls = some ls' ∧ SimilarHere ks' ls' := by
  induction h with
  | nil => exact ⟨[], [], rfl, rfl, .nil⟩
  | commaLeft _ ih => exact ih
  | commaRight _ ih => exact ih
  | token t h sees _ => exact ⟨_, _, rfl, rfl, .token t h sees⟩

theorem SimilarHere.headKind_eq {ks ls : List Kind} (h : SimilarHere ks ls) :
    headKind ls = headKind ks := by
  cases h <;> rfl

variable {α : Type} {Q : α → Stand → Prop} {r r' : Production α} {σ : Stand}

/-- **Commas.**  Rules in lockstep read the same from similar kinds. -/
theorem Lockstep.run_similar (h : Lockstep Q r r' σ) {ks ls : List Kind} (hσ : σ.Describes ks)
    (hsim : SimilarHere ks ls) {a : α} (hrun : r.runKinds ks = some (a, [])) :
    r'.runKinds ls = some (a, []) := by
  -- the first rule is followed request by request
  induction r generalizing r' σ ks ls with
  | done b =>
    obtain ⟨hseen, -⟩ := h
    rw [← runKinds_seen, hsim.headKind_eq, ← hσ.current, hseen]
    cases hsim with
    | nil => exact hrun
    | token => cases hrun
  | fail m => cases hrun
  | look go ih =>
    rw [runKinds, ← hσ.current] at hrun
    exact ih _ h hσ hsim hrun
  | lookPast go ih =>
    obtain ⟨go', hseen, hcur, hfaint, hgo⟩ := h
    rw [← runKinds_seen, hsim.headKind_eq, ← hσ.current, hseen]
    have hnone : (go none).runKinds ks = some (a, []) → (go' none).runKinds ls = some (a, []) :=
      ih none (hgo none) hσ.glance_none hsim
    cases hsim with
    | nil => exact hnone hrun
    | @token t tl tl' htl sees =>
      have ht : t ≠ .mark .ampersand := by
        rintro rfl
        exact hcur hσ.current
      rcases sees ht with hsame | ⟨hmark, hhidden⟩
      · rw [runKinds, List.tail_cons, hsame]
        exact ih _ (hgo _) hσ.glance (.token t htl sees) hrun
      · -- a separator that is hidden makes no difference
        obtain ⟨hgo₁, -⟩ := hfaint (some (.mark .ampersand)) (Or.inl rfl)
        rw [runKinds, List.tail_cons, hmark, hgo₁] at hrun
        rw [runKinds, List.tail_cons, hhidden]
        exact hnone hrun
  | take go ih =>
    obtain ⟨go', hseen, hgo⟩ := h
    rw [← runKinds_seen, hsim.headKind_eq, ← hσ.current, hseen]
    cases hsim with
    | nil =>
      rw [hσ.current] at hgo
      exact ih hgo hσ .nil hrun
    | @token t tl tl' htl sees =>
      rw [hσ.current] at hgo
      obtain ⟨-, g, -, hnext⟩ := hgo
      obtain ⟨ks', ls', hks', hls', hsim'⟩ := htl.settle
      obtain ⟨hallows, hdescribes⟩ := hσ.past htl.isClean hks' g
      rw [runKinds, List.tail_cons, hks'] at hrun
      rw [runKinds, List.tail_cons, hls']
      exact ih (hnext _ hallows) hdescribes hsim' hrun

/-! ## Separators that are put in -/

/-- Whether all separators that are missing among some kinds can be put in without harm. -/
def HarmlessFrom (s : Spot) : List Kind → Prop
  | [] => True
  | .token t :: ks =>
    (s.passed.lacksSeparator t = true → s.IsHarmless) ∧ HarmlessFrom (s.pass t) ks
  | _ :: ks => HarmlessFrom s ks

/-- The same behind the current token. -/
def HarmlessPast (s : Spot) : List Kind → Prop
  | .token t :: ks => HarmlessFrom (s.pass t) ks
  | _ => True

/-- Kinds with the separators put in that are missing behind the current token. -/
def repairPast (p : Passed) : List Kind → List Kind
  | .token t :: ks => .token t :: repairKinds (p.pass t) ks
  | ks => ks

/-- Commas stay before the next token. -/
theorem IsClean.settle_repairKinds {ks rest : List Kind} (h : IsClean ks)
    (hsettle : settleKinds ks = some rest) (p : Passed) :
    settleKinds (repairKinds p ks) = some (repairKinds p rest) := by
  induction h with
  | nil =>
    cases hsettle
    rfl
  | comma _ ih => exact ih hsettle
  | token t =>
    cases hsettle
    rw [repairKinds]
    split <;> rfl

theorem IsClean.harmlessFrom_settle {ks rest : List Kind} (h : IsClean ks)
    (hsettle : settleKinds ks = some rest) (s : Spot) :
    HarmlessFrom s ks ↔ HarmlessFrom s rest := by
  induction h with
  | nil =>
    cases hsettle
    rfl
  | comma _ ih => exact ih hsettle
  | token t =>
    cases hsettle
    rfl

/-- A rule that is guarded against separators does not get past one. -/
theorem Lockstep.run_ne_of_separator (h : Lockstep Q r r' σ)
    (hcur : σ.current = some (.mark .ampersand)) (hguard : σ.guard = .mark) (ks : List Kind)
    (b : α) : r'.runKinds (Mark.ampersand.lexeme :: ks) ≠ some (b, []) := by
  have hseen := runKinds_seen r' (Mark.ampersand.lexeme :: ks)
  rw [show headKind (Mark.ampersand.lexeme :: ks) = σ.current from hcur.symm] at hseen
  rw [← hseen]
  clear hseen
  induction r with
  | done a =>
    rw [h.1]
    intro hrun
    cases hrun
  | fail m =>
    obtain ⟨m', hm⟩ := h
    rw [hm]
    intro hrun
    cases hrun
  | look go ih => exact ih _ h
  | lookPast go =>
    obtain ⟨-, -, hne, -⟩ := h
    exact absurd hcur hne
  | take go =>
    obtain ⟨go', -, hgo⟩ := h
    rw [hcur] at hgo
    have hmay := hgo.1
    unfold Stand.MayTake at hmay
    rw [hguard] at hmay
    exact absurd rfl hmay.1

/-- A rule that reads to the end may take the current token. -/
theorem Lockstep.mayTake (h : Lockstep Q r r' σ) {t : Token} (hcur : σ.current = some t)
    {tl : List Kind} {a : α} (hrun : r.runKinds (.token t :: tl) = some (a, [])) :
    σ.MayTake t := by
  induction r generalizing r' σ with
  | done b => cases hrun
  | fail m => cases hrun
  | look go ih =>
    unfold Lockstep at h
    rw [hcur] at h
    exact ih _ h hcur hrun
  | lookPast go ih =>
    obtain ⟨go', -, -, -, hgo⟩ := h
    have hmay : (σ.glance (kindPast tl)).MayTake t := ih _ (hgo (kindPast tl)) hcur hrun
    exact hmay
  | take go =>
    obtain ⟨go', -, hgo⟩ := h
    rw [hcur] at hgo
    exact hgo.1

/-- What is seen past the current token lacks no separator. -/
def Stand.SeesNoGap (σ : Stand) : Prop :=
  ∀ t u, σ.current = some t → σ.ahead = some u → (σ.passed.pass t).lacksSeparator u = false

/-- A run comes to a result at the end exactly if nothing does harm. -/
def Succeeds (harmless : Prop) (a : α) (run : Option (α × List Kind)) : Prop :=
  harmless ∧ run = some (a, []) ∨ ¬harmless ∧ ∀ b, run ≠ some (b, [])

theorem Succeeds.congr {p q : Prop} {a : α} {run : Option (α × List Kind)}
    (h : Succeeds p a run) (hpq : q ↔ p) : Succeeds q a run := by
  unfold Succeeds
  rwa [hpq]

/-- What stands past a name that is followed by one that lacks a separator. -/
theorem isFaint_of_lacksSeparator {p : Passed} {t u : Token}
    (h : (p.pass t).lacksSeparator u = true) : IsFaint (some t) (some u) := by
  obtain ⟨n, rfl, hplace, hn⟩ := exists_name_of_lacksSeparator h
  exact Or.inr ⟨Passed.isName_of_place_pass hplace, n, rfl, hn⟩

/-- What is seen past a token of repaired kinds: what was seen before, or a separator in front
of a name. -/
theorem kindPast_repairKinds {ks : List Kind} (h : IsClean ks) (p : Passed) :
    kindPast (repairKinds p ks) = kindPast ks ∧
        (∀ u, kindPast ks = some u → p.lacksSeparator u = false) ∨
      ∃ u, kindPast ks = some u ∧ p.lacksSeparator u = true ∧
        kindPast (repairKinds p ks) = some (.mark .ampersand) := by
  cases h with
  | nil => exact Or.inl ⟨rfl, nofun⟩
  | comma => exact Or.inl ⟨rfl, nofun⟩
  | token u =>
    rw [repairKinds]
    split
    · next hu => exact Or.inr ⟨u, rfl, hu, rfl⟩
    · next hu =>
      refine Or.inl ⟨rfl, ?_⟩
      rintro _ ⟨⟩
      simpa using hu

theorem headKind_repairPast (p : Passed) (ks : List Kind) :
    headKind (repairPast p ks) = headKind ks := by
  unfold repairPast
  split <;> rfl

/-- **One separator.**  A separator that is put in before a name does harm if the rule is
guarded against separators there; if it is not, the rule takes it and goes on. -/
theorem Lockstep.run_at_gap {go : Production α} {t u : Token} {g : Guard}
    (hkeeps : Keeps (σ.toSpot.pass t) r' g)
    (hnext : ∀ next, σ.Allows next → Lockstep Q go r' (σ.past t next g))
    (hallows : σ.Allows (some u)) (hgap : σ.SeesNoGap) (hcur : σ.current = some t)
    (hlacks : (σ.passed.pass t).lacksSeparator u = true) {ks : List Kind} {a : α}
    (hrun : go.runKinds (.token u :: ks) = some (a, []))
    (hgo : Succeeds (HarmlessFrom ((σ.toSpot.pass t).pass u) ks) a
      (r'.runKinds (.token u :: repairKinds ((σ.passed.pass t).pass u) ks))) :
    Succeeds (HarmlessFrom (σ.toSpot.pass t) (.token u :: ks)) a
      (r'.runKinds (Mark.ampersand.lexeme :: .token u ::
        repairKinds ((σ.passed.pass t).pass u) ks)) := by
  have hmay : (σ.past t (some u) g).MayTake u := (hnext _ hallows).mayTake rfl hrun
  unfold Stand.MayTake at hmay
  cases g with
  | mark =>
    have hsep : σ.Allows (some (.mark .ampersand)) := by
      refine ⟨fun v hv => ?_, hallows.2⟩
      have huv : u = v := Option.some.inj (hallows.1 v hv)
      have := hgap t v hcur hv
      rw [← huv, hlacks] at this
      cases this
    refine Or.inr ⟨fun hharmless => hmay.2 hlacks (hharmless.1 hlacks), fun b => ?_⟩
    exact (hnext _ hsep).run_ne_of_separator rfl rfl _ b
  | name => exact absurd (hlacks.symm.trans hmay) (by simp)
  | both =>
    obtain ⟨n, rfl, hplace, -⟩ := exists_name_of_lacksSeparator hlacks
    obtain ⟨hharmless, hnames⟩ := hkeeps.2 hplace
    obtain ⟨go', hmark, hname⟩ := hnames n
    -- having taken the separator, the rule stands at the name as it would without one
    have hsame : ∀ ls, r'.runKinds (Mark.ampersand.lexeme :: n.lexeme :: ls) =
        r'.runKinds (n.lexeme :: ls) := by
      intro ls
      rw [← runKinds_seen r', ← runKinds_seen r' (n.lexeme :: ls)]
      show (r'.seen (some (.mark .ampersand))).runKinds _ = (r'.seen (some (.name n))).runKinds _
      rw [hmark, ← hname]
      exact (runKinds_seen go' (n.lexeme :: ls)).symm
    rw [hsame]
    exact hgo.congr (and_iff_right fun _ => hharmless)

/-- **Separators.**  Where one rule reads kinds to their end, a rule in lockstep with it reads
the repaired kinds to their end exactly if the separators do no harm, and it reads the same
then. -/
theorem Lockstep.run_repaired (h : Lockstep Q r r' σ) {ks : List Kind} (hclean : IsClean ks)
    (hsettled : settleKinds ks = some ks) (hσ : σ.Describes ks) (hgap : σ.SeesNoGap) {a : α}
    (hrun : r.runKinds ks = some (a, [])) :
    Succeeds (HarmlessPast σ.toSpot ks) a (r'.runKinds (repairPast σ.passed ks)) := by
  -- on the first rule; the second one, the place and the kinds move along with it
  induction r generalizing r' σ ks with
  | done b =>
    rw [← runKinds_seen r', headKind_repairPast, ← hσ.current, h.1]
    rcases hclean.cases_of_settled hsettled with rfl | ⟨t, tl, rfl, -⟩
    · exact Or.inl ⟨trivial, hrun⟩
    · cases hrun
  | fail m => cases hrun
  | look go ih =>
    rw [runKinds, ← hσ.current] at hrun
    exact ih _ h hclean hsettled hσ hgap hrun
  | lookPast go ih =>
    obtain ⟨go', hseen, hcur, hfaint, hgo⟩ := h
    rw [← runKinds_seen r', headKind_repairPast, ← hσ.current, hseen]
    have hnone : (go none).runKinds ks = some (a, []) →
        Succeeds (HarmlessPast σ.toSpot ks) a ((go' none).runKinds (repairPast σ.passed ks)) :=
      fun hrun => ih none (hgo none) hclean hsettled hσ.glance_none (fun _ _ _ hu => by cases hu)
        hrun
    rcases hclean.cases_of_settled hsettled with rfl | ⟨t, tl, rfl, htl⟩
    · exact hnone hrun
    · rcases kindPast_repairKinds htl (σ.passed.pass t) with ⟨hsame, hgap'⟩ | ⟨u, hu, hlacks, hmark⟩
      · rw [runKinds, repairPast, List.tail_cons, hsame]
        refine ih _ (hgo _) hclean hsettled hσ.glance (fun t' u ht' hu => ?_) hrun
        obtain rfl : t = t' := Option.some.inj (hσ.current.symm.trans ht')
        exact hgap' u hu
      · -- neither the name nor the separator before it makes a difference
        have hname := (hfaint (some u) (hσ.current ▸ isFaint_of_lacksSeparator hlacks)).1
        have hsep := (hfaint (some (.mark .ampersand)) (Or.inl rfl)).2
        rw [runKinds, List.tail_cons, hu, hname] at hrun
        rw [runKinds, repairPast, List.tail_cons, hmark, hsep]
        exact hnone hrun
  | take go ih =>
    obtain ⟨go', hseen, hgo⟩ := h
    rw [← runKinds_seen r', headKind_repairPast, ← hσ.current, hseen]
    rcases hclean.cases_of_settled hsettled with rfl | ⟨t, tl, rfl, htl⟩
    · rw [hσ.current] at hgo
      exact ih hgo .nil rfl hσ hgap hrun
    · rw [hσ.current] at hgo
      obtain ⟨-, g, hkeeps, hnext⟩ := hgo
      obtain ⟨rest, hsettle, hrest, -, hcases⟩ := htl.settle
      obtain ⟨hallows, hdescribes⟩ := hσ.past htl hsettle g
      rw [runKinds, List.tail_cons, hsettle] at hrun
      rw [runKinds, repairPast, List.tail_cons, htl.settle_repairKinds hsettle]
      have hrest' : settleKinds rest = some rest := by
        rcases hcases with rfl | ⟨u, tl', rfl⟩ <;> rfl
      have hgo' := ih (hnext _ hallows) hrest hrest' hdescribes (fun _ _ _ hu => by cases hu) hrun
      have hharmless := htl.harmlessFrom_settle hsettle (σ.toSpot.pass t)
      rcases hcases with rfl | ⟨u, tl', rfl⟩
      · exact hgo'.congr hharmless
      · rw [Option.bind_some, repairKinds]
        cases hlacks : (σ.passed.pass t).lacksSeparator u with
        | false =>
          refine hgo'.congr (hharmless.trans (and_iff_right fun hu => ?_))
          exact absurd (hlacks.symm.trans hu) Bool.false_ne_true
        | true =>
          exact (run_at_gap hkeeps hnext hallows hgap hσ.current hlacks hrun hgo').congr hharmless

end SchemaCatalog.Document
