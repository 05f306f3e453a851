/-
# Reading side by side

A text that is read both as a fragment and as a document is read from the same tokens, but for
the separators that a repair puts in front of names.  Here a rule of one grammar is compared
with a rule of the other: whatever both of them may read is related, and what they leave behind
are again the same tokens, but for such separators.
-/
import SchemaCatalog.Proofs.Repairs
import SchemaCatalog.Proofs.TokenReading

namespace SchemaCatalog

open Rule

/-! ## Tokens side by side -/

/-- Tokens beside the same tokens, where names that open no definition may have got separators
in front of them. -/
inductive InStep : List Token → List Token → Prop where
  | nil : InStep [] []
  | token (t : Token) {ts ts' : List Token} (h : InStep ts ts') : InStep (t :: ts) (t :: ts')
  | gap {n : Name} (hn : n.text ∉ Document.Implements.definitionWords) {ts ts' : List Token}
      (h : InStep ts ts') : InStep (.name n :: ts) (.mark .ampersand :: .name n :: ts')

/-- A repair keeps tokens in step. -/
theorem inStep_repairKinds (p : Document.Implements.Passed) (ks : List Lexeme.Kind) :
    InStep (tokensIn ks) (tokensIn (Document.Implements.repairKinds p ks)) := by
  induction ks generalizing p with
  | nil => exact .nil
  | cons k ks ih =>
    cases k with
    | blank | comma | flaw | stray => exact ih p
    | token t =>
      rw [Document.Implements.repairKinds]
      split
      · next hlacks =>
        obtain ⟨n, rfl, -, hn⟩ := Document.Implements.exists_name_of_lacksSeparator hlacks
        exact .gap hn (ih _)
      · exact .token t (ih _)

/-- Whether tokens begin with a name that opens no definition. -/
def AtBareName (ts : List Token) : Prop :=
  ∃ n tl, ts = .name n :: tl ∧ n.text ∉ Document.Implements.definitionWords

/-- Whether tokens begin with a separator. -/
def AtSeparator (ts : List Token) : Prop := ∃ tl, ts = .mark .ampersand :: tl

/-- A token in front is the same token, or it is a name that got a separator. -/
theorem InStep.cases_token {t : Token} {ts ts' : List Token} (h : InStep (t :: ts) ts') :
    (∃ tl', ts' = t :: tl' ∧ InStep ts tl') ∨ AtBareName (t :: ts) ∧ AtSeparator ts' := by
  cases h with
  | token _ h => exact Or.inl ⟨_, rfl, h⟩
  | gap hn h => exact Or.inr ⟨⟨_, _, rfl, hn⟩, _, rfl⟩

/-- A token that is no bare name got no separator. -/
theorem InStep.of_token {t : Token} {ts ts' : List Token} (h : InStep (t :: ts) ts')
    (ht : ∀ n, t = .name n → n.text ∈ Document.Implements.definitionWords) :
    ∃ tl', ts' = t :: tl' ∧ InStep ts tl' := by
  refine h.cases_token.resolve_right ?_
  rintro ⟨⟨n, tl, heq, hn⟩, -⟩
  exact hn (ht n (List.cons.inj heq).1)

/-- A token that is no separator stands beside itself. -/
theorem InStep.of_token_right {t : Token} {ts ts' : List Token} (h : InStep ts (t :: ts'))
    (ht : t ≠ .mark .ampersand) : ∃ tl, ts = t :: tl ∧ InStep tl ts' := by
  cases h with
  | token _ h => exact ⟨_, rfl, h⟩
  | gap => exact absurd rfl ht

/-- The same token comes first, or there is a separator. -/
theorem InStep.head?_eq {ts ts' : List Token} (h : InStep ts ts') :
    ts'.head? = ts.head? ∨ AtSeparator ts' := by
  cases h with
  | nil => exact Or.inl rfl
  | token => exact Or.inl rfl
  | gap => exact Or.inr ⟨_, rfl⟩

theorem InStep.nil_left {ts : List Token} (h : InStep [] ts) : ts = [] := by
  cases h
  rfl

/-! ## Agreement -/

section

variable {ε ε' α β γ δ : Type} {all all' : List Token} {R : α → β → Prop} {Q : γ → δ → Prop}
  {r : Rule ε α} {r' : Rule ε' β}

variable (all all') in
/-- Whether what two rules read from tokens in step is related and leaves tokens in step.  The
tokens are the last ones of two whole texts. -/
def Agree (R : α → β → Prop) (r : Rule ε α) (r' : Rule ε' β) : Prop :=
  ∀ ⦃ts ts' rest rest' : List Token⦄ ⦃a : α⦄ ⦃b : β⦄, ts <:+ all → ts' <:+ all' →
    InStep ts ts' → r.Reads ts a rest → r'.Reads ts' b rest' → R a b ∧ InStep rest rest'

variable (all all') in
/-- Whether two rules agree where a given token comes next. -/
def AgreeAt (t : Token) (R : α → β → Prop) (r : Rule ε α) (r' : Rule ε' β) : Prop :=
  ∀ ⦃ts ts' rest rest' : List Token⦄ ⦃a : α⦄ ⦃b : β⦄, t :: ts <:+ all → t :: ts' <:+ all' →
    InStep ts ts' → r.Reads (t :: ts) a rest → r'.Reads (t :: ts') b rest' →
    R a b ∧ InStep rest rest'

theorem Agree.at (h : Agree all all' R r r') (t : Token) : AgreeAt all all' t R r r' :=
  fun _ _ _ _ _ _ hts hts' hstep hr hr' => h hts hts' (.token t hstep) hr hr'

theorem agree_pure {a : α} {b : β} (h : R a b) :
    Agree all all' R (pure a : Rule ε α) (pure b : Rule ε' β) := by
  rintro _ _ _ _ _ _ - - hstep ⟨rfl, rfl⟩ ⟨rfl, rfl⟩
  exact ⟨h, hstep⟩

theorem agree_fail_left (m : ε) : Agree all all' R (fail m : Rule ε α) r' :=
  fun _ _ _ _ _ _ _ _ _ h => False.elim h

theorem agree_fail_right (m : ε') : Agree all all' R r (fail m : Rule ε' β) :=
  fun _ _ _ _ _ _ _ _ _ _ h => False.elim h

/-- What follows rules that agree may go on from what they have read. -/
theorem Agree.bind (h : Agree all all' R r r') {f : α → Rule ε γ} {f' : β → Rule ε' δ}
    (hf : ∀ a b, R a b → Agree all all' Q (f a) (f' b)) :
    Agree all all' Q (r >>= f) (r' >>= f') := by
  intro ts ts' rest rest' c d hts hts' hstep hr hr'
  obtain ⟨a, mid, ha, hc⟩ := reads_bind.1 hr
  obtain ⟨b, mid', hb, hd⟩ := reads_bind.1 hr'
  obtain ⟨hab, hmid⟩ := h hts hts' hstep ha hb
  exact hf a b hab (ha.isSuffix.trans hts) (hb.isSuffix.trans hts') hmid hc hd

/-- What is related in one way may be related in another one. -/
theorem Agree.mono (h : Agree all all' R r r') {S : α → β → Prop} (hS : ∀ a b, R a b → S a b) :
    Agree all all' S r r' :=
  fun _ _ _ _ _ _ hts hts' hstep hr hr' => (h hts hts' hstep hr hr').imp_left (hS _ _)

/-- Where both skip a token they may agree behind it. -/
theorem AgreeAt.skip {f : Unit → Rule ε α} {f' : Unit → Rule ε' β} {t : Token}
    (h : Agree all all' R (f ()) (f' ())) : AgreeAt all all' t R (skip >>= f) (skip >>= f') :=
  fun _ _ _ _ _ _ hts hts' hstep hr hr' =>
    h ((List.suffix_cons _ _).trans hts) ((List.suffix_cons _ _).trans hts') hstep hr hr'

/-- Rules that look at the current token agree if they do for each token, and where only one of
them sees a separator. -/
theorem agree_current {f : Option Token → Rule ε α} {f' : Option Token → Rule ε' β}
    (hnone : Agree all all' R (f none) (f' none))
    (hsome : ∀ t, AgreeAt all all' t R (f (some t)) (f' (some t)))
    (hgap : ∀ n, Agree all all' R (f (some (.name n))) (f' (some (.mark .ampersand)))) :
    Agree all all' R (current >>= f) (current >>= f') := by
  intro ts ts' rest rest' a b hts hts' hstep hr hr'
  rw [reads_current] at hr hr'
  cases hstep with
  | nil => exact hnone hts hts' .nil hr hr'
  | token t h => exact hsome t hts hts' h hr hr'
  | gap hn h => exact hgap _ hts hts' (.gap hn h) hr hr'

/-! ## Single tokens -/

/-- A name is read alike, whatever is complained of without one. -/
theorem agree_nameOr (m : ε) (m' : ε') : Agree all all' (· = ·) (nameOr m) (nameOr m') := by
  intro ts ts' rest rest' a b _ _ hstep hr hr'
  rw [reads_nameOr] at hr hr'
  subst hr hr'
  obtain ⟨tl, htl, hrest⟩ := hstep.of_token_right nofun
  cases htl
  exact ⟨rfl, hrest⟩

/-- So is a mark. -/
theorem agree_markOr (m : Mark) (c : ε) (c' : ε') :
    Agree all all' (fun _ _ => True) (markOr m c) (markOr m c') := by
  intro ts ts' rest rest' a b _ _ hstep hr hr'
  rw [reads_markOr] at hr hr'
  subst hr hr'
  obtain ⟨tl, htl, hrest⟩ := hstep.of_token nofun
  cases htl
  exact ⟨trivial, hrest⟩

/-- A mark that may be there and is no separator is there for both or for neither. -/
theorem agree_takeMark {m : Mark} (hm : m ≠ .ampersand) :
    Agree all all' (· = ·) (takeMark m : Rule ε Bool) (takeMark m : Rule ε' Bool) := by
  intro ts ts' rest rest' a b _ _ hstep hr hr'
  rw [reads_takeMark] at hr hr'
  have hne : Token.mark m ≠ .mark .ampersand := fun h => hm (Token.mark.inj h)
  rcases hr with ⟨rfl, rfl⟩ | ⟨rfl, hhead, rfl⟩
  · obtain ⟨tl, rfl, htl⟩ := hstep.of_token nofun
    rcases hr' with ⟨rfl, h⟩ | ⟨-, h, -⟩
    · cases h
      exact ⟨rfl, htl⟩
    · exact absurd rfl h
  · rcases hr' with ⟨-, rfl⟩ | ⟨rfl, -, rfl⟩
    · obtain ⟨tl, rfl, -⟩ := hstep.of_token_right hne
      exact absurd rfl hhead
    · exact ⟨rfl, hstep⟩

/-- Where one rule needs a mark, it is there for the other one as well. -/
theorem agree_mark_takeMark {m : Mark} {c : ε} {f : Unit → Rule ε α} {f' : Bool → Rule ε' β}
    (h : Agree all all' R (f ()) (f' true)) :
    Agree all all' R (markOr m c >>= f) (takeMark m >>= f') := by
  intro ts ts' rest rest' a b hts hts' hstep hr hr'
  obtain ⟨u, mid, hu, ha⟩ := reads_bind.1 hr
  obtain ⟨x, mid', hx, hb⟩ := reads_bind.1 hr'
  rw [reads_markOr] at hu
  subst hu
  obtain ⟨tl, rfl, htl⟩ := hstep.of_token nofun
  rcases reads_takeMark.1 hx with ⟨rfl, hmid⟩ | ⟨-, hhead, -⟩
  · cases hmid
    exact h ((List.suffix_cons _ _).trans hts) ((List.suffix_cons _ _).trans hts') htl ha hb
  · exact absurd rfl hhead

/-! ## Items in a row -/

variable {starts starts' : Option Token → Bool} {xs : List α} {ys : List β}

variable (all all') in
/-- Whether rules read items alike that are read up to a mark: what is read is related and
leaves tokens in step, or the second rule is stuck at a separator. -/
def AgreeInside (R : α → β → Prop) (r : Rule ε α) (r' : Rule ε' β) : Prop :=
  ∀ ⦃ts ts' rest rest' : List Token⦄ ⦃a : α⦄ ⦃b : β⦄, ts <:+ all → ts' <:+ all' →
    InStep ts ts' → r.Reads ts a rest → r'.Reads ts' b rest' →
    R a b ∧ InStep rest rest' ∨ AtSeparator rest'

theorem Agree.inside (h : Agree all all' R r r') : AgreeInside all all' R r r' :=
  fun _ _ _ _ _ _ hts hts' hstep hr hr' => Or.inl (h hts hts' hstep hr hr')

/-- Whether a rule is not tried at a separator, or else refuses it. -/
def AvoidsSeparator (starts : Option Token → Bool) (r : Rule ε α) : Prop :=
  starts (some (.mark .ampersand)) = true →
    ∀ tl a rest, ¬r.Reads (.mark .ampersand :: tl) a rest

theorem avoidsSeparator_of_starts (h : starts (some (.mark .ampersand)) = false) :
    AvoidsSeparator starts r :=
  fun hstarts => absurd (h.symm.trans hstarts) Bool.false_ne_true

/-- Items are not read where none begins. -/
theorem many_stops {fuel : Nat} {ts rest : List Token} (h : starts ts.head? = false)
    (hr : (many fuel starts r).Reads ts xs rest) : xs = [] ∧ rest = ts := by
  cases fuel with
  | zero => exact reads_many_zero.1 hr
  | succ fuel =>
    rcases reads_many_succ.1 hr with ⟨hstarts, -⟩ | ⟨-, hxs⟩
    · exact absurd (h.symm.trans hstarts) Bool.false_ne_true
    · exact hxs

/-- Where no item begins at a separator, none is read there. -/
theorem many_at_separator (h : AvoidsSeparator starts r) {fuel : Nat} {ts rest : List Token}
    (hts : AtSeparator ts) (hr : (many fuel starts r).Reads ts xs rest) : AtSeparator rest := by
  obtain ⟨tl, rfl⟩ := hts
  cases fuel with
  | zero => exact ⟨tl, (reads_many_zero.1 hr).2⟩
  | succ fuel =>
    rcases reads_many_succ.1 hr with ⟨hstarts, x, mid, -, hx, -⟩ | ⟨-, -, hrest⟩
    · exact absurd hx (h hstarts tl x mid)
    · exact ⟨tl, hrest⟩

/-- Items that one rule reads up to a mark with which none begins are read alike by a rule that
does not stop before, whatever the fuel. -/
theorem AgreeInside.many (h : AgreeInside all all' R r r') {m : Mark}
    (hclosing' : starts' (some (.mark m)) = false)
    (hstarts : ∀ t, starts t = true → starts' t = true) (havoids : AvoidsSeparator starts' r')
    {fuel fuel' : Nat} {ts ts' rest last : List Token} (hts : ts <:+ all) (hts' : ts' <:+ all')
    (hstep : InStep ts ts') (hr : (many fuel starts r).Reads ts xs (.mark m :: rest))
    (hr' : (many fuel' starts' r').Reads ts' ys last) (hlast : starts' last.head? = false) :
    (∃ rest', last = .mark m :: rest' ∧ List.Forall₂ R xs ys ∧ InStep rest rest') ∨
      AtSeparator last := by
  -- at the mark both stop
  have hstop : ∀ {fuel' : Nat} {ys : List β} {ts' : List Token}, InStep (.mark m :: rest) ts' →
      (Rule.many fuel' starts' r').Reads ts' ys last →
      ∃ rest', last = .mark m :: rest' ∧ List.Forall₂ R [] ys ∧ InStep rest rest' := by
    intro fuel' ys ts' hstep hr'
    obtain ⟨tl, rfl, htl⟩ := hstep.of_token nofun
    obtain ⟨rfl, rfl⟩ := many_stops hclosing' hr'
    exact ⟨tl, rfl, .nil, htl⟩
  induction fuel generalizing fuel' ts ts' xs ys with
  | zero =>
    obtain ⟨rfl, rfl⟩ := reads_many_zero.1 hr
    exact Or.inl (hstop hstep hr')
  | succ fuel ih =>
    rcases reads_many_succ.1 hr with ⟨hstart, x, mid, xs, hx, hxs, rfl⟩ | ⟨-, rfl, rfl⟩
    · rcases hstep.head?_eq with hhead | hsep
      · have hstart' := hstarts _ hstart
        rw [← hhead] at hstart'
        cases fuel' with
        | zero =>
          obtain ⟨-, rfl⟩ := reads_many_zero.1 hr'
          exact absurd (hlast.symm.trans hstart') Bool.false_ne_true
        | succ fuel' =>
          rcases reads_many_succ.1 hr' with ⟨-, y, mid', ys, hy, hys, rfl⟩ | ⟨hstops, -⟩
          · rcases h hts hts' hstep hx hy with ⟨hxy, hmid⟩ | hsep
            · refine (ih (hx.isSuffix.trans hts) (hy.isSuffix.trans hts') hmid hxs hys).imp_left ?_
              rintro ⟨rest', hrest, hxys, hstep⟩
              exact ⟨rest', hrest, .cons hxy hxys, hstep⟩
            · exact Or.inr (many_at_separator havoids hsep hys)
          · exact absurd (hstops.symm.trans hstart') Bool.false_ne_true
      · exact Or.inr (many_at_separator havoids hsep hr')
    · exact Or.inl (hstop hstep hr')

/-- Items up to a mark that closes them both times. -/
theorem AgreeInside.many_closed (h : AgreeInside all all' R r r') {m : Mark} (hm : m ≠ .ampersand)
    (hclosing : starts (some (.mark m)) = false)
    (hseparator : starts (some (.mark .ampersand)) = false) {fuel fuel' : Nat}
    {ts ts' rest rest' : List Token} (hts : ts <:+ all) (hts' : ts' <:+ all')
    (hstep : InStep ts ts') (hr : (Rule.many fuel starts r).Reads ts xs (.mark m :: rest))
    (hr' : (Rule.many fuel' starts r').Reads ts' ys (.mark m :: rest')) :
    List.Forall₂ R xs ys ∧ InStep rest rest' := by
  rcases h.many hclosing (fun _ => id) (avoidsSeparator_of_starts hseparator) hts hts' hstep hr hr'
    hclosing with ⟨_, hrest, hxys⟩ | ⟨_, hrest⟩
  · cases hrest
    exact hxys
  · exact absurd (Token.mark.inj (List.cons.inj hrest).1) hm

/-- Where a mark stands and there is fuel for all tokens, an item is read behind the mark. -/
theorem many_behind_mark {fuel : Nat} {m : Mark} {tl rest : List Token}
    (hfuel : (Token.mark m :: tl).length ≤ fuel)
    (hr : (many fuel (· = some (.mark m)) (do skip; r)).Reads (.mark m :: tl) xs rest) :
    ∃ x mid others, xs = x :: others ∧ r.Reads tl x mid ∧ mid.length ≤ fuel - 1 ∧
      (many (fuel - 1) (· = some (.mark m)) (do skip; r)).Reads mid others rest := by
  obtain ⟨fuel, rfl⟩ := Nat.exists_eq_add_of_le' (Nat.lt_of_lt_of_le (Nat.succ_pos _) hfuel)
  rcases reads_many_succ.1 hr with ⟨-, x, mid, others, hx, hothers, rfl⟩ | ⟨hstops, -, -⟩
  · rw [reads_skip, List.tail_cons] at hx
    exact ⟨x, mid, others, rfl, hx, hx.isSuffix.length_le.trans (Nat.le_of_succ_le_succ hfuel),
      hothers⟩
  · exact absurd rfl (of_decide_eq_false hstops)

/-- Items behind a mark each, where there is fuel for all tokens that are left. -/
theorem Agree.many_behind_of_le (h : Agree all all' R r r') {m : Mark} (hm : m ≠ .ampersand)
    {fuel fuel' : Nat} {ts ts' rest rest' : List Token} (hts : ts <:+ all) (hts' : ts' <:+ all')
    (hfuel : ts.length ≤ fuel) (hfuel' : ts'.length ≤ fuel') (hstep : InStep ts ts')
    (hr : (many fuel (· = some (.mark m)) (do skip; r)).Reads ts xs rest)
    (hr' : (many fuel' (· = some (.mark m)) (do skip; r')).Reads ts' ys rest') :
    List.Forall₂ R xs ys ∧ InStep rest rest' := by
  induction fuel generalizing fuel' ts ts' xs ys with
  | zero =>
    obtain rfl := List.length_eq_zero_iff.1 (Nat.le_zero.1 hfuel)
    obtain rfl := hstep.nil_left
    obtain ⟨rfl, rfl⟩ := reads_many_zero.1 hr
    obtain ⟨rfl, rfl⟩ := many_stops rfl hr'
    exact ⟨.nil, .nil⟩
  | succ fuel ih =>
    by_cases hmark : ts.head? = some (.mark m)
    · obtain ⟨tl, rfl⟩ := List.head?_eq_some_iff.1 hmark
      obtain ⟨tl', rfl, htl⟩ := hstep.of_token nofun
      obtain ⟨x, mid, xs, rfl, hx, hmid, hxs⟩ := many_behind_mark hfuel hr
      obtain ⟨y, mid', ys, rfl, hy, hmid', hys⟩ := many_behind_mark hfuel' hr'
      have htl_all := (List.suffix_cons _ _).trans hts
      have htl_all' := (List.suffix_cons _ _).trans hts'
      obtain ⟨hxy, hsame⟩ := h htl_all htl_all' htl hx hy
      obtain ⟨hxys, hrest⟩ := ih (hx.isSuffix.trans htl_all) (hy.isSuffix.trans htl_all') hmid hmid'
        hsame hxs hys
      exact ⟨.cons hxy hxys, hrest⟩
    · have hmark' : ts'.head? ≠ some (.mark m) := by
        rcases hstep.head?_eq with heq | ⟨tl', rfl⟩
        · rwa [heq]
        · rintro ⟨⟩
          exact hm rfl
      obtain ⟨rfl, rfl⟩ := many_stops (decide_eq_false hmark) hr
      obtain ⟨rfl, rfl⟩ := many_stops (decide_eq_false hmark') hr'
      exact ⟨.nil, hstep⟩

/-- Items behind a mark each, which are read as long as there is one. -/
theorem Agree.many_behind (h : Agree all all' R r r') {m : Mark} (hm : m ≠ .ampersand) :
    Agree all all' (List.Forall₂ R)
      (many all.length (· = some (.mark m)) (do skip; r))
      (many all'.length (· = some (.mark m)) (do skip; r')) :=
  fun _ _ _ _ _ _ hts hts' => h.many_behind_of_le hm hts hts' hts.length_le hts'.length_le

/-- Items with a mark between them. -/
theorem Agree.separated (h : Agree all all' R r r') {m : Mark} (hm : m ≠ .ampersand) :
    Agree all all' (List.Forall₂ R) (separated all.length m r) (separated all'.length m r') :=
  h.bind fun _ _ hxy => (h.many_behind hm).bind fun _ _ hxys => agree_pure (.cons hxy hxys)

/-! ## Rules that may get stuck -/

/-- Whether a rule that finds some tokens ahead leaves such tokens behind, if it reads at all. -/
def Rule.Keeps (P : List Token → Prop) (r : Rule ε α) : Prop :=
  ∀ ⦃ts rest : List Token⦄ ⦃a : α⦄, P ts → r.Reads ts a rest → P rest

theorem keeps_pure {P : List Token → Prop} (a : α) : (pure a : Rule ε α).Keeps P := by
  rintro _ _ _ h ⟨-, rfl⟩
  exact h

theorem keeps_fail {P : List Token → Prop} (m : ε) : (fail m : Rule ε α).Keeps P :=
  fun _ _ _ _ h => False.elim h

/-- Rules that keep where they are stuck keep so in a row. -/
theorem Rule.Keeps.bind {P : List Token → Prop} (h : r.Keeps P) {f : α → Rule ε γ}
    (hf : ∀ a, (f a).Keeps P) : (r >>= f).Keeps P := by
  intro ts rest c hts hr
  obtain ⟨a, mid, ha, hc⟩ := reads_bind.1 hr
  exact hf a (h hts ha) hc

/-- Items are not begun where a rule is stuck. -/
theorem keeps_many {P : List Token → Prop} (hP : ∀ ts, P ts → starts ts.head? = false)
    (fuel : Nat) : (many fuel starts r).Keeps P := by
  intro ts rest xs hts hr
  obtain ⟨-, rfl⟩ := many_stops (hP ts hts) hr
  exact hts

/-- What is read behind a mark is not read where the mark is not. -/
theorem keeps_takeMark_bind {P : List Token → Prop} {m : Mark}
    (hP : ∀ ts, P ts → ts.head? ≠ some (.mark m)) {f : Bool → Rule ε α}
    (hf : (f false).Keeps P) : (takeMark m >>= f).Keeps P := by
  intro ts rest a hts hr
  obtain ⟨b, mid, hb, ha⟩ := reads_bind.1 hr
  rcases reads_takeMark.1 hb with ⟨-, rfl⟩ | ⟨rfl, -, rfl⟩
  · exact absurd rfl (hP _ hts)
  · exact hf hts ha

theorem AtBareName.head_ne {ts : List Token} (h : AtBareName ts) (m : Mark) :
    ts.head? ≠ some (.mark m) := by
  obtain ⟨n, tl, rfl, -⟩ := h
  nofun

theorem AtSeparator.head_ne {ts : List Token} (h : AtSeparator ts) {m : Mark}
    (hm : m ≠ .ampersand) : ts.head? ≠ some (.mark m) := by
  obtain ⟨tl, rfl⟩ := h
  intro heq
  exact hm (Token.mark.inj (Option.some.inj heq)).symm

variable (all all') in
/-- Whether two rules agree, unless one of them leaves tokens behind that it cannot be gone on
with: a name that opens no definition, or a separator. -/
def Nearly (R : α → β → Prop) (r : Rule ε α) (r' : Rule ε' β) : Prop :=
  ∀ ⦃ts ts' rest rest' : List Token⦄ ⦃a : α⦄ ⦃b : β⦄, ts <:+ all → ts' <:+ all' →
    InStep ts ts' → r.Reads ts a rest → r'.Reads ts' b rest' →
    R a b ∧ InStep rest rest' ∨ AtBareName rest ∨ AtSeparator rest'

theorem Agree.nearly (h : Agree all all' R r r') : Nearly all all' R r r' :=
  fun _ _ _ _ _ _ hts hts' hstep hr hr' => Or.inl (h hts hts' hstep hr hr')

/-- Rules in a row read alike, or one is stuck and stays so to the end. -/
theorem Nearly.bind (h : Nearly all all' R r r') {f : α → Rule ε γ} {f' : β → Rule ε' δ}
    (hf : ∀ a b, R a b → Nearly all all' Q (f a) (f' b))
    (hname : ∀ a, (f a).Keeps AtBareName) (hseparator : ∀ b, (f' b).Keeps AtSeparator) :
    Nearly all all' Q (r >>= f) (r' >>= f') := by
  intro ts ts' rest rest' c d hts hts' hstep hr hr'
  obtain ⟨a, mid, ha, hc⟩ := reads_bind.1 hr
  obtain ⟨b, mid', hb, hd⟩ := reads_bind.1 hr'
  rcases h hts hts' hstep ha hb with ⟨hab, hmid⟩ | hbare | hsep
  · exact hf a b hab (ha.isSuffix.trans hts) (hb.isSuffix.trans hts') hmid hc hd
  · exact Or.inr (Or.inl (hname a hbare hc))
  · exact Or.inr (Or.inr (hseparator b hsep hd))

/-- Rules that agree come before rules that may get stuck. -/
theorem Agree.bind_nearly (h : Agree all all' R r r') {f : α → Rule ε γ} {f' : β → Rule ε' δ}
    (hf : ∀ a b, R a b → Nearly all all' Q (f a) (f' b)) :
    Nearly all all' Q (r >>= f) (r' >>= f') := by
  intro ts ts' rest rest' c d hts hts' hstep hr hr'
  obtain ⟨a, mid, ha, hc⟩ := reads_bind.1 hr
  obtain ⟨b, mid', hb, hd⟩ := reads_bind.1 hr'
  obtain ⟨hab, hmid⟩ := h hts hts' hstep ha hb
  exact hf a b hab (ha.isSuffix.trans hts) (hb.isSuffix.trans hts') hmid hc hd

end

end SchemaCatalog
