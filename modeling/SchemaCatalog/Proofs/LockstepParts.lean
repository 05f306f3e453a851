/-
# The parts of definitions in lockstep

Every production goes in lockstep with itself, whatever the fuel, as long as it suffices for
the tokens that are left.  Separators are taken only in lists of interfaces.  What keeps the
other productions from meeting one is that they are inside brackets, or behind a mark, or
behind a word that opens a definition.
-/
import SchemaCatalog.Proofs.Lockstep

namespace SchemaCatalog.Document

open Implements Rule

variable {α : Type} {depth count fuel fuel' : Nat} {P Q : Stand → Prop} {σ : Stand}
  {next : Option Token}

/-! ## Where names are taken -/

/-- A stand where names may be taken. -/
structure AtName (depth count : Nat) (σ : Stand) : Prop extends At depth count σ where
  names : ∀ n, σ.current = some (.name n) → σ.MayTake (.name n)

/-- A stand outside all lists of interfaces. -/
structure AtOutside (depth count : Nat) (σ : Stand) : Prop extends At depth count σ where
  outside : ∀ t, σ.current = some t → σ.guard = .mark ∧ σ.passed.place = .outside

/-- A stand directly behind a mark that is no separator. -/
structure BehindMark (depth count : Nat) (σ : Stand) : Prop extends AtOutside depth count σ where
  unnamed : ∀ t, σ.current = some t → σ.passed.last = none

/-- Inside brackets names may be taken. -/
theorem At.atName (h : At depth count σ) (hdepth : 0 < depth) : AtName depth count σ :=
  ⟨h, fun _ hcur => h.mayTake hcur nofun fun _ => hdepth⟩

/-- A name lacks no separator unless it follows another one. -/
theorem Stand.mayTake_name (hguard : σ.guard = .mark) (hplace : σ.passed.place ≠ .afterName)
    (n : Name) : σ.MayTake (.name n) := by
  unfold Stand.MayTake
  rw [hguard]
  refine ⟨nofun, fun hlacks => ?_⟩
  obtain ⟨-, -, hafter, -⟩ := exists_name_of_lacksSeparator hlacks
  exact absurd hafter hplace

/-- Outside all lists names may be taken. -/
theorem AtOutside.atName (h : AtOutside depth count σ) : AtName depth count σ := by
  refine ⟨h.toAt, fun n hcur => ?_⟩
  obtain ⟨hguard, hplace⟩ := h.outside _ hcur
  exact Stand.mayTake_name hguard (by rw [hplace]; simp) n

/-- Behind a mark no separator is missing. -/
theorem At.past_mark (h : At depth count σ) {m : Mark} (hcur : σ.current = some (.mark m))
    (hm : m ≠ .ampersand) (hnext : σ.Allows next) :
    BehindMark (Spot.depthAfter depth (.mark m)) (count - 1) (σ.past (.mark m) next .mark) where
  toAt := h.past hcur hnext fun _ => rfl
  outside := fun _ _ => ⟨rfl, σ.passed.place_pass_of_ne_ampersand hm⟩
  unnamed := fun _ _ => rfl

theorem BehindMark.mono {count' : Nat} (h : BehindMark depth count σ) (hle : count ≤ count') :
    BehindMark depth count' σ := ⟨⟨h.toAt.mono hle, h.outside⟩, h.unnamed⟩

theorem AtOutside.mono {count' : Nat} (h : AtOutside depth count σ) (hle : count ≤ count') :
    AtOutside depth count' σ := ⟨h.toAt.mono hle, h.outside⟩

theorem AtName.mono {count' : Nat} (h : AtName depth count σ) (hle : count ≤ count') :
    AtName depth count' σ := ⟨h.toAt.mono hle, h.names⟩

/-- Behind a name that comes outside all lists of interfaces no separator is missing. -/
theorem AtOutside.past_name (h : AtOutside depth count σ) {n : Name}
    (hcur : σ.current = some (.name n)) (hnext : σ.Allows next) :
    AtName depth (count - 1) (σ.past (.name n) next .mark) where
  toAt := h.past hcur hnext fun _ => rfl
  names u _ := Stand.mayTake_name rfl (Passed.place_pass_ne_of_outside (h.outside _ hcur).2) u

/-- A name opens no list of interfaces, unless it is `implements` behind another name. -/
theorem AtOutside.past_name_outside (h : AtOutside depth count σ) {n : Name}
    (hcur : σ.current = some (.name n)) (hnext : σ.Allows next)
    (hn : n.text ≠ "implements" ∨ σ.passed.last = none) :
    AtOutside depth (count - 1) (σ.past (.name n) next .mark) where
  toAt := h.past hcur hnext fun _ => rfl
  outside _ _ := ⟨rfl, Passed.place_pass_of_outside (h.outside _ hcur).2 hn⟩

/-! ## Words and marks -/

/-- Wherever a name is read, and what is known behind it. -/
theorem steps_nameOr_past (hpast : ∀ σ n next, P σ → σ.current = some (.name n) →
      σ.Allows next → Q (σ.past (.name n) next .mark))
    (hP : ∀ σ, P σ → AtName depth count σ) (m : String) :
    Steps P (nameOr m) (nameOr m) Q := by
  refine steps_current fun t => ?_
  split
  · next n =>
    exact steps_take (fun σ hσ hcur => (hP σ hσ).names n hcur)
      (fun σ next => hpast σ n next) (steps_pure fun _ h => h)
  · exact steps_fail m m

/-- A name is taken by both readers, or refused by both. -/
theorem steps_nameOr (m : String) :
    Steps (AtName depth count) (nameOr m) (nameOr m) (At depth (count - 1)) :=
  steps_nameOr_past (fun _ _ _ hσ hcur hnext => hσ.past hcur hnext fun _ => rfl)
    (fun _ h => h) m

theorem steps_name : Steps (AtName depth count) name name (At depth (count - 1)) :=
  steps_nameOr _

/-- Behind a name that is declared a word may follow. -/
theorem steps_declaredName (m : String) :
    Steps (AtOutside depth count) (nameOr m) (nameOr m) (AtName depth count) :=
  steps_nameOr_past
    (fun _ _ _ hσ hcur hnext => (hσ.past_name hcur hnext).mono (Nat.sub_le _ _))
    (fun _ h => h.atName) m

/-- Wherever a word is taken, or is not there. -/
theorem steps_takeWord {word : String} (hP : ∀ σ, P σ → AtName depth count σ)
    (hpast : ∀ σ n next, P σ → σ.current = some (.name n) → n.text = word → σ.Allows next →
      Q (σ.past (.name n) next .mark))
    (hstay : ∀ σ, P σ → Q σ) : Steps P (takeWord word) (takeWord word) Q := by
  refine steps_current fun t => ?_
  split
  · next n =>
    split
    · next hn =>
      exact steps_take (fun σ hσ hcur => (hP σ hσ).names n hcur)
        (fun σ next hσ hcur hnext => hpast σ n next hσ hcur hn hnext) (steps_pure fun _ h => h)
    · exact steps_pure fun σ h => hstay σ h.1
  · exact steps_pure fun σ h => hstay σ h.1

/-- A mark that is no separator is seen by both readers or by neither. -/
theorem steps_takeMark (m : Mark) (hm : m ≠ .ampersand) (hP : ∀ σ, P σ → At depth count σ)
    {f f' : Bool → Production α}
    (htrue : Steps (BehindMark (Spot.depthAfter depth (.mark m)) (count - 1)) (f true) (f' true) Q)
    (hfalse : Steps P (f false) (f' false) Q) :
    Steps P (takeMark m >>= f) (takeMark m >>= f') Q :=
  fun σ hσ => .takeMark hm (fun hcur _ hnext => htrue _ ((hP σ hσ).past_mark hcur hm hnext))
    fun _ => hfalse σ hσ

/-- A mark that has to stand here is taken by both readers, or missed by both. -/
theorem steps_markOr (m : Mark) (hm : m ≠ .ampersand) (e : String) :
    Steps (At depth count) (markOr m e) (markOr m e)
      (BehindMark (Spot.depthAfter depth (.mark m)) (count - 1)) := by
  refine steps_current fun t => ?_
  split
  · next ht =>
    subst ht
    exact steps_take (f := fun _ => Rule.done ())
      (fun σ hσ hcur => hσ.mayTake hcur (by simpa using hm) nofun)
      (fun σ next hσ hcur hnext => hσ.past_mark hcur hm hnext) (steps_pure fun _ h => h)
  · exact steps_fail e e

/-- A mark that closes brackets leads one level out. -/
theorem steps_close {m : Mark} (hm : m.isClosing = true) (label : String) :
    Steps (At (depth + 1) count) (close m label) (close m label)
      (BehindMark depth (count - 1)) := by
  have hdepth : Spot.depthAfter (depth + 1) (.mark m) = depth := by
    cases m <;> first | rfl | cases hm
  have hne : m ≠ .ampersand := by
    rintro rfl
    cases hm
  refine steps_current fun t => ?_
  cases t with
  | none => exact steps_fail _ _
  | some t =>
    dsimp only
    split
    · next ht =>
      subst ht
      refine steps_take (f := fun _ => Rule.done ())
        (fun σ hσ hcur => hσ.mayTake hcur (by simpa using hne) nofun)
        (fun σ next hσ hcur hnext => ?_) (steps_pure fun _ h => h)
      have := hσ.past_mark hcur hne hnext
      rwa [hdepth] at this
    · exact steps_fail _ _

/-- A description is taken by both readers, or by neither. -/
theorem steps_description :
    Steps (At depth count) description description (At depth count) := by
  refine steps_current fun t => ?_
  split
  · exact steps_skip (t := .string _) nofun nofun (steps_pure fun σ h => h.mono (Nat.sub_le _ _))
  · exact steps_pure fun σ h => h.1

/-- Items inside brackets. -/
theorem steps_items {starts : Option Token → Bool} (hnone : starts none = false)
    {item item' : Production α}
    (hitem : ∀ k, k + 1 ≤ count → Steps (At depth (k + 1)) item item' (At depth k))
    (hfuel : count ≤ fuel) (hfuel' : count ≤ fuel') :
    Steps (At depth count) (many fuel starts item) (many fuel' starts item') (At depth count) :=
  (steps_manyAt hnone (fun k hk _ _ => (hitem k hk).mono (fun _ h => h.1) fun _ h => h)
    hfuel hfuel').mono (fun _ h => h) fun _ h => h.1

/-- Members between brackets that go in lockstep. -/
theorem steps_members {opening closing : Mark} (ho : opening.isOpening = true)
    (hc : closing.isClosing = true) (label message : String) {item item' : Production α}
    (hP : ∀ σ, P σ → At depth count σ) (hback : ∀ σ, BehindMark depth count σ → P σ)
    (hitem : ∀ k, k + 1 ≤ count →
      Steps (At (depth + 1) (k + 1)) item item' (At (depth + 1) k))
    (hfuel : count ≤ fuel) (hfuel' : count ≤ fuel') :
    Steps P (members fuel opening closing label message item)
      (members fuel' opening closing label message item') P := by
  have hdepth : Spot.depthAfter depth (.mark opening) = depth + 1 := by
    cases opening <;> first | rfl | cases ho
  unfold members
  refine steps_takeMark opening (by rintro rfl; cases ho) hP ?_ (steps_pure fun _ h => h)
  rw [if_pos rfl, if_pos rfl, hdepth]
  refine steps_current fun t => ?_
  split
  · refine Steps.weaken (P := At (depth + 1) count) ?_ fun σ h => h.1.toAt.mono (Nat.sub_le _ _)
    refine (steps_items rfl hitem hfuel hfuel').bind fun items => ?_
    refine (steps_close hc label).bind fun _ => ?_
    exact steps_pure fun σ h => hback σ (h.mono (Nat.sub_le _ _))
  · exact steps_fail _ _

/-! ## References to types -/

/-- A reference is read side by side if the one in its brackets is. -/
theorem steps_typeRefWith {element : Production TypeRef} (hdepth : 0 < depth)
    (helement : ∀ depth count, 0 < depth →
      Steps (At depth count) element element (At depth count)) :
    Steps (At depth count) (typeRefWith element) (typeRefWith element) (At depth count) := by
  refine steps_current fun t => ?_
  split
  · refine steps_skip (t := .name _) nofun (fun _ => hdepth) ?_
    refine steps_takeMark .bang nofun (fun _ h => h) ?_ ?_
    · exact steps_pure fun σ h => h.toAt.mono (by omega)
    · exact steps_pure fun σ h => h.mono (by omega)
  · refine steps_skip (t := .mark .openBracket) nofun nofun ?_
    refine (helement _ _ (Nat.succ_pos _)).bind fun t => ?_
    refine (steps_close rfl _).bind fun _ => ?_
    refine steps_takeMark .bang nofun (fun _ h => h.toAt) ?_ ?_
    · exact steps_pure fun σ h => h.toAt.mono (by omega)
    · exact steps_pure fun σ h => h.toAt.mono (by omega)
  · exact steps_fail _ _

/-- References are read side by side at any depth. -/
theorem steps_typeRef (levels : Nat) (hdepth : 0 < depth) :
    Steps (At depth count) (typeRef levels) (typeRef levels) (At depth count) := by
  induction levels generalizing depth count with
  | zero => exact steps_typeRefWith hdepth fun _ _ _ => steps_fail _ _
  | succ levels ih => exact steps_typeRefWith hdepth fun _ _ h => ih h

theorem steps_typeOr (hdepth : 0 < depth) (message : String) :
    Steps (At depth count) (typeOr message) (typeOr message) (At depth count) := by
  refine steps_current fun t => ?_
  split
  · exact (steps_typeRef maxLevels hdepth).weaken fun _ h => h.1
  · exact steps_fail _ _

/-! ## Values and directives -/

/-- What stands behind a colon is read side by side if it is there. -/
theorem steps_afterColon {item item' : Production α}
    (hitem : Steps (At depth count) item item' (At depth count)) :
    Steps (At depth count) (afterColon item) (afterColon item') (At depth count) := by
  unfold afterColon
  refine steps_takeMark .colon nofun (fun _ h => h) ?_ (steps_pure fun _ h => h)
  refine Steps.bind (hitem.weaken fun σ h => h.toAt.mono (Nat.sub_le _ _)) fun a => ?_
  exact steps_pure fun _ h => h

/-- The items of a list, up to its bracket or to the end of the text. -/
theorem steps_listItems {inner inner' : Production Value}
    (hinner : ∀ k, k + 1 ≤ count →
      Steps (At (depth + 1) (k + 1)) inner inner' (At (depth + 1) k))
    (hfuel : count ≤ fuel) (hfuel' : count ≤ fuel') :
    Steps (At (depth + 1) count)
      (do
        let items ← many fuel startsListItem inner
        let _ ← takeMark .closeBracket
        pure (Value.list items))
      (do
        let items ← many fuel' startsListItem inner'
        let _ ← takeMark .closeBracket
        pure (Value.list items))
      (At depth count) := by
  refine (steps_manyAt rfl (fun k hk _ _ => (hinner k hk).weaken fun _ h => h.1)
    hfuel hfuel').bind fun items => ?_
  rintro σ ⟨hσ, hend⟩
  refine .takeMark nofun (fun hcur _ hnext => ?_) fun hcur => ?_
  · exact .pure ((hσ.past_mark hcur nofun hnext).toAt.mono (Nat.sub_le _ _))
  · -- if there is no bracket, the text ends here
    refine .pure ⟨hσ.left, fun t ht => ?_⟩
    rw [ht] at hend hcur
    simp only [startsListItem, Option.isSome_some, Bool.true_and, decide_eq_false_iff_not,
      not_not] at hend
    exact absurd hend hcur

/-- A value takes a token at least; those inside it are read with the tokens that are left. -/
theorem steps_valueWith {constant : Bool} {inner inner' : Production Value}
    (hdepth : 0 < depth) (hinner : ∀ depth k, 0 < depth → k ≤ count →
      Steps (At depth k) inner inner' (At depth (k - 1)))
    (hfuel : count ≤ fuel) (hfuel' : count ≤ fuel') :
    Steps (At depth count) (valueWith fuel constant inner) (valueWith fuel' constant inner')
      (At depth (count - 1)) := by
  have hfuel₁ : count - 1 ≤ fuel := by omega
  have hfuel₁' : count - 1 ≤ fuel' := by omega
  refine steps_current fun t => ?_
  split
  · split
    · exact steps_fail _ _
    · refine steps_skip (t := .mark .dollar) nofun nofun ?_
      refine (steps_name.weaken fun σ h => h.atName hdepth).bind fun n => ?_
      exact steps_pure fun σ h => h.mono (by omega)
  · exact steps_skip (t := .int _) nofun nofun (steps_pure fun _ h => h)
  · exact steps_skip (t := .float _) nofun nofun (steps_pure fun _ h => h)
  · exact steps_skip (t := .string _) nofun nofun (steps_pure fun _ h => h)
  · exact steps_skip (t := .name _) nofun (fun _ => hdepth) (steps_pure fun _ h => h)
  · refine steps_skip (t := .mark .openBracket) nofun nofun ?_
    refine steps_listItems (fun k hk => ?_) hfuel₁ hfuel₁'
    exact hinner _ _ (Nat.succ_pos _) (by omega)
  · refine steps_skip (t := .mark .openBrace) nofun nofun ?_
    refine (steps_items rfl (fun k hk => ?_) hfuel₁ hfuel₁').bind fun fields => ?_
    · refine (steps_name.weaken fun σ h => h.atName (Nat.succ_pos _)).bind fun n => ?_
      refine (steps_afterColon ?_).bind fun v => steps_pure fun _ h => h
      exact (hinner _ _ (Nat.succ_pos _) (by omega)).mono (fun _ h => h)
        fun σ h => h.mono (Nat.sub_le _ _)
    · exact (steps_close rfl _).bind fun _ => steps_pure fun σ h => h.toAt.mono (Nat.sub_le _ _)
  · exact steps_fail _ _

/-- Values are read side by side at any depth, as long as there is fuel for all tokens. -/
theorem steps_value {constant : Bool} (levels : Nat) (hdepth : 0 < depth)
    (hfuel : count ≤ fuel) (hfuel' : count ≤ fuel') :
    Steps (At depth count) (value fuel constant levels) (value fuel' constant levels)
      (At depth (count - 1)) := by
  induction levels generalizing depth count with
  | zero => exact steps_valueWith hdepth (fun _ _ _ _ => steps_fail _ _) hfuel hfuel'
  | succ levels ih =>
    refine steps_valueWith hdepth (fun depth k hdepth hk => ?_) hfuel hfuel'
    exact ih hdepth (by omega) (by omega)

/-- The arguments of a directive stand between parentheses, if there are any. -/
theorem steps_arguments {constant : Bool} (levels : Nat)
    (hfuel : count ≤ fuel) (hfuel' : count ≤ fuel') :
    Steps (At depth count) (arguments fuel constant levels) (arguments fuel' constant levels)
      (At depth count) := by
  unfold arguments
  refine steps_takeMark .openParen nofun (fun _ h => h) ?_ (steps_pure fun _ h => h)
  refine steps_current fun t => ?_
  split
  · refine Steps.weaken (P := At (depth + 1) count) ?_ fun σ h => h.1.toAt.mono (Nat.sub_le _ _)
    refine (steps_items rfl (fun k hk => ?_) hfuel hfuel').bind fun items => ?_
    · refine (steps_name.weaken fun σ h => h.atName (Nat.succ_pos _)).bind fun n => ?_
      refine (steps_afterColon ?_).bind fun v => steps_pure fun _ h => h
      exact (steps_value levels (Nat.succ_pos _) (by omega) (by omega)).mono (fun _ h => h)
        fun σ h => h.mono (Nat.sub_le _ _)
    · exact (steps_close rfl _).bind fun _ => steps_pure fun σ h => h.toAt.mono (Nat.sub_le _ _)
  · exact steps_fail _ _

/-- Directives are read side by side, each met by its mark. -/
theorem steps_directives {constant : Bool} (levels : Nat)
    (hfuel : count ≤ fuel) (hfuel' : count ≤ fuel') :
    Steps (At depth count) (directives fuel constant levels) (directives fuel' constant levels)
      (At depth count) := by
  refine (steps_manyAt (by simp) (fun k hk t ht => ?_) hfuel hfuel').mono (fun _ h => h)
    fun _ h => h.1
  obtain rfl : t = some (.mark .atSign) := by simpa using ht
  refine steps_take (R := AtName depth k) (fun σ hσ hcur => hσ.mayTake hcur nofun nofun)
    (fun σ next hσ hcur hnext => (hσ.past_mark hcur nofun hnext).atName) ?_
  refine steps_name.bind fun n => ?_
  refine (steps_arguments levels (by omega) (by omega)).bind fun args => ?_
  exact steps_pure fun σ h => h.mono (Nat.sub_le _ _)

theorem steps_schemaDirectives (hfuel : count ≤ fuel) (hfuel' : count ≤ fuel') :
    Steps (At depth count) (schemaDirectives fuel) (schemaDirectives fuel') (At depth count) :=
  steps_directives maxLevels hfuel hfuel'

/-! ## Members of types -/

/-- A default is read side by side behind its mark. -/
theorem steps_defaultValue (hdepth : 0 < depth) (hfuel : count ≤ fuel) (hfuel' : count ≤ fuel') :
    Steps (At depth count) (defaultValue fuel) (defaultValue fuel') (At depth count) := by
  unfold defaultValue
  refine steps_takeMark .equals nofun (fun _ h => h) ?_ (steps_pure fun _ h => h)
  refine Steps.weaken (P := At depth count) ?_ fun σ h => h.toAt.mono (Nat.sub_le _ _)
  refine (steps_value maxLevels hdepth hfuel hfuel').bind fun v => ?_
  exact steps_pure fun σ h => h.mono (Nat.sub_le _ _)

/-- An argument takes a token at least, its name. -/
theorem steps_inputValue (hdepth : 0 < depth) (hfuel : count ≤ fuel) (hfuel' : count ≤ fuel') :
    Steps (At depth count) (inputValue fuel) (inputValue fuel') (At depth (count - 1)) := by
  unfold inputValue
  refine steps_description.bind fun d => ?_
  refine (steps_name.weaken fun σ h => h.atName hdepth).bind fun n => ?_
  refine (steps_markOr .colon nofun _).bind fun _ => ?_
  refine Steps.weaken (P := At depth (count - 1)) ?_ fun σ h => h.toAt.mono (Nat.sub_le _ _)
  refine (steps_typeOr hdepth _).bind fun t => ?_
  refine (steps_defaultValue hdepth (by omega) (by omega)).bind fun v => ?_
  refine (steps_schemaDirectives (by omega) (by omega)).bind fun ds => ?_
  exact steps_pure fun _ h => h

/-- The arguments of a definition, wherever it does not matter whether there are any. -/
theorem steps_argumentsDefinition (hP : ∀ σ, P σ → At depth count σ)
    (hback : ∀ σ, BehindMark depth count σ → P σ)
    (hfuel : count ≤ fuel) (hfuel' : count ≤ fuel') :
    Steps P (argumentsDefinition fuel) (argumentsDefinition fuel') P := by
  refine Steps.bind (steps_members rfl rfl _ _ hP hback (fun k hk => ?_) hfuel hfuel')
    fun args => steps_pure fun _ h => h
  exact steps_inputValue (Nat.succ_pos _) (by omega) (by omega)

/-- A field takes a token at least, its name. -/
theorem steps_field (hdepth : 0 < depth) (hfuel : count ≤ fuel) (hfuel' : count ≤ fuel') :
    Steps (At depth count) (field fuel) (field fuel') (At depth (count - 1)) := by
  unfold field
  refine steps_description.bind fun d => ?_
  refine (steps_name.weaken fun σ h => h.atName hdepth).bind fun n => ?_
  refine (steps_argumentsDefinition (fun _ h => h) (fun _ h => h.toAt) (by omega)
    (by omega)).bind fun args => ?_
  refine (steps_markOr .colon nofun _).bind fun _ => ?_
  refine Steps.weaken (P := At depth (count - 1)) ?_ fun σ h => h.toAt.mono (Nat.sub_le _ _)
  refine (steps_typeOr hdepth _).bind fun t => ?_
  refine (steps_schemaDirectives (by omega) (by omega)).bind fun ds => ?_
  exact steps_pure fun _ h => h

/-- A value of an enum takes a token at least, its name. -/
theorem steps_enumValue (hdepth : 0 < depth) (hfuel : count ≤ fuel) (hfuel' : count ≤ fuel') :
    Steps (At depth count) (enumValue fuel) (enumValue fuel') (At depth (count - 1)) := by
  unfold enumValue
  refine steps_description.bind fun d => ?_
  refine steps_current fun t => ?_
  split
  · split
    · exact steps_fail _ _
    · refine steps_skip (t := .name _) nofun (fun _ => hdepth) ?_
      refine (steps_schemaDirectives (by omega) (by omega)).bind fun ds => ?_
      exact steps_pure fun _ h => h
  · exact steps_fail _ _

/-- Names in a row, each behind a mark. -/
theorem steps_piped {item item' : Production α}
    (hitem : ∀ k, Steps (AtName depth k) item item' (At depth k))
    (hfuel : count ≤ fuel) (hfuel' : count ≤ fuel') :
    Steps (AtName depth count) (separated fuel .pipe item) (separated fuel' .pipe item')
      (At depth count) := by
  refine (hitem count).bind fun first => ?_
  refine Steps.bind (R := At depth count) ?_ fun others => steps_pure fun _ h => h
  refine (steps_manyAt (by simp) (fun k hk t ht => ?_) hfuel hfuel').mono (fun _ h => h)
    fun _ h => h.1
  obtain rfl : t = some (.mark .pipe) := by simpa using ht
  exact steps_take (R := AtName depth k) (fun σ hσ hcur => hσ.mayTake hcur nofun nofun)
    (fun σ next hσ hcur hnext => (hσ.past_mark hcur nofun hnext).atName) (hitem k)

/-- The members of a union come behind marks. -/
theorem steps_unionMembers (hfuel : count ≤ fuel) (hfuel' : count ≤ fuel') :
    Steps (At 0 count) (unionMembers fuel) (unionMembers fuel') (At 0 count) := by
  unfold unionMembers
  refine steps_takeMark .equals nofun (fun _ h => h) ?_ (steps_pure fun _ h => h)
  have hread : Steps (AtName 0 count)
      (separated fuel .pipe (nameOr "expected Union Member Type") >>= fun ms => pure (some ms))
      (separated fuel' .pipe (nameOr "expected Union Member Type") >>= fun ms => pure (some ms))
      (At 0 count) := by
    refine (steps_piped (fun k => ?_) hfuel hfuel').bind fun ms => steps_pure fun _ h => h
    exact (steps_nameOr _).mono (fun _ h => h) fun σ h => h.mono (Nat.sub_le _ _)
  refine steps_takeMark .pipe nofun (fun _ h => h.toAt) ?_ ?_
  · exact hread.weaken fun σ h => (h.mono (by omega)).atName
  · exact hread.weaken fun σ h => (h.mono (by omega)).atName

/-! ## Lists of interfaces -/

/-- A stand behind the name of an interface, where no name that lacks a separator is taken. -/
structure BehindInterface (count : Nat) (σ : Stand) : Prop extends At 0 count σ where
  closed : ∀ t, σ.current = some t → σ.guard = .name

theorem BehindInterface.mono {count' : Nat} (h : BehindInterface count σ) (hle : count ≤ count') :
    BehindInterface count' σ := ⟨h.toAt.mono hle, h.closed⟩

/-- The name of an interface leads behind an interface, where a separator may be missing. -/
theorem steps_interface : Steps (AtName 0 count) (nameOr "expected an Interface name")
    (nameOr "expected an Interface name") (BehindInterface (count - 1)) := by
  refine steps_current fun t => ?_
  split
  · next n =>
    rintro σ ⟨hσ, hcur⟩
    have hdepth : σ.depth = 0 := (hσ.here _ hcur).2.1
    refine .skip hcur (hσ.names n hcur) .name hdepth fun next hnext => .pure ?_
    exact ⟨hσ.past hcur hnext nofun, fun _ _ => rfl⟩
  · exact steps_fail _ _

/-- A separator leads to a name. -/
theorem At.past_separator (h : At 0 count σ)
    (hcur : σ.current = some (.mark .ampersand)) (hnext : σ.Allows next) :
    AtName 0 (count - 1) (σ.past (.mark .ampersand) next .mark) where
  toAt := h.past hcur hnext nofun
  names n _ := Stand.mayTake_name rfl (σ.passed.place_pass_mark .ampersand) n

/-- Interfaces in a row, each but the first behind a separator. -/
theorem steps_interfaces (hfuel : count ≤ fuel) (hfuel' : count ≤ fuel') :
    Steps (AtName 0 count) (separated fuel .ampersand (nameOr "expected an Interface name"))
      (separated fuel' .ampersand (nameOr "expected an Interface name")) (At 0 count) := by
  refine steps_interface.bind fun first => ?_
  refine Steps.bind (R := At 0 count) ?_ fun others => steps_pure fun _ h => h
  refine (steps_many (I := BehindInterface) (fun k σ h => h.mono (Nat.le_succ k)) ?_ ?_ hfuel
    hfuel').mono (fun σ h => h.mono (Nat.sub_le _ _)) fun _ h => h.1.toAt
  · intro σ hσ
    cases hcur : σ.current with
    | none => simp
    | some t =>
      have := (hσ.here t hcur).1
      have := hσ.left
      omega
  · intro k hk t ht
    obtain rfl : t = some (.mark .ampersand) := by simpa using ht
    refine steps_take (R := AtName 0 k) (fun σ hσ hcur => ?_)
      (fun σ next hσ hcur hnext => hσ.toAt.past_separator hcur hnext)
      (steps_interface.mono (fun _ h => h) fun σ h => h.mono (Nat.sub_le _ _))
    unfold Stand.MayTake
    rw [hσ.closed _ hcur]
    rfl

/-- Directly behind the word that opens a list a separator is taken, and so is a name whether
or not it lacks one. -/
structure BehindImplements (count : Nat) (σ : Stand) : Prop extends At 0 count σ where
  opened : σ.guard = .both

/-- Directly behind `implements` any token may be taken. -/
theorem BehindImplements.mayTake (h : BehindImplements count σ) (t : Token) : σ.MayTake t := by
  unfold Stand.MayTake
  rw [h.opened]
  trivial

/-- A separator before the first interface may be there or not. -/
theorem steps_leadingSeparator {f f' : Bool → Production α}
    (h : ∀ b, Steps (AtName 0 count) (f b) (f' b) Q) :
    Steps (BehindImplements count) (takeMark .ampersand >>= f) (takeMark .ampersand >>= f') Q := by
  intro σ hσ
  refine .bind (.current ?_)
  by_cases hcur : σ.current = some (.mark .ampersand)
  · rw [if_pos hcur]
    refine .skip hcur (hσ.mayTake _) .mark trivial fun next hnext => .pure (h true _ ?_)
    exact (hσ.toAt.past_separator hcur hnext).mono (Nat.sub_le _ _)
  · rw [if_neg hcur]
    exact .pure (h false σ ⟨hσ.toAt, fun n _ => hσ.mayTake _⟩)

/-- What is read behind the word that opens a list would take a separator as well. -/
theorem keeps_leadingSeparator {f : Bool → Production α} (hf : f true = f false) {s : Spot}
    {n : Name} (hdepth : s.depth = 0) (hn : n.text = "implements") :
    Keeps (s.pass (.name n)) (takeMark .ampersand >>= f) .both := by
  refine ⟨hdepth, fun _ => ⟨⟨hdepth, n, rfl, hn⟩, fun n => ⟨f true, rfl, ?_⟩⟩⟩
  rw [hf]
  rfl

/-- **Lists of interfaces.**  The only separators are taken here, and a list takes no name
that lacks one, unless it is the first. -/
theorem steps_implements (hfuel : count ≤ fuel) (hfuel' : count ≤ fuel') :
    Steps (AtName 0 count) (implements fuel) (implements fuel') (At 0 count) := by
  have hlist : Steps (BehindImplements count)
      (takeMark .ampersand >>= fun _ => do
        pure (some (← separated fuel .ampersand (nameOr "expected an Interface name"))))
      (takeMark .ampersand >>= fun _ => do
        pure (some (← separated fuel' .ampersand (nameOr "expected an Interface name"))))
      (At 0 count) :=
    steps_leadingSeparator fun _ => (steps_interfaces hfuel hfuel').bind fun _ =>
      steps_pure fun _ h => h
  intro σ hσ
  refine .takeWord (fun n hcur hn => ?_) (.pure hσ.toAt)
  have hdepth := (hσ.here _ hcur).2.1
  refine .skip hcur (hσ.names n hcur) .both (keeps_leadingSeparator rfl hdepth hn) ?_
  intro next hnext
  refine (hlist _ ⟨?_, rfl⟩)
  exact (hσ.past hcur hnext nofun).mono (Nat.sub_le _ _)

end SchemaCatalog.Document
