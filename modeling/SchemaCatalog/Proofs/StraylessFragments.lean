/-
# What a fragment leaves no room for

The rules for fragments are wary: they take nothing but a token that they have looked at.
So a lexeme that is no token is never passed, and a fragment that is read to its end
consists of tokens and white space.
-/
import SchemaCatalog.Fragment.Grammar
import SchemaCatalog.Proofs.Feeding

namespace SchemaCatalog

open Lexeme (Kind)

namespace Rule

variable {ε α β : Type} {r : Rule ε α} {seen : Bool}

/-! ## Wary rules -/

/-- A rule takes only what it has looked at and found to be a token.  `seen` tells whether
this holds of the current one. -/
def IsWary : Bool → Rule ε α → Prop
  | _, done _ => True
  | _, fail _ => True
  | _, look go => ∀ t, (go t).IsWary t.isSome
  | seen, lookPast go => ∀ t, (go t).IsWary seen
  | seen, take go => seen = true ∧ go.IsWary false

/-- What is wary without knowing the current token is so when it is known. -/
theorem IsWary.mono (h : r.IsWary false) : r.IsWary seen := by
  induction r with
  | done | fail => trivial
  | look go => exact h
  | lookPast go ih => exact fun t => ih t (h t)
  | take go => cases h.1

/-- Nothing is known of the current token where the next rule begins. -/
theorem IsWary.bind (h : r.IsWary seen) {f : α → Rule ε β} (hf : ∀ a, (f a).IsWary false) :
    (r >>= f).IsWary seen := by
  induction r generalizing seen with
  | done a => exact (hf a).mono
  | fail m => trivial
  | look go ih => exact fun t => ih t (h t)
  | lookPast go ih => exact fun t => ih t (h t)
  | take go ih => exact ⟨h.1, ih h.2⟩

theorem isWary_pure (a : α) : (pure a : Rule ε α).IsWary seen := trivial

theorem isWary_fail (m : ε) : (fail m : Rule ε α).IsWary seen := trivial

/-- Looking at the current token tells whether it may be taken. -/
theorem isWary_current {f : Option Token → Rule ε α} (hf : ∀ t, (f t).IsWary t.isSome) :
    (current >>= f).IsWary seen := hf

/-- A token that was looked at may be taken; of the next one nothing is known. -/
theorem isWary_skip {f : Unit → Rule ε α} (hf : (f ()).IsWary false) :
    (skip >>= f).IsWary true := ⟨rfl, hf⟩

theorem isWary_skip_end : (skip : Rule ε Unit).IsWary true := ⟨rfl, trivial⟩

/-- A mark is taken only where it was seen. -/
theorem isWary_takeMark (m : Mark) : (takeMark m : Rule ε Bool).IsWary seen := by
  refine isWary_current fun t => ?_
  split
  · next h =>
    rw [h]
    exact isWary_skip (isWary_pure _)
  · exact isWary_pure _

/-- A name is taken only where one was seen. -/
theorem isWary_nameOr (m : ε) : (nameOr m).IsWary seen := by
  refine isWary_current fun t => ?_
  split
  · exact isWary_skip (isWary_pure _)
  · exact isWary_fail _

/-- A mark that has to stand here is taken only where it was seen. -/
theorem isWary_markOr (m : Mark) (c : ε) : (markOr m c).IsWary seen := by
  refine isWary_current fun t => ?_
  split
  · next h =>
    rw [h]
    exact isWary_skip_end
  · exact isWary_fail _

/-- A word is taken only where it was seen. -/
theorem isWary_takeWord (word : String) : (takeWord word : Rule ε Bool).IsWary seen := by
  refine isWary_current fun t => ?_
  split
  · split
    · exact isWary_skip (isWary_pure _)
    · exact isWary_pure _
  · exact isWary_pure _

/-- An item may take the token that it starts with. -/
theorem isWary_many {starts : Option Token → Bool} (hstarts : starts none = false)
    (h : r.IsWary true) (fuel : Nat) : (many fuel starts r).IsWary seen := by
  have hfrom : ∀ read, (manyFrom starts r fuel read).IsWary seen := by
    induction fuel generalizing seen with
    | zero => exact fun read => isWary_pure _
    | succ fuel ih =>
      refine fun read => isWary_current fun t => ?_
      split
      · next ht =>
        have hsome : t.isSome = true := by
          cases t with
          | none => exact absurd (hstarts.symm.trans ht) Bool.false_ne_true
          | some t => rfl
        rw [hsome]
        exact h.bind fun x => ih _
      · exact isWary_pure _
  exact hfrom []

/-- Items between marks are read warily if each item is. -/
theorem isWary_separated (m : Mark) (h : r.IsWary false) (fuel : Nat) :
    (separated fuel m r).IsWary seen := by
  refine h.mono.bind fun first => ?_
  refine (isWary_many rfl (isWary_skip h) fuel).bind fun others => isWary_pure _

/-! ## Strays -/

/-- The number of stray lexemes among some kinds. -/
def strayCount (ks : List Kind) : Nat :=
  ks.countP fun k => match k with
    | .stray _ => true
    | _ => false

/-- Passing white space and commas passes no stray lexeme. -/
theorem strayCount_settleKinds {ks rest : List Kind} (h : settleKinds ks = some rest) :
    strayCount rest = strayCount ks := by
  induction ks with
  | nil =>
    cases h
    rfl
  | cons k ks ih =>
    cases k with
    | blank | comma => exact ih h
    | token t | stray m =>
      cases h
      rfl
    | flaw m => cases h

/-- A wary rule passes no stray lexeme. -/
theorem IsWary.strayCount_eq {ks rest : List Kind} {a : α} (h : r.IsWary seen)
    (hseen : seen = true → (headKind ks).isSome = true)
    (hrun : r.runKinds ks = some (a, rest)) : strayCount rest = strayCount ks := by
  induction r generalizing seen ks with
  | done b =>
    cases hrun
    rfl
  | fail m => cases hrun
  | look go ih => exact ih _ (h _) id hrun
  | lookPast go ih => exact ih _ (h _) hseen hrun
  | take go ih =>
    obtain ⟨hseen', hgo⟩ := h
    rw [runKinds, Option.bind_eq_some_iff] at hrun
    obtain ⟨ahead, hsettle, hrun⟩ := hrun
    rw [ih hgo (absurd · Bool.false_ne_true) hrun, strayCount_settleKinds hsettle]
    -- what is taken is a token
    cases ks with
    | nil => rfl
    | cons k ks =>
      cases k with
      | token t => rfl
      | blank | comma | flaw | stray => cases hseen hseen'

/-- A wary rule that runs from a token on leaves as many stray lexemes as there were. -/
theorem IsWary.strayCount_of_run {ls rest : List Lexeme} {a : α} (h : r.IsWary seen)
    (hls : IsSettled ls) (hseen : seen = true → (headToken ls).isSome = true)
    (hrun : r.run ls = .ok (a, rest)) :
    IsSettled rest ∧ strayCount (kindsOf rest) = strayCount (kindsOf ls) := by
  have hkinds := r.run_kinds hls
  rw [hrun] at hkinds
  refine ⟨hkinds.1, h.strayCount_eq ?_ hkinds.2⟩
  rwa [headKind_kindsOf hls]

end Rule

namespace Fragment

open Rule

/-! ## The grammar -/

theorem isWary_name : name.IsWary false := isWary_nameOr _

theorem isWary_mark (m : Mark) : (mark m).IsWary false := isWary_markOr _ _

/-- A string is taken once it is understood, so the token must have been seen before. -/
theorem isWary_stringOf (text : String) : (stringOf text).IsWary true := by
  unfold stringOf
  split
  · exact isWary_skip (isWary_pure _)
  · exact isWary_fail _
  · exact isWary_fail _

/-- A description is looked at before it is taken. -/
theorem isWary_description : description.IsWary false := by
  refine isWary_current fun t => ?_
  split
  · exact (isWary_stringOf _).bind fun s => isWary_pure _
  · exact isWary_pure _

/-- Items between two marks are read warily if none begins where no token stands. -/
theorem isWary_between {α : Type} {starts : Option Token → Bool} (hstarts : starts none = false)
    {item : Production α} (h : item.IsWary false) (fuel : Nat) (opening closing : Mark)
    (onward : List String) : (between fuel opening closing starts item onward).IsWary false := by
  refine (isWary_takeMark _).bind fun b => ?_
  split
  · refine h.bind fun first => (isWary_many hstarts h.mono fuel).bind fun others => ?_
    exact (isWary_markOr _ _).bind fun _ => isWary_pure _
  · exact isWary_pure _

/-- A reference is read warily if the one in its brackets is. -/
theorem isWary_typeRefWith {element : Production TypeRef} (h : element.IsWary false) :
    (typeRefWith element).IsWary false := by
  refine isWary_current fun t => ?_
  split
  · exact isWary_skip ((isWary_takeMark _).bind fun b => isWary_pure _)
  · refine isWary_skip (h.bind fun t => (isWary_mark _).bind fun _ => ?_)
    exact (isWary_takeMark _).bind fun b => isWary_pure _
  · exact isWary_fail _

/-- References are read warily at any depth. -/
theorem isWary_typeRef (levels : Nat) : (typeRef levels).IsWary false := by
  induction levels with
  | zero => exact isWary_typeRefWith (isWary_fail _)
  | succ levels ih => exact isWary_typeRefWith ih

/-- A value behind a name and a colon is read warily if the value is. -/
theorem isWary_named {α : Type} {item : Production α} (h : item.IsWary false) :
    (named item).IsWary false :=
  isWary_name.bind fun _ => (isWary_mark _).bind fun _ => h.bind fun _ => isWary_pure _

/-- A value is read warily if those inside it are: what it is shows by its first token. -/
theorem isWary_valueWith {inner : Production Value} (h : inner.IsWary false) (fuel : Nat)
    (constant : Bool) : (valueWith fuel constant inner).IsWary false := by
  refine isWary_current fun t => ?_
  split
  · exact isWary_skip (isWary_pure _)
  · unfold wordOf
    split
    · exact isWary_fail _
    · split
      · exact isWary_fail _
      · exact isWary_skip (isWary_pure _)
  · unfold floatOf
    split
    · exact isWary_skip (isWary_pure _)
    · exact isWary_fail _
  · exact (isWary_stringOf _).bind fun s => isWary_pure _
  · refine isWary_skip ((isWary_many rfl h.mono fuel).bind fun vs => ?_)
    exact (isWary_mark _).bind fun _ => isWary_pure _
  · refine isWary_skip ((isWary_many rfl (isWary_named h).mono fuel).bind fun fs => ?_)
    exact (isWary_markOr _ _).bind fun _ => isWary_pure _
  · split
    · exact isWary_fail _
    · exact isWary_skip (isWary_name.bind fun n => isWary_pure _)
  · exact isWary_fail _

/-- Values are read warily at any depth. -/
theorem isWary_value (fuel levels : Nat) (constant : Bool) :
    (value fuel constant levels).IsWary false := by
  induction levels with
  | zero => exact isWary_valueWith (isWary_fail _) fuel constant
  | succ levels ih => exact isWary_valueWith ih fuel constant

/-- A directive is met by its mark. -/
theorem isWary_directives (fuel : Nat) : (directives fuel).IsWary false := by
  refine isWary_many rfl (isWary_skip (isWary_name.bind fun n => ?_)) fuel
  exact (isWary_between rfl (isWary_named (isWary_value fuel maxLevels false)) _ _ _ _).bind
    fun args => isWary_pure _

/-- Each part of an argument is looked at before it is taken, and so is the mark before its
default. -/
theorem isWary_inputValue (fuel : Nat) : (inputValue fuel).IsWary false := by
  refine isWary_description.bind fun d => isWary_name.bind fun n => ?_
  refine (isWary_mark _).bind fun _ => (isWary_typeRef _).bind fun t => ?_
  refine (isWary_takeMark _).bind fun b => ?_
  have hend : ∀ v : Option Value,
      (directives fuel >>= fun ds => pure (⟨d, n, t, v, ds⟩ : InputValue)).IsWary false :=
    fun v => (isWary_directives fuel).bind fun ds => isWary_pure _
  split
  · exact (isWary_value fuel _ true).bind fun v => hend (some v)
  · exact hend none

theorem isWary_arguments (fuel : Nat) : (arguments fuel).IsWary false :=
  isWary_between rfl (isWary_inputValue fuel) _ _ _ _

/-- Each part of a field is looked at before it is taken. -/
theorem isWary_field (fuel : Nat) : (field fuel).IsWary false := by
  refine isWary_description.bind fun d => isWary_name.bind fun n => ?_
  refine (isWary_arguments fuel).bind fun args => (isWary_mark _).bind fun _ => ?_
  exact (isWary_typeRef _).bind fun t => (isWary_directives fuel).bind fun ds => isWary_pure _

theorem isWary_enumValue (fuel : Nat) : (enumValue fuel).IsWary false :=
  isWary_description.bind fun _ => isWary_name.bind fun _ =>
    (isWary_directives fuel).bind fun _ => isWary_pure _

/-- An interface is read only behind the word `implements` or a separator, which were seen. -/
theorem isWary_implements (fuel : Nat) : (implements fuel).IsWary false := by
  refine (isWary_takeWord _).bind fun b => ?_
  split
  · exact (isWary_takeMark _).bind fun isLed => isWary_separated _ isWary_name fuel
  · exact isWary_pure _

/-- Names behind a mark that may lead them, if there are any. -/
theorem isWary_led {item : Production Name} (h : item.IsWary false) (fuel : Nat)
    {others : Production (List Name)} (hothers : others.IsWary false) :
    (do
      let isLed ← takeMark .pipe
      if isLed || startsName (← current) then separated fuel .pipe item
      else others : Production (List Name)).IsWary false := by
  refine (isWary_takeMark _).bind fun isLed => isWary_current fun t => ?_
  split
  · exact isWary_separated _ h fuel
  · exact hothers.mono

theorem isWary_unionMembers (fuel : Nat) : (unionMembers fuel).IsWary false := by
  refine (isWary_takeMark _).bind fun b => ?_
  split
  · exact isWary_led isWary_name fuel (isWary_fail _)
  · exact isWary_pure _

/-- Members between braces are read warily if each member is. -/
theorem isWary_members {α : Type} {item : Production α} (h : item.IsWary false) (fuel : Nat)
    (onward : List String) : (members fuel item onward).IsWary false :=
  isWary_between rfl h _ _ _ _

/-- What stands behind the name of a type is read warily, whatever the shape. -/
theorem isWary_body (fuel : Nat) (shape : Shape) : (body fuel shape).IsWary false := by
  have hdirectives := isWary_directives fuel
  cases shape with
  | object | interface =>
    exact (isWary_implements fuel).bind fun is => hdirectives.bind fun ds =>
      (isWary_members (isWary_field fuel) fuel _).bind fun fs => isWary_pure _
  | scalar => exact hdirectives.bind fun ds => isWary_pure _
  | union =>
    exact hdirectives.bind fun ds => (isWary_unionMembers fuel).bind fun ms => isWary_pure _
  | enum =>
    exact hdirectives.bind fun ds =>
      (isWary_members (isWary_enumValue fuel) fuel _).bind fun vs => isWary_pure _
  | inputObject =>
    exact hdirectives.bind fun ds =>
      (isWary_members (isWary_inputValue fuel) fuel _).bind fun vs => isWary_pure _

/-- The word that opens a definition of a type was seen by the caller. -/
theorem isWary_typeDefinition (fuel : Nat) (d : Option String) (shape : Shape) :
    (typeDefinition fuel d shape).IsWary true :=
  isWary_skip (isWary_name.bind fun _ => (isWary_body fuel shape).bind fun _ => isWary_pure _)

/-- The word that tells the shape of an addition is looked at before it is taken. -/
theorem isWary_typeExtension (fuel : Nat) : (typeExtension fuel).IsWary false := by
  refine isWary_current fun t => ?_
  split
  · split
    · next shape _ =>
      refine isWary_skip (isWary_name.bind fun n => (isWary_body fuel shape).bind fun b => ?_)
      obtain ⟨ds, c⟩ := b
      dsimp only
      split <;> exact isWary_pure _
    · exact isWary_fail _
  · exact isWary_fail _

/-- The word `schema` was seen by the caller. -/
theorem isWary_schemaDefinition (fuel : Nat) : (schemaDefinition fuel).IsWary true := by
  refine isWary_skip ((isWary_directives fuel).bind fun ds => (isWary_mark _).bind fun _ => ?_)
  refine (isWary_many rfl (isWary_named isWary_name).mono fuel).bind fun roots => ?_
  exact (isWary_markOr _ _).bind fun _ => isWary_pure _

/-- A place of a directive is taken only if its word is one. -/
theorem isWary_location : location.IsWary false := by
  refine isWary_current fun t => ?_
  split
  · split
    · exact isWary_skip (isWary_pure _)
    · exact isWary_fail _
  · exact isWary_fail _

/-- The word `directive` was seen by the caller. -/
theorem isWary_directiveDefinition (fuel : Nat) (d : Option String) :
    (directiveDefinition fuel d).IsWary true := by
  refine isWary_skip ((isWary_mark _).bind fun _ => isWary_name.bind fun n => ?_)
  refine (isWary_arguments fuel).bind fun args => (isWary_takeWord _).bind fun again => ?_
  refine (isWary_takeWord _).bind fun b => ?_
  split
  · exact (isWary_led isWary_location fuel (isWary_pure _)).bind fun ns => isWary_pure _
  · exact isWary_fail _

/-- Which definition follows a description shows by its first word. -/
theorem isWary_describable (fuel : Nat) (words : List String) (d : Option String) :
    (describable fuel words d).IsWary false := by
  refine isWary_current fun t => ?_
  split
  · split
    · exact isWary_directiveDefinition fuel d
    · split
      · exact isWary_typeDefinition fuel d _
      · exact isWary_fail _
  · exact isWary_fail _

/-- A definition with or without a description is read warily. -/
theorem isWary_describedDefinition (fuel : Nat) : (describedDefinition fuel).IsWary false := by
  refine isWary_description.bind fun d => ?_
  split <;> exact isWary_describable fuel _ _

/-! ## Fragments -/

section

variable {ls rest : List Lexeme} {d : Definition} {fuel : Nat}

/-- A definition that is judged as a whole passes no stray lexeme. -/
theorem strayCount_of_judge {r : Production (Except Complaint Definition)} {seen : Bool}
    (h : r.IsWary seen) (hls : IsSettled ls) (hseen : seen = true → (headToken ls).isSome = true)
    (hread : judge r ls = .ok (d, rest)) :
    IsSettled rest ∧ strayCount (kindsOf rest) = strayCount (kindsOf ls) := by
  rw [judge] at hread
  split at hread
  · next hrun =>
    cases hread
    exact h.strayCount_of_run hls hseen hrun
  · cases hread
  · cases hread

/-- Reading a definition passes no stray lexeme, and it stops at a token or at the end. -/
theorem strayCount_of_readDefinition (hls : IsSettled ls)
    (h : readDefinition fuel ls = .ok (d, rest)) :
    IsSettled rest ∧ strayCount (kindsOf rest) = strayCount (kindsOf ls) := by
  rw [readDefinition] at h
  split at h
  · next hhead =>
    split at h
    · exact strayCount_of_judge (isWary_schemaDefinition fuel) hls (by simp [hhead]) h
    · split at h
      · -- the word that announces an addition is taken before the rule runs
        have hsettle := settle_kinds (ε := Stop) ls.tail
        split at h
        · next ahead hahead =>
          rw [hahead] at hsettle
          obtain ⟨hrest, hcount⟩ :=
            strayCount_of_judge (isWary_typeExtension fuel) hsettle.1 nofun h
          refine ⟨hrest, ?_⟩
          rw [hcount, strayCount_settleKinds hsettle.2, ← kindsOf_tail_of_isSettled hls]
          cases ls with
          | nil => cases hhead
          | cons l ls =>
            rw [kindsOf_cons_of_isSettled hls]
            rcases hls with ⟨t, hl⟩ | ⟨m, hl⟩
            · rw [hl]
              rfl
            · rw [headToken, Lexeme.token?, hl] at hhead
              cases hhead
        · cases h
      · exact (isWary_describedDefinition fuel).strayCount_of_run hls nofun h
  · exact (isWary_describedDefinition fuel).strayCount_of_run hls nofun h

/-- Reading definitions one after the other passes no stray lexeme. -/
theorem strayCount_of_readDefinitions {count : Nat} {ds : List Definition} (hls : IsSettled ls)
    (h : readDefinitions fuel count ls = .ok (ds, rest)) :
    strayCount (kindsOf rest) = strayCount (kindsOf ls) := by
  induction count generalizing ls ds with
  | zero =>
    cases h
    rfl
  | succ count ih =>
    rw [readDefinitions] at h
    split at h
    · split at h
      · next hd =>
        split at h
        · next hds =>
          cases h
          obtain ⟨hsettled, hcount⟩ := strayCount_of_readDefinition hls hd
          rw [ih hsettled hds, hcount]
        · cases h
      · cases h
    · cases h
      rfl

end

/-- **Strays.**  There is no stray lexeme in a fragment that can be read. -/
theorem strayCount_of_ofText {text : String} {ds : List Definition} (h : ofText text = .ok ds) :
    strayCount (kindsOf (scan text.toList)) = 0 := by
  obtain ⟨ahead, first, rest, others, hahead, hfirst, hothers, rfl⟩ := exists_of_ofText h
  have hsettle := settle_kinds (ε := Stop) (scan text.toList)
  rw [hahead] at hsettle
  obtain ⟨hsettled, hcount⟩ := strayCount_of_readDefinition hsettle.1 hfirst
  rw [← strayCount_settleKinds hsettle.2, ← hcount,
    ← strayCount_of_readDefinitions hsettled hothers]
  rfl

end Fragment

end SchemaCatalog
