/-
# Documents in lockstep

Definitions go in lockstep whatever stands before them, as the words and marks that open them
end every list of interfaces.  So reading a document goes in lockstep with reading it with
other fuel.
-/
import SchemaCatalog.Proofs.LockstepParts

namespace SchemaCatalog.Document

open Implements Rule

variable {α : Type} {depth count fuel fuel' : Nat} {Q : Stand → Prop} {σ : Stand}
  {next : Option Token}

/-! ## Definitions of types -/

/-- Members of a type, which are never given outside brackets. -/
theorem steps_bodyMembers {label message : String} {item item' : Production α}
    (hitem : ∀ k, k + 1 ≤ count → Steps (At 1 (k + 1)) item item' (At 1 k))
    (hfuel : count ≤ fuel) (hfuel' : count ≤ fuel') :
    Steps (At 0 count) (members fuel .openBrace .closeBrace label message item)
      (members fuel' .openBrace .closeBrace label message item') (At 0 count) :=
  steps_members rfl rfl label message (fun _ h => h) (fun _ h => h.toAt) hitem hfuel hfuel'

/-- Objects and interfaces have a list of interfaces, where the two readers may come apart for a
while, and then directives and fields. -/
theorem steps_fieldsBody (make : List Name → List Field → Content)
    (hfuel : count ≤ fuel) (hfuel' : count ≤ fuel') :
    Steps (AtName 0 count) (fieldsBody fuel make) (fieldsBody fuel' make) (At 0 count) := by
  unfold fieldsBody
  refine (steps_implements hfuel hfuel').bind fun is => ?_
  refine (steps_schemaDirectives hfuel hfuel').bind fun ds => ?_
  refine (steps_bodyMembers (fun k hk => ?_) hfuel hfuel').bind fun fs => steps_pure fun _ h => h
  exact steps_field Nat.one_pos (by omega) (by omega)

/-- What stands behind the name of a type is read side by side, whatever the shape. -/
theorem steps_body (shape : Shape) (hfuel : count ≤ fuel) (hfuel' : count ≤ fuel') :
    Steps (AtName 0 count) (body fuel shape) (body fuel' shape) (At 0 count) := by
  have hdirectives : Steps (AtName 0 count) (schemaDirectives fuel) (schemaDirectives fuel')
      (At 0 count) := (steps_schemaDirectives hfuel hfuel').weaken fun σ h => h.toAt
  cases shape with
  | object => exact steps_fieldsBody _ hfuel hfuel'
  | interface => exact steps_fieldsBody _ hfuel hfuel'
  | scalar => exact hdirectives.bind fun ds => steps_pure fun _ h => h
  | union =>
    refine hdirectives.bind fun ds => ?_
    exact (steps_unionMembers hfuel hfuel').bind fun ms => steps_pure fun _ h => h
  | enum =>
    refine hdirectives.bind fun ds => ?_
    refine (steps_bodyMembers (fun k hk => ?_) hfuel hfuel').bind fun vs => steps_pure fun _ h => h
    exact steps_enumValue Nat.one_pos (by omega) (by omega)
  | inputObject =>
    refine hdirectives.bind fun ds => ?_
    refine (steps_bodyMembers (fun k hk => ?_) hfuel hfuel').bind fun fs => steps_pure fun _ h => h
    exact steps_inputValue Nat.one_pos (by omega) (by omega)

/-! ## Where definitions begin -/

/-- Whether a definition can begin with a token. -/
def Opens : Token → Prop
  | .name n => n.text ∈ definitionWords
  | .string _ | .mark .openBrace => True
  | _ => False

/-- Tokens that open a definition may be taken whatever stands before them. -/
theorem Stand.mayTake_of_opens {t : Token} (h : Opens t) : σ.MayTake t := by
  have hmark : t ≠ .mark .ampersand := by
    rintro rfl
    exact h
  refine Stand.mayTake hmark ?_
  cases t with
  | name n =>
    have hn : n.text ∈ definitionWords := h
    simp [Passed.lacksSeparator, hn]
  | mark | int | float | string => rfl

/-- A token that opens a definition opens no bracket, braces aside. -/
theorem depthAfter_of_opens {t : Token} (ht : Opens t) (hmark : t ≠ .mark .openBrace) :
    Spot.depthAfter depth t = depth := by
  cases t with
  | mark m => cases m <;> first | exact absurd rfl hmark | exact ht.elim
  | name | int | float | string => rfl

/-- Behind a token that opens a definition no list of interfaces goes on. -/
theorem At.past_opening (h : At 0 count σ) {t : Token} (hcur : σ.current = some t)
    (ht : Opens t) (hmark : t ≠ .mark .openBrace) (hnext : σ.Allows next) :
    AtOutside 0 (count - 1) (σ.past t next .mark) := by
  have hpast := h.past hcur hnext (g := .mark) fun _ => rfl
  rw [depthAfter_of_opens ht hmark] at hpast
  refine ⟨hpast, fun _ _ => ⟨rfl, ?_⟩⟩
  cases t with
  | name n => exact σ.passed.place_pass_definitionWord ht
  | mark m =>
    refine σ.passed.place_pass_of_ne_ampersand ?_
    rintro rfl
    exact ht
  | int | float => exact ht.elim
  | string => rfl

/-- Past the token that opens a definition both readers are outside all lists. -/
theorem steps_opening {t : Token} (ht : Opens t) (hmark : t ≠ .mark .openBrace)
    {f f' : Unit → Production α} (h : Steps (AtOutside 0 (count - 1)) (f ()) (f' ()) Q) :
    Steps (Facing (At 0 count) (some t)) (skip >>= f) (skip >>= f') Q :=
  steps_take (fun _ _ _ => Stand.mayTake_of_opens ht)
    (fun _ _ hσ hcur hnext => hσ.past_opening hcur ht hmark hnext) h

/-- A stand at a definition that a word announces: it is the current token, or the one past
the description. -/
structure Announced (count : Nat) (word : Name) (σ : Stand) : Prop extends At 0 count σ where
  announced : σ.current = some (.name word) ∨
    ∃ text, σ.current = some (.string text) ∧ σ.ahead = some (.name word)

/-- Where a definition is announced, the current token is one that opens definitions. -/
theorem Announced.facing {word : Name} (h : Announced count word σ)
    (hword : word.text ∈ definitionWords) :
    ∃ t, Opens t ∧ t ≠ .mark .openBrace ∧ Facing (At 0 count) (some t) σ := by
  rcases h.announced with hcur | ⟨text, hcur, -⟩
  · exact ⟨.name word, hword, nofun, h.toAt, hcur⟩
  · exact ⟨.string text, trivial, nofun, h.toAt, hcur⟩

/-- A description leads to the word that announces its definition. -/
theorem steps_announcedDescription {word : Name} :
    Steps (Announced count word) description description
      (Facing (At 0 count) (some (.name word))) := by
  intro σ hσ
  refine .current ?_
  rcases hσ.announced with hcur | ⟨text, hcur, hahead⟩
  · rw [hcur]
    exact .pure ⟨hσ.toAt, hcur⟩
  · rw [hcur]
    refine .skip hcur (Stand.mayTake nofun rfl) .mark trivial fun next hnext => .pure ⟨?_, ?_⟩
    · exact (hσ.past hcur hnext nofun).mono (Nat.sub_le _ _)
    · exact hnext.1 _ hahead

/-- A definition of a type takes a token at least, so that one less is left. -/
theorem steps_typeDefinition (shape : Shape) {word : Name} (hword : word.text ∈ definitionWords)
    (hfuel : count ≤ fuel) (hfuel' : count ≤ fuel') :
    Steps (Announced count word) (typeDefinition fuel shape) (typeDefinition fuel' shape)
      (At 0 (count - 1)) := by
  unfold typeDefinition
  refine steps_announcedDescription.bind fun d => ?_
  refine steps_opening (t := .name word) hword nofun ?_
  refine (steps_declaredName _).bind fun n => ?_
  exact (steps_body shape (by omega) (by omega)).bind fun b => steps_pure fun _ h => h

/-! ## Tokens that are seen in advance -/

/-- A stand at a token of which it is known what comes next. -/
structure Sees (depth count : Nat) (t : Token) (u : Option Token) (σ : Stand) : Prop
    extends At depth count σ where
  faces : σ.current = some t
  sees : σ.ahead = u

/-- Both readers see the same past the current token, or a difference that neither heeds. -/
theorem steps_second (t : Token) (ht : t ≠ .mark .ampersand)
    {f f' : Option Token → Production α}
    (hfaint : ∀ u, IsFaint (some t) u → f u = f none ∧ f' u = f' none)
    (h : ∀ u, Steps (Sees depth count t u) (f u) (f' u) Q) :
    Steps (Facing (At depth count) (some t)) (second >>= f) (second >>= f') Q := by
  rintro σ ⟨hσ, hcur⟩
  refine .second (by rw [hcur]; simpa using ht) (by rw [hcur]; exact hfaint) fun u => ?_
  exact h u _ ⟨⟨hσ.left, hσ.here⟩, hcur, rfl⟩

/-- Taking a token leads to the one that was seen past it. -/
theorem steps_skipSeen {t u : Token}
    (hmay : ∀ σ, At depth count σ → σ.current = some t → σ.MayTake t)
    {f f' : Unit → Production α}
    (h : Steps (Facing (At (Spot.depthAfter depth t) (count - 1)) (some u)) (f ()) (f' ()) Q) :
    Steps (Sees depth count t (some u)) (skip >>= f) (skip >>= f') Q := by
  intro σ hσ
  refine .skip hσ.faces (hmay σ hσ.toAt hσ.faces) .mark trivial fun next hnext => h _ ⟨?_, ?_⟩
  · exact hσ.toAt.past hσ.faces hnext fun _ => rfl
  · exact hnext.1 u hσ.sees

/-! ## Additions -/

/-- Both words of an addition are taken. -/
theorem steps_extend {t : Token} (ht : Opens t) (hmark : t ≠ .mark .openBrace) {word : Name}
    (hword : word.text ∈ definitionWords) {f f' : Unit → Production α}
    (h : Steps (AtOutside 0 (count - 1)) (f ()) (f' ()) Q) :
    Steps (Sees 0 count t (some (.name word))) (do skip; skip >>= f) (do skip; skip >>= f') Q := by
  refine steps_skipSeen (fun _ _ _ => Stand.mayTake_of_opens ht) ?_
  rw [depthAfter_of_opens ht hmark]
  refine (steps_opening (t := .name word) hword nofun h).weaken fun σ hσ => ?_
  exact ⟨hσ.1.mono (Nat.sub_le _ _), hσ.2⟩

/-- An addition to a type is read side by side, from the word `extend` on. -/
theorem steps_typeExtension (shape : Shape) {t : Token} (ht : Opens t)
    (hmark : t ≠ .mark .openBrace) {word : Name} (hword : word.text ∈ definitionWords)
    (hfuel : count ≤ fuel) (hfuel' : count ≤ fuel') :
    Steps (Sees 0 count t (some (.name word))) (typeExtension fuel shape)
      (typeExtension fuel' shape) (At 0 (count - 1)) := by
  unfold typeExtension
  refine steps_extend ht hmark hword ?_
  refine (steps_declaredName _).bind fun n => ?_
  refine (steps_body shape (by omega) (by omega)).bind fun b => ?_
  split
  · exact steps_pure fun _ h => h
  · exact steps_fail _ _

/-! ## The schema and its directives -/

/-- An entry of a schema is read side by side. -/
theorem steps_rootOperation (hdepth : 0 < depth) :
    Steps (At depth count) rootOperation rootOperation (At depth (count - 1)) := by
  refine steps_current fun t => ?_
  split
  · split
    · refine steps_skip (t := .name _) nofun (fun _ => hdepth) ?_
      refine (steps_markOr .colon nofun _).bind fun _ => ?_
      refine steps_current fun t => ?_
      split
      · refine Steps.weaken (P := Facing (At depth (count - 1)) _) ?_
          fun σ h => ⟨h.1.toAt.mono (Nat.sub_le _ _), h.2⟩
        refine steps_skip (t := .name _) nofun (fun _ => hdepth) ?_
        exact steps_pure fun σ h => h.mono (Nat.sub_le _ _)
      · exact steps_pure fun σ h => h.1.toAt.mono (Nat.sub_le _ _)
    · exact steps_fail _ _
  · exact steps_fail _ _

/-- Entries of a schema are read side by side, as long as there is fuel for all tokens. -/
theorem steps_rootOperations (hdepth : 0 < depth) (hfuel : count ≤ fuel) (hfuel' : count ≤ fuel') :
    Steps (At depth count) (many fuel startsName rootOperation)
      (many fuel' startsName rootOperation) (At depth count) :=
  steps_items rfl (fun _ _ => steps_rootOperation hdepth) hfuel hfuel'

/-- A definition of the schema is read side by side. -/
theorem steps_schemaDefinition {word : Name} (hword : word.text ∈ definitionWords)
    (hfuel : count ≤ fuel) (hfuel' : count ≤ fuel') :
    Steps (Announced count word) (schemaDefinition fuel) (schemaDefinition fuel')
      (At 0 (count - 1)) := by
  unfold schemaDefinition
  refine steps_announcedDescription.bind fun d => ?_
  refine steps_opening (t := .name word) hword nofun ?_
  refine Steps.weaken (P := At 0 (count - 1)) ?_ fun _ h => h.toAt
  refine (steps_schemaDirectives (by omega) (by omega)).bind fun ds => ?_
  refine steps_takeMark .openBrace nofun (fun _ h => h) ?_ (steps_pure fun _ h => h)
  refine Steps.weaken (P := At 1 (count - 1)) ?_ fun σ h => h.toAt.mono (Nat.sub_le _ _)
  refine (steps_rootOperations Nat.one_pos (by omega) (by omega)).bind fun os => ?_
  split
  · exact steps_fail _ _
  · exact (steps_close rfl _).bind fun _ => steps_pure fun σ h => h.toAt.mono (Nat.sub_le _ _)

/-- An addition to the schema is read side by side, from the word `extend` on. -/
theorem steps_schemaExtension {t : Token} (ht : Opens t)
    (hmark : t ≠ .mark .openBrace) {word : Name} (hword : word.text ∈ definitionWords)
    (hfuel : count ≤ fuel) (hfuel' : count ≤ fuel') :
    Steps (Sees 0 count t (some (.name word))) (schemaExtension fuel) (schemaExtension fuel')
      (At 0 (count - 1)) := by
  unfold schemaExtension
  refine steps_extend ht hmark hword ?_
  refine Steps.weaken (P := At 0 (count - 1)) ?_ fun _ h => h.toAt
  refine (steps_schemaDirectives (by omega) (by omega)).bind fun ds => ?_
  have hend (os : List RootOperation) : Steps (At 0 (count - 1))
      (if ds.isEmpty && os.isEmpty then
        fail "expected directives or Root Operation Type Definition"
      else pure (Definition.aside .schemaExtension))
      (if ds.isEmpty && os.isEmpty then
        fail "expected directives or Root Operation Type Definition"
      else pure (Definition.aside .schemaExtension))
      (At 0 (count - 1)) := by
    split
    · exact steps_fail _ _
    · exact steps_pure fun _ h => h
  refine steps_takeMark .openBrace nofun (fun _ h => h) ?_ (hend [])
  refine Steps.weaken (P := At 1 (count - 1)) ?_ fun σ h => h.toAt.mono (Nat.sub_le _ _)
  refine (steps_rootOperations Nat.one_pos (by omega) (by omega)).bind fun os => ?_
  exact (steps_close rfl _).bind fun _ => (hend os).weaken fun σ h => h.toAt.mono (Nat.sub_le _ _)

/-- A place of a directive is a name like others. -/
theorem steps_location :
    Steps (AtName depth count) location location (At depth count) := by
  refine steps_current fun t => ?_
  split
  · next n =>
    split
    · exact steps_take (fun σ hσ hcur => hσ.names n hcur)
        (fun σ next hσ hcur hnext => (hσ.past hcur hnext fun _ => rfl).mono (Nat.sub_le _ _))
        (steps_pure fun _ h => h)
    · exact steps_fail _ _
  · exact steps_fail _ _

/-- The words of the definition of a directive come outside all lists of interfaces. -/
theorem steps_directiveWord {word : String} (hword : word ≠ "implements") :
    Steps (AtOutside depth count) (takeWord word) (takeWord word) (AtOutside depth count) := by
  refine steps_takeWord (fun _ h => h.atName) (fun σ n next hσ hcur hn hnext => ?_) (fun _ h => h)
  exact (hσ.past_name_outside hcur hnext (Or.inl (hn ▸ hword))).mono (Nat.sub_le _ _)

/-- A definition of a directive is read side by side. -/
theorem steps_directiveDefinition {word : Name} (hword : word.text ∈ definitionWords)
    (hfuel : count ≤ fuel) (hfuel' : count ≤ fuel') :
    Steps (Announced count word) (directiveDefinition fuel) (directiveDefinition fuel')
      (At 0 (count - 1)) := by
  unfold directiveDefinition
  refine steps_announcedDescription.bind fun d => ?_
  refine steps_opening (t := .name word) hword nofun ?_
  refine Steps.weaken (P := At 0 (count - 1)) ?_ fun _ h => h.toAt
  refine (steps_markOr .atSign nofun _).bind fun _ => ?_
  refine (steps_nameOr_past (Q := AtOutside 0 (count - 1))
    (fun σ n next hσ hcur hnext => ?_) (fun _ h => h.atName) _).bind fun n => ?_
  · exact (hσ.past_name_outside hcur hnext (Or.inr (hσ.unnamed _ hcur))).mono (by omega)
  refine (steps_argumentsDefinition (fun _ h => h.toAt) (fun _ h => h.toAtOutside) (by omega)
    (by omega)).bind fun args => ?_
  refine (steps_directiveWord (by decide)).bind fun again => ?_
  refine (steps_directiveWord (by decide)).bind fun b => ?_
  split
  · refine steps_current fun t => ?_
    split
    · have hplaces : Steps (AtName 0 (count - 1))
          (separated fuel .pipe location >>= fun places =>
            pure (Definition.directive ⟨d, n, args, again, places⟩))
          (separated fuel' .pipe location >>= fun places =>
            pure (Definition.directive ⟨d, n, args, again, places⟩))
          (At 0 (count - 1)) :=
        (steps_piped (fun _ => steps_location) (by omega) (by omega)).bind fun places =>
          steps_pure fun _ h => h
      refine Steps.weaken (P := AtOutside 0 (count - 1)) ?_ fun _ h => h.1
      refine steps_takeMark .pipe nofun (fun _ h => h.toAt) ?_ ?_
      · exact hplaces.weaken fun σ h => (h.mono (Nat.sub_le _ _)).atName
      · exact hplaces.weaken fun σ h => h.atName
    · exact steps_fail _ _
  · exact steps_fail _ _

/-! ## Selections -/

/-- Behind the word of a type condition no separator would do. -/
theorem At.past_on (h : At depth count σ) {n : Name} (hcur : σ.current = some (.name n))
    (hn : n.text = "on") (hnext : σ.Allows next) :
    AtName depth (count - 1) (σ.past (.name n) next .mark) := by
  refine ⟨h.past hcur hnext fun _ => rfl, fun u _ => ⟨nofun, fun _ hharmless => ?_⟩⟩
  obtain ⟨-, m, hm, himplements⟩ := hharmless
  cases hm
  rw [hn] at himplements
  exact absurd himplements (by decide)

/-- The type that a fragment is for stands behind the word `on`. -/
theorem steps_typeCondition :
    Steps (AtName depth count) typeCondition typeCondition (At depth count) := by
  unfold typeCondition
  refine (steps_takeWord (Q := AtName depth count) (fun _ h => h)
    (fun σ n next hσ hcur hn hnext => ?_) (fun _ h => h)).bind fun b => ?_
  · exact (hσ.past_on hcur hn hnext).mono (Nat.sub_le _ _)
  · split
    · refine (steps_nameOr _).bind fun n => ?_
      exact steps_pure fun σ h => h.mono (Nat.sub_le _ _)
    · exact steps_fail _ _

/-- The name of a fragment is any but `on`. -/
theorem steps_fragmentName (message : String) :
    Steps (AtOutside depth count) (fragmentName message) (fragmentName message)
      (AtName depth count) := by
  refine steps_current fun t => ?_
  split
  · next n =>
    split
    · exact steps_fail _ _
    · exact steps_take (f := fun _ => Rule.done ()) (fun σ hσ hcur => hσ.atName.names n hcur)
        (fun σ next hσ hcur hnext => (hσ.past_name hcur hnext).mono (Nat.sub_le _ _))
        (steps_pure fun _ h => h)
  · exact steps_fail _ _

/-- Two rules that read sets of selections side by side. -/
def SelectsAt (depth count : Nat) (inner inner' : Production Unit) : Prop :=
  ∀ k ≤ count,
    Steps (Facing (At depth k) (some (.mark .openBrace))) inner inner' (At depth (k - 1))

section

variable {inner inner' : Production Unit}

/-- What reads side by side with many tokens left does so with fewer. -/
theorem SelectsAt.mono {count' : Nat} (h : SelectsAt depth count' inner inner')
    (hle : count ≤ count') : SelectsAt depth count inner inner' := fun k hk => h k (by omega)

/-- Selections that have to stand here are read, or both readers refuse what does. -/
theorem steps_selectionsOr (hinner : SelectsAt depth count inner inner') (message : String) :
    Steps (At depth count) (selectionsOr inner message) (selectionsOr inner' message)
      (At depth count) := by
  refine steps_current fun t => ?_
  split
  · next ht =>
    obtain rfl : t = some (.mark .openBrace) := by simpa [startsSelections] using ht
    exact (hinner count (Nat.le_refl _)).mono (fun _ h => h) fun σ h => h.mono (Nat.sub_le _ _)
  · exact steps_fail _ _

/-- A name past a token is no colon, and neither is a separator. -/
theorem IsFaint.ne_colon {t u : Option Token} (h : IsFaint t u) : u ≠ some (.mark .colon) := by
  rintro rfl
  rcases h with h | ⟨-, n, h, -⟩ <;> cases h

/-- A field that is selected may be renamed, and what is selected of it stands in braces. -/
theorem steps_selectedField (levels : Nat) (hdepth : 0 < depth)
    (hinner : SelectsAt depth count inner inner') (hfuel : count ≤ fuel) (hfuel' : count ≤ fuel')
    (n : Name) :
    Steps (Facing (At depth count) (some (.name n))) (selectedField fuel levels inner)
      (selectedField fuel' levels inner') (At depth (count - 1)) := by
  -- what follows the name, whether or not an alias comes before it
  have hrest : Steps (At depth count)
      (do
        let _ ← name
        let _ ← arguments fuel false levels
        let _ ← directives fuel false levels
        if startsSelections (← current) then inner)
      (do
        let _ ← name
        let _ ← arguments fuel' false levels
        let _ ← directives fuel' false levels
        if startsSelections (← current) then inner')
      (At depth (count - 1)) := by
    refine (steps_name.weaken fun σ h => h.atName hdepth).bind fun n => ?_
    refine (steps_arguments levels (by omega) (by omega)).bind fun args => ?_
    refine (steps_directives levels (by omega) (by omega)).bind fun ds => ?_
    refine steps_current fun t => ?_
    split
    · next ht =>
      obtain rfl : t = some (.mark .openBrace) := by simpa [startsSelections] using ht
      exact (hinner _ (Nat.sub_le _ _)).mono (fun _ h => h) fun σ h => h.mono (Nat.sub_le _ _)
    · exact steps_pure fun _ h => h.1
  unfold selectedField
  refine steps_second (.name n) nofun (fun u hu => ?_) fun u => ?_
  · constructor <;> exact (if_neg hu.ne_colon).trans (if_neg nofun).symm
  · split
    · next hu =>
      subst hu
      refine steps_skipSeen (t := .name n)
        (fun σ hσ hcur => hσ.mayTake hcur nofun fun _ => hdepth) ?_
      refine steps_skip (t := .mark .colon) nofun nofun ?_
      exact hrest.weaken fun σ h => h.mono (by omega)
    · exact hrest.weaken fun _ h => h.toAt

/-- The three dots before a fragment are a mark. -/
theorem steps_spread {f f' : Unit → Production α}
    (h : Steps (BehindMark depth (count - 1)) (f ()) (f' ()) Q) :
    Steps (Facing (At depth count) (some (.mark .spread))) (skip >>= f) (skip >>= f') Q :=
  steps_take (fun _ hσ hcur => hσ.mayTake hcur nofun nofun)
    (fun _ _ hσ hcur hnext => hσ.past_mark hcur nofun hnext) h

/-- A fragment in its place is read side by side. -/
theorem steps_inlineFragment (levels : Nat) (hinner : SelectsAt depth count inner inner')
    (hfuel : count ≤ fuel) (hfuel' : count ≤ fuel') :
    Steps (Facing (At depth count) (some (.mark .spread))) (inlineFragment fuel levels inner)
      (inlineFragment fuel' levels inner') (At depth (count - 1)) := by
  have hrest : Steps (At depth (count - 1))
      (do
        let _ ← directives fuel false levels
        selectionsOr inner "expected Selection Set")
      (do
        let _ ← directives fuel' false levels
        selectionsOr inner' "expected Selection Set")
      (At depth (count - 1)) :=
    (steps_directives levels (by omega) (by omega)).bind fun ds =>
      steps_selectionsOr (hinner.mono (Nat.sub_le _ _)) _
  unfold inlineFragment
  refine steps_spread ?_
  refine steps_current fun t => ?_
  split
  · exact (steps_typeCondition.bind fun _ => hrest).weaken fun σ h => h.1.atName
  · exact hrest.weaken fun _ h => h.1.toAt

/-- A reference to a fragment is read side by side. -/
theorem steps_fragmentSpread (levels : Nat) (hfuel : count ≤ fuel) (hfuel' : count ≤ fuel') :
    Steps (Facing (At depth count) (some (.mark .spread))) (fragmentSpread fuel levels)
      (fragmentSpread fuel' levels) (At depth (count - 1)) := by
  unfold fragmentSpread
  refine steps_spread ?_
  refine ((steps_fragmentName _).weaken fun _ h => h.toAtOutside).bind fun _ => ?_
  refine Steps.weaken (P := At depth (count - 1)) ?_ fun _ h => h.toAt
  exact (steps_directives levels (by omega) (by omega)).bind fun ds => steps_pure fun _ h => h

theorem exists_name_of_startsName {t : Option Token} (h : startsName t = true) :
    ∃ n, t = some (.name n) := by
  cases t with
  | none => cases h
  | some t =>
    cases t with
    | name n => exact ⟨n, rfl⟩
    | mark | int | float | string => cases h

/-- Which kind of selection stands here shows by its first token, or by the one past it. -/
theorem steps_selection (levels : Nat) (hdepth : 0 < depth)
    (hinner : SelectsAt depth count inner inner') (hfuel : count ≤ fuel) (hfuel' : count ≤ fuel')
    {t : Option Token} (ht : startsSelection t = true) :
    Steps (Facing (At depth count) t) (selection fuel levels inner)
      (selection fuel' levels inner') (At depth (count - 1)) := by
  refine steps_currentAt ?_
  split
  · next hname =>
    obtain ⟨n, rfl⟩ := exists_name_of_startsName hname
    exact steps_selectedField levels hdepth hinner hfuel hfuel' n
  · next hname =>
    obtain rfl : t = some (.mark .spread) := by simpa [startsSelection, hname] using ht
    refine steps_second (.mark .spread) nofun (fun u hu => ?_) fun u => ?_
    · -- behind three dots only a separator must make no difference
      rcases hu with rfl | ⟨hspread, -⟩
      · exact ⟨rfl, rfl⟩
      · cases hspread
    · have hinline := steps_inlineFragment levels hinner hfuel hfuel'
      refine Steps.weaken (P := Facing (At depth count) (some (.mark .spread))) ?_
        fun σ h => ⟨h.toAt, h.faces⟩
      split
      · split
        · exact hinline
        · exact steps_fragmentSpread levels hfuel hfuel'
      · exact hinline
      · exact hinline
      · exact steps_fail _ _

end

/-- By induction on the levels, sets of selections are read side by side at any depth. -/
theorem steps_selectionSet (levels : Nat) (hfuel : count ≤ fuel) (hfuel' : count ≤ fuel') :
    SelectsAt depth count (selectionSet fuel levels) (selectionSet fuel' levels) := by
  induction levels generalizing depth count with
  | zero =>
    intro k hk
    exact steps_skip (t := .mark .openBrace) nofun nofun (steps_fail _ _)
  | succ levels ih =>
    intro k hk
    refine steps_skip (t := .mark .openBrace) nofun nofun ?_
    refine (steps_manyAt rfl (fun j hj t ht => ?_) (by omega) (by omega)).bind fun items => ?_
    · exact steps_selection levels (Nat.succ_pos _) (ih (by omega) (by omega)) (by omega)
        (by omega) ht
    · refine Steps.weaken (P := At (depth + 1) (k - 1)) ?_ fun _ h => h.1
      split
      · exact steps_fail _ _
      · refine (steps_close rfl _).mono (fun _ h => h) fun σ h => ?_
        exact h.toAt.mono (Nat.sub_le _ _)

/-! ## Executable definitions -/

/-- The definition of a variable is met by its mark. -/
theorem steps_variableDefinition (hdepth : 0 < depth) (hfuel : count ≤ fuel)
    (hfuel' : count ≤ fuel') :
    Steps (Facing (At depth count) (some (.mark .dollar))) (variableDefinition fuel)
      (variableDefinition fuel') (At depth (count - 1)) := by
  unfold variableDefinition
  refine steps_skip (t := .mark .dollar) nofun nofun ?_
  refine (steps_name.weaken fun σ h => h.atName hdepth).bind fun n => ?_
  refine (steps_markOr .colon nofun _).bind fun _ => ?_
  refine Steps.weaken (P := At depth (count - 1)) ?_ fun σ h => h.toAt.mono (by omega)
  refine (steps_typeOr hdepth _).bind fun t => ?_
  refine (steps_defaultValue hdepth (by omega) (by omega)).bind fun v => ?_
  refine (steps_schemaDirectives (by omega) (by omega)).bind fun ds => ?_
  exact steps_pure fun _ h => h

/-- Definitions of variables stand between parentheses, if there are any. -/
theorem steps_variableDefinitions (hfuel : count ≤ fuel) (hfuel' : count ≤ fuel') :
    Steps (At depth count) (variableDefinitions fuel) (variableDefinitions fuel')
      (At depth count) := by
  unfold variableDefinitions
  refine steps_takeMark .openParen nofun (fun _ h => h) ?_ (steps_pure fun _ h => h)
  refine steps_current fun t => ?_
  split
  · refine Steps.weaken (P := At (depth + 1) count) ?_ fun σ h => h.1.toAt.mono (Nat.sub_le _ _)
    refine (steps_manyAt rfl (fun k hk t ht => ?_) hfuel hfuel').bind fun _ => ?_
    · obtain rfl : t = some (.mark .dollar) := by simpa [startsVariable] using ht
      exact steps_variableDefinition (Nat.succ_pos _) (by omega) (by omega)
    · exact (steps_close rfl _).mono (fun _ h => h.1) fun σ h => h.toAt.mono (Nat.sub_le _ _)
  · exact steps_fail _ _

/-- What follows the head of an operation or of a fragment. -/
theorem steps_executableBody (a : Definition) (hfuel : count ≤ fuel) (hfuel' : count ≤ fuel') :
    Steps (At 0 count)
      (do
        let _ ← directives fuel false maxLevels
        selectionsOr (selectionSet fuel maxLevels) "expected a Selection Set"
        pure a)
      (do
        let _ ← directives fuel' false maxLevels
        selectionsOr (selectionSet fuel' maxLevels) "expected a Selection Set"
        pure a)
      (At 0 count) := by
  refine (steps_directives maxLevels hfuel hfuel').bind fun ds => ?_
  refine (steps_selectionsOr (steps_selectionSet maxLevels hfuel hfuel') _).bind fun _ => ?_
  exact steps_pure fun _ h => h

/-- An operation is opened by its word, or by the brace of its selections. -/
theorem steps_operationDefinition {t : Token} (ht : Opens t) (hfuel : count ≤ fuel)
    (hfuel' : count ≤ fuel') :
    Steps (Facing (At 0 count) (some t)) (operationDefinition fuel) (operationDefinition fuel')
      (At 0 (count - 1)) := by
  -- what follows the name of an operation, or the word that opens it
  have hrest : Steps (At 0 (count - 1))
      (do
        variableDefinitions fuel
        let _ ← directives fuel false maxLevels
        selectionsOr (selectionSet fuel maxLevels) "expected a Selection Set"
        pure (Definition.aside .operation))
      (do
        variableDefinitions fuel'
        let _ ← directives fuel' false maxLevels
        selectionsOr (selectionSet fuel' maxLevels) "expected a Selection Set"
        pure (Definition.aside .operation))
      (At 0 (count - 1)) :=
    (steps_variableDefinitions (by omega) (by omega)).bind fun _ =>
      steps_executableBody _ (by omega) (by omega)
  unfold operationDefinition
  refine steps_currentAt ?_
  split
  · next hbrace =>
    rw [hbrace]
    exact (steps_selectionSet maxLevels hfuel hfuel' count (Nat.le_refl _)).bind fun _ =>
      steps_pure fun _ h => h
  · next n hn =>
    obtain rfl : t = .name n := Option.some.inj hn
    refine steps_opening ht nofun (steps_current fun u => ?_)
    split
    · next hu =>
      obtain ⟨m, rfl⟩ := exists_name_of_startsName hu
      refine steps_take (fun σ hσ hcur => hσ.atName.names m hcur)
        (fun σ next hσ hcur hnext => ?_) hrest
      exact (hσ.past hcur hnext nofun).mono (Nat.sub_le _ _)
    · exact hrest.weaken fun _ h => h.1.toAt
  · exact steps_fail _ _

/-- The definition of a fragment is read side by side. -/
theorem steps_fragmentDefinition {t : Token} (ht : Opens t) (hmark : t ≠ .mark .openBrace)
    (hfuel : count ≤ fuel) (hfuel' : count ≤ fuel') :
    Steps (Facing (At 0 count) (some t)) (fragmentDefinition fuel) (fragmentDefinition fuel')
      (At 0 (count - 1)) := by
  unfold fragmentDefinition
  refine steps_opening ht hmark ?_
  refine (steps_fragmentName _).bind fun _ => ?_
  refine steps_typeCondition.bind fun _ => ?_
  exact steps_executableBody _ (by omega) (by omega)

/-! ## Documents -/

/-- The words for operations open definitions. -/
theorem mem_definitionWords_of_ofText? {word : String}
    (h : (Operation.ofText? word).isSome = true) : word ∈ definitionWords := by
  unfold Operation.ofText? at h
  split_ifs at h <;> simp_all [definitionWords]

/-- The words for shapes open definitions. -/
theorem mem_definitionWords_of_ofKeyword? {word : String} {shape : Shape}
    (h : Shape.ofKeyword? word = some shape) : word ∈ definitionWords := by
  unfold Shape.ofKeyword? at h
  split_ifs at h <;> simp_all [definitionWords]

/-- The word past `extend` tells what is added to, and both readers see it. -/
theorem steps_extensionDefinition {t : Token} (ht : Opens t) (hmark : t ≠ .mark .openBrace)
    (hfuel : count ≤ fuel) (hfuel' : count ≤ fuel') :
    Steps (Facing (At 0 count) (some t)) (extensionDefinition fuel) (extensionDefinition fuel')
      (At 0 (count - 1)) := by
  unfold extensionDefinition
  refine steps_second t ?_ (fun u hu => ?_) fun u => ?_
  · rintro rfl
    exact ht
  · -- a name that opens no definition is refused as the separator is
    rcases hu with rfl | ⟨-, n, rfl, hn⟩
    · exact ⟨rfl, rfl⟩
    · have hschema : n.text ≠ "schema" := fun h => hn (h ▸ (by decide))
      have hshape : Shape.ofKeyword? n.text = none :=
        Option.eq_none_iff_forall_ne_some.2 fun s h => hn (mem_definitionWords_of_ofKeyword? h)
      simp only [if_neg hschema, hshape, and_self]
  · split
    · next n =>
      split
      · next hn =>
        exact steps_schemaExtension ht hmark (hn ▸ (by decide)) hfuel hfuel'
      · split
        · next shape hshape =>
          exact steps_typeExtension shape ht hmark (mem_definitionWords_of_ofKeyword? hshape) hfuel
            hfuel'
        · exact steps_fail _ _
    · exact steps_fail _ _

/-- A definition that a word announces. -/
theorem steps_definitionFor {word : Name} (hfuel : count ≤ fuel) (hfuel' : count ≤ fuel') :
    Steps (Announced count word) (definitionFor fuel (some (.name word)))
      (definitionFor fuel' (some (.name word))) (At 0 (count - 1)) := by
  have hfacing {r r' : Production Definition} (hword : word.text ∈ definitionWords)
      (h : ∀ t, Opens t → t ≠ .mark .openBrace →
        Steps (Facing (At 0 count) (some t)) r r' (At 0 (count - 1))) :
      Steps (Announced count word) r r' (At 0 (count - 1)) := by
    intro σ hσ
    obtain ⟨t, ht, hmark, hσ⟩ := hσ.facing hword
    exact h t ht hmark σ hσ
  unfold definitionFor
  dsimp only
  split_ifs with hdirective hextend hfragment hschema hoperation
  · exact steps_directiveDefinition (hdirective ▸ (by decide)) hfuel hfuel'
  · exact hfacing (hextend ▸ (by decide)) fun t ht hmark =>
      steps_extensionDefinition ht hmark hfuel hfuel'
  · exact hfacing (hfragment ▸ (by decide)) fun t ht hmark =>
      steps_fragmentDefinition ht hmark hfuel hfuel'
  · exact steps_schemaDefinition (hschema ▸ (by decide)) hfuel hfuel'
  · exact hfacing (mem_definitionWords_of_ofText? hoperation) fun t ht _ =>
      steps_operationDefinition ht hfuel hfuel'
  · split
    · next shape hshape =>
      exact steps_typeDefinition shape (mem_definitionWords_of_ofKeyword? hshape) hfuel hfuel'
    · exact steps_fail _ _

/-- **Definitions.**  Each takes a token. -/
theorem steps_definition (hfuel : count ≤ fuel) (hfuel' : count ≤ fuel') :
    Steps (At 0 count) (definition fuel) (definition fuel') (At 0 (count - 1)) := by
  refine steps_current fun t => ?_
  split
  · next text =>
    refine steps_second (.string text) nofun (fun u hu => ?_) fun u => ?_
    · rcases hu with rfl | ⟨hname, -⟩
      · exact ⟨rfl, rfl⟩
      · cases hname
    · -- what stands past the description tells how to read on
      cases u with
      | none => exact steps_fail _ _
      | some u =>
        cases u with
        | name word =>
          exact (steps_definitionFor hfuel hfuel').weaken fun σ h =>
            ⟨h.toAt, Or.inr ⟨text, h.faces, h.sees⟩⟩
        | mark m =>
          cases m with
          | openBrace =>
            exact (steps_operationDefinition (t := .string text) trivial hfuel hfuel').weaken
              fun σ h => ⟨h.toAt, h.faces⟩
          | _ => exact steps_fail _ _
        | int | float | string => exact steps_fail _ _
  · exact (steps_definitionFor hfuel hfuel').weaken fun σ h => ⟨h.1, Or.inl h.2⟩
  · exact steps_operationDefinition (t := .mark .openBrace) trivial hfuel hfuel'
  · exact steps_fail _ _

/-- **Documents.**  Reading a document goes in lockstep with reading it with other fuel. -/
theorem steps_document (hfuel : count ≤ fuel) (hfuel' : count ≤ fuel') :
    Steps (At 0 count) (document fuel) (document fuel') (At 0 count) := by
  refine steps_current fun t => ?_
  split
  · refine (steps_items rfl (fun k hk => ?_) hfuel hfuel').weaken fun _ h => h.1
    exact steps_definition (by omega) (by omega)
  · exact steps_fail _ _

end SchemaCatalog.Document
