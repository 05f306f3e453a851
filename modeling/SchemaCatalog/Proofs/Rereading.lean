/-
# Reading printed values and members

What a document reads in the text that is printed for the parts of a definition.  Each
production of the grammar reads exactly the part that was printed for it, or refuses it for
a reason of its own: a reference or a value with too many levels, a variable, an infinite
number, a word that no value of an enum may be.
-/
import SchemaCatalog.Document.Grammar
import SchemaCatalog.Proofs.Printing

namespace SchemaCatalog.Fragment

open Lexeme (Kind)
open Rule

/-! ## References to types -/

/-- What is read of a reference to a type, if so many lists may be entered. -/
def rereadType? (levels : Nat) (t : TypeRef) : Option TypeRef :=
  if t.depth ≤ levels then some t else none

/-- A mark may follow that is read as a part of a reference, or any other. -/
theorem feed_bang {α : Type} (f : Bool → Document.Production α) (r : Bool) {rest : List Kind}
    (hrest : Next (· ≠ some (.mark .bang)) rest) :
    (takeMark .bang >>= f).feed (bangKinds r ++ rest) = (f r).feed rest := by
  cases r with
  | false => exact feed_takeMark_of_next hrest f
  | true => exact feed_takeMark .bang f rest

theorem feed_close (m : Mark) (label : String) (ks : List Kind) :
    (Document.close m label).feed (m.lexeme :: ks) = leaving ks (some ()) := by
  simp [Document.close]

/-- A reference to a type is read as it was, unless there are too many lists around it. -/
theorem feed_type (t : TypeRef) (levels : Nat) {rest : List Kind}
    (hrest : Next (· ≠ some (.mark .bang)) rest) :
    (Document.typeRef levels).feed (t.kinds ++ rest) = leaving rest (rereadType? levels t) := by
  induction t generalizing levels rest with
  | named n r =>
    have h : ∀ element, (Document.typeRefWith element).feed ((TypeRef.named n r).kinds ++ rest) =
        leaving rest (some (.named n r)) := by
      intro element
      simp [Document.typeRefWith, TypeRef.kinds, feed_bang _ r hrest]
    cases levels <;> simp [Document.typeRef, h, rereadType?, TypeRef.depth]
  | list t r ih =>
    -- the rule for what stands in a list is either that of one level less or none at all
    have hwith : ∀ (element : Document.Production TypeRef) (o : Option TypeRef),
        (∀ ks, element.feed (t.kinds ++ Mark.closeBracket.lexeme :: ks) =
          leaving (Mark.closeBracket.lexeme :: ks) o) →
        (Document.typeRefWith element).feed ((TypeRef.list t r).kinds ++ rest) =
          leaving rest (o.map fun t => .list t r) := by
      intro element o helement
      simp only [Document.typeRefWith, TypeRef.kinds, List.cons_append, List.append_assoc,
        feed_current, feed_skip, feed_bind (helement _), feed_bind (feed_close _ _ _),
        Option.bind_some, feed_bang _ r hrest, feed_pure, bind_leaving, bind_eq_map]
    cases levels with
    | zero => exact hwith Document.tooDeep none fun ks => feed_fail _ _
    | succ levels =>
      rw [Document.typeRef, hwith _ _ fun ks => ih levels (by simp)]
      by_cases hdepth : t.depth ≤ levels <;> simp [rereadType?, TypeRef.depth, hdepth]

/-! ## Values -/

/-- What is read of a number. -/
def rereadFloat? (b : Binary64) : Option Document.Value :=
  match b with
  | .infinite false => some (.word Document.infName)
  | .infinite true => none
  | .finite _ _ _ => some (.number b.text)

mutual

/-- What is read of a value, if so many levels may be entered. -/
def Value.reread? (indent levels : Nat) : Value → Option Document.Value
  | .variable _ => none
  | .int i => some (.number (toString i))
  | .float b => rereadFloat? b
  | .string s => some (.string (quoted indent s))
  | .word n => some (.word n)
  | .list vs => (Value.rereadItems? indent levels vs).map .list
  | .object fs => (Value.rereadFields? indent levels fs).map .object

/-- What is read of the items of a list, each of which is a level further inside. -/
def Value.rereadItems? (indent levels : Nat) : List Value → Option (List Document.Value)
  | [] => some []
  | v :: vs =>
    match levels with
    | 0 => none
    | inner + 1 =>
      (v.reread? indent inner).bind fun x =>
        (Value.rereadItems? indent (inner + 1) vs).map (x :: ·)

/-- What is read of the fields of an object, each of which is a level further inside. -/
def Value.rereadFields? (indent levels : Nat) :
    List (Name × Value) → Option (List (Name × Option Document.Value))
  | [] => some []
  | (n, v) :: fs =>
    match levels with
    | 0 => none
    | inner + 1 =>
      (v.reread? indent inner).bind fun x =>
        (Value.rereadFields? indent (inner + 1) fs).map ((n, some x) :: ·)

end

/-- What is read of a value that stands inside another one. -/
def Value.rereadInside? (indent levels : Nat) (v : Value) : Option Document.Value :=
  match levels with
  | 0 => none
  | inner + 1 => v.reread? indent inner

theorem rereadItems?_eq (indent levels : Nat) (vs : List Value) :
    Value.rereadItems? indent levels vs = vs.mapM (Value.rereadInside? indent levels) := by
  induction vs with
  | nil => rw [Value.rereadItems?, List.mapM_nil, Option.pure_def]
  | cons v vs ih =>
    rw [mapM_cons_option, ← ih]
    cases levels <;> rw [Value.rereadItems?] <;> rfl

/-- What is read of a field whose value is read in a given way. -/
def rereadField? (read? : Value → Option Document.Value) (f : Name × Value) :
    Option (Name × Option Document.Value) :=
  (read? f.2).map fun x => (f.1, some x)

theorem rereadFields?_eq (indent levels : Nat) (fs : List (Name × Value)) :
    Value.rereadFields? indent levels fs =
      fs.mapM (rereadField? (Value.rereadInside? indent levels)) := by
  induction fs with
  | nil => rw [Value.rereadFields?, List.mapM_nil, Option.pure_def]
  | cons f fs ih =>
    obtain ⟨n, v⟩ := f
    rw [mapM_cons_option, ← ih]
    cases levels with
    | zero =>
      rw [Value.rereadFields?]
      rfl
    | succ inner =>
      rw [Value.rereadFields?]
      show (v.reread? indent inner).bind _ = ((v.reread? indent inner).map _).bind _
      cases v.reread? indent inner <;> rfl

theorem itemKinds_eq (indent : Nat) (vs : List Value) :
    Value.itemKinds indent vs = vs.map (Value.kinds indent) := by
  induction vs with
  | nil => rw [Value.itemKinds, List.map_nil]
  | cons v vs ih => rw [Value.itemKinds, List.map_cons, ih]

/-- What a field of an object or an argument spells. -/
def argumentKind (indent : Nat) (f : Name × Value) : List Kind :=
  f.1.lexeme :: Mark.colon.lexeme :: f.2.kinds indent

theorem fieldKinds_eq (indent : Nat) (fs : List (Name × Value)) :
    Value.fieldKinds indent fs = fs.map (argumentKind indent) := by
  induction fs with
  | nil => rw [Value.fieldKinds, List.map_nil]
  | cons f fs ih =>
    rw [Value.fieldKinds, List.map_cons, ih]
    rfl

/-- A value begins like an item of a list. -/
theorem next_value (indent : Nat) (v : Value) (rest : List Kind) :
    Next (fun t => Document.startsListItem t = true ∧ True) (v.kinds indent ++ rest) := by
  cases v with
  | float b =>
    cases b with
    | finite _ _ _ =>
      simp only [Value.kinds, Document.floatKinds, List.cons_append, next_token]
      split <;> simp [Document.startsListItem]
    | infinite isNegative =>
      cases isNegative <;> simp [Value.kinds, Document.floatKinds, Document.startsListItem]
  | _ => simp [Value.kinds, Document.startsListItem]

theorem tokenCount_value_pos (indent : Nat) (v : Value) : 0 < tokenCount (v.kinds indent) := by
  cases v with
  | float b =>
    cases b with
    | finite _ _ _ => simp [Value.kinds, Document.floatKinds]
    | infinite isNegative => cases isNegative <;> simp [Value.kinds, Document.floatKinds]
  | _ => simp [Value.kinds]

/-- A name with a value after it is read, if its value is. -/
theorem feed_argument {indent : Nat} {inner : Document.Production Document.Value}
    {read? : Value → Option Document.Value} {f : Name × Value} {rest : List Kind}
    (h : inner.feed (f.2.kinds indent ++ rest) = leaving rest (read? f.2)) :
    (do
      let n ← Document.name
      pure (n, ← Document.afterColon inner) : Document.Production _).feed
        (argumentKind indent f ++ rest) = leaving rest (rereadField? read? f) := by
  -- the name leaves the colon with the value, and the colon leaves the value
  have hname : (Document.name).feed (argumentKind indent f ++ rest) =
      leaving (Mark.colon.lexeme :: f.2.kinds indent ++ rest) (some f.1) := by
    simp [Document.name, argumentKind]
  have hcolon : (Document.afterColon inner).feed (Mark.colon.lexeme :: f.2.kinds indent ++ rest) =
      leaving rest ((read? f.2).map some) := by
    simp only [Document.afterColon, List.cons_append, feed_takeMark, if_true, feed_bind h,
      feed_pure, bind_leaving, bind_eq_map]
  rw [feed_bind hname, Option.bind_some]
  simp only [feed_bind hcolon, feed_pure, bind_leaving, bind_eq_map, rereadField?,
    Option.map_map, Function.comp_def]

/-- Names with values after them are read one by one, if their values are. -/
theorem feed_fields (fuel : Nat) {indent : Nat} {inner : Document.Production Document.Value}
    {read? : Value → Option Document.Value} (fs : List (Name × Value)) (rest : List Kind)
    (h : ∀ f ∈ fs, ∀ rest, inner.feed (f.2.kinds indent ++ rest) = leaving rest (read? f.2))
    (hrest : Next (fun t => startsName t = false ∧ True) rest)
    (hfuel : tokenCount (commaSeparated (fs.map (argumentKind indent))) ≤ fuel) :
    (many fuel startsName (do
      let n ← Document.name
      pure (n, ← Document.afterColon inner) : Document.Production _)).feed
        (commaSeparated (fs.map (argumentKind indent)) ++ rest) =
      leaving rest (fs.mapM (rereadField? read?)) := by
  refine feed_many_commas (P := fun _ => True) ⟨fun f _ => ?_, fun f _ rest => ?_,
    fun f hf rest _ => feed_argument (h f hf rest)⟩ hrest hfuel
  · simp [argumentKind]
  · simp [argumentKind, startsName, Token.isName]

theorem tokenCount_le_commas {α : Type} {x : α} {xs : List α} (h : x ∈ xs)
    (kinds : α → List Kind) :
    tokenCount (kinds x) ≤ tokenCount (commaSeparated (xs.map kinds)) := by
  rw [tokenCount_commas, ← tokenCount_comma]
  exact tokenCount_le_flatMap h fun x => .comma :: kinds x

/-- The rule for what stands inside a value. -/
def valueInside (fuel levels : Nat) : Document.Production Document.Value :=
  match levels with
  | 0 => Document.tooDeep
  | inner + 1 => Document.value fuel true inner

/-- What a value is read from is the same at each level, but for what stands inside it. -/
theorem value_eq (fuel levels : Nat) :
    Document.value fuel true levels =
      Document.valueWith fuel true (valueInside fuel levels) := by
  cases levels <;> rfl

/-- What is said of a value that is read as it is meant to be. -/
def RereadsAt (indent fuel : Nat) (v : Value) : Prop :=
  ∀ levels rest, tokenCount (v.kinds indent) ≤ fuel →
    (Document.value fuel true levels).feed (v.kinds indent ++ rest) =
      leaving rest (v.reread? indent levels)

/-- A value that is read back is so inside another one as well, if a level is left. -/
theorem RereadsAt.inside {indent fuel : Nat} {v : Value} (h : RereadsAt indent fuel v)
    (hfuel : tokenCount (v.kinds indent) ≤ fuel) (levels : Nat) (rest : List Kind) :
    (valueInside fuel levels).feed (v.kinds indent ++ rest) =
      leaving rest (v.rereadInside? indent levels) := by
  cases levels with
  | zero => exact feed_fail _ _
  | succ inner => exact h inner rest hfuel

theorem rereadsAt_float (indent fuel : Nat) (b : Binary64) : RereadsAt indent fuel (.float b) := by
  intro levels rest _
  rw [value_eq, Value.reread?]
  cases b with
  | finite isNegative significand exponent =>
    simp only [Value.kinds, Document.floatKinds]
    generalize (Binary64.finite isNegative significand exponent).text.toList.contains '.' = point
    cases point <;> simp [Document.valueWith, rereadFloat?]
  | infinite isNegative =>
    cases isNegative
    · simp [Value.kinds, Document.floatKinds, Document.valueWith, rereadFloat?]
    · -- the minus of an infinite number is a flaw, which no rule gets past
      simp [Value.kinds, Document.floatKinds, rereadFloat?]

/-- A list is read back if its items are. -/
theorem rereadsAt_list {indent fuel : Nat} {vs : List Value}
    (h : ∀ v ∈ vs, RereadsAt indent fuel v) : RereadsAt indent fuel (.list vs) := by
  intro levels rest hfuel
  simp only [Value.kinds, tokenCount_token, tokenCount_append, itemKinds_eq] at hfuel
  -- an item has fewer tokens than the list, so the fuel of the list is enough for it
  have hmany : (many fuel Document.startsListItem (valueInside fuel levels)).feed
      (commaSeparated (vs.map (Value.kinds indent)) ++ Mark.closeBracket.lexeme :: rest) =
        leaving (Mark.closeBracket.lexeme :: rest)
          (vs.mapM (Value.rereadInside? indent levels)) := by
    refine feed_many_commas (P := fun _ => True) ⟨fun v _ => tokenCount_value_pos indent v,
      fun v _ => next_value indent v, fun v hv rest _ => ?_⟩ ?_ (by omega)
    · have hle := tokenCount_le_commas hv (Value.kinds indent)
      exact (h v hv).inside (by omega) levels rest
    · simp [Document.startsListItem]
  rw [value_eq, Value.reread?, rereadItems?_eq, Value.kinds, itemKinds_eq]
  simp only [Document.valueWith, List.cons_append, List.append_assoc, feed_current, feed_skip,
    feed_bind hmany, List.nil_append, feed_takeMark, feed_pure, bind_leaving,
    bind_eq_map]

/-- An object is read back if the values of its fields are. -/
theorem rereadsAt_object {indent fuel : Nat} {fs : List (Name × Value)}
    (h : ∀ f ∈ fs, RereadsAt indent fuel f.2) : RereadsAt indent fuel (.object fs) := by
  intro levels rest hfuel
  simp only [Value.kinds, tokenCount_token, tokenCount_append, fieldKinds_eq] at hfuel
  have hmany : (many fuel startsName (do
      let n ← Document.name
      pure (n, ← Document.afterColon (valueInside fuel levels)) : Document.Production _)).feed
        (commaSeparated (fs.map (argumentKind indent)) ++ Mark.closeBrace.lexeme :: rest) =
      leaving (Mark.closeBrace.lexeme :: rest)
        (fs.mapM (rereadField? (Value.rereadInside? indent levels))) := by
    refine feed_fields fuel fs _ (fun f hf rest => ?_) (by simp [startsName, Token.isName])
      (by omega)
    have hle := tokenCount_le_commas hf (argumentKind indent)
    simp only [argumentKind, tokenCount_token] at hle
    exact (h f hf).inside (by omega) levels rest
  rw [value_eq, Value.reread?, rereadFields?_eq, Value.kinds, fieldKinds_eq]
  simp only [Document.valueWith, List.cons_append, List.append_assoc, feed_current, feed_skip,
    feed_bind hmany, List.nil_append, feed_bind (feed_close _ _ _), Option.bind_some, feed_pure,
    bind_leaving, bind_eq_map]

mutual

/-- **Values.**  A value is read as it is meant to be. -/
theorem rereadsAt_value (indent fuel : Nat) : ∀ v : Value, RereadsAt indent fuel v
  | .variable n => by
    intro levels rest _
    rw [value_eq]
    simp [Value.kinds, Value.reread?, Document.valueWith]
  | .int i => by
    intro levels rest _
    rw [value_eq]
    simp [Value.kinds, Value.reread?, Document.valueWith]
  | .float b => rereadsAt_float indent fuel b
  | .string s => by
    intro levels rest _
    rw [value_eq]
    simp [Value.kinds, Value.reread?, Document.valueWith]
  | .word n => by
    intro levels rest _
    rw [value_eq]
    simp [Value.kinds, Value.reread?, Document.valueWith]
  | .list vs => rereadsAt_list (rereadsAt_items indent fuel vs)
  | .object fs => rereadsAt_object (rereadsAt_fields indent fuel fs)

theorem rereadsAt_items (indent fuel : Nat) :
    ∀ vs : List Value, ∀ v ∈ vs, RereadsAt indent fuel v
  | [] => by simp
  | w :: vs => by
    intro v hv
    rcases List.mem_cons.1 hv with h | hv
    · rw [h]
      exact rereadsAt_value indent fuel w
    · exact rereadsAt_items indent fuel vs v hv

theorem rereadsAt_fields (indent fuel : Nat) :
    ∀ fs : List (Name × Value), ∀ f ∈ fs, RereadsAt indent fuel f.2
  | [] => by simp
  | (n, w) :: fs => by
    intro f hf
    rcases List.mem_cons.1 hf with h | hf
    · rw [h]
      exact rereadsAt_value indent fuel w
    · exact rereadsAt_fields indent fuel fs f hf

end

/-! ## Directives -/

/-- What is read of a directive that is applied in the schema. -/
def Directive.reread? (indent : Nat) (d : Directive) : Option Document.Directive :=
  (d.arguments.mapM (rereadField? (Value.reread? indent Document.maxLevels))).map
    fun args => ⟨d.name, args⟩

/-- What does not belong to directives that stand before it. -/
def EndsDirectives (t : Option Token) : Prop :=
  t ≠ some (.mark .atSign) ∧ t ≠ some (.mark .openParen)

/-- Items between commas begin as the first of them does. -/
theorem next_commas {α : Type} {P : Option Token → Prop} {kinds : α → List Kind} {x : α}
    (h : ∀ rest, Next P (kinds x ++ rest)) (xs : List α) (rest : List Kind) :
    Next P (commaSeparated ((x :: xs).map kinds) ++ rest) := by
  rw [commaSeparated, intercalate_cons_map, List.append_assoc]
  exact h _

/-- Arguments that are given are read back one by one. -/
theorem feed_applied (indent fuel : Nat) (as : List (Name × Value)) {rest : List Kind}
    (hfuel : tokenCount (appliedKinds indent as) ≤ fuel)
    (hrest : Next (· ≠ some (.mark .openParen)) rest) :
    (Document.arguments fuel true Document.maxLevels).feed (appliedKinds indent as ++ rest) =
      leaving rest (as.mapM (rereadField? (Value.reread? indent Document.maxLevels))) := by
  cases as with
  | nil =>
    show (Document.arguments fuel true Document.maxLevels).feed rest = _
    rw [Document.arguments, feed_takeMark_of_next hrest]
    exact feed_pure _ _
  | cons a as =>
    simp only [appliedKinds, List.isEmpty_cons, Bool.false_eq_true, if_false, fieldKinds_eq,
      tokenCount_token, tokenCount_append] at hfuel
    have hvalues : ∀ f ∈ a :: as, ∀ rest,
        (Document.value fuel true Document.maxLevels).feed (f.2.kinds indent ++ rest) =
          leaving rest (f.2.reread? indent Document.maxLevels) := by
      intro f hf rest
      have hle := tokenCount_le_commas hf (argumentKind indent)
      simp only [argumentKind, tokenCount_token] at hle
      exact rereadsAt_value indent fuel f.2 Document.maxLevels rest (by omega)
    have hmany := feed_fields fuel (a :: as) (Mark.closeParen.lexeme :: rest) hvalues
      (by simp [startsName, Token.isName]) (by omega)
    have hstart : Next (fun t => startsName t = true)
        (commaSeparated ((a :: as).map (argumentKind indent)) ++
          Mark.closeParen.lexeme :: rest) :=
      next_commas (fun rest => by simp [argumentKind, startsName, Token.isName]) as _
    rw [appliedKinds, if_neg (by simp), fieldKinds_eq, Document.arguments]
    simp only [List.cons_append, List.append_assoc, feed_takeMark, if_true, List.nil_append]
    -- at least one argument stands between the parentheses, as the grammar demands
    rw [feed_current_of_next hstart fun t ht => if_pos ht, feed_bind hmany]
    simp only [feed_bind (feed_close _ _ _), Option.bind_some, feed_pure, bind_leaving,
      Option.bind_fun_some]

/-- **Directives.**  They are read as they were applied. -/
theorem feed_directives (indent fuel : Nat) (ds : List Directive) {rest : List Kind}
    (hfuel : tokenCount (directiveKinds indent ds) ≤ fuel) (hrest : Next EndsDirectives rest) :
    (Document.schemaDirectives fuel).feed (directiveKinds indent ds ++ rest) =
      leaving rest (ds.mapM (Directive.reread? indent)) := by
  refine feed_many (P := (· ≠ some (.mark .openParen))) ⟨fun d _ => ?_, fun d _ rest => ?_,
    fun d hd rest hrest => ?_⟩ (hrest.mono fun t ht => ⟨by simpa using ht.1, ht.2⟩) hfuel
  · simp [Directive.kinds]
  · simp [Directive.kinds]
  · have hle := tokenCount_le_flatMap hd (Directive.kinds indent)
    rw [← directiveKinds, Directive.kinds, tokenCount_token, tokenCount_token] at hle
    have happlied := feed_applied indent fuel d.arguments (by omega) hrest
    simp only [Directive.kinds, List.cons_append, feed_skip, Document.name,
      feed_bind (feed_nameOr _ _ _), Option.bind_some, feed_bind happlied, feed_pure,
      bind_leaving, bind_eq_map, Directive.reread?]

/-! ## Members of types -/

/-- What a printed description says. -/
def rereadDescription (indent : Nat) (d : Option String) : Option String :=
  d.map fun s => Document.stringValue (quoted indent s)

/-- What is read of a default value. -/
def rereadDefault? (indent : Nat) (d : Option Value) : Option (Option Document.Value) :=
  match d with
  | some v => (v.reread? indent Document.maxLevels).map some
  | none => some none

/-- What is read of an argument, or of a field of an input object. -/
def InputValue.reread? (indent : Nat) (v : InputValue) : Option Document.InputValue :=
  (rereadType? Document.maxLevels v.type).bind fun t =>
    (rereadDefault? indent v.default).bind fun d =>
      (v.directives.mapM (Directive.reread? indent)).map fun ds =>
        ⟨rereadDescription indent v.description, v.name, t, d, ds⟩

/-- What is read of a field. -/
def Field.reread? (indent : Nat) (f : Field) : Option Document.Field :=
  (f.arguments.mapM (InputValue.reread? indent)).bind fun args =>
    (rereadType? Document.maxLevels f.type).bind fun t =>
      (f.directives.mapM (Directive.reread? indent)).map fun ds =>
        ⟨rereadDescription indent f.description, f.name, args, t, ds⟩

/-- What is read of a value of an enum. -/
def EnumValue.reread? (indent : Nat) (v : EnumValue) : Option Document.EnumValue :=
  if v.name.text ∈ Document.reservedValues then none
  else (v.directives.mapM (Directive.reread? indent)).map fun ds =>
    ⟨rereadDescription indent v.description, v.name, ds⟩

/-- What does not belong to a reference to a type, with directives, that stands before
it. -/
def EndsType (t : Option Token) : Prop := EndsDirectives t ∧ t ≠ some (.mark .bang)

/-- What does not belong to an argument of a definition that stands before it. -/
def EndsInput (t : Option Token) : Prop := EndsType t ∧ t ≠ some (.mark .equals)

/-- A description is read back, as far as its text is. -/
theorem feed_description {indent : Nat} (d : Option String) (n : Name) (rest : List Kind) :
    Document.description.feed (descriptionKinds indent d ++ n.lexeme :: rest) =
      leaving (n.lexeme :: rest) (some (rereadDescription indent d)) := by
  cases d <;> simp [Document.description, descriptionKinds, rereadDescription]

/-- A member begins with its description or with its name. -/
theorem next_description {P : Option Token → Prop} (indent : Nat) (d : Option String) (n : Name)
    (rest : List Kind) (hstring : ∀ s, P (some (.string s))) (hname : P (some (.name n))) :
    Next P (descriptionKinds indent d ++ n.lexeme :: rest) := by
  cases d with
  | none => exact next_token.2 hname
  | some s => exact next_token.2 (hstring _)

/-- A type is read back, as far as its layers are. -/
theorem feed_typeOr (message : String) (t : TypeRef) {rest : List Kind}
    (hrest : Next (· ≠ some (.mark .bang)) rest) :
    (Document.typeOr message).feed (t.kinds ++ rest) =
      leaving rest (rereadType? Document.maxLevels t) := by
  have hstart : Next (fun t => Document.startsType t = true) (t.kinds ++ rest) := by
    cases t <;> simp [TypeRef.kinds, Document.startsType, startsName, Token.isName]
  rw [Document.typeOr, feed_current_of_next hstart fun t ht => if_pos ht]
  exact feed_type t Document.maxLevels hrest

theorem next_directives {P : Option Token → Prop} (indent : Nat) (ds : List Directive)
    {rest : List Kind} (hat : P (some (.mark .atSign))) (hrest : Next P rest) :
    Next P (directiveKinds indent ds ++ rest) := by
  cases ds with
  | nil => exact hrest
  | cons d ds => exact next_token.2 hat

/-- A default is read back, as far as its value is. -/
theorem feed_default (indent fuel : Nat) (d : Option Value) {rest : List Kind}
    (hfuel : tokenCount (defaultKinds indent d) ≤ fuel)
    (hrest : Next (· ≠ some (.mark .equals)) rest) :
    (Document.defaultValue fuel).feed (defaultKinds indent d ++ rest) =
      leaving rest (rereadDefault? indent d) := by
  cases d with
  | none =>
    show (Document.defaultValue fuel).feed rest = _
    rw [Document.defaultValue, feed_takeMark_of_next hrest]
    exact feed_pure _ _
  | some v =>
    rw [defaultKinds, tokenCount_token] at hfuel
    have hvalue := rereadsAt_value indent fuel v Document.maxLevels rest (by omega)
    simp only [Document.defaultValue, defaultKinds, List.cons_append, feed_takeMark, if_true,
      feed_bind hvalue, feed_pure, bind_leaving, bind_eq_map, rereadDefault?]

theorem next_default {P : Option Token → Prop} (indent : Nat) (d : Option Value)
    {rest : List Kind} (hequals : P (some (.mark .equals))) (hrest : Next P rest) :
    Next P (defaultKinds indent d ++ rest) := by
  cases d with
  | none => exact hrest
  | some v => exact next_token.2 hequals

/-- **Arguments of a definition.**  Each is read as it was declared. -/
theorem feed_inputValue (indent fuel : Nat) (v : InputValue) {rest : List Kind}
    (hfuel : tokenCount (v.kinds indent) ≤ fuel) (hrest : Next EndsInput rest) :
    (Document.inputValue fuel).feed (v.kinds indent ++ rest) =
      leaving rest (v.reread? indent) := by
  simp only [InputValue.kinds, tokenCount_append, tokenCount_token] at hfuel
  -- from the end to the front: what follows each part must not be taken for more of it
  have hdirs := feed_directives indent fuel v.directives (by omega)
    (hrest.mono fun t ht => ht.1.1)
  have hdefault := feed_default indent fuel v.default (by omega)
    (next_directives indent v.directives (by simp) (hrest.mono fun t ht => ht.2))
  have htype := feed_typeOr "expected a Type" v.type
    (next_default indent v.default (by simp)
      (next_directives indent v.directives (by simp) (hrest.mono fun t ht => ht.1.2)))
  simp only [InputValue.kinds, List.cons_append, List.append_assoc, Document.inputValue,
    feed_bind (feed_description _ _ _), Document.name, feed_bind (feed_nameOr _ _ _),
    feed_bind (feed_markOr _ _ _), Option.bind_some, feed_bind htype, feed_bind hdefault,
    feed_bind hdirs, feed_pure, bind_leaving, bind_eq_map, InputValue.reread?]

/-! ## Members in a row -/

section Members

variable {α : Type} {fuel : Nat} {closing : Mark} {item : Document.Production α}
  {rest : List Kind}

theorem feed_no_members {opening : Mark} {label message : String}
    (hrest : Next (· ≠ some (.mark opening)) rest) :
    (Document.members fuel opening closing label message item).feed rest =
      leaving rest (some none) := by
  rw [Document.members, feed_takeMark_of_next hrest]
  exact feed_pure _ _

/-- Members that are read up to the mark that closes them are read with both marks. -/
theorem feed_members (opening : Mark) (label message : String) {ks : List Kind}
    {o : Option (List α)}
    (hstart : Next (fun t => startsMember t = true) (ks ++ closing.lexeme :: rest))
    (hmany : (many fuel startsMember item).feed (ks ++ closing.lexeme :: rest) =
      leaving (closing.lexeme :: rest) o) :
    (Document.members fuel opening closing label message item).feed
        (opening.lexeme :: (ks ++ closing.lexeme :: rest)) = leaving rest (o.map some) := by
  rw [Document.members, feed_takeMark, if_pos rfl,
    feed_current_of_next hstart fun t ht => if_pos ht, feed_bind hmany]
  simp only [feed_bind (feed_close _ _ _), Option.bind_some, feed_pure, bind_leaving, bind_eq_map]

/-- A member that begins with its description or its name begins as it should. -/
theorem next_member {P : Option Token → Prop} (indent : Nat) (d : Option String) (n : Name)
    (rest : List Kind) (hstring : ∀ s, P (some (.string s))) (hname : P (some (.name n))) :
    Next (fun t => startsMember t = true ∧ P t)
      (descriptionKinds indent d ++ n.lexeme :: rest) := by
  refine next_description indent d n rest (fun s => ⟨?_, hstring s⟩) ⟨?_, hname⟩
  · simp [startsMember, Token.isString]
  · simp [startsMember, Token.isName]

end Members

/-- What comes behind the last of some members. -/
theorem next_closing {P : Option Token → Prop} {m : Mark} (ks : List Kind)
    (h : P (some (.mark m))) :
    Next (fun t => startsMember t = false ∧ P t) (m.lexeme :: ks) :=
  next_token.2 ⟨by simp [startsMember, Token.isString, Token.isName], h⟩

theorem readsEach_inputValues {indent fuel : Nat} {vs : List InputValue}
    (hfuel : ∀ v ∈ vs, tokenCount (v.kinds indent) ≤ fuel) :
    ReadsEach (Document.inputValue fuel) startsMember EndsInput vs (InputValue.kinds indent)
      (InputValue.reread? indent) where
  counts v _ := by
    simp only [InputValue.kinds, tokenCount_append, tokenCount_token]
    omega
  begins v _ rest := by
    rw [InputValue.kinds, List.append_assoc]
    exact next_member indent v.description v.name _
      (by simp [EndsInput, EndsType, EndsDirectives])
      (by simp [EndsInput, EndsType, EndsDirectives])
  reads v hv rest hrest := feed_inputValue indent fuel v (hfuel v hv) hrest

/-- **Arguments of a definition.**  They are read as they were declared. -/
theorem feed_argumentsDefinition (indent fuel : Nat) (vs : List InputValue) (rest : List Kind)
    (hfuel : tokenCount (argumentKinds indent vs) ≤ fuel)
    (hrest : Next (· ≠ some (.mark .openParen)) rest) :
    (Document.argumentsDefinition fuel).feed (argumentKinds indent vs ++ rest) =
      leaving rest (vs.mapM (InputValue.reread? indent)) := by
  cases vs with
  | nil =>
    show (Document.argumentsDefinition fuel).feed rest = _
    rw [Document.argumentsDefinition, feed_bind (feed_no_members hrest)]
    exact feed_pure _ _
  | cons v vs =>
    simp only [argumentKinds, List.isEmpty_cons, Bool.false_eq_true, if_false, tokenCount_token,
      tokenCount_append] at hfuel
    have heach : ReadsEach (Document.inputValue fuel) startsMember EndsInput (v :: vs)
        (InputValue.kinds indent) (InputValue.reread? indent) :=
      readsEach_inputValues fun w hw =>
        Nat.le_trans (tokenCount_le_commas hw (InputValue.kinds indent)) (by omega)
    have hclose : EndsInput (some (.mark .closeParen)) := by
      simp [EndsInput, EndsType, EndsDirectives]
    have hmany := feed_many_commas heach (next_closing rest hclose)
      (Nat.le_trans (Nat.le_add_right _ _) (Nat.le_of_succ_le hfuel))
    have hstart : Next (fun t => startsMember t = true)
        (commaSeparated ((v :: vs).map (InputValue.kinds indent)) ++
          Mark.closeParen.lexeme :: rest) :=
      next_commas (fun rest => (heach.begins v List.mem_cons_self rest).mono fun t ht => ht.1)
        vs _
    have hmembers := feed_members .openParen "R_PAREN" "expected an Argument Definition" hstart
      hmany
    have hkinds : argumentKinds indent (v :: vs) ++ rest = Mark.openParen.lexeme ::
        (commaSeparated ((v :: vs).map (InputValue.kinds indent)) ++
          Mark.closeParen.lexeme :: rest) := by
      simp [argumentKinds]
    rw [hkinds, Document.argumentsDefinition, feed_bind hmembers]
    simp only [feed_pure, bind_leaving, bind_eq_map, Option.map_map]
    exact congrArg _ Option.map_id'

/-- **Fields.**  Each is read as it was declared. -/
theorem feed_field (indent fuel : Nat) (f : Field) {rest : List Kind}
    (hfuel : tokenCount (f.kinds indent) ≤ fuel) (hrest : Next EndsType rest) :
    (Document.field fuel).feed (f.kinds indent ++ rest) = leaving rest (f.reread? indent) := by
  simp only [Field.kinds, tokenCount_append, tokenCount_token] at hfuel
  have hdirs := feed_directives indent fuel f.directives (by omega)
    (hrest.mono fun t ht => ht.1)
  have htype := feed_typeOr "expected a Type" f.type
    (next_directives indent f.directives (by simp) (hrest.mono fun t ht => ht.2))
  have hargs := feed_argumentsDefinition indent fuel f.arguments
    (Mark.colon.lexeme :: (f.type.kinds ++ (directiveKinds indent f.directives ++ rest)))
    (by omega) (by simp)
  simp only [Field.kinds, List.cons_append, List.append_assoc, Document.field,
    feed_bind (feed_description _ _ _), Document.name, feed_bind (feed_nameOr _ _ _),
    feed_bind hargs, feed_bind (feed_markOr _ _ _), Option.bind_some, feed_bind htype,
    feed_bind hdirs, feed_pure, bind_leaving, bind_eq_map, Field.reread?]

/-- **Values of enums.**  Each is read as it was declared, unless its name is reserved. -/
theorem feed_enumValue (indent fuel : Nat) (v : EnumValue) {rest : List Kind}
    (hfuel : tokenCount (v.kinds indent) ≤ fuel) (hrest : Next EndsDirectives rest) :
    (Document.enumValue fuel).feed (v.kinds indent ++ rest) = leaving rest (v.reread? indent) := by
  simp only [EnumValue.kinds, tokenCount_append, tokenCount_token] at hfuel
  have hdirs := feed_directives indent fuel v.directives (by omega) hrest
  simp only [EnumValue.kinds, List.cons_append, List.append_assoc, Document.enumValue,
    feed_bind (feed_description _ _ _), Option.bind_some, feed_current, EnumValue.reread?]
  split
  · rw [feed_fail, leaving_none]
  · simp only [feed_skip, feed_bind hdirs, feed_pure, bind_leaving, bind_eq_map]

end SchemaCatalog.Fragment
