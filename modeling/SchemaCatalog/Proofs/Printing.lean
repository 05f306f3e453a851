/-
# What printed definitions spell

For each part of a definition there are the lexemes that its printed text is meant to
spell.  The text is scanned into exactly these, with punctuation and names where the
printer puts them and each text in quotes as one string.
-/
import SchemaCatalog.Proofs.SpelledNumbers
import SchemaCatalog.Proofs.SpelledStrings

namespace SchemaCatalog

open Lexeme (Kind)

/-! ## Words -/

/-- The word that opens a definition of a shape. -/
def Shape.word (s : Shape) : Name := ⟨s.keyword, by cases s <;> decide⟩

/-- The name of an operation as a word of a text. -/
def Operation.word (o : Operation) : Name := ⟨o.text, by cases o <;> decide⟩

def implementsWord : Name := ⟨"implements", by decide⟩
def extendWord : Name := ⟨"extend", by decide⟩
def schemaWord : Name := ⟨"schema", by decide⟩
def directiveWord : Name := ⟨"directive", by decide⟩
def repeatableWord : Name := ⟨"repeatable", by decide⟩
def onWord : Name := ⟨"on", by decide⟩

@[simp] theorem Shape.word_text (s : Shape) : s.word.text = s.keyword := rfl
@[simp] theorem Operation.word_text (o : Operation) : o.word.text = o.text := rfl
@[simp] theorem implementsWord_text : implementsWord.text = "implements" := rfl
@[simp] theorem extendWord_text : extendWord.text = "extend" := rfl
@[simp] theorem schemaWord_text : schemaWord.text = "schema" := rfl
@[simp] theorem directiveWord_text : directiveWord.text = "directive" := rfl
@[simp] theorem repeatableWord_text : repeatableWord.text = "repeatable" := rfl
@[simp] theorem onWord_text : onWord.text = "on" := rfl

open Document (Spells SpellsAlone Trails Closes isBreak breakKinds spells_name spells_quoted
  spells_int spells_float floatKinds closes_breaks trails_nil spellsAlone_nil spells_intercalate)

/-- A text of nothing but punctuation and white space. -/
theorem closes_text {s : String} {ks : List Kind}
    (h : (!s.toList.isEmpty && s.toList.all isBreak) = true)
    (hkinds : s.toList.flatMap breakKinds = ks) : Closes s.toList ks := by
  simp only [Bool.and_eq_true, Bool.not_eq_true', List.isEmpty_eq_false_iff,
    List.all_eq_true] at h
  exact hkinds ▸ closes_breaks h

theorem closes_comma : Closes ", ".toList [Kind.comma] := closes_text rfl rfl

theorem closes_colon : Closes ": ".toList [Mark.colon.lexeme] := closes_text rfl rfl

theorem closes_line : Closes "\n".toList [] := closes_text rfl rfl

/-! ## References to types -/

/-- What follows a layer of a reference. -/
def bangKinds (required : Bool) : List Kind := if required then [Mark.bang.lexeme] else []

/-- What a reference to a type spells. -/
def TypeRef.kinds : TypeRef → List Kind
  | named n r => n.lexeme :: bangKinds r
  | list t r => Mark.openBracket.lexeme :: (t.kinds ++ Mark.closeBracket.lexeme :: bangKinds r)

theorem trails_bang (r : Bool) : Trails (TypeRef.bang r).toList (bangKinds r) := by
  cases r with
  | false => exact trails_nil
  | true => exact (closes_text rfl rfl).trails

/-- A reference is spelled as its layers are, from the outermost bracket in. -/
theorem spells_type (t : TypeRef) : Spells t.text.toList t.kinds := by
  induction t with
  | named n r =>
    rw [TypeRef.text, String.toList_append]
    exact (spells_name n).trail (trails_bang r)
  | list t r ih =>
    have hopen : Closes "[".toList [Mark.openBracket.lexeme] := closes_text rfl rfl
    have hclose : Closes "]".toList [Mark.closeBracket.lexeme] := closes_text rfl rfl
    have h := (hopen.append ((ih.close hclose).append (trails_bang r).spells)).spells
    simpa [TypeRef.text, TypeRef.kinds] using h

namespace Fragment

/-- Texts with a text of punctuation between them. -/
theorem spells_joined {between : String} {ls : List Kind} (h : Closes between.toList ls)
    {texts : List String} {kinds : List (List Kind)}
    (hs : List.Forall₂ (fun s ks => Spells s.toList ks) texts kinds) :
    Spells (joined between texts).toList (ls.intercalate kinds) := by
  rw [joined, String.toList_intercalate]
  exact spells_intercalate h (List.forall₂_map_left_iff.2 hs)

/-- Items that are spelled each for itself are spelled in a row, with what stands between them. -/
theorem spells_joined_map {α : Type} {between : String} {ls : List Kind}
    (h : Closes between.toList ls) (xs : List α) {f : α → String} {g : α → List Kind}
    (hs : ∀ x, Spells (f x).toList (g x)) :
    Spells (joined between (xs.map f)).toList (ls.intercalate (xs.map g)) := by
  refine spells_joined h ?_
  rw [List.forall₂_map_left_iff, List.forall₂_map_right_iff, List.forall₂_same]
  exact fun x _ => hs x

/-! ## Values -/

mutual

/-- What a value spells. -/
def Value.kinds (indent : Nat) : Value → List Kind
  | .variable n => [Mark.dollar.lexeme, n.lexeme]
  | .int i => [.token (.int (toString i))]
  | .float b => floatKinds b
  | .string s => [.token (.string (quoted indent s))]
  | .word n => [n.lexeme]
  | .list vs =>
    Mark.openBracket.lexeme ::
      (commaSeparated (Value.itemKinds indent vs) ++ [Mark.closeBracket.lexeme])
  | .object fs =>
    Mark.openBrace.lexeme ::
      (commaSeparated (Value.fieldKinds indent fs) ++ [Mark.closeBrace.lexeme])

/-- What each item of a list spells. -/
def Value.itemKinds (indent : Nat) : List Value → List (List Kind)
  | [] => []
  | v :: vs => v.kinds indent :: Value.itemKinds indent vs

/-- What each field of an object spells. -/
def Value.fieldKinds (indent : Nat) : List (Name × Value) → List (List Kind)
  | [] => []
  | (n, v) :: fs => (n.lexeme :: Mark.colon.lexeme :: v.kinds indent) :: Value.fieldKinds indent fs

end

mutual

/-- A value is spelled as it is meant to be. -/
theorem spells_value (indent : Nat) :
    ∀ v : Value, Spells (v.write indent).toList (v.kinds indent)
  | .variable n => by
    have hdollar : Closes "$".toList [Mark.dollar.lexeme] := closes_text rfl rfl
    rw [Value.write, Value.kinds, String.toList_append]
    exact (hdollar.append (spells_name n)).spells
  | .int i => by
    rw [Value.write, Value.kinds]
    exact spells_int i
  | .float b => by
    rw [Value.write, Value.kinds]
    exact spells_float b
  | .string s => by
    rw [Value.write, Value.kinds]
    exact spells_quoted indent s
  | .word n => by
    rw [Value.write, Value.kinds]
    exact spells_name n
  | .list vs => by
    have hopen : Closes "[".toList [Mark.openBracket.lexeme] := closes_text rfl rfl
    have hclose : Closes "]".toList [Mark.closeBracket.lexeme] := closes_text rfl rfl
    rw [Value.write, Value.kinds, String.toList_append, String.toList_append, List.append_assoc]
    exact (hopen.append ((spells_joined closes_comma (spells_items indent vs)).close
      hclose).spells).spells
  | .object fs => by
    have hopen : Closes "\x7b".toList [Mark.openBrace.lexeme] := closes_text rfl rfl
    have hclose : Closes "\x7d".toList [Mark.closeBrace.lexeme] := closes_text rfl rfl
    rw [Value.write, Value.kinds, String.toList_append, String.toList_append, List.append_assoc]
    exact (hopen.append ((spells_joined closes_comma (spells_fields indent fs)).close
      hclose).spells).spells

/-- The items of a list are spelled each for itself. -/
theorem spells_items (indent : Nat) : ∀ vs : List Value,
    List.Forall₂ (fun s ks => Spells s.toList ks) (Value.writeItems indent vs)
      (Value.itemKinds indent vs)
  | [] => .nil
  | v :: vs => .cons (spells_value indent v) (spells_items indent vs)

/-- The fields of an object are spelled each for itself, with the name and the colon. -/
theorem spells_fields (indent : Nat) : ∀ fs : List (Name × Value),
    List.Forall₂ (fun s ks => Spells s.toList ks) (Value.writeFields indent fs)
      (Value.fieldKinds indent fs)
  | [] => .nil
  | (n, v) :: fs => by
    refine .cons ?_ (spells_fields indent fs)
    rw [String.toList_append, String.toList_append]
    exact ((spells_name n).close closes_colon).append (spells_value indent v)

end

/-! ## Directives -/

/-- What the arguments of a directive spell. -/
def appliedKinds (indent : Nat) (as : List (Name × Value)) : List Kind :=
  if as.isEmpty then []
  else Mark.openParen.lexeme ::
    (commaSeparated (Value.fieldKinds indent as) ++ [Mark.closeParen.lexeme])

/-- What a directive spells. -/
def Directive.kinds (indent : Nat) (d : Directive) : List Kind :=
  Mark.atSign.lexeme :: d.name.lexeme :: appliedKinds indent d.arguments

/-- What directives spell. -/
def directiveKinds (indent : Nat) (ds : List Directive) : List Kind :=
  ds.flatMap (Directive.kinds indent)

/-- A directive begins with a blank, so it can stand behind anything. -/
theorem trails_directive (indent : Nat) (d : Directive) :
    Trails (d.write indent).toList (d.kinds indent) := by
  have hat : Closes " @".toList [Mark.atSign.lexeme] := closes_text rfl rfl
  have hopen : Closes "(".toList [Mark.openParen.lexeme] := closes_text rfl rfl
  have hclose : Closes ")".toList [Mark.closeParen.lexeme] := closes_text rfl rfl
  have hname := hat.append (spells_name d.name)
  rw [Directive.write, Directive.kinds, appliedKinds]
  split
  · simpa using hname
  · have hargs := hopen.append_alone
      ((spells_joined closes_comma (spells_fields indent d.arguments)).close hclose)
    simpa using hname.append hargs.trails

/-- Directives follow each other without more between them. -/
theorem trails_directives (indent : Nat) (ds : List Directive) :
    Trails (writeDirectives indent ds).toList (directiveKinds indent ds) := by
  rw [writeDirectives, String.toList_join, List.flatMap_map]
  exact Trails.flatMap fun d _ => trails_directive indent d

/-! ## Members of types -/

/-- What a description spells. -/
def descriptionKinds (indent : Nat) (d : Option String) : List Kind :=
  match d with
  | some s => [.token (.string (quoted indent s))]
  | none => []

/-- What a default value spells. -/
def defaultKinds (indent : Nat) (d : Option Value) : List Kind :=
  match d with
  | some v => Mark.equals.lexeme :: v.kinds indent
  | none => []

/-- What an argument spells, or a field of an input object. -/
def InputValue.kinds (indent : Nat) (v : InputValue) : List Kind :=
  descriptionKinds indent v.description ++ v.name.lexeme :: Mark.colon.lexeme ::
    (v.type.kinds ++ (defaultKinds indent v.default ++ directiveKinds indent v.directives))

/-- What arguments spell. -/
def argumentKinds (indent : Nat) (vs : List InputValue) : List Kind :=
  if vs.isEmpty then []
  else Mark.openParen.lexeme ::
    (commaSeparated (vs.map (InputValue.kinds indent)) ++ [Mark.closeParen.lexeme])

/-- What a field spells. -/
def Field.kinds (indent : Nat) (f : Field) : List Kind :=
  descriptionKinds indent f.description ++ f.name.lexeme ::
    (argumentKinds indent f.arguments ++ Mark.colon.lexeme ::
      (f.type.kinds ++ directiveKinds indent f.directives))

/-- What a value of an enum spells. -/
def EnumValue.kinds (indent : Nat) (v : EnumValue) : List Kind :=
  descriptionKinds indent v.description ++ v.name.lexeme :: directiveKinds indent v.directives

/-- What members between braces spell. -/
def blockKinds (kss : List (List Kind)) : List Kind :=
  if kss.isEmpty then []
  else Mark.openBrace.lexeme :: (kss.flatten ++ [Mark.closeBrace.lexeme])

/-- A description on the line of what it describes spells one string, or nothing. -/
theorem spellsAlone_inlineDescription (indent : Nat) (d : Option String) :
    SpellsAlone (inlineDescription indent d).toList (descriptionKinds indent d) := by
  cases d with
  | none => exact spellsAlone_nil
  | some s =>
    have hspace : Closes " ".toList [] := closes_text rfl rfl
    have h := (spells_quoted indent s).close hspace
    simpa [inlineDescription, descriptionKinds] using h

/-- The blanks at the start of a line spell nothing. -/
theorem spellsAlone_margin (indent : Nat) : SpellsAlone (margin indent).toList [] := by
  rw [margin, String.toList_ofList]
  refine Document.spellsAlone_blanks fun c hc => ?_
  rw [List.eq_of_mem_replicate hc]
  rfl

/-- A description on a line of its own spells one string, or nothing. -/
theorem spellsAlone_ownDescription (indent : Nat) (d : Option String) :
    SpellsAlone (ownDescription indent d).toList (descriptionKinds indent d) := by
  cases d with
  | none => exact spellsAlone_nil
  | some s =>
    have h := (spellsAlone_margin indent).append_alone ((spells_quoted indent s).close closes_line)
    simpa [ownDescription, descriptionKinds] using h

/-- A default begins with a blank, if there is one. -/
theorem trails_default (indent : Nat) (d : Option Value) :
    Trails (writeDefault indent d).toList (defaultKinds indent d) := by
  cases d with
  | none => exact trails_nil
  | some v =>
    have hequals : Closes " = ".toList [Mark.equals.lexeme] := closes_text rfl rfl
    rw [writeDefault, String.toList_append]
    exact hequals.append (spells_value indent v)

/-- An argument is spelled part by part. -/
theorem spells_inputValue (indent : Nat) (v : InputValue) :
    Spells (v.write indent).toList (v.kinds indent) := by
  have hname := (spells_name v.name).close closes_colon
  -- a default and directives each bring the break that ends the type
  have htype := (spells_type v.type).trail
    ((trails_default indent v.default).append (trails_directives indent v.directives))
  have h := (spellsAlone_inlineDescription indent v.description).append (hname.append htype)
  simpa [InputValue.write, InputValue.kinds] using h

/-- Arguments are spelled between parentheses, if there are any. -/
theorem trails_arguments (indent : Nat) (vs : List InputValue) :
    Trails (writeArguments indent vs).toList (argumentKinds indent vs) := by
  have hopen : Closes "(".toList [Mark.openParen.lexeme] := closes_text rfl rfl
  have hclose : Closes ")".toList [Mark.closeParen.lexeme] := closes_text rfl rfl
  rw [writeArguments, argumentKinds]
  split
  · exact trails_nil
  · have h := hopen.append ((spells_joined_map closes_comma vs (spells_inputValue indent)).close
      hclose).spells
    simpa using h

/-- A field ends with its line, so it can stand before anything. -/
theorem spellsAlone_field (indent : Nat) (f : Field) :
    SpellsAlone (f.write indent).toList (f.kinds indent) := by
  have htype := ((spells_type f.type).trail (trails_directives indent f.directives)).close
    closes_line
  have hargs := (trails_arguments indent f.arguments).close (closes_colon.append_alone htype)
  have h := (spellsAlone_ownDescription indent f.description).append_alone
    ((spellsAlone_margin indent).append_alone ((spells_name f.name).close hargs))
  simpa [Field.write, Field.kinds] using h

/-- A field of an input object ends with its line. -/
theorem spellsAlone_inputField (indent : Nat) (v : InputValue) :
    SpellsAlone (writeInputField indent v).toList (v.kinds indent) := by
  have h := (spellsAlone_margin indent).append_alone
    ((spells_inputValue indent v).close closes_line)
  simpa [writeInputField] using h

/-- A value of an enum ends with its line. -/
theorem spellsAlone_enumValue (indent : Nat) (v : EnumValue) :
    SpellsAlone (v.write indent).toList (v.kinds indent) := by
  have hname := (spells_name v.name).close
    ((trails_directives indent v.directives).close closes_line)
  have h := (spellsAlone_margin indent).append_alone
    ((spellsAlone_inlineDescription indent v.description).append_alone hname)
  simpa [EnumValue.write, EnumValue.kinds] using h

/-- Members between braces, each on lines of its own. -/
theorem closes_block {α : Type} (xs : List α) {f : α → String} {g : α → List Kind}
    (h : ∀ x, SpellsAlone (f x).toList (g x)) :
    Closes (writeBlock (xs.map f)).toList (blockKinds (xs.map g)) := by
  have hopen : Closes " \x7b\n".toList [Mark.openBrace.lexeme] := closes_text rfl rfl
  have hclose : Closes "\x7d\n".toList [Mark.closeBrace.lexeme] := closes_text rfl rfl
  cases xs with
  | nil => exact closes_line -- no braces without members, only the end of the line
  | cons x xs =>
    have hmembers : SpellsAlone (String.join ((x :: xs).map f)).toList
        ((x :: xs).map g).flatten := by
      rw [String.toList_join, List.flatMap_map, ← List.flatMap_def]
      exact SpellsAlone.flatMap fun y _ => h y
    have hblock := hopen.append_alone (hmembers.append_alone hclose.alone)
    simpa [writeBlock, blockKinds] using hblock

/-! ## Definitions -/

/-- What names with a mark between them spell. -/
def nameKinds (m : Mark) (ns : List Name) : List Kind :=
  [m.lexeme].intercalate (ns.map fun n => [n.lexeme])

/-- What the interfaces of a type spell. -/
def interfaceKinds (is : List Name) : List Kind :=
  if is.isEmpty then [] else implementsWord.lexeme :: nameKinds .ampersand is

/-- What the members of a union spell. -/
def unionKinds (ms : List Name) : List Kind :=
  if ms.isEmpty then [] else Mark.equals.lexeme :: nameKinds .pipe ms

/-- What the directives and the content of a type spell. -/
def contentKinds (ds : List Directive) : Content → List Kind
  | .enum vs => directiveKinds 0 ds ++ blockKinds (vs.map (EnumValue.kinds memberIndent))
  | .inputObject fs => directiveKinds 0 ds ++ blockKinds (fs.map (InputValue.kinds memberIndent))
  | .interface is fs | .object is fs =>
    interfaceKinds is ++ (directiveKinds 0 ds ++ blockKinds (fs.map (Field.kinds memberIndent)))
  | .scalar => directiveKinds 0 ds
  | .union ms => directiveKinds 0 ds ++ unionKinds ms

/-- What a definition of a type or an addition to it spells, from its keyword on. -/
def typeKinds (n : Name) (ds : List Directive) (c : Content) : List Kind :=
  c.shape.word.lexeme :: n.lexeme :: contentKinds ds c

/-- What an entry of the schema definition spells. -/
def rootKinds (s : SchemaDefinition) (o : Operation) : List Kind :=
  match s.root o with
  | some n => [o.word.lexeme, Mark.colon.lexeme, n.lexeme]
  | none => []

/-- What the definition of the schema spells. -/
def SchemaDefinition.kinds (s : SchemaDefinition) : List Kind :=
  schemaWord.lexeme :: (directiveKinds 0 s.directives ++ Mark.openBrace.lexeme ::
    (rootKinds s .query ++ (rootKinds s .mutation ++ (rootKinds s .subscription ++
      [Mark.closeBrace.lexeme]))))

/-- What the places of a directive spell. -/
def locationKinds (ns : List Name) : List Kind :=
  if ns.isEmpty then [] else onWord.lexeme :: nameKinds .pipe ns

/-- What the definition of a directive spells. -/
def DirectiveDefinition.kinds (d : DirectiveDefinition) : List Kind :=
  descriptionKinds 0 d.description ++ directiveWord.lexeme :: Mark.atSign.lexeme ::
    d.name.lexeme :: (argumentKinds 0 d.arguments ++
      ((if d.repeatable then [repeatableWord.lexeme] else []) ++ locationKinds d.locations))

/-- What a definition spells. -/
def Definition.kinds : Definition → List Kind
  | .schema s => s.kinds
  | .type t => descriptionKinds 0 t.description ++ typeKinds t.name t.directives t.content
  | .extension e => extendWord.lexeme :: typeKinds e.name e.directives e.content
  | .directive d => d.kinds

/-- Names are spelled with a mark between each two. -/
theorem spells_names {between : String} {m : Mark} (h : Closes between.toList [m.lexeme])
    (ns : List Name) : Spells (joined between (ns.map Name.text)).toList (nameKinds m ns) :=
  spells_joined_map h ns spells_name

theorem closes_space : Closes " ".toList [] := closes_text rfl rfl

/-- A word with a space on either side. -/
theorem closes_word (n : Name) {s : String} (hs : s.toList = ' ' :: (n.text.toList ++ [' '])) :
    Closes s.toList [n.lexeme] := by
  have h := closes_space.append_alone ((spells_name n).close closes_space)
  rw [hs]
  exact h

/-- Names behind an opening text, if there are any. -/
theorem trails_listing {opening between : String} {ks : List Kind} {m : Mark}
    (hopening : Closes opening.toList ks) (hbetween : Closes between.toList [m.lexeme])
    (ns : List Name) :
    Trails (if ns.isEmpty then "" else opening ++ joined between (ns.map Name.text)).toList
      (if ns.isEmpty then [] else ks ++ nameKinds m ns) := by
  split
  · exact trails_nil
  · rw [String.toList_append]
    exact hopening.append (spells_names hbetween ns)

/-- The interfaces of a type are spelled behind their word, if there are any. -/
theorem trails_interfaces (is : List Name) :
    Trails (writeInterfaces is).toList (interfaceKinds is) := by
  have hand : Closes " & ".toList [Mark.ampersand.lexeme] := closes_text rfl rfl
  exact trails_listing (closes_word implementsWord rfl) hand is

/-- The members of a union are spelled behind their mark, if there are any. -/
theorem trails_union (ms : List Name) :
    Trails (if ms.isEmpty then "" else " = " ++ joined " | " (ms.map Name.text)).toList
      (unionKinds ms) := by
  have hequals : Closes " = ".toList [Mark.equals.lexeme] := closes_text rfl rfl
  have hor : Closes " | ".toList [Mark.pipe.lexeme] := closes_text rfl rfl
  exact trails_listing hequals hor ms

/-- What follows the name of a type, up to the end of its last line. -/
theorem spellsAlone_type (n : Name) (ds : List Directive) (c : Content) :
    SpellsAlone (writeType n ds c).toList (typeKinds n ds c) := by
  have hhead : Spells (c.shape.keyword ++ " " ++ n.text).toList
      [c.shape.word.lexeme, n.lexeme] := by
    have h := ((spells_name c.shape.word).close closes_space).append (spells_name n)
    simpa using h
  have hdirs := trails_directives 0 ds
  -- whatever the shape, the content ends with a line, which closes what stands before it
  cases c with
  | enum vs =>
    have h := hhead.close (hdirs.close (closes_block vs (spellsAlone_enumValue memberIndent)))
    simpa [writeType, typeKinds, contentKinds] using h
  | inputObject fs =>
    have h := hhead.close (hdirs.close (closes_block fs (spellsAlone_inputField memberIndent)))
    simpa [writeType, typeKinds, contentKinds] using h
  | interface is fs =>
    have h := hhead.close ((trails_interfaces is).close
      (hdirs.close (closes_block fs (spellsAlone_field memberIndent))))
    simpa [writeType, typeKinds, contentKinds] using h
  | object is fs =>
    have h := hhead.close ((trails_interfaces is).close
      (hdirs.close (closes_block fs (spellsAlone_field memberIndent))))
    simpa [writeType, typeKinds, contentKinds] using h
  | scalar =>
    have h := hhead.close (hdirs.close closes_line)
    simpa [writeType, typeKinds, contentKinds] using h
  | union ms =>
    have h := hhead.close ((hdirs.append (trails_union ms)).close closes_line)
    simpa [writeType, typeKinds, contentKinds] using h

/-- An entry of the schema is spelled on its line, if the operation starts from a type. -/
theorem spellsAlone_root (s : SchemaDefinition) (o : Operation) :
    SpellsAlone (writeRoot s o).toList (rootKinds s o) := by
  rw [writeRoot, rootKinds]
  cases s.root o with
  | none => exact spellsAlone_nil
  | some n =>
    have h := (spellsAlone_margin memberIndent).append_alone
      (((spells_name o.word).close closes_colon).append_alone
        ((spells_name n).close closes_line))
    simpa using h

/-- The definition of the schema is spelled entry by entry. -/
theorem spellsAlone_schema (s : SchemaDefinition) : SpellsAlone s.write.toList s.kinds := by
  have hopen : Closes " \x7b\n".toList [Mark.openBrace.lexeme] := closes_text rfl rfl
  have hclose : Closes "\x7d\n".toList [Mark.closeBrace.lexeme] := closes_text rfl rfl
  have hroots := (spellsAlone_root s .query).append_alone
    ((spellsAlone_root s .mutation).append_alone
      ((spellsAlone_root s .subscription).append_alone hclose.alone))
  have h := (spells_name schemaWord).close
    ((trails_directives 0 s.directives).close (hopen.append_alone hroots))
  simpa [SchemaDefinition.write, SchemaDefinition.kinds] using h

theorem trails_repeatable (b : Bool) :
    Trails (if b then " repeatable" else "").toList
      (if b then [repeatableWord.lexeme] else []) := by
  cases b with
  | false => exact trails_nil
  | true => exact closes_space.append (spells_name repeatableWord)

/-- The places of a directive are spelled behind their word, if there are any. -/
theorem trails_locations (ns : List Name) :
    Trails (if ns.isEmpty then "" else " on " ++ joined " | " (ns.map Name.text)).toList
      (locationKinds ns) := by
  have hor : Closes " | ".toList [Mark.pipe.lexeme] := closes_text rfl rfl
  exact trails_listing (closes_word onWord rfl) hor ns

/-- The definition of a directive is spelled part by part. -/
theorem spellsAlone_directiveDefinition (d : DirectiveDefinition) :
    SpellsAlone d.write.toList d.kinds := by
  have hat : Closes " @".toList [Mark.atSign.lexeme] := closes_text rfl rfl
  have htail := (trails_arguments 0 d.arguments).close
    ((trails_repeatable d.repeatable).close ((trails_locations d.locations).close closes_line))
  have hname := ((spells_name directiveWord).close hat).append_alone
    ((spells_name d.name).close htail)
  have h := (spellsAlone_ownDescription 0 d.description).append_alone hname
  simpa [DirectiveDefinition.write, DirectiveDefinition.kinds] using h

/-- A definition is spelled as it is meant to be. -/
theorem spellsAlone_definition (d : Definition) : SpellsAlone d.write.toList d.kinds := by
  cases d with
  | schema s => exact spellsAlone_schema s
  | type t =>
    have h := (spellsAlone_ownDescription 0 t.description).append_alone
      (spellsAlone_type t.name t.directives t.content)
    simpa [Definition.write, Definition.kinds] using h
  | extension e =>
    have h := ((spells_name extendWord).close closes_space).append_alone
      (spellsAlone_type e.name e.directives e.content)
    simpa [Definition.write, Definition.kinds] using h
  | directive d => exact spellsAlone_directiveDefinition d

theorem intercalate_nothing {α : Type} (xss : List (List α)) :
    [].intercalate xss = xss.flatten := by
  induction xss with
  | nil => rfl
  | cons xs xss ih =>
    cases xss with
    | nil => simp
    | cons ys yss => simp_all

/-- **Printed texts.**  The text of definitions spells what each of them spells, one after
the other. -/
theorem kindsIn_write (ds : List Definition) :
    Document.kindsIn (write ds).toList = ds.flatMap Definition.kinds := by
  have h := spells_joined_map closes_line ds fun d => (spellsAlone_definition d).spells
  -- a text that ends is followed by a break
  have hend := h [] Document.breaks_nil
  rw [List.append_nil, intercalate_nothing, ← List.flatMap_def] at hend
  exact hend.trans (List.append_nil _)

end Fragment

end SchemaCatalog
