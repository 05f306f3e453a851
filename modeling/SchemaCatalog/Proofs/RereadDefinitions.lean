/-
# Reading printed definitions

Each definition of a fragment is read back from its printed text as one definition of a
document, and the text of several is read back as all of them in their order.  A text with
a definition that cannot be read back is refused as a whole.
-/
import SchemaCatalog.Proofs.Rereading

namespace SchemaCatalog.Fragment

open Lexeme (Kind)
open Rule

/-! ## The parts of a definition -/

/-- Words that belong to the definition of a type or of a directive. -/
def partWords : List String := ["implements", "repeatable", "on"]

/-- What does not belong to a definition that stands before it. -/
def EndsDefinition (t : Option Token) : Prop :=
  (∀ m, t ≠ some (.mark m)) ∧ ∀ n, t = some (.name n) → n.text ∉ partWords

theorem EndsDefinition.endsDirectives {t : Option Token} (h : EndsDefinition t) :
    EndsDirectives t := ⟨h.1 _, h.1 _⟩

theorem EndsDefinition.ne_word {t : Option Token} (h : EndsDefinition t) {word : String}
    (hword : word ∈ partWords) : ∀ n, t = some (.name n) → n.text ≠ word := by
  rintro n hn rfl
  exact h.2 n hn hword

/-- What is read of members between braces. -/
def rereadBlock? {α β : Type} (read? : β → Option α) (xs : List β) :
    Option (Option (List α)) :=
  if xs.isEmpty then some none else (xs.mapM read?).map some

theorem next_block {P : Option Token → Prop} (kss : List (List Kind)) {rest : List Kind}
    (hbrace : P (some (.mark .openBrace))) (hrest : Next P rest) :
    Next P (blockKinds kss ++ rest) := by
  cases kss with
  | nil => exact hrest
  | cons ks kss => exact next_token.2 hbrace

/-- **Blocks.**  Members between braces are read one by one. -/
theorem feed_block {α β : Type} (fuel : Nat) (message : String) {item : Document.Production α}
    {P : Option Token → Prop} (kinds : β → List Kind) {read? : β → Option α} (xs : List β)
    {rest : List Kind} (hfuel : tokenCount (blockKinds (xs.map kinds)) ≤ fuel)
    (heach : (∀ x ∈ xs, tokenCount (kinds x) ≤ fuel) →
      ReadsEach item startsMember P xs kinds read?)
    (hclose : P (some (.mark .closeBrace))) (hrest : Next (· ≠ some (.mark .openBrace)) rest) :
    (Document.members fuel .openBrace .closeBrace "R_CURLY" message item).feed
        (blockKinds (xs.map kinds) ++ rest) = leaving rest (rereadBlock? read? xs) := by
  cases xs with
  | nil => exact feed_no_members hrest
  | cons x xs =>
    have hkinds : blockKinds ((x :: xs).map kinds) =
        Mark.openBrace.lexeme :: ((x :: xs).flatMap kinds ++ [Mark.closeBrace.lexeme]) := by
      rw [List.flatMap_def]
      rfl
    rw [hkinds, tokenCount_token, tokenCount_append] at hfuel
    have hreads := heach fun y hy =>
      Nat.le_trans (tokenCount_le_flatMap hy kinds) (by omega)
    have hmany := feed_many hreads
      (next_closing rest hclose) (Nat.le_trans (Nat.le_add_right _ _) (Nat.le_of_succ_le hfuel))
    have hstart : Next (fun t => startsMember t = true)
        ((x :: xs).flatMap kinds ++ Mark.closeBrace.lexeme :: rest) := by
      rw [List.flatMap_cons, List.append_assoc]
      exact (hreads.begins x List.mem_cons_self _).mono fun t ht => ht.1
    rw [hkinds, List.cons_append, List.append_assoc]
    exact feed_members _ _ _ hstart hmany

theorem readsEach_fields {indent fuel : Nat} {fs : List Field}
    (hfuel : ∀ f ∈ fs, tokenCount (f.kinds indent) ≤ fuel) :
    ReadsEach (Document.field fuel) startsMember EndsType fs (Field.kinds indent)
      (Field.reread? indent) where
  counts f _ := by
    simp only [Field.kinds, tokenCount_append, tokenCount_token]
    omega
  begins f _ rest := by
    rw [Field.kinds, List.append_assoc]
    exact next_member indent f.description f.name _
      (by simp [EndsType, EndsDirectives]) (by simp [EndsType, EndsDirectives])
  reads f hf rest hrest := feed_field indent fuel f (hfuel f hf) hrest

theorem readsEach_enumValues {indent fuel : Nat} {vs : List EnumValue}
    (hfuel : ∀ v ∈ vs, tokenCount (v.kinds indent) ≤ fuel) :
    ReadsEach (Document.enumValue fuel) startsMember EndsDirectives vs (EnumValue.kinds indent)
      (EnumValue.reread? indent) where
  counts v _ := by
    simp only [EnumValue.kinds, tokenCount_append, tokenCount_token]
    omega
  begins v _ rest := by
    rw [EnumValue.kinds, List.append_assoc]
    exact next_member indent v.description v.name _
      (by simp [EndsDirectives]) (by simp [EndsDirectives])
  reads v hv rest hrest := feed_enumValue indent fuel v (hfuel v hv) hrest

/-- Names that are declared at all. -/
def declared? (ns : List Name) : Option (List Name) := if ns.isEmpty then none else some ns

theorem nameKinds_cons (m : Mark) (n : Name) (ns : List Name) :
    nameKinds m (n :: ns) = n.lexeme :: ns.flatMap fun n => [m.lexeme, n.lexeme] := by
  rw [nameKinds, intercalate_cons_map]
  rfl

/-- Names with a mark between them are read as they were declared. -/
theorem feed_names (fuel : Nat) (message : String) {m : Mark} (n : Name) (ns : List Name)
    {rest : List Kind} (hfuel : tokenCount (nameKinds m (n :: ns)) ≤ fuel)
    (hrest : Next (· ≠ some (.mark m)) rest) :
    (separated fuel m (nameOr message)).feed (nameKinds m (n :: ns) ++ rest) =
      leaving rest (some (n :: ns)) := by
  have h := feed_separated (fun n rest => feed_nameOr message n rest) n ns hrest hfuel
  rw [nameKinds, h]
  exact congrArg _ ((List.mapM_pure (m := Option) (f := id)).trans (congrArg some (List.map_id _)))

/-- The interfaces of a type are read as they were declared. -/
theorem feed_interfaces (fuel : Nat) (is : List Name) {rest : List Kind}
    (hfuel : tokenCount (interfaceKinds is) ≤ fuel)
    (hword : Next (fun t => ∀ n, t = some (.name n) → n.text ≠ "implements") rest)
    (hrest : Next (· ≠ some (.mark .ampersand)) rest) :
    (Document.implements fuel).feed (interfaceKinds is ++ rest) =
      leaving rest (some (declared? is)) := by
  cases is with
  | nil =>
    show (Document.implements fuel).feed rest = _
    rw [Document.implements, feed_takeWord_of_next hword]
    exact feed_pure _ _
  | cons i is =>
    simp only [interfaceKinds, List.isEmpty_cons, Bool.false_eq_true, if_false,
      tokenCount_token] at hfuel
    have hnames := feed_names fuel "expected an Interface name" i is (by omega) hrest
    have hnext : Next (· ≠ some (.mark .ampersand))
        (nameKinds .ampersand (i :: is) ++ rest) := by
      simp [nameKinds_cons]
    have hkinds : interfaceKinds (i :: is) ++ rest =
        implementsWord.lexeme :: (nameKinds .ampersand (i :: is) ++ rest) := by
      simp [interfaceKinds]
    rw [hkinds, Document.implements, feed_takeWord implementsWord_text]
    simp only [if_true, feed_takeMark_of_next hnext, feed_bind hnames, Option.bind_some,
      feed_pure]
    rfl

/-- The members of a union are read as they were declared. -/
theorem feed_unionMembers (fuel : Nat) (ms : List Name) {rest : List Kind}
    (hfuel : tokenCount (unionKinds ms) ≤ fuel)
    (hrest : Next (fun t => ∀ m, t ≠ some (.mark m)) rest) :
    (Document.unionMembers fuel).feed (unionKinds ms ++ rest) =
      leaving rest (some (declared? ms)) := by
  cases ms with
  | nil =>
    show (Document.unionMembers fuel).feed rest = _
    rw [Document.unionMembers, feed_takeMark_of_next (hrest.mono fun t ht => ht _)]
    exact feed_pure _ _
  | cons m ms =>
    simp only [unionKinds, List.isEmpty_cons, Bool.false_eq_true, if_false,
      tokenCount_token] at hfuel
    have hnames := feed_names fuel "expected Union Member Type" m ms (by omega)
      (hrest.mono fun t ht => ht .pipe)
    have hnext : Next (· ≠ some (.mark .pipe)) (nameKinds .pipe (m :: ms) ++ rest) := by
      simp [nameKinds_cons]
    have hkinds : unionKinds (m :: ms) ++ rest =
        Mark.equals.lexeme :: (nameKinds .pipe (m :: ms) ++ rest) := by
      simp [unionKinds]
    rw [hkinds, Document.unionMembers, feed_takeMark]
    simp only [if_true, feed_takeMark_of_next hnext, feed_bind hnames, Option.bind_some,
      feed_pure]
    rfl

/-! ## Types -/

/-- What is read of the body of a type. -/
def rereadBody? (ds : List Directive) : Content → Option Document.Body
  | .enum vs =>
    (ds.mapM (Directive.reread? 0)).bind fun ds =>
      (rereadBlock? (EnumValue.reread? memberIndent) vs).map fun vs =>
        ⟨ds, .enum (vs.getD []), !ds.isEmpty || vs.isSome⟩
  | .inputObject fs =>
    (ds.mapM (Directive.reread? 0)).bind fun ds =>
      (rereadBlock? (InputValue.reread? memberIndent) fs).map fun fs =>
        ⟨ds, .inputObject (fs.getD []), !ds.isEmpty || fs.isSome⟩
  | .interface is fs => rereadFieldsBody? ds is fs .interface
  | .object is fs => rereadFieldsBody? ds is fs .object
  | .scalar => (ds.mapM (Directive.reread? 0)).map fun ds => ⟨ds, .scalar, !ds.isEmpty⟩
  | .union ms =>
    (ds.mapM (Directive.reread? 0)).map fun ds =>
      ⟨ds, .union ((declared? ms).getD []), !ds.isEmpty || (declared? ms).isSome⟩
where
  /-- What is read of the body of an object or of an interface. -/
  rereadFieldsBody? (ds : List Directive) (is : List Name) (fs : List Field)
      (make : List Name → List Document.Field → Document.Content) : Option Document.Body :=
    (ds.mapM (Directive.reread? 0)).bind fun ds =>
      (rereadBlock? (Field.reread? memberIndent) fs).map fun fs =>
        ⟨ds, make ((declared? is).getD []) (fs.getD []),
          (declared? is).isSome || !ds.isEmpty || fs.isSome⟩

theorem feed_fieldsBody {fuel : Nat} (ds : List Directive) (is : List Name) (fs : List Field)
    (make : List Name → List Document.Field → Document.Content) {rest : List Kind}
    (hfuel : tokenCount (interfaceKinds is ++
      (directiveKinds 0 ds ++ blockKinds (fs.map (Field.kinds memberIndent)))) ≤ fuel)
    (hrest : Next EndsDefinition rest) :
    (Document.fieldsBody fuel make).feed (interfaceKinds is ++
        (directiveKinds 0 ds ++ blockKinds (fs.map (Field.kinds memberIndent))) ++ rest) =
      leaving rest (rereadBody?.rereadFieldsBody? ds is fs make) := by
  simp only [tokenCount_append] at hfuel
  -- the parts from the last to the first, each with what may come next if those after it are empty
  have hblock := feed_block fuel "expected Field Definition" (Field.kinds memberIndent) fs
    (by omega) readsEach_fields (by simp [EndsType, EndsDirectives])
    (hrest.mono fun t ht => ht.1 _)
  have hdirs := feed_directives 0 fuel ds (by omega)
    (next_block (fs.map (Field.kinds memberIndent)) (by simp [EndsDirectives])
      (hrest.mono fun t ht => ht.endsDirectives))
  have his := feed_interfaces fuel is (by omega)
    (next_directives 0 ds (by simp) (next_block (fs.map (Field.kinds memberIndent)) (by simp)
      (hrest.mono fun t ht => ht.ne_word (by decide))))
    (next_directives 0 ds (by simp) (next_block (fs.map (Field.kinds memberIndent)) (by simp)
      (hrest.mono fun t ht => ht.1 _)))
  simp only [List.append_assoc, Document.fieldsBody, feed_bind his, Option.bind_some,
    feed_bind hdirs, feed_bind hblock, feed_pure, bind_leaving, bind_eq_map,
    rereadBody?.rereadFieldsBody?]

/-- **Bodies.**  What stands behind the name of a type is read as it was declared. -/
theorem feed_body (fuel : Nat) (ds : List Directive) (c : Content) {rest : List Kind}
    (hfuel : tokenCount (contentKinds ds c) ≤ fuel) (hrest : Next EndsDefinition rest) :
    (Document.body fuel c.shape).feed (contentKinds ds c ++ rest) =
      leaving rest (rereadBody? ds c) := by
  have hends : Next EndsDirectives rest := hrest.mono fun t ht => ht.endsDirectives
  have hbrace : Next (· ≠ some (.mark .openBrace)) rest := hrest.mono fun t ht => ht.1 _
  cases c with
  | enum vs =>
    simp only [contentKinds, tokenCount_append] at hfuel
    have hblock := feed_block fuel "expected Enum Value Definition"
      (EnumValue.kinds memberIndent) vs (by omega) readsEach_enumValues
      (by simp [EndsDirectives]) hbrace
    have hdirs := feed_directives 0 fuel ds (by omega)
      (next_block (vs.map (EnumValue.kinds memberIndent)) (by simp [EndsDirectives]) hends)
    simp only [Content.shape, contentKinds, List.append_assoc, Document.body, feed_bind hdirs,
      feed_bind hblock, feed_pure, bind_leaving, bind_eq_map, rereadBody?]
  | inputObject fs =>
    simp only [contentKinds, tokenCount_append] at hfuel
    have hblock := feed_block fuel "expected an Input Value Definition"
      (InputValue.kinds memberIndent) fs (by omega) readsEach_inputValues
      (by simp [EndsInput, EndsType, EndsDirectives]) hbrace
    have hdirs := feed_directives 0 fuel ds (by omega)
      (next_block (fs.map (InputValue.kinds memberIndent)) (by simp [EndsDirectives]) hends)
    simp only [Content.shape, contentKinds, List.append_assoc, Document.body, feed_bind hdirs,
      feed_bind hblock, feed_pure, bind_leaving, bind_eq_map, rereadBody?]
  -- both kinds with fields share their reading
  | interface is fs => exact feed_fieldsBody ds is fs .interface hfuel hrest
  | object is fs => exact feed_fieldsBody ds is fs .object hfuel hrest
  | scalar =>
    have hdirs := feed_directives 0 fuel ds hfuel hends
    simp only [Content.shape, contentKinds, Document.body, feed_bind hdirs, feed_pure,
      bind_leaving, bind_eq_map, rereadBody?]
  | union ms =>
    simp only [contentKinds, tokenCount_append] at hfuel
    have hmembers := feed_unionMembers fuel ms (by omega)
      (hrest.mono fun t ht => ht.1)
    have hunion : Next EndsDirectives (unionKinds ms ++ rest) := by
      cases ms with
      | nil => exact hends
      | cons m ms => exact next_token.2 (by simp [EndsDirectives])
    have hdirs := feed_directives 0 fuel ds (by omega) hunion
    simp only [Content.shape, contentKinds, List.append_assoc, Document.body, feed_bind hdirs,
      feed_bind hmembers, Option.bind_some, feed_pure, bind_leaving, bind_eq_map, rereadBody?]

/-- What is read of the definition of a type. -/
def TypeDefinition.reread? (t : TypeDefinition) : Option Document.Definition :=
  (rereadBody? t.directives t.content).map fun b =>
    .type ⟨.definition (rereadDescription 0 t.description), t.name, b.directives, b.content⟩

/-- What is read of an addition to a type. -/
def TypeExtension.reread? (e : TypeExtension) : Option Document.Definition :=
  (rereadBody? e.directives e.content).bind fun b =>
    if b.isWritten then some (.type ⟨.extension, e.name, b.directives, b.content⟩) else none

theorem definitionFor_shape (fuel : Nat) (s : Shape) :
    Document.definitionFor fuel (some (.name s.word)) = Document.typeDefinition fuel s := by
  cases s <;> rfl

theorem extensionDefinition_shape (fuel : Nat) (s : Shape) (ks : List Kind) :
    (Document.definition fuel).feed (extendWord.lexeme :: s.word.lexeme :: ks) =
      (Document.typeExtension fuel s).feed (extendWord.lexeme :: s.word.lexeme :: ks) := by
  cases s <;> rfl

/-- **Types.**  The definition of a type is read as it was printed. -/
theorem feed_typeDefinition {fuel : Nat} (t : TypeDefinition) {rest : List Kind}
    (hfuel : tokenCount (Definition.type t).kinds ≤ fuel) (hrest : Next EndsDefinition rest) :
    (Document.definition fuel).feed ((Definition.type t).kinds ++ rest) =
      leaving rest t.reread? := by
  simp only [Definition.kinds, typeKinds, tokenCount_append, tokenCount_token] at hfuel
  have hbody := feed_body fuel t.directives t.content (by omega) hrest
  have hopen : (Document.definition fuel).feed ((Definition.type t).kinds ++ rest) =
      (Document.typeDefinition fuel t.content.shape).feed
        (descriptionKinds 0 t.description ++ t.content.shape.word.lexeme :: t.name.lexeme ::
          (contentKinds t.directives t.content ++ rest)) := by
    rw [← definitionFor_shape, Definition.kinds, List.append_assoc]
    cases t.description <;> rfl
  rw [hopen]
  simp only [Document.typeDefinition, feed_bind (feed_description _ _ _), Option.bind_some,
    feed_skip, feed_bind (feed_nameOr _ _ _), feed_bind hbody, feed_pure, bind_leaving,
    bind_eq_map, TypeDefinition.reread?]

/-- An addition to a type is read as it was printed, unless it says nothing. -/
theorem feed_typeExtension {fuel : Nat} (e : TypeExtension) {rest : List Kind}
    (hfuel : tokenCount (Definition.extension e).kinds ≤ fuel)
    (hrest : Next EndsDefinition rest) :
    (Document.definition fuel).feed ((Definition.extension e).kinds ++ rest) =
      leaving rest e.reread? := by
  simp only [Definition.kinds, typeKinds, tokenCount_token] at hfuel
  have hbody := feed_body fuel e.directives e.content (by omega) hrest
  -- an addition with an empty body is refused only after its body has been read
  have hend : ∀ b : Document.Body,
      (if b.isWritten then
        pure (.type ⟨.extension, e.name, b.directives, b.content⟩)
      else fail (Document.extensionMessage e.content.shape) :
        Document.Production Document.Definition).feed rest =
      leaving rest (if b.isWritten then
        some (.type ⟨.extension, e.name, b.directives, b.content⟩) else none) := by
    intro b
    cases b.isWritten
    · exact feed_fail _ _
    · exact feed_pure _ _
  simp only [Definition.kinds, typeKinds, List.cons_append, extensionDefinition_shape,
    Document.typeExtension, feed_skip, Document.name, feed_bind (feed_nameOr _ _ _),
    Option.bind_some, feed_bind hbody, hend, bind_leaving, TypeExtension.reread?]

/-! ## The schema and its directives -/

/-- The operations that a schema offers, with the types that they start from. -/
def SchemaDefinition.roots (s : SchemaDefinition) : List (Operation × Name) :=
  [.query, .mutation, .subscription].filterMap fun o => (s.root o).map (o, ·)

/-- What is read of the definition of the schema. -/
def SchemaDefinition.reread? (s : SchemaDefinition) : Option Document.Definition :=
  if s.roots.isEmpty then none
  else (s.directives.mapM (Directive.reread? 0)).map fun ds =>
    .schema ⟨none, ds, s.roots.map fun r => ⟨r.1, some r.2⟩⟩

/-- What an operation with its type spells. -/
def operationKinds (r : Operation × Name) : List Kind :=
  [r.1.word.lexeme, Mark.colon.lexeme, r.2.lexeme]

theorem rootKinds_eq (s : SchemaDefinition) (ks : List Kind) :
    rootKinds s .query ++ (rootKinds s .mutation ++ (rootKinds s .subscription ++ ks)) =
      s.roots.flatMap operationKinds ++ ks := by
  obtain ⟨ds, query, mutation, subscription⟩ := s
  cases query <;> cases mutation <;> cases subscription <;> rfl

theorem feed_rootOperation (r : Operation × Name) (rest : List Kind) :
    Document.rootOperation.feed (operationKinds r ++ rest) =
      leaving rest (some ⟨r.1, some r.2⟩) := by
  simp [Document.rootOperation, operationKinds, Operation.ofText?_text,
    feed_bind (feed_markOr _ _ _)]

/-- The definition of the schema is read as it was printed, unless it offers nothing. -/
theorem feed_schemaDefinition (fuel : Nat) (s : SchemaDefinition) (rest : List Kind)
    (hfuel : tokenCount s.kinds ≤ fuel) :
    (Document.definition fuel).feed (s.kinds ++ rest) = leaving rest s.reread? := by
  simp only [SchemaDefinition.kinds, rootKinds_eq, tokenCount_token, tokenCount_append] at hfuel
  have hopen : ∀ ks, (Document.definition fuel).feed (schemaWord.lexeme :: ks) =
      (Document.schemaDefinition fuel).feed (schemaWord.lexeme :: ks) := fun _ => rfl
  have hno : ∀ ks, Document.description.feed (schemaWord.lexeme :: ks) =
      leaving (schemaWord.lexeme :: ks) (some none) := @feed_description 0 none schemaWord
  have hbrace : Next EndsDirectives (Mark.openBrace.lexeme :: (s.roots.flatMap operationKinds ++
      Mark.closeBrace.lexeme :: rest)) := next_token.2 (by simp [EndsDirectives])
  have hdirs := feed_directives 0 fuel s.directives (by omega) hbrace
  have heach : ReadsEach Document.rootOperation startsName (fun _ => True) s.roots operationKinds
      fun r => some ⟨r.1, some r.2⟩ :=
    ⟨fun r _ => by simp [operationKinds],
      fun r _ rest => by simp [operationKinds, startsName, Token.isName],
      fun r _ rest _ => feed_rootOperation r rest⟩
  have hclose : Next (fun t => startsName t = false ∧ True) (Mark.closeBrace.lexeme :: rest) := by
    simp [startsName, Token.isName]
  have hroots := feed_many heach hclose
    (by omega : tokenCount (s.roots.flatMap operationKinds) ≤ fuel)
  have hall : (s.roots.mapM fun r => some (⟨r.1, some r.2⟩ : Document.RootOperation)) =
      some (s.roots.map fun r => ⟨r.1, some r.2⟩) := List.mapM_pure
  rw [hall] at hroots
  simp only [SchemaDefinition.kinds, rootKinds_eq, List.cons_append, List.append_assoc, hopen,
    List.nil_append, Document.schemaDefinition, feed_bind (hno _), Option.bind_some, feed_skip,
    feed_bind hdirs, feed_takeMark, if_true, feed_bind hroots, List.isEmpty_map,
    SchemaDefinition.reread?]
  -- a schema that offers nothing is refused, whatever its directives are
  cases s.roots.isEmpty
  · simp only [Bool.false_eq_true, if_false, feed_bind (feed_close _ _ _), Option.bind_some,
      feed_pure, bind_leaving, bind_eq_map]
  · cases s.directives.mapM (Directive.reread? 0) <;> simp

/-- What is read of a place where a directive may be applied. -/
def rereadPlace? (n : Name) : Option Name :=
  if isDirectiveLocation n.text then some n else none

/-- What is read of the definition of a directive. -/
def DirectiveDefinition.reread? (d : DirectiveDefinition) : Option Document.Definition :=
  (d.arguments.mapM (InputValue.reread? 0)).bind fun args =>
    if d.locations.isEmpty then none
    else (d.locations.mapM rereadPlace?).map fun places =>
      .directive ⟨rereadDescription 0 d.description, d.name, args, d.repeatable, places⟩

theorem feed_location (n : Name) (rest : List Kind) :
    Document.location.feed (n.lexeme :: rest) = leaving rest (rereadPlace? n) := by
  simp only [Document.location, feed_current, rereadPlace?]
  split
  · simp
  · exact feed_fail _ _

/-- The word that allows a directive to be repeated is taken if it is there. -/
theorem feed_repeatable {α : Type} (f : Bool → Document.Production α) (b : Bool)
    {rest : List Kind}
    (hrest : Next (fun t => ∀ n, t = some (.name n) → n.text ≠ "repeatable") rest) :
    (takeWord "repeatable" >>= f).feed ((if b then [repeatableWord.lexeme] else []) ++ rest) =
      (f b).feed rest := by
  cases b with
  | false => exact feed_takeWord_of_next hrest f
  | true => exact feed_takeWord repeatableWord_text f rest

/-- What stands behind the arguments of a directive that is defined. -/
theorem next_locations {P : Option Token → Prop} (ns : List Name) {rest : List Kind}
    (hon : P (some (.name onWord))) (hrest : Next P rest) :
    Next P (locationKinds ns ++ rest) := by
  cases ns with
  | nil => exact hrest
  | cons n ns => exact next_token.2 hon

/-- The end of the definition of a directive is read as it was printed, unless there is no
place in it. -/
theorem feed_locations {fuel : Nat} (make : List Name → Document.Definition) (ns : List Name)
    {rest : List Kind} (hfuel : tokenCount (locationKinds ns) ≤ fuel)
    (hrest : Next EndsDefinition rest) :
    (do
      if ← takeWord "on" then
        let t ← current
        if startsName t || t = some (.mark .pipe) then
          let _ ← takeMark .pipe
          let places ← separated fuel .pipe Document.location
          pure (make places)
        else
          fail "expected valid Directive Location"
      else
        fail "expected Directive Locations" : Document.Production _).feed
        (locationKinds ns ++ rest) =
      leaving rest (if ns.isEmpty then none else (ns.mapM rereadPlace?).map make) := by
  cases ns with
  | nil =>
    have hon : Next (fun t => ∀ n, t = some (.name n) → n.text ≠ "on") rest :=
      hrest.mono fun t ht => ht.ne_word (by decide)
    show Rule.feed _ rest = _
    rw [feed_takeWord_of_next hon]
    exact feed_fail _ _
  | cons n ns =>
    have hkinds : locationKinds (n :: ns) ++ rest =
        onWord.lexeme :: (nameKinds .pipe (n :: ns) ++ rest) := by
      simp [locationKinds]
    simp only [locationKinds, List.isEmpty_cons, Bool.false_eq_true, if_false,
      tokenCount_token] at hfuel
    have hplaces := feed_separated feed_location n ns (hrest.mono fun t ht => ht.1 .pipe)
      (Nat.le_of_succ_le hfuel)
    rw [← nameKinds, nameKinds_cons, List.cons_append] at hplaces
    -- a name comes next, so the mark that may stand in front of all places does not
    have hnext : Next (· ≠ some (.mark .pipe))
        (n.lexeme :: ((ns.flatMap fun n => [Mark.pipe.lexeme, n.lexeme]) ++ rest)) := by
      simp
    rw [hkinds, nameKinds_cons, List.cons_append, feed_takeWord onWord_text]
    simp only [if_true, feed_current, startsName, Option.any_some, Token.isName, Bool.true_or,
      feed_takeMark_of_next hnext, feed_bind hplaces, feed_pure, bind_leaving, bind_eq_map,
      List.isEmpty_cons, Bool.false_eq_true, if_false]

/-- The definition of a directive is read as it was printed, unless it has no place. -/
theorem feed_directiveDefinition (fuel : Nat) (d : DirectiveDefinition) {rest : List Kind}
    (hfuel : tokenCount d.kinds ≤ fuel) (hrest : Next EndsDefinition rest) :
    (Document.definition fuel).feed (d.kinds ++ rest) = leaving rest d.reread? := by
  simp only [DirectiveDefinition.kinds, tokenCount_token, tokenCount_append] at hfuel
  have hopen : ∀ ks, (Document.definition fuel).feed
      (descriptionKinds 0 d.description ++ directiveWord.lexeme :: ks) =
        (Document.directiveDefinition fuel).feed
          (descriptionKinds 0 d.description ++ directiveWord.lexeme :: ks) := by
    intro ks
    cases d.description <;> rfl
  -- neither the word nor the places behind the arguments begin like arguments
  have hparen : Next (· ≠ some (.mark .openParen))
      ((if d.repeatable then [repeatableWord.lexeme] else []) ++
        (locationKinds d.locations ++ rest)) := by
    cases d.repeatable with
    | false => exact next_locations _ (by simp) (hrest.mono fun t ht => ht.1 _)
    | true => exact next_token.2 (by simp)
  have hargs := feed_argumentsDefinition 0 fuel d.arguments _ (by omega) hparen
  have hword : Next (fun t => ∀ n, t = some (.name n) → n.text ≠ "repeatable")
      (locationKinds d.locations ++ rest) :=
    next_locations _ (by rintro n ⟨⟩; decide) (hrest.mono fun t ht => ht.ne_word (by decide))
  simp only [DirectiveDefinition.kinds, List.cons_append, List.append_assoc, hopen,
    Document.directiveDefinition, feed_bind (feed_description _ _ _), Option.bind_some, feed_skip,
    feed_bind (feed_markOr _ _ _), Document.name, feed_bind (feed_nameOr _ _ _), feed_bind hargs,
    feed_repeatable _ _ hword, DirectiveDefinition.reread?]
  rw [← bind_leaving]
  refine congrArg _ (funext fun args => ?_)
  exact feed_locations (fun places => .directive ⟨_, d.name, args, d.repeatable, places⟩)
    d.locations (by omega) hrest

/-! ## Definitions in a row -/

/-- What is read of a definition. -/
def Definition.reread? : Definition → Option Document.Definition
  | .schema s => s.reread?
  | .type t => t.reread?
  | .extension e => e.reread?
  | .directive d => d.reread?

/-- Each definition begins with a word of its own, or with its description. -/
theorem next_definition (d : Definition) (rest : List Kind) :
    Next (fun t => t.isSome = true ∧ EndsDefinition t) (d.kinds ++ rest) := by
  have hstring : ∀ s, EndsDefinition (some (.string s)) := fun s => ⟨by simp, by simp⟩
  have hname : ∀ n : Name, n.text ∉ partWords → EndsDefinition (some (.name n)) := by
    refine fun n hn => ⟨by simp, ?_⟩
    rintro m ⟨⟩
    exact hn
  cases d with
  | schema s => exact next_token.2 ⟨rfl, hname schemaWord (by decide)⟩
  | type t =>
    rw [Definition.kinds, List.append_assoc]
    have hword : t.content.shape.word.text ∉ partWords := by
      cases t.content.shape <;> decide
    exact next_description 0 t.description _ _ (fun s => ⟨rfl, hstring s⟩) ⟨rfl, hname _ hword⟩
  | extension e => exact next_token.2 ⟨rfl, hname extendWord (by decide)⟩
  | directive d =>
    rw [Definition.kinds, DirectiveDefinition.kinds, List.append_assoc]
    exact next_description 0 d.description _ _ (fun s => ⟨rfl, hstring s⟩)
      ⟨rfl, hname directiveWord (by decide)⟩

theorem readsEach_definitions {fuel : Nat} {ds : List Definition}
    (hfuel : ∀ d ∈ ds, tokenCount d.kinds ≤ fuel) :
    ReadsEach (Document.definition fuel) Option.isSome EndsDefinition ds Definition.kinds
      Definition.reread? where
  counts d _ := by
    cases d <;> simp only [Definition.kinds, SchemaDefinition.kinds, typeKinds,
      DirectiveDefinition.kinds, tokenCount_append, tokenCount_token] <;> omega
  begins d _ rest := next_definition d rest
  reads d hd rest hrest := by
    have hle := hfuel d hd
    cases d with
    | schema s => exact feed_schemaDefinition fuel s rest hle
    | type t => exact feed_typeDefinition t hle hrest
    | extension e => exact feed_typeExtension e hle hrest
    | directive d => exact feed_directiveDefinition fuel d hle hrest

/-- A document is read from some definitions in a row, however each of them is spelled. -/
theorem feed_document_of_readsEach {β : Type} {fuel : Nat} {x : β} {xs : List β}
    {kinds : β → List Kind} {value? : β → Option Document.Definition}
    (h : ReadsEach (Document.definition fuel) Option.isSome EndsDefinition (x :: xs) kinds value?)
    (hfuel : tokenCount ((x :: xs).flatMap kinds) ≤ fuel) :
    (Document.document fuel).feed ((x :: xs).flatMap kinds) =
      leaving [] ((x :: xs).mapM value?) := by
  have hend : Next (fun t => t.isSome = false ∧ EndsDefinition t) [] :=
    next_nil.2 ⟨rfl, by simp, by simp⟩
  have hmany := feed_many h hend hfuel
  have hstart : Next (fun t => t.isSome = true) ((x :: xs).flatMap kinds) := by
    rw [List.flatMap_cons]
    exact (h.begins x List.mem_cons_self _).mono fun t ht => ht.1
  rw [List.append_nil] at hmany
  rw [Document.document, feed_current_of_next hstart fun t ht => if_pos ht, hmany]

/-- A document is read from definitions in a row, if there are any. -/
theorem feed_document {fuel : Nat} (ms : List Definition)
    (hfuel : tokenCount (ms.flatMap Definition.kinds) ≤ fuel) :
    (Document.document fuel).feed (ms.flatMap Definition.kinds) =
      if ms.isEmpty then none else leaving [] (ms.mapM Definition.reread?) := by
  cases ms with
  | nil => rfl
  | cons m ms =>
    refine feed_document_of_readsEach (readsEach_definitions fun d hd => ?_) hfuel
    exact Nat.le_trans (tokenCount_le_flatMap hd Definition.kinds) hfuel

/-- **Reading back.**  The text that is printed for some definitions is read exactly if there
are any and each of them can be read back, and then as what each of them is read back as. -/
theorem ofText_write_eq_ok_iff (ms : List Definition) (ds : List Document.Definition) :
    Document.ofText (write ms) = .ok ds ↔ ms ≠ [] ∧ ms.mapM Definition.reread? = some ds := by
  have hkinds : Document.kindsIn (write ms).toList = ms.flatMap Definition.kinds :=
    kindsIn_write ms
  rw [Document.ofText_eq_ok_iff, hkinds, feed_document ms (Nat.le_refl _)]
  cases ms with
  | nil => simp
  | cons m ms =>
    cases (m :: ms).mapM Definition.reread? <;> simp [leaving, settleKinds]

end SchemaCatalog.Fragment
