/-
# Two readings of one text

A text that both grammars read is read as definitions that say the same.  A list of interfaces
may be the place where the two readings part; but then the fragment stops at a name with which
no definition begins, or the document at a separator, and one of them cannot read on.
-/
import SchemaCatalog.Proofs.LockstepDocuments
import SchemaCatalog.Proofs.MergedTexts
import SchemaCatalog.Proofs.SharedGrammar

namespace SchemaCatalog

open Rule

namespace Fragment

section

variable {all all' : List Token}

/-! ## Bodies -/

theorem keeps_directives : (directives all.length).Keeps AtBareName :=
  keeps_many (fun _ ⟨_, _, hts, _⟩ => hts ▸ rfl) _

theorem keeps_schemaDirectives : (Document.schemaDirectives all'.length).Keeps AtSeparator :=
  keeps_many (fun _ ⟨_, hts⟩ => hts ▸ rfl) _

/-- Members between braces are read alike. -/
theorem agree_members {α β : Type} {R : α → β → Prop} {item : Production α}
    {item' : Document.Production β} (h : Agree all all' R item item') (onward : List String)
    (message : String) :
    Agree all all' (fun xs (ys : Option (List β)) => List.Forall₂ R xs (ys.getD []))
      (members all.length item onward)
      (Document.members all'.length .openBrace .closeBrace "R_CURLY" message item') :=
  agree_between h (by decide) (by decide) rfl rfl .nil fun _ _ => id

theorem keeps_members {α : Type} (item : Production α) (onward : List String) :
    (members all.length item onward).Keeps AtBareName :=
  keeps_takeMark_bind (fun _ h => h.head_ne _) (keeps_pure [])

theorem keeps_members_document {α : Type} (item : Document.Production α) (message : String) :
    (Document.members all'.length .openBrace .closeBrace "R_CURLY" message item).Keeps
      AtSeparator :=
  keeps_takeMark_bind (fun _ h => h.head_ne (by decide)) (keeps_pure none)

/-- What stands behind the name of a type, twice. -/
structure SameBody (b : List Directive × Content) (b' : Document.Body) : Prop where
  bare : b'.content.bare = b.2.bare
  constant : AreConstant (givenValues b.1 ++ b.2.literals)
  avoids : b.2.AvoidsReserved

/-- Types with interfaces and fields are read alike, whichever of their shapes they have. -/
theorem nearly_fieldsBody (make : List Name → List Field → Content)
    (make' : List Name → List Document.Field → Document.Content)
    (hsame : ∀ is fs fs', SameBare (List.map Field.bare) (List.map Document.Field.bare)
      (List.flatMap Field.literals) fs fs' → (make' is fs').bare = (make is fs).bare ∧
        AreConstant (make is fs).literals ∧ (make is fs).AvoidsReserved) :
    Nearly all all' SameBody
      (do
        let is ← implements all.length
        let ds ← directives all.length
        pure (ds, make is (← fields all.length)))
      (Document.fieldsBody all'.length make') := by
  refine nearly_implements.bind (fun is is' his => Agree.nearly ?_) (fun is => ?_) fun is' => ?_
  · refine agree_directives.bind fun ds ds' hds => ?_
    refine (agree_members agree_field ["\x7d"] "expected Field Definition").bind
      fun fs fs' hfs => ?_
    obtain ⟨hbare, hliterals, havoids⟩ := hsame is fs _ (SameBare.list hfs)
    refine agree_pure ⟨?_, areConstant_append.2 ⟨hds.2, hliterals⟩, havoids⟩
    rw [his]
    exact hbare
  · exact keeps_directives.bind fun ds => (keeps_members _ _).bind fun fs => keeps_pure _
  · exact keeps_schemaDirectives.bind fun ds =>
      (keeps_members_document _ _).bind fun fs => keeps_pure _

/-- **Bodies.**  What stands behind the name of a type is read alike, unless one of the two
gets stuck behind a list of interfaces. -/
theorem nearly_body (shape : Shape) :
    Nearly all all' SameBody (body all.length shape) (Document.body all'.length shape) := by
  cases shape with
  | object =>
    exact nearly_fieldsBody .object .object fun is fs fs' hfs =>
      ⟨congrArg (Document.Content.object is) hfs.1, hfs.2, trivial⟩
  | interface =>
    exact nearly_fieldsBody .interface .interface fun is fs fs' hfs =>
      ⟨congrArg (Document.Content.interface is) hfs.1, hfs.2, trivial⟩
  | scalar =>
    refine (agree_directives.bind fun ds ds' hds => agree_pure ⟨rfl, ?_, trivial⟩).nearly
    exact areConstant_append.2 ⟨hds.2, List.forall_mem_nil _⟩
  | union =>
    refine (agree_directives.bind fun ds ds' hds =>
      agree_unionMembers.bind fun ms ms' hms => agree_pure ⟨?_, ?_, trivial⟩).nearly
    · rw [← hms]
      rfl
    · exact areConstant_append.2 ⟨hds.2, List.forall_mem_nil _⟩
  | enum =>
    refine (agree_directives.bind fun ds ds' hds => (agree_members agree_enumValue _ _).bind
      fun vs vs' hvs => agree_pure ?_).nearly
    have hsame := SameBare.list (hvs.imp fun _ _ h => h.1)
    refine ⟨congrArg _ hsame.1, areConstant_append.2 ⟨hds.2, hsame.2⟩, ?_⟩
    exact forall_mem_of_forall₂ (hvs.imp fun _ _ h => h.2)
  | inputObject =>
    refine (agree_directives.bind fun ds ds' hds => (agree_members agree_inputValue _ _).bind
      fun vs vs' hvs => agree_pure ?_).nearly
    have hsame := SameBare.list hvs
    exact ⟨congrArg _ hsame.1, areConstant_append.2 ⟨hds.2, hsame.2⟩, trivial⟩

/-! ## Definitions of types -/

variable (all) in
/-- Whether a definition of a document says what a definition of a fragment says, which has no
variables and leaves nothing out that a document demands. -/
structure SameDefinition (d : Definition) (e : Document.Definition) : Prop where
  readAs : ReadAs (WrittenAs all) d e
  constant : AreConstant d.literals
  complete : d.IsComplete

variable (all) in
/-- Whether a definition that a fragment accepts is said by a definition of a document. -/
def SameAccepted (x : Except Complaint Definition) (e : Document.Definition) : Prop :=
  ∀ d, x = .ok d → SameDefinition all d e

/-- Definitions of types are read alike, under the same description. -/
theorem nearly_typeDefinition (shape : Shape) {d d' : Option String} (hd : WrittenAs all d d')
    (message : String) :
    Nearly all all' (SameDefinition all)
      (do
        let n ← name
        let (ds, c) ← body all.length shape
        pure (.type ⟨d, n, ds, c⟩))
      (do
        let n ← nameOr message
        let b ← Document.body all'.length shape
        pure (.type ⟨.definition d', n, b.directives, b.content⟩)) := by
  refine (agree_nameOr _ _).bind_nearly fun n n' hn => ?_
  refine (nearly_body shape).bind (fun b b' hb => (agree_pure ?_).nearly)
    (fun _ => keeps_pure _) fun _ => keeps_pure _
  exact ⟨.type rfl hd hn.symm hb.bare, hb.constant, hb.avoids⟩

/-- Additions to types are read alike, if the fragment accepts them. -/
theorem nearly_typeExtension (shape : Shape) :
    Nearly all all' (SameAccepted all)
      (do
        let n ← name
        let (ds, c) ← body all.length shape
        if addsAnything ds c then pure (.ok (.extension ⟨n, ds, c⟩))
        else pure (.error (.emptyExtension shape)))
      (do
        let n ← Document.name
        let b ← Document.body all'.length shape
        if b.isWritten then
          pure (.type ⟨.extension, n, b.directives, b.content⟩)
        else
          fail (Document.extensionMessage shape)) := by
  refine agree_name.bind_nearly fun n n' hn => ?_
  refine (nearly_body shape).bind (fun b b' hb => ?_) (fun b => ?_) fun b => ?_
  · dsimp only
    split
    · split
      · refine (agree_pure ?_).nearly
        rintro d ⟨⟩
        exact ⟨.extension rfl hn.symm hb.bare, hb.constant, hb.avoids⟩
      · exact (agree_fail_right _).nearly
    · split
      · exact (agree_pure fun d hd => by cases hd).nearly
      · exact (agree_fail_right _).nearly
  · dsimp only
    split <;> exact keeps_pure _
  · split
    · exact keeps_pure _
    · exact keeps_fail _

/-! ## The schema -/

/-- An entry of a schema, twice. -/
def SameRoot (r : Name × Name) (e : Document.RootOperation) : Prop :=
  Operation.ofText? r.1.text = some e.operation ∧ e.typeName = some r.2

theorem inside_rootOperation :
    AgreeInside all all' SameRoot (named name) Document.rootOperation := by
  intro ts ts' rest rest' r e hts hts' hstep hr hr'
  obtain ⟨w, mid, hw, hvalue⟩ := reads_bind.1 hr
  obtain ⟨u, last, hcolon, hend⟩ := reads_bind.1 hvalue
  obtain ⟨n, _, hn, rfl, rfl⟩ := reads_bind.1 hend
  obtain rfl := reads_nameOr.1 hw
  obtain rfl := reads_markOr.1 hcolon
  obtain rfl := reads_nameOr.1 hn
  rw [Document.rootOperation, reads_current] at hr'
  rcases hstep.cases_token with ⟨tl', rfl, htl⟩ | ⟨-, tl', rfl⟩
  · obtain ⟨tl', rfl, hnext⟩ := htl.of_token (by simp)
    dsimp only [List.head?_cons] at hr'
    split at hr'
    · next o ho =>
      rw [reads_skip] at hr'
      obtain ⟨u', mid', hcolon', hr'⟩ := reads_bind.1 hr'
      have hmid := reads_markOr.1 hcolon'
      cases hmid
      rw [reads_current] at hr'
      rcases hnext.cases_token with ⟨tl'', rfl, hlast⟩ | ⟨-, tl'', rfl⟩
      · obtain ⟨rfl, rfl⟩ := hr'
        exact Or.inl ⟨⟨ho, rfl⟩, hlast⟩
      · -- the name of the type is missing in the document, which stops at the separator
        obtain ⟨rfl, rfl⟩ := hr'
        exact Or.inr ⟨_, rfl⟩
    · exact False.elim hr'
  · exact False.elim hr'

/-- The operations of a schema are those that are bound in it. -/
theorem mem_operations_iff {s : SchemaDefinition} {e : Document.RootOperation} :
    e ∈ s.operations ↔ ∃ n, e.typeName = some n ∧ s.root e.operation = some n := by
  rw [SchemaDefinition.operations, SchemaDefinition.roots, List.mem_map]
  constructor
  · rintro ⟨r, hr, rfl⟩
    obtain ⟨o, -, ho⟩ := List.mem_filterMap.1 hr
    obtain ⟨n, hn, rfl⟩ := Option.map_eq_some_iff.1 ho
    exact ⟨n, rfl, hn⟩
  · rintro ⟨n, hname, hroot⟩
    refine ⟨(e.operation, n), List.mem_filterMap.2 ⟨e.operation, ?_, by rw [hroot]; rfl⟩, ?_⟩
    · cases e.operation <;> simp
    · rw [← hname]

/-- An operation that starts nowhere yet comes in addition to the others. -/
theorem setRoot_perm {s : SchemaDefinition} {o : Operation} (h : s.root o = none) (n : Name) :
    (s.setRoot o n).operations.Perm (⟨o, some n⟩ :: s.operations) := by
  obtain ⟨ds, query, mutation, subscription⟩ := s
  cases o with
  | query =>
    obtain rfl : query = none := h
    exact .refl _
  | mutation =>
    obtain rfl : mutation = none := h
    cases query
    · exact .refl _
    · exact .swap _ _ _
  | subscription =>
    obtain rfl : subscription = none := h
    cases query <;> cases mutation
    · exact .refl _
    · exact .swap _ _ _
    · exact .swap _ _ _
    · exact ((List.Perm.swap _ _ _).cons _).trans (.swap _ _ _)

/-- The entries that are bound in a fragment are the entries of the document. -/
theorem perm_of_bindRoots {s s' : SchemaDefinition} {faults : List RootFault}
    {roots : List (Name × Name)} {es : List Document.RootOperation}
    (h : bindRoots s faults roots = .ok s') (hes : List.Forall₂ SameRoot roots es) :
    (es ++ s.operations).Perm s'.operations ∧ faults = [] := by
  induction hes generalizing s faults with
  | nil =>
    rw [bindRoots] at h
    split at h
    · next hnone =>
      cases h
      exact ⟨.refl _, List.isEmpty_iff.1 hnone⟩
    · cases h
  | @cons r e roots es hre _ ih =>
    obtain ⟨hoperation, hname⟩ := hre
    rw [bindRoots, hoperation] at h
    dsimp only at h
    split at h
    · exact absurd (ih h).2 (by simp)
    · next hroot =>
      obtain ⟨hperm, hnone⟩ := ih h
      have hset := setRoot_perm (Option.not_isSome_iff_eq_none.1 hroot) r.2
      rw [← hname] at hset
      refine ⟨?_, hnone⟩
      rw [List.cons_append]
      exact (List.perm_middle.symm.trans (hset.symm.append_left es)).trans hperm

/-- A schema whose entries are bound in a fragment is that of the document, which has an entry. -/
theorem sameDefinition_of_bindRoots {ds : List Directive} (hds : AreConstant (givenValues ds))
    {ds' : List Document.Directive} {roots : List (Name × Name)} {os : List Document.RootOperation}
    (hsame : List.Forall₂ SameRoot roots os) (hsome : os ≠ []) {d : Definition}
    (h : (bindRoots ⟨ds, none, none, none⟩ [] roots).map .schema = .ok d) (words : Option String) :
    SameDefinition all d (.schema ⟨words, ds', os⟩) := by
  cases hs : bindRoots ⟨ds, none, none, none⟩ [] roots with
  | error c =>
    rw [hs] at h
    cases h
  | ok s =>
    rw [hs] at h
    cases h
    have hperm : os.Perm s.operations := by
      rw [← List.append_nil os]
      exact (perm_of_bindRoots hs hsame).1
    refine ⟨.schema hperm, ?_, ?_⟩
    · show AreConstant (givenValues s.directives)
      rw [directives_of_bindRoots hs]
      exact hds
    · obtain ⟨o, tl, rfl⟩ := List.exists_cons_of_ne_nil hsome
      obtain ⟨n, -, hn⟩ := mem_operations_iff.1 (hperm.subset List.mem_cons_self)
      exact ⟨o.operation, Option.isSome_iff_exists.2 ⟨n, hn⟩⟩

/-- Schemas are read alike, if the fragment accepts them. -/
theorem agree_schemaDefinition (words : Option String) :
    Agree all all' (SameAccepted all)
      (do
        let ds ← directives all.length
        mark .openBrace
        let roots ← many all.length startsName (named name)
        markOr .closeBrace (.lacks (afterNamed .closeBrace))
        pure ((bindRoots ⟨ds, none, none, none⟩ [] roots).map .schema))
      (do
        let ds ← Document.schemaDirectives all'.length
        if ← takeMark .openBrace then
          let os ← many all'.length startsName Document.rootOperation
          if os.isEmpty then
            fail "expected Root Operation Type Definition"
          else do
            Document.close .closeBrace "R_CURLY"
            pure (.schema ⟨words, ds, os⟩)
        else
          pure (.schema ⟨words, ds, []⟩)) := by
  refine agree_directives.bind fun ds ds' hds => agree_mark_takeMark ?_
  intro ts ts' rest rest' x e hts hts' hstep hr hr'
  obtain ⟨roots, mid, hroots, hr⟩ := reads_bind.1 hr
  obtain ⟨u, last, hmark, rfl, rfl⟩ := reads_bind.1 hr
  obtain rfl := reads_markOr.1 hmark
  rw [if_pos rfl] at hr'
  obtain ⟨os, mid', hos, hr'⟩ := reads_bind.1 hr'
  split at hr'
  · exact False.elim hr'
  · next hsome =>
    obtain ⟨u', last', hclose, rfl, rfl⟩ := reads_bind.1 hr'
    obtain rfl := Document.reads_close.1 hclose
    obtain ⟨hsame, hrest⟩ :=
      inside_rootOperation.many_closed (by decide) rfl rfl hts hts' hstep hroots hos
    exact ⟨fun d hd => sameDefinition_of_bindRoots hds.2 hsame (mt List.isEmpty_iff.2 hsome) hd _,
      hrest⟩

/-! ## Directives that are defined -/

theorem agree_location : Agree all all' (· = ·) location Document.location := by
  refine agree_current (agree_fail_left _) (fun t => ?_) fun n => agree_fail_right _
  cases t with
  | mark | int | float | string => exact (agree_fail_left _).at _
  | name n =>
    dsimp only
    split
    · exact AgreeAt.skip (agree_pure rfl)
    · exact (agree_fail_left _).at _

/-- A word is there for both or for neither, unless there is a separator. -/
theorem step_takeWord {word : String} {ts ts' mid mid' : List Token} {b b' : Bool}
    (hstep : InStep ts ts') (hsep : ¬AtSeparator ts')
    (h : (takeWord word : Production Bool).Reads ts b mid)
    (h' : (takeWord word : Document.Production Bool).Reads ts' b' mid') :
    b = b' ∧ InStep mid mid' := by
  have hhead : ts'.head? = ts.head? := hstep.head?_eq.resolve_right hsep
  rcases reads_takeWord.1 h with ⟨rfl, n, hn, rfl⟩ | ⟨rfl, hword, rfl⟩
  · rcases reads_takeWord.1 h' with ⟨rfl, n', -, rfl⟩ | ⟨-, hword', -⟩
    · obtain ⟨tl, heq, hmid⟩ := hstep.of_token_right nofun
      cases heq
      exact ⟨rfl, hmid⟩
    · exact absurd hn (hword' n hhead)
  · rcases reads_takeWord.1 h' with ⟨-, n', hn', rfl⟩ | ⟨rfl, -, rfl⟩
    · exact absurd hn' (hword n' hhead.symm)
    · exact ⟨rfl, hstep⟩

/-- The locations of a directive are read alike, with a mark in front of them or without. -/
theorem agree_locations {d d' : Option String} {n n' : Name} {args : List InputValue}
    {args' : List Document.InputValue} {again again' : Bool} (hn : n = n')
    (hargs : AreConstant (args.flatMap InputValue.literals)) :
    Agree all all' (SameDefinition all)
      (do
        pure (.directive ⟨d, n, args, again, ← locations all.length⟩))
      (do
        let t ← current
        if startsName t || t = some (.mark .pipe) then
          let _ ← takeMark .pipe
          let places ← separated all'.length .pipe Document.location
          pure (.directive ⟨d', n', args', again', places⟩)
        else
          fail "expected valid Directive Location") := by
  intro ts ts' rest rest' x e hts hts' hstep hr hr'
  obtain ⟨places, mid, hplaces, rfl, rfl⟩ := reads_bind.1 hr
  rw [reads_current] at hr'
  split at hr'
  · next hstart =>
    -- what stands there in the document stands there in the fragment
    have hhead : ts'.head? = ts.head? := by
      refine hstep.head?_eq.resolve_right ?_
      rintro ⟨tl, rfl⟩
      cases hstart
    rw [hhead] at hstart
    obtain ⟨b', mid', hb', hr'⟩ := reads_bind.1 hr'
    obtain ⟨ns, last, hns, rfl, rfl⟩ := reads_bind.1 hr'
    rw [locations, reads_bind] at hplaces
    obtain ⟨b, mid, hb, hplaces⟩ := hplaces
    obtain ⟨-, hmid⟩ := (agree_takeMark (by decide)) hts hts' hstep hb hb'
    rw [reads_current] at hplaces
    have hled : (b || startsName mid.head?) = true := by
      rcases reads_takeMark.1 hb with ⟨rfl, -⟩ | ⟨rfl, hpipe, rfl⟩
      · rfl
      · rw [Bool.or_eq_true, decide_eq_true_eq] at hstart
        rw [Bool.false_or, hstart.resolve_right hpipe]
    rw [if_pos hled] at hplaces
    obtain ⟨-, hrest⟩ := (agree_location.separated (by decide)) (hb.isSuffix.trans hts)
      (hb'.isSuffix.trans hts') hmid hplaces hns
    refine ⟨⟨.directive hn.symm, hargs, ?_⟩, hrest⟩
    obtain ⟨first, _, -, hplaces⟩ := reads_bind.1 hplaces
    obtain ⟨others, _, -, rfl, -⟩ := reads_bind.1 hplaces
    exact List.cons_ne_nil _ _
  · exact False.elim hr'

/-- Directives that are defined are read alike. -/
theorem agree_directiveDefinition (d d' : Option String) :
    Agree all all' (SameDefinition all)
      (do
        mark .atSign
        let n ← name
        let args ← arguments all.length
        let again ← takeWord "repeatable"
        if ← takeWord "on" then
          pure (.directive ⟨d, n, args, again, ← locations all.length⟩)
        else
          expect (if again then ["on"] else ["repeatable", "on"]))
      (do
        markOr .atSign "expected @ symbol"
        let n ← Document.name
        let args ← Document.argumentsDefinition all'.length
        let again ← takeWord "repeatable"
        if ← takeWord "on" then
          let t ← current
          if startsName t || t = some (.mark .pipe) then
            let _ ← takeMark .pipe
            let places ← separated all'.length .pipe Document.location
            pure (.directive ⟨d', n, args, again, places⟩)
          else
            fail "expected valid Directive Location"
        else
          fail "expected Directive Locations") := by
  refine (agree_markOr _ _ _).bind fun _ _ _ => agree_name.bind fun n n' hn => ?_
  refine agree_arguments.bind fun args args' hargs => ?_
  intro ts ts' rest rest' x e hts hts' hstep hr hr'
  obtain ⟨again, mid, hagain, hend⟩ := reads_bind.1 hr
  obtain ⟨b, last, hb, hend⟩ := reads_bind.1 hend
  obtain ⟨again', mid', hagain', hend'⟩ := reads_bind.1 hr'
  obtain ⟨b', last', hb', hend'⟩ := reads_bind.1 hend'
  cases b' with
  | false => exact False.elim hend'
  | true =>
    -- since the word `on` is there, no separator is
    have hon : ¬AtSeparator mid' := by
      rintro ⟨tl, rfl⟩
      rcases reads_takeWord.1 hb' with ⟨-, n, -, heq⟩ | ⟨heq, -⟩ <;> cases heq
    have hrepeatable : ¬AtSeparator ts' := by
      rintro ⟨tl, rfl⟩
      rcases reads_takeWord.1 hagain' with ⟨-, n, -, heq⟩ | ⟨-, -, rfl⟩
      · cases heq
      · exact hon ⟨tl, rfl⟩
    obtain ⟨-, hmid⟩ := step_takeWord hstep hrepeatable hagain hagain'
    obtain ⟨rfl, hlast⟩ := step_takeWord hmid hon hb hb'
    exact agree_locations hn hargs.2 (hb.isSuffix.trans (hagain.isSuffix.trans hts))
      (hb'.isSuffix.trans (hagain'.isSuffix.trans hts')) hlast hend hend'

/-! ## Definitions -/

/-- How a definition of a fragment is read from tokens. -/
inductive DefinitionReads (fuel : Nat) : List Token → Definition → List Token → Prop
  | schema {n : Name} {tl rest : List Token} {d : Definition} (hn : n.text = "schema")
      (h : (schemaDefinition fuel).Reads (.name n :: tl) (.ok d) rest) :
      DefinitionReads fuel (.name n :: tl) d rest
  | extension {n : Name} {tl rest : List Token} {d : Definition} (hn : n.text = "extend")
      (h : (typeExtension fuel).Reads tl (.ok d) rest) :
      DefinitionReads fuel (.name n :: tl) d rest
  | described {ts rest : List Token} {d : Definition}
      (h : (describedDefinition fuel).Reads ts d rest) : DefinitionReads fuel ts d rest

/-- A definition takes tokens from the front of those there are. -/
theorem DefinitionReads.isSuffix {fuel : Nat} {ts rest : List Token} {d : Definition}
    (h : DefinitionReads fuel ts d rest) : rest <:+ ts := by
  cases h with
  | schema _ h => exact h.isSuffix
  | extension _ h => exact h.isSuffix.trans (List.suffix_cons _ _)
  | described h => exact h.isSuffix

/-- There is no definition where there are no tokens. -/
theorem DefinitionReads.ne_nil {fuel : Nat} {rest : List Token} {d : Definition}
    (h : DefinitionReads fuel [] d rest) : False := by
  cases h with
  | described h =>
    obtain ⟨words, mid, ⟨rfl, rfl⟩, h⟩ := reads_bind.1 h
    exact h

/-- A definition of a document is announced by its first name, which only a description may
precede, unless it is an operation. -/
theorem reads_definition {fuel : Nat} {ts rest : List Token} {e : Document.Definition}
    (h : (Document.definition fuel).Reads ts e rest) :
    (∃ s n tl, ts = .string s :: .name n :: tl ∧
      (Document.definitionFor fuel (some (.name n))).Reads ts e rest) ∨
    (∃ n tl, ts = .name n :: tl ∧
      (Document.definitionFor fuel (some (.name n))).Reads ts e rest) ∨
    ∃ tl, ts = .mark .openBrace :: tl := by
  rw [Document.definition, reads_current] at h
  cases ts with
  | nil => exact False.elim h
  | cons t tl =>
    cases t with
    | int | float => exact False.elim h
    | name n => exact Or.inr (Or.inl ⟨n, tl, rfl, h⟩)
    | mark m =>
      cases m with
      | openBrace => exact Or.inr (Or.inr ⟨tl, rfl⟩)
      | _ => exact False.elim h
    | string s =>
      rcases reads_second.1 h with h | h
      · exact False.elim h
      · cases tl with
        | nil => exact False.elim h
        | cons u tl =>
          cases u with
          | int | float | string => exact False.elim h
          | name n => exact Or.inl ⟨s, n, tl, rfl, h⟩
          | mark m => cases m <;> exact False.elim h

/-- What a description announces, if it is there: a directive or a type. -/
theorem reads_describable {fuel : Nat} {words : List String} {d : Option String}
    {ts rest : List Token} {x : Definition} (h : (describable fuel words d).Reads ts x rest) :
    ∃ n tl, ts = .name n :: tl ∧
      (n.text = "directive" ∧ (directiveDefinition fuel d).Reads ts x rest ∨
        ∃ shape, Shape.ofKeyword? n.text = some shape ∧
          (typeDefinition fuel d shape).Reads ts x rest) := by
  rw [describable, reads_current] at h
  cases ts with
  | nil => exact False.elim h
  | cons t tl =>
    cases t with
    | mark | int | float | string => exact False.elim h
    | name n =>
      refine ⟨n, tl, rfl, ?_⟩
      dsimp only [List.head?_cons] at h
      split at h
      · next hn => exact Or.inl ⟨hn, h⟩
      · split at h
        · next shape hshape => exact Or.inr ⟨shape, hshape, h⟩
        · exact False.elim h

theorem definitionFor_of_shape {n : Name} {shape : Shape}
    (h : Shape.ofKeyword? n.text = some shape) (fuel : Nat) :
    Document.definitionFor fuel (some (.name n)) = Document.typeDefinition fuel shape := by
  obtain rfl : n = shape.word := by
    refine Name.ext_text ?_
    unfold Shape.ofKeyword? at h
    split_ifs at h <;> cases h <;> assumption
  exact definitionFor_shape fuel shape

/-- Behind the description, if there is one, a definition is read alike. -/
theorem nearly_described {n : Name} {tl tl' ts' rest rest' : List Token}
    {words : Option String} {announcing : List String} {d : Definition}
    {e : Document.Definition} (htl : .name n :: tl <:+ all) (htl' : .name n :: tl' <:+ all')
    (hstep : InStep tl tl')
    (hdescription : ∀ words' mid', Document.description.Reads ts' words' mid' →
      WrittenAs all words words' ∧ mid' = .name n :: tl')
    (hr : (describable all.length announcing words).Reads (.name n :: tl) d rest)
    (hr' : (Document.definitionFor all'.length (some (.name n))).Reads ts' e rest') :
    SameDefinition all d e ∧ InStep rest rest' ∨ AtBareName rest ∨ AtSeparator rest' := by
  have hsuffix := (List.suffix_cons _ _).trans htl
  have hsuffix' := (List.suffix_cons _ _).trans htl'
  obtain ⟨n', _, heq, ⟨hn, hr⟩ | ⟨shape, hshape, hr⟩⟩ := reads_describable hr
  · cases heq
    have hfor : Document.definitionFor all'.length (some (.name n)) =
        Document.directiveDefinition all'.length := by
      simp [Document.definitionFor, hn]
    rw [hfor] at hr'
    obtain ⟨words', mid', hwords, hr'⟩ := reads_bind.1 hr'
    obtain ⟨-, rfl⟩ := hdescription _ _ hwords
    rw [reads_skip] at hr'
    exact (agree_directiveDefinition words words').nearly hsuffix hsuffix' hstep hr hr'
  · cases heq
    rw [definitionFor_of_shape hshape] at hr'
    obtain ⟨words', mid', hwords, hr'⟩ := reads_bind.1 hr'
    obtain ⟨hwritten, rfl⟩ := hdescription _ _ hwords
    rw [reads_skip] at hr'
    exact nearly_typeDefinition shape hwritten _ hsuffix hsuffix' hstep hr hr'

/-- A definition with its description, if there is one, is read alike. -/
theorem nearly_describedDefinition {n : Name} {ts ts' tl' rest rest' : List Token}
    {d : Definition} {e : Document.Definition} (hts : ts <:+ all) (hts' : ts' <:+ all')
    (hstep : InStep ts ts')
    (hdescription : ∃ words', Document.description.Reads ts' words' (.name n :: tl'))
    (hends : ∀ words' mid', Document.description.Reads ts' words' mid' → mid' = .name n :: tl')
    (hr : (describedDefinition all.length).Reads ts d rest)
    (hr' : (Document.definitionFor all'.length (some (.name n))).Reads ts' e rest') :
    SameDefinition all d e ∧ InStep rest rest' ∨ AtBareName rest ∨ AtSeparator rest' := by
  obtain ⟨words', hwords'⟩ := hdescription
  obtain ⟨words, mid, hwords, hr⟩ := reads_bind.1 hr
  obtain ⟨-, hmid⟩ := agree_description hts hts' hstep hwords hwords'
  obtain ⟨tl, rfl, htl⟩ := hmid.of_token_right nofun
  have hdescribed : ∀ {announcing : List String},
      (describable all.length announcing words).Reads (.name n :: tl) d rest →
      SameDefinition all d e ∧ InStep rest rest' ∨ AtBareName rest ∨ AtSeparator rest' :=
    fun hr => nearly_described (hwords.isSuffix.trans hts) (hwords'.isSuffix.trans hts') htl
      (fun words'' mid'' h => ⟨(agree_description hts hts' hstep hwords h).1, hends _ _ h⟩) hr hr'
  cases words with
  | none => exact hdescribed hr
  | some words => exact hdescribed hr

/-- An addition to a type is read alike. -/
theorem nearly_extension {n : Name} {tl tl' rest rest' : List Token} {d : Definition}
    {e : Document.Definition} (hts : .name n :: tl <:+ all) (hts' : .name n :: tl' <:+ all')
    (hstep : InStep tl tl') (hr : (typeExtension all.length).Reads tl (.ok d) rest)
    (hr' : (Document.extensionDefinition all'.length).Reads (.name n :: tl') e rest') :
    SameDefinition all d e ∧ InStep rest rest' ∨ AtBareName rest ∨ AtSeparator rest' := by
  have hsuffix := (List.suffix_cons _ _).trans hts
  have hsuffix' := (List.suffix_cons _ _).trans hts'
  rw [typeExtension, reads_current] at hr
  cases tl with
  | nil => exact False.elim hr
  | cons t tl =>
    cases t with
    | mark | int | float | string => exact False.elim hr
    | name w =>
      dsimp only [List.head?_cons] at hr
      split at hr
      · next shape hshape =>
        rw [reads_skip] at hr
        rcases reads_second.1 hr' with hr' | hr'
        · exact False.elim hr'
        · rcases hstep.cases_token with ⟨tl', rfl, htl⟩ | ⟨-, tl', rfl⟩
          · have hschema : w.text ≠ "schema" := by
              intro hw
              rw [hw] at hshape
              cases hshape
            simp only [List.tail_cons, List.head?_cons, if_neg hschema, hshape] at hr'
            exact ((nearly_typeExtension shape) ((List.suffix_cons _ _).trans hsuffix)
              ((List.suffix_cons _ _).trans hsuffix') htl hr hr').imp_left
                fun h => ⟨h.1 d rfl, h.2⟩
          · exact False.elim hr'
      · exact False.elim hr

/-- **Definitions.**  A definition that both grammars read says the same, unless one of the two
gets stuck behind it. -/
theorem nearly_definition {ts ts' rest rest' : List Token} {d : Definition}
    {e : Document.Definition} (hts : ts <:+ all) (hts' : ts' <:+ all') (hstep : InStep ts ts')
    (hr : DefinitionReads all.length ts d rest)
    (hr' : (Document.definition all'.length).Reads ts' e rest') :
    SameDefinition all d e ∧ InStep rest rest' ∨ AtBareName rest ∨ AtSeparator rest' := by
  rcases reads_definition hr' with ⟨s, n, tl', rfl, hfor⟩ | ⟨n, tl', rfl, hfor⟩ | ⟨tl', rfl⟩
  · obtain ⟨tl, rfl, -⟩ := hstep.of_token_right nofun
    cases hr with
    | described h =>
      exact nearly_describedDefinition hts hts' hstep ⟨_, rfl, rfl⟩ (fun _ _ h => h.2) h hfor
  · obtain ⟨tl, rfl, htl⟩ := hstep.of_token_right nofun
    cases hr with
    | schema hn h =>
      have hschema : Document.definitionFor all'.length (some (.name n)) =
          Document.schemaDefinition all'.length := by
        simp [Document.definitionFor, hn]
      rw [hschema] at hfor
      obtain ⟨words, mid, ⟨rfl, rfl⟩, hfor⟩ := reads_bind.1 hfor
      exact ((agree_schemaDefinition none).nearly ((List.suffix_cons _ _).trans hts)
        ((List.suffix_cons _ _).trans hts') htl h hfor).imp_left fun h => ⟨h.1 d rfl, h.2⟩
    | extension hn h =>
      have hextend : Document.definitionFor all'.length (some (.name n)) =
          Document.extensionDefinition all'.length := by
        simp [Document.definitionFor, hn]
      rw [hextend] at hfor
      exact nearly_extension hts hts' htl h hfor
    | described h =>
      exact nearly_describedDefinition hts hts' hstep ⟨_, rfl, rfl⟩ (fun _ _ h => h.2) h hfor
  · -- no definition of a fragment begins with a brace
    obtain ⟨tl, rfl, -⟩ := hstep.of_token_right nofun
    cases hr with
    | described h =>
      obtain ⟨words, mid, ⟨rfl, rfl⟩, h⟩ := reads_bind.1 h
      exact False.elim h

/-! ## Documents -/

/-- How the definitions of a fragment are read from tokens to the end. -/
inductive DefinitionsRead (fuel : Nat) : List Token → List Definition → Prop
  | nil : DefinitionsRead fuel [] []
  | cons {ts rest : List Token} {d : Definition} {ds : List Definition}
      (h : DefinitionReads fuel ts d rest) (hds : DefinitionsRead fuel rest ds)
      (hrest : rest = [] ∨ startsDefinition rest.head? = true) :
      DefinitionsRead fuel ts (d :: ds)

/-- No definition begins with a name that opens none. -/
theorem not_startsDefinition_bareName {ts : List Token} (h : AtBareName ts) :
    ¬(ts = [] ∨ startsDefinition ts.head? = true) := by
  obtain ⟨n, tl, rfl, hn⟩ := h
  rintro (h | h)
  · cases h
  · refine hn ?_
    have hwords : ∀ w ∈ definitionWords, w ∈ Document.Implements.definitionWords := by decide
    exact hwords _ (List.contains_iff_mem.1 h)

/-- No definition of a document begins with a separator. -/
theorem not_reads_definitions_separator {fuel : Nat} {ts : List Token}
    {es : List Document.Definition} (h : AtSeparator ts) :
    ¬(many fuel Option.isSome (Document.definition all'.length)).Reads ts es [] := by
  obtain ⟨tl, rfl⟩ := h
  intro hr
  cases fuel with
  | zero => cases (reads_many_zero.1 hr).2
  | succ fuel =>
    rcases reads_many_succ.1 hr with ⟨-, e, mid, -, he, -⟩ | ⟨h, -⟩
    · exact he
    · cases h

/-- **Documents.**  Definitions that both grammars read to the end say the same. -/
theorem same_definitions {fuel : Nat} {ts ts' : List Token} {ds : List Definition}
    {es : List Document.Definition} (hts : ts <:+ all) (hts' : ts' <:+ all')
    (hstep : InStep ts ts') (hr : DefinitionsRead all.length ts ds)
    (hr' : (many fuel Option.isSome (Document.definition all'.length)).Reads ts' es []) :
    List.Forall₂ (SameDefinition all) ds es := by
  induction hr generalizing fuel ts' es with
  | nil =>
    obtain rfl := hstep.nil_left
    obtain ⟨rfl, -⟩ := many_stops rfl hr'
    exact .nil
  | @cons ts rest d ds h _ hrest ih =>
    have hempty : ts' ≠ [] := by
      rintro rfl
      cases hstep
      exact h.ne_nil
    cases fuel with
    | zero => exact absurd (reads_many_zero.1 hr').2.symm hempty
    | succ fuel =>
      rcases reads_many_succ.1 hr' with ⟨-, e, mid', es, he, hes, rfl⟩ | ⟨-, -, hnil⟩
      · rcases nearly_definition hts hts' hstep h he with ⟨hsame, hmid⟩ | hbare | hsep
        · exact .cons hsame (ih (h.isSuffix.trans hts) (he.isSuffix.trans hts') hmid hes)
        · exact absurd hrest (not_startsDefinition_bareName hbare)
        · exact absurd hes (not_reads_definitions_separator hsep)
      · exact absurd hnil.symm hempty

end

/-! ## Texts -/

section

variable {fuel : Nat} {ls rest : List Lexeme} {d : Definition}

theorem run_of_judge {r : Production (Except Complaint Definition)}
    (h : judge r ls = .ok (d, rest)) : r.run ls = .ok (.ok d, rest) := by
  rw [judge] at h
  split at h
  · next hrun =>
    cases h
    exact hrun
  · cases h
  · cases h

theorem definitionReads_of_readDefinition (hls : IsReady ls)
    (h : readDefinition fuel ls = .ok (d, rest)) :
    DefinitionReads fuel (tokensIn (kindsOf ls)) d (tokensIn (kindsOf rest)) ∧ IsReady rest := by
  rw [readDefinition] at h
  split at h
  · next n hhead =>
    rw [hls.headToken_eq] at hhead
    obtain ⟨tl, htl⟩ := List.head?_eq_some_iff.1 hhead
    split at h
    · next hn =>
      obtain ⟨hreads, hrest⟩ := reads_of_run hls (run_of_judge h)
      rw [htl] at hreads ⊢
      exact ⟨.schema hn hreads, hrest⟩
    · split at h
      · next hn =>
        split at h
        · next ahead hahead =>
          -- the word that announces an addition is taken before the rule runs
          have htail : tokensIn (kindsOf ls.tail) = tl := by
            rw [← kindsOf_tail_of_isSettled hls.settled, tokensIn_tail hls.atToken, htl]
            rfl
          have hstrays : strayCount (kindsOf ls.tail) = 0 := by
            rw [← kindsOf_tail_of_isSettled hls.settled]
            exact Nat.le_zero.1 (hls.strays ▸ (List.tail_sublist _).countP_le)
          obtain ⟨hready, htokens⟩ := isReady_of_settle hstrays hahead
          obtain ⟨hreads, hrest⟩ := reads_of_run hready (run_of_judge h)
          rw [htokens, htail] at hreads
          rw [htl]
          exact ⟨.extension hn hreads, hrest⟩
        · cases h
      · obtain ⟨hreads, hrest⟩ := reads_of_run hls h
        exact ⟨.described hreads, hrest⟩
  · obtain ⟨hreads, hrest⟩ := reads_of_run hls h
    exact ⟨.described hreads, hrest⟩

/-- The definitions of a fragment are read from the tokens of its lexemes, one after the other,
and each behind one is begun by a word that begins a definition. -/
theorem definitionsRead_of_readDefinitions {count : Nat} {ds : List Definition}
    (hls : IsReady ls) (h : readDefinitions fuel count ls = .ok (ds, [])) :
    DefinitionsRead fuel (tokensIn (kindsOf ls)) ds ∧
      (tokensIn (kindsOf ls) = [] ∨ startsDefinition (tokensIn (kindsOf ls)).head? = true) := by
  induction count generalizing ls ds with
  | zero =>
    cases h
    exact ⟨.nil, Or.inl rfl⟩
  | succ count ih =>
    rw [readDefinitions] at h
    split at h
    · next hstarts =>
      rw [hls.headToken_eq] at hstarts
      split at h
      · next d rest hd =>
        obtain ⟨hreads, hready⟩ := definitionReads_of_readDefinition hls hd
        split at h
        · next hds =>
          cases h
          obtain ⟨hmore, hrest⟩ := ih hready hds
          exact ⟨.cons hreads hmore hrest, Or.inr hstarts⟩
        · cases h
      · cases h
    · cases h
      exact ⟨.nil, Or.inl rfl⟩

/-- The definitions of a fragment are read from its tokens. -/
theorem definitionsRead_of_ofText {text : String} {ds : List Definition}
    (h : ofText text = .ok ds) :
    DefinitionsRead (tokensIn (kindsOf (scan text.toList))).length
      (tokensIn (kindsOf (scan text.toList))) ds := by
  have hfuel : (tokensIn (kindsOf (scan text.toList))).length =
      (scan text.toList).countP Lexeme.isToken :=
    (length_tokensIn _).trans (tokenCount_kindsOf _)
  obtain ⟨ahead, first, rest, others, hahead, hfirst, hothers, rfl⟩ := exists_of_ofText h
  obtain ⟨hready, htokens⟩ := isReady_of_settle (strayCount_of_ofText h) hahead
  obtain ⟨hreads, hrest⟩ := definitionReads_of_readDefinition hready hfirst
  obtain ⟨hmore, hstart⟩ := definitionsRead_of_readDefinitions hrest hothers
  rw [htokens] at hreads
  rw [hfuel]
  exact .cons hreads hmore hstart

end

theorem strayCount_of_isClean {ks : List Lexeme.Kind} (h : Document.IsClean ks) :
    strayCount ks = 0 := by
  induction h with
  | nil => rfl
  | comma _ ih => exact ih
  | token t _ ih => exact ih

/-- **Two readings.**  What a fragment is read as and what a document is read as, once it is
repaired, say the same if the text of both is the same. -/
theorem sameDefinitions_of_ofText {text : String} {ds : List Definition}
    {es : List Document.Definition} (h : ofText text = .ok ds)
    (h' : Catalog.definitionsOf text = .ok es) :
    List.Forall₂ (SameDefinition (tokensIn (kindsOf (scan text.toList)))) ds es := by
  have hstrays := strayCount_of_ofText h
  rw [Document.definitionsOf_eq_ok_iff] at h'
  have hflaws := flawCount_of_feed _ h'
  rw [Document.Implements.flawCount_repairKinds] at hflaws
  have hclean := Document.isClean_kindsIn hflaws
  have hreads := reads_of_feed (strayCount_of_isClean (isClean_repairKinds hclean .nothing)) h'
  have hstep := inStep_repairKinds .nothing (Document.kindsIn text.toList)
  rw [← tokensIn_scan hstrays hflaws] at hstep
  rw [Document.document, reads_current, ← length_tokensIn] at hreads
  split at hreads
  · exact same_definitions List.suffix_rfl List.suffix_rfl hstep (definitionsRead_of_ofText h)
      hreads
  · exact False.elim hreads

end Fragment

end SchemaCatalog
