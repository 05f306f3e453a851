/-
# Two grammars side by side

What a fragment says is said by the document that is read from the same text.  The productions
of the two grammars are compared one by one, from references and values to the members of types.
-/
import SchemaCatalog.Proofs.BareDefinitions
import SchemaCatalog.Proofs.SharedReadings

namespace SchemaCatalog

open Rule

namespace Document

/-! ## Marks that a document may need -/

variable {ts rest : List Token}

/-- A closing mark is read where it stands, and nowhere else. -/
theorem reads_close {m : Mark} {label : String} {u : Unit} :
    (close m label).Reads ts u rest ↔ ts = .mark m :: rest := by
  rw [close, reads_current]
  cases ts with
  | nil => simp
  | cons t tl =>
    rw [List.head?_cons]
    dsimp only
    split
    · next ht => simp [ht, eq_comm]
    · next ht => simp [ht]

/-- A type that is asked for with a complaint of its own is a type. -/
theorem reads_typeOr {message : String} {t : TypeRef}
    (h : (typeOr message).Reads ts t rest) : (typeRef maxLevels).Reads ts t rest := by
  rw [typeOr, reads_current] at h
  split at h
  · exact h
  · exact False.elim h

end Document

namespace Fragment

section

variable {all all' : List Token}

/-! ## Shared parts -/

theorem agree_close (m : Mark) (c : Stop) (label : String) :
    Agree all all' (fun _ _ => True) (markOr m c) (Document.close m label) := by
  intro ts ts' rest rest' a b _ _ hstep hr hr'
  rw [reads_markOr] at hr
  rw [Document.reads_close] at hr'
  subst hr hr'
  obtain ⟨tl, htl, hrest⟩ := hstep.of_token nofun
  cases htl
  exact ⟨trivial, hrest⟩

theorem agree_name : Agree all all' (· = ·) name Document.name := agree_nameOr _ _

variable (all) in
/-- A description in a fragment beside the description in a document that one string token of a
text stands for. -/
inductive WrittenAs : Option String → Option String → Prop
  | none : WrittenAs none none
  | some {text words : String} (mem : .string text ∈ all)
      (h : Fragment.stringValue text = .ok words) :
      WrittenAs (some words) (some (Document.stringValue text))

/-- A description is read alike, but for what its text comes to. -/
theorem agree_description : Agree all all' (WrittenAs all) description Document.description := by
  refine agree_current (agree_pure .none) (fun t => ?_) fun n => agree_pure .none
  cases t with
  | name | mark | int | float => exact (agree_pure .none).at _
  | string text =>
    rintro ts ts' rest rest' a b hts - hstep hr ⟨rfl, rfl⟩
    obtain ⟨s, mid, hs, rfl, rfl⟩ := reads_bind.1 hr
    rw [stringOf] at hs
    split at hs
    · next words hwords =>
      obtain ⟨rfl, rfl⟩ := hs
      exact ⟨.some (hts.subset List.mem_cons_self) hwords, hstep⟩
    · exact False.elim hs
    · exact False.elim hs

theorem agree_typeRefWith {element : Production TypeRef} {element' : Document.Production TypeRef}
    (h : Agree all all' (· = ·) element element') :
    Agree all all' (· = ·) (typeRefWith element) (Document.typeRefWith element') := by
  refine agree_current (agree_fail_left _) (fun t => ?_) fun n => agree_fail_right _
  have hbang : Agree all all' (· = ·) (takeMark .bang : Production Bool)
      (takeMark .bang : Document.Production Bool) := agree_takeMark nofun
  cases t with
  | int | float | string => exact (agree_fail_left _).at _
  | name n => exact AgreeAt.skip (hbang.bind fun b _ hb => agree_pure (hb ▸ rfl))
  | mark m =>
    cases m with
    | openBracket =>
      refine AgreeAt.skip (h.bind fun t _ ht => (agree_close _ _ _).bind fun _ _ _ => ?_)
      exact hbang.bind fun b _ hb => agree_pure (by rw [ht, hb])
    | _ => exact (agree_fail_left _).at _

/-- References are read alike, by induction on the layers. -/
theorem agree_typeRef (levels levels' : Nat) :
    Agree all all' (· = ·) (typeRef levels) (Document.typeRef levels') := by
  induction levels generalizing levels' with
  | zero => cases levels' <;> exact agree_typeRefWith (agree_fail_left _)
  | succ levels ih =>
    cases levels' with
    | zero => exact agree_typeRefWith (agree_fail_right _)
    | succ levels' => exact agree_typeRefWith (ih levels')

theorem agree_typeOr (message : String) :
    Agree all all' (· = ·) (typeRef maxLevels) (Document.typeOr message) :=
  fun _ _ _ _ _ _ hts hts' hstep hr hr' =>
    agree_typeRef _ _ hts hts' hstep hr (Document.reads_typeOr hr')

/-- One item or more between two marks are read alike, if they are there. -/
theorem agree_between {α β γ : Type} {R : α → β → Prop} {Q : List α → γ → Prop}
    {item : Production α} {item' : Document.Production β} (h : Agree all all' R item item')
    {opening closing : Mark} (hopening : opening ≠ .ampersand) (hclosing : closing ≠ .ampersand)
    {starts : Option Token → Bool} (hend : starts (some (.mark closing)) = false)
    (hseparator : starts (some (.mark .ampersand)) = false) {fuel fuel' : Nat}
    {onward : List String} {label message : String} {g : List β → γ} {g₀ : γ} (hnone : Q [] g₀)
    (hsome : ∀ xs ys, List.Forall₂ R xs ys → Q xs (g ys)) :
    Agree all all' Q (between fuel opening closing starts item onward) (do
      if ← takeMark opening then
        if starts (← current) then
          let items ← many fuel' starts item'
          Document.close closing label
          pure (g items)
        else
          fail message
      else
        pure g₀) := by
  refine (agree_takeMark hopening).bind fun b b' hb => ?_
  subst hb
  cases b with
  | false => exact agree_pure hnone
  | true =>
    intro ts ts' rest rest' xs c hts hts' hstep hr hr'
    obtain ⟨x, mid, hx, hr⟩ := reads_bind.1 hr
    obtain ⟨others, last, hothers, hr⟩ := reads_bind.1 hr
    obtain ⟨u, mid₂, hmark, rfl, rfl⟩ := reads_bind.1 hr
    obtain rfl := reads_markOr.1 hmark
    rw [if_pos rfl, reads_current] at hr'
    split at hr'
    · next hstart =>
      obtain ⟨ys, last', hys, hr'⟩ := reads_bind.1 hr'
      obtain ⟨u', mid', hclose, rfl, rfl⟩ := reads_bind.1 hr'
      obtain rfl := Document.reads_close.1 hclose
      -- the first item begins as the others do, since the document has it begin so
      have hstart' : starts ts.head? = true := by
        rcases hstep.head?_eq with hhead | ⟨tl, rfl⟩
        · rwa [← hhead]
        · exact absurd (hseparator.symm.trans hstart) Bool.false_ne_true
      have hxs : (many (fuel + 1) starts item).Reads ts (x :: others) (.mark closing :: rest) :=
        reads_many_succ.2 (Or.inl ⟨hstart', x, mid, others, hx, hothers, rfl⟩)
      obtain ⟨hxys, hrest⟩ :=
        h.inside.many_closed hclosing hend hseparator hts hts' hstep hxs hys
      exact ⟨hsome _ _ hxys, hrest⟩
    · exact False.elim hr'

/-! ## Values -/

/-- A value without variables. -/
inductive Value.IsConstant : Value → Prop
  | int (i : Int) : IsConstant (.int i)
  | float (b : Binary64) : IsConstant (.float b)
  | string (s : String) : IsConstant (.string s)
  | word (n : Name) : IsConstant (.word n)
  | list {vs : List Value} (h : ∀ v ∈ vs, v.IsConstant) : IsConstant (.list vs)
  | object {fs : List (Name × Value)} (h : ∀ f ∈ fs, f.2.IsConstant) : IsConstant (.object fs)

/-- Items that are read alike have what each item has that is read. -/
theorem forall_mem_of_forall₂ {α β : Type} {P : α → Prop} {xs : List α} {ys : List β}
    (h : List.Forall₂ (fun x _ => P x) xs ys) : ∀ x ∈ xs, P x := by
  induction h with
  | nil => exact List.forall_mem_nil _
  | cons hx _ ih => exact List.forall_mem_cons.2 ⟨hx, ih⟩

/-- A value of a document takes a token. -/
theorem length_lt_of_reads_value {fuel : Nat} {constant : Bool}
    {inner : Document.Production Document.Value} {ts rest : List Token} {v : Document.Value}
    (h : (Document.valueWith fuel constant inner).Reads ts v rest) :
    rest.length < ts.length := by
  have hskip : ∀ {t : Token} {tl : List Token} {f : Unit → Document.Production Document.Value},
      (skip >>= f).Reads (t :: tl) v rest → rest.length < (t :: tl).length :=
    fun h => Nat.lt_succ_of_le (Reads.isSuffix (reads_skip.1 h)).length_le
  rw [Document.valueWith, reads_current] at h
  cases ts with
  | nil => exact False.elim h
  | cons t tl =>
    cases t with
    | name | int | float | string => exact hskip h
    | mark m =>
      cases m with
      | dollar =>
        cases constant with
        | false => exact hskip h
        | true => exact False.elim h
      | openBracket | openBrace => exact hskip h
      | _ => exact False.elim h

/-- A value of a document does not begin with a separator. -/
theorem not_reads_value_separator {fuel : Nat} {constant : Bool}
    {inner : Document.Production Document.Value} {tl rest : List Token} {v : Document.Value} :
    ¬(Document.valueWith fuel constant inner).Reads (.mark .ampersand :: tl) v rest :=
  fun h => h

/-- The values of a list or of an object are read alike. -/
structure AgreeOnValues (all all' : List Token) (inner : Production Value)
    (inner' : Document.Production Document.Value) : Prop where
  agree : Agree all all' (fun v _ => v.IsConstant) inner inner'
  length_lt : ∀ ts v rest, inner'.Reads ts v rest → rest.length < ts.length
  separator : ∀ tl v rest, ¬inner'.Reads (.mark .ampersand :: tl) v rest

variable {inner : Production Value} {inner' : Document.Production Document.Value}

/-- The items of a list, up to its bracket, are read alike. -/
theorem agree_items (h : AgreeOnValues all all' inner inner') (fuel : Nat) (constant : Bool) :
    Agree all all' (fun (v : Value) (_ : Document.Value) => v.IsConstant)
      (do
        let items ← many fuel (startsValue constant) inner
        mark .closeBracket
        pure (.list items))
      (do
        let items ← many all'.length Document.startsListItem inner'
        let _ ← takeMark .closeBracket
        pure (.list items)) := by
  intro ts ts' rest rest' v w hts hts' hstep hr hr'
  obtain ⟨xs, last, hxs, hr⟩ := reads_bind.1 hr
  obtain ⟨u, mid, hmark, rfl, rfl⟩ := reads_bind.1 hr
  obtain rfl := reads_markOr.1 hmark
  obtain ⟨ys, last', hys, hr'⟩ := reads_bind.1 hr'
  obtain ⟨b, mid', hb, rfl, rfl⟩ := reads_bind.1 hr'
  have hlast : Document.startsListItem last'.head? = false :=
    hys.stops rfl (fun ts v mid _ hv => h.length_lt ts v mid hv) hts'.length_le
  have hstarts : ∀ t, startsValue constant t = true → Document.startsListItem t = true := by
    intro t ht
    unfold startsValue at ht
    split at ht <;> first | rfl | cases ht
  rcases h.agree.inside.many rfl hstarts (fun _ => h.separator) hts hts' hstep hxs hys hlast
    with ⟨tl, rfl, hxys, hrest⟩ | ⟨tl, rfl⟩
  · rcases reads_takeMark.1 hb with ⟨-, hmid⟩ | ⟨-, hhead, -⟩
    · cases hmid
      exact ⟨.list (forall_mem_of_forall₂ hxys), hrest⟩
    · exact absurd rfl hhead
  · exact absurd (show true = false from hlast) nofun

/-- A name with its value is read alike. -/
theorem agree_named (h : Agree all all' (fun v _ => v.IsConstant) inner inner') :
    Agree all all' (fun (f : Name × Value) (_ : Name × Option Document.Value) => f.2.IsConstant)
      (named inner) (do
        let n ← Document.name
        pure (n, ← Document.afterColon inner')) := by
  refine agree_name.bind fun n _ _ => ?_
  intro ts ts' rest rest' f g hts hts' hstep hr hr'
  obtain ⟨o, mid, ho, rfl, rfl⟩ := reads_bind.1 hr'
  have hcolon : Agree all all'
      (fun (f : Name × Value) (_ : Option Document.Value) => f.2.IsConstant)
      (mark .colon >>= fun _ => inner >>= fun v => pure (n, v)) (Document.afterColon inner') :=
    agree_mark_takeMark (h.bind fun v _ hv => agree_pure hv)
  exact hcolon hts hts' hstep hr ho

/-- The fields of an object, up to its brace, are read alike. -/
theorem agree_fields (h : AgreeOnValues all all' inner inner') (fuel fuel' : Nat) :
    Agree all all' (fun (v : Value) (_ : Document.Value) => v.IsConstant)
      (do
        let fields ← many fuel startsName (named inner)
        markOr .closeBrace (.lacks (afterNamed .closeBrace))
        pure (.object (sortFields fields)))
      (do
        let fields ← many fuel' startsName (do
          let n ← Document.name
          pure (n, ← Document.afterColon inner'))
        Document.close .closeBrace "R_CURLY"
        pure (.object fields)) := by
  intro ts ts' rest rest' v w hts hts' hstep hr hr'
  obtain ⟨fs, last, hfs, hr⟩ := reads_bind.1 hr
  obtain ⟨u, mid, hmark, rfl, rfl⟩ := reads_bind.1 hr
  obtain rfl := reads_markOr.1 hmark
  obtain ⟨gs, last', hgs, hr'⟩ := reads_bind.1 hr'
  obtain ⟨u', mid', hclose, rfl, rfl⟩ := reads_bind.1 hr'
  obtain rfl := Document.reads_close.1 hclose
  obtain ⟨hfields, hrest⟩ :=
    (agree_named h.agree).inside.many_closed (by decide) rfl rfl hts hts' hstep hfs hgs
  exact ⟨.object fun f hf => forall_mem_of_forall₂ hfields f (mem_sortFields hf), hrest⟩

/-- Values are read alike where those in them are, unless there is a variable. -/
theorem agree_valueWith (h : AgreeOnValues all all' inner inner') (fuel : Nat) (constant : Bool) :
    Agree all all' (fun v _ => v.IsConstant) (valueWith fuel constant inner)
      (Document.valueWith all'.length true inner') := by
  refine agree_current (agree_fail_left _) (fun t => ?_) fun n => agree_fail_right _
  cases t with
  | name n => exact AgreeAt.skip (agree_pure (.word n))
  | int text =>
    show AgreeAt all all' _ _ (wordOf text) _
    unfold wordOf
    split
    · exact (agree_fail_left _).at _
    · split
      · exact (agree_fail_left _).at _
      · exact AgreeAt.skip (agree_pure (.int _))
  | float text =>
    show AgreeAt all all' _ _ (floatOf text) _
    unfold floatOf
    split
    · exact AgreeAt.skip (agree_pure (.float _))
    · exact (agree_fail_left _).at _
  | string text =>
    show AgreeAt all all' _ _ (stringOf text >>= fun s => pure (Value.string s)) _
    unfold stringOf
    split
    · next s _ =>
      exact AgreeAt.skip (f := fun _ => pure (Value.string s))
        (agree_pure (Value.IsConstant.string s))
    · exact (agree_fail_left _).at _
    · exact (agree_fail_left _).at _
  | mark m =>
    cases m with
    | dollar => exact (agree_fail_right _).at _
    | openBracket => exact AgreeAt.skip (agree_items h fuel constant)
    | openBrace => exact AgreeAt.skip (agree_fields h fuel _)
    | _ => exact (agree_fail_left _).at _

/-- **Values.**  A value that a document takes where it takes no variables has none in the
fragment either. -/
theorem agree_value (fuel : Nat) (constant : Bool) (levels levels' : Nat) :
    Agree all all' (fun v _ => v.IsConstant) (value fuel constant levels)
      (Document.value all'.length true levels') := by
  have hdeep : ∀ inner : Production Value, AgreeOnValues all all' inner Document.tooDeep :=
    fun _ => ⟨agree_fail_right _, fun _ _ _ => False.elim, fun _ _ _ => id⟩
  have hinner : ∀ {inner : Production Value} {levels' : Nat},
      Agree all all' (fun v _ => v.IsConstant) inner (Document.value all'.length true levels') →
      AgreeOnValues all all' inner (Document.value all'.length true levels') := by
    intro inner levels' h
    cases levels' <;>
      exact ⟨h, fun _ _ _ => length_lt_of_reads_value, fun _ _ _ => not_reads_value_separator⟩
  induction levels generalizing levels' with
  | zero =>
    cases levels' with
    | zero => exact agree_valueWith (hdeep _) fuel constant
    | succ levels' => exact agree_valueWith (hinner (agree_fail_left _)) fuel constant
  | succ levels ih =>
    cases levels' with
    | zero => exact agree_valueWith (hdeep _) fuel constant
    | succ levels' => exact agree_valueWith (hinner (ih levels')) fuel constant

/-! ## Bare parts without variables -/

/-- Values without variables. -/
def AreConstant (vs : List Value) : Prop := ∀ v ∈ vs, v.IsConstant

/-- Values are constant if those of both parts are. -/
theorem areConstant_append {vs ws : List Value} :
    AreConstant (vs ++ ws) ↔ AreConstant vs ∧ AreConstant ws := List.forall_mem_append

/-- Whether two parts are the same when they are bare, the first of them without variables. -/
def SameBare {α β γ : Type} (bare : α → γ) (bare' : β → γ) (literals : α → List Value) (a : α)
    (b : β) : Prop :=
  bare' b = bare a ∧ AreConstant (literals a)

/-- What agrees item by item agrees as a list. -/
theorem SameBare.list {α β γ : Type} {bare : α → γ} {bare' : β → γ} {literals : α → List Value}
    {xs : List α} {ys : List β} (h : List.Forall₂ (SameBare bare bare' literals) xs ys) :
    SameBare (List.map bare) (List.map bare') (List.flatMap literals) xs ys := by
  induction h with
  | nil => exact ⟨rfl, List.forall_mem_nil _⟩
  | cons hxy _ ih =>
    refine ⟨?_, areConstant_append.2 ⟨hxy.2, ih.2⟩⟩
    rw [List.map_cons, List.map_cons, hxy.1, ih.1]

/-! ## Directives and members -/

/-- Directives, with what is given to their arguments. -/
abbrev SameDirectives : List Directive → List Document.Directive → Prop :=
  SameBare (List.map Directive.bare) (List.map Document.Directive.bare) givenValues

/-- Directives are read alike, up to the values that they are given. -/
theorem agree_directives :
    Agree all all' SameDirectives (directives all.length)
      (Document.schemaDirectives all'.length) := by
  have hvalue : Agree all all' (fun v _ => v.IsConstant) (value all.length false maxLevels)
      (Document.value all'.length true Document.maxLevels) := agree_value _ _ _ _
  have harguments : Agree all all' (fun (args : List (Name × Value))
      (_ : List (Name × Option Document.Value)) => AreConstant (args.map Prod.snd))
      (between all.length .openParen .closeParen startsName
        (named (value all.length false maxLevels)) (afterNamed .closeParen))
      (Document.arguments all'.length true Document.maxLevels) :=
    agree_between (agree_named hvalue) (by decide) (by decide) rfl rfl (List.forall_mem_nil _)
      fun xs ys hxys => List.forall_mem_map.2 (forall_mem_of_forall₂ hxys)
  refine Agree.mono (Agree.many_behind (R := SameBare Directive.bare Document.Directive.bare
    fun d => d.arguments.map Prod.snd) ?_ (by decide)) fun _ _ => SameBare.list
  exact agree_name.bind fun n _ hn =>
    harguments.bind fun args _ hargs => agree_pure ⟨by rw [← hn]; rfl, hargs⟩

/-- Reads a default value, if there is one. -/
def defaultValue (fuel : Nat) : Production (Option Value) := do
  if ← takeMark .equals then
    pure (some (← value fuel true maxLevels))
  else
    pure none

/-- An argument has its default between its type and its directives. -/
theorem inputValue_eq (fuel : Nat) : inputValue fuel = (do
    let d ← description
    let n ← name
    mark .colon
    let t ← typeRef maxLevels
    let v ← defaultValue fuel
    pure ⟨d, n, t, v, ← directives fuel⟩) := by
  have hdefault : ∀ {α : Type} (f : Option Value → Production α), (defaultValue fuel >>= f) =
      (takeMark .equals >>= fun b =>
        if b = true then value fuel true maxLevels >>= fun v => f (some v) else f none) := by
    intro α f
    refine (Rule.bind_assoc _ _ f).trans (congrArg (Rule.bind _) (funext fun b => ?_))
    cases b with
    | false => rfl
    | true => exact Rule.bind_assoc _ _ f
  simp only [hdefault]
  rfl

theorem agree_default :
    Agree all all' (fun v (_ : Option Document.Value) => AreConstant v.toList)
      (defaultValue all.length) (Document.defaultValue all'.length) := by
  refine (agree_takeMark (by decide)).bind fun b b' hb => ?_
  subst hb
  cases b with
  | false => exact agree_pure (List.forall_mem_nil _)
  | true =>
    exact (agree_value _ _ _ _).bind fun v _ hv => agree_pure (List.forall_mem_singleton.2 hv)

/-- Arguments of a definition, or fields of an input object. -/
abbrev SameInput : InputValue → Document.InputValue → Prop :=
  SameBare InputValue.bare Document.InputValue.bare InputValue.literals

/-- Arguments and the fields of input objects are read alike, up to values and descriptions. -/
theorem agree_inputValue :
    Agree all all' SameInput (inputValue all.length) (Document.inputValue all'.length) := by
  rw [inputValue_eq]
  refine agree_description.bind fun d d' _ => agree_name.bind fun n n' hn => ?_
  refine (agree_markOr _ _ _).bind fun _ _ _ => (agree_typeOr _).bind fun t t' ht => ?_
  refine agree_default.bind fun v v' hv => agree_directives.bind fun ds ds' hds => ?_
  subst hn ht
  refine agree_pure ⟨?_, areConstant_append.2 ⟨hv, hds.2⟩⟩
  rw [Document.InputValue.bare, hds.1]
  rfl

theorem agree_arguments :
    Agree all all' (SameBare (List.map InputValue.bare) (List.map Document.InputValue.bare)
        (List.flatMap InputValue.literals))
      (arguments all.length) (Document.argumentsDefinition all'.length) := by
  have hmembers : Agree all all' (fun vs (ws : Option (List Document.InputValue)) =>
      SameBare (List.map InputValue.bare) (List.map Document.InputValue.bare)
        (List.flatMap InputValue.literals) vs (ws.getD [])) (arguments all.length)
      (Document.members all'.length .openParen .closeParen "R_PAREN"
        "expected an Argument Definition" (Document.inputValue all'.length)) :=
    agree_between agree_inputValue (by decide) (by decide) rfl rfl (SameBare.list .nil)
      fun _ _ => SameBare.list
  intro ts ts' rest rest' vs ws hts hts' hstep hr hr'
  obtain ⟨o, mid, ho, rfl, rfl⟩ := reads_bind.1 hr'
  exact hmembers hts hts' hstep hr ho

/-- Fields. -/
abbrev SameField : Field → Document.Field → Prop :=
  SameBare Field.bare Document.Field.bare Field.literals

/-- Fields are read alike, up to values and descriptions. -/
theorem agree_field :
    Agree all all' SameField (field all.length) (Document.field all'.length) := by
  refine agree_description.bind fun d d' _ => agree_name.bind fun n n' hn => ?_
  refine agree_arguments.bind fun args args' hargs => (agree_markOr _ _ _).bind fun _ _ _ => ?_
  refine (agree_typeOr _).bind fun t t' ht => agree_directives.bind fun ds ds' hds => ?_
  subst hn ht
  refine agree_pure ⟨?_, areConstant_append.2 ⟨hargs.2, hds.2⟩⟩
  rw [Document.Field.bare, hds.1, hargs.1]
  rfl

/-- Values of enums, whose names are not reserved. -/
def SameEnumValue (v : EnumValue) (w : Document.EnumValue) : Prop :=
  SameBare EnumValue.bare Document.EnumValue.bare (fun v => givenValues v.directives) v w ∧
    v.name.text ∉ Document.reservedValues

theorem agree_enumValue :
    Agree all all' SameEnumValue (enumValue all.length) (Document.enumValue all'.length) := by
  refine agree_description.bind fun d d' _ => ?_
  intro ts ts' rest rest' v w hts hts' hstep hr hr'
  obtain ⟨n, mid, hn, hr⟩ := reads_bind.1 hr
  obtain rfl := reads_nameOr.1 hn
  rw [reads_current] at hr'
  rcases hstep.cases_token with ⟨tl', rfl, htl⟩ | ⟨-, tl', rfl⟩
  · dsimp only [List.head?_cons] at hr'
    split at hr'
    · exact False.elim hr'
    · next hreserved =>
      refine agree_directives.bind (fun ds ds' hds => agree_pure ?_)
        ((List.suffix_cons _ _).trans hts) ((List.suffix_cons _ _).trans hts') htl hr hr'
      refine ⟨⟨?_, hds.2⟩, hreserved⟩
      rw [Document.EnumValue.bare, hds.1]
      rfl
  · exact False.elim hr'

/-! ## Names in a row -/

/-- Names that may have a mark in front of them all. -/
theorem agree_led {m : Mark} (hm : m ≠ .ampersand) {item : Production Name}
    {item' : Document.Production Name} (h : Agree all all' (· = ·) item item')
    (things : List String) :
    Agree all all' (· = ·)
      (do
        let isLed ← takeMark m
        if isLed || startsName (← current) then
          separated all.length m item
        else
          expect things)
      (do
        let _ ← takeMark m
        separated all'.length m item') := by
  refine (agree_takeMark hm).bind fun b _ _ => ?_
  intro ts ts' rest rest' ns ns' hts hts' hstep hr hr'
  rw [reads_current] at hr
  split at hr
  · obtain ⟨hns, hrest⟩ := h.separated hm hts hts' hstep hr hr'
    exact ⟨List.forall₂_eq_eq_eq ▸ hns, hrest⟩
  · exact False.elim hr

theorem agree_unionMembers :
    Agree all all' (fun ms (ms' : Option (List Name)) => ms'.getD [] = ms)
      (unionMembers all.length) (Document.unionMembers all'.length) := by
  refine (agree_takeMark (by decide)).bind fun b b' hb => ?_
  subst hb
  cases b with
  | false => exact agree_pure rfl
  | true =>
    intro ts ts' rest rest' ms o hts hts' hstep hr hr'
    have hled := @agree_led all all' .pipe (by decide) _ _
      (agree_nameOr (.lacks ["Name"]) "expected Union Member Type") ["|", "Name"]
    obtain ⟨u, mid, hu, hr'⟩ := reads_bind.1 hr'
    obtain ⟨ns, last, hns, rfl, rfl⟩ := reads_bind.1 hr'
    obtain ⟨hms, hrest⟩ := hled hts hts' hstep hr (reads_bind.2 ⟨u, mid, hu, hns⟩)
    exact ⟨hms.symm, hrest⟩

/-- Names behind a separator each, where there is fuel for all tokens that are left.  Only where
a separator was put in does the document go on while the fragment stops. -/
theorem step_interfaces {fuel fuel' : Nat} {ts ts' rest rest' : List Token} {ns ns' : List Name}
    (hfuel : ts.length ≤ fuel) (hfuel' : ts'.length ≤ fuel') (hstep : InStep ts ts')
    (hr : (many fuel (· = some (.mark .ampersand)) (do skip; name)).Reads ts ns rest)
    (hr' : (many fuel' (· = some (.mark .ampersand))
      (do skip; nameOr "expected an Interface name")).Reads ts' ns' rest') :
    ns = ns' ∧ InStep rest rest' ∨ AtBareName rest ∨ AtSeparator rest' := by
  induction fuel generalizing fuel' ts ts' ns ns' with
  | zero =>
    obtain rfl := List.length_eq_zero_iff.1 (Nat.le_zero.1 hfuel)
    obtain rfl := hstep.nil_left
    obtain ⟨rfl, rfl⟩ := reads_many_zero.1 hr
    obtain ⟨rfl, rfl⟩ := many_stops rfl hr'
    exact Or.inl ⟨rfl, .nil⟩
  | succ fuel ih =>
    by_cases hmark : ts.head? = some (.mark .ampersand)
    -- both go on with a separator and a name
    · obtain ⟨tl, rfl⟩ := List.head?_eq_some_iff.1 hmark
      obtain ⟨tl', rfl, htl⟩ := hstep.of_token nofun
      obtain ⟨n, mid, ns, rfl, hn, hmid, hns⟩ := many_behind_mark hfuel hr
      obtain ⟨n', mid', ns', rfl, hn', hmid', hns'⟩ := many_behind_mark hfuel' hr'
      obtain rfl : tl = .name n :: mid := reads_nameOr.1 hn
      obtain rfl : tl' = .name n' :: mid' := reads_nameOr.1 hn'
      obtain ⟨_, heq, hsame⟩ := htl.of_token_right nofun
      cases heq
      refine (ih hmid hmid' hsame hns hns').imp_left ?_
      rintro ⟨rfl, hrest⟩
      exact ⟨rfl, hrest⟩
    · obtain ⟨rfl, rfl⟩ := many_stops (decide_eq_false hmark) hr
      cases hstep with
      | nil =>
        obtain ⟨rfl, rfl⟩ := many_stops rfl hr'
        exact Or.inl ⟨rfl, .nil⟩
      | token t h =>
        obtain ⟨rfl, rfl⟩ := many_stops (decide_eq_false hmark) hr'
        exact Or.inl ⟨rfl, .token t h⟩
      | gap hn h => exact Or.inr (Or.inl ⟨_, _, rfl, hn⟩)

/-- A list of interfaces goes on in the document where a separator was put in, but no fragment
goes on behind it. -/
theorem nearly_interfaces :
    Nearly all all' (· = ·) (separated all.length .ampersand name)
      (separated all'.length .ampersand (nameOr "expected an Interface name")) := by
  refine (agree_nameOr _ _).bind_nearly fun n n' hn => ?_
  intro ts ts' rest rest' ns ns' hts hts' hstep hr hr'
  obtain ⟨ms, mid, hms, rfl, rfl⟩ := reads_bind.1 hr
  obtain ⟨ms', mid', hms', rfl, rfl⟩ := reads_bind.1 hr'
  refine (step_interfaces hts.length_le hts'.length_le hstep hms hms').imp_left ?_
  rintro ⟨rfl, hrest⟩
  exact ⟨by rw [hn], hrest⟩

/-- A separator in front of all names may be there, or may have been put in; behind it tokens are
in step. -/
theorem step_lead {ts ts' mid mid' : List Token} {b b' : Bool} (hstep : InStep ts ts')
    (hr : (takeMark .ampersand : Production Bool).Reads ts b mid)
    (hr' : (takeMark .ampersand : Document.Production Bool).Reads ts' b' mid') :
    InStep mid mid' := by
  rcases reads_takeMark.1 hr with ⟨-, rfl⟩ | ⟨-, hhead, rfl⟩
  · obtain ⟨tl, rfl, htl⟩ := hstep.of_token (by simp)
    rcases reads_takeMark.1 hr' with ⟨-, heq⟩ | ⟨-, hhead, -⟩
    · cases heq
      exact htl
    · exact absurd rfl hhead
  · rcases reads_takeMark.1 hr' with ⟨-, rfl⟩ | ⟨-, -, rfl⟩
    · cases hstep with
      | token => exact absurd rfl hhead
      | gap hn h => exact .token _ h
    · exact hstep

theorem nearly_implements :
    Nearly all all' (fun is (is' : Option (List Name)) => is'.getD [] = is)
      (implements all.length) (Document.implements all'.length) := by
  intro ts ts' rest rest' is is' hts hts' hstep hr hr'
  rw [implements, reads_bind] at hr
  rw [Document.implements, reads_bind] at hr'
  obtain ⟨b, mid, hb, hr⟩ := hr
  obtain ⟨b', mid', hb', hr'⟩ := hr'
  rcases reads_takeWord.1 hb with ⟨rfl, w, hw, rfl⟩ | ⟨rfl, hword, rfl⟩
  · rcases hstep.cases_token with ⟨tl', rfl, htl⟩ | ⟨-, tl', rfl⟩
    · rcases reads_takeWord.1 hb' with ⟨rfl, w', -, heq⟩ | ⟨-, hword, -⟩
      · cases heq
        rw [if_pos rfl] at hr hr'
        obtain ⟨lead, next, hlead, hr⟩ := reads_bind.1 hr
        obtain ⟨lead', next', hlead', hr'⟩ := reads_bind.1 hr'
        obtain ⟨ns, last, hns, rfl, rfl⟩ := reads_bind.1 hr'
        have hsuffix := hlead.isSuffix.trans ((List.suffix_cons _ _).trans hts)
        have hsuffix' := hlead'.isSuffix.trans ((List.suffix_cons _ _).trans hts')
        have hnext := step_lead htl hlead hlead'
        refine (nearly_interfaces hsuffix hsuffix' hnext hr hns).imp_left ?_
        rintro ⟨rfl, hrest⟩
        exact ⟨rfl, hrest⟩
      · exact absurd hw (hword w rfl)
    · rcases reads_takeWord.1 hb' with ⟨-, w', -, heq⟩ | ⟨rfl, -, rfl⟩
      · cases heq
      · obtain ⟨rfl, rfl⟩ := hr'
        exact Or.inr (Or.inr ⟨_, rfl⟩)
  · obtain ⟨rfl, rfl⟩ := hr
    rcases reads_takeWord.1 hb' with ⟨-, w', hw', rfl⟩ | ⟨rfl, -, rfl⟩
    · obtain ⟨tl, rfl, -⟩ := hstep.of_token_right (by simp)
      exact absurd hw' (hword w' rfl)
    · obtain ⟨rfl, rfl⟩ := hr'
      exact Or.inl ⟨rfl, hstep⟩

end

end Fragment

end SchemaCatalog
