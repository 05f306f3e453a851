/-
# What an entry says of its type

An entry is compared with the nodes that speak of its type.  The first node tells the kind
and the description, and which list the entry has; every node with a list of that kind adds
to it.  A field keeps what is written of it.
-/
import Mathlib.Data.List.Forall2
import SchemaCatalog.Proofs.Mentions

namespace SchemaCatalog

open Document (Definition Directive Field InputValue Content TypeNode Outline nodesOf typeNames)

/-! ## How types are used -/

/-- The marks of a reference, from the outermost layer to the name: whether each layer is
required. -/
def TypeRef.marks : TypeRef → List Bool
  | named _ r => [r]
  | list t r => r :: t.marks

/-- What is known of the use of a type: the name inside all lists, whether the outermost
layer may be null, whether there are lists, and whether anything inside them is required. -/
structure TypeUse.Describes (u : TypeUse) (t : TypeRef) : Prop where
  typeName : u.typeName = t.innermost.text
  isNullable : u.isNullable = !t.isRequired
  isList : u.isList = true ↔ 0 < t.depth
  hasRequiredElements : u.hasRequiredElements = true ↔ true ∈ t.marks.tail

/-- Inside a list a walk only looks for marks and for the name. -/
theorem Layer.foldl_step_inside (t : TypeRef) (w : Walk) (hlist : w.insideList = true)
    (htop : w.atTop = false) (hname : w.typeName = none) :
    (ofTypeRef t).foldl Walk.step w =
      { w with
        requiredInside := w.requiredInside || t.marks.contains true
        typeName := some t.innermost.text } := by
  induction t generalizing w with
  | named n r =>
    cases r <;>
      simp [ofTypeRef, ofMark, Walk.step, TypeRef.marks, TypeRef.innermost, hlist, htop, hname]
  | list t r ih =>
    cases r <;>
      simp [ofTypeRef, ofMark, Walk.step, TypeRef.marks, TypeRef.innermost, hlist, htop, hname, ih]

/-- The use of a type is described as its reference is written. -/
theorem TypeUse.describes_ofTypeRef (t : TypeRef) : (TypeUse.ofTypeRef t).Describes t := by
  cases t with
  | named n r =>
    cases r <;> constructor <;>
      simp [ofTypeRef, Layer.describe, Layer.ofTypeRef, Layer.ofMark, Layer.Walk.start,
        Layer.Walk.step, Layer.Walk.found, TypeRef.innermost, TypeRef.isRequired, TypeRef.depth,
        TypeRef.marks]
  | list t r =>
    -- the outermost mark, if there is one, and the list lead inside
    let inside : Layer.Walk := ⟨false, true, r, false, none⟩
    have hwalk : (Layer.ofTypeRef (.list t r)).foldl Layer.Walk.step .start =
        (Layer.ofTypeRef t).foldl Layer.Walk.step inside := by
      cases r <;> rfl
    have huse : TypeUse.ofTypeRef (.list t r) =
        ⟨t.innermost.text, !r, true, t.marks.contains true⟩ := by
      rw [ofTypeRef, Layer.describe, hwalk, Layer.foldl_step_inside t inside rfl rfl rfl]
      simp [Layer.Walk.found, inside]
    rw [huse]
    constructor <;>
      simp [TypeRef.innermost, TypeRef.isRequired, TypeRef.depth, TypeRef.marks]

/-! ## Fields -/

/-- A field as it is written in a node: of an object or an interface, or of an input
object. -/
inductive FieldNode where
  | output (f : Field)
  | input (v : InputValue)

namespace FieldNode

def name : FieldNode → Name
  | output f => f.name
  | input v => v.name

def type : FieldNode → TypeRef
  | output f => f.type
  | input v => v.type

/-- The arguments of a field.  A field of an input object takes none. -/
def arguments : FieldNode → List InputValue
  | output f => f.arguments
  | input _ => []

def directives : FieldNode → List Directive
  | output f => f.directives
  | input v => v.directives

/-- The entry of a field. -/
def entry : FieldNode → FieldEntry
  | output f => .ofField f
  | input v => .ofInputValue v

end FieldNode

/-- An entry of an argument says what is written of it. -/
structure ArgumentEntry.Records (e : ArgumentEntry) (v : InputValue) : Prop where
  name : e.name = v.name.text
  type : e.type.Describes v.type
  isDeprecated : e.isDeprecated = true ↔ ∃ d ∈ v.directives, d.name.text = "deprecated"

/-- An entry of a field says what is written of it. -/
structure FieldEntry.Records (e : FieldEntry) (f : FieldNode) : Prop where
  name : e.name = f.name.text
  type : e.type.Describes f.type
  /-- The arguments come in the order in which they are written. -/
  arguments : List.Forall₂ ArgumentEntry.Records e.arguments f.arguments
  isDeprecated : e.isDeprecated = true ↔ ∃ d ∈ f.directives, d.name.text = "deprecated"

/-- Something is deprecated if one of its directives is called so. -/
theorem marksDeprecated_iff (ds : List Directive) :
    marksDeprecated ds = true ↔ ∃ d ∈ ds, d.name.text = "deprecated" := by
  simp [marksDeprecated]

/-- Where every item is recorded, the items of a list are, each at its place. -/
theorem forall₂_map_left {α β : Type} {r : β → α → Prop} {f : α → β} (h : ∀ x, r (f x) x)
    (xs : List α) : List.Forall₂ r (xs.map f) xs :=
  List.forall₂_map_left_iff.2 (List.forall₂_same.2 fun x _ => h x)

/-- The entry of an argument records its name and how its type is used. -/
theorem ArgumentEntry.records_ofInputValue (v : InputValue) :
    (ArgumentEntry.ofInputValue v).Records v where
  name := rfl
  type := TypeUse.describes_ofTypeRef v.type
  isDeprecated := marksDeprecated_iff v.directives

/-- The entry of a field records it, whichever kind of field it is. -/
theorem FieldNode.records_entry (f : FieldNode) : f.entry.Records f := by
  cases f with
  | output f =>
    exact ⟨rfl, TypeUse.describes_ofTypeRef f.type,
      forall₂_map_left ArgumentEntry.records_ofInputValue f.arguments,
      marksDeprecated_iff f.directives⟩
  | input v =>
    exact ⟨rfl, TypeUse.describes_ofTypeRef v.type, .nil, marksDeprecated_iff v.directives⟩

/-! ## Nodes -/

namespace Document.Content

/-- The fields that a node adds to its type, in order. -/
def fieldNodes : Content → List FieldNode
  | .object _ fs | .interface _ fs => fs.map .output
  | .inputObject vs => vs.map .input
  | .enum _ | .scalar | .union _ => []

/-- The names of the values that a node adds to its type, in order. -/
def valueNames : Content → List String
  | .enum vs => vs.map (·.name.text)
  | .inputObject _ | .interface _ _ | .object _ _ | .scalar | .union _ => []

/-- The names of the members that a node adds to its type, in order. -/
def memberNames : Content → List String
  | .union ms => ms.map Name.text
  | .enum _ | .inputObject _ | .interface _ _ | .object _ _ | .scalar => []

/-- A node gives fields if its shape has any. -/
theorem fieldsOf?_eq (c : Content) :
    fieldsOf? c = if c.shape.hasFields then some (c.fieldNodes.map FieldNode.entry) else none := by
  cases c <;> simp [fieldsOf?, shape, Shape.hasFields, fieldNodes, FieldNode.entry]

theorem valuesOf?_eq (c : Content) :
    valuesOf? c = if c.shape = .enum then some c.valueNames else none := by
  cases c <;> simp [valuesOf?, shape, valueNames]

theorem membersOf?_eq (c : Content) :
    membersOf? c = if c.shape = .union then some c.memberNames else none := by
  cases c <;> simp [membersOf?, shape, memberNames]

theorem fieldNodes_eq_nil {c : Content} (h : ¬c.shape.hasFields = true) : c.fieldNodes = [] := by
  cases c <;> first | rfl | exact absurd rfl h

theorem valueNames_eq_nil {c : Content} (h : ¬c.shape = .enum) : c.valueNames = [] := by
  cases c <;> first | rfl | exact absurd rfl h

theorem memberNames_eq_nil {c : Content} (h : ¬c.shape = .union) : c.memberNames = [] := by
  cases c <;> first | rfl | exact absurd rfl h

end Document.Content

/-- What all nodes contribute to a list that the nodes of some shapes have, if the first
node has one of these shapes. -/
theorem gatherFor_eq {α : Type} {part : Content → Option (List α)} (has : Shape → Prop)
    [DecidablePred has] {items : Content → List α}
    (hpart : ∀ c, part c = if has c.shape then some (items c) else none)
    (hnone : ∀ {c}, ¬has c.shape → items c = []) (d : Document.Declaration) :
    gatherFor part d =
      if has d.primary.content.shape then d.nodes.flatMap (items ·.content) else [] := by
  have hgather : ∀ ns : List TypeNode, gather part ns = ns.flatMap (items ·.content) := by
    intro ns
    induction ns with
    | nil => rfl
    | cons n ns ih =>
      rw [List.flatMap_cons, ← ih, gather, gather, List.filterMap_cons, hpart]
      -- a node without such a list is passed over, and has no items
      by_cases hc : has n.content.shape
      · simp [hc]
      · simp [hc, hnone]
  rw [gatherFor, hgather, hpart]
  split <;> rfl

/-! ## Entries -/

/-- An entry gathers what the nodes of its type say, before other types are taken into
account.  The first node tells which list the entry has. -/
structure TypeEntry.Gathers (r : TypeEntry) (first : TypeNode) (others : List TypeNode) :
    Prop where
  kind : r.kind = first.kind
  description : r.description = first.description
  /-- An addition describes nothing. -/
  undescribed : first.isExtension = true → r.description = none
  fields : List.Forall₂ FieldEntry.Records r.fields
    (if first.content.shape.hasFields then
      (first :: others).flatMap fun n => n.content.fieldNodes
    else [])
  values : r.values =
    if first.content.shape = .enum then
      (first :: others).flatMap fun n => n.content.valueNames
    else []
  unionMembers : r.unionMembers =
    if first.content.shape = .union then
      (first :: others).flatMap fun n => n.content.memberNames
    else []
  /-- Interfaces count whatever the shapes of the nodes are. -/
  interfaces : r.interfaces =
    (first :: others).flatMap fun n => n.content.interfaces.map Name.text

/-- The fields of an entry, if it has a list of them, are those that its nodes write. -/
theorem TypeEntry.fields_ofDeclaration (d : Document.Declaration) :
    (TypeEntry.ofDeclaration d).fields =
      if d.primary.content.shape.hasFields then
        (d.nodes.flatMap (·.content.fieldNodes)).map FieldNode.entry
      else [] := by
  have hfields := gatherFor_eq (·.hasFields = true) Content.fieldsOf?_eq
    (fun h => congrArg (List.map FieldNode.entry) (Content.fieldNodes_eq_nil h)) d
  rw [List.map_flatMap]
  exact hfields

/-- The entry of a declaration gathers what its nodes say. -/
theorem TypeEntry.gathers_ofDeclaration (d : Document.Declaration) :
    (TypeEntry.ofDeclaration d).Gathers d.primary d.additions where
  kind := rfl
  description := rfl
  undescribed := by
    intro h
    show d.primary.description = none
    unfold TypeNode.isExtension at h
    unfold TypeNode.description
    cases hrole : d.primary.role with
    | definition text => simp [hrole] at h
    | extension => rfl
  fields := by
    rw [fields_ofDeclaration]
    split
    · exact forall₂_map_left FieldNode.records_entry _
    · exact .nil
  values := gatherFor_eq (· = .enum) Content.valuesOf?_eq Content.valueNames_eq_nil d
  unionMembers := gatherFor_eq (· = .union) Content.membersOf?_eq Content.memberNames_eq_nil d
  interfaces := rfl

/-- **What entries say.**  A catalogued document has an entry for each type that it speaks
of, and what the entry says, before it is linked to others, is what the nodes of the type
say: nothing is lost, made up, put in another order or moved to another list. -/
theorem entriesOf_exact {ds : List Definition} {o : Outline}
    (h : Outline.ofDefinitions ds = .ok o) :
    (entriesOf o).keys = (typeNames ds).eraseDups ∧
    ∀ name first others, nodesOf name ds = first :: others →
      (∀ n ∈ others, n.isExtension = true) ∧
      ∃ r, (entriesOf o).get? name = some r ∧ r.Gathers first others := by
  have ho : o.Holds ds := (Outline.holds_of_ofDefinitions h).2
  refine ⟨by rw [entriesOf, Table.keys_mapWithKey, ho.keys], ?_⟩
  intro name first others hnodes
  have hname : name ∈ typeNames ds := by
    by_contra hn
    rw [Document.nodesOf_eq_nil hn] at hnodes
    cases hnodes
  obtain ⟨d, hd⟩ := Option.isSome_iff_exists.1 ((ho.get?_isSome_iff name).2 hname)
  have hall : d.primary :: d.additions = first :: others := (ho.nodes name d hd).trans hnodes
  obtain ⟨rfl, rfl⟩ := List.cons.inj hall
  refine ⟨ho.additions name d hd, .ofDeclaration d, ?_, TypeEntry.gathers_ofDeclaration d⟩
  rw [entriesOf, Table.get?_mapWithKey, hd]
  rfl

/-- A type is declared as an enum and extended as an object and as an enum again. -/
theorem entriesOf_of_reshaped_type :
    let t : Name := ⟨"T", by decide⟩
    let a : Name := ⟨"A", by decide⟩
    let b : Name := ⟨"B", by decide⟩
    let field : Field := ⟨none, a, [], .list (.named b true) false, []⟩
    let first : TypeNode := ⟨.definition (some "It."), t, [], .enum [⟨none, a, []⟩]⟩
    let second : TypeNode := ⟨.extension, t, [], .object [b, b] [field]⟩
    let third : TypeNode := ⟨.extension, t, [], .enum [⟨none, a, []⟩, ⟨none, b, []⟩]⟩
    let ds : List Definition := [.type first, .type second, .aside .operation, .type third]
    let r : TypeEntry := ⟨.definition .enum, some "It.", [], ["A", "A", "B"], [], ["B", "B"]⟩
    let o : Outline := ⟨none, [], ⟨[("T", ⟨first, [second, third]⟩)], by decide⟩⟩
    Outline.ofDefinitions ds = .ok o ∧ nodesOf "T" ds = [first, second, third] ∧
      (entriesOf o).get? "T" = some r ∧ r.Gathers first [second, third] := by
  intro t a b field first second third ds r o
  have ho : Outline.ofDefinitions ds = .ok o := by rfl
  have hnodes : nodesOf "T" ds = [first, second, third] := by rfl
  have hget : (entriesOf o).get? "T" = some r := by rfl
  obtain ⟨-, s, hs, hgathers⟩ := (entriesOf_exact ho).2 "T" first [second, third] hnodes
  have hr : s = r := Option.some.inj (hs.symm.trans hget)
  subst hr
  exact ⟨ho, hnodes, hget, hgathers⟩

end SchemaCatalog
