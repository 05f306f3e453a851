/-
# Names

The words that a schema gives to its types, fields, arguments and values.  A
`Name` carries the proof that its text is one, so that whatever holds a `Name`
holds a word of the schema language and nothing else.
-/

namespace SchemaCatalog

/-! ## The characters of a name -/

/-- A name starts with a letter or an underscore. -/
def isNameStart (c : Char) : Bool :=
  c.isAlpha || c == '_'

/-- A name goes on with letters, digits and underscores. -/
def isNameContinue (c : Char) : Bool :=
  c.isAlphanum || c == '_'

/-- Whether a text is a name. -/
def isName : List Char → Bool
  | [] => false
  | c :: cs => isNameStart c && cs.all isNameContinue

/-- A name is not empty. -/
theorem ne_nil_of_isName {cs : List Char} (h : isName cs = true) : cs ≠ [] := by
  rintro rfl
  simp [isName] at h

/-! ## Names -/

/-- A word of the schema language. -/
structure Name where
  /-- How the name is written. -/
  text : String
  /-- The text is that of a name. -/
  isName_text : isName text.toList = true
  deriving DecidableEq

namespace Name

/-- The name with a given text, if that text is one. -/
def ofText? (text : String) : Option Name :=
  if h : isName text.toList = true then some ⟨text, h⟩ else none

/-- Names are told apart by their texts. -/
theorem ext_text {a b : Name} (h : a.text = b.text) : a = b := by
  cases a; cases b; cases h; rfl

/-- Reading a name's text gives the name. -/
theorem ofText?_text (n : Name) : ofText? n.text = some n := by
  simp [ofText?, n.isName_text]

/-- No name has an empty text. -/
theorem text_ne_empty (n : Name) : n.text ≠ "" := by
  intro h
  apply ne_nil_of_isName n.isName_text
  rw [h]
  rfl

instance : ToString Name := ⟨Name.text⟩

end Name

end SchemaCatalog
