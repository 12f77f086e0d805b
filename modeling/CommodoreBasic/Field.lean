import CommodoreBasic.Text.WhiteSpace

/-!
# Fields

The text of a DATA statement and the reply to INPUT are fields between commas. A field in
quotation marks keeps its blanks and may hold commas; what follows its closing mark is ignored.
-/

namespace CommodoreBasic

/-- A field, with or without quotation marks. -/
inductive Field where
  | quoted (text : String)
  | bare (text : String)
deriving DecidableEq, Repr

namespace Field

/-- The text of a field without its quotation marks. -/
def text : Field → String
  | quoted s => s
  | bare s => s

/-- Where in a field a reader stands: in a bare one, between quotation marks, or after them. -/
inductive Place where
  | bare
  | inside
  | closed
deriving DecidableEq, Repr

/-- The field that ends at `place`, from its characters in reverse. Bare fields lose the white space
around them. -/
def ofReversed (place : Place) (reversed : List Char) : Field :=
  match place with
  | .bare => bare (String.ofList (Text.trim reversed.reverse))
  | .inside | .closed => quoted (String.ofList reversed.reverse)

/-- The fields of `cs`, read from `place` with the characters `reversed` of the field so far. A
quotation mark opens a field only if nothing but white space precedes it there. -/
def splitFrom (place : Place) (reversed : List Char) : List Char → List Field
  | [] => [ofReversed place reversed]
  | c :: cs =>
    match place with
    | .inside =>
      if c == Text.quotationMark then splitFrom .closed reversed cs
      else splitFrom .inside (c :: reversed) cs
    | .closed =>
      if c == ',' then ofReversed .closed reversed :: splitFrom .bare [] cs
      else splitFrom .closed reversed cs
    | .bare =>
      if c == Text.quotationMark && reversed.all Text.isWhiteSpace then splitFrom .inside [] cs
      else if c == ',' then ofReversed .bare reversed :: splitFrom .bare [] cs
      else splitFrom .bare (c :: reversed) cs

/-- The fields of a text. -/
def split (s : String) : List Field := splitFrom .bare [] s.toList

/-- Every text has at least one field. -/
theorem splitFrom_ne_nil (place : Place) (reversed cs : List Char) :
    splitFrom place reversed cs ≠ [] := by
  induction cs generalizing place reversed with
  | nil => simp [splitFrom]
  | cons c cs ih => cases place <;> grind [splitFrom]

end Field

end CommodoreBasic
