import SurfaceCoverage.Script.Token
/-!
# Goals of the grammar

What a rule of the grammar can ask another rule for. The rules are written over a function that
reads each goal, so that each family of rules stands on its own, and `Script` ties the knot.
-/

namespace SurfaceCoverage.Script

open Reader

/-- Where an expression stands: `relation` when the word `in` may join operands, `ending` when a
line break may end the statement around it. -/
structure Place where
  relation : Bool
  ending : Bool

/-- Between brackets, where every operator may stand and no statement ends. -/
def Place.inner : Place := ⟨true, false⟩

/-- Directly in a statement. -/
def Place.statement : Place := ⟨true, true⟩

/-- What a rule of the grammar can ask for. -/
inductive Goal where
  | statement
  | block
  | value (place : Place)
  | operand (place : Place) (level : Nat)
  | unary (place : Place)
  | type (ending : Bool)
  | typeOperand (ending : Bool)
  | parameters
  | pattern (target : Bool)
  | element
  | classBody

/-- A way to read each goal. -/
abbrev Rules := Goal → Forest

/-! ## Lists -/

/-- Items with commas between them, at least one. -/
def commaList (p : Forest) : Forest := p ++ many (punct "," ++ p)

/-- Items with commas between them, where items may be left out. -/
def looseList (p : Forest) : Forest := optional p ++ many (punct "," ++ optional p)

/-- At least one item, with commas between them and perhaps after the last. -/
def closedList (p : Forest) : Forest := commaList p ++ optional (punct ",")

/-- One or more expressions with commas between them. -/
def values (r : Rules) (place : Place) : Forest := do
  let (space, first) ← single (r (.value place))
  let more ← many (punct "," ++ r (.value place))
  if more.isEmpty then return space ++ [first]
  else return space ++ [.branch .none .sequenceExpression (first :: more)]

/-- One or more expressions in a part of their parent. -/
def parenthesized (r : Rules) : Forest :=
  node .parenthesizedExpression (punct "(" ++ values r .inner ++ punct ")")

/-- The name of a member: a word, a private name, a string, a number or an expression in
brackets. -/
def propertyName (r : Rules) : Forest :=
  anyWord .propertyIdentifier <|> privateName <|> string <|> number <|>
    node .computedPropertyName (punct "[" ++ r (.value .inner) ++ punct "]")

/-- Whether the name of a member starts here. -/
def startsName : List Char → Bool
  | [] => false
  | c :: cs =>
    c == '"' || c == '\'' || c == '[' || c == '#' || c.isDigit || 0 < wordLength (c :: cs)

/-- A word that stands before the name of a member on the same line. -/
def modifier (s : String) : Forest :=
  word s ++ sameLine ++ checkAhead fun cs => startsName cs || begins "*" cs

/-- A named node for a word that stands before the name of a member on the same line. -/
def modifierNode (kind : Kind) (words : List String) : Forest :=
  words.foldr (fun s p => node kind (word s) ++ sameLine ++ checkAhead startsName <|> p) refuse

/-- The star of a generator. -/
def star : Forest := punctNot "*" ['*', '=']

end SurfaceCoverage.Script
