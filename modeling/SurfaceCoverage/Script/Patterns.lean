import SurfaceCoverage.Script.Types
/-!
# Patterns and parameters

What a declaration, a parameter or an assignment binds. Only the target of an assignment may be a
member of a value.
-/

namespace SurfaceCoverage.Script

open Reader

/-- An equals sign that is no part of a longer mark. -/
def equals : Forest := punctNot "=" ['=', '>']

/-- `= value` -/
def initializer (r : Rules) (place : Place) : Forest :=
  equals ++ inRole .value (r (.value place))

/-- The word of a binding. -/
def bindingName : Forest :=
  wordLeaf .undefinedValue "undefined" <|> anyWord .identifier

def restPattern (r : Rules) (target : Bool) : Forest :=
  node .restPattern (punct "..." ++ r (.pattern target))

/-- A pattern, perhaps with a value for when nothing is bound. -/
def patternWithDefault (r : Rules) (target : Bool) : Forest := do
  let (space, n) ← single (r (.pattern target))
  let default ← equals ++ r (.value .inner) <|> nothing
  if default.isEmpty then return space ++ [n]
  else return space ++ [.branch .none .assignmentPattern (n.withRole .left :: default)]

def objectPatternMember (r : Rules) (target : Bool) : Forest :=
  restPattern r target <|>
  node .pairPattern (inRole .key (propertyName r) ++ punct ":" ++
    inRole .value (patternWithDefault r target)) <|>
  node .objectAssignmentPattern (inRole .left (anyWord .shorthandPropertyIdentifierPattern) ++
    equals ++ r (.value .inner)) <|>
  anyWord .shorthandPropertyIdentifierPattern

def destructuringPattern (r : Rules) (target : Bool) : Forest :=
  node .objectPattern (punct "\x7b" ++ looseList (objectPatternMember r target) ++ punct "\x7d") <|>
  node .arrayPattern (punct "[" ++
    looseList (restPattern r target <|> patternWithDefault r target) ++ punct "]")

/-- A place that can be assigned: a word, a member or an element. -/
def assignable (n : Node) : Bool :=
  [Kind.identifier, .undefinedValue, .memberExpression, .subscriptExpression,
    .nonNullExpression].contains n.kind

/-- A member or an element of an assigned place. -/
def targetSuffix (r : Rules) (n : Node) : Reader Node := do
  let dot ← optional (punctNot "." ['.'])
  let more ← if dot.isEmpty then punct "[" ++ inRole .index (values r .inner) ++ punct "]"
    else inRole .property (privateName <|> anyWord .propertyIdentifier)
  let kind := if dot.isEmpty then Kind.subscriptExpression else .memberExpression
  return .branch .none kind (n.withRole .object :: dot ++ more)

/-- A word, a member or an element that an assignment can change. -/
def assignmentTarget (r : Rules) : Forest := do
  let (space, n) ← single (wordLeaf .thisValue "this" <|> bindingName)
  let n ← extend (targetSuffix r) n
  if assignable n then return space ++ [n] else refuse

def pattern (r : Rules) (target : Bool) : Forest :=
  destructuringPattern r target <|> if target then assignmentTarget r else bindingName

/-! ## Parameters -/

def decorator (r : Rules) : Forest :=
  node .decorator (punct "@" ++ (parenthesized r <|> do
    let (space, n) ← single (anyWord .identifier)
    let n ← extend (fun n => do
        let dot ← punctNot "." ['.']
        let name ← inRole .property (anyWord .propertyIdentifier)
        return .branch .none .memberExpression (n.withRole .object :: dot ++ name)) n
    let call ← optional (inRole .typeArguments (typeArguments r)) ++
      inRole .arguments (node .arguments (punct "(" ++ looseList (r (.value .inner)) ++ punct ")")) <|> nothing
    if call.isEmpty then return space ++ [n]
    else return space ++ [.branch .none .callExpression (n.withRole .function :: call)]))

/-- Whether a parameter's own name or pattern starts here. -/
def startsPattern (cs : List Char) : Bool :=
  begins "\x7b" cs || begins "[" cs || 0 < wordLength cs

def parameterModifiers : Forest :=
  optional (["public", "private", "protected"].foldr
    (fun s p => node .accessibilityModifier (word s) ++ checkAhead startsPattern <|> p) refuse) ++
  optional (node .overrideModifier (word "override") ++ checkAhead startsPattern) ++
  optional (word "readonly" ++ checkAhead startsPattern)

def parameter (r : Rules) : Forest := do
  let space ← gaps
  let binding ← many (decorator r) ++ parameterModifiers ++
    inRole .pattern (restPattern r false <|> wordLeaf .thisValue "this" <|> r (.pattern false))
  let mark ← optional (punct "?")
  let more ← optional (inRole .type (typeAscription r false)) ++ optional (initializer r .inner)
  let kind := if mark.isEmpty then Kind.requiredParameter else .optionalParameter
  return space ++ [.branch .none kind (binding ++ mark ++ more)]

def parameters (r : Rules) : Forest :=
  node .formalParameters (punct "(" ++ optional (closedList (parameter r)) ++ punct ")")

end SurfaceCoverage.Script
