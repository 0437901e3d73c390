import SurfaceCoverage.Script.Elements
/-!
# Expressions

Operators bind by level, the tightest last. A line break before an operator that could also begin
a statement ends the expression where a statement may end.
-/

namespace SurfaceCoverage.Script

open Reader

/-- Words that are no values. -/
def reservedWords : List String :=
  ["await", "break", "case", "catch", "class", "const", "continue", "debugger", "default",
    "delete", "do", "else", "enum", "export", "extends", "finally", "for", "function", "if",
    "import", "in", "instanceof", "new", "return", "super", "switch", "this", "throw", "try",
    "typeof", "var", "void", "while", "with", "yield", "null", "true", "false", "undefined"]

def identifier : Forest := wordExcept reservedWords .identifier

/-! ## Functions -/

def functionBody (r : Rules) : Forest := inRole .body (r .block)

/-- The words before a method's name. -/
def methodModifiers : Forest :=
  optional (modifierNode .accessibilityModifier ["public", "private", "protected"]) ++
  optional (modifier "static") ++
  optional (modifierNode .overrideModifier ["override"]) ++
  optional (modifier "readonly") ++
  optional (modifier "async") ++
  optional (modifier "get" <|> modifier "set" <|> star)

def methodDefinition (r : Rules) : Forest :=
  node .methodDefinition (methodModifiers ++ inRole .name (propertyName r) ++ optional (punct "?") ++
    callSignature r false ++ functionBody r)

/-- A function, or a generator, as a value. -/
def functionExpression (r : Rules) : Forest := do
  let space ← gaps
  let words ← optional (word "async" ++ sameLine) ++ word "function"
  let generator ← optional star
  let more ← optional (inRole .name (anyWord .identifier)) ++ callSignature r false ++ functionBody r
  let kind := if generator.isEmpty then Kind.functionExpression else .generatorFunction
  return space ++ [.branch .none kind (words ++ generator ++ more)]

def arrowBody (r : Rules) (place : Place) : Forest :=
  inRole .body (r .block <|> r (.value place))

def arrowFunction (r : Rules) (place : Place) : Forest :=
  node .arrowFunction (
    (inRole .parameter identifier ++ arrow <|>
      callSignature r false ++ arrow <|>
      word "async" ++ sameLine ++ inRole .parameter identifier ++ arrow <|>
      word "async" ++ sameLine ++ callSignature r false ++ arrow) ++
    arrowBody r place)

/-! ## Classes -/

def extendsClause (r : Rules) : Forest :=
  node .extendsClause (word "extends" ++ commaList (r (.unary .inner) ++ optional (typeArguments r)))

def implementsClause (r : Rules) : Forest :=
  node .implementsClause (word "implements" ++ commaList (r (.type false)))

def classHeritage (r : Rules) : Forest :=
  node .classHeritage (extendsClause r ++ optional (implementsClause r) <|> implementsClause r)

/-- A class from its keyword on, with its name or without. -/
def classParts (r : Rules) : Forest :=
  word "class" ++
  optional (inRole .name (wordExcept ["extends", "implements"] .typeIdentifier)) ++
  optional (typeParameters r) ++ optional (classHeritage r) ++ inRole .body (r .classBody)

/-! ## Literals -/

def spreadElement (r : Rules) : Forest :=
  node .spreadElement (punct "..." ++ r (.value .inner))

def objectMember (r : Rules) : Forest :=
  spreadElement r <|>
  methodDefinition r <|>
  node .pair (inRole .key (propertyName r) ++ punct ":" ++ inRole .value (r (.value .inner))) <|>
  anyWord .shorthandPropertyIdentifier

def object (r : Rules) : Forest :=
  node .object (punct "\x7b" ++ looseList (objectMember r) ++ punct "\x7d")

def array (r : Rules) : Forest :=
  node .array (punct "[" ++ looseList (spreadElement r <|> r (.value .inner)) ++ punct "]")

def templateString (r : Rules) : Forest :=
  template .templateString
    (node .templateSubstitution (mark "$" ++ mark "\x7b" ++ values r .inner ++ punct "\x7d"))

/-- Parentheses, perhaps with a type behind the value. -/
def parenthesizedValue (r : Rules) : Forest :=
  node .parenthesizedExpression (punct "(" ++ values r .inner ++
    optional (inRole .type (typeAscription r false)) ++ punct ")")

def arguments (r : Rules) : Forest :=
  node .arguments (punct "(" ++ looseList (spreadElement r <|> r (.value .inner)) ++ punct ")")

/-! ## Primary expressions and their suffixes -/

def metaProperty : Forest :=
  node .metaProperty (word "new" ++ punctNot "." ['.'] ++ word "target" <|>
    word "import" ++ punctNot "." ['.'] ++ word "meta")

def primary (r : Rules) : Forest :=
  wordLeaf .thisValue "this" <|> wordLeaf .superValue "super" <|> wordLeaf .nullValue "null" <|>
  wordLeaf .trueValue "true" <|> wordLeaf .falseValue "false" <|>
  wordLeaf .undefinedValue "undefined" <|>
  parenthesizedValue r <|> string <|> templateString r <|> number <|> object r <|> array r <|>
  functionExpression r <|>
  node .classExpression (many (decorator r) ++ classParts r) <|>
  metaProperty <|>
  wordLeaf .importCallee "import" ++ checkAhead (begins "(") <|>
  only .tsx ++ r .element <|>
  regex <|>
  privateName <|>
  identifier

/-- A dot or a question mark and a dot, for a member. -/
def memberMark : Forest :=
  node .optionalChain (leaf .token fun cs =>
    match behind? cs "?.".toList with
    | some (c :: _) => if c.isDigit then 0 else 2
    | some [] => 2
    | none => 0) <|>
  punctNot "." ['.']

/-- A member, an element, a call or a template behind a value; `calls` when calls may follow. -/
def suffix (r : Rules) (place : Place) (calls : Bool) (n : Node) : Reader Node := do
  let object := n.withRole .object
  let callee := n.withRole .function
  let dot ← optional memberMark
  let chained := dot.any (·.kind == .optionalChain)
  let name ← if dot.isEmpty then nothing else
    optional (inRole .property (privateName <|> anyWord .propertyIdentifier))
  if !name.isEmpty then return .branch .none .memberExpression (object :: dot ++ name)
  if !dot.isEmpty && !chained then refuse
  let index ← optional (punct "[" ++ inRole .index (values r .inner) ++ punct "]")
  if !index.isEmpty then return .branch .none .subscriptExpression (object :: dot ++ index)
  if calls then
    let types ← optional (inRole .typeArguments (typeArguments r) ++ checkAhead (begins "("))
    let call ← optional (inRole .arguments (arguments r))
    if !call.isEmpty then return .branch .none .callExpression (callee :: dot ++ types ++ call)
  if chained then refuse
  let text ← optional (inRole .arguments (templateString r))
  if !text.isEmpty then
    if calls then return .branch .none .callExpression (callee :: text) else refuse
  let stay ← if place.ending then sameLine else nothing
  let bang ← optional (punctNot "!" ['='])
  if !bang.isEmpty then return .branch .none .nonNullExpression (n :: stay ++ bang)
  if calls then
    let types ← inRole .typeArguments (typeArguments r) ++
      (checkAhead (fun cs => cs.head?.all fun c => ")]\x7d,;:.?=|&".toList.contains c) <|>
        check (mayEnd false))
    return .branch .none .instantiationExpression (n :: types)
  else refuse

/-- `new`, the constructor with its members, and perhaps arguments. -/
def newExpression (r : Rules) (place : Place) : Forest :=
  node .newExpression do
    let keyword ← word "new"
    let (space, n) ← single (checkAhead (startsWord "new") ++ r (.unary place) <|> primary r)
    let n ← extend (suffix r place false) n
    let types ← optional (inRole .typeArguments (typeArguments r))
    let call ← optional (inRole .arguments (arguments r))
    return keyword ++ space ++ [n] ++ types ++ call

/-- A primary expression with everything that follows it. -/
def suffixed (r : Rules) (place : Place) : Forest := do
  let (space, n) ← single (metaProperty <|> newExpression r place <|> primary r)
  let n ← extend (suffix r place true) n
  return space ++ [n]

/-! ## Casts -/

/-- A cast behind a value. -/
def cast (r : Rules) (place : Place) (n : Node) : Reader Node := do
  let stay ← if place.ending then sameLine else nothing
  let constant ← word "as" ++ word "const" <|> nothing
  if !constant.isEmpty then return .branch .none .asExpression (n :: stay ++ constant)
  let asserted ← word "as" ++ r (.type false) <|> nothing
  if !asserted.isEmpty then return .branch .none .asExpression (n :: stay ++ asserted)
  let satisfied ← word "satisfies" ++ r (.type false)
  return .branch .none .satisfiesExpression (n :: stay ++ satisfied)

/-- Whether a value is a cast without parentheses, or a function whose body is a block. Brackets
behind either belong to the whole value. -/
def isClosed (n : Node) : Bool :=
  match n.kind with
  | .asExpression | .satisfiesExpression => true
  | .arrowFunction => (n.child? .body).any (·.kind == .statementBlock)
  | _ => false

/-- A member, an element or a call behind a closed value. -/
def closedSuffix (r : Rules) (place : Place) (n : Node) : Reader Node :=
  if isClosed n then suffix r place true n else refuse

/-! ## Assignments -/

def yieldExpression (r : Rules) (place : Place) : Forest :=
  node .yieldExpression (word "yield" ++
    (star ++ r (.value place) <|> sameLine ++ r (.value place) <|> nothing))

def assignmentMarks : List String :=
  [">>>=", "<<=", ">>=", "**=", "&&=", "||=", "??=", "+=", "-=", "*=", "/=", "%=", "&=", "|=", "^="]

/-- An assignment to a destructuring pattern. -/
def patternAssignment (r : Rules) (place : Place) : Forest :=
  node .assignmentExpression (
    checkAhead (fun cs => begins "\x7b" cs || begins "[" cs) ++
    inRole .left (destructuringPattern r true) ++ equals ++ r (.value place))

/-- An assignment to a place that has been read, or the place alone. -/
def assigned (r : Rules) (place : Place) (n : Node) : Reader Node := do
  if !(assignable n || n.kind = .parenthesizedExpression) then return n
  let value ← equals ++ r (.value place) <|> nothing
  if !value.isEmpty then return .branch .none .assignmentExpression (n.withRole .left :: value)
  let update ← assignmentMarks.foldr (fun s p => punct s <|> p) refuse ++ r (.value place) <|> nothing
  if !update.isEmpty then
    return .branch .none .augmentedAssignmentExpression (n.withRole .left :: update)
  return n

/-! ## Operators -/

/-- A sign or word before one operand. What is awaited may be cast. -/
def signed (r : Rules) (place : Place) : Forest :=
  node .unaryExpression ((punct "!" <|> punct "~" <|> punctNot "-" ['-'] <|> punctNot "+" ['+'] <|>
    word "typeof" <|> word "void" <|> word "delete") ++ r (.unary place)) <|>
  node .updateExpression ((punct "++" <|> punct "--") ++ r (.unary place)) <|>
  node .awaitExpression (word "await" ++ do
    let (space, n) ← single (r (.unary place))
    let n ← extend (fun n => cast r place n <|> closedSuffix r place n) n
    return space ++ [n]) <|>
  only .typescript ++ node .typeAssertion (typeArguments r ++ r (.unary place))

/-- A step behind a value, if there is one. -/
def stepped (place : Place) (n : Node) : Reader Node := do
  let step ← (if place.ending then sameLine else nothing) ++ (punct "++" <|> punct "--") <|> nothing
  if step.isEmpty then return n else return .branch .none .updateExpression (n :: step)

/-- An operand: a function, a value with signs before it, or a place with an assignment to it. -/
def unary (r : Rules) (place : Place) : Forest :=
  (do
    let (space, n) ← single (arrowFunction r place)
    let n ← extend (closedSuffix r place) n
    return space ++ [n]) <|>
  yieldExpression r place <|>
  patternAssignment r place <|>
  signed r place <|> do
    let (space, n) ← single (suffixed r place)
    let n ← stepped place n
    return space ++ [← assigned r place n]

/-- Marks that can stand behind an operand, longer ones first. -/
def operatorMarks : List String :=
  [">>>=", "===", "!==", ">>>", "<<=", ">>=", "**=", "&&=", "||=", "??=", "==", "!=", "<=", ">=",
    "&&", "||", "??", "<<", ">>", "**", "=>", "+=", "-=", "*=", "/=", "%=", "&=", "|=", "^=",
    "++", "--", "?.", "=", "<", ">", "+", "-", "*", "/", "%", "&", "|", "^"]

/-- The level of an operator between two operands. -/
def operatorLevel : String → Option Nat
  | "??" => some 1
  | "||" => some 2
  | "&&" => some 3
  | "|" => some 4
  | "^" => some 5
  | "&" => some 6
  | "==" | "!=" | "===" | "!==" => some 7
  | "<" | "<=" | ">" | ">=" | "instanceof" | "in" => some 8
  | "<<" | ">>" | ">>>" => some 9
  | "+" | "-" => some 10
  | "*" | "/" | "%" => some 11
  | "**" => some 12
  | _ => none

/-- The mark or word between operands behind the space here. -/
def operatorAhead (place : Place) : Reader String := do
  let cs ← ahead
  match operatorMarks.find? (begins · cs) with
  | some s => return s
  | none =>
    if startsWord "instanceof" cs then return "instanceof"
    else if place.relation && startsWord "in" cs then return "in"
    else refuse

/-- One more operator of at least a level, with its right operand. A cast takes in all operands
before it. -/
def operation (r : Rules) (place : Place) (level : Nat) (n : Node) : Reader Node :=
  (do
    let sign ← operatorAhead place
    match operatorLevel sign with
    | some l =>
      if l < level then refuse
      else
        let sign ← punct sign
        let right ← r (.operand place (if l = 12 then l else l + 1))
        return .branch .none .binaryExpression (n :: sign ++ right)
    | none => refuse) <|>
  if level ≤ 1 then cast r place n <|> closedSuffix r place n else refuse

/-- Operands joined by operators of at least a level. -/
def operand (r : Rules) (place : Place) (level : Nat) : Forest := do
  let (space, n) ← single (r (.unary place))
  let n ← extend (operation r place level) n
  return space ++ [n]

/-! ## Values -/

/-- A choice between two values. -/
def choice (r : Rules) (place : Place) (n : Node) : Reader Node := do
  let mark ← gaps ++ leaf .token fun cs =>
    match behind? cs "?".toList with
    | some ('.' :: c :: _) => if c.isDigit then 1 else 0
    | some ('?' :: _) => 0
    | some _ => 1
    | none => 0
  let consequence ← r (.value .inner) ++ punct ":" <|> r (.operand .inner 1) ++ punct ":"
  let alternative ← r (.value place)
  return .branch .none .ternaryExpression (n :: mark ++ consequence ++ alternative)

/-- A value: operands, or a choice by them. -/
def value (r : Rules) (place : Place) : Forest := do
  let (space, n) ← single (r (.operand place 1))
  let n ← (choice r place n <|> pure n)
  return space ++ [n]

end SurfaceCoverage.Script
