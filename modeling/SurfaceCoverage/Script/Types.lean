import SurfaceCoverage.Script.Goal
/-!
# Types in scripts

Unions and intersections nest to the left, a leading bar or ampersand included. A function type
takes a union as its result, a constructor type does not.
-/

namespace SurfaceCoverage.Script

open Reader

/-- The words that are types of their own. -/
def predefinedTypes : List String :=
  ["any", "number", "boolean", "string", "symbol", "void", "unknown", "never", "object"]

def typeArguments (r : Rules) : Forest :=
  node .typeArguments (punct "<" ++ closedList (r (.type false)) ++ punct ">")

def typeParameter (r : Rules) : Forest :=
  node .typeParameter (optional (word "const" ++ checkAhead startsName) ++
    anyWord .typeIdentifier ++
    optional (node .constraint ((word "extends" <|> punct ":") ++ r (.type false))) ++
    optional (node .defaultType (punctNot "=" ['>'] ++ r (.type false))))

def typeParameters (r : Rules) : Forest :=
  node .typeParameters (punct "<" ++ closedList (typeParameter r) ++ punct ">")

/-- A colon and a type. -/
def typeAscription (r : Rules) (ending : Bool) : Forest :=
  node .typeAscription (punct ":" ++ r (.type ending))

/-- `x is T` -/
def typePredicate (r : Rules) (ending : Bool) : Forest :=
  node .typePredicate ((wordLeaf .thisValue "this" <|> anyWord .identifier) ++ sameLine ++
    word "is" ++ r (.type ending))

/-- `asserts x` and `asserts x is T` -/
def asserts (r : Rules) (ending : Bool) : Forest :=
  node .asserts (word "asserts" ++ sameLine ++
    (typePredicate r ending <|> wordLeaf .thisValue "this" <|> anyWord .identifier))

/-- The result of a signature: a type, a predicate or an assertion. -/
def resultAscription (r : Rules) (ending : Bool) : Forest :=
  node .typePredicateAscription (punct ":" ++ typePredicate r ending) <|>
  node .assertsAscription (punct ":" ++ asserts r ending) <|>
  typeAscription r ending

/-- Type parameters, parameters and the result of a signature. -/
def callSignature (r : Rules) (ending : Bool) : Forest :=
  optional (typeParameters r) ++ inRole .parameters (r .parameters) ++
    optional (resultAscription r ending)

/-! ## Members of object types -/

def indexAscription (r : Rules) (ending : Bool) : Forest :=
  typeAscription r ending <|>
  node .omittingTypeAscription (punct "-" ++ mark "?:" ++ r (.type ending)) <|>
  node .addingTypeAscription (punct "+" ++ mark "?:" ++ r (.type ending)) <|>
  node .optingTypeAscription (punct "?:" ++ r (.type ending))

/-- `[key: K]: T`, and the mapped form `[K in T]: U` -/
def indexSignature (r : Rules) (ending : Bool) : Forest :=
  node .indexSignature (
    optional (optional (punct "-" <|> punct "+") ++ word "readonly" ++ checkAhead (begins "[")) ++
    punct "[" ++
    (node .mappedTypeClause (inRole .name (anyWord .typeIdentifier) ++ word "in" ++ r (.type false) ++
        optional (word "as" ++ r (.type false))) <|>
      anyWord .identifier ++ punct ":" ++ r (.type false)) ++
    punct "]" ++ inRole .type (indexAscription r ending))

/-- Words before a member's name in an object type. -/
def memberModifiers : Forest :=
  optional (modifierNode .accessibilityModifier ["public", "private", "protected"]) ++
  optional (modifier "static") ++ optional (modifierNode .overrideModifier ["override"]) ++
  optional (modifier "readonly")

def propertySignature (r : Rules) : Forest :=
  node .propertySignature (memberModifiers ++ inRole .name (propertyName r) ++ optional (punct "?") ++
    optional (inRole .type (typeAscription r true)))

def methodSignature (r : Rules) : Forest :=
  node .methodSignature (memberModifiers ++ optional (modifier "async") ++
    optional (modifier "get" <|> modifier "set" <|> star) ++
    inRole .name (propertyName r) ++ optional (punct "?") ++ callSignature r true)

def constructSignature (r : Rules) : Forest :=
  node .constructSignature (optional (word "abstract") ++ word "new" ++ optional (typeParameters r) ++
    inRole .parameters (r .parameters) ++ optional (inRole .type (typeAscription r true)))

def typeMember (r : Rules) : Forest :=
  node .callSignature (callSignature r true) <|>
  constructSignature r <|>
  indexSignature r true <|>
  methodSignature r <|>
  propertySignature r

/-- The braces of an object type or an interface. -/
def objectType (r : Rules) (kind : Kind) : Forest :=
  node kind (punct "\x7b" ++ optional (punct "," <|> punct ";") ++
    optional (typeMember r ++ many ((punct "," <|> endOfItem) ++ typeMember r) ++
      optional (punct "," <|> endOfItem)) ++
    punct "\x7d")

/-! ## Primary types -/

def tupleMember (r : Rules) : Forest :=
  node .requiredParameter (inRole .name (anyWord .identifier <|>
      node .restPattern (punct "..." ++ anyWord .identifier)) ++ inRole .type (typeAscription r false)) <|>
  node .optionalParameter (inRole .name (anyWord .identifier) ++ punct "?" ++
    inRole .type (typeAscription r false)) <|>
  node .restType (punct "..." ++ r (.type false)) <|>
  node .optionalType (r (.type false) ++ punct "?") <|>
  r (.type false)

/-- What follows `typeof`: a name with its members, indices, arguments and type arguments. -/
def queriedMember (r : Rules) (ending : Bool) (n : Node) : Reader Node := do
  let property ← node .optionalChain (punct "?.") ++ checkAhead startsName <|> punctNot "." ['.'] <|> nothing
  if property.isEmpty then
    let stay ← if ending then sameLine else nothing
    let index ← punct "[" ++ (node .predefinedType (predefinedTypes.foldr (fun s p => word s <|> p) refuse) <|>
      string <|> number) ++ punct "]" <|> nothing
    if !index.isEmpty then
      return .branch .none .subscriptExpression (stay ++ n.withRole .object :: index)
    let call ← if n.kind = .importCallee then
        node .arguments (punct "(" ++ looseList (r (.value .inner)) ++ punct ")")
      else nothing
    if !call.isEmpty then
      return .branch .none .callExpression (n.withRole .function :: call)
    let types ← typeArguments r
    return .branch .none .instantiationExpression (n :: types)
  else
    let name ← inRole .property (privateName <|> anyWord .propertyIdentifier)
    return .branch .none .memberExpression (n.withRole .object :: property ++ name)

def typeQuery (r : Rules) (ending : Bool) : Forest :=
  node .typeQuery do
    let keyword ← word "typeof"
    let (space, n) ← single (wordLeaf .thisValue "this" <|> wordLeaf .importCallee "import" <|>
      anyWord .identifier)
    let n ← extend (queriedMember r ending) n
    return keyword ++ space ++ [n]

/-- Further segments of a dotted name. -/
def dottedName (n : Node) : Reader Node := do
  let dot ← punctNot "." ['.']
  let name ← inRole .property (anyWord .propertyIdentifier)
  return .branch .none .nestedIdentifier (n.withRole .object :: dot ++ name)

/-- A dotted name of a type, which ends in the name of the type itself. -/
def typeName : Forest := do
  let (space, n) ← single (anyWord .identifier)
  match ← extend dottedName n with
  | .leaf _ _ t => return space ++ [.leaf .none .typeIdentifier t]
  | .branch _ _ cs =>
    let relabelled := cs.map fun
      | .leaf .property _ t => Node.leaf .name .typeIdentifier t
      | c => c.withRole .none
    return space ++ [.branch .none .nestedTypeIdentifier relabelled]

/-- A named type, with its type arguments if it has some. -/
def namedType (r : Rules) : Forest := do
  let (space, n) ← single typeName
  let arguments ← optional (inRole .typeArguments (typeArguments r))
  if arguments.isEmpty then return space ++ [n]
  else return space ++ [.branch .none .genericType (n.withRole .name :: arguments)]

/-- The type of a module, and its members: `import('m').T` -/
def importedType (r : Rules) : Forest := do
  let (space, n) ← single (wordLeaf .importCallee "import")
  let call ← node .arguments (punct "(" ++ looseList (r (.value .inner)) ++ punct ")")
  let n ← extend (fun n => do
      let dot ← punctNot "." ['.']
      let name ← inRole .property (anyWord .propertyIdentifier)
      return .branch .none .memberExpression (n.withRole .object :: dot ++ name))
    (.branch .none .callExpression (n.withRole .function :: call))
  return space ++ [n]

def templateType (r : Rules) : Forest :=
  template .templateLiteralType
    (node .templateType (mark "$" ++ mark "\x7b" ++ r (.type false) ++ punct "\x7d"))

/-- The words and literals that are types. -/
def literalType : Forest :=
  node .literalType (string <|> number <|> wordLeaf .trueValue "true" <|> wordLeaf .falseValue "false" <|>
    wordLeaf .nullValue "null" <|> wordLeaf .undefinedValue "undefined" <|>
    node .unaryExpression ((punct "-" <|> punct "+") ++ number))

def predefinedType : Forest :=
  node .predefinedType (predefinedTypes.foldr (fun s p => word s <|> p) refuse) <|>
  node .predefinedType (word "unique" ++ word "symbol")

def primaryType (r : Rules) (ending : Bool) : Forest :=
  node .parenthesizedType (punct "(" ++ r (.type false) ++ punct ")") <|>
  objectType r .objectType <|>
  node .tupleType (punct "[" ++ optional (closedList (tupleMember r)) ++ punct "]") <|>
  literalType <|>
  templateType r <|>
  predefinedType <|>
  node .thisType (word "this") <|>
  typeQuery r ending <|>
  importedType r <|>
  node .existentialType (punct "*") <|>
  node .flowMaybeType (punct "?" ++ r (.typeOperand ending)) <|>
  word "const" <|>
  checkAhead (fun cs => !(["void", "new"].any (startsWord · cs))) ++ namedType r

/-- An index or an empty pair of brackets behind a type. -/
def typeSuffix (r : Rules) (ending : Bool) (n : Node) : Reader Node := do
  let _ ← if ending then sameLine else nothing
  let opening ← punct "["
  let array ← punct "]" <|> nothing
  if array.isEmpty then
    let index ← r (.type false) ++ punct "]"
    return .branch .none .lookupType (n :: opening ++ index)
  else return .branch .none .arrayType (n :: opening ++ array)

def suffixedType (r : Rules) (ending : Bool) : Forest := do
  let (space, n) ← single (primaryType r ending)
  let n ← extend (typeSuffix r ending) n
  return space ++ [n]

/-! ## Composed types -/

/-- The arrow of a function. -/
def arrow : Forest := punct "=>"

def functionType (r : Rules) (ending : Bool) : Forest :=
  node .functionType (optional (typeParameters r) ++ inRole .parameters (r .parameters) ++ arrow ++
    (typePredicate r ending <|> asserts r ending <|> r (.type ending)))

def constructorType (r : Rules) (ending : Bool) : Forest :=
  node .constructorType (optional (word "abstract") ++ word "new" ++ optional (typeParameters r) ++
    inRole .parameters (r .parameters) ++ arrow ++ inRole .type (r (.typeOperand ending)))

/-- A type without a union, an intersection or a condition at its top. -/
def typeOperand (r : Rules) (ending : Bool) : Forest :=
  functionType r ending <|>
  constructorType r ending <|>
  node .readonlyType (word "readonly" ++ r (.type ending)) <|>
  node .inferType (word "infer" ++ anyWord .typeIdentifier ++
    optional (word "extends" ++ r (.typeOperand ending) ++ checkAhead fun cs => !begins "?" cs)) <|>
  node .indexTypeQuery (word "keyof" ++
    (node .inferType (word "infer" ++ anyWord .typeIdentifier) <|> r (.typeOperand ending))) <|>
  suffixedType r ending

/-- Types with a mark between them, nested to the left; the first one may be left out. -/
def joinedTypes (kind : Kind) (sign : Forest) (p : Forest) : Forest := do
  let space ← gaps
  let first ← p <|> (node kind (sign ++ p))
  match first with
  | [n] =>
    let n ← extend (fun n => do return .branch .none kind (n :: (← sign ++ p))) n
    return space ++ [n]
  | _ => refuse

def intersectionType (r : Rules) (ending : Bool) : Forest :=
  joinedTypes .intersectionType (punctNot "&" ['&', '=']) (r (.typeOperand ending))

def unionType (r : Rules) (ending : Bool) : Forest :=
  joinedTypes .unionType (punctNot "|" ['|', '=']) (intersectionType r ending)

def type (r : Rules) (ending : Bool) : Forest := do
  let (space, n) ← single (unionType r ending)
  let condition ← (if ending then sameLine else nothing) ++ word "extends" ++ r (.type ending) ++
      punctNot "?" ['.'] ++ r (.type ending) ++ punct ":" ++ r (.type ending) <|> nothing
  if condition.isEmpty then return space ++ [n]
  else return space ++ [.branch .none .conditionalType (n :: condition)]

end SurfaceCoverage.Script
