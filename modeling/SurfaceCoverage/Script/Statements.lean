import SurfaceCoverage.Script.Expressions
/-!
# Statements and declarations

Declarations, module statements, classes and control flow.
-/

namespace SurfaceCoverage.Script

open Reader

def block (r : Rules) : Forest :=
  node .statementBlock (punct "\x7b" ++ many (r .statement) ++ wideGaps ++ mark "\x7d")

/-! ## Variables and functions -/

def variableDeclarator (r : Rules) (place : Place) : Forest :=
  node .variableDeclarator (inRole .name (r (.pattern false)) ++
    optional (punctNot "!" ['='] ++ checkAhead (begins ":")) ++
    optional (inRole .type (typeAscription r place.ending)) ++ optional (initializer r place))

/-- Whether the last tree, a declarator, has a value. -/
def endsInValue (ns : List Node) : Bool :=
  ns.getLast?.any fun n => (n.child? .value).isSome

/-- The declarators of a declaration, and its end. -/
def declarators (r : Rules) : Forest := do
  let ns ← commaList (variableDeclarator r .statement)
  let stop ← if endsInValue ns then endOfValue else endOfItem
  return ns ++ stop

def variableDeclaration (r : Rules) : Forest :=
  node .variableDeclaration (word "var" ++ declarators r) <|>
  node .lexicalDeclaration ((word "let" <|> word "const") ++ declarators r)

/-- A function or a generator with its body, or the signature of a function. -/
def functionDeclaration (r : Rules) : Forest := do
  let space ← gaps
  let words ← optional (word "async" ++ sameLine) ++ word "function"
  let generator ← optional star
  let signature ← inRole .name (anyWord .identifier) ++ callSignature r true
  let body ← optional (functionBody r)
  if body.isEmpty then
    let stop ← endOfItem
    return space ++ [.branch .none .functionSignature (words ++ generator ++ signature ++ stop)]
  else
    let kind := if generator.isEmpty then Kind.functionDeclaration else .generatorFunctionDeclaration
    return space ++ [.branch .none kind (words ++ generator ++ signature ++ body)]

/-! ## Classes -/

def className : Forest := inRole .name (wordExcept ["extends", "implements"] .typeIdentifier)

/-- What follows the name of a class. -/
def classRest (r : Rules) : Forest :=
  optional (typeParameters r) ++ optional (classHeritage r) ++ inRole .body (r .classBody)

def classDeclaration (r : Rules) : Forest :=
  node .classDeclaration (many (decorator r) ++ word "class" ++ className ++ classRest r) <|>
  node .abstractClassDeclaration (many (decorator r) ++ word "abstract" ++ word "class" ++
    className ++ classRest r)

/-- Words before the name of a field. -/
def fieldModifiers : Forest :=
  optional (modifier "declare") ++
  optional (modifierNode .accessibilityModifier ["public", "private", "protected"]) ++
  optional (modifier "declare") ++ optional (modifier "static") ++
  optional (modifierNode .overrideModifier ["override"]) ++
  optional (modifier "abstract") ++ optional (modifier "readonly") ++ optional (modifier "abstract") ++
  optional (modifier "accessor")

def fieldDefinition (r : Rules) : Forest := do
  let space ← gaps
  let ns ← many (decorator r) ++ fieldModifiers ++ inRole .name (propertyName r) ++
    optional (punct "?" <|> punctNot "!" ['=']) ++ optional (inRole .type (typeAscription r true))
  let value ← optional (initializer r .statement)
  let stop ← (if value.isEmpty then endOfItem else endOfValue) <|> punct ","
  return space ++ [.branch .none .publicFieldDefinition (ns ++ value)] ++ stop

def abstractMethod (r : Rules) : Forest :=
  node .abstractMethodSignature (
    optional (modifierNode .accessibilityModifier ["public", "private", "protected"]) ++
    modifier "abstract" ++ optional (modifierNode .overrideModifier ["override"]) ++
    optional (modifier "get" <|> modifier "set" <|> star) ++
    inRole .name (propertyName r) ++ optional (punct "?") ++ callSignature r true)

def bodilessMethod (r : Rules) : Forest :=
  node .methodSignature (methodModifiers ++ inRole .name (propertyName r) ++ optional (punct "?") ++
    callSignature r true)

def classMember (r : Rules) : Forest :=
  punct ";" <|>
  node .classStaticBlock (word "static" ++ r .block) <|>
  many (decorator r) ++ methodDefinition r <|>
  many (decorator r) ++ (abstractMethod r <|> bodilessMethod r) ++ (endOfItem <|> punct ",") <|>
  indexSignature r true ++ (endOfItem <|> punct ",") <|>
  fieldDefinition r

def classBody (r : Rules) : Forest :=
  node .classBody (punct "\x7b" ++ many (wideGaps ++ classMember r) ++ wideGaps ++ mark "\x7d")

/-! ## Types and namespaces -/

def extendsTypes (r : Rules) : Forest :=
  node .extendsTypeClause (word "extends" ++ commaList (inRole .type (namedType r)))

def interfaceDeclaration (r : Rules) : Forest :=
  node .interfaceDeclaration (word "interface" ++ inRole .name (anyWord .typeIdentifier) ++
    optional (typeParameters r) ++ optional (extendsTypes r) ++
    inRole .body (objectType r .interfaceBody))

def typeAlias (r : Rules) : Forest :=
  node .typeAliasDeclaration (word "type" ++ inRole .name (anyWord .typeIdentifier) ++
    optional (typeParameters r) ++ equals ++ inRole .value (r (.type true)) ++ endOfItem)

def enumDeclaration (r : Rules) : Forest :=
  node .enumDeclaration (optional (word "const") ++ word "enum" ++
    inRole .name (anyWord .identifier) ++
    inRole .body (node .enumBody (punct "\x7b" ++
      optional (closedList (node .enumAssignment (inRole .name (propertyName r) ++ initializer r .inner) <|>
        inRole .name (propertyName r))) ++
      punct "\x7d")))

/-- A word with further dotted words. -/
def dottedIdentifier : Forest := do
  let (space, n) ← single (anyWord .identifier)
  return space ++ [← extend dottedName n]

def namespaceDeclaration (r : Rules) : Forest :=
  node .internalModule (word "namespace" ++ inRole .name dottedIdentifier ++
    optional (inRole .body (r .block))) <|>
  node .module (word "module" ++ sameLine ++ inRole .name (string <|> dottedIdentifier) ++
    optional (inRole .body (r .block)))

def importAlias : Forest :=
  node .importAlias (word "import" ++ anyWord .identifier ++ equals ++ dottedIdentifier ++ endOfItem)

/-- A declaration, ambient ones excluded. -/
def plainDeclaration (r : Rules) : Forest :=
  variableDeclaration r <|> functionDeclaration r <|> classDeclaration r <|>
  interfaceDeclaration r <|> typeAlias r <|> enumDeclaration r <|> namespaceDeclaration r <|>
  importAlias

def ambientDeclaration (r : Rules) : Forest :=
  node .ambientDeclaration (word "declare" ++ sameLine ++
    (plainDeclaration r <|> word "global" ++ r .block <|>
      word "module" ++ punct "." ++ anyWord .propertyIdentifier ++ punct ":" ++ r (.type true) ++ endOfItem))

def declaration (r : Rules) : Forest := plainDeclaration r <|> ambientDeclaration r

/-! ## Imports and exports -/

/-- A word or a string that names an export. -/
def exportName : Forest := anyWord .identifier <|> string

/-- Whether a list of specifiers goes on or ends here. -/
def afterSpecifier : Forest := checkAhead fun cs => begins "," cs || begins "\x7d" cs

/-- The word that marks a specifier as a type. -/
def typeWord : Forest := word "type" <|> word "typeof"

def importSpecifier : Forest :=
  let renamed := inRole .name exportName ++ word "as" ++ inRole .rename (anyWord .identifier) ++ afterSpecifier
  let plain := inRole .name (anyWord .identifier) ++ afterSpecifier
  node .importSpecifier (typeWord ++ renamed <|> typeWord ++ plain <|> renamed <|> plain)

def namespaceImport : Forest :=
  node .namespaceImport (punct "*" ++ word "as" ++ anyWord .identifier)

def namedImports : Forest :=
  node .namedImports (punct "\x7b" ++ optional (closedList importSpecifier) ++ punct "\x7d")

def importClause : Forest :=
  node .importClause (namespaceImport <|> namedImports <|>
    anyWord .identifier ++ optional (punct "," ++ (namespaceImport <|> namedImports)))

def fromClause : Forest := word "from" ++ inRole .source string

def importAttribute (r : Rules) : Forest :=
  node .importAttribute ((word "with" <|> word "assert") ++ object r)

def importStatement (r : Rules) : Forest :=
  let required := node .importRequireClause (anyWord .identifier ++ equals ++ word "require" ++
    punct "(" ++ inRole .source string ++ punct ")")
  let bound := required <|> importClause ++ fromClause
  node .importStatement (word "import" ++
    (typeWord ++ bound <|> bound <|> inRole .source string) ++
    optional (importAttribute r) ++ endOfItem)

def exportSpecifier : Forest :=
  let renamed := inRole .name exportName ++ word "as" ++ inRole .rename exportName ++ afterSpecifier
  let plain := inRole .name exportName ++ afterSpecifier
  node .exportSpecifier (typeWord ++ renamed <|> typeWord ++ plain <|> renamed <|> plain)

def exportClause : Forest :=
  node .exportClause (punct "\x7b" ++ optional (closedList exportSpecifier) ++ punct "\x7d")

def exportStatement (r : Rules) : Forest :=
  node .exportStatement (many (decorator r) ++ word "export" ++ (
    word "default" ++ (inRole .declaration (declaration r) <|>
      inRole .value (r (.value .statement)) ++ endOfValue) <|>
    node .namespaceExport (punct "*" ++ word "as" ++ exportName) ++ fromClause ++ endOfItem <|>
    punct "*" ++ fromClause ++ endOfItem <|>
    optional (word "type") ++ exportClause ++ optional fromClause ++ endOfItem <|>
    equals ++ r (.value .statement) ++ endOfValue <|>
    word "as" ++ word "namespace" ++ anyWord .identifier ++ endOfItem <|>
    inRole .declaration (declaration r)))

/-! ## Control flow -/

def ifStatement (r : Rules) : Forest :=
  node .ifStatement (word "if" ++ parenthesized r ++ r .statement ++
    optional (node .elseClause (word "else" ++ r .statement)))

/-- The left side of a loop over members or elements. -/
def loopTarget (r : Rules) : Forest :=
  word "var" ++ r (.pattern false) ++ optional (initializer r ⟨false, false⟩) <|>
  (word "let" <|> word "const") ++ r (.pattern false) <|>
  r (.pattern true)

def forInStatement (r : Rules) : Forest :=
  node .forInStatement (word "for" ++ optional (word "await") ++ punct "(" ++ loopTarget r ++
    (word "in" <|> word "of") ++ values r .inner ++ punct ")" ++ r .statement)

def emptyStatement : Forest := node .emptyStatement (punct ";")

def forStatement (r : Rules) : Forest :=
  let head : Place := ⟨false, false⟩
  let declarators := commaList (variableDeclarator r head) ++ punct ";"
  node .forStatement (word "for" ++ punct "(" ++
    (node .lexicalDeclaration ((word "let" <|> word "const") ++ declarators) <|>
      node .variableDeclaration (word "var" ++ declarators) <|>
      values r head ++ punct ";" <|> emptyStatement) ++
    (values r .inner ++ punct ";" <|> emptyStatement) ++
    optional (values r .inner) ++ punct ")" ++ r .statement)

def doStatement (r : Rules) : Forest :=
  node .doStatement (word "do" ++ r .statement ++ word "while" ++ parenthesized r ++ optional (punct ";"))

def switchStatement (r : Rules) : Forest :=
  node .switchStatement (word "switch" ++ parenthesized r ++
    node .switchBody (punct "\x7b" ++
      many (node .switchCase (word "case" ++ values r .inner ++ punct ":" ++ many (r .statement)) <|>
        node .switchDefault (word "default" ++ punct ":" ++ many (r .statement))) ++
      wideGaps ++ mark "\x7d"))

def tryStatement (r : Rules) : Forest :=
  node .tryStatement (word "try" ++ inRole .body (r .block) ++
    optional (node .catchClause (word "catch" ++
      optional (punct "(" ++ inRole .parameter (r (.pattern false)) ++
        optional (inRole .type (typeAscription r false)) ++ punct ")") ++
      inRole .body (r .block))) ++
    optional (node .finallyClause (word "finally" ++ inRole .body (r .block))))

/-- A statement of one word, perhaps with a label on the same line. -/
def jumpStatement (kind : Kind) (s : String) : Forest :=
  node kind (word s ++ optional (sameLine ++ anyWord .statementIdentifier) ++ endOfItem)

def returnStatement (r : Rules) : Forest :=
  node .returnStatement (word "return" ++
    (sameLine ++ values r .statement ++ endOfValue <|> endOfItem))

/-- Words that begin a declaration wherever a statement begins. -/
def declaring : Forest := word "interface" <|> word "abstract"

def labeledStatement (r : Rules) : Forest :=
  absent declaring ++ node .labeledStatement (wordExcept reservedWords .statementIdentifier ++ punct ":" ++ r .statement)

def expressionStatement (r : Rules) : Forest :=
  absent declaring ++ node .expressionStatement (values r .statement ++ endOfValue)

def controlStatement (r : Rules) : Forest :=
  ifStatement r <|> forInStatement r <|> forStatement r <|>
  node .whileStatement (word "while" ++ parenthesized r ++ r .statement) <|>
  doStatement r <|> switchStatement r <|> tryStatement r <|>
  node .withStatement (word "with" ++ parenthesized r ++ r .statement) <|>
  jumpStatement .breakStatement "break" <|> jumpStatement .continueStatement "continue" <|>
  node .debuggerStatement (word "debugger" ++ endOfItem) <|>
  returnStatement r <|>
  node .throwStatement (word "throw" ++ values r .statement ++ endOfValue)

def statement (r : Rules) : Forest := do
  let space ← wideGaps
  let s ← block r <|> emptyStatement <|> importStatement r <|> exportStatement r <|>
    declaration r <|> controlStatement r <|> labeledStatement r <|> expressionStatement r
  return space ++ s

end SurfaceCoverage.Script
