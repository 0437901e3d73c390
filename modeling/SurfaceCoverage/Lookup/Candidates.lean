import SurfaceCoverage.Lookup.Scope
/-!
# Candidates of a lookup

What a module offers for a name, in the order in which it is tried. A lookup of a local word finds
its first declaration or else its import; a lookup of an export goes through the export statements
in document order. A literal that cannot be decoded ends the lookup when its turn comes.
-/

namespace SurfaceCoverage

/-- One way on from a lookup. -/
inductive Candidate where
  /-- A declaration in the module at hand. -/
  | here (n : Node)
  /-- Another word of the module at hand. -/
  | sibling (word : Text)
  /-- An export of another module. -/
  | elsewhere (i : Import)
  | fault (f : Failure)

namespace Node

/-- The ways on from an initial value: the value itself, or the word it repeats. -/
def valueCandidates (value : Node) : List Candidate :=
  match value.declaredValue? with
  | some n => [.here n]
  | none =>
    let inner := value.unwrap
    if inner.kind = .identifier then [.sibling inner.name] else []

/-- The local and the exported name of an export's specifier. -/
def exportedPair? (specifier : Node) : Except Failure (Option (Text × Text)) :=
  if specifier.kind ≠ .exportSpecifier then .ok none
  else
    match specifier.child? .name with
    | none => .ok none
    | some n => do
      let localName ← Imports.specifierName? (some n)
      let exported ← match specifier.child? .rename with
        | some r => Imports.specifierName? (some r)
        | none => pure localName
      match Imports.nonEmpty localName, Imports.nonEmpty exported with
      | some l, some e => return some (l, e)
      | _, _ => return none

/-- The specifiers of an export's braces. -/
def exportSpecifiers (statement : Node) : List Node :=
  match statement.namedChildren.find? (·.kind == .exportClause) with
  | some clause => clause.namedChildren
  | none => []

/-- Whether an export passes on all exports of a module, without a name for them together. -/
def isStarExport (statement : Node) : Bool :=
  statement.hasToken "*" && !statement.namedChildren.any (·.kind == .namespaceExport)

end Node

namespace Scope

/-- The words that a clause exports under a name. -/
def specifierCandidates (name : Text) : List Node → List Candidate
  | [] => []
  | n :: ns =>
    match n.exportedPair? with
    | .error f => [.fault f]
    | .ok (some (word, exported)) =>
      if exported = name then .sibling word :: specifierCandidates name ns
      else specifierCandidates name ns
    | .ok none => specifierCandidates name ns

/-- The export of another module that a clause passes on under a name. -/
def passedOn (name source : Text) : List Node → List Candidate
  | [] => []
  | n :: ns =>
    match n.exportedPair? with
    | .error f => [.fault f]
    | .ok (some (word, exported)) =>
      if exported = name then [.elsewhere ⟨name, source, word⟩] else passedOn name source ns
    | .ok none => passedOn name source ns

/-- What an exported declaration offers for a name. -/
def declarationCandidates (meaning : Meaning) (name : Text) (declaration : Node) : List Candidate :=
  match meaning with
  | .type => if declaration.declaresType name then [.here declaration] else []
  | .value =>
    if declaration.kind = .lexicalDeclaration ∨ declaration.kind = .variableDeclaration then
      let declarators := declaration.namedChildren.filter (·.kind == .variableDeclarator)
      match declarators.findSome? (Node.initialValue? name) with
      | some value => value.valueCandidates
      | none => []
    else []

/-- What an export statement with a given source offers for a name. -/
def statementCandidates (meaning : Meaning) (name : Text) (statement : Node) (source : Option Text) :
    List Candidate :=
  match statement.child? .declaration with
  | some declaration => declarationCandidates meaning name declaration
  | none =>
    if statement.isDefaultExport then
      if name = defaultExport ∧ meaning = .value then
        match statement.child? .value with
        | some value => value.valueCandidates
        | none => []
      else []
    else
      match source with
      | some source =>
        if statement.isStarExport then
          if name = defaultExport then [] else [.elsewhere ⟨name, source, name⟩]
        else passedOn name source statement.exportSpecifiers
      | none => specifierCandidates name statement.exportSpecifiers

/-- What a module exports under a name. -/
def exportCandidates (root : Node) (meaning : Meaning) (name : Text) : List Candidate :=
  (root.namedChildren.filter (·.kind == .exportStatement)).flatMap fun statement =>
    match Node.stringValue? (statement.child? .source) with
    | .error f => [.fault f]
    | .ok source => statementCandidates meaning name statement source

/-- What a word of a module stands for. -/
def localCandidates (s : Scope) (meaning : Meaning) (word : Text) : List Candidate :=
  let imported := ((s.imports.get? word).map Candidate.elsewhere).toList
  match meaning with
  | .type =>
    match s.root.localType? word with
    | some n => [.here n]
    | none => imported
  | .value =>
    match s.root.localInitializer? word with
    | some value => value.valueCandidates
    | none => imported

end Scope
end SurfaceCoverage
