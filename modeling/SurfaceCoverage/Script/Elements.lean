import SurfaceCoverage.Script.Patterns
/-!
# Elements in scripts

Tags, attributes and children of elements. A fragment is an element whose tags have no name.
-/

namespace SurfaceCoverage.Script

open Reader

/-- The length of a tag or attribute word: a word, or ASCII letters and digits with dashes. -/
def tagWordLength (cs : List Char) : Nat :=
  let dashed := match cs with
    | c :: _ =>
      if c.isAlpha || c = '_' || c = '$' then
        spanLength (fun c => c.isAlphanum || c == '_' || c == '$' || c == '-') cs
      else 0
    | [] => 0
  max dashed (wordLength cs)

def tagWord (kind : Kind) : Forest := gaps ++ leaf kind tagWordLength

/-- `a:b` -/
def namespacedName : Forest :=
  node .jsxNamespaceName (tagWord .identifier ++ punct ":" ++ tagWord .identifier)

/-- The name of a tag: a word, a namespaced name or a dotted name. -/
def tagName : Forest := do
  let (space, n) ← single (namespacedName <|> tagWord .identifier)
  let n ← extend (fun n => do
      let dot ← punctNot "." ['.']
      let name ← inRole .property (anyWord .propertyIdentifier)
      return .branch .none .memberExpression (n.withRole .object :: dot ++ name)) n
  return space ++ [n]

/-- The length of plain text in an attribute's string: up to the quote or a reference. -/
def attributeTextLength (quote : Char) (cs : List Char) : Nat := go cs 0
where
  go : List Char → Nat → Nat
    | [], n => n
    | c :: cs, n =>
      if c = quote then n
      else if c = '&' then
        match cs with
        | [] => n
        | d :: _ => if d = '#' || d.isAlpha then n else go cs (n + 1)
      else go cs (n + 1)

def attributeString (quote : Char) : Forest :=
  node .string (mark quote.toString ++
    many (leaf .stringFragment (attributeTextLength quote) <|>
      leaf .htmlCharacterReference referenceLength) ++
    mark quote.toString)

/-- Braces with an expression, several expressions, a spread or nothing. -/
def embedded (r : Rules) : Forest :=
  node .jsxExpression (punct "\x7b" ++
    optional (node .spreadElement (punct "..." ++ r (.value .inner)) <|> values r .inner) ++
    punct "\x7d")

def tagAttribute (r : Rules) : Forest :=
  embedded r <|>
  node .jsxAttribute (
    (namespacedName <|> tagWord .propertyIdentifier) ++
    optional (punct "=" ++ (attributeString '"' <|> attributeString '\'' <|> embedded r <|> r .element)))

/-- The length of text between tags. Blanks that contain a line break are no text. -/
def childTextLength (cs : List Char) : Nat :=
  let text := cs.takeWhile fun c => !"<>\x7b\x7d&".toList.contains c
  if go false text then text.length else 0
where
  go (atBreak : Bool) : List Char → Bool
    | [] => false
    | c :: cs =>
      if c = '\n' then go true cs
      else if atBreak && isGap c then go true cs
      else true

def child (r : Rules) : Forest :=
  leaf .jsxText childTextLength <|>
  leaf .blank (spanLength isGap) <|>
  leaf .htmlCharacterReference referenceLength <|>
  embedded r <|>
  r .element

/-- The name and attributes of a tag. -/
def tagParts (r : Rules) : Forest :=
  inRole .name tagName ++ optional (typeArguments r) ++ many (tagAttribute r)

/-- An element with its children, a fragment or an element without children. -/
def element (r : Rules) : Forest := do
  let space ← gaps
  let opening ← punct "<"
  let parts ← optional (tagParts r)
  let closing ← (if parts.isEmpty then refuse else punct "/" ++ punct ">") <|> nothing
  if closing.isEmpty then
    let opened ← punct ">"
    let children ← many (child r)
    let closed ← node .jsxClosingElement (punct "<" ++ mark "/" ++ optional tagName ++ punct ">")
    let tag := Node.branch .openTag .jsxOpeningElement (opening ++ parts ++ opened)
    return space ++ [.branch .none .jsxElement (tag :: children ++ closed)]
  else
    return space ++ [.branch .none .jsxSelfClosingElement (opening ++ parts ++ closing)]

end SurfaceCoverage.Script
