import SurfaceCoverage.Tree.Shape
import SurfaceCoverage.Lookup.Scope
/-!
# Items of a declaration

A declaration lists names, literals and members, and references to other declarations. The items of
a value are the elements of an array, the members of an object or the word it repeats; a cast to a
generic type declares what the type does. The items of a type are its members, the literals of the
first parameters of its call signatures, and the types it refers to, joins or extends.
-/

namespace SurfaceCoverage

/-- Something that a declaration contributes to its names. -/
inductive Item where
  | name (t : Text)
  /-- The value of a literal. -/
  | literal (n : Node)
  /-- The name that a member declares. -/
  | member (n : Node)
  /-- The names of the declaration that a word refers to. -/
  | reference (meaning : Meaning) (word : Text)

namespace Node

/-! ## Types -/

/-- The types that a type consists of or stands for, in order. -/
def typeParts (n : Node) : List Node :=
  match n.kind with
  | .typeAscription | .parenthesizedType => n.namedChildren.head?.toList
  | .intersectionType | .unionType => n.namedChildren
  | .genericType =>
    match n.typeArguments with
    | type :: _ => [type]
    | [] => (n.child? .name).toList
  | .interfaceDeclaration =>
    (n.namedChildren.filter (·.kind == .extendsTypeClause)).flatMap namedChildren ++
      (n.child? .body).toList
  | .typeAliasDeclaration => (n.child? .value).toList
  | _ => []

theorem size_lt_of_mem_namedChildren {c n : Node} (h : c ∈ n.namedChildren) : c.size < n.size :=
  size_lt_of_mem_children (mem_children_of_mem_namedChildren h)

theorem size_lt_of_child? {c n : Node} {r : Role} (h : n.child? r = some c) : c.size < n.size :=
  size_lt_of_mem_children (List.mem_of_find?_eq_some h)

theorem size_lt_of_mem_typeArguments {c n : Node} (h : c ∈ n.typeArguments) : c.size < n.size := by
  unfold typeArguments at h
  split at h
  · rename_i types hs
    have hc := size_lt_of_mem_namedChildren h
    cases hr : n.child? .typeArguments with
    | some t => simp_all; have := size_lt_of_child? hr; omega
    | none =>
      simp_all
      have := size_lt_of_mem_children (List.mem_of_find?_eq_some hs)
      omega
  · cases h

theorem size_lt_of_mem_typeParts {c n : Node} (h : c ∈ n.typeParts) : c.size < n.size := by
  unfold typeParts at h
  split at h
  · exact size_lt_of_mem_namedChildren (List.mem_of_head? (by simpa using h))
  · exact size_lt_of_mem_namedChildren (List.mem_of_head? (by simpa using h))
  · exact size_lt_of_mem_namedChildren h
  · exact size_lt_of_mem_namedChildren h
  · split at h
    · rename_i hs
      exact size_lt_of_mem_typeArguments (by simp_all)
    · exact size_lt_of_child? (by simpa using h)
  · rw [List.mem_append] at h
    rcases h with h | h
    · obtain ⟨m, hm, hc⟩ := List.mem_flatMap.1 h
      have := size_lt_of_mem_namedChildren hc
      have := size_lt_of_mem_namedChildren (List.mem_filter.1 hm).1
      omega
    · exact size_lt_of_child? (by simpa using h)
  · exact size_lt_of_child? (by simpa using h)
  · cases h

/-- The literals in a literal type, a union of them or parentheses around them. -/
def literalTypeItems (n : Node) : List Item :=
  match n.kind with
  | .literalType => n.namedChildren.map .literal
  | .unionType | .parenthesizedType =>
    n.namedChildren.attach.flatMap fun ⟨c, _⟩ => literalTypeItems c
  | _ => []
termination_by n.size
decreasing_by all_goals exact size_lt_of_mem_namedChildren ‹_›

theorem literalTypeItems_eq (n : Node) : n.literalTypeItems =
    match n.kind with
    | .literalType => n.namedChildren.map .literal
    | .unionType | .parenthesizedType => n.namedChildren.flatMap literalTypeItems
    | _ => [] := by
  have hparts : (n.namedChildren.attach.flatMap fun ⟨c, _⟩ => literalTypeItems c) =
      n.namedChildren.flatMap literalTypeItems := by simp [List.flatMap_def]
  rw [literalTypeItems]
  split <;> first | rfl | exact hparts

/-- The parameters of a signature. -/
def signatureParameters (n : Node) : List Node :=
  match (n.child? .parameters).or (n.namedChildren.find? (·.kind == .formalParameters)) with
  | some ps => ps.namedChildren
  | none => []

/-- The literals that the first parameter of a call signature takes. -/
def signatureItems (n : Node) : List Item :=
  match n.signatureParameters.head?.bind annotatedType? with
  | some type => type.literalTypeItems
  | none => []

/-- What a member of an object type contributes. -/
def typeMemberItems (n : Node) : List Item :=
  match n.kind with
  | .callSignature => n.signatureItems
  | .propertySignature | .methodSignature => [.member n]
  | _ => []

/-- What a type, or a declaration of one, contributes. -/
def typeItems (n : Node) : List Item :=
  match n.kind with
  | .objectType | .interfaceBody => n.namedChildren.flatMap typeMemberItems
  | .typeIdentifier => [.reference .type n.name]
  | _ => n.typeParts.attach.flatMap fun ⟨c, _⟩ => typeItems c
termination_by n.size
decreasing_by exact size_lt_of_mem_typeParts ‹_›

theorem typeItems_eq (n : Node) : n.typeItems =
    match n.kind with
    | .objectType | .interfaceBody => n.namedChildren.flatMap typeMemberItems
    | .typeIdentifier => [.reference .type n.name]
    | _ => n.typeParts.flatMap typeItems := by
  have hparts : (n.typeParts.attach.flatMap fun ⟨c, _⟩ => typeItems c) =
      n.typeParts.flatMap typeItems := by simp [List.flatMap_def]
  rw [typeItems]
  split <;> first | rfl | exact hparts

/-! ## Values -/

/-- What a spread contributes: the names of the word it spreads. -/
def spreadItems (n : Node) : List Item :=
  match n.namedChildren.head?.map unwrap with
  | some target => if target.kind = .identifier then [.reference .value target.name] else []
  | none => []

/-- What an element of an array contributes. A bare word is itself a name. -/
def elementItems (n : Node) : List Item :=
  match n.kind with
  | .string | .templateString => [.literal n]
  | .identifier => [.name n.name]
  | .spreadElement => n.spreadItems
  | _ => []

def arrayItems (n : Node) : List Item := n.namedChildren.flatMap elementItems

def objectItems (n : Node) : List Item :=
  n.namedChildren.flatMap fun m => if m.kind = .spreadElement then m.spreadItems else [.member m]

/-- What a value without wrappers contributes. -/
def plainItems (n : Node) : List Item :=
  match n.kind with
  | .array => n.arrayItems
  | .object => n.objectItems
  | .identifier => [.reference .value n.name]
  | _ => []

/-- What a value contributes. A cast to a generic type counts for its value only if that is an
array or an object. -/
def valueItems (n : Node) : List Item :=
  match n.genericCast? with
  | some (cast, type) =>
    if cast.unwrap.kind = .array ∨ cast.unwrap.kind = .object then n.unwrap.plainItems
    else type.typeItems
  | none => n.unwrap.plainItems

/-- What a declaration contributes. -/
def items : Meaning → Node → List Item
  | .value, n => n.valueItems
  | .type, n => n.typeItems

end Node
end SurfaceCoverage
