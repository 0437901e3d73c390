import Mathlib.Data.List.Forall2
import SurfaceCoverage.Settings
import SurfaceCoverage.Proofs.Links
/-!
# Arrays and objects that declare the same names

Options come as an array of names or as an object with a member for each name. An array and an
object correspond if their parts do, one by one: a literal and a member with its value as key, a
word and the shorthand that repeats it, and two spreads of the same word. Then their items come to
the same texts with any way to expand references, and so the names of the two are the same search.
-/

namespace SurfaceCoverage

namespace Node

/-- Casts, assertions and parentheses around a value, one around the other. -/
inductive Encloses (value : Node) : Node → Prop where
  | itself : Encloses value value
  /-- `v as T`, `v satisfies T`, `v!` or `(v)`. -/
  | first {n inner : Node} {rest : List Node}
      (kind : n.kind = .asExpression ∨ n.kind = .satisfiesExpression ∨
        n.kind = .nonNullExpression ∨ n.kind = .parenthesizedExpression)
      (parts : n.namedChildren = inner :: rest) (around : Encloses value inner) : Encloses value n
  /-- `<T>v`. -/
  | second {n type inner : Node} {rest : List Node} (kind : n.kind = .typeAssertion)
      (parts : n.namedChildren = type :: inner :: rest) (asserted : type.kind = .typeArguments)
      (plain : inner.kind ≠ .typeArguments) (around : Encloses value inner) : Encloses value n

theorem Encloses.unwrap_eq {value n : Node} (h : value.Encloses n) : n.unwrap = value.unwrap := by
  induction h with
  | itself => rfl
  | @first n inner rest kind parts _ ih =>
    have hinner : n.wrapped? = some inner := by
      unfold wrapped? isWrapper
      rcases kind with hk | hk | hk | hk <;> simp [hk, parts]
    rw [Node.unwrap_eq, hinner]
    exact ih
  | @second n type inner rest kind parts asserted plain _ ih =>
    have hinner : n.wrapped? = some inner := by
      unfold wrapped?
      rw [if_pos kind, parts]
      simp [asserted, plain]
    rw [Node.unwrap_eq, hinner]
    exact ih

theorem Encloses.unwrap_of_list {value n : Node} (h : value.Encloses n)
    (hk : value.kind = .array ∨ value.kind = .object) : n.unwrap = value := by
  have hbare : value.wrapped? = none := by
    unfold wrapped? isWrapper
    rcases hk with hk | hk <;> simp [hk]
  rw [h.unwrap_eq, Node.unwrap_eq, hbare]
  rfl

/-- A cast around an array or an object says nothing about its names. -/
theorem Encloses.valueItems {value n : Node} (h : value.Encloses n)
    (hk : value.kind = .array ∨ value.kind = .object) : n.valueItems = value.plainItems := by
  have hn := h.unwrap_of_list hk
  have hd : n.declaredValue? = some value := by
    unfold declaredValue?
    rw [hn]
    exact if_pos hk
  rw [← valueItems_declaredValue? hd, ← hn]
  exact valueItems_unwrap (hn ▸ hk)

/-! ## Parts that declare the same -/

/-- A key that is a word stands for itself, one that is a string for its value. -/
def IsKeyFor (key : Node) (t : Text) : Prop :=
  ((key.kind = .propertyIdentifier ∨ key.kind = .identifier ∨
    key.kind = .privatePropertyIdentifier) ∧ key.name = t) ∨
  key.kind = .string ∧ key.stringValue = .ok (some t)

/-- The spread of a word, which may be under casts. -/
def Spreads (n : Node) (word : Text) : Prop :=
  n.kind = .spreadElement ∧ ∃ (target argument : Node) (rest : List Node),
    n.namedChildren = argument :: rest ∧ target.Encloses argument ∧
      target.kind = .identifier ∧ target.name = word

/-- An element of an array and the member of an object that says the same. -/
inductive Corresponds : Node → Node → Prop where
  | pair {element m key : Node} {t : Text}
      (literal : element.kind = .string ∨ element.kind = .templateString)
      (value : element.stringValue = .ok (some t))
      (kind : m.kind = .pair) (child : m.child? .key = some key) (named : key.IsKeyFor t) :
      Corresponds element m
  | method {element m key : Node} {t : Text}
      (literal : element.kind = .string ∨ element.kind = .templateString)
      (value : element.stringValue = .ok (some t))
      (kind : m.kind = .methodDefinition) (child : m.child? .name = some key)
      (named : key.IsKeyFor t) : Corresponds element m
  | word {element m : Node} (identifier : element.kind = .identifier)
      (shorthand : m.kind = .shorthandPropertyIdentifier) (same : m.name = element.name) :
      Corresponds element m
  | spread {element m : Node} {word : Text} (spreads : element.Spreads word)
      (spreads' : m.Spreads word) : Corresponds element m

theorem memberName?_of_key {m key : Node} {t : Text} (hk : m.memberKey? = some key)
    (hm : m.kind ≠ .shorthandPropertyIdentifier)
    (hp : m.kind ≠ .shorthandPropertyIdentifierPattern) (h : key.IsKeyFor t) :
    m.memberName? = .ok (some t) := by
  unfold memberName?
  rw [if_neg (not_or.2 ⟨hm, hp⟩), hk]
  rcases h with ⟨hkey | hkey | hkey, rfl⟩ | ⟨hkey, hvalue⟩
  · simp only [hkey]
  · simp only [hkey]
  · simp only [hkey]
  · simp only [hkey, hvalue]

theorem Spreads.spreadItems {n : Node} {word : Text} (h : n.Spreads word) :
    n.spreadItems = [.reference .value word] := by
  obtain ⟨-, target, argument, rest, hparts, hcasts, hk, rfl⟩ := h
  have hbare : target.unwrap = target := by
    rw [unwrap_eq]
    unfold wrapped? isWrapper
    simp [hk]
  unfold Node.spreadItems
  simp [hparts, hcasts.unwrap_eq, hbare, hk]

end Node

/-! ## Items that declare the same -/

/-- An item that comes to one text, without any reference. -/
def Item.Declares (t : Text) : Item → Prop
  | .name u => u = t
  | .literal n => n.stringValue = .ok (some t)
  | .member n => n.memberName? = .ok (some t)
  | .reference .. => False

/-- Two items that declare the same text, or the same item twice. -/
def Item.Agrees (i j : Item) : Prop := i = j ∨ ∃ t, i.Declares t ∧ j.Declares t

section
variable {refer : Meaning → Text → Search (List Text)}

theorem Search.itemNames_of_declares {i : Item} {t : Text} (h : i.Declares t) (items : List Item) :
    itemNames refer (i :: items) = (t :: ·) <$> itemNames refer items := by
  cases i with
  | name u =>
    cases h
    rfl
  | literal n =>
    rw [itemNames]
    simp only [show n.stringValue = .ok (some t) from h]
    rfl
  | member n =>
    rw [itemNames]
    simp only [show n.memberName? = .ok (some t) from h]
    rfl
  | reference => exact h.elim

/-- Items that agree one by one come to the same texts, with any way to expand references. -/
theorem Search.itemNames_congr {is js : List Item} (h : List.Forall₂ Item.Agrees is js) :
    itemNames refer is = itemNames refer js := by
  induction h with
  | nil => rfl
  | @cons i j is js hij _ ih =>
    rcases hij with rfl | ⟨t, hi, hj⟩
    · cases i <;> simp only [itemNames, ih]
    · rw [itemNames_of_declares hi, itemNames_of_declares hj, ih]

end

theorem Node.Corresponds.agrees {element m : Node} (h : element.Corresponds m) :
    List.Forall₂ Item.Agrees element.elementItems
      (if m.kind = .spreadElement then m.spreadItems else [.member m]) := by
  have hnamed {t : Text} (hl : element.kind = .string ∨ element.kind = .templateString)
      (hv : element.stringValue = .ok (some t)) (hk : m.kind ≠ .spreadElement)
      (hm : m.memberName? = .ok (some t)) : List.Forall₂ Item.Agrees element.elementItems
        (if m.kind = .spreadElement then m.spreadItems else [.member m]) := by
    have hitems : element.elementItems = [.literal element] := by
      unfold Node.elementItems
      rcases hl with hl | hl <;> simp only [hl]
    rw [hitems, if_neg hk]
    exact .cons (.inr ⟨t, hv, hm⟩) .nil
  cases h with
  | pair literal value kind child named =>
    refine hnamed literal value (by simp [kind]) ?_
    refine Node.memberName?_of_key ?_ (by simp [kind]) (by simp [kind]) named
    unfold Node.memberKey?
    simp only [kind, child]
  | method literal value kind child named =>
    refine hnamed literal value (by simp [kind]) ?_
    refine Node.memberName?_of_key ?_ (by simp [kind]) (by simp [kind]) named
    unfold Node.memberKey?
    simp only [kind, child]
  | word identifier shorthand same =>
    have hitems : element.elementItems = [.name element.name] := by
      unfold Node.elementItems
      simp only [identifier]
    have hname : m.memberName? = .ok (some element.name) := by
      unfold Node.memberName?
      rw [if_pos (.inl shorthand), same]
    rw [hitems, if_neg (by simp [shorthand])]
    exact .cons (.inr ⟨element.name, rfl, hname⟩) .nil
  | spread spreads spreads' =>
    have hitems : element.elementItems = element.spreadItems := by
      unfold Node.elementItems
      simp only [spreads.1]
    rw [hitems, if_pos spreads'.1, spreads.spreadItems, spreads'.spreadItems]
    exact .cons (.inl rfl) .nil

/-- The items of an array and of an object agree if their parts correspond. -/
theorem Node.items_agree {array object : Node}
    (h : List.Forall₂ Node.Corresponds array.namedChildren object.namedChildren) :
    List.Forall₂ Item.Agrees array.arrayItems object.objectItems :=
  List.rel_flatMap h fun _ _ h => h.agrees

/-- The names of an array are those of an object whose members correspond to its elements, whatever
casts are around the two: the same search, in every project and after any lookups. So the texts,
their order and the failures are the same, whatever the values of the members and the spread words
are. -/
theorem array_names_eq_object_names (w : Workspace) (scope : Scope) {array object a o : Node}
    (harray : array.kind = .array) (hobject : object.kind = .object)
    (hparts : List.Forall₂ Node.Corresponds array.namedChildren object.namedChildren)
    (ha : array.Encloses a) (ho : object.Encloses o) :
    Search.valueNames w scope a = Search.valueNames w scope o := by
  have hitems : List.Forall₂ Item.Agrees a.valueItems o.valueItems := by
    rw [ha.valueItems (.inl harray), ho.valueItems (.inr hobject)]
    have harrayItems : array.plainItems = array.arrayItems := by
      unfold Node.plainItems
      simp only [harray]
    have hobjectItems : object.plainItems = object.objectItems := by
      unfold Node.plainItems
      simp only [hobject]
    rw [harrayItems, hobjectItems]
    exact Node.items_agree hparts
  unfold Search.valueNames Search.namesOf
  rw [Search.itemNames_congr hitems]

/-! ### An array and an object of one script -/

def formsSource : List Char :=
  ("const d = ['s', 'a']\nconst array = (['a', `b`, c, ...d] as const)\n" ++
    "const object = \x7b a: String, 'b'() \x7b\x7d, c, ...d! \x7d as Options\n").toList

def formsComponent : Scope := ⟨(Module.read formsSource none).1, []⟩

def formsArray : Node :=
  .branch .none .array [
    .leaf .none .token "[",
    .branch .none .string
      [.leaf .none .token "'", .leaf .none .stringFragment "a", .leaf .none .token "'"],
    .leaf .none .token ",", .leaf .none .blank " ",
    .branch .none .templateString
      [.leaf .none .token "`", .leaf .none .stringFragment "b", .leaf .none .token "`"],
    .leaf .none .token ",", .leaf .none .blank " ",
    .leaf .none .identifier "c",
    .leaf .none .token ",", .leaf .none .blank " ",
    .branch .none .spreadElement [.leaf .none .token "...", .leaf .none .identifier "d"],
    .leaf .none .token "]"]

def formsObject : Node :=
  .branch .none .object [
    .leaf .none .token "\x7b", .leaf .none .blank " ",
    .branch .none .pair [.leaf .key .propertyIdentifier "a", .leaf .none .token ":",
      .leaf .none .blank " ", .leaf .value .identifier "String"],
    .leaf .none .token ",", .leaf .none .blank " ",
    .branch .none .methodDefinition [
      .branch .name .string
        [.leaf .none .token "'", .leaf .none .stringFragment "b", .leaf .none .token "'"],
      .branch .parameters .formalParameters [.leaf .none .token "(", .leaf .none .token ")"],
      .leaf .none .blank " ",
      .branch .body .statementBlock [.leaf .none .token "\x7b", .leaf .none .token "\x7d"]],
    .leaf .none .token ",", .leaf .none .blank " ",
    .leaf .none .shorthandPropertyIdentifier "c",
    .leaf .none .token ",", .leaf .none .blank " ",
    .branch .none .spreadElement [.leaf .none .token "...",
      .branch .none .nonNullExpression [.leaf .none .identifier "d", .leaf .none .token "!"]],
    .leaf .none .blank " ", .leaf .none .token "\x7d"]

/-- `(array as const)` -/
def formsConstArray : Node :=
  .branch .value .parenthesizedExpression [.leaf .none .token "(",
    .branch .none .asExpression [formsArray, .leaf .none .blank " ", .leaf .none .token "as",
      .leaf .none .blank " ", .leaf .none .token "const"],
    .leaf .none .token ")"]

/-- `object as Options` -/
def formsCastObject : Node :=
  .branch .value .asExpression [formsObject, .leaf .none .blank " ", .leaf .none .token "as",
    .leaf .none .blank " ", .leaf .none .typeIdentifier "Options"]

/-- The two are what the script declares, and the array has the names in the order of its elements,
those of the spread in its place. -/
theorem formsComponent_spec :
    formsComponent.root.localInitializer? (Text.ofString "array") = some formsConstArray ∧
    formsComponent.root.localInitializer? (Text.ofString "object") = some formsCastObject ∧
    ((Search.valueNames (Settings.workspace {} ⟨[], [], []⟩) formsComponent
      formsConstArray).evaluate { limit := 32 }).toOption.map MemberList.toList =
        some (["a", "b", "c", "s"].map Text.ofString) := by
  decide +kernel

theorem array_names_eq_object_names_forms :
    formsComponent.root.localInitializer? (Text.ofString "array") = some formsConstArray ∧
    formsComponent.root.localInitializer? (Text.ofString "object") = some formsCastObject ∧
    ((Search.valueNames (Settings.workspace {} ⟨[], [], []⟩) formsComponent
      formsCastObject).evaluate { limit := 32 }).toOption.map MemberList.toList =
        some (["a", "b", "c", "s"].map Text.ofString) := by
  have hparts : List.Forall₂ Node.Corresponds formsArray.namedChildren formsObject.namedChildren :=
    .cons (.pair (.inl rfl) rfl rfl rfl (.inl ⟨.inl rfl, rfl⟩)) <|
    .cons (.method (.inr rfl) rfl rfl rfl (.inr ⟨rfl, rfl⟩)) <|
    .cons (.word rfl rfl rfl) <|
    .cons (.spread ⟨rfl, _, _, _, rfl, .itself, rfl, rfl⟩
      ⟨rfl, .leaf .none .identifier "d", _, _, rfl,
        .first (.inr (.inr (.inl rfl))) rfl .itself, rfl, rfl⟩) .nil
  have harray : formsArray.Encloses formsConstArray :=
    .first (.inr (.inr (.inr rfl))) rfl (.first (.inl rfl) rfl .itself)
  have hobject : formsObject.Encloses formsCastObject := .first (.inl rfl) rfl .itself
  obtain ⟨ha, ho, hnames⟩ := formsComponent_spec
  refine ⟨ha, ho, ?_⟩
  rw [← array_names_eq_object_names _ _ rfl rfl hparts harray hobject]
  exact hnames

end SurfaceCoverage
