import SurfaceCoverage.Template.Mentions
import SurfaceCoverage.Proofs.Scanning
/-!
# Templates as they are written

A template is written as a tree of elements, comments and text. Values of attributes are quoted and
may hold anything but their quotation mark; comments may hold anything but their end; text holds no
opening bracket. Between two things there is at most one text, so what is written side by side is
written in one way.
-/

namespace SurfaceCoverage

/-! ## Blanks and letters -/

namespace Letters

/-- The numbers of the blanks. -/
def blanks : List Nat :=
  [9, 10, 11, 12, 13, 28, 29, 30, 31, 32, 0x85, 0xa0, 0x1680, 0x2000, 0x2001, 0x2002, 0x2003, 0x2004,
    0x2005, 0x2006, 0x2007, 0x2008, 0x2009, 0x200a, 0x2028, 0x2029, 0x202f, 0x205f, 0x3000]

theorem forall_blank {P : Char → Prop} (h : ∀ n ∈ blanks, P (Char.ofNat n)) {c : Char}
    (hc : isBlank c = true) : P c := by
  have hn : c.toNat ∈ blanks := by
    simp only [isBlank, Bool.or_eq_true, Bool.and_eq_true, decide_eq_true_eq, beq_iff_eq] at hc
    simp only [blanks, List.mem_cons, List.not_mem_nil, or_false]
    omega
  rw [← Char.ofNat_toNat c]
  exact h _ hn

/-- Only a small letter has spellings in another case. -/
theorem eq_of_isCaseOf {small c : Char} (hs : small.isLower = false) (h : isCaseOf small c = true) :
    c = small := by
  have hspecial : ∀ d : Char, d.isLower = true → (small == d) = false := by
    intro d hd
    rw [beq_eq_false_iff_ne]
    rintro rfl
    rw [hd] at hs
    cases hs
  simp only [isCaseOf, hspecial 'i' (by decide), hspecial 's' (by decide), hspecial 'k' (by decide),
    Bool.false_and, Bool.or_false, beq_iff_eq] at h
  unfold Char.toLower at h
  split at h
  · rename_i hc
    rw [← h] at hs
    unfold Char.isLower at hs
    simp only [ge_iff_le, Bool.and_eq_false_imp, decide_eq_true_eq, decide_eq_false_iff_not,
      UInt32.le_iff_toNat_le, UInt32.toNat_add] at hs hc
    have hA : 'A'.val.toNat = 65 := rfl
    have hZ : 'Z'.val.toNat = 90 := rfl
    have ha : 'a'.val.toNat = 97 := rfl
    have hz : 'z'.val.toNat = 122 := rfl
    have hshift : ('a'.val - 'A'.val).toNat = 32 := rfl
    omega
  · exact h

end Letters

/-- A word that begins with no small letter is found only where its first character stands. -/
theorem behind?_isCaseOf_cons {d : Char} (hd : d.isLower = false) {c : CodePoint} (hc : c ≠ .scalar d)
    (w : List Char) (t : Text) : Scan.behind? CodePoint.isCaseOf (d :: w) (c :: t) = none := by
  refine if_neg fun h => hc ?_
  cases c with
  | surrogate i => cases h
  | scalar c => rw [Letters.eq_of_isCaseOf hd h]

namespace Template

open Scan

/-! ## Ends of names -/

/-- Code points that no name of a tag or an attribute holds. -/
def delimits (p : CodePoint) : Bool := p.isBlank || isQuote p || isBracket p || p = '=' || p = '/'

theorem delimits_of_isBlank {p : CodePoint} (h : p.isBlank = true) : delimits p = true := by
  simp [delimits, h]

theorem not_isBlank_of_delimits {p : CodePoint} (h : delimits p = false) : p.isBlank = false := by
  cases hb : p.isBlank with
  | false => rfl
  | true => rw [delimits_of_isBlank hb] at h; cases h

theorem continuesAttribute_of_isBlank {p : CodePoint} (h : p.isBlank = true) :
    continuesAttribute p = false := by
  cases p with
  | surrogate i => cases h
  | scalar c =>
    refine Letters.forall_blank (P := fun c => continuesAttribute (.scalar c) = false) ?_ h
    decide +kernel

theorem continuesAttribute_of_delimits {p : CodePoint} (h : delimits p = true) :
    continuesAttribute p = false := by
  simp only [delimits, isQuote, isBracket, Bool.or_eq_true, decide_eq_true_eq] at h
  rcases h with (((h | rfl | rfl) | rfl | rfl) | rfl) | rfl
  · exact continuesAttribute_of_isBlank h
  all_goals decide

theorem continuesTag_of_delimits {p : CodePoint} (h : delimits p = true) : continuesTag p = false := by
  have ha := continuesAttribute_of_delimits h
  simp only [continuesAttribute, Bool.or_eq_false_iff] at ha
  simp only [continuesTag, ha.1, Bool.false_or, Bool.or_eq_false_iff, decide_eq_false_iff_not]
  constructor <;> rintro rfl <;> exact absurd ha.2 (by decide)

theorem continuesSlot_of_delimits {p : CodePoint} (h : delimits p = true) : continuesSlot p = false := by
  have ht := continuesTag_of_delimits h
  simp only [continuesTag, Bool.or_eq_false_iff] at ht
  simp only [continuesSlot, ht.1.1, ht.2, Bool.or_self]

/-! ## Attributes -/

/-- Blanks, or nothing. -/
abbrev Blanks := { t : Text // ∀ p ∈ t, p.isBlank = true }

def Blanks.none : Blanks := ⟨[], by decide⟩

def Blanks.one : Blanks := ⟨[.scalar ' '], by decide⟩

/-- Blanks between two things. -/
abbrev Gap := { t : Text // t ≠ [] ∧ ∀ p ∈ t, p.isBlank = true }

def Gap.one : Gap := ⟨[.scalar ' '], by decide⟩

/-- The kinds of quotation marks. -/
inductive Quote where
  | double
  | single
deriving DecidableEq

def Quote.mark : Quote → CodePoint
  | double => '"'
  | single => '\''

theorem Quote.isQuote_mark (q : Quote) : isQuote q.mark = true := by cases q <;> rfl

/-- A quoted value with the equals sign in front of it, between blanks. -/
structure Value where
  before : Blanks := .none
  after : Blanks := .none
  quote : Quote := .double
  text : Text
  quote_notMem : quote.mark ∉ text := by decide

/-- An attribute with the blanks in front of it. -/
structure Attribute where
  gap : Gap := .one
  name : Text
  value : Option Value := none
  name_ne_nil : name ≠ [] := by decide
  not_delimits_name : ∀ p ∈ name, delimits p = false := by decide

namespace Value

def write (v : Value) : Text :=
  v.before.val ++ .scalar '=' :: (v.after.val ++ v.quote.mark :: (v.text ++ [v.quote.mark]))

end Value

namespace Attribute

/-- What is written behind an attribute's name. -/
def assigned (a : Attribute) : Text := (a.value.map Value.write).getD []

def write (a : Attribute) : Text := a.gap.val ++ a.name ++ a.assigned

end Attribute

/-! ## Tags -/

/-- Names of tags. -/
def isTagName : Text → Bool
  | .scalar c :: t => c.isAlpha && t.all continuesTag
  | _ => false

/-- An opening tag, with the blanks before its end. -/
structure Opening where
  name : Text
  attributes : List Attribute
  space : Blanks := .none
  isTagName_name : isTagName name = true := by decide

namespace Opening

/-- What is written between the name of a tag and its closing bracket. -/
def between (o : Opening) (slash : Bool) : Text :=
  o.attributes.flatMap Attribute.write ++ (o.space.val ++ if slash then [.scalar '/'] else [])

/-- An opening tag, or with a slash one that stands for a whole element. -/
def write (o : Opening) (slash : Bool) : Text :=
  .scalar '<' :: (o.name ++ (o.between slash ++ [.scalar '>']))

/-- The values of a tag's attributes. -/
def values (o : Opening) : List Value := o.attributes.filterMap Attribute.value

end Opening

/-- The closing tag of an element. -/
def closing (name : Text) : Text := .scalar '<' :: .scalar '/' :: (name ++ [.scalar '>'])

/-! ## Trees -/

/-- Text without markup. -/
abbrev Prose := { t : Text // CodePoint.scalar '<' ∉ t }

def Prose.none : Prose := ⟨[], by decide⟩

/-- What a comment can hold. -/
abbrev Remark := { t : Text // ¬ Text.ofString "-->" <:+: t }

/-- The content of a template or of an element: texts with comments, elements without content and
elements with content between them. -/
inductive Markup where
  | text (t : Prose)
  | comment (before : Prose) (r : Remark) (next : Markup)
  | leaf (before : Prose) (o : Opening) (slash : Bool) (next : Markup)
  | element (before : Prose) (o : Opening) (children next : Markup)

namespace Markup

def write : Markup → Text
  | text t => t.val
  | comment b r next => b.val ++ (Text.ofString "<!--" ++ (r.val ++ (Text.ofString "-->" ++ next.write)))
  | leaf b o slash next => b.val ++ (o.write slash ++ next.write)
  | element b o children next =>
    b.val ++ (o.write false ++ (children.write ++ (closing o.name ++ next.write)))

/-- The texts between comments and tags. -/
def texts : Markup → List Text
  | text t => [t.val]
  | comment b _ next => b.val :: next.texts
  | leaf b _ _ next => b.val :: next.texts
  | element b _ children next => b.val :: (children.texts ++ next.texts)

/-- What the comments hold. -/
def comments : Markup → List Text
  | text _ => []
  | comment _ r next => r.val :: next.comments
  | leaf _ _ _ next => next.comments
  | element _ _ children next => children.comments ++ next.comments

/-- The tags of all elements, in document order. -/
def openings : Markup → List Opening
  | text _ => []
  | comment _ _ next => next.openings
  | leaf _ o _ next => o :: next.openings
  | element _ o children next => o :: (children.openings ++ next.openings)

end Markup

/-! ## Patterns that begin at brackets -/

/-- A pattern that begins only at the bracket of an opening tag. -/
structure BeginsMarkup {β : Type} (p : Pattern CodePoint β) : Prop where
  blind : Blind p
  avoids : ∀ c, c ≠ .scalar '<' → p.Avoids c
  closing : ∀ t, p none (.scalar '<' :: .scalar '/' :: t) = none
  comment : ∀ t, p none (.scalar '<' :: .scalar '!' :: t) = none

section
variable {β : Type} {p : Pattern CodePoint β} (hp : BeginsMarkup p)
include hp

theorem BeginsMarkup.map {γ : Type} (f : β → γ) : BeginsMarkup (p.map f) where
  blind previous t := congrArg _ (hp.blind previous t)
  avoids c hc t := congrArg _ (hp.avoids c hc t)
  closing t := congrArg _ (hp.closing t)
  comment t := congrArg _ (hp.comment t)

theorem BeginsMarkup.avoids_of_notMem {t : Text} (ht : CodePoint.scalar '<' ∉ t) :
    ∀ c ∈ t, p.Avoids c := fun c hc => hp.avoids c fun h => ht (h ▸ hc)

theorem BeginsMarkup.all_prose {t : Text} (ht : CodePoint.scalar '<' ∉ t) (rest : Text) :
    all p none 0 (t ++ rest) = all p none 0 rest :=
  all_pass hp.blind (hp.avoids_of_notMem ht) (Nat.zero_le _) rest

theorem BeginsMarkup.all_closing {name : Text} (hn : CodePoint.scalar '<' ∉ name) (rest : Text) :
    all p none 0 (Template.closing name ++ rest) = all p none 0 rest := by
  have htail : CodePoint.scalar '<' ∉ .scalar '/' :: (name ++ [.scalar '>']) := by simpa using hn
  have hclosing : p none (.scalar '<' :: (.scalar '/' :: (name ++ [.scalar '>']) ++ rest)) = none :=
    hp.closing _
  rw [Template.closing, List.cons_append, all]
  simp only [hclosing]
  rw [all_blind hp.blind]
  exact hp.all_prose htail rest

end

theorem exists_of_isTagName {name : Text} (h : isTagName name = true) :
    ∃ c more, name = .scalar c :: more ∧ c.isAlpha = true ∧ ∀ p ∈ more, continuesTag p = true := by
  unfold isTagName at h
  split at h
  · simp only [Bool.and_eq_true, List.all_eq_true] at h
    exact ⟨_, _, rfl, h.1, h.2⟩
  · cases h

theorem not_delimits_of_isTagName {name : Text} (h : isTagName name = true) :
    ∀ c ∈ name, delimits c = false := by
  obtain ⟨c, more, rfl, hc, hmore⟩ := exists_of_isTagName h
  intro d hd
  by_contra hdelimits
  rw [Bool.not_eq_false] at hdelimits
  rcases List.mem_cons.1 hd with rfl | hd
  · simp only [delimits, isQuote, isBracket, Bool.or_eq_true, decide_eq_true_eq] at hdelimits
    rcases hdelimits with (((hb | hq | hq) | hq | hq) | hq) | hq
    · rw [Letters.forall_blank (P := fun c => c.isAlpha = false) (by decide) hb] at hc
      cases hc
    all_goals
      rw [CodePoint.scalar.inj hq] at hc
      exact absurd hc (by decide)
  · have h := hmore d hd
    rw [continuesTag_of_delimits hdelimits] at h
    cases h

theorem lt_notMem_of_isTagName {name : Text} (h : isTagName name = true) :
    CodePoint.scalar '<' ∉ name := by
  intro hm
  exact absurd (not_delimits_of_isTagName h _ hm) (by decide)

/-! ## Attributes one behind the other -/

theorem dropBlanks_append {s : Text} (hs : ∀ p ∈ s, p.isBlank = true) (rest : Text) :
    dropBlanks (s ++ rest) = dropBlanks rest := List.dropWhile_append_of_pos hs

theorem dropBlanks_cons {p : CodePoint} (hp : p.isBlank = false) (t : Text) :
    dropBlanks (p :: t) = p :: t := by
  simp [dropBlanks, hp]

theorem not_isBlank_of_isQuote {q : CodePoint} (h : isQuote q = true) : q.isBlank = false := by
  simp only [isQuote, Bool.or_eq_true, decide_eq_true_eq] at h
  rcases h with rfl | rfl <;> rfl

theorem delimits_of_isQuote {q : CodePoint} (h : isQuote q = true) : delimits q = true := by
  simp [delimits, h]

theorem Attribute.exists_blank_write (a : Attribute) : ∃ p t, a.write = p :: t ∧ p.isBlank = true := by
  obtain ⟨p, t, h⟩ := List.exists_cons_of_ne_nil a.gap.property.1
  exact ⟨p, t ++ (a.name ++ a.assigned), by simp [Attribute.write, h],
    a.gap.property.2 p (h ▸ List.mem_cons_self)⟩

/-- An attribute's name ends where its value or what follows begins. -/
theorem Attribute.delimits_head_assigned (a : Attribute) {rest : Text}
    (hrest : ∀ c ∈ rest.head?, delimits c = true) :
    ∀ c ∈ (a.assigned ++ rest).head?, delimits c = true := by
  unfold assigned
  cases hv : a.value with
  | none => exact hrest
  | some v =>
    intro c hc
    simp only [Option.map_some, Option.getD_some, Value.write] at hc
    rcases hb : v.before.val with _ | ⟨b, bs⟩ <;> rw [hb] at hc <;> cases hc
    · rfl
    · exact delimits_of_isBlank (v.before.property _ (hb ▸ List.mem_cons_self))

/-- No name goes on where the next attribute or the end of the attributes begins. -/
theorem delimits_head_attributes (as : List Attribute) {rest : Text}
    (hrest : ∀ c ∈ rest.head?, delimits c = true) :
    ∀ c ∈ (as.flatMap Attribute.write ++ rest).head?, delimits c = true := by
  rcases as with _ | ⟨a, as⟩
  · exact hrest
  · obtain ⟨p, t, h, hp⟩ := a.exists_blank_write
    intro c hc
    rw [List.flatMap_cons, h] at hc
    cases hc
    exact delimits_of_isBlank hp

/-- No equals sign stands there either. -/
theorem equals_notBehind_attributes (as : List Attribute) {ending : Text}
    (he : (dropBlanks ending).head? ≠ some (.scalar '=')) :
    (dropBlanks (as.flatMap Attribute.write ++ ending)).head? ≠ some (.scalar '=') := by
  rcases as with _ | ⟨a, as⟩
  · exact he
  · obtain ⟨p, t, hname⟩ := List.exists_cons_of_ne_nil a.name_ne_nil
    have hp := a.not_delimits_name p (hname ▸ List.mem_cons_self)
    simp only [List.flatMap_cons, Attribute.write, List.append_assoc]
    rw [dropBlanks_append a.gap.property.2, hname, List.cons_append,
      dropBlanks_cons (not_isBlank_of_delimits hp)]
    intro h
    rw [Option.some.inj h] at hp
    exact absurd hp (by decide)

/-! ## Tags are read -/

namespace Opening

variable {o : Opening} {slash : Bool}

/-- Behind the name of a tag there is a blank, a slash or nothing. -/
theorem between_cases (o : Opening) (slash : Bool) :
    o.between slash = [] ∨ (slash = true ∧ o.between slash = [.scalar '/']) ∨
      ∃ p t, o.between slash = p :: t ∧ p.isBlank = true := by
  unfold between
  rcases ha : o.attributes with _ | ⟨a, as⟩
  · rcases hs : o.space.val with _ | ⟨p, t⟩
    · cases slash <;> simp
    · refine .inr (.inr ⟨p, t ++ (if slash then [.scalar '/'] else []), by simp, ?_⟩)
      exact o.space.property p (hs ▸ List.mem_cons_self)
  · obtain ⟨p, t, h, hp⟩ := a.exists_blank_write
    exact .inr (.inr ⟨p, _, by rw [List.flatMap_cons, h]; rfl, hp⟩)

theorem not_isBracket_of_isBlank {p : CodePoint} (h : p.isBlank = true) : isBracket p = false := by
  simp only [isBracket, Bool.or_eq_false_iff, decide_eq_false_iff_not]
  constructor <;> rintro rfl <;> exact absurd h (by decide)

theorem not_isBracket_of_isQuote {p : CodePoint} (h : isQuote p = true) : isBracket p = false := by
  simp only [isQuote, Bool.or_eq_true, decide_eq_true_eq] at h
  rcases h with rfl | rfl <;> rfl

/-- Brackets stand in values alone. -/
theorem mem_between {p : CodePoint} (h : p ∈ o.between slash) :
    isBracket p = false ∨ ∃ v ∈ o.values, p ∈ v.text := by
  rw [between, List.mem_append, List.mem_append, List.mem_flatMap] at h
  rcases h with ⟨a, ha, h⟩ | h | h
  · rw [Attribute.write, List.mem_append, List.mem_append] at h
    rcases h with (h | h) | h
    · exact .inl (not_isBracket_of_isBlank (a.gap.property.2 p h))
    · have hname := a.not_delimits_name p h
      simp only [delimits, Bool.or_eq_false_iff] at hname
      exact .inl hname.1.1.2
    · unfold Attribute.assigned at h
      cases hv : a.value with
      | none => rw [hv] at h; cases h
      | some v =>
        rw [hv, Option.map_some, Option.getD_some] at h
        simp only [Value.write, List.mem_append, List.mem_cons, List.not_mem_nil, or_false] at h
        rcases h with h | rfl | h | rfl | h | rfl
        · exact .inl (not_isBracket_of_isBlank (v.before.property p h))
        · exact .inl rfl
        · exact .inl (not_isBracket_of_isBlank (v.after.property p h))
        · exact .inl (not_isBracket_of_isQuote v.quote.isQuote_mark)
        · exact .inr ⟨v, List.mem_filterMap.2 ⟨a, ha, hv⟩, h⟩
        · exact .inl (not_isBracket_of_isQuote v.quote.isQuote_mark)
  · exact .inl (not_isBracket_of_isBlank (o.space.property p h))
  · cases slash
    · cases h
    · rw [List.mem_singleton.1 h]
      exact .inl rfl

theorem bracket_notMem_between {p : CodePoint} (hp : isBracket p = true)
    (h : ∀ v ∈ o.values, p ∉ v.text) : p ∉ o.between slash := by
  intro hm
  rcases mem_between hm with hb | ⟨v, hv, ht⟩
  · rw [hp] at hb
    cases hb
  · exact h v hv ht

/-- What stands behind the name of a tag is no part of it. -/
theorem delimits_head_between (o : Opening) (slash : Bool) (rest : Text) :
    ∀ p ∈ (o.between slash ++ .scalar '>' :: rest).head?, delimits p = true := by
  intro p hp
  rcases o.between_cases slash with h | ⟨-, h⟩ | ⟨q, t, h, hq⟩ <;> rw [h] at hp <;> cases hp
  · decide
  · decide
  · exact delimits_of_isBlank hq

theorem write_append (o : Opening) (slash : Bool) (rest : Text) :
    o.write slash ++ rest = .scalar '<' :: (o.name ++ (o.between slash ++ .scalar '>' :: rest)) := by
  simp [write]

/-- A tag holds one opening bracket, at its start. -/
theorem bracket_notMem_write {o : Opening} {slash : Bool} (h : CodePoint.scalar '<' ∉ o.between slash) :
    CodePoint.scalar '<' ∉ o.name ++ (o.between slash ++ [.scalar '>']) := by
  simp only [List.mem_append, List.mem_singleton, not_or]
  exact ⟨lt_notMem_of_isTagName o.isTagName_name, h, by decide⟩

theorem write_ne_nil (o : Opening) (slash : Bool) : o.write slash ≠ [] := List.cons_ne_nil _ _

theorem length_write (o : Opening) (slash : Bool) :
    (o.write slash).length = o.name.length + (o.between slash).length + 2 := by
  simp only [write, List.length_cons, List.length_append, List.length_nil]
  omega

end Opening

/-- The tag of a name that is read by what stands behind the name. -/
def tagEnd (name : Text) : Text → Option (Tag × Nat)
  | [] => none
  | p :: t =>
    if p.isBlank then
      let (attributes, rest) := (p :: t).span (!isBracket ·)
      if rest.head? = some (.scalar '>') then
        some (⟨name, trimAttributes attributes⟩, name.length + attributes.length + 2)
      else none
    else if p = .scalar '>' then some (⟨name, []⟩, name.length + 2)
    else if (behindWord? "/>" (p :: t)).isSome then some (⟨name, []⟩, name.length + 3)
    else none

theorem tag_name {name : Text} (h : isTagName name = true) {rest : Text}
    (hr : ∀ p ∈ rest.head?, delimits p = true) :
    tag none (.scalar '<' :: (name ++ rest)) = tagEnd name rest := by
  obtain ⟨c, more, rfl, hc, hmore⟩ := exists_of_isTagName h
  have hspan : (more ++ rest).span continuesTag = (more, rest) :=
    span_append hmore fun p hp => continuesTag_of_delimits (hr p hp)
  unfold tag
  simp only [List.cons_append, hspan, hc]
  cases rest <;> rfl

theorem behindWord?_append (w : String) (rest : Text) :
    behindWord? w (Text.ofString w ++ rest) = some rest := Text.dropStart?_append _ _

/-- A name holds nothing that ends names. -/
theorem notMem_of_delimits {w : String} (hw : ∀ c ∈ Text.ofString w, delimits c = false)
    {c : CodePoint} (hc : delimits c = true) : c ∉ Text.ofString w := by
  intro hm
  rw [hw c hm] at hc
  cases hc

/-- A name does not reach across the end of a name. -/
theorem behindWord?_append_delimiter {w : String} (hw : ∀ c ∈ Text.ofString w, delimits c = false)
    {c : CodePoint} (hc : delimits c = true) (s rest : Text) :
    behindWord? w (s ++ c :: rest) = (behindWord? w s).map (· ++ c :: rest) :=
  Text.dropStart?_append_cons (notMem_of_delimits hw hc) s rest

theorem behindWord?_append_of_head {w : String} (hw : ∀ c ∈ Text.ofString w, delimits c = false)
    (s : Text) {rest : Text} (hrest : ∀ c ∈ rest.head?, delimits c = true) :
    behindWord? w (s ++ rest) = (behindWord? w s).map (· ++ rest) := by
  rcases rest with _ | ⟨c, rest⟩
  · simp
  · exact behindWord?_append_delimiter hw (hrest c rfl) s rest

/-- An attribute's name is a word, or the word is not found in front of it, or the name goes on. -/
theorem Attribute.behindWord?_name (a : Attribute) (w : String) :
    a.name = w ∧ behindWord? w a.name = some [] ∨
      a.name ≠ w ∧ (behindWord? w a.name = none ∨
        ∃ c r, behindWord? w a.name = some (c :: r) ∧ delimits c = false) := by
  cases h : behindWord? w a.name with
  | none =>
    refine .inr ⟨fun e => ?_, .inl rfl⟩
    rw [e, ← List.append_nil (Text.ofString w), behindWord?_append] at h
    cases h
  | some r =>
    have hname := Text.dropStart?_eq_some.1 h
    rcases r with _ | ⟨c, r⟩
    · exact .inl ⟨by rw [hname, List.append_nil], rfl⟩
    · refine .inr ⟨fun e => ?_, .inr ⟨c, r, rfl, a.not_delimits_name c (by rw [hname]; simp)⟩⟩
      have hlength := congrArg List.length (hname.symm.trans e)
      simp at hlength

theorem tagEnd_slash (name rest : Text) :
    tagEnd name (.scalar '/' :: .scalar '>' :: rest) = some (⟨name, []⟩, name.length + 3) := by
  have hword : behindWord? "/>" (.scalar '/' :: .scalar '>' :: rest) = some rest :=
    behindWord?_append "/>" rest
  simp only [tagEnd, hword]
  rfl

theorem tagEnd_of_blank {p : CodePoint} {s t : Text} (name : Text) (hp : p.isBlank = true)
    (hs : ∀ q ∈ p :: s, isBracket q = false) : tagEnd name (p :: s ++ .scalar '>' :: t) =
      some (⟨name, trimAttributes (p :: s)⟩, name.length + (p :: s).length + 2) := by
  have hspan : (p :: s ++ .scalar '>' :: t).span (!isBracket ·) = (p :: s, .scalar '>' :: t) :=
    span_append (fun q hq => by rw [hs q hq]; rfl) fun q hq => by cases hq; decide
  rw [List.cons_append] at hspan ⊢
  simp only [tagEnd, hp, if_true, hspan]
  rfl

theorem beginsMarkup_tag : BeginsMarkup tag where
  blind _ _ := rfl
  avoids c hc as := by
    unfold tag
    split
    · rename_i h
      exact absurd (List.cons.inj h).1 hc
    · rfl
  closing t := rfl
  comment t := rfl

/-- A text without opening brackets up to the first closing one. -/
theorem exists_closing_bracket {t : Text} (h : CodePoint.scalar '<' ∉ t) :
    ∃ s u, t ++ [.scalar '>'] = s ++ .scalar '>' :: u ∧ ∀ p ∈ s, isBracket p = false := by
  induction t with
  | nil => exact ⟨[], [], rfl, fun p hp => by cases hp⟩
  | cons p t ih =>
    have hp : p ≠ .scalar '<' := fun e => h (e ▸ List.mem_cons_self)
    by_cases hq : p = .scalar '>'
    · exact ⟨[], t ++ [.scalar '>'], by rw [hq]; rfl, fun p hp => by cases hp⟩
    · obtain ⟨s, u, hs, hall⟩ := ih fun ht => h (List.mem_cons_of_mem p ht)
      refine ⟨p :: s, u, by rw [List.cons_append, hs, List.cons_append], fun q hm => ?_⟩
      rcases List.mem_cons.1 hm with rfl | hm
      · simp [isBracket, hp, hq]
      · exact hall q hm

/-- A tag is read by its name if its values hold no opening bracket. -/
theorem tag_write {o : Opening} {slash : Bool} (h : CodePoint.scalar '<' ∉ o.between slash)
    (rest : Text) : ∃ a n, tag none (o.write slash ++ rest) = some (⟨o.name, a⟩, n + 1) ∧
      n + 1 ≤ (o.write slash).length := by
  rw [o.write_append, tag_name o.isTagName_name (o.delimits_head_between slash rest), o.length_write]
  rcases o.between_cases slash with hb | ⟨-, hb⟩ | ⟨p, t, hb, hp⟩
  · rw [hb]
    exact ⟨[], o.name.length + 1, rfl, by simp⟩
  · rw [hb]
    exact ⟨[], o.name.length + 2, tagEnd_slash o.name rest, by simp⟩
  · -- the tag ends at its first closing bracket, which may stand in a value
    obtain ⟨s, u, hs, hall⟩ := exists_closing_bracket h
    have hwhole : o.between slash ++ .scalar '>' :: rest = s ++ .scalar '>' :: (u ++ rest) := by
      rw [← List.singleton_append, ← List.append_assoc, hs, List.append_assoc, List.cons_append]
    have hlength := congrArg List.length hs
    simp only [List.length_append, List.length_cons, List.length_nil] at hlength
    rw [hb, List.cons_append] at hs
    obtain ⟨s, rfl⟩ : ∃ s', s = p :: s' := by
      rcases s with _ | ⟨q, s⟩
      · cases (List.cons.inj hs).1
        cases hp
      · exact ⟨s, by rw [(List.cons.inj hs).1]⟩
    exact ⟨_, o.name.length + (p :: s).length + 1, by rw [hwhole, tagEnd_of_blank o.name hp hall],
      by omega⟩

/-- A tag is read whole if its values hold no brackets. -/
theorem tag_write_of_unbracketed {o : Opening} {slash : Bool}
    (h : ∀ p ∈ o.between slash, isBracket p = false) (rest : Text) :
    tag none (o.write slash ++ rest) = some (⟨o.name,
      if (o.between slash).head?.any CodePoint.isBlank then trimAttributes (o.between slash) else []⟩,
      (o.write slash).length) := by
  rw [o.write_append, tag_name o.isTagName_name (o.delimits_head_between slash rest), o.length_write]
  rcases o.between_cases slash with hb | ⟨-, hb⟩ | ⟨p, t, hb, hp⟩
  · rw [hb]
    rfl
  · rw [hb]
    exact tagEnd_slash o.name rest
  · rw [hb] at h ⊢
    rw [tagEnd_of_blank o.name hp h, List.head?_cons, Option.any_some, if_pos hp]

end Template
end SurfaceCoverage
