import SurfaceCoverage.Proofs.Markup
import SurfaceCoverage.SingleFile
/-!
# Attributes of the tags of a single-file component

The tags of a single-file component have attributes with quoted values or without values. Whether one
is named `setup`, and what the one named `lang` says, is searched in the text of all the attributes of
a tag together. Attributes are legible if no name or value has the word `setup` besides a name that is
this word, if no value assigns to `lang` and no name ends in `lang` besides this name itself, and if the
value of `lang` is made of word characters and dashes. Then both searches find what the attributes say.
-/

namespace SurfaceCoverage.SingleFile

open Scan

-- What holds of every character of a list is decided along the list, not over all characters.
scoped instance decidableForallMem (P : Char → Prop) [DecidablePred P] (s : List Char) :
    Decidable (∀ c ∈ s, P c) :=
  List.decidableBAll P s

/-! ## Attributes as they are written -/

/-- Characters that no name of an attribute holds. -/
def delimits (c : Char) : Bool :=
  Letters.isBlank c || c == '"' || c == '\'' || c == '<' || c == '>' || c == '=' || c == '/'

/-- Blanks, or nothing. -/
abbrev Blanks := { s : List Char // ∀ c ∈ s, Letters.isBlank c = true }

/-- Blanks between two things. -/
abbrev Gap := { s : List Char // s ≠ [] ∧ ∀ c ∈ s, Letters.isBlank c = true }

/-- The kinds of quotation marks. -/
inductive Quote where
  | double
  | single
deriving DecidableEq

def Quote.mark : Quote → Char
  | double => '"'
  | single => '\''

/-- A quoted value with the equals sign in front of it, between blanks. -/
structure Value where
  before : Blanks := ⟨[], by decide⟩
  after : Blanks := ⟨[], by decide⟩
  quote : Quote := .double
  text : List Char
  quote_notMem : quote.mark ∉ text := by decide

/-- An attribute with the blanks in front of it. -/
structure Attribute where
  gap : Gap := ⟨[' '], by decide⟩
  name : List Char
  value : Option Value := none
  name_ne_nil : name ≠ [] := by decide
  not_delimits_name : ∀ c ∈ name, delimits c = false := by decide

def Value.write (v : Value) : List Char :=
  v.before.val ++ '=' :: (v.after.val ++ v.quote.mark :: (v.text ++ [v.quote.mark]))

namespace Attribute

/-- What is written behind an attribute's name. -/
def assigned (a : Attribute) : List Char := (a.value.map Value.write).getD []

def write (a : Attribute) : List Char := a.gap.val ++ (a.name ++ a.assigned)

end Attribute

/-- Whether characters are a word, up to case. -/
def isSpelled (w : String) (s : List Char) : Bool := behindWord? w s == some []

namespace Attribute

def isSetup (a : Attribute) : Bool := isSpelled "setup" a.name

/-- What an attribute says of the language. -/
def lang? (a : Attribute) : Option (List Char) :=
  if isSpelled "lang" a.name then a.value.map Value.text else none

end Attribute

/-! ## Legible attributes -/

/-- The word `lang` at the end of a name. -/
def endsInLang : Pattern Char Unit := fun previous s =>
  if wordBegins previous && isSpelled "lang" s then some ((), 1) else none

/-- The word `lang` before an equals sign. -/
def assignsLang : Pattern Char Unit := fun previous s =>
  if wordBegins previous && (behindWord? "lang" s).any fun r =>
    (r.dropWhile Letters.isBlank).head? == some '=' then some ((), 1) else none

def isQuote (c : Char) : Bool := c == '"' || c == '\''

/-- What can be the name of a language: word characters and dashes. -/
def continuesLang (c : Char) : Bool := Letters.isWord c || c == '-'

/-- Whether the value of an attribute can be taken for that of `lang` only if it is. -/
def Attribute.isLegibleValue (a : Attribute) (v : Value) : Bool :=
  if isSpelled "lang" a.name then !v.text.isEmpty && v.text.all continuesLang
  else (first endsInLang a.name).isNone && (first assignsLang v.text).isNone

/-- Whether an attribute cannot be taken for another one. -/
def Attribute.isLegible (a : Attribute) : Bool :=
  (a.isSetup || (a.name :: (a.value.map Value.text).toList).all fun s => (first setupAttribute s).isNone) &&
    a.value.all a.isLegibleValue

/-! ## Words -/

theorem not_isWord_of_delimits {c : Char} (h : delimits c = true) : Letters.isWord c = false := by
  simp only [delimits, Bool.or_eq_true, beq_iff_eq] at h
  rcases h with (((((h | rfl) | rfl) | rfl) | rfl) | rfl) | rfl
  · exact Letters.forall_blank (P := fun c => Letters.isWord c = false) (by decide +kernel) h
  all_goals decide

theorem not_isCaseOf_of_delimits {c : Char} (h : delimits c = true) :
    ∀ small ∈ "setuplang".toList, Letters.isCaseOf small c = false := by
  simp only [delimits, Bool.or_eq_true, beq_iff_eq] at h
  rcases h with (((((h | rfl) | rfl) | rfl) | rfl) | rfl) | rfl
  · exact Letters.forall_blank
      (P := fun c => ∀ small ∈ "setuplang".toList, Letters.isCaseOf small c = false)
      (by decide +kernel) h
  all_goals decide

theorem delimits_of_isBlank {c : Char} (h : Letters.isBlank c = true) : delimits c = true := by
  simp [delimits, h]

theorem delimits_mark (q : Quote) : delimits q.mark = true := by cases q <;> decide

/-- A word does not reach into what begins with none of its letters. -/
theorem behind?_append {w s rest : List Char}
    (hrest : ∀ c ∈ rest.head?, ∀ small ∈ w, Letters.isCaseOf small c = false) :
    behind? Letters.isCaseOf w (s ++ rest) = (behind? Letters.isCaseOf w s).map (· ++ rest) := by
  cases rest with
  | nil => simp
  | cons c rest => exact behind?_append_cons (hrest c rfl) s rest

theorem behindWord?_of_isSpelled {w : String} {s : List Char} (h : isSpelled w s = true)
    (rest : List Char) : behindWord? w (s ++ rest) = some rest := by
  obtain ⟨t, ht, hw⟩ := behind?_eq_some.1 (beq_iff_eq.1 h)
  rw [List.append_nil] at ht
  exact behind?_eq_some.2 ⟨t, by rw [ht], hw⟩

/-- A pattern that begins at a word: what stands before the word does not matter. -/
structure ReadsWord {β : Type} (p : Pattern Char β) : Prop where
  ends : ∀ previous, p previous [] = none
  begins : ∀ c s, wordBegins (some c) = true → p (some c) s = p none s
  avoids : ∀ previous c s, delimits c = true → p previous (c :: s) = none

/-- Neither of the two words goes on in what a delimiter begins. -/
theorem behindWord?_append_delimits {w : String} (hw : ∀ small ∈ w.toList, small ∈ "setuplang".toList)
    {s rest : List Char} (hrest : ∀ c ∈ rest.head?, delimits c = true) :
    behindWord? w (s ++ rest) = (behindWord? w s).map (· ++ rest) :=
  behind?_append fun c hc small hs => not_isCaseOf_of_delimits (hrest c hc) small (hw small hs)

theorem behindWord?_delimits {w : String} (small : Char) {letters : List Char}
    (hw : w.toList = small :: letters) (hs : small ∈ "setuplang".toList) {c : Char}
    (hc : delimits c = true) (s : List Char) : behindWord? w (c :: s) = none := by
  unfold behindWord?
  rw [hw, behind?, not_isCaseOf_of_delimits hc small hs]
  rfl

theorem setupAttribute_eq (previous : Option Char) (s : List Char) :
    setupAttribute previous s =
      if wordBegins previous && (behindWord? "setup" s).any wordEnds then some ((), 1) else none := by
  unfold setupAttribute
  cases wordBegins previous
  · rfl
  · rcases hb : behindWord? "setup" s with _ | r
    · rfl
    · cases hw : wordEnds r <;> simp [hw]

theorem readsWord_setupAttribute : ReadsWord setupAttribute where
  ends previous := by rw [setupAttribute_eq]; cases wordBegins previous <;> rfl
  begins c s h := by rw [setupAttribute_eq, setupAttribute_eq, h]; rfl
  avoids previous c s h := by
    rw [setupAttribute_eq, behindWord?_delimits 's' rfl (by decide) h]
    cases wordBegins previous <;> rfl

/-! ## The language -/

/-- The name of a language between quotation marks. -/
def quotedLang? : List Char → Option (List Char × Nat)
  | [] => none
  | quote :: rest =>
    if isQuote quote && !(rest.takeWhile continuesLang).isEmpty &&
      (rest.dropWhile continuesLang).head?.any isQuote
    then some (rest.takeWhile continuesLang, 1) else none

/-- The quoted name of a language behind an equals sign. -/
def assignedLang? (s : List Char) : Option (List Char × Nat) :=
  match s.dropWhile Letters.isBlank with
  | '=' :: rest => quotedLang? (rest.dropWhile Letters.isBlank)
  | _ => none

theorem langAttribute_eq (previous : Option Char) (s : List Char) : langAttribute previous s =
    if wordBegins previous then (behindWord? "lang" s).bind assignedLang? else none := by
  cases hw : wordBegins previous with
  | false =>
    unfold langAttribute
    rw [hw]
    rfl
  | true =>
    rcases hb : behindWord? "lang" s with _ | r
    · unfold langAttribute
      rw [hw, hb]
      rfl
    · unfold langAttribute
      rw [hw, hb]
      simp only [Bool.not_true, Bool.false_eq_true, if_false, if_true, bind, Option.bind]
      rw [assignedLang?]
      rcases r.dropWhile Letters.isBlank with _ | ⟨c, rest⟩
      · rfl
      · by_cases hc : c = '='
        · subst hc
          simp only
          rcases rest.dropWhile Letters.isBlank with _ | ⟨quote, rest⟩
          · rfl
          · simp only [List.span_eq_takeWhile_dropWhile]
            rfl
        · simp [hc]

theorem readsWord_langAttribute : ReadsWord langAttribute where
  ends previous := by rw [langAttribute_eq]; cases wordBegins previous <;> rfl
  begins c s h := by rw [langAttribute_eq, langAttribute_eq, h]; rfl
  avoids previous c s h := by
    rw [langAttribute_eq, behindWord?_delimits 'l' rfl (by decide) h]
    cases wordBegins previous <;> rfl

theorem assignedLang?_of_head {s : List Char}
    (h : (s.dropWhile Letters.isBlank).head? ≠ some '=') : assignedLang? s = none := by
  unfold assignedLang?
  split
  · rename_i rest hs
    rw [hs] at h
    exact absurd rfl h
  · rfl

theorem assignedLang?_of_equals {s rest : List Char}
    (h : s.dropWhile Letters.isBlank = '=' :: rest) :
    assignedLang? s = quotedLang? (rest.dropWhile Letters.isBlank) := by
  unfold assignedLang?
  rw [h]
  rfl

theorem quotedLang?_append {s rest : List Char} (hs : s ≠ [])
    (hrest : ∀ c ∈ rest.head?, continuesLang c = false ∧ isQuote c = false) :
    quotedLang? (s ++ rest) = quotedLang? s := by
  obtain ⟨quote, s, rfl⟩ := List.exists_cons_of_ne_nil hs
  cases rest with
  | nil => rw [List.append_nil]
  | cons c rest =>
    obtain ⟨hc, hq⟩ := hrest c rfl
    rw [List.cons_append, quotedLang?, quotedLang?, takeWhile_append_cons hc,
      dropWhile_append_cons hc]
    cases s.dropWhile continuesLang with
    | nil => simp [hq]
    | cons d t => rfl

/-- What follows a tag's attributes, or one of them: a blank and then neither an equals sign nor a
quotation mark, or nothing. -/
def Follows (rest : List Char) : Prop :=
  (∀ c ∈ rest.head?, Letters.isBlank c = true) ∧
    ∀ c ∈ (rest.dropWhile Letters.isBlank).head?, c ≠ '=' ∧ isQuote c = false

theorem not_continuesLang_of_isBlank {c : Char} (h : Letters.isBlank c = true) :
    continuesLang c = false ∧ isQuote c = false :=
  Letters.forall_blank (P := fun c => continuesLang c = false ∧ isQuote c = false)
    (by decide +kernel) h

theorem assignedLang?_append {s rest : List Char} (hrest : Follows rest) :
    assignedLang? (s ++ rest) = assignedLang? s := by
  have hdrop (t : List Char) : (t ++ rest).dropWhile Letters.isBlank =
      if (t.dropWhile Letters.isBlank).isEmpty then rest.dropWhile Letters.isBlank
      else t.dropWhile Letters.isBlank ++ rest := List.dropWhile_append
  rcases hs : s.dropWhile Letters.isBlank with _ | ⟨c, t⟩
  · -- only blanks before the rest, which does not go on with an equals sign
    rw [assignedLang?_of_head, assignedLang?_of_head]
    · simp [hs]
    · rw [hdrop, hs]
      exact fun h => (hrest.2 '=' h).1 rfl
  · by_cases hc : c = '='
    · subst hc
      have hst : (s ++ rest).dropWhile Letters.isBlank = '=' :: (t ++ rest) := by
        rw [hdrop, hs]
        rfl
      rw [assignedLang?_of_equals hs, assignedLang?_of_equals hst, hdrop]
      rcases ht : t.dropWhile Letters.isBlank with _ | ⟨quote, u⟩
      · simp only [List.isEmpty_nil, if_true]
        rcases hr : rest.dropWhile Letters.isBlank with _ | ⟨d, r⟩
        · rfl
        · have hd := (hrest.2 d (by rw [hr]; rfl)).2
          simp [quotedLang?, hd]
      · exact quotedLang?_append (List.cons_ne_nil quote u) fun d hd =>
          not_continuesLang_of_isBlank (hrest.1 d hd)
    · rw [assignedLang?_of_head, assignedLang?_of_head]
      · simp [hs, hc]
      · rw [hdrop, hs]
        simp [hc]

/-- What follows a piece does not count for a pattern that begins in the piece. -/
theorem setupAttribute_append {s rest : List Char}
    (hrest : ∀ c ∈ rest.head?, delimits c = true) (previous : Option Char) :
    setupAttribute previous (s ++ rest) = setupAttribute previous s := by
  have hends (r : List Char) : wordEnds (r ++ rest) = wordEnds r := by
    cases r with
    | cons c r => rfl
    | nil =>
      cases rest with
      | nil => rfl
      | cons c rest =>
        have hc := not_isWord_of_delimits (hrest c rfl)
        simp [wordEnds, hc]
  rw [setupAttribute_eq, setupAttribute_eq, behindWord?_append_delimits (by decide) hrest]
  cases behindWord? "setup" s with
  | none => rfl
  | some r => simp [hends]

theorem langAttribute_append {s rest : List Char} (hrest : Follows rest) (previous : Option Char) :
    langAttribute previous (s ++ rest) = langAttribute previous s := by
  have hdelimits : ∀ c ∈ rest.head?, delimits c = true :=
    fun c hc => delimits_of_isBlank (hrest.1 c hc)
  rw [langAttribute_eq, langAttribute_eq, behindWord?_append_delimits (by decide) hdelimits]
  cases behindWord? "lang" s with
  | none => rfl
  | some r => simp [assignedLang?_append hrest]

/-! ## Searches in attributes -/

section
variable {β γ : Type} {p : Pattern Char β}

/-- A search does not mind what stands before a word that it begins with. -/
theorem firstFrom_congr (hp : ∀ previous, p previous [] = none) {previous previous' : Option Char}
    {s : List Char} (h : p previous s = p previous' s) :
    firstFrom p previous s = firstFrom p previous' s := by
  cases s with
  | nil => rw [firstFrom, firstFrom, hp, hp]
  | cons c s => rw [firstFrom, firstFrom, h]

theorem firstFrom_of_match {previous : Option Char} {s : List Char} {m : β × Nat} (hs : s ≠ [])
    (h : p previous s = some m) : firstFrom p previous s = some m.1 := by
  obtain ⟨c, s, rfl⟩ := List.exists_cons_of_ne_nil hs
  rw [firstFrom, h]

/-- Where a pattern finds nothing, another one that finds no more misses. The two may see different
elements before the piece, as long as both can begin there. -/
theorem misses_of_firstFrom {q : Pattern Char γ} {s rest : List Char}
    (hpq : ∀ previous t, t <:+ s → q previous t = none → p previous (t ++ rest) = none)
    {previous : Option Char} (h : firstFrom q previous s = none) : Misses p previous s rest := by
  induction s generalizing previous with
  | nil => trivial
  | cons c s ih =>
    rw [firstFrom] at h
    cases hq : q previous (c :: s) with
    | some m =>
      rw [hq] at h
      cases h
    | none =>
      rw [hq] at h
      exact ⟨hpq previous (c :: s) (List.suffix_refl _) hq,
        ih (fun previous t ht => hpq previous t (ht.trans (List.suffix_cons c s))) h⟩

/-- A search goes on behind a piece if nothing that follows counts within the piece. -/
theorem firstFrom_append (hp : ∀ previous, p previous [] = none) {s rest : List Char}
    (hrest : ∀ previous t, p previous (t ++ rest) = p previous t) (previous : Option Char) :
    firstFrom p previous (s ++ rest) =
      (firstFrom p previous s).or (firstFrom p (lastOf previous s) rest) := by
  induction s generalizing previous with
  | nil =>
    rw [List.nil_append, lastOf_nil, firstFrom, hp]
    rfl
  | cons c s ih =>
    have hc := hrest previous (c :: s)
    rw [List.cons_append] at hc ⊢
    rw [firstFrom, firstFrom, hc]
    cases p previous (c :: s) with
    | some m => rfl
    | none => exact ih (some c)

variable (hp : ReadsWord p)
include hp

theorem ReadsWord.misses_delimiters {s : List Char} (hs : ∀ c ∈ s, delimits c = true)
    (previous : Option Char) (rest : List Char) : Misses p previous s rest :=
  misses_of_avoids (fun c hc previous as => hp.avoids previous c as (hs c hc)) previous rest

/-- What is searched from a delimiter on does not depend on what stands before. -/
theorem ReadsWord.firstFrom_delimiter {s : List Char} (hs : ∀ c ∈ s.head?, delimits c = true)
    (previous : Option Char) : firstFrom p previous s = first p s := by
  refine firstFrom_congr hp.ends ?_
  cases s with
  | nil => rw [hp.ends, hp.ends]
  | cons c s => rw [hp.avoids _ c s (hs c rfl), hp.avoids _ c s (hs c rfl)]

/-- Behind a delimiter a word begins as it does at the beginning. -/
theorem ReadsWord.firstFrom_some {c : Char} (hc : delimits c = true) (s : List Char) :
    firstFrom p (some c) s = first p s := by
  refine firstFrom_congr hp.ends (hp.begins c s ?_)
  simp [wordBegins, not_isWord_of_delimits hc]

end

theorem Value.delimits_front (v : Value) {c : Char}
    (hc : c ∈ v.before.val ++ '=' :: v.after.val) : delimits c = true := by
  simp only [List.mem_append, List.mem_cons] at hc
  rcases hc with hc | rfl | hc
  · exact delimits_of_isBlank (v.before.property c hc)
  · decide
  · exact delimits_of_isBlank (v.after.property c hc)

namespace Attribute

theorem delimits_gap (a : Attribute) {c : Char} (hc : c ∈ a.gap.val) : delimits c = true :=
  delimits_of_isBlank (a.gap.property.2 c hc)

/-- A search in an attribute begins at its name. -/
theorem first_write {β : Type} {p : Pattern Char β} (hp : ReadsWord p) (a : Attribute) :
    first p a.write = first p (a.name ++ a.assigned) := by
  obtain ⟨c, hc, hlast⟩ := exists_lastOf a.gap.property.1 none
  unfold write first
  rw [firstFrom_misses (hp.misses_delimiters (fun c hc => a.delimits_gap hc) _ _), hlast]
  exact hp.firstFrom_some (a.delimits_gap hc) _

theorem assigned_none {a : Attribute} (h : a.value = none) : a.assigned = [] := by
  rw [assigned, h]
  rfl

theorem assigned_some {a : Attribute} {v : Value} (h : a.value = some v) :
    a.assigned = (v.before.val ++ '=' :: v.after.val) ++ v.quote.mark :: (v.text ++ [v.quote.mark]) := by
  rw [assigned, h]
  simp [Value.write]

theorem delimits_head_assigned (a : Attribute) : ∀ c ∈ a.assigned.head?, delimits c = true := by
  intro c hc
  cases hv : a.value with
  | none =>
    rw [assigned_none hv] at hc
    cases hc
  | some v =>
    rw [assigned_some hv] at hc
    cases hb : v.before.val with
    | nil =>
      rw [hb] at hc
      cases hc
      decide
    | cons d t =>
      rw [hb] at hc
      cases hc
      exact delimits_of_isBlank (v.before.property c (by rw [hb]; exact List.mem_cons_self))

/-- What a search finds in a value. -/
theorem first_assigned {β : Type} {p : Pattern Char β} (hp : ReadsWord p) {a : Attribute} {v : Value}
    (hv : a.value = some v) (hmisses : Misses p (some v.quote.mark) v.text [v.quote.mark])
    (previous : Option Char) : firstFrom p previous a.assigned = none := by
  have hmark := delimits_mark v.quote
  have hclose : ∀ c ∈ [v.quote.mark], delimits c = true := fun c hc => by
    rw [List.mem_singleton.1 hc]
    exact hmark
  rw [assigned_some hv, firstFrom_misses (hp.misses_delimiters (fun c hc => v.delimits_front hc) _ _),
    firstFrom, hp.avoids _ _ _ hmark]
  dsimp only
  rw [firstFrom_misses hmisses, hp.firstFrom_delimiter (fun c hc => by cases hc; exact hmark), first,
    firstFrom, hp.avoids _ _ _ hmark]
  dsimp only
  rw [firstFrom, hp.ends]
  rfl

theorem name_append_ne_nil (a : Attribute) (rest : List Char) : a.name ++ rest ≠ [] :=
  fun h => a.name_ne_nil (List.append_eq_nil_iff.1 h).1

/-- A legible attribute is taken for `setup` if it is. -/
theorem first_setupAttribute_write {a : Attribute} (ha : a.isLegible = true) :
    (first setupAttribute a.write).isSome = a.isSetup := by
  have hp := readsWord_setupAttribute
  rw [first_write hp]
  cases hsetup : a.isSetup with
  | true =>
    have hends : wordEnds a.assigned = true := by
      cases hw : a.assigned with
      | nil => rfl
      | cons c t =>
        have hc := not_isWord_of_delimits (a.delimits_head_assigned c (by rw [hw]; rfl))
        simp [wordEnds, hc]
    have hmatch : setupAttribute none (a.name ++ a.assigned) = some ((), 1) := by
      rw [setupAttribute_eq, behindWord?_of_isSpelled hsetup]
      simp [wordBegins, hends]
    rw [first, firstFrom_of_match (a.name_append_ne_nil _) hmatch]
    rfl
  | false =>
    simp only [isLegible, hsetup, Bool.false_or, Bool.and_eq_true, List.all_cons,
      Option.isNone_iff_eq_none] at ha
    obtain ⟨⟨hname, hvalue⟩, -⟩ := ha
    have hmisses : Misses setupAttribute none a.name a.assigned :=
      misses_of_firstFrom (fun previous t _ ht => by
        rw [setupAttribute_append a.delimits_head_assigned, ht]) hname
    rw [first, firstFrom_misses hmisses]
    cases hv : a.value with
    | none =>
      rw [assigned_none hv, firstFrom, hp.ends]
      rfl
    | some v =>
      have hmark := delimits_mark v.quote
      have htext : first setupAttribute v.text = none := by
        rw [hv] at hvalue
        simpa using hvalue
      rw [first_assigned hp hv (misses_of_firstFrom (fun previous t _ ht => ?_)
        ((hp.firstFrom_some hmark _).trans htext))]
      · rfl
      · rw [setupAttribute_append (fun c hc => by cases hc; exact hmark), ht]

theorem langAttribute_eq_none {s : List Char} (hs : '=' ∉ s) (previous : Option Char) :
    langAttribute previous s = none := by
  rw [langAttribute_eq]
  cases hb : behindWord? "lang" s with
  | none => simp
  | some r =>
    obtain ⟨t, rfl, -⟩ := behind?_eq_some.1 hb
    have hr : (r.dropWhile Letters.isBlank).head? ≠ some '=' := fun h =>
      hs (List.mem_append_right t ((List.dropWhile_suffix _).subset (List.mem_of_head? h)))
    simp [assignedLang?_of_head hr]

theorem readsWord_assignsLang : ReadsWord assignsLang where
  ends previous := by unfold assignsLang; cases wordBegins previous <;> rfl
  begins c s h := by unfold assignsLang; rw [h]; rfl
  avoids previous c s h := by
    unfold assignsLang
    rw [behindWord?_delimits 'l' rfl (by decide) h]
    cases wordBegins previous <;> rfl

/-- What an attribute named `lang` says, if it is the name of a language. -/
theorem assignedLang?_assigned {a : Attribute} {v : Value} (hv : a.value = some v) (hne : v.text ≠ [])
    (htext : ∀ c ∈ v.text, continuesLang c = true) :
    assignedLang? a.assigned = some (v.text, 1) := by
  have hmark : Letters.isBlank v.quote.mark = false ∧ continuesLang v.quote.mark = false ∧
      isQuote v.quote.mark = true := by cases v.quote <;> decide
  have hequals : a.assigned.dropWhile Letters.isBlank =
      '=' :: (v.after.val ++ v.quote.mark :: (v.text ++ [v.quote.mark])) := by
    rw [assigned_some hv, List.append_assoc]
    exact dropWhile_append v.before.property (fun c hc => by cases hc; decide)
  have hquote : (v.after.val ++ v.quote.mark :: (v.text ++ [v.quote.mark])).dropWhile
      Letters.isBlank = v.quote.mark :: (v.text ++ [v.quote.mark]) :=
    dropWhile_append v.after.property (fun c hc => by cases hc; exact hmark.1)
  have hends : ∀ c ∈ [v.quote.mark].head?, continuesLang c = false := fun c hc => by
    cases hc
    exact hmark.2.1
  rw [assignedLang?_of_equals hequals, hquote, quotedLang?, takeWhile_append htext hends,
    dropWhile_append htext hends]
  simp [hmark.2.2, hne]

/-- In a name that does not end in `lang`, no assignment to it begins. -/
theorem langAttribute_of_endsInLang (a : Attribute) {t : List Char} (ht : t <:+ a.name)
    (previous : Option Char) (h : endsInLang previous t = none) :
    langAttribute previous (t ++ a.assigned) = none := by
  rw [langAttribute_eq, behindWord?_append_delimits (by decide) a.delimits_head_assigned]
  cases hb : behindWord? "lang" t with
  | none => simp
  | some r =>
    cases r with
    | nil =>
      -- the name ends here, so the word does not begin here
      have hspelled : isSpelled "lang" t = true := beq_iff_eq.2 hb
      have hbegins : wordBegins previous = false := by
        cases hw : wordBegins previous with
        | false => rfl
        | true => simp [endsInLang, hw, hspelled] at h
      simp [hbegins]
    | cons c r =>
      obtain ⟨u, rfl, -⟩ := behind?_eq_some.1 hb
      have hc := a.not_delimits_name c (ht.subset (List.mem_append_right u List.mem_cons_self))
      have hblank : Letters.isBlank c = false := by
        cases hblank : Letters.isBlank c with
        | false => rfl
        | true => rw [delimits_of_isBlank hblank] at hc; cases hc
      have hequals : c ≠ '=' := by
        rintro rfl
        cases hc
      simp [assignedLang?_of_head, List.dropWhile_cons_of_neg, hblank, hequals]

/-- Where `lang` is not assigned to in a value, no assignment reaches its end. -/
theorem langAttribute_of_assignsLang (q : Quote) {previous : Option Char} {t : List Char}
    (h : assignsLang previous t = none) : langAttribute previous (t ++ [q.mark]) = none := by
  have hmark : delimits q.mark = true ∧ Letters.isBlank q.mark = false ∧ q.mark ≠ '=' := by
    cases q <;> decide
  have hdelimits : ∀ c ∈ [q.mark].head?, delimits c = true := fun c hc => by
    cases hc
    exact hmark.1
  rw [langAttribute_eq, behindWord?_append_delimits (by decide) hdelimits]
  cases hw : wordBegins previous with
  | false => rfl
  | true =>
    cases hb : behindWord? "lang" t with
    | none => rfl
    | some r =>
      have hequals : (r.dropWhile Letters.isBlank).head? ≠ some '=' := by
        intro he
        simp [assignsLang, hw, hb, he] at h
      refine assignedLang?_of_head ?_
      rw [dropWhile_append_cons hmark.2.1]
      cases hd : r.dropWhile Letters.isBlank with
      | nil => simpa using hmark.2.2
      | cons c u => simpa [hd] using hequals

/-- A search for the language finds what a legible attribute says of it. -/
theorem first_langAttribute_write {a : Attribute} (ha : a.isLegible = true) :
    first langAttribute a.write = a.lang? := by
  have hp := readsWord_langAttribute
  rw [first_write hp, lang?]
  cases hv : a.value with
  | none =>
    have hname : '=' ∉ a.name := fun h => absurd (a.not_delimits_name _ h) (by decide)
    have hmisses : Misses langAttribute none a.name [] :=
      misses_of_suffix (fun previous t _ ht => by
        rw [List.append_nil]
        exact langAttribute_eq_none (fun h => hname (ht.subset h)) previous) _
    rw [assigned_none hv, first, firstFrom_misses hmisses, firstFrom, hp.ends]
    split <;> rfl
  | some v =>
    simp only [isLegible, hv, Option.all_some, Bool.and_eq_true, isLegibleValue] at ha
    have hvalue := ha.2
    split at hvalue
    · rename_i hlang
      simp only [Bool.and_eq_true, Bool.not_eq_true', List.isEmpty_eq_false_iff, List.all_eq_true]
        at hvalue
      have hmatch : langAttribute none (a.name ++ a.assigned) = some (v.text, 1) := by
        rw [langAttribute_eq, behindWord?_of_isSpelled hlang]
        exact assignedLang?_assigned hv hvalue.1 hvalue.2
      rw [first, firstFrom_of_match (a.name_append_ne_nil _) hmatch, if_pos hlang]
      rfl
    · rename_i hlang
      rw [if_neg hlang]
      simp only [Bool.and_eq_true, Option.isNone_iff_eq_none] at hvalue
      have hmark := delimits_mark v.quote
      have hmisses : Misses langAttribute none a.name a.assigned :=
        misses_of_firstFrom (fun previous t ht => a.langAttribute_of_endsInLang ht previous) hvalue.1
      rw [first, firstFrom_misses hmisses]
      exact first_assigned hp hv (misses_of_firstFrom
        (fun previous t _ ht => langAttribute_of_assignsLang v.quote ht)
        ((readsWord_assignsLang.firstFrom_some hmark _).trans hvalue.2)) _

end Attribute

/-! ## Tags -/

/-- An element of a component's file: the attributes of its tag with the blanks behind them, and its
content. -/
structure Element where
  attributes : List Attribute := []
  trailing : Blanks := ⟨[], by decide⟩
  content : List Char

namespace Element

/-- What is written between an element's name and the bracket of its tag. -/
def between (e : Element) : List Char := e.attributes.flatMap Attribute.write ++ e.trailing.val

/-- A script as it is read. -/
def block (e : Element) : Block := ⟨e.between, e.content⟩

def isSetup (e : Element) : Bool := e.attributes.any Attribute.isSetup

/-- The language that an element's attributes give, in small letters. -/
def lang? (e : Element) : Option (List Char) :=
  (e.attributes.findSome? Attribute.lang?).map (·.flatMap Letters.lower)

end Element

theorem follows_attributes (as : List Attribute) (trailing : Blanks) :
    Follows (as.flatMap Attribute.write ++ trailing.val) := by
  cases as with
  | nil =>
    have hdrop : (trailing.val ++ []).dropWhile Letters.isBlank = [] :=
      dropWhile_append trailing.property nofun
    rw [List.append_nil] at hdrop
    refine ⟨fun c hc => trailing.property c (List.mem_of_head? hc), fun c hc => ?_⟩
    rw [List.flatMap_nil, List.nil_append, hdrop] at hc
    cases hc
  | cons a as =>
    obtain ⟨n, ns, hn⟩ := List.exists_cons_of_ne_nil a.name_ne_nil
    have hdelimits := a.not_delimits_name n (by rw [hn]; exact List.mem_cons_self)
    simp only [delimits, Bool.or_eq_false_iff, beq_eq_false_iff_ne] at hdelimits
    obtain ⟨⟨⟨⟨⟨⟨hblank, hdouble⟩, hsingle⟩, -⟩, -⟩, hequals⟩, -⟩ := hdelimits
    rw [List.flatMap_cons, Attribute.write, hn]
    simp only [List.append_assoc, List.cons_append]
    refine ⟨fun c hc => ?_, fun c hc => ?_⟩
    · obtain ⟨g, gs, hg⟩ := List.exists_cons_of_ne_nil a.gap.property.1
      rw [hg] at hc
      cases hc
      exact a.gap.property.2 c (by rw [hg]; exact List.mem_cons_self)
    · rw [dropWhile_append a.gap.property.2 (fun c hc => by cases hc; exact hblank)] at hc
      cases hc
      exact ⟨hequals, by simp [isQuote, hdouble, hsingle]⟩

/-- A search through the attributes of a tag finds what is said by the first one that says something. -/
theorem first_attributes {β : Type} {p : Pattern Char β} (hp : ReadsWord p)
    (happend : ∀ {s rest : List Char}, Follows rest → ∀ previous, p previous (s ++ rest) = p previous s)
    {said : Attribute → Option β} {as : List Attribute}
    (hsaid : ∀ a ∈ as, first p a.write = said a) (trailing : Blanks) :
    first p (as.flatMap Attribute.write ++ trailing.val) = as.findSome? said := by
  induction as with
  | nil =>
    have hmisses : Misses p none trailing.val [] :=
      hp.misses_delimiters (fun c hc => delimits_of_isBlank (trailing.property c hc)) _ _
    rw [List.flatMap_nil, List.nil_append, List.findSome?_nil, ← List.append_nil trailing.val, first,
      firstFrom_misses hmisses, firstFrom, hp.ends]
    rfl
  | cons a as ih =>
    have hfollows := follows_attributes as trailing
    have hfirst := hsaid a List.mem_cons_self
    rw [first] at hfirst
    rw [List.flatMap_cons, List.append_assoc, List.findSome?_cons, first,
      firstFrom_append hp.ends (fun previous t => happend hfollows previous), hfirst,
      hp.firstFrom_delimiter (fun c hc => delimits_of_isBlank (hfollows.1 c hc)),
      ih fun b hb => hsaid b (List.mem_cons_of_mem a hb)]
    cases said a <;> rfl

section
variable {e : Element} (he : ∀ a ∈ e.attributes, a.isLegible = true)
include he

/-- A script with legible attributes is a setup script if one of them is named so. -/
theorem Element.isSetup_block : e.block.isSetup = e.isSetup := by
  have hfirst : first setupAttribute e.between =
      e.attributes.findSome? fun a => first setupAttribute a.write :=
    first_attributes readsWord_setupAttribute
      (fun hrest => setupAttribute_append fun c hc => delimits_of_isBlank (hrest.1 c hc))
      (fun _ _ => rfl) e.trailing
  rw [Block.isSetup, block, hfirst, Bool.eq_iff_iff, List.findSome?_isSome_iff, isSetup, List.any_eq_true]
  exact exists_congr fun a => and_congr_right fun ha => by
    rw [Attribute.first_setupAttribute_write (he a ha)]

/-- The language of a script with legible attributes is what the one named `lang` says. -/
theorem Element.lang?_block : e.block.lang? = e.lang? := by
  have hfirst : first langAttribute e.between = e.attributes.findSome? Attribute.lang? :=
    first_attributes readsWord_langAttribute langAttribute_append
      (fun a ha => Attribute.first_langAttribute_write (he a ha)) e.trailing
  exact congrArg (Option.map _) hfirst

end

end SurfaceCoverage.SingleFile
