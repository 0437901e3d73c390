import Mathlib.Data.List.Infix
import SurfaceCoverage.Proofs.SectionAttributes
/-!
# Sections of a single-file component

A component's file is a sequence of scripts, blocks of other names and at most one template, with
blanks between them. It is legible if its tags hold no closing bracket besides their own, no script
seems to begin within another block, and no template before the template or ends behind it. Then the
script that is read is the first setup script, or else the first script, with its own language, and the
template is the template's content, whatever elements are nested in it.
-/

namespace SurfaceCoverage.SingleFile

open Scan

/-! ## Files as they are written -/

/-- An element with a name. -/
def Element.write (name : List Char) (e : Element) : List Char :=
  '<' :: (name ++ (e.between ++ '>' :: (e.content ++ '<' :: '/' :: (name ++ ['>']))))

/-- What stands in a component's file besides its template. -/
inductive Piece where
  | blanks (s : Blanks)
  | script (e : Element)
  | custom (name : List Char) (e : Element)

namespace Piece

def write : Piece → List Char
  | blanks s => s.val
  | script e => e.write "script".toList
  | custom name e => e.write name

def script? : Piece → Option Element
  | blanks _ | custom _ _ => none
  | script e => some e

end Piece

/-- A component's file, with one template or none. -/
structure Component where
  before : List Piece
  template : Option Element
  behind : List Piece

namespace Component

def write (F : Component) : List Char :=
  F.before.flatMap Piece.write ++
    ((F.template.map (Element.write "template".toList)).getD [] ++ F.behind.flatMap Piece.write)

def scripts (F : Component) : List Element := (F.before ++ F.behind).filterMap Piece.script?

/-- The script that counts: the first setup script, or else the first one. -/
def main? (F : Component) : Option Element := (F.scripts.find? Element.isSetup).or F.scripts.head?

end Component

/-! ## Legible files -/

/-- A test that fails from every place of a text on. -/
def Omits (test : List Char → Bool) (s : List Char) : Prop := ∀ t, t <:+ s → test t = false

instance (test : List Char → Bool) (s : List Char) : Decidable (Omits test s) :=
  decidable_of_iff (∀ t ∈ s.tails, test t = false) (by simp only [Omits, List.mem_tails])

/-- Whether a script begins here: its name has ended. -/
def opensScript (cs : List Char) : Bool := (behindWord? "<script" cs).any wordEnds

/-- Whether a template begins here, or something whose name begins as its name does. -/
def opensTemplate (cs : List Char) : Bool := (behindWord? "<template" cs).isSome

/-- A piece in which every tag is what it seems to be. -/
def Piece.Legible : Piece → Prop
  | blanks _ => True
  | script e => (∀ a ∈ e.attributes, a.isLegible = true) ∧ '>' ∉ e.between ∧ Omits closesScript e.content
  | custom name e => Omits opensScript (e.write name)

instance : DecidablePred Piece.Legible
  | .blanks _ => inferInstanceAs (Decidable True)
  | .script _ => inferInstanceAs (Decidable (_ ∧ _ ∧ _))
  | .custom name e => inferInstanceAs (Decidable (Omits opensScript (e.write name)))

/-- A file in which every tag is what it seems to be. -/
structure Component.Legible (F : Component) : Prop where
  pieces : ∀ p ∈ F.before ++ F.behind, p.Legible
  template : ∀ e ∈ F.template, '>' ∉ e.between ∧ Omits opensScript (e.write "template".toList)
  before : Omits opensTemplate (F.before.flatMap Piece.write)
  behind : Omits closesTemplate (F.behind.flatMap Piece.write)

/-! ## Words that begin with a bracket -/

/-- What a piece begins with. -/
def beginsPiece (c : Char) : Bool := c == '<' || Letters.isBlank c

theorem not_isCaseOf_of_beginsPiece {c : Char} (h : beginsPiece c = true) :
    (∀ small ∈ "/script>template".toList, Letters.isCaseOf small c = false) ∧
      Letters.isWord c = false := by
  simp only [beginsPiece, Bool.or_eq_true, beq_iff_eq] at h
  rcases h with rfl | h
  · decide
  · exact Letters.forall_blank (P := fun c => (∀ small ∈ "/script>template".toList,
      Letters.isCaseOf small c = false) ∧ Letters.isWord c = false) (by decide +kernel) h

/-- A word that begins with a bracket does not reach into the next piece. -/
theorem behindWord?_append {w : String} (letters : List Char) {s rest : List Char} (hw : w.toList = '<' :: letters)
    (hletters : ∀ small ∈ letters, small ∈ "/script>template".toList) (hs : s ≠ [])
    (hrest : ∀ c ∈ rest.head?, beginsPiece c = true) :
    behindWord? w (s ++ rest) = (behindWord? w s).map (· ++ rest) := by
  obtain ⟨c, s, rfl⟩ := List.exists_cons_of_ne_nil hs
  have htail : behind? Letters.isCaseOf letters (s ++ rest) =
      (behind? Letters.isCaseOf letters s).map (· ++ rest) :=
    behind?_append fun d hd small hsmall =>
      (not_isCaseOf_of_beginsPiece (hrest d hd)).1 small (hletters small hsmall)
  unfold behindWord?
  rw [hw, List.cons_append, behind?, behind?, htail]
  split <;> rfl

theorem behindWord?_of_head {w : String} (letters : List Char) (hw : w.toList = '<' :: letters)
    {s : List Char} (hs : s.head? ≠ some '<') : behindWord? w s = none := by
  unfold behindWord?
  rw [hw]
  cases s with
  | nil => rfl
  | cons c s =>
    refine if_neg fun h => hs ?_
    rw [Letters.eq_of_isCaseOf (by decide) h]
    rfl

section
variable {s rest : List Char} (hs : s ≠ []) (hrest : ∀ c ∈ rest.head?, beginsPiece c = true)
include hs hrest

theorem opensScript_append : opensScript (s ++ rest) = opensScript s := by
  have hends (r : List Char) : wordEnds (r ++ rest) = wordEnds r := by
    cases r with
    | cons c r => rfl
    | nil =>
      cases rest with
      | nil => rfl
      | cons c rest =>
        have hc := (not_isCaseOf_of_beginsPiece (hrest c rfl)).2
        simp [wordEnds, hc]
  unfold opensScript
  rw [behindWord?_append "script".toList rfl (by decide) hs hrest]
  cases behindWord? "<script" s with
  | none => rfl
  | some r => exact hends r

theorem closesScript_append : closesScript (s ++ rest) = closesScript s := by
  unfold closesScript
  rw [behindWord?_append "/script>".toList rfl (by decide) hs hrest, Option.isSome_map]

theorem opensTemplate_append : opensTemplate (s ++ rest) = opensTemplate s := by
  unfold opensTemplate
  rw [behindWord?_append "template".toList rfl (by decide) hs hrest, Option.isSome_map]

end

/-! ## Scripts -/

theorem blind_scriptBlock : Blind scriptBlock := fun _ _ => rfl

theorem scriptBlock_eq_none {cs : List Char} (h : opensScript cs = false) (previous : Option Char) :
    scriptBlock previous cs = none := by
  unfold opensScript at h
  unfold scriptBlock
  cases hb : behindWord? "<script" cs with
  | none => rfl
  | some r =>
    rw [hb] at h
    have hr : wordEnds r = false := h
    simp [hr]

/-- A text in which no script begins has none, whatever follows it. -/
theorem all_omits {s rest : List Char} (hs : Omits opensScript s)
    (hrest : ∀ c ∈ rest.head?, beginsPiece c = true) :
    all scriptBlock none 0 (s ++ rest) = all scriptBlock none 0 rest :=
  all_pass_of_suffix blind_scriptBlock fun t hne ht =>
    scriptBlock_eq_none ((opensScript_append hne hrest).trans (hs t ht)) none

/-- The attributes of a tag end at its bracket. -/
theorem attributes?_append {s : List Char} (hs : '>' ∉ s) (rest : List Char) :
    attributes? (s ++ '>' :: rest) = some (s, rest) := by
  have hspan : (s ++ '>' :: rest).span (· != '>') = (s, '>' :: rest) :=
    span_append (fun c hc => bne_iff_ne.2 fun he => hs (he ▸ hc)) (fun c hc => by cases hc; rfl)
  unfold attributes?
  rw [hspan]

/-- Behind the name of an element's tag a word has ended. -/
theorem Element.wordEnds_between (e : Element) (rest : List Char) :
    wordEnds (e.between ++ '>' :: rest) = true := by
  have hfollows := follows_attributes e.attributes e.trailing
  cases hb : e.between with
  | nil =>
    have hbracket : Letters.isWord '>' = false := by decide
    simp [wordEnds, hbracket]
  | cons c s =>
    have hc : delimits c = true := delimits_of_isBlank (hfollows.1 c (by rw [← between, hb]; rfl))
    simp [wordEnds, not_isWord_of_delimits hc]

theorem Element.write_ne_nil (e : Element) (name : List Char) : e.write name ≠ [] :=
  List.cons_ne_nil _ _

/-- A script whose tag holds no other bracket is read up to its end. -/
theorem scriptBlock_write {e : Element} (hbracket : '>' ∉ e.between)
    (hclosed : Omits closesScript e.content) (rest : List Char) :
    scriptBlock none (e.write "script".toList ++ rest) =
      some (e.block, (e.write "script".toList).length) := by
  have hwrite : e.write "script".toList ++ rest =
      "<script".toList ++ (e.between ++ '>' :: (e.content ++ ("</script>".toList ++ rest))) := by
    simp [Element.write]
  have hlength : (e.write "script".toList).length = e.between.length + e.content.length + 17 := by
    simp [Element.write]
    omega
  have hword : behindWord? "<script" (e.write "script".toList ++ rest) =
      some (e.between ++ '>' :: (e.content ++ ("</script>".toList ++ rest))) := by
    rw [hwrite]
    rfl
  have hsplit : splitWhere? closesScript [] (e.content ++ ("</script>".toList ++ rest)) =
      some (e.content, "</script>".toList ++ rest) := by
    refine splitWhere?_append [] (fun t hne ht => ?_) rfl
    exact (closesScript_append hne (fun c hc => by cases hc; rfl)).trans (hclosed t ht)
  unfold scriptBlock
  simp only [hword, e.wordEnds_between, attributes?_append hbracket, hsplit, bind, Option.bind,
    List.length_append, hlength]
  have hclosing : "</script>".toList.length = 9 ∧ "</script>".length = 9 := by decide
  have htaken : e.between.length + e.content.length + 17 + rest.length -
      ("</script>".toList.length + rest.length) + "</script>".length =
      e.between.length + e.content.length + 17 := by omega
  rw [htaken]
  rfl

/-- What a script, a template or another block begins with. -/
theorem beginsPiece_pieces (ps : List Piece) {rest : List Char}
    (hrest : ∀ c ∈ rest.head?, beginsPiece c = true) :
    ∀ c ∈ (ps.flatMap Piece.write ++ rest).head?, beginsPiece c = true := by
  induction ps with
  | nil => exact hrest
  | cons p ps ih =>
    rw [List.flatMap_cons, List.append_assoc]
    cases p with
    | blanks s =>
      intro c hc
      cases hs : s.val with
      | nil =>
        rw [Piece.write, hs] at hc
        exact ih c hc
      | cons d t =>
        rw [Piece.write, hs] at hc
        cases hc
        simp [beginsPiece, s.property c (by rw [hs]; exact List.mem_cons_self)]
    | script e | custom name e =>
      intro c hc
      cases hc
      rfl

/-- The scripts among legible pieces are read one by one. -/
theorem all_pieces {ps : List Piece} (hps : ∀ p ∈ ps, p.Legible) {rest : List Char}
    (hrest : ∀ c ∈ rest.head?, beginsPiece c = true) :
    all scriptBlock none 0 (ps.flatMap Piece.write ++ rest) =
      (ps.filterMap Piece.script?).map Element.block ++ all scriptBlock none 0 rest := by
  induction ps with
  | nil => rfl
  | cons p ps ih =>
    have hnext := beginsPiece_pieces ps hrest
    have hp := hps p List.mem_cons_self
    have ih := ih fun q hq => hps q (List.mem_cons_of_mem p hq)
    rw [List.flatMap_cons, List.append_assoc]
    cases p with
    | blanks s =>
      have homits : Omits opensScript s.val := by
        intro t ht
        have hhead : t.head? ≠ some '<' := fun h =>
          absurd (s.property '<' (ht.subset (List.mem_of_head? h))) (by decide)
        rw [opensScript, behindWord?_of_head "script".toList rfl hhead]
        rfl
      rw [Piece.write, all_omits homits hnext]
      exact ih
    | custom name e =>
      rw [Piece.write, all_omits hp hnext]
      exact ih
    | script e =>
      rw [Piece.write, all_match blind_scriptBlock (e.write_ne_nil _)
        (scriptBlock_write hp.2.1 hp.2.2 _), ih]
      rfl

/-! ## The template -/

theorem templateBlock_of_not_opens {cs : List Char} (h : opensTemplate cs = false)
    (previous : Option Char) : templateBlock previous cs = none := by
  unfold opensTemplate at h
  unfold templateBlock
  rw [Option.isSome_eq_false_iff, Option.isNone_iff_eq_none] at h
  rw [h]
  rfl

theorem closesTemplate_of_head {s : List Char} (hs : s.head? ≠ some '<') : closesTemplate s = false := by
  rw [closesTemplate, behindWord?_of_head "/template>".toList rfl hs]
  rfl

/-- No end of a template begins without an opening bracket. -/
theorem omits_closesTemplate_append {s rest : List Char} (hs : '<' ∉ s)
    (hrest : Omits closesTemplate rest) : Omits closesTemplate (s ++ rest) := by
  induction s with
  | nil => exact hrest
  | cons c s ih =>
    intro t ht
    rcases List.suffix_cons_iff.1 ht with rfl | ht
    · exact closesTemplate_of_head fun h => hs (Option.some.inj h ▸ List.mem_cons_self)
    · exact ih (fun h => hs (List.mem_cons_of_mem c h)) t ht

/-- A template whose tag holds no other bracket is read up to the last end of a template. -/
theorem templateBlock_write {e : Element} (hbracket : '>' ∉ e.between) {rest : List Char}
    (hrest : Omits closesTemplate rest) (previous : Option Char) :
    ∃ n, templateBlock previous (e.write "template".toList ++ rest) = some (e.content, n) := by
  have hwrite : e.write "template".toList ++ rest =
      "<template".toList ++ (e.between ++ '>' :: (e.content ++ ("</template>".toList ++ rest))) := by
    simp [Element.write]
  have hword : behindWord? "<template" (e.write "template".toList ++ rest) =
      some (e.between ++ '>' :: (e.content ++ ("</template>".toList ++ rest))) := by
    rw [hwrite]
    rfl
  have hbehind : Omits closesTemplate ("/template>".toList ++ rest) :=
    omits_closesTemplate_append (by decide) hrest
  have hlast : lastWhere? closesTemplate 0 none (e.content ++ ("</template>".toList ++ rest)) =
      some (0 + e.content.length) := lastWhere?_append e.content 0 none rfl hbehind
  refine ⟨1, ?_⟩
  unfold templateBlock
  simp only [hword, attributes?_append hbracket, hlast, bind, Option.bind, Nat.zero_add,
    List.take_left]
  rfl

theorem suffix_of_attributes? {s : List Char} {q : List Char × List Char} (h : attributes? s = some q) :
    q.2 <:+ s := by
  unfold attributes? at h
  rw [List.span_eq_takeWhile_dropWhile] at h
  split at h
  · rename_i attributes c rest hs
    cases h
    have hrest : s.dropWhile (· != '>') = c :: rest := congrArg Prod.snd hs
    exact (hrest ▸ List.suffix_cons c rest).trans (List.dropWhile_suffix _)
  · cases h

/-- Without an end of a template there is none. -/
theorem templateBlock_of_omits {cs : List Char} (h : Omits closesTemplate cs) (previous : Option Char) :
    templateBlock previous cs = none := by
  unfold templateBlock
  cases hb : behindWord? "<template" cs with
  | none => rfl
  | some r =>
    obtain ⟨s, hs, -⟩ := behind?_eq_some.1 hb
    cases ha : attributes? r with
    | none => simp [ha]
    | some q =>
      have hsuffix : q.2 <:+ cs := (suffix_of_attributes? ha).trans ⟨s, hs.symm⟩
      have hlast : lastWhere? closesTemplate 0 none q.2 = none :=
        lastWhere?_miss _ _ fun t ht => h t (ht.trans hsuffix)
      simp [ha, hlast]

/-- What follows the pieces before the template. -/
theorem Component.beginsPiece_behind (F : Component) :
    ∀ c ∈ ((F.template.map (Element.write "template".toList)).getD [] ++
      F.behind.flatMap Piece.write).head?, beginsPiece c = true := by
  have hpieces : ∀ c ∈ (F.behind.flatMap Piece.write ++ []).head?, beginsPiece c = true :=
    beginsPiece_pieces F.behind nofun
  rw [List.append_nil] at hpieces
  cases F.template with
  | none => exact hpieces
  | some e =>
    intro c hc
    cases hc
    rfl

/-- A file has the template that it is written with. -/
theorem first_templateBlock {F : Component} (hF : F.Legible) :
    first templateBlock F.write = F.template.map Element.content := by
  have hmisses : Misses templateBlock none (F.before.flatMap Piece.write)
      ((F.template.map (Element.write "template".toList)).getD [] ++ F.behind.flatMap Piece.write) :=
    misses_of_suffix (fun previous t hne ht => templateBlock_of_not_opens
      ((opensTemplate_append hne F.beginsPiece_behind).trans (hF.before t ht)) previous) none
  rw [first, Component.write, firstFrom_misses hmisses]
  cases ht : F.template with
  | none =>
    have hpass : Misses templateBlock (lastOf none (F.before.flatMap Piece.write))
        (F.behind.flatMap Piece.write) [] :=
      misses_of_suffix (fun previous t _ ht => templateBlock_of_omits (by
        rw [List.append_nil]
        exact fun u hu => hF.behind u (hu.trans ht)) previous) _
    have hnone := firstFrom_misses hpass
    rw [List.append_nil, firstFrom, templateBlock_of_omits fun u hu =>
      hF.behind u (hu.trans List.nil_suffix)] at hnone
    exact hnone
  | some e =>
    obtain ⟨n, hn⟩ := templateBlock_write (hF.template e ht).1 hF.behind
      (lastOf none (F.before.flatMap Piece.write))
    exact firstFrom_of_match (fun h => e.write_ne_nil _ (List.append_eq_nil_iff.1 h).1) hn

/-! ## Components -/

/-- All the scripts of a legible file are read, and nothing else. -/
theorem scan_scriptBlock {F : Component} (hF : F.Legible) :
    scan scriptBlock F.write = F.scripts.map Element.block := by
  have hscripts : F.scripts = F.before.filterMap Piece.script? ++ F.behind.filterMap Piece.script? :=
    List.filterMap_append
  have hbehind : all scriptBlock none 0 (F.behind.flatMap Piece.write ++ []) =
      (F.behind.filterMap Piece.script?).map Element.block ++ [] :=
    all_pieces (fun p hp => hF.pieces p (List.mem_append_right _ hp)) nofun
  rw [List.append_nil, List.append_nil] at hbehind
  rw [scan, Component.write, all_pieces (fun p hp => hF.pieces p (List.mem_append_left _ hp))
    F.beginsPiece_behind, hscripts, List.map_append]
  congr 1
  cases ht : F.template with
  | none => exact hbehind
  | some e =>
    have hpieces : ∀ c ∈ (F.behind.flatMap Piece.write ++ []).head?, beginsPiece c = true :=
      beginsPiece_pieces F.behind nofun
    rw [List.append_nil] at hpieces
    exact (all_omits (hF.template e ht).2 hpieces).trans hbehind

theorem Component.legible_of_mem_scripts {F : Component} (hF : F.Legible) {e : Element}
    (he : e ∈ F.scripts) : ∀ a ∈ e.attributes, a.isLegible = true := by
  obtain ⟨p, hp, hscript⟩ := List.mem_filterMap.1 he
  cases p with
  | blanks | custom => cases hscript
  | script f =>
    cases hscript
    exact (hF.pieces _ hp).1

theorem find?_isSetup {es : List Element} (hes : ∀ e ∈ es, ∀ a ∈ e.attributes, a.isLegible = true) :
    (es.map Element.block).find? Block.isSetup = (es.find? Element.isSetup).map Element.block := by
  induction es with
  | nil => rfl
  | cons e es ih =>
    rw [List.map_cons, List.find?_cons, List.find?_cons, Element.isSetup_block (hes e List.mem_cons_self)]
    cases e.isSetup with
    | true => rfl
    | false => exact ih fun f hf => hes f (List.mem_cons_of_mem e hf)

theorem Component.mem_scripts_of_main? {F : Component} {e : Element} (he : F.main? = some e) :
    e ∈ F.scripts := by
  unfold main? at he
  cases hf : F.scripts.find? Element.isSetup with
  | none =>
    rw [hf] at he
    exact List.mem_of_head? he
  | some f =>
    rw [hf] at he
    cases he
    exact List.mem_of_find?_eq_some hf

/-- A component's file is split into the content of its first setup script or else of its first script,
the language that this script's `lang` attribute gives, in small letters, and the trimmed content of
its template. -/
theorem split_component {F : Component} (hF : F.Legible) (hscripts : F.scripts ≠ []) :
    ∃ e, F.main? = some e ∧
      split F.write = ⟨e.content, e.lang?,
        Text.trim (Text.ofChars ((F.template.map Element.content).getD []))⟩ := by
  have hmain : ((scan scriptBlock F.write).find? Block.isSetup).or (scan scriptBlock F.write).head? =
      F.main?.map Element.block := by
    rw [scan_scriptBlock hF, find?_isSetup fun e he => Component.legible_of_mem_scripts hF he,
      List.head?_map, Component.main?]
    cases F.scripts.find? Element.isSetup <;> rfl
  obtain ⟨e, he⟩ : ∃ e, F.main? = some e := by
    obtain ⟨e, es, hes⟩ := List.exists_cons_of_ne_nil hscripts
    rw [Component.main?, hes]
    cases (e :: es).find? Element.isSetup with
    | none => exact ⟨e, rfl⟩
    | some f => exact ⟨f, rfl⟩
  have hlang := Element.lang?_block
    (Component.legible_of_mem_scripts hF (Component.mem_scripts_of_main? he))
  refine ⟨e, he, ?_⟩
  unfold split
  simp only [hmain, he, first_templateBlock hF, Option.map_some, hlang]
  rfl

/-! ### A page with two scripts -/

def pageScript : Element where
  attributes := [{ name := "setup".toList },
    { name := "lang".toList, value := some { text := "TSX".toList } },
    { name := "generic".toList, value := some { quote := .single, text := "T, X".toList } }]
  content := "const a = '<script>'".toList

/-- A page with a block of its own kind, a template with another one in it, and two scripts. -/
def page : Component where
  before := [.custom "docs".toList { content := "A page of <b>text</b>".toList }, .blanks ⟨['\n'], by decide⟩]
  template := some { content := " <p><template #a>x</template></p>\n".toList }
  behind := [.script { content := "export default \x7b\x7d".toList }, .blanks ⟨['\n'], by decide⟩,
    .script pageScript]

theorem legible_page : page.Legible where
  pieces := by decide +kernel
  template := by decide +kernel
  before := by decide +kernel
  behind := by decide +kernel

/-- The setup script is the page's, although it is the second one, and the template ends where it
does. -/
theorem split_component_page : page.Legible ∧ page.scripts ≠ [] ∧
    split page.write = ⟨"const a = '<script>'".toList, some "tsx".toList,
      Text.ofString "<p><template #a>x</template></p>"⟩ := by
  have hscripts : page.scripts ≠ [] := List.cons_ne_nil _ _
  obtain ⟨e, he, hsplit⟩ := split_component legible_page hscripts
  have hmain : page.main? = some pageScript := by rfl
  cases he.symm.trans hmain
  refine ⟨legible_page, hscripts, hsplit.trans ?_⟩
  rw [Sections.mk.injEq]
  decide +kernel

end SurfaceCoverage.SingleFile
