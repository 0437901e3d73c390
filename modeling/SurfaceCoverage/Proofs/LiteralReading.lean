import SurfaceCoverage.Proofs.Spelling
import SurfaceCoverage.Script.Expressions
/-!
# String literals are read and decoded

The reader of a literal takes its opening mark, fragments and escapes in turn, and its closing mark.
A spelling is read piece by piece: characters that stand as they are side by side are one fragment,
every other piece is an escape of its own, and the value of the literal is what the pieces stand for.
-/

namespace SurfaceCoverage

namespace Script

open Reader

/-! ## Readers on given characters -/

/-- The cursor in front of given characters. -/
def Cursor.before (cs : List Char) : Cursor := ⟨cs, cs.length⟩

theorem splitAt_append (s t acc : List Char) :
    Reader.splitAt s.length (s ++ t) acc = (acc.reverse ++ s, t) := by
  induction s generalizing acc with
  | nil => cases t <;> simp [Reader.splitAt]
  | cons c s ih => simp [Reader.splitAt, ih]

section
variable {kind : Kind} {length : List Char → Nat} {p q : Forest} {d : Dialect} {c c' c'' : Cursor}
  {ns ms : List Node}

theorem leaf_of_length {s t : List Char} (hs : s ≠ []) (h : length (s ++ t) = s.length) :
    leaf kind length d (.before (s ++ t)) = some ([.leaf .none kind (String.ofList s)], .before t) := by
  obtain ⟨n, hn⟩ := Nat.exists_eq_succ_of_ne_zero (List.length_pos_iff.2 hs).ne'
  have htake : take (n + 1) d (.before (s ++ t)) = some (String.ofList s, .before t) := by
    have hsplit := splitAt_append s t []
    rw [hn] at hsplit
    have hleft : (s ++ t).length - (n + 1) = t.length := by
      rw [List.length_append, hn]
      omega
    simp only [take, Cursor.before, hsplit, hleft, List.reverse_nil, List.nil_append]
  rw [hn] at h
  simp only [leaf, Reader.rest, bind, pure, Cursor.before, h]
  simp only [Cursor.before] at htake
  rw [htake]

theorem leaf_of_zero {cs : List Char} (h : length cs = 0) : leaf kind length d (.before cs) = none := by
  simp only [leaf, Reader.rest, bind, Cursor.before, h]
  rfl

theorem orElse_of_some {r : List Node × Cursor} (h : p d c = some r) : (p <|> q) d c = some r := by
  change orElse p (fun _ => q) d c = some r
  simp only [orElse, h]

theorem orElse_of_none (h : p d c = none) : (p <|> q) d c = q d c := by
  change orElse p (fun _ => q) d c = q d c
  simp only [orElse, h]

theorem followedBy_of_some (hp : p d c = some (ns, c')) (hq : q d c' = some (ms, c'')) :
    (p ++ q) d c = some (ns ++ ms, c'') := by
  change followedBy p q d c = _
  simp only [followedBy, hp, hq]

theorem followedBy_of_none (hp : p d c = none) : (p ++ q) d c = none := by
  change followedBy p q d c = _
  simp only [followedBy, hp]

/-- Rounds of a reader that read one tree each, until it refuses. -/
inductive Run (p : Forest) (d : Dialect) : List Char → List Node → List Char → Prop
  | stop {cs : List Char} (h : p d (.before cs) = none) : Run p d cs [] cs
  | step {s cs rest : List Char} {n : Node} {ns : List Node} (hs : s ≠ [])
      (h : p d (.before (s ++ cs)) = some ([n], .before cs)) (hrun : Run p d cs ns rest) :
      Run p d (s ++ cs) (n :: ns) rest

theorem Run.many {cs rest : List Char} (h : Run p d cs ns rest) :
    many p d (.before cs) = some (ns, .before rest) := by
  have hrounds : ∀ found : Array Node,
      rounds p d (.before cs) found = (found ++ ns, .before rest) := by
    induction h with
    | stop h =>
      intro found
      rw [rounds, h]
      simp
    | @step s cs rest n ns hs h _ ih =>
      intro found
      have hleft : (Cursor.before cs).left < (Cursor.before (s ++ cs)).left := by
        have := List.length_pos_iff.2 hs
        simp only [Cursor.before, List.length_append]
        omega
      rw [rounds, h]
      simp only [hleft, if_true]
      rw [ih]
      simp
  simp only [Reader.many, hrounds]
  simp

end

/-! ## Marks and the space before them -/

section
variable {d : Dialect} {c : Char} {cs : List Char}

/-- A character that begins no space. -/
def Begins (c : Char) : Prop := isGap c = false ∧ c ≠ '/'

theorem gaps_of_begins (h : Begins c) : gaps d (.before (c :: cs)) = some ([], .before (c :: cs)) := by
  refine Run.many (.stop ?_)
  have hblank : spanLength isGap (c :: cs) = 0 := by simp [spanLength, h.1]
  have hcomment : commentLength (c :: cs) = 0 := by
    unfold commentLength
    split
    · rename_i heq
      exact absurd (List.cons.inj heq).1 h.2
    · rename_i heq
      exact absurd (List.cons.inj heq).1 h.2
    · rfl
  rw [orElse_of_none (leaf_of_zero hblank), leaf_of_zero hcomment]

theorem mark_toString : mark c.toString d (.before (c :: cs)) =
    some ([.leaf .none .token c.toString], .before cs) := by
  have hbegins : begins c.toString (c :: cs) = true := by simp [begins, behind?]
  exact leaf_of_length (s := [c]) (List.cons_ne_nil c []) ((if_pos hbegins).trans (by simp))

theorem mark_of_ne {e : Char} (h : c ≠ e) : mark e.toString d (.before (c :: cs)) = none := by
  have hbegins : begins e.toString (c :: cs) = false := by simp [begins, behind?, h]
  exact leaf_of_zero (if_neg (by rw [hbegins]; exact Bool.false_ne_true))

theorem node_of_begins {kind : Kind} {p : Forest} {ns : List Node} {c' : Cursor} (h : Begins c)
    (hp : p d (.before (c :: cs)) = some (ns, c')) :
    node kind p d (.before (c :: cs)) = some ([.branch .none kind ns], c') := by
  simp only [node, bind, gaps_of_begins h, hp]
  rfl

theorem node_of_none {kind : Kind} {p : Forest} (h : Begins c) (hp : p d (.before (c :: cs)) = none) :
    node kind p d (.before (c :: cs)) = none := by
  simp only [node, bind, gaps_of_begins h, hp]

end

end Script

open Script Reader

/-! ## The parts of a literal -/

namespace Delimiter

/-- The kind of a literal's node. -/
def kind : Delimiter → Kind
  | accent => .templateString
  | _ => .string

/-- The length of the characters at the start that stand as they are. -/
def textLength : Delimiter → List Char → Nat
  | accent => templateTextLength
  | d => spanLength fun c => c != d.mark && c != '\\' && c != '\n' && c != '\r'

/-- A part of a literal: a fragment, an escape or in a template a substitution. -/
def part (r : Rules) : Delimiter → Forest
  | accent =>
    leaf .stringFragment templateTextLength <|> leaf .escapeSequence escapeLength <|>
      node .templateSubstitution (Script.mark "$" ++ Script.mark "\x7b" ++ values r .inner ++ punct "\x7d")
  | d => leaf .stringFragment d.textLength <|> leaf .escapeSequence escapeLength

/-- The reader of literals of a kind. -/
def reader (r : Rules) : Delimiter → Forest
  | accent => templateString r
  | _ => string

section
variable {r : Rules} {d : Dialect}

theorem begins_mark (l : Delimiter) : Begins l.mark := by
  cases l <;> exact ⟨by decide, by decide⟩

theorem part_of_fragment {l : Delimiter} {s cs : List Char} (hs : s ≠ [])
    (h : l.textLength (s ++ cs) = s.length) : l.part r d (.before (s ++ cs)) =
      some ([.leaf .none .stringFragment (String.ofList s)], .before cs) := by
  cases l <;> exact orElse_of_some (leaf_of_length hs h)

theorem part_of_escape {l : Delimiter} {s cs : List Char} (hs : s ≠ [])
    (htext : l.textLength (s ++ cs) = 0) (h : escapeLength (s ++ cs) = s.length) :
    l.part r d (.before (s ++ cs)) =
      some ([.leaf .none .escapeSequence (String.ofList s)], .before cs) := by
  have hescape : leaf .escapeSequence escapeLength d (.before (s ++ cs)) =
      some ([.leaf .none .escapeSequence (String.ofList s)], .before cs) := leaf_of_length hs h
  cases l with
  | accent => exact (orElse_of_none (leaf_of_zero htext)).trans (orElse_of_some hescape)
  | double => exact (orElse_of_none (leaf_of_zero htext)).trans hescape
  | single => exact (orElse_of_none (leaf_of_zero htext)).trans hescape

/-- No part begins with the closing mark. -/
theorem part_mark (l : Delimiter) (cs : List Char) : l.part r d (.before (l.mark :: cs)) = none := by
  have htext : l.textLength (l.mark :: cs) = 0 := by
    cases l <;> simp [textLength, templateTextLength, templateTextLength.go, spanLength, mark]
  have hescape : escapeLength (l.mark :: cs) = 0 := by
    cases l <;> rfl
  have hleaf : leaf .escapeSequence escapeLength d (.before (l.mark :: cs)) = none := leaf_of_zero hescape
  cases l with
  | accent =>
    have hdollar : Script.mark "$" d (.before (Delimiter.accent.mark :: cs)) = none :=
      mark_of_ne (e := '$') (by decide)
    refine (orElse_of_none (leaf_of_zero htext)).trans ((orElse_of_none hleaf).trans ?_)
    exact node_of_none (begins_mark .accent)
      (followedBy_of_none (followedBy_of_none (followedBy_of_none hdollar)))
  | double => exact (orElse_of_none (leaf_of_zero htext)).trans hleaf
  | single => exact (orElse_of_none (leaf_of_zero htext)).trans hleaf

/-- A literal is read whole if its parts are. -/
theorem reader_of_run {l : Delimiter} {cs rest : List Char} {ns : List Node}
    (h : Run (l.part r) d cs ns (l.mark :: rest)) :
    l.reader r d (.before (l.mark :: cs)) =
      some ([.branch .none l.kind ([.leaf .none .token l.mark.toString] ++ ns ++
        [.leaf .none .token l.mark.toString])], .before rest) := by
  have hparts : (Script.mark l.mark.toString ++ many (l.part r) ++ Script.mark l.mark.toString) d
      (.before (l.mark :: cs)) = some ([.leaf .none .token l.mark.toString] ++ ns ++
        [.leaf .none .token l.mark.toString], .before rest) :=
    followedBy_of_some (followedBy_of_some mark_toString h.many) mark_toString
  have hnode : node l.kind (Script.mark l.mark.toString ++ many (l.part r) ++
      Script.mark l.mark.toString) d (.before (l.mark :: cs)) =
        some ([.branch .none l.kind ([.leaf .none .token l.mark.toString] ++ ns ++
          [.leaf .none .token l.mark.toString])], .before rest) :=
    node_of_begins l.begins_mark hparts
  cases l with
  | accent => exact hnode
  | double => exact orElse_of_some hnode
  | single =>
    have hdouble : quoted '"' d (.before (Delimiter.single.mark :: cs)) = none :=
      node_of_none (begins_mark .single) (followedBy_of_none (followedBy_of_none (mark_of_ne (by decide))))
    exact (orElse_of_none hdouble).trans hnode

end

end Delimiter

/-! ## Lengths of fragments and escapes -/

theorem spanLength_append {p : Char → Bool} {s t : List Char} (hs : ∀ c ∈ s, p c = true)
    (ht : ∀ c ∈ t.head?, p c = false) : spanLength p (s ++ t) = s.length := by
  induction s with
  | nil =>
    cases t with
    | nil => rfl
    | cons c t => simp [spanLength, ht c rfl]
  | cons c s ih =>
    have hrest := ih fun e he => hs e (List.mem_cons_of_mem c he)
    simp only [spanLength] at hrest ⊢
    rw [List.cons_append, List.takeWhile_cons, if_pos (hs c List.mem_cons_self), List.length_cons, hrest,
      List.length_cons]

theorem begins_brace {cs : List Char} (h : ∀ c ∈ cs.head?, c ≠ '\x7b') : begins "\x7b" cs = false := by
  cases cs with
  | nil => rfl
  | cons c cs => simp [begins, behind?, h c rfl]

/-- Text of a template goes on to its end, an escape or a substitution. -/
theorem templateTextLength_append {s t : List Char} (hs : ∀ c ∈ s, c ≠ accent ∧ c ≠ '\\')
    (hapart : s.IsChain fun c e => ¬ (c = '$' ∧ e = '\x7b')) (ht : ∀ c ∈ t.head?, c = accent ∨ c = '\\') :
    templateTextLength (s ++ t) = s.length := by
  have hgo : ∀ n, templateTextLength.go (s ++ t) n = n + s.length := by
    induction s with
    | nil =>
      intro n
      cases t with
      | nil => rfl
      | cons c t => simp [templateTextLength.go, ht c rfl]
    | cons c s ih =>
      intro n
      have hplain := hs c List.mem_cons_self
      have hsubstitution : (decide (c = '$') && begins "\x7b" (s ++ t)) = false := by
        by_cases hdollar : c = '$'
        · rw [begins_brace, Bool.and_false]
          intro e he
          cases s with
          | nil =>
            rcases ht e he with rfl | rfl
            · decide
            · decide
          | cons e' s =>
            cases he
            exact fun hbrace => (List.isChain_cons_cons.1 hapart).1 ⟨hdollar, hbrace⟩
        · simp [hdollar]
      have ih := ih (fun e he => hs e (List.mem_cons_of_mem c he)) hapart.tail
      rw [List.cons_append, templateTextLength.go, if_neg (by simp [hplain]),
        if_neg (by rw [hsubstitution]; exact Bool.false_ne_true), ih, List.length_cons]
      omega
  exact (hgo 0).trans (Nat.zero_add _)

theorem mem_of_isOctal {c : Char} (h : isOctal c = true) : c ∈ "01234567".toList := by
  simp only [isOctal, Bool.and_eq_true, decide_eq_true_eq, Char.le_def, UInt32.le_iff_toNat_le] at h
  have hlow : 48 ≤ c.toNat := h.1
  have hhigh : c.toNat ≤ 55 := h.2
  have hcases : c.toNat = 48 ∨ c.toNat = 49 ∨ c.toNat = 50 ∨ c.toNat = 51 ∨ c.toNat = 52 ∨
      c.toNat = 53 ∨ c.toNat = 54 ∨ c.toNat = 55 := by omega
  rw [← Char.ofNat_toNat c]
  rcases hcases with h | h | h | h | h | h | h | h <;> rw [h] <;> decide

theorem isOctal_of_isDigit {c : Char} (h : c.isDigit = false) : isOctal c = false := by
  by_contra hc
  have hmem := mem_of_isOctal (Bool.not_eq_false _ ▸ hc)
  simp only [String.reduceToList, List.mem_cons, List.not_mem_nil, or_false] at hmem
  rcases hmem with rfl | rfl | rfl | rfl | rfl | rfl | rfl | rfl <;> cases h

section
variable {l : Delimiter} {t : List Char}

/-- Of the octal digits only the zero is escaped. -/
theorem eq_zero_of_isValid {c : Char} (hv : (Piece.single c).isValid l = true)
    (hc : isOctal c = true) : c = '0' := by
  have hmem := mem_of_isOctal hc
  simp only [String.reduceToList, List.mem_cons, List.not_mem_nil, or_false] at hmem
  rcases hmem with rfl | rfl | rfl | rfl | rfl | rfl | rfl | rfl
  · rfl
  all_goals cases hv

theorem escapeLength_single {c : Char} (hv : (Piece.single c).isValid l = true)
    (hzero : c = '0' → ∀ e ∈ t.head?, e.isDigit = false)
    (hquestion : c = '?' → ∀ e ∈ t.head?, isLineEnd e = false) :
    escapeLength ('\\' :: c :: t) = 2 := by
  have hx : c ≠ 'x' := by rintro rfl; cases hv
  have hu : c ≠ 'u' := by rintro rfl; cases hv
  have hr : c ≠ '\r' := by rintro rfl; cases hv
  have hspan : isOctal c = true → spanLength isOctal t = 0 := by
    intro hc
    cases t with
    | nil => rfl
    | cons e t =>
      simp [spanLength, isOctal_of_isDigit (hzero (eq_zero_of_isValid hv hc) e rfl)]
  have hend : ((decide (c = '\r') || decide (c = '?')) && t.head?.any isLineEnd) = false := by
    by_cases hc : c = '?'
    · cases t with
      | nil => simp
      | cons e t => simp [hquestion hc e rfl]
    · simp [hc, hr]
  have hlength : (if isOctal c then min (spanLength isOctal t) 2 + 2 else if c = 'x' || c = 'u' then 0
      else if (c = '\r' || c = '?') && (t.head?.any isLineEnd) then 3 else 2) = 2 := by
    by_cases hc : isOctal c = true
    · simp [hc, hspan hc]
    · simp [hc, hx, hu, hend]
  rw [← hlength]
  unfold escapeLength
  split <;> simp_all

theorem escapeLength_unit (a b c d : HexDigit) :
    escapeLength ('\\' :: 'u' :: a.write :: b.write :: c.write :: d.write :: t) = 6 := by
  have ha : a.write ≠ '\x7b' := by
    have h := a.write_ne_brace
    simp only [Bool.or_eq_false_iff, beq_eq_false_iff_ne] at h
    exact h.1
  have hhex : [a.write, b.write, c.write, d.write].all isHex = true := by
    simp [HexDigit.isHex_write]
  unfold escapeLength
  split
  case h_3 heq =>
    simp only [List.cons.injEq, true_and] at heq
    obtain ⟨rfl, rfl, rfl, rfl, -⟩ := heq
    exact if_pos hhex
  case h_4 hunit heq =>
    cases heq
    exact (hunit _ _ _ _ _ rfl rfl).elim
  all_goals simp_all

theorem escapeLength_point {ds : List HexDigit} (hds : ds ≠ []) :
    escapeLength ('\\' :: 'u' :: '\x7b' :: (ds.map HexDigit.write ++ '\x7d' :: t)) = ds.length + 4 := by
  have hspan : spanLength isHex (ds.map HexDigit.write ++ '\x7d' :: t) = ds.length := by
    have h := spanLength_append (p := isHex) (s := ds.map HexDigit.write) (t := '\x7d' :: t)
      (fun c hc => by obtain ⟨e, -, rfl⟩ := List.mem_map.1 hc; exact e.isHex_write)
      (fun c hc => by cases hc; decide)
    rwa [List.length_map] at h
  have hpos := List.length_pos_iff.2 hds
  have hdrop : (ds.map HexDigit.write ++ '\x7d' :: t).drop ds.length = '\x7d' :: t :=
    List.drop_left' (List.length_map ..)
  simp [escapeLength, hspan, hpos, hdrop, begins, behind?]

/-- An escape is as long as it is written. -/
theorem escapeLength_write {p : Piece} (hp : p.isEscape = true) (hv : p.isValid l = true)
    (hline : ∀ e, p = .continuation e → e = .lineFeed)
    (hzero : p = .single '0' → ∀ c ∈ t.head?, c.isDigit = false)
    (hquestion : p = .single '?' → ∀ c ∈ t.head?, isLineEnd c = false) :
    escapeLength (p.write ++ t) = p.write.length := by
  cases p with
  | raw c => cases hp
  | single c =>
    exact escapeLength_single hv (fun hc => hzero (by rw [hc])) fun hc => hquestion (by rw [hc])
  | byte a b => simp [Piece.write, Piece.isEscape, Piece.body, escapeLength, HexDigit.isHex_write]
  | unit a b c d => exact escapeLength_unit a b c d
  | point ds =>
    have hds : ds ≠ [] := by
      rintro rfl
      cases hv
    have h := escapeLength_point (t := t) hds
    simpa [Piece.write, Piece.isEscape, Piece.body] using h
  | continuation e =>
    rw [hline e rfl]
    rfl

end

/-! ## Pieces are read -/

/-- Parts are read up to a rest, with a value. -/
def Reads (p : Forest) (d : Dialect) (cs : List Char) (t : Text) (rest : List Char) : Prop :=
  ∃ ns, Run p d cs ns rest ∧ joinFragments ns = .ok (some t)

section
variable {p : Forest} {d : Dialect} {cs rest : List Char} {t : Text}

theorem Reads.fragment {s : List Char} (hs : s ≠ [])
    (h : p d (.before (s ++ cs)) = some ([.leaf .none .stringFragment (String.ofList s)], .before cs))
    (hreads : Reads p d cs t rest) : Reads p d (s ++ cs) (Text.ofChars s ++ t) rest := by
  obtain ⟨ns, hrun, hvalue⟩ := hreads
  refine ⟨_, .step hs h hrun, ?_⟩
  rw [joinFragments]
  simp [Node.kind, hvalue, Node.name, Node.text, Text.ofString]

theorem Reads.escape {body : List Char} {u : Text}
    (h : p d (.before ('\\' :: body ++ cs)) =
      some ([.leaf .none .escapeSequence (String.ofList ('\\' :: body))], .before cs))
    (hbody : decodeEscape body = .ok u) (hreads : Reads p d cs t rest) :
    Reads p d ('\\' :: body ++ cs) (u ++ t) rest := by
  obtain ⟨ns, hrun, hvalue⟩ := hreads
  refine ⟨_, .step (List.cons_ne_nil _ _) h hrun, ?_⟩
  rw [joinFragments]
  simp only [Node.kind, Node.text, String.toList_ofList, List.drop_succ_cons, List.drop_zero, hbody]
  exact congrArg (fun e : Except Failure (Option Text) => e >>= fun v => pure (v.map (u ++ ·))) hvalue

end

/-- Pieces begin with characters that stand as they are, before the first escape. -/
theorem exists_raws (ps : List Piece) :
    ∃ (cs : List Char) (qs : List Piece), ps = cs.map Piece.raw ++ qs ∧ ∀ p ∈ qs.head?, p.isEscape = true := by
  induction ps with
  | nil => exact ⟨[], [], rfl, fun p hp => by cases hp⟩
  | cons p ps ih =>
    obtain ⟨cs, qs, rfl, hqs⟩ := ih
    cases p with
    | raw c => exact ⟨c :: cs, qs, rfl, hqs⟩
    | _ => exact ⟨[], _, rfl, fun p hp => by cases hp; rfl⟩

theorem write_raws (cs : List Char) : (cs.map Piece.raw).flatMap Piece.write = cs := by
  induction cs with
  | nil => rfl
  | cons c cs ih => rw [List.map_cons, List.flatMap_cons, ih]; rfl

theorem points_raws (cs : List Char) : (cs.map Piece.raw).flatMap Piece.points = Text.ofChars cs := by
  induction cs with
  | nil => rfl
  | cons c cs ih => rw [List.map_cons, List.flatMap_cons, ih]; rfl

namespace Spells

variable {l : Delimiter} {ps qs : List Piece}

theorem append_right (h : Spells l (ps ++ qs)) : Spells l qs where
  valid p hp := h.valid p (List.mem_append_right ps hp)
  apart := (List.isChain_append.1 h.apart).2.1

theorem append_left (h : Spells l (ps ++ qs)) : Spells l ps where
  valid p hp := h.valid p (List.mem_append_left qs hp)
  apart := (List.isChain_append.1 h.apart).1

theorem nil : Spells l [] := ⟨fun p hp => by (cases hp), .nil⟩

/-- Characters that stand as they are side by side are one fragment. -/
theorem textLength_raws {cs : List Char} (h : Spells l (cs.map Piece.raw)) {t : List Char}
    (ht : ∀ c ∈ t.head?, c = l.mark ∨ c = '\\') : l.textLength (cs ++ t) = cs.length := by
  have hvalid : ∀ c ∈ cs, (c != l.mark && c != '\\' && c != '\r' && (l == .accent || c != '\n')) = true :=
    fun c hc => h.valid _ (List.mem_map_of_mem hc)
  -- between quotation marks a fragment ends where a character cannot stand as it is
  have hquoted : l ≠ .accent → (spanLength fun c => c != l.mark && c != '\\' && c != '\n' && c != '\r')
      (cs ++ t) = cs.length := by
    intro hl
    refine spanLength_append (fun c hc => ?_) fun c hc => ?_
    · have hc := hvalid c hc
      simp only [Bool.and_eq_true, bne_iff_ne, Bool.or_eq_true, beq_iff_eq, hl, false_or] at hc ⊢
      exact ⟨⟨hc.1.1, hc.2⟩, hc.1.2⟩
    · rcases ht c hc with rfl | rfl <;> simp
  cases l with
  | accent =>
    refine templateTextLength_append (fun c hc => ?_) ?_ ht
    · have hc := hvalid c hc
      simp only [Bool.and_eq_true, bne_iff_ne] at hc
      exact hc.1.1
    · refine ((List.isChain_map _).1 h.apart).imp ?_
      rintro c e hclash ⟨rfl, rfl⟩
      cases hclash
  | double => exact hquoted (by decide)
  | single => exact hquoted (by decide)

/-- No fragment begins with a mark or an escape. -/
theorem textLength_of_empty {t : List Char} (ht : ∀ c ∈ t.head?, c = l.mark ∨ c = '\\') :
    l.textLength t = 0 := by
  have hnil : Spells l (([] : List Char).map Piece.raw) := nil
  exact hnil.textLength_raws ht

/-- Behind pieces there is a character as it is, a backslash or the closing mark. -/
theorem head_write (ps : List Piece) (rest : List Char) :
    ∀ c ∈ (ps.flatMap Piece.write ++ l.mark :: rest).head?,
      c = l.mark ∨ c = '\\' ∨ ∃ qs, ps = .raw c :: qs := by
  intro c hc
  cases ps with
  | nil =>
    cases hc
    exact .inl rfl
  | cons p ps =>
    cases p with
    | raw e =>
      cases hc
      exact .inr (.inr ⟨ps, rfl⟩)
    | _ =>
      cases hc
      exact .inr (.inl rfl)

/-- An escape is read as a part of its own, but for a question mark in front of a line end. -/
theorem reads_escape {r : Rules} {d : Dialect} {p : Piece} (h : Spells l (p :: ps)) (hp : p.isEscape = true)
    (hline : ∀ e, p = .continuation e → e = .lineFeed)
    (hquestion : ∀ c qs, p = .single '?' → ps = .raw c :: qs → isLineEnd c = false) {rest : List Char}
    {t : Text} (hreads : Reads (l.part r) d (ps.flatMap Piece.write ++ l.mark :: rest) t (l.mark :: rest)) :
    Reads (l.part r) d ((p :: ps).flatMap Piece.write ++ l.mark :: rest) (p.points ++ t) (l.mark :: rest) := by
  have hvalid := h.valid p List.mem_cons_self
  have hwrite : p.write = '\\' :: p.body := if_pos hp
  have hzero : p = .single '0' →
      ∀ c ∈ (ps.flatMap Piece.write ++ l.mark :: rest).head?, c.isDigit = false := by
    rintro rfl c hc
    rcases head_write ps rest c hc with rfl | rfl | ⟨qs, rfl⟩
    · cases l <;> decide
    · decide
    · exact (List.isChain_cons_cons.1 h.apart).1
  have hend : p = .single '?' →
      ∀ c ∈ (ps.flatMap Piece.write ++ l.mark :: rest).head?, isLineEnd c = false := by
    rintro hp c hc
    rcases head_write ps rest c hc with rfl | rfl | ⟨qs, hqs⟩
    · cases l <;> decide
    · decide
    · exact hquestion c qs hp hqs
  have hlength := escapeLength_write hp hvalid hline hzero hend
  have htext : l.textLength (p.write ++ (ps.flatMap Piece.write ++ l.mark :: rest)) = 0 := by
    rw [hwrite]
    exact textLength_of_empty fun c hc => by cases hc; exact .inr rfl
  rw [List.flatMap_cons, List.append_assoc]
  rw [hwrite] at hlength htext ⊢
  exact hreads.escape (Delimiter.part_of_escape (List.cons_ne_nil _ _) htext hlength)
    (Piece.decodeEscape_body hp hvalid hline)

/-- An escaped question mark takes the line end behind it, and both stand for themselves. -/
theorem reads_question {r : Rules} {d : Dialect} {c : Char} (hc : isLineEnd c = true) {rest : List Char}
    {t : Text} (hreads : Reads (l.part r) d (ps.flatMap Piece.write ++ l.mark :: rest) t (l.mark :: rest)) :
    Reads (l.part r) d ((.single '?' :: .raw c :: ps).flatMap Piece.write ++ l.mark :: rest)
      (.scalar '?' :: .scalar c :: t) (l.mark :: rest) := by
  have htext : l.textLength (['\\', '?', c] ++ (ps.flatMap Piece.write ++ l.mark :: rest)) = 0 :=
    textLength_of_empty fun e he => by cases he; exact .inr rfl
  have hlength : escapeLength (['\\', '?', c] ++ (ps.flatMap Piece.write ++ l.mark :: rest)) = 3 := by
    simp [escapeLength, isOctal, hc]
  have hbody : decodeEscape ['?', c] = .ok [.scalar '?', .scalar c] := rfl
  exact hreads.escape (Delimiter.part_of_escape (List.cons_ne_nil _ _) htext hlength) hbody

/-- A spelling is read up to the closing mark, with the value of its pieces. -/
theorem reads {r : Rules} {d : Dialect} (h : Spells l ps)
    (hline : ∀ e, .continuation e ∈ ps → e = .lineFeed) (rest : List Char) :
    Reads (l.part r) d (ps.flatMap Piece.write ++ l.mark :: rest) (ps.flatMap Piece.points)
      (l.mark :: rest) := by
  -- on the number of pieces: a fragment takes several at once, and an escaped question mark takes
  -- the line end behind it
  induction hn : ps.length using Nat.strong_induction_on generalizing ps with
  | _ n ih =>
    subst hn
    obtain ⟨cs, qs, rfl, hqs⟩ := exists_raws ps
    have hlast := h.append_right
    have hline : ∀ e, .continuation e ∈ qs → e = .lineFeed := fun e he =>
      hline e (List.mem_append_right _ he)
    have hescapes : Reads (l.part r) d (qs.flatMap Piece.write ++ l.mark :: rest)
        (qs.flatMap Piece.points) (l.mark :: rest) := by
      cases qs with
      | nil => exact ⟨[], .stop (l.part_mark rest), rfl⟩
      | cons p qs =>
        by_cases hquestion : ∃ c ps, p = .single '?' ∧ qs = .raw c :: ps ∧ isLineEnd c = true
        · obtain ⟨c, ps, rfl, rfl, hc⟩ := hquestion
          have hcut : Spells l ([.single '?', .raw c] ++ ps) := hlast
          have hps : Spells l ps := hcut.append_right
          exact reads_question hc (ih ps.length (by simp; omega) hps
            (fun e he => hline e (List.mem_cons_of_mem _ (List.mem_cons_of_mem _ he))) rfl)
        · have hcut : Spells l ([p] ++ qs) := hlast
          have hps : Spells l qs := hcut.append_right
          refine reads_escape hlast (hqs p rfl) (fun e he => hline e (he ▸ List.mem_cons_self)) ?_
            (ih qs.length (by simp; omega) hps (fun e he => hline e (List.mem_cons_of_mem _ he)) rfl)
          intro c ps hp hps
          by_contra hc
          exact hquestion ⟨c, ps, hp, hps, by simpa using hc⟩
    rw [List.flatMap_append, List.flatMap_append, write_raws, points_raws, List.append_assoc]
    by_cases hcs : cs = []
    · subst hcs
      exact hescapes
    · refine hescapes.fragment hcs (Delimiter.part_of_fragment hcs (h.append_left.textLength_raws ?_))
      intro c hc
      rcases head_write qs rest c hc with hmark | hslash | ⟨ps, rfl⟩
      · exact .inl hmark
      · exact .inr hslash
      · cases hqs _ rfl

end Spells

/-! ## Numbers that overflow -/

/-- The number that an escape names. -/
def escapeNumber? : List Char → Option Nat
  | c :: d :: digits => if c = 'u' ∨ c = 'x' then hexNumber? (withoutBraces (d :: digits)) else none
  | _ => none

/-- An escape whose number has more than 31 bits. -/
def Node.Overflows (n : Node) : Prop :=
  n.kind = .escapeSequence ∧ ∃ k, escapeNumber? (n.text.toList.drop 1) = some k ∧ 2 ^ 31 ≤ k

theorem numberedText_of_le {n : Nat} (hn : 2 ^ 31 ≤ n) (instead : List Char) :
    numberedText n instead = .error .overflow := by
  have hnone : CodePoint.ofNat? n = none := by
    unfold CodePoint.ofNat? Nat.isValidChar
    rw [dif_neg (by omega), if_neg (by omega)]
  have hge : ¬ n < Nat.pow 2 31 := by
    change ¬ n < 2 ^ 31
    omega
  simp only [numberedText, hnone, hge, if_false]

theorem numberedText_of_not_le {n : Nat} (hn : ¬ 2 ^ 31 ≤ n) (instead : List Char) :
    ∃ t, numberedText n instead = .ok t := by
  have hlt : n < Nat.pow 2 31 := by
    change n < 2 ^ 31
    omega
  unfold numberedText
  split
  · exact ⟨_, rfl⟩
  · exact ⟨_, if_pos hlt⟩

theorem decodeEscape_of_overflow {body : List Char} {k : Nat} (h : escapeNumber? body = some k)
    (hk : 2 ^ 31 ≤ k) : decodeEscape body = .error .overflow := by
  unfold escapeNumber? at h
  split at h
  · rename_i c d digits
    split at h
    · rename_i hc
      simp only [decodeEscape, hc, if_true, h]
      exact numberedText_of_le hk _
    · cases h
  · cases h

/-- Every other escape stands for a text. -/
theorem exists_decodeEscape {body : List Char} (h : ∀ k, escapeNumber? body = some k → ¬ 2 ^ 31 ≤ k) :
    ∃ t, decodeEscape body = .ok t := by
  unfold decodeEscape
  split
  · exact ⟨_, rfl⟩
  · split <;> exact ⟨_, rfl⟩
  · rename_i c digits hsingle
    obtain ⟨d, digits, rfl⟩ := List.exists_cons_of_ne_nil hsingle
    split
    · rename_i hc
      cases hn : hexNumber? (withoutBraces (d :: digits)) with
      | none => exact ⟨_, rfl⟩
      | some n => exact numberedText_of_not_le (h n (by simp only [escapeNumber?, hc, if_true, hn])) _
    · split <;> exact ⟨_, rfl⟩

theorem joinFragments_of_overflow {ns : List Node} (hwhole : ∀ n ∈ ns, n.kind ≠ .templateSubstitution)
    (h : ∃ n ∈ ns, n.Overflows) : joinFragments ns = .error .overflow := by
  induction ns with
  | nil => obtain ⟨n, hn, -⟩ := h; cases hn
  | cons n ns ih =>
    by_cases hn : n.Overflows
    · obtain ⟨hkind, k, hnumber, hk⟩ := hn
      rw [joinFragments]
      simp only [hkind, decodeEscape_of_overflow hnumber hk]
      rfl
    have ih : joinFragments ns = .error .overflow := by
      obtain ⟨m, hm, hoverflow⟩ := h
      rcases List.mem_cons.1 hm with rfl | hm
      · exact absurd hoverflow hn
      · exact ih (fun m hm => hwhole m (List.mem_cons_of_mem n hm)) ⟨m, hm, hoverflow⟩
    rw [joinFragments]
    split
    · exact absurd ‹_› (hwhole n List.mem_cons_self)
    · rw [ih]
      rfl
    · rename_i hkind
      obtain ⟨t, ht⟩ := exists_decodeEscape fun k hnumber hk => hn ⟨hkind, k, hnumber, hk⟩
      rw [ht, ih]
      rfl
    · exact ih

theorem exists_joinFragments {ns : List Node} (hwhole : ∀ n ∈ ns, n.kind ≠ .templateSubstitution)
    (h : ∀ n ∈ ns, ¬ n.Overflows) : ∃ t, joinFragments ns = .ok (some t) := by
  induction ns with
  | nil => exact ⟨[], rfl⟩
  | cons n ns ih =>
    obtain ⟨t, ht⟩ := ih (fun m hm => hwhole m (List.mem_cons_of_mem n hm))
      fun m hm => h m (List.mem_cons_of_mem n hm)
    rw [joinFragments]
    split
    · exact absurd ‹_› (hwhole n List.mem_cons_self)
    · rw [ht]
      exact ⟨_, rfl⟩
    · rename_i hkind
      obtain ⟨u, hu⟩ := exists_decodeEscape fun k hnumber hk =>
        h n List.mem_cons_self ⟨hkind, k, hnumber, hk⟩
      rw [ht, hu]
      exact ⟨_, rfl⟩
    · exact ⟨t, ht⟩

/-! ## Values of literals -/

/-- Parts between marks have the value of the parts. -/
theorem joinFragments_marks {ns : List Node} {t : Text} (h : joinFragments ns = .ok (some t)) (q : String) :
    joinFragments ([.leaf .none .token q] ++ ns ++ [.leaf .none .token q]) = .ok (some t) := by
  have hend : joinFragments (ns ++ [.leaf .none .token q]) = joinFragments ns := by
    clear h
    induction ns with
    | nil => rfl
    | cons n ns ih => rw [List.cons_append, joinFragments, joinFragments, ih]
  rw [List.append_assoc, List.singleton_append, joinFragments]
  exact hend.trans h

/-- A string literal has the value that it spells: every spelling in quotation marks or as a template is
read as one literal up to its closing mark, with the spelled string as its value, if its line
continuations are line feeds and no escapes spell halves of a code point side by side. And every
literal without substitutions has a value, unless the number of an escape has more than 31 bits. -/
theorem literals_decode (r : Rules) (d : Dialect) :
    (∀ (l : Delimiter) (ps : List Piece), Spells l ps → (∀ e, .continuation e ∈ ps → e = .lineFeed) →
      (ps.flatMap Piece.points).IsChain (fun p q => p.pairs q = false) →
      ∀ rest : List Char, ∃ n : Node,
        l.reader r d (.before (l.mark :: (ps.flatMap Piece.write ++ l.mark :: rest))) =
          some ([n], .before rest) ∧
        n.kind = l.kind ∧ n.stringValue = .ok (some (spelled ps))) ∧
    ∀ n : Node, n.kind = .string ∨ n.kind = .templateString →
      (∀ m ∈ n.children, m.kind ≠ .templateSubstitution) →
      ((∀ m ∈ n.children, ¬ m.Overflows) → ∃ t, n.stringValue = .ok (some t)) ∧
      ((∃ m ∈ n.children, m.Overflows) → n.stringValue = .error .overflow) := by
  refine ⟨fun l ps h hline hapart rest => ?_, fun n hkind hwhole => ?_⟩
  · obtain ⟨ns, hrun, hvalue⟩ := h.reads (r := r) (d := d) hline rest
    refine ⟨_, Delimiter.reader_of_run hrun, rfl, ?_⟩
    have hliteral : ∀ cs, (Node.branch .none l.kind cs).isLiteral = true := by
      intro cs
      cases l <;> rfl
    rw [Node.stringValue, if_pos (hliteral _), spelled, joined_of_apart hapart]
    exact joinFragments_marks hvalue _
  · have hvalue : n.stringValue = joinFragments n.children := by
      rw [Node.stringValue, if_pos]
      rcases hkind with h | h <;> simp [Node.isLiteral, h]
    rw [hvalue]
    exact ⟨exists_joinFragments hwhole, joinFragments_of_overflow hwhole⟩

/-! ### A spelling with pieces of every form -/

/-- `a\x41\u00e9\u{1F600}`, a line continuation, an escaped question mark in front of a line
separator, and an escaped zero. -/
def spelling : List Piece :=
  [.raw 'a', .byte (.ofNumber 4) (.ofNumber 1),
    .unit (.ofNumber 0) (.ofNumber 0) (.ofNumber 14) (.ofNumber 9),
    .point [.ofNumber 1, .ofNumber 15 true, .ofNumber 6, .ofNumber 0, .ofNumber 0],
    .continuation .lineFeed, .single '?', .raw (Char.ofNat 0x2028), .single 'n', .single '0']

/-- `'\u{FFFFFFFF}'` -/
def overflowing : Node :=
  .branch .none .string [.leaf .none .token "'", .leaf .none .escapeSequence "\\u\x7bFFFFFFFF\x7d",
    .leaf .none .token "'"]

theorem literals_decode_spelling :
    Spells .single spelling ∧ spelled spelling = Text.ofString "aAé😀?\u2028\n\x00" ∧
    (∃ n : Node, Delimiter.single.reader (fun _ => nothing) .typescript
        (.before ('\'' :: (spelling.flatMap Piece.write ++ '\'' :: [';']))) = some ([n], .before [';']) ∧
      n.stringValue = .ok (some (spelled spelling))) ∧
    overflowing.stringValue = .error .overflow := by
  have hspells : Spells .single spelling := ⟨by decide, by decide⟩
  have hoverflow : ∃ m ∈ overflowing.children, m.Overflows :=
    ⟨_, .tail _ (.head _), rfl, 0xffffffff, by decide, by decide⟩
  obtain ⟨hread, hvalue⟩ := literals_decode (fun _ => nothing) .typescript
  refine ⟨hspells, by decide, ?_, (hvalue overflowing (.inl rfl) (by decide)).2 hoverflow⟩
  obtain ⟨n, hn, -, hvalue⟩ := hread .single spelling hspells (by simp [spelling]) (by decide) [';']
  exact ⟨n, hn, hvalue⟩

/-- The halves of a code point stay apart in the value of a literal. -/
example :
    (Node.branch .none .string [.leaf .none .escapeSequence "\\ud83d",
      .leaf .none .escapeSequence "\\ude00"]).stringValue = .ok (some [.surrogate 61, .surrogate 1536]) ∧
    spelled [.unit ⟨13, false⟩ ⟨8, false⟩ ⟨3, false⟩ ⟨13, false⟩,
      .unit ⟨13, false⟩ ⟨14, false⟩ ⟨0, false⟩ ⟨0, false⟩] = Text.ofString "😀" := by
  decide +kernel

end SurfaceCoverage
