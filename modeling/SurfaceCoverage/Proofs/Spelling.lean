import Mathlib
import SurfaceCoverage.Script.Token
import SurfaceCoverage.Tree.Literal
/-!
# Spellings of string literals

A string is spelled piece by piece: a character as it is, an escape of one letter, an escape by number
with two or four digits or with any number of them in braces, or a line continuation, which stands for
nothing. Two escapes by number may spell the two halves of one code point. A piece is decoded to what
it stands for, whatever pieces stand beside it.
-/

namespace SurfaceCoverage

open Script

/-! ## Numbers -/

/-- A hexadecimal digit as it is written. -/
structure HexDigit where
  value : Fin 16
  capital : Bool := false
deriving DecidableEq

namespace HexDigit

def write (d : HexDigit) : Char :=
  Char.ofNat (if d.value < 10 then 48 + d.value else if d.capital then 55 + d.value else 87 + d.value)

/-- The digit of a number, modulo sixteen. -/
def ofNumber (n : Nat) (capital : Bool := false) : HexDigit := ⟨Fin.ofNat 16 n, capital⟩

/-- The number that digits write, from the number that the digits before them write. -/
def numberFrom (n : Nat) (ds : List HexDigit) : Nat := ds.foldl (fun n d => n * 16 + d.value) n

theorem forall_write {P : HexDigit → Prop} (h : ∀ v, P ⟨v, false⟩ ∧ P ⟨v, true⟩) (d : HexDigit) : P d := by
  obtain ⟨v, capital⟩ := d
  cases capital
  · exact (h v).1
  · exact (h v).2

theorem hexDigit?_write (d : HexDigit) : hexDigit? d.write = some d.value :=
  forall_write (P := fun d => hexDigit? d.write = some d.value.val) (by decide) d

theorem isHex_write (d : HexDigit) : isHex d.write = true :=
  forall_write (P := fun d => isHex d.write = true) (by decide) d

/-- No digit is a brace. -/
theorem write_ne_brace (d : HexDigit) : (d.write == '\x7b' || d.write == '\x7d') = false :=
  forall_write (P := fun d => (d.write == '\x7b' || d.write == '\x7d') = false) (by decide) d

theorem hexNumber?_write {ds : List HexDigit} (h : ds ≠ []) :
    hexNumber? (ds.map write) = some (numberFrom 0 ds) := by
  have hfold : ∀ (ds : List HexDigit) (n : Nat), (ds.map write).foldl
      (fun n c => do return (← n) * 16 + (← hexDigit? c)) (some n) = some (numberFrom n ds) := by
    intro ds
    induction ds with
    | nil => intro n; rfl
    | cons d ds ih =>
      intro n
      rw [List.map_cons, List.foldl_cons, hexDigit?_write]
      exact ih (n * 16 + d.value)
  obtain ⟨d, ds, rfl⟩ := List.exists_cons_of_ne_nil h
  rw [hexNumber?, List.map_cons, List.isEmpty_cons, if_neg (by simp)]
  exact hfold (d :: ds) 0

theorem dropWhile_brace_write (ds : List HexDigit) :
    (ds.map write).dropWhile (fun c => c == '\x7b' || c == '\x7d') = ds.map write := by
  cases ds with
  | nil => rfl
  | cons d ds => exact List.dropWhile_cons_of_neg (by rw [d.write_ne_brace]; simp)

theorem withoutBraces_write (ds : List HexDigit) : withoutBraces (ds.map write) = ds.map write := by
  simp only [withoutBraces, dropWhile_brace_write, ← List.map_reverse, List.reverse_reverse]

theorem withoutBraces_braced (ds : List HexDigit) :
    withoutBraces ('\x7b' :: (ds.map write ++ ['\x7d'])) = ds.map write := by
  cases ds with
  | nil => rfl
  | cons d ds =>
    have hfront : ('\x7b' :: ((d :: ds).map write ++ ['\x7d'])).dropWhile
        (fun c => c == '\x7b' || c == '\x7d') = (d :: ds).map write ++ ['\x7d'] := by
      rw [List.dropWhile_cons_of_pos (by rfl), List.map_cons, List.cons_append,
        List.dropWhile_cons_of_neg (by rw [d.write_ne_brace]; simp)]
    simp only [withoutBraces, hfront, List.reverse_append, List.reverse_singleton, List.singleton_append]
    rw [List.dropWhile_cons_of_pos (by rfl), ← List.map_reverse, dropWhile_brace_write, ← List.map_reverse,
      List.reverse_reverse]

end HexDigit

/-! ## Pieces -/

/-- The ends of lines. -/
inductive LineEnd where
  | lineFeed | carriageReturn | both | lineSeparator | paragraphSeparator
deriving DecidableEq

def LineEnd.write : LineEnd → List Char
  | lineFeed => ['\n']
  | carriageReturn => ['\r']
  | both => ['\r', '\n']
  | lineSeparator => [Char.ofNat 0x2028]
  | paragraphSeparator => [Char.ofNat 0x2029]

/-- What a single character behind a backslash stands for. -/
def escapedChar : Char → Char
  | '0' => Char.ofNat 0
  | 'b' => Char.ofNat 8
  | 't' => Char.ofNat 9
  | 'n' => Char.ofNat 10
  | 'v' => Char.ofNat 11
  | 'f' => Char.ofNat 12
  | 'r' => Char.ofNat 13
  | c => c

/-- A piece of a literal: a character as it is, an escape of one character, of two, four or any number
of digits, or a line continuation. -/
inductive Piece where
  | raw (c : Char)
  | single (c : Char)
  | byte (a b : HexDigit)
  | unit (a b c d : HexDigit)
  | point (ds : List HexDigit)
  | continuation (e : LineEnd)
deriving DecidableEq

/-- The kinds of string literals: in double or single quotation marks, or between accents. -/
inductive Delimiter where
  | double | single | accent
deriving DecidableEq

def Delimiter.mark : Delimiter → Char
  | double => '"'
  | single => '\''
  | accent => Script.accent

namespace Piece

def isEscape : Piece → Bool
  | raw _ => false
  | _ => true

/-- A piece without the backslash of an escape. -/
def body : Piece → List Char
  | raw c => [c]
  | single c => [c]
  | byte a b => 'x' :: [a, b].map HexDigit.write
  | unit a b c d => 'u' :: [a, b, c, d].map HexDigit.write
  | point ds => 'u' :: '\x7b' :: (ds.map HexDigit.write ++ ['\x7d'])
  | continuation e => e.write

def write (p : Piece) : List Char := if p.isEscape then '\\' :: p.body else p.body

/-- The code points that a piece stands for: one, or none for a line continuation. -/
def points : Piece → Text
  | raw c => [.scalar c]
  | single c => [.scalar (escapedChar c)]
  | byte a b => (CodePoint.ofNat? (HexDigit.numberFrom 0 [a, b])).toList
  | unit a b c d => (CodePoint.ofNat? (HexDigit.numberFrom 0 [a, b, c, d])).toList
  | point ds => (CodePoint.ofNat? (HexDigit.numberFrom 0 ds)).toList
  | continuation _ => []

/-- Whether a piece may stand in a literal. A carriage return in a template is not counted, for it
stands for a line feed. -/
def isValid (d : Delimiter) : Piece → Bool
  | raw c => c != d.mark && c != '\\' && c != '\r' && (d == .accent || c != '\n')
  | single c => !("xu123456789\n\r".toList.contains c || isLineEnd c)
  | point ds => !ds.isEmpty && HexDigit.numberFrom 0 ds < 0x110000
  | _ => true

/-- Whether two pieces side by side are no spelling: an escaped zero with a digit behind it, and in a
template the beginning of a substitution. -/
def clashes (d : Delimiter) : Piece → Piece → Bool
  | single z, raw c => z == '0' && c.isDigit
  | raw s, raw c => d == .accent && s == '$' && c == '\x7b'
  | _, _ => false

end Piece

/-- Whether pieces are a spelling in a kind of literal. -/
structure Spells (d : Delimiter) (ps : List Piece) : Prop where
  valid : ∀ p ∈ ps, p.isValid d = true
  apart : ps.IsChain fun p q => p.clashes d q = false

/-- Whether two code points are the halves of one. -/
def CodePoint.pairs : CodePoint → CodePoint → Bool
  | surrogate i, surrogate j => i.val < 1024 && 1024 ≤ j.val
  | _, _ => false

/-- A text with halves of a code point side by side put together. -/
def joined : Text → Text
  | .surrogate i :: .surrogate j :: t =>
    if i.val < 1024 ∧ 1024 ≤ j.val then
      .scalar (Char.ofNat (0x10000 + i * 1024 + (j - 1024))) :: joined t
    else .surrogate i :: joined (.surrogate j :: t)
  | p :: t => p :: joined t
  | [] => []

/-- The string that pieces spell. -/
def spelled (ps : List Piece) : Text := joined (ps.flatMap Piece.points)

/-- Where no halves stand side by side there is nothing to put together. -/
theorem joined_of_apart {t : Text} (h : t.IsChain fun p q => p.pairs q = false) : joined t = t := by
  fun_induction joined t with
  | case1 i j t hpair ih =>
    have hfalse := (List.isChain_cons_cons.1 h).1
    simp [CodePoint.pairs, hpair] at hfalse
  | case2 i j t hpair ih => rw [ih (List.isChain_cons_cons.1 h).2]
  | case3 p t hnot ih => rw [ih h.tail]
  | case4 => rfl

/-! ## Pieces are decoded -/

namespace Piece

theorem numberedText_of_lt {n : Nat} (hn : n < 0x110000) (instead : List Char) :
    numberedText n instead = .ok (CodePoint.ofNat? n).toList := by
  unfold numberedText CodePoint.ofNat?
  split
  · rename_i h
    rw [h]
    rfl
  · rename_i h
    split at h
    · cases h
    split at h
    · cases h
    · rename_i hvalid hsurrogate
      unfold Nat.isValidChar at hvalid
      omega

theorem numberFrom_lt (ds : List HexDigit) (n : Nat) :
    HexDigit.numberFrom n ds < (n + 1) * 16 ^ ds.length := by
  induction ds generalizing n with
  | nil => simp [HexDigit.numberFrom]
  | cons d ds ih =>
    have hd := d.value.isLt
    calc HexDigit.numberFrom n (d :: ds) = HexDigit.numberFrom (n * 16 + d.value) ds := rfl
      _ < (n * 16 + d.value + 1) * 16 ^ ds.length := ih _
      _ ≤ ((n + 1) * 16) * 16 ^ ds.length := Nat.mul_le_mul_right _ (by omega)
      _ = (n + 1) * 16 ^ (d :: ds).length := by rw [List.length_cons, Nat.pow_succ', Nat.mul_assoc]

theorem decodeEscape_number {c : Char} (hc : c = 'u' ∨ c = 'x') {digits : List Char} (hd : digits ≠ [])
    {ds : List HexDigit} (hds : ds ≠ []) (hwrite : withoutBraces digits = ds.map HexDigit.write)
    (hlt : HexDigit.numberFrom 0 ds < 0x110000) :
    decodeEscape (c :: digits) = .ok (CodePoint.ofNat? (HexDigit.numberFrom 0 ds)).toList := by
  obtain ⟨e, digits, rfl⟩ := List.exists_cons_of_ne_nil hd
  simp only [decodeEscape, hc, if_true, hwrite, HexDigit.hexNumber?_write hds]
  exact numberedText_of_lt hlt _

theorem simpleEscape?_cases (c : Char) :
    simpleEscape? c = some (escapedChar c) ∨ simpleEscape? c = none ∧ escapedChar c = c := by
  unfold simpleEscape?
  split
  case h_8 =>
    refine .inr ⟨rfl, ?_⟩
    unfold escapedChar
    split <;> simp_all
  all_goals exact .inl rfl

theorem decodeEscape_single {c : Char} (hc : c ≠ '\n') :
    decodeEscape [c] = .ok [.scalar (escapedChar c)] := by
  rcases simpleEscape?_cases c with h | ⟨h, hself⟩
  · simp only [decodeEscape, h]
  · simp only [decodeEscape, h, hc, if_false, hself]

/-- An escape is decoded to what it stands for. -/
theorem decodeEscape_body {d : Delimiter} {p : Piece} (hp : p.isEscape = true) (hv : p.isValid d = true)
    (hline : ∀ e, p = continuation e → e = .lineFeed) : decodeEscape p.body = .ok p.points := by
  cases p with
  | raw c => cases hp
  | single c =>
    refine decodeEscape_single ?_
    rintro rfl
    cases hv
  | byte a b =>
    exact decodeEscape_number (.inr rfl) (by simp) (by simp) (HexDigit.withoutBraces_write [a, b])
      (Nat.lt_of_lt_of_le (numberFrom_lt [a, b] 0) (by simp))
  | unit a b c d =>
    exact decodeEscape_number (.inl rfl) (by simp) (by simp) (HexDigit.withoutBraces_write [a, b, c, d])
      (Nat.lt_of_lt_of_le (numberFrom_lt [a, b, c, d] 0) (by simp))
  | point ds =>
    simp only [isValid, Bool.and_eq_true, Bool.not_eq_true', List.isEmpty_eq_false_iff,
      decide_eq_true_eq] at hv
    exact decodeEscape_number (.inl rfl) (by simp) hv.1 (HexDigit.withoutBraces_braced ds) hv.2
  | continuation e =>
    rw [hline e rfl]
    rfl

end Piece
end SurfaceCoverage
