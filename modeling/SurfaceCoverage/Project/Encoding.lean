/-!
# Encodings of files

A file's bytes are UTF-8 if they are well formed throughout, without overlong forms, surrogates or
numbers beyond the last code point; otherwise each byte is the character of its number. Line ends
of either foreign kind become line feeds.
-/

namespace SurfaceCoverage.Encoding

/-- A byte inside a character of several bytes, in a range that the byte before allows. -/
def isTail (lo hi b : UInt8) : Bool := lo ≤ b && b ≤ hi

/-- The six bits of an inner byte. -/
def tailBits (b : UInt8) : Nat := b.toNat % 64

/-- The first character of well-formed bytes, and the bytes behind it. -/
def decodeChar? : List UInt8 → Option (Char × List UInt8)
  | a :: r =>
    if a < 0x80 then some (Char.ofNat a.toNat, r)
    else
      match r with
      | b :: r =>
        if 0xc2 ≤ a ∧ a ≤ 0xdf then
          if isTail 0x80 0xbf b then some (Char.ofNat ((a.toNat - 0xc0) * 64 + tailBits b), r)
          else none
        else
          match r with
          | c :: r =>
            if 0xe0 ≤ a ∧ a ≤ 0xef then
              if isTail (if a = 0xe0 then 0xa0 else 0x80) (if a = 0xed then 0x9f else 0xbf) b
                  && isTail 0x80 0xbf c then
                some (Char.ofNat (((a.toNat - 0xe0) * 64 + tailBits b) * 64 + tailBits c), r)
              else none
            else
              match r with
              | d :: r =>
                if 0xf0 ≤ a ∧ a ≤ 0xf4 then
                  if isTail (if a = 0xf0 then 0x90 else 0x80) (if a = 0xf4 then 0x8f else 0xbf) b
                      && isTail 0x80 0xbf c && isTail 0x80 0xbf d then
                    some (Char.ofNat ((((a.toNat - 0xf0) * 64 + tailBits b) * 64 + tailBits c) * 64
                      + tailBits d), r)
                  else none
                else none
              | [] => none
          | [] => none
      | [] => none
  | [] => none

theorem length_of_decodeChar? {bs r : List UInt8} {c : Char} (h : decodeChar? bs = some (c, r)) :
    r.length < bs.length := by
  unfold decodeChar? at h
  repeat' split at h
  all_goals simp_all
  all_goals omega

/-- The characters of well-formed bytes, behind those in `done`, which are in reverse. -/
def decodeUtf8 (done : List Char) (bs : List UInt8) : Option (List Char) :=
  if bs.isEmpty then some done.reverse
  else
    match _h : decodeChar? bs with
    | some (c, r) => decodeUtf8 (c :: done) r
    | none => none
termination_by bs.length
decreasing_by exact length_of_decodeChar? _h

/-- Each byte as the character of its number. -/
def decodeLatin1 (bs : List UInt8) : List Char := bs.map fun b => Char.ofNat b.toNat

/-- Line ends as line feeds, behind the characters in `done`, which are in reverse. -/
def joinLines (done : List Char) : List Char → List Char
  | [] => done.reverse
  | '\r' :: '\n' :: cs => joinLines ('\n' :: done) cs
  | '\r' :: cs => joinLines ('\n' :: done) cs
  | c :: cs => joinLines (c :: done) cs

/-- The text of a file's bytes. -/
def decode (bs : List UInt8) : List Char :=
  joinLines [] ((decodeUtf8 [] bs).getD (decodeLatin1 bs))

end SurfaceCoverage.Encoding
