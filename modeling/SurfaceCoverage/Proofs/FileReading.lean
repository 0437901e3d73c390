import SurfaceCoverage.Proofs.Places
/-!
# What reading a file gives

`Spells` is the table of well-formed UTF-8, row by row, and it is the encoding of characters read
backwards: hence decoding inverts encoding. `LineFeeds` says which line ends become line feeds.
A file within the limit is read as its characters if it is UTF-8 and as its bytes if it is not.
-/

namespace SurfaceCoverage

namespace Encoding

/-! ## Characters -/

/-- The well-formed bytes of a character: for each number of them, the range of each one. -/
inductive Spells : List UInt8 → Char → Prop where
  | one {a : UInt8} (ha : a < 0x80) : Spells [a] (Char.ofNat a.toNat)
  | two {a b : UInt8} (ha : 0xc2 ≤ a ∧ a ≤ 0xdf) (hb : isTail 0x80 0xbf b) :
      Spells [a, b] (Char.ofNat ((a.toNat - 0xc0) * 64 + tailBits b))
  | three {a b c : UInt8} (ha : 0xe0 ≤ a ∧ a ≤ 0xef)
      (hb : isTail (if a = 0xe0 then 0xa0 else 0x80) (if a = 0xed then 0x9f else 0xbf) b)
      (hc : isTail 0x80 0xbf c) :
      Spells [a, b, c] (Char.ofNat (((a.toNat - 0xe0) * 64 + tailBits b) * 64 + tailBits c))
  | four {a b c d : UInt8} (ha : 0xf0 ≤ a ∧ a ≤ 0xf4)
      (hb : isTail (if a = 0xf0 then 0x90 else 0x80) (if a = 0xf4 then 0x8f else 0xbf) b)
      (hc : isTail 0x80 0xbf c) (hd : isTail 0x80 0xbf d) :
      Spells [a, b, c, d] (Char.ofNat ((((a.toNat - 0xf0) * 64 + tailBits b) * 64 + tailBits c) * 64
        + tailBits d))

theorem decodeChar?_of_spells {bs r : List UInt8} {c : Char} (h : Spells bs c) :
    decodeChar? (bs ++ r) = some (c, r) := by
  cases h with
  | one ha => simp [decodeChar?, ha]
  | @two a b ha hb =>
    have hone : ¬ a < 0x80 := by grind
    simp [decodeChar?, hone, ha, hb]
  | @three a b c ha hb hc =>
    have hone : ¬ a < 0x80 := by grind
    have htwo : ¬ (0xc2 ≤ a ∧ a ≤ 0xdf) := by grind
    simp only [decodeChar?, List.cons_append, if_neg hone, if_neg htwo, if_pos ha, hb, hc,
      Bool.and_self, if_true, List.nil_append]
  | @four a b c d ha hb hc hd =>
    have hone : ¬ a < 0x80 := by grind
    have htwo : ¬ (0xc2 ≤ a ∧ a ≤ 0xdf) := by grind
    have hthree : ¬ (0xe0 ≤ a ∧ a ≤ 0xef) := by grind
    simp only [decodeChar?, List.cons_append, if_neg hone, if_neg htwo, if_neg hthree, if_pos ha,
      hb, hc, hd, Bool.and_self, if_true, List.nil_append]

theorem spells_of_decodeChar? {bs r : List UInt8} {c : Char} (h : decodeChar? bs = some (c, r)) :
    ∃ head, Spells head c ∧ bs = head ++ r := by
  unfold decodeChar? at h
  split at h
  case h_2 => cases h
  rename_i a bs
  split at h
  · rename_i ha
    cases h
    exact ⟨_, .one ha, rfl⟩
  split at h
  case h_2 => cases h
  rename_i b bs
  split at h
  · rename_i ha
    obtain ⟨hb, h⟩ := Option.ite_none_right_eq_some.1 h
    cases h
    exact ⟨_, .two ha hb, rfl⟩
  split at h
  case h_2 => cases h
  rename_i c bs
  split at h
  · rename_i ha
    obtain ⟨hbc, h⟩ := Option.ite_none_right_eq_some.1 h
    rw [Bool.and_eq_true] at hbc
    cases h
    exact ⟨_, .three ha hbc.1 hbc.2, rfl⟩
  split at h
  case h_2 => cases h
  rename_i d bs
  obtain ⟨ha, h⟩ := Option.ite_none_right_eq_some.1 h
  obtain ⟨hbcd, h⟩ := Option.ite_none_right_eq_some.1 h
  rw [Bool.and_eq_true, Bool.and_eq_true] at hbcd
  cases h
  exact ⟨_, .four ha hbcd.1.1 hbcd.1.2 hbcd.2, rfl⟩

/-- Bounds on bytes as bounds on their numbers. -/
theorem isTail_iff {lo hi b : UInt8} :
    isTail lo hi b = true ↔ lo.toNat ≤ b.toNat ∧ b.toNat ≤ hi.toNat := by
  simp [isTail, UInt8.le_iff_toNat_le]

/-- One first byte narrows the range of the second from below, and another one from above. -/
theorem isTail_narrowed_iff {a x y lo hi b : UInt8} (hlo : 0x80 ≤ lo) (hhi : hi ≤ 0xbf) :
    isTail (if a = x then lo else 0x80) (if a = y then hi else 0xbf) b = true ↔
      (0x80 ≤ b.toNat ∧ b.toNat ≤ 0xbf) ∧ (a.toNat = x.toNat → lo.toNat ≤ b.toNat) ∧
        (a.toNat = y.toNat → b.toNat ≤ hi.toNat) := by
  simp only [UInt8.le_iff_toNat_le, UInt8.reduceToNat] at hlo hhi
  simp only [isTail_iff, apply_ite UInt8.toNat, UInt8.reduceToNat, ← UInt8.toNat_inj]
  split <;> split <;> omega

/-- The table spells a character as its encoding. -/
theorem spells_utf8EncodeChar (c : Char) : Spells (String.utf8EncodeChar c) c := by
  have hvalid : c.toNat < 0xd800 ∨ 0xdfff < c.toNat ∧ c.toNat < 0x110000 := c.valid
  have hself {bs : List UInt8} {n : Nat} (h : Spells bs (Char.ofNat n)) (hn : n = c.toNat) :
      Spells bs c := by rwa [hn, Char.ofNat_toNat] at h
  have hnumber : c.val.toNat = c.toNat := rfl
  simp only [String.utf8EncodeChar, hnumber]
  generalize c.toNat = v at hvalid hself
  split
  · refine hself (.one ?_) ?_
    all_goals simp only [UInt8.lt_iff_toNat_lt, UInt8.toNat_ofNat', UInt8.reduceToNat]
    all_goals omega
  split
  · refine hself (.two ?_ ?_) ?_
    all_goals simp only [UInt8.le_iff_toNat_le, isTail_iff, tailBits, UInt8.toNat_ofNat',
      UInt8.reduceToNat]
    all_goals omega
  split
  · refine hself (.three ?_ ((isTail_narrowed_iff (by decide) (by decide)).2 ?_) ?_) ?_
    all_goals simp only [UInt8.le_iff_toNat_le, isTail_iff, tailBits, UInt8.toNat_ofNat',
      UInt8.reduceToNat]
    all_goals omega
  · refine hself (.four ?_ ((isTail_narrowed_iff (by decide) (by decide)).2 ?_) ?_ ?_) ?_
    all_goals simp only [UInt8.le_iff_toNat_le, isTail_iff, tailBits, UInt8.toNat_ofNat',
      UInt8.reduceToNat]
    all_goals omega

/-- The encoding of the character with a number. -/
theorem utf8EncodeChar_ofNat {n : Nat} (h : n.isValidChar) : String.utf8EncodeChar (Char.ofNat n) =
    if n ≤ 0x7f then [UInt8.ofNat n]
    else if n ≤ 0x7ff then [UInt8.ofNat (n / 64 % 32 + 0xc0), UInt8.ofNat (n % 64 + 0x80)]
    else if n ≤ 0xffff then [UInt8.ofNat (n / 4096 % 16 + 0xe0), UInt8.ofNat (n / 64 % 64 + 0x80),
      UInt8.ofNat (n % 64 + 0x80)]
    else [UInt8.ofNat (n / 262144 % 8 + 0xf0), UInt8.ofNat (n / 4096 % 64 + 0x80),
      UInt8.ofNat (n / 64 % 64 + 0x80), UInt8.ofNat (n % 64 + 0x80)] := by
  have hnumber : (Char.ofNat n).val.toNat = n := by
    rw [Char.ofNat, dif_pos h]
    rfl
  simp only [String.utf8EncodeChar, hnumber]

theorem eq_utf8EncodeChar_of_spells {bs : List UInt8} {c : Char} (h : Spells bs c) :
    bs = String.utf8EncodeChar c := by
  cases h with
  | @one a ha =>
    simp only [UInt8.lt_iff_toNat_lt, UInt8.reduceToNat] at ha
    rw [utf8EncodeChar_ofNat (.inl (by omega)), if_pos (by omega), UInt8.ofNat_toNat]
  | @two a b ha hb =>
    simp only [UInt8.le_iff_toNat_le, isTail_iff, UInt8.reduceToNat] at ha hb
    unfold tailBits
    rw [utf8EncodeChar_ofNat (.inl (by omega)), if_neg (by omega), if_pos (by omega)]
    simp only [List.cons.injEq, and_true, ← UInt8.toNat_inj, UInt8.toNat_ofNat']
    omega
  | @three a b c ha hb hc =>
    rw [isTail_narrowed_iff (by decide) (by decide)] at hb
    simp only [UInt8.le_iff_toNat_le, isTail_iff, UInt8.reduceToNat] at ha hb hc
    unfold tailBits
    have hvalid : Nat.isValidChar (((a.toNat - 0xe0) * 64 + b.toNat % 64) * 64 + c.toNat % 64) := by
      unfold Nat.isValidChar
      omega
    rw [utf8EncodeChar_ofNat hvalid, if_neg (by omega), if_neg (by omega), if_pos (by omega)]
    simp only [List.cons.injEq, and_true, ← UInt8.toNat_inj, UInt8.toNat_ofNat']
    omega
  | @four a b c d ha hb hc hd =>
    rw [isTail_narrowed_iff (by decide) (by decide)] at hb
    simp only [UInt8.le_iff_toNat_le, isTail_iff, UInt8.reduceToNat] at ha hb hc hd
    unfold tailBits
    have hvalid : Nat.isValidChar ((((a.toNat - 0xf0) * 64 + b.toNat % 64) * 64 + c.toNat % 64) * 64
        + d.toNat % 64) := by
      unfold Nat.isValidChar
      omega
    rw [utf8EncodeChar_ofNat hvalid, if_neg (by omega), if_neg (by omega), if_neg (by omega)]
    simp only [List.cons.injEq, and_true, ← UInt8.toNat_inj, UInt8.toNat_ofNat']
    omega

theorem decodeChar?_eq_some_iff {bs r : List UInt8} {c : Char} :
    decodeChar? bs = some (c, r) ↔ bs = String.utf8EncodeChar c ++ r := by
  constructor
  · intro h
    obtain ⟨head, hhead, rfl⟩ := spells_of_decodeChar? h
    rw [eq_utf8EncodeChar_of_spells hhead]
  · rintro rfl
    exact decodeChar?_of_spells (spells_utf8EncodeChar c)

/-! ## Texts -/

/-- The encoding of characters. -/
def encode (cs : List Char) : List UInt8 := cs.flatMap String.utf8EncodeChar

theorem decodeUtf8_encode (done cs : List Char) :
    decodeUtf8 done (encode cs) = some (done.reverse ++ cs) := by
  induction cs generalizing done with
  | nil => simp [encode, decodeUtf8]
  | cons c cs ih =>
    have hhead : decodeChar? (encode (c :: cs)) = some (c, encode cs) :=
      decodeChar?_eq_some_iff.2 List.flatMap_cons
    unfold decodeUtf8
    split
    · rename_i hempty
      rw [List.isEmpty_iff.1 hempty] at hhead
      cases hhead
    · split
      · rename_i hsome
        cases hhead.symm.trans hsome
        rw [ih, List.reverse_cons, List.append_assoc, List.singleton_append]
      · rename_i hnone
        rw [hhead] at hnone
        cases hnone

theorem encode_of_decodeUtf8 {done cs : List Char} {bs : List UInt8} (h : decodeUtf8 done bs = some cs) :
    ∃ rest, cs = done.reverse ++ rest ∧ encode rest = bs := by
  fun_induction decodeUtf8 done bs with
  | case1 done bs hempty =>
    cases h
    exact ⟨[], (List.append_nil _).symm, (List.isEmpty_iff.1 hempty).symm⟩
  | case2 done bs _ c r hhead ih =>
    obtain ⟨rest, rfl, rfl⟩ := ih h
    refine ⟨c :: rest, by rw [List.reverse_cons, List.append_assoc, List.singleton_append], ?_⟩
    rw [decodeChar?_eq_some_iff.1 hhead, encode, List.flatMap_cons, encode]
  | case3 => cases h

/-- Bytes are decoded to the characters that they encode. -/
theorem decodeUtf8_eq_some_iff {bs : List UInt8} {cs : List Char} :
    decodeUtf8 [] bs = some cs ↔ encode cs = bs := by
  constructor
  · intro h
    obtain ⟨rest, rfl, hrest⟩ := encode_of_decodeUtf8 h
    exact hrest
  · rintro rfl
    exact decodeUtf8_encode [] cs

/-! ## Lines -/

/-- Line ends as line feeds: one for both kinds together, and one for a carriage return alone. -/
inductive LineFeeds : List Char → List Char → Prop where
  | nil : LineFeeds [] []
  | pair {cs text : List Char} (rest : LineFeeds cs text) :
      LineFeeds ('\r' :: '\n' :: cs) ('\n' :: text)
  | lone {cs text : List Char} (alone : cs.head? ≠ some '\n') (rest : LineFeeds cs text) :
      LineFeeds ('\r' :: cs) ('\n' :: text)
  | kept {c : Char} {cs text : List Char} (ne : c ≠ '\r') (rest : LineFeeds cs text) :
      LineFeeds (c :: cs) (c :: text)

/-- Every text has its line ends as line feeds. -/
theorem exists_joinLines (done cs : List Char) :
    ∃ text, LineFeeds cs text ∧ joinLines done cs = done.reverse ++ text := by
  fun_induction joinLines done cs with
  | case1 done => exact ⟨[], .nil, (List.append_nil _).symm⟩
  | case2 done cs ih =>
    obtain ⟨text, htext, heq⟩ := ih
    exact ⟨_, .pair htext, by simp [heq]⟩
  | case3 done cs hother ih =>
    obtain ⟨text, htext, heq⟩ := ih
    have halone : cs.head? ≠ some '\n' := by
      intro h
      obtain ⟨tail, htail⟩ := List.head?_eq_some_iff.1 h
      exact hother tail htail
    exact ⟨_, .lone halone htext, by simp [heq]⟩
  | case4 done c cs hpair hlone ih =>
    obtain ⟨text, htext, heq⟩ := ih
    exact ⟨_, .kept hlone htext, by simp [heq]⟩

theorem LineFeeds.unique {cs text text' : List Char} (h : LineFeeds cs text)
    (h' : LineFeeds cs text') : text = text' := by
  induction h generalizing text' with
  | nil =>
    cases h'
    rfl
  | pair _ ih =>
    cases h' with
    | pair rest => rw [ih rest]
    | lone alone => exact (alone rfl).elim
    | kept hc => exact (hc rfl).elim
  | lone alone _ ih =>
    cases h' with
    | pair => exact (alone rfl).elim
    | lone _ rest => rw [ih rest]
    | kept hc => exact (hc rfl).elim
  | kept hc _ ih =>
    cases h' with
    | pair | lone => exact (hc rfl).elim
    | kept _ rest => rw [ih rest]

theorem LineFeeds.not_mem {cs text : List Char} (h : LineFeeds cs text) : '\r' ∉ text := by
  induction h with
  | nil => exact List.not_mem_nil
  | pair _ ih | lone _ _ ih => simpa using ih
  | kept hc _ ih => simpa [hc.symm] using ih

theorem lineFeeds_self {cs : List Char} (h : '\r' ∉ cs) : LineFeeds cs cs := by
  induction cs with
  | nil => exact .nil
  | cons c cs ih => exact .kept (by rintro rfl; simp at h) (ih fun hmem => h (.tail c hmem))

theorem lineFeeds_joinLines (cs : List Char) : LineFeeds cs (joinLines [] cs) := by
  obtain ⟨text, hfeeds, heq⟩ := exists_joinLines [] cs
  rw [heq]
  exact hfeeds

theorem lineFeeds_decode {cs : List Char} {bytes : List UInt8} (h : encode cs = bytes) :
    LineFeeds cs (decode bytes) := by
  rw [decode, decodeUtf8_eq_some_iff.2 h]
  exact lineFeeds_joinLines cs

/-- Bytes that encode no characters are read one by one. -/
theorem lineFeeds_decode_of_ne {bytes : List UInt8} (h : ∀ cs, encode cs ≠ bytes) :
    LineFeeds (decodeLatin1 bytes) (decode bytes) := by
  have hnone : decodeUtf8 [] bytes = none :=
    Option.eq_none_iff_forall_ne_some.2 fun cs hcs => h cs (decodeUtf8_eq_some_iff.1 hcs)
  rw [decode, hnone]
  exact lineFeeds_joinLines _

theorem not_mem_decode (bytes : List UInt8) : '\r' ∉ decode bytes := (lineFeeds_joinLines _).not_mem

end Encoding

namespace Project

/-- A file of more bytes than the limit is not read. Any other file is read as a text without carriage
returns: its characters if its bytes encode some, and its bytes one by one if they encode none, with
line feeds for line ends. So reading gives back every text without carriage returns. -/
theorem read_of_file {project : Project} {path : String} {bytes : List UInt8}
    (h : project.fileAt? path = .ok (some bytes)) (limit : Int) :
    (limit < bytes.length → project.read limit path = none) ∧
    (bytes.length ≤ limit → ∃ text, project.read limit path = some text ∧ '\r' ∉ text ∧
      (∀ cs, Encoding.encode cs = bytes → Encoding.LineFeeds cs text) ∧
      ((∀ cs, Encoding.encode cs ≠ bytes) → Encoding.LineFeeds (Encoding.decodeLatin1 bytes) text) ∧
      ∀ cs, Encoding.encode cs = bytes → '\r' ∉ cs → text = cs) := by
  have hread : project.read limit path =
      if limit < bytes.length then none else some (Encoding.decode bytes) := by
    simp only [read, h]
  constructor
  · intro hlarge
    rw [hread, if_pos hlarge]
  · intro hfits
    refine ⟨Encoding.decode bytes, ?_, Encoding.not_mem_decode bytes,
      fun cs => Encoding.lineFeeds_decode, Encoding.lineFeeds_decode_of_ne, fun cs hcs hplain => ?_⟩
    · rw [hread, if_neg (Int.not_lt.2 hfits)]
    · exact (Encoding.lineFeeds_decode hcs).unique (Encoding.lineFeeds_self hplain)

/-- A file that is no UTF-8, with a limit that it keeps and one that it does not. -/
theorem read_of_file_latin1 :
    let project : Project := ⟨[], [(["a.js"], [0xe9, 0x0d, 0x0a])], []⟩
    project.fileAt? "/a.js" = .ok (some [0xe9, 0x0d, 0x0a]) ∧
    project.read 2 "/a.js" = none ∧ project.read 3 "/a.js" = some ['é', '\n'] := by
  intro project
  have hfile : project.fileAt? "/a.js" = .ok (some [0xe9, 0x0d, 0x0a]) := by
    unfold fileAt?
    rw [locate_eq _ (Path.ofString_eq _) (by decide)]
    rfl
  have hundecodable (cs : List Char) : Encoding.encode cs ≠ [0xe9, 0x0d, 0x0a] := by
    rw [Ne, ← Encoding.decodeUtf8_eq_some_iff, Encoding.decodeUtf8]
    exact nofun
  obtain ⟨hlarge, -⟩ := read_of_file hfile 2
  obtain ⟨-, hfits⟩ := read_of_file hfile 3
  obtain ⟨text, hread, -, -, hbytes, -⟩ := hfits (by decide)
  have hfeeds : Encoding.LineFeeds ['é', '\r', '\n'] ['é', '\n'] := .kept (by decide) (.pair .nil)
  rw [(hbytes hundecodable).unique hfeeds] at hread
  exact ⟨hfile, hlarge (by decide), hread⟩

end Project
end SurfaceCoverage
