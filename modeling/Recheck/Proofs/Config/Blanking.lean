import Recheck.Config.Tolerant
import Mathlib.Data.List.Forall2

/-!
# What is blanked, in bytes

A text is a sequence of bytes to everyone who has a position in it. `Tolerant.strip` works on characters; `stripBytes` is
the same scan of the bytes, which knows nothing of characters. The two agree (`bytes_strip`), so a scan of the bytes never
leaves half of a character behind. Byte by byte it is clear what happens to a position: its byte stays, or it was no line
feed and is a blank now (`blanked_stripBytes`).
-/

set_option autoImplicit false

namespace Recheck.Tolerant

/-! ## Scanning bytes -/

/-- What becomes of a byte of a comment. -/
def blankByte (b : UInt8) : UInt8 := if b = 10 then b else 32

/-- `blankComments` on bytes. -/
def blankCommentBytes : Place → List UInt8 → List UInt8
  | _, [] => []
  | .code, 47 :: 47 :: rest => 32 :: 32 :: blankCommentBytes .lineComment rest
  | .code, 47 :: 42 :: rest => 32 :: 32 :: blankCommentBytes .blockComment rest
  | .code, b :: rest => b :: blankCommentBytes (if b = 34 then .string else .code) rest
  | .string, b :: rest => b :: blankCommentBytes (if b = 92 then .escape else if b = 34 then .code else .string) rest
  | .escape, b :: rest => b :: blankCommentBytes .string rest
  | .lineComment, b :: rest => blankByte b :: blankCommentBytes (if b = 10 then .code else .lineComment) rest
  | .blockComment, 42 :: 47 :: rest => 32 :: 32 :: blankCommentBytes .code rest
  | .blockComment, b :: rest => blankByte b :: blankCommentBytes .blockComment rest

/-- `isGap` on bytes. -/
def isGapByte (b : UInt8) : Bool := b = 32 || b = 9 || b = 10 || b = 12 || b = 13

/-- `closesNext` on bytes. -/
def closesNextByte (bs : List UInt8) : Bool :=
  match bs.dropWhile isGapByte with
  | b :: _ => b = 125 || b = 93
  | [] => false

/-- `blankCommas` on bytes. -/
def blankCommaBytes : Place → List UInt8 → List UInt8
  | _, [] => []
  | .string, b :: rest => b :: blankCommaBytes (if b = 92 then .escape else if b = 34 then .code else .string) rest
  | .escape, b :: rest => b :: blankCommaBytes .string rest
  | _, b :: rest =>
    (if b = 44 && closesNextByte rest then 32 else b) :: blankCommaBytes (if b = 34 then .string else .code) rest

/-- `strip` on bytes. -/
def stripBytes (bs : List UInt8) : List UInt8 := blankCommaBytes .code (blankCommentBytes .code bs)

/-! ## Every position keeps its byte or is blanked -/

/-- A byte, and what stands in its place: itself, or a blank if it is no line feed. -/
def Blanked (b b' : UInt8) : Prop := b' = b ∨ b ≠ 10 ∧ b' = 32

theorem blanked_self (b : UInt8) : Blanked b b := .inl rfl

theorem blanked_blankByte (b : UInt8) : Blanked b (blankByte b) := by
  unfold blankByte
  split
  · exact .inl rfl
  · exact .inr ⟨‹_›, rfl⟩

theorem Blanked.trans {a b c : UInt8} (hab : Blanked a b) (hbc : Blanked b c) : Blanked a c := by
  rcases hab with rfl | ⟨ha, rfl⟩
  · exact hbc
  · rcases hbc with rfl | ⟨-, rfl⟩ <;> exact .inr ⟨ha, rfl⟩

/-- A line feed stands behind exactly if one stood there. -/
theorem Blanked.eq_lineFeed_iff {b b' : UInt8} (h : Blanked b b') : b' = 10 ↔ b = 10 := by
  rcases h with rfl | ⟨hb, rfl⟩
  · exact Iff.rfl
  · exact ⟨fun h => absurd h (by decide), fun h => absurd h hb⟩

theorem lineFeed_iff_of_blanked {bs bs' : List UInt8} (h : List.Forall₂ Blanked bs bs') (i : Nat) :
    bs'[i]? = some 10 ↔ bs[i]? = some 10 := by
  induction h generalizing i with
  | nil => exact Iff.rfl
  | cons hb _ ih =>
    cases i with
    | zero => simpa using hb.eq_lineFeed_iff
    | succ i => simpa using ih i

theorem blanked_blankCommentBytes (place : Place) (bs : List UInt8) :
    List.Forall₂ Blanked bs (blankCommentBytes place bs) := by
  have hblank {b : UInt8} (hb : b ≠ 10) : Blanked b 32 := .inr ⟨hb, rfl⟩
  fun_induction blankCommentBytes place bs with
  | case1 => exact .nil
  | case2 rest ih | case3 rest ih | case8 rest ih => exact .cons (hblank (by decide)) (.cons (hblank (by decide)) ih)
  | case4 b rest _ _ ih | case5 b rest ih | case6 b rest ih => exact .cons (blanked_self b) ih
  | case7 b rest ih | case9 b rest _ ih => exact .cons (blanked_blankByte b) ih

theorem blanked_blankCommaBytes (place : Place) (bs : List UInt8) :
    List.Forall₂ Blanked bs (blankCommaBytes place bs) := by
  fun_induction blankCommaBytes place bs with
  | case1 => exact .nil
  | case2 b rest ih | case3 b rest ih => exact .cons (blanked_self b) ih
  | case4 place b rest _ _ ih =>
    refine .cons ?_ ih
    split
    · rename_i hcomma
      simp only [Bool.and_eq_true, decide_eq_true_eq] at hcomma
      exact .inr ⟨hcomma.1 ▸ by decide, rfl⟩
    · exact blanked_self b

theorem blanked_stripBytes (bs : List UInt8) : List.Forall₂ Blanked bs (stripBytes bs) := by
  have hcomments := List.forall₂_iff_get.mp (blanked_blankCommentBytes .code bs)
  have hcommas := List.forall₂_iff_get.mp (blanked_blankCommaBytes .code (blankCommentBytes .code bs))
  refine List.forall₂_iff_get.mpr ⟨hcomments.1.trans hcommas.1, fun i h h' => ?_⟩
  exact (hcomments.2 i h (hcomments.1 ▸ h)).trans (hcommas.2 i (hcomments.1 ▸ h) h')

/-! ## Characters and their bytes -/

def bytes (cs : List Char) : List UInt8 := cs.flatMap String.utf8EncodeChar

theorem bytes_toList (text : String) : bytes text.toList = text.toByteArray.data.toList := by
  conv_rhs => rw [← String.ofList_toList (s := text), String.toByteArray_ofList]
  simp [List.utf8Encode, bytes]

/-- The byte of a character that has only one. -/
def byte (c : Char) : UInt8 := UInt8.ofNat c.toNat

theorem byte_inj {c d : Char} (hc : c.toNat < 128) (hd : d.toNat < 128) : byte c = byte d ↔ c = d := by
  refine ⟨fun h => ?_, congrArg byte⟩
  have hnat := congrArg UInt8.toNat h
  rw [byte, byte, UInt8.toNat_ofNat', UInt8.toNat_ofNat', Nat.mod_eq_of_lt (by omega), Nat.mod_eq_of_lt (by omega)] at hnat
  rw [← Char.ofNat_toNat c, hnat, Char.ofNat_toNat]

/-- A character is one byte, or several that are not the byte of any character. -/
theorem utf8EncodeChar_cases (c : Char) :
    (c.toNat < 128 ∧ String.utf8EncodeChar c = [byte c]) ∨
      (128 ≤ c.toNat ∧ ∃ b bs, String.utf8EncodeChar c = b :: bs ∧ ∀ d ∈ b :: bs, 128 ≤ d.toNat) := by
  have hval : c.val.toNat = c.toNat := rfl
  unfold String.utf8EncodeChar
  simp only [hval]
  split
  · exact .inl ⟨by omega, rfl⟩
  · refine .inr ⟨by omega, ?_⟩
    split
    · exact ⟨_, _, rfl, by simp [UInt8.toNat_ofNat']; omega⟩
    split
    · exact ⟨_, _, rfl, by simp [UInt8.toNat_ofNat']; omega⟩
    · exact ⟨_, _, rfl, by simp [UInt8.toNat_ofNat']; omega⟩

/-! ## The two scans agree -/

theorem bytes_cons (c : Char) (cs : List Char) : bytes (c :: cs) = String.utf8EncodeChar c ++ bytes cs := rfl

theorem bytes_append (as bs : List Char) : bytes (as ++ bs) = bytes as ++ bytes bs := List.flatMap_append

/-- Where the byte of a character stands, the character stands. -/
theorem eq_cons_of_bytes {cs : List Char} {d : Char} {bs : List UInt8} (hd : d.toNat < 128)
    (h : bytes cs = byte d :: bs) : ∃ rest, cs = d :: rest := by
  cases cs with
  | nil => exact nomatch h
  | cons c cs =>
    have hsmall : (byte d).toNat < 128 := by
      rw [byte, UInt8.toNat_ofNat', Nat.mod_eq_of_lt (by omega)]
      exact hd
    rw [bytes_cons] at h
    rcases utf8EncodeChar_cases c with ⟨hc, henc⟩ | ⟨-, b, more, henc, hhigh⟩
    · rw [henc] at h
      exact ⟨cs, by rw [(byte_inj hc hd).mp (List.cons.inj h).1]⟩
    · rw [henc] at h
      have := hhigh b List.mem_cons_self
      rw [(List.cons.inj h).1] at this
      omega

/-- Where the scan is behind a character that is no mark. -/
def Place.behind : Place → Place
  | .escape => .string
  | place => place

/-- What the scan makes of a byte that is no mark. -/
def Place.shown : Place → UInt8 → UInt8
  | .lineComment | .blockComment => blankByte
  | _ => id

theorem Place.shown_code : Place.code.shown = id := rfl

theorem Place.shown_string : Place.string.shown = id := rfl

theorem Place.shown_escape : Place.escape.shown = id := rfl

theorem Place.shown_behind (place : Place) : place.behind.shown = place.shown := by
  cases place <;> rfl

theorem Place.behind_behind (place : Place) : place.behind.behind = place.behind := by
  cases place <;> rfl

theorem ne_of_high {b m : UInt8} (hb : 128 ≤ b.toNat) (hm : m.toNat < 128) : b ≠ m := by
  rintro rfl
  omega

theorem blankCommentBytes_high {b : UInt8} (hb : 128 ≤ b.toNat) (place : Place) (rest : List UInt8) :
    blankCommentBytes place (b :: rest) = place.shown b :: blankCommentBytes place.behind rest := by
  have hne {m : UInt8} (hm : m.toNat < 128) : b ≠ m := ne_of_high hb hm
  cases place with
  | code =>
    rw [blankCommentBytes, if_neg (hne (by decide))]
    · rfl
    · exact fun _ h => absurd h (hne (by decide))
    · exact fun _ h => absurd h (hne (by decide))
  | string =>
    rw [blankCommentBytes, if_neg (hne (by decide)), if_neg (hne (by decide))]
    rfl
  | escape => rw [blankCommentBytes]; rfl
  | lineComment =>
    rw [blankCommentBytes, if_neg (hne (by decide))]
    rfl
  | blockComment =>
    rw [blankCommentBytes]
    · rfl
    · exact fun _ h => absurd h (hne (by decide))

theorem blankCommaBytes_high {b : UInt8} (hb : 128 ≤ b.toNat) {place : Place} (hplace : place.shown = id)
    (rest : List UInt8) : blankCommaBytes place (b :: rest) = b :: blankCommaBytes place.behind rest := by
  have hne {m : UInt8} (hm : m.toNat < 128) : b ≠ m := ne_of_high hb hm
  cases place with
  | code => simp [blankCommaBytes, hne, Place.behind]
  | string => simp [blankCommaBytes, hne, Place.behind]
  | escape => rfl
  | lineComment => exact absurd (congrFun hplace 0) (by decide)
  | blockComment => exact absurd (congrFun hplace 0) (by decide)

/-- A character of several bytes is no mark in any of them. -/
theorem blankCommentBytes_append {b : UInt8} {bs : List UInt8} (h : ∀ d ∈ b :: bs, 128 ≤ d.toNat) (place : Place)
    (rest : List UInt8) : blankCommentBytes place (b :: bs ++ rest) =
      (b :: bs).map place.shown ++ blankCommentBytes place.behind rest := by
  induction bs generalizing b place with
  | nil => exact blankCommentBytes_high (h b List.mem_cons_self) place rest
  | cons d bs ih =>
    rw [List.forall_mem_cons] at h
    rw [List.cons_append, blankCommentBytes_high h.1, ih h.2, Place.shown_behind, Place.behind_behind]
    rfl

theorem blankCommaBytes_append {b : UInt8} {bs : List UInt8} (h : ∀ d ∈ b :: bs, 128 ≤ d.toNat) {place : Place}
    (hplace : place.shown = id) (rest : List UInt8) :
    blankCommaBytes place (b :: bs ++ rest) = b :: bs ++ blankCommaBytes place.behind rest := by
  induction bs generalizing b place with
  | nil => exact blankCommaBytes_high (h b List.mem_cons_self) hplace rest
  | cons d bs ih =>
    rw [List.forall_mem_cons] at h
    rw [List.cons_append, blankCommaBytes_high h.1 hplace, ih h.2 (place.shown_behind.trans hplace), Place.behind_behind]
    rfl

theorem ne_of_wide {c m : Char} (hc : 128 ≤ c.toNat) (hm : m.toNat < 128) : c ≠ m := by
  rintro rfl
  omega

theorem bytes_blank (c : Char) : bytes (blank c) = (String.utf8EncodeChar c).map blankByte := by
  unfold blank
  split
  · subst c
    rfl
  · rename_i hfeed
    have hblank : ∀ b ∈ String.utf8EncodeChar c, blankByte b = 32 := by
      intro b hb
      rw [blankByte, if_neg]
      rcases utf8EncodeChar_cases c with ⟨hc, henc⟩ | ⟨-, _, _, henc, hhigh⟩
      · rw [henc, List.mem_singleton] at hb
        exact hb ▸ fun h => hfeed ((byte_inj (d := '\n') hc (by decide)).mp h)
      · exact ne_of_high (hhigh b (henc ▸ hb)) (by decide)
    have hall : (String.utf8EncodeChar c).map blankByte = List.replicate c.utf8Size 32 := by
      refine List.eq_replicate_iff.mpr ⟨by rw [List.length_map, String.length_utf8EncodeChar], fun b hb => ?_⟩
      obtain ⟨d, hd, rfl⟩ := List.mem_map.mp hb
      exact hblank d hd
    rw [hall, bytes, List.flatMap_replicate]
    exact List.flatten_replicate_singleton

theorem bytes_blankComments (place : Place) (cs : List Char) :
    bytes (blankComments place cs) = blankCommentBytes place (bytes cs) := by
  fun_induction blankComments place cs with
  | case1 => cases ‹Place› <;> rfl
  | case2 rest ih | case3 rest ih | case8 rest ih =>
    rw [bytes_cons, bytes_cons, ih]
    rfl
  | case4 c rest hline hblock ih =>
    rw [bytes_cons, bytes_cons, ih]
    rcases utf8EncodeChar_cases c with ⟨hc, henc⟩ | ⟨hc, b, bs, henc, hhigh⟩
    · have hquote : byte c = 34 ↔ c = '"' := byte_inj (d := '"') hc (by decide)
      have hslash : byte c = 47 ↔ c = '/' := byte_inj (d := '/') hc (by decide)
      rw [henc, List.singleton_append, List.singleton_append, blankCommentBytes]
      · simp only [hquote]
      · intro tail h h'
        obtain ⟨more, hmore⟩ := eq_cons_of_bytes (d := '/') (by decide) h'
        exact hline more (hslash.mp h) hmore
      · intro tail h h'
        obtain ⟨more, hmore⟩ := eq_cons_of_bytes (d := '*') (by decide) h'
        exact hblock more (hslash.mp h) hmore
    · rw [henc, blankCommentBytes_append hhigh, if_neg (ne_of_wide hc (by decide)), Place.shown_code, List.map_id]
      rfl
  | case5 c rest ih =>
    rw [bytes_cons, bytes_cons, ih]
    rcases utf8EncodeChar_cases c with ⟨hc, henc⟩ | ⟨hc, b, bs, henc, hhigh⟩
    · have hquote : byte c = 34 ↔ c = '"' := byte_inj (d := '"') hc (by decide)
      have hbackslash : byte c = 92 ↔ c = '\\' := byte_inj (d := '\\') hc (by decide)
      rw [henc, List.singleton_append, List.singleton_append, blankCommentBytes]
      simp only [hquote, hbackslash]
    · rw [henc, blankCommentBytes_append hhigh, if_neg (ne_of_wide hc (by decide)), if_neg (ne_of_wide hc (by decide)),
        Place.shown_string, List.map_id]
      rfl
  | case6 c rest ih =>
    rw [bytes_cons, bytes_cons, ih]
    rcases utf8EncodeChar_cases c with ⟨-, henc⟩ | ⟨-, b, bs, henc, hhigh⟩
    · rw [henc, List.singleton_append, List.singleton_append, blankCommentBytes]
    · rw [henc, blankCommentBytes_append hhigh, Place.shown_escape, List.map_id]
      rfl
  | case7 c rest ih =>
    rw [bytes_append, bytes_cons, bytes_blank, ih]
    rcases utf8EncodeChar_cases c with ⟨hc, henc⟩ | ⟨hc, b, bs, henc, hhigh⟩
    · have hfeed : byte c = 10 ↔ c = '\n' := byte_inj (d := '\n') hc (by decide)
      rw [henc, List.singleton_append, blankCommentBytes]
      simp only [hfeed]
      rfl
    · rw [henc, blankCommentBytes_append hhigh, if_neg (ne_of_wide hc (by decide))]
      rfl
  | case9 c rest hclose ih =>
    rw [bytes_append, bytes_cons, bytes_blank, ih]
    rcases utf8EncodeChar_cases c with ⟨hc, henc⟩ | ⟨hc, b, bs, henc, hhigh⟩
    · have hstar : byte c = 42 ↔ c = '*' := byte_inj (d := '*') hc (by decide)
      rw [henc, List.singleton_append, blankCommentBytes]
      · rfl
      · intro tail h h'
        obtain ⟨more, hmore⟩ := eq_cons_of_bytes (d := '/') (by decide) h'
        exact hclose more (hstar.mp h) hmore
    · rw [henc, blankCommentBytes_append hhigh]
      rfl

theorem isGapByte_byte {c : Char} (hc : c.toNat < 128) : isGapByte (byte c) = isGap c := by
  have hfeed : byte c = 12 ↔ c.toNat = 12 := by
    refine (byte_inj (d := Char.ofNat 12) hc (by decide)).trans ⟨fun h => h ▸ rfl, fun h => ?_⟩
    rw [← Char.ofNat_toNat c, h]
  have hspace : byte c = 32 ↔ c = ' ' := byte_inj (d := ' ') hc (by decide)
  have htab : byte c = 9 ↔ c = '\t' := byte_inj (d := '\t') hc (by decide)
  have hline : byte c = 10 ↔ c = '\n' := byte_inj (d := '\n') hc (by decide)
  have hreturn : byte c = 13 ↔ c = '\r' := byte_inj (d := '\r') hc (by decide)
  simp only [isGapByte, isGap, hspace, htab, hline, hfeed, hreturn]

theorem closesNext_cons (c : Char) (cs : List Char) :
    closesNext (c :: cs) = if isGap c then closesNext cs else decide (c = '\x7d') || decide (c = ']') := by
  unfold closesNext
  rw [List.dropWhile_cons]
  cases isGap c <;> rfl

theorem closesNextByte_cons (b : UInt8) (bs : List UInt8) :
    closesNextByte (b :: bs) = if isGapByte b then closesNextByte bs else decide (b = 125) || decide (b = 93) := by
  unfold closesNextByte
  rw [List.dropWhile_cons]
  cases isGapByte b <;> rfl

theorem closesNextByte_bytes (cs : List Char) : closesNextByte (bytes cs) = closesNext cs := by
  induction cs with
  | nil => rfl
  | cons c cs ih =>
    rw [bytes_cons, closesNext_cons]
    rcases utf8EncodeChar_cases c with ⟨hc, henc⟩ | ⟨hc, b, bs, henc, hhigh⟩
    · have hbrace : byte c = 125 ↔ c = '\x7d' := byte_inj (d := '\x7d') hc (by decide)
      have hbracket : byte c = 93 ↔ c = ']' := byte_inj (d := ']') hc (by decide)
      rw [henc, List.singleton_append, closesNextByte_cons, isGapByte_byte hc, ih]
      simp only [hbrace, hbracket]
    · have hb {m : UInt8} (hm : m.toNat < 128) : b ≠ m := ne_of_high (hhigh b List.mem_cons_self) hm
      have hc' {m : Char} (hm : m.toNat < 128) : c ≠ m := ne_of_wide hc hm
      have hfeed : c.toNat ≠ 12 := by omega
      rw [henc, List.cons_append, closesNextByte_cons]
      simp [isGapByte, isGap, hb, hc', hfeed]

theorem bytes_blankCommas {place : Place} (hplace : place.shown = id) (cs : List Char) :
    bytes (blankCommas place cs) = blankCommaBytes place (bytes cs) := by
  fun_induction blankCommas place cs with
  | case1 => cases ‹Place› <;> rfl
  | case2 c rest ih =>
    rw [bytes_cons, bytes_cons, ih (by split <;> [rfl; split <;> rfl])]
    rcases utf8EncodeChar_cases c with ⟨hc, henc⟩ | ⟨hc, b, bs, henc, hhigh⟩
    · have hquote : byte c = 34 ↔ c = '"' := byte_inj (d := '"') hc (by decide)
      have hbackslash : byte c = 92 ↔ c = '\\' := byte_inj (d := '\\') hc (by decide)
      rw [henc, List.singleton_append, List.singleton_append, blankCommaBytes]
      simp only [hquote, hbackslash]
    · rw [henc, blankCommaBytes_append hhigh rfl, if_neg (ne_of_wide hc (by decide)),
        if_neg (ne_of_wide hc (by decide))]
      rfl
  | case3 c rest ih =>
    rw [bytes_cons, bytes_cons, ih rfl]
    rcases utf8EncodeChar_cases c with ⟨-, henc⟩ | ⟨-, b, bs, henc, hhigh⟩
    · rw [henc, List.singleton_append, List.singleton_append, blankCommaBytes]
    · rw [henc, blankCommaBytes_append hhigh rfl]
      rfl
  | case4 place c rest hstring hescape ih =>
    rw [bytes_cons, bytes_cons, ih (by split <;> rfl)]
    rcases utf8EncodeChar_cases c with ⟨hc, henc⟩ | ⟨hc, b, bs, henc, hhigh⟩
    · have hquote : byte c = 34 ↔ c = '"' := byte_inj (d := '"') hc (by decide)
      have hcomma : byte c = 44 ↔ c = ',' := byte_inj (d := ',') hc (by decide)
      rw [henc, List.singleton_append, blankCommaBytes]
      · simp only [hquote, hcomma, closesNextByte_bytes]
        split
        · rfl
        · rw [henc]
          rfl
      · exact hstring
      · exact hescape
    · have hcode : place = .code := by
        cases place with
        | code => rfl
        | string => exact absurd rfl hstring
        | escape => exact absurd rfl hescape
        | lineComment | blockComment => exact absurd (congrFun hplace 0) (by decide)
      have hcomma : decide (c = ',') = false := decide_eq_false (ne_of_wide hc (by decide))
      subst hcode
      rw [henc, blankCommaBytes_append hhigh rfl, if_neg (ne_of_wide hc (by decide)), hcomma, Bool.false_and,
        if_neg Bool.false_ne_true, henc]
      rfl

/-- **The scan of the bytes makes the bytes of a text**, the same text as the scan of the characters. -/
theorem bytes_strip (text : String) :
    stripBytes text.toByteArray.data.toList = (strip text).toByteArray.data.toList := by
  rw [← bytes_toList, ← bytes_toList, strip, String.toList_ofList, bytes_blankCommas rfl, bytes_blankComments, stripBytes]

theorem fromUTF8?_stripBytes (text : String) :
    String.fromUTF8? (stripBytes text.toByteArray.data.toList).toByteArray = some (strip text) := by
  have hbytes : (stripBytes text.toByteArray.data.toList).toByteArray = (strip text).toByteArray := by
    rw [bytes_strip]
    exact ByteArray.ext (by rw [List.data_toByteArray])
  rw [hbytes]
  exact dif_pos (strip text).isValidUTF8

theorem blanked_strip (text : String) :
    List.Forall₂ Blanked text.toByteArray.data.toList (strip text).toByteArray.data.toList :=
  bytes_strip text ▸ blanked_stripBytes _

end Recheck.Tolerant
