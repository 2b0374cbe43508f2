import Recheck.Proofs.Data.JsonText

/-!
# What is read is strict

The other direction of `parse_of_isStrict`: when the reader takes something off the front of a text, it was written as
the grammar says. So the grammar leaves out no text that has a value (`isStrict_of_parse`).
-/

set_option autoImplicit false

namespace Recheck.Json

/-! ## Strings -/

theorem isSome_of_mapM {hex : List Char} {digits : List Nat} (h : hex.mapM hexValue? = some digits) :
    ∀ d ∈ hex, (hexValue? d).isSome = true := by
  induction hex generalizing digits with
  | nil => exact fun _ hd => absurd hd List.not_mem_nil
  | cons d hex ih =>
    rw [List.mapM_cons] at h
    obtain ⟨v, hv, h⟩ := Option.bind_eq_some_iff.mp h
    obtain ⟨digits, hdigits, -⟩ := Option.bind_eq_some_iff.mp h
    exact List.forall_mem_cons.mpr ⟨Option.isSome_iff_exists.mpr ⟨v, hv⟩, ih hdigits⟩

theorem of_readHex {cs rest : List Char} {v : Nat} (h : readHex cs = .ok (v, rest)) :
    ∃ hex, cs = hex ++ rest ∧ hex.length = 4 ∧ ∀ d ∈ hex, (hexValue? d).isSome = true := by
  unfold readHex at h
  split at h
  · cases h
  · rename_i hlength
    split at h
    · rename_i digits hdigits
      have hhex := isSome_of_mapM hdigits
      rw [byteLength_of_hex hhex, List.length_take] at hlength
      cases h
      exact ⟨cs.take 4, (List.take_append_drop 4 cs).symm, by rw [List.length_take]; omega, hhex⟩
    · cases h

/-- The rest of an escape, which may take a second one. -/
def Escapes (escape : List Char) : Prop := ∀ body, StringBody body → StringBody ('\\' :: (escape ++ body))

theorem of_readLowHalf {high : Nat} {cs rest : List Char} {c : Char} (h : readLowHalf high cs = .ok (c, rest)) :
    ∃ low, cs = '\\' :: 'u' :: (low ++ rest) ∧ low.length = 4 ∧ ∀ d ∈ low, (hexValue? d).isSome = true := by
  unfold readLowHalf at h
  split at h
  · obtain ⟨⟨w, rest'⟩, hread, hok⟩ := exists_of_bind_eq_ok h
    obtain ⟨low, rfl, hlength, hlow⟩ := of_readHex hread
    dsimp only at hok
    split at hok
    · obtain ⟨-, rfl⟩ := Prod.mk.inj (Except.ok.inj hok)
      exact ⟨low, rfl, hlength, hlow⟩
    · cases hok
  · cases h
  · cases h

theorem of_readUnicode {cs rest : List Char} {c : Char} (h : readUnicode cs = .ok (c, rest)) :
    ∃ escape, cs = escape ++ rest ∧ Escapes ('u' :: escape) := by
  obtain ⟨⟨v, behind⟩, hread, hok⟩ := exists_of_bind_eq_ok h
  obtain ⟨hex, rfl, hlength, hhex⟩ := of_readHex hread
  dsimp only at hok
  split at hok
  · obtain ⟨low, rfl, hlowLength, hlow⟩ := of_readLowHalf hok
    refine ⟨hex ++ '\\' :: 'u' :: low, by simp, fun body hbody => ?_⟩
    have := StringBody.unicode hlength hhex (.unicode hlowLength hlow hbody)
    simpa using this
  · split at hok
    · cases hok
    · cases hok
      exact ⟨hex, rfl, fun body hbody => .unicode hlength hhex hbody⟩

theorem of_readEscape {cs rest : List Char} {c : Char} (h : readEscape cs = .ok (c, rest)) :
    ∃ escape, cs = escape ++ rest ∧ Escapes escape := by
  have hsimple {d : Char} (hd : d ∈ ['"', '\\', '/', 'b', 'f', 'n', 'r', 't']) : Escapes [d] :=
    fun body hbody => .escape hd hbody
  cases cs with
  | nil => cases h
  | cons d cs =>
    unfold readEscape at h
    dsimp only at h
    split at h
    · rename_i hd
      cases h
      refine ⟨[c], rfl, hsimple ?_⟩
      simp only [Bool.or_eq_true, decide_eq_true_eq] at hd
      rcases hd with (rfl | rfl) | rfl <;> decide
    split at h
    · cases h; subst d; exact ⟨_, rfl, hsimple (by decide)⟩
    split at h
    · cases h; subst d; exact ⟨_, rfl, hsimple (by decide)⟩
    split at h
    · cases h; subst d; exact ⟨_, rfl, hsimple (by decide)⟩
    split at h
    · cases h; subst d; exact ⟨_, rfl, hsimple (by decide)⟩
    split at h
    · cases h; subst d; exact ⟨_, rfl, hsimple (by decide)⟩
    split at h
    · subst d
      obtain ⟨escape, rfl, hescape⟩ := of_readUnicode h
      exact ⟨'u' :: escape, rfl, hescape⟩
    · cases h

theorem of_readChars {n : Nat} {cs text rest : List Char} (h : readChars n cs = .ok (text, rest)) :
    ∃ body, StringBody body ∧ cs = body ++ '"' :: rest := by
  induction n generalizing cs text rest with
  | zero => cases h
  | succ n ih =>
    cases cs with
    | nil => cases h
    | cons c cs =>
      rw [readChars] at h
      dsimp only at h
      split at h
      · subst c
        cases h
        exact ⟨[], .nil, rfl⟩
      rename_i hquote
      split at h
      · subst c
        obtain ⟨⟨d, behind⟩, hread, h⟩ := exists_of_bind_eq_ok h
        obtain ⟨⟨more, rest'⟩, hmore, h⟩ := exists_of_bind_eq_ok h
        cases h
        obtain ⟨escape, rfl, hescape⟩ := of_readEscape hread
        obtain ⟨body, hbody, rfl⟩ := ih hmore
        exact ⟨_, hescape body hbody, by simp⟩
      rename_i hbackslash
      split at h
      · cases h
      · rename_i hcontrol
        obtain ⟨⟨more, rest'⟩, hmore, h⟩ := exists_of_bind_eq_ok h
        cases h
        obtain ⟨body, hbody, rfl⟩ := ih hmore
        exact ⟨c :: body, .plain hquote hbackslash (Nat.le_of_not_lt hcontrol) hbody, rfl⟩

theorem of_readString {cs rest : List Char} {text : String} (h : readString cs = .ok (text, rest)) :
    ∃ body, StringBody body ∧ '"' :: cs = quoted body ++ rest := by
  obtain ⟨⟨chars, rest'⟩, hchars, h⟩ := exists_of_bind_eq_ok h
  cases h
  obtain ⟨body, hbody, rfl⟩ := of_readChars hchars
  exact ⟨body, hbody, (quoted_append body rest).symm⟩

/-! ## Numbers -/

theorem of_readDigits {cs ds rest : List Char} (h : readDigits cs = .ok (ds, rest)) : IsDigits ds ∧ cs = ds ++ rest := by
  unfold readDigits at h
  dsimp only at h
  split at h
  · cases h
  · rename_i hempty
    cases h
    have hdigits : ∀ c ∈ cs.takeWhile Char.isDigit, c.isDigit = true := List.all_eq_true.mp List.all_takeWhile
    exact ⟨⟨by simpa using hempty, hdigits⟩, List.takeWhile_append_dropWhile.symm⟩

theorem of_readFraction {cs rest : List Char} {r : Option (List Char)} (h : readFraction cs = .ok (r, rest)) :
    ∃ fraction, cs = fraction ++ rest ∧ (fraction = [] ∨ ∃ ds, IsDigits ds ∧ fraction = '.' :: ds) := by
  unfold readFraction at h
  split at h
  · obtain ⟨⟨ds, rest'⟩, hdigits, h⟩ := exists_of_bind_eq_ok h
    cases h
    obtain ⟨hds, rfl⟩ := of_readDigits hdigits
    exact ⟨'.' :: ds, rfl, .inr ⟨ds, hds, rfl⟩⟩
  · cases h
    exact ⟨[], rfl, .inl rfl⟩

theorem of_readExponent {cs rest : List Char} {r : Option Int} (h : readExponent cs = .ok (r, rest)) :
    ∃ exponent, cs = exponent ++ rest ∧ (exponent = [] ∨ ∃ e ds, (e = 'e' ∨ e = 'E') ∧ IsDigits ds ∧
      (exponent = e :: ds ∨ exponent = e :: '-' :: ds ∨ exponent = e :: '+' :: ds)) := by
  unfold readExponent at h
  split at h
  · cases h
    exact ⟨[], rfl, .inl rfl⟩
  · rename_i e behind
    split at h
    · rename_i hletter
      have he : e = 'e' ∨ e = 'E' := by simpa using hletter
      obtain ⟨⟨ds, rest'⟩, hdigits, h⟩ := exists_of_bind_eq_ok h
      cases h
      obtain ⟨hds, hcs⟩ := of_readDigits hdigits
      split at hcs
      · rename_i hsigned
        obtain ⟨sign, tail, rfl⟩ : ∃ sign tail, behind = sign :: tail := by
          cases behind with
          | nil => exact absurd hsigned (by decide)
          | cons sign tail => exact ⟨sign, tail, rfl⟩
        have hsign : sign = '-' ∨ sign = '+' := by simpa using hsigned
        obtain rfl : tail = ds ++ rest := hcs
        rcases hsign with rfl | rfl
        · exact ⟨e :: '-' :: ds, rfl, .inr ⟨e, ds, he, hds, .inr (.inl rfl)⟩⟩
        · exact ⟨e :: '+' :: ds, rfl, .inr ⟨e, ds, he, hds, .inr (.inr rfl)⟩⟩
      · subst hcs
        exact ⟨e :: ds, rfl, .inr ⟨e, ds, he, hds, .inl rfl⟩⟩
    · cases h
      exact ⟨[], rfl, .inl rfl⟩

theorem of_readWhole {cs whole rest : List Char} (h : readWhole cs = .ok (whole, rest)) :
    cs = whole ++ rest ∧ IsDigits whole ∧ (whole.head? = some '0' → whole.length = 1) := by
  obtain ⟨⟨ds, rest'⟩, hdigits, hok⟩ := exists_of_bind_eq_ok h
  obtain ⟨hds, rfl⟩ := of_readDigits hdigits
  dsimp only at hok
  split at hok
  · cases hok
  · rename_i hzero
    cases hok
    refine ⟨rfl, hds, fun hhead => ?_⟩
    simpa [hhead] using hzero

theorem of_readNumber {cs rest : List Char} {v : Json} (h : readNumber cs = .ok (v, rest)) :
    ∃ l, IsNumber l ∧ cs = l ++ rest := by
  obtain ⟨⟨whole, behindWhole⟩, hreadWhole, h⟩ := exists_of_bind_eq_ok h
  obtain ⟨⟨f, behindFraction⟩, hreadFraction, h⟩ := exists_of_bind_eq_ok h
  obtain ⟨⟨e, behind⟩, hreadExponent, h⟩ := exists_of_bind_eq_ok h
  obtain rfl : behind = rest := by
    dsimp only at h
    split at h
    · cases h
    · split at h <;> exact (Prod.mk.inj (Except.ok.inj h)).2
  obtain ⟨hcs, hwhole⟩ := of_readWhole hreadWhole
  obtain ⟨fraction, rfl, hfraction⟩ := of_readFraction hreadFraction
  obtain ⟨exponent, rfl, hexponent⟩ := of_readExponent hreadExponent
  split at hcs
  · rename_i hnegative
    obtain ⟨tail, rfl⟩ : ∃ tail, cs = '-' :: tail := by
      cases cs with
      | nil => exact absurd hnegative (by decide)
      | cons c tail => exact ⟨tail, by rw [Option.some.inj hnegative]⟩
    rw [List.tail_cons] at hcs
    exact ⟨_, .mk (.inr rfl) hwhole hfraction hexponent, by simp [hcs]⟩
  · exact ⟨_, .mk (.inl rfl) hwhole hfraction hexponent, by simp [hcs]⟩

theorem of_readWord {value v : Json} {word cs rest : List Char} (h : readWord value word cs = .ok (v, rest)) :
    cs = word ++ rest := by
  induction word generalizing cs with
  | nil =>
    rw [readWord] at h
    exact (Prod.mk.inj (Except.ok.inj h)).2
  | cons w word ih =>
    cases cs with
    | nil => cases h
    | cons c cs =>
      rw [readWord] at h
      split at h
      · subst c
        rw [ih h]
        rfl
      · cases h

theorem of_readScalar {cs rest : List Char} {v : Json} (h : readScalar cs = .ok (v, rest)) :
    ∃ l, IsScalar l ∧ cs = l ++ rest := by
  cases cs with
  | nil => cases h
  | cons c cs =>
    rw [readScalar] at h
    split at h
    · subst c
      obtain ⟨⟨text, rest'⟩, hread, hok⟩ := exists_of_bind_eq_ok h
      obtain ⟨-, rfl⟩ := Prod.mk.inj (Except.ok.inj hok)
      obtain ⟨body, hbody, hcs⟩ := of_readString hread
      exact ⟨_, .string hbody, hcs⟩
    split at h
    · obtain ⟨l, hl, hcs⟩ := of_readNumber h
      exact ⟨l, .number hl, hcs⟩
    split at h
    · subst c
      exact ⟨_, .word (l := "null".toList) (by decide), by rw [of_readWord h]; rfl⟩
    split at h
    · subst c
      exact ⟨_, .word (l := "true".toList) (by decide), by rw [of_readWord h]; rfl⟩
    split at h
    · subst c
      exact ⟨_, .word (l := "false".toList) (by decide), by rw [of_readWord h]; rfl⟩
    · cases h

/-! ## Values -/

theorem exists_blanks (cs : List Char) : ∃ g, Blanks g ∧ cs = g ++ skipBlanks cs :=
  ⟨cs.takeWhile isBlank, List.all_eq_true.mp List.all_takeWhile, List.takeWhile_append_dropWhile.symm⟩

theorem of_readKey {cs rest : List Char} {key : String} (h : readKey cs = .ok (key, rest)) :
    ∃ g₁ g₂ body, Blanks g₁ ∧ Blanks g₂ ∧ StringBody body ∧ cs = g₁ ++ (quoted body ++ (g₂ ++ ':' :: rest)) := by
  obtain ⟨g₁, hg₁, hcs⟩ := exists_blanks cs
  unfold readKey at h
  split at h
  · rename_i tail hskip
    obtain ⟨⟨key', behind⟩, hread, hok⟩ := exists_of_bind_eq_ok h
    obtain ⟨body, hbody, htail⟩ := of_readString hread
    obtain ⟨g₂, hg₂, hbehind⟩ := exists_blanks behind
    dsimp only at hok
    split at hok
    · rename_i rest' hcolon
      obtain ⟨-, rfl⟩ := Prod.mk.inj (Except.ok.inj hok)
      exact ⟨g₁, g₂, body, hg₁, hg₂, hbody, by rw [hcs, hskip, htail, hbehind, hcolon]⟩
    · cases hok
  · cases h

/-- What the reader takes off the front of a text is a gap and a part of the kind that it is for. -/
def Accepts {α β : Type} (part : β → Part) (reader : Reader α) : Prop :=
  ∀ {cs rest : List Char} {a : α}, reader cs = .ok (a, rest) →
    ∃ g b t, Blanks g ∧ Written Blanks false (part b) t ∧ cs = g ++ (t ++ rest)

theorem of_readMembers {α β : Type} {close : Char} {member : Reader α} {part : β → Member}
    (hmember : Accepts (fun b => .member (part b)) member) {n : Nat} {cs rest : List Char} {read : List α}
    (h : readMembers close member n cs = .ok (read, rest)) :
    ∃ (bs : List β) (t : List Char), Written Blanks false (.members close (bs.map part)) t ∧ cs = t ++ rest := by
  suffices ∃ (b : β) (bs : List β) (t : List Char),
      Written Blanks false (.members close ((b :: bs).map part)) t ∧ cs = t ++ rest by
    obtain ⟨b, bs, h⟩ := this
    exact ⟨b :: bs, h⟩
  induction n generalizing cs read with
  | zero => cases h
  | succ n ih =>
    rw [readMembers] at h
    obtain ⟨⟨m, behind⟩, hm, hok⟩ := exists_of_bind_eq_ok h
    obtain ⟨g₁, b, t, hg₁, ht, rfl⟩ := hmember hm
    obtain ⟨g₂, hg₂, hbehind⟩ := exists_blanks behind
    dsimp only at hok
    split at hok
    · rename_i tail hskip
      obtain ⟨⟨more, rest'⟩, hmore, hok⟩ := exists_of_bind_eq_ok hok
      obtain ⟨-, rfl⟩ := Prod.mk.inj (Except.ok.inj hok)
      obtain ⟨b', bs, ts, hts, rfl⟩ := ih hmore
      refine ⟨b, b' :: bs, _, .more hg₁ ht hg₂ (List.cons_ne_nil _ _) hts, ?_⟩
      rw [hbehind, hskip]
      simp
    · split at hok
      · rename_i hclose
        obtain ⟨tail, hskip⟩ := List.head?_eq_some_iff.mp hclose
        rw [hskip, List.tail_cons] at hok
        obtain ⟨-, rfl⟩ := Prod.mk.inj (Except.ok.inj hok)
        refine ⟨b, [], _, .last hg₁ ht hg₂, ?_⟩
        rw [hbehind, hskip]
        simp
      · unfold failAt at hok
        cases hok

section Groups

variable {value : Reader Json} (hvalue : Accepts Part.value value)
include hvalue

theorem accepts_readEntry : Accepts (fun e : List Char × Document => .member (.entry e.1 e.2)) (readEntry value) := by
  intro cs rest entry h
  obtain ⟨⟨key, behindKey⟩, hkey, hbehindKey⟩ := exists_of_bind_eq_ok h
  obtain ⟨⟨item, behind⟩, hitem, hok⟩ := exists_of_bind_eq_ok hbehindKey
  obtain ⟨-, rfl⟩ := Prod.mk.inj (Except.ok.inj hok)
  obtain ⟨g₁, g, body, hg₁, hg, hbody, rfl⟩ := of_readKey hkey
  obtain ⟨g', d, t, hg', ht, rfl⟩ := hvalue hitem
  exact ⟨g₁, (body, d), _, hg₁, .entry hbody hg hg' ht, by simp⟩

theorem of_readArray {cs rest : List Char} {v : Json} (h : readArray value cs = .ok (v, rest)) :
    ∃ (ds : List Document) (t : List Char), Written Blanks false (.members ']' (ds.map .item)) t ∧ cs = t ++ rest := by
  rw [readArray] at h
  split at h
  · rename_i tail hskip
    obtain ⟨-, rfl⟩ := Prod.mk.inj (Except.ok.inj h)
    obtain ⟨g, hg, hcs⟩ := exists_blanks cs
    exact ⟨[], _, .none hg, by rw [hcs, hskip]; simp⟩
  · obtain ⟨⟨items, rest'⟩, hitems, hok⟩ := exists_of_bind_eq_ok h
    obtain ⟨-, rfl⟩ := Prod.mk.inj (Except.ok.inj hok)
    have hmember : Accepts (fun d => .member (.item d)) value := fun h => by
      obtain ⟨g, d, t, hg, ht, hcs⟩ := hvalue h
      exact ⟨g, d, t, hg, .item ht, hcs⟩
    exact of_readMembers hmember (readItems_eq value _ ▸ hitems)

theorem of_readObject {cs rest : List Char} {v : Json} (h : readObject value cs = .ok (v, rest)) :
    ∃ (es : List (List Char × Document)) (t : List Char),
      Written Blanks false (.members '\x7d' (es.map fun e => .entry e.1 e.2)) t ∧ cs = t ++ rest := by
  rw [readObject] at h
  split at h
  · rename_i tail hskip
    obtain ⟨-, rfl⟩ := Prod.mk.inj (Except.ok.inj h)
    obtain ⟨g, hg, hcs⟩ := exists_blanks cs
    exact ⟨[], _, .none hg, by rw [hcs, hskip]; simp⟩
  · obtain ⟨⟨entries, rest'⟩, hentries, hok⟩ := exists_of_bind_eq_ok h
    obtain ⟨-, rfl⟩ := Prod.mk.inj (Except.ok.inj hok)
    exact of_readMembers (accepts_readEntry hvalue) (readEntries_eq value _ ▸ hentries)

end Groups

theorem accepts_readValue (n : Nat) : Accepts Part.value (readValue n) := by
  have hscalar {cs rest : List Char} {v : Json} (h : readScalar (skipBlanks cs) = .ok (v, rest)) :
      ∃ g d t, Blanks g ∧ Written Blanks false (.value d) t ∧ cs = g ++ (t ++ rest) := by
    obtain ⟨g, hg, hcs⟩ := exists_blanks cs
    obtain ⟨l, hl, hskip⟩ := of_readScalar h
    exact ⟨g, .scalar l, l, hg, .scalar hl, by rw [hcs, hskip]⟩
  induction n with
  | zero => exact fun h => hscalar (by rwa [readValue] at h)
  | succ n ih =>
    intro cs rest v h
    obtain ⟨g, hg, hcs⟩ := exists_blanks cs
    rw [readValue] at h
    split at h
    · rename_i tail hskip
      obtain ⟨ds, t, ht, rfl⟩ := of_readArray ih h
      exact ⟨g, .array ds, _, hg, .array ht, by rw [hcs, hskip]; rfl⟩
    · rename_i tail hskip
      obtain ⟨es, t, ht, rfl⟩ := of_readObject ih h
      exact ⟨g, .object es, _, hg, .object ht, by rw [hcs, hskip]; rfl⟩
    · exact hscalar h

/-- **A text that has a value is strict.** -/
theorem isStrict_of_parse {text : String} {v : Json} (h : parse text = .ok v) : ∃ d, IsStrict d text := by
  obtain ⟨⟨v', rest⟩, hread, hok⟩ := exists_of_bind_eq_ok h
  obtain ⟨g, d, t, hg, ht, htext⟩ := accepts_readValue maxDepth hread
  dsimp only at hok
  split at hok
  · rename_i hend
    obtain ⟨g', hg', hrest⟩ := exists_blanks rest
    rw [List.isEmpty_iff.mp hend, List.append_nil] at hrest
    refine ⟨d, ?_⟩
    rw [IsStrict, htext, ← List.append_assoc]
    exact .text hg ht (hrest ▸ hg')
  · cases hok

end Recheck.Json
