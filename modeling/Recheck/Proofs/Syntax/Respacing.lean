import Recheck.Proofs.Syntax.Literals
import Recheck.Proofs.Syntax.Spelling

/-!
# Tokens on lines of their own

How far a token goes is decided by its own characters, as soon as a blank stands behind it: no scanner looks past its token
further than to the next blank (`scan_take_append`). Only a literal that is not closed would run on. Such a string ends with its
line, and such a template with the text. So a text can be put together again from its tokens, each on a line of its own, and
none of them changes (`lex_lines`).
-/

set_option autoImplicit false

namespace Recheck.Syntax

open Chars

/-- What follows begins with a blank, if anything follows. -/
def Spaced (rest : List Char) : Prop := ∀ c ∈ rest.head?, isBlank c

variable {c : Char} {cs rest : List Char}

theorem Spaced.nil : Spaced [] := nofun

theorem Spaced.cons (h : isBlank c) (rest : List Char) : Spaced (c :: rest) := by
  intro d hd
  obtain rfl := Option.some.inj hd
  exact h

theorem blank_cases (h : isBlank c) : c = ' ' ∨ c = '\t' ∨ c = '\n' ∨ c = '\x0c' ∨ c = '\r' := by
  simpa [isBlank, or_assoc] using h

theorem Spaced.cases (h : Spaced rest) : rest = [] ∨ ∃ d tail, rest = d :: tail ∧ isBlank d := by
  cases rest with
  | nil => exact .inl rfl
  | cons d tail => exact .inr ⟨d, tail, rfl, h d rfl⟩

theorem Spaced.delimited (h : Spaced rest) : Delimited rest := by
  intro d hd
  rcases blank_cases (h d hd) with rfl | rfl | rfl | rfl | rfl <;> decide

/-! ## Numbers

A number is found again in its own characters. Each of its parts is cut behind its end, so it is as long as before. -/

theorem runLength_take (p : Char → Bool) (n : Nat) (cs : List Char) : runLength p (cs.take n) = min n (runLength p cs) := by
  induction cs generalizing n with
  | nil => simp [runLength]
  | cons c cs ih =>
    cases n with
    | zero => simp [runLength]
    | succ n =>
      specialize ih n
      unfold runLength at ih ⊢
      rw [List.take_succ_cons, List.takeWhile_cons, List.takeWhile_cons]
      by_cases hc : p c
      · simp [hc, ih]
      · simp [hc]

/-- A fraction is cut behind its end. Where two points follow there is none, and then nothing is left of them. -/
theorem fractionLength_take {n : Nat} (hn : fractionLength cs ≤ n)
    (hpoints : fractionLength cs = 0 → cs.head? = some '.' → n = 0) : fractionLength (cs.take n) = fractionLength cs := by
  cases cs with
  | nil => simp
  | cons c cs =>
    cases n with
    | zero =>
      rw [List.take_zero]
      exact (Nat.le_zero.mp hn).symm
    | succ n =>
      rw [List.take_succ_cons]
      by_cases hc : c = '.'
      · subst hc
        cases cs with
        | nil => simp
        | cons d cs =>
          have hd : d ≠ '.' := by
            rintro rfl
            exact absurd (hpoints rfl rfl) (Nat.succ_ne_zero n)
          rw [fractionLength_point hd] at hn ⊢
          cases n with
          | zero =>
            have hrun : runLength isDigitOrUnderscore (d :: cs) = 0 := by omega
            rw [hrun]
            rfl
          | succ n =>
            rw [List.take_succ_cons, fractionLength_point hd, ← List.take_succ_cons, runLength_take, Nat.min_eq_right (by omega)]
      · rw [fractionLength_cons hc, fractionLength_cons hc]

theorem exponentLength_short (h : cs.length < 2) : exponentLength cs = 0 := by
  cases cs with
  | nil => rfl
  | cons e cs =>
    cases cs with
    | nil => rfl
    | cons s cs =>
      rw [List.length_cons, List.length_cons] at h
      omega

theorem exponentLength_point (cs : List Char) : exponentLength ('.' :: cs) = 0 := by
  cases cs with
  | nil => rfl
  | cons s cs =>
    rw [exponentLength_cons]
    rfl

/-- An exponent is cut behind its end. Where there is none at most the suffix is left. -/
theorem exponentLength_take {n : Nat} (hn : exponentLength cs ≤ n) (hnone : exponentLength cs = 0 → n ≤ 1) :
    exponentLength (cs.take n) = exponentLength cs := by
  by_cases hlength : n < 2
  · have hshort : (cs.take n).length < 2 := by simp; omega
    rw [exponentLength_short hshort]
    cases cs with
    | nil => rfl
    | cons e cs =>
      cases cs with
      | nil => rfl
      | cons s cs =>
        -- A sign and a digit, or a digit, stand behind the mark.
        rw [exponentLength_cons] at hn ⊢
        split_ifs at hn ⊢ <;> omega
  · obtain ⟨n, rfl⟩ : ∃ m, n = m + 2 := ⟨n - 2, by omega⟩
    cases cs with
    | nil => rfl
    | cons e cs =>
      cases cs with
      | nil => rfl
      | cons s cs =>
        have hfound : exponentLength (e :: s :: cs) ≠ 0 := by
          intro h
          exact absurd (hnone h) (by omega)
        have hsign : runLength isDigit (s :: cs.take n) = min (n + 1) (runLength isDigit (s :: cs)) := by
          rw [← List.take_succ_cons, runLength_take]
        rw [List.take_succ_cons, List.take_succ_cons]
        rw [exponentLength_cons] at hn hfound ⊢
        rw [exponentLength_cons, runLength_take, hsign]
        split_ifs at hn hfound ⊢ <;> omega

theorem decimalLength_take (cs : List Char) : decimalLength (cs.take (decimalLength cs)) = decimalLength cs := by
  obtain ⟨whole, hwhole⟩ : ∃ n, runLength isDigitOrUnderscore cs = n := ⟨_, rfl⟩
  obtain ⟨fraction, hfraction⟩ : ∃ n, fractionLength (cs.drop whole) = n := ⟨_, rfl⟩
  obtain ⟨exponent, hexponent⟩ : ∃ n, exponentLength (cs.drop (whole + fraction)) = n := ⟨_, rfl⟩
  obtain ⟨suffix, hsuffix⟩ : ∃ n, n = if (cs.drop (whole + fraction + exponent)).head? = some 'n' then 1 else 0 := ⟨_, rfl⟩
  have hlength : decimalLength cs = whole + (fraction + (exponent + suffix)) := by
    simp only [decimalLength, hwhole, hfraction, hexponent, hsuffix]
    split <;> omega
  have hle : suffix ≤ 1 := by rw [hsuffix]; split <;> omega
  rw [hlength]
  generalize hn : whole + (fraction + (exponent + suffix)) = n
  have hrun : runLength isDigitOrUnderscore (cs.take n) = whole := by
    rw [runLength_take, hwhole]
    omega
  have hcut₁ : (cs.take n).drop whole = (cs.drop whole).take (fraction + (exponent + suffix)) := by
    rw [List.drop_take, ← hn, Nat.add_sub_cancel_left]
  have hcut₂ : (cs.take n).drop (whole + fraction) = (cs.drop (whole + fraction)).take (exponent + suffix) := by
    rw [List.drop_take, ← hn, ← Nat.add_assoc, Nat.add_sub_cancel_left]
  have hcut₃ : (cs.take n).drop (whole + fraction + exponent) = (cs.drop (whole + fraction + exponent)).take suffix := by
    rw [List.drop_take, ← hn, ← Nat.add_assoc, ← Nat.add_assoc, Nat.add_sub_cancel_left]
  have hpoint : fractionLength ((cs.take n).drop whole) = fraction := by
    rw [hcut₁, ← hfraction]
    apply fractionLength_take
    · omega
    · -- Nothing but a fraction begins with a point.
      intro hnone hdot
      obtain ⟨tail, htail⟩ := List.head?_eq_some_iff.mp hdot
      rw [hfraction] at hnone
      rw [hnone, Nat.add_zero, htail, exponentLength_point] at hexponent
      rw [hnone, ← hexponent, Nat.add_zero, htail, if_neg (by simp)] at hsuffix
      rw [hfraction, hnone, ← hexponent, hsuffix]
  have hmark : exponentLength ((cs.take n).drop (whole + fraction)) = exponent := by
    rw [hcut₂, ← hexponent]
    apply exponentLength_take <;> omega
  have hlast : ((cs.take n).drop (whole + fraction + exponent)).head? = some 'n' ↔ suffix = 1 := by
    rw [hcut₃]
    by_cases h : (cs.drop (whole + fraction + exponent)).head? = some 'n'
    · obtain ⟨tail, htail⟩ := List.head?_eq_some_iff.mp h
      rw [hsuffix, if_pos h, htail]
      simp
    · rw [hsuffix, if_neg h]
      simp
  simp only [decimalLength, hrun, hpoint, hmark, hlast]
  split <;> omega

theorem numberLength_take (cs : List Char) : numberLength (cs.take (numberLength cs)) = numberLength cs := by
  cases cs with
  | nil => rfl
  | cons c cs =>
    by_cases hradix : c = '0' ∧ ∃ mark ∈ cs.head?, isRadixMark mark
    · obtain ⟨rfl, mark, hmark, hradix⟩ := hradix
      obtain ⟨tail, rfl⟩ := List.head?_eq_some_iff.mp hmark
      have hlength (tail : List Char) : numberLength ('0' :: mark :: tail) = runLength isRadixDigit tail + 2 := by
        rw [numberLength, if_pos hradix, Nat.add_comm]
      rw [hlength, List.take_succ_cons, List.take_succ_cons, hlength, runLength_take, Nat.min_self]
    · have hplain : c = '0' → ∀ mark ∈ cs.head?, isRadixMark mark = false := by
        intro hc mark hmark
        by_contra h
        exact hradix ⟨hc, mark, hmark, by simpa using h⟩
      rw [numberLength_cons hplain]
      have hcut := decimalLength_take (c :: cs)
      cases hn : decimalLength (c :: cs) with
      | zero => rfl
      | succ n =>
        rw [hn, List.take_succ_cons] at hcut
        rw [List.take_succ_cons, numberLength_cons, hcut]
        intro hc mark hmark
        apply hplain hc mark
        cases cs with
        | nil => simp at hmark
        | cons d cs => cases n <;> simp_all

theorem isDigitOrUnderscore_of_isDigit (h : isDigit c) : isDigitOrUnderscore c := by
  simp [isDigitOrUnderscore, h]

/-- Where a number begins there is one, and it keeps its beginning. -/
theorem startsNumber_take (h : startsNumber cs) : 0 < numberLength cs ∧ startsNumber (cs.take (numberLength cs)) := by
  cases cs with
  | nil => cases h
  | cons c cs =>
    by_cases hc : c = '.'
    · subst hc
      cases cs with
      | nil => cases h
      | cons d cs =>
        have hdigit : isDigit d := h
        have hd : d ≠ '.' := by
          rintro rfl
          cases hdigit
        have hfraction : 2 ≤ fractionLength ('.' :: d :: cs) := by
          rw [fractionLength_point hd, runLength, List.takeWhile_cons_of_pos (isDigitOrUnderscore_of_isDigit hdigit), List.length_cons]
          omega
        have hlength : 2 ≤ numberLength ('.' :: d :: cs) := by
          rw [numberLength_cons (by simp)]
          have hwhole : runLength isDigitOrUnderscore ('.' :: d :: cs) = 0 := rfl
          simp only [decimalLength, hwhole, List.drop_zero, Nat.zero_add]
          split <;> omega
        refine ⟨by omega, ?_⟩
        obtain ⟨n, hn⟩ : ∃ n, numberLength ('.' :: d :: cs) = n + 2 := ⟨_, (Nat.sub_add_cancel hlength).symm⟩
        rw [hn]
        exact hdigit
    · rw [startsNumber_cons hc] at h
      have hpos : 0 < numberLength (c :: cs) := by
        by_cases hradix : c = '0' ∧ ∃ mark ∈ cs.head?, isRadixMark mark
        · obtain ⟨rfl, mark, hmark, hradix⟩ := hradix
          obtain ⟨tail, rfl⟩ := List.head?_eq_some_iff.mp hmark
          rw [numberLength, if_pos hradix]
          omega
        · rw [numberLength_cons]
          · have hwhole : 0 < runLength isDigitOrUnderscore (c :: cs) := by
              rw [runLength, List.takeWhile_cons_of_pos (isDigitOrUnderscore_of_isDigit h)]
              exact Nat.succ_pos _
            simp only [decimalLength]
            split <;> omega
          · intro hzero mark hmark
            by_contra hmarked
            exact hradix ⟨hzero, mark, hmark, by simpa using hmarked⟩
      obtain ⟨n, hn⟩ : ∃ n, numberLength (c :: cs) = n + 1 := ⟨_, (Nat.sub_add_cancel hpos).symm⟩
      refine ⟨hpos, ?_⟩
      rw [hn, List.take_succ_cons, startsNumber_cons hc]
      exact h

/-! ## Separators and operators -/

/-- The characters that separators and operators begin with. -/
def markStarts : List Char :=
  ['\x7b', '\x7d', '(', ')', '[', ']', ';', ',', ':', '@', '.', '?', '=', '!', '<', '>', '+', '-', '*', '/', '%', '&', '|']

theorem ne_of_cons_ne {d : Char} (h : ∀ tail, c :: cs = d :: tail → False) : c ≠ d := by
  rintro rfl
  exact h cs rfl

theorem punctuation_other (hc : c ∉ markStarts) (cs : List Char) : punctuation (c :: cs) = (.error, 1) := by
  unfold punctuation
  split
  case h_44 => rfl
  all_goals
    rename_i heq
    have hmem : c ∈ markStarts := by
      rw [(List.cons.inj heq).1]
      decide
    exact absurd hmem hc

/-- No operator goes on with a blank. -/
theorem punctuation_take_append (hrest : Spaced rest) (hcs : cs ≠ []) :
    punctuation (cs.take (punctuation cs).2 ++ rest) = punctuation cs := by
  generalize hfound : punctuation cs = found
  unfold punctuation at hfound
  split at hfound
  case h_44 =>
    -- A character that begins no operator begins none in front of a blank.
    obtain ⟨c, tail, rfl⟩ := List.exists_cons_of_ne_nil hcs
    subst hfound
    rw [List.take_succ_cons, List.cons_append, punctuation_other]
    simp only [markStarts, List.mem_cons, List.not_mem_nil, or_false, not_or]
    and_intros <;> exact ne_of_cons_ne (by assumption)
  case h_15 =>
    -- Without the point behind it, a question mark is a token of its own.
    split at hfound
    all_goals
      subst hfound
      rcases hrest.cases with rfl | ⟨d, tail, rfl, hd⟩
      on_goal 2 => rcases blank_cases hd with rfl | rfl | rfl | rfl | rfl
    all_goals rfl
  all_goals
    subst hfound
    rcases hrest.cases with rfl | ⟨d, tail, rfl, hd⟩
    on_goal 2 => rcases blank_cases hd with rfl | rfl | rfl | rfl | rfl
  all_goals rfl

/-! ## Single tokens -/

theorem scan_name (hname : isNameStart c) (cs : List Char) :
    scan c cs = ⟨wordKind (String.ofList (c :: cs.take (runLength isNamePart cs))), runLength isNamePart cs + 1, none⟩ := by
  rw [scan, if_pos hname, Nat.add_comm]
  rfl

theorem scan_number (hname : isNameStart c = false) (hnumber : startsNumber (c :: cs)) :
    scan c cs = ⟨.numberLiteral, numberLength (c :: cs), none⟩ := by
  have hpos := (startsNumber_take hnumber).1
  rw [scan, if_neg (by simp [hname]), if_pos hnumber, Nat.max_eq_right hpos]

theorem scan_string (hquote : c = '"' ∨ c = '\'') (cs : List Char) :
    scan c cs = ⟨.stringLiteral, (quoted c cs).1 + 1, if (quoted c cs).2 then none else some .openString⟩ := by
  have hplain : isNameStart c = false ∧ startsNumber (c :: cs) = false := by
    rcases hquote with rfl | rfl <;> exact ⟨by decide, startsNumber_cons (by decide) cs⟩
  rw [scan, if_neg (by simp [hplain.1]), if_neg (by simp [hplain.2]), if_pos (by simpa using hquote), Nat.add_comm]

theorem scan_template (cs : List Char) :
    scan '\x60' cs = ⟨.templateLiteral, (template 0 cs).1 + 1, if (template 0 cs).2 then none else some .openTemplate⟩ := by
  have hnumber : startsNumber ('\x60' :: cs) = false := startsNumber_cons (by decide) cs
  rw [scan, if_neg (by decide), if_neg (by simp [hnumber]), if_neg (by decide), if_pos rfl, Nat.add_comm]

/-- What begins neither a word nor a number nor a literal. -/
structure IsMark (c : Char) (cs : List Char) : Prop where
  name : isNameStart c = false
  number : startsNumber (c :: cs) = false
  string : ¬(c = '"' ∨ c = '\'')
  template : c ≠ '\x60'

theorem IsMark.scan (h : IsMark c cs) :
    scan c cs = ⟨(punctuation (c :: cs)).1, (punctuation (c :: cs)).2,
      if (punctuation (c :: cs)).1 = .error then some .strayCharacter else none⟩ := by
  rw [Syntax.scan, if_neg (by simp [h.name]), if_neg (by simp [h.number]), if_neg (by simpa using h.string), if_neg h.template]

/-- A point in front of a blank begins no number. -/
theorem startsNumber_take_append (hrest : Spaced rest) (h : startsNumber (c :: cs) = false) (n : Nat) :
    startsNumber (c :: (cs.take n ++ rest)) = false := by
  by_cases hc : c = '.'
  · subst hc
    cases n with
    | zero =>
      rcases hrest.cases with rfl | ⟨d, tail, rfl, hd⟩
      · rfl
      · rcases blank_cases hd with rfl | rfl | rfl | rfl | rfl <;> rfl
    | succ n =>
      cases cs with
      | nil =>
        rcases hrest.cases with rfl | ⟨d, tail, rfl, hd⟩
        · rfl
        · rcases blank_cases hd with rfl | rfl | rfl | rfl | rfl <;> rfl
      | cons d cs => exact h
  · rw [startsNumber_cons hc] at h ⊢
    exact h

theorem scan_name_take_append (hrest : Spaced rest) (hname : isNameStart c) :
    scan c (cs.take ((scan c cs).length - 1) ++ rest) = scan c cs := by
  have hstop := hrest.delimited.stops (p := isNamePart) (by decide)
  have hrun : runLength isNamePart (cs.take (runLength isNamePart cs)) = runLength isNamePart cs := by
    rw [runLength_take, Nat.min_self]
  have hle : runLength isNamePart cs ≤ (cs.take (runLength isNamePart cs)).length := by
    have := runLength_le isNamePart cs
    rw [List.length_take]
    omega
  rw [scan_name hname, scan_name hname, Nat.add_sub_cancel, runLength_append hstop, hrun, List.take_append_of_le_length hle,
    List.take_take, Nat.min_self]

theorem scan_number_take_append (hrest : Spaced rest) (hname : isNameStart c = false) (hnumber : startsNumber (c :: cs)) :
    scan c (cs.take ((scan c cs).length - 1) ++ rest) = scan c cs := by
  obtain ⟨hpos, htake⟩ := startsNumber_take hnumber
  rw [scan_number hname hnumber]
  obtain ⟨n, hn⟩ := Nat.exists_eq_add_of_lt hpos
  have hcut := numberLength_take (c :: cs)
  rw [Nat.zero_add] at hn
  rw [hn, List.take_succ_cons] at htake hcut
  have hnumber' : startsNumber (c :: (cs.take n ++ rest)) := startsNumber_append htake
  rw [hn, Nat.add_sub_cancel, scan_number hname hnumber', ← List.cons_append, numberLength_append hrest.delimited, hcut]

/-- A string that is not closed must not run on behind the end of its line. -/
theorem scan_string_take_append (hquote : c = '"' ∨ c = '\'')
    (hopen : rest = [] ∨ (scan c cs).fault = none ∨ (c :: cs).drop (scan c cs).length ≠ [] ∧ rest.head? = some '\n') :
    scan c (cs.take ((scan c cs).length - 1) ++ rest) = scan c cs := by
  rw [scan_string hquote cs] at hopen ⊢
  rw [Nat.add_sub_cancel, scan_string hquote, quoted_take_append]
  rcases hopen with h | h | ⟨h, hline⟩
  · exact .inr (.inl h)
  · left
    by_contra hclosed
    simp [hclosed] at h
  · exact .inr (.inr ⟨by simpa using h, hline⟩)

theorem scan_template_take_append
    (hopen : rest = [] ∨ (scan '\x60' cs).fault = none ∨ ('\x60' :: cs).drop (scan '\x60' cs).length ≠ []) :
    scan '\x60' (cs.take ((scan '\x60' cs).length - 1) ++ rest) = scan '\x60' cs := by
  rw [scan_template cs] at hopen ⊢
  rw [Nat.add_sub_cancel, scan_template, template_take_append]
  by_cases hclosed : (template 0 cs).2
  · exact .inl hclosed
  · -- Then the template is all there is.
    have hall := template_open (by simpa using hclosed)
    rcases hopen with h | h | h
    · exact .inr h
    · simp [hclosed] at h
    · simp [hall] at h

theorem IsMark.scan_take_append (h : IsMark c cs) (hrest : Spaced rest) :
    Syntax.scan c (cs.take ((Syntax.scan c cs).length - 1) ++ rest) = Syntax.scan c cs := by
  have hmark (n : Nat) : IsMark c (cs.take n ++ rest) :=
    ⟨h.name, startsNumber_take_append hrest h.number n, h.string, h.template⟩
  obtain ⟨n, hn⟩ := Nat.exists_eq_add_of_lt (punctuation_pos (c :: cs))
  rw [Nat.zero_add] at hn
  have hcut := punctuation_take_append hrest (List.cons_ne_nil c cs)
  rw [hn, List.take_succ_cons, List.cons_append] at hcut
  rw [h.scan, hn, Nat.add_sub_cancel, (hmark n).scan, hcut, hn]

/-- A token is scanned again from its own characters with a blank behind them, if that does not let a literal run on. -/
theorem scan_take_append (hrest : Spaced rest)
    (hopen : rest = [] ∨ (scan c cs).fault = none ∨ (c :: cs).drop (scan c cs).length ≠ [] ∧ rest.head? = some '\n') :
    scan c (cs.take ((scan c cs).length - 1) ++ rest) = scan c cs := by
  by_cases hname : isNameStart c
  · exact scan_name_take_append hrest hname
  have hname : isNameStart c = false := by simpa using hname
  by_cases hnumber : startsNumber (c :: cs)
  · exact scan_number_take_append hrest hname hnumber
  by_cases hquote : c = '"' ∨ c = '\''
  · exact scan_string_take_append hquote hopen
  by_cases htemplate : c = '\x60'
  · subst htemplate
    exact scan_template_take_append (hopen.imp_right (Or.imp_right And.left))
  · exact IsMark.scan_take_append ⟨hname, by simpa using hnumber, hquote, htemplate⟩ hrest

/-! ## Gaps -/

/-- No gap is left behind a gap, where a token begins. -/
theorem gap_behind (cs : List Char) (h : cs.drop (gap cs).length ≠ []) : gap (cs.drop (gap cs).length) = ⟨0, false, none⟩ := by
  induction hn : cs.length using Nat.strongRecOn generalizing cs with
  | _ n ih =>
    subst hn
    rcases gap_cases cs with ⟨piece, tail, rfl, hne, -, hgap⟩ | hgap | ⟨o, hgap, -⟩
    · have hpos := List.length_pos_iff.mpr hne
      have hdrop : (piece ++ tail).drop (gap (piece ++ tail)).length = tail.drop (gap tail).length := by
        rw [hgap, Gap.behind, List.drop_length_add_append]
      rw [hdrop] at h ⊢
      apply ih tail.length _ tail h rfl
      rw [List.length_append]
      omega
    · rw [hgap, List.drop_zero, hgap]
    · rw [hgap] at h
      exact absurd List.drop_length h

/-- A token begins where there is neither a blank nor a comment. -/
theorem gap_token_iff (c : Char) (cs : List Char) :
    gap (c :: cs) = ⟨0, false, none⟩ ↔ isBlank c = false ∧ (c = '/' → cs.head? ≠ some '/' ∧ cs.head? ≠ some '*') := by
  constructor
  · intro h
    constructor
    · by_contra hblank
      rw [gap_blank (by simpa using hblank), Gap.behind, Gap.mk.injEq] at h
      omega
    · rintro rfl
      constructor
      · intro hline
        rw [gap, if_neg (by decide), if_pos (by simp [hline]), Gap.behind, Gap.mk.injEq] at h
        omega
      · intro hblock
        rw [gap, if_neg (by decide), if_neg (by simp [hblock]), if_pos (by simp [hblock])] at h
        dsimp only at h
        split at h
        · rw [Gap.behind, Gap.mk.injEq] at h
          omega
        · cases h
  · rintro ⟨hblank, hslash⟩
    rw [gap, if_neg (by simp [hblank]), if_neg, if_neg]
    · simpa using fun hc => (hslash hc).2
    · simpa using fun hc => (hslash hc).1

theorem gap_take_append (hrest : Spaced rest) (h : gap (c :: cs) = ⟨0, false, none⟩) (n : Nat) :
    gap (c :: (cs.take n ++ rest)) = ⟨0, false, none⟩ := by
  rw [gap_token_iff] at h ⊢
  refine ⟨h.1, fun hslash => ?_⟩
  have hcs := h.2 hslash
  have hspaced : rest.head? ≠ some '/' ∧ rest.head? ≠ some '*' := by
    constructor <;> intro hd <;> exact absurd (hrest _ hd) (by decide)
  cases n with
  | zero => exact hspaced
  | succ n =>
    cases cs with
    | nil => exact hspaced
    | cons d cs => exact hcs

/-! ## All tokens -/

/-- What a token is, without its place in the text. -/
def Token.piece (t : Token) : TokenKind × String := (t.kind, t.text)

/-- The tokens of some characters, without their places. -/
def pieces (cs : List Char) : List (TokenKind × String) := (lexFrom 0 cs).tokens.map Token.piece

theorem lexFrom_pieces (offset : Nat) (cs : List Char) : (lexFrom offset cs).tokens.map Token.piece = pieces cs := by
  suffices h : ∀ other, (lexFrom offset cs).tokens.map Token.piece = (lexFrom other cs).tokens.map Token.piece from h 0
  induction hn : cs.length using Nat.strongRecOn generalizing offset cs with
  | _ n ih =>
    intro other
    cases hcs : cs.drop (gap cs).length with
    | nil =>
      rw [lexFrom_end hcs, lexFrom_end hcs]
      rfl
    | cons d ds =>
      have hshort : ((d :: ds).drop (scan d ds).length).length < n := by
        have hpos := scan_pos d ds
        have hlength := congrArg List.length hcs
        rw [List.length_drop, List.length_cons] at hlength
        rw [List.length_drop, List.length_cons]
        omega
      rw [lexFrom_scan hcs, lexFrom_scan hcs]
      exact congrArg (_ :: ·) (ih _ hshort _ _ rfl _)

theorem pieces_end (h : cs.drop (gap cs).length = []) : pieces cs = [(.eof, "")] := by
  rw [pieces, lexFrom_end h]
  rfl

theorem pieces_scan {d : Char} {ds : List Char} (h : cs.drop (gap cs).length = d :: ds) :
    pieces cs = ((scan d ds).kind, String.ofList ((d :: ds).take (scan d ds).length)) ::
      pieces ((d :: ds).drop (scan d ds).length) := by
  rw [pieces, lexFrom_scan h]
  exact congrArg (_ :: ·) (lexFrom_pieces _ _)

theorem pieces_nil : pieces [] = [(.eof, "")] := pieces_end (by rw [gap]; rfl)

theorem pieces_blank (h : isBlank c) (cs : List Char) : pieces (c :: cs) = pieces cs := by
  have hdrop : (c :: cs).drop (gap (c :: cs)).length = cs.drop (gap cs).length := by
    rw [gap_blank h, Gap.behind, Nat.add_comm, List.drop_succ_cons]
  cases hcs : cs.drop (gap cs).length with
  | nil => rw [pieces_end hcs, pieces_end (hdrop.trans hcs)]
  | cons d ds => rw [pieces_scan hcs, pieces_scan (hdrop.trans hcs)]

/-- With a line end behind it a token is found again from its own characters, and what stands behind the line end as well. -/
theorem pieces_take_append {k : Nat} (hgap : gap (c :: cs) = ⟨0, false, none⟩) (hk : (scan c cs).length = k + 1)
    (hrest : ∀ d ∈ rest.head?, d = '\n') (hall : cs.drop k = [] → rest = []) :
    pieces (c :: (cs.take k ++ rest)) = ((scan c cs).kind, String.ofList (c :: cs.take k)) :: pieces rest := by
  have hspaced : Spaced rest := by
    intro d hd
    rw [hrest d hd]
    decide
  have hopen : rest = [] ∨ (scan c cs).fault = none ∨ (c :: cs).drop (scan c cs).length ≠ [] ∧ rest.head? = some '\n' := by
    rw [hk, List.drop_succ_cons]
    cases rest with
    | nil => exact .inl rfl
    | cons d tail =>
      refine .inr (.inr ⟨fun hnil => absurd (hall hnil) (List.cons_ne_nil d tail), ?_⟩)
      rw [hrest d rfl]
      rfl
  have hscan := scan_take_append hspaced hopen
  have hfront : (c :: (cs.take k ++ rest)).drop (gap (c :: (cs.take k ++ rest))).length = c :: (cs.take k ++ rest) := by
    rw [gap_take_append hspaced hgap, List.drop_zero]
  obtain ⟨htake, hdrop⟩ : (cs.take k ++ rest).take k = cs.take k ∧ (cs.take k ++ rest).drop k = rest := by
    by_cases hle : k ≤ cs.length
    · have hlength : (cs.take k).length = k := by rw [List.length_take, Nat.min_eq_left hle]
      exact ⟨List.take_left' hlength, List.drop_left' hlength⟩
    · -- Then the token is all there is.
      obtain rfl := hall (List.drop_eq_nil_of_le (by omega))
      rw [List.append_nil, List.take_take, Nat.min_self, List.drop_take, Nat.sub_self, List.take_zero]
      exact ⟨rfl, rfl⟩
  rw [hk, Nat.add_sub_cancel] at hscan
  rw [pieces_scan hfront, hscan, hk, List.take_succ_cons, List.drop_succ_cons, htake, hdrop]

/-- The texts of some tokens, each on a line of its own. -/
def lines (tokens : List (TokenKind × String)) : List Char :=
  (intercalate "\n" ((tokens.filter (·.1 ≠ .eof)).map (·.2))).toList

/-- The lines behind the first one, with the line end in front of them. -/
def furtherLines (tokens : List (TokenKind × String)) : List Char :=
  if tokens.filter (·.1 ≠ .eof) = [] then [] else '\n' :: lines tokens

theorem lines_end : lines [(.eof, "")] = [] := by decide

theorem lines_cons {kind : TokenKind} (hkind : kind ≠ .eof) (text : List Char) (tokens : List (TokenKind × String)) :
    lines ((kind, String.ofList text) :: tokens) = text ++ furtherLines tokens := by
  rw [lines, List.filter_cons_of_pos (by simpa using hkind), List.map_cons]
  unfold furtherLines lines
  cases tokens.filter (·.1 ≠ .eof) with
  | nil => simp [intercalate]
  | cons first others => simp [intercalate]

theorem furtherLines_head? (tokens : List (TokenKind × String)) : ∀ d ∈ (furtherLines tokens).head?, d = '\n' := by
  intro d hd
  unfold furtherLines at hd
  split at hd
  · cases hd
  · exact (Option.some.inj hd).symm

theorem pieces_furtherLines (tokens : List (TokenKind × String)) : pieces (furtherLines tokens) = pieces (lines tokens) := by
  unfold furtherLines
  split
  next hnone =>
    rw [lines, hnone]
    rfl
  next => rw [pieces_blank (by decide)]

theorem pieces_lines (cs : List Char) : pieces (lines (pieces cs)) = pieces cs := by
  induction hn : cs.length using Nat.strongRecOn generalizing cs with
  | _ n ih =>
    cases hcs : cs.drop (gap cs).length with
    | nil => rw [pieces_end hcs, lines_end, pieces_nil]
    | cons d ds =>
      obtain ⟨k, hk⟩ : ∃ k, (scan d ds).length = k + 1 := ⟨_, (Nat.sub_add_cancel (scan_pos d ds)).symm⟩
      have hgap : gap (d :: ds) = ⟨0, false, none⟩ := by
        rw [← hcs]
        apply gap_behind
        rw [hcs]
        exact List.cons_ne_nil d ds
      have hall : ds.drop k = [] → furtherLines (pieces (ds.drop k)) = [] := by
        intro hnil
        rw [hnil, pieces_nil]
        rfl
      have hshort : (ds.drop k).length < n := by
        have hlength := congrArg List.length hcs
        rw [List.length_drop, List.length_cons] at hlength
        rw [List.length_drop]
        omega
      rw [pieces_scan hcs, lines_cons (scan_ne_eof d ds), hk, List.take_succ_cons, List.drop_succ_cons, List.cons_append,
        pieces_take_append hgap hk (furtherLines_head? _) hall, pieces_furtherLines, ih _ hshort _ rfl]

/-- A text that is put together from its tokens, each on a line of its own, has the same tokens. -/
theorem lex_lines (text : String) :
    (lex (intercalate "\n" (((lex text).tokens.filter (·.kind ≠ .eof)).map (·.text)))).tokens.map (fun t => (t.kind, t.text)) =
      (lex text).tokens.map fun t => (t.kind, t.text) := by
  have h := pieces_lines text.toList
  have hlines :
      lines (pieces text.toList) = (intercalate "\n" (((lex text).tokens.filter (·.kind ≠ .eof)).map (·.text))).toList := by
    rw [lines, pieces, List.filter_map, List.map_map]
    rfl
  rw [hlines] at h
  exact h

end Recheck.Syntax
