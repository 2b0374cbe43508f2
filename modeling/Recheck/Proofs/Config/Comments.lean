import Recheck.Config.Project
import Recheck.Proofs.Config.Blanking
import Recheck.Proofs.Data.JsonAccepted

/-!
# Comments and spare commas have no meaning

A tolerant text is a text of the JSON grammar that may have comments in its gaps and a spare comma behind the last member
of a group. Blanking makes a strict text of it that says the same (`isStrict_strip`), and finds nothing to do in a text
that is strict already.

Both passes leave strings alone in the same way (`KeepsStrings`), and what a pass makes of a piece of text that stands
outside of strings depends on nothing else (`Turns`). So the first pass turns every gap into blanks and keeps the rest.
Whether the second pass keeps a comma is told by what follows it: in front of a member it does, in front of a bracket it
does not.
-/

set_option autoImplicit false

namespace Recheck

namespace Tolerant

open Json (Blanks Document IsScalar IsStrict Opens Part StringBody Written isBlank opens quoted)

/-! ## Tolerant texts -/

/-- Blanks and comments. -/
inductive IsGap : List Char → Prop where
  | nil : IsGap []
  | blank {c : Char} {cs : List Char} : isBlank c = true → IsGap cs → IsGap (c :: cs)
  | line {body cs : List Char} : '\n' ∉ body → IsGap cs → IsGap ('/' :: '/' :: (body ++ '\n' :: cs))
  /-- The comment ends at the first marker that can end it. -/
  | block {body cs : List Char} : ¬['*', '/'] <:+: body ++ ['*'] → IsGap cs →
      IsGap ('/' :: '*' :: (body ++ '*' :: '/' :: cs))

/-- The texts of a document with comments and spare commas. -/
def IsTolerant (d : Document) (text : String) : Prop := Written IsGap true (.text d) text.toList

/-! ## Passes -/

/-- The pass makes one piece of text of another one, whatever follows. -/
def Turns (pass : List Char → List Char) (t t' : List Char) : Prop := ∀ rest, pass (t ++ rest) = t' ++ pass rest

namespace Turns

variable {pass : List Char → List Char} {t t' u u' : List Char}

theorem nil : Turns pass [] [] := fun _ => rfl

theorem append (h : Turns pass t t') (hu : Turns pass u u') : Turns pass (t ++ u) (t' ++ u') := by
  intro rest
  rw [List.append_assoc, h, hu, List.append_assoc]

theorem cons {c c' : Char} (h : Turns pass [c] [c']) (hu : Turns pass u u') : Turns pass (c :: u) (c' :: u') :=
  h.append hu

theorem all (h : ∀ c ∈ t, Turns pass [c] [c]) : Turns pass t t := by
  induction t with
  | nil => exact nil
  | cons c t ih =>
    rw [List.forall_mem_cons] at h
    exact h.1.cons (ih h.2)

end Turns

/-- A pass with one mark copies strings, and characters that are no mark. -/
structure KeepsStrings (mark : Char) (pass : Place → List Char → List Char) : Prop where
  is_mark : mark ∈ ['/', ',']
  plain {c : Char} : c ≠ '"' → c ≠ mark → Turns (pass .code) [c] [c]
  quote (rest : List Char) : pass .code ('"' :: rest) = '"' :: pass .string rest
  string (c : Char) (rest : List Char) : pass .string (c :: rest) =
    c :: pass (if c = '\\' then .escape else if c = '"' then .code else .string) rest
  escape (c : Char) (rest : List Char) : pass .escape (c :: rest) = c :: pass .string rest

theorem keepsStrings_blankComments : KeepsStrings '/' blankComments where
  is_mark := by decide
  plain {c} hquote hslash rest := by
    rw [List.singleton_append, blankComments, if_neg hquote]
    · rfl
    · exact fun _ h => absurd h hslash
    · exact fun _ h => absurd h hslash
  quote rest := by
    rw [blankComments, if_pos rfl]
    · exact fun _ h => absurd h (by decide)
    · exact fun _ h => absurd h (by decide)
  string c rest := by rw [blankComments]
  escape c rest := by rw [blankComments]

theorem blankCommas_code (c : Char) (rest : List Char) : blankCommas .code (c :: rest) =
    (if c = ',' && closesNext rest then ' ' else c) :: blankCommas (if c = '"' then .string else .code) rest := by
  rw [blankCommas]
  · exact Place.noConfusion
  · exact Place.noConfusion

theorem keepsStrings_blankCommas : KeepsStrings ',' blankCommas where
  is_mark := by decide
  plain {c} hquote hcomma rest := by
    rw [List.singleton_append, blankCommas_code, if_neg hquote, decide_eq_false hcomma, Bool.false_and,
      if_neg Bool.false_ne_true]
    rfl
  quote rest := by
    rw [blankCommas_code, if_pos rfl]
    rfl
  string c rest := by rw [blankCommas]
  escape c rest := by rw [blankCommas]

namespace KeepsStrings

variable {mark : Char} {pass : Place → List Char → List Char} (h : KeepsStrings mark pass)
include h

theorem copies {c : Char} (hc : c ∉ ['"', '/', ',']) : Turns (pass .code) [c] [c] := by
  simp only [List.mem_cons, List.not_mem_nil, or_false, not_or] at hc
  have hmark := h.is_mark
  simp only [List.mem_cons, List.not_mem_nil, or_false] at hmark
  rcases hmark with rfl | rfl
  · exact h.plain hc.1 hc.2.1
  · exact h.plain hc.1 hc.2.2

theorem stringBody {body : List Char} (hbody : StringBody body) (rest : List Char) :
    pass .string (body ++ '"' :: rest) = body ++ '"' :: pass .code rest := by
  have hplain {c : Char} (hquote : c ≠ '"') (hbackslash : c ≠ '\\') (rest : List Char) :
      pass .string (c :: rest) = c :: pass .string rest := by
    rw [h.string, if_neg hbackslash, if_neg hquote]
  induction hbody with
  | nil => rw [List.nil_append, h.string]; rfl
  | plain hquote hbackslash _ _ ih => rw [List.cons_append, hplain hquote hbackslash, ih]; rfl
  | escape _ _ ih =>
    rw [List.cons_append, List.cons_append, h.string, if_pos rfl, h.escape, ih]
    rfl
  | @unicode hex cs _ hhex _ ih =>
    have hcopy : ∀ hex : List Char, (∀ d ∈ hex, (Json.hexValue? d).isSome = true) →
        pass .string (hex ++ (cs ++ '"' :: rest)) = hex ++ (cs ++ '"' :: pass .code rest) := by
      intro hex hhex
      induction hex with
      | nil => exact ih
      | cons d hex ihhex =>
        rw [List.forall_mem_cons] at hhex
        have hquote : d ≠ '"' := by rintro rfl; exact absurd hhex.1 (by decide)
        have hbackslash : d ≠ '\\' := by rintro rfl; exact absurd hhex.1 (by decide)
        rw [List.cons_append, hplain hquote hbackslash, ihhex hhex.2]
        rfl
    rw [List.cons_append, List.cons_append, h.string, if_pos rfl, h.escape, List.append_assoc, hcopy hex hhex]
    simp

theorem turns_quoted {body : List Char} (hbody : StringBody body) : Turns (pass .code) (quoted body) (quoted body) := by
  intro rest
  rw [Json.quoted_append, h.quote, h.stringBody hbody, Json.quoted_append]

theorem turns_number {l : List Char} (hl : Json.IsNumber l) : Turns (pass .code) l l := by
  have hdigits {ds : List Char} (hds : Json.IsDigits ds) : Turns (pass .code) ds ds :=
    .all fun c hc => h.copies (by
      have hdigit := hds.2 c hc
      have hquote := Json.isDigit_ne hdigit (d := '"') (by decide)
      have hslash := Json.isDigit_ne hdigit (d := '/') (by decide)
      have hcomma := Json.isDigit_ne hdigit (d := ',') (by decide)
      simp [hquote, hslash, hcomma])
  obtain ⟨hsign, hwhole, hfraction, hexponent⟩ := hl
  refine .append ?_ (.append (hdigits hwhole.1) (.append ?_ ?_))
  · rcases hsign with rfl | rfl
    · exact .nil
    · exact h.copies (by decide)
  · rcases hfraction with rfl | ⟨ds, hds, rfl⟩
    · exact .nil
    · exact .cons (h.copies (by decide)) (hdigits hds)
  · rcases hexponent with rfl | ⟨e, ds, he, hds, hexponent⟩
    · exact .nil
    have hletter : Turns (pass .code) [e] [e] := by
      rcases he with rfl | rfl <;> exact h.copies (by decide)
    rcases hexponent with rfl | rfl | rfl
    · exact hletter.cons (hdigits hds)
    · exact hletter.cons (.cons (h.copies (by decide)) (hdigits hds))
    · exact hletter.cons (.cons (h.copies (by decide)) (hdigits hds))

theorem turns_scalar {l : List Char} (hl : IsScalar l) : Turns (pass .code) l l := by
  have hletters {l : List Char} (hl : l.all (fun c => c ∉ ['"', '/', ',']) = true) : Turns (pass .code) l l :=
    .all fun c hc => h.copies (of_decide_eq_true (List.all_eq_true.mp hl c hc))
  cases hl with
  | word hword =>
    simp only [List.mem_cons, List.not_mem_nil, or_false] at hword
    rcases hword with rfl | rfl | rfl <;> exact hletters (by decide)
  | number hnumber => exact h.turns_number hnumber
  | string hbody => exact h.turns_quoted hbody

theorem turns_blanks {g : List Char} (hg : Blanks g) : Turns (pass .code) g g :=
  .all fun c hc => h.copies (by
    have hblank := hg c hc
    unfold isBlank at hblank
    simp only [Bool.or_eq_true, decide_eq_true_eq] at hblank
    rcases hblank with ((rfl | rfl) | rfl) | rfl <;> decide)

end KeepsStrings

/-! ## Comments become blanks -/

theorem blanks_flatMap_blank (body : List Char) : Blanks (body.flatMap blank) := by
  intro d hd
  obtain ⟨c, -, hdc⟩ := List.mem_flatMap.mp hd
  unfold blank at hdc
  split at hdc
  · rename_i hfeed
    rw [List.mem_singleton.mp hdc, hfeed]
    rfl
  · rw [List.eq_of_mem_replicate hdc]
    rfl

theorem blankComments_line {body : List Char} (h : '\n' ∉ body) (rest : List Char) :
    blankComments .lineComment (body ++ '\n' :: rest) = body.flatMap blank ++ '\n' :: blankComments .code rest := by
  induction body with
  | nil => rfl
  | cons c body ih =>
    rw [List.mem_cons, not_or] at h
    rw [List.cons_append, blankComments, if_neg (Ne.symm h.1), ih h.2, List.flatMap_cons, List.append_assoc]

theorem blankComments_block {body : List Char} (h : ¬['*', '/'] <:+: body ++ ['*']) (rest : List Char) :
    blankComments .blockComment (body ++ '*' :: '/' :: rest) =
      body.flatMap blank ++ ' ' :: ' ' :: blankComments .code rest := by
  induction body with
  | nil => rfl
  | cons c body ih =>
    have hbody : ¬['*', '/'] <:+: body ++ ['*'] := fun hin => h (hin.trans (List.suffix_cons c _).isInfix)
    rw [List.cons_append, blankComments, ih hbody, List.flatMap_cons, List.append_assoc]
    rintro tail rfl htail
    -- The marker would begin with this character.
    refine h ?_
    cases body with
    | nil => exact absurd (List.cons.inj htail).1 (by decide)
    | cons d body =>
      obtain rfl : d = '/' := (List.cons.inj htail).1
      exact ⟨[], body ++ ['*'], rfl⟩

theorem turns_gap {g : List Char} (h : IsGap g) : ∃ g', Blanks g' ∧ Turns (blankComments .code) g g' := by
  induction h with
  | nil => exact ⟨[], (fun _ hc => nomatch hc), .nil⟩
  | @blank c cs hc _ ih =>
    obtain ⟨g', hg', hturns⟩ := ih
    have hself : Turns (blankComments .code) [c] [c] :=
      keepsStrings_blankComments.turns_blanks fun d hd => List.mem_singleton.mp hd ▸ hc
    exact ⟨c :: g', List.forall_mem_cons.mpr ⟨hc, hg'⟩, hself.cons hturns⟩
  | @line body cs hbody _ ih =>
    obtain ⟨g', hg', hturns⟩ := ih
    refine ⟨' ' :: ' ' :: (body.flatMap Tolerant.blank ++ '\n' :: g'), ?_, fun rest => ?_⟩
    · simp only [Blanks, List.forall_mem_cons, List.forall_mem_append]
      exact ⟨rfl, rfl, blanks_flatMap_blank body, rfl, hg'⟩
    · simp only [List.cons_append, List.append_assoc]
      rw [blankComments, blankComments_line hbody, hturns]
  | @block body cs hbody _ ih =>
    obtain ⟨g', hg', hturns⟩ := ih
    refine ⟨' ' :: ' ' :: (body.flatMap Tolerant.blank ++ ' ' :: ' ' :: g'), ?_, fun rest => ?_⟩
    · simp only [Blanks, List.forall_mem_cons, List.forall_mem_append]
      exact ⟨rfl, rfl, blanks_flatMap_blank body, rfl, rfl, hg'⟩
    · simp only [List.cons_append, List.append_assoc]
      rw [blankComments, blankComments_block hbody, hturns]

/-! ## Exchanging gaps -/

/-- The characters that close a part: only the members of a group have one. -/
def closers : Part → List Char
  | .members close _ => [close]
  | _ => []

/-- A relation between texts that goes through a text piece by piece, exchanges the gaps and keeps the rest. -/
structure Carries (gap gap' : List Char → Prop) (R : List Char → List Char → Prop) : Prop where
  append {t t' u u' : List Char} : R t t' → R u u' → R (t ++ u) (t' ++ u')
  exchange {g : List Char} : gap g → ∃ g', gap' g' ∧ R g g'
  mark {c : Char} : c ∈ ['[', ']', '\x7b', '\x7d', ':', ','] → R [c] [c]
  scalar {l : List Char} : IsScalar l → R l l

/-- Such a relation carries a text over to a text of the same document. -/
theorem Carries.written {gap gap' : List Char → Prop} {R : List Char → List Char → Prop} (hR : Carries gap gap' R)
    {spare : Bool} {part : Part} {t : List Char} (h : Written gap spare part t)
    (hclosers : ∀ c ∈ closers part, c = ']' ∨ c = '\x7d') : ∃ t', Written gap' spare part t' ∧ R t t' := by
  have hclose {close : Char} {ms : List Json.Member} (h : ∀ c ∈ closers (.members close ms), c = ']' ∨ c = '\x7d') :
      R [close] [close] := by
    rcases h close List.mem_cons_self with rfl | rfl <;> exact hR.mark (by decide)
  induction h with
  | scalar hl => exact ⟨_, .scalar hl, hR.scalar hl⟩
  | array _ ih =>
    obtain ⟨t', ht', hRt⟩ := ih fun c hc => .inl (List.mem_singleton.mp hc)
    exact ⟨_, .array ht', hR.append (hR.mark (by decide)) hRt⟩
  | object _ ih =>
    obtain ⟨t', ht', hRt⟩ := ih fun c hc => .inr (List.mem_singleton.mp hc)
    exact ⟨_, .object ht', hR.append (hR.mark (by decide)) hRt⟩
  | item _ ih =>
    obtain ⟨t', ht', hRt⟩ := ih fun c hc => nomatch hc
    exact ⟨_, .item ht', hRt⟩
  | entry hbody hg₁ hg₂ _ ih =>
    obtain ⟨t', ht', hRt⟩ := ih fun c hc => nomatch hc
    obtain ⟨g₁', hg₁', hR₁⟩ := hR.exchange hg₁
    obtain ⟨g₂', hg₂', hR₂⟩ := hR.exchange hg₂
    have hkey := hR.scalar (.string hbody)
    have hcolon : R [':'] [':'] := hR.mark (by decide)
    have hfront := hR.append (hR.append (hR.append hkey hR₁) hcolon) hR₂
    exact ⟨_, .entry hbody hg₁' hg₂' ht', hR.append hfront hRt⟩
  | none hg =>
    obtain ⟨g', hg', hRg⟩ := hR.exchange hg
    exact ⟨_, .none hg', hR.append hRg (hclose hclosers)⟩
  | last hg₁ _ hg₂ ih =>
    obtain ⟨t', ht', hRt⟩ := ih fun c hc => nomatch hc
    obtain ⟨g₁', hg₁', hR₁⟩ := hR.exchange hg₁
    obtain ⟨g₂', hg₂', hR₂⟩ := hR.exchange hg₂
    exact ⟨_, .last hg₁' ht' hg₂', hR.append (hR.append (hR.append hR₁ hRt) hR₂) (hclose hclosers)⟩
  | spare hspare hg₁ _ hg₂ hg₃ ih =>
    obtain ⟨t', ht', hRt⟩ := ih fun c hc => nomatch hc
    obtain ⟨g₁', hg₁', hR₁⟩ := hR.exchange hg₁
    obtain ⟨g₂', hg₂', hR₂⟩ := hR.exchange hg₂
    obtain ⟨g₃', hg₃', hR₃⟩ := hR.exchange hg₃
    have hmember := hR.append (hR.append hR₁ hRt) hR₂
    exact ⟨_, .spare hspare hg₁' ht' hg₂' hg₃',
      hR.append (hR.append (hR.append hmember (hR.mark (by decide))) hR₃) (hclose hclosers)⟩
  | more hg₁ _ hg₂ hne _ ih ihs =>
    obtain ⟨t', ht', hRt⟩ := ih fun c hc => nomatch hc
    obtain ⟨ts', hts', hRts⟩ := ihs hclosers
    obtain ⟨g₁', hg₁', hR₁⟩ := hR.exchange hg₁
    obtain ⟨g₂', hg₂', hR₂⟩ := hR.exchange hg₂
    have hmember := hR.append (hR.append hR₁ hRt) hR₂
    exact ⟨_, .more hg₁' ht' hg₂' hne hts', hR.append (hR.append hmember (hR.mark (by decide))) hRts⟩
  | text hg₁ _ hg₂ ih =>
    obtain ⟨t', ht', hRt⟩ := ih fun c hc => nomatch hc
    obtain ⟨g₁', hg₁', hR₁⟩ := hR.exchange hg₁
    obtain ⟨g₂', hg₂', hR₂⟩ := hR.exchange hg₂
    exact ⟨_, .text hg₁' ht' hg₂', hR.append (hR.append hR₁ hRt) hR₂⟩

/-- No bracket and no separator begins a comment or a string. -/
theorem turns_mark {c : Char} (hc : c ∈ ['[', ']', '\x7b', '\x7d', ':', ',']) : Turns (blankComments .code) [c] [c] := by
  simp only [List.mem_cons, List.not_mem_nil, or_false] at hc
  rcases hc with rfl | rfl | rfl | rfl | rfl | rfl <;> exact keepsStrings_blankComments.plain (by decide) (by decide)

theorem carries_blankComments : Carries IsGap Blanks (Turns (blankComments .code)) where
  append := .append
  exchange := turns_gap
  mark := turns_mark
  scalar := keepsStrings_blankComments.turns_scalar

/-- A text without comments is kept. -/
theorem carries_strict : Carries Blanks Blanks fun t t' => t' = t ∧ Turns (blankComments .code) t t where
  append := by
    rintro t _ u _ ⟨rfl, h⟩ ⟨rfl, hu⟩
    exact ⟨rfl, h.append hu⟩
  exchange hg := ⟨_, hg, rfl, keepsStrings_blankComments.turns_blanks hg⟩
  mark hc := ⟨rfl, turns_mark hc⟩
  scalar hl := ⟨rfl, keepsStrings_blankComments.turns_scalar hl⟩

/-! ## Spare commas become blanks -/

theorem closesNext_append {g : List Char} (hg : Blanks g) (cs : List Char) : closesNext (g ++ cs) = closesNext cs := by
  induction g with
  | nil => rfl
  | cons c g ih =>
    rw [Blanks, List.forall_mem_cons] at hg
    have hgap : isGap c = true := by
      have hc := hg.1
      unfold isBlank at hc
      simp only [Bool.or_eq_true, decide_eq_true_eq] at hc
      rcases hc with ((rfl | rfl) | rfl) | rfl <;> decide
    rw [List.cons_append, closesNext_cons, if_pos hgap, ih hg.2]

theorem closesNext_of_opens {t : List Char} (h : Opens t) : closesNext t = false := by
  obtain ⟨c, cs, rfl, hc⟩ := h
  have hne {d : Char} (hd : opens d = false) : c ≠ d := Json.ne_of_opens hc hd
  have hfeed : c.toNat ≠ 12 := fun h => hne (d := Char.ofNat 12) (by decide) (by rw [← Char.ofNat_toNat c, h])
  rw [closesNext_cons]
  simp [isGap, hne (d := ' ') rfl, hne (d := '\t') rfl, hne (d := '\n') rfl, hne (d := '\r') rfl, hfeed,
    hne (d := '\x7d') rfl, hne (d := ']') rfl]

/-- A comma in front of a member is kept. -/
theorem turns_comma {t t' : List Char} (hopens : ∃ g u, Blanks g ∧ t = g ++ u ∧ Opens u)
    (h : Turns (blankCommas .code) t t') : Turns (blankCommas .code) ([','] ++ t) ([','] ++ t') := by
  intro rest
  obtain ⟨g, u, hg, rfl, hu⟩ := hopens
  have hnext : closesNext (g ++ u ++ rest) = false := by
    rw [List.append_assoc, closesNext_append hg, closesNext_of_opens (hu.append rest)]
  rw [List.append_assoc, List.singleton_append, blankCommas_code, hnext, Bool.and_false, if_neg Bool.false_ne_true,
    if_neg (by decide), h]
  rfl

/-- A comma in front of a bracket is blanked. -/
theorem turns_spare {g : List Char} (hg : Blanks g) {close : Char} (hclose : close = ']' ∨ close = '\x7d') :
    Turns (blankCommas .code) ([','] ++ g ++ [close]) ([' '] ++ g ++ [close]) := by
  intro rest
  have hnext : closesNext (g ++ close :: rest) = true := by
    rw [closesNext_append hg, closesNext_cons]
    rcases hclose with rfl | rfl <;> rfl
  have hkeep : Turns (blankCommas .code) (g ++ [close]) (g ++ [close]) := by
    refine (keepsStrings_blankCommas.turns_blanks hg).append (keepsStrings_blankCommas.copies ?_)
    rcases hclose with rfl | rfl <;> decide
  have htext (c : Char) : [c] ++ g ++ [close] ++ rest = c :: (g ++ close :: rest) := by simp
  rw [htext, blankCommas_code, hnext, Bool.and_true, decide_eq_true rfl, if_pos rfl, if_neg (by decide)]
  simpa using hkeep rest

/-- The second pass makes a strict text of one that has spare commas, and keeps one that has none. -/
theorem written_blankCommas {spare : Bool} {part : Part} {t : List Char} (h : Written Blanks spare part t)
    (hclosers : ∀ c ∈ closers part, c = ']' ∨ c = '\x7d') :
    ∃ t', Written Blanks false part t' ∧ Turns (blankCommas .code) t t' ∧ (spare = false → t' = t) := by
  have hmark {c : Char} (hc : c ∉ ['"', '/', ',']) : Turns (blankCommas .code) [c] [c] := keepsStrings_blankCommas.copies hc
  have hclose {close : Char} {ms : List Json.Member} (h : ∀ c ∈ closers (.members close ms), c = ']' ∨ c = '\x7d') :
      Turns (blankCommas .code) [close] [close] := by
    rcases h close List.mem_cons_self with rfl | rfl <;> exact hmark (by decide)
  have hgap {g : List Char} (hg : Blanks g) : Turns (blankCommas .code) g g := keepsStrings_blankCommas.turns_blanks hg
  induction h with
  | scalar hl => exact ⟨_, .scalar hl, keepsStrings_blankCommas.turns_scalar hl, fun _ => rfl⟩
  | array _ ih =>
    obtain ⟨t', ht', hturns, heq⟩ := ih fun c hc => .inl (List.mem_singleton.mp hc)
    exact ⟨_, .array ht', (hmark (by decide)).append hturns, fun hspare => by rw [heq hspare]⟩
  | object _ ih =>
    obtain ⟨t', ht', hturns, heq⟩ := ih fun c hc => .inr (List.mem_singleton.mp hc)
    exact ⟨_, .object ht', (hmark (by decide)).append hturns, fun hspare => by rw [heq hspare]⟩
  | item _ ih =>
    obtain ⟨t', ht', hturns, heq⟩ := ih fun c hc => nomatch hc
    exact ⟨_, .item ht', hturns, heq⟩
  | entry hbody hg₁ hg₂ _ ih =>
    obtain ⟨t', ht', hturns, heq⟩ := ih fun c hc => nomatch hc
    have hkey := (keepsStrings_blankCommas.turns_quoted hbody).append (hgap hg₁)
    exact ⟨_, .entry hbody hg₁ hg₂ ht', ((hkey.append (hmark (by decide))).append (hgap hg₂)).append hturns,
      fun hspare => by rw [heq hspare]⟩
  | none hg => exact ⟨_, .none hg, (hgap hg).append (hclose hclosers), fun _ => rfl⟩
  | last hg₁ _ hg₂ ih =>
    obtain ⟨t', ht', hturns, heq⟩ := ih fun c hc => nomatch hc
    exact ⟨_, .last hg₁ ht' hg₂, (((hgap hg₁).append hturns).append (hgap hg₂)).append (hclose hclosers),
      fun hspare => by rw [heq hspare]⟩
  | @spare close m g₁ t g₂ g₃ hspare hg₁ _ hg₂ hg₃ ih =>
    obtain ⟨t', ht', hturns, -⟩ := ih fun c hc => nomatch hc
    -- The comma becomes a part of the gap behind the member.
    have hg₂' : Blanks (g₂ ++ ' ' :: g₃) := by
      simp only [Blanks, List.forall_mem_append, List.forall_mem_cons]
      exact ⟨hg₂, rfl, hg₃⟩
    have hcomma := turns_spare hg₃ (hclosers close List.mem_cons_self)
    refine ⟨_, .last hg₁ ht' hg₂', ?_, fun h => nomatch hspare.symm.trans h⟩
    simpa using (((hgap hg₁).append hturns).append (hgap hg₂)).append hcomma
  | more hg₁ _ hg₂ hne hms ih ihs =>
    obtain ⟨t', ht', hturns, heq⟩ := ih fun c hc => nomatch hc
    obtain ⟨ts', hts', hturnss, heqs⟩ := ihs hclosers
    have hcomma := turns_comma (hms.opens_members hne) hturnss
    refine ⟨_, .more hg₁ ht' hg₂ hne hts', ?_, fun hspare => by rw [heq hspare, heqs hspare]⟩
    rw [List.append_assoc _ [','], List.append_assoc _ [',']]
    exact (((hgap hg₁).append hturns).append (hgap hg₂)).append hcomma
  | text hg₁ _ hg₂ ih =>
    obtain ⟨t', ht', hturns, heq⟩ := ih fun c hc => nomatch hc
    exact ⟨_, .text hg₁ ht' hg₂, ((hgap hg₁).append hturns).append (hgap hg₂), fun hspare => by rw [heq hspare]⟩

/-! ## Stripping -/

theorem toList_strip {text : String} {t t' : List Char} (hcomments : Turns (blankComments .code) text.toList t)
    (hcommas : Turns (blankCommas .code) t t') : (strip text).toList = t' := by
  have hfirst : blankComments .code text.toList = t := by simpa [blankComments] using hcomments []
  have hsecond : blankCommas .code t = t' := by simpa [blankCommas] using hcommas []
  rw [strip, String.toList_ofList, hfirst, hsecond]

/-- What is left of a tolerant text is a strict text of the same document. -/
theorem isStrict_strip {d : Document} {text : String} (h : IsTolerant d text) : IsStrict d (strip text) := by
  obtain ⟨t, ht, hcomments⟩ := carries_blankComments.written h fun c hc => nomatch hc
  obtain ⟨t', ht', hcommas, -⟩ := written_blankCommas ht fun c hc => nomatch hc
  rw [IsStrict, toList_strip hcomments hcommas]
  exact ht'

theorem strip_of_isStrict {d : Document} {text : String} (h : IsStrict d text) : strip text = text := by
  obtain ⟨_, -, rfl, hcomments⟩ := carries_strict.written h fun c hc => nomatch hc
  obtain ⟨t', -, hcommas, heq⟩ := written_blankCommas h fun c hc => nomatch hc
  have hlist : (strip text).toList = text.toList := by
    rw [toList_strip hcomments hcommas, heq rfl]
  exact String.toList_inj.mp hlist

/-- **Comments and spare commas have no meaning.** A scan of the bytes of any text makes a text again, with as many bytes
and with its line feeds where they were. A strict text stays as it is; every text that has a value is one. And every way
to write the document of a strict text with comments and spare commas reads like the strict text. -/
theorem strip_tolerates :
    (∀ text : String,
      String.fromUTF8? (stripBytes text.toByteArray.data.toList).toByteArray = some (strip text) ∧
        (strip text).utf8ByteSize = text.utf8ByteSize ∧
        ∀ i : Nat, (strip text).toByteArray.data[i]? = some 10 ↔ text.toByteArray.data[i]? = some 10) ∧
    (∀ (d : Document) (text : String), IsStrict d text → strip text = text) ∧
    (∀ (text : String) (v : Json), Json.parse text = .ok v → ∃ d, IsStrict d text) ∧
    ∀ (d : Document) (text text' : String), IsStrict d text → IsTolerant d text' →
      Json.parse (strip text') = Json.parse text := by
  refine ⟨fun text => ⟨fromUTF8?_stripBytes text, ?_, fun i => ?_⟩, fun d text h => strip_of_isStrict h,
    fun text v h => Json.isStrict_of_parse h, fun d text text' h h' => ?_⟩
  · simpa using (blanked_strip text).length_eq.symm
  · simpa only [Array.getElem?_toList] using lineFeed_iff_of_blanked (blanked_strip text) i
  · rw [Json.parse_of_isStrict h, Json.parse_of_isStrict (isStrict_strip h')]

/-- An array under a key. The key holds the begin of a comment, and its first item a comma in front of a bracket. -/
def list : Document :=
  .object [("a//b".toList, .array [.scalar (quoted ['x', ',', '\\', '"', ']']), .scalar ['1']])]

def strictList : String := "\x7b\"a//b\":[\"x,\\\"]\", 1]\x7d"

/-- Behind each of the spare commas stands a comment, and in the comments stands what has a meaning elsewhere. -/
def tolerantList : String :=
  "// \"é\", \x7b\n\x7b\"a//b\"/* , ] \" ** é */:[\"x,\\\"]\", 1 , // ]\n ],/**/\x7d"

theorem strip_tolerates_list :
    IsStrict list strictList ∧ IsTolerant list tolerantList ∧
      Json.parse (strip tolerantList) = Json.parse strictList := by
  have hkey : StringBody "a//b".toList :=
    .plain (by decide) (by decide) (by decide) <| .plain (by decide) (by decide) (by decide) <|
      .plain (by decide) (by decide) (by decide) <| .plain (by decide) (by decide) (by decide) .nil
  have hitem : StringBody ['x', ',', '\\', '"', ']'] :=
    .plain (by decide) (by decide) (by decide) <| .plain (by decide) (by decide) (by decide) <|
      .escape (by decide) <| .plain (by decide) (by decide) (by decide) .nil
  have hdigits : Json.IsDigits ['1'] := ⟨by decide, fun c hc => List.mem_singleton.mp hc ▸ rfl⟩
  have hfirst := IsScalar.string hitem
  have hsecond : IsScalar ['1'] := .number (.mk (.inl rfl) ⟨hdigits, fun _ => rfl⟩ (.inl rfl) (.inl rfl))
  have hstrict : IsStrict list strictList := by
    have hnone : Blanks [] := by decide
    have hspace : Blanks [' '] := by decide
    have hitems : Written Blanks false (.members ']' [.item _, .item _]) _ :=
      .more hnone (.item (.scalar hfirst)) hnone (List.cons_ne_nil _ _) (.last hspace (.item (.scalar hsecond)) hnone)
    have h : Written Blanks false (.text list) ([] ++ _ ++ []) :=
      .text hnone (.object (.last hnone (.entry hkey hnone hnone (.array hitems)) hnone)) hnone
    exact h
  have htolerant : IsTolerant list tolerantList := by
    have hspace : IsGap [' '] := .blank rfl .nil
    have hfront : IsGap ('/' :: '/' :: (" \"é\", \x7b".toList ++ ['\n'])) := .line (by decide) .nil
    have hbehindKey : IsGap ('/' :: '*' :: (" , ] \" ** é ".toList ++ ['*', '/'])) := .block (by decide +kernel) .nil
    have hbehindItems : IsGap (' ' :: '/' :: '/' :: (" ]".toList ++ ['\n', ' '])) := .blank rfl (.line (by decide) hspace)
    have hbehindEntry : IsGap ('/' :: '*' :: ([] ++ ['*', '/'])) := .block (by decide) .nil
    have hitems : Written IsGap true (.members ']' [.item _, .item _]) _ :=
      .more .nil (.item (.scalar hfirst)) .nil (List.cons_ne_nil _ _)
        (.spare rfl hspace (.item (.scalar hsecond)) hspace hbehindItems)
    have h : Written IsGap true (.text list) (_ ++ _ ++ []) :=
      .text hfront (.object (.spare rfl .nil (.entry hkey hbehindKey .nil (.array hitems)) .nil hbehindEntry)) .nil
    exact h
  exact ⟨hstrict, htolerant, strip_tolerates.2.2.2 _ _ _ hstrict htolerant⟩

end Tolerant

/-- Comments and spare commas in a project file make no other project. -/
theorem Project.ofText_of_isTolerant {d : Json.Document} {text text' : String} (h : Json.IsStrict d text)
    (h' : Tolerant.IsTolerant d text') (path : Path) (host : Host) : ofText text' path host = ofText text path host := by
  have hread (path : Path) : readObject text' path = readObject text path := by
    rw [readObject, readObject, Tolerant.strip_of_isStrict h, Json.parse_of_isStrict h,
      Json.parse_of_isStrict (Tolerant.isStrict_strip h')]
  simp only [ofText, hread]

end Recheck
