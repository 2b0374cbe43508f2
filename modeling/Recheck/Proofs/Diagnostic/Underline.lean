import Mathlib.Data.List.DropRight
import Recheck.Diagnostic.Render
import Recheck.Proofs.Text.Positions

/-!
# Underlined spans

The underline of a frame begins in the column of the position, which is counted in UTF-16 units, so it stands under the
span (`units_indent`). It has a tilde for each byte of a span that is printed (`tildes_of_printed`), so it is never too
short, but it is as long as the span is wide only where bytes and units are as many, that is in ASCII
(`units_eq_byteLength_iff`). What stands in front of the span matters as soon as the span runs into line ends that are not
printed: the bytes of the line are then counted from a column in units. `render_underlines` has all of this.
-/

set_option autoImplicit false

namespace Recheck

namespace Chars

/-! ## Units and bytes -/

/-- Only characters that take one byte each. -/
def IsAscii (cs : List Char) : Prop := ∀ c ∈ cs, c.toNat < 0x80

instance (cs : List Char) : Decidable (IsAscii cs) := List.decidableBAll _ cs

variable {a b cs : List Char}

theorem isAscii_append : IsAscii (a ++ b) ↔ IsAscii a ∧ IsAscii b := List.forall_mem_append

/-- An ASCII character takes a unit and a byte; any other one takes more bytes than units. -/
theorem units_singleton (c : Char) :
    c.toNat < 0x80 ∧ units [c] = 1 ∧ c.utf8Size = 1 ∨ 0x80 ≤ c.toNat ∧ units [c] < c.utf8Size := by
  have htoNat : c.toNat = c.val.toNat := rfl
  simp only [units, Char.utf8Size, UInt32.le_iff_toNat_le, UInt32.toNat_ofNatLT, htoNat]
  split_ifs <;> omega

theorem units_cons (c : Char) (cs : List Char) : units (c :: cs) = units [c] + units cs := rfl

theorem units_le_byteLength (cs : List Char) : units cs ≤ byteLength cs := by
  induction cs with
  | nil => exact Nat.le_refl 0
  | cons c cs ih =>
    have hc := units_singleton c
    rw [units_cons, byteLength_cons]
    omega

theorem units_eq_byteLength_iff : units cs = byteLength cs ↔ IsAscii cs := by
  induction cs with
  | nil => exact iff_of_true rfl (List.forall_mem_nil _)
  | cons c cs ih =>
    have hc := units_singleton c
    have hcs := units_le_byteLength cs
    rw [IsAscii, List.forall_mem_cons, ← IsAscii, ← ih, units_cons, byteLength_cons]
    omega

theorem units_eq_length (h : IsAscii cs) : units cs = cs.length := by
  induction cs with
  | nil => rfl
  | cons c cs ih =>
    rw [IsAscii, List.forall_mem_cons] at h
    have hc := units_singleton c
    rw [units_cons, ih h.2, List.length_cons]
    omega

end Chars

namespace Diagnostic

open Chars

variable {front body back : List Char}

/-! ## The frame as text -/

/-- What stands in front of the line in a frame. -/
def margin (number : Nat) : String := toString number ++ " | "

/-- What stands in front of the underline. -/
def indent (number column : Nat) : String :=
  String.ofList (List.replicate (toString number).length ' ') ++ " | " ++ String.ofList (List.replicate column ' ')

/-- A line behind its number, and below it an underline that begins in a column, counted from 0. -/
def excerpt (number : Nat) (shown : List Char) (column width : Nat) : String :=
  "\n\n" ++ margin number ++ String.ofList shown ++ "\n" ++ indent number column ++
    String.ofList (List.replicate width '~')

theorem frame_eq (span : Span) (pos : LineCol) (shown : List Char) :
    frame span pos shown = excerpt pos.line shown (pos.character - 1) (underlineWidth span pos shown) := by
  simp only [frame, excerpt, margin, indent, String.append_assoc]

theorem isAscii_toString (n : Nat) : IsAscii (toString n).toList := by
  intro c hc
  rw [Nat.toString_eq_repr, Nat.toList_repr] at hc
  have hdigit := Nat.isDigit_of_mem_toDigits (by decide) (by decide) hc
  simp only [Char.isDigit, Bool.and_eq_true, decide_eq_true_eq, UInt32.le_iff_toNat_le] at hdigit
  exact Nat.lt_of_le_of_lt hdigit.2 (by decide)

theorem isAscii_replicate (n : Nat) : IsAscii (List.replicate n ' ') := by
  intro c hc
  rw [List.eq_of_mem_replicate hc]
  decide

/-- The underline begins below what stands behind `front`. -/
theorem units_indent (number : Nat) (front : List Char) :
    units (indent number (units front)).toList = units ((margin number).toList ++ front) := by
  simp only [indent, margin, String.toList_append, String.toList_ofList, units_append,
    units_eq_length (isAscii_replicate _), units_eq_length (isAscii_toString _), List.length_replicate,
    String.length_toList]

theorem not_mem_indent (number column : Nat) : '~' ∉ (indent number column).toList := by
  simp [indent]

/-! ## How long the underline is -/

/-- What is printed of a line that is made of three parts. -/
def shownOf (front body back : List Char) : List Char := trimEnd Source.isLineEnd (front ++ body ++ back)

/-- What is not printed of a line are line ends. -/
theorem isAscii_cut {line cut : List Char} (h : line = trimEnd Source.isLineEnd line ++ cut) : IsAscii cut := by
  have hends : trimEnd Source.isLineEnd line ++ line.rtakeWhile Source.isLineEnd = line := List.rdropWhile_append_rtakeWhile
  have hcut : cut = line.rtakeWhile Source.isLineEnd := List.append_cancel_left (h.symm.trans hends.symm)
  intro c hc
  rw [hcut] at hc
  have hend : Source.isLineEnd c = true := List.mem_rtakeWhile_imp hc
  rw [Source.isLineEnd, Bool.or_eq_true, decide_eq_true_eq, decide_eq_true_eq] at hend
  rcases hend with rfl | rfl <;> decide

/-- Either a part of a line is printed up to its end, or what is not printed of it are line ends. -/
theorem shownOf_cases (front body back : List Char) :
    front ++ body <+: shownOf front body back ∨
      ¬front ++ body <+: shownOf front body back ∧
        ∃ cut, cut ≠ [] ∧ IsAscii cut ∧ front ++ body = shownOf front body back ++ cut := by
  have hshown : shownOf front body back <+: front ++ body ++ back := List.rdropWhile_prefix _ _
  rcases List.prefix_or_prefix_of_prefix (List.prefix_append (front ++ body) back) hshown with h | ⟨cut, hcut⟩
  · exact .inl h
  by_cases hprinted : front ++ body <+: shownOf front body back
  · exact .inl hprinted
  · refine .inr ⟨hprinted, cut, ?_, ?_, hcut.symm⟩
    · rintro rfl
      rw [List.append_nil] at hcut
      exact hprinted (hcut ▸ List.prefix_refl _)
    · -- The line ends that are cut off go on behind the part.
      have hrest : front ++ body ++ back = shownOf front body back ++ (cut ++ back) := by
        rw [← List.append_assoc, hcut]
      exact (isAscii_append.mp (isAscii_cut hrest)).1

/-- The columns that a span takes, cut where the printed line ends, and at least one. -/
def columns (front body back : List Char) : Nat :=
  max 1 (min (units body) (units (shownOf front body back) - units front))

/-- The tildes that are printed below it. -/
def tildes (front body back : List Char) : Nat :=
  max 1 (min (byteLength body) (byteLength (shownOf front body back) - units front))

theorem columns_le (front body back : List Char) :
    columns front body back ≤ max 1 (units (shownOf front body back) - units front) := by
  unfold columns
  omega

theorem columns_le_tildes (front body back : List Char) : columns front body back ≤ tildes front body back := by
  have hbody := units_le_byteLength body
  have hshown := units_le_byteLength (shownOf front body back)
  unfold columns tildes
  omega

/-- A span that is printed takes the columns of its units. -/
theorem columns_of_printed (h : front ++ body <+: shownOf front body back) :
    columns front body back = max 1 (units body) := by
  obtain ⟨tail, htail⟩ := h
  have hunits := congrArg units htail
  rw [units_append, units_append] at hunits
  unfold columns
  omega

/-- A span that is printed has a tilde for each byte. -/
theorem tildes_of_printed (h : front ++ body <+: shownOf front body back) :
    tildes front body back = max 1 (byteLength body) := by
  obtain ⟨tail, htail⟩ := h
  have hbytes := congrArg byteLength htail
  have hfront := units_le_byteLength front
  rw [byteLength_append, byteLength_append] at hbytes
  unfold tildes
  omega

/-- The underline is as long as it should be if it is a single tilde, or if the span is in ASCII and is printed up to its
end or has only ASCII in front of it too. -/
theorem tildes_eq_columns_iff (front body back : List Char) :
    tildes front body back = columns front body back ↔
      tildes front body back = 1 ∨
        IsAscii body ∧ (front ++ body <+: shownOf front body back ∨ IsAscii front) := by
  have hbody := units_le_byteLength body
  rw [← units_eq_byteLength_iff, ← units_eq_byteLength_iff]
  rcases shownOf_cases front body back with hprinted | ⟨hprinted, cut, hcut, hascii, hsplit⟩
  · simp only [tildes_of_printed hprinted, columns_of_printed hprinted, hprinted, true_or, and_true]
    omega
  · -- What the text in front takes in bytes above its units makes room for tildes below line ends that are cut off.
    simp only [hprinted, false_or]
    have hunits := congrArg units hsplit
    have hbytes := congrArg byteLength hsplit
    have hfront := units_le_byteLength front
    have hshown := units_le_byteLength (shownOf front body back)
    have hcut := units_pos hcut
    rw [units_append, units_append] at hunits
    rw [byteLength_append, byteLength_append, ← units_eq_byteLength_iff.mpr hascii] at hbytes
    unfold tildes columns
    omega

theorem ends_of_exact (hexact : tildes front body back = columns front body back)
    (hcolumn : units front < units (shownOf front body back)) :
    units front + tildes front body back ≤ units (shownOf front body back) := by
  have hcut := columns_le front body back
  omega

/-! ## Located diagnostics -/

/-- Where a part of a line stands in the text, behind the lines above and what is in front of it on its line. -/
def spanOn (s : Source) (k : Nat) (front body : List Char) : Span :=
  let start := byteLength ((s.lines.take k).flatten ++ front)
  ⟨start, start + byteLength body⟩

variable {s : Source} {k : Nat}

theorem position_located (d : Diagnostic) (hline : s.lines[k]? = some (front ++ body ++ back)) (hfront : '\n' ∉ front) :
    (d.locate s (spanOn s k front body)).position = some ⟨k + 1, units front + 1⟩ := by
  rw [List.append_assoc] at hline
  exact congrArg some (Source.lineCol_onLine hline hfront)

theorem lineText_eq_shownOf (hline : s.lines[k]? = some (front ++ body ++ back)) :
    s.lineText (k + 1) = some (shownOf front body back) := by
  rw [Source.lineText, if_neg (Nat.succ_ne_zero k), Nat.add_sub_cancel, hline]
  rfl

theorem underlineWidth_spanOn (s : Source) (k : Nat) (front body back : List Char) :
    underlineWidth (spanOn s k front body) ⟨k + 1, units front + 1⟩ (shownOf front body back) = tildes front body back := by
  have hlength : (spanOn s k front body).length = byteLength body := Nat.add_sub_cancel_left ..
  rw [underlineWidth, hlength, Nat.add_sub_cancel, tildes]

theorem render_located (d : Diagnostic) (hline : s.lines[k]? = some (front ++ body ++ back)) (hfront : '\n' ∉ front) :
    (d.locate s (spanOn s k front body)).render .codeframe (some s) =
      (d.locate s (spanOn s k front body)).renderMessage ++
        excerpt (k + 1) (shownOf front body back) (units front) (tildes front body back) := by
  have hframe := frame_eq (spanOn s k front body) ⟨k + 1, units front + 1⟩ (shownOf front body back)
  rw [underlineWidth_spanOn] at hframe
  simp only [render, position_located d hline hfront, lineText_eq_shownOf hline]
  exact congrArg (_ ++ ·) hframe

/-- **A frame shows the line and underlines the span below it, from below its first character on. A span that is printed
has a tilde for each byte. So the underline is never shorter than the span is wide, and it has a tilde for each column if and
only if it is a single one, or the span is in ASCII and is printed up to its end or has only ASCII in front of it. Then it
ends where the line ends at the latest, unless nothing of the span is printed.** -/
theorem render_underlines (d : Diagnostic) (hline : s.lines[k]? = some (front ++ body ++ back)) (hfront : '\n' ∉ front) :
    let located := d.locate s (spanOn s k front body)
    let shown := shownOf front body back
    let width := tildes front body back
    located.render .codeframe (some s) = located.renderMessage ++ excerpt (k + 1) shown (units front) width ∧
      (units (indent (k + 1) (units front)).toList = units ((margin (k + 1)).toList ++ front) ∧
        '~' ∉ (indent (k + 1) (units front)).toList) ∧
      (front ++ body <+: shown → width = max 1 (byteLength body)) ∧
      columns front body back ≤ width ∧
      (width = columns front body back ↔
        width = 1 ∨ IsAscii body ∧ (front ++ body <+: shown ∨ IsAscii front)) ∧
      (width = columns front body back → units front < units shown → units front + width ≤ units shown) := by
  intro located shown width
  have hframe : located.render .codeframe (some s) = located.renderMessage ++ excerpt (k + 1) shown (units front) width :=
    render_located d hline hfront
  have hbegins : units (indent (k + 1) (units front)).toList = units ((margin (k + 1)).toList ++ front) ∧
      '~' ∉ (indent (k + 1) (units front)).toList :=
    ⟨units_indent (k + 1) front, not_mem_indent (k + 1) (units front)⟩
  exact ⟨hframe, hbegins, tildes_of_printed, columns_le_tildes front body back, tildes_eq_columns_iff front body back,
    ends_of_exact⟩

/-- An error without a place. -/
def mismatch : Diagnostic := .ofMessage .error 2322 "Type 'number' is not assignable to type 'string'."

/-- A comment of four bytes and two units in front of the span on the second line. -/
def commented : Source := ⟨⟨"/a.ts"⟩, "export {};\r\n/*😀*/ let s: string = 1;\r\n"⟩

theorem render_underlines_commented :
    let front := "/*😀*/ let s: ".toList
    let body := "string".toList
    let back := " = 1;\r\n".toList
    let located := mismatch.locate commented (spanOn commented 1 front body)
    (commented.lines[1]? = some (front ++ body ++ back) ∧ '\n' ∉ front) ∧
      located.render .codeframe (some commented) =
        located.renderMessage ++ "\n\n2 | /*😀*/ let s: string = 1;\n  |               ~~~~~~" ∧
      tildes front body back = columns front body back := by
  intro front body back located
  have hline : commented.lines[1]? = some (front ++ body ++ back) := by decide +kernel
  have hfront : '\n' ∉ front := by decide +kernel
  obtain ⟨hframe, -, -, -, hexact, -⟩ := render_underlines mismatch hline hfront
  have hexcerpt : excerpt 2 (shownOf front body back) (units front) (tildes front body back) =
      "\n\n2 | /*😀*/ let s: string = 1;\n  |               ~~~~~~" := by decide +kernel
  have hascii : IsAscii body := by decide +kernel
  have hprinted : front ++ body <+: shownOf front body back := ⟨" = 1;".toList, by decide +kernel⟩
  exact ⟨⟨hline, hfront⟩, hframe.trans (congrArg (_ ++ ·) hexcerpt), hexact.mpr (.inr ⟨hascii, .inl hprinted⟩)⟩

/-- A name of one unit and two bytes. -/
def accented : Source := ⟨⟨"/a.ts"⟩, "let é: string = 42;"⟩

/-- The name takes one column and gets two tildes. -/
theorem underlines_bytes :
    let front := "let ".toList
    let back := ": string = 42;".toList
    let located := mismatch.locate accented (spanOn accented 0 front ['é'])
    accented.lines[0]? = some (front ++ ['é'] ++ back) ∧ '\n' ∉ front ∧ columns front ['é'] back = 1 ∧
      located.render .codeframe (some accented) = located.renderMessage ++ "\n\n1 | let é: string = 42;\n  |     ~~" := by
  decide +kernel

end Diagnostic

end Recheck
