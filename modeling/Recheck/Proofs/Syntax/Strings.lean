import Recheck.Proofs.Syntax.Respacing
import Recheck.Syntax.Parser.Basic

/-!
# Strings as literals

A string is written between two quotes, with a backslash in front of what would not stand for itself there (`Quote.write`).
The scanner and the parser go over the escapes on their own: the scanner counts characters up to the quote that closes the
literal, the parser takes away what is first and last and resolves the rest. Both agree on every string, so each one is a
single token that is read back (`string_reads_back`).
-/

set_option autoImplicit false

namespace Recheck.Syntax

open Chars
open Recheck.Syntax.Parser

/-- The characters that a string literal can begin and end with. -/
inductive Quote where
  | single
  | double

namespace Quote

def char : Quote → Char
  | single => '\''
  | double => '"'

/-- What stands behind a backslash for a character that cannot stand for itself. -/
def letter? (q : Quote) (c : Char) : Option Char :=
  if c = '\\' then some '\\'
  else if c = q.char then some q.char
  else if c = '\n' then some 'n'
  else if c = '\r' then some 'r'
  else if c = '\t' then some 't'
  else if c = '\x00' then some '0'
  else none

def escape (q : Quote) (c : Char) : List Char :=
  match q.letter? c with
  | some letter => ['\\', letter]
  | none => [c]

/-- The literal of a string. -/
def write (q : Quote) (value : String) : List Char := q.char :: (value.toList.flatMap q.escape ++ [q.char])

variable {q : Quote} {c letter : Char} {cs : List Char}

theorem char_cases (q : Quote) : q.char = '"' ∨ q.char = '\'' := by
  cases q with
  | single => exact .inr rfl
  | double => exact .inl rfl

/-- What needs no escape does not disturb the scanner either. -/
theorem letter?_eq_none (h : q.letter? c = none) : c ≠ '\\' ∧ c ≠ '\n' ∧ c ≠ q.char := by
  refine ⟨?_, ?_, ?_⟩ <;> rintro rfl <;> cases q <;> simp [letter?, char] at h

theorem escape_letter (h : q.letter? c = some letter) : q.escape c = ['\\', letter] := by rw [escape, h]

theorem escape_plain (h : q.letter? c = none) : q.escape c = [c] := by rw [escape, h]

theorem quoted_escapes (q : Quote) (cs : List Char) :
    quoted q.char (cs.flatMap q.escape ++ [q.char]) = ((cs.flatMap q.escape).length + 1, true) := by
  induction cs with
  | nil => cases q <;> rfl
  | cons c cs ih =>
    rw [List.flatMap_cons, List.append_assoc]
    cases h : q.letter? c with
    | some letter =>
      rw [escape_letter h, List.cons_append, List.cons_append, List.nil_append, quoted_escape, ih]
      rfl
    | none =>
      obtain ⟨hslash, hline, hquote⟩ := letter?_eq_none h
      rw [escape_plain h, List.singleton_append, quoted_cons hslash, if_neg hline, if_neg hquote, ih]
      rfl

/-! ## Resolving escapes -/

theorem unescape_cons (hc : c ≠ '\\') (cs : List Char) : unescape (c :: cs) = c :: unescape cs := by
  rw [unescape] <;> intros <;> exact hc ‹_›

/-- Each escape stands for the character that it was written for. -/
theorem unescape_letter (h : q.letter? c = some letter) (cs : List Char) :
    unescape ('\\' :: letter :: cs) = c :: unescape cs := by
  unfold letter? at h
  split_ifs at h with hslash hquote hline hreturn htab hzero <;> cases h
  · rw [hslash]
    rfl
  · rw [hquote]
    cases q <;> rfl
  · rw [hline]
    rfl
  · rw [hreturn]
    rfl
  · rw [htab]
    rfl
  · rw [hzero]
    rfl

theorem unescape_escapes (q : Quote) (cs : List Char) : unescape (cs.flatMap q.escape) = cs := by
  induction cs with
  | nil => rfl
  | cons c cs ih =>
    rw [List.flatMap_cons]
    cases h : q.letter? c with
    | some letter => rw [escape_letter h, List.cons_append, List.singleton_append, unescape_letter h, ih]
    | none => rw [escape_plain h, List.singleton_append, unescape_cons (letter?_eq_none h).1, ih]

/-- The quotes are taken away, whatever stands between them. -/
theorem unquote_enclosed (q : Quote) (inner : List Char) :
    unquote (String.ofList (q.char :: (inner ++ [q.char]))) = String.ofList (unescape inner) := by
  have hlast : (inner ++ [q.char]).getLast?.map Char.utf8Size = some 1 := by
    rw [List.getLast?_concat]
    cases q <;> rfl
  unfold unquote
  rw [String.toList_ofList, List.drop_one, List.tail_cons]
  split
  next hnil => exact absurd hnil (by simp)
  next => rw [if_pos hlast, List.dropLast_concat]

theorem unquote_write (q : Quote) (value : String) : unquote (String.ofList (q.write value)) = value := by
  rw [write, unquote_enclosed, unescape_escapes, String.ofList_toList]

end Quote

/-! ## Literals -/

theorem lex_write (q : Quote) (value : String) :
    lex (String.ofList (q.write value)) = oneToken .stringLiteral (q.write value) := by
  have hgap : gap (q.write value) = ⟨0, false, none⟩ := by
    refine (gap_token_iff _ _).mpr ?_
    cases q <;> exact ⟨by decide, by simp [Quote.char]⟩
  apply lex_oneToken hgap
  rw [scan_string q.char_cases, q.quoted_escapes, List.length_append]
  rfl

/-- A literal that is the current token is read, and nothing else happens. -/
theorem expectString_run {s : State} {t : Token} {rest : List Token} (hrest : s.rest = t :: rest)
    (hkind : t.kind = .stringLiteral) :
    expectString s = (⟨unquote t.text, t.span⟩, { s with rest := rest, previous := some t.span }) := by
  have hat : s.kindAt 0 = .stringLiteral := by simp [State.kindAt, hrest, hkind]
  have hadvance : s.advance = { s with rest := rest, previous := some t.span } := by
    rw [State.advance, hrest]
    exact if_neg (by rw [hkind]; decide)
  change (if decide (s.kindAt 0 = .stringLiteral) then _ else _ : Parse StringLiteral) s = _
  rw [if_pos (decide_eq_true hat)]
  change (StringLiteral.mk (unquote (s.textAt 0)) s.span, s.advance) = _
  rw [hadvance]
  simp [State.textAt, State.span, hrest]

/-- Every string is the value of its literal, which is one token. -/
theorem string_reads_back (q : Quote) (value : String) :
    let text := q.write value
    lex (String.ofList text) = oneToken .stringLiteral text ∧
      ∃ after : State, expectString (.ofTokens (lex (String.ofList text)).tokens) = (⟨value, ⟨0, byteLength text⟩⟩, after) ∧
        after.rest = (lex (String.ofList text)).tokens.drop 1 ∧ after.reports = [] := by
  intro text
  have hlex : lex (String.ofList text) = oneToken .stringLiteral text := lex_write q value
  refine ⟨hlex, ?_⟩
  rw [hlex]
  have hread := expectString_run (s := .ofTokens (oneToken .stringLiteral text).tokens) rfl rfl
  rw [q.unquote_write value] at hread
  exact ⟨_, hread, rfl, rfl⟩

example : String.ofList (Quote.single.write "it's \"\\\"\n") = "'it\\'s \"\\\\\"\\n'" := by decide

end Recheck.Syntax
