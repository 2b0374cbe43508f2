import Mathlib.Data.List.Basic
import Recheck.Proofs.Text.Lines
import Recheck.Syntax.Lexer

/-!
# Nothing of a text is lost

The characters of a text are gaps and tokens in turn (`Tiles`), so every character belongs to exactly one of them. What
may stand in a gap is said without the scanner: blanks, comments up to the end of their line, and comments that close
(`IsGap`); only behind the last token a comment may run to the end of the text (`IsLastGap`). `gap_cases` is the one
place where the scanner of gaps is opened.
-/

set_option autoImplicit false

namespace Recheck

namespace Syntax

open Chars

/-! ## Gaps -/

/-- What may stand in front of a token. -/
inductive IsGap : List Char → Prop where
  | nil : IsGap []
  | blank {c : Char} {cs : List Char} : isBlank c → IsGap cs → IsGap (c :: cs)
  | line {body cs : List Char} : '\n' ∉ body → IsGap cs → IsGap ('/' :: '/' :: body ++ '\n' :: cs)
  | block {body cs : List Char} : ¬ ['*', '/'] <:+: body ++ ['*'] → IsGap cs →
      IsGap ('/' :: '*' :: body ++ '*' :: '/' :: cs)

/-- What may stand behind the last token. The number says how many bytes stand in front of a comment that is not
closed. -/
inductive IsLastGap : List Char → Option Nat → Prop where
  | closed {cs : List Char} : IsGap cs → IsLastGap cs none
  | line {cs body : List Char} : IsGap cs → '\n' ∉ body → IsLastGap (cs ++ '/' :: '/' :: body) none
  | block {cs body : List Char} : IsGap cs → ¬ ['*', '/'] <:+: body →
      IsLastGap (cs ++ '/' :: '*' :: body) (some (byteLength cs))

theorem IsGap.append {a b : List Char} (ha : IsGap a) (hb : IsGap b) : IsGap (a ++ b) := by
  induction ha with
  | nil => exact hb
  | blank hc _ ih => exact .blank hc ih
  | line hbody _ ih => rw [List.append_assoc]; exact .line hbody ih
  | block hbody _ ih => rw [List.append_assoc]; exact .block hbody ih

theorem IsGap.append_last {a b : List Char} {o : Option Nat} (ha : IsGap a) (hb : IsLastGap b o) :
    IsLastGap (a ++ b) (o.map (byteLength a + ·)) := by
  cases hb with
  | closed hb => exact .closed (ha.append hb)
  | line hb hbody => rw [← List.append_assoc]; exact .line (ha.append hb) hbody
  | block hb hbody =>
    rw [← List.append_assoc, Option.map_some, ← byteLength_append]
    exact .block (ha.append hb) hbody

/-- A run ends at a character that does not belong to it. -/
theorem runLength_spec (p : Char → Bool) (cs : List Char) :
    ∃ a b, cs = a ++ b ∧ runLength p cs = a.length ∧ (∀ c ∈ a, p c) ∧ ∀ c ∈ b.head?, p c = false := by
  refine ⟨cs.takeWhile p, cs.dropWhile p, List.takeWhile_append_dropWhile.symm, rfl, fun c hc => ?_, fun c hc => ?_⟩
  · exact List.all_eq_true.mp List.all_takeWhile c hc
  · have := List.head?_dropWhile_not p cs
    rw [Option.mem_def.mp hc] at this
    simpa using this

theorem blockComment_spec (cs : List Char) :
    (∃ body tail, cs = body ++ '*' :: '/' :: tail ∧ blockComment cs = (body.length + 2, true) ∧
        ¬ ['*', '/'] <:+: body ++ ['*']) ∨
      (blockComment cs = (cs.length, false) ∧ ¬ ['*', '/'] <:+: cs) := by
  induction cs with
  | nil => exact .inr ⟨rfl, by simp⟩
  | cons c cs ih =>
    by_cases hclose : c = '*' ∧ cs.head? = some '/'
    · obtain ⟨rfl, hcs⟩ := hclose
      obtain ⟨tail, rfl⟩ := List.head?_eq_some_iff.mp hcs
      exact .inl ⟨[], tail, rfl, rfl, by decide⟩
    have hstep : blockComment (c :: cs) = ((blockComment cs).1 + 1, (blockComment cs).2) := by
      rw [blockComment]
      rintro tail rfl rfl
      exact hclose ⟨rfl, rfl⟩
    have hfront (rest : List Char) (hrest : rest.head? = some '/' → cs.head? = some '/')
        (hno : ¬ ['*', '/'] <:+: rest) : ¬ ['*', '/'] <:+: c :: rest := by
      rw [List.infix_cons_iff]
      rintro (⟨t, ht⟩ | hin)
      · obtain ⟨rfl, rfl⟩ := List.cons.inj ht
        exact hclose ⟨rfl, hrest rfl⟩
      · exact hno hin
    rcases ih with ⟨body, tail, rfl, hrun, hbody⟩ | ⟨hrun, hno⟩
    · refine .inl ⟨c :: body, tail, rfl, by rw [hstep, hrun]; rfl, hfront _ (fun h => ?_) hbody⟩
      cases body with
      | nil => exact nomatch h
      | cons d body => exact h
    · exact .inr ⟨by rw [hstep, hrun]; rfl, hfront _ id hno⟩

namespace Gap

@[simp] theorem behind_behind (g : Gap) (m n : Nat) (p q : Bool) :
    (g.behind n q).behind m p = g.behind (m + n) (p || q) := by
  simp [behind, Function.comp_def, Nat.add_assoc, Bool.or_assoc]

end Gap

theorem any_newline (cs : List Char) : (cs.any fun c => decide (c = '\n')) = decide ('\n' ∈ cs) := by
  rw [Bool.eq_iff_iff]
  simp

theorem gap_blank {c : Char} (h : isBlank c) (cs : List Char) :
    gap (c :: cs) = (gap cs).behind 1 ('\n' ∈ [c]) := by
  rw [gap, if_pos h]
  simp [eq_comm]

theorem gap_line {body tail : List Char} (h : runLength (· ≠ '\n') (body ++ tail) = body.length) :
    gap ('/' :: '/' :: (body ++ tail)) = (gap tail).behind (body.length + 2) false := by
  have hlen : runLength (· ≠ '\n') ('/' :: (body ++ tail)) = body.length + 1 := congrArg (· + 1) h
  rw [gap, if_neg (by decide), if_pos (by simp)]
  dsimp only
  rw [hlen, List.drop_succ_cons, List.drop_left]

theorem gap_block {body tail : List Char}
    (h : blockComment (body ++ '*' :: '/' :: tail) = (body.length + 2, true)) :
    gap ('/' :: '*' :: (body ++ '*' :: '/' :: tail)) = (gap tail).behind (body.length + 4) ('\n' ∈ body) := by
  have hcomment : blockComment (('*' :: (body ++ '*' :: '/' :: tail)).drop 1) = (body.length + 2, true) := h
  have hsplit : '*' :: (body ++ '*' :: '/' :: tail) = '*' :: (body ++ ['*', '/']) ++ tail := by simp
  have hlen : body.length + 2 + 1 = ('*' :: (body ++ ['*', '/'])).length := by simp
  rw [gap, if_neg (by decide), if_neg (by simp), if_pos (by simp), hcomment]
  dsimp only
  rw [if_pos rfl, hsplit, hlen, List.take_left, List.drop_left]
  congr 1
  simp [any_newline]

theorem gap_open {rest : List Char} (h : blockComment rest = (rest.length, false)) :
    gap ('/' :: '*' :: rest) = ⟨rest.length + 2, '\n' ∈ rest, some 0⟩ := by
  have hcomment : blockComment (('*' :: rest).drop 1) = (rest.length, false) := h
  rw [gap, if_neg (by decide), if_neg (by simp), if_pos (by simp), hcomment]
  simp [any_newline]

/-- Either a gap begins with a finished piece, or there is none, or it takes all that is left. -/
theorem gap_cases (cs : List Char) :
    (∃ piece tail, cs = piece ++ tail ∧ piece ≠ [] ∧ IsGap piece ∧
        gap cs = (gap tail).behind piece.length ('\n' ∈ piece)) ∨
      gap cs = ⟨0, false, none⟩ ∨
      ∃ o : Option Nat, gap cs = ⟨cs.length, '\n' ∈ cs, o⟩ ∧ IsLastGap cs (o.map fun n => byteLength (cs.take n)) := by
  cases cs with
  | nil => exact .inr (.inl (by rw [gap]))
  | cons c cs =>
    by_cases hblank : isBlank c
    · exact .inl ⟨[c], cs, rfl, List.cons_ne_nil _ _, .blank hblank .nil, gap_blank hblank cs⟩
    by_cases hline : (c = '/' && cs.head? = some '/') = true
    · obtain ⟨rfl, hcs⟩ : c = '/' ∧ cs.head? = some '/' := by simpa using hline
      obtain ⟨rest, rfl⟩ := List.head?_eq_some_iff.mp hcs
      obtain ⟨body, tail, rfl, hrun, hbody, htail⟩ := runLength_spec (· ≠ '\n') rest
      have hbody : '\n' ∉ body := fun h => by simpa using hbody _ h
      cases tail with
      | nil =>
        refine .inr (.inr ⟨none, ?_, ?_⟩)
        · rw [gap_line hrun, gap]
          simp [Gap.behind, hbody]
        · rw [List.append_nil]
          exact .line .nil hbody
      | cons d tail =>
        obtain rfl : d = '\n' := by simpa using htail d rfl
        refine .inl ⟨'/' :: '/' :: body ++ ['\n'], tail, by simp, by simp, .line hbody .nil, ?_⟩
        rw [gap_line hrun, gap_blank (by decide)]
        simp
    by_cases hblock : (c = '/' && cs.head? = some '*') = true
    · obtain ⟨rfl, hcs⟩ : c = '/' ∧ cs.head? = some '*' := by simpa using hblock
      obtain ⟨rest, rfl⟩ := List.head?_eq_some_iff.mp hcs
      rcases blockComment_spec rest with ⟨body, tail, rfl, hrun, hbody⟩ | ⟨hrun, hno⟩
      · refine .inl ⟨'/' :: '*' :: body ++ ['*', '/'], tail, by simp, by simp, .block hbody .nil, ?_⟩
        rw [gap_block hrun]
        simp
      · refine .inr (.inr ⟨some 0, ?_, .block .nil hno⟩)
        rw [gap_open hrun]
        simp
    · exact .inr (.inl (by rw [gap, if_neg hblank, if_neg hline, if_neg hblock]))

/-- What the scanner of gaps takes, if something is left and if not. -/
structure Gap.Splits (g : Gap) (cs : List Char) : Prop where
  length_le : g.length ≤ cs.length
  newline : g.newline = decide ('\n' ∈ cs.take g.length)
  between : cs.drop g.length ≠ [] → IsGap (cs.take g.length) ∧ g.openAt = none
  last : cs.drop g.length = [] → IsLastGap cs (g.openAt.map fun n => byteLength (cs.take n))

theorem Gap.Splits.behind {g : Gap} {piece tail : List Char} (h : g.Splits tail) (hpiece : IsGap piece) :
    (g.behind piece.length ('\n' ∈ piece)).Splits (piece ++ tail) where
  length_le := by simpa [Gap.behind] using h.length_le
  newline := by simp [Gap.behind, List.take_length_add_append, h.newline]
  between hne := by
    simp only [Gap.behind, List.take_length_add_append, List.drop_length_add_append] at hne ⊢
    obtain ⟨hgap, hopen⟩ := h.between hne
    exact ⟨hpiece.append hgap, by rw [hopen]; rfl⟩
  last hnil := by
    simp only [Gap.behind, List.drop_length_add_append] at hnil ⊢
    simpa [Function.comp_def, List.take_length_add_append] using hpiece.append_last (h.last hnil)

theorem splits_gap (cs : List Char) : (gap cs).Splits cs := by
  induction hn : cs.length using Nat.strongRecOn generalizing cs with
  | _ n ih =>
    subst hn
    rcases gap_cases cs with ⟨piece, tail, rfl, hne, hpiece, hgap⟩ | hgap | ⟨o, hgap, hlast⟩
    · have hpos := List.length_pos_iff.mpr hne
      rw [hgap]
      exact .behind (ih tail.length (by simp; omega) tail rfl) hpiece
    · rw [hgap]
      refine ⟨Nat.zero_le _, by simp, fun _ => ⟨.nil, rfl⟩, fun h => ?_⟩
      obtain rfl : cs = [] := h
      exact .closed .nil
    · rw [hgap]
      exact ⟨Nat.le_refl _, by simp, fun h => absurd List.drop_length h, fun _ => hlast⟩

/-! ## Tokens -/

theorem ofWord?_ne_eof {word : String} {kind : TokenKind} (h : TokenKind.ofWord? word = some kind) : kind ≠ .eof := by
  obtain ⟨before, after, hsplit, -⟩ := List.lookup_eq_some_iff.mp h
  have hall : ∀ entry ∈ TokenKind.reserved, entry.2 ≠ .eof := by decide
  exact hall (word, kind) (hsplit ▸ List.mem_append_right _ List.mem_cons_self)

theorem punctuation_ne_eof (cs : List Char) : (punctuation cs).1 ≠ .eof := by
  unfold punctuation
  split <;> first | decide | (split <;> decide)

theorem scan_ne_eof (c : Char) (cs : List Char) : (scan c cs).kind ≠ .eof := by
  unfold scan
  dsimp only
  split
  · cases h : TokenKind.ofWord? (String.ofList ((c :: cs).take (1 + runLength isNamePart cs))) with
    | none => exact nofun
    | some kind => exact ofWord?_ne_eof h
  · split
    · exact nofun
    · split
      · exact nofun
      · split
        · exact nofun
        · exact punctuation_ne_eof _

/-- A comment that is not closed is no fault of a token. -/
theorem scan_fault_ne (c : Char) (cs : List Char) : (scan c cs).fault ≠ some .openComment := by
  unfold scan
  dsimp only
  split
  · exact nofun
  · split
    · exact nofun
    · split
      · split <;> exact nofun
      · split
        · split <;> exact nofun
        · split <;> exact nofun

/-- From a byte offset on, the characters are gaps and tokens in turn, up to the end of the text. The last argument is
where a comment begins that is not closed. -/
inductive Tiles : Nat → List Char → List Token → Option Nat → Prop where
  | done {offset : Nat} {cs : List Char} {o : Option Nat} : IsLastGap cs o →
      Tiles offset cs [⟨.eof, ⟨offset + byteLength cs, offset + byteLength cs⟩, true, ""⟩] (o.map (offset + ·))
  | token {offset : Nat} {front text rest : List Char} {kind : TokenKind} {tokens : List Token} {o : Option Nat} :
      IsGap front → kind ≠ .eof → text ≠ [] →
      Tiles (offset + byteLength front + byteLength text) rest tokens o →
      Tiles offset (front ++ text ++ rest)
        (⟨kind, ⟨offset + byteLength front, offset + byteLength front + byteLength text⟩, '\n' ∈ front,
          String.ofList text⟩ :: tokens) o

theorem tiles_lexFrom (offset : Nat) (cs : List Char) :
    ∃ o : Option Nat, Tiles offset cs (lexFrom offset cs).tokens o ∧
      (lexFrom offset cs).reports.filter (·.fault = .openComment) =
        (o.map fun n => ⟨.openComment, ⟨n, offset + byteLength cs⟩⟩).toList := by
  induction hn : cs.length using Nat.strongRecOn generalizing offset cs with
  | _ n ih =>
    subst hn
    have hsplits := splits_gap cs
    rw [lexFrom]
    split
    next hrest =>
      have hlast := hsplits.last hrest
      rw [List.take_of_length_le (List.drop_eq_nil_iff.mp hrest)]
      refine ⟨_, .done hlast, ?_⟩
      cases (gap cs).openAt <;> rfl
    next d ds hrest =>
      obtain ⟨hgap, hopen⟩ := hsplits.between (by rw [hrest]; exact List.cons_ne_nil _ _)
      have hpos := scan_pos d ds
      have htext : (d :: ds).take (scan d ds).length ≠ [] := by
        rw [Ne, List.take_eq_nil_iff]
        simp
        omega
      have hcs : cs = cs.take (gap cs).length ++ (d :: ds).take (scan d ds).length ++
          (d :: ds).drop (scan d ds).length := by
        rw [List.append_assoc, List.take_append_drop, ← hrest, List.take_append_drop]
      have hlen := congrArg List.length hcs
      obtain ⟨o, htiles, hreports⟩ := ih ((d :: ds).drop (scan d ds).length).length
        (by rw [hlen]; have := List.length_pos_iff.mpr htext; simp only [List.length_append]; omega)
        (offset + byteLength (cs.take (gap cs).length) + byteLength ((d :: ds).take (scan d ds).length)) _ rfl
      refine ⟨o, ?_, ?_⟩
      · dsimp only
        rw [hsplits.newline]
        have := Tiles.token hgap (scan_ne_eof d ds) htext htiles
        rw [← hcs] at this
        exact this
      · dsimp only
        have hfound : ((scan d ds).fault.toList.map fun fault => (⟨fault, ⟨offset + byteLength (cs.take (gap cs).length),
            offset + byteLength (cs.take (gap cs).length) +
              byteLength ((d :: ds).take (scan d ds).length)⟩⟩ : Report)).filter (·.fault = .openComment) = [] := by
          cases h : (scan d ds).fault with
          | none => rfl
          | some fault => simpa using fun h' => scan_fault_ne d ds (h.trans (congrArg some h'))
        have hend := congrArg byteLength hcs
        simp only [byteLength_append] at hend
        rw [hopen, List.nil_append, List.filter_append, hfound, List.nil_append, hreports, hend]
        simp only [Nat.add_assoc]

/-! ## The whole text -/

/-- Where the last of some tokens ends; without one, where they would begin. -/
def stopOf (offset : Nat) (before : List Token) : Nat := (before.getLast?.map (·.span.stop)).getD offset

theorem stopOf_cons (offset : Nat) (t : Token) (before : List Token) :
    stopOf offset (t :: before) = stopOf t.span.stop before := by
  rw [stopOf, stopOf, List.getLast?_cons]
  cases before.getLast? <;> rfl

/-- The tokens in front of the end lie one behind the other in the text, and what stands between them are gaps. -/
structure Covers (text : List Char) (offset : Nat) (body : List Token) (o : Option Nat) : Prop where
  behind : ∀ t ∈ body, offset ≤ t.span.start
  token : ∀ t ∈ body, t.kind ≠ .eof ∧ t.span.start < t.span.stop ∧
    slice? t.span.start t.span.stop text = some t.text.toList
  ordered : body.Pairwise fun t u => t.span.stop ≤ u.span.start
  front : ∀ before t after, body = before ++ t :: after →
    ∃ cs, slice? (stopOf offset before) t.span.start text = some cs ∧ IsGap cs ∧ (t.newlineBefore ↔ '\n' ∈ cs)
  last : ∃ cs k, slice? (stopOf offset body) (byteLength text) text = some cs ∧ IsLastGap cs k ∧
    o = k.map (stopOf offset body + ·)

theorem Tiles.covers {offset : Nat} {cs : List Char} {tokens : List Token} {o : Option Nat}
    (h : Tiles offset cs tokens o) (before : List Char) (hoffset : offset = byteLength before) :
    ∃ body, tokens = body ++ [⟨.eof, ⟨byteLength (before ++ cs), byteLength (before ++ cs)⟩, true, ""⟩] ∧
      Covers (before ++ cs) offset body o := by
  induction h generalizing before with
  | @done offset cs o hlast =>
    subst hoffset
    refine ⟨[], by rw [byteLength_append]; rfl, nofun, nofun, .nil, by simp, cs, _, ?_, hlast, rfl⟩
    have := slice?_byteLength before cs []
    rwa [List.append_nil, ← byteLength_append] at this
  | @token offset front text rest kind tokens o hgap hkind htext _ ih =>
    subst hoffset
    obtain ⟨body, rfl, hbody⟩ := ih (before ++ front ++ text) (by simp [Nat.add_assoc])
    have hpos := byteLength_pos htext
    have hsplit : before ++ front ++ text ++ rest = before ++ (front ++ text ++ rest) := by simp
    rw [hsplit] at hbody ⊢
    refine ⟨_ :: body, rfl, ?_, ?_, ?_, ?_, ?_⟩
    · rintro t (_ | ⟨_, ht⟩)
      · exact Nat.le_add_right ..
      · have := hbody.behind t ht
        omega
    · rintro t (_ | ⟨_, ht⟩)
      · refine ⟨hkind, Nat.lt_add_of_pos_right hpos, ?_⟩
        have := slice?_byteLength (before ++ front) text rest
        rw [byteLength_append, List.append_assoc before front text, List.append_assoc before] at this
        rw [this, String.toList_ofList]
      · exact hbody.token t ht
    · exact .cons hbody.behind hbody.ordered
    · intro earlier t after hsplit
      cases earlier with
      | nil =>
        obtain ⟨rfl, rfl⟩ := List.cons.inj hsplit
        refine ⟨front, ?_, hgap, by simp⟩
        have := slice?_byteLength before front (text ++ rest)
        rwa [List.append_assoc, ← List.append_assoc front] at this
      | cons first earlier =>
        obtain ⟨rfl, rfl⟩ := List.cons.inj hsplit
        rw [stopOf_cons]
        exact hbody.front earlier t after rfl
    · rw [stopOf_cons]
      exact hbody.last

/-- Every character of a text belongs to one token or to one gap. -/
theorem lex_lossless (text : String) :
    let n := byteLength text.toList
    ∃ body o, (lex text).tokens = body ++ [⟨.eof, ⟨n, n⟩, true, ""⟩] ∧ Covers text.toList 0 body o ∧
      (lex text).reports.filter (·.fault = .openComment) = (o.map fun k => ⟨.openComment, ⟨k, n⟩⟩).toList := by
  obtain ⟨o, htiles, hreports⟩ := tiles_lexFrom 0 text.toList
  obtain ⟨body, htokens, hcovers⟩ := htiles.covers [] rfl
  rw [Nat.zero_add] at hreports
  exact ⟨body, o, htokens, hcovers, hreports⟩

end Syntax

end Recheck
