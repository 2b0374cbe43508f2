import Recheck.Proofs.Syntax.Lexing

/-!
# Spelling words

What a token says is its word: all of the token but its place. A text that is put together from pieces has the words of the
pieces, as long as no piece runs on into the next one. So each kind of word has a lemma that says what may follow it.
-/

set_option autoImplicit false

namespace Recheck.Syntax

open Chars

/-- What a token says, wherever it stands. -/
structure Word where
  kind : TokenKind
  newline : Bool
  text : String
deriving DecidableEq

def Token.word (t : Token) : Word := ⟨t.kind, t.newlineBefore, t.text⟩

namespace Word

/-- A word in the middle of a line. -/
def inLine (kind : TokenKind) (text : String) : Word := ⟨kind, false, text⟩

/-- The end of the text. -/
def last : Word := ⟨.eof, true, ""⟩

abbrev lParen : Word := .inLine .lParen "("
abbrev rParen : Word := .inLine .rParen ")"
abbrev lBracket : Word := .inLine .lBracket "["
abbrev rBracket : Word := .inLine .rBracket "]"
abbrev lBrace : Word := .inLine .lBrace "\x7b"
abbrev rBrace : Word := .inLine .rBrace "\x7d"
abbrev comma : Word := .inLine .comma ","
abbrev colon : Word := .inLine .colon ":"
abbrev semicolon : Word := .inLine .semicolon ";"
abbrev question : Word := .inLine .question "?"
abbrev pipe : Word := .inLine .pipe "|"
abbrev arrow : Word := .inLine .arrow "=>"
abbrev minus : Word := .inLine .minus "-"

def enclosed (inParens : Bool) (words : List Word) : List Word :=
  if inParens then lParen :: words ++ [rParen] else words

/-- The words of some parts with a separator between them. -/
def join (separator : Word) : List (List Word) → List Word
  | [] => []
  | [words] => words
  | words :: rest => words ++ separator :: join separator rest

theorem join_cons (separator : Word) (words : List Word) (rest : List (List Word)) :
    join separator (words :: rest) = words ++ rest.flatMap (separator :: ·) := by
  induction rest generalizing words with
  | nil => exact (List.append_nil words).symm
  | cons next rest ih => rw [List.flatMap_cons, List.cons_append, ← ih]; rfl

theorem length_le_flatMap {ι : Type} (f : ι → List Word) {x : ι} {xs : List ι} (h : x ∈ xs) :
    (f x).length ≤ (xs.flatMap f).length := by
  rw [List.flatMap_def]
  exact (List.sublist_flatten_of_mem (List.mem_map_of_mem h)).length_le

/-- No part is longer than all together. -/
theorem length_le_join (separator : Word) {words : List Word} {parts : List (List Word)} (h : words ∈ parts) :
    words.length ≤ (join separator parts).length := by
  cases parts with
  | nil => exact nomatch h
  | cons first rest =>
    rw [join_cons, List.length_append]
    rcases List.mem_cons.mp h with rfl | h
    · exact Nat.le_add_right _ _
    · have := length_le_flatMap (separator :: ·) h
      rw [List.length_cons] at this
      omega

end Word

/-! ## One token -/

/-- What the lexer says about the gap at the front of the characters from a byte offset on. -/
def gapReports (offset : Nat) (cs : List Char) : List Report :=
  match (gap cs).openAt with
  | none => []
  | some n => [⟨.openComment, ⟨offset + byteLength (cs.take n), offset + byteLength (cs.take (gap cs).length)⟩⟩]

theorem lexFrom_end {cs : List Char} (h : cs.drop (gap cs).length = []) (offset : Nat) :
    lexFrom offset cs =
      let stop := offset + byteLength (cs.take (gap cs).length)
      ⟨[⟨.eof, ⟨stop, stop⟩, true, ""⟩], gapReports offset cs⟩ := by
  rw [lexFrom]
  split
  next => rfl
  next d ds h' => exact nomatch h.symm.trans h'

theorem lexFrom_scan {cs : List Char} {d : Char} {ds : List Char} (h : cs.drop (gap cs).length = d :: ds) (offset : Nat) :
    lexFrom offset cs =
      let start := offset + byteLength (cs.take (gap cs).length)
      let text := (d :: ds).take (scan d ds).length
      let rest := lexFrom (start + byteLength text) ((d :: ds).drop (scan d ds).length)
      ⟨⟨(scan d ds).kind, ⟨start, start + byteLength text⟩, (gap cs).newline, String.ofList text⟩ :: rest.tokens,
        gapReports offset cs ++ (scan d ds).fault.toList.map (⟨·, ⟨start, start + byteLength text⟩⟩) ++ rest.reports⟩ := by
  rw [lexFrom]
  split
  next h' => exact nomatch h.symm.trans h'
  next d' ds' h' =>
    cases h.symm.trans h'
    rfl

theorem lexFrom_nil (offset : Nat) : (lexFrom offset []).tokens.map Token.word = [.last] ∧ (lexFrom offset []).reports = [] := by
  rw [lexFrom_end (by rw [gap]; rfl), gapReports, gap]
  exact ⟨rfl, rfl⟩

theorem lexFrom_blank (offset : Nat) (cs : List Char) : lexFrom offset (' ' :: cs) = lexFrom (offset + 1) cs := by
  have hgap : gap (' ' :: cs) = ⟨(gap cs).length + 1, (gap cs).newline, (gap cs).openAt.map (· + 1)⟩ := by
    rw [gap_blank (by decide), Gap.behind, Nat.add_comm 1]
    simp only [Nat.add_comm 1]
    rfl
  have hplace (n : Nat) : offset + byteLength ((' ' :: cs).take (n + 1)) = offset + 1 + byteLength (cs.take n) := by
    rw [List.take_succ_cons, byteLength_cons, Nat.add_assoc]
    rfl
  have hreports : gapReports offset (' ' :: cs) = gapReports (offset + 1) cs := by
    rw [gapReports, gapReports, hgap]
    cases (gap cs).openAt with
    | none => rfl
    | some n => simp only [Option.map_some, hplace]
  have hdrop : (' ' :: cs).drop (gap (' ' :: cs)).length = cs.drop (gap cs).length := by rw [hgap, List.drop_succ_cons]
  cases h : cs.drop (gap cs).length with
  | nil => rw [lexFrom_end h, lexFrom_end (hdrop.trans h), hreports, hgap]; simp only [hplace]
  | cons d ds => rw [lexFrom_scan h, lexFrom_scan (hdrop.trans h), hreports, hgap]; simp only [hplace]

theorem lexFrom_token {c : Char} {cs rest : List Char} {kind : TokenKind} (hgap : gap (c :: (cs ++ rest)) = ⟨0, false, none⟩)
    (hscan : scan c (cs ++ rest) = ⟨kind, cs.length + 1, none⟩) (offset : Nat) :
    lexFrom offset (c :: cs ++ rest) =
      ⟨⟨kind, ⟨offset, offset + byteLength (c :: cs)⟩, false, String.ofList (c :: cs)⟩ ::
          (lexFrom (offset + byteLength (c :: cs)) rest).tokens,
        (lexFrom (offset + byteLength (c :: cs)) rest).reports⟩ := by
  have htake : (c :: (cs ++ rest)).take (cs.length + 1) = c :: cs := by rw [List.take_succ_cons, List.take_left]
  have hdrop : (c :: (cs ++ rest)).drop (cs.length + 1) = rest := by rw [List.drop_succ_cons, List.drop_left]
  rw [List.cons_append, lexFrom_scan (by rw [hgap]; rfl), gapReports, hgap]
  simp only [hscan, htake, hdrop]
  rfl

/-- What the lexer makes of a text that is a single token. -/
def oneToken (kind : TokenKind) (text : List Char) : Lexed :=
  ⟨[⟨kind, ⟨0, byteLength text⟩, false, String.ofList text⟩, ⟨.eof, ⟨byteLength text, byteLength text⟩, true, ""⟩], []⟩

theorem lex_oneToken {c : Char} {cs : List Char} {kind : TokenKind} (hgap : gap (c :: cs) = ⟨0, false, none⟩)
    (hscan : scan c cs = ⟨kind, cs.length + 1, none⟩) : lex (String.ofList (c :: cs)) = oneToken kind (c :: cs) := by
  rw [← List.append_nil cs] at hgap hscan
  have hnil : gap [] = ⟨0, false, none⟩ := by rw [gap]
  have hend (offset : Nat) : lexFrom offset [] = ⟨[⟨.eof, ⟨offset, offset⟩, true, ""⟩], []⟩ := by
    rw [lexFrom_end (by rw [hnil]; rfl), gapReports, hnil]
    rfl
  have htoken := lexFrom_token hgap (by rwa [List.append_nil cs] at hscan ⊢) 0
  rw [List.append_nil, hend, Nat.zero_add] at htoken
  rw [lex, String.toList_ofList, htoken, oneToken]

/-! ## Pieces of a text -/

/-- In front of the other characters, the first ones are lexed as these words. -/
def Spells (cs : List Char) (words : List Word) (rest : List Char) : Prop :=
  ∀ offset, ∃ tokens stop, tokens.map Token.word = words ∧
    lexFrom offset (cs ++ rest) = ⟨tokens ++ (lexFrom stop rest).tokens, (lexFrom stop rest).reports⟩

namespace Spells

variable {cs ds rest : List Char} {words others : List Word} {c : Char} {kind : TokenKind}

theorem nil : Spells [] [] rest := fun offset => ⟨[], offset, rfl, rfl⟩

theorem append (h : Spells cs words (ds ++ rest)) (h' : Spells ds others rest) : Spells (cs ++ ds) (words ++ others) rest := by
  intro offset
  obtain ⟨tokens, stop, hwords, hlex⟩ := h offset
  obtain ⟨tokens', stop', hothers, hlex'⟩ := h' stop
  refine ⟨tokens ++ tokens', stop', by rw [List.map_append, hwords, hothers], ?_⟩
  rw [List.append_assoc, hlex, hlex', List.append_assoc]

theorem blank (h : Spells cs words rest) : Spells (' ' :: cs) words rest := by
  intro offset
  obtain ⟨tokens, stop, hwords, hlex⟩ := h (offset + 1)
  exact ⟨tokens, stop, hwords, by rw [List.cons_append, lexFrom_blank, hlex]⟩

theorem token (hgap : gap (c :: (cs ++ rest)) = ⟨0, false, none⟩) (hscan : scan c (cs ++ rest) = ⟨kind, cs.length + 1, none⟩) :
    Spells (c :: cs) [.inLine kind (String.ofList (c :: cs))] rest := by
  intro offset
  exact ⟨[_], offset + byteLength (c :: cs), rfl, lexFrom_token hgap hscan offset⟩

theorem word (hblank : isBlank c = false) (hslash : c ≠ '/') (hscan : scan c (cs ++ rest) = ⟨kind, cs.length + 1, none⟩) :
    Spells (c :: cs) [.inLine kind (String.ofList (c :: cs))] rest := by
  apply token _ hscan
  rw [gap, if_neg (by simp [hblank]), if_neg (by simp [hslash]), if_neg (by simp [hslash])]

/-- A text that ends with its words has no faults, and its words are these and the last one. -/
theorem lex {text : String} (h : Spells text.toList words []) :
    (lex text).tokens.map Token.word = words ++ [.last] ∧ (lex text).reports = [] := by
  obtain ⟨tokens, stop, hwords, hlex⟩ := h 0
  obtain ⟨hlast, hreports⟩ := lexFrom_nil stop
  rw [List.append_nil] at hlex
  rw [Syntax.lex, hlex, List.map_append, hwords, hlast]
  exact ⟨rfl, hreports⟩

end Spells

/-! ## What may follow a word -/

/-- The characters that stand behind words. -/
def delimiters : List Char := [' ', '\t', '\n', '\x0c', '\r', ',', ';', ':', '?', ')', '[', ']']

def isDelimiter (c : Char) : Bool := c ∈ delimiters

/-- What follows begins with a delimiter, if anything follows. -/
def Delimited (rest : List Char) : Prop := ∀ c ∈ rest.head?, isDelimiter c

theorem Delimited.nil : Delimited [] := nofun

theorem Delimited.cons {c : Char} (h : isDelimiter c) (rest : List Char) : Delimited (c :: rest) := by
  rintro d ⟨⟩
  exact h

section

variable {rest : List Char}

theorem Delimited.stops {p : Char → Bool} (h : Delimited rest)
    (hp : delimiters.all fun c => !p c) : ∀ c ∈ rest.head?, p c = false :=
  fun c hc => Bool.not_eq_true' _ ▸ List.all_eq_true.mp hp c (of_decide_eq_true (h c hc))

theorem runLength_append {p : Char → Bool} (hrest : ∀ c ∈ rest.head?, p c = false) (cs : List Char) :
    runLength p (cs ++ rest) = runLength p cs := by
  unfold runLength
  induction cs with
  | nil =>
    cases rest with
    | nil => rfl
    | cons d rest => rw [List.nil_append, List.takeWhile_cons, hrest d rfl]; rfl
  | cons c cs ih =>
    rw [List.cons_append, List.takeWhile_cons, List.takeWhile_cons]
    cases p c with
    | true => exact congrArg (· + 1) ih
    | false => rfl

theorem runLength_all {p : Char → Bool} {cs : List Char} (h : cs.all p) : runLength p cs = cs.length := by
  unfold runLength
  induction cs with
  | nil => rfl
  | cons c cs ih =>
    obtain ⟨hc, hcs⟩ := Bool.and_eq_true_iff.mp h
    rw [List.takeWhile_cons_of_pos hc, List.length_cons, ih hcs, List.length_cons]

/-! ## Names -/

/-- The kind of a word of letters. -/
def wordKind (name : String) : TokenKind := (TokenKind.ofWord? name).getD .identifier

def Word.named (name : String) : Word := .inLine (wordKind name) name

/-- A text that is a word of letters. -/
def isWord (name : String) : Bool :=
  match name.toList with
  | [] => false
  | c :: cs => isNameStart c && cs.all isNamePart

/-- A word that can be a name. -/
def isIdentifier (name : String) : Bool := isWord name && wordKind name = .identifier

/-- A word is a name or reserved. -/
theorem wordKind_mem (name : String) : wordKind name ∈ .identifier :: TokenKind.reserved.map (·.2) := by
  unfold wordKind
  cases h : TokenKind.ofWord? name with
  | none => exact List.mem_cons_self
  | some kind =>
    obtain ⟨before, after, hsplit, -⟩ := List.lookup_eq_some_iff.mp h
    have hmem : (name, kind) ∈ TokenKind.reserved := hsplit ▸ List.mem_append_right _ List.mem_cons_self
    exact List.mem_cons_of_mem _ (List.mem_map_of_mem hmem)

theorem not_blank_of_isNameStart {c : Char} (h : isNameStart c) : isBlank c = false ∧ c ≠ '/' := by
  refine ⟨?_, by rintro rfl; exact nomatch h⟩
  by_contra hblank
  simp only [isBlank, Bool.not_eq_false, Bool.or_eq_true, decide_eq_true_eq] at hblank
  rcases hblank with (((rfl | rfl) | rfl) | rfl) | rfl <;> exact nomatch h

theorem Spells.name {name : String} (hname : isWord name) (hrest : Delimited rest) :
    Spells name.toList [.named name] rest := by
  unfold isWord at hname
  cases hcs : name.toList with
  | nil => rw [hcs] at hname; exact nomatch hname
  | cons c cs =>
    rw [hcs] at hname
    obtain ⟨hstart, hpart⟩ := Bool.and_eq_true_iff.mp hname
    obtain ⟨hblank, hslash⟩ := not_blank_of_isNameStart hstart
    obtain rfl : name = String.ofList (c :: cs) := by rw [← hcs, String.ofList_toList]
    refine .word hblank hslash ?_
    have hlength : runLength isNamePart (cs ++ rest) = cs.length := by
      rw [runLength_append (hrest.stops (by decide)), runLength_all hpart]
    have htake : (c :: (cs ++ rest)).take (cs.length + 1) = c :: cs := by rw [List.take_succ_cons, List.take_left]
    rw [scan, if_pos hstart]
    simp only [hlength, Nat.add_comm 1, htake]
    rfl

/-! ## Numbers -/

/-- A text that is one number. -/
def isNumeral (text : String) : Bool :=
  match text.toList with
  | [] => false
  | c :: cs => scan c cs = ⟨.numberLiteral, cs.length + 1, none⟩

theorem exponentLength_cons (e s : Char) (cs : List Char) :
    exponentLength (e :: s :: cs) =
      if e = 'e' || e = 'E' then
        if s = '+' || s = '-' then if runLength isDigit cs = 0 then 0 else runLength isDigit cs + 2
        else if runLength isDigit (s :: cs) = 0 then 0 else runLength isDigit (s :: cs) + 1
      else 0 := by
  cases h : runLength isDigit cs <;> cases h' : runLength isDigit (s :: cs) <;> simp only [exponentLength, h, h'] <;> rfl

theorem exponentLength_append (hrest : Delimited rest) (cs : List Char) :
    exponentLength (cs ++ rest) = exponentLength cs := by
  have hdigit := hrest.stops (p := isDigit) (by decide)
  have hmark := hrest.stops (p := fun c => c = 'e' || c = 'E') (by decide)
  have hsign := hrest.stops (p := fun c => c = '+' || c = '-') (by decide)
  match cs with
  | [] =>
    match rest with
    | [] => rfl
    | [c] => rfl
    | e :: s :: rest =>
      rw [List.nil_append, exponentLength_cons, hmark e rfl]
      rfl
  | [e] =>
    match rest with
    | [] => rfl
    | s :: rest =>
      have hrun : runLength isDigit (s :: rest) = 0 := runLength_append hdigit []
      rw [List.singleton_append, exponentLength_cons, hsign s rfl, hrun]
      split <;> rfl
  | e :: s :: cs =>
    have hcons : runLength isDigit (s :: (cs ++ rest)) = runLength isDigit (s :: cs) := runLength_append hdigit (s :: cs)
    rw [List.cons_append, List.cons_append, exponentLength_cons, exponentLength_cons, runLength_append hdigit, hcons]

theorem fractionLength_cons {c : Char} (hc : c ≠ '.') (cs : List Char) : fractionLength (c :: cs) = 0 := by
  unfold fractionLength
  split
  next h => exact absurd (List.cons.inj h).1 hc
  next h => exact absurd (List.cons.inj h).1 hc
  next => rfl

theorem fractionLength_point {c : Char} (hc : c ≠ '.') (cs : List Char) :
    fractionLength ('.' :: c :: cs) = 1 + runLength isDigitOrUnderscore (c :: cs) := by
  rw [fractionLength]
  rintro cs' h
  exact hc (List.cons.inj h).1

theorem fractionLength_append (hrest : Delimited rest) (cs : List Char) :
    fractionLength (cs ++ rest) = fractionLength cs := by
  have hdigit := hrest.stops (p := isDigitOrUnderscore) (by decide)
  have hpoint := hrest.stops (p := (· = '.')) (by decide)
  match cs with
  | [] =>
    match rest with
    | [] => rfl
    | c :: rest => exact fractionLength_cons (by simpa using hpoint c rfl) rest
  | c :: cs =>
    by_cases hc : c = '.'
    · subst hc
      match cs with
      | [] =>
        match rest with
        | [] => rfl
        | d :: rest =>
          rw [List.singleton_append, fractionLength_point (by simpa using hpoint d rfl)]
          exact congrArg (1 + ·) (runLength_append hdigit [])
      | d :: cs =>
        by_cases hd : d = '.'
        · subst hd
          rfl
        · rw [List.cons_append, List.cons_append, fractionLength_point hd, fractionLength_point hd]
          exact congrArg (1 + ·) (runLength_append hdigit (d :: cs))
    · rw [List.cons_append, fractionLength_cons hc, fractionLength_cons hc]

theorem runLength_le (p : Char → Bool) (cs : List Char) : runLength p cs ≤ cs.length := List.takeWhile_sublist p |>.length_le

theorem fractionLength_le (cs : List Char) : fractionLength cs ≤ cs.length := by
  unfold fractionLength
  split
  · exact Nat.zero_le _
  next tail _ =>
    have := runLength_le isDigitOrUnderscore tail
    rw [List.length_cons]
    omega
  · exact Nat.zero_le _

theorem exponentLength_le (cs : List Char) : exponentLength cs ≤ cs.length := by
  match cs with
  | [] => exact Nat.zero_le _
  | [_] => exact Nat.zero_le _
  | e :: s :: cs =>
    have := runLength_le isDigit cs
    have := runLength_le isDigit (s :: cs)
    rw [exponentLength_cons]
    simp only [List.length_cons] at this ⊢
    split_ifs <;> omega

theorem decimalLength_append (hrest : Delimited rest) (cs : List Char) :
    decimalLength (cs ++ rest) = decimalLength cs := by
  have hdigit := hrest.stops (p := isDigitOrUnderscore) (by decide)
  have hsuffix := hrest.stops (p := (· = 'n')) (by decide)
  have hhead (xs : List Char) : ((xs ++ rest).head? = some 'n') = (xs.head? = some 'n') := by
    cases xs with
    | nil => exact propext ⟨fun h => by simpa using hsuffix 'n' h, nofun⟩
    | cons x xs => rfl
  -- Each part ends within the number, so what follows is still there behind it.
  obtain ⟨whole, hwhole⟩ : ∃ n, runLength isDigitOrUnderscore cs = n := ⟨_, rfl⟩
  obtain ⟨fraction, hfraction⟩ : ∃ n, fractionLength (cs.drop whole) = n := ⟨_, rfl⟩
  obtain ⟨exponent, hexponent⟩ : ∃ n, exponentLength (cs.drop (whole + fraction)) = n := ⟨_, rfl⟩
  have h₁ : whole ≤ cs.length := hwhole ▸ runLength_le isDigitOrUnderscore cs
  have h₂ : fraction ≤ (cs.drop whole).length := hfraction ▸ fractionLength_le _
  have h₃ : exponent ≤ (cs.drop (whole + fraction)).length := hexponent ▸ exponentLength_le _
  rw [List.length_drop] at h₂ h₃
  simp only [decimalLength, runLength_append hdigit, hwhole]
  rw [List.drop_append_of_le_length h₁, fractionLength_append hrest, hfraction,
    List.drop_append_of_le_length (i := whole + fraction) (by omega), exponentLength_append hrest, hexponent,
    List.drop_append_of_le_length (by omega)]
  simp only [hhead]

theorem numberLength_cons {c : Char} {cs : List Char} (h : c = '0' → ∀ mark ∈ cs.head?, isRadixMark mark = false) :
    numberLength (c :: cs) = decimalLength (c :: cs) := by
  unfold numberLength
  split
  next mark tail heq =>
    obtain ⟨rfl, rfl⟩ := List.cons.inj heq
    exact if_neg (by simp [h rfl mark rfl])
  next => rfl

theorem numberLength_append (hrest : Delimited rest) (c : Char) (cs : List Char) :
    numberLength (c :: cs ++ rest) = numberLength (c :: cs) := by
  have hradix := hrest.stops (p := isRadixDigit) (by decide)
  have hmark := hrest.stops (p := isRadixMark) (by decide)
  have decimal (h : c = '0' → ∀ mark ∈ cs.head?, isRadixMark mark = false) :
      numberLength (c :: cs ++ rest) = numberLength (c :: cs) := by
    rw [numberLength_cons h, ← decimalLength_append hrest, List.cons_append]
    refine numberLength_cons fun hc mark hm => ?_
    cases cs with
    | nil => exact hmark mark hm
    | cons d cs => exact h hc mark hm
  cases cs with
  | nil => exact decimal fun _ => nofun
  | cons mark cs =>
    by_cases h : c = '0' ∧ isRadixMark mark = true
    · obtain ⟨rfl, hm⟩ := h
      change (if isRadixMark mark then _ else _) = if isRadixMark mark then _ else _
      rw [if_pos hm, if_pos hm]
      exact congrArg (2 + ·) (runLength_append hradix cs)
    · refine decimal fun hc mark' hm => ?_
      obtain rfl : mark = mark' := Option.some.inj hm
      simpa [hc] using h

theorem punctuation_ne_number (cs : List Char) : (punctuation cs).1 ≠ .numberLiteral := by
  unfold punctuation
  split <;> first | decide | (split <;> decide)

/-- Only the scanner of numbers finds numbers. -/
theorem startsNumber_of_scan {c : Char} {cs : List Char} (h : (scan c cs).kind = .numberLiteral) :
    isNameStart c = false ∧ startsNumber (c :: cs) = true := by
  by_cases hname : isNameStart c
  · have hmem := wordKind_mem (String.ofList ((c :: cs).take (1 + runLength isNamePart cs)))
    rw [scan, if_pos hname] at h
    have hkind : wordKind (String.ofList ((c :: cs).take (1 + runLength isNamePart cs))) = .numberLiteral := h
    rw [hkind] at hmem
    exact absurd hmem (by decide)
  · refine ⟨Bool.not_eq_true _ ▸ hname, ?_⟩
    by_contra hnumber
    rw [scan, if_neg hname, if_neg hnumber] at h
    split at h
    · exact nomatch h
    · split at h
      · exact nomatch h
      · exact punctuation_ne_number _ h

theorem startsNumber_cons {c : Char} (hc : c ≠ '.') (cs : List Char) : startsNumber (c :: cs) = isDigit c := by
  unfold startsNumber
  split
  next heq => exact absurd (List.cons.inj heq).1 hc
  next heq => rw [(List.cons.inj heq).1]
  next heq => exact nomatch heq

theorem startsNumber_append {c : Char} {cs : List Char} (h : startsNumber (c :: cs)) : startsNumber (c :: cs ++ rest) := by
  by_cases hc : c = '.'
  · subst hc
    cases cs with
    | nil => exact nomatch h
    | cons d cs => exact h
  · rw [startsNumber_cons hc] at h
    rwa [List.cons_append, startsNumber_cons hc]

theorem not_blank_of_startsNumber {c : Char} {cs : List Char} (h : startsNumber (c :: cs)) : isBlank c = false ∧ c ≠ '/' := by
  refine ⟨?_, by rintro rfl; exact nomatch h⟩
  by_contra hblank
  simp only [isBlank, Bool.not_eq_false, Bool.or_eq_true, decide_eq_true_eq] at hblank
  rcases hblank with (((rfl | rfl) | rfl) | rfl) | rfl <;> exact nomatch h

theorem Spells.number {text : String} (htext : isNumeral text) (hrest : Delimited rest) :
    Spells text.toList [.inLine .numberLiteral text] rest := by
  unfold isNumeral at htext
  cases hcs : text.toList with
  | nil => rw [hcs] at htext; exact nomatch htext
  | cons c cs =>
    rw [hcs] at htext
    have hscan : scan c cs = ⟨.numberLiteral, cs.length + 1, none⟩ := of_decide_eq_true htext
    obtain ⟨hname, hnumber⟩ := startsNumber_of_scan (congrArg Lexeme.kind hscan)
    obtain ⟨hblank, hslash⟩ := not_blank_of_startsNumber hnumber
    obtain rfl : text = String.ofList (c :: cs) := by rw [← hcs, String.ofList_toList]
    refine .word hblank hslash ?_
    rw [scan, if_neg (by simp [hname]), if_pos hnumber] at hscan
    have hnumber' : startsNumber (c :: (cs ++ rest)) = true := startsNumber_append hnumber
    rw [scan, if_neg (by simp [hname]), if_pos hnumber', ← hscan, ← List.cons_append, numberLength_append hrest]

/-! ## Strings -/

/-- A text that stands for itself between quotes. -/
def isPlain (value : String) : Bool := value.toList.all fun c => c ≠ '"' && c ≠ '\\' && c ≠ '\n'

theorem quoted_plain {cs : List Char} (h : cs.all fun c => c ≠ '"' && c ≠ '\\' && c ≠ '\n') :
    quoted '"' (cs ++ '"' :: rest) = (cs.length + 1, true) := by
  induction cs with
  | nil => rfl
  | cons c cs ih =>
    obtain ⟨hc, hcs⟩ := Bool.and_eq_true_iff.mp h
    simp only [Bool.and_eq_true, decide_eq_true_eq] at hc
    rw [List.cons_append, quoted, if_neg hc.2, if_neg hc.1.1, ih hcs]
    · rfl
    · exact fun h' _ => hc.1.2 h'
    · exact fun _ _ h' _ => hc.1.2 h'

theorem Spells.string {value : String} (h : isPlain value) :
    Spells ("\"" ++ value ++ "\"").toList [.inLine .stringLiteral ("\"" ++ value ++ "\"")] rest := by
  have hlist : ("\"" ++ value ++ "\"").toList = '"' :: (value.toList ++ ['"']) := by
    rw [String.toList_append, String.toList_append, List.append_assoc]
    rfl
  have htext : "\"" ++ value ++ "\"" = String.ofList ('"' :: (value.toList ++ ['"'])) := by
    rw [← hlist, String.ofList_toList]
  rw [hlist, htext]
  refine .word (by decide) (by decide) ?_
  have hquoted : quoted '"' (value.toList ++ ['"'] ++ rest) = (value.toList.length + 1, true) := by
    rw [List.append_assoc]
    exact quoted_plain h
  have hdigit : ¬ startsNumber ('"' :: (value.toList ++ ['"'] ++ rest)) = true := by
    rw [startsNumber_cons (by decide)]
    decide
  rw [scan, if_neg (by decide), if_neg hdigit, if_pos (by decide), hquoted]
  simp [Nat.add_comm]

/-! ## Separators -/

/-- The separators that are scanned alike whatever follows. -/
def plainMarks : List (Char × TokenKind) :=
  [('\x7b', .lBrace), ('\x7d', .rBrace), ('(', .lParen), (')', .rParen), ('[', .lBracket), (']', .rBracket), (';', .semicolon),
    (',', .comma), (':', .colon)]

theorem Spells.mark {c : Char} {kind : TokenKind} (h : (c, kind) ∈ plainMarks) :
    Spells [c] [.inLine kind (String.ofList [c])] rest := by
  have hblank : ∀ mark ∈ plainMarks, isBlank mark.1 = false ∧ mark.1 ≠ '/' := by decide
  refine .word (hblank _ h).1 (hblank _ h).2 ?_
  simp only [plainMarks, List.mem_cons, Prod.mk.injEq, List.not_mem_nil, or_false] at h
  rcases h with ⟨rfl, rfl⟩ | ⟨rfl, rfl⟩ | ⟨rfl, rfl⟩ | ⟨rfl, rfl⟩ | ⟨rfl, rfl⟩ | ⟨rfl, rfl⟩ | ⟨rfl, rfl⟩ | ⟨rfl, rfl⟩ |
    ⟨rfl, rfl⟩ <;> rfl

theorem Spells.arrow : Spells ['=', '>'] [.arrow] rest := .word (by decide) (by decide) rfl

/-- A bar is no operator of its own behind which a blank stands. -/
theorem Spells.pipe : Spells ['|'] [.pipe] (' ' :: rest) := .word (by decide) (by decide) rfl

theorem Spells.question : Spells ['?'] [.question] (':' :: rest) := .word (by decide) (by decide) rfl

theorem Spells.minus {text : String} (htext : isNumeral text) : Spells ['-'] [.minus] (text.toList ++ rest) := by
  unfold isNumeral at htext
  cases hcs : text.toList with
  | nil => rw [hcs] at htext; exact nomatch htext
  | cons c cs =>
    rw [hcs] at htext
    have hscan : scan c cs = ⟨.numberLiteral, cs.length + 1, none⟩ := of_decide_eq_true htext
    have hnumber := (startsNumber_of_scan (congrArg Lexeme.kind hscan)).2
    have hminus : c ≠ '-' := by rintro rfl; exact nomatch (startsNumber_cons (by decide) cs).symm.trans hnumber
    have heq : c ≠ '=' := by rintro rfl; exact nomatch (startsNumber_cons (by decide) cs).symm.trans hnumber
    have hmark : punctuation ('-' :: c :: (cs ++ rest)) = (.minus, 1) := by
      rw [punctuation]
      · exact fun _ h => hminus (List.cons.inj h).1
      · exact fun _ h => heq (List.cons.inj h).1
    refine .word (by decide) (by decide) ?_
    rw [List.nil_append, List.cons_append, scan, if_neg (by decide), if_neg (by rw [startsNumber_cons (by decide)]; decide),
      if_neg (by decide), if_neg (by decide), hmark]
    rfl

end

end Recheck.Syntax
