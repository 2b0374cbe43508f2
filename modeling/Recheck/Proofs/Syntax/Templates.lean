import Recheck.Proofs.Syntax.Respacing

/-!
# Templates in templates

The body of a template literal may hold substitutions, and the code of a substitution may hold blocks and templates again
(`Generates`). The scanner does not read the code. It counts: `openBehind` says how many substitutions it takes to be open, and a
backquote ends the literal where there is none. A brace that opens a block is not counted, and every brace that closes
something is. So the count never ends too high (`Generates.closes`), but it may be too low in the middle. A template literal is one
token if and only if no backquote of its body meets a count of zero (`lex_template_iff`).
-/

set_option autoImplicit false

namespace Recheck.Syntax

open Chars

/-! ## Bodies and code -/

/-- What a template literal is made of. -/
inductive Part where
  | body
  | code

/-- The characters that stand for themselves. -/
def Part.allows : Part → Char → Bool
  | body, c => c ∉ ['\x60', '$', '\\']
  | code, c => c ∉ ['\x60', '\x7b', '\x7d', '"', '\'', '/', '\\']

/-- The characters of a body, and of the code in a substitution. -/
inductive Generates : Part → List Char → Prop where
  | nil {part : Part} : Generates part []
  | char {part : Part} {c : Char} {cs : List Char} : part.allows c → Generates part cs → Generates part (c :: cs)
  | substitution {inner cs : List Char} : Generates .code inner → Generates .body cs →
      Generates .body ('$' :: '\x7b' :: (inner ++ '\x7d' :: cs))
  | block {inner cs : List Char} : Generates .code inner → Generates .code cs →
      Generates .code ('\x7b' :: (inner ++ '\x7d' :: cs))
  | literal {inner cs : List Char} : Generates .body inner → Generates .code cs →
      Generates .code ('\x60' :: (inner ++ '\x60' :: cs))

/-- The template literal with this body. -/
def templateText (body : List Char) : String := String.ofList ('\x60' :: (body ++ ['\x60']))

variable {part : Part} {c : Char} {cs rest body : List Char} {depth : Nat}

theorem Part.allows_ne (h : part.allows c) : c ≠ '\x60' ∧ c ≠ '\\' := by
  cases part <;> simp [allows] at h <;> simp [h]

/-- Nothing is escaped. -/
theorem Generates.no_backslash (h : Generates part cs) : '\\' ∉ cs := by
  induction h with
  | nil => exact List.not_mem_nil
  | char hc _ ih => simp [ih, Part.allows_ne hc |>.2.symm]
  | substitution _ _ ihinner ih => simp [ihinner, ih]
  | block _ _ ihinner ih => simp [ihinner, ih]
  | literal _ _ ihinner ih => simp [ihinner, ih]

/-! ## What the scanner counts -/

/-- How many substitutions the scanner takes to be open behind some characters, if it comes to them with so many. -/
def openBehind : Nat → List Char → Nat
  | depth, [] => depth
  | depth, '$' :: '\x7b' :: cs => openBehind (depth + 1) cs
  | depth, c :: cs => openBehind (if c = '\x7d' then depth - 1 else depth) cs

theorem openBehind_substitution (depth : Nat) (cs : List Char) :
    openBehind depth ('$' :: '\x7b' :: cs) = openBehind (depth + 1) cs := by
  rw [openBehind]

theorem openBehind_cons (hopen : c = '$' → cs.head? ≠ some '\x7b') :
    openBehind depth (c :: cs) = openBehind (if c = '\x7d' then depth - 1 else depth) cs := by
  rw [openBehind]
  intro tail hc htail
  exact hopen hc (by rw [htail]; rfl)

theorem openBehind_close (depth : Nat) (cs : List Char) : openBehind depth ('\x7d' :: cs) = openBehind (depth - 1) cs := by
  rw [openBehind_cons (by simp), if_pos rfl]

/-- Behind some characters the count is not above the one in front of them, whatever follows. -/
def Closing (cs rest : List Char) : Prop := ∀ depth, ∃ e ≤ depth, openBehind depth (cs ++ rest) = openBehind e rest

theorem Closing.plain (hopen : c = '$' → (cs ++ rest).head? ≠ some '\x7b') (h : Closing cs rest) : Closing (c :: cs) rest := by
  intro depth
  rw [List.cons_append, openBehind_cons hopen]
  obtain ⟨e, he, hcount⟩ := h (if c = '\x7d' then depth - 1 else depth)
  refine ⟨e, ?_, hcount⟩
  split at he <;> omega

/-- A brace that closes something outweighs the substitution that is opened in front of it. -/
theorem Closing.substitution {inner : List Char} (hinner : Closing inner ('\x7d' :: (cs ++ rest))) (h : Closing cs rest) :
    Closing ('$' :: '\x7b' :: (inner ++ '\x7d' :: cs)) rest := by
  intro depth
  obtain ⟨e, he, hcount⟩ := hinner (depth + 1)
  obtain ⟨e', he', hcount'⟩ := h (e - 1)
  refine ⟨e', by omega, ?_⟩
  rw [List.cons_append, List.cons_append, List.append_assoc, List.cons_append, openBehind_substitution, hcount, openBehind_close,
    hcount']

theorem Closing.enclosed {inner : List Char} {close : Char} (hclose : close ≠ '$')
    (hinner : Closing inner (close :: (cs ++ rest))) (h : Closing cs rest) : Closing (inner ++ close :: cs) rest := by
  intro depth
  obtain ⟨e, he, hcount⟩ := hinner depth
  obtain ⟨e', he', hcount'⟩ := Closing.plain (fun hdollar => absurd hdollar hclose) h e
  refine ⟨e', Nat.le_trans he' he, ?_⟩
  rw [List.append_assoc, List.cons_append, hcount, ← hcount', List.cons_append]

/-- A part leaves no substitution open, even if a dollar sign in front of it makes a block look like one. -/
theorem Generates.closes (h : Generates part cs) (rest : List Char) (hrest : rest.head? ≠ some '\x7b') :
    Closing cs rest ∧ (part = .code → Closing ('$' :: cs) rest) := by
  induction h generalizing rest with
  | nil =>
    have hnil : Closing [] rest := fun depth => ⟨depth, Nat.le_refl depth, rfl⟩
    exact ⟨hnil, fun _ => hnil.plain fun _ => hrest⟩
  | @char part c cs hc _ ih =>
    obtain ⟨hplain, hdollar⟩ := ih rest hrest
    have hchar : Closing (c :: cs) rest := by
      by_cases h : c = '$'
      · subst h
        cases part with
        | body => simp [Part.allows] at hc
        | code => exact hdollar rfl
      · exact hplain.plain fun h' => absurd h' h
    refine ⟨hchar, ?_⟩
    rintro rfl
    apply hchar.plain
    intro _ hhead
    obtain rfl : c = '\x7b' := by simpa using hhead
    simp [Part.allows] at hc
  | @substitution inner cs _ _ ihinner ih =>
    refine ⟨.substitution (ihinner _ (by simp)).1 (ih rest hrest).1, ?_⟩
    intro hpart
    cases hpart
  | @block inner cs _ _ ihinner ih =>
    have hinner := (ihinner ('\x7d' :: (cs ++ rest)) (by simp)).1
    have hcs := (ih rest hrest).1
    exact ⟨.plain (by simp) (.enclosed (by decide) hinner hcs), fun _ => .substitution hinner hcs⟩
  | @literal inner cs _ _ ihinner ih =>
    have hinner := (ihinner ('\x60' :: (cs ++ rest)) (by simp)).1
    have hliteral : Closing ('\x60' :: (inner ++ '\x60' :: cs)) rest :=
      .plain (by simp) (.enclosed (by decide) hinner (ih rest hrest).1)
    exact ⟨hliteral, fun _ => hliteral.plain (by simp)⟩

/-- Behind its body no substitution of a template literal is open. -/
theorem Generates.openBehind_eq_zero (h : Generates part cs) : openBehind 0 cs = 0 := by
  obtain ⟨e, he, hcount⟩ := (h.closes [] (by simp)).1 0
  rw [List.append_nil] at hcount
  rw [hcount, openBehind]
  omega

/-! ## Backquotes -/

/-- Every backquote stands where the scanner takes a substitution to be open. -/
def BackquotesInside (depth : Nat) (cs : List Char) : Prop :=
  ∀ front tail, cs = front ++ '\x60' :: tail → 0 < openBehind depth front

theorem backquotesInside_nil (depth : Nat) : BackquotesInside depth [] := by
  intro front tail h
  simp at h

theorem backquotesInside_substitution :
    BackquotesInside depth ('$' :: '\x7b' :: cs) ↔ BackquotesInside (depth + 1) cs := by
  constructor
  · intro h front tail hcs
    rw [← openBehind_substitution]
    apply h _ tail
    rw [hcs]
    rfl
  · intro h front tail hcs
    cases front with
    | nil => simp at hcs
    | cons dollar front =>
      cases front with
      | nil => simp at hcs
      | cons brace front =>
        obtain ⟨rfl, rfl, hfront⟩ : '$' = dollar ∧ '\x7b' = brace ∧ cs = front ++ '\x60' :: tail := by simpa using hcs
        rw [openBehind_substitution]
        exact h front tail hfront

theorem backquotesInside_cons (hopen : c = '$' → cs.head? ≠ some '\x7b') :
    BackquotesInside depth (c :: cs) ↔
      (c = '\x60' → 0 < depth) ∧ BackquotesInside (if c = '\x7d' then depth - 1 else depth) cs := by
  have hcount {front tail : List Char} (hcs : cs = front ++ '\x60' :: tail) :
      openBehind depth (c :: front) = openBehind (if c = '\x7d' then depth - 1 else depth) front := by
    apply openBehind_cons
    intro hc
    have := hopen hc
    cases front with
    | nil => simp
    | cons d front => simpa [hcs] using this
  constructor
  · intro h
    constructor
    · intro hc
      exact h [] cs (by rw [hc]; rfl)
    · intro front tail hcs
      rw [← hcount hcs]
      exact h (c :: front) tail (by rw [hcs]; rfl)
  · rintro ⟨hfirst, h⟩ front tail hcs
    cases front with
    | nil => exact hfirst (List.cons.inj hcs).1
    | cons d front =>
      obtain ⟨rfl, hfront⟩ := List.cons.inj hcs
      rw [hcount hfront]
      exact h front tail hfront

theorem head?_append_ne_brace (hrest : rest.head? ≠ some '\x7b') (h : c = '$' → cs.head? ≠ some '\x7b') :
    c = '$' → (cs ++ rest).head? ≠ some '\x7b' := by
  intro hc
  cases cs with
  | nil => exact hrest
  | cons d cs => exact h hc

/-- The scanner goes on behind characters whose backquotes are inside, with the count that they leave. -/
theorem template_append (hescape : '\\' ∉ cs) (hrest : rest.head? ≠ some '\x7b') (h : BackquotesInside depth cs) :
    template depth (cs ++ rest) =
      ((template (openBehind depth cs) rest).1 + cs.length, (template (openBehind depth cs) rest).2) := by
  induction depth, cs using openBehind.induct with
  | case1 depth => rfl
  | case2 depth cs ih =>
    rw [backquotesInside_substitution] at h
    specialize ih (by simpa using hescape) h
    rw [List.cons_append, List.cons_append, template_substitution, openBehind_substitution, ih]
    rfl
  | case3 depth c cs hopen ih =>
    have hhead := head?_ne_brace hopen
    rw [backquotesInside_cons hhead] at h
    rw [List.mem_cons, not_or] at hescape
    have hbehind := head?_append_ne_brace hrest hhead
    have hclose : depth = 0 → c ≠ '\x60' := by
      rintro rfl hc
      exact absurd (h.1 hc) (Nat.lt_irrefl 0)
    rw [List.cons_append, template_cons (Ne.symm hescape.1) hbehind hclose, openBehind_cons hhead, ih hescape.2 h.2]
    rfl

/-- A backquote that is not inside ends the literal. -/
theorem template_short (hescape : '\\' ∉ cs) (hrest : rest.head? ≠ some '\x7b') (h : ¬BackquotesInside depth cs) :
    (template depth (cs ++ rest)).1 ≤ cs.length := by
  induction depth, cs using openBehind.induct with
  | case1 depth => exact absurd (backquotesInside_nil depth) h
  | case2 depth cs ih =>
    rw [backquotesInside_substitution] at h
    specialize ih (by simpa using hescape) h
    rw [List.cons_append, List.cons_append, template_substitution]
    simpa using ih
  | case3 depth c cs hopen ih =>
    have hhead := head?_ne_brace hopen
    rw [backquotesInside_cons hhead] at h
    rw [List.mem_cons, not_or] at hescape
    have hbehind := head?_append_ne_brace hrest hhead
    by_cases hend : depth = 0 ∧ c = '\x60'
    · obtain ⟨rfl, rfl⟩ := hend
      rw [List.cons_append, template_close]
      exact Nat.succ_le_succ (Nat.zero_le _)
    · have hclose : depth = 0 → c ≠ '\x60' := fun hdepth hc => hend ⟨hdepth, hc⟩
      have hbackquotes : ¬BackquotesInside (if c = '\x7d' then depth - 1 else depth) cs := by
        intro hinside
        apply h
        refine ⟨fun hc => Nat.pos_of_ne_zero fun hdepth => hend ⟨hdepth, hc⟩, hinside⟩
      rw [List.cons_append, template_cons (Ne.symm hescape.1) hbehind hclose]
      exact Nat.succ_le_succ (ih hescape.2 hbackquotes)

/-! ## Literals -/

/-- The tokens of a text that is one template literal. -/
def oneTemplate (body : List Char) : Lexed :=
  let stop := byteLength ('\x60' :: (body ++ ['\x60']))
  ⟨[⟨.templateLiteral, ⟨0, stop⟩, false, templateText body⟩, ⟨.eof, ⟨stop, stop⟩, true, ""⟩], []⟩

theorem lex_templateText (h : template 0 (body ++ ['\x60']) = (body.length + 1, true)) :
    lex (templateText body) = oneTemplate body := by
  have hgap : gap ('\x60' :: (body ++ ['\x60'])) = ⟨0, false, none⟩ := (gap_token_iff _ _).mpr ⟨by decide, by simp⟩
  apply lex_oneToken hgap
  rw [scan_template, h, List.length_append]
  rfl

/-- The token that covers everything is as long as everything. -/
theorem le_of_lex_templateText (h : lex (templateText body) = oneTemplate body) :
    body.length + 1 ≤ (template 0 (body ++ ['\x60'])).1 := by
  have hgap : gap ('\x60' :: (body ++ ['\x60'])) = ⟨0, false, none⟩ := (gap_token_iff _ _).mpr ⟨by decide, by simp⟩
  rw [lex, templateText, String.toList_ofList, lexFrom_scan (by rw [hgap]; rfl), oneTemplate, Lexed.mk.injEq, List.cons.injEq,
    Token.mk.injEq] at h
  have htext := congrArg String.toList h.1.1.2.2.2
  rw [templateText, String.toList_ofList, String.toList_ofList, scan_template] at htext
  have hlength := congrArg List.length htext
  simp only [List.length_take, List.length_cons, List.length_append, List.length_nil] at hlength
  omega

/-- Nested templates are one token if and only if the scanner takes a substitution to be open at each of their backquotes. -/
theorem lex_template_iff (h : Generates .body body) :
    lex (templateText body) = oneTemplate body ↔ ∀ front tail, body = front ++ '\x60' :: tail → 0 < openBehind 0 front := by
  constructor
  · intro hlex
    by_contra hinside
    have hshort : (template 0 (body ++ ['\x60'])).1 ≤ body.length := template_short h.no_backslash (by simp) hinside
    have hlong := le_of_lex_templateText hlex
    omega
  · intro hinside
    apply lex_templateText
    rw [template_append h.no_backslash (by simp) hinside, h.openBehind_eq_zero, template_close, Nat.add_comm]

/-- A substitution with a template in it that has a substitution of its own. -/
def nestedBody : List Char := ['$', '\x7b', 'a', '+', '\x60', 'b', '$', '\x7b', 'c', '\x7d', '\x60', '\x7d']

theorem nestedBody_generated : Generates .body nestedBody := by
  have hinner : Generates .code ['c'] := .char (by decide) .nil
  have hbody : Generates .body ['b', '$', '\x7b', 'c', '\x7d'] := .char (by decide) (@Generates.substitution ['c'] [] hinner .nil)
  have hliteral : Generates .code ['\x60', 'b', '$', '\x7b', 'c', '\x7d', '\x60'] :=
    @Generates.literal ['b', '$', '\x7b', 'c', '\x7d'] [] hbody .nil
  exact @Generates.substitution _ [] (.char (by decide) (.char (by decide) hliteral)) .nil

theorem lex_template_iff_nested :
    Generates .body nestedBody ∧ lex (templateText nestedBody) = oneTemplate nestedBody := by
  refine ⟨nestedBody_generated, (lex_template_iff nestedBody_generated).mpr ?_⟩
  change BackquotesInside 0 nestedBody
  simp (disch := decide) [nestedBody, backquotesInside_substitution, backquotesInside_cons, backquotesInside_nil]

/-- A substitution with a block and a template in it. -/
def blockBody : List Char := ['$', '\x7b', '\x7b', 'a', '\x7d', '+', '\x60', 'b', '\x60', '\x7d']

/-- The brace that closes the block is taken for the end of the substitution. -/
theorem block_ends_substitution :
    Generates .body blockBody ∧ lex (templateText blockBody) ≠ oneTemplate blockBody := by
  constructor
  · have hliteral : Generates .code ['\x60', 'b', '\x60'] := @Generates.literal ['b'] [] (.char (by decide) .nil) .nil
    have hblock : Generates .code ['\x7b', 'a', '\x7d', '+', '\x60', 'b', '\x60'] :=
      @Generates.block ['a'] _ (.char (by decide) .nil) (.char (by decide) hliteral)
    exact @Generates.substitution _ [] hblock .nil
  · intro hlex
    exact absurd (le_of_lex_templateText hlex) (by decide)

end Recheck.Syntax
