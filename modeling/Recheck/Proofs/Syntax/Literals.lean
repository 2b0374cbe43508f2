import Recheck.Syntax.Lexer

/-!
# Where a literal ends

Strings and templates are scanned up to what closes them. A literal that is closed ends there whatever follows
(`quoted_take_append`, `template_take_append`). One that is not closed takes all there is, a string only up to the end of its
line.
-/

set_option autoImplicit false

namespace Recheck.Syntax

variable {c quote : Char} {cs rest : List Char} {depth : Nat}

/-- A backslash has a rule of its own, whether something follows or not. -/
theorem ne_backslash (hlast : c = '\\' → cs = [] → False) (hpair : ∀ d tail, c = '\\' → cs = d :: tail → False) : c ≠ '\\' := by
  intro h
  cases cs with
  | nil => exact hlast h rfl
  | cons d tail => exact hpair d tail h rfl

/-! ## Strings -/

theorem quoted_escape (quote c : Char) (cs : List Char) :
    quoted quote ('\\' :: c :: cs) = ((quoted quote cs).1 + 2, (quoted quote cs).2) := rfl

theorem quoted_cons (hc : c ≠ '\\') :
    quoted quote (c :: cs) =
      if c = '\n' then (0, false) else if c = quote then (1, true) else ((quoted quote cs).1 + 1, (quoted quote cs).2) := by
  rw [quoted]
  · intro h _
    exact hc h
  · intro _ _ h _
    exact hc h

/-- A string ends where it does if it is closed, or nothing follows, or its line ends. -/
theorem quoted_take_append
    (h : (quoted quote cs).2 = true ∨ rest = [] ∨ cs.drop (quoted quote cs).1 ≠ [] ∧ rest.head? = some '\n') :
    quoted quote (cs.take (quoted quote cs).1 ++ rest) = quoted quote cs := by
  induction cs using quoted.induct quote with
  | case1 =>
    have hrest : rest = [] := by simpa [quoted] using h
    rw [hrest]
    rfl
  | case2 =>
    have hrest : rest = [] := by simpa [quoted] using h
    rw [hrest]
    rfl
  | case3 d cs _ _ _ ih =>
    rw [quoted_escape] at h ⊢
    rw [List.take_succ_cons, List.take_succ_cons, List.cons_append, List.cons_append, quoted_escape, ih h]
  | case4 cs =>
    -- The line ends here, and so it has to behind the string.
    have hend (tail : List Char) : quoted quote ('\n' :: tail) = (0, false) := by rw [quoted_cons (by decide), if_pos rfl]
    rw [hend] at h ⊢
    rw [List.take_zero, List.nil_append]
    rcases h with h | rfl | ⟨-, h⟩
    · cases h
    · rfl
    · obtain ⟨tail, rfl⟩ := List.head?_eq_some_iff.mp h
      exact hend tail
  | case5 cs hlast hpair hline =>
    have hclose (tail : List Char) : quoted quote (quote :: tail) = (1, true) := by
      rw [quoted_cons (ne_backslash hlast hpair), if_neg hline, if_pos rfl]
    rw [hclose, List.take_succ_cons, List.cons_append, hclose]
  | case6 c cs hlast hpair hline hquote _ _ _ ih =>
    have hstep (tail : List Char) : quoted quote (c :: tail) = ((quoted quote tail).1 + 1, (quoted quote tail).2) := by
      rw [quoted_cons (ne_backslash hlast hpair), if_neg hline, if_neg hquote]
    rw [hstep] at h ⊢
    rw [List.take_succ_cons, List.cons_append, hstep, ih h]

/-! ## Templates -/

theorem template_escape (depth : Nat) (c : Char) (cs : List Char) :
    template depth ('\\' :: c :: cs) = ((template depth cs).1 + 2, (template depth cs).2) := rfl

theorem template_substitution (depth : Nat) (cs : List Char) :
    template depth ('$' :: '\x7b' :: cs) = ((template (depth + 1) cs).1 + 2, (template (depth + 1) cs).2) := rfl

theorem template_close (cs : List Char) : template 0 ('\x60' :: cs) = (1, true) := rfl

/-- Any other character belongs to the literal, and a closing brace ends a substitution. -/
theorem template_cons (hescape : c ≠ '\\') (hopen : c = '$' → cs.head? ≠ some '\x7b') (hclose : depth = 0 → c ≠ '\x60') :
    template depth (c :: cs) =
      ((template (if c = '\x7d' then depth - 1 else depth) cs).1 + 1,
        (template (if c = '\x7d' then depth - 1 else depth) cs).2) := by
  rw [template]
  · intro h _
    exact hescape h
  · intro _ _ h _
    exact hescape h
  · intro tail h htail
    exact hopen h (by rw [htail]; rfl)
  · exact hclose

theorem head?_ne_brace (h : ∀ tail, c = '$' → cs = '\x7b' :: tail → False) : c = '$' → cs.head? ≠ some '\x7b' := by
  intro hc hhead
  obtain ⟨tail, htail⟩ := List.head?_eq_some_iff.mp hhead
  exact h tail hc htail

theorem template_pos (depth : Nat) (c : Char) (cs : List Char) : 0 < (template depth (c :: cs)).1 := by
  unfold template
  split <;> simp_all

/-- A template that is closed ends there, and any other one with the text. -/
theorem template_take_append (h : (template depth cs).2 = true ∨ rest = []) :
    template depth (cs.take (template depth cs).1 ++ rest) = template depth cs := by
  induction depth, cs using template.induct with
  | case1 depth =>
    have hrest : rest = [] := by simpa [template] using h
    rw [hrest]
    rfl
  | case2 depth =>
    have hrest : rest = [] := by simpa [template] using h
    rw [hrest]
    rfl
  | case3 depth d cs _ _ _ ih =>
    rw [template_escape] at h ⊢
    rw [List.take_succ_cons, List.take_succ_cons, List.cons_append, List.cons_append, template_escape, ih h]
  | case4 depth cs _ _ _ ih =>
    rw [template_substitution] at h ⊢
    rw [List.take_succ_cons, List.take_succ_cons, List.cons_append, List.cons_append, template_substitution, ih h]
  | case5 cs => rw [template_close, List.take_succ_cons, List.cons_append, template_close]
  | case6 depth c cs hlast hpair hopen hclose n closed hrun ih =>
    rw [template_cons (ne_backslash hlast hpair) (head?_ne_brace hopen) hclose] at h ⊢
    rw [List.take_succ_cons, List.cons_append, template_cons (ne_backslash hlast hpair) ?_ hclose, ih h]
    -- The next character is the same as before.
    generalize (if c = '\x7d' then depth - 1 else depth) = depth at h
    cases cs with
    | nil =>
      have hrest : rest = [] := by simpa [template] using h
      simp [hrest]
    | cons d tail =>
      obtain ⟨m, hm⟩ := Nat.exists_eq_add_of_lt (template_pos depth d tail)
      rw [hm, Nat.zero_add, List.take_succ_cons]
      intro hc hhead
      exact head?_ne_brace hopen hc hhead

/-- A template that is not closed takes all that is left. -/
theorem template_open (h : (template depth cs).2 = false) : (template depth cs).1 = cs.length := by
  induction depth, cs using template.induct with
  | case1 => rfl
  | case2 => rfl
  | case3 depth d cs _ _ _ ih =>
    rw [template_escape] at h ⊢
    simp [ih h]
  | case4 depth cs _ _ _ ih =>
    rw [template_substitution] at h ⊢
    simp [ih h]
  | case5 cs =>
    rw [template_close] at h
    cases h
  | case6 depth c cs hlast hpair hopen hclose _ _ _ ih =>
    rw [template_cons (ne_backslash hlast hpair) (head?_ne_brace hopen) hclose] at h ⊢
    simp [ih h]

end Recheck.Syntax
