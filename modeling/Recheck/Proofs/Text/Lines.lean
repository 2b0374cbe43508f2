import Recheck.Text.Chars
import Mathlib.Data.List.DropRight
import Recheck.Text.Source

/-!
# The lines of a text

All lines of a text but the last one end with a line feed, and no other line feed is in them (`IsLines`). What is said
of lines below goes along this form: how many there are, where they begin, what is in them, and on which of them an
offset lies.
-/

set_option autoImplicit false

/-!
## Cutting at boundaries

A text is cut between two characters just where the length of what stands in front says.
-/

namespace Recheck.Chars

theorem splitAt?_byteLength (a b : List Char) : splitAt? (byteLength a) (a ++ b) = some (a, b) := by
  induction a with
  | nil => rw [byteLength_nil, splitAt?]; rfl
  | cons c a ih =>
    have hc := c.utf8Size_pos
    obtain ⟨n, hn⟩ : ∃ n, byteLength (c :: a) = n + 1 := ⟨c.utf8Size + byteLength a - 1, by rw [byteLength_cons]; omega⟩
    have hle : c.utf8Size ≤ n + 1 := by rw [← hn, byteLength_cons]; omega
    have hrest : n + 1 - c.utf8Size = byteLength a := by rw [← hn, byteLength_cons]; omega
    rw [hn, List.cons_append, splitAt?, if_pos hle, hrest, ih]
    rfl

/-- A piece of a text lies between the lengths of what stands before it and of what it ends. -/
theorem slice?_byteLength (a b c : List Char) :
    slice? (byteLength a) (byteLength a + byteLength b) (a ++ b ++ c) = some b := by
  rw [slice?, if_neg (by omega), List.append_assoc, splitAt?_byteLength, Nat.add_sub_cancel_left]
  simp only [Option.bind_eq_bind, Option.bind_some, splitAt?_byteLength]
  rfl

/-- Of two cuts of one text, the one farther back has the text between them in front of it. -/
theorem exists_between {a a' b b' : List Char} (h : a ++ a' = b ++ b') (hlt : byteLength a < byteLength b) :
    ∃ mid, mid ≠ [] ∧ b = a ++ mid := by
  rcases List.append_eq_append_iff.mp h with ⟨mid, rfl, -⟩ | ⟨mid, rfl, -⟩
  · refine ⟨mid, ?_, rfl⟩
    rintro rfl
    rw [List.append_nil] at hlt
    exact Nat.lt_irrefl _ hlt
  · rw [byteLength_append] at hlt
    omega

theorem units_pos {cs : List Char} (h : cs ≠ []) : 0 < units cs := by
  cases cs with
  | nil => exact absurd rfl h
  | cons c cs =>
    rw [units]
    split <;> omega

end Recheck.Chars

namespace Recheck.Source

open Chars

/-- Lines, one below the other. -/
inductive IsLines : List (List Char) → Prop where
  | last {line : List Char} : '\n' ∉ line → IsLines [line]
  | cons {body : List Char} {rest : List (List Char)} : '\n' ∉ body → IsLines rest → IsLines ((body ++ ['\n']) :: rest)

theorem flatten_splitLines (cs : List Char) : (splitLines cs).flatten = cs := by
  induction cs with
  | nil => rfl
  | cons c cs ih =>
    rw [splitLines]
    split
    · rw [List.flatten_cons, ih, List.singleton_append]
    · split
      · rename_i line rest hlines
        rw [hlines] at ih
        rw [List.flatten_cons, List.cons_append, ← List.flatten_cons, ih]
      · rename_i hnil
        rw [← ih, hnil]
        rfl

theorem isLines_splitLines (cs : List Char) : IsLines (splitLines cs) := by
  induction cs with
  | nil => exact .last List.not_mem_nil
  | cons c cs ih =>
    rw [splitLines]
    split
    · rename_i hfeed
      have hempty : IsLines (([] ++ ['\n']) :: splitLines cs) := .cons List.not_mem_nil ih
      exact hfeed ▸ hempty
    · rename_i hfeed
      have hnot {line : List Char} (h : '\n' ∉ line) : '\n' ∉ c :: line := by
        rw [List.mem_cons, not_or]
        exact ⟨Ne.symm hfeed, h⟩
      cases hlines : splitLines cs with
      | nil => exact nomatch hlines ▸ ih
      | cons line rest =>
        rw [hlines] at ih
        cases ih with
        | last hline => exact .last (hnot hline)
        | cons hbody hrest => exact .cons (hnot hbody) hrest

/-- The line ends at the first line feed. -/
theorem splitLines_append {line : List Char} (h : '\n' ∉ line) (rest : List Char) :
    splitLines (line ++ '\n' :: rest) = (line ++ ['\n']) :: splitLines rest := by
  induction line with
  | nil => rfl
  | cons c line ih =>
    rw [List.mem_cons, not_or] at h
    rw [List.cons_append, splitLines, if_neg (Ne.symm h.1), ih h.2]
    rfl

/-! ## The last line begun -/

/-- What has been written of the last line of a text. -/
def lastLine (cs : List Char) : List Char := cs.rtakeWhile (· ≠ '\n')

theorem lastLine_of_not_mem {cs : List Char} (h : '\n' ∉ cs) : lastLine cs = cs := by
  refine List.rtakeWhile_eq_self_iff.mpr fun c hc => decide_eq_true ?_
  rintro rfl
  exact h hc

theorem lastLine_append_feed (cs ds : List Char) : lastLine (cs ++ '\n' :: ds) = lastLine ds := by
  unfold lastLine List.rtakeWhile
  rw [List.reverse_append, List.reverse_cons, List.append_assoc, List.takeWhile_append]
  split
  · rename_i hall
    have hds : ds.reverse.takeWhile (· ≠ '\n') = ds.reverse := (List.takeWhile_prefix _).eq_of_length hall
    rw [hds]
    simp
  · rfl

theorem lastLine_append {cs ds : List Char} (h : '\n' ∉ ds) : lastLine (cs ++ ds) = lastLine cs ++ ds := by
  have hall : (ds.reverse.takeWhile (· ≠ '\n')).length = ds.reverse.length := by
    congr 1
    refine List.takeWhile_eq_self_iff.mpr fun c hc => decide_eq_true ?_
    rintro rfl
    exact h (List.mem_reverse.mp hc)
  unfold lastLine List.rtakeWhile
  rw [List.reverse_append, List.takeWhile_append, if_pos hall, List.reverse_append, List.reverse_reverse]

/-! ## Counting lines -/

namespace IsLines

variable {lines : List (List Char)}

theorem ne_nil (h : IsLines lines) : lines ≠ [] := by
  cases h <;> exact List.cons_ne_nil _ _

theorem length_eq (h : IsLines lines) : lines.length = lines.flatten.count '\n' + 1 := by
  induction h with
  | last hline => simp [List.count_eq_zero_of_not_mem hline]
  | cons hbody _ ih => simp [ih, List.count_eq_zero_of_not_mem hbody]

/-- In front of a line stand as many line feeds as lines, and nothing of the line itself. -/
theorem flatten_take (h : IsLines lines) {k : Nat} (hk : k < lines.length) :
    (lines.take k).flatten.count '\n' = k ∧ lastLine (lines.take k).flatten = [] := by
  induction h generalizing k with
  | last hline =>
    obtain rfl : k = 0 := by simpa using hk
    exact ⟨rfl, rfl⟩
  | @cons body rest hbody _ ih =>
    cases k with
    | zero => exact ⟨rfl, rfl⟩
    | succ k =>
      obtain ⟨hcount, hlast⟩ := ih (Nat.lt_of_succ_lt_succ hk)
      rw [List.take_succ_cons, List.flatten_cons, List.append_assoc, List.singleton_append, lastLine_append_feed,
        List.count_append, List.count_cons_self, List.count_eq_zero_of_not_mem hbody, hcount]
      exact ⟨by omega, hlast⟩

/-- A line without its line feed. -/
def bare (line : List Char) : List Char := line.rdropWhile (· = '\n')

theorem bare_of_not_mem {body : List Char} (h : '\n' ∉ body) : bare body = body ∧ bare (body ++ ['\n']) = body := by
  have hself : bare body = body := List.rdropWhile_eq_self_iff.mpr fun hne hlast =>
    h (of_decide_eq_true hlast ▸ List.getLast_mem hne)
  exact ⟨hself, (List.rdropWhile_concat_pos _ _ _ (by decide)).trans hself⟩

/-- The lines are what stands between the line feeds. -/
theorem splitOn_flatten (h : IsLines lines) : lines.flatten.splitOn '\n' = lines.map bare := by
  induction h with
  | @last line hline =>
    have hself : [line].flatten = ['\n'].intercalate [line] := by simp
    rw [hself, List.splitOn_intercalate _ (by simpa using hline) (List.cons_ne_nil _ _), List.map_singleton,
      (bare_of_not_mem hline).1]
  | @cons body rest hbody hrest ih =>
    have hplain : ∀ c ∈ body, (c == '\n') = false := fun c hc => beq_eq_false_iff_ne.mpr fun hfeed => hbody (hfeed ▸ hc)
    rw [List.flatten_cons, List.append_assoc, List.singleton_append, List.splitOn,
      List.splitOnP_append_cons_of_forall_mem hplain _ (by decide), List.map_cons, (bare_of_not_mem hbody).2]
    exact congrArg _ ih

/-- On which line an offset lies, and what of the line stands in front of it. -/
theorem locate_byteLength (h : IsLines lines) {before after : List Char} (hsplit : lines.flatten = before ++ after) :
    locate (Chars.byteLength before) lines = (before.count '\n', some (lastLine before)) := by
  induction h generalizing before with
  | @last line hline =>
    rw [List.flatten_singleton] at hsplit
    subst hsplit
    have hbefore : '\n' ∉ before := fun hmem => hline (List.mem_append_left _ hmem)
    rw [locate, splitAt?_byteLength, List.count_eq_zero_of_not_mem hbefore, lastLine_of_not_mem hbefore]
    rfl
  | @cons body rest hbody hrest ih =>
    obtain ⟨second, others, hothers⟩ := List.exists_cons_of_ne_nil hrest.ne_nil
    -- Either the offset is in the first line, in front of its line feed, or the whole line stands before it.
    have hcases : (∃ tail, body = before ++ tail) ∨
        ∃ inner, before = body ++ '\n' :: inner ∧ rest.flatten = inner ++ after := by
      rw [List.flatten_cons, List.append_assoc, List.singleton_append] at hsplit
      rcases List.append_eq_append_iff.mp hsplit with ⟨inner, hbefore, hinner⟩ | ⟨tail, hbody, -⟩
      · cases inner with
        | nil => exact .inl ⟨[], by rw [hbefore, List.append_nil, List.append_nil]⟩
        | cons c inner =>
          obtain ⟨rfl, hrest⟩ := List.cons.inj hinner
          exact .inr ⟨inner, hbefore, hrest⟩
      · exact .inl ⟨tail, hbody⟩
    rw [hothers, locate, ← hothers]
    · dsimp only
      rcases hcases with ⟨tail, rfl⟩ | ⟨inner, rfl, hinner⟩
      · have hbefore : '\n' ∉ before := fun hmem => hbody (List.mem_append_left _ hmem)
        have hlt : Chars.byteLength before < Chars.byteLength (before ++ tail ++ ['\n']) := by
          have hfeed := byteLength_pos (List.cons_ne_nil '\n' [])
          simp only [byteLength_append]
          omega
        rw [if_pos hlt, List.append_assoc, splitAt?_byteLength, List.count_eq_zero_of_not_mem hbefore,
          lastLine_of_not_mem hbefore]
        rfl
      · have hlength : Chars.byteLength (body ++ '\n' :: inner) =
            Chars.byteLength (body ++ ['\n']) + Chars.byteLength inner := by
          simp [Nat.add_assoc]
        rw [if_neg (by omega), hlength, Nat.add_sub_cancel_left, ih hinner, lastLine_append_feed, List.count_append,
          List.count_eq_zero_of_not_mem hbody, List.count_cons_self, Nat.zero_add]
    · simp

end IsLines

theorem isLines (s : Source) : IsLines s.lines := isLines_splitLines s.chars

theorem flatten_lines (s : Source) : s.lines.flatten = s.chars := flatten_splitLines s.chars

theorem chars_eq_take_append (s : Source) (k : Nat) : s.chars = (s.lines.take k).flatten ++ (s.lines.drop k).flatten := by
  rw [← List.flatten_append, List.take_append_drop, flatten_lines]

end Recheck.Source
