import Recheck.Proofs.Text.PathNormal

/-!
# The declaration beside a file

The path of the declaration beside a file is the path with `.d.ts` behind it. On canonical paths this leads to
canonical paths again (`Canonical.declarationSibling`), never back to the file, and two files never share their
declaration.
-/

set_option autoImplicit false

namespace Recheck.Path

/-- A path in its canonical spelling. -/
def Canonical (p : Path) : Prop := p.normalize = p

variable {p q : Path}

theorem canonical_normalize (p : Path) : p.normalize.Canonical := normalize_normalize p

theorem Canonical.eq_of_beq (hp : p.Canonical) (hq : q.Canonical) (h : (p == q) = true) : p = q := by
  have hspelled : p.normalize = q.normalize := eq_of_beq_normalize (by rw [hp, hq]; exact h)
  rwa [hp, hq] at hspelled

/-- Canonical paths are compared by their texts. -/
theorem Canonical.beq_iff (hp : p.Canonical) (hq : q.Canonical) : (p == q) = true ↔ p = q :=
  ⟨hp.eq_of_beq hq, fun h => h ▸ BEq.rfl⟩

theorem intercalate_append_tail (segs : List String) (s tail : String) :
    Chars.intercalate "/" (segs ++ [s ++ tail]) = Chars.intercalate "/" (segs ++ [s]) ++ tail := by
  induction segs with
  | nil => rfl
  | cons t segs ih =>
    cases segs with
    | nil => exact (String.append_assoc ..).symm
    | cons u segs =>
      show t ++ "/" ++ Chars.intercalate "/" (u :: segs ++ [s ++ tail]) =
        t ++ "/" ++ Chars.intercalate "/" (u :: segs ++ [s]) ++ tail
      rw [ih, String.append_assoc, String.append_assoc, String.append_assoc]

theorem toList_declarationSibling (p : Path) :
    p.declarationSibling.text.toList = p.text.toList ++ ".d.ts".toList := String.toList_append ..

theorem eq_of_declarationSibling_eq (h : p.declarationSibling = q.declarationSibling) : p = q := by
  have htexts := congrArg (fun path : Path => path.text.toList) h
  simp only [toList_declarationSibling, List.append_left_inj, String.toList_inj] at htexts
  cases p; cases q
  exact congrArg Path.mk htexts

theorem declarationSibling_ne (p : Path) : p.declarationSibling ≠ p := fun h => by
  have hlength := congrArg (fun path : Path => path.text.toList.length) h
  simp [toList_declarationSibling] at hlength

theorem declarationSibling_declarationSibling_ne (p : Path) : p.declarationSibling.declarationSibling ≠ p :=
  fun h => by
    have hlength := congrArg (fun path : Path => path.text.toList.length) h
    simp [toList_declarationSibling] at hlength

/-- A segment with `.d.ts` behind it is a name. -/
theorem isSegment_sibling {s : String} (h : IsSegment s) : IsSegment (s ++ ".d.ts") ∧ s ++ ".d.ts" ≠ ".." := by
  have hlength : (s ++ ".d.ts").toList.length = s.toList.length + 5 := by simp
  refine ⟨⟨fun he => ?_, fun he => ?_, ?_, ?_⟩, fun he => ?_⟩
  · rw [he] at hlength; simp at hlength
  · rw [he] at hlength; simp at hlength
  · rw [String.toList_append, List.mem_append, not_or]; exact ⟨h.no_slash, by decide⟩
  · rw [String.toList_append, List.mem_append, not_or]; exact ⟨h.no_backslash, by decide⟩
  · rw [he] at hlength; simp at hlength

/-- A folded stack keeps its form when its last segment gets `.d.ts`. -/
theorem Folded.sibling {rooted : Bool} {s : String} {rest : List String} (h : Folded rooted (s :: rest)) :
    Folded rooted ((s ++ ".d.ts") :: rest) :=
  ⟨(isSegment_sibling h.1).1, fun hdots => absurd hdots (isSegment_sibling h.1).2, h.2.2⟩

theorem spell_sibling {rooted : Bool} {s : String} {rest : List String} (h : Folded rooted (s :: rest)) :
    (spell rooted (s :: rest).reverse).declarationSibling = spell rooted ((s ++ ".d.ts") :: rest).reverse := by
  have htexts : ∀ {p q : Path}, p.text.toList = q.text.toList → p = q := by
    rintro ⟨a⟩ ⟨b⟩ hab
    exact congrArg Path.mk (String.toList_inj.mp hab)
  refine htexts ?_
  rw [toList_declarationSibling, List.reverse_cons, List.reverse_cons]
  cases rooted with
  | true =>
    rw [text_spell_rooted, text_spell_rooted, intercalate_append_tail, String.toList_append]
    rfl
  | false =>
    obtain ⟨t, segs, hsegs⟩ := List.exists_cons_of_ne_nil (List.append_ne_nil_of_right_ne_nil rest.reverse
      (List.cons_ne_nil s []))
    obtain ⟨t', segs', hsegs'⟩ := List.exists_cons_of_ne_nil (List.append_ne_nil_of_right_ne_nil rest.reverse
      (List.cons_ne_nil (s ++ ".d.ts") []))
    have ht : IsSegment t := h.isSegment t (by
      rw [← List.mem_reverse, List.reverse_cons, hsegs]; exact List.mem_cons_self)
    have ht' : IsSegment t' := h.sibling.isSegment t' (by
      rw [← List.mem_reverse, List.reverse_cons, hsegs']; exact List.mem_cons_self)
    rw [hsegs, hsegs', text_spell_relative ht, text_spell_relative ht', ← hsegs, ← hsegs',
      intercalate_append_tail, String.toList_append]

/-- **The declaration beside a canonical path has a canonical path.** -/
theorem Canonical.declarationSibling (h : p.Canonical) : p.declarationSibling.Canonical := by
  obtain ⟨rooted, out, hout, hp⟩ := exists_spell_normalize p
  rw [show p.normalize = p from h] at hp
  subst hp
  cases out with
  | nil => cases rooted <;> (unfold Canonical; decide +kernel)
  | cons s rest =>
    rw [spell_sibling hout]
    exact normalize_spell hout.sibling

end Recheck.Path
