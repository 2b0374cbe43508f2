import Recheck.Text.Path
import Mathlib.Data.List.Basic
import Mathlib.Data.String.Basic

/-!
# Canonical spellings

`Path.normalize` writes the steps that are left after folding. This file reads such a text back:
`components_spell` says that the steps of a text made of proper segments are those segments, and the two
facts that the rest of the theory needs follow from it:

* two canonical spellings of one path are the same text (`eq_of_beq_normalize`), so a set of canonical paths
  may be compared by `==` or by `=`;
* a canonical spelling is its own (`normalize_normalize`).
-/

set_option autoImplicit false

namespace Recheck.Path

/-! ## Segments -/

/-- A text that can stand between two slashes of a canonical path. -/
structure IsSegment (s : String) : Prop where
  ne_nil : s.toList ≠ []
  ne_dot : s.toList ≠ ['.']
  no_slash : '/' ∉ s.toList
  no_backslash : '\\' ∉ s.toList

/-- The step that a segment of a canonical path stands for. -/
def stepOf (s : String) : Component := if s = ".." then .parent else .name s

theorem stepOf_injective : Function.Injective stepOf := by
  intro s t h
  unfold stepOf at h
  split at h <;> split at h
  · rename_i hs ht; rw [hs, ht]
  · cases h
  · cases h
  · cases h; rfl

theorem stepOf_ne (s : String) : stepOf s ≠ .root ∧ stepOf s ≠ .here := by
  unfold stepOf
  split <;> simp

theorem component?_toList {s : String} (h : IsSegment s) : component? s.toList = some (stepOf s) := by
  have hdots : s.toList = ['.', '.'] ↔ s = ".." := by
    rw [← String.toList_inj]; exact Iff.rfl
  unfold component? stepOf
  rw [if_neg (by simp [h.ne_nil, h.ne_dot])]
  by_cases hs : s = ".."
  · rw [if_pos (hdots.mpr hs), if_pos hs]
  · rw [if_neg (mt hdots.mp hs), if_neg hs, String.ofList_toList]

/-! ## Splitting what was joined -/

theorem splitSlash_ne_nil (cs : List Char) : splitSlash cs ≠ [] := by
  cases cs with
  | nil => simp [splitSlash]
  | cons c cs =>
    rw [splitSlash]
    split
    · simp
    · split <;> simp

/-- Every character of a piece is one of the text, and no slash. -/
theorem mem_of_mem_splitSlash {cs seg : List Char} (h : seg ∈ splitSlash cs) :
    ∀ c ∈ seg, c ∈ cs ∧ c ≠ '/' := by
  induction cs generalizing seg with
  | nil =>
    simp only [splitSlash, List.mem_singleton] at h
    subst h
    simp
  | cons d cs ih =>
    rw [splitSlash] at h
    split at h
    · rcases List.mem_cons.mp h with rfl | h
      · simp
      · exact fun c hc => (ih h c hc).imp_left (List.mem_cons_of_mem _)
    · rename_i hd
      split at h
      · rename_i first rest hfirst
        rcases List.mem_cons.mp h with rfl | h
        · intro c hc
          rcases List.mem_cons.mp hc with rfl | hc
          · exact ⟨List.mem_cons_self, hd⟩
          · exact (ih (by rw [hfirst]; exact List.mem_cons_self) c hc).imp_left
              (List.mem_cons_of_mem _)
        · exact fun c hc => (ih (by rw [hfirst]; exact List.mem_cons_of_mem _ h) c hc).imp_left
            (List.mem_cons_of_mem _)
      · rename_i hnil
        exact absurd hnil (splitSlash_ne_nil cs)

theorem splitSlash_append_slash (cs ds : List Char) : splitSlash (cs ++ '/' :: ds) = splitSlash cs ++ splitSlash ds := by
  induction cs with
  | nil => rfl
  | cons c cs ih =>
    rw [List.cons_append, splitSlash, splitSlash, ih]
    split
    · rfl
    · cases h : splitSlash cs with
      | nil => exact absurd h (splitSlash_ne_nil cs)
      | cons seg rest => rfl

theorem splitSlash_of_not_mem {seg : List Char} (h : '/' ∉ seg) : splitSlash seg = [seg] := by
  induction seg with
  | nil => rfl
  | cons c seg ih =>
    rw [List.mem_cons, not_or] at h
    rw [splitSlash, if_neg (Ne.symm h.1), ih h.2]

theorem intercalate_cons (s t : String) (rest : List String) :
    (Chars.intercalate "/" (s :: t :: rest)).toList =
      s.toList ++ '/' :: (Chars.intercalate "/" (t :: rest)).toList := by
  show (s ++ "/" ++ Chars.intercalate "/" (t :: rest)).toList = _
  rw [String.toList_append, String.toList_append, List.append_assoc]
  rfl

theorem splitSlash_intercalate : ∀ {out : List String}, out ≠ [] → (∀ s ∈ out, '/' ∉ s.toList) →
    splitSlash (Chars.intercalate "/" out).toList = out.map String.toList
  | [], h, _ => absurd rfl h
  | [s], _, hs => splitSlash_of_not_mem (hs s List.mem_cons_self)
  | s :: t :: rest, _, hs => by
    have ih := splitSlash_intercalate (List.cons_ne_nil t rest)
      fun u hu => hs u (List.mem_cons_of_mem _ hu)
    rw [intercalate_cons, splitSlash_append_slash, splitSlash_of_not_mem (hs s List.mem_cons_self), ih]
    rfl

/-! ## Reading a canonical text -/

/-- The text of a path that begins at the root or does not, with these segments. -/
def spell (rooted : Bool) (out : List String) : Path :=
  let joined := (if rooted then "/" else "") ++ Chars.intercalate "/" out
  if joined = "" then ⟨"."⟩ else ⟨joined⟩

/-- The steps behind the root, if there is one. -/
def stepsOf (rooted : Bool) (out : List String) : List Component :=
  if rooted then .root :: out.map stepOf
  else if out = [] then [.here]
  else out.map stepOf

theorem filterMap_component? {out : List String} (h : ∀ s ∈ out, IsSegment s) :
    (out.map String.toList).filterMap component? = out.map stepOf := by
  induction out with
  | nil => rfl
  | cons s rest ih =>
    rw [List.map_cons, List.filterMap_cons, component?_toList (h s List.mem_cons_self), List.map_cons,
      ih fun t ht => h t (List.mem_cons_of_mem _ ht)]

theorem components_eq_of_split {p : Path} {seg : List Char} {rest : List (List Char)}
    (h : splitSlash p.text.toList = seg :: rest) :
    p.components =
      ((if seg = [] && !rest.isEmpty then some .root
        else if seg = ['.'] then some .here
        else component? seg).toList ++ rest.filterMap component?) := by
  unfold components segments
  rw [h]
  have hrest : (rest.map fun seg => (seg, component? seg)).filterMap (·.2) = rest.filterMap component? := by
    rw [List.filterMap_map]; rfl
  by_cases hroot : (seg = [] && !rest.isEmpty) = true
  · simp only [if_pos hroot, List.filterMap_cons, hrest]
    rfl
  · by_cases hdot : seg = ['.']
    · simp only [if_neg hroot, if_pos hdot, List.filterMap_cons, hrest]
      rfl
    · simp only [if_neg hroot, if_neg hdot, List.filterMap_cons, hrest]
      cases component? seg <;> rfl

theorem intercalate_ne_nil {s : String} (hs : IsSegment s) (rest : List String) :
    (Chars.intercalate "/" (s :: rest)).toList ≠ [] := by
  cases rest with
  | nil => exact hs.ne_nil
  | cons t rest => rw [intercalate_cons]; simp

theorem text_spell_rooted (out : List String) :
    (spell true out).text.toList = '/' :: (Chars.intercalate "/" out).toList := by
  have h : ("/" ++ Chars.intercalate "/" out).toList = '/' :: (Chars.intercalate "/" out).toList := by
    rw [String.toList_append]; rfl
  have hne : "/" ++ Chars.intercalate "/" out ≠ "" := by
    intro he; rw [he] at h; exact absurd h (by simp)
  unfold spell
  rw [if_pos rfl]
  dsimp only
  rw [if_neg hne, h]

theorem text_spell_relative {s : String} (hs : IsSegment s) (rest : List String) :
    (spell false (s :: rest)).text.toList = (Chars.intercalate "/" (s :: rest)).toList := by
  have hne : Chars.intercalate "/" (s :: rest) ≠ "" := by
    intro he; exact intercalate_ne_nil hs rest (by rw [he]; rfl)
  unfold spell
  rw [if_neg Bool.false_ne_true, String.empty_append]
  dsimp only
  rw [if_neg hne]

theorem components_spell (rooted : Bool) {out : List String} (h : ∀ s ∈ out, IsSegment s) :
    (spell rooted out).components = stepsOf rooted out := by
  cases out with
  | nil => cases rooted <;> decide
  | cons s rest =>
    have hs := h s List.mem_cons_self
    have hsplit := splitSlash_intercalate (List.cons_ne_nil s rest) fun t ht => (h t ht).no_slash
    cases rooted with
    | true =>
      have hroot : splitSlash (spell true (s :: rest)).text.toList =
          [] :: (s :: rest).map String.toList := by
        rw [text_spell_rooted, splitSlash, if_pos rfl, hsplit]
      rw [components_eq_of_split hroot, filterMap_component? h]
      rfl
    | false =>
      have hplain : splitSlash (spell false (s :: rest)).text.toList =
          s.toList :: rest.map String.toList := by
        rw [text_spell_relative hs, hsplit, List.map_cons]
      rw [components_eq_of_split hplain, if_neg (by simp [hs.ne_nil]), if_neg hs.ne_dot,
        component?_toList hs, filterMap_component? fun t ht => h t (List.mem_cons_of_mem _ ht)]
      rfl

theorem spell_injective {rooted rooted' : Bool} {out out' : List String}
    (h : ∀ s ∈ out, IsSegment s) (h' : ∀ s ∈ out', IsSegment s)
    (heq : (spell rooted out == spell rooted' out') = true) : spell rooted out = spell rooted' out' := by
  rw [beq_iff, components_spell rooted h, components_spell rooted' h'] at heq
  have hinj := List.map_injective_iff.mpr stepOf_injective
  -- A rooted spelling begins with a step that no relative one has; of one kind, the steps are compared.
  cases rooted <;> cases rooted' <;> simp only [stepsOf, Bool.false_eq_true, if_false, if_true] at heq
  · cases out <;> cases out' <;>
      simp only [reduceCtorEq, if_true, if_false, List.map_cons, List.cons.injEq] at heq
    · rfl
    · exact absurd heq.1.symm (stepOf_ne _).2
    · exact absurd heq.1 (stepOf_ne _).2
    · rw [stepOf_injective heq.1, hinj heq.2]
  · cases out <;> simp only [reduceCtorEq, if_true, if_false, List.map_cons, List.cons.injEq] at heq
    · exact absurd heq.1 (by simp)
    · exact absurd heq.1 (stepOf_ne _).1
  · cases out' <;> simp only [reduceCtorEq, if_true, if_false, List.map_cons, List.cons.injEq] at heq
    · exact absurd heq.1 (by simp)
    · exact absurd heq.1.symm (stepOf_ne _).1
  · rw [hinj (List.cons_eq_cons.mp heq).2]

/-! ## Folding -/

/-- A stack of segments, the last one on top: `..` stands only where nothing can be left. -/
def Folded (rooted : Bool) : List String → Prop
  | [] => True
  | s :: rest => IsSegment s ∧ (s = ".." → rooted = false ∧ ∀ t ∈ rest, t = "..") ∧ Folded rooted rest

theorem Folded.isSegment {rooted : Bool} : ∀ {out : List String}, Folded rooted out →
    ∀ s ∈ out, IsSegment s
  | [], _ => by simp
  | _ :: _, h => List.forall_mem_cons.mpr ⟨h.1, h.2.2.isSegment⟩

theorem isSegment_dots : IsSegment ".." :=
  ⟨by decide, by decide, by decide, by decide⟩

theorem Folded.step {rooted : Bool} {out : List String} (h : Folded rooted out) {c : Component}
    (hc : ∀ s, c = .name s → IsSegment s ∧ s ≠ "..") : Folded rooted (foldStep rooted out c) := by
  cases c with
  | root => exact h
  | here => exact h
  | name s =>
    obtain ⟨hs, hne⟩ := hc s rfl
    exact ⟨hs, fun hdots => absurd hdots hne, h⟩
  | parent =>
    cases out with
    | nil =>
      cases rooted with
      | true => exact h
      | false => exact ⟨isSegment_dots, by simp, trivial⟩
    | cons last rest =>
      by_cases hlast : last = ".."
      -- On top of `..` nothing can be left: at the root the step is lost, elsewhere it is kept.
      · cases rooted with
        | true => simpa [foldStep, hlast] using h
        | false =>
          simp only [foldStep, if_pos hlast, Bool.false_eq_true, if_false]
          refine ⟨isSegment_dots, fun _ => ⟨rfl, List.forall_mem_cons.mpr ⟨hlast, ?_⟩⟩, h⟩
          exact (h.2.1 hlast).2
      · simpa [foldStep, hlast] using h.2.2

theorem Folded.foldl {rooted : Bool} : ∀ {steps : List Component} {out : List String},
    Folded rooted out → (∀ c ∈ steps, ∀ s, c = .name s → IsSegment s ∧ s ≠ "..") →
    Folded rooted (steps.foldl (foldStep rooted) out)
  | [], _, h, _ => h
  | c :: _, _, h, hs =>
    (h.step (hs c List.mem_cons_self)).foldl fun d hd => hs d (List.mem_cons_of_mem _ hd)

/-- Folding the steps of a folded stack puts it together again. -/
theorem foldl_stepOf {rooted : Bool} : ∀ {out : List String}, Folded rooted out →
    (out.reverse.map stepOf).foldl (foldStep rooted) [] = out
  | [], _ => rfl
  | s :: rest, h => by
    rw [List.reverse_cons, List.map_append, List.foldl_append, foldl_stepOf h.2.2]
    simp only [List.map_cons, List.map_nil, List.foldl_cons, List.foldl_nil, stepOf]
    by_cases hs : s = ".."
    · obtain ⟨hrooted, hrest⟩ := h.2.1 hs
      rw [if_pos hs, hrooted, hs]
      cases rest with
      | nil => rfl
      | cons t rest =>
        rw [hrest t List.mem_cons_self]
        rfl
    · rw [if_neg hs]
      rfl

/-! ## The canonical spelling -/

theorem no_backslash_forwardSlashes (p : Path) : '\\' ∉ (forwardSlashes p).text.toList := by
  unfold forwardSlashes
  rw [String.toList_ofList, List.mem_map]
  rintro ⟨c, _, hc⟩
  split at hc
  · exact absurd hc (by decide)
  · rename_i h; exact h hc

theorem name_of_mem_components {p : Path} (hp : '\\' ∉ p.text.toList) {s : String}
    (h : .name s ∈ p.components) : IsSegment s ∧ s ≠ ".." := by
  obtain ⟨seg, rest, hsplit⟩ := List.exists_cons_of_ne_nil (splitSlash_ne_nil p.text.toList)
  have hseg : ∃ seg ∈ splitSlash p.text.toList, component? seg = some (.name s) := by
    rw [components_eq_of_split hsplit, List.mem_append] at h
    rcases h with h | h
    · refine ⟨seg, by rw [hsplit]; exact List.mem_cons_self, ?_⟩
      split at h
      · simp at h
      · split at h
        · simp at h
        · simpa using h
    · obtain ⟨t, ht, hts⟩ := List.mem_filterMap.mp h
      exact ⟨t, by rw [hsplit]; exact List.mem_cons_of_mem _ ht, hts⟩
  -- The name is a piece between slashes, and neither empty nor one of the dots.
  obtain ⟨seg, hmem, hc⟩ := hseg
  have hchars := mem_of_mem_splitSlash hmem
  unfold component? at hc
  split at hc
  · cases hc
  · rename_i hne
    split at hc
    · cases hc
    · rename_i hdots
      cases hc
      rw [Bool.or_eq_true, decide_eq_true_eq, decide_eq_true_eq, not_or] at hne
      refine ⟨⟨?_, ?_, ?_, ?_⟩, ?_⟩
      · rw [String.toList_ofList]; exact hne.1
      · rw [String.toList_ofList]; exact hne.2
      · rw [String.toList_ofList]; exact fun hm => (hchars _ hm).2 rfl
      · rw [String.toList_ofList]; exact fun hm => hp (hchars _ hm).1
      · intro he
        rw [← String.toList_inj, String.toList_ofList] at he
        exact hdots he

/-- Whether the steps of a path begin at the root. -/
def isRooted (steps : List Component) : Bool := steps.head? = some .root

theorem normalize_eq_spell (p : Path) :
    p.normalize = spell (isRooted (forwardSlashes p).components)
      ((forwardSlashes p).components.foldl
        (foldStep (isRooted (forwardSlashes p).components)) []).reverse := by
  unfold normalize spell isRooted
  simp only [decide_eq_true_eq]

/-- A canonical path is the spelling of a folded stack. -/
theorem exists_spell_normalize (p : Path) :
    ∃ rooted out, Folded rooted out ∧ p.normalize = spell rooted out.reverse := by
  have hnil : Folded (isRooted (forwardSlashes p).components) [] := trivial
  refine ⟨_, _, hnil.foldl ?_, normalize_eq_spell p⟩
  rintro c hc s rfl
  exact name_of_mem_components (no_backslash_forwardSlashes p) hc

theorem isSegment_reverse {rooted : Bool} {out : List String} (h : Folded rooted out) :
    ∀ s ∈ out.reverse, IsSegment s := fun s hs => h.isSegment s (List.mem_reverse.mp hs)

/-- **One path has one canonical spelling.** -/
theorem eq_of_beq_normalize {p q : Path} (h : (p.normalize == q.normalize) = true) :
    p.normalize = q.normalize := by
  obtain ⟨rooted, out, hout, hp⟩ := exists_spell_normalize p
  obtain ⟨rooted', out', hout', hq⟩ := exists_spell_normalize q
  rw [hp, hq] at h ⊢
  exact spell_injective (isSegment_reverse hout) (isSegment_reverse hout') h

theorem no_backslash_intercalate : ∀ {out : List String}, (∀ s ∈ out, IsSegment s) →
    '\\' ∉ (Chars.intercalate "/" out).toList
  | [], _ => by decide
  | [s], h => (h s List.mem_cons_self).no_backslash
  | s :: t :: rest, h => by
    have hrest : ∀ u ∈ t :: rest, IsSegment u := fun u hu => h u (List.mem_cons_of_mem _ hu)
    have ih := no_backslash_intercalate hrest
    rw [intercalate_cons, List.mem_append, List.mem_cons, not_or, not_or]
    exact ⟨(h s List.mem_cons_self).no_backslash, by decide, ih⟩

theorem no_backslash_spell (rooted : Bool) {out : List String} (h : ∀ s ∈ out, IsSegment s) :
    '\\' ∉ (spell rooted out).text.toList := by
  cases rooted with
  | true =>
    rw [text_spell_rooted, List.mem_cons, not_or]
    exact ⟨by decide, no_backslash_intercalate h⟩
  | false =>
    cases out with
    | nil => decide
    | cons s rest =>
      rw [text_spell_relative (h s List.mem_cons_self)]
      exact no_backslash_intercalate h

theorem forwardSlashes_of_no_backslash {p : Path} (h : '\\' ∉ p.text.toList) : forwardSlashes p = p := by
  have hmap : p.text.toList.map (fun c => if c = '\\' then '/' else c) = p.text.toList.map id := by
    refine List.map_congr_left fun c hc => if_neg ?_
    rintro rfl
    exact h hc
  unfold forwardSlashes
  rw [hmap, List.map_id, String.ofList_toList]

/-- Folding the steps of a canonical spelling leads back to its stack. -/
theorem foldl_stepsOf {rooted : Bool} {out : List String} (h : Folded rooted out) :
    (stepsOf rooted out.reverse).foldl (foldStep rooted) [] = out := by
  have hfold := foldl_stepOf h
  unfold stepsOf
  cases rooted with
  | true => exact hfold
  | false =>
    rw [if_neg Bool.false_ne_true]
    split
    · rename_i hnil
      rw [List.reverse_eq_nil_iff] at hnil
      rw [hnil]; rfl
    · exact hfold

theorem isRooted_stepsOf (rooted : Bool) (out : List String) : isRooted (stepsOf rooted out) = rooted := by
  cases rooted with
  | true => rfl
  | false =>
    cases out with
    | nil => decide
    | cons s rest =>
      have : stepOf s ≠ .root := (stepOf_ne s).1
      simpa [isRooted, stepsOf] using this

theorem normalize_spell {rooted : Bool} {out : List String} (hout : Folded rooted out) :
    (spell rooted out.reverse).normalize = spell rooted out.reverse := by
  have hseg := isSegment_reverse hout
  have hsteps : (forwardSlashes (spell rooted out.reverse)).components = stepsOf rooted out.reverse := by
    rw [forwardSlashes_of_no_backslash (no_backslash_spell rooted hseg), components_spell rooted hseg]
  rw [normalize_eq_spell, hsteps, isRooted_stepsOf, foldl_stepsOf hout]

/-- **A canonical spelling is its own.** -/
theorem normalize_normalize (p : Path) : p.normalize.normalize = p.normalize := by
  obtain ⟨rooted, out, hout, hp⟩ := exists_spell_normalize p
  rw [hp, normalize_spell hout]

end Recheck.Path
