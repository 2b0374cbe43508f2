import Recheck.Proofs.Text.PathSteps

/-!
# A canonical base

What a path says behind a base does not depend on how the base is spelled, even where the path leaves the base again.
Folding the steps of the base leaves a `stack`, the canonical spelling of the base folds to the same one, and the steps
behind the base go on from there (`stack_join_normalize`). The form of a canonical spelling (`IsFolded`) is that of a
folded stack.
-/

set_option autoImplicit false

namespace Recheck.Path

variable {b p x : Path}

/-! ## The form of a canonical spelling -/

/-- Whether a path as written begins with a slash of either kind. -/
def startsWithSlash (p : Path) : Bool := p.text.toList.head?.any fun c => c = '/' || c = '\\'

/-- The texts between the slashes behind the root. The root alone has none. -/
def names (p : Path) : List (List Char) :=
  let cs := p.text.toList
  if cs = ['/'] then [] else splitSlash (if p.isAbsolute then cs.tail else cs)

/-- No backslash, no segment that says nothing, and `..` only where nothing can be left. -/
structure IsFolded (p : Path) : Prop where
  no_backslash : '\\' ∉ p.text.toList
  proper : p.text = "." ∨ ∀ seg ∈ p.names, seg ≠ [] ∧ seg ≠ ['.']
  parents : ∀ front back, p.names = front ++ ['.', '.'] :: back →
    p.isAbsolute = false ∧ ∀ seg ∈ front, seg = ['.', '.']

theorem isAbsolute_spell (rooted : Bool) {out : List String} (h : ∀ s ∈ out, IsSegment s) :
    (spell rooted out).isAbsolute = rooted := by
  cases rooted with
  | true => simp [isAbsolute, text_spell_rooted]
  | false =>
    cases out with
    | nil => decide
    | cons s rest =>
      have hs := h s List.mem_cons_self
      obtain ⟨c, cs, hc⟩ := List.exists_cons_of_ne_nil hs.ne_nil
      have hslash : c ≠ '/' := fun hslash => hs.no_slash (by rw [hc, hslash]; exact List.mem_cons_self)
      unfold isAbsolute
      rw [text_spell_relative hs]
      cases rest with
      | nil => simp [Chars.intercalate, hc, hslash]
      | cons t rest => simp [intercalate_cons, hc, hslash]

theorem names_spell {rooted : Bool} {out : List String} (h : ∀ s ∈ out, IsSegment s)
    (hne : rooted = true ∨ out ≠ []) : (spell rooted out).names = out.map String.toList := by
  unfold names
  rw [isAbsolute_spell rooted h]
  cases out with
  | nil =>
    obtain rfl := hne.resolve_right (not_not_intro rfl)
    rfl
  | cons s rest =>
    have hs := h s List.mem_cons_self
    have hsplit := splitSlash_intercalate (List.cons_ne_nil s rest) fun t ht => (h t ht).no_slash
    cases rooted with
    | true =>
      rw [text_spell_rooted, if_neg, if_pos rfl, List.tail_cons, hsplit]
      exact fun hroot => intercalate_ne_nil hs rest (List.cons.inj hroot).2
    | false =>
      rw [text_spell_relative hs, if_neg, if_neg Bool.false_ne_true, hsplit]
      intro hroot
      rw [hroot] at hsplit
      exact hs.ne_nil (List.cons.inj hsplit).1.symm

/-- Under a `..` a folded stack holds nothing else, and no root. -/
theorem Folded.parents {rooted : Bool} {above below : List String} (h : Folded rooted (above ++ ".." :: below)) :
    rooted = false ∧ ∀ t ∈ below, t = ".." := by
  induction above with
  | nil => exact h.2.1 rfl
  | cons s above ih => exact ih h.2.2

theorem isFolded_spell {rooted : Bool} {out : List String} (h : Folded rooted out) :
    (spell rooted out.reverse).IsFolded := by
  have hsegments := isSegment_reverse h
  by_cases hne : rooted = true ∨ out.reverse ≠ []
  · have hnames := names_spell hsegments hne
    refine ⟨no_backslash_spell rooted hsegments, .inr ?_, ?_⟩
    · rw [hnames, List.forall_mem_map]
      exact fun s hs => ⟨(hsegments s hs).ne_nil, (hsegments s hs).ne_dot⟩
    · intro front back hsplit
      rw [hnames] at hsplit
      obtain ⟨below, rest, hout, hbelow, hrest⟩ := List.map_eq_append_iff.mp hsplit
      obtain ⟨dots, above, rfl, hdots, -⟩ := List.map_eq_cons_iff.mp hrest
      obtain rfl : dots = ".." := String.toList_inj.mp hdots
      -- The stack has its last segment on top.
      have hstack : out = above.reverse ++ ".." :: below.reverse := by
        rw [← List.reverse_reverse out, hout]
        simp
      obtain ⟨hrooted, hall⟩ := (hstack ▸ h).parents
      refine ⟨(isAbsolute_spell rooted hsegments).trans hrooted, ?_⟩
      rw [← hbelow, List.forall_mem_map]
      exact fun s hs => congrArg String.toList (hall s (List.mem_reverse.mpr hs))
  · obtain ⟨hrooted, hnil⟩ := not_or.mp hne
    obtain rfl : rooted = false := Bool.eq_false_iff.mpr hrooted
    obtain rfl : out = [] := List.reverse_eq_nil_iff.mp (not_not.mp hnil)
    refine ⟨by decide, .inl (by decide), fun front back hsplit => ?_⟩
    have hnames : (spell false [].reverse).names = [['.']] := by decide
    rw [hnames, List.singleton_eq_append_iff] at hsplit
    rcases hsplit with ⟨-, hdots⟩ | ⟨-, hdots⟩
    · exact absurd (List.cons.inj hdots).1 (by decide)
    · exact nomatch hdots

/-! ## The root -/

theorem head?_slashed (p : Path) : (forwardSlashes p).text.toList.head? = p.text.toList.head?.map slashed := by
  rw [← List.head?_map]
  exact congrArg List.head? String.toList_ofList

/-- The first step is the root just if the text begins with a slash. -/
theorem isRooted_components (p : Path) : isRooted p.components = p.isAbsolute := by
  obtain ⟨seg, rest, hsplit⟩ := List.exists_cons_of_ne_nil (splitSlash_ne_nil p.text.toList)
  unfold isRooted isAbsolute
  rw [components_eq_firstStep? hsplit]
  cases hp : p.text.toList with
  | nil =>
    obtain ⟨rfl, rfl⟩ : [] = seg ∧ [] = rest := List.cons.inj (by rw [← hsplit, hp]; rfl)
    rfl
  | cons c cs =>
    rw [hp, splitSlash] at hsplit
    by_cases hc : c = '/'
    · rw [if_pos hc] at hsplit
      obtain ⟨rfl, rfl⟩ := List.cons.inj hsplit
      simp [firstStep?, splitSlash_ne_nil, hc]
    · rw [if_neg hc] at hsplit
      obtain ⟨first, inner, hfirst⟩ := List.exists_cons_of_ne_nil (splitSlash_ne_nil cs)
      rw [hfirst] at hsplit
      obtain ⟨rfl, rfl⟩ := List.cons.inj hsplit
      rcases component?_cases (c :: first) with ⟨-, h | h⟩ | ⟨-, h⟩ | h
      · exact absurd h (List.cons_ne_nil _ _)
      · simp [firstStep?, h, hc]
      · simp [firstStep?, h, hc, component?]
      · simp [firstStep?_of_name h, hc]

theorem isRooted_forwardSlashes (p : Path) : isRooted (forwardSlashes p).components = p.startsWithSlash := by
  rw [isRooted_components, isAbsolute, head?_slashed, startsWithSlash]
  cases p.text.toList.head? with
  | none => rfl
  | some c =>
    by_cases hc : c = '\\'
    · simp [slashed, hc]
    · simp [slashed, hc]

/-! ## Going on from a base -/

/-- What the steps of a path leave on the stack. -/
@[irreducible]
def stack (p : Path) : List String := (forwardSlashes p).components.foldl (foldStep p.startsWithSlash) []

theorem normalize_eq_spell_stack (p : Path) : p.normalize = spell p.startsWithSlash p.stack.reverse := by
  rw [normalize_eq_spell, isRooted_forwardSlashes, stack]

theorem folded_stack (p : Path) : Folded p.startsWithSlash p.stack := by
  have hnil : Folded p.startsWithSlash [] := trivial
  have hnames : ∀ c ∈ (forwardSlashes p).components, ∀ s, c = .name s → IsSegment s ∧ s ≠ ".." := by
    rintro c hc s rfl
    exact name_of_mem_components (no_backslash_forwardSlashes p) hc
  rw [stack]
  generalize (forwardSlashes p).components = steps at hnames ⊢
  exact hnil.foldl hnames

theorem isAbsolute_normalize (p : Path) : p.normalize.isAbsolute = p.startsWithSlash := by
  rw [normalize_eq_spell_stack, isAbsolute_spell _ (isSegment_reverse (folded_stack p))]

theorem components_normalize (p : Path) :
    (forwardSlashes p.normalize).components = stepsOf p.startsWithSlash p.stack.reverse := by
  have hsegments := isSegment_reverse (folded_stack p)
  rw [normalize_eq_spell_stack, forwardSlashes_of_no_backslash (no_backslash_spell _ hsegments),
    components_spell _ hsegments]

theorem startsWithSlash_normalize (p : Path) : p.normalize.startsWithSlash = p.startsWithSlash := by
  rw [← isRooted_forwardSlashes, components_normalize, isRooted_stepsOf]

/-- Folding does not tell the first segment of a relative path from the others. -/
theorem foldl_components (h : p.isAbsolute = false) (rooted : Bool) (out : List String) :
    p.components.foldl (foldStep rooted) out = (stepsBehind p.text.toList).foldl (foldStep rooted) out := by
  obtain ⟨seg, rest, hsplit⟩ := List.exists_cons_of_ne_nil (splitSlash_ne_nil p.text.toList)
  have hroot : firstStep? seg rest ≠ some .root := by
    intro hfirst
    have hrooted := isRooted_components p
    rw [components_eq_firstStep? hsplit, hfirst, h] at hrooted
    exact absurd hrooted (by simp [isRooted])
  have hfirst : firstStep? seg rest = component? seg ∨ firstStep? seg rest = some .here ∧ component? seg = none := by
    unfold firstStep? at hroot ⊢
    split at hroot
    · exact absurd rfl hroot
    · rename_i hempty
      rw [if_neg hempty]
      split
      · rename_i hdot
        exact .inr ⟨rfl, by rw [hdot]; rfl⟩
      · exact .inl rfl
  rw [stepsBehind, hsplit, components_eq_firstStep? hsplit, List.filterMap_cons]
  rcases hfirst with hsame | ⟨hhere, hnone⟩
  · rw [hsame]
    cases component? seg <;> rfl
  · rw [hhere, hnone]
    rfl

theorem forwardSlashes_text (p : Path) : (forwardSlashes p).text.toList = p.text.toList.map slashed :=
  String.toList_ofList

theorem isAbsolute_of_startsWithSlash (h : x.startsWithSlash = false) :
    x.isAbsolute = false ∧ (forwardSlashes x).isAbsolute = false := by
  rw [← isRooted_components (forwardSlashes x), isRooted_forwardSlashes]
  refine ⟨?_, h⟩
  unfold startsWithSlash at h
  unfold isAbsolute
  cases hx : x.text.toList.head? with
  | none => rfl
  | some c => simp_all

/-- The steps behind a base go on from where the steps of the base lead. -/
theorem foldl_components_join (hx : x.startsWithSlash = false) (b : Path) (rooted : Bool) :
    (forwardSlashes (b.join x)).components.foldl (foldStep rooted) [] =
      (stepsBehind (forwardSlashes x).text.toList).foldl (foldStep rooted)
        ((forwardSlashes b).components.foldl (foldStep rooted) []) := by
  obtain ⟨habsolute, hforward⟩ := isAbsolute_of_startsWithSlash hx
  by_cases hb : b.text = ""
  · have hjoin : b.join x = x := by simp [join, habsolute, hb]
    have hsteps : (forwardSlashes b).components = [] := by
      rw [components_eq_nil_iff, ← String.toList_inj, forwardSlashes_text, hb]
      rfl
    rw [hjoin, hsteps, foldl_components hforward]
    rfl
  · have hbase : (forwardSlashes b).text ≠ "" := fun hempty => hb <| by
      rw [← String.toList_inj, forwardSlashes_text] at hempty
      exact String.toList_inj.mp (List.map_eq_nil_iff.mp hempty)
    have hsteps : (forwardSlashes (b.join x)).components =
        (forwardSlashes b).components ++ stepsBehind (forwardSlashes x).text.toList := by
      unfold join
      rw [if_neg (by simp [habsolute])]
      by_cases hlast : b.text.toList.getLast? = some '/'
      · rw [if_pos (by simp [hlast])]
        refine components_behind_slash ?_ ?_
        · rw [forwardSlashes_text, List.getLast?_map, hlast]
          rfl
        · simp only [forwardSlashes_text, String.toList_append, List.map_append]
      · rw [if_neg (by simp [hb, hlast])]
        refine components_behind hbase ?_
        simp only [forwardSlashes_text, String.toList_append, List.map_append, List.append_assoc]
        rfl
    rw [hsteps, List.foldl_append]

theorem startsWithSlash_join (hx : x.startsWithSlash = false) (b : Path) :
    (b.join x).startsWithSlash = b.startsWithSlash := by
  have habsolute := (isAbsolute_of_startsWithSlash hx).1
  cases hb : b.text.toList with
  | nil =>
    have hempty : b.text = "" := String.toList_inj.mp hb
    have hjoin : b.join x = x := by simp [join, habsolute, hempty]
    rw [hjoin, hx, startsWithSlash, hb]
    rfl
  | cons c cs =>
    have hhead : (b.join x).text.toList.head? = some c := by
      unfold join
      rw [if_neg (by simp [habsolute])]
      split <;> simp [hb]
    rw [startsWithSlash, startsWithSlash, hhead, hb]
    rfl

/-- The stack of a base stands for the base. -/
theorem stack_join_normalize (b : Path) (hx : x.startsWithSlash = false) :
    (b.normalize.join x).stack = (b.join x).stack := by
  have hbase : (forwardSlashes b.normalize).components.foldl (foldStep b.startsWithSlash) [] = b.stack := by
    rw [components_normalize, foldl_stepsOf (folded_stack b)]
  unfold stack
  rw [startsWithSlash_join hx, startsWithSlash_join hx, startsWithSlash_normalize, foldl_components_join hx,
    foldl_components_join hx, hbase, stack]

/-- **Canonical spellings have one form, are rooted as they were, and stand for the path as a base of others.** -/
theorem normalize_canonical (p : Path) :
    p.normalize.normalize = p.normalize ∧ p.normalize.IsFolded ∧ p.normalize.isAbsolute = p.startsWithSlash ∧
      ∀ x : Path, x.startsWithSlash = false → (p.normalize.join x).normalize = (p.join x).normalize := by
  refine ⟨normalize_normalize p, ?_, isAbsolute_normalize p, fun x hx => ?_⟩
  · rw [normalize_eq_spell_stack]
    exact isFolded_spell (folded_stack p)
  · rw [normalize_eq_spell_stack (p.normalize.join x), normalize_eq_spell_stack (p.join x), stack_join_normalize p hx,
      startsWithSlash_join hx, startsWithSlash_join hx, startsWithSlash_normalize]

/-- A base that climbs out of its first directory, with both kinds of slashes, and a path that climbs on. -/
theorem normalize_canonical_climbing :
    let b : Path := ⟨"a\\..//..\\lib/./"⟩
    let x : Path := ⟨"..\\../c"⟩
    x.startsWithSlash = false ∧ (b.normalize.join x).normalize = (b.join x).normalize ∧
      (b.join x).normalize = ⟨"../../c"⟩ := by
  intro b x
  have hx : x.startsWithSlash = false := by decide
  exact ⟨hx, (normalize_canonical b).2.2.2 x hx, by decide +kernel⟩

end Recheck.Path
