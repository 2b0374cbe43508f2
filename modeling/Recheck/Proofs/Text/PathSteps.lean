import Recheck.Proofs.Text.PathNormal

/-!
# Paths up to their spelling

Two spellings of a path lead through the same steps. What is done with a path on the way from a specifier to a file
tells them apart as little: the directory above (`parent?_congr`), a path behind it (`join_congr`), and the canonical
spelling (`normalize_congr`). For each the steps of the result are read off the steps of the path. A backslash is part
of a name until `forwardSlashes` makes it a slash, so there a name falls into steps of its own.
-/

set_option autoImplicit false

namespace Recheck.Path

variable {a b p : Path}

/-! ## Texts behind a slash -/

/-- The steps of a text that stands behind a slash. -/
def stepsBehind (cs : List Char) : List Component := (splitSlash cs).filterMap component?

theorem eq_nil_of_splitSlash {cs : List Char} (h : splitSlash cs = [[]]) : cs = [] := by
  cases cs with
  | nil => rfl
  | cons c cs =>
    rw [splitSlash] at h
    split at h
    · exact absurd (List.cons.inj h).2 (splitSlash_ne_nil cs)
    · split at h
      · exact absurd (List.cons.inj h).1 (List.cons_ne_nil _ _)
      · exact absurd (List.cons.inj h).1 (List.cons_ne_nil _ _)

theorem component?_cases (seg : List Char) :
    (component? seg = none ∧ (seg = [] ∨ seg = ['.'])) ∨ (component? seg = some .parent ∧ seg = ['.', '.']) ∨
      component? seg = some (.name (String.ofList seg)) := by
  unfold component?
  split
  · exact .inl ⟨rfl, by simp_all⟩
  · split
    · exact .inr (.inl ⟨rfl, by assumption⟩)
    · exact .inr (.inr rfl)

/-- The step of the first segment. With a slash behind it, an empty one is the root. -/
def firstStep? (seg : List Char) (rest : List (List Char)) : Option Component :=
  if seg = [] && !rest.isEmpty then some .root
  else if seg = ['.'] then some .here
  else component? seg

/-- Of what stands behind the first segment, an empty one is told only whether there is something. -/
theorem firstStep?_congr {seg : List Char} {rest rest' : List (List Char)}
    (h : seg = [] → (rest = [] ↔ rest' = [])) : firstStep? seg rest = firstStep? seg rest' := by
  unfold firstStep?
  by_cases hseg : seg = []
  · cases rest <;> cases rest' <;> simp_all
  · simp [hseg]

/-- Where a name stands does not matter. -/
theorem firstStep?_of_name {seg : List Char} {s : String} (h : component? seg = some (.name s))
    (rest : List (List Char)) : firstStep? seg rest = some (.name s) := by
  have hseg : seg ≠ [] ∧ seg ≠ ['.'] := by
    constructor <;> rintro rfl <;> exact nomatch h
  simp [firstStep?, hseg.1, hseg.2, h]

theorem firstStep?_eq_none {seg : List Char} {rest : List (List Char)} (h : firstStep? seg rest = none) :
    seg = [] ∧ rest = [] := by
  rcases component?_cases seg with ⟨-, rfl | rfl⟩ | ⟨-, rfl⟩ | hname
  · cases rest with
    | nil => exact ⟨rfl, rfl⟩
    | cons t rest => exact nomatch h
  · exact nomatch h
  · exact nomatch h
  · exact nomatch (firstStep?_of_name hname rest).symm.trans h

theorem segments_eq_of_split {seg : List Char} {rest : List (List Char)}
    (h : splitSlash p.text.toList = seg :: rest) :
    p.segments = (seg, firstStep? seg rest) :: rest.map fun seg => (seg, component? seg) := by
  unfold segments firstStep?
  rw [h]
  by_cases hroot : (seg = [] && !rest.isEmpty) = true
  · simp only [if_pos hroot]
  · by_cases hdot : seg = ['.']
    · simp only [if_neg hroot, if_pos hdot]
    · simp only [if_neg hroot, if_neg hdot]

theorem components_eq_firstStep? {seg : List Char} {rest : List (List Char)}
    (h : splitSlash p.text.toList = seg :: rest) :
    p.components = (firstStep? seg rest).toList ++ rest.filterMap component? :=
  components_eq_of_split h

theorem components_eq_nil_iff : p.components = [] ↔ p.text = "" := by
  constructor
  · intro h
    obtain ⟨seg, rest, hsplit⟩ := List.exists_cons_of_ne_nil (splitSlash_ne_nil p.text.toList)
    rw [components_eq_firstStep? hsplit, List.append_eq_nil_iff, Option.toList_eq_nil_iff] at h
    obtain ⟨rfl, rfl⟩ := firstStep?_eq_none h.1
    exact String.toList_inj.mp (eq_nil_of_splitSlash hsplit)
  · intro h
    obtain ⟨text⟩ := p
    obtain rfl : text = "" := h
    rfl

/-- Behind a slash the steps of a text are added to those in front. -/
theorem components_behind {q : Path} {cs : List Char} (hp : p.text ≠ "")
    (hq : q.text.toList = p.text.toList ++ '/' :: cs) : q.components = p.components ++ stepsBehind cs := by
  obtain ⟨seg, rest, hsplit⟩ := List.exists_cons_of_ne_nil (splitSlash_ne_nil p.text.toList)
  have hboth : splitSlash q.text.toList = seg :: (rest ++ splitSlash cs) := by
    rw [hq, splitSlash_append_slash, hsplit, List.cons_append]
  -- An empty text in front of no slash would be the whole path.
  have hroot : seg = [] → rest ≠ [] := by
    rintro rfl rfl
    exact hp (String.toList_inj.mp (eq_nil_of_splitSlash hsplit))
  have hfirst : firstStep? seg (rest ++ splitSlash cs) = firstStep? seg rest :=
    firstStep?_congr fun hseg => by simp [hroot hseg]
  rw [components_eq_firstStep? hboth, components_eq_firstStep? hsplit, hfirst, List.filterMap_append, List.append_assoc]
  rfl

theorem components_behind_slash {q : Path} {cs : List Char} (hp : p.text.toList.getLast? = some '/')
    (hq : q.text.toList = p.text.toList ++ cs) : q.components = p.components ++ stepsBehind cs := by
  obtain ⟨front, hfront⟩ := List.getLast?_eq_some_iff.mp hp
  obtain ⟨seg, rest, hsplit⟩ := List.exists_cons_of_ne_nil (splitSlash_ne_nil front)
  have hself : splitSlash p.text.toList = seg :: (rest ++ [[]]) := by
    rw [hfront, splitSlash_append_slash, hsplit, List.cons_append]
    rfl
  have hboth : splitSlash q.text.toList = seg :: (rest ++ splitSlash cs) := by
    rw [hq, hfront, List.append_assoc, List.singleton_append, splitSlash_append_slash, hsplit, List.cons_append]
  have hfirst : firstStep? seg (rest ++ splitSlash cs) = firstStep? seg (rest ++ [[]]) :=
    firstStep?_congr fun _ => by simp [splitSlash_ne_nil]
  have hlast : [[]].filterMap component? = [] := rfl
  rw [components_eq_firstStep? hboth, components_eq_firstStep? hself, hfirst, List.filterMap_append,
    List.filterMap_append, hlast, List.append_nil, List.append_assoc]
  rfl

/-! ## Joining -/

theorem components_join (hp : p.isAbsolute = false) (ha : a.text ≠ "") :
    (a.join p).components = a.components ++ stepsBehind p.text.toList := by
  unfold join
  rw [if_neg (by simp [hp])]
  by_cases hlast : a.text.toList.getLast? = some '/'
  · rw [if_pos (by simp [hlast])]
    exact components_behind_slash hlast (String.toList_append ..)
  · rw [if_neg (by simp [ha, hlast])]
    refine components_behind ha ?_
    rw [String.toList_append, String.toList_append, List.append_assoc]
    rfl

theorem join_congr (h : (a == b) = true) (p : Path) : (a.join p == b.join p) = true := by
  rw [beq_iff] at h
  cases hp : p.isAbsolute with
  | true => simp [join, hp]
  | false =>
    by_cases ha : a.text = ""
    · have hb : b.text = "" := components_eq_nil_iff.mp (h ▸ components_eq_nil_iff.mpr ha)
      simp [join, hp, ha, hb]
    · have hb : b.text ≠ "" := fun hb => ha (components_eq_nil_iff.mp (h ▸ components_eq_nil_iff.mpr hb))
      rw [beq_iff, components_join hp ha, components_join hp hb, h]

/-! ## The directory above -/

/-- The steps of the first segments of a path are those that the segments stand for. -/
theorem components_ofSegments {front tail : List Segment} (h : p.segments = front ++ tail) :
    (ofSegments front).components = front.filterMap (·.2) := by
  obtain ⟨seg, rest, hsplit⟩ := List.exists_cons_of_ne_nil (splitSlash_ne_nil p.text.toList)
  have hslash : ∀ piece ∈ seg :: rest, '/' ∉ piece := fun piece hpiece hmem =>
    (mem_of_mem_splitSlash (hsplit ▸ hpiece) _ hmem).2 rfl
  rw [segments_eq_of_split hsplit] at h
  cases front with
  | nil => rfl
  | cons first front =>
    rw [List.cons_append, List.cons.injEq] at h
    obtain ⟨rfl, h⟩ := h
    obtain ⟨inner, outer, rfl, rfl, rfl⟩ := List.map_eq_append_iff.mp h
    unfold ofSegments
    split
    · rename_i heq
      rw [heq]
      rfl
    · rename_i hroot
      have htexts : ((seg, firstStep? seg (inner ++ outer)) ::
          inner.map fun seg => (seg, component? seg)).map (fun s => String.ofList s.1) =
            (seg :: inner).map String.ofList := by
        simp [Function.comp_def]
      -- Only an empty segment in front of others is the root, and the root alone is spelled with its slash.
      have hsame : firstStep? seg inner = firstStep? seg (inner ++ outer) := by
        refine firstStep?_congr fun hseg => ?_
        cases inner with
        | nil =>
          cases outer with
          | nil => simp
          | cons t outer => exact absurd (by simp [hseg, firstStep?]) (hroot seg)
        | cons t inner => simp
      have hpieces : ∀ s ∈ (seg :: inner).map String.ofList, '/' ∉ s.toList := by
        intro s hs
        obtain ⟨piece, hpiece, rfl⟩ := List.mem_map.mp hs
        rw [String.toList_ofList]
        exact hslash piece (List.cons_append ▸ List.mem_append_left outer hpiece)
      have hinner : splitSlash (Chars.intercalate "/" ((seg :: inner).map String.ofList)).toList = seg :: inner := by
        rw [splitSlash_intercalate (by simp) hpieces]
        simp [Function.comp_def]
      rw [htexts, components_eq_firstStep? hinner, List.filterMap_cons, List.filterMap_map, hsame]
      cases firstStep? seg (inner ++ outer) <;> rfl

/-- The segments at the end that are dropped stand for no steps. -/
theorem exists_silent_tail (segs : List Segment) :
    ∃ tail, segs.reverse = (segs.dropWhile isSilent).reverse ++ tail ∧ tail.filterMap (·.2) = [] := by
  refine ⟨(segs.takeWhile isSilent).reverse, ?_, ?_⟩
  · rw [← List.reverse_append, List.takeWhile_append_dropWhile]
  · refine List.filterMap_eq_nil_iff.mpr fun seg hseg => ?_
    have hall := List.all_eq_true.mp (List.all_takeWhile (p := isSilent) (l := segs)) seg (List.mem_reverse.mp hseg)
    exact Option.isNone_iff_eq_none.mp hall

/-- The directory above has all steps but the last, and only a path without steps or at the root has none. -/
theorem components_parent? (p : Path) :
    match p.parent? with
    | some up => ∃ last, last ≠ .root ∧ p.components = up.components ++ [last]
    | none => p.components = [] ∨ p.components.getLast? = some .root := by
  obtain ⟨tail, hsegments, htail⟩ := exists_silent_tail p.segments.reverse
  rw [List.reverse_reverse] at hsegments
  have hcomponents : p.components = (p.segments.reverse.dropWhile isSilent).reverse.filterMap (·.2) := by
    rw [components, hsegments, List.filterMap_append, htail, List.append_nil, ← hsegments]
  unfold parent?
  cases hspeaking : p.segments.reverse.dropWhile isSilent with
  | nil =>
    rw [hspeaking] at hcomponents
    exact .inl hcomponents
  | cons seg rest =>
    obtain ⟨text, last?⟩ := seg
    obtain ⟨last, rfl⟩ : ∃ last, last? = some last := by
      have hhead := List.head?_dropWhile_not isSilent p.segments.reverse
      rw [hspeaking] at hhead
      exact Option.ne_none_iff_exists'.mp fun hnone => by simp [isSilent, hnone] at hhead
    rw [hspeaking, List.reverse_cons, List.filterMap_append] at hcomponents
    -- What is left in front of the last step begins the path, so it is spelled as it was.
    obtain ⟨inner, hrest, hinner⟩ := exists_silent_tail rest
    have hfront : p.segments = (rest.dropWhile isSilent).reverse ++ (inner ++ (text, some last) :: tail) := by
      rw [hsegments, hspeaking, List.reverse_cons, hrest]
      simp
    have hup : (ofSegments (rest.dropWhile isSilent).reverse).components = rest.reverse.filterMap (·.2) := by
      rw [components_ofSegments hfront, hrest, List.filterMap_append, hinner, List.append_nil]
    cases last with
    | root => exact .inr (by simp [hcomponents])
    | here | parent | name =>
      rw [hcomponents, ← hup]
      exact ⟨_, by simp, rfl⟩

theorem parent?_congr (h : (a == b) = true) : Option.Rel (fun a b => (a == b) = true) a.parent? b.parent? := by
  rw [beq_iff] at h
  have ha := components_parent? a
  have hb := components_parent? b
  rw [h] at ha
  cases hupa : a.parent? with
  | none =>
    cases hupb : b.parent? with
    | none => exact .none
    | some upb =>
      simp only [hupa, hupb] at ha hb
      obtain ⟨last, hlast, hcomponents⟩ := hb
      rw [hcomponents] at ha
      simp [hlast] at ha
  | some upa =>
    simp only [hupa] at ha
    obtain ⟨last, hlast, hcomponents⟩ := ha
    cases hupb : b.parent? with
    | none =>
      simp only [hupb] at hb
      rw [hcomponents] at hb
      simp [hlast] at hb
    | some upb =>
      simp only [hupb] at hb
      obtain ⟨last', -, hcomponents'⟩ := hb
      rw [hcomponents] at hcomponents'
      exact .some (beq_iff.mpr (List.append_inj_left' hcomponents' rfl))

/-! ## The canonical spelling -/

/-- What becomes of a character when slashes take the place of backslashes. -/
def slashed (c : Char) : Char := if c = '\\' then '/' else c

theorem splitSlash_map_slashed (cs : List Char) :
    splitSlash (cs.map slashed) = (splitSlash cs).flatMap fun seg => splitSlash (seg.map slashed) := by
  induction cs with
  | nil => rfl
  | cons c cs ih =>
    by_cases hslash : c = '/'
    · subst hslash
      rw [List.map_cons, splitSlash, splitSlash, ih]
      rfl
    · obtain ⟨seg, rest, hsplit⟩ := List.exists_cons_of_ne_nil (splitSlash_ne_nil cs)
      have hhead : splitSlash (c :: cs) = (c :: seg) :: rest := by rw [splitSlash, if_neg hslash, hsplit]
      rw [hsplit, List.flatMap_cons] at ih
      rw [hhead, List.flatMap_cons, List.map_cons, List.map_cons, splitSlash, splitSlash, ih]
      obtain ⟨first, inner, hfirst⟩ := List.exists_cons_of_ne_nil (splitSlash_ne_nil (seg.map slashed))
      rw [hfirst]
      split <;> rfl

/-- The steps that a step falls into behind a slash. -/
def fallApart : Component → List Component
  | .name s => stepsBehind (s.toList.map slashed)
  | c => [c]

/-- The steps that a first step falls into. -/
def fallApartFirst : Component → List Component
  | .name s => components (forwardSlashes ⟨s⟩)
  | c => [c]

theorem stepsBehind_slashed (seg : List Char) :
    stepsBehind (seg.map slashed) = (component? seg).toList.flatMap fallApart := by
  rcases component?_cases seg with ⟨h, rfl | rfl⟩ | ⟨h, rfl⟩ | h
  · rfl
  · rfl
  · rfl
  · rw [h]
    simp [fallApart]

theorem filterMap_slashed (segs : List (List Char)) :
    (segs.flatMap fun seg => splitSlash (seg.map slashed)).filterMap component? =
      (segs.filterMap component?).flatMap fallApart := by
  induction segs with
  | nil => rfl
  | cons seg segs ih =>
    have hseg := stepsBehind_slashed seg
    unfold stepsBehind at hseg
    rw [List.flatMap_cons, List.filterMap_append, hseg, ih, List.filterMap_cons]
    cases component? seg <;> simp

/-- The steps behind slashes are told by the steps behind slashes and backslashes. -/
theorem components_forwardSlashes (p : Path) : (forwardSlashes p).components =
    match p.components with
    | [] => []
    | first :: rest => fallApartFirst first ++ rest.flatMap fallApart := by
  obtain ⟨seg, rest, hsplit⟩ := List.exists_cons_of_ne_nil (splitSlash_ne_nil p.text.toList)
  have hrest := filterMap_slashed rest
  have hempty : (rest.flatMap fun seg => splitSlash (seg.map slashed)).isEmpty = rest.isEmpty := by
    cases rest <;> simp [splitSlash_ne_nil]
  generalize hbehind : (rest.flatMap fun seg => splitSlash (seg.map slashed)) = behind at hrest hempty
  have hforward : splitSlash (forwardSlashes p).text.toList = splitSlash (seg.map slashed) ++ behind := by
    have htext : (forwardSlashes p).text.toList = p.text.toList.map slashed := String.toList_ofList
    rw [htext, splitSlash_map_slashed, hsplit, List.flatMap_cons, hbehind]
  obtain ⟨first, inner, hfirst⟩ := List.exists_cons_of_ne_nil (splitSlash_ne_nil (seg.map slashed))
  rw [hfirst, List.cons_append] at hforward
  rw [components_eq_firstStep? hforward, components_eq_firstStep? hsplit, List.filterMap_append, hrest]
  rcases component?_cases seg with ⟨-, rfl | rfl⟩ | ⟨-, rfl⟩ | hname
  · obtain ⟨rfl, rfl⟩ : [] = first ∧ [] = inner := List.cons.inj hfirst
    cases rest with
    | nil => simp [firstStep?, hempty]; rfl
    | cons t rest => simp [firstStep?, hempty, fallApartFirst]
  · obtain ⟨rfl, rfl⟩ : ['.'] = first ∧ [] = inner := List.cons.inj hfirst
    rfl
  · obtain ⟨rfl, rfl⟩ : ['.', '.'] = first ∧ [] = inner := List.cons.inj hfirst
    rfl
  · have hne : seg ≠ [] := by
      rintro rfl
      exact nomatch hname
    -- A segment that is empty in front of a slash has that slash from the name, whatever stands behind the name.
    have halone : firstStep? first (inner ++ behind) = firstStep? first inner := by
      refine firstStep?_congr fun hnil => ?_
      have hinner : inner ≠ [] := by
        rintro rfl
        exact hne (List.map_eq_nil_iff.mp (eq_nil_of_splitSlash (hnil ▸ hfirst)))
      simp [hinner]
    have hown : fallApartFirst (.name (String.ofList seg)) =
        (firstStep? first inner).toList ++ inner.filterMap component? := by
      refine components_eq_firstStep? (?_ : splitSlash (String.ofList _).toList = _)
      rw [String.toList_ofList, String.toList_ofList]
      exact hfirst
    rw [firstStep?_of_name hname, halone]
    simp only [Option.toList_some, List.singleton_append, hown, List.append_assoc]

theorem normalize_congr (h : (a == b) = true) : a.normalize = b.normalize := by
  have hsteps : (forwardSlashes a).components = (forwardSlashes b).components := by
    rw [components_forwardSlashes, components_forwardSlashes, beq_iff.mp h]
  rw [normalize_eq_spell, normalize_eq_spell, hsteps]

end Recheck.Path
