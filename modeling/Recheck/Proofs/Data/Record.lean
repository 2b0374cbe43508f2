import Recheck.Config.Checker
import Recheck.Proofs.Data.Json

/-!
# Written records are read back

A record that is written with its members under their names is read back member by member, whether a member that
says nothing was left out or not (`record?_ofMembers`). All that is needed of the names is that no two of them are the
same; a tag in front of the members is one more name (`tagged?_ofMembers`).
-/

set_option autoImplicit false

namespace Recheck.Json

/-- What is read back one by one is read back as a list. -/
theorem mapM_map {α β γ : Type} {xs : List α} {encode : α → β} {decode : β → Option γ} {value : α → γ}
    (h : ∀ x ∈ xs, decode (encode x) = some (value x)) : (xs.map encode).mapM decode = some (xs.map value) := by
  induction xs with
  | nil => rfl
  | cons x xs ih =>
    have hx := h x List.mem_cons_self
    have hxs := ih fun y hy => h y (List.mem_cons_of_mem _ hy)
    simp [List.mapM_cons, hx, hxs]

theorem mapM_map_self {α β : Type} {xs : List α} {encode : α → β} {decode : β → Option α}
    (h : ∀ x ∈ xs, decode (encode x) = some x) : (xs.map encode).mapM decode = some xs := by
  rw [mapM_map h, List.map_id']

/-! ## Members -/

variable {members : List (String × Option Json)}

/-- The entries of the members that say something. -/
def said (members : List (String × Option Json)) : List (String × Json) :=
  members.filterMap fun m => m.2.map fun j => (m.1, j)

theorem ofMembers_eq : ofMembers members = object (said members) := rfl

theorem object_eq_ofMembers (entries : List (String × Json)) :
    object entries = ofMembers (entries.map fun e => (e.1, some e.2)) := by
  simp [ofMembers_eq, said, List.filterMap_map]

theorem filter_said_of_not_mem {name : String} (h : name ∉ members.map (·.1)) :
    (said members).filter (·.1 = name) = [] := by
  simp only [said, List.filter_eq_nil_iff, List.mem_filterMap, Option.map_eq_some_iff, decide_eq_true_eq]
  rintro _ ⟨m, hm, j, -, rfl⟩ rfl
  exact h (List.mem_map_of_mem hm)

theorem filter_said (hnames : (members.map (·.1)).Nodup) {m : String × Option Json} (hm : m ∈ members) :
    (said members).filter (·.1 = m.1) = m.2.toList.map fun j => (m.1, j) := by
  induction members with
  | nil => cases hm
  | cons n members ih =>
    rw [List.map_cons, List.nodup_cons] at hnames
    rcases List.mem_cons.mp hm with rfl | hm
    · have hrest := filter_said_of_not_mem hnames.1
      obtain ⟨name, _ | j⟩ := m <;> simpa [said] using hrest
    · have hne : n.1 ≠ m.1 := fun h => hnames.1 (h ▸ List.mem_map_of_mem hm)
      have hrest := ih hnames.2 hm
      obtain ⟨name, _ | j⟩ := n
      · simpa [said] using hrest
      · simpa [said, hne] using hrest

theorem member?_said (hnames : (members.map (·.1)).Nodup) {m : String × Option Json} (hm : m ∈ members) :
    member? (said members) m.1 = some m.2 := by
  unfold member?
  rw [filter_said hnames hm]
  cases m.2 <;> rfl

theorem record?_ofMembers {names : List String} (h : members.map (·.1) = names) (hnames : names.Nodup) :
    (ofMembers members).record? names = some (members.map (·.2)) := by
  subst h
  exact mapM_map fun _ hm => member?_said hnames hm

theorem record?_object {entries : List (String × Json)} {names : List String} (h : entries.map (·.1) = names)
    (hnames : names.Nodup) : (object entries).record? names = some (entries.map fun e => some e.2) := by
  rw [object_eq_ofMembers, record?_ofMembers (by rw [List.map_map]; exact h) hnames, List.map_map]
  rfl

theorem closedRecord?_object {entries : List (String × Json)} {names : List String} (h : entries.map (·.1) = names)
    (hnames : names.Nodup) : (object entries).closedRecord? names = some (entries.map fun e => some e.2) := by
  have hall : entries.all (fun e => names.contains e.1) = true :=
    List.all_eq_true.mpr fun e he => List.contains_iff_mem.mpr (h ▸ List.mem_map_of_mem he)
  rw [closedRecord?, if_pos hall, record?_object h hnames]

theorem tagged?_ofMembers {tag : String} {name : Json} (htag : tag ∉ members.map (·.1)) :
    (ofMembers ((tag, some name) :: members)).tagged? tag = some (name, ofMembers members) := by
  have hnone := filter_said_of_not_mem htag
  have hsaid : said ((tag, some name) :: members) = (tag, name) :: said members := rfl
  have hmember : member? ((tag, name) :: said members) tag = some (some name) := by simp [member?, hnone]
  have hkept : ((tag, name) :: said members).filter (·.1 ≠ tag) = said members := by
    simpa [List.filter_eq_self, List.filter_eq_nil_iff] using hnone
  rw [ofMembers_eq, ofMembers_eq, hsaid, tagged?, hmember, hkept]
  rfl

theorem tagged?_object {tag : String} {name : Json} {entries : List (String × Json)}
    (htag : tag ∉ entries.map (·.1)) :
    (object ((tag, name) :: entries)).tagged? tag = some (name, object entries) := by
  rw [object_eq_ofMembers, object_eq_ofMembers entries, List.map_cons]
  exact tagged?_ofMembers (by rw [List.map_map]; exact htag)

/-! ## Fields -/

theorem optional_map {α : Type} {encode : α → Json} {decode : Json → Option α} {value? : Option α}
    (h : ∀ a ∈ value?, decode (encode a) = some a) (hnull : ∀ a, encode a ≠ null) :
    optional decode (value?.map encode) = some value? := by
  cases value? with
  | none => rfl
  | some a =>
    have ha := h a rfl
    unfold optional fieldOr nullable
    simp only [Option.map_some]
    split
    · rename_i heq; exact absurd heq (hnull a)
    · rw [ha]; rfl

theorem asNat?_natural {bound n : Nat} (h : n ≤ bound) : (natural n).asNat? bound = some n := if_pos h

theorem asStrings?_map (texts : List String) : (array (texts.map string)).asStrings? = some texts :=
  mapM_map_self fun _ _ => rfl

theorem asPaths?_ofPaths (paths : List Path) : (ofPaths paths).asPaths? = some paths := by
  have htexts : ofPaths paths = array ((paths.map Path.text).map string) := by
    rw [ofPaths, List.map_map]; rfl
  rw [asPaths?, htexts, asStrings?_map, Option.map_some, List.map_map]
  exact congrArg some (List.map_id' paths)

/-! ## Depth -/

variable {ok : Nat → Prop} {depth : Nat}

theorem plain_ofMembers (h : ∀ m ∈ members, ∀ j ∈ m.2, Plain ok depth j) : Plain ok (depth + 1) (ofMembers members) := by
  refine .object fun e he => ?_
  obtain ⟨m, hm, he⟩ := List.mem_filterMap.mp he
  obtain ⟨j, hj, rfl⟩ := Option.map_eq_some_iff.mp he
  exact h m hm j hj

theorem plain_map {α : Type} {xs : List α} {encode : α → Json} (h : ∀ x ∈ xs, Plain ok depth (encode x)) :
    Plain ok (depth + 1) (array (xs.map encode)) :=
  .array (List.forall_mem_map.mpr h)

theorem plain_ofPaths (paths : List Path) : Plain ok (depth + 1) (ofPaths paths) :=
  plain_map fun path _ => .string _ path.text

end Recheck.Json
