import Recheck.Proofs.Data.Dict

/-!
# Items

A look-up forgets how the key is spelled in the dictionary. `Dict.item?` keeps it: two dictionaries whose keys
are told apart have the same entries, in some order, when they have the same entry for each key (`mem_iff`).
-/

set_option autoImplicit false

namespace Recheck.Dict

universe u v

variable {α : Type u} {β : Type v} [BEq α] [EquivBEq α] {d d' : Dict α β}

/-- The entry of a key, under the spelling that the dictionary has for it. -/
def item? (d : Dict α β) (key : α) : Option (α × β) := d.entries.find? (·.1 == key)

omit [EquivBEq α] in
theorem get?_eq_item? (d : Dict α β) (key : α) : d.get? key = (d.item? key).map (·.2) := by
  unfold get? item?
  induction d.entries with
  | nil => rfl
  | cons e es ih =>
    obtain ⟨k, v⟩ := e
    rw [find, List.find?_cons]
    split
    · rename_i h; simp [h]
    · rename_i h; simp [h, ih]

theorem item?_congr (d : Dict α β) {a b : α} (h : (a == b) = true) : d.item? a = d.item? b := by
  unfold item?
  exact congrArg (List.find? · _) (funext fun e => BEq.congr_right h)

omit [EquivBEq α] in
theorem mem_of_item? {key : α} {e : α × β} (h : d.item? key = some e) : e ∈ d.entries ∧ (e.1 == key) = true :=
  ⟨List.mem_of_find?_eq_some h, List.find?_some (p := fun e : α × β => e.1 == key) h⟩

omit [EquivBEq α] in
theorem contains_eq_item? (d : Dict α β) (key : α) : d.contains key = (d.item? key).isSome := by
  rw [contains, get?_eq_item?, Option.isSome_map]

theorem item?_of_mem (hd : d.Distinct) {e : α × β} {key : α} (he : e ∈ d.entries) (hk : (e.1 == key) = true) :
    d.item? key = some e := by
  have hsome : d.contains key = true := contains_iff.mpr ⟨e, he, hk⟩
  rw [contains_eq_item?, Option.isSome_iff_exists] at hsome
  obtain ⟨e', he'⟩ := hsome
  obtain ⟨hm, hk'⟩ := mem_of_item? he'
  have hkey : e'.1 = e.1 := hd.eq_of_beq (List.mem_map_of_mem hm) (List.mem_map_of_mem he)
    (BEq.trans hk' (BEq.symm hk))
  have hvalue : some e'.2 = some e.2 :=
    (get?_of_mem hd hm hk').symm.trans (get?_of_mem hd he hk)
  rw [he', Prod.ext hkey (Option.some.inj hvalue)]

/-- Dictionaries with the same entry for each key have the same entries. -/
theorem mem_iff (hd : d.Distinct) (hd' : d'.Distinct) (h : ∀ key, d.item? key = d'.item? key)
    (e : α × β) : e ∈ d.entries ↔ e ∈ d'.entries :=
  ⟨fun he => (mem_of_item? ((h e.1).symm.trans (item?_of_mem hd he BEq.rfl))).1,
    fun he => (mem_of_item? ((h e.1).trans (item?_of_mem hd' he BEq.rfl))).1⟩

/-! ## One equation for each operation -/

theorem item?_update (d : Dict α β) (key other : α) (f : β → β) : (d.update key f).item? other =
    if key == other then (d.item? other).map fun e => (e.1, f e.2) else d.item? other := by
  let change : α × β → α × β := fun e => if e.1 == key then (e.1, f e.2) else e
  have hkeys : ((·.1 == other) ∘ change) = fun e : α × β => e.1 == other := by
    funext e
    simp only [change, Function.comp]
    split <;> rfl
  have hentries : (d.update key f).entries = d.entries.map change := rfl
  unfold item?
  rw [hentries, List.find?_map, hkeys]
  cases hfound : d.entries.find? (·.1 == other) with
  | none => simp
  | some e =>
    have he : (e.1 == other) = true := List.find?_some (p := fun e : α × β => e.1 == other) hfound
    have hkey : (key == other) = (e.1 == key) := by rw [← BEq.congr_right he]; exact BEq.comm
    simp only [Option.map_some, change, hkey]
    split <;> rfl

theorem item?_insertNew (d : Dict α β) (key other : α) (value : β) : (d.insertNew key value).item? other =
    if key == other then some ((d.item? other).getD (key, value)) else d.item? other := by
  unfold insertNew
  split
  · rename_i hc
    cases h : key == other with
    | false => rfl
    | true =>
      rw [contains_congr d h, contains_eq_item?, Option.isSome_iff_exists] at hc
      obtain ⟨e, he⟩ := hc
      rw [he]; rfl
  · rename_i hc
    unfold item?
    rw [entries_insert hc, List.find?_append, List.find?_singleton]
    cases h : key == other with
    | false => simp
    | true =>
      rw [contains_congr d h, contains_eq_item?, Option.not_isSome_iff_eq_none] at hc
      unfold item? at hc
      simp [hc]

theorem item?_erase (d : Dict α β) (key other : α) :
    (d.erase key).item? other = if key == other then none else d.item? other := by
  unfold item? erase
  rw [List.find?_filter]
  split
  · rename_i h
    refine List.find?_eq_none.mpr fun e _ => ?_
    have hkey : (e.1 == key) = (e.1 == other) := BEq.congr_right h
    simp [hkey]
  · rename_i h
    refine congrArg (List.find? · _) (funext fun e => ?_)
    cases he : e.1 == other with
    | false => simp
    | true =>
      have hkey : (e.1 == key) = false := by
        rw [BEq.congr_left he]
        exact BEq.symm_false (Bool.eq_false_iff.mpr h)
      simp [hkey]

theorem item?_filter (hd : d.Distinct) (p : β → Bool) (key : α) :
    (d.filter p).item? key = (d.item? key).filter fun e => p e.2 := by
  have hf : (d.filter p).Distinct := hd.filter p
  refine Option.ext fun e => ?_
  rw [Option.filter_eq_some_iff]
  constructor
  · intro h
    obtain ⟨hm, hk⟩ := mem_of_item? h
    obtain ⟨he, hp⟩ := List.mem_filter.mp hm
    exact ⟨item?_of_mem hd he hk, hp⟩
  · rintro ⟨h, hp⟩
    obtain ⟨hm, hk⟩ := mem_of_item? h
    exact item?_of_mem hf (List.mem_filter.mpr ⟨hm, hp⟩) hk

end Recheck.Dict
