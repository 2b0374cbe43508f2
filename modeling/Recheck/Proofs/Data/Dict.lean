import Recheck.Data.Dict
import Mathlib.Data.List.Induction

/-!
# Dictionaries through their look-ups

`get?` is the view of a `Dict`: this file says what each operation does to it, for keys that are compared
by an equivalence. A key may be found under another spelling, so every law compares with `==` and none
with `=`.

Two operations need more than the view. `filter` looks at every entry, also at one that an earlier entry of
the same key hides, so its law asks for keys that are `Apart`; all operations keep them so.
-/

set_option autoImplicit false

namespace Recheck

universe u v

variable {α : Type u} {β : Type v} [BEq α]

/-! ## Lists whose members are told apart -/

/-- No member of the list is a spelling of another one. -/
def Apart (xs : List α) : Prop := xs.Pairwise fun a b => (a == b) = false

theorem apart_cons {a : α} {xs : List α} :
    Apart (a :: xs) ↔ xs.contains a = false ∧ Apart xs := by
  unfold Apart
  rw [List.pairwise_cons]
  refine and_congr_left fun _ => ?_
  rw [List.contains_eq_any_beq, List.any_eq_false]
  exact forall₂_congr fun b _ => by simp

theorem Apart.append_singleton [EquivBEq α] {xs : List α} {a : α} (h : Apart xs)
    (ha : xs.contains a = false) : Apart (xs ++ [a]) := by
  unfold Apart at h ⊢
  rw [List.pairwise_append]
  refine ⟨h, by simp, fun b hb c hc => ?_⟩
  rw [List.mem_singleton.mp hc]
  rw [List.contains_eq_any_beq, List.any_eq_false] at ha
  exact BEq.symm_false (by simpa using ha b hb)

theorem Apart.sublist {xs ys : List α} (h : Apart ys) (hs : xs.Sublist ys) : Apart xs :=
  List.Pairwise.sublist hs h

theorem Apart.nodup [EquivBEq α] {xs : List α} (h : Apart xs) : xs.Nodup :=
  List.Pairwise.imp (fun hab he => by simp [he] at hab) h

/-- Of two members of an `Apart` list that are spellings of each other, one is the other. -/
theorem Apart.eq_of_beq [EquivBEq α] {xs : List α} (h : Apart xs) :
    ∀ {a b : α}, a ∈ xs → b ∈ xs → (a == b) = true → a = b := by
  induction xs with
  | nil => intro a b ha; exact absurd ha (by simp)
  | cons x xs ih =>
    obtain ⟨hx, hxs⟩ := apart_cons.mp h
    rw [List.contains_eq_any_beq, List.any_eq_false] at hx
    intro a b ha hb hab
    rcases List.mem_cons.mp ha with hax | hax <;> rcases List.mem_cons.mp hb with hbx | hbx
    · rw [hax, hbx]
    · exact absurd (hax ▸ hab) (hx b hbx)
    · exact absurd (BEq.symm (hbx ▸ hab)) (hx a hax)
    · exact ih hxs hax hbx hab

theorem Apart.countP [EquivBEq α] {xs : List α} (h : Apart xs) (a : α) :
    xs.countP (a == ·) = if xs.contains a then 1 else 0 := by
  induction xs with
  | nil => rfl
  | cons x xs ih =>
    obtain ⟨hx, hxs⟩ := apart_cons.mp h
    rw [List.countP_cons, ih hxs, List.contains_cons]
    cases hax : a == x with
    | false => simp
    | true => rw [List.contains_congr hax, hx]; rfl

/-- Members that are spellings of each other are the same. Unlike in an `Apart` list, a member may stand
there twice. -/
def OneSpelling (xs : List α) : Prop := ∀ a ∈ xs, ∀ b ∈ xs, (a == b) = true → a = b

theorem Apart.oneSpelling [EquivBEq α] {xs : List α} (h : Apart xs) : OneSpelling xs :=
  fun _ ha _ hb hab => h.eq_of_beq ha hb hab

/-- Distinct keys that all have an entry in a list are no more than its entries. -/
theorem Apart.length_le [EquivBEq α] {xs : List α} (h : Apart xs) :
    ∀ {es : List (α × β)}, (∀ x ∈ xs, ∃ e ∈ es, (e.1 == x) = true) → xs.length ≤ es.length := by
  induction xs with
  | nil => intro es _; exact Nat.zero_le _
  | cons x xs ih =>
    obtain ⟨hx, hxs⟩ := apart_cons.mp h
    rw [List.contains_eq_any_beq, List.any_eq_false] at hx
    intro es hes
    obtain ⟨e, he, hex⟩ := hes x List.mem_cons_self
    obtain ⟨before, after, rfl⟩ := List.append_of_mem he
    -- The entry of `x` serves no other member, so the rest fits into the other entries.
    have hrest : ∀ y ∈ xs, ∃ e' ∈ before ++ after, (e'.1 == y) = true := by
      intro y hy
      obtain ⟨e', he', hey⟩ := hes y (List.mem_cons_of_mem _ hy)
      have hne : e' ≠ e := by
        rintro rfl
        exact hx y hy (BEq.trans (BEq.symm hex) hey)
      refine ⟨e', ?_, hey⟩
      simp only [List.mem_append, List.mem_cons] at he' ⊢
      tauto
    have := ih hxs hrest
    simp only [List.length_cons, List.length_append] at this ⊢
    omega

/-! ## Adding what is new -/

/-- Adds a member at the end unless it is in the list. -/
def addNew (out : List α) (x : α) : List α := if out.contains x then out else out ++ [x]

theorem distinct_eq (xs : List α) : distinct xs = xs.foldl addNew [] := rfl

/-- Adding the members of a list one by one appends some of them, the first spelling of each that was
missing. -/
theorem exists_foldl_addNew [EquivBEq α] (xs : List α) :
    ∀ out : List α, ∃ found, xs.foldl addNew out = out ++ found ∧ Apart found ∧
      ∀ x ∈ found, x ∈ xs ∧ out.contains x = false := by
  induction xs with
  | nil => exact fun out => ⟨[], by simp, List.Pairwise.nil, by simp⟩
  | cons x xs ih =>
    intro out
    rw [List.foldl_cons, addNew]
    split
    · obtain ⟨found, he, ha, hf⟩ := ih out
      exact ⟨found, he, ha, fun y hy => ⟨List.mem_cons_of_mem _ (hf y hy).1, (hf y hy).2⟩⟩
    · rename_i hx
      -- What is found behind `out ++ [x]` is no spelling of `x`, so `x` can go in front of it.
      obtain ⟨found, he, ha, hf⟩ := ih (out ++ [x])
      have hnew : ∀ y ∈ found, out.contains y = false ∧ (y == x) = false := by
        intro y hy
        have := (hf y hy).2
        rw [List.contains_append, Bool.or_eq_false_iff, List.contains_cons, List.contains_nil,
          Bool.or_false] at this
        exact this
      refine ⟨x :: found, by rw [he, List.append_assoc]; rfl, apart_cons.mpr ⟨?_, ha⟩, ?_⟩
      · rw [List.contains_eq_any_beq, List.any_eq_false]
        exact fun y hy hc => absurd (BEq.symm hc) (by simp [(hnew y hy).2])
      · intro y hy
        rcases List.mem_cons.mp hy with rfl | hy
        · exact ⟨List.mem_cons_self, Bool.eq_false_iff.mpr hx⟩
        · exact ⟨List.mem_cons_of_mem _ (hf y hy).1, (hnew y hy).1⟩

theorem contains_addNew [EquivBEq α] (out : List α) (x a : α) :
    (addNew out x).contains a = (out.contains a || a == x) := by
  unfold addNew
  split
  · rename_i hx
    cases hax : a == x with
    | false => exact (Bool.or_false _).symm
    | true => rw [List.contains_congr hax, hx]; rfl
  · rw [List.contains_append, List.contains_cons, List.contains_nil, Bool.or_false]

theorem contains_foldl_addNew [EquivBEq α] (xs : List α) :
    ∀ (out : List α) (a : α), (xs.foldl addNew out).contains a = (out.contains a || xs.contains a) := by
  induction xs with
  | nil => intro out a; simp
  | cons x xs ih =>
    intro out a
    rw [List.foldl_cons, ih, contains_addNew, List.contains_cons, Bool.or_assoc]

theorem Apart.foldl_addNew [EquivBEq α] {out : List α} (h : Apart out) (xs : List α) :
    Apart (xs.foldl addNew out) := by
  induction xs generalizing out with
  | nil => exact h
  | cons x xs ih =>
    refine ih ?_
    unfold addNew
    split
    · exact h
    · exact h.append_singleton (Bool.eq_false_iff.mpr ‹_›)

theorem OneSpelling.foldl_addNew [EquivBEq α] {out : List α} (h : OneSpelling out) (xs : List α) :
    OneSpelling (xs.foldl addNew out) := by
  obtain ⟨found, he, ha, hf⟩ := exists_foldl_addNew xs out
  rw [he]
  have hnew : ∀ a ∈ out, ∀ b ∈ found, (a == b) = false := by
    intro a ha b hb
    have := (hf b hb).2
    rw [List.contains_eq_any_beq, List.any_eq_false] at this
    exact BEq.symm_false (by simpa using this a ha)
  intro a haa b hbb hab
  rcases List.mem_append.mp haa with hao | haf <;> rcases List.mem_append.mp hbb with hbo | hbf
  · exact h a hao b hbo hab
  · exact absurd hab (by simp [hnew a hao b hbf])
  · exact absurd (BEq.symm hab) (by simp [hnew b hbo a haf])
  · exact ha.eq_of_beq haf hbf hab

theorem apart_distinct [EquivBEq α] (xs : List α) : Apart (distinct xs) :=
  Apart.foldl_addNew List.Pairwise.nil xs

theorem foldl_addNew_of_apart [EquivBEq α] {out xs : List α} (h : Apart (out ++ xs)) :
    xs.foldl addNew out = out ++ xs := by
  induction xs generalizing out with
  | nil => exact (List.append_nil out).symm
  | cons x xs ih =>
    have hx : out.contains x = false := by
      rw [List.contains_eq_any_beq, List.any_eq_false]
      intro y hy hxy
      have hyx := (List.pairwise_append.mp h).2.2 y hy x List.mem_cons_self
      rw [BEq.symm hxy] at hyx
      exact nomatch hyx
    have hstep : addNew out x = out ++ [x] := if_neg (by simp [hx])
    rw [List.foldl_cons, hstep, ih (by rwa [List.append_assoc, List.singleton_append]), List.append_assoc,
      List.singleton_append]

/-- What was added first may as well have been there from the beginning. -/
theorem foldl_addNew_of_append [EquivBEq α] {out front back xs : List α}
    (h : xs.foldl addNew out = out ++ front ++ back) : xs.foldl addNew (out ++ front) = out ++ front ++ back := by
  induction xs generalizing out front with
  | nil =>
    have hnil : front ++ back = [] := by simpa using h
    simp [List.append_eq_nil_iff.mp hnil]
  | cons x xs ih =>
    rw [List.foldl_cons] at h ⊢
    by_cases hx : out.contains x = true
    · have hkept : addNew out x = out := if_pos hx
      have hkept' : addNew (out ++ front) x = out ++ front := if_pos (by rw [List.contains_append, hx, Bool.true_or])
      rw [hkept] at h
      rw [hkept', ih h]
    · have hnew : addNew out x = out ++ [x] := if_neg hx
      rw [hnew] at h
      cases front with
      | nil =>
        rw [List.append_nil] at h ⊢
        rw [hnew, h]
      | cons y front =>
        -- The first one that was added is the member itself.
        obtain ⟨found, hfound, -⟩ := exists_foldl_addNew xs (out ++ [x])
        obtain rfl : x = y := by
          rw [hfound, List.append_assoc, List.append_assoc, List.singleton_append, List.cons_append] at h
          exact (List.cons.inj (List.append_cancel_left h)).1
        have hkept : addNew (out ++ x :: front) x = out ++ x :: front :=
          if_pos (by rw [List.contains_append, List.contains_cons, BEq.rfl, Bool.true_or, Bool.or_true])
        have hmoved : xs.foldl addNew (out ++ [x]) = out ++ [x] ++ front ++ back := by rw [h]; simp
        rw [hkept, ← List.singleton_append, ← List.append_assoc, ih hmoved]

theorem distinct_of_apart [EquivBEq α] {xs : List α} (h : Apart xs) : distinct xs = xs := by
  rw [distinct_eq, foldl_addNew_of_apart (by rwa [List.nil_append]), List.nil_append]

theorem contains_distinct [EquivBEq α] (xs : List α) (a : α) :
    (distinct xs).contains a = xs.contains a := by
  rw [distinct_eq, contains_foldl_addNew, List.contains_nil, Bool.false_or]

namespace Dict

instance {α : Type u} {β : Type v} [DecidableEq α] [DecidableEq β] : DecidableEq (Dict α β) := fun d d' =>
  decidable_of_iff (d.entries = d'.entries) ⟨congrArg Dict.mk, congrArg Dict.entries⟩

/-! ## One look-up for each operation -/

theorem get?_congr [EquivBEq α] (d : Dict α β) {a b : α} (h : (a == b) = true) :
    d.get? a = d.get? b := by
  unfold get?
  induction d.entries with
  | nil => rfl
  | cons e es ih =>
    obtain ⟨k, v⟩ := e
    simp only [find, BEq.congr_right h, ih]

theorem contains_congr [EquivBEq α] (d : Dict α β) {a b : α} (h : (a == b) = true) :
    d.contains a = d.contains b := by
  unfold contains
  rw [get?_congr d h]

theorem get?_insert [EquivBEq α] (d : Dict α β) (key other : α) (value : β) :
    (d.insert key value).get? other = if key == other then some value else d.get? other := by
  cases h : key == other with
  | true => rw [← get?_congr _ h, get?_insert_self]; rfl
  | false => rw [get?_insert_of_ne d value h]; rfl

theorem get?_insertNew [EquivBEq α] (d : Dict α β) (key other : α) (value : β) :
    (d.insertNew key value).get? other =
      if key == other then some ((d.get? other).getD value) else d.get? other := by
  unfold insertNew
  split
  · rename_i hc
    cases h : key == other with
    | false => rfl
    | true =>
      rw [contains_congr d h, contains, Option.isSome_iff_exists] at hc
      obtain ⟨v, hv⟩ := hc
      rw [hv]; rfl
  · rename_i hc
    rw [get?_insert]
    cases h : key == other with
    | false => rfl
    | true =>
      rw [contains_congr d h, contains, Option.not_isSome_iff_eq_none] at hc
      rw [hc]; rfl

theorem get?_update [EquivBEq α] (d : Dict α β) (key other : α) (f : β → β) :
    (d.update key f).get? other = if key == other then (d.get? other).map f else d.get? other := by
  unfold get? update
  induction d.entries with
  | nil => cases key == other <;> rfl
  | cons e es ih =>
    obtain ⟨k, v⟩ := e
    cases ho : k == other with
    | false => cases hk : k == key <;> simpa [find, ho, hk] using ih
    | true =>
      have hko : (key == other) = (k == key) := by
        rw [← BEq.congr_right ho]; exact BEq.comm
      cases hk : k == key <;> simp [find, ho, hk, hko]

theorem get?_erase [EquivBEq α] (d : Dict α β) (key other : α) :
    (d.erase key).get? other = if key == other then none else d.get? other := by
  unfold get? erase
  induction d.entries with
  | nil => cases key == other <;> rfl
  | cons e es ih =>
    obtain ⟨k, v⟩ := e
    cases hk : k == key with
    | true =>
      rw [List.filter_cons_of_neg (by simp [hk]), ih, find, ← BEq.congr_left hk]
      cases k == other <;> rfl
    | false =>
      rw [List.filter_cons_of_pos (by simp [hk]), find, find, ih]
      cases ho : k == other with
      | false => rfl
      | true =>
        have hko : (key == other) = false := by
          rw [← BEq.congr_right ho]; exact BEq.symm_false hk
        rw [hko]; rfl

/-! ## Entries and look-ups -/

theorem exists_mem_of_get? {d : Dict α β} {key : α} {value : β} (h : d.get? key = some value) :
    ∃ k, (k, value) ∈ d.entries ∧ (k == key) = true := by
  unfold get? at h
  induction hes : d.entries generalizing d with
  | nil => rw [hes] at h; exact absurd h (by simp [find])
  | cons e es ih =>
    obtain ⟨k, v⟩ := e
    rw [hes, find] at h
    split at h
    · rename_i hk
      rw [Option.some.injEq] at h
      exact ⟨k, by simp [h], hk⟩
    · obtain ⟨k', hm, hk'⟩ := ih (d := ⟨es⟩) h rfl
      exact ⟨k', List.mem_cons_of_mem _ hm, hk'⟩

/-- An entry after an insertion was there before, or is the one put in, under some spelling of its key. -/
theorem mem_insert {d : Dict α β} {key k : α} {value v : β}
    [EquivBEq α] (h : (k, v) ∈ (d.insert key value).entries) :
    (k, v) ∈ d.entries ∨ v = value ∧ (k == key) = true := by
  unfold insert at h
  induction hes : d.entries generalizing d with
  | nil =>
    rw [hes, put, List.mem_singleton, Prod.mk.injEq] at h
    exact Or.inr ⟨h.2, h.1 ▸ BEq.rfl⟩
  | cons e es ih =>
    obtain ⟨k', v'⟩ := e
    rw [hes, put] at h
    split at h
    · rename_i hk'
      rcases List.mem_cons.mp h with h | h
      · cases h; exact Or.inr ⟨rfl, hk'⟩
      · exact Or.inl (List.mem_cons_of_mem _ h)
    · rcases List.mem_cons.mp h with h | h
      · cases h; exact Or.inl List.mem_cons_self
      · exact (ih (d := ⟨es⟩) h rfl).imp_left (List.mem_cons_of_mem _)

theorem entries_insert [EquivBEq α] {d : Dict α β} {key : α} {value : β} (h : ¬ d.contains key = true) :
    (d.insert key value).entries = d.entries ++ [(key, value)] := by
  unfold insert
  unfold contains get? at h
  induction hes : d.entries generalizing d with
  | nil => rfl
  | cons e es ih =>
    obtain ⟨k, v⟩ := e
    rw [hes, find] at h
    rw [put]
    split
    · rename_i hk
      rw [if_pos hk] at h
      exact absurd rfl h
    · rename_i hk
      rw [if_neg hk] at h
      exact congrArg ((k, v) :: ·) (ih (d := ⟨es⟩) h rfl)

theorem mem_update {d : Dict α β} {key k : α} {f : β → β} {v : β} (h : (k, v) ∈ (d.update key f).entries) :
    ∃ old, (k, old) ∈ d.entries ∧ v = if k == key then f old else old := by
  obtain ⟨⟨k', old⟩, hm, he⟩ := List.mem_map.mp h
  simp only at he
  split at he <;> cases he
  · exact ⟨old, hm, by rw [if_pos ‹_›]⟩
  · exact ⟨v, hm, by rw [if_neg ‹_›]⟩

theorem contains_of_mem [EquivBEq α] {d : Dict α β} {key k : α} {value : β}
    (hm : (k, value) ∈ d.entries) (hk : (k == key) = true) : d.contains key = true := by
  unfold contains get?
  induction hes : d.entries generalizing d with
  | nil => rw [hes] at hm; exact absurd hm (by simp)
  | cons e es ih =>
    obtain ⟨k', v⟩ := e
    rw [find]
    split
    · rfl
    · rename_i hk'
      rw [hes] at hm
      rcases List.mem_cons.mp hm with h | h
      · cases h; exact absurd hk hk'
      · exact ih (d := ⟨es⟩) h rfl

theorem contains_iff [EquivBEq α] {d : Dict α β} {key : α} :
    d.contains key = true ↔ ∃ e ∈ d.entries, (e.1 == key) = true := by
  constructor
  · intro h
    obtain ⟨v, hv⟩ := Option.isSome_iff_exists.mp h
    obtain ⟨k, hm, hk⟩ := exists_mem_of_get? hv
    exact ⟨(k, v), hm, hk⟩
  · rintro ⟨⟨k, v⟩, hm, hk⟩
    exact contains_of_mem hm hk

theorem contains_keys [EquivBEq α] (d : Dict α β) (key : α) :
    d.keys.contains key = d.contains key := by
  rw [Bool.eq_iff_iff, contains_iff, List.contains_iff_exists_mem_beq]
  unfold keys
  simp only [List.mem_map, exists_exists_and_eq_and]
  exact exists_congr fun e => and_congr_right fun _ => by rw [BEq.comm]

theorem length_le_size [EquivBEq α] (d : Dict α β) {keys : List α} (h : Apart keys)
    (hd : ∀ k ∈ keys, d.contains k = true) : keys.length ≤ d.size :=
  h.length_le fun k hk => contains_iff.mp (hd k hk)

omit [BEq α] in
/-- When each value is a function of its key, the keys are all there is. -/
theorem eq_of_keys {d d' : Dict α β} {f : α → β} (hkeys : d.keys = d'.keys)
    (hd : ∀ e ∈ d.entries, e.2 = f e.1) (hd' : ∀ e ∈ d'.entries, e.2 = f e.1) : d = d' := by
  have hentries : ∀ {d : Dict α β}, (∀ e ∈ d.entries, e.2 = f e.1) →
      d.entries = d.keys.map fun k => (k, f k) := by
    intro d hd
    unfold keys
    rw [List.map_map]
    refine (List.map_id d.entries).symm.trans (List.map_congr_left fun e he => ?_)
    exact Prod.ext rfl (hd e he)
  obtain ⟨es⟩ := d
  obtain ⟨es'⟩ := d'
  exact congrArg Dict.mk ((hentries hd).trans ((congrArg _ hkeys).trans (hentries hd').symm))

/-- No entry hides another one. -/
def Distinct (d : Dict α β) : Prop := Apart d.keys

theorem distinct_empty : (empty : Dict α β).Distinct := List.Pairwise.nil

theorem get?_of_mem [EquivBEq α] {d : Dict α β} (hd : d.Distinct) {key k : α} {value : β}
    (hm : (k, value) ∈ d.entries) (hk : (k == key) = true) : d.get? key = some value := by
  unfold Distinct keys at hd
  unfold get?
  induction hes : d.entries generalizing d with
  | nil => rw [hes] at hm; exact absurd hm (by simp)
  | cons e es ih =>
    obtain ⟨k', v⟩ := e
    rw [hes] at hm hd
    obtain ⟨hk', hes'⟩ := apart_cons.mp hd
    rw [find]
    rcases List.mem_cons.mp hm with h | h
    · cases h; rw [if_pos hk]
    · have hne : ¬ (k' == key) = true := by
        intro hc
        rw [List.contains_eq_any_beq, List.any_eq_false] at hk'
        exact hk' k (List.mem_map_of_mem (f := (·.1)) h) (BEq.trans hc (BEq.symm hk))
      rw [if_neg hne]
      exact ih (d := ⟨es⟩) hes' h rfl

theorem get?_eq_some_iff [EquivBEq α] {d : Dict α β} (hd : d.Distinct) {key : α} {value : β} :
    d.get? key = some value ↔ ∃ k, (k, value) ∈ d.entries ∧ (k == key) = true :=
  ⟨exists_mem_of_get?, fun ⟨_, hm, hk⟩ => get?_of_mem hd hm hk⟩

theorem get?_filter [EquivBEq α] {d : Dict α β} (hd : d.Distinct) (p : β → Bool) (key : α) :
    (d.filter p).get? key = (d.get? key).filter p := by
  have hf : (d.filter p).Distinct :=
    hd.sublist (List.Sublist.map _ (List.filter_sublist (l := d.entries)))
  refine Option.ext fun v => ?_
  rw [get?_eq_some_iff hf, Option.filter_eq_some_iff, get?_eq_some_iff hd]
  unfold filter
  simp only [List.mem_filter]
  exact ⟨fun ⟨k, ⟨hm, hp⟩, hk⟩ => ⟨⟨k, hm, hk⟩, hp⟩, fun ⟨⟨k, hm, hk⟩, hp⟩ => ⟨k, ⟨hm, hp⟩, hk⟩⟩

/-! ## What the operations do to the keys -/

theorem keys_update (d : Dict α β) (key : α) (f : β → β) : (d.update key f).keys = d.keys := by
  unfold keys update
  rw [List.map_map]
  refine List.map_congr_left fun e _ => ?_
  obtain ⟨k, v⟩ := e
  simp only [Function.comp]
  split <;> rfl

theorem keys_insert [EquivBEq α] (d : Dict α β) (key : α) (value : β) :
    (d.insert key value).keys = if d.contains key then d.keys else d.keys ++ [key] := by
  unfold insert keys contains get?
  induction d.entries with
  | nil => rfl
  | cons e es ih =>
    obtain ⟨k, v⟩ := e
    cases h : k == key with
    | true => simp [put, find, h]
    | false =>
      simp only [put, find, h, Bool.false_eq_true, if_false, List.map_cons, ih]
      split <;> simp

theorem keys_insertNew [EquivBEq α] (d : Dict α β) (key : α) (value : β) :
    (d.insertNew key value).keys = if d.contains key then d.keys else d.keys ++ [key] := by
  unfold insertNew
  split
  · rfl
  · rename_i h
    rw [keys_insert, if_neg h]

private theorem apart_addKey [EquivBEq α] {d : Dict α β} (hd : d.Distinct) (key : α) :
    Apart (if d.contains key then d.keys else d.keys ++ [key]) := by
  split
  · exact hd
  · rename_i h
    exact hd.append_singleton (by rw [contains_keys]; exact Bool.eq_false_iff.mpr h)

theorem Distinct.insert [EquivBEq α] {d : Dict α β} (hd : d.Distinct) (key : α) (value : β) :
    (d.insert key value).Distinct := by
  unfold Distinct
  rw [keys_insert]
  exact apart_addKey hd key

theorem Distinct.insertNew [EquivBEq α] {d : Dict α β} (hd : d.Distinct) (key : α) (value : β) :
    (d.insertNew key value).Distinct := by
  unfold Distinct
  rw [keys_insertNew]
  exact apart_addKey hd key

theorem Distinct.update {d : Dict α β} (hd : d.Distinct) (key : α) (f : β → β) :
    (d.update key f).Distinct := by
  unfold Distinct
  rw [keys_update]
  exact hd

theorem Distinct.erase {d : Dict α β} (hd : d.Distinct) (key : α) : (d.erase key).Distinct :=
  hd.sublist (List.Sublist.map _ (List.filter_sublist (l := d.entries)))

theorem Distinct.filter {d : Dict α β} (hd : d.Distinct) (p : β → Bool) : (d.filter p).Distinct :=
  hd.sublist (List.Sublist.map _ (List.filter_sublist (l := d.entries)))

/-! ## Dictionaries of computed values -/

/-- The dictionary of the keys that have a value, in the order in which they are listed. -/
def gather (f : α → Option β) (keys : List α) : Dict α β :=
  keys.foldl (fun d k => match f k with
    | some v => d.insert k v
    | none => d) empty

theorem gather_append_singleton (f : α → Option β) (keys : List α) (k : α) :
    gather f (keys ++ [k]) = match f k with
      | some v => (gather f keys).insert k v
      | none => gather f keys := by
  unfold gather
  rw [List.foldl_append]
  rfl

theorem distinct_gather [EquivBEq α] (f : α → Option β) (keys : List α) : (gather f keys).Distinct := by
  induction keys using List.reverseRecOn with
  | nil => exact distinct_empty
  | append_singleton keys k ih =>
    rw [gather_append_singleton]
    split
    · exact ih.insert ..
    · exact ih

theorem get?_gather [EquivBEq α] (f : α → Option β) {keys : List α} {key : α}
    (h : ∀ k ∈ keys, (k == key) = true → k = key) :
    (gather f keys).get? key = if keys.contains key then f key else none := by
  induction keys using List.reverseRecOn with
  | nil => rfl
  | append_singleton keys k ih =>
    have ih := ih fun k hk => h k (List.mem_append_left _ hk)
    rw [gather_append_singleton, List.contains_append, List.contains_cons, List.contains_nil, Bool.or_false]
    cases hk : k == key with
    | true =>
      obtain rfl := h k (by simp) hk
      rw [hk, Bool.or_true, if_pos rfl]
      cases hf : f k with
      | some v => rw [get?_insert, hk]; rfl
      | none => rw [ih, hf]; exact ite_self _
    | false =>
      rw [BEq.symm_false hk, Bool.or_false, ← ih]
      cases f k with
      | some v => rw [get?_insert, hk]; rfl
      | none => rfl

theorem mem_of_mem_keys_gather [EquivBEq α] {f : α → Option β} {keys : List α} {key : α}
    (h : key ∈ (gather f keys).keys) : key ∈ keys := by
  induction keys using List.reverseRecOn with
  | nil => exact absurd h (by simp [gather, Dict.keys, empty])
  | append_singleton keys k ih =>
    rw [gather_append_singleton] at h
    rw [List.mem_append]
    split at h
    · rw [keys_insert] at h
      split at h
      · exact Or.inl (ih h)
      · exact (List.mem_append.mp h).imp_left ih
    · exact Or.inl (ih h)

/-- Where the keys have one spelling each, the entries are the keys with their values. -/
theorem mem_gather [EquivBEq α] {f : α → Option β} {keys : List α} {key : α} {value : β}
    (h : OneSpelling keys) :
    (key, value) ∈ (gather f keys).entries ↔ key ∈ keys ∧ f key = some value := by
  have hget : key ∈ keys → (gather f keys).get? key = f key := by
    intro hk
    rw [get?_gather f fun k hk' => h k hk' key hk, if_pos (List.contains_iff_exists_mem_beq.mpr ⟨key, hk, BEq.rfl⟩)]
  constructor
  · intro hm
    have hk := mem_of_mem_keys_gather (List.mem_map_of_mem (f := (·.1)) hm)
    exact ⟨hk, (hget hk).symm.trans (get?_of_mem (distinct_gather f keys) hm BEq.rfl)⟩
  · rintro ⟨hk, hf⟩
    obtain ⟨k, hm, hkk⟩ := exists_mem_of_get? ((hget hk).trans hf)
    have hk' := mem_of_mem_keys_gather (List.mem_map_of_mem (f := (·.1)) hm)
    rwa [h k hk' key hk hkk] at hm

/-- Where no key is another one, the entries are the keys that have a value, in their order. -/
theorem entries_gather [EquivBEq α] (f : α → Option β) {keys : List α} (h : Apart keys) :
    (gather f keys).entries = keys.filterMap fun k => (f k).map fun v => (k, v) := by
  induction keys using List.reverseRecOn with
  | nil => rfl
  | append_singleton keys k ih =>
    have hkeys : Apart keys := h.sublist (List.sublist_append_left ..)
    have hnew : ¬(gather f keys).contains k = true := by
      intro hk
      rw [← contains_keys, List.contains_iff_exists_mem_beq] at hk
      obtain ⟨key, hkey, hbeq⟩ := hk
      have hapart := (List.pairwise_append.mp h).2.2 key (mem_of_mem_keys_gather hkey) k (List.mem_singleton_self k)
      rw [BEq.symm hbeq] at hapart
      cases hapart
    rw [gather_append_singleton, List.filterMap_append, ← ih hkeys]
    cases hf : f k with
    | some v => rw [entries_insert hnew]; simp [hf]
    | none => simp [hf]

end Dict

end Recheck
