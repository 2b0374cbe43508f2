import Recheck.Proofs.Session.Alike
import Recheck.Proofs.Text.Sibling

/-!
# Reports of single files

What a notification says of one file is a report. It drops the records of the declarations beside the file
(`Report.drops`) and marks the record of the file itself (`Report.mark`); the look-ups after it are given by these
two (`Report.item?_apply`), so two reports commute on look-ups when neither makes what the other one drops.

They do not commute on the paths noted as referring to a removed file. A record that has a unit afterwards was there
all along with the same edges, though, so its path is noted exactly if it refers to a file that had a record at first
and has none at the end (`Store.Sheds`), in whichever order the records went.
-/

set_option autoImplicit false

namespace Recheck

namespace Store

variable {s : Store} {p : Path}

theorem item?_removeRecord (s : Store) (path p : Path) : (s.removeRecord path).records.item? p =
    if path == p then none else s.records.item? p := by
  unfold removeRecord
  split
  · exact Dict.item?_erase ..
  · rename_i hnone
    split
    · rename_i hp
      rw [← Dict.item?_congr _ hp]
      rw [contains, Dict.contains_eq_item?, Option.not_isSome_iff_eq_none] at hnone
      exact hnone
    · rfl

theorem item?_remove (s : Store) (path p : Path) : (s.remove path).records.item? p =
    if path == p || path.declarationSibling == p then none else s.records.item? p := by
  unfold remove
  rw [item?_removeRecord, item?_removeRecord]
  cases path == p <;> cases path.declarationSibling == p <;> rfl

theorem item?_removeDeclarationOf (s : Store) (path p : Path) : (s.removeDeclarationOf path).records.item? p =
    if path.declarationSibling == p ||
      s.contains path.declarationSibling && path.declarationSibling.declarationSibling == p then none
    else s.records.item? p := by
  unfold removeDeclarationOf
  split
  · rename_i hknown
    rw [item?_remove, hknown, Bool.true_and]
  · rename_i hnone
    rw [Bool.eq_false_iff.mpr hnone, Bool.false_and, Bool.or_false]
    split
    · rename_i hp
      rw [← Dict.item?_congr _ hp]
      rw [contains, Dict.contains_eq_item?, Option.not_isSome_iff_eq_none] at hnone
      exact hnone
    · rfl

end Store

/-- A notification about one path. -/
structure Report where
  notice : Session.Notice
  path : Path
deriving DecidableEq

namespace Report

variable {a b r : Report} {s : Store} {p : Path}

def apply (r : Report) (s : Store) : Store := r.notice.apply s r.path

/-- Whether a report drops the record of a path. -/
def drops (r : Report) (s : Store) (p : Path) : Bool :=
  match r.notice with
  | .removed => r.path == p || r.path.declarationSibling == p
  | _ => r.path.declarationSibling == p ||
    s.contains r.path.declarationSibling && r.path.declarationSibling.declarationSibling == p

/-- What a report makes of the entry of a path that it does not drop. -/
def mark (r : Report) (p : Path) (e? : Option (Path × FileRecord)) : Option (Path × FileRecord) :=
  if r.path == p then
    match r.notice with
    | .built => some ((e?.map (·.1)).getD r.path, .idle true)
    | .changed => e?.map fun e => (e.1, e.2.reset)
    | .removed => e?
  else e?

theorem item?_apply (hr : r.path.Canonical) (s : Store) (p : Path) : (r.apply s).records.item? p =
    if r.drops s p then none else r.mark p (s.records.item? p) := by
  obtain ⟨notice, path⟩ := r
  have hne : (path == path.declarationSibling) = false :=
    Bool.eq_false_iff.mpr fun h => path.declarationSibling_ne ((hr.eq_of_beq hr.declarationSibling h).symm)
  unfold apply mark drops
  cases notice with
  | built =>
    have hmark : ∀ p, (s.markBuilt path).records.item? p = if path == p
        then some (((s.records.item? p).map (·.1)).getD path, .idle true) else s.records.item? p := by
      intro p
      unfold Store.markBuilt Store.put
      rw [Dict.item?_update, Dict.item?_insertNew]
      cases path == p <;> cases s.records.item? p <;> rfl
    have hknown : (s.markBuilt path).contains path.declarationSibling = s.contains path.declarationSibling := by
      rw [Store.contains, Store.contains, Dict.contains_eq_item?, Dict.contains_eq_item?, hmark, hne]
      rfl
    exact (Store.item?_removeDeclarationOf ..).trans (by rw [hmark, hknown])
  | changed =>
    have hmark : ∀ p, (s.invalidate path).records.item? p = if path == p
        then (s.records.item? p).map fun e => (e.1, e.2.reset) else s.records.item? p :=
      fun p => Dict.item?_update ..
    have hknown : (s.invalidate path).contains path.declarationSibling = s.contains path.declarationSibling := by
      rw [Store.contains, Store.contains, Dict.contains_eq_item?, Dict.contains_eq_item?, hmark, hne]
      rfl
    exact (Store.item?_removeDeclarationOf ..).trans (by rw [hmark, hknown])
  | removed =>
    exact (Store.item?_remove ..).trans (by simp only [ite_self])

/-- Whether the order of two reports can matter: one names the declaration beside the other's file, or the
declaration beside that, as built or changed. -/
def Clashes (a b : Report) : Prop :=
  b.path = a.path.declarationSibling ∧ (b.notice = .built ∨ b.notice = .changed ∧ a.notice ≠ .removed) ∨
  b.path = a.path.declarationSibling.declarationSibling ∧ b.notice = .built ∧ a.notice ≠ .removed

theorem drops_congr (r : Report) (s : Store) {p q : Path} (h : (p == q) = true) : r.drops s p = r.drops s q := by
  unfold drops
  rw [BEq.congr_right h, BEq.congr_right h, BEq.congr_right h]

theorem drops_iff_of_removed (hr : r.path.Canonical) (hp : p.Canonical) (hremoved : r.notice = .removed) :
    r.drops s p = true ↔ r.path = p ∨ r.path.declarationSibling = p := by
  unfold drops
  rw [hremoved]
  exact Bool.or_eq_true_iff.trans (or_congr (hr.beq_iff hp) (hr.declarationSibling.beq_iff hp))

theorem drops_iff_of_present (hr : r.path.Canonical) (hp : p.Canonical) (hpresent : r.notice ≠ .removed) :
    r.drops s p = true ↔ r.path.declarationSibling = p ∨
      s.contains r.path.declarationSibling = true ∧ r.path.declarationSibling.declarationSibling = p := by
  have hunfold : r.drops s p = (r.path.declarationSibling == p ||
      s.contains r.path.declarationSibling && r.path.declarationSibling.declarationSibling == p) := by
    unfold drops
    cases hn : r.notice with
    | removed => exact absurd hn hpresent
    | built => rfl
    | changed => rfl
  rw [hunfold, Bool.or_eq_true_iff, Bool.and_eq_true_iff, hr.declarationSibling.beq_iff hp,
    hr.declarationSibling.declarationSibling.beq_iff hp]

theorem mark_comm (hne : (a.path == b.path) = false) (p : Path) (e? : Option (Path × FileRecord)) :
    b.mark p (a.mark p e?) = a.mark p (b.mark p e?) := by
  unfold mark
  cases ha : a.path == p with
  | false => rfl
  | true =>
    have hb : (b.path == p) = false := by
      refine Bool.eq_false_iff.mpr fun hb => ?_
      rw [BEq.trans ha (BEq.symm hb)] at hne
      exact nomatch hne
    rw [hb]
    rfl

/-- A report that does not build a file makes no entry. -/
theorem isSome_mark (r : Report) (p : Path) (e? : Option (Path × FileRecord))
    (hr : (r.path == p) = true → r.notice ≠ .built) : (r.mark p e?).isSome = e?.isSome := by
  unfold mark
  split
  · rename_i hp
    cases hn : r.notice with
    | built => exact absurd hn (hr hp)
    | changed => exact Option.isSome_map
    | removed => rfl
  · rfl

/-- No mark takes an entry away. -/
theorem isSome_mark_some (r : Report) (p : Path) (e : Path × FileRecord) : (r.mark p (some e)).isSome = true := by
  unfold mark
  split
  · cases r.notice <;> rfl
  · rfl

section Pair

variable (ha : a.path.Canonical) (hb : b.path.Canonical) (hne : a.path ≠ b.path) (hab : ¬ a.Clashes b)
  (hba : ¬ b.Clashes a)

include ha hb hne hab

/-- A report does not put back what another one drops. -/
theorem mark_none_of_drops (hdrop : a.drops s p = true) : b.mark p none = none := by
  refine Option.not_isSome_iff_eq_none.mp ?_
  rw [isSome_mark b p none fun hbp hbuilt => ?_]
  · exact Bool.false_ne_true
  rw [← drops_congr a s hbp] at hdrop
  by_cases hremoved : a.notice = .removed
  · rcases (drops_iff_of_removed ha hb hremoved).mp hdrop with h | h
    · exact hne h
    · exact hab (Or.inl ⟨h.symm, Or.inl hbuilt⟩)
  · rcases (drops_iff_of_present ha hb hremoved).mp hdrop with h | ⟨_, h⟩
    · exact hab (Or.inl ⟨h.symm, Or.inl hbuilt⟩)
    · exact hab (Or.inr ⟨h.symm, hbuilt, hremoved⟩)

include hba

/-- What one report or the other drops does not depend on which one comes first. -/
theorem drops_apply (s : Store) (p : Path) :
    (b.drops (a.apply s) p || a.drops s p) = (b.drops s p || a.drops s p) := by
  by_cases hremoved : b.notice = .removed
  · unfold drops
    rw [hremoved]
  -- The second report asks for one record, that of the declaration beside its file.
  have hknown : (b.path.declarationSibling.declarationSibling == p) = true →
      ((a.apply s).contains b.path.declarationSibling || a.drops s p) =
        (s.contains b.path.declarationSibling || a.drops s p) := by
    intro hp
    have hsibling := hb.declarationSibling
    rw [← drops_congr a s hp, Store.contains, Store.contains, Dict.contains_eq_item?, Dict.contains_eq_item?,
      item?_apply ha]
    split
    · rename_i hdrop
      suffices hboth : a.drops s b.path.declarationSibling.declarationSibling = true by rw [hboth]; simp
      by_cases ha' : a.notice = .removed
      · rw [drops_iff_of_removed ha hsibling.declarationSibling ha']
        rcases (drops_iff_of_removed ha hsibling ha').mp hdrop with h | h
        · exact Or.inr (by rw [h])
        · exact absurd (Path.eq_of_declarationSibling_eq h) hne
      · rcases (drops_iff_of_present ha hsibling ha').mp hdrop with h | ⟨_, h⟩
        · exact absurd (Path.eq_of_declarationSibling_eq h) hne
        · have hchanged : b.notice = .built ∨ b.notice = .changed ∧ a.notice ≠ .removed := by
            cases hn : b.notice with
            | built => exact Or.inl rfl
            | changed => exact Or.inr ⟨rfl, ha'⟩
            | removed => exact absurd hn hremoved
          exact absurd (Or.inl ⟨(Path.eq_of_declarationSibling_eq h).symm, hchanged⟩) hab
    · rw [isSome_mark]
      intro hpath hbuilt
      exact hba (Or.inl ⟨ha.eq_of_beq hsibling hpath, Or.inl hbuilt⟩)
  have hdrops : ∀ s : Store, b.drops s p = (b.path.declarationSibling == p ||
      s.contains b.path.declarationSibling && b.path.declarationSibling.declarationSibling == p) := by
    intro s
    unfold drops
    cases hn : b.notice with
    | removed => exact absurd hn hremoved
    | built => rfl
    | changed => rfl
  rw [hdrops, hdrops]
  cases hp : b.path.declarationSibling.declarationSibling == p with
  | false => simp
  | true => simpa [Bool.or_assoc] using congrArg (b.path.declarationSibling == p || ·) (hknown hp)

/-- **Two reports that do not clash commute.** -/
theorem item?_comm (s : Store) (p : Path) :
    (b.apply (a.apply s)).records.item? p = (a.apply (b.apply s)).records.item? p := by
  have hsame := drops_apply ha hb hne hab hba s p
  have hsame' := drops_apply hb ha hne.symm hba hab s p
  have hapart : (a.path == b.path) = false := Bool.eq_false_iff.mpr fun h => hne (ha.eq_of_beq hb h)
  rw [item?_apply hb, item?_apply ha, item?_apply ha, item?_apply hb]
  cases hda : a.drops s p <;> cases hdb : b.drops s p <;>
    simp only [hda, hdb, Bool.or_false, Bool.or_true] at hsame hsame'
  · rw [hsame, hsame']
    exact mark_comm hapart p _
  · simp [hsame, mark_none_of_drops hb ha hne.symm hba hdb]
  · simp [hsame', mark_none_of_drops ha hb hne hab hda]
  · simp [mark_none_of_drops ha hb hne hab hda, mark_none_of_drops hb ha hne.symm hba hdb]

end Pair

end Report

/-! ## What was noted -/

/-- One store comes from another by dropping records, and by making records without a unit: a record with a unit
was there before, and its path is noted if it referred to one that was dropped. -/
structure Store.Sheds (s t : Store) : Prop where
  kept : ∀ p r, t.record? p = some r → r.unit?.isSome = true → s.record? p = some r
  noted : ∀ p, (t.unit? p).isSome = true → (t.removedDependents.contains p = true ↔
    s.removedDependents.contains p = true ∨ ∃ q, s.contains q = true ∧ t.contains q = false ∧ s.Refers p q)

namespace Store

variable {s t u : Store} {p q path : Path}

theorem contains_removeRecord (s : Store) (path p : Path) :
    (s.removeRecord path).contains p = (!(path == p) && s.contains p) := by
  rw [contains, contains, Dict.contains_eq_item?, Dict.contains_eq_item?, item?_removeRecord]
  cases path == p <;> rfl

theorem exists_record?_of_unit? (h : (s.unit? p).isSome = true) :
    ∃ r, s.record? p = some r ∧ r.unit?.isSome = true := by
  obtain ⟨unit, hu⟩ := Option.isSome_iff_exists.mp h
  obtain ⟨r, hr, hr'⟩ := Option.bind_eq_some_iff.mp hu
  exact ⟨r, hr, by rw [hr']; rfl⟩

namespace Sheds

theorem refl (s : Store) : s.Sheds s where
  kept _ _ h _ := h
  noted _ _ := (or_iff_left fun ⟨_, hq, hnot, _⟩ => by rw [hq] at hnot; exact nomatch hnot).symm

theorem removeRecord (hs : s.SelfFree) (path : Path) : s.Sheds (s.removeRecord path) where
  kept p r hr _ := by
    rw [record?, Dict.get?_eq_item?, item?_removeRecord] at hr
    split at hr
    · exact nomatch hr
    · rwa [← Dict.get?_eq_item?] at hr
  noted p _ := by
    rw [contains_removedDependents_removeRecord hs, Bool.or_eq_true]
    refine or_congr_right ?_
    simp only [contains_removeRecord]
    unfold orphans
    constructor
    · intro h
      split at h
      · rename_i hknown
        exact ⟨path, hknown, by simp, contains_dependents_iff.mp h⟩
      · exact absurd h (by simp)
    · rintro ⟨q, hq, hlost, hrefers⟩
      have hpath : (path == q) = true := by simpa [hq] using hlost
      have hknown : s.contains path = true := (s.records.contains_congr hpath).trans hq
      rw [if_pos hknown]
      exact contains_dependents_iff.mpr (hrefers.congr_right (BEq.symm hpath))

/-- Shedding twice is shedding once, unless what is dropped first is made again, or what is made first is
dropped. -/
theorem trans (h : s.Sheds t) (h' : t.Sheds u) (hs : s.records.Distinct) (ht : t.records.Distinct)
    (hdropped : ∀ q, s.contains q = true → t.contains q = false → u.contains q = false)
    (hmade : ∀ q, s.contains q = false → t.contains q = true → u.contains q = true) : s.Sheds u where
  kept p r hr hunit := h.kept p r (h'.kept p r hr hunit) hunit
  noted p hp := by
    obtain ⟨r, hr, hunit⟩ := exists_record?_of_unit? hp
    have hrt := h'.kept p r hr hunit
    have hrs := h.kept p r hrt hunit
    have hpt : (t.unit? p).isSome = true := by unfold unit?; rw [hrt]; exact hunit
    -- The record of `p` is the same in all three stores, and so are its edges.
    have hrefers : ∀ q, t.Refers p q ↔ s.Refers p q := fun q => by
      rw [refers_iff_record? ht, refers_iff_record? hs, hrt, hrs]
    rw [h'.noted p hp, h.noted p hpt, or_assoc]
    simp only [hrefers]
    refine or_congr_right ⟨?_, fun ⟨q, hq, hlost, hr⟩ => ?_⟩
    · rintro (⟨q, hq, hlost, hr⟩ | ⟨q, hq, hlost, hr⟩)
      · exact ⟨q, hq, hdropped q hq hlost, hr⟩
      · refine ⟨q, ?_, hlost, hr⟩
        by_contra hnew
        rw [hmade q (Bool.eq_false_iff.mpr hnew) hq] at hlost
        exact nomatch hlost
    · cases hqt : t.contains q with
      | true => exact Or.inr ⟨q, hqt, hlost, hr⟩
      | false => exact Or.inl ⟨q, hq, hqt, hr⟩

theorem remove (hs : s.SelfFree) (hd : s.records.Distinct) (path : Path) : s.Sheds (s.remove path) := by
  have hs' : (s.removeRecord path).SelfFree := (hs.removeRecord path).mono fun _ _ h => h.1
  refine (removeRecord hs path).trans (removeRecord hs' _) hd (distinct_removeRecord hd path) ?_ ?_
  · intro q _ hlost
    exact (contains_removeRecord ..).trans (by rw [hlost, Bool.and_false])
  · intro q hq hmade
    rw [contains_removeRecord, hq, Bool.and_false] at hmade
    exact nomatch hmade

theorem removeDeclarationOf (hs : s.SelfFree) (hd : s.records.Distinct) (path : Path) :
    s.Sheds (s.removeDeclarationOf path) := by
  unfold Store.removeDeclarationOf
  split
  · exact remove hs hd _
  · exact refl s

/-- Making and resetting records drops nothing. -/
theorem of_reset (hrecords : ∀ p, t.record? p = s.record? p ∨ ∃ r, t.record? p = some r ∧ r.unit? = none)
    (hkept : ∀ q, s.contains q = true → t.contains q = true)
    (hnotes : t.removedDependents = s.removedDependents) : s.Sheds t where
  kept p r hr hunit := by
    rcases hrecords p with h | ⟨r', hr', hnone⟩
    · rwa [← h]
    · rw [hr] at hr'
      cases hr'
      rw [hnone] at hunit
      exact nomatch hunit
  noted p _ := by
    rw [hnotes]
    refine (or_iff_left ?_).symm
    rintro ⟨q, hq, hlost, _⟩
    rw [hkept q hq] at hlost
    exact nomatch hlost

theorem invalidate (s : Store) (path : Path) : s.Sheds (s.invalidate path) := by
  refine of_reset (fun p => ?_) (fun q hq => (s.contains_update path q _).trans hq) rfl
  unfold Store.invalidate
  rw [record?_update]
  split
  · cases s.record? p with
    | none => exact Or.inl rfl
    | some r => exact Or.inr ⟨r.reset, rfl, rfl⟩
  · exact Or.inl rfl

theorem markBuilt (s : Store) (path : Path) : s.Sheds (s.markBuilt path) := by
  refine of_reset (fun p => ?_) (fun q hq => ?_) rfl
  · unfold Store.markBuilt
    rw [record?_put]
    split
    · exact Or.inr ⟨_, rfl, rfl⟩
    · exact Or.inl rfl
  · exact (s.contains_put path q _).trans (by rw [hq, Bool.or_true])

end Sheds

end Store

namespace Report

variable {a b r : Report} {s t : Store} {p : Path}

theorem contains_apply (hr : r.path.Canonical) (s : Store) (p : Path) : (r.apply s).contains p =
    if r.drops s p then false else (r.mark p (s.records.item? p)).isSome := by
  rw [Store.contains, Dict.contains_eq_item?, item?_apply hr]
  split <;> rfl

/-- What a report makes, it does not drop. -/
theorem sheds_apply (hr : r.path.Canonical) (hs : s.SelfFree) (hd : s.records.Distinct) :
    s.Sheds (r.apply s) := by
  obtain ⟨notice, path⟩ := r
  have hr : path.Canonical := hr
  have hdrop : ∀ {u : Store} {q : Path}, (path == q) = true → u.contains q = true →
      (u.removeDeclarationOf path).contains q = true := by
    intro u q hq hu
    rw [Store.contains, Dict.contains_eq_item?] at hu ⊢
    rw [Store.item?_removeDeclarationOf, if_neg ?_]
    · exact hu
    rw [← BEq.congr_right hq, ← BEq.congr_right hq, Bool.or_eq_true, Bool.and_eq_true,
      hr.declarationSibling.beq_iff hr, hr.declarationSibling.declarationSibling.beq_iff hr]
    rintro (h | ⟨_, h⟩)
    · exact path.declarationSibling_ne h
    · exact path.declarationSibling_declarationSibling_ne h
  cases notice with
  | built =>
    have hs' : (s.markBuilt path).SelfFree := hs.put rfl (fun _ _ _ _ => rfl) fun _ _ _ h => h
    have hd' : (s.markBuilt path).records.Distinct := Store.distinct_put hd path _
    refine (Store.Sheds.markBuilt s path).trans (.removeDeclarationOf hs' hd' path) hd hd' ?_ ?_
    · intro q hq hlost
      rw [Store.markBuilt, Store.contains_put, hq, Bool.or_true] at hlost
      exact nomatch hlost
    · intro q hq hmade
      have hpath : (path == q) = true := by
        rw [Store.markBuilt, Store.contains_put, hq, Bool.or_false] at hmade
        exact hmade
      exact hdrop hpath hmade
  | changed =>
    have hs' : (s.invalidate path).SelfFree := hs.update (fun _ _ _ _ => rfl) fun _ _ _ h => h
    have hd' : (s.invalidate path).records.Distinct := Store.distinct_update hd path _
    refine (Store.Sheds.invalidate s path).trans (.removeDeclarationOf hs' hd' path) hd hd' ?_ ?_
    · intro q hq hlost
      rw [Store.invalidate, Store.contains_update, hq] at hlost
      exact nomatch hlost
    · intro q hq hmade
      rw [Store.invalidate, Store.contains_update, hq] at hmade
      exact nomatch hmade
  | removed => exact Store.Sheds.remove hs hd path

theorem selfFree_apply (r : Report) (hs : s.SelfFree) : (r.apply s).SelfFree := hs.notice r.notice r.path

theorem distinct_apply (r : Report) (hd : s.records.Distinct) : (r.apply s).records.Distinct :=
  Store.distinct_notice hd r.notice r.path

theorem alike_apply (hr : r.path.Canonical) (h : s.Alike t) : (r.apply s).Alike (r.apply t) :=
  ⟨r.distinct_apply h.left, r.distinct_apply h.right, fun p => by
    have hdrops : r.drops s p = r.drops t p := by
      unfold drops
      rw [h.contains]
    rw [item?_apply hr, item?_apply hr, h.item?, hdrops]⟩

/-- Stores with the same entries that shed the same entries noted the same for the files that they hold. -/
theorem interchangeable_of_sheds {s s' t t' : Store} (h : s.Interchangeable s') (ht : s.Sheds t)
    (ht' : s'.Sheds t') (halike : t.Alike t') (hnew : t.recentlyAdded = []) (hnew' : t'.recentlyAdded = []) :
    t.Interchangeable t' := by
  refine ⟨halike, hnew, hnew', fun p hp => ?_⟩
  have hp' : (t'.unit? p).isSome = true := by rw [← halike.unit?]; exact hp
  have hps : (s.unit? p).isSome = true := by
    obtain ⟨r, hr, hunit⟩ := Store.exists_record?_of_unit? hp
    unfold Store.unit?
    rw [ht.kept p r hr hunit]
    exact hunit
  rw [Bool.eq_iff_iff, ht.noted p hp, ht'.noted p hp', h.orphaned p hps]
  simp only [h.alike.contains, halike.contains, h.alike.refers_iff]

theorem interchangeable_apply (hr : r.path.Canonical) (hs : s.SelfFree) (h : s.Interchangeable t) :
    (r.apply s).Interchangeable (r.apply t) := by
  have ht : t.SelfFree := fun e he => hs e ((h.alike.mem_iff e).mpr he)
  exact interchangeable_of_sheds h (sheds_apply hr hs h.alike.left) (sheds_apply hr ht h.alike.right)
    (alike_apply hr h.alike) (Store.recentlyAdded_notice h.newLeft _ _) (Store.recentlyAdded_notice h.newRight _ _)

section Pair

variable (ha : a.path.Canonical) (hb : b.path.Canonical) (hne : a.path ≠ b.path) (hab : ¬ a.Clashes b)
  (hba : ¬ b.Clashes a) (hs : s.SelfFree) (hd : s.records.Distinct)

include ha hb hne hab hba hs hd

/-- What the first of two reports drops, the second one does not make again, and it does not drop what the first
one makes. -/
theorem sheds_pair : s.Sheds (b.apply (a.apply s)) := by
  refine (sheds_apply ha hs hd).trans (sheds_apply hb (a.selfFree_apply hs) (a.distinct_apply hd)) hd
    (a.distinct_apply hd) (fun q hq hlost => ?_) fun q hq hmade => ?_
  · have hdrop : a.drops s q = true := by
      by_contra hkeep
      rw [contains_apply ha, if_neg hkeep] at hlost
      rw [Store.contains, Dict.contains_eq_item?, Option.isSome_iff_exists] at hq
      obtain ⟨e, he⟩ := hq
      rw [he, isSome_mark_some] at hlost
      exact nomatch hlost
    rw [contains_apply hb, item?_apply ha, if_pos hdrop, mark_none_of_drops ha hb hne hab hdrop]
    exact ite_self _
  · rw [contains_apply ha] at hmade
    split at hmade
    · exact nomatch hmade
    rename_i hkeep
    rw [Store.contains, Dict.contains_eq_item?, Option.isSome_eq_false_iff, Option.isNone_iff_eq_none] at hq
    rw [hq] at hmade
    have hsame := drops_apply ha hb hne hab hba s q
    rw [Bool.eq_false_iff.mpr hkeep, Bool.or_false, Bool.or_false] at hsame
    have hstay : ¬ b.drops (a.apply s) q = true := by
      rw [hsame]
      intro hdrop
      rw [mark_none_of_drops hb ha hne.symm hba hdrop] at hmade
      exact nomatch hmade
    rw [contains_apply hb, if_neg hstay, item?_apply ha, if_neg hkeep, hq]
    obtain ⟨e, he⟩ := Option.isSome_iff_exists.mp hmade
    rw [he, isSome_mark_some]

theorem interchangeable_comm (hnew : s.recentlyAdded = []) :
    (b.apply (a.apply s)).Interchangeable (a.apply (b.apply s)) := by
  refine interchangeable_of_sheds (.refl hd hnew) (sheds_pair ha hb hne hab hba hs hd)
    (sheds_pair hb ha hne.symm hba hab hs hd) ⟨?_, ?_, item?_comm ha hb hne hab hba s⟩ ?_ ?_
  · exact b.distinct_apply (a.distinct_apply hd)
  · exact a.distinct_apply (b.distinct_apply hd)
  · exact Store.recentlyAdded_notice (Store.recentlyAdded_notice hnew _ _) _ _
  · exact Store.recentlyAdded_notice (Store.recentlyAdded_notice hnew _ _) _ _

end Pair

/-! ## Lists of reports -/

/-- Takes some reports, one after another. -/
def applyAll (reports : List Report) (s : Store) : Store := reports.foldl (fun s r => r.apply s) s

theorem interchangeable_applyAll {reports : List Report} (hcanonical : ∀ r ∈ reports, r.path.Canonical)
    (hs : s.SelfFree) (h : s.Interchangeable t) :
    (applyAll reports s).Interchangeable (applyAll reports t) := by
  induction reports generalizing s t with
  | nil => exact h
  | cons r reports ih =>
    exact ih (fun q hq => hcanonical q (List.mem_cons_of_mem _ hq)) (r.selfFree_apply hs)
      (interchangeable_apply (hcanonical r List.mem_cons_self) hs h)

/-- **Reports that do not clash can be taken in any order.** -/
theorem applyAll_perm {first second : List Report} (hperm : first.Perm second)
    (hcanonical : ∀ r ∈ first, r.path.Canonical) (hapart : (first.map (·.path)).Nodup)
    (hclash : ∀ a ∈ first, ∀ b ∈ first, ¬ a.Clashes b) (hs : s.SelfFree) (hd : s.records.Distinct)
    (hnew : s.recentlyAdded = []) : (applyAll first s).Interchangeable (applyAll second s) := by
  induction hperm generalizing s with
  | nil => exact .refl hd hnew
  | cons r _ ih =>
    rw [List.map_cons, List.nodup_cons] at hapart
    exact ih (fun q hq => hcanonical q (List.mem_cons_of_mem _ hq)) hapart.2
      (fun a ha b hb => hclash a (List.mem_cons_of_mem _ ha) b (List.mem_cons_of_mem _ hb))
      (r.selfFree_apply hs) (r.distinct_apply hd) (Store.recentlyAdded_notice hnew _ _)
  | swap a b rest =>
    have ha := List.mem_cons_of_mem b (List.mem_cons_self (a := a) (l := rest))
    have hb := List.mem_cons_self (a := b) (l := a :: rest)
    have hne : b.path ≠ a.path := fun h => by
      rw [List.map_cons, List.map_cons, h, List.nodup_cons] at hapart
      exact hapart.1 List.mem_cons_self
    have hpair : (a.apply (b.apply s)).Interchangeable (b.apply (a.apply s)) :=
      interchangeable_comm (hcanonical b hb) (hcanonical a ha) hne (hclash b hb a ha) (hclash a ha b hb) hs hd hnew
    exact interchangeable_applyAll
      (fun q hq => hcanonical q (List.mem_cons_of_mem _ (List.mem_cons_of_mem _ hq)))
      (a.selfFree_apply (b.selfFree_apply hs)) hpair
  | trans hfirst _ ih ih' =>
    refine (ih hcanonical hapart hclash hs hd hnew).trans (ih' (fun q hq => ?_) ?_ (fun a ha b hb => ?_) hs hd hnew)
    · exact hcanonical q (hfirst.mem_iff.mpr hq)
    · exact (hfirst.map _).nodup_iff.mp hapart
    · exact hclash a (hfirst.mem_iff.mpr ha) b (hfirst.mem_iff.mpr hb)

end Report

end Recheck
