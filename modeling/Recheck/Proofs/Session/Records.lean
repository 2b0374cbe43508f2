import Recheck.Session.Basic
import Recheck.Proofs.Session.Closure

/-!
# What happens to records

A store changes in four ways only: a record is made or changed (`put`, `update`), it is removed
(`removeRecord`), or a cycle ends (`cleanup`). This file says what each of them does to the record that a
path is found under, and which statements about all records survive it.

Two kinds of statement are enough for the sessions. `Store.Units` speaks of the units that are held, so
whatever only drops units preserves it; a notification is of that kind (`Units.notice`), and after it the
path itself holds no unit (`unit?_notice`). `Store.SelfFree` says that no record refers to its own path, and
with it the referrers that a removal notes are the ones from before the removal (`orphans`).
-/

set_option autoImplicit false

namespace Recheck

namespace Store

variable {s : Store} {path other p : Path} {unit : SourceUnit}

/-! ## Look-ups -/

theorem record?_congr (s : Store) {a b : Path} (h : (a == b) = true) : s.record? a = s.record? b :=
  s.records.get?_congr h

theorem unit?_congr (s : Store) {a b : Path} (h : (a == b) = true) : s.unit? a = s.unit? b := by
  unfold unit?
  rw [record?_congr s h]

theorem hasGlobalImpact_congr (s : Store) {a b : Path} (h : (a == b) = true) :
    s.hasGlobalImpact a = s.hasGlobalImpact b := by
  unfold hasGlobalImpact holds
  rw [record?_congr s h]

theorem record?_put (s : Store) (path other : Path) (change : FileRecord → FileRecord) :
    (s.put path change).record? other =
      if path == other then some (change ((s.record? other).getD .fresh)) else s.record? other := by
  unfold record? put
  rw [Dict.get?_update, Dict.get?_insertNew]
  split <;> rfl

theorem record?_update (s : Store) (path other : Path) (change : FileRecord → FileRecord) :
    (s.update path change).record? other =
      if path == other then (s.record? other).map change else s.record? other :=
  s.records.get?_update path other change

theorem record?_cleanup (hs : s.records.Distinct) (path : Path) :
    s.cleanup.record? path = (s.record? path).filter (·.unit?.isSome) :=
  Dict.get?_filter hs _ path

theorem record?_recordParsed (s : Store) (path other : Path) (unit : SourceUnit) :
    (s.recordParsed path unit).record? other =
      if path == other then some { (s.record? other).getD .fresh with unit? := some unit }
      else s.record? other :=
  record?_put s path other _

theorem unit?_recordParsed (s : Store) (path other : Path) (unit : SourceUnit) :
    (s.recordParsed path unit).unit? other = if path == other then some unit else s.unit? other := by
  unfold unit?
  rw [record?_recordParsed]
  split <;> rfl

theorem contains_update (s : Store) (path other : Path) (change : FileRecord → FileRecord) :
    (s.update path change).contains other = s.contains other := by
  show ((s.update path change).record? other).isSome = (s.record? other).isSome
  rw [record?_update]
  split
  · exact Option.isSome_map
  · rfl

theorem contains_put (s : Store) (path other : Path) (change : FileRecord → FileRecord) :
    (s.put path change).contains other = (path == other || s.contains other) := by
  show ((s.put path change).record? other).isSome = _
  rw [record?_put]
  cases path == other <;> rfl

/-- A change that keeps the unit of a record keeps all units. -/
theorem unit?_update {change : FileRecord → FileRecord} (h : ∀ r, (change r).unit? = r.unit?) (s : Store)
    (path other : Path) : (s.update path change).unit? other = s.unit? other := by
  unfold unit?
  rw [record?_update]
  split
  · cases s.record? other with
    | none => rfl
    | some r => exact h r
  · rfl

theorem unit?_markLinted (s : Store) (path other : Path) :
    (s.markLinted path).unit? other = s.unit? other := s.unit?_update (fun _ => by rfl) path other

theorem unit?_cleanup (hs : s.records.Distinct) (path : Path) : s.cleanup.unit? path = s.unit? path := by
  unfold unit?
  rw [record?_cleanup hs]
  cases hr : s.record? path with
  | none => rfl
  | some r => cases hu : r.unit? <;> simp [Option.filter, hu]

theorem refers_iff_record? (hs : s.records.Distinct) {a b : Path} :
    s.Refers a b ↔ ∃ r, s.record? a = some r ∧ r.dependencies.contains b = true := by
  unfold Refers record?
  constructor
  · rintro ⟨⟨k, r⟩, hm, hk, hb⟩
    exact ⟨r, Dict.get?_of_mem hs hm hk, hb⟩
  · rintro ⟨r, hr, hb⟩
    obtain ⟨k, hm, hk⟩ := Dict.exists_mem_of_get? hr
    exact ⟨(k, r), hm, hk, hb⟩

/-! ## Keys stay distinct -/

theorem distinct_put (hs : s.records.Distinct) (path : Path) (change : FileRecord → FileRecord) :
    (s.put path change).records.Distinct := (hs.insertNew path .fresh).update path change

theorem distinct_update (hs : s.records.Distinct) (path : Path) (change : FileRecord → FileRecord) :
    (s.update path change).records.Distinct := hs.update path change

theorem distinct_removeRecord (hs : s.records.Distinct) (path : Path) :
    (s.removeRecord path).records.Distinct := by
  unfold removeRecord
  split
  · exact hs.erase path
  · exact hs

theorem distinct_remove (hs : s.records.Distinct) (path : Path) : (s.remove path).records.Distinct :=
  distinct_removeRecord (distinct_removeRecord hs path) _

theorem distinct_removeDeclarationOf (hs : s.records.Distinct) (path : Path) :
    (s.removeDeclarationOf path).records.Distinct := by
  unfold removeDeclarationOf
  split
  · exact distinct_remove hs _
  · exact hs

theorem distinct_cleanup (hs : s.records.Distinct) : s.cleanup.records.Distinct := hs.filter _

/-! ## Statements about all records -/

/-- All records satisfy a statement. -/
def All (P : Path → FileRecord → Prop) (s : Store) : Prop := ∀ e ∈ s.records.entries, P e.1 e.2

variable {P P' : Path → FileRecord → Prop}

theorem All.mono (h : s.All P) (hP : ∀ k r, P k r → P' k r) : s.All P' := fun e he => hP _ _ (h e he)

theorem All.of_record? (h : s.All P) {r : FileRecord} (hr : s.record? path = some r) :
    ∃ key, (key == path) = true ∧ P key r := by
  obtain ⟨key, hm, hk⟩ := Dict.exists_mem_of_get? hr
  exact ⟨key, hk, h _ hm⟩

theorem All.update {change : FileRecord → FileRecord} (h : s.All P)
    (hc : ∀ k r, (k == path) = true → P k r → P' k (change r))
    (hk : ∀ k r, (k == path) = false → P k r → P' k r) : (s.update path change).All P' := by
  rintro ⟨k, r⟩ hm
  obtain ⟨old, hold, rfl⟩ := Dict.mem_update hm
  cases hkp : k == path with
  | true => exact hc k old hkp (h _ hold)
  | false => exact hk k old hkp (h _ hold)

theorem All.put {change : FileRecord → FileRecord} (h : s.All P) (hf : P path .fresh)
    (hc : ∀ k r, (k == path) = true → P k r → P' k (change r))
    (hk : ∀ k r, (k == path) = false → P k r → P' k r) : (s.put path change).All P' := by
  have hnew : All P { s with records := s.records.insertNew path .fresh } := by
    rintro ⟨k, r⟩ hm
    simp only [Dict.insertNew] at hm
    split at hm
    · exact h _ hm
    · rename_i hnone
      rw [Dict.entries_insert hnone, List.mem_append, List.mem_singleton] at hm
      rcases hm with hm | hm
      · exact h _ hm
      · cases hm; exact hf
  exact hnew.update hc hk

theorem All.removeRecord (h : s.All P) (path : Path) :
    (s.removeRecord path).All fun k r => P k r ∧ (k == path) = false := by
  unfold Store.removeRecord
  split
  · intro e he
    obtain ⟨hm, hk⟩ := List.mem_filter.mp he
    exact ⟨h e hm, by simpa using hk⟩
  · rename_i hnone
    intro e he
    exact ⟨h e he, Bool.eq_false_iff.mpr fun hk => hnone (Dict.contains_of_mem he hk)⟩

theorem All.remove (h : s.All P) (path : Path) :
    (s.remove path).All fun k r => P k r ∧ (k == path) = false :=
  ((h.removeRecord path).removeRecord _).mono fun _ _ h => h.1

theorem All.removeDeclarationOf (h : s.All P) (path : Path) : (s.removeDeclarationOf path).All P := by
  unfold Store.removeDeclarationOf
  split
  · exact (h.remove _).mono fun _ _ h => h.1
  · exact h

theorem All.cleanup (h : s.All P) : s.cleanup.All P := fun e he => h e (List.mem_of_mem_filter he)

end Store

/-- A record of which only the path is known, and whether it was built. -/
def FileRecord.idle (built : Bool) : FileRecord := { FileRecord.fresh with built := built }

namespace Store

variable {s : Store} {path p : Path} {unit : SourceUnit} {P : Path → FileRecord → Prop}

/-- A notification preserves what idle records satisfy, and leaves the record of its path idle. -/
theorem All.notice (h : s.All P) (hidle : ∀ k built, P k (.idle built)) (notice : Session.Notice) (path : Path) :
    (notice.apply s path).All fun k r => P k r ∧ ((k == path) = true → ∃ built, r = .idle built) := by
  have hkeep : ∀ k r, (k == path) = false → P k r → P k r ∧ ((k == path) = true → ∃ built, r = .idle built) :=
    fun k r hk h => ⟨h, fun hk' => absurd hk' (by simp [hk])⟩
  cases notice with
  | built =>
    have hmark : (s.markBuilt path).All _ :=
      h.put (hidle path false) (fun k r _ _ => ⟨hidle k true, fun _ => ⟨true, rfl⟩⟩) hkeep
    exact hmark.removeDeclarationOf path
  | changed =>
    have hreset : (s.invalidate path).All _ :=
      h.update (fun k r _ _ => ⟨hidle k r.built, fun _ => ⟨r.built, rfl⟩⟩) hkeep
    exact hreset.removeDeclarationOf path
  | removed => exact (h.remove path).mono fun k r h => hkeep k r h.2 h.1

theorem distinct_notice (hs : s.records.Distinct) (notice : Session.Notice) (path : Path) :
    (notice.apply s path).records.Distinct := by
  cases notice with
  | built => exact distinct_removeDeclarationOf (distinct_put hs ..) _
  | changed => exact distinct_removeDeclarationOf (distinct_update hs ..) _
  | removed => exact distinct_remove hs _

/-! ## Statements about all units -/

/-- All units that are held satisfy a statement. -/
def Units (Q : Path → SourceUnit → Prop) (s : Store) : Prop :=
  s.All fun k r => ∀ u, r.unit? = some u → Q k u

variable {Q Q' : Path → SourceUnit → Prop}

theorem Units.mono (h : s.Units Q) (hQ : ∀ k u, Q k u → Q' k u) : s.Units Q' :=
  All.mono h fun _ _ h u hu => hQ _ u (h u hu)

theorem Units.of_unit? (h : s.Units Q) (hu : s.unit? path = some unit) :
    ∃ key, (key == path) = true ∧ Q key unit := by
  obtain ⟨r, hr, hu⟩ := Option.bind_eq_some_iff.mp hu
  obtain ⟨key, hk, hq⟩ := h.of_record? hr
  exact ⟨key, hk, hq unit hu⟩

theorem Units.recordParsed (h : s.Units Q) (hq : ∀ k, (k == path) = true → Q k unit) :
    (s.recordParsed path unit).Units Q :=
  All.put (s := s) h (fun _ hu => nomatch hu) (fun k _ hk _ _ hu => Option.some.inj hu ▸ hq k hk)
    fun _ _ _ h => h

theorem Units.update {change : FileRecord → FileRecord} (h : s.Units Q)
    (hc : ∀ r, (change r).unit? = r.unit?) (path : Path) : (s.update path change).Units Q :=
  All.update h (fun _ r _ h u hu => h u (hc r ▸ hu)) fun _ _ _ h => h

theorem Units.markLinted (h : s.Units Q) (path : Path) : (s.markLinted path).Units Q :=
  h.update (fun _ => by rfl) path

/-- A notification drops the unit of its path, and changes none. -/
theorem Units.notice (h : s.Units Q) (notice : Session.Notice) (path : Path) :
    (notice.apply s path).Units fun k u => Q k u ∧ (k == path) = false := by
  refine (All.notice h (fun _ _ _ hu => nomatch hu) notice path).mono ?_
  intro k r h u hu
  refine ⟨h.1 u hu, Bool.eq_false_iff.mpr fun hk => ?_⟩
  obtain ⟨built, rfl⟩ := h.2 hk
  exact nomatch hu

/-! ## Referrers of removed records -/

/-- No record refers to its own path. -/
def SelfFree (s : Store) : Prop := s.All fun k r => r.dependencies.contains k = false

theorem SelfFree.notice (h : s.SelfFree) (notice : Session.Notice) (path : Path) :
    (notice.apply s path).SelfFree :=
  (All.notice h (fun _ _ => rfl) notice path).mono fun _ _ h => h.1

/-- The paths that lose something they refer to when a record is removed. -/
def orphans (s : Store) (path : Path) : List Path := if s.contains path then s.dependents path else []

theorem dependents_erase (hs : s.SelfFree) (path : Path) :
    ({ s with records := s.records.erase path } : Store).dependents path = s.dependents path := by
  rw [dependents_eq, dependents_eq]
  simp only [Dict.erase, List.filter_filter]
  refine congrArg _ (List.filter_congr fun e he => ?_)
  cases hd : e.2.dependencies.contains path with
  | false => rfl
  | true =>
    have hne : (e.1 == path) = false := by
      refine Bool.eq_false_iff.mpr fun hk => ?_
      have hself : e.2.dependencies.contains e.1 = false := hs e he
      rw [List.contains_congr hk, hd] at hself
      exact nomatch hself
    simp [hne]

theorem contains_removedDependents_removeRecord (hs : s.SelfFree) (path p : Path) :
    (s.removeRecord path).removedDependents.contains p =
      (s.removedDependents.contains p || (s.orphans path).contains p) := by
  unfold removeRecord orphans
  split
  · exact (contains_foldl_addNew _ _ p).trans (by rw [← dependents_erase hs path]; rfl)
  · simp

/-- What the removal of a file and of the declaration beside it leaves behind. -/
def removalOrphans (s : Store) (path : Path) : List Path :=
  s.orphans path ++ (s.removeRecord path).orphans path.declarationSibling

/-- What the removal of the declaration beside a file leaves behind. -/
def declarationOrphans (s : Store) (path : Path) : List Path :=
  if s.contains path.declarationSibling then s.removalOrphans path.declarationSibling else []

theorem contains_removedDependents_remove (hs : s.SelfFree) (path p : Path) :
    (s.remove path).removedDependents.contains p =
      (s.removedDependents.contains p || (s.removalOrphans path).contains p) := by
  unfold remove removalOrphans
  rw [contains_removedDependents_removeRecord ((hs.removeRecord path).mono fun _ _ h => h.1),
    contains_removedDependents_removeRecord hs, List.contains_append, Bool.or_assoc]

theorem contains_removedDependents_removeDeclarationOf (hs : s.SelfFree) (path p : Path) :
    (s.removeDeclarationOf path).removedDependents.contains p =
      (s.removedDependents.contains p || (s.declarationOrphans path).contains p) := by
  unfold removeDeclarationOf declarationOrphans
  split
  · exact contains_removedDependents_remove hs _ p
  · simp

theorem recentlyAdded_removeRecord (h : s.recentlyAdded = []) (path : Path) :
    (s.removeRecord path).recentlyAdded = [] := by
  unfold removeRecord
  split
  · simp [h]
  · exact h

theorem recentlyAdded_remove (h : s.recentlyAdded = []) (path : Path) :
    (s.remove path).recentlyAdded = [] := recentlyAdded_removeRecord (recentlyAdded_removeRecord h _) _

theorem recentlyAdded_removeDeclarationOf (h : s.recentlyAdded = []) (path : Path) :
    (s.removeDeclarationOf path).recentlyAdded = [] := by
  unfold removeDeclarationOf
  split
  · exact recentlyAdded_remove h _
  · exact h

theorem recentlyAdded_notice (h : s.recentlyAdded = []) (notice : Session.Notice) (path : Path) :
    (notice.apply s path).recentlyAdded = [] := by
  cases notice with
  | built => exact recentlyAdded_removeDeclarationOf (s := s.markBuilt path) h _
  | changed => exact recentlyAdded_removeDeclarationOf (s := s.invalidate path) h _
  | removed => exact recentlyAdded_remove h _

end Store

/-- The paths that referred to one of the records that a notification deletes, when it deletes it. -/
def Session.Notice.orphans (notice : Session.Notice) (store : Store) (path : Path) : List Path :=
  match notice with
  | built => (store.markBuilt path).declarationOrphans path
  | changed => (store.invalidate path).declarationOrphans path
  | removed => store.removalOrphans path

theorem Store.contains_removedDependents_notice {s : Store} (hs : s.SelfFree) (notice : Session.Notice)
    (path p : Path) : (notice.apply s path).removedDependents.contains p =
      (s.removedDependents.contains p || (notice.orphans s path).contains p) := by
  cases notice with
  | built =>
    have hmark : (s.markBuilt path).SelfFree :=
      All.put (s := s) hs rfl (fun _ _ _ _ => rfl) fun _ _ _ h => h
    exact contains_removedDependents_removeDeclarationOf hmark path p
  | changed =>
    have hreset : (s.invalidate path).SelfFree :=
      All.update (s := s) hs (fun _ _ _ _ => rfl) fun _ _ _ h => h
    exact contains_removedDependents_removeDeclarationOf hreset path p
  | removed => exact contains_removedDependents_remove hs path p

end Recheck
