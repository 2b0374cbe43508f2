import Recheck.Proofs.Data.Item
import Recheck.Proofs.Session.Scope

/-!
# Stores that a cycle cannot tell apart

Two stores are `Alike` when they have the same entries, in whatever order. Every stage of a cycle takes alike
stores to alike stores and finds the same in both.

For a cycle to run the same, the stores need not agree on all the referrers that they noted
(`Interchangeable`): a path without a unit is a seed of the cycle anyway if the cycle leaves a record for it,
and if not, it is no file of the program, and no file of the program leads to it.
-/

set_option autoImplicit false

namespace Recheck

namespace Store

variable {s t u : Store} {a b p q : Path}

/-- Two stores with the same entries. -/
structure Alike (s t : Store) : Prop where
  left : s.records.Distinct
  right : t.records.Distinct
  item? : ∀ p, s.records.item? p = t.records.item? p

namespace Alike

theorem refl (h : s.records.Distinct) : s.Alike s := ⟨h, h, fun _ => rfl⟩

theorem symm (h : s.Alike t) : t.Alike s := ⟨h.right, h.left, fun p => (h.item? p).symm⟩

theorem trans (h : s.Alike t) (h' : t.Alike u) : s.Alike u :=
  ⟨h.left, h'.right, fun p => (h.item? p).trans (h'.item? p)⟩

theorem mem_iff (h : s.Alike t) (e : Path × FileRecord) : e ∈ s.records.entries ↔ e ∈ t.records.entries :=
  Dict.mem_iff h.left h.right h.item? e

/-! ## What is looked up -/

theorem record? (h : s.Alike t) (p : Path) : s.record? p = t.record? p := by
  unfold Store.record?
  rw [Dict.get?_eq_item?, Dict.get?_eq_item?, h.item?]

theorem unit? (h : s.Alike t) (p : Path) : s.unit? p = t.unit? p := by
  unfold Store.unit?
  rw [h.record?]

theorem holds (h : s.Alike t) (p : Path) (f : FileRecord → Bool) : s.holds p f = t.holds p f := by
  unfold Store.holds
  rw [h.record?]

theorem contains (h : s.Alike t) (p : Path) : s.contains p = t.contains p := by
  unfold Store.contains
  rw [Dict.contains_eq_item?, Dict.contains_eq_item?, h.item?]

theorem refers_iff (h : s.Alike t) : s.Refers a b ↔ t.Refers a b := by
  unfold Refers
  simp only [h.mem_iff]

theorem affected (h : s.Alike t) {seed seed' : List Path} {p : Path}
    (hseed : (∃ q ∈ seed, Leads s.Refers p q) ↔ ∃ q ∈ seed', Leads s.Refers p q) :
    (s.affected seed).contains p = (t.affected seed').contains p := by
  have hrefers : t.Refers = s.Refers := funext fun _ => funext fun _ => propext h.refers_iff.symm
  rw [Bool.eq_iff_iff, contains_affected_iff, contains_affected_iff, hrefers, hseed]

theorem needingReload (h : s.Alike t) (p : Path) : s.needingReload.contains p = t.needingReload.contains p := by
  unfold Store.needingReload
  rw [Path.contains_sortDistinct, Path.contains_sortDistinct, Bool.eq_iff_iff, List.contains_iff_exists_mem_beq,
    List.contains_iff_exists_mem_beq]
  simp only [List.mem_map, List.mem_filter, h.mem_iff]

/-- Alike stores have the same files to watch. -/
theorem related (h : s.Alike t) : (s.related == t.related) = true := by
  have hwatched : s.watched = t.watched := by
    funext path r
    unfold Store.watched isBuilt
    simp only [h.holds]
  unfold Store.related
  refine Path.sortDistinct_beq fun p => ?_
  rw [Bool.eq_iff_iff, List.contains_iff_exists_mem_beq, List.contains_iff_exists_mem_beq]
  simp only [List.mem_flatMap, h.mem_iff, hwatched]

/-! ## What is changed -/

theorem update (h : s.Alike t) (path : Path) (change : FileRecord → FileRecord) :
    (s.update path change).Alike (t.update path change) :=
  ⟨h.left.update path change, h.right.update path change, fun p => by
    unfold Store.update
    rw [Dict.item?_update, Dict.item?_update, h.item?]⟩

theorem put (h : s.Alike t) (path : Path) (change : FileRecord → FileRecord) :
    (s.put path change).Alike (t.put path change) :=
  ⟨distinct_put h.left path change, distinct_put h.right path change, fun p => by
    unfold Store.put
    rw [Dict.item?_update, Dict.item?_update, Dict.item?_insertNew, Dict.item?_insertNew, h.item?]⟩

theorem cleanup (h : s.Alike t) : s.cleanup.Alike t.cleanup :=
  ⟨distinct_cleanup h.left, distinct_cleanup h.right, fun p => by
    unfold Store.cleanup
    rw [Dict.item?_filter h.left, Dict.item?_filter h.right, h.item?]⟩

end Alike

/-- Two stores that a cycle cannot tell apart: they are alike, nothing counts as new yet, and for each file that
they hold both noted whether it referred to one that was removed. -/
structure Interchangeable (s t : Store) : Prop where
  alike : s.Alike t
  newLeft : s.recentlyAdded = []
  newRight : t.recentlyAdded = []
  orphaned : ∀ p, (s.unit? p).isSome = true → s.removedDependents.contains p = t.removedDependents.contains p

theorem Interchangeable.refl (h : s.records.Distinct) (hnew : s.recentlyAdded = []) : s.Interchangeable s :=
  ⟨.refl h, hnew, hnew, fun _ _ => rfl⟩

theorem Interchangeable.trans (h : s.Interchangeable t) (h' : t.Interchangeable u) : s.Interchangeable u :=
  ⟨h.alike.trans h'.alike, h.newLeft, h'.newRight, fun p hp =>
    (h.orphaned p hp).trans (h'.orphaned p (by rw [← h.alike.unit?]; exact hp))⟩

theorem Interchangeable.symm (h : s.Interchangeable t) : t.Interchangeable s :=
  ⟨h.alike.symm, h.newRight, h.newLeft, fun p hp =>
    (h.orphaned p (by rw [h.alike.unit?]; exact hp)).symm⟩

end Store

theorem CycleResult.ext {r r' : CycleResult} (hdiagnostics : r.diagnostics = r'.diagnostics)
    (hlint : r.lintFailures = r'.lintFailures) (hchecked : r.checkedFiles = r'.checkedFiles)
    (hfull : r.fullCheck = r'.fullCheck) : r = r' := by
  cases r
  cases r'
  cases hdiagnostics
  cases hlint
  cases hchecked
  cases hfull
  rfl

namespace Session

variable {s : Session} {host : Host} {store store' : Store} {project : Project} {old : Option Program}

/-! ## The stages -/

theorem answer_alike (h : store.Alike store') : answer host store = answer host store' := by
  funext path
  unfold answer
  rw [h.unit?]

theorem parsed_alike (h : store.Alike store') (paths : List Path) :
    parsed host store paths = parsed host store' paths := by
  unfold parsed
  simp only [h.unit?]

theorem acquire_alike (h : store.Alike store') (path : Path) :
    (acquire host store path).Alike (acquire host store' path) := by
  unfold acquire
  rw [h.unit?]
  cases store'.unit? path with
  | some unit => exact h
  | none =>
    cases host.read? path with
    | none => exact h
    | some text => exact ⟨(h.put path _).left, (h.put path _).right, (h.put path _).item?⟩

theorem acquireAll_alike (h : store.Alike store') (paths : List Path) :
    (acquireAll host store paths).Alike (acquireAll host store' paths) := by
  induction paths generalizing store store' with
  | nil => exact h
  | cons path paths ih => exact ih (acquire_alike h path)

theorem discovered_alike (h : store.Alike store') :
    discovered project host store old = discovered project host store' old := by
  unfold discovered oracle
  rw [answer_alike h]

theorem build_alike (hhost : host.Finite) (h : store.Alike store') :
    (build project host store old).1 = (build project host store' old).1 ∧
      (build project host store old).2.Alike (build project host store' old).2 := by
  rw [build_eq hhost, build_eq hhost, discovered_alike h]
  refine ⟨?_, acquireAll_alike h _⟩
  unfold oracle
  rw [answer_alike h]

theorem noteDependencies_alike (h : store.Alike store') (program : Program) :
    (noteDependencies program store).Alike (noteDependencies program store') := by
  unfold noteDependencies
  induction program.units generalizing store store' with
  | nil => exact h
  | cons unit units ih => exact ih (h.update unit.path _)

theorem lintRoots_alike (h : store.Alike store') (config : LintConfig) (program : Program) :
    (lintRoots config program store).1 = (lintRoots config program store').1 ∧
      (lintRoots config program store).2.Alike (lintRoots config program store').2 := by
  have hcandidates : lintCandidates program store = lintCandidates program store' := by
    unfold lintCandidates Store.isLinted
    simp only [h.holds]
  unfold lintRoots
  simp only [hcandidates, true_and]
  clear hcandidates
  generalize List.map _ _ = clean
  induction clean generalizing store store' with
  | nil => exact h
  | cons path clean ih => exact ih (h.update path _)

/-! ## A cycle -/

section Cycle

theorem nextProgram_alike (hhost : host.Finite) (h : s.store.Alike store') :
    s.nextProgram host = nextProgram { s with store := store' } host :=
  (build_alike hhost h).1

theorem noted_alike (hhost : host.Finite) (h : s.store.Alike store') :
    (s.noted host).Alike (noted { s with store := store' } host) := by
  unfold noted
  rw [nextProgram_alike hhost h]
  exact noteDependencies_alike (build_alike hhost h).2 _

theorem linted_alike (hhost : host.Finite) (h : s.store.Alike store') :
    (s.linted host).Alike (linted { s with store := store' } host) := by
  unfold linted
  cases s.lint? with
  | none => exact noted_alike hhost h
  | some config =>
    rw [nextProgram_alike hhost h]
    exact (lintRoots_alike (noted_alike hhost h) config _).2

theorem lintFailures_run : (s.run host).1.lintFailures = match s.lint? with
    | some config => (lintRoots config (s.nextProgram host) (s.noted host)).1
    | none => [] := by
  unfold run
  cases s.lint? <;> rfl

/-- A path has a record once the program is built if it had one before, or was parsed. -/
theorem contains_acquireAll (paths : List Path) (p : Path)
    (h : (acquireAll host store paths).contains p = true) :
    store.contains p = true ∨ (acquireAll host store paths).recentlyAdded.contains p = true := by
  revert h
  refine acquireAll_induction
    (motive := fun st => st.contains p = true → store.contains p = true ∨ st.recentlyAdded.contains p = true)
    Or.inl fun st path _ text _ ih h => ?_
  have hadded : (st.recordParsed path (SourceUnit.ofText path text)).recentlyAdded =
      addNew st.recentlyAdded path := rfl
  have hrecords : (st.recordParsed path (SourceUnit.ofText path text)).contains p =
      (path == p || st.contains p) := Store.contains_put st path p _
  rw [hrecords, Bool.or_eq_true] at h
  rw [hadded, contains_addNew, Bool.or_eq_true]
  rcases h with h | h
  · exact Or.inr (Or.inr (BEq.symm h))
  · exact (ih h).imp_right Or.inl

theorem contains_noteDependencies (program : Program) (p : Path) :
    (noteDependencies program store).contains p = store.contains p :=
  noteDependencies_induction (motive := fun st => st.contains p = store.contains p) rfl
    fun st unit _ ih => (st.contains_update unit.path p _).trans ih

/-- A path without a unit is a seed of the next cycle if the cycle leaves a record for it. -/
theorem contains_seed_of_unread (hhost : host.Finite) {p : Path}
    (hu : s.store.unit? p = none) (hp : (s.noted host).contains p = true) :
    (s.seed host).contains p = true := by
  have hbuilt : (s.built host).contains p = true := (contains_noteDependencies _ p).symm.trans hp
  rw [contains_seed_eq hhost]
  unfold built at hbuilt ⊢
  rw [build_eq hhost] at hbuilt ⊢
  rcases contains_acquireAll _ p hbuilt with hknown | hnew
  · obtain ⟨r, hr⟩ := Option.isSome_iff_exists.mp hknown
    obtain ⟨key, hm, hk⟩ := Dict.exists_mem_of_get? hr
    have hr : s.store.record? p = some r := hr
    have hunit : r.unit? = none := by
      unfold Store.unit? at hu
      rwa [hr] at hu
    have hreload : s.store.needingReload.contains p = true := by
      unfold Store.needingReload
      rw [Path.contains_sortDistinct, List.contains_iff_exists_mem_beq]
      refine ⟨key, List.mem_map.mpr ⟨(key, r), List.mem_filter.mpr ⟨hm, ?_⟩, rfl⟩, BEq.symm hk⟩
      exact Option.isNone_iff_eq_none.mpr hunit
    simp only [hreload, Bool.true_or]
  · simp only [hnew, Bool.or_true, Bool.true_or]

variable (hhost : host.Finite) (hread : host.Readable) (hs : s.Sound) (h : s.store.Interchangeable store')

include hhost h

/-- The seeds of interchangeable stores differ only in paths for which the cycle leaves no record. -/
theorem contains_seed_interchangeable {p : Path} (hp : (s.noted host).contains p = true) :
    (s.seed host).contains p = (seed { s with store := store' } host).contains p := by
  cases hu : s.store.unit? p with
  | none =>
    rw [contains_seed_of_unread hhost hu hp]
    refine (contains_seed_of_unread (s := { s with store := store' }) hhost ?_ ?_).symm
    · exact (h.alike.unit? p).symm.trans hu
    · exact ((noted_alike hhost h.alike).contains p).symm.trans hp
  | some unit =>
    have hadded : (s.built host).recentlyAdded.contains p =
        (built { s with store := store' } host).recentlyAdded.contains p := by
      unfold built
      rw [contains_recentlyAdded_build hhost h.newLeft, contains_recentlyAdded_build hhost h.newRight,
        discovered_alike h.alike, parsed_alike h.alike]
    rw [contains_seed_eq hhost, contains_seed_eq hhost, hadded, h.alike.needingReload,
      h.orphaned p (by rw [hu]; rfl)]

theorem needsFullCheck_interchangeable : needsFullCheck (s.noted host) (s.seed host) =
    needsFullCheck (noted { s with store := store' } host) (seed { s with store := store' } host) := by
  -- A flagged path has a record, so it is a seed of both or of none.
  have hhalf : ∀ {s : Session} {store' : Store}, s.store.Interchangeable store' →
      needsFullCheck (s.noted host) (s.seed host) = true →
      needsFullCheck (noted { s with store := store' } host) (seed { s with store := store' } host) = true := by
    intro s store' h hfull
    obtain ⟨p, hp, hflag⟩ := List.any_eq_true.mp hfull
    have hknown : (s.noted host).contains p = true := by
      cases hr : (s.noted host).record? p with
      | none =>
        unfold Store.hasGlobalImpact Store.holds at hflag
        rw [hr] at hflag
        exact nomatch hflag
      | some r => exact Option.isSome_iff_exists.mpr ⟨r, hr⟩
    have hseed := contains_seed_interchangeable hhost h hknown
    rw [List.contains_iff_exists_mem_beq.mpr ⟨p, hp, BEq.rfl⟩] at hseed
    obtain ⟨q, hq, hpq⟩ := List.contains_iff_exists_mem_beq.mp hseed.symm
    refine List.any_eq_true.mpr ⟨q, hq, ?_⟩
    rw [← Store.hasGlobalImpact_congr _ hpq]
    exact ((noted_alike hhost h.alike).holds p _).symm.trans hflag
  rw [Bool.eq_iff_iff]
  exact ⟨hhalf h, hhalf (s := { s with store := store' }) h.symm⟩

include hread hs

/-- **Interchangeable stores have the same files checked.** -/
theorem selected_interchangeable :
    s.selected host = selected { s with store := store' } host := by
  have hp := hs.closed hhost hread
  have hdistinct : (s.built host).records.Distinct := (hs.store.build hhost).distinct
  unfold selected selectUnits
  rw [← nextProgram_alike hhost h.alike, ← needsFullCheck_interchangeable hhost h]
  split
  · rfl
  · refine List.filter_congr fun unit hu => (noted_alike hhost h.alike).affected ?_
    have hfile : (s.nextProgram host).files.contains unit.path = true := hp.contains_iff.mpr ⟨unit, hu, BEq.rfl⟩
    have hreached : ∀ q, Leads (s.noted host).Refers unit.path q → (s.noted host).contains q = true := by
      intro q hl
      have hl := (leads_noteDependencies_iff hp hdistinct (fun _ => contains_built_of_contains hhost) hfile).mp hl
      exact (contains_noteDependencies _ q).trans
        (contains_built_of_contains hhost (hp.contains_of_leads hfile hl))
    have hmove : ∀ {xs ys : List Path},
        (∀ q, (s.noted host).contains q = true → xs.contains q = ys.contains q) →
        (∃ q ∈ xs, Leads (s.noted host).Refers unit.path q) →
          ∃ q ∈ ys, Leads (s.noted host).Refers unit.path q := by
      rintro xs ys hxy ⟨q, hq, hl⟩
      have hys := hxy q (hreached q hl)
      rw [List.contains_iff_exists_mem_beq.mpr ⟨q, hq, BEq.rfl⟩] at hys
      obtain ⟨q', hq', hqq⟩ := List.contains_iff_exists_mem_beq.mp hys.symm
      exact ⟨q', hq', hl.congr_right hqq⟩
    have hseeds : ∀ q, (s.noted host).contains q = true → _ := fun q =>
      contains_seed_interchangeable (p := q) hhost h
    exact ⟨hmove hseeds, hmove fun q hq => (hseeds q hq).symm⟩

/-- **Interchangeable stores give the same cycle**, and have the same files watched after it. -/
theorem run_interchangeable :
    (s.run host).1 = (run { s with store := store' } host).1 ∧
      ((s.run host).2.relatedFiles == (run { s with store := store' } host).2.relatedFiles) = true := by
  have hprogram := nextProgram_alike hhost h.alike
  have hselected := selected_interchangeable hhost hread hs h
  have hfindings : s.findings host = findings { s with store := store' } host := by
    unfold findings
    rw [hprogram, hselected]
  have hdiagnostics : (s.run host).1.diagnostics = (run { s with store := store' } host).1.diagnostics := by
    rw [diagnostics_run, diagnostics_run, hprogram, hfindings]
  have hlint : (s.run host).1.lintFailures = (run { s with store := store' } host).1.lintFailures := by
    rw [lintFailures_run, lintFailures_run, hprogram]
    cases s.lint? with
    | none => rfl
    | some config => exact (lintRoots_alike (noted_alike hhost h.alike) config _).1
  have hchecked : (s.run host).1.checkedFiles = (run { s with store := store' } host).1.checkedFiles := by
    rw [checkedFiles_run, checkedFiles_run, hselected]
  have hfull : (s.run host).1.fullCheck = (run { s with store := store' } host).1.fullCheck := by
    rw [fullCheck_run, fullCheck_run]
    exact needsFullCheck_interchangeable hhost h
  refine ⟨CycleResult.ext hdiagnostics hlint hchecked hfull, ?_⟩
  unfold relatedFiles
  rw [store_run, store_run]
  exact (linted_alike hhost h.alike).cleanup.related

end Cycle

end Session

end Recheck
