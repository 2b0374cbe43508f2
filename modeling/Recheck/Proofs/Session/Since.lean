import Recheck.Proofs.Session.Order

/-!
# What has been so since a cycle

The store keeps little of the past: a unit that a cycle read, or a mark that it set, is there for as long as no
notification hits the record (`Report.hits`). What a session may conclude from its store is therefore a statement
about one cycle of the history and the events after it (`World.Since`), and it is proved by induction over the
history, an event at a time (`since_append_singleton`).
-/

set_option autoImplicit false

namespace Recheck

namespace Report

variable {r : Report} {s : Store} {p : Path}

/-- Whether a report hits the record of a path: it names the path, or it drops the record. -/
def hits (r : Report) (s : Store) (p : Path) : Bool := r.path == p || r.drops s p

/-- A record that is not hit stays as it is. -/
theorem record?_apply_of_not_hits (hr : r.path.Canonical) (h : r.hits s p = false) :
    (r.apply s).record? p = s.record? p := by
  obtain ⟨hpath, hdrops⟩ := Bool.or_eq_false_iff.mp h
  rw [Store.record?, Store.record?, Dict.get?_eq_item?, Dict.get?_eq_item?, item?_apply hr, hdrops, mark, hpath]
  rfl

/-- Of a record that is hit, nothing is left but whether the file was built. -/
theorem record?_apply_of_hits (hr : r.path.Canonical) (h : r.hits s p = true) :
    ∀ left, (r.apply s).record? p = some left → ∃ built, left = .idle built := by
  intro left hleft
  rw [Store.record?, Dict.get?_eq_item?, item?_apply hr] at hleft
  split at hleft
  · simp at hleft
  · rename_i hkept
    have hpath : (r.path == p) = true := (Bool.or_eq_true_iff.mp h).resolve_right hkept
    rw [mark, hpath] at hleft
    cases hn : r.notice with
    | built =>
      simp only [hn, if_true, Option.map_some, Option.some.injEq] at hleft
      exact ⟨true, hleft.symm⟩
    | changed =>
      simp only [hn, if_true, Option.map_map, Option.map_eq_some_iff] at hleft
      obtain ⟨e, -, rfl⟩ := hleft
      exact ⟨e.2.built, rfl⟩
    | removed =>
      -- A removed path is dropped.
      rw [drops, hn, hpath, Bool.true_or] at hkept
      exact absurd rfl hkept

/-- Whether one of some reports, taken one after another, hits the record of a path. -/
def anyHits : List Report → Store → Path → Bool
  | [], _, _ => false
  | r :: reports, s, p => r.hits s p || anyHits reports (r.apply s) p

variable {reports : List Report}

theorem record?_applyAll_of_not_hits (hcanonical : ∀ r ∈ reports, r.path.Canonical)
    (h : anyHits reports s p = false) : (applyAll reports s).record? p = s.record? p := by
  induction reports generalizing s with
  | nil => rfl
  | cons r reports ih =>
    obtain ⟨hfirst, hrest⟩ := Bool.or_eq_false_iff.mp h
    have hr := hcanonical r List.mem_cons_self
    exact (ih (fun q hq => hcanonical q (List.mem_cons_of_mem _ hq)) hrest).trans
      (record?_apply_of_not_hits hr hfirst)

theorem record?_applyAll_of_hits (hcanonical : ∀ r ∈ reports, r.path.Canonical)
    (h : anyHits reports s p = true) :
    ∀ left, (applyAll reports s).record? p = some left → ∃ built, left = .idle built := by
  induction reports generalizing s with
  | nil => exact nomatch h
  | cons r reports ih =>
    have hr := hcanonical r List.mem_cons_self
    have htail : ∀ q ∈ reports, q.path.Canonical := fun q hq => hcanonical q (List.mem_cons_of_mem _ hq)
    cases hrest : anyHits reports (r.apply s) p with
    | true => exact ih htail hrest
    | false =>
      -- The first report is the last one that hits it.
      have hfirst : r.hits s p = true :=
        (Bool.or_eq_true_iff.mp h).resolve_right (Bool.eq_false_iff.mp hrest)
      intro left hleft
      rw [applyAll, List.foldl_cons] at hleft
      exact record?_apply_of_hits hr hfirst left ((record?_applyAll_of_not_hits htail hrest).symm.trans hleft)

/-- What is false of idle records holds after some reports where it held before and nothing was hit. -/
theorem holds_applyAll {f : FileRecord → Bool} (hidle : ∀ built, f (.idle built) = false)
    (hcanonical : ∀ r ∈ reports, r.path.Canonical) (s : Store) (p : Path) :
    (applyAll reports s).holds p f = (!anyHits reports s p && s.holds p f) := by
  unfold Store.holds
  cases h : anyHits reports s p with
  | false => rw [record?_applyAll_of_not_hits hcanonical h, Bool.not_false, Bool.true_and]
  | true =>
    rw [Bool.not_true, Bool.false_and]
    cases hleft : (applyAll reports s).record? p with
    | none => rfl
    | some left =>
      obtain ⟨built, rfl⟩ := record?_applyAll_of_hits hcanonical h left hleft
      exact hidle built

theorem unit?_applyAll (hcanonical : ∀ r ∈ reports, r.path.Canonical) (s : Store) (p : Path) :
    (applyAll reports s).unit? p = if anyHits reports s p then none else s.unit? p := by
  unfold Store.unit?
  cases h : anyHits reports s p with
  | false => rw [record?_applyAll_of_not_hits hcanonical h, if_neg Bool.false_ne_true]
  | true =>
    rw [if_pos rfl]
    cases hleft : (applyAll reports s).record? p with
    | none => rfl
    | some left =>
      obtain ⟨built, rfl⟩ := record?_applyAll_of_hits hcanonical h left hleft
      rfl

end Report

namespace Event

/-- Whether an event that comes to a world is a notification that hits the record of a path. -/
def hits (event : Event) (w : World) (p : Path) : Bool := Report.anyHits event.reports w.session.store p

theorem canonical_of_mem_reports {event : Event} : ∀ r ∈ event.reports, r.path.Canonical := by
  intro r hr
  obtain ⟨path, hpath⟩ := exists_path_of_mem_reports hr
  rw [hpath]
  exact path.canonical_normalize

theorem hits_cycle (w : World) (p : Path) : Event.cycle.hits w p = false := rfl

end Event

namespace World

variable {w : World} {event : Event} {events : List Event} {p : Path}

theorem after_append_singleton (w : World) (events : List Event) (event : Event) :
    w.after (events ++ [event]) = (w.after events).step event := List.foldl_concat ..

theorem unit?_step (h : event ≠ .cycle) (p : Path) : (w.step event).session.store.unit? p =
    if event.hits w p then none else w.session.store.unit? p := by
  rw [session_step w h]
  exact Report.unit?_applyAll Event.canonical_of_mem_reports ..

theorem isLinted_step (h : event ≠ .cycle) (p : Path) : (w.step event).session.store.isLinted p =
    (!event.hits w p && w.session.store.isLinted p) := by
  rw [session_step w h]
  exact Report.holds_applyAll (fun _ => rfl) Event.canonical_of_mem_reports ..

/-- A cycle leaves the units of its program, and what was there for other paths. -/
theorem unit?_cycle (h : w.Sound) (p : Path) : (w.step .cycle).session.store.unit? p =
    (w.program.unit? p).or (w.session.store.unit? p) := by
  have hhost := Files.finite_toHost w.files
  rw [session_cycle, h.session.unit?_run hhost]
  exact (Session.unit?_noteDependencies p).trans (Session.unit?_build hhost p)

theorem eq_of_unit?_program {unit held : SourceUnit} (hu : w.program.unit? p = some unit)
    (hheld : w.session.store.unit? p = some held) : unit = held :=
  Session.eq_of_unit?_build (Files.finite_toHost w.files) hu hheld

/-- Some cycle of a history began in a world with `P`, and each event after it came to a world with `Q`. -/
def Since (w : World) (events : List Event) (P : World → Prop) (Q : World → Event → Prop) : Prop :=
  ∃ before later, events = before ++ .cycle :: later ∧ P (w.after before) ∧
    ∀ mid event rest, later = mid ++ event :: rest → Q (w.after (before ++ .cycle :: mid)) event

variable {P : World → Prop} {Q : World → Event → Prop}

theorem not_since_nil : ¬ w.Since [] P Q := by
  rintro ⟨before, later, hsplit, -⟩
  exact absurd hsplit.symm (by simp)

/-- What one more event makes of it. -/
theorem since_append_singleton : w.Since (events ++ [event]) P Q ↔
    (event = .cycle ∧ P (w.after events)) ∨ (w.Since events P Q ∧ Q (w.after events) event) := by
  constructor
  · rintro ⟨before, later, hsplit, hP, hQ⟩
    rcases List.eq_nil_or_concat' later with rfl | ⟨later, last, rfl⟩
    · obtain ⟨rfl, hevent⟩ := List.append_inj' hsplit rfl
      exact Or.inl ⟨List.singleton_inj.mp hevent, hP⟩
    · rw [← List.cons_append, ← List.append_assoc] at hsplit
      obtain ⟨rfl, hlast⟩ := List.append_inj' hsplit rfl
      obtain rfl := List.singleton_inj.mp hlast
      refine Or.inr ⟨⟨before, later, rfl, hP, fun mid e rest hmid => hQ mid e (rest ++ [event]) ?_⟩,
        hQ later event [] rfl⟩
      rw [hmid, List.append_assoc, List.cons_append]
  · rintro (⟨rfl, hP⟩ | ⟨⟨before, later, rfl, hP, hQ⟩, hlast⟩)
    · exact ⟨events, [], rfl, hP, fun mid e rest hmid => absurd hmid.symm (by simp)⟩
    · refine ⟨before, later ++ [event], by simp, hP, fun mid e rest hmid => ?_⟩
      rcases List.eq_nil_or_concat' rest with rfl | ⟨rest, last, rfl⟩
      · obtain ⟨rfl, he⟩ := List.append_inj' hmid rfl
        exact List.singleton_inj.mp he ▸ hlast
      · rw [← List.cons_append, ← List.append_assoc] at hmid
        exact hQ mid e rest (List.append_inj' hmid rfl).1

/-- A unit that was part of a program is there for as long as nothing hits its record. -/
theorem unit?_of_since (h : w.Sound) {unit : SourceUnit}
    (hsince : w.Since events (fun v => v.program.unit? p = some unit) fun v event => event.hits v p = false) :
    (w.after events).session.store.unit? p = some unit := by
  induction events using List.reverseRecOn with
  | nil => exact absurd hsince not_since_nil
  | append_singleton events event ih =>
    have hs : (w.after events).Sound := h.after events
    rw [after_append_singleton]
    rcases since_append_singleton.mp hsince with ⟨rfl, hprogram⟩ | ⟨hsince, hmissed⟩
    · rw [unit?_cycle hs, hprogram]
      rfl
    · have hheld := ih hsince
      by_cases hcycle : event = .cycle
      · subst hcycle
        rw [unit?_cycle hs]
        cases hu : (w.after events).program.unit? p with
        | none => exact hheld
        | some unit => rw [eq_of_unit?_program hu hheld]; rfl
      · rw [unit?_step hcycle, hmissed]
        exact hheld

end World

end Recheck
