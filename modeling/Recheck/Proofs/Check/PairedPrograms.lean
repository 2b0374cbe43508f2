import Recheck.Proofs.Check.Depth
import Recheck.Proofs.Check.PairedRules
import Recheck.Proofs.Check.Territory
import Mathlib.Data.Nat.Nth
import Mathlib.Order.Interval.Set.Infinite

/-!
# A program and its core

Take out of a program the files that share nothing and that none of the others refer to. The others then bind what they bound
before: the scopes that they take are the same up to their numbers (`Pairing.ofSet`), and the files that are gone had bound
in their own scopes only. So the bindings of the program and of its core agree (`Taken.agree_ofProgram`), before any check and
with all scopes that are still to come.
-/

set_option autoImplicit false

/-!
## Two checks of a file

The checks of a file of the core in two programs go on in step: they ask what corresponds, remember the same types for
corresponding declarations, and find the same (`Pairing.findings_eq`). The programs may differ in size and so in the depth that
their checks are allowed, but that is enough in both, so the checks can be compared at a depth that is enough for either.
-/

namespace Recheck.Check

open Syntax

namespace Pairing

variable {core : Path → Prop} {w : Pairing core} {p p' : Program} {s s' : State}

/-- Memories of two checks that have come equally far. -/
structure Alongside (w : Pairing core) (s s' : State) : Prop where
  ready : ∀ n, w.Ready n s.known.bindings s'.known.bindings
  types : ∀ {d d'}, w.Declarations d d' → s.known.types.get? d = s'.known.types.get? d'
  resolving : List.Forall₂ w.Declarations s.known.resolving s'.known.resolving
  found : s.found = s'.found

/-- Two checks between questions. -/
structure Beside (w : Pairing core) (p p' : Program) (s s' : State) : Prop where
  left : s.Steady p
  right : s'.Steady p'
  alongside : w.Alongside s s'

/-! ## Declarations in step -/

theorem mem_iff_of_forall₂ {xs xs' : List Declaration} (h : List.Forall₂ w.Declarations xs xs') {d d' : Declaration}
    (hd : w.Declarations d d') : d ∈ xs ↔ d' ∈ xs' := by
  induction h with
  | nil => exact ⟨nofun, nofun⟩
  | cons hx _ ih => rw [List.mem_cons, List.mem_cons, hd.eq_iff hx, ih]

theorem erase_of_forall₂ {xs xs' : List Declaration} (h : List.Forall₂ w.Declarations xs xs') {d d' : Declaration}
    (hd : w.Declarations d d') : List.Forall₂ w.Declarations (xs.erase d) (xs'.erase d') := by
  induction h with
  | nil => exact .nil
  | @cons x x' xs xs' hx hxs ih =>
    by_cases heq : x = d
    · obtain rfl := heq
      obtain rfl := (hd.eq_iff hx).mp rfl
      rwa [List.erase_cons_head, List.erase_cons_head]
    · have hne : x' ≠ d' := fun heq' => heq ((hx.eq_iff hd).mpr heq')
      rw [List.erase_cons_tail (by simpa using heq), List.erase_cons_tail (by simpa using hne)]
      exact .cons hx ih

namespace Alongside

variable (h : w.Alongside s s')
include h

theorem find (hquiet : s.quiet = s'.quiet) (change : Findings → Findings) : w.Alongside (s.find change) (s'.find change) := by
  unfold State.find
  rw [← hquiet]
  split
  · exact { h with found := congrArg change h.found }
  · exact h

theorem openBody {body : Body} (hfile : core body.key.file) {parent parent' : ScopeId} (hparent : w.Scopes parent parent')
    {file : Path} (hcore : core file) : w.Alongside (s.openBody body parent file) (s'.openBody body parent' file) where
  ready n := by
    have hsize := Nat.le_max_right n (Bindings.bindInner body parent file s.known.bindings).main.scopes.size
    exact ((h.ready _).openBody hfile hparent hcore hsize).mono (Nat.le_max_left ..)
  types := h.types
  resolving := h.resolving
  found := h.found

theorem enter {d d' : Declaration} (hd : w.Declarations d d') : w.Alongside (s.enter d) (s'.enter d') where
  ready := h.ready
  types := h.types
  resolving := .cons hd h.resolving
  found := h.found

theorem leave {d d' : Declaration} (hd : w.Declarations d d') (type : Ty) (hexhausted : s.exhausted = s'.exhausted) :
    w.Alongside (s.leave d type) (s'.leave d' type) where
  ready := h.ready
  types {e e'} he := by
    unfold State.leave
    rw [← hexhausted]
    dsimp only
    split
    · exact h.types he
    · rw [Dict.get?_insert, Dict.get?_insert]
      by_cases heq : d = e
      · rw [if_pos (beq_iff_eq.mpr heq), if_pos (beq_iff_eq.mpr ((hd.eq_iff he).mp heq))]
      · rw [if_neg fun hd' => heq (beq_iff_eq.mp hd'), if_neg fun hd' => heq ((hd.eq_iff he).mpr (beq_iff_eq.mp hd'))]
        exact h.types he
  resolving := erase_of_forall₂ h.resolving hd
  found := h.found

end Alongside

namespace Beside

variable (h : w.Beside p p' s s')
include h

theorem known : w.Known s.known.bindings s'.known.bindings :=
  ⟨(h.alongside.ready 0).toAgree, h.left.valid, h.right.valid⟩

theorem quiet : s.quiet = s'.quiet := by
  rw [h.left.quiet, h.right.quiet, h.alongside.resolving.length_eq]

end Beside

/-! ## Questions in step -/

/-- Questions that correspond are answered alike to this depth. -/
def AnswersAlike (w : Pairing core) (p p' : Program) (file : Path) (n : Nat) : Prop :=
  ∀ {q q' : Question} {A : q.Answer → q'.Answer → Prop}, w.Asked q q' A → ∀ {h h' : Nat} {s s' : State}, 0 < h → 0 < h' →
    w.Beside p p' s s' → q.Proper h s.known.bindings → q'.Proper h' s'.known.bindings → s.room p + h ≤ n → s'.room p' + h' ≤ n →
    A ((answer file n q).run s).1 ((answer file n q').run s').1 ∧
      w.Alongside ((answer file n q).run s).2 ((answer file n q').run s').2

section

variable (hp : p.WellRead) (hp' : p'.WellRead) {file : Path} {n : Nat}
include hp hp'

/-- Parts of a check that are abreast have related results. -/
theorem run_alike (ha : w.AnswersAlike p p' file n) {α α' : Type} {R : α → α' → Prop} {c : CheckM α} {c' : CheckM α'}
    (hc : w.Abreast R c c') {Q : Bindings → α → Prop} {Q' : Bindings → α' → Prop} {h h' : Nat} (hpos : 0 < h) (hpos' : 0 < h')
    (hs : w.Beside p p' s s') (hasks : Asks h Q c s.known.bindings) (hasks' : Asks h' Q' c' s'.known.bindings)
    (hn : s.room p + h ≤ n) (hn' : s'.room p' + h' ≤ n) :
    R ((c.run (answer file n)).run s).1 ((c'.run (answer file n)).run s').1 ∧
      w.Beside p p' ((c.run (answer file n)).run s).2 ((c'.run (answer file n)).run s').2 := by
  induction hc generalizing s s' with
  | done hR => exact ⟨hR, hs⟩
  | @ask q q' A next next' hq _ ih =>
    obtain ⟨hanswer, halong⟩ := ha hq hpos hpos' hs hasks.1 hasks'.1 hn hn'
    have first := (answers hp file n q h s hpos hs.left hasks.1 hn).unwinds
    have first' := (answers hp' file n q' h' s' hpos' hs.right hasks'.1 hn').unwinds
    have hrest : w.Beside p p' ((answer file n q).run s).2 ((answer file n q').run s').2 :=
      ⟨first.steady, first'.steady, halong⟩
    have hroom : ((answer file n q).run s).2.room p + h ≤ n := by
      rwa [State.room_congr first.resolving]
    have hroom' : ((answer file n q').run s').2.room p' + h' ≤ n := by
      rwa [State.room_congr first'.resolving]
    exact ih _ _ hanswer hrest (hasks.2 _ _ first.later first.result) (hasks'.2 _ _ first'.later first'.result) hroom hroom'

theorem remember_alike (ha : w.AnswersAlike p p' file n) {d d' : Declaration} (hd : w.Declarations d d') (hs : w.Beside p p' s s')
    (hstated : Stated s.known.bindings d) (hstated' : Stated s'.known.bindings d') (hn : s.room p ≤ n) (hn' : s'.room p' ≤ n) :
    let r := (remember d ((declarationRule d).run (answer file n))).run s
    let r' := (remember d' ((declarationRule d').run (answer file n))).run s'
    r.1 = r'.1 ∧ w.Alongside r.2 r'.2 := by
  have htypes := hs.alongside.types hd
  rw [remember_run, remember_run, ← htypes]
  cases s.known.types.get? d with
  | some type => exact ⟨rfl, hs.alongside⟩
  | none =>
    have hmem := mem_iff_of_forall₂ hs.alongside.resolving hd
    by_cases hold : d ∈ s.known.resolving
    · have hold' := hmem.mp hold
      simp only [List.contains_iff_mem, hold, hold', if_true]
      exact ⟨trivial, hs.alongside⟩
    · have hold' : d' ∉ s'.known.resolving := fun h => hold (hmem.mpr h)
      simp only [List.contains_iff_mem, hold, hold', if_false]
      have hentered : w.Beside p p' (s.enter d) (s'.enter d') :=
        ⟨hs.left.enter hstated hold, hs.right.enter hstated' hold', hs.alongside.enter hd⟩
      obtain ⟨htype, hdone⟩ := run_alike hp hp' ha (level_declarationRule hd) (Nat.zero_lt_of_lt hp.cacheable_lt)
        (Nat.zero_lt_of_lt hp'.cacheable_lt) hentered (hs.left.fine_declarationRule hp hstated)
        (hs.right.fine_declarationRule hp' hstated') (by rwa [hs.left.room_enter hstated hold])
        (by rwa [hs.right.room_enter hstated' hold'])
      refine ⟨htype, ?_⟩
      rw [← htype]
      exact hdone.alongside.leave hd _ (hdone.left.exhausted.trans hdone.right.exhausted.symm)

/-- The rules for nodes at corresponding sites lead to the same. -/
theorem judge_alike (ha : w.AnswersAlike p p' file n) {j j' : Judgement} {A : j.Answer → j'.Answer → Prop}
    (hlevel : w.Abreast A (rule j) (rule j')) {h h' : Nat} (hs : w.Beside p p' s s')
    (hproper : (Question.judge j).Proper h s.known.bindings) (hproper' : (Question.judge j').Proper h' s'.known.bindings)
    (hn : s.room p + h ≤ n + 1) (hn' : s'.room p' + h' ≤ n + 1) :
    A ((answer file (n + 1) (.judge j)).run s).1 ((answer file (n + 1) (.judge j')).run s').1 ∧
      w.Alongside ((answer file (n + 1) (.judge j)).run s).2 ((answer file (n + 1) (.judge j')).run s').2 := by
  obtain ⟨hstands, hheight⟩ := hproper
  obtain ⟨hstands', hheight'⟩ := hproper'
  obtain ⟨hanswer, hdone⟩ := run_alike hp hp' ha hlevel j.item.node.height_pos j'.item.node.height_pos hs
    (fine_rule j hs.left.valid hstands) (fine_rule j' hs.right.valid hstands') (by omega) (by omega)
  exact ⟨hanswer, hdone.alongside⟩

/-- Whatever is asked of two checks in step, at any depth that leaves room, is answered alike. -/
theorem answersAlike (hfile : core file) : w.AnswersAlike p p' file n := by
  induction n with
  | zero =>
    intro q q' A _ h h' s s' hpos _ _ _ _ hn
    omega
  | succ n ih =>
    intro q q' A hq h h' s s' hpos hpos' hs hproper hproper' hn hn'
    cases hq with
    | expr e expected hsite => exact judge_alike hp hp' ih (level_exprRule hsite e expected) hs hproper hproper' hn hn'
    | type t hsite => exact judge_alike hp hp' ih (level_typeRule hsite t) hs hproper hproper' hn hn'
    | statement t result hsite =>
      obtain ⟨-, hdone⟩ := judge_alike hp hp' ih (level_statementRule hsite t result) hs hproper hproper' hn hn'
      exact ⟨trivial, hdone⟩
    | returns t hsite => exact judge_alike hp hp' ih (level_returnsRule hsite t) hs hproper hproper' hn hn'
    | declared hd => exact remember_alike hp hp' ih hd hs hproper hproper' (by omega) (by omega)
    | bindings => exact ⟨hs.known, hs.alongside⟩
    | isQuiet =>
      refine ⟨?_, hs.alongside⟩
      change decide (s.quiet ≠ 0) = decide (s'.quiet ≠ 0)
      rw [hs.quiet]
    | report fault span => exact ⟨trivial, hs.alongside.find hs.quiet (·.report fault span)⟩
    | use binding => exact ⟨trivial, hs.alongside.find hs.quiet (·.use file binding)⟩
    | openBody hbody hparent => exact ⟨trivial, hs.alongside.openBody hbody hparent hfile⟩

/-! ## Whole files -/

/-- In two programs the check of a file of the core finds the same. -/
theorem findings_eq {known known' : Knowledge} (hs : w.Beside p p' (.start known) (.start known')) {unit : SourceUnit}
    (hunit : unit ∈ p.units) (hunit' : unit ∈ p'.units) (hcore : core unit.path) :
    (TypeChecker.findings p known unit).1 = (TypeChecker.findings p' known' unit).1 := by
  obtain ⟨n, hn, hn'⟩ : ∃ n, depthBound p ≤ n ∧ depthBound p' ≤ n := ⟨_, Nat.le_max_left .., Nat.le_max_right ..⟩
  have hleft := (ends_checkUnit hp hs.left hunit).deeper n hn
  have hright := (ends_checkUnit hp' hs.right hunit').deeper n hn'
  have hboth := run_alike hp hp' (answersAlike hp hp' hcore) (level_checkUnit hcore) (Nat.zero_lt_of_lt hp.cacheable_lt)
    (Nat.zero_lt_of_lt hp'.cacheable_lt) hs (hs.left.fine_checkUnit hp hunit) (hs.right.fine_checkUnit hp' hunit')
    ((room_le hp).trans hn) ((room_le hp').trans hn')
  have hfound := hboth.2.alongside.found
  rw [hleft, hright] at hfound
  exact hfound

end

end Pairing

end Recheck.Check

namespace Recheck

/-- Whether a file can show in files that do not refer to it: it has global impact, or declares a module under a name that is
known everywhere. -/
def SourceUnit.affectsOthers (unit : SourceUnit) : Bool :=
  unit.hasGlobalImpact || (Syntax.nestedStatements unit.tree.statements).any (·.namesModule)

namespace SourceUnit

variable {unit : SourceUnit} (h : unit.affectsOthers = false)
include h

theorem isModule_of_not_affectsOthers : unit.isModule = true := by
  simp only [affectsOthers, hasGlobalImpact, Bool.or_eq_false_iff, Bool.not_eq_false'] at h
  exact h.1.2

theorem not_namesModule_of_not_affectsOthers : ∀ s ∈ Syntax.nestedStatements unit.tree.statements, s.namesModule = false := by
  rw [affectsOthers, Bool.or_eq_false_iff, List.any_eq_false] at h
  exact fun s hs => Bool.eq_false_iff.mpr (h.2 s hs)

end SourceUnit

namespace Check

/-! ## Pairs in order -/

namespace Pairing

variable {core : Path → Prop}

/-- The scopes of a set correspond, in order, to those of a program that has no others. -/
def ofSet (core : Path → Prop) (S : Nat → Prop) [DecidablePred S] (hlib : S 0) (hglobal : S 1) : Pairing core where
  main m m' := S m ∧ Nat.count S m = m'
  unique := by
    rintro m n m' n' ⟨hm, rfl⟩ ⟨hm', rfl⟩
    exact ⟨fun heq => heq ▸ rfl, Nat.count_injective hm hm'⟩
  lib := ⟨hlib, Nat.count_zero S⟩
  global := ⟨hglobal, by rw [Nat.count_succ, Nat.count_zero, if_pos hlib]⟩

section

variable {S : Nat → Prop} [DecidablePred S] {hlib : S 0} {hglobal : S 1} {b b' : Bindings} {n : Nat}

/-- Bindings that agree have as many scopes of the set as the smaller program has in all. -/
theorem Agree.main_size (h : (ofSet core S hlib hglobal).Agree b b') (hinf : (Set.ofPred S).Infinite) :
    b'.main.scopes.size = Nat.count S b.main.scopes.size := by
  have hiff {m : Nat} (hm : S m) : m < b.main.scopes.size ↔ Nat.count S m < b'.main.scopes.size := by
    obtain ⟨hx, hx'⟩ | ⟨_, _, hx, hx', -⟩ := none_or_some_of_rel (h.scope (.main ⟨hm, rfl⟩))
    · have hle : b.main.scopes.size ≤ m := Array.getElem?_eq_none_iff.mp hx
      have hle' : b'.main.scopes.size ≤ Nat.count S m := Array.getElem?_eq_none_iff.mp hx'
      omega
    · exact iff_of_true (Array.getElem?_eq_some_iff.mp hx).1 (Array.getElem?_eq_some_iff.mp hx').1
  refine Nat.le_antisymm ?_ ?_
  · have hnext := Nat.nth_mem_of_infinite hinf (Nat.count S b.main.scopes.size)
    have hge := Nat.le_nth_count hinf b.main.scopes.size
    have hnot := mt (hiff hnext).mpr (Nat.not_lt.mpr hge)
    rwa [Nat.count_nth_of_infinite hinf, Nat.not_lt] at hnot
  · have hlast := Nat.nth_mem_of_infinite hinf b'.main.scopes.size
    have hnot := mt (hiff hlast).mp (by rw [Nat.count_nth_of_infinite hinf]; exact Nat.lt_irrefl _)
    have hle := Nat.count_monotone S (Nat.not_lt.mp hnot)
    rwa [Nat.count_nth_of_infinite hinf] at hle

/-- The scopes that come next correspond, as long as they are in the set. -/
theorem Agree.ready (h : (ofSet core S hlib hglobal).Agree b b') (hinf : (Set.ofPred S).Infinite)
    (hnext : ∀ m, b.main.scopes.size ≤ m → m < n → S m) : (ofSet core S hlib hglobal).Ready n b b' := by
  refine ⟨h, fun j hj => ⟨hnext _ (Nat.le_add_right ..) hj, ?_⟩⟩
  rw [h.main_size hinf, Nat.count_add, Nat.add_left_cancel_iff, Nat.count_iff_forall]
  exact fun i hi => hnext _ (Nat.le_add_right ..) (by omega)

end

/-! ## Steps of other files -/

variable {w : Pairing core} {t u : Territory} {b b' c : Bindings}

/-- A step in a territory of other files shows nothing to the core. -/
theorem Agree.of_within (h : w.Agree b b') (hstep : t.Within b c) (hscope : ∀ {m m'}, w.main m m' → ¬t.scope m)
    (hfile : ∀ path, core path → ¬t.file path) : w.Agree c b' := by
  have hrest : c = { b with main := c.main, bodies := c.bodies } := by
    rw [hstep.rest, hstep.ambient (hscope w.global)]
  have hbodies : c.bodies = b.bodies := by
    rw [hstep.rest]
  have hinner {body : Body} {parent : ScopeId} {i : Nat} : c.tableOf (.inner body parent i) = b.tableOf (.inner body parent i) :=
    congrArg (fun bodies : Dict ScopeId Table => (bodies.get? (.inner body parent 0)).getD Table.empty) hbodies
  refine h.of_tables hrest rfl (fun {x x'} hx => ?_) fun {x x'} hx => ?_
  · rw [← h.table hx]
    cases x with
    | main => exact Iff.rfl
    | inner =>
      unfold Bindings.HasTable
      dsimp only
      rw [hbodies]
  · have htables := h.tables hx
    cases x with
    | inner =>
      rw [hinner]
      exact htables
    | main m =>
      refine ⟨fun {i i'} hi => ?_, fun key hkey => ?_, fun key hkey => ?_⟩
      · have hmain : ¬t.scope i := by
          generalize hx' : x'.beside i' = y at hi
          cases hi with
          | main hm => exact hscope hm
        change Option.Rel w.Contents c.main.scopes[i]? _
        rw [hstep.scopes i hmain]
        exact htables.scope hi
      · change Option.Rel w.Scopes (c.main.moduleScopes.get? key) _
        rw [hstep.modules key (hfile _ hkey)]
        exact htables.module key hkey
      · exact (hstep.redeclared key (hfile _ hkey)).trans (htables.redeclared key hkey)

end Pairing

namespace Territory

variable {t u : Territory} {b c : Bindings} {n : Nat}

/-- A step in one territory changes nothing in another. -/
theorem Within.closed_of_disjoint (h : t.Within b c) (hb : u.Closed b) (hu : ∀ m, u.scope m → ¬t.scope m) : u.Closed c := by
  intro id name symbol hid hsymbol
  obtain ⟨m, rfl, hm⟩ := exists_of_has hid
  refine hb (.main m) name symbol hm ?_
  change c.main.scopes[m]?.bind _ = _ at hsymbol
  rwa [h.scopes m (hu m hm)] at hsymbol

/-- At the start there are only names that need no declaration. -/
theorem closed_start (t : Territory) (p : Program) : t.Closed (Bindings.start p) := by
  intro id name symbol hid hsymbol
  obtain ⟨m, rfl, -⟩ := exists_of_has hid
  match m, hsymbol with
  | 0, hsymbol =>
    obtain ⟨builtin, rfl⟩ := exists_builtin_value hsymbol
    exact owns_of_plain nofun rfl
  | 1, hsymbol => exact nomatch hsymbol
  | m + 2, hsymbol => exact nomatch hsymbol

end Territory

/-! ## File after file -/

/-- The scopes that files outside the core take, when some files are gone through one after the other. -/
inductive Taken (core : Path → Prop) (step : Bindings → SourceUnit → Bindings) : Bindings → List SourceUnit → Nat → Prop
  | here {b : Bindings} {unit : SourceUnit} {units : List SourceUnit} {m : Nat} (hother : ¬core unit.path)
    (hle : b.main.scopes.size ≤ m) (hlt : m < (step b unit).main.scopes.size) : Taken core step b (unit :: units) m
  | there {b : Bindings} {unit : SourceUnit} {units : List SourceUnit} {m : Nat} (h : Taken core step (step b unit) units m) :
    Taken core step b (unit :: units) m

namespace Taken

variable {core : Path → Prop} {step : Bindings → SourceUnit → Bindings} {b : Bindings} {units : List SourceUnit} {m : Nat}

section

variable (hmono : ∀ b unit, b.main.scopes.size ≤ (step b unit).main.scopes.size)
include hmono

theorem size_foldl_le (b : Bindings) (units : List SourceUnit) : b.main.scopes.size ≤ (units.foldl step b).main.scopes.size := by
  induction units generalizing b with
  | nil => exact Nat.le_refl _
  | cons unit units ih => exact (hmono b unit).trans (ih _)

theorem bounds (h : Taken core step b units m) : b.main.scopes.size ≤ m ∧ m < (units.foldl step b).main.scopes.size := by
  induction h with
  | here _ hle hlt => exact ⟨hle, hlt.trans_le (size_foldl_le hmono _ _)⟩
  | there _ ih => exact ⟨(hmono _ _).trans ih.1, ih.2⟩

/-- What the steps for the core keep in both programs, and those for other files in the larger one, holds in the end. -/
theorem run [DecidablePred core] {S : Nat → Prop} {I : List SourceUnit → Bindings → Bindings → Prop} {P : SourceUnit → Prop}
    (hcore : ∀ {done b b' unit}, core unit.path → P unit → (∀ m, b.main.scopes.size ≤ m → m < (step b unit).main.scopes.size → S m) →
      I done b b' → I (done ++ [unit]) (step b unit) (step b' unit))
    (hother : ∀ {done b b' unit}, ¬core unit.path → P unit →
      (∀ m, b.main.scopes.size ≤ m → m < (step b unit).main.scopes.size → ¬S m) →
      I done b b' → I (done ++ [unit]) (step b unit) b')
    (units done : List SourceUnit) {b b' : Bindings} (hunits : ∀ unit ∈ units, P unit)
    (hS : ∀ m, b.main.scopes.size ≤ m → m < (units.foldl step b).main.scopes.size → (S m ↔ ¬Taken core step b units m))
    (h : I done b b') :
    I (done ++ units) (units.foldl step b) ((units.filter fun unit => core unit.path).foldl step b') := by
  induction units generalizing done b b' with
  | nil => rwa [List.append_nil]
  | cons unit units ih =>
    have hend := size_foldl_le hmono (step b unit) units
    have hrest : ∀ m, (step b unit).main.scopes.size ≤ m → m < (units.foldl step (step b unit)).main.scopes.size →
        (S m ↔ ¬Taken core step (step b unit) units m) := by
      intro m hle hlt
      rw [hS m ((hmono b unit).trans hle) hlt, not_iff_not]
      refine ⟨fun htaken => ?_, .there⟩
      cases htaken with
      | here _ _ hlt' => exact absurd hle (Nat.not_le.mpr hlt')
      | there h => exact h
    have hnow : ∀ m, b.main.scopes.size ≤ m → m < (step b unit).main.scopes.size → (S m ↔ core unit.path) := by
      intro m hle hlt
      rw [hS m hle (hlt.trans_le hend)]
      refine ⟨fun htaken => ?_, fun hunit htaken => ?_⟩
      · by_contra hunit
        exact htaken (.here hunit hle hlt)
      · cases htaken with
        | here hother => exact hother hunit
        | there h => exact absurd (bounds hmono h).1 (Nat.not_le.mpr hlt)
    have hothers : ∀ unit' ∈ units, P unit' := fun unit' hmem => hunits unit' (List.mem_cons_of_mem _ hmem)
    have hfirst := hunits unit List.mem_cons_self
    rw [← List.singleton_append, ← List.append_assoc]
    by_cases hunit : core unit.path
    · rw [List.singleton_append, List.filter_cons_of_pos (by simpa using hunit)]
      exact ih _ hothers hrest (hcore hunit hfirst (fun m hle hlt => (hnow m hle hlt).mpr hunit) h)
    · rw [List.singleton_append, List.filter_cons_of_neg (by simpa using hunit)]
      exact ih _ hothers hrest (hother hunit hfirst (fun m hle hlt hm => hunit ((hnow m hle hlt).mp hm)) h)

end

end Taken

/-! ## The files of a program -/

theorem main_le_openFile (b : Bindings) (unit : SourceUnit) :
    b.main.scopes.size ≤ (Bindings.openFile b unit).main.scopes.size := by
  unfold Bindings.openFile
  split
  · exact Nat.le_trans (Nat.le_succ _) (Nat.le_of_eq (Bindings.main_newScope 1).symm)
  · exact Nat.le_refl _

theorem main_le_bindFile (b : Bindings) (unit : SourceUnit) :
    b.main.scopes.size ≤ (Bindings.bindFile b unit).main.scopes.size :=
  (Fills.any_bindBody _ _ b).main_le

/-- The scopes that the files of a program share, apart from those of files outside the core. -/
def coreScopes (core : Path → Prop) (p : Program) (m : Nat) : Prop :=
  ¬Taken core Bindings.openFile (Bindings.start p) p.units m ∧
    ¬Taken core Bindings.bindFile (p.units.foldl Bindings.openFile (Bindings.start p)) p.units m

namespace coreScopes

variable {core : Path → Prop} {p : Program} {m : Nat}

theorem of_lt (h : m < 2) : coreScopes core p m := by
  have hstart : (Bindings.start p).main.scopes.size = 2 := rfl
  have hopened := Taken.size_foldl_le main_le_openFile (Bindings.start p) p.units
  refine ⟨fun htaken => ?_, fun htaken => ?_⟩
  · have hbounds := htaken.bounds main_le_openFile
    omega
  · have hbounds := htaken.bounds main_le_bindFile
    omega

theorem of_le (h : (Bindings.ofProgram p).main.scopes.size ≤ m) : coreScopes core p m := by
  have hbound := Taken.size_foldl_le main_le_bindFile (p.units.foldl Bindings.openFile (Bindings.start p)) p.units
  refine ⟨fun htaken => ?_, fun htaken => ?_⟩
  · exact absurd (hbound.trans h) (Nat.not_le.mpr (htaken.bounds main_le_openFile).2)
  · exact absurd h (Nat.not_le.mpr (htaken.bounds main_le_bindFile).2)

theorem infinite : (Set.ofPred (coreScopes core p)).Infinite := by
  refine Set.infinite_of_forall_exists_gt fun n => ?_
  refine ⟨max (n + 1) (Bindings.ofProgram p).main.scopes.size, of_le (Nat.le_max_right ..), ?_⟩
  exact Nat.lt_of_lt_of_le (Nat.lt_succ_self n) (Nat.le_max_left ..)

end coreScopes

theorem openFile_of_module {b : Bindings} {unit : SourceUnit} (h : unit.isModule = true) :
    Bindings.openFile b unit = { (b.newScope globalScope).2 with
      fileScopes := b.fileScopes.insert unit.path (.main b.main.scopes.size)
      modules := b.modules.insert unit.path (.main b.main.scopes.size) } :=
  if_pos h

theorem openFile_of_script {b : Bindings} {unit : SourceUnit} (h : ¬unit.isModule = true) :
    Bindings.openFile b unit = { b with fileScopes := b.fileScopes.insert unit.path globalScope } :=
  if_neg h

/-! ## The core and the others -/

/-- The scopes of a set, with the files of the core. -/
def Territory.ofCore (core : Path → Prop) (S : Nat → Prop) : Territory := ⟨S, core⟩

/-- The other scopes, with the other files. -/
def Territory.ofOthers (core : Path → Prop) (S : Nat → Prop) : Territory := ⟨fun m => ¬S m, fun path => ¬core path⟩

/-- Bindings of a program that agree with those of its core, and in which the core and the others are apart. -/
structure Parted (core : Path → Prop) (S : Nat → Prop) (w : Pairing core) (b b' : Bindings) : Prop where
  agree : w.Agree b b'
  inside : (Territory.ofCore core S).Closed b
  outside : (Territory.ofOthers core S).Closed b

/-- Files are lodged with the scopes of the set if they belong to the core, and with others if they do not. -/
structure Housed (core : Path → Prop) (S : Nat → Prop) (units : List SourceUnit) (b : Bindings) : Prop where
  all : ∀ unit ∈ units, (b.fileScopes.get? unit.path).isSome
  files : ∀ path id, b.fileScopes.get? path = some id → ∃ m, id = .main m ∧ (S m ↔ core path)
  modules : ∀ path id, b.modules.get? path = some id → ∃ m, id = .main m ∧ (S m ↔ core path)

section

variable {core : Path → Prop} {S : Nat → Prop} {b : Bindings} {unit : SourceUnit} {units : List SourceUnit}

theorem Housed.openFile (hcongr : ∀ {path other : Path}, (path == other) = true → (core path ↔ core other))
    (h : Housed core S units b) (hmodule : unit.isModule = true → (S b.main.scopes.size ↔ core unit.path))
    (hscript : ¬unit.isModule = true → (S 1 ↔ core unit.path)) :
    Housed core S (units ++ [unit]) (Bindings.openFile b unit) := by
  have hall {d : Dict Path ScopeId} {new : ScopeId} (hd : ∀ u ∈ units, (d.get? u.path).isSome) (u : SourceUnit)
      (hmem : u ∈ units ++ [unit]) : ((d.insert unit.path new).get? u.path).isSome := by
    rcases List.mem_append.mp hmem with hold | hlast
    · rw [Dict.get?_insert]
      split
      · rfl
      · exact hd u hold
    · obtain rfl := List.mem_singleton.mp hlast
      rw [Dict.get?_insert, if_pos BEq.rfl]
      rfl
  have hlodged {d : Dict Path ScopeId} {new : Nat} (hnew : S new ↔ core unit.path)
      (hd : ∀ path id, d.get? path = some id → ∃ m, id = .main m ∧ (S m ↔ core path)) (path : Path) (id : ScopeId)
      (hid : (d.insert unit.path (.main new)).get? path = some id) : ∃ m, id = .main m ∧ (S m ↔ core path) := by
    rw [Dict.get?_insert] at hid
    split at hid
    · rename_i heq
      exact ⟨new, (Option.some.inj hid).symm, hnew.trans (hcongr heq)⟩
    · exact hd path id hid
  by_cases hkind : unit.isModule = true
  · rw [openFile_of_module hkind]
    exact ⟨hall h.all, hlodged (hmodule hkind) h.files, hlodged (hmodule hkind) h.modules⟩
  · rw [openFile_of_script hkind]
    exact ⟨hall h.all, hlodged (hscript hkind) h.files, h.modules⟩

theorem Housed.of_within {t : Territory} {c : Bindings} (h : Housed core S units b) (hstep : t.Within b c) :
    Housed core S units c := by
  rw [hstep.rest]
  exact ⟨h.all, h.files, h.modules⟩

/-- The statements of a file are bound where its scope is. -/
theorem Housed.holds {t : Territory} (h : Housed core S units b) (hunit : unit ∈ units)
    (hscope : ∀ m, (S m ↔ core unit.path) → t.scope m) (hfile : t.file unit.path) : t.Holds (b.filePlace unit) := by
  refine ⟨?_, fun c hc => ?_, hfile⟩
  · obtain ⟨id, hid⟩ := Option.isSome_iff_exists.mp (h.all unit hunit)
    obtain ⟨m, rfl, hm⟩ := h.files _ _ hid
    change t.Has ((b.fileScopes.get? unit.path).getD globalScope)
    rw [hid]
    exact hscope m hm
  · obtain ⟨m, rfl, hm⟩ := h.modules _ _ hc
    exact hscope m hm

end

section

variable {core : Path → Prop} {S : Nat → Prop} [DecidablePred S] {hlib : S 0} {hglobal : S 1} {b b' : Bindings}
  {unit : SourceUnit} {units : List SourceUnit}

/-! ### Scopes for the files -/

theorem Parted.openCore (h : Parted core S (.ofSet core S hlib hglobal) b b') (hinf : (Set.ofPred S).Infinite)
    (hS : ∀ m, b.main.scopes.size ≤ m → m < (Bindings.openFile b unit).main.scopes.size → S m) :
    Parted core S (.ofSet core S hlib hglobal) (Bindings.openFile b unit) (Bindings.openFile b' unit) := by
  have hagree := ((h.agree.ready hinf hS).openFile unit (Nat.le_refl _)).toAgree
  have hsides : (Territory.ofCore core S).Closed (Bindings.openFile b unit) ∧
      (Territory.ofOthers core S).Closed (Bindings.openFile b unit) := by
    by_cases hkind : unit.isModule = true
    · rw [openFile_of_module hkind] at hS ⊢
      obtain ⟨hstep, -⟩ := h.inside.newScope_main 1 hS (Nat.le_refl _)
      exact ⟨hstep.closed.of_scopes rfl, (hstep.closed_of_disjoint h.outside fun _ hm => hm).of_scopes rfl⟩
    · rw [openFile_of_script hkind]
      exact ⟨h.inside.of_scopes rfl, h.outside.of_scopes rfl⟩
  exact ⟨hagree, hsides.1, hsides.2⟩

theorem Parted.openOther (h : Parted core S (.ofSet core S hlib hglobal) b b')
    (hcongr : ∀ {path other : Path}, (path == other) = true → (core path ↔ core other)) (hunit : ¬core unit.path)
    (hkind : unit.isModule = true)
    (hS : ∀ m, b.main.scopes.size ≤ m → m < (Bindings.openFile b unit).main.scopes.size → ¬S m) :
    Parted core S (.ofSet core S hlib hglobal) (Bindings.openFile b unit) b' := by
  rw [openFile_of_module hkind] at hS ⊢
  obtain ⟨hstep, -⟩ := h.outside.newScope_main 1 hS (Nat.le_refl _)
  have hagree := h.agree.of_within hstep (fun hm hno => hno hm.1) fun _ hcore hno => hno hcore
  have hkept {d d' : Dict Path ScopeId} {new : ScopeId}
      (hd : ∀ path, core path → Option.Rel (Pairing.ofSet core S hlib hglobal).Scopes (d.get? path) (d'.get? path)) (path : Path)
      (hcore : core path) : Option.Rel (Pairing.ofSet core S hlib hglobal).Scopes ((d.insert unit.path new).get? path) (d'.get? path) := by
    have hne : ¬(unit.path == path) = true := fun heq => hunit ((hcongr heq).mpr hcore)
    rw [Dict.get?_insert, if_neg hne]
    exact hd path hcore
  exact ⟨{ hagree with fileScopes := hkept hagree.fileScopes, modules := hkept hagree.modules },
    (hstep.closed_of_disjoint h.inside fun _ hm hno => hno hm).of_scopes rfl, hstep.closed.of_scopes rfl⟩

/-! ### The statements of the files -/

theorem Parted.bindCore (h : Parted core S (.ofSet core S hlib hglobal) b b') (hinf : (Set.ofPred S).Infinite)
    (hhoused : Housed core S units b) (hmem : unit ∈ units) (hunit : core unit.path)
    (hS : ∀ m, b.main.scopes.size ≤ m → m < (Bindings.bindFile b unit).main.scopes.size → S m) :
    Parted core S (.ofSet core S hlib hglobal) (Bindings.bindFile b unit) (Bindings.bindFile b' unit) ∧
      Housed core S units (Bindings.bindFile b unit) := by
  have hplace : (Territory.ofCore core S).Holds (b.filePlace unit) := hhoused.holds hmem (fun m hm => hm.mpr hunit) hunit
  have hstep : (Territory.ofCore core S).Within b (Bindings.bindFile b unit) :=
    h.inside.bindBody hplace hS (.inl hglobal) (Nat.le_refl _)
  have hagree := ((h.agree.ready hinf hS).bindFile hunit (Nat.le_refl _)).toAgree
  exact ⟨⟨hagree, hstep.closed, hstep.closed_of_disjoint h.outside fun _ hm => hm⟩, hhoused.of_within hstep⟩

theorem Parted.bindOther (h : Parted core S (.ofSet core S hlib hglobal) b b') (hhoused : Housed core S units b)
    (hmem : unit ∈ units) (hunit : ¬core unit.path) (hquiet : unit.affectsOthers = false)
    (hS : ∀ m, b.main.scopes.size ≤ m → m < (Bindings.bindFile b unit).main.scopes.size → ¬S m) :
    Parted core S (.ofSet core S hlib hglobal) (Bindings.bindFile b unit) b' ∧ Housed core S units (Bindings.bindFile b unit) := by
  have hplace : (Territory.ofOthers core S).Holds (b.filePlace unit) :=
    hhoused.holds hmem (fun m hm hno => hunit (hm.mp hno)) hunit
  have hstep : (Territory.ofOthers core S).Within b (Bindings.bindFile b unit) :=
    h.outside.bindBody hplace hS (.inr (SourceUnit.not_namesModule_of_not_affectsOthers hquiet)) (Nat.le_refl _)
  have hagree := h.agree.of_within hstep (fun hm hno => hno hm.1) fun _ hcore hno => hno hcore
  exact ⟨⟨hagree, hstep.closed_of_disjoint h.inside fun _ hm hno => hno hm, hstep.closed⟩, hhoused.of_within hstep⟩

end

/-! ## The bindings of a program and of its core -/

section

variable {core : Path → Prop} [DecidablePred core] {p q : Program}

/-- A program whose files are the core of another one: the files of the other that are not share nothing. -/
structure HasCore (core : Path → Prop) [DecidablePred core] (p q : Program) : Prop where
  share : p.ShareCore core q
  congr : ∀ {path other : Path}, (path == other) = true → (core path ↔ core other)
  units : q.units = p.units.filter fun unit => core unit.path
  quiet : ∀ unit ∈ p.units, ¬core unit.path → unit.affectsOthers = false

/-- Scopes of the core correspond to those of the program that has no others. -/
abbrev Pairing.ofCore (core : Path → Prop) (p : Program) [DecidablePred (coreScopes core p)] : Pairing core :=
  .ofSet core (coreScopes core p) (coreScopes.of_lt Nat.zero_lt_two) (coreScopes.of_lt Nat.one_lt_two)

namespace HasCore

variable [DecidablePred (coreScopes core p)] (h : HasCore core p q)
include h

theorem opened :
    Parted core (coreScopes core p) (.ofCore core p) (p.units.foldl Bindings.openFile (Bindings.start p))
        (q.units.foldl Bindings.openFile (Bindings.start q)) ∧
      Housed core (coreScopes core p) p.units (p.units.foldl Bindings.openFile (Bindings.start p)) := by
  have hsize (b : Bindings) (unit : SourceUnit) (hkind : unit.isModule = true) :
      b.main.scopes.size < (Bindings.openFile b unit).main.scopes.size := by
    rw [openFile_of_module hkind]
    exact Nat.lt_of_lt_of_eq (Nat.lt_succ_self _) (Bindings.main_newScope 1).symm
  have hrange (m : Nat) (_ : (Bindings.start p).main.scopes.size ≤ m)
      (hlt : m < (p.units.foldl Bindings.openFile (Bindings.start p)).main.scopes.size) :
      coreScopes core p m ↔ ¬Taken core Bindings.openFile (Bindings.start p) p.units m :=
    ⟨And.left, fun hfirst => ⟨hfirst, fun hlater => absurd (hlater.bounds main_le_bindFile).1 (Nat.not_le.mpr hlt)⟩⟩
  have hstart : Parted core (coreScopes core p) (.ofCore core p) (Bindings.start p) (Bindings.start q) ∧
      Housed core (coreScopes core p) [] (Bindings.start p) :=
    ⟨⟨Pairing.agree_start h.share, Territory.closed_start _ p, Territory.closed_start _ p⟩, nofun, nofun, nofun⟩
  rw [h.units]
  refine Taken.run (I := fun done b b' => Parted core (coreScopes core p) (.ofCore core p) b b' ∧
      Housed core (coreScopes core p) done b) main_le_openFile ?_ ?_ p.units [] (fun _ hmem => hmem) hrange hstart
  · rintro done b b' unit hunit - hS ⟨hparted, hhoused⟩
    refine ⟨hparted.openCore coreScopes.infinite hS, hhoused.openFile h.congr (fun hkind => ?_) fun _ => ?_⟩
    · exact iff_of_true (hS _ (Nat.le_refl _) (hsize b unit hkind)) hunit
    · exact iff_of_true (coreScopes.of_lt Nat.one_lt_two) hunit
  · rintro done b b' unit hunit hmem hS ⟨hparted, hhoused⟩
    have hkind := SourceUnit.isModule_of_not_affectsOthers (h.quiet unit hmem hunit)
    refine ⟨hparted.openOther h.congr hunit hkind hS, hhoused.openFile h.congr (fun _ => ?_) fun hno => absurd hkind hno⟩
    exact iff_of_false (hS _ (Nat.le_refl _) (hsize b unit hkind)) hunit

theorem bound : Parted core (coreScopes core p) (.ofCore core p) (Bindings.ofProgram p) (Bindings.ofProgram q) := by
  have hrange (m : Nat) (hle : (p.units.foldl Bindings.openFile (Bindings.start p)).main.scopes.size ≤ m)
      (_ : m < (p.units.foldl Bindings.bindFile (p.units.foldl Bindings.openFile (Bindings.start p))).main.scopes.size) :
      coreScopes core p m ↔
        ¬Taken core Bindings.bindFile (p.units.foldl Bindings.openFile (Bindings.start p)) p.units m :=
    ⟨And.right, fun hlater => ⟨fun hfirst => absurd hle (Nat.not_le.mpr (hfirst.bounds main_le_openFile).2), hlater⟩⟩
  have hopened := h.opened
  rw [h.units] at hopened
  unfold Bindings.ofProgram
  rw [h.units]
  refine (Taken.run (I := fun _ b b' => Parted core (coreScopes core p) (.ofCore core p) b b' ∧
      Housed core (coreScopes core p) p.units b) main_le_bindFile ?_ ?_ p.units [] (fun _ hmem => hmem) hrange hopened).1
  · rintro done b b' unit hunit hmem hS ⟨hparted, hhoused⟩
    exact hparted.bindCore coreScopes.infinite hhoused hmem hunit hS
  · rintro done b b' unit hunit hmem hS ⟨hparted, hhoused⟩
    exact hparted.bindOther hhoused hmem hunit (h.quiet unit hmem hunit) hS

/-- Before any check the bindings agree, with all scopes that are still to come. -/
theorem ready (n : Nat) : (Pairing.ofCore core p).Ready n (Bindings.ofProgram p) (Bindings.ofProgram q) :=
  h.bound.agree.ready coreScopes.infinite fun _ hle _ => coreScopes.of_le hle

end HasCore

end

end Check

end Recheck
