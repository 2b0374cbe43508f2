import Recheck.Proofs.Check.Memory

/-!
# Type checkers that are shared

A type checker that has been asked about other files before finds in a file what a new one finds, as long
as the check of the file needs no type that depends on itself by way of another declaration.
-/

set_option autoImplicit false

namespace Recheck

open Check Syntax

namespace Check

variable {b : Bindings}

/-! ## Checks that report -/

/-- The state between two questions of a check that reports. -/
structure State.Ready (b : Bindings) (s : State) : Prop where
  resolving : s.known.resolving = []
  quiet : s.quiet = 0
  sound : s.known.Sound b

/-- What a check with memory does, beside the plain one from the same findings. -/
structure Finds {α : Type} (b : Bindings) (s : State) (plain : StateT Findings Option α)
    (r : α × State) : Prop where
  ready : r.2.Ready b
  plain : s.Calm → ∀ a found, plain.run s.found = some (a, found) →
    r.2.Calm ∧ r.1 = a ∧ r.2.found = found

namespace Finds

variable {α : Type} {s : State}

/-- An answer that changes nothing but the findings. -/
theorem pure (hs : s.Ready b) {plain : StateT Findings Option α} {a : α} {found : Findings}
    (h : s.Calm → plain.run s.found = some (a, found)) : Finds b s plain (a, { s with found := found }) :=
  ⟨⟨hs.resolving, hs.quiet, hs.sound⟩, fun hc _ _ hp => by
    cases (h hc).symm.trans hp
    exact ⟨⟨hc.exhausted, hc.opened⟩, rfl, rfl⟩⟩

/-- An answer to what has no plain result. -/
theorem none {plain : StateT Findings Option α} {r : α × State} (hr : r.2.Ready b)
    (h : plain.run s.found = none) : Finds b s plain r :=
  ⟨hr, fun _ _ _ hp => nomatch h.symm.trans hp⟩

end Finds

theorem State.find_of_loud {s : State} (h : s.quiet = 0) (change : Findings → Findings) :
    s.find change = { s with found := change s.found } := if_pos h

theorem finds_run {ans : (q : Question) → StateM State q.Answer}
    {plain : (q : Question) → StateT Findings Option q.Answer}
    (h : ∀ q s, s.Ready b → Finds b s (plain q) ((ans q).run s)) {α : Type} (c : CheckM α) {s : State}
    (hs : s.Ready b) : Finds b s (c.run plain) ((c.run ans).run s) := by
  induction c generalizing s with
  | done a => exact .pure hs fun _ => rfl
  | ask q next ih =>
    have first := h q s hs
    have rest := ih ((ans q).run s).1 first.ready
    refine ⟨rest.ready, fun hc a found hp => ?_⟩
    obtain ⟨⟨x, mid⟩, hx, hp⟩ := Option.bind_eq_some_iff.mp hp
    obtain ⟨calm, rfl, rfl⟩ := first.plain hc x mid hx
    exact rest.plain calm a found hp

theorem finds_isPlain {q : Question} (h : q.isPlain) (file : Path) (depth : Nat) {s : State}
    (hs : s.Ready b) : Finds b s (plainCheck b file depth q) ((answer file depth q).run s) := by
  cases q with
  | judge => exact nomatch h
  | declared => exact nomatch h
  | bindings =>
    rw [answer, plainCheck]
    exact .pure hs fun hc => by rw [← hs.sound.bound hc.opened]; rfl
  | isQuiet =>
    rw [answer, plainCheck]
    exact .pure hs fun _ => by simp [hs.quiet]
  | report fault span =>
    rw [answer, plainCheck]
    change Finds b s _ ((), s.find _)
    rw [State.find_of_loud hs.quiet]
    exact .pure hs fun _ => rfl
  | use binding =>
    rw [answer, plainCheck]
    change Finds b s _ ((), s.find _)
    rw [State.find_of_loud hs.quiet]
    exact .pure hs fun _ => rfl
  | openBody body parent =>
    rw [answer, plainCheck]
    exact .none ⟨hs.resolving, hs.quiet, hs.sound.openBody body parent file⟩ rfl

/-- The check of a file finds what the plain one finds. -/
theorem finds_answer (b : Bindings) (file : Path) (depth : Nat) (q : Question) (s : State)
    (hs : s.Ready b) : Finds b s (plainCheck b file depth q) ((answer file depth q).run s) := by
  induction depth generalizing q s with
  | zero =>
    cases q with
    | judge j => exact .none ⟨hs.resolving, hs.quiet, hs.sound⟩ rfl
    | declared d => exact .none ⟨hs.resolving, hs.quiet, hs.sound⟩ rfl
    | _ => exact finds_isPlain rfl file 0 hs
  | succ depth ih =>
    cases q with
    | judge j => exact finds_run ih (rule j) hs
    | declared d =>
      have h := agrees_remember (answersPlainly_answer b file depth) (d := d) hs.sound fun _ e he => by
        rw [hs.resolving] at he; exact nomatch he
      rw [hs.resolving] at h
      refine ⟨⟨h.resolving.trans hs.resolving, h.quiet.trans hs.quiet, h.sound⟩,
        fun hc a found hp => ?_⟩
      obtain ⟨x, hx, hp⟩ := Option.bind_eq_some_iff.mp hp
      obtain ⟨rfl, rfl⟩ := Prod.mk.inj (Option.some.inj hp)
      have hx : plainAnswer b (depth + 1) none (.declared d) = some x :=
        (plainAnswer_declared (Option.some_ne_none d).symm depth).trans hx
      have calm := h.complete hc _ (Nat.le_refl _) (Option.isSome_iff_exists.mpr ⟨x, hx⟩)
      exact ⟨calm, (h.value calm _ x hx).symm, h.found⟩
    | _ => exact finds_isPlain rfl file (depth + 1) hs

end Check

namespace TypeChecker

/-! ## Checkers that have been asked before -/

/-- What there is to find in a file when nothing is remembered. -/
def plainFindings? (program : Program) (unit : SourceUnit) : Option Findings :=
  (((checkUnit unit).run
    (plainCheck (Bindings.ofProgram program) unit.path (depthBound program))).run .empty).map (·.2)

/-- The type checker after it was asked about some files, one after the other. -/
def after (c : TypeChecker) (asked : List Path) : TypeChecker :=
  asked.foldl (fun c path => (c.semanticDiagnostics path).2) c

/-- What a type checker knows is sound, and nothing is being worked out. -/
structure Sound (c : TypeChecker) : Prop where
  known : c.known.Sound (Bindings.ofProgram c.program)
  resolving : c.known.resolving = []

theorem sound_ofProgram (p : Program) : (ofProgram p).Sound where
  known := ⟨fun _ h => (nomatch h), fun _ => rfl, fun _ _ _ h => nomatch h⟩
  resolving := rfl

variable {c : TypeChecker}

theorem Sound.finds (h : c.Sound) (unit : SourceUnit) :
    Finds (Bindings.ofProgram c.program) (.start c.known)
      ((checkUnit unit).run
        (plainCheck (Bindings.ofProgram c.program) unit.path (depthBound c.program)))
      (((checkUnit unit).run (answer unit.path (depthBound c.program))).run (.start c.known)) :=
  finds_run (finds_answer _ unit.path _) (checkUnit unit) ⟨h.resolving, rfl, h.known⟩

/-- A sound type checker in which no body had to be bound for good finds what is plain. -/
theorem Sound.findings_eq (h : c.Sound) (ho : c.known.bindings.opened = []) {unit : SourceUnit}
    {found : Findings} (hp : plainFindings? c.program unit = some found) :
    (findings c.program c.known unit).1 = found := by
  obtain ⟨r, hr, rfl⟩ := Option.map_eq_some_iff.mp hp
  exact ((h.finds unit).plain ⟨rfl, ho⟩ r.1 r.2 hr).2.2

theorem Sound.semanticDiagnostics (h : c.Sound) (path : Path) : (c.semanticDiagnostics path).2.Sound := by
  rw [TypeChecker.semanticDiagnostics]
  split
  · exact h
  · split
    · exact h
    · exact ⟨(h.finds _).ready.sound, (h.finds _).ready.resolving⟩

theorem program_after (asked : List Path) : (c.after asked).program = c.program := by
  induction asked generalizing c with
  | nil => rfl
  | cons path rest ih => exact ih.trans (program_semanticDiagnostics c path)

theorem Sound.after (h : c.Sound) (asked : List Path) : (c.after asked).Sound := by
  induction asked generalizing c with
  | nil => exact h
  | cons path rest ih => exact ih (h.semanticDiagnostics path)

end TypeChecker

/-- The diagnostics of a path when nothing is remembered. There are none to be had if the check of the
file asks for a type that depends on itself by way of another declaration, or looks into a body that says
something about other modules. -/
def Program.plainDiagnostics? (p : Program) (path : Path) : Option (List Diagnostic) :=
  match p.unit? path with
  | none => some []
  | some unit =>
    if unit.isTypeDefinition && p.options.skipLibCheck then some unit.syntaxDiagnostics
    else (TypeChecker.plainFindings? p unit).map (TypeChecker.diagnostics unit)

theorem TypeChecker.Sound.semanticDiagnostics_eq {c : TypeChecker} (h : c.Sound)
    (ho : c.known.bindings.opened = []) {path : Path} {plain : List Diagnostic}
    (hp : c.program.plainDiagnostics? path = some plain) : (c.semanticDiagnostics path).1 = plain := by
  rw [Program.plainDiagnostics?] at hp
  rw [TypeChecker.semanticDiagnostics]
  cases hu : c.program.unit? path with
  | none =>
    rw [hu] at hp
    exact Option.some.inj hp
  | some unit =>
    rw [hu] at hp
    dsimp only at hp ⊢
    by_cases hl : unit.isTypeDefinition && c.program.options.skipLibCheck
    · rw [if_pos hl] at hp ⊢
      exact Option.some.inj hp
    · rw [if_neg hl] at hp ⊢
      obtain ⟨found, hf, rfl⟩ := Option.map_eq_some_iff.mp hp
      dsimp only
      rw [h.findings_eq ho hf]

/-- A list whose tail is a list, and a file that uses it. -/
def TypeChecker.listed : Program :=
  .ofHost [⟨"/m.ts"⟩] .standard (Files.toHost (.ofList [
    (⟨"/l.ts"⟩, "export interface L\x7bnext: L, v: string\x7d"),
    (⟨"/m.ts"⟩,
      "import \x7bL\x7d from './l';export const l: L = \x7bv: '', next: 1\x7d;let n: number = l.v")]))

/-- Two constants, each of which holds the other. -/
def TypeChecker.entangled : Program :=
  .ofHost [⟨"/a.ts"⟩] .standard (Files.toHost (.ofList [
    (⟨"/a.ts"⟩, "import \x7bb\x7d from './b';export const a = \x7bf: b\x7d"),
    (⟨"/b.ts"⟩, "import \x7ba\x7d from './a';export const b = \x7bg: a\x7d;let n: number = b.g")]))

end Recheck
