import Recheck.Proofs.Check.Files
import Recheck.Proofs.Check.Inquiry
import Recheck.Proofs.Check.Sharing

/-!
# The depth of a check

Declarations may mention each other in circles, within a file and across files, but a declaration that is being worked out is
not begun a second time. So the declarations that are being worked out at any moment are distinct, and no more than the
program has. Between two of them a chain of looks goes down in a tree. Together this bounds the chain (`State.room`), and the
bound is below the one that the checker computes from the texts: no chain of looks is ever too long.
-/

set_option autoImplicit false

namespace Recheck

open Syntax Check

namespace Check

/-! ## States of a check -/

/-- A state between two questions. What is being worked out stands, each declaration once, and no chain of looks was too
long. -/
structure State.Steady (p : Program) (s : State) : Prop where
  valid : Valid s.known.bindings
  program : s.known.bindings.program = p
  stated : ∀ d ∈ s.known.resolving, Stated s.known.bindings d
  nodup : s.known.resolving.Nodup
  quiet : s.quiet = s.known.resolving.length
  exhausted : s.exhausted = false

/-- How deep a check can still go through declarations that are not being worked out, each time from the top of a tree. -/
def State.room (p : Program) (s : State) : Nat := nodeBound p * (p.cacheable - s.known.resolving.length)

/-- What a part of a check leaves behind: the same declarations are being worked out as before. -/
structure Unwinds {α : Type} (p : Program) (s : State) (Q : Bindings → α → Prop) (r : α × State) : Prop where
  steady : r.2.Steady p
  resolving : r.2.known.resolving = s.known.resolving
  grows : Grows s.known.bindings r.2.known.bindings
  result : Q r.2.known.bindings r.1

section

variable {p : Program} {s : State}

namespace State

theorem Steady.length_le (hs : s.Steady p) : s.known.resolving.length ≤ p.cacheable :=
  hs.program ▸ Stated.length_le hs.nodup hs.stated

/-- A further declaration is begun. -/
theorem Steady.enter (hs : s.Steady p) {d : Declaration} (hd : Stated s.known.bindings d) (hnew : d ∉ s.known.resolving) :
    (s.enter d).Steady p where
  valid := hs.valid
  program := hs.program
  stated := List.forall_mem_cons.mpr ⟨hd, hs.stated⟩
  nodup := List.nodup_cons.mpr ⟨hnew, hs.nodup⟩
  quiet := congrArg (· + 1) hs.quiet
  exhausted := hs.exhausted

/-- It takes up the room of one declaration. -/
theorem Steady.room_enter (hs : s.Steady p) {d : Declaration} (hd : Stated s.known.bindings d) (hnew : d ∉ s.known.resolving) :
    (s.enter d).room p + nodeBound p = s.room p := by
  have hlength : s.known.resolving.length + 1 ≤ p.cacheable := (hs.enter hd hnew).length_le
  have hleft : p.cacheable - (s.enter d).known.resolving.length + 1 = p.cacheable - s.known.resolving.length := by
    change p.cacheable - (s.known.resolving.length + 1) + 1 = _
    omega
  rw [room, room, ← hleft, Nat.mul_succ]

theorem Steady.fine_declarationRule (hs : s.Steady p) (hp : p.WellRead) {d : Declaration} (hd : Stated s.known.bindings d) :
    Fine (nodeBound p) (declarationRule d) s.known.bindings := by
  obtain rfl := hs.program
  exact Check.fine_declarationRule hs.valid hp hd

theorem room_congr {s' : State} (h : s'.known.resolving = s.known.resolving) : s'.room p = s.room p := by
  rw [room, room, h]

end State

namespace Unwinds

variable {α β : Type} {Q : Bindings → α → Prop} {Q' : Bindings → β → Prop} {r : α × State}

theorem refl (hs : s.Steady p) {a : α} (ha : Q s.known.bindings a) : Unwinds p s Q (a, s) :=
  ⟨hs, rfl, .refl _, ha⟩

theorem trans (h : Unwinds p s Q r) {r' : β × State} (h' : Unwinds p r.2 Q' r') : Unwinds p s Q' r' :=
  ⟨h'.steady, h'.resolving.trans h.resolving, h.grows.trans h'.grows, h'.result⟩

theorem later (h : Unwinds p s Q r) : Later s.known.bindings r.2.known.bindings := ⟨h.steady.valid, h.grows⟩

/-- A finding changes nothing else. -/
theorem find (hs : s.Steady p) (change : Findings → Findings) : Unwinds p s (fun _ _ => True) ((), s.find change) := by
  unfold State.find
  split
  · exact ⟨⟨hs.valid, hs.program, hs.stated, hs.nodup, hs.quiet, hs.exhausted⟩, rfl, .refl _, trivial⟩
  · exact .refl hs trivial

theorem openBody (hs : s.Steady p) {x : Item} {body : Body} (hx : Stands s.known.bindings x)
    (hbody : x.node.body? x.site.file = some body) (hplain : body.isPlain = false) (file : Path) :
    Unwinds p s (fun b _ => b.isOpen body x.site.scope = true) ((), s.openBody body x.site.scope file) := by
  have hgrows := hs.valid.grows_openBody hx hbody hplain file
  refine ⟨⟨hs.valid.openBody hx hbody hplain file, hgrows.program.trans hs.program, fun d hd => ?_, hs.nodup, hs.quiet,
    hs.exhausted⟩, rfl, hgrows, Bindings.isOpen_openBody file⟩
  exact hgrows.stated (hs.stated d hd)

/-- A declaration that was begun has been worked out. -/
theorem leave (hs : s.Steady p) {d : Declaration} {Q : Bindings → Ty → Prop} {r : Ty × State}
    (h : Unwinds p (s.enter d) Q r) : Unwinds p s Q (r.1, r.2.leave d r.1) := by
  have hresolving : (r.2.leave d r.1).known.resolving = s.known.resolving := by
    change r.2.known.resolving.erase d = _
    rw [h.resolving]
    exact List.erase_cons_head d s.known.resolving
  refine ⟨⟨h.steady.valid, h.steady.program, fun d' hd' => ?_, ?_, ?_, h.steady.exhausted⟩, hresolving, h.grows, h.result⟩
  · exact h.grows.stated (hs.stated d' (hresolving ▸ hd'))
  · rw [hresolving]
    exact hs.nodup
  · change r.2.quiet - 1 = _
    rw [h.steady.quiet, h.resolving, hresolving]
    rfl

end Unwinds

/-! ## Runs that are deep enough -/

/-- A run that ends well, and would end in the same way if it were allowed to go deeper. -/
structure Ends {α : Type} (p : Program) (s : State) (Q : Bindings → α → Prop) (n : Nat) (run : Nat → StateM State α) : Prop where
  unwinds : Unwinds p s Q ((run n).run s)
  deeper : ∀ m, n ≤ m → (run m).run s = (run n).run s

/-- All questions that may be asked about a node of this height, in this state, are answered well to this depth. -/
def Answers (p : Program) (file : Path) (n : Nat) : Prop :=
  ∀ (q : Question) (h : Nat) (s : State), 0 < h → s.Steady p → q.Proper h s.known.bindings → s.room p + h ≤ n →
    Ends p s q.Settles n fun m => answer file m q

theorem ends_run {file : Path} {n : Nat} (ha : Answers p file n) {α : Type} {Q : Bindings → α → Prop} {h : Nat} (hpos : 0 < h)
    (c : CheckM α) (hs : s.Steady p) (hc : Asks h Q c s.known.bindings) (hn : s.room p + h ≤ n) :
    Ends p s Q n fun m => c.run (answer file m) := by
  induction c generalizing s with
  | done a => exact ⟨.refl hs hc, fun _ _ => rfl⟩
  | ask q next ih =>
    have first := ha q h s hpos hs hc.1 hn
    have hroom : ((answer file n q).run s).2.room p + h ≤ n := by
      rwa [State.room_congr first.unwinds.resolving]
    have rest := ih _ first.unwinds.steady (hc.2 _ _ first.unwinds.later first.unwinds.result) hroom
    refine ⟨first.unwinds.trans rest.unwinds, fun m hm => ?_⟩
    have hfirst : (answer file m q).run s = (answer file n q).run s := first.deeper m hm
    change ((next ((answer file m q).run s).1).run (answer file m)).run ((answer file m q).run s).2 = _
    rw [hfirst]
    exact rest.deeper m hm

theorem ends_remember {file : Path} {n : Nat} (ha : Answers p file n) {d : Declaration} (hp : p.WellRead) (hs : s.Steady p)
    (hd : Stated s.known.bindings d) (hn : s.room p ≤ n) :
    Ends p s (fun _ _ => True) n fun m => remember d ((declarationRule d).run (answer file m)) := by
  cases htype : s.known.types.get? d with
  | some type =>
    have hrun (m : Nat) : (remember d ((declarationRule d).run (answer file m))).run s = (type, s) := by
      rw [remember_run, htype]
    exact ⟨hrun n ▸ .refl hs trivial, fun m _ => (hrun m).trans (hrun n).symm⟩
  | none =>
    by_cases hmem : d ∈ s.known.resolving
    · have hrun (m : Nat) : (remember d ((declarationRule d).run (answer file m))).run s = (.any, s) := by
        simp [remember_run, htype, hmem]
      exact ⟨hrun n ▸ .refl hs trivial, fun m _ => (hrun m).trans (hrun n).symm⟩
    · have hrun (m : Nat) : (remember d ((declarationRule d).run (answer file m))).run s =
          let r := ((declarationRule d).run (answer file m)).run (s.enter d)
          (r.1, r.2.leave d r.1) := by
        simp [remember_run, htype, hmem]
      have inner : Ends p (s.enter d) (fun _ _ => True) n fun m => (declarationRule d).run (answer file m) := by
        refine ends_run ha (Nat.zero_lt_of_lt hp.cacheable_lt) _ (hs.enter hd hmem) (hs.fine_declarationRule hp hd) ?_
        rw [hs.room_enter hd hmem]
        exact hn
      refine ⟨?_, fun m hm => ?_⟩
      · rw [hrun]
        exact .leave hs inner.unwinds
      · rw [hrun, hrun, inner.deeper m hm]

/-- Questions that are not about nodes or declarations need no depth. -/
theorem ends_question (file : Path) (n : Nat) {h : Nat} {q : Question} (hq : q.Proper h s.known.bindings) (hplain : q.isPlain)
    (hs : s.Steady p) : Ends p s q.Settles n fun m => answer file m q := by
  have at_zero (m : Nat) : answer file m q = answer file 0 q := by
    cases q with
    | judge | declared => exact nomatch hplain
    | _ => cases m <;> rfl
  refine ⟨?_, fun m _ => congrFun ((at_zero m).trans (at_zero n).symm) s⟩
  rw [at_zero]
  cases q with
  | judge | declared => exact nomatch hplain
  | bindings => exact .refl hs rfl
  | isQuiet => exact .refl hs trivial
  | report fault span => exact .find hs _
  | use binding => exact .find hs _
  | openBody body parent =>
    obtain ⟨x, hx, hbody, rfl, hopen⟩ := hq
    exact .openBody hs hx hbody hopen file

/-- Whatever may be asked is answered well to any depth that leaves room. -/
theorem answers (hp : p.WellRead) (file : Path) (n : Nat) : Answers p file n := by
  induction n with
  | zero =>
    intro q h s hpos _ _ hn
    omega
  | succ n ih =>
    intro q h s hpos hs hq hn
    cases q with
    | judge j =>
      obtain ⟨hstands, hheight⟩ := hq
      have inner : Ends p s (fun _ _ => True) n fun m => (rule j).run (answer file m) :=
        ends_run ih j.item.node.height_pos _ hs (fine_rule j hs.valid hstands) (by omega)
      refine ⟨inner.unwinds, fun m hm => ?_⟩
      obtain ⟨m, rfl⟩ := Nat.exists_eq_add_of_lt (Nat.lt_of_succ_le hm)
      exact inner.deeper _ (by omega)
    | declared d =>
      have inner := ends_remember ih hp hs hq (by omega)
      refine ⟨inner.unwinds, fun m hm => ?_⟩
      obtain ⟨m, rfl⟩ := Nat.exists_eq_add_of_lt (Nat.lt_of_succ_le hm)
      exact inner.deeper _ (by omega)
    | _ => exact ends_question file (n + 1) hq rfl hs

/-! ## Every moment of a run -/

/-- `Comes file n c s m q s'`: with looks of length `n`, the part `c` of a check that begins in the state `s` comes to the
question `q`, by itself or in answering one of its own questions. That is in the state `s'`, with looks of length `m` left. -/
inductive Comes (file : Path) : Nat → {α : Type} → CheckM α → State → Nat → Question → State → Prop
  | ask {α : Type} (n : Nat) (q : Question) (next : q.Answer → CheckM α) (s : State) : Comes file n (.ask q next) s n q s
  | next {α : Type} {n m : Nat} {q q' : Question} {next : q.Answer → CheckM α} {s s' : State} :
    Comes file n (next ((answer file n q).run s).1) ((answer file n q).run s).2 m q' s' →
      Comes file n (.ask q next) s m q' s'
  | judge {α : Type} {n m : Nat} {j : Judgement} {q' : Question} {next : j.Answer → CheckM α} {s s' : State} :
    Comes file n (rule j) s m q' s' → Comes file (n + 1) (.ask (.judge j) next) s m q' s'
  | declared {α : Type} {n m : Nat} {d : Declaration} {q' : Question} {next : Ty → CheckM α} {s s' : State} :
    s.known.types.get? d = none → d ∉ s.known.resolving → Comes file n (declarationRule d) (s.enter d) m q' s' →
      Comes file (n + 1) (.ask (.declared d) next) s m q' s'

/-- At any moment there is room for what is asked. -/
theorem Comes.proper {file : Path} {n m : Nat} {α : Type} {c : CheckM α} {q : Question} {s' : State}
    (h : Comes file n c s m q s') (hp : p.WellRead) (hs : s.Steady p) {Q : Bindings → α → Prop} {height : Nat} (hpos : 0 < height)
    (hc : Asks height Q c s.known.bindings) (hn : s.room p + height ≤ n) :
    s'.Steady p ∧ ∃ height', 0 < height' ∧ q.Proper height' s'.known.bindings ∧ s'.room p + height' ≤ m := by
  induction h generalizing height with
  | ask n q next s => exact ⟨hs, height, hpos, hc.1, hn⟩
  | @next _ n m q q' next s s' _ ih =>
    have first := answers hp file n q height s hpos hs hc.1 hn
    refine ih first.unwinds.steady hpos (hc.2 _ _ first.unwinds.later first.unwinds.result) ?_
    exact (State.room_congr first.unwinds.resolving).symm ▸ hn
  | @judge _ n m j q' next s s' _ ih =>
    obtain ⟨hstands, hheight⟩ := hc.1
    exact ih hs j.item.node.height_pos (fine_rule j hs.valid hstands) (by omega)
  | @declared _ n m d q' next s s' _ hnew _ ih =>
    refine ih (hs.enter hc.1 hnew) (Nat.zero_lt_of_lt hp.cacheable_lt) (hs.fine_declarationRule hp hc.1) ?_
    rw [hs.room_enter hc.1 hnew]
    omega

theorem Comes.steady {file : Path} {n m : Nat} {α : Type} {c : CheckM α} {q : Question} {s' : State}
    (h : Comes file n c s m q s') (hp : p.WellRead) (hs : s.Steady p) {Q : Bindings → α → Prop} {height : Nat} (hpos : 0 < height)
    (hc : Asks height Q c s.known.bindings) (hn : s.room p + height ≤ n) : s'.Steady p ∧ 0 < m := by
  obtain ⟨hs', height', hpos', -, hm⟩ := h.proper hp hs hpos hc hn
  exact ⟨hs', by omega⟩

/-- What the second part comes to the whole comes to. -/
theorem Comes.of_bind {α β : Type} {file : Path} {n m : Nat} {c : CheckM α} {f : α → CheckM β} {q : Question} {s s' : State}
    (h : Comes file n (f ((c.run (answer file n)).run s).1) ((c.run (answer file n)).run s).2 m q s') :
    Comes file n (c >>= f) s m q s' := by
  induction c generalizing s with
  | done => exact h
  | ask q next ih => exact .next (ih _ h)

/-! ## The check of a file -/

theorem fine_checkUnit {b : Bindings} (hb : Valid b) (hp : b.program.WellRead) {unit : SourceUnit}
    (hunit : unit ∈ b.program.units) : Fine (nodeBound b.program) (checkUnit unit) b := by
  unfold checkUnit
  refine Asks.bindings.bind hb ?_
  rintro _ later hlater rfl
  refine Asks.forM hlater.valid fun statement hmem b' hlater' => ⟨?_, fun _ _ _ _ => trivial⟩
  have hstands : Stands later ⟨.statement statement, later.fileSite unit⟩ := .root (hlater.grows.program ▸ hunit) hmem
  refine ⟨hlater'.grows.stands _ hstands, ?_⟩
  have hheight := hstands.height_lt (hlater.grows.program ▸ hp)
  rwa [hlater.grows.program] at hheight

/-- The check of a file begins with all the room there is. -/
theorem room_le (hp : p.WellRead) : s.room p + nodeBound p ≤ depthBound p := by
  have hroom : s.room p ≤ nodeBound p * p.cacheable := Nat.mul_le_mul_left _ (Nat.sub_le _ _)
  have hall : nodeBound p * (p.cacheable + 1) ≤ depthBound p := Nat.mul_le_mul_left _ hp.cacheable_lt
  rw [Nat.mul_succ] at hall
  omega

theorem State.Steady.fine_checkUnit (hs : s.Steady p) (hp : p.WellRead) {unit : SourceUnit} (hunit : unit ∈ p.units) :
    Fine (nodeBound p) (checkUnit unit) s.known.bindings := by
  obtain rfl := hs.program
  exact Check.fine_checkUnit hs.valid hp hunit

theorem ends_checkUnit (hp : p.WellRead) (hs : s.Steady p) {unit : SourceUnit} (hunit : unit ∈ p.units) :
    Ends p s (fun _ _ => True) (depthBound p) fun depth => (checkUnit unit).run (answer unit.path depth) :=
  ends_run (answers hp unit.path _) (Nat.zero_lt_of_lt hp.cacheable_lt) _ hs (hs.fine_checkUnit hp hunit) (room_le hp)

end

end Check

namespace TypeChecker

/-- The state that the check of a file ends in, with looks of some length. -/
def check (c : TypeChecker) (unit : SourceUnit) (depth : Nat) : State :=
  (((checkUnit unit).run (answer unit.path depth)).run (.start c.known)).2

theorem findings_eq_check (c : TypeChecker) (unit : SourceUnit) :
    findings c.program c.known unit =
      ((c.check unit (depthBound c.program)).found, (c.check unit (depthBound c.program)).known) := rfl

/-- A type checker in which no check is under way. -/
structure Idle (c : TypeChecker) : Prop where
  steady : (State.start c.known).Steady c.program
  resolving : c.known.resolving = []

theorem idle_ofProgram {p : Program} (hp : p.WellRead) : (ofProgram p).Idle :=
  ⟨⟨valid_ofProgram hp.orderly, Bindings.program_ofProgram p, nofun, List.nodup_nil, rfl, rfl⟩, rfl⟩

variable {c : TypeChecker}

theorem Idle.check (h : c.Idle) (hp : c.program.WellRead) {unit : SourceUnit} (hunit : unit ∈ c.program.units) :
    (c.check unit (depthBound c.program)).Steady c.program ∧ (c.check unit (depthBound c.program)).known.resolving = [] := by
  have hends := ends_checkUnit hp h.steady hunit
  exact ⟨hends.unwinds.steady, hends.unwinds.resolving.trans h.resolving⟩

theorem Idle.semanticDiagnostics (h : c.Idle) (hp : c.program.WellRead) (path : Path) : (c.semanticDiagnostics path).2.Idle := by
  unfold TypeChecker.semanticDiagnostics
  split
  · exact h
  · rename_i unit hunit
    split
    · exact h
    · obtain ⟨hsteady, hresolving⟩ := h.check hp (hp.mem_of_unit? hunit).1
      refine ⟨⟨hsteady.valid, hsteady.program, hsteady.stated, hsteady.nodup, ?_, rfl⟩, hresolving⟩
      exact (congrArg List.length hresolving).symm

theorem Idle.after (h : c.Idle) (hp : c.program.WellRead) (asked : List Path) : (c.after asked).Idle := by
  induction asked generalizing c with
  | nil => exact h
  | cons path rest ih =>
    refine ih (h.semanticDiagnostics hp path) ?_
    rwa [program_semanticDiagnostics]

/-- Declarations that depend on each other in circles do not keep a check from ending. At any moment of the check of a file
the computations that report nothing are those of distinct declarations, no more than the program has, and looks of some
length are left. In the end no declaration is being worked out, and with longer looks the check would have ended alike. -/
theorem circles_end {p : Program} (hp : p.WellRead) (asked : List Path) {unit : SourceUnit} (hunit : unit ∈ p.units) :
    let c := (ofProgram p).after asked
    let final := c.check unit (depthBound p)
    (∀ m q s, Comes unit.path (depthBound p) (checkUnit unit) (.start c.known) m q s →
      s.quiet = s.known.resolving.length ∧ s.known.resolving.Nodup ∧ s.known.resolving.length ≤ p.cacheable ∧ 0 < m) ∧
    final.exhausted = false ∧ final.known.resolving = [] ∧ final.quiet = 0 ∧
    ∀ depth, depthBound p ≤ depth → c.check unit depth = final := by
  intro c final
  have hprogram : c.program = p := program_after asked
  have hidle : c.Idle := (idle_ofProgram hp).after hp asked
  have hsteady : (State.start c.known).Steady p := hprogram ▸ hidle.steady
  have hends := ends_checkUnit hp hsteady hunit
  have hresolving : final.known.resolving = [] := hends.unwinds.resolving.trans hidle.resolving
  refine ⟨fun m q s hcomes => ?_, hends.unwinds.steady.exhausted, hresolving, ?_, fun depth hdepth => ?_⟩
  · have hfine := hsteady.fine_checkUnit hp hunit
    obtain ⟨hs, hm⟩ := hcomes.steady hp hsteady (Nat.zero_lt_of_lt hp.cacheable_lt) hfine (room_le hp)
    exact ⟨hs.quiet, hs.nodup, hs.length_le, hm⟩
  · exact hends.unwinds.steady.quiet.trans (congrArg List.length hresolving)
  · exact congrArg Prod.snd (hends.deeper depth hdepth)

/-- Two files that pass on each other's exports, whose declarations all lead back to themselves. -/
def circular : Program :=
  .ofHost [⟨"/a.ts"⟩] .standard (Files.toHost (.ofList [
    (⟨"/a.ts"⟩,
      "export * from './b';import e, \x7bB\x7d from './b';export interface A extends A \x7bb: B\x7d" ++
      "export const x = y;export const y = f();export function f(n = x) \x7breturn () => g(n)\x7dexport default e"),
    (⟨"/b.ts"⟩,
      "export * from './a';import d, \x7bA, f\x7d from './a';export type B = A | B[];const g = f;export default d")]))

def circularUnit : SourceUnit := (circular.unit? ⟨"/a.ts"⟩).getD default

theorem circles_end_circular :
    (circular.WellRead ∧ circularUnit ∈ circular.units) ∧
    let c := (ofProgram circular).after [⟨"/b.ts"⟩]
    let final := c.check circularUnit (depthBound circular)
    (∀ m q s, Comes circularUnit.path (depthBound circular) (checkUnit circularUnit) (.start c.known) m q s →
      s.quiet = s.known.resolving.length ∧ s.known.resolving.Nodup ∧ s.known.resolving.length ≤ circular.cacheable ∧ 0 < m) ∧
    final.exhausted = false ∧ final.known.resolving = [] ∧ final.quiet = 0 ∧
    ∀ depth, depthBound circular ≤ depth → c.check circularUnit depth = final := by
  have hp : circular.WellRead := Program.wellRead_ofHost _ _ _
  have hunit : circular.unit? ⟨"/a.ts"⟩ = some circularUnit := by
    have hsome : (circular.unit? ⟨"/a.ts"⟩).isSome := by decide +kernel
    obtain ⟨unit, hunit⟩ := Option.isSome_iff_exists.mp hsome
    rw [circularUnit, hunit]
    rfl
  have hmem := (hp.mem_of_unit? hunit).1
  exact ⟨⟨hp, hmem⟩, circles_end hp [⟨"/b.ts"⟩] hmem⟩

end TypeChecker

end Recheck
