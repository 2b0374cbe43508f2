import Recheck.Proofs.Check.Asking
import Recheck.Proofs.Check.Shares

/-!
# What a check may report

The reports of a check are charged to its questions: to a report itself, and to a judgement as many as there is room for in
the node (`Question.cost`). A part of a check that is answered plausibly spends no more than is granted (`Spends`), and what
it has not spent is left for what comes behind it. That the value `import` is always found, that the check is not quiet and
that nothing is known of what could not be read is taken from the answers (`Question.Plausible`).
-/

set_option autoImplicit false

namespace Recheck.Check

open Syntax

/-! ## Costs of questions -/

/-- How many reports with this key the rule for a node may give. -/
def Judgement.cost (k : Key) : Judgement → Nat
  | expr e _ _ => k.own e
  | type t _ => k.share t.content.spots
  | statement s _ _ => k.share s.content.spots
  | returns s _ => k.share s.content.spots

namespace Question

/-- How many reports with this key come with an answer. The types of declarations are worked out in silence. -/
def cost (k : Key) : Question → Nat
  | judge j => j.cost k
  | report fault span => k.cost fault span
  | _ => 0

/-- What is known of an answer in a check that is not quiet, at a site in this scope. -/
def Plausible (scope : ScopeId) : (q : Question) → q.Answer → Prop
  | bindings, found => (found.lookupValue scope "import").isSome
  | isQuiet, quiet => quiet = false
  | judge (.expr e _ _), type => e.kind = .error → type = .any
  | _, _ => True

end Question

/-- A part of a check reports no more than this many times with this key, and its result is as it should be. -/
def Spends (k : Key) (scope : ScopeId) {α : Type} (Q : α → Prop) : CheckM α → Nat → Prop
  | .done a, _ => Q a
  | .ask q next, n => q.cost k ≤ n ∧ ∀ answer, q.Plausible scope answer → Spends k scope Q (next answer) (n - q.cost k)

/-- A part of a check whose result does not matter. -/
abbrev Costs (k : Key) (scope : ScopeId) {α : Type} (c : CheckM α) (n : Nat) : Prop := Spends k scope (fun _ => True) c n

section

variable {k : Key} {scope : ScopeId} {α β : Type} {P : α → Prop} {Q : β → Prop} {m n l : Nat}

namespace Spends

theorem mono {c : CheckM α} (hc : Spends k scope P c n) (h : n ≤ m) : Spends k scope P c m := by
  induction c generalizing m n with
  | done a => exact hc
  | ask q next ih =>
    refine ⟨Nat.le_trans hc.1 h, fun answer hanswer => ?_⟩
    exact ih answer (hc.2 answer hanswer) (Nat.sub_le_sub_right h _)

theorem imp {P' : α → Prop} {c : CheckM α} (hc : Spends k scope P c n) (hP : ∀ a, P a → P' a) : Spends k scope P' c n := by
  induction c generalizing n with
  | done a => exact hP a hc
  | ask q next ih => exact ⟨hc.1, fun answer hanswer => ih answer (hc.2 answer hanswer)⟩

theorem bind {c : CheckM α} {f : α → CheckM β} (hc : Spends k scope P c n) (hf : ∀ a, P a → Spends k scope Q (f a) m)
    (h : n + m ≤ l) : Spends k scope Q (c >>= f) l := by
  induction c generalizing n l with
  | done a => exact (hf a hc).mono (Nat.le_trans (Nat.le_add_left m n) h)
  | ask q next ih =>
    have hcost := hc.1
    exact ⟨by omega, fun answer hanswer => ih answer (hc.2 answer hanswer) (by omega)⟩

/-- Where the first part is free. -/
theorem bind_free {c : CheckM α} {f : α → CheckM β} (hc : Spends k scope P c 0)
    (hf : ∀ a, P a → Spends k scope Q (f a) n) : Spends k scope Q (c >>= f) n :=
  hc.bind hf (Nat.le_of_eq (Nat.zero_add n))

/-- Where nothing comes behind the last part that may be at fault. -/
theorem bind_pure {c : CheckM α} {f : α → CheckM β} (hc : Spends k scope P c n)
    (hf : ∀ a, P a → Spends k scope Q (f a) 0) : Spends k scope Q (c >>= f) n :=
  hc.bind hf (Nat.le_refl n)

theorem discard {c : CheckM α} (hc : Spends k scope P c n) : Costs k scope (Functor.discard c) n :=
  hc.bind_pure fun _ _ => trivial

/-! ### Lists -/

variable {ι σ : Type} {xs : List ι} {cost : ι → Nat}

theorem forM {f : ι → CheckM Unit} (hf : ∀ x ∈ xs, Costs k scope (f x) (cost x)) :
    Costs k scope (xs.forM f) (xs.map cost).sum := by
  induction xs with
  | nil => trivial
  | cons x xs ih =>
    refine (hf x List.mem_cons_self).bind (fun _ _ => ih fun y hy => hf y (List.mem_cons_of_mem _ hy)) ?_
    rw [List.map_cons, List.sum_cons]

theorem mapM {f : ι → CheckM β} (hf : ∀ x ∈ xs, Costs k scope (f x) (cost x)) :
    Costs k scope (xs.mapM f) (xs.map cost).sum := by
  unfold List.mapM
  suffices ∀ done, Costs k scope (List.mapM.loop f xs done) (xs.map cost).sum from this []
  induction xs with
  | nil => exact fun _ => trivial
  | cons x xs ih =>
    intro done
    refine (hf x List.mem_cons_self).bind (fun y _ => ih (fun z hz => hf z (List.mem_cons_of_mem _ hz)) (y :: done)) ?_
    rw [List.map_cons, List.sum_cons]

theorem foldlM {f : σ → ι → CheckM σ} {s : σ} (hf : ∀ x ∈ xs, ∀ s, Costs k scope (f s x) (cost x)) :
    Costs k scope (xs.foldlM f s) (xs.map cost).sum := by
  induction xs generalizing s with
  | nil => trivial
  | cons x xs ih =>
    refine (hf x List.mem_cons_self s).bind (fun _ _ => ih fun y hy => hf y (List.mem_cons_of_mem _ hy)) ?_
    rw [List.map_cons, List.sum_cons]

theorem optionMapM {o : Option ι} {f : ι → CheckM β} (hf : ∀ x ∈ o, Costs k scope (f x) n) : Costs k scope (o.mapM f) n := by
  cases o with
  | none => trivial
  | some x => exact (hf x rfl).bind_pure fun _ _ => trivial

end Spends

/-! ## Simple questions -/

section

variable {site : Site}

theorem spends_exprType (e : Expr) (expected : Option Ty) :
    Spends k scope (fun type => e.kind = .error → type = .any) (exprType e site expected) (k.own e) :=
  ⟨Nat.le_refl _, fun _ hanswer => hanswer⟩

theorem costs_typeMeaning (t : TypeNode) : Costs k scope (typeMeaning t site) (k.share t.content.spots) :=
  ⟨Nat.le_refl _, fun _ _ => trivial⟩

theorem costs_checkStatement (s : Statement) (result : Option Ty) :
    Costs k scope (checkStatement s site result) (k.share s.content.spots) :=
  ⟨Nat.le_refl _, fun _ _ => trivial⟩

theorem costs_returnTypes (s : Statement) : Costs k scope (returnTypes s site) (k.share s.content.spots) :=
  ⟨Nat.le_refl _, fun _ _ => trivial⟩

theorem costs_report (fault : Fault) (span : Span) : Costs k scope (report fault span) (k.cost fault span) :=
  ⟨Nat.le_refl _, fun _ _ => trivial⟩

theorem costs_declared (d : Declaration) : Costs k scope (declared d) n := ⟨Nat.zero_le _, fun _ _ => trivial⟩

theorem spends_bindings : Spends k scope (fun b => (b.lookupValue scope "import").isSome) bindings 0 :=
  ⟨Nat.le_refl _, fun _ hanswer => hanswer⟩

theorem costs_bindings : Costs k scope bindings 0 := ⟨Nat.le_refl _, fun _ _ => trivial⟩

theorem costs_options : Costs k scope options 0 := ⟨Nat.le_refl _, fun _ _ => trivial⟩

theorem spends_isQuiet : Spends k scope (· = false) isQuiet 0 := ⟨Nat.le_refl _, fun _ hanswer => hanswer⟩

end

/-! ## Names -/

theorem spends_lookupValue (name : String) :
    Spends k scope (fun found => name = "import" → found.isSome) (lookupValue scope name) 0 := by
  unfold lookupValue
  refine spends_bindings.bind_free fun b hb => ?_
  have hfound : name = "import" → (b.lookupValue scope name).isSome := by
    rintro rfl
    exact hb
  dsimp only
  split
  · exact ⟨Nat.le_refl _, fun _ _ => hfound⟩
  · exact hfound

theorem costs_lookupType (name : String) : Costs k scope (lookupType scope name) 0 := by
  unfold lookupType
  refine costs_bindings.bind_free fun b _ => ?_
  dsimp only
  split
  · exact ⟨Nat.le_refl _, fun _ _ => trivial⟩
  · trivial

theorem costs_resolveValue (symbol : ValueSymbol) : Costs k scope (resolveValue symbol) 0 :=
  costs_bindings.bind_free fun _ _ => trivial

theorem costs_resolveTypeSymbol (symbol : TypeSymbol) : Costs k scope (resolveTypeSymbol symbol) 0 :=
  costs_bindings.bind_free fun _ _ => trivial

theorem costs_declaredValueType (symbol : ValueSymbol) : Costs k scope (declaredValueType symbol) n := by
  unfold declaredValueType
  split <;> first | exact costs_declared _ | trivial

theorem costs_valueType (symbol : ValueSymbol) : Costs k scope (valueType symbol) n := by
  unfold valueType
  split
  · refine (costs_resolveValue _).bind_free fun found _ => ?_
    split
    · exact costs_declaredValueType _
    · trivial
  · exact costs_declaredValueType _

theorem costs_declaredType (symbol : TypeSymbol) (args : List Ty) : Costs k scope (declaredType symbol args) n := by
  unfold declaredType
  split
  · refine costs_bindings.bind_free fun _ _ => ?_
    split
    · trivial
    · exact costs_declared _
  · exact costs_declared _
  all_goals trivial

theorem costs_symbolType (symbol : TypeSymbol) (args : List Ty) : Costs k scope (symbolType symbol args) n := by
  unfold symbolType
  split
  · refine (costs_resolveTypeSymbol _).bind_free fun found _ => ?_
    split
    · exact costs_declaredType _ _
    · trivial
  · exact costs_declaredType _ _

end

end Recheck.Check
