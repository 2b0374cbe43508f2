import Recheck.Check.Checker
import Mathlib.Data.Option.Basic
import Recheck.Proofs.Data.Dict

/-!
# What a type checker remembers

Whatever has been asked before, the types that a type checker remembers are the plain ones, wherever
there is a plain one: a declaration that has a plain type never meets a declaration that is being worked
out, apart from itself. So the memory changes no answer that the check without memory gives.

The invariant behind it is `Needed`: whatever is being worked out at the moment gets its own plain type
only if the question at hand has a plain answer. A declaration that is met while it is being worked out
further out would need itself, and has no plain type (`plainType_eq_none`). `answersPlainly_answer` carries
this through all questions, `AnswersPlainly.run` through all rules at once.
-/

set_option autoImplicit false

/-!
## Answers without memory

What a check would find if it remembered nothing: the type of a declaration is worked out anew wherever
it is asked for. Inside itself a declaration counts as `any`; a type that depends on itself through
another declaration is never worked out, and neither is one that needs a body to be bound for good.
`plainAnswer` settles the questions inside a computation that reports nothing, `plainCheck` those of a
whole check. More depth gives no other answers.
-/

namespace Recheck.Check

open Syntax

/-! ## Answers -/

/-- The answers inside the computation of the type of `self`, for chains of looks of this length. -/
def plainAnswer (b : Bindings) : Nat → Option Declaration → (q : Question) → Option q.Answer
  | _, _, .bindings => some b
  | _, _, .isQuiet => some true
  | _, _, .report .. => some ()
  | _, _, .use _ => some ()
  | _, _, .openBody .. => none
  | 0, _, .judge _ => none
  | 0, _, .declared _ => none
  | n + 1, self, .judge j => (rule j).run (plainAnswer b n self)
  | n + 1, self, .declared d =>
    if self = some d then some .any else (declarationRule d).run (plainAnswer b n (some d))

/-- The type of a declaration. -/
def plainType (b : Bindings) (n : Nat) (d : Declaration) : Option Ty :=
  (declarationRule d).run (plainAnswer b n (some d))

/-- The answers in the check of a file, for chains of looks of this length. -/
def plainCheck (b : Bindings) (file : Path) : Nat → (q : Question) → StateT Findings Option q.Answer
  | _, .bindings => return b
  | _, .isQuiet => return false
  | _, .report fault span => modify (·.report fault span)
  | _, .use binding => modify (·.use file binding)
  | _, .openBody .. => failure
  | 0, .judge _ => failure
  | 0, .declared _ => failure
  | n + 1, .judge j => (rule j).run (plainCheck b file n)
  | n + 1, .declared d => StateT.lift (plainType b n d)

section

variable {b : Bindings}

theorem plainAnswer_declared {self : Option Declaration} {d : Declaration} (h : self ≠ some d) (n : Nat) :
    plainAnswer b (n + 1) self (.declared d) = plainType b n d := by
  rw [plainAnswer, if_neg h, plainType]

/-! ## More depth -/

/-- Who answers more answers more of a check. -/
theorem CheckM.run_of_answers {α : Type} {f g : (q : Question) → Option q.Answer}
    (h : ∀ q a, f q = some a → g q = some a) (c : CheckM α) {result : α}
    (hf : c.run f = some result) : c.run g = some result := by
  induction c with
  | done => exact hf
  | ask q next ih =>
    obtain ⟨a, ha, hnext⟩ := Option.bind_eq_some_iff.mp hf
    exact Option.bind_eq_some_iff.mpr ⟨a, h q a ha, ih a hnext⟩

theorem plainAnswer_succ (n : Nat) (self : Option Declaration) (q : Question) (a : q.Answer)
    (h : plainAnswer b n self q = some a) : plainAnswer b (n + 1) self q = some a := by
  induction n generalizing self q with
  | zero => cases q <;> first | exact h | exact nomatch h
  | succ n ih =>
    cases q with
    | judge j => exact CheckM.run_of_answers (ih self) (rule j) h
    | declared d =>
      simp only [plainAnswer] at h ⊢
      split
      · rwa [if_pos ‹_›] at h
      · rw [if_neg ‹_›] at h
        exact CheckM.run_of_answers (ih (some d)) (declarationRule d) h
    | _ => exact h

theorem plainAnswer_mono {n m : Nat} (hle : n ≤ m) {self : Option Declaration} {q : Question}
    {a : q.Answer} (h : plainAnswer b n self q = some a) : plainAnswer b m self q = some a := by
  induction hle with
  | refl => exact h
  | step _ ih => exact plainAnswer_succ _ self q a ih

theorem run_plainAnswer_mono {α : Type} {n m : Nat} (hle : n ≤ m) {self : Option Declaration}
    {c : CheckM α} {result : α} (h : c.run (plainAnswer b n self) = some result) :
    c.run (plainAnswer b m self) = some result :=
  CheckM.run_of_answers (fun _ _ => plainAnswer_mono hle) c h

end

end Recheck.Check

namespace Recheck.Check

open Syntax

variable {b : Bindings}

/-! ## Sound memories -/

/-- A memory is sound if what it holds follows from the bindings of the program, as long as no body had
to be bound for good. No declaration that is being worked out has a type yet. -/
structure Knowledge.Sound (b : Bindings) (k : Knowledge) : Prop where
  untyped : ∀ d ∈ k.resolving, k.types.get? d = none
  bound : k.bindings.opened = [] → k.bindings = b
  plain : k.bindings.opened = [] → ∀ d type, k.types.get? d = some type →
    ∀ n plain, plainType b n d = some plain → plain = type

/-- Nothing stands in the way of the plain answers: no chain of looks was too long, and no body had to be
bound for good. -/
structure State.Calm (s : State) : Prop where
  exhausted : s.exhausted = false
  opened : s.known.bindings.opened = []

/-- Each declaration that is being worked out gets its plain type, if it has one, only from this plain
result. -/
def Needed {α : Type} (b : Bindings) (resolving : List Declaration) (plain : Nat → Option α) : Prop :=
  ∀ d ∈ resolving, ∀ n, (plainType b n d).isSome → (plain n).isSome

/-- What a quiet computation with memory does, beside the plain results at each depth. `depth` is how
long its own chains of looks can be. -/
structure Agrees {α : Type} (b : Bindings) (depth : Nat) (s : State) (plain : Nat → Option α)
    (r : α × State) : Prop where
  resolving : r.2.known.resolving = s.known.resolving
  quiet : r.2.quiet = s.quiet
  found : r.2.found = s.found
  sound : r.2.known.Sound b
  calm : r.2.Calm → s.Calm
  value : r.2.Calm → ∀ n a, plain n = some a → a = r.1
  complete : s.Calm → ∀ n ≤ depth, (plain n).isSome → r.2.Calm

namespace Agrees

variable {α : Type} {depth : Nat} {s : State}

/-- An answer that changes nothing. -/
theorem still (hs : s.known.Sound b) {plain : Nat → Option α} {a : α}
    (h : s.Calm → ∀ n x, plain n = some x → x = a) : Agrees b depth s plain (a, s) where
  resolving := rfl
  quiet := rfl
  found := rfl
  sound := hs
  calm := id
  value := h
  complete hc _ _ _ := hc

/-- An answer after which nothing is known, to what has no plain result. -/
theorem stray {plain : Nat → Option α} {a : α} {s' : State}
    (resolving : s'.known.resolving = s.known.resolving) (quiet : s'.quiet = s.quiet)
    (found : s'.found = s.found) (sound : s'.known.Sound b) (never : ¬s'.Calm)
    (none : ∀ n ≤ depth, plain n = none) : Agrees b depth s plain (a, s') where
  resolving := resolving
  quiet := quiet
  found := found
  sound := sound
  calm hc := absurd hc never
  value hc := absurd hc never
  complete _ n hn ht := by rw [none n hn] at ht; exact nomatch ht

/-- The plain result one level above. -/
theorem succ {plain above : Nat → Option α} {r : α × State} (h : Agrees b depth s plain r)
    (zero : above 0 = none) (succ : ∀ n, above (n + 1) = plain n) :
    Agrees b (depth + 1) s above r where
  resolving := h.resolving
  quiet := h.quiet
  found := h.found
  sound := h.sound
  calm := h.calm
  value hc n a ha := by
    cases n with
    | zero => rw [zero] at ha; exact nomatch ha
    | succ n => rw [succ] at ha; exact h.value hc n a ha
  complete hc n hn ha := by
    cases n with
    | zero => rw [zero] at ha; exact nomatch ha
    | succ n => rw [succ] at ha; exact h.complete hc n (Nat.le_of_succ_le_succ hn) ha

/-- One answer, and how to go on from it. -/
theorem ask {q : Question} {next : q.Answer → CheckM α} {self : Option Declaration}
    {first : q.Answer × State} {r : α × State}
    (hf : Agrees b depth s (fun n => plainAnswer b n self q) first)
    (hr : Agrees b depth first.2 (fun n => (next first.1).run (plainAnswer b n self)) r) :
    Agrees b depth s (fun n => (CheckM.ask q next).run (plainAnswer b n self)) r where
  resolving := hr.resolving.trans hf.resolving
  quiet := hr.quiet.trans hf.quiet
  found := hr.found.trans hf.found
  sound := hr.sound
  calm hc := hf.calm (hr.calm hc)
  value hc n a ha := by
    obtain ⟨x, hx, ha⟩ := Option.bind_eq_some_iff.mp ha
    rw [hf.value (hr.calm hc) n x hx] at ha
    exact hr.value hc n a ha
  complete hc n hn ha := by
    obtain ⟨a, ha⟩ := Option.isSome_iff_exists.mp ha
    obtain ⟨x, hx, ha⟩ := Option.bind_eq_some_iff.mp ha
    have calm := hf.complete hc n hn (Option.isSome_iff_exists.mpr ⟨x, hx⟩)
    rw [hf.value calm n x hx] at ha
    exact hr.complete calm n hn (Option.isSome_iff_exists.mpr ⟨a, ha⟩)

end Agrees

/-- Someone whose answers to the questions of quiet computations agree with the plain ones. -/
def AnswersPlainly (b : Bindings) (depth : Nat) (ans : (q : Question) → StateM State q.Answer) : Prop :=
  ∀ (q : Question) (s : State), s.quiet ≠ 0 → s.known.Sound b →
    (s.Calm → Needed b s.known.resolving fun n => plainAnswer b n s.known.resolving.head? q) →
    Agrees b depth s (fun n => plainAnswer b n s.known.resolving.head? q) ((ans q).run s)

/-- A part of a check goes on from the answers, so it agrees where they do. -/
theorem AnswersPlainly.run {depth : Nat} {ans : (q : Question) → StateM State q.Answer}
    (h : AnswersPlainly b depth ans) {α : Type} (c : CheckM α) {s : State} (hq : s.quiet ≠ 0)
    (hs : s.known.Sound b)
    (hn : s.Calm → Needed b s.known.resolving fun n => c.run (plainAnswer b n s.known.resolving.head?)) :
    Agrees b depth s (fun n => c.run (plainAnswer b n s.known.resolving.head?)) ((c.run ans).run s) := by
  induction c generalizing s with
  | done a => exact .still hs fun _ _ _ hx => (Option.some.inj hx).symm
  | ask q next ih =>
    have first := h q s hq hs fun hc d hd n hty => by
      obtain ⟨x, hx⟩ := Option.isSome_iff_exists.mp (hn hc d hd n hty)
      obtain ⟨a, ha, -⟩ := Option.bind_eq_some_iff.mp hx
      exact Option.isSome_iff_exists.mpr ⟨a, ha⟩
    have rest := ih ((ans q).run s).1 (s := ((ans q).run s).2) (first.quiet ▸ hq) first.sound
    rw [first.resolving] at rest
    refine first.ask (rest fun hc d hd n hty => ?_)
    obtain ⟨x, hx⟩ := Option.isSome_iff_exists.mp (hn (first.calm hc) d hd n hty)
    obtain ⟨a, ha, hx⟩ := Option.bind_eq_some_iff.mp hx
    rw [first.value hc n a ha] at hx
    exact Option.isSome_iff_exists.mpr ⟨x, hx⟩

/-! ## Remembering -/

/-- A declaration that needs its own type by way of another one has no plain type. -/
theorem plainType_eq_none {d : Declaration} {self : Option Declaration} (hself : self ≠ some d)
    (h : ∀ n, (plainType b n d).isSome → (plainAnswer b n self (.declared d)).isSome) (n : Nat) :
    plainType b n d = none := by
  induction n with
  | zero => exact Option.not_isSome_iff_eq_none.mp fun ht => Bool.noConfusion (h 0 ht)
  | succ n ih =>
    refine Option.not_isSome_iff_eq_none.mp fun ht => ?_
    have := h _ ht
    rw [plainAnswer_declared hself, ih] at this
    exact nomatch this

theorem remember_run (d : Declaration) (compute : StateM State Ty) (s : State) :
    (remember d compute).run s =
      match s.known.types.get? d with
      | some type => (type, s)
      | none =>
        if s.known.resolving.contains d then (.any, s)
        else ((compute.run (s.enter d)).1,
          (compute.run (s.enter d)).2.leave d (compute.run (s.enter d)).1) := by
  simp only [remember, StateT.run_bind, StateT.run_get, pure_bind]
  cases s.known.types.get? d with
  | some type => rfl
  | none =>
    dsimp only
    split <;> rfl

theorem State.calm_enter {s : State} {d : Declaration} : (s.enter d).Calm ↔ s.Calm :=
  ⟨fun h => ⟨h.exhausted, h.opened⟩, fun h => ⟨h.exhausted, h.opened⟩⟩

theorem State.calm_leave {s : State} {d : Declaration} {type : Ty} : (s.leave d type).Calm ↔ s.Calm :=
  ⟨fun h => ⟨h.exhausted, h.opened⟩, fun h => ⟨h.exhausted, h.opened⟩⟩

theorem Knowledge.Sound.enter {s : State} (h : s.known.Sound b) {d : Declaration}
    (hd : s.known.types.get? d = none) : (s.enter d).known.Sound b where
  untyped e he := (List.mem_cons.mp he).elim (fun heq => heq ▸ hd) (h.untyped e)
  bound := h.bound
  plain := h.plain

/-- A type that was worked out while nothing stood in the way may be remembered. -/
theorem Knowledge.Sound.leave {s : State} (h : s.known.Sound b) {d : Declaration} {type : Ty}
    {around : List Declaration} (hr : s.known.resolving = d :: around) (hd : d ∉ around)
    (hp : s.Calm → ∀ n plain, plainType b n d = some plain → plain = type) :
    (s.leave d type).known.Sound b where
  untyped e he := by
    rw [State.leave, hr, List.erase_cons_head] at he
    have old := h.untyped e (hr ▸ List.mem_cons_of_mem d he)
    rw [State.leave]
    dsimp only
    split
    · exact old
    · have hne : d ≠ e := by rintro rfl; exact hd he
      rwa [Dict.get?_insert_of_ne _ _ (beq_false_of_ne hne)]
  bound := h.bound
  plain ho e t ht := by
    rw [State.leave] at ht
    dsimp only at ht
    split at ht
    · exact h.plain ho e t ht
    · by_cases heq : d = e
      · subst heq
        rw [Dict.get?_insert_self] at ht
        cases ht
        exact hp ⟨Bool.eq_false_iff.mpr ‹_›, ho⟩
      · rw [Dict.get?_insert_of_ne _ _ (beq_false_of_ne heq)] at ht
        exact h.plain ho e t ht

/-- A type that is worked out now. -/
theorem agrees_compute {depth : Nat} {ans : (q : Question) → StateM State q.Answer}
    (h : AnswersPlainly b depth ans) {d : Declaration} {s : State} (hs : s.known.Sound b)
    (hd : s.known.types.get? d = none) (hnew : d ∉ s.known.resolving)
    (hn : s.Calm → Needed b s.known.resolving fun n => plainType b n d) {r : Ty × State}
    (hr : ((declarationRule d).run ans).run (s.enter d) = r) :
    Agrees b depth s (fun n => plainType b n d) (r.1, r.2.leave d r.1) := by
  have inner := h.run (declarationRule d) (s := s.enter d) (Nat.succ_ne_zero _) (hs.enter hd)
    fun hc e he n hty => by
      rcases List.mem_cons.mp he with rfl | he
      · exact hty
      · exact hn (State.calm_enter.mp hc) e he n hty
  rw [hr] at inner
  have resolving : r.2.known.resolving = d :: s.known.resolving := inner.resolving
  exact {
    resolving := by rw [State.leave, resolving, List.erase_cons_head]
    quiet := by rw [State.leave, inner.quiet]; rfl
    found := inner.found
    sound := inner.sound.leave resolving hnew inner.value
    calm := fun hc => State.calm_enter.mp (inner.calm (State.calm_leave.mp hc))
    value := fun hc => inner.value (State.calm_leave.mp hc)
    complete := fun hc n hn ht =>
      State.calm_leave.mpr (inner.complete (State.calm_enter.mpr hc) n hn ht) }

/-- Who needs to be told the type of a declaration needs the type. -/
theorem Needed.plainType {resolving : List Declaration} {self : Option Declaration} {d : Declaration}
    (hself : self ≠ some d) (h : Needed b resolving fun n => plainAnswer b n self (.declared d)) :
    Needed b resolving fun n => plainType b n d := by
  intro e he n hty
  obtain ⟨x, hx⟩ := Option.isSome_iff_exists.mp (h e he n hty)
  cases n with
  | zero => exact nomatch hx
  | succ n =>
    have hx : Check.plainType b n d = some x := plainAnswer_declared hself n ▸ hx
    exact Option.isSome_iff_exists.mpr ⟨x, run_plainAnswer_mono (Nat.le_succ n) hx⟩

/-- The type of a declaration, from memory or worked out now. -/
theorem agrees_remember {depth : Nat} {ans : (q : Question) → StateM State q.Answer}
    (h : AnswersPlainly b depth ans) {d : Declaration} {s : State} (hs : s.known.Sound b)
    (hn : s.Calm → Needed b s.known.resolving
      fun n => plainAnswer b n s.known.resolving.head? (.declared d)) :
    Agrees b (depth + 1) s (fun n => plainAnswer b n s.known.resolving.head? (.declared d))
      ((remember d ((declarationRule d).run ans)).run s) := by
  rw [remember_run]
  cases hd : s.known.types.get? d with
  | some type =>
    have hself : s.known.resolving.head? ≠ some d := fun hself =>
      nomatch (hs.untyped d (List.mem_of_mem_head? hself)).symm.trans hd
    refine .still hs fun hc n x hx => ?_
    cases n with
    | zero => exact nomatch hx
    | succ n => exact hs.plain hc.opened d type hd n x (plainAnswer_declared hself n ▸ hx)
  | none =>
    dsimp only
    split
    next hmem =>
      -- The declaration is being worked out: it is the innermost one, or it has no plain type.
      refine .still hs fun hc n x hx => ?_
      cases n with
      | zero => exact nomatch hx
      | succ n =>
        by_cases hself : s.known.resolving.head? = some d
        · rw [plainAnswer, if_pos hself] at hx
          exact (Option.some.inj hx).symm
        · rw [plainAnswer_declared hself,
            plainType_eq_none hself (hn hc d (List.contains_iff_mem.mp hmem)) n] at hx
          cases hx
    next hmem =>
      have hnew : d ∉ s.known.resolving := fun hd => hmem (List.contains_iff_mem.mpr hd)
      have hself : s.known.resolving.head? ≠ some d := fun hself => hnew (List.mem_of_mem_head? hself)
      exact (agrees_compute h hs hd hnew (fun hc => (hn hc).plainType hself) rfl).succ rfl
        (plainAnswer_declared hself)

/-! ## Quiet answers -/

theorem State.find_of_quiet {s : State} (h : s.quiet ≠ 0) (change : Findings → Findings) :
    s.find change = s := if_neg h

/-- Binding a body for good leaves a trace. -/
theorem Bindings.opened_openBody_ne {b : Bindings} {body : Body} {parent : ScopeId} {file : Path} :
    (b.openBody body parent file).opened ≠ [] := by
  rw [openBody]
  dsimp only
  split
  next h => exact fun he => by simp [he] at h
  next => exact List.cons_ne_nil _ _

theorem Knowledge.Sound.openBody {s : State} (h : s.known.Sound b) (body : Body) (parent : ScopeId)
    (file : Path) : (s.openBody body parent file).known.Sound b :=
  ⟨h.untyped, fun ho => absurd ho Bindings.opened_openBody_ne,
    fun ho => absurd ho Bindings.opened_openBody_ne⟩

/-- What has no answer because the chain of looks is too long. -/
theorem agrees_exhausted {α : Type} {s : State} (hs : s.known.Sound b) {plain : Nat → Option α} {a : α}
    (h : plain 0 = none) : Agrees b 0 s plain (a, { s with exhausted := true }) :=
  .stray rfl rfl rfl hs (fun hc => nomatch hc.exhausted) fun _ hn => Nat.le_zero.mp hn ▸ h

/-- Whether a question can be settled without another rule. -/
def Question.isPlain : Question → Bool
  | judge _ => false
  | declared _ => false
  | _ => true

theorem agrees_isPlain {q : Question} (h : q.isPlain) (file : Path) (depth : Nat) {s : State}
    (hq : s.quiet ≠ 0) (hs : s.known.Sound b) (self : Option Declaration) :
    Agrees b depth s (fun n => plainAnswer b n self q) ((answer file depth q).run s) := by
  cases q with
  | judge => exact nomatch h
  | declared => exact nomatch h
  | bindings =>
    rw [answer]
    refine .still hs fun hc n x hx => ?_
    rw [plainAnswer] at hx
    rw [← Option.some.inj hx]
    exact (hs.bound hc.opened).symm
  | isQuiet =>
    rw [answer]
    refine .still hs fun hc n x hx => ?_
    rw [plainAnswer] at hx
    rw [← Option.some.inj hx]
    exact (decide_eq_true hq).symm
  | report fault span =>
    rw [answer]
    change Agrees b depth s _ ((), s.find _)
    rw [State.find_of_quiet hq]
    exact .still hs fun _ _ _ _ => rfl
  | use binding =>
    rw [answer]
    change Agrees b depth s _ ((), s.find _)
    rw [State.find_of_quiet hq]
    exact .still hs fun _ _ _ _ => rfl
  | openBody body parent =>
    rw [answer]
    exact .stray rfl rfl rfl (hs.openBody body parent file)
      (fun hc => Bindings.opened_openBody_ne hc.opened) fun n _ => by rw [plainAnswer]

theorem answersPlainly_answer (b : Bindings) (file : Path) (depth : Nat) :
    AnswersPlainly b depth (answer file depth) := by
  induction depth with
  | zero =>
    intro q s hq hs _
    cases q with
    | judge j => exact agrees_exhausted hs rfl
    | declared d => exact agrees_exhausted hs rfl
    | _ => exact agrees_isPlain rfl file 0 hq hs _
  | succ depth ih =>
    intro q s hq hs hn
    cases q with
    | judge j =>
      refine Agrees.succ (ih.run (rule j) hq hs fun hc d hd n hty => ?_) rfl fun _ => rfl
      obtain ⟨x, hx⟩ := Option.isSome_iff_exists.mp (hn hc d hd n hty)
      exact Option.isSome_iff_exists.mpr ⟨x, plainAnswer_succ n _ (.judge j) x hx⟩
    | declared d => exact agrees_remember ih hs hn
    | _ => exact agrees_isPlain rfl file (depth + 1) hq hs _

end Recheck.Check
