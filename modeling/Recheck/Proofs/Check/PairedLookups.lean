import Recheck.Proofs.Check.Files
import Recheck.Proofs.Check.Lookups
import Recheck.Proofs.Check.Pairing
import Recheck.Proofs.Check.Reexports

/-!
# Looking names up in two programs

A lookup has a budget that is computed from all scopes of a program. It is always enough (`Valid.findOutwards_eq`,
`Bindings.exportLookup_eq`), so a lookup that starts from corresponding places in two programs goes on in step, and what it
finds corresponds.
-/

set_option autoImplicit false

/-!
## Files and bodies in two programs

The files of the core get scopes that correspond and are bound alike, and so are bodies (`Pairing.Ready.openBody`). The table
of a plain body follows from the body, so in both programs it holds the same (`Pairing.agree_plain`). With that, what the
checker finds under corresponding scopes corresponds.
-/

namespace Recheck.Check

open Syntax

namespace Pairing

variable {core : Path → Prop} {w : Pairing core} {b b' : Bindings} {id id' : ScopeId} {n : Nat}

/-! ## Before the files -/

/-- Which of the first scopes correspond. -/
theorem first_scopes {m m' : Nat} (h : w.main m m') : (m = 0 ∧ m' = 0) ∨ (m = 1 ∧ m' = 1) ∨ (2 ≤ m ∧ 2 ≤ m') := by
  have hlib := w.unique h w.lib
  have hglobal := w.unique h w.global
  omega

theorem agree_start {p q : Program} (h : p.ShareCore core q) : w.Agree (Bindings.start p) (Bindings.start q) where
  program := h
  table hid := by
    cases hid with
    | main => exact Iff.rfl
    | inner => exact Iff.rfl
  scope hid := by
    cases hid with
    | inner => exact .none
    | @main m m' hm =>
      rcases first_scopes hm with ⟨rfl, rfl⟩ | ⟨rfl, rfl⟩ | ⟨hle, hle'⟩
      · refine .some ⟨.none, fun name => ?_, fun name => ?_, fun _ => rfl, nofun, (Ready.contents_inside .none).exports⟩
        · change Option.Rel w.Values (builtinValues.get? name) (builtinValues.get? name)
          cases hget : builtinValues.get? name with
          | none => exact .none
          | some symbol =>
            obtain ⟨builtin, rfl⟩ := exists_builtin_value hget
            exact .some (.builtin builtin)
        · change Option.Rel w.Types (builtinTypes.get? name) (builtinTypes.get? name)
          cases hget : builtinTypes.get? name with
          | none => exact .none
          | some symbol =>
            obtain ⟨builtin, rfl⟩ := exists_builtin_type hget
            exact .some (.builtin builtin)
      · exact .some (Ready.contents_inside (.some .lib))
      · have hnone (r : Program) {i : Nat} (hi : 2 ≤ i) : (Bindings.start r).scopeIn? (.main i) = none :=
          Array.getElem?_eq_none_iff.mpr hi
        rw [hnone p hle, hnone q hle']
        exact .none
  module hid key _ := by
    cases hid with
    | main => exact .none
    | inner => exact .none
  redeclared hid key _ := by
    cases hid with
    | main => exact Iff.rfl
    | inner => exact Iff.rfl
  opened _ := ⟨nofun, nofun⟩
  fileScopes _ _ := .none
  modules _ _ := .none
  ambient := .nil

namespace Ready

/-! ## Files -/

theorem insertPath {d d' : Dict Path ScopeId} (h : ∀ path, core path → Option.Rel w.Scopes (d.get? path) (d'.get? path))
    (unitPath : Path) {scope scope' : ScopeId} (hscope : w.Scopes scope scope') (path : Path) (hpath : core path) :
    Option.Rel w.Scopes ((d.insert unitPath scope).get? path) ((d'.insert unitPath scope').get? path) := by
  rw [Dict.get?_insert, Dict.get?_insert]
  split
  · exact .some hscope
  · exact h path hpath

theorem openFile (h : w.Ready n b b') (unit : SourceUnit) (hn : (Bindings.openFile b unit).main.scopes.size ≤ n) :
    w.Ready n (Bindings.openFile b unit) (Bindings.openFile b' unit) := by
  unfold Bindings.openFile at hn ⊢
  split
  · rename_i hmodule
    rw [if_pos hmodule] at hn
    have hnew := h.scopes_newScope .global hn
    have hopened := h.newScope .global hn
    exact ⟨{ hopened.toAgree with
      fileScopes := insertPath hopened.fileScopes unit.path hnew
      modules := insertPath hopened.modules unit.path hnew }, hopened.aligned⟩
  · exact ⟨{ h.toAgree with fileScopes := insertPath h.fileScopes unit.path .global }, h.aligned⟩

theorem scopes_getD {o o' : Option ScopeId} (h : Option.Rel w.Scopes o o') {scope scope' : ScopeId}
    (hscope : w.Scopes scope scope') : w.Scopes (o.getD scope) (o'.getD scope') := by
  cases h with
  | some h => exact h
  | none => exact hscope

theorem bindFile (h : w.Ready n b b') {unit : SourceUnit} (hunit : core unit.path)
    (hn : (Bindings.bindFile b unit).main.scopes.size ≤ n) :
    w.Ready n (Bindings.bindFile b unit) (Bindings.bindFile b' unit) := by
  have hplace : w.Places (b.filePlace unit) (b'.filePlace unit) :=
    ⟨scopes_getD (h.fileScopes _ hunit) .global, h.modules _ hunit, rfl, rfl, hunit, hunit, rfl⟩
  exact h.bindBody hplace _ hn

/-! ## Bodies -/

theorem bindTypeParams (h : w.Ready n b b') (hid : w.Scopes id id') (names : List Ident) :
    w.Ready n (Bindings.bindTypeParams id names b) (Bindings.bindTypeParams id' names b') :=
  foldl names h fun _ _ hc _ _ => hc.putType hid .typeParam

theorem bindParams (h : w.Ready n b b') {site site' : Site} (hsite : w.Sites site site') (params : List Param) :
    w.Ready n (Bindings.bindParams site params b) (Bindings.bindParams site' params b') :=
  foldl params h fun _ _ hc _ _ => hc.putValue hsite.scope (.param hsite)

variable {body : Body} {parent parent' : ScopeId}

theorem withBody (h : w.Ready n b b') (hfile : core body.key.file) (hparent : w.Scopes parent parent') :
    w.Ready n (b.withBody body parent) (b'.withBody body parent') := by
  have hbody : w.Scopes (.inner body parent 0) (.inner body parent' 0) := .inner hfile hparent
  have hhas (c : Bindings) (p x : ScopeId) : (c.withBody body p).HasTable x ↔ x.home = .inner body p 0 ∨ c.HasTable x := by
    cases x with
    | main => exact ⟨fun _ => .inr trivial, fun _ => trivial⟩
    | inner body' p' i =>
      change ((c.bodies.insert _ _).get? _).isSome = true ↔ _
      rw [Dict.get?_insert]
      split
      · rename_i heq
        exact ⟨fun _ => .inl (beq_iff_eq.mp heq).symm, fun _ => rfl⟩
      · rename_i hne
        exact ⟨.inr, fun hor => hor.resolve_left fun heq => hne (beq_iff_eq.mpr heq.symm)⟩
  have hhome {x x' : ScopeId} (hx : w.Scopes x x') : x.home = .inner body parent 0 ↔ x'.home = .inner body parent' 0 :=
    hx.home_eq_iff hbody
  refine ⟨h.toAgree.of_tables rfl rfl (fun hx => ?_) fun {x x'} hx => ?_, h.aligned⟩
  · rw [hhas, hhas, hhome hx, h.table hx]
  · rw [Bindings.tableOf_withBody, Bindings.tableOf_withBody]
    by_cases heq : x.home = .inner body parent 0
    · rw [if_pos heq, if_pos ((hhome hx).mp heq)]
      refine ⟨fun {i i'} hi => ?_, fun _ _ => .none, fun _ _ => Iff.rfl⟩
      have hindex : i = 0 ↔ i' = 0 := by
        have hiff := hi.eq_iff hbody
        rw [ScopeId.eq_iff_home, ScopeId.eq_iff_home (x'.beside i')] at hiff
        simp only [ScopeId.home_beside, ScopeId.index_beside, heq, (hhome hx).mp heq] at hiff
        exact ⟨fun h0 => (hiff.mp ⟨rfl, h0⟩).2, fun h0 => (hiff.mpr ⟨rfl, h0⟩).2⟩
      cases i with
      | zero =>
        rw [hindex.mp rfl]
        exact .some (Ready.contents_inside (.some hparent))
      | succ i =>
        obtain ⟨i', rfl⟩ := Nat.exists_eq_succ_of_ne_zero fun h0 => Nat.succ_ne_zero i (hindex.mpr h0)
        exact .none
    · rw [if_neg heq, if_neg fun heq' => heq ((hhome hx).mpr heq')]
      exact h.tables hx

theorem bindInner (h : w.Ready n b b') (hfile : core body.key.file) (hparent : w.Scopes parent parent') {importer : Path}
    (himporter : core importer) (hn : (Bindings.bindInner body parent importer b).main.scopes.size ≤ n) :
    w.Ready n (Bindings.bindInner body parent importer b) (Bindings.bindInner body parent' importer b') := by
  have hscope : w.Scopes (.inner body parent 0) (.inner body parent' 0) := .inner hfile hparent
  have hsite : w.Sites ⟨body.key.file, .inner body parent 0⟩ ⟨body.key.file, .inner body parent' 0⟩ := ⟨rfl, hfile, hscope⟩
  have hnames := ((h.withBody hfile hparent).bindTypeParams hscope body.typeParams).bindParams hsite body.params
  have hplace : w.Places ⟨.inner body parent 0, none, body.key.file, importer, false⟩
      ⟨.inner body parent' 0, none, body.key.file, importer, false⟩ :=
    ⟨hscope, .none, rfl, rfl, himporter, hfile, rfl⟩
  exact hnames.bindBody hplace body.statements hn

theorem openBody (h : w.Ready n b b') (hfile : core body.key.file) (hparent : w.Scopes parent parent') {importer : Path}
    (himporter : core importer) (hn : (Bindings.bindInner body parent importer b).main.scopes.size ≤ n) :
    w.Ready n (b.openBody body parent importer) (b'.openBody body parent' importer) := by
  have hbody : w.Scopes (.inner body parent 0) (.inner body parent' 0) := .inner hfile hparent
  have hopened := h.opened hbody
  unfold Bindings.openBody
  simp only [List.contains_iff_mem]
  by_cases hmem : ScopeId.inner body parent 0 ∈ b.opened
  · rw [if_pos hmem, if_pos (hopened.mp hmem)]
    exact h
  · rw [if_neg hmem, if_neg fun hmem' => hmem (hopened.mpr hmem')]
    have hbound := h.bindInner hfile hparent himporter hn
    refine ⟨{ hbound.toAgree with opened := fun {x x'} hx => ?_ }, hbound.aligned⟩
    rw [List.mem_cons, List.mem_cons, hx.eq_iff hbody, h.opened hx]

end Ready

/-! ## Under corresponding scopes -/

/-- Binding a plain body binds the same in both programs. -/
theorem agree_plain {body : Body} {parent parent' : ScopeId} (hplain : body.isPlain = true) (hfile : core body.key.file)
    (hparent : w.Scopes parent parent') :
    w.Agree (Bindings.bindInner body parent body.key.file (Bindings.start default))
      (Bindings.bindInner body parent' body.key.file (Bindings.start default)) := by
  have hdefault : Program.ShareCore core default default := ⟨rfl, fun _ _ _ => rfl, nofun⟩
  have hstart : w.Ready 2 (Bindings.start default) (Bindings.start default) :=
    ⟨agree_start hdefault, fun j hj => absurd hj (Nat.not_lt.mpr (Nat.le_add_right 2 j))⟩
  have hmain : (Bindings.bindInner body parent body.key.file (Bindings.start default)).main = (Bindings.start default).main :=
    (binds_plain hplain).tables (.main 0) nofun
  exact (hstart.bindInner hfile hparent hfile (Nat.le_of_eq (congrArg (·.scopes.size) hmain))).toAgree

namespace Agree

/-- Where the table of a scope comes from, it agrees. -/
theorem source (h : w.Agree b b') (hid : w.Scopes id id') : w.Agree (b.source id) (b'.source id') := by
  cases hid with
  | main => exact h
  | @inner body parent parent' i hfile hparent =>
    unfold Bindings.source
    by_cases hplain : body.isPlain = true
    · simp only [if_pos hplain]
      exact agree_plain hplain hfile hparent
    · simp only [if_neg hplain]
      exact h

theorem scopeAt? (h : w.Agree b b') (hid : w.Scopes id id') : Option.Rel w.Contents (b.scopeAt? id) (b'.scopeAt? id') := by
  rw [Bindings.scopeAt?_eq, Bindings.scopeAt?_eq]
  exact (h.source hid).scope hid

theorem moduleScope? (h : w.Agree b b') (hid : w.Scopes id id') {key : NodeKey} (hkey : core key.file) :
    Option.Rel w.Scopes (b.moduleScope? id key) (b'.moduleScope? id' key) := by
  rw [Bindings.moduleScope?_eq, Bindings.moduleScope?_eq]
  exact (h.source hid).module hid key hkey

theorem isRedeclared (h : w.Agree b b') (hid : w.Scopes id id') {key : NodeKey} (hkey : core key.file) :
    b.isRedeclared id key = b'.isRedeclared id' key := by
  unfold Bindings.isRedeclared
  rw [Bindings.tableAt_eq, Bindings.tableAt_eq, Bool.eq_iff_iff, List.contains_iff_mem, List.contains_iff_mem]
  exact (h.source hid).redeclared hid key hkey

end Agree

end Pairing

end Recheck.Check

namespace Recheck.Check

open Syntax

/-! ## Outwards -/

section

variable {b : Bindings} {id : ScopeId}

/-- In valid bindings each scope lies in an earlier one of its table, or in the one around the body. -/
theorem Valid.outer (h : Valid b) {s : Scope} (hs : b.scopeAt? id = some s) : Rights.Outer id s := by
  cases id with
  | main n => exact (h.bound.scope (.main n) s (.inl rfl) hs).outer
  | inner body parent n =>
    rw [Bindings.scopeAt?_eq, Bindings.source] at hs
    split at hs
    · rename_i hplain
      exact ((binds_plain hplain).bound.scope (.inner body parent n) s rfl hs).outer
    · rcases h.closed (.inner body parent n) with hscope | hempty
      · exact (h.bound.scope _ s hscope hs).outer
      · rw [Bindings.scopeIn?, hempty] at hs
        cases hs

/-- At least the number of scopes from a scope outwards. -/
def Bindings.rank (b : Bindings) : ScopeId → Nat
  | .main n => if n < b.main.scopes.size then n + 1 else 0
  | .inner _ parent n => n + 1 + b.rank parent

theorem Bindings.rank_le (b : Bindings) (id : ScopeId) : b.rank id ≤ id.depth + b.main.scopes.size := by
  induction id with
  | main n =>
    simp only [rank, ScopeId.depth]
    split <;> omega
  | inner body parent n ih =>
    simp only [rank, ScopeId.depth]
    omega

theorem Bindings.rank_pos {s : Scope} (hs : b.scopeAt? id = some s) : 0 < b.rank id := by
  cases id with
  | main n =>
    have hlt : n < b.main.scopes.size := (Array.getElem?_eq_some_iff.mp hs).1
    simp only [rank, if_pos hlt]
    omega
  | inner body parent n =>
    simp only [rank]
    omega

theorem Valid.rank_lt (h : Valid b) {s : Scope} (hs : b.scopeAt? id = some s) {parent : ScopeId}
    (hparent : s.parent = some parent) : b.rank parent < b.rank id := by
  have houter := h.outer hs
  unfold Rights.Outer at houter
  split at houter
  · exact nomatch houter.1.symm.trans hparent
  · cases houter.symm.trans hparent
    simp only [Bindings.rank]
    omega
  · obtain ⟨m, hm, hs'⟩ := houter
    cases hs'.symm.trans hparent
    cases id with
    | main n =>
      have hlt : n < b.main.scopes.size := (Array.getElem?_eq_some_iff.mp hs).1
      have hm : m < n := hm
      simp only [Bindings.rank, ScopeId.beside, if_pos hlt, if_pos (hm.trans hlt)]
      omega
    | inner body around n =>
      have hm : m < n := hm
      simp only [Bindings.rank, ScopeId.beside]
      omega

/-- A lookup outwards ends before its budget does. -/
theorem Valid.findOutwards_eq (h : Valid b) {α : Type} (get : Scope → Option α) {n m : Nat} (hn : b.rank id ≤ n)
    (hm : b.rank id ≤ m) : b.findOutwards get n id = b.findOutwards get m id := by
  induction n generalizing id m with
  | zero =>
    cases m with
    | zero => rfl
    | succ m =>
      have hnone : b.scopeAt? id = none := by
        cases hs : b.scopeAt? id with
        | none => rfl
        | some s => exact absurd (Bindings.rank_pos hs) (by omega)
      simp only [Bindings.findOutwards, hnone]
  | succ n ih =>
    cases hs : b.scopeAt? id with
    | none => cases m <;> simp only [Bindings.findOutwards, hs]
    | some s =>
      obtain ⟨m, rfl⟩ : ∃ k, m = k + 1 := ⟨m - 1, by have := Bindings.rank_pos hs; omega⟩
      simp only [Bindings.findOutwards, hs]
      cases hget : get s with
      | some symbol => rfl
      | none =>
        cases hparent : s.parent with
        | none => rfl
        | some parent =>
          have hlt := h.rank_lt hs hparent
          exact ih (by omega) (by omega)

end

/-! ## Exports -/

namespace Bindings

variable {b : Bindings} {α : Type}

theorem seen_firstAnswer {look : ModuleRef → List ScopeId → Lookup α × List ScopeId}
    (hlook : ∀ ref seen, seen ⊆ (look ref seen).2) (refs : List ModuleRef) (seen : List ScopeId) :
    seen ⊆ (firstAnswer look refs seen).2 := by
  induction refs generalizing seen with
  | nil => exact fun _ h => h
  | cons ref refs ih =>
    have hfirst := hlook ref seen
    unfold firstAnswer
    split
    · rename_i heq
      rw [heq] at hfirst
      exact List.Subset.trans hfirst (ih _)
    · exact hfirst

theorem seen_exportLookup (get : Exports → Option α) (follow : Bool) (n : Nat) (ref : ModuleRef) (seen : List ScopeId) :
    seen ⊆ (b.exportLookup get follow n ref seen).2 := by
  induction n generalizing ref seen with
  | zero => exact fun _ h => h
  | succ n ih =>
    cases ref with
    | untyped | unresolved => exact fun _ h => h
    | container c =>
      rw [exportLookup_container]
      split
      · exact fun _ h => h
      · split
        · exact List.subset_cons_self c seen
        · have hinside := seen_firstAnswer (fun ref seen => ih ref seen) (b.passedOn follow c) (c :: seen)
          split
          · rename_i heq
            rw [heq] at hinside
            exact List.Subset.trans (List.subset_cons_self c seen) hinside
          · exact List.Subset.trans (List.subset_cons_self c seen) hinside

theorem firstAnswer_congr {look look' : ModuleRef → List ScopeId → Lookup α × List ScopeId} {refs : List ModuleRef}
    {seen : List ScopeId} (hgrows : ∀ ref seen, seen ⊆ (look ref seen).2)
    (h : ∀ ref ∈ refs, ∀ later, seen ⊆ later → look ref later = look' ref later) :
    firstAnswer look refs seen = firstAnswer look' refs seen := by
  induction refs generalizing seen with
  | nil => rfl
  | cons ref refs ih =>
    have hfirst := hgrows ref seen
    unfold firstAnswer
    rw [← h ref List.mem_cons_self seen fun _ hc => hc]
    split
    · rename_i later heq
      rw [heq] at hfirst
      exact ih fun ref' href' later' hlater => h ref' (List.mem_cons_of_mem _ href') later' (List.Subset.trans hfirst hlater)
    · rfl

/-- A lookup of an export ends before its budget does, as long as there is a level for each scope that is still to come. -/
theorem exportLookup_eq (get : Exports → Option α) (follow : Bool) {n m : Nat} {ref : ModuleRef} {seen : List ScopeId}
    (hn : Visits.unseen b.boundScopes seen < n) (hm : Visits.unseen b.boundScopes seen < m) :
    b.exportLookup get follow n ref seen = b.exportLookup get follow m ref seen := by
  induction n generalizing m ref seen with
  | zero => exact absurd hn (Nat.not_lt_zero _)
  | succ n ih =>
    obtain ⟨m, rfl⟩ : ∃ k, m = k + 1 := ⟨m - 1, by omega⟩
    cases ref with
    | untyped | unresolved => rfl
    | container c =>
      rw [exportLookup_container, exportLookup_container]
      split
      · rfl
      · rename_i hnew
        have hinside : firstAnswer (b.exportLookup get follow n) (b.passedOn follow c) (c :: seen) =
            firstAnswer (b.exportLookup get follow m) (b.passedOn follow c) (c :: seen) := by
          cases hrefs : b.passedOn follow c with
          | nil => rfl
          | cons first rest =>
            have hmem : c ∈ b.boundScopes := by
              refine mem_boundScopes fun hstars => ?_
              rw [passedOn, hstars] at hrefs
              cases follow <;> cases hrefs
            have hlt := Visits.unseen_lt hmem (by simpa using hnew : c ∉ seen)
            refine firstAnswer_congr (seen_exportLookup get follow n) fun ref' _ later hlater => ?_
            have hle : Visits.unseen b.boundScopes later ≤ Visits.unseen b.boundScopes (c :: seen) := Visits.unseen_le hlater
            exact ih (by omega) (by omega)
        rw [hinside]

theorem unseen_lt_size (b : Bindings) : Visits.unseen b.boundScopes [] < b.size + 1 :=
  Nat.lt_succ_of_le (b.length_boundScopes ▸ List.countP_le_length)

end Bindings

/-! ## In step -/

/-- Answers about exports that correspond. -/
inductive Lookup.Related {α α' : Type} (R : α → α' → Prop) : Lookup α → Lookup α' → Prop
  | found {x : α} {x' : α'} (h : R x x') : Related R (.found x) (.found x')
  | missing : Related R .missing .missing
  | unknown : Related R .unknown .unknown

namespace Pairing

variable {core : Path → Prop} {w : Pairing core} {b b' : Bindings} {id id' : ScopeId} {ref ref' : ModuleRef}

/-- Valid bindings that agree. -/
structure Known (w : Pairing core) (b b' : Bindings) : Prop where
  agree : w.Agree b b'
  left : Valid b
  right : Valid b'

theorem Refs.eq_unresolved_iff (h : w.Refs ref ref') : ref = .unresolved ↔ ref' = .unresolved := by
  cases h <;> simp

namespace Agree

theorem findOutwards (h : w.Agree b b') {α α' : Type} {R : α → α' → Prop} {get : Scope → Option α} {get' : Scope → Option α'}
    (hget : ∀ s s', w.Contents s s' → Option.Rel R (get s) (get' s')) (n : Nat) (hid : w.Scopes id id') :
    Option.Rel R (b.findOutwards get n id) (b'.findOutwards get' n id') := by
  induction n generalizing id id' with
  | zero => exact .none
  | succ n ih =>
    unfold Bindings.findOutwards
    obtain ⟨hs, hs'⟩ | ⟨s, s', hs, hs', hrel⟩ := none_or_some_of_rel (h.scopeAt? hid)
    · rw [hs, hs']
      exact .none
    · rw [hs, hs']
      dsimp only
      obtain ⟨hx, hx'⟩ | ⟨x, x', hx, hx', hR⟩ := none_or_some_of_rel (hget s s' hrel)
      · rw [hx, hx']
        obtain ⟨hp, hp'⟩ | ⟨parent, parent', hp, hp', hparent⟩ := none_or_some_of_rel hrel.parent
        · rw [hp, hp']
          exact .none
        · rw [hp, hp']
          exact ih hparent
      · rw [hx, hx']
        exact .some hR

end Agree

namespace Known

theorem findOutwards (h : w.Known b b') {α α' : Type} {R : α → α' → Prop} {get : Scope → Option α} {get' : Scope → Option α'}
    (hget : ∀ s s', w.Contents s s' → Option.Rel R (get s) (get' s')) (hid : w.Scopes id id') :
    Option.Rel R (b.findOutwards get (id.depth + b.main.scopes.size) id)
      (b'.findOutwards get' (id'.depth + b'.main.scopes.size) id') := by
  rw [h.left.findOutwards_eq get (b.rank_le id) ((b.rank_le id).trans (Nat.le_add_right _ (id'.depth + b'.main.scopes.size))),
    h.right.findOutwards_eq get' (b'.rank_le id') ((b'.rank_le id').trans (Nat.le_add_left _ (id.depth + b.main.scopes.size)))]
  exact h.agree.findOutwards hget _ hid

theorem lookupValue (h : w.Known b b') (hid : w.Scopes id id') (name : String) :
    Option.Rel w.Values (b.lookupValue id name) (b'.lookupValue id' name) :=
  h.findOutwards (fun _ _ hs => hs.values name) hid

theorem lookupType (h : w.Known b b') (hid : w.Scopes id id') (name : String) :
    Option.Rel w.Types (b.lookupType id name) (b'.lookupType id' name) :=
  h.findOutwards (fun _ _ hs => hs.types name) hid

end Known

namespace Agree

theorem interfaceDecls (h : w.Agree b b') (hid : w.Scopes id id') (name : String) :
    b.interfaceDecls id name = b'.interfaceDecls id' name ∧ ∀ d ∈ b.interfaceDecls id name, core d.2 := by
  unfold Bindings.interfaceDecls
  obtain ⟨hs, hs'⟩ | ⟨s, s', hs, hs', hrel⟩ := none_or_some_of_rel (h.scopeAt? hid)
  · rw [hs, hs']
    exact ⟨rfl, nofun⟩
  · rw [hs, hs']
    refine ⟨congrArg (·.getD []) (hrel.interfaces name), fun d hd => ?_⟩
    cases hget : s.interfaces.get? name with
    | none =>
      rw [Option.bind_some, hget] at hd
      exact nomatch hd
    | some decls =>
      rw [Option.bind_some, hget] at hd
      exact hrel.files name decls hget d hd

/-! ### Modules -/

theorem ambientModule? (h : w.Agree b b') (specifier : String) :
    Option.Rel w.Refs (b.ambientModule? specifier) (b'.ambientModule? specifier) := by
  have hfind {xs ys : List (String × ModuleRef)} (hxy : List.Forall₂ w.Ambient xs ys) :
      Option.Rel w.Ambient (xs.find? (·.1 = specifier)) (ys.find? (·.1 = specifier)) := by
    induction hxy with
    | nil => exact .none
    | cons hx _ ih =>
      rw [List.find?_cons, List.find?_cons, hx.name]
      split
      · exact .some hx
      · exact ih
  have hfilter {xs ys : List (String × ModuleRef)} (hxy : List.Forall₂ w.Ambient xs ys) (P : String → Bool) :
      List.Forall₂ w.Ambient (xs.filter fun x => P x.1) (ys.filter fun x => P x.1) := by
    induction hxy with
    | nil => exact .nil
    | cons hx _ ih =>
      rw [List.filter_cons, List.filter_cons, hx.name]
      split
      · exact .cons hx ih
      · exact ih
  have hbest {xs ys : List (String × ModuleRef)} (hxy : List.Forall₂ w.Ambient xs ys) {best best' : Option (String × ModuleRef)}
      (h : Option.Rel w.Ambient best best') :
      Option.Rel w.Ambient (xs.foldl Bindings.moreSpecific best) (ys.foldl Bindings.moreSpecific best') := by
    induction hxy generalizing best best' with
    | nil => exact h
    | cons hx _ ih =>
      refine ih ?_
      cases h with
      | none => exact .some hx
      | some hb =>
        unfold Bindings.moreSpecific
        dsimp only
        rw [hx.name, hb.name]
        split
        · exact .some hb
        · exact .some hx
  unfold Bindings.ambientModule?
  obtain ⟨hx, hx'⟩ | ⟨x, x', hx, hx', hrel⟩ := none_or_some_of_rel (hfind h.ambient)
  · rw [hx, hx']
    have hlongest := hbest (hfilter h.ambient fun name => name.toList.contains '*' && Resolve.ambientMatches name specifier) .none
    obtain ⟨hy, hy'⟩ | ⟨y, y', hy, hy', hrel⟩ := none_or_some_of_rel hlongest
    · dsimp only
      rw [hy, hy']
      exact .none
    · dsimp only
      rw [hy, hy']
      exact .some hrel.ref
  · rw [hx, hx']
    exact .some hrel.ref

theorem moduleRef (h : w.Agree b b') {importer : Path} (himporter : core importer) (specifier : String) :
    w.Refs (b.moduleRef importer specifier) (b'.moduleRef importer specifier) := by
  unfold Bindings.moduleRef
  rw [← h.program.target importer specifier himporter]
  cases htarget : b.program.target? importer specifier with
  | none =>
    obtain ⟨hx, hx'⟩ | ⟨x, x', hx, hx', hrel⟩ := none_or_some_of_rel (h.ambientModule? specifier)
    · dsimp only
      rw [hx, hx']
      exact .unresolved
    · dsimp only
      rw [hx, hx']
      exact hrel
  | some target =>
    have hcore := h.program.closed importer specifier target himporter htarget
    dsimp only
    obtain ⟨hx, hx'⟩ | ⟨x, x', hx, hx', hrel⟩ := none_or_some_of_rel (h.modules target hcore)
    · rw [hx, hx']
      dsimp only
      unfold Dict.contains
      obtain ⟨hy, hy'⟩ | ⟨y, y', hy, hy', -⟩ := none_or_some_of_rel (h.fileScopes target hcore)
      · rw [hy, hy']
        exact .unresolved
      · rw [hy, hy']
        exact .untyped
    · rw [hx, hx']
      exact .container hrel

theorem exportsOf (h : w.Agree b b') (hid : w.Scopes id id') : w.Offers (b.exportsOf id) (b'.exportsOf id') := by
  unfold Bindings.exportsOf
  obtain ⟨hs, hs'⟩ | ⟨s, s', hs, hs', hrel⟩ := none_or_some_of_rel (h.scopeAt? hid)
  · rw [hs, hs']
    exact (Ready.contents_inside .none).exports
  · rw [hs, hs']
    exact hrel.exports

theorem passedOn (h : w.Agree b b') (follow : Bool) (hid : w.Scopes id id') :
    List.Forall₂ w.Refs (b.passedOn follow id) (b'.passedOn follow id') := by
  unfold Bindings.passedOn
  split
  · have hoffers := h.exportsOf hid
    rw [← hoffers.stars, List.forall₂_map_left_iff, List.forall₂_map_right_iff, List.forall₂_same]
    exact fun star hstar => h.moduleRef (hoffers.importers star hstar) star.2
  · exact .nil

section

variable {α α' : Type} {R : α → α' → Prop}

theorem firstAnswer {look : ModuleRef → List ScopeId → Lookup α × List ScopeId}
    {look' : ModuleRef → List ScopeId → Lookup α' × List ScopeId}
    (hlook : ∀ {ref ref' seen seen'}, w.Refs ref ref' → List.Forall₂ w.Scopes seen seen' →
      Lookup.Related R (look ref seen).1 (look' ref' seen').1 ∧ List.Forall₂ w.Scopes (look ref seen).2 (look' ref' seen').2)
    {refs refs' : List ModuleRef} (hrefs : List.Forall₂ w.Refs refs refs') {seen seen' : List ScopeId}
    (hseen : List.Forall₂ w.Scopes seen seen') :
    Lookup.Related R (Bindings.firstAnswer look refs seen).1 (Bindings.firstAnswer look' refs' seen').1 ∧
      List.Forall₂ w.Scopes (Bindings.firstAnswer look refs seen).2 (Bindings.firstAnswer look' refs' seen').2 := by
  induction hrefs generalizing seen seen' with
  | nil => exact ⟨.missing, hseen⟩
  | @cons ref ref' _ _ href _ ih =>
    obtain ⟨hanswer, hseen'⟩ := hlook href hseen
    unfold Bindings.firstAnswer
    revert hanswer hseen'
    generalize look ref seen = x
    generalize look' ref' seen' = x'
    obtain ⟨answer, later⟩ := x
    obtain ⟨answer', later'⟩ := x'
    intro hanswer hlater
    cases hanswer with
    | missing => exact ih hlater
    | found hR => exact ⟨.found hR, hlater⟩
    | unknown => exact ⟨.unknown, hlater⟩

theorem exportLookup (h : w.Agree b b') {get : Exports → Option α} {get' : Exports → Option α'}
    (hget : ∀ e e', w.Offers e e' → Option.Rel R (get e) (get' e')) (follow : Bool) (n : Nat) {ref ref' : ModuleRef}
    (href : w.Refs ref ref') {seen seen' : List ScopeId} (hseen : List.Forall₂ w.Scopes seen seen') :
    Lookup.Related R (b.exportLookup get follow n ref seen).1 (b'.exportLookup get' follow n ref' seen').1 ∧
      List.Forall₂ w.Scopes (b.exportLookup get follow n ref seen).2 (b'.exportLookup get' follow n ref' seen').2 := by
  induction n generalizing ref ref' seen seen' with
  | zero => exact ⟨.missing, hseen⟩
  | succ n ih =>
    cases href with
    | untyped | unresolved => exact ⟨.unknown, hseen⟩
    | @container c c' hc =>
      have hmem : c ∈ seen ↔ c' ∈ seen' := by
        clear ih
        induction hseen with
        | nil => exact ⟨nofun, nofun⟩
        | cons hd _ ih => rw [List.mem_cons, List.mem_cons, hc.eq_iff hd, ih]
      have hoffers := h.exportsOf hc
      rw [Bindings.exportLookup_container, Bindings.exportLookup_container]
      by_cases hin : c ∈ seen
      · rw [if_pos (List.contains_iff_mem.mpr hin), if_pos (List.contains_iff_mem.mpr (hmem.mp hin))]
        exact ⟨.missing, hseen⟩
      · rw [if_neg fun h => hin (List.contains_iff_mem.mp h), if_neg fun h => hin (hmem.mpr (List.contains_iff_mem.mp h))]
        obtain ⟨hx, hx'⟩ | ⟨x, x', hx, hx', hR⟩ := none_or_some_of_rel (hget _ _ hoffers)
        · rw [hx, hx']
          dsimp only
          obtain ⟨hanswer, hlater⟩ := firstAnswer (fun href hseen => ih href hseen) (h.passedOn follow hc) (.cons hc hseen)
          revert hanswer hlater
          generalize Bindings.firstAnswer (b.exportLookup get follow n) (b.passedOn follow c) (c :: seen) = y
          generalize Bindings.firstAnswer (b'.exportLookup get' follow n) (b'.passedOn follow c') (c' :: seen') = y'
          obtain ⟨answer, later⟩ := y
          obtain ⟨answer', later'⟩ := y'
          intro hanswer hlater
          cases hanswer with
          | missing =>
            refine ⟨?_, hlater⟩
            obtain ⟨ha, ha'⟩ | ⟨a, a', ha, ha', -⟩ := none_or_some_of_rel hoffers.assigned
            · simp only [ha, ha']
              exact .missing
            · simp only [ha, ha']
              exact .unknown
          | found hR => exact ⟨.found hR, hlater⟩
          | unknown => exact ⟨.unknown, hlater⟩
        · rw [hx, hx']
          exact ⟨.found hR, .cons hc hseen⟩

theorem exported (h : w.Agree b b') {get : Exports → Option α} {get' : Exports → Option α'}
    (hget : ∀ e e', w.Offers e e' → Option.Rel R (get e) (get' e')) (follow : Bool) (href : w.Refs ref ref') :
    Lookup.Related R (b.exportLookup get follow (b.size + 1) ref []).1 (b'.exportLookup get' follow (b'.size + 1) ref' []).1 := by
  rw [Bindings.exportLookup_eq get follow b.unseen_lt_size (b.unseen_lt_size.trans_le (Nat.le_add_right _ (b'.size + 1))),
    Bindings.exportLookup_eq get' follow b'.unseen_lt_size (b'.unseen_lt_size.trans_le (Nat.le_add_left _ (b.size + 1)))]
  exact (h.exportLookup hget follow _ href .nil).1

end

theorem exportedValue (h : w.Agree b b') (href : w.Refs ref ref') (name : String) :
    Lookup.Related w.Values (b.exportedValue ref name) (b'.exportedValue ref' name) :=
  h.exported (fun _ _ he => he.values name) _ href

theorem exportedType (h : w.Agree b b') (href : w.Refs ref ref') (name : String) :
    Lookup.Related w.Types (b.exportedType ref name) (b'.exportedType ref' name) :=
  h.exported (fun _ _ he => he.types name) _ href

theorem assigned? (h : w.Agree b b') (href : w.Refs ref ref') : Option.Rel w.Assigned (b.assigned? ref) (b'.assigned? ref') := by
  cases href with
  | untyped | unresolved => exact .none
  | container hc =>
    unfold Bindings.assigned?
    obtain ⟨hs, hs'⟩ | ⟨s, s', hs, hs', hrel⟩ := none_or_some_of_rel (h.scopeAt? hc)
    · simp only [hs, hs']
      exact .none
    · simp only [hs, hs']
      exact hrel.exports.assigned

/-! ### Through imports -/

theorem resolveValue (h : w.Agree b b') (n : Nat) {symbol symbol' : ValueSymbol} (hsymbol : w.Values symbol symbol') :
    Option.Rel w.Values (b.resolveValue n symbol) (b'.resolveValue n symbol') := by
  induction n generalizing symbol symbol' with
  | zero => exact .none
  | succ n ih =>
    cases hsymbol with
    | @imported binding himporter =>
      have href := h.moduleRef himporter binding.specifier
      have hassigned := h.assigned? href
      have hexpr {x x' : Expr × Site} (hx : w.Assigned x x') :
          Option.Rel w.Values (b.resolveValue n (.expr x.1 x.2)) (b'.resolveValue n (.expr x'.1 x'.2)) := by
        rw [← hx.expr]
        exact ih (.expr hx.site)
      unfold Bindings.resolveValue
      dsimp only
      cases binding.name with
      | whole => exact .some (.ofModule href)
      | named name =>
        have hfound := h.exportedValue href name
        dsimp only
        revert hfound
        generalize b.exportedValue _ name = x
        generalize b'.exportedValue _ name = x'
        intro hfound
        cases hfound with
        | found hR => exact ih hR
        | missing | unknown => exact .none
      | default =>
        have hfound := h.exportedValue href "default"
        dsimp only
        revert hfound hassigned
        generalize b.exportedValue _ "default" = x
        generalize b'.exportedValue _ "default" = x'
        generalize b.assigned? _ = y
        generalize b'.assigned? _ = y'
        intro hassigned hfound
        cases hfound with
        | found hR => exact ih hR
        | missing | unknown =>
          cases hassigned with
          | none => exact .none
          | some hx => exact hexpr hx
      | equals =>
        dsimp only
        revert hassigned
        generalize b.assigned? _ = y
        generalize b'.assigned? _ = y'
        intro hassigned
        cases hassigned with
        | none => exact .some (.ofModule href)
        | some hx => exact hexpr hx
    | declarator hsite => exact .some (.declarator hsite)
    | function hsite => exact .some (.function hsite)
    | param hsite => exact .some (.param hsite)
    | ofModule href => exact .some (.ofModule href)
    | expr hsite => exact .some (.expr hsite)
    | builtin builtin => exact .some (.builtin builtin)

theorem resolveType (h : w.Agree b b') (n : Nat) {symbol symbol' : TypeSymbol} (hsymbol : w.Types symbol symbol') :
    Option.Rel w.Types (b.resolveType n symbol) (b'.resolveType n symbol') := by
  induction n generalizing symbol symbol' with
  | zero => exact .none
  | succ n ih =>
    cases hsymbol with
    | @imported binding himporter =>
      have href := h.moduleRef himporter binding.specifier
      have hnamed (name : String) : Option.Rel w.Types
          ((b.exportedType (b.moduleRef binding.importer binding.specifier) name).toOption.bind (b.resolveType n))
          ((b'.exportedType (b'.moduleRef binding.importer binding.specifier) name).toOption.bind (b'.resolveType n)) := by
        have hfound := h.exportedType href name
        revert hfound
        generalize b.exportedType _ name = x
        generalize b'.exportedType _ name = x'
        intro hfound
        cases hfound with
        | found hR => exact ih hR
        | missing | unknown => exact .none
      unfold Bindings.resolveType
      dsimp only
      cases binding.name with
      | named name => exact hnamed name
      | default => exact hnamed "default"
      | whole | equals => exact .some (.ofModule href)
    | interface hscope => exact .some (.interface hscope)
    | typeAlias hsite => exact .some (.typeAlias hsite)
    | typeParam => exact .some .typeParam
    | ofModule href => exact .some (.ofModule href)
    | builtin builtin => exact .some (.builtin builtin)

end Agree

end Pairing

end Recheck.Check
