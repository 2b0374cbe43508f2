import Recheck.Proofs.Check.Binder
import Recheck.Proofs.Check.Standing

/-!
# Binding statements

The binder goes through the statements of a file or a body and through those of the modules declared there, and notes the
scope of each module it comes across. No two of these begin at one place, so what is noted stays (`Bound.bindStatement`).
Hence what the binder puts into a scope is declared by a statement that stands where the checker will look for it
(`Bound.sound_bindStatement`).
-/

set_option autoImplicit false

namespace Recheck.Check

open Syntax

/-! ## The modules that the binder comes across -/

mutual

/-- Where the modules begin that are bound with a statement. -/
def boundModules : Statement → List Nat
  | .moduleDecl ⟨_, _, some body, span⟩ => span.start :: boundModulesOf body
  | _ => []

def boundModulesOf : List Statement → List Nat
  | [] => []
  | s :: rest => boundModules s ++ boundModulesOf rest

end

/-- The K of the modules that begin at some places of a file. -/
def keysAt (file : Path) (starts : List Nat) (key : NodeKey) : Prop := key.file = file ∧ key.start ∈ starts

def moduleSpot (start : Nat) : Spot := (.module, ⟨start, start + 1⟩)

mutual

theorem boundModules_sublist : ∀ s : Statement, ((boundModules s).map moduleSpot).Sublist s.content.modules
  | .moduleDecl ⟨modifiers, name, some body, span⟩ => by
    have hbody := boundModulesOf_sublist body
    rw [(Gathers.statements body).modules_eq, List.nil_append] at hbody
    have hmodules := (Node.statement (.moduleDecl ⟨modifiers, name, some body, span⟩)).modules_eq
    exact hmodules ▸ List.Sublist.append (List.Sublist.refl [moduleSpot span.start]) hbody
  | .moduleDecl ⟨_, _, none, _⟩ => List.nil_sublist _
  | .importDecl _ | .importEquals _ | .exportDecl _ | .variableDecl _ | .function _ | .interface _ | .typeAlias _
  | .ifElse _ | .block _ | .expression _ | .ret _ | .empty _ | .error _ => List.nil_sublist _

theorem boundModulesOf_sublist : ∀ statements : List Statement,
    ((boundModulesOf statements).map moduleSpot).Sublist (statementsContent statements).modules
  | [] => List.nil_sublist _
  | s :: rest => by
    rw [boundModulesOf, List.map_append, statementsContent, Gathers.modules_append]
    exact (boundModules_sublist s).append (boundModulesOf_sublist rest)

end

/-! ## What is bound -/

section

variable {R : Rights}

/-- Rights that grant whatever is declared. -/
structure Rights.Free (R : Rights) : Prop where
  declaration : ∀ d, R.declaration d
  interface : ∀ decl site, R.interface decl site

/-- What reaches out of a body can bind in the scope that all files share. -/
def Rights.Reaches (R : Rights) (b : Bindings) (reaches : Bool) : Prop :=
  reaches = true → R.scope globalScope ∧ b.Has globalScope

theorem Rights.Reaches.mono {R' : Rights} {K : NodeKey → Prop} {b b' : Bindings} {r r' : Bool} (h : R.Reaches b r)
    (hb : Binds R' K b b') (hr : r' = true → r = true) : R.Reaches b' r' :=
  fun h' => ⟨(h (hr h')).1, hb.has _ (h (hr h')).2⟩

mutual

theorem Bound.bindStatement {b : Bindings} {p : Bindings.Place} (hR : R.Free) (h : Bound R b) (hp : R.Governs b p) : ∀ s : Statement,
    R.Reaches b (reachesOut s) → Binds R (keysAt p.home (boundModules s)) b (Bindings.bindStatement p s b)
  | .moduleDecl ⟨modifiers, name, some body, span⟩, hreach => by
    let key : NodeKey := ⟨.moduleDecl, p.home, span.start⟩
    let K := keysAt p.home (boundModules (.moduleDecl ⟨modifiers, name, some body, span⟩))
    have hkey : K key := ⟨rfl, List.mem_cons_self⟩
    have hglobal : ∀ s, name = .global s → R.scope globalScope ∧ b.Has globalScope := by
      rintro s rfl
      exact hreach rfl
    have hbody : anyReachesOut body = true → reachesOut (.moduleDecl ⟨modifiers, name, some body, span⟩) = true := by
      cases name <;> simp [reachesOut]
    rw [Bindings.bindStatement]
    obtain ⟨hopen, hplace, hhome, -⟩ := h.openModule hp hkey (modifiers.exported || p.implicitExport)
      (p.implicitExport || modifiers.declared) hglobal
    simp only
    generalize Bindings.openModule p key (modifiers.exported || p.implicitExport)
      (p.implicitExport || modifiers.declared) name b = opened at hopen hplace hhome
    obtain ⟨place, b₁⟩ := opened
    change Binds R _ b b₁ at hopen
    change R.Governs b₁ place at hplace
    change place.home = p.home at hhome
    have heach : Binds R K b₁ (Bindings.bindEach place body b₁) :=
      (Bound.bindEach hR hopen.bound hplace body (hreach.mono hopen hbody)).mono
        fun key hkey => ⟨hkey.1.trans hhome, List.mem_cons_of_mem _ hkey.2⟩
    have hbodyExports := heach.bound.bindLocalExports (K := K) (hplace.mono heach) body
    have hafter := (hplace.mono heach).mono hbodyExports
    exact (hopen.trans (heach.trans hbodyExports)).trans (hbodyExports.bound.addAmbient hafter.scope hafter.ref name)
  | .moduleDecl ⟨modifiers, name, none, span⟩, _ => by
    rw [Bindings.bindStatement]
    exact h.bindBodiless hp _ _
  | .variableDecl d, _ => by
    rw [Bindings.bindStatement]
    exact h.bindDeclarators hp _ fun _ _ => hR.declaration _
  | .function d, _ => by
    rw [Bindings.bindStatement]
    exact h.bindFunction hp _ (hR.declaration _)
  | .interface d, _ => by
    rw [Bindings.bindStatement]
    exact h.bindInterface hp _ (hR.declaration _) (hR.interface _ _)
  | .typeAlias d, _ => by
    rw [Bindings.bindStatement]
    exact h.bindAlias hp _ (hR.declaration _)
  | .importDecl d, _ => by
    rw [Bindings.bindStatement]
    exact h.bindImport hp d
  | .importEquals d, _ => by
    rw [Bindings.bindStatement]
    exact h.bindImportEquals hp d
  | .exportDecl d, _ => by
    rw [Bindings.bindStatement]
    exact h.bindExport hp fun _ _ => hR.declaration _
  | .ifElse _, _ | .block _, _ | .expression _, _ | .ret _, _ | .empty _, _ | .error _, _ => h.refl

theorem Bound.bindEach {b : Bindings} {p : Bindings.Place} (hR : R.Free) (h : Bound R b) (hp : R.Governs b p) : ∀ statements : List Statement,
    R.Reaches b (anyReachesOut statements) →
      Binds R (keysAt p.home (boundModulesOf statements)) b (Bindings.bindEach p statements b)
  | [], _ => h.refl
  | s :: rest, hreach => by
    have hs := Bound.bindStatement hR h hp s fun hr => hreach (by simp [anyReachesOut, hr])
    have hrest := Bound.bindEach hR hs.bound (hp.mono hs) rest (hreach.mono hs fun hr => by simp [anyReachesOut, hr])
    exact (hs.mono fun _ hk => ⟨hk.1, List.mem_append_left _ hk.2⟩).trans
      (hrest.mono fun _ hk => ⟨hk.1, List.mem_append_right _ hk.2⟩)

end

/-- The binding of a whole body. -/
theorem Bound.bindBody {b : Bindings} {p : Bindings.Place} (hR : R.Free) (h : Bound R b) (hp : R.Governs b p)
    (statements : List Statement) (hreach : R.Reaches b (anyReachesOut statements)) :
    Binds R (keysAt p.home (boundModulesOf statements)) b (Bindings.bindBody p statements b) := by
  have heach := Bound.bindEach hR h hp statements hreach
  exact heach.trans (heach.bound.bindLocalExports (hp.mono heach) statements)

end

/-! ## Declarations that stand -/

section

variable {R : Rights} {final : Bindings}

/-- The same tables, with whatever is declared. -/
def Rights.free (R : Rights) : Rights := { R with declaration := fun _ => True, interface := fun _ _ => True }

theorem Rights.free_free : R.free.Free := ⟨fun _ => trivial, fun _ _ => trivial⟩

theorem Bound.free {b : Bindings} (h : Bound R b) : Bound R.free b :=
  h.weaken (fun _ hid => hid) (fun _ _ => trivial) fun _ _ _ => trivial

theorem Rights.Governs.free {b : Bindings} {p : Bindings.Place} (h : R.Governs b p) : R.free.Governs b p :=
  ⟨h.scope, h.has, h.container⟩

/-- What stands in the end may be bound. -/
structure Rights.Permits (R : Rights) (final : Bindings) : Prop where
  declaration : ∀ d, Stated final d → R.declaration d
  interface : ∀ decl site, Stands final ⟨.statement (.interface decl), site⟩ → R.interface decl site

/-- What was noted about some modules is so in the end. -/
def KeepsModules (R : Rights) (K : NodeKey → Prop) (b final : Bindings) : Prop :=
  ∀ id key inner, R.scope id → K key → b.moduleIn? id key = some inner → final.moduleScope? id key = some inner

/-- Steps that come across other modules only change nothing about these. -/
theorem KeepsModules.of_binds {K K' : NodeKey → Prop} {R' : Rights} {b b' : Bindings} (h : KeepsModules R K b' final)
    (hb : Binds R' K' b b') (hkeys : ∀ key, K key → ¬K' key) : KeepsModules R K b final := by
  intro id key inner hid hkey hinner
  exact h id key inner hid hkey ((hb.modules id key (hkeys key hkey)).trans hinner)

theorem KeepsModules.mono {K K' : NodeKey → Prop} {b : Bindings} (h : KeepsModules R K b final)
    (hkeys : ∀ key, K' key → K key) : KeepsModules R K' b final :=
  fun id key inner hid hkey => h id key inner hid (hkeys key hkey)

mutual

theorem Bound.sound_bindStatement {b : Bindings} {p : Bindings.Place} (hR : R.Permits final) (h : Bound R b)
    (hp : R.Governs b p) : ∀ s : Statement, R.Reaches b (reachesOut s) → (boundModules s).Nodup →
      Stands final ⟨.statement s, p.site⟩ →
      KeepsModules R (keysAt p.home (boundModules s)) (Bindings.bindStatement p s b) final →
      Bound R (Bindings.bindStatement p s b)
  | .moduleDecl ⟨modifiers, name, some body, span⟩, hreach, hnodup, hstands, hagrees => by
    let key : NodeKey := ⟨.moduleDecl, p.home, span.start⟩
    have hglobal : ∀ s, name = .global s → R.scope globalScope ∧ b.Has globalScope := by
      rintro s rfl
      exact hreach rfl
    have hbody : anyReachesOut body = true → reachesOut (.moduleDecl ⟨modifiers, name, some body, span⟩) = true := by
      cases name <;> simp [reachesOut]
    obtain ⟨hfresh, hnodup⟩ := List.nodup_cons.mp hnodup
    rw [Bindings.bindStatement] at hagrees ⊢
    obtain ⟨hopen, hplace, hhome, hmodule⟩ := h.openModule hp (K := (· = key)) rfl
      (modifiers.exported || p.implicitExport) (p.implicitExport || modifiers.declared) hglobal
    simp only at hagrees ⊢
    generalize Bindings.openModule p key (modifiers.exported || p.implicitExport)
      (p.implicitExport || modifiers.declared) name b = opened at hopen hplace hhome hmodule hagrees ⊢
    obtain ⟨place, b₁⟩ := opened
    change Binds R _ b b₁ at hopen
    change R.Governs b₁ place at hplace
    change place.home = p.home at hhome
    change b₁.moduleIn? p.scope key = some place.scope at hmodule
    have hlater := hreach.mono hopen hbody
    have heach := Bound.bindEach Rights.free_free hopen.bound.free hplace.free body hlater
    have hafter := (hplace.free.mono heach)
    have hlocal := heach.bound.bindLocalExports (K := fun _ => False) hafter body
    have hend := hlocal.trans (hlocal.bound.addAmbient (hafter.mono hlocal).scope (hafter.mono hlocal).ref name)
    -- The scope of this module is the one that it was given before its body was bound.
    have hscope : final.moduleScope? p.scope key = some place.scope := by
      refine hagrees p.scope key place.scope hp.scope ⟨rfl, List.mem_cons_self⟩ ?_
      rw [hend.modules p.scope key id, heach.modules p.scope key fun hk => hfresh hk.2]
      exact hmodule
    have hinside : Item.inside final ⟨.statement (.moduleDecl ⟨modifiers, name, some body, span⟩), p.site⟩ =
        some place.site := by
      change some { p.site with scope := (final.moduleScope? p.scope key).getD p.scope } = some place.site
      rw [hscope, Option.getD_some, Bindings.Place.site, Bindings.Place.site, hhome]
    have hparts (s : Statement) (hs : s ∈ body) : Stands final ⟨.statement s, place.site⟩ :=
      .part hstands (Item.mem_parts.mpr ⟨_, hinside, List.mem_map_of_mem hs, rfl⟩)
    have hkept : KeepsModules R (keysAt place.home (boundModulesOf body)) (Bindings.bindEach place body b₁) final :=
      (hagrees.mono fun _ hk => ⟨hk.1.trans hhome, List.mem_cons_of_mem _ hk.2⟩).of_binds hend fun _ _ => id
    have hbound := Bound.sound_bindEach hR hopen.bound hplace body hlater hnodup hparts hkept
    have hexports := hbound.bindLocalExports (K := fun _ => False) (hplace.mono heach) body
    have hlast := (hplace.mono heach).mono hexports
    exact (hexports.bound.addAmbient (K := fun _ => False) hlast.scope hlast.ref name).bound
  | .moduleDecl ⟨modifiers, name, none, span⟩, _, _, _, _ => by
    rw [Bindings.bindStatement]
    exact (h.bindBodiless (K := fun _ => False) hp _ _).bound
  | .variableDecl d, _, _, hstands, _ => by
    rw [Bindings.bindStatement]
    exact (h.bindDeclarators (K := fun _ => False) hp _ fun decl hdecl =>
      hR.declaration _ ⟨_, hstands, List.mem_map_of_mem hdecl⟩).bound
  | .function d, _, _, hstands, _ => by
    rw [Bindings.bindStatement]
    exact (h.bindFunction (K := fun _ => False) hp _ (hR.declaration _ ⟨_, hstands, List.mem_cons_self⟩)).bound
  | .interface d, _, _, hstands, _ => by
    rw [Bindings.bindStatement]
    exact (h.bindInterface (K := fun _ => False) hp _ (hR.declaration _ ⟨_, hstands, List.mem_cons_self⟩)
      (hR.interface _ _ hstands)).bound
  | .typeAlias d, _, _, hstands, _ => by
    rw [Bindings.bindStatement]
    exact (h.bindAlias (K := fun _ => False) hp _ (hR.declaration _ ⟨_, hstands, List.mem_cons_self⟩)).bound
  | .importDecl d, _, _, _, _ => by
    rw [Bindings.bindStatement]
    exact (h.bindImport (K := fun _ => False) hp d).bound
  | .importEquals d, _, _, _, _ => by
    rw [Bindings.bindStatement]
    exact (h.bindImportEquals (K := fun _ => False) hp d).bound
  | .exportDecl ⟨kind, span⟩, _, _, hstands, _ => by
    rw [Bindings.bindStatement]
    refine (h.bindExport (K := fun _ => False) hp fun expr hkind => hR.declaration _ ⟨_, hstands, ?_⟩).bound
    rcases hkind with rfl | rfl <;> exact List.mem_cons_self
  | .ifElse _, _, _, _, _ | .block _, _, _, _, _ | .expression _, _, _, _, _ | .ret _, _, _, _, _ | .empty _, _, _, _, _
  | .error _, _, _, _, _ => h

theorem Bound.sound_bindEach {b : Bindings} {p : Bindings.Place} (hR : R.Permits final) (h : Bound R b)
    (hp : R.Governs b p) : ∀ statements : List Statement, R.Reaches b (anyReachesOut statements) →
      (boundModulesOf statements).Nodup → (∀ s ∈ statements, Stands final ⟨.statement s, p.site⟩) →
      KeepsModules R (keysAt p.home (boundModulesOf statements)) (Bindings.bindEach p statements b) final →
      Bound R (Bindings.bindEach p statements b)
  | [], _, _, _, _ => h
  | s :: rest, hreach, hnodup, hstands, hagrees => by
    obtain ⟨hs, hrest, hdisjoint⟩ := List.nodup_append.mp hnodup
    have hfirst : R.Reaches b (reachesOut s) := fun hr => hreach (by simp [anyReachesOut, hr])
    have hbinds := Bound.bindStatement Rights.free_free h.free hp.free s hfirst
    have hlater : R.Reaches (Bindings.bindStatement p s b) (anyReachesOut rest) :=
      hreach.mono hbinds fun hr => by simp [anyReachesOut, hr]
    have hafter := Bound.bindEach Rights.free_free hbinds.bound (hp.free.mono hbinds) rest hlater
    have hbound := Bound.sound_bindStatement hR h hp s hfirst hs (hstands s List.mem_cons_self)
      ((hagrees.mono fun _ hk => ⟨hk.1, List.mem_append_left _ hk.2⟩).of_binds hafter fun key hk hk' =>
        hdisjoint _ hk.2 _ hk'.2 rfl)
    exact Bound.sound_bindEach hR hbound (hp.mono hbinds) rest hlater hrest
      (fun s hs => hstands s (List.mem_cons_of_mem _ hs)) (hagrees.mono fun _ hk => ⟨hk.1, List.mem_append_right _ hk.2⟩)

end

theorem Bound.sound_bindBody {b : Bindings} {p : Bindings.Place} (hR : R.Permits final) (h : Bound R b)
    (hp : R.Governs b p) (statements : List Statement) (hreach : R.Reaches b (anyReachesOut statements))
    (hnodup : (boundModulesOf statements).Nodup) (hstands : ∀ s ∈ statements, Stands final ⟨.statement s, p.site⟩)
    (hagrees : KeepsModules R (keysAt p.home (boundModulesOf statements)) (Bindings.bindBody p statements b) final) :
    Bound R (Bindings.bindBody p statements b) := by
  have heach := Bound.bindEach Rights.free_free h.free hp.free statements hreach
  have hlocal := heach.bound.bindLocalExports (K := fun _ => False) (hp.free.mono heach) statements
  have hbound := Bound.sound_bindEach hR h hp statements hreach hnodup hstands (hagrees.of_binds hlocal fun _ _ => id)
  exact (hbound.bindLocalExports (K := fun _ => False) (hp.mono heach) statements).bound

end

end Recheck.Check
