import Recheck.Proofs.Check.Files
import Recheck.Proofs.Check.Lookups
import Recheck.Proofs.Check.Sizes
import Recheck.Proofs.Check.Zones

/-!
# Where an imported name leads

The files of a program get their scopes before any is bound: a module one of its own, inside of the one that all scripts
share (`Laid`). 
-/

set_option autoImplicit false

namespace Recheck.Check

open Syntax

/-! ## Scopes of files -/

/-- Some files have their scopes, and nothing is bound yet. Modules have scopes of their own, inside of the one that all scripts
share. -/
structure Laid (done : List SourceUnit) (b : Bindings) : Prop where
  seated : Seated b
  bound : Bound .ofFiles b
  edge : ∃ s, b.scopeIn? libScope = some s ∧ s.parent = none
  global : b.outer? globalScope = some libScope
  files : ∀ path id, b.fileScopes.get? path = some id → id = globalScope ∨ b.outer? id = some globalScope
  apart : ∀ path path' id, b.fileScopes.get? path = some id → b.fileScopes.get? path' = some id →
    id = globalScope ∨ (path == path') = true
  own : ∀ unit ∈ done, unit.isModule = true → ∃ id, b.fileScopes.get? unit.path = some id ∧ b.outer? id = some globalScope
  allow : ∀ (z : Zone) (final : Bindings), (z.entries final).Allow b

section

variable {b : Bindings} {p : Program} {done units : List SourceUnit} {unit : SourceUnit}

theorem laid_start : Laid [] (Bindings.start p) where
  seated := seated_start
  bound := bound_start fun _ h => h
  edge := ⟨_, rfl, rfl⟩
  global := rfl
  files := nofun
  apart := nofun
  own := nofun
  allow z final := by
    have builtins {id : ScopeId} {s : Scope} (hs : (Bindings.start p).scopeIn? id = some s) :
        id = libScope ∧ s.values = builtinValues ∧ s.types = builtinTypes ∨ s.values = .empty ∧ s.types = .empty := by
      cases id with
      | inner => exact nomatch hs
      | main n =>
        match n, hs with
        | 0, hs => exact .inl ⟨rfl, Option.some.inj hs ▸ ⟨rfl, rfl⟩⟩
        | 1, hs => exact .inr (Option.some.inj hs ▸ ⟨rfl, rfl⟩)
        | n + 2, hs => exact nomatch hs
    refine ⟨fun id name symbol hsymbol => ?_, fun id name symbol hsymbol => ?_, fun id key inner hinner => ?_⟩
    · obtain ⟨s, hs, hvalue⟩ := Option.bind_eq_some_iff.mp hsymbol
      rcases builtins hs with ⟨rfl, hvalues, -⟩ | ⟨hvalues, -⟩ <;> rw [hvalues] at hvalue
      · obtain ⟨_, rfl⟩ := exists_builtin_value hvalue
        exact ⟨fun _ => .inl (.refl _), nofun, nofun⟩
      · exact nomatch hvalue
    · obtain ⟨s, hs, htype⟩ := Option.bind_eq_some_iff.mp hsymbol
      rcases builtins hs with ⟨rfl, -, htypes⟩ | ⟨-, htypes⟩ <;> rw [htypes] at htype
      · obtain ⟨_, rfl⟩ := exists_builtin_type htype
        exact ⟨fun _ => .inl (.refl _), nofun⟩
      · exact nomatch htype
    · cases id <;> exact nomatch hinner

theorem Entries.Allow.congr {E : Entries} {b' : Bindings} (h : E.Allow b) (htable : ∀ id, b'.tableOf id = b.tableOf id) :
    E.Allow b' where
  values id name symbol hsymbol := by
    rw [Bindings.valueIn?, htable] at hsymbol
    exact h.values id name symbol hsymbol
  types id name symbol hsymbol := by
    rw [Bindings.typeIn?, htable] at hsymbol
    exact h.types id name symbol hsymbol
  notes id key inner hinner := by
    rw [Bindings.moduleIn?, htable] at hinner
    exact h.notes id key inner hinner

theorem Laid.openFile (h : Laid done b) (hnew : ∀ u ∈ done, (u.path == unit.path) = false) :
    Laid (done ++ [unit]) (b.openFile unit) := by
  obtain ⟨hseated, hbound, -, -⟩ := h.seated.openFile h.bound (fun _ => .rfl) unit
  unfold Bindings.openFile at hseated hbound ⊢
  split
  · rename_i hmodule
    rw [if_pos hmodule] at hseated hbound
    have hfills {E : Entries} : Fills E b (b.newScope globalScope).2 := Fills.newScope
    have hlookup {path : Path} {id : ScopeId} (hid : (b.fileScopes.insert unit.path (b.newScope globalScope).1).get? path = some id) :
        b.fileScopes.get? path = some id ∨ (unit.path == path) = true ∧ id = (b.newScope globalScope).1 := by
      rw [Dict.get?_insert] at hid
      split at hid
      · rename_i heq
        exact .inr ⟨heq, (Option.some.inj hid).symm⟩
      · exact .inl hid
    have hne {path : Path} {id : ScopeId} (hid : b.fileScopes.get? path = some id) : id ≠ (b.newScope globalScope).1 :=
      have hseat := h.seated.files path id hid
      Bindings.ne_newScope hseat.2 hseat.1
    obtain ⟨s, hs, hparent⟩ := h.edge
    obtain ⟨s', hs', hkeeps⟩ := (hfills (E := .any)).scopes _ s hs
    refine ⟨hseated, hbound, ⟨s', hs', hkeeps.parent.trans hparent⟩, (hfills (E := .any)).nested _ _ h.global, fun path id hid => ?_,
      fun path path' id hid hid' => ?_, fun u hu hu' => ?_, fun z final => ?_⟩
    · rcases hlookup hid with hid | ⟨-, rfl⟩
      · exact (h.files path id hid).imp_right ((hfills (E := .any)).nested _ _)
      · exact .inr Bindings.outer?_newScope
    · rcases hlookup hid with hid | ⟨hpath, rfl⟩
      · exact h.apart path path' id hid ((hlookup hid').resolve_right fun hnew => hne hid hnew.2)
      · rcases hlookup hid' with hid' | ⟨hpath', -⟩
        · exact absurd rfl (hne hid')
        · exact .inr (BEq.trans (BEq.symm hpath) hpath')
    · rcases List.mem_append.mp hu with hu | hu
      · obtain ⟨id, hid, houter⟩ := h.own u hu hu'
        refine ⟨id, ?_, (hfills (E := .any)).nested _ _ houter⟩
        have hother : ¬(unit.path == u.path) = true := fun heq => absurd (BEq.symm heq) (Bool.eq_false_iff.mp (hnew u hu))
        exact (Dict.get?_insert _ _ _ _).trans (if_neg hother ▸ hid)
      · obtain rfl := List.mem_singleton.mp hu
        exact ⟨_, (Dict.get?_insert _ _ _ _).trans (if_pos (BEq.refl _)), Bindings.outer?_newScope⟩
    · exact (hfills.allow (h.allow z final)).congr fun id => by cases id <;> rfl
  · rename_i hscript
    rw [if_neg hscript] at hseated hbound
    have hlookup {path : Path} {id : ScopeId} (hid : (b.fileScopes.insert unit.path globalScope).get? path = some id) :
        b.fileScopes.get? path = some id ∨ id = globalScope := by
      rw [Dict.get?_insert] at hid
      split at hid
      · exact .inr (Option.some.inj hid).symm
      · exact .inl hid
    refine ⟨hseated, hbound, h.edge, h.global, fun path id hid => ?_, fun path path' id hid hid' => ?_, fun u hu hu' => ?_,
      fun z final => (h.allow z final).congr fun id => by cases id <;> rfl⟩
    · exact (hlookup hid).elim (h.files path id) .inl
    · rcases hlookup hid with hid | rfl
      · rcases hlookup hid' with hid' | rfl
        · exact h.apart path path' id hid hid'
        · exact .inl rfl
      · exact .inl rfl
    · rcases List.mem_append.mp hu with hu | hu
      · obtain ⟨id, hid, houter⟩ := h.own u hu hu'
        refine ⟨id, ?_, houter⟩
        have hother : ¬(unit.path == u.path) = true := fun heq => absurd (BEq.symm heq) (Bool.eq_false_iff.mp (hnew u hu))
        exact (Dict.get?_insert _ _ _ _).trans (if_neg hother ▸ hid)
      · exact absurd (List.mem_singleton.mp hu ▸ hu') hscript

theorem laid_openFiles (hpaths : units.Pairwise fun u v => (u.path == v.path) = false) :
    Laid units (units.foldl Bindings.openFile (Bindings.start p)) := by
  suffices ∀ done b, Laid done b → (∀ u ∈ done, ∀ v ∈ units, (u.path == v.path) = false) →
      Laid (done ++ units) (units.foldl Bindings.openFile b) from this [] _ laid_start nofun
  induction units with
  | nil => exact fun done b h _ => (List.append_nil done).symm ▸ h
  | cons unit units ih =>
    intro done b h hdone
    obtain ⟨hunit, hpaths⟩ := List.pairwise_cons.mp hpaths
    have hrest := ih hpaths (done ++ [unit]) _ (h.openFile fun u hu => hdone u hu unit List.mem_cons_self) fun u hu v hv => by
      rcases List.mem_append.mp hu with hu | hu
      · exact hdone u hu v (List.mem_cons_of_mem _ hv)
      · exact List.mem_singleton.mp hu ▸ hunit v hv
    rwa [List.append_assoc, List.singleton_append] at hrest

end

/-! ## The import of a zone -/

/-- What a statement of a file imports. -/
def importBindings (file : Path) : Statement → List ImportBinding
  | .importDecl d =>
    let bind (name : ImportName) (localName : Ident) : ImportBinding := ⟨file, d.source.value, name, some localName, file⟩
    d.default.toList.map (bind .default) ++ d.star.toList.map (bind .whole) ++
      d.named.map fun s => bind (.named s.imported.name) s.localName
  | .importEquals d => [⟨file, d.source.value, .equals, some d.name, file⟩]
  | _ => []

section

variable {b : Bindings} {place : Bindings.Place} {s : Statement} {id : ScopeId} {binding : ImportBinding}

/-- An import binds what it imports, and passes it on if it does. -/
theorem fills_behind_import {E : Entries} (hbinding : binding ∈ importBindings place.home s) (hplace : place.importer = place.home) :
    Fills E ((importBindings place.home s).foldl (·.declareImport place.scope ·) b) (Bindings.bindStatement place s b) := by
  cases s with
  | importDecl d =>
    have heq : Bindings.bindStatement place (.importDecl d) b =
        (importBindings place.home (.importDecl d)).foldl (·.declareImport place.scope ·) b := by
      rw [Bindings.bindStatement, Bindings.bindImport]
      unfold Bindings.Place.binding
      rw [hplace]
      rfl
    exact heq ▸ .refl _
  | importEquals d =>
    rw [Bindings.bindStatement, Bindings.bindImportEquals]
    unfold Bindings.Place.binding
    rw [hplace]
    split
    · exact .exportImport
    · exact .refl _
  | _ => exact nomatch hbinding

theorem isSome_declareImport (hid : b.Has id) {name : Ident} (hname : binding.localName = some name) :
    ((b.declareImport id binding).valueIn? id name.name).isSome ∧ ((b.declareImport id binding).typeIn? id name.name).isSome := by
  obtain ⟨s, hs⟩ := Option.isSome_iff_exists.mp hid
  have hput : (b.declareImport id binding).scopeIn? id = some { s with
      values := s.values.insert name.name (.imported binding)
      types := s.types.insert name.name (.imported binding) } := by
    rw [Bindings.declareImport, hname]
    dsimp only
    rw [Bindings.putType, Bindings.scopeIn?_modifyScope, if_pos rfl, Bindings.putValue, Bindings.scopeIn?_modifyScope, if_pos rfl,
      hs]
    rfl
  constructor
  · rw [Bindings.valueIn?_eq, hput, Option.bind_some, Dict.get?_insert, if_pos (BEq.refl _)]
    rfl
  · rw [Bindings.typeIn?_eq, hput, Option.bind_some, Dict.get?_insert, if_pos (BEq.refl _)]
    rfl

end

namespace Zone

/-- A zone belongs to an import among the statements of a file, which is the only one of its name. -/
structure Stems (z : Zone) (p : Program) (unit : SourceUnit) (s : Statement) : Prop where
  mem : unit ∈ p.units
  module : unit.isModule = true
  file : unit.path = z.file
  statements : ∃ before after, unit.tree.statements = before ++ s :: after ∧ z.others = before ++ after
  binding : z.binding ∈ importBindings z.file s
  named : z.binding.localName = some z.name
  only : ∀ binding ∈ importBindings z.file s, binding ≠ z.binding →
    ∃ id, binding.localName = some id ∧ id.name ≠ z.name.name ∧ id.span.start ≠ z.name.span.start
  lawful : z.Lawful

/-- What is bound is on its side, and the import is bound. -/
structure Holds (z : Zone) (p : Program) (b : Bindings) : Prop where
  program : b.program = p
  framed : z.Framed b
  allow : (z.entries b).Allow b
  has : b.Has z.root
  value : (b.valueIn? z.root z.name.name).isSome
  type : (b.typeIn? z.root z.name.name).isSome
  site : ∀ unit ∈ p.units, unit.path = z.file → (b.fileSite unit).scope = z.root
  outside : ∀ unit ∈ p.units, unit.path ≠ z.file → z.Outside b (b.fileSite unit).scope

section

variable {z : Zone} {p : Program} {unit : SourceUnit} {s : Statement} {b final : Bindings} {place : Bindings.Place}

/-- The import is bound in the scope of its file. -/
theorem Stems.fills (h : z.Stems p unit s) (hhome : place.home = z.file) (himporter : place.importer = z.file)
    (hscope : place.scope = z.root) : Fills (z.entries final) b (Bindings.bindStatement place s b) := by
  have hhome' : place.importer = place.home := himporter.trans hhome.symm
  refine .trans ?_ (fills_behind_import (hhome.symm ▸ h.binding) hhome')
  refine .foldl _ (.refl b) fun b' binding hbinding => .declareImport fun name hname => ?_
  rw [hhome] at hbinding
  by_cases heq : binding = z.binding
  · subst heq
    obtain rfl : z.name = name := Option.some.inj (h.named.symm.trans hname)
    have himports : z.Imports z.name.name z.binding := ⟨z.name, h.named, fun _ => rfl⟩
    exact ⟨⟨fun _ => .inr ⟨hscope, rfl⟩, nofun, fun binding heq => ValueSymbol.imported.inj heq ▸ himports⟩,
      fun _ => .inr ⟨hscope, rfl⟩, fun binding heq => TypeSymbol.imported.inj heq ▸ himports⟩
  · obtain ⟨id, hid, hother, hstart⟩ := h.only binding hbinding heq
    obtain rfl : id = name := Option.some.inj (hid.symm.trans hname)
    have himports : z.Imports id.name binding := ⟨id, hid, fun hkey => absurd (congrArg NodeKey.start hkey) hstart⟩
    exact ⟨⟨fun hname => absurd hname hother, nofun, fun binding heq => ValueSymbol.imported.inj heq ▸ himports⟩,
      fun hname => absurd hname hother, fun binding heq => TypeSymbol.imported.inj heq ▸ himports⟩

theorem Stems.isSome (h : z.Stems p unit s) (hhome : place.home = z.file) (himporter : place.importer = z.file)
    (hscope : place.scope = z.root) (hroot : b.Has z.root) :
    ((Bindings.bindStatement place s b).valueIn? z.root z.name.name).isSome ∧
      ((Bindings.bindStatement place s b).typeIn? z.root z.name.name).isSome := by
  have hbehind := fills_behind_import (E := .any) (b := b) (hhome.symm ▸ h.binding) (himporter.trans hhome.symm)
  obtain ⟨front, back, hsplit⟩ := List.append_of_mem h.binding
  rw [hhome, hsplit, List.foldl_append, List.foldl_cons, hscope] at hbehind
  have hbound (b' : Bindings) (bindings : List ImportBinding) :
      Fills .any b' (bindings.foldl (·.declareImport z.root ·) b') :=
    .foldl _ (.refl b') fun _ _ _ => .declareImport fun _ _ => ⟨trivial, trivial⟩
  obtain ⟨hvalue, htype⟩ := isSome_declareImport ((hbound b front).has hroot) h.named
  have hafter := (hbound _ back).trans hbehind
  exact ⟨hafter.isSome_value hvalue, hafter.isSome_type htype⟩

/-! ### Files -/

/-- Other files declare nothing inside. -/
theorem fills_bindFiles (hz : z.Lawful) (hb : z.Framed final) {units : List SourceUnit} (hallow : (z.entries final).Allow b)
    (hroot : b.Has z.root) (hunits : ∀ u ∈ units, u.path ≠ z.file ∧ z.Outside final (b.fileSite u).scope)
    (hnested : (units.foldl Bindings.bindFile b).Nested final) :
    Fills (z.entries final) b (units.foldl Bindings.bindFile b) := by
  induction units generalizing b with
  | nil => exact .refl b
  | cons u units ih =>
    obtain ⟨hfile, houtside⟩ := hunits u List.mem_cons_self
    have hfirst : Fills (z.entries final) b (b.bindFile u) :=
      fills_bindBody hz hb (b.filePlace u) b hallow u.tree.statements
        (fun s _ => ⟨fun heq => absurd heq hfile, .inr ⟨houtside, fun heq => absurd heq hfile⟩⟩) (fun _ => hroot)
        ((Fills.any_bindFiles units (b.bindFile u)).nested.trans hnested)
    have hsite (v : SourceUnit) : (b.bindFile u).fileSite v = b.fileSite v := by
      rw [Bindings.fileSite, Bindings.fileSite, hfirst.files]
    refine hfirst.trans (ih (hfirst.allow hallow) (hfirst.has hroot) (fun v hv => ?_) hnested)
    rw [hsite]
    exact hunits v (List.mem_cons_of_mem _ hv)

theorem bindEach_append (place : Bindings.Place) (front back : List Statement) (b : Bindings) :
    Bindings.bindEach place (front ++ back) b = Bindings.bindEach place back (Bindings.bindEach place front b) := by
  induction front generalizing b with
  | nil => rfl
  | cons s front ih => exact ih _

/-- The file of the import. -/
theorem Stems.fills_bindFile (h : z.Stems p unit s) (hb : z.Framed final) (hallow : (z.entries final).Allow b) (hroot : b.Has z.root)
    (hsite : (b.fileSite unit).scope = z.root) (hnested : (b.bindFile unit).Nested final) :
    Fills (z.entries final) b (b.bindFile unit) ∧
      ((b.bindFile unit).valueIn? z.root z.name.name).isSome ∧ ((b.bindFile unit).typeIn? z.root z.name.name).isSome := by
  obtain ⟨before, after, hstatements, hothers⟩ := h.statements
  have haccepts (s : Statement) (hs : s ∈ z.others) : z.Accepts final ⟨.statement s, (b.filePlace unit).site⟩ :=
    ⟨fun _ => ⟨s, hs, .self _⟩, .inl ⟨hsite ▸ .refl _, h.file, .inl (h.lawful.screened hs)⟩⟩
  have hbody : b.bindFile unit = Bindings.bindLocalExports (b.filePlace unit) unit.tree.statements
      (Bindings.bindEach (b.filePlace unit) after (Bindings.bindStatement (b.filePlace unit) s
        (Bindings.bindEach (b.filePlace unit) before b))) := by
    change Bindings.bindBody (b.filePlace unit) unit.tree.statements b = _
    rw [Bindings.bindBody, hstatements, bindEach_append, Bindings.bindEach]
  rw [hbody] at hnested ⊢
  have hexports {E : Entries} (b' : Bindings) :
      Fills E b' (Bindings.bindLocalExports (b.filePlace unit) unit.tree.statements b') := .bindLocalExports
  have hlast := (hexports (E := .any) _).nested.trans hnested
  have hmiddle := (Fills.any_bindEach (b.filePlace unit) _ after).nested.trans hlast
  have hearly := (Fills.any_bindStatement (b.filePlace unit) _ s).nested.trans hmiddle
  have hfirst := fills_bindEach h.lawful hb (b.filePlace unit) b hallow before
    (fun s hs => haccepts s (hothers ▸ List.mem_append_left _ hs)) (fun _ => hroot) hearly
  have hstatement {b' : Bindings} : Fills (z.entries final) b' (Bindings.bindStatement (b.filePlace unit) s b') :=
    h.fills h.file h.file hsite
  have himport := hfirst.trans hstatement
  have hrest := fills_bindEach h.lawful hb (b.filePlace unit) _ (himport.allow hallow) after
    (fun s hs => haccepts s (hothers ▸ List.mem_append_right _ hs)) (fun _ => himport.has hroot) hlast
  have hbehind := hrest.trans (hexports _)
  obtain ⟨hvalue, htype⟩ := @Stems.isSome z p unit s _ (b.filePlace unit) h h.file h.file hsite (hfirst.has hroot)
  exact ⟨himport.trans hbehind, hbehind.isSome_value hvalue, hbehind.isSome_type htype⟩

/-! ### Programs -/

section

variable (h : z.Stems p unit s) (hp : p.WellRead)
include h hp

theorem Stems.other {u : SourceUnit} (hu : u ∈ p.units) (hpath : (u.path == unit.path) = true) : u = unit := by
  by_contra hne
  have : Std.Symm fun u v : SourceUnit => (u.path == v.path) = false := ⟨fun _ _ h => BEq.symm_false h⟩
  exact absurd hpath (Bool.eq_false_iff.mp (hp.apart.forall hu h.mem hne))

/-- The files before and behind that of the import. -/
theorem Stems.split : ∃ front back, p.units = front ++ unit :: back ∧ ∀ u ∈ front ++ back, u ∈ p.units ∧ u.path ≠ z.file := by
  obtain ⟨front, back, hunits⟩ := List.append_of_mem h.mem
  have happart := hunits ▸ hp.apart
  refine ⟨front, back, hunits, fun u hu => ⟨?_, fun heq => ?_⟩⟩
  · rw [hunits]
    exact List.mem_append.mpr ((List.mem_append.mp hu).imp_right (List.mem_cons_of_mem _))
  · have hbeq : (u.path == unit.path) = true := heq ▸ h.file ▸ BEq.refl _
    rcases List.mem_append.mp hu with hu | hu
    · exact absurd hbeq (Bool.eq_false_iff.mp ((List.pairwise_append.mp happart).2.2 u hu unit List.mem_cons_self))
    · have hback := (List.pairwise_cons.mp (List.pairwise_append.mp happart).2.1).1 u hu
      exact absurd (BEq.symm hbeq) (Bool.eq_false_iff.mp hback)

omit h hp in
/-- The scope of a module is none of those that all files share. -/
theorem framed_of_laid {units : List SourceUnit} (hb : Laid units b) (hroot : b.outer? z.root = some globalScope) : z.Framed b where
  edge := hb.edge
  global := hb.global
  root := by
    constructor <;> intro heq <;> rw [heq] at hroot
    · obtain ⟨s, hs, hparent⟩ := hb.edge
      exact nomatch ((congrArg (·.bind Scope.parent) hs).trans hparent).symm.trans hroot
    · exact absurd (Option.some.inj (hroot.symm.trans hb.global)) (by decide)

/-- The scopes of the other files are outside. -/
theorem Stems.outside_of_laid (hb : Laid p.units b) (hfinal : z.Framed final) (hnested : b.Nested final)
    (hid : b.fileScopes.get? unit.path = some z.root) {u : SourceUnit} (hu : u ∈ p.units) (hfile : u.path ≠ z.file) :
    z.Outside final (b.fileSite u).scope := by
  rw [Bindings.fileSite]
  cases hscope : b.fileScopes.get? u.path with
  | none => exact hfinal.outside_global
  | some scope =>
    rw [Option.getD_some]
    rcases hb.files _ _ hscope with rfl | houter
    · exact hfinal.outside_global
    · refine .outer (fun heq => ?_) (hnested _ _ houter) hfinal.outside_global
      subst heq
      rcases hb.apart _ _ _ hscope hid with hglobal | hpath
      · exact hfinal.root.2 hglobal
      · exact hfile (h.other hp hu hpath ▸ h.file)

/-- When the files are bound, the import is. -/
theorem Stems.holds (hroot : z.root = ((Bindings.ofProgram p).fileSite unit).scope) : z.Holds p (Bindings.ofProgram p) := by
  have hlaid : Laid p.units (p.units.foldl Bindings.openFile (Bindings.start p)) := laid_openFiles hp.apart
  have hfinal : p.units.foldl Bindings.bindFile (p.units.foldl Bindings.openFile (Bindings.start p)) = Bindings.ofProgram p := rfl
  have hprogram := Bindings.program_ofProgram p
  generalize p.units.foldl Bindings.openFile (Bindings.start p) = b at hlaid hfinal
  generalize Bindings.ofProgram p = final at hfinal hroot hprogram ⊢
  have hany : Fills .any b final := hfinal ▸ Fills.any_bindFiles p.units b
  have hkept {b' : Bindings} {E : Entries} (hb' : Fills E b b') (u : SourceUnit) : b'.fileSite u = b.fileSite u := by
    rw [Bindings.fileSite, Bindings.fileSite, hb'.files]
  obtain ⟨id, hid, houter⟩ := hlaid.own unit h.mem h.module
  obtain rfl : id = z.root := by rw [hroot, hkept hany, Bindings.fileSite, hid, Option.getD_some]
  have hframed := (framed_of_laid hlaid houter).fills hany
  have houtside (u : SourceUnit) (hu : u ∈ p.units) (hfile : u.path ≠ z.file) := h.outside_of_laid hp hlaid hframed hany.nested hid hu hfile
  have hseat : (b.fileSite unit).scope = z.root := by rw [Bindings.fileSite, hid, Option.getD_some]
  -- The files before that of the import, that file, and the files behind it.
  obtain ⟨front, back, hunits, hothers⟩ := h.split hp
  rw [hunits, List.foldl_append, List.foldl_cons] at hfinal
  have hlast : (back.foldl Bindings.bindFile ((front.foldl Bindings.bindFile b).bindFile unit)).Nested final := hfinal ▸ .refl _
  have hmiddle := (Fills.any_bindFiles back ((front.foldl Bindings.bindFile b).bindFile unit)).nested.trans hlast
  have hearly := (Fills.any_bindBody _ _ _ : Fills .any _ ((front.foldl Bindings.bindFile b).bindFile unit)).nested.trans hmiddle
  have hhas : b.Has z.root := (hlaid.seated.files _ _ hid).2
  have hallow := hlaid.allow z final
  have hfront := fills_bindFiles h.lawful hframed hallow hhas (fun u hu =>
    have hu := hothers u (List.mem_append_left _ hu)
    ⟨hu.2, houtside u hu.1 hu.2⟩) hearly
  obtain ⟨hunit, hvalue, htype⟩ := h.fills_bindFile hframed (hfront.allow hallow) (hfront.has hhas)
    ((congrArg Site.scope (hkept hfront unit)).trans hseat) hmiddle
  have hfirst := hfront.trans hunit
  have hback := fills_bindFiles h.lawful hframed (hfirst.allow hallow) (hfirst.has hhas) (fun u hu =>
    have hu := hothers u (List.mem_append_right _ hu)
    ⟨hu.2, hkept hfirst u ▸ houtside u hu.1 hu.2⟩) hlast
  rw [hfinal] at hback
  have hall := hfirst.trans hback
  refine ⟨hprogram, hframed, hall.allow hallow, hall.has hhas, hback.isSome_value hvalue, hback.isSome_type htype, fun u hu hfile => ?_,
    fun u hu hfile => ?_⟩
  · have hbeq : (u.path == unit.path) = true := hfile ▸ h.file ▸ BEq.refl _
    rw [h.other hp hu hbeq, hkept hany, hseat]
  · exact hkept hany u ▸ houtside u hu hfile

end

/-! ## What stands -/

section

variable (h : z.Stems p unit s) (hp : p.WellRead)

/-- The table of a body that says nothing about other modules fits in with all others. -/
theorem nested_plain (hb : z.Framed b) {body : Body} {parent : ScopeId} (hplain : body.isPlain = true) :
    (Bindings.bindInner body parent body.key.file (Bindings.start default)).Nested b := by
  intro id outer houter
  cases id with
  | inner => exact houter
  | main n =>
    have htable := (@binds_plain body parent hplain).tables (.main n) nofun
    have hmain : (Bindings.bindInner body parent body.key.file (Bindings.start default)).main = (Bindings.start default).main := htable
    unfold Bindings.outer? at houter
    dsimp only at houter
    rw [hmain] at houter
    match n, houter with
    | 0, houter => exact nomatch houter
    | 1, houter => exact houter ▸ hb.global
    | _ + 2, houter => exact nomatch houter

include h in
/-- Nothing is inside of an import. -/
theorem Stems.parts_eq_nil : (Node.statement s).parts = [] := by
  have hbinding := h.binding
  cases s with
  | importDecl | importEquals => rfl
  | _ => exact nomatch hbinding

include h in
theorem Stems.body?_eq_none (file : Path) : (Node.statement s).body? file = none := by
  have hbinding := h.binding
  cases s with
  | importDecl | importEquals => rfl
  | _ => exact nomatch hbinding

include h hp

omit hp in
/-- What stands in a body is bound on its side. -/
theorem Stems.allow_body (hb : z.Holds p b) {x : Item} {body : Body} (hx : z.Accepts b x)
    (hbody : x.node.body? x.site.file = some body) : (z.entries b).Allow (b.source (.inner body x.site.scope 0)) := by
  unfold Bindings.source
  dsimp only
  split
  · rename_i hplain
    have hstart := (laid_start (p := default)).allow z b
    have hfills := fills_bindInner h.lawful hb.framed body.key.file hx hbody hstart (fun hnot => nomatch hplain.symm.trans hnot)
      (nested_plain hb.framed hplain)
    exact hfills.allow (allow_withBody hstart)
  · exact hb.allow

/-- Where something stands in the files of a program. -/
theorem Stems.fits (hvalid : Valid b) (hb : z.Holds p b) {x : Item} (hx : Stands b x) :
    (z.Accepts b x ∨ x.node = .statement s) ∧ (z.entries b).Allow (b.source x.site.scope) := by
  induction hx with
  | @root u s' hu hs =>
    refine ⟨?_, ?_⟩
    · by_cases hfile : u.path = z.file
      · have hbeq : (u.path == unit.path) = true := hfile ▸ h.file ▸ BEq.refl _
        obtain rfl := h.other hp (hb.program ▸ hu) hbeq
        obtain ⟨before, after, hstatements, hothers⟩ := h.statements
        have hmem : s' = s ∨ s' ∈ z.others := by
          rw [hstatements] at hs
          rw [hothers, List.mem_append]
          rcases List.mem_append.mp hs with hs | hs
          · exact .inr (.inl hs)
          · exact (List.mem_cons.mp hs).imp_right .inr
        refine hmem.elim (fun heq => .inr (congrArg Node.statement heq)) fun hmem => .inl ⟨fun _ => ⟨s', hmem, .self _⟩, .inl ?_⟩
        exact ⟨hb.site _ (hb.program ▸ hu) hfile ▸ .refl _, hfile, .inl (h.lawful.screened hmem)⟩
      · have houtside := hb.outside u (hb.program ▸ hu) hfile
        exact .inl ⟨fun heq => absurd heq hfile, .inr ⟨houtside, fun heq => absurd heq hfile⟩⟩
    · rw [hvalid.source_of_scope (.inl (hvalid.files u hu).1)]
      exact hb.allow
  | @part x y hx hy ih =>
    obtain ⟨site, hinside, hnode, rfl⟩ := Item.mem_parts.mp hy
    obtain ⟨haccepts, hsource⟩ := ih
    have haccepts := haccepts.resolve_right fun heq => by
      rw [heq, h.parts_eq_nil] at hnode
      exact nomatch hnode
    have hsame := haccepts.side.imp (fun h => And.intro h.1 h.1) fun h => And.intro h.1 h.1
    have hpart {inner : ScopeId} (hinner : z.Continues b x inner) : z.Accepts b ⟨y.node, { x.site with scope := inner }⟩ :=
      haccepts.part h.lawful hinner hnode
    obtain ⟨node, site⟩ := y
    dsimp only at hinside hpart ⊢
    rcases Item.inside_cases hinside with ⟨body, hbody, hopen, rfl⟩ | ⟨d, hd, rfl⟩ | ⟨hbody, rfl⟩
    · refine ⟨.inl (hpart (haccepts.continues hb.framed ?_)), h.allow_body hb haccepts hbody⟩
      exact hsame.imp (fun h' => ⟨h'.1, h'.1.inner h.lawful.root⟩) fun h' => ⟨h'.1, h'.1.inner h.lawful.root⟩
    · cases hmodule : b.moduleScope? x.site.scope ⟨.moduleDecl, x.site.file, d.span.start⟩ with
      | none => exact ⟨.inl (hpart (haccepts.continues hb.framed hsame)), hsource⟩
      | some inner =>
        rw [Bindings.moduleScope?_eq] at hmodule
        have hspot : moduleSpot d.span.start ∈ x.node.module := hd ▸ List.mem_cons_self
        refine ⟨.inl (hpart (haccepts.continues_noted h.lawful hspot (hsource.notes _ _ _ hmodule))), ?_⟩
        rcases ((hvalid.bound_source (hvalid.standsScope_site hx)).module x.site.scope _ inner rfl hmodule).1 with hhome | rfl
        · rw [Option.getD_some, Bindings.source_congr hhome]
          exact hsource
        · exact hb.allow
    · exact ⟨.inl (hpart (haccepts.continues hb.framed hsame)), hsource⟩

/-- What is bound stays on its side when a body is opened. -/
theorem Stems.lasting (file : Path) : Lasting p file (z.Holds p) := by
  intro b x body hvalid _ hb hx hbody hplain
  have hgrows := hvalid.grows_openBody hx hbody hplain file
  by_cases hopened : ScopeId.inner body x.site.scope 0 ∈ b.opened
  · rw [Bindings.openBody]
    simpa [hopened] using hb
  have hnested := b.nested_openBody body x.site.scope file
  have haccepts := (h.fits hp hvalid hb hx).1.resolve_right fun heq => by
    rw [heq, h.body?_eq_none] at hbody
    cases hbody
  have hopen := Bindings.openBody_eq file hopened
  have htable (id : ScopeId) : (b.openBody body x.site.scope file).tableOf id =
      (Bindings.bindInner body x.site.scope file b).tableOf id := Bindings.tableOf_openBody file hopened
  have hany := Fills.any_bindInner (b := b) body x.site.scope file
  have hsame : (Bindings.bindInner body x.site.scope file b).Nested (b.openBody body x.site.scope file) := by
    rw [hopen]
    intro id _ houter
    cases id <;> exact houter
  have hframed : z.Framed (b.openBody body x.site.scope file) := by
    have hwith : z.Framed (b.withBody body x.site.scope) := ⟨hb.framed.edge, hb.framed.global, hb.framed.root⟩
    have hbound := hwith.fills hany
    rw [hopen]
    exact ⟨hbound.edge, hbound.global, hbound.root⟩
  have hallow := allow_mono hnested hb.allow
  have hfills := fills_bindInner h.lawful hframed file (haccepts.mono hnested) hbody hallow (fun _ => hb.has) hsame
  have hroot := @tableOf_withBody_main b z.root body x.site.scope h.lawful.root
  have hsite (u : SourceUnit) : (b.openBody body x.site.scope file).fileSite u = b.fileSite u := by
    have hfiles := hany.files
    rw [hopen, Bindings.fileSite, Bindings.fileSite]
    dsimp only
    rw [hfiles]
    rfl
  refine ⟨hgrows.program.trans hb.program, hframed, (hfills.allow (allow_withBody hallow)).congr htable, ?_, ?_, ?_,
    fun u hu hfile => ?_, fun u hu hfile => ?_⟩
  · rw [Bindings.Has, Bindings.scopeIn?, htable]
    refine hany.has ?_
    rw [Bindings.Has, Bindings.scopeIn?, hroot]
    exact hb.has
  · rw [Bindings.valueIn?, htable]
    refine hany.isSome_value ?_
    rw [Bindings.valueIn?, hroot]
    exact hb.value
  · rw [Bindings.typeIn?, htable]
    refine hany.isSome_type ?_
    rw [Bindings.typeIn?, hroot]
    exact hb.type
  · rw [hsite]
    exact hb.site u hu hfile
  · rw [hsite]
    exact (hb.outside u hu hfile).mono hnested

/-! ## What names lead to -/

/-- What is in a scope that stands is on its side. -/
theorem Stems.allow_source (hvalid : Valid b) (hb : z.Holds p b) {id : ScopeId} (hid : StandsScope b id) :
    (z.entries b).Allow (b.source id) := by
  rcases hid with hhome | ⟨x, body, hx, hbody, -, hhome⟩
  · rw [hvalid.source_of_scope (.inl hhome)]
    exact hb.allow
  · have haccepts := (h.fits hp hvalid hb hx).1.resolve_right fun heq => by
      rw [heq, h.body?_eq_none] at hbody
      exact nomatch hbody
    have hsource : b.source id = b.source (.inner body x.site.scope 0) := Bindings.source_congr hhome
    exact hsource ▸ h.allow_body hb haccepts hbody

omit h hp in
/-- Outwards from inside the zone the first scope that has the name is that of the file. -/
theorem Holds.findOutwards (hz : z.Lawful) (hvalid : Valid b) (hb : z.Holds p b) {α : Type} {get : Scope → Option α} {target : α}
    (hget : ∀ id s symbol, StandsScope b id → b.scopeAt? id = some s → get s = some symbol →
      z.Outside b id ∨ id = z.root ∧ symbol = target)
    (hroot : ∀ s, b.scopeAt? z.root = some s → (get s).isSome) {n : Nat} {id : ScopeId} (hid : StandsScope b id)
    (hinside : z.Inside b id) (hfinds : b.Finds id) (hn : id.reach ≤ n) : b.findOutwards get n id = some target := by
  induction n generalizing id with
  | zero => cases id <;> exact absurd hn (by simp [ScopeId.reach])
  | succ n ih =>
    obtain ⟨s, hs⟩ := Option.isSome_iff_exists.mp hfinds
    rw [Bindings.findOutwards, hs]
    dsimp only
    cases hfound : get s with
    | some symbol => exact congrArg some ((hget id s symbol hid hs hfound).resolve_left (hb.framed.apart hinside)).2
    | none =>
      have hne : id ≠ z.root := by
        rintro rfl
        cases hfound ▸ hroot s hs
      have hnext {parent : ScopeId} (hparent : s.parent = some parent) := hvalid.standsScope_parent hid hs hparent
      have hnot := hb.framed.apart hinside
      have houter := (hvalid.holds hid hs).outer
      unfold Rights.Outer at houter
      cases hinside with
      | refl => exact absurd rfl hne
      | @outer _ parent _ _ hparent hclimbs =>
        split at houter
        · exact absurd (.refl _) hnot
        · rename_i body around
          obtain rfl := Option.some.inj hparent
          rw [houter]
          refine ih (hnext houter) hclimbs ?_ (by simp only [ScopeId.reach] at hn; omega)
          rcases hid with hhome | ⟨x, body', hx, -, -, hhome⟩
          · cases hhome
          · obtain ⟨-, hscope, -⟩ := ScopeId.inner.inj hhome
            exact hscope ▸ hvalid.finds_site hx
        · obtain ⟨m, hm, hbeside⟩ := houter
          rw [hbeside]
          have hreach : (id.beside m).reach + id.index = id.reach + m := by
            cases id <;> simp only [ScopeId.reach, ScopeId.beside, ScopeId.index] <;> omega
          refine ih (hnext hbeside) ?_ (Bindings.finds_of_lt hs hm) (by omega)
          cases id with
          | main k =>
            have heq : b.outer? (.main k) = s.parent := congrArg (·.bind Scope.parent) hs
            obtain rfl := Option.some.inj (hparent.symm.trans (heq.trans hbeside))
            exact hclimbs
          | inner body around k =>
            obtain rfl := Option.some.inj hparent
            exact hclimbs.inner hz.root

/-- Inside its zone the name of an import leads to it. -/
theorem Stems.leads (hvalid : Valid b) (hb : z.Holds p b) {x : Item} (hx : Stands b x) (hinside : z.Inside b x.site.scope) :
    b.lookupValue x.site.scope z.name.name = some (.imported z.binding) ∧
      b.lookupType x.site.scope z.name.name = some (.imported z.binding) := by
  have hscope := hvalid.standsScope_site hx
  have hfinds := hvalid.finds_site hx
  have hreach := (hvalid.grounded hx).reach_le
  have hsource : b.source z.root = b := hvalid.source_of_scope (.inl h.lawful.root)
  have hhere {s' : Scope} (hs : b.scopeAt? z.root = some s') : b.scopeIn? z.root = some s' := by
    rwa [Bindings.scopeAt?_eq, hsource] at hs
  constructor
  · refine hb.findOutwards h.lawful hvalid (fun id s' symbol hid hs hsymbol => ?_) (fun s' hs => ?_) hscope hinside hfinds hreach
    · rw [Bindings.scopeAt?_eq] at hs
      have hentry := (h.allow_source hp hvalid hb hid).values id z.name.name symbol (Option.bind_eq_some_iff.mpr ⟨s', hs, hsymbol⟩)
      exact hentry.1 rfl
    · have hvalue := hb.value
      rwa [Bindings.valueIn?_eq, hhere hs, Option.bind_some] at hvalue
  · refine hb.findOutwards h.lawful hvalid (fun id s' symbol hid hs hsymbol => ?_) (fun s' hs => ?_) hscope hinside hfinds hreach
    · rw [Bindings.scopeAt?_eq] at hs
      have hentry := (h.allow_source hp hvalid hb hid).types id z.name.name symbol (Option.bind_eq_some_iff.mpr ⟨s', hs, hsymbol⟩)
      exact hentry.1 rfl
    · have htype := hb.type
      rwa [Bindings.typeIn?_eq, hhere hs, Option.bind_some] at htype

/-- An import that another name leads to is another one. -/
theorem Stems.leads_elsewhere (hvalid : Valid b) (hb : z.Holds p b) {x : Item} (hx : Stands b x) {name : String}
    (hname : name ≠ z.name.name) {binding : ImportBinding} (hfound : b.lookupValue x.site.scope name = some (.imported binding) ∨
      b.lookupType x.site.scope name = some (.imported binding)) :
    ∃ id, binding.localName = some id ∧ importKey binding.home id ≠ z.key := by
  have hscope := hvalid.standsScope_site hx
  have himports : z.Imports name binding := by
    rcases hfound with hfound | hfound
    · obtain ⟨id, s', hid, hs, hget⟩ := hvalid.findOutwards hscope hfound
      rw [Bindings.scopeAt?_eq] at hs
      have hentry := (h.allow_source hp hvalid hb hid).values id name _ (Option.bind_eq_some_iff.mpr ⟨s', hs, hget⟩)
      exact hentry.2.2 binding rfl
    · obtain ⟨id, s', hid, hs, hget⟩ := hvalid.findOutwards hscope hfound
      rw [Bindings.scopeAt?_eq] at hs
      have hentry := (h.allow_source hp hvalid hb hid).types id name _ (Option.bind_eq_some_iff.mpr ⟨s', hs, hget⟩)
      exact hentry.2 binding rfl
  obtain ⟨id, hid, hkey⟩ := himports
  exact ⟨id, hid, fun heq => hname (hkey heq)⟩

omit h hp in
/-- A node of the file from where the name of the import leads to it. -/
structure Sees (z : Zone) (b : Bindings) (x : Item) : Prop where
  inside : z.Inside b x.site.scope
  file : x.site.file = z.file
  occurs : z.Occurs x.node
  screened : z.Screened x.node

omit hp in
/-- The parts of a node in the zone are in the zone, unless it is a block for the scope that all files share. -/
theorem Stems.inside_core {x : Item} (hsees : z.Sees b x) (hsource : (z.entries b).Allow (b.source x.site.scope))
    (hopen : x.node.isGlobal = false) : z.Inside b (x.core b).scope ∧ (x.core b).file = z.file := by
  cases hbody : x.node.body? x.site.file with
  | some body =>
    rw [Item.core, hbody]
    exact ⟨hsees.inside.inner h.lawful.root, hsees.file⟩
  | none =>
    rw [Item.core, hbody]
    dsimp only
    cases hinside : x.inside b with
    | none => exact ⟨hsees.inside, hsees.file⟩
    | some site =>
      rcases Item.inside_cases hinside with ⟨body, hsome, -, -⟩ | ⟨d, hd, rfl⟩ | ⟨-, rfl⟩
      · cases hbody.symm.trans hsome
      · refine ⟨?_, hsees.file⟩
        cases hmodule : b.moduleScope? x.site.scope ⟨.moduleDecl, x.site.file, d.span.start⟩ with
        | none => exact hsees.inside
        | some inner =>
          rw [Bindings.moduleScope?_eq] at hmodule
          have hspot : moduleSpot d.span.start ∈ x.node.module := hd ▸ List.mem_cons_self
          have hnodup := h.lawful.nodup hsees.occurs
          rcases hsource.notes _ _ _ hmodule with ⟨hinner, -⟩ | ⟨-, hhidden⟩
          · exact hinner
          · have hmem : moduleSpot d.span.start ∈ x.node.content.modules := x.node.modules_eq ▸ List.mem_append_left _ hspot
            exact absurd (hsees.screened _ hmem (hhidden hsees.file)) (Node.not_hides_module hnodup hopen hspot)
      · exact ⟨hsees.inside, hsees.file⟩

theorem Stems.sights : Sights (z.Holds p) z.binding z.name.name z.Sees where
  finds b x hvalid hb hx hsees := h.leads hp hvalid hb hx hsees.inside
  later b b' x hsees _ hnested := ⟨hsees.inside.mono hnested, hsees.file, hsees.occurs, hsees.screened⟩
  part b x m hvalid hb hx hsees hopen hm := by
    obtain ⟨hinside, hfile⟩ := h.inside_core hsees (h.allow_source hp hvalid hb (hvalid.standsScope_site hx)) hopen
    exact ⟨hinside, hfile, hsees.occurs.part hm, hsees.screened.part h.lawful hsees.occurs hopen hm⟩

end

end

end Zone

end Recheck.Check
