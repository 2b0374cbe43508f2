import Recheck.Proofs.Program.Search
import Mathlib.Data.Set.Function

/-!
# What reuse leaves alone

`Program.create` takes tables over from an older program instead of searching again. Whatever that program was made
from, a table that it passes on lists the specifiers of the file (`Program.Listed`), its targets are files, and what
it did not find is still not to be found. So one thing only can differ from a program made without an older one: a
file that stands in front of a target, and was not there when the table was made (`create_reusing_iff`). Such a file
is missed (`reuse_misses_file`).
-/

set_option autoImplicit false

namespace Recheck

/-- The units of a loader are what their texts read as, and the texts are among the given ones. -/
def Loader.Reads {σ : Type} (loader : Loader σ) (texts : Set String) : Prop :=
  ∀ st path unit, loader.answer st path = some unit → unit.Read ∧ unit.text ∈ texts

theorem Host.steady_loader (host : Host) : host.loader.Steady := fun _ _ _ _ => rfl

theorem Host.reads_loader {host : Host} {texts : Set String}
    (h : ∀ path text, host.read? path = some text → text ∈ texts) : host.loader.Reads texts := by
  intro _ path unit hanswer
  have hread : (host.read? path).map (SourceUnit.ofText path) = some unit := hanswer
  obtain ⟨text, ht, rfl⟩ := Option.map_eq_some_iff.mp hread
  exact ⟨SourceUnit.read_ofText path text, h path text ht⟩

/-- Files with the same content have the same specifiers, if the texts are told apart by their hashes. -/
theorem SourceUnit.specifiers_eq {texts : Set String} (htexts : Set.InjOn ContentHash.ofText texts)
    {a b : SourceUnit} (ha : a.Read ∧ a.text ∈ texts) (hb : b.Read ∧ b.text ∈ texts)
    (h : a.contentHash = b.contentHash) : a.tree.specifiers = b.tree.specifiers := by
  have htext : a.text = b.text := htexts ha.2 hb.2 h
  rw [ha.1, hb.1, ofText, ofText, htext]

namespace Program

variable {texts : Set String} {options : CompilerOptions} {old : Option Program} {files : Files} {σ : Type}
  {loader : Loader σ} {p : Program} {host : Host} {path : Path} {unit : SourceUnit}

/-- Programs that were created one from another, each on files and with a loader of its own, with the same options
and from the given texts; none to begin with. -/
inductive Built (texts : Set String) (options : CompilerOptions) : Option Program → Prop where
  | nothing : Built texts options none
  | create {σ : Type} {loader : Loader σ} {old : Option Program} (hold : Built texts options old)
      (hsteady : loader.Steady) (hreads : loader.Reads texts) (files : Files) (rootNames : List Path) (st : σ) :
      Built texts options (some ((Program.create rootNames options files.toHost loader old).run st).1)

/-- Each file was read from one of the given texts, and has a table that lists its specifiers. -/
def Listed (texts : Set String) (p : Program) : Prop :=
  ∀ path unit, (path, unit) ∈ p.files.entries → (unit.Read ∧ unit.text ∈ texts) ∧
    ∃ table, p.resolutions.get? path = some table ∧ table.keys = distinct unit.tree.specifiers

/-- In no table stands a file of the host in front of a target. -/
def Unshadowed (p : Program) (host : Host) : Prop :=
  ∀ file ∈ p.files.entries, ∀ table ∈ p.resolutions.get? file.1, ∀ entry ∈ table.entries, ∀ target ∈ entry.2,
    Resolve.resolve entry.1 file.2.path p.options host = some target

instance (p : Program) (host : Host) : Decidable (p.Unshadowed host) := by
  unfold Unshadowed
  infer_instance

/-- A table that is taken over from a program with listed tables lists the specifiers, as a new one does. -/
theorem keys_tableFor (htexts : Set.InjOn ContentHash.ofText texts) (hold : ∀ p, old = some p → p.Listed texts)
    (hunit : unit.Read ∧ unit.text ∈ texts) :
    (tableFor host options old path unit).keys = distinct unit.tree.specifiers := by
  unfold tableFor
  cases hr : reusable? old path unit options host with
  | none => exact keys_resolveImports unit options host
  | some table =>
    obtain ⟨p, hp, before, hbefore, hhash, htable, -⟩ := reusable?_eq_some_iff.mp hr
    obtain ⟨key, hm, hk⟩ := Dict.exists_mem_of_get? hbefore
    obtain ⟨hread, table', htable', hkeys⟩ := hold p hp key before hm
    rw [p.resolutions.get?_congr hk, htable] at htable'
    rw [Option.getD_some, Option.some.inj htable', hkeys, SourceUnit.specifiers_eq htexts hread hunit hhash]

section Creation

variable (hsteady : loader.Steady) (rootNames : List Path) (st : σ)

include hsteady

/-- Creation is the search by the first answers of the loader. -/
theorem create_eq_last : (create rootNames options files.toHost loader old).run st =
    (((Oracle.ofLoader loader st files.toHost options old).last (rootNames.map Path.normalize) options
        files.toHost).program,
      ((Oracle.ofLoader loader st files.toHost options old).last (rootNames.map Path.normalize) options
        files.toHost).seen.foldl loader.after st) := by
  have hhost := Files.finite_toHost files
  rw [create_run hsteady hhost, Oracle.last_program _ _ hhost (Oracle.within_ofLoader loader st _ options old)]
  rfl

theorem options_create :
    ((create rootNames options files.toHost loader old).run st).1.options = options := by
  rw [create_run hsteady (Files.finite_toHost files)]
  rfl

/-- The files of a created program are those that are discovered and can be loaded. -/
theorem mem_files_create :
    (path, unit) ∈ ((create rootNames options files.toHost loader old).run st).1.files.entries ↔
      path ∈ (Oracle.ofLoader loader st files.toHost options old).discovered (rootNames.map Path.normalize) options
        files.toHost ∧ loader.answer st path = some unit := by
  have hhost := Files.finite_toHost files
  rw [create_run hsteady hhost]
  exact mem_files_program (Oracle.oneSpelling_discovered (oneSpelling_normalize rootNames) options hhost
    (Oracle.within_ofLoader loader st files.toHost options old))

theorem resolutions_create
    (hm : (path, unit) ∈ ((create rootNames options files.toHost loader old).run st).1.files.entries) :
    ((create rootNames options files.toHost loader old).run st).1.resolutions.get? path =
      some (tableFor files.toHost options old path unit) := by
  obtain ⟨hpath, hanswer⟩ := (mem_files_create hsteady rootNames st).mp hm
  have hhost := Files.finite_toHost files
  rw [create_run hsteady hhost]
  refine (resolutions_program (Oracle.oneSpelling_discovered (oneSpelling_normalize rootNames) options hhost
    (Oracle.within_ofLoader loader st files.toHost options old))).mpr ⟨path, hpath, BEq.rfl, ?_⟩
  show (loader.answer st path).map _ = _
  rw [hanswer]
  rfl

end Creation

theorem Built.listed (htexts : Set.InjOn ContentHash.ofText texts) (h : Built texts options old) :
    ∀ p, old = some p → p.Listed texts := by
  induction h with
  | nothing =>
    intro p hp
    cases hp
  | create hold hsteady hreads files rootNames st ih =>
    intro p hp path unit hm
    obtain rfl := Option.some.inj hp
    have hunit := hreads st path unit ((mem_files_create hsteady rootNames st).mp hm).2
    exact ⟨hunit, _, resolutions_create hsteady rootNames st hm, keys_tableFor htexts ih hunit⟩

/-- **Reuse is transparent up to files that appeared in front of a target.** Take a program that was created on some
files, after others and from others. To create the next one from it is the same as to create it from none, with the
same files in the same order, the same tables, the same missing roots and the same state of the loader, if and only
if no table that it gets passes by a file. -/
theorem create_reusing_iff (htexts : Set.InjOn ContentHash.ofText texts) (hold : Built texts options old)
    (hsteady : loader.Steady) (hreads : loader.Reads texts) (files : Files) (rootNames : List Path) (st : σ) :
    (create rootNames options files.toHost loader old).run st =
        (create rootNames options files.toHost loader none).run st ↔
      ((create rootNames options files.toHost loader old).run st).1.Unshadowed files.toHost := by
  constructor
  · intro h
    rw [h]
    intro file hm table htable entry hentry target htarget
    -- Without an older program, all tables are those of a new search.
    have hnew := resolutions_create hsteady rootNames st hm
    rw [Option.mem_def.mp htable, Option.some.injEq] at hnew
    subst hnew
    rw [options_create hsteady, ← Option.mem_def.mp htarget]
    exact (mem_resolveImports hentry).symm
  · intro h
    -- The two searches agree on every path that the first one discovers.
    have hlast : (Oracle.ofLoader loader st files.toHost options old).last (rootNames.map Path.normalize) options
        files.toHost = (Oracle.ofLoader loader st files.toHost options none).last (rootNames.map Path.normalize)
          options files.toHost := by
      refine Oracle.last_congr fun path hpath => ⟨rfl, ?_⟩
      show (loader.answer st path).map _ = (loader.answer st path).map _
      cases hanswer : loader.answer st path with
      | none => rfl
      | some unit =>
        have hm := (mem_files_create hsteady rootNames st).mpr ⟨hpath, hanswer⟩
        have htable := resolutions_create hsteady rootNames st hm
        refine congrArg some (tableFor_eq_iff.mpr ⟨?_, fun specifier target hentry => ?_⟩)
        · exact keys_tableFor htexts (hold.listed htexts) (hreads st path unit hanswer)
        · have hfirst := h _ hm _ htable _ hentry _ rfl
          rwa [options_create hsteady] at hfirst
    rw [create_eq_last hsteady, create_eq_last hsteady, hlast]

/-- A file and the declarations that it imports. -/
def declared : Files :=
  (Files.write .empty ⟨"/m.ts"⟩ "import './x'").write ⟨"/x.d.ts"⟩ "export \x7b\x7d"

/-- The program of some files, from the one of others. -/
def onward (before after : Files) : StateM Unit Program :=
  create [⟨"/m.ts"⟩] .standard after.toHost after.toHost.loader (some (ofHost [⟨"/m.ts"⟩] .standard before.toHost))

/-- A file appears behind the target. -/
def indexed : Files := declared.write ⟨"/x/index.ts"⟩ "export \x7b\x7d"

set_option maxRecDepth 100000 in
theorem create_reusing_indexed : ((onward declared indexed).run ()).1.Unshadowed indexed.toHost ∧
    (onward declared indexed).run () =
      (create [⟨"/m.ts"⟩] .standard indexed.toHost indexed.toHost.loader none).run () := by
  let texts : Set String := {"import './x'", "export \x7b\x7d"}
  have htexts : Set.InjOn ContentHash.ofText texts :=
    Set.injOn_pair.mpr fun h => absurd h (by decide +kernel)
  have hreads : ∀ files : Files, (∀ e ∈ files.entries, e.2 = "import './x'" ∨ e.2 = "export \x7b\x7d") →
      files.toHost.loader.Reads texts := by
    intro files hfiles
    refine Host.reads_loader fun path text ht => ?_
    obtain ⟨key, hm, -⟩ := Dict.exists_mem_of_get? ht
    exact hfiles _ hm
  have hbuilt : Built texts .standard (some (ofHost [⟨"/m.ts"⟩] .standard declared.toHost)) :=
    .create .nothing (Host.steady_loader _) (hreads declared (by decide +kernel)) declared _ ()
  have hclear : ((onward declared indexed).run ()).1.Unshadowed indexed.toHost := by decide +kernel
  exact ⟨hclear, (create_reusing_iff htexts hbuilt (Host.steady_loader _) (hreads indexed (by decide +kernel))
    indexed _ ()).mpr hclear⟩

/-- A file appears in front of the target. -/
def implemented : Files := declared.write ⟨"/x.ts"⟩ "export \x7b\x7d"

set_option maxRecDepth 100000 in
/-- The import stands for the new file, and the table of the program before keeps it with the declarations. -/
theorem reuse_misses_file :
    ((onward declared implemented).run ()).1.files.keys = [⟨"/m.ts"⟩, ⟨"/x.d.ts"⟩] ∧
      (ofHost [⟨"/m.ts"⟩] .standard implemented.toHost).files.keys = [⟨"/m.ts"⟩, ⟨"/x.ts"⟩] := by
  refine ⟨?_, ?_⟩ <;> decide +kernel

end Program

end Recheck
