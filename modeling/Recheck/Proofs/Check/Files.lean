import Recheck.Proofs.Check.Scopes

/-!
# Binding the files of a program

Each file gets its scope before any is bound, and modules of different files have different K. So the files can be bound
one by one, and in the end the tables hold what stands in the files (`valid_ofProgram`).
-/

set_option autoImplicit false

namespace Recheck

open Syntax

/-- A value that a dictionary is made from. -/
theorem Dict.mem_of_get?_ofList {α β : Type} [BEq α] [EquivBEq α] {pairs : List (α × β)} {key : α} {value : β}
    (h : (Dict.ofList pairs).get? key = some value) : ∃ k, (k, value) ∈ pairs := by
  have hfold (d : Dict α β) (k : α)
      (hk : (k, value) ∈ (pairs.foldl (fun d (k, v) => d.insert k v) d).entries) :
      (k, value) ∈ d.entries ∨ ∃ k, (k, value) ∈ pairs := by
    clear h
    induction pairs generalizing d with
    | nil => exact .inl hk
    | cons pair pairs ih =>
      rcases ih _ hk with hk | ⟨k, hk⟩
      · rcases Dict.mem_insert hk with hk | ⟨rfl, -⟩
        · exact .inl hk
        · exact .inr ⟨pair.1, List.mem_cons_self⟩
      · exact .inr ⟨k, List.mem_cons_of_mem _ hk⟩
  obtain ⟨k, hk, -⟩ := Dict.exists_mem_of_get? h
  exact (hfold .empty k hk).resolve_left nofun

namespace Check

/-! ## Scopes for the files -/

theorem exists_builtin_value {name : String} {symbol : ValueSymbol} (h : builtinValues.get? name = some symbol) :
    ∃ builtin, symbol = .builtin builtin := by
  obtain ⟨k, hk⟩ := Dict.mem_of_get?_ofList h
  rcases List.mem_append.mp hk with hk | hk
  · obtain ⟨_, -, heq⟩ := List.mem_map.mp hk
    exact ⟨_, (Prod.mk.inj heq).2.symm⟩
  · exact ⟨_, (Prod.mk.inj (List.mem_singleton.mp hk)).2⟩

theorem exists_builtin_type {name : String} {symbol : TypeSymbol} (h : builtinTypes.get? name = some symbol) :
    ∃ builtin, symbol = .builtin builtin := by
  obtain ⟨k, hk⟩ := Dict.mem_of_get?_ofList h
  rcases List.mem_append.mp hk with hk | hk <;>
  · obtain ⟨_, -, heq⟩ := List.mem_map.mp hk
    exact ⟨_, (Prod.mk.inj heq).2.symm⟩

/-- What holds while the files get their scopes, and later while they are bound. -/
structure Seated (b : Bindings) : Prop where
  bodies : ∀ id, id.home ≠ .main 0 → b.tableOf id = .empty
  opened : b.opened = []
  global : b.Has globalScope
  files : ∀ path scope, b.fileScopes.get? path = some scope → scope.home = .main 0 ∧ b.Has scope
  modules : ∀ path scope, b.modules.get? path = some scope → scope.home = .main 0 ∧ b.Has scope

section

variable {R : Rights} {b b' : Bindings} {p : Program} {unit : SourceUnit} {units : List SourceUnit}

theorem bound_start (hR : ∀ id, R.scope id → id.home = .main 0) : Bound R (Bindings.start p) := by
  refine ⟨fun id s hid hs => ?_, fun id key inner hid hinner => ?_⟩
  · cases id with
    | inner => exact nomatch hR _ hid
    | main n =>
      match n, hs with
      | 0, hs =>
        obtain rfl := Option.some.inj hs
        have himport : builtinValues.contains "import" = true := by decide +kernel
        refine ⟨⟨rfl, himport⟩, fun name symbol hsymbol => ?_, fun name symbol hsymbol => ?_, nofun,
          ⟨nofun, nofun, nofun⟩⟩
        · obtain ⟨_, rfl⟩ := exists_builtin_value hsymbol
          trivial
        · obtain ⟨_, rfl⟩ := exists_builtin_type hsymbol
          trivial
      | 1, hs =>
        obtain rfl := Option.some.inj hs
        exact .inside ⟨0, Nat.zero_lt_one, rfl⟩
      | n + 2, hs => exact nomatch hs
  · cases id with
    | inner => exact nomatch hR _ hid
    | main n => exact nomatch hinner

theorem seated_start : Seated (Bindings.start p) := by
  refine ⟨fun id hid => ?_, rfl, rfl, nofun, nofun⟩
  cases id with
  | main => exact absurd rfl hid
  | inner => rfl

/-- Only the tables of the files grow when a file gets its scope. -/
theorem Seated.openFile (h : Seated b) (hb : Bound R b) (hR : ∀ id, R.scope id ↔ id.home = .main 0) (unit : SourceUnit) :
    Seated (b.openFile unit) ∧ Bound R (b.openFile unit) ∧ (b.openFile unit).program = b.program ∧
      (b.openFile unit).ambientModules = b.ambientModules := by
  have entry {d : Dict Path ScopeId} {b' : Bindings} {new : ScopeId} (hnew : new.home = .main 0 ∧ b'.Has new)
      (hd : ∀ path scope, d.get? path = some scope → scope.home = .main 0 ∧ b'.Has scope) (path : Path) (scope : ScopeId)
      (hscope : (d.insert unit.path new).get? path = some scope) : scope.home = .main 0 ∧ b'.Has scope := by
    rw [Dict.get?_insert] at hscope
    split at hscope
    · exact Option.some.inj hscope ▸ hnew
    · exact hd path scope hscope
  unfold Bindings.openFile
  split
  · obtain ⟨hbinds, hhome, hhas⟩ := hb.newScope (K := fun _ => False) ((hR globalScope).mpr rfl) h.global
    have keep {d : Dict Path ScopeId} (hd : ∀ path scope, d.get? path = some scope → scope.home = .main 0 ∧ b.Has scope)
        (path : Path) (scope : ScopeId) (hscope : d.get? path = some scope) :
        scope.home = .main 0 ∧ (b.newScope globalScope).2.Has scope :=
      ⟨(hd path scope hscope).1, hbinds.has _ (hd path scope hscope).2⟩
    have hbodies (id : ScopeId) (hid : id.home ≠ .main 0) : (b.newScope globalScope).2.tableOf id = .empty :=
      (hbinds.tables id fun hscope => hid ((hR id).mp hscope)).trans (h.bodies id hid)
    have htable (b' : Bindings) (hmain : b'.main = (b.newScope globalScope).2.main)
        (hinner : b'.bodies = (b.newScope globalScope).2.bodies) (id : ScopeId) :
        b'.tableOf id = (b.newScope globalScope).2.tableOf id := by
      cases id <;> simp [Bindings.tableOf, hmain, hinner]
    exact ⟨⟨fun id hid => (htable _ rfl rfl id).trans (hbodies id hid), h.opened, hbinds.has _ h.global,
      entry ⟨hhome, hhas⟩ (keep h.files), entry ⟨hhome, hhas⟩ (keep h.modules)⟩, hbinds.bound.of_tables (htable _ rfl rfl), rfl, rfl⟩
  · have htable (b' : Bindings) (hmain : b'.main = b.main) (hinner : b'.bodies = b.bodies) (id : ScopeId) :
        b'.tableOf id = b.tableOf id := by
      cases id <;> simp [Bindings.tableOf, hmain, hinner]
    exact ⟨⟨fun id hid => (htable _ rfl rfl id).trans (h.bodies id hid), h.opened, h.global,
      entry ⟨rfl, h.global⟩ h.files, h.modules⟩, hb.of_tables (htable _ rfl rfl), rfl, rfl⟩

theorem seated_openFiles (hR : ∀ id, R.scope id ↔ id.home = .main 0) :
    let b := units.foldl Bindings.openFile (Bindings.start p)
    Seated b ∧ Bound R b ∧ b.program = p ∧ b.ambientModules = [] := by
  suffices ∀ b, Seated b ∧ Bound R b ∧ b.program = p ∧ b.ambientModules = [] →
      let b' := units.foldl Bindings.openFile b
      Seated b' ∧ Bound R b' ∧ b'.program = p ∧ b'.ambientModules = [] from
    this _ ⟨seated_start, bound_start fun id => (hR id).mp, rfl, rfl⟩
  induction units with
  | nil => exact fun b h => h
  | cons unit units ih =>
    rintro b ⟨hseated, hbound, hprogram, hambient⟩
    obtain ⟨hseated', hbound', hprogram', hambient'⟩ := hseated.openFile hbound hR unit
    exact ih _ ⟨hseated', hbound', hprogram'.trans hprogram, hambient'.trans hambient⟩

/-! ## The statements of the files -/

/-- Where the statements of a file are bound. -/
def Bindings.filePlace (b : Bindings) (unit : SourceUnit) : Bindings.Place :=
  ⟨(b.fileSite unit).scope, b.modules.get? unit.path, unit.path, unit.path, false⟩

theorem Seated.fileSite (h : Seated b) (unit : SourceUnit) :
    (b.fileSite unit).scope.home = .main 0 ∧ b.Has (b.fileSite unit).scope := by
  unfold Bindings.fileSite
  cases hscope : b.fileScopes.get? unit.path with
  | none => exact ⟨rfl, h.global⟩
  | some scope => exact h.files _ _ hscope

theorem Seated.governs (h : Seated b) (hR : ∀ id, R.scope id ↔ id.home = .main 0) (unit : SourceUnit) :
    R.Governs b (b.filePlace unit) where
  scope := (hR _).mpr (h.fileSite unit).1
  has := (h.fileSite unit).2
  container c hc := by
    have := h.modules _ _ hc
    exact ⟨this.1.trans (h.fileSite unit).1.symm, this.2⟩

/-- The K of the modules of a file. -/
def fileKeys (unit : SourceUnit) : NodeKey → Prop := keysAt unit.path (boundModulesOf unit.tree.statements)

theorem Seated.bindFile (h : Seated b) (hb : Bound R b) (hfree : R.Free) (hR : ∀ id, R.scope id ↔ id.home = .main 0)
    (unit : SourceUnit) : Binds R (fileKeys unit) b (b.bindFile unit) :=
  Bound.bindBody hfree hb (h.governs hR unit) unit.tree.statements fun _ => ⟨(hR _).mpr rfl, h.global⟩

theorem Seated.of_binds {R' : Rights} {K : NodeKey → Prop} (h : Seated b) (hb : Binds R' K b b')
    (hR : ∀ id, R'.scope id → id.home = .main 0) : Seated b' := by
  have hrest := hb.rest
  refine ⟨fun id hid => (hb.tables id fun hscope => hid (hR id hscope)).trans (h.bodies id hid), ?_, hb.has _ h.global, ?_, ?_⟩
  · rw [hrest]
    exact h.opened
  · intro path scope hscope
    rw [hrest] at hscope
    exact ⟨(h.files path scope hscope).1, hb.has _ (h.files path scope hscope).2⟩
  · intro path scope hscope
    rw [hrest] at hscope
    exact ⟨(h.modules path scope hscope).1, hb.has _ (h.modules path scope hscope).2⟩

/-- The files one after the other. -/
theorem Seated.bindFiles (h : Seated b) (hb : Bound R b) (hfree : R.Free) (hR : ∀ id, R.scope id ↔ id.home = .main 0)
    (units : List SourceUnit) :
    Binds R (fun key => ∃ unit ∈ units, fileKeys unit key) b (units.foldl Bindings.bindFile b) := by
  induction units generalizing b with
  | nil => exact hb.refl
  | cons unit units ih =>
    have hfirst := h.bindFile hb hfree hR unit
    have hrest := ih (h.of_binds hfirst fun id => (hR id).mp) hfirst.bound
    refine (hfirst.mono fun key hkey => ⟨unit, List.mem_cons_self, hkey⟩).trans (hrest.mono ?_)
    rintro key ⟨u, hu, hkey⟩
    exact ⟨u, List.mem_cons_of_mem _ hu, hkey⟩

variable {final : Bindings}

/-- What is bound with some files is declared by what stands, if the files are told apart. -/
theorem Seated.sound_bindFiles (h : Seated b) (hb : Bound R b) (hpermits : R.Permits final)
    (hR : ∀ id, R.scope id ↔ id.home = .main 0) (hpaths : units.Pairwise fun u v => u.path ≠ v.path)
    (hnodup : ∀ unit ∈ units, (boundModulesOf unit.tree.statements).Nodup)
    (hstands : ∀ unit ∈ units, ∀ s ∈ unit.tree.statements, Stands final ⟨.statement s, b.fileSite unit⟩)
    (hagrees : KeepsModules R (fun key => ∃ unit ∈ units, fileKeys unit key) (units.foldl Bindings.bindFile b) final) :
    Bound R (units.foldl Bindings.bindFile b) := by
  induction units generalizing b with
  | nil => exact hb
  | cons unit units ih =>
    obtain ⟨hother, hpaths⟩ := List.pairwise_cons.mp hpaths
    have hfirst := h.bindFile hb.free Rights.free_free hR unit
    have hseated := h.of_binds hfirst fun id => (hR id).mp
    have hlater := hseated.bindFiles hfirst.bound Rights.free_free hR units
    -- Files bound later have other K.
    have hkept : KeepsModules R (fileKeys unit) (b.bindFile unit) final := by
      refine KeepsModules.of_binds (hagrees.mono fun key hkey => ⟨unit, List.mem_cons_self, hkey⟩) hlater ?_
      rintro key hkey ⟨u, hu, hkey'⟩
      exact hother u hu (hkey.1.symm.trans hkey'.1)
    have hbound : Bound R (b.bindFile unit) :=
      Bound.sound_bindBody hpermits hb (h.governs hR unit) unit.tree.statements (fun _ => ⟨(hR _).mpr rfl, h.global⟩)
        (hnodup unit List.mem_cons_self) (hstands unit List.mem_cons_self) hkept
    have hsite : (b.bindFile unit).fileSite = b.fileSite := by
      have hrest := hfirst.rest
      funext u
      rw [Bindings.fileSite, hrest]
      rfl
    refine ih hseated hbound hpaths (fun u hu => hnodup u (List.mem_cons_of_mem _ hu)) (fun u hu => ?_)
      (hagrees.mono fun key hkey => hkey.imp fun u h => ⟨List.mem_cons_of_mem _ h.1, h.2⟩)
    rw [hsite]
    exact hstands u (List.mem_cons_of_mem _ hu)

end

/-- The rights to bind anything in the tables of the files. -/
def Rights.ofFiles : Rights where
  scope id := id.home = .main 0
  declaration _ := True
  interface _ _ := True
  home _ _ h hid := h ▸ hid

theorem Bindings.program_ofProgram (p : Program) : (Bindings.ofProgram p).program = p := by
  obtain ⟨hseated, hbound, hprogram, -⟩ := @seated_openFiles .ofFiles p p.units fun _ => .rfl
  have hbinds := hseated.bindFiles hbound ⟨fun _ => trivial, fun _ _ => trivial⟩ (fun _ => .rfl) p.units
  exact (congrArg Bindings.program hbinds.rest :).trans hprogram

/-- The bindings of a program hold what stands in its files. -/
theorem valid_ofProgram {p : Program} (hp : Program.Orderly p) : Valid (Bindings.ofProgram p) := by
  let final := Bindings.ofProgram p
  obtain ⟨hseated, hbound, -, hambient⟩ := @seated_openFiles .ofFiles p p.units fun _ => .rfl
  have hbinds := hseated.bindFiles hbound ⟨fun _ => trivial, fun _ _ => trivial⟩ (fun _ => .rfl) p.units
  have hfinal := hseated.of_binds hbinds fun _ h => h
  have hrest := hbinds.rest
  have hscope (id : ScopeId) : final.rights.scope id ↔ id.home = .main 0 := by
    have hopened : final.opened = [] := hfinal.opened
    simp [Bindings.rights, hopened]
  have hprogram : final.program = p := Bindings.program_ofProgram p
  have hsite : final.fileSite = (p.units.foldl Bindings.openFile (Bindings.start p)).fileSite := by
    have hscopes : final.fileScopes = (p.units.foldl Bindings.openFile (Bindings.start p)).fileScopes :=
      (congrArg Bindings.fileScopes hrest :)
    funext u
    rw [Bindings.fileSite, hscopes]
    rfl
  have hsound : Bound final.rights final := by
    have hpermits : final.rights.Permits final := ⟨fun _ h => h, fun _ _ h => h⟩
    refine hseated.sound_bindFiles ?_ hpermits hscope hp.paths ?_ ?_ ?_
    · exact (seated_openFiles hscope).2.1
    · intro unit hunit
      exact .of_map moduleSpot ((hp.modules unit hunit).sublist (boundModulesOf_sublist unit.tree.statements))
    · intro unit hunit s hs
      rw [← hsite]
      exact .root (hprogram.symm ▸ hunit) hs
    · intro id key inner hid _ hinner
      cases id with
      | inner => cases (hscope _).mp hid
      | main n => exact hinner
  refine ⟨hprogram.symm ▸ hp, hsound, fun id => ?_, fun id hid => ?_, hfinal.global, fun unit _ => hfinal.fileSite unit,
    fun path c hc => (hfinal.modules path c hc).1, fun x hx c hc => ?_⟩
  · by_cases hid : id.home = .main 0
    · exact .inl (.inl hid)
    · exact .inr (hfinal.bodies id hid)
  · have hopened : final.opened = [] := hfinal.opened
    rw [show (Bindings.ofProgram p).opened = [] from hopened] at hid
    cases hid
  · rcases hbinds.ambient x hx with hx | ⟨id, hid, href⟩
    · rw [hambient] at hx
      cases hx
    · exact .inl ((href c hc).1.trans hid)

end Check

end Recheck
