import Recheck.Check.Declaration
import Recheck.Proofs.Check.Scopes

/-!
# What a name leads to

In valid bindings a name leads to a declaration that stands, or to a module whose scope does (`Valid.knownValue_lookup`,
`Valid.knownType_lookup`), and so does whatever is found behind it, through imports and exports. Outwards from a place in a
text the scopes go on up to the outermost one, so that the word that imports is always found (`Valid.lookup_import`).
-/

set_option autoImplicit false

namespace Recheck.Check

open Syntax

/-! ## Known symbols -/

def KnownRef (b : Bindings) (ref : ModuleRef) : Prop := ∀ c, ref = .container c → StandsScope b c

def KnownValue (b : Bindings) : ValueSymbol → Prop
  | .declarator decl kind site => Stated b (.variable decl kind site)
  | .function decl site => Stated b (.function decl site)
  | .param param site => Stated b (.param param site)
  | .expr expr site => Stated b (.exported expr site)
  | .ofModule ref => KnownRef b ref
  | .imported _ => True
  | .builtin _ => True

def KnownType (b : Bindings) : TypeSymbol → Prop
  | .interface name scope => Stated b (.interface name scope)
  | .typeAlias decl site => Stated b (.typeAlias decl site)
  | .ofModule ref => KnownRef b ref
  | .typeParam => True
  | .imported _ => True
  | .builtin _ => True

section

variable {b b' : Bindings} {id : ScopeId} {x : Item}

theorem KnownRef.of_ref (hid : StandsScope b id) {source : Bindings} {ref : ModuleRef} (h : Rights.Ref source id ref) :
    KnownRef b ref := fun c hc => hid.congr (h c hc).1

theorem KnownValue.of_grants (hid : StandsScope b id) {source : Bindings} {symbol : ValueSymbol}
    (h : (b.rightsAt id).GrantsValue source id symbol) : KnownValue b symbol := by
  cases symbol with
  | ofModule ref => exact .of_ref hid h
  | imported | builtin => trivial
  | _ => exact h

theorem KnownType.of_grants (hid : StandsScope b id) {source : Bindings} {symbol : TypeSymbol}
    (h : (b.rightsAt id).GrantsType source id symbol) : KnownType b symbol := by
  cases symbol with
  | ofModule ref => exact .of_ref hid h
  | typeParam | imported | builtin => trivial
  | _ => exact h

theorem KnownValue.grows (hb : Grows b b') {symbol : ValueSymbol} (h : KnownValue b symbol) : KnownValue b' symbol := by
  cases symbol with
  | ofModule ref => exact fun c hc => hb.standsScope (h c hc)
  | imported | builtin => trivial
  | _ => exact hb.stated h

theorem KnownType.grows (hb : Grows b b') {symbol : TypeSymbol} (h : KnownType b symbol) : KnownType b' symbol := by
  cases symbol with
  | ofModule ref => exact fun c hc => hb.standsScope (h c hc)
  | typeParam | imported | builtin => trivial
  | _ => exact hb.stated h

/-! ## Scopes outwards -/

/-- What a scope that stands holds. -/
theorem Valid.holds (h : Valid b) (hid : StandsScope b id) {s : Scope} (hs : b.scopeAt? id = some s) :
    (b.rightsAt id).Holds (b.source id) id s :=
  (h.bound_source hid).scope id s rfl (Bindings.scopeAt?_eq ▸ hs)

/-- Around a scope that stands another one stands. -/
theorem Valid.standsScope_parent (h : Valid b) (hid : StandsScope b id) {s : Scope} (hs : b.scopeAt? id = some s)
    {parent : ScopeId} (hparent : s.parent = some parent) : StandsScope b parent := by
  have houter := (h.holds hid hs).outer
  unfold Rights.Outer at houter
  split at houter
  · exact nomatch houter.1.symm.trans hparent
  · obtain rfl := Option.some.inj (houter.symm.trans hparent)
    rcases hid with hid | ⟨x, body, hx, -, -, hid⟩
    · exact nomatch hid
    · obtain ⟨-, rfl, -⟩ := ScopeId.inner.inj hid
      exact h.standsScope_site hx
  · obtain ⟨m, -, hm⟩ := houter
    obtain rfl := Option.some.inj (hm.symm.trans hparent)
    exact hid.congr (id.home_beside m)

/-- What is found outwards is in a scope that stands. -/
theorem Valid.findOutwards (h : Valid b) {α : Type} {get : Scope → Option α} {n : Nat} (hid : StandsScope b id) {symbol : α}
    (hfound : b.findOutwards get n id = some symbol) :
    ∃ id' s, StandsScope b id' ∧ b.scopeAt? id' = some s ∧ get s = some symbol := by
  induction n generalizing id with
  | zero => exact nomatch hfound
  | succ n ih =>
    unfold Bindings.findOutwards at hfound
    split at hfound
    · exact nomatch hfound
    · rename_i s hs
      split at hfound
      · rename_i hget
        exact ⟨id, s, hid, hs, hget.trans hfound⟩
      · rename_i parent hget hparent
        exact ih (h.standsScope_parent hid hs hparent) hfound
      · exact nomatch hfound

theorem Valid.knownValue_lookup (h : Valid b) (hid : StandsScope b id) {name : String} {symbol : ValueSymbol}
    (hfound : b.lookupValue id name = some symbol) : KnownValue b symbol := by
  obtain ⟨id', s, hid', hs, hget⟩ := h.findOutwards hid hfound
  exact .of_grants hid' ((h.holds hid' hs).values name symbol hget)

theorem Valid.knownType_lookup (h : Valid b) (hid : StandsScope b id) {name : String} {symbol : TypeSymbol}
    (hfound : b.lookupType id name = some symbol) : KnownType b symbol := by
  obtain ⟨id', s, hid', hs, hget⟩ := h.findOutwards hid hfound
  exact .of_grants hid' ((h.holds hid' hs).types name symbol hget)

theorem Valid.interfaceDecls (h : Valid b) (hid : StandsScope b id) {name : String} {decl : InterfaceDecl × Path}
    (hdecl : decl ∈ b.interfaceDecls id name) : Stands b ⟨.statement (.interface decl.1), ⟨decl.2, id⟩⟩ := by
  unfold Bindings.interfaceDecls at hdecl
  cases hs : b.scopeAt? id with
  | none =>
    rw [hs] at hdecl
    exact nomatch hdecl
  | some s =>
    rw [hs, Option.bind_some] at hdecl
    cases hdecls : s.interfaces.get? name with
    | none =>
      rw [hdecls] at hdecl
      exact nomatch hdecl
    | some decls =>
      rw [hdecls] at hdecl
      exact (h.holds hid hs).interfaces name decls hdecls decl hdecl

/-! ## Modules -/

theorem Bindings.mem_of_ambientModule? {specifier : String} {ref : ModuleRef} (h : b.ambientModule? specifier = some ref) :
    ∃ x ∈ b.ambientModules, x.2 = ref := by
  have hfold (xs : List (String × ModuleRef)) (best : Option (String × ModuleRef)) (x : String × ModuleRef)
      (hx : xs.foldl moreSpecific best = some x) : best = some x ∨ x ∈ xs := by
    induction xs generalizing best with
    | nil => exact .inl hx
    | cons y xs ih =>
      rcases ih _ hx with hbest | hmem
      · unfold moreSpecific at hbest
        split at hbest
        · split at hbest
          · exact .inl hbest
          · exact .inr (Option.some.inj hbest ▸ List.mem_cons_self)
        · exact .inr (Option.some.inj hbest ▸ List.mem_cons_self)
      · exact .inr (List.mem_cons_of_mem _ hmem)
  unfold ambientModule? at h
  split at h
  · rename_i hfind
    exact ⟨_, List.mem_of_find?_eq_some hfind, Option.some.inj h⟩
  · obtain ⟨x, hx, rfl⟩ := Option.map_eq_some_iff.mp h
    exact ⟨x, (List.mem_filter.mp ((hfold _ none x hx).resolve_left nofun)).1, rfl⟩

theorem Valid.knownRef_moduleRef (h : Valid b) (importer : Path) (specifier : String) :
    KnownRef b (b.moduleRef importer specifier) := by
  intro c hc
  unfold Bindings.moduleRef at hc
  split at hc
  · rename_i target _
    split at hc
    · rename_i scope hscope
      obtain rfl := ModuleRef.container.inj hc
      exact .inl (h.modules _ _ hscope)
    · split at hc <;> exact nomatch hc
  · cases hambient : b.ambientModule? specifier with
    | none =>
      rw [hambient] at hc
      exact nomatch hc
    | some ref =>
      rw [hambient, Option.getD_some] at hc
      obtain ⟨x, hx, hxref⟩ : ∃ x ∈ b.ambientModules, x.2 = ref := Bindings.mem_of_ambientModule? hambient
      exact h.ambient x hx c (hxref.trans hc)

/-- What the first answer of some modules is, one of them answers. -/
theorem Bindings.firstAnswer_found {α : Type} {look : ModuleRef → List ScopeId → Lookup α × List ScopeId}
    {refs : List ModuleRef} {seen : List ScopeId} {symbol : α} (h : (firstAnswer look refs seen).1 = .found symbol) :
    ∃ ref ∈ refs, ∃ seen, (look ref seen).1 = .found symbol := by
  induction refs generalizing seen with
  | nil => exact nomatch h
  | cons ref refs ih =>
    unfold firstAnswer at h
    split at h
    · obtain ⟨ref', href, hfound⟩ := ih h
      exact ⟨ref', List.mem_cons_of_mem _ href, hfound⟩
    · exact ⟨ref, List.mem_cons_self, seen, h⟩

namespace Bindings

/-- What a module exports. -/
def exportsOf (b : Bindings) (c : ScopeId) : Exports := ((b.scopeAt? c).map (·.exports)).getD Exports.none

/-- The modules that a module passes on. -/
def passedOn (b : Bindings) (follow : Bool) (c : ScopeId) : List ModuleRef :=
  if follow then (b.exportsOf c).stars.map fun (importer, s) => b.moduleRef importer s else []

theorem exportLookup_container {α : Type} {get : Exports → Option α} {follow : Bool} {n : Nat} {c : ScopeId} {seen : List ScopeId} :
    b.exportLookup get follow (n + 1) (.container c) seen =
      if seen.contains c then (.missing, seen)
      else
        match get (b.exportsOf c) with
        | some symbol => (.found symbol, c :: seen)
        | none =>
          match firstAnswer (b.exportLookup get follow n) (b.passedOn follow c) (c :: seen) with
          | (.missing, seen) => (if (b.exportsOf c).assigned.isSome then .unknown else .missing, seen)
          | answer => answer := rfl

end Bindings

/-- An export is found in a module that stands. -/
theorem Valid.exportLookup (h : Valid b) {α : Type} {get : Exports → Option α} {follow : Bool} {n : Nat} {ref : ModuleRef}
    {seen : List ScopeId} (href : KnownRef b ref) {symbol : α}
    (hfound : (b.exportLookup get follow n ref seen).1 = .found symbol) :
    ∃ c, StandsScope b c ∧ get (b.exportsOf c) = some symbol := by
  induction n generalizing ref seen with
  | zero => exact nomatch hfound
  | succ n ih =>
    cases ref with
    | untyped | unresolved => exact nomatch hfound
    | container c =>
      rw [Bindings.exportLookup_container] at hfound
      split at hfound
      · exact nomatch hfound
      · split at hfound
        · rename_i hget
          exact ⟨c, href c rfl, hget.trans (congrArg some (Lookup.found.inj hfound))⟩
        · split at hfound
          · split at hfound <;> exact nomatch hfound
          · obtain ⟨ref, hmem, _, hfound⟩ := Bindings.firstAnswer_found hfound
            refine ih ?_ hfound
            unfold Bindings.passedOn at hmem
            split at hmem
            · obtain ⟨star, -, rfl⟩ := List.mem_map.mp hmem
              exact h.knownRef_moduleRef _ _
            · exact nomatch hmem

/-- What a module that stands exports. -/
theorem Valid.offers (h : Valid b) (hid : StandsScope b id) : (b.rightsAt id).Offers (b.source id) id (b.exportsOf id) := by
  unfold Bindings.exportsOf
  cases hs : b.scopeAt? id with
  | none => exact ⟨nofun, nofun, nofun⟩
  | some s => exact (h.holds hid hs).exports

variable {ref : ModuleRef} {name : String}

theorem Valid.knownValue_exported (h : Valid b) (href : KnownRef b ref) {symbol : ValueSymbol}
    (hfound : b.exportedValue ref name = .found symbol) : KnownValue b symbol := by
  obtain ⟨c, hc, hget⟩ := h.exportLookup href hfound
  exact .of_grants hc ((h.offers hc).values name symbol hget)

theorem Valid.knownType_exported (h : Valid b) (href : KnownRef b ref) {symbol : TypeSymbol}
    (hfound : b.exportedType ref name = .found symbol) : KnownType b symbol := by
  obtain ⟨c, hc, hget⟩ := h.exportLookup href hfound
  exact .of_grants hc ((h.offers hc).types name symbol hget)

theorem Valid.stated_assigned (h : Valid b) (href : KnownRef b ref) {expr : Expr} {site : Site}
    (hassigned : b.assigned? ref = some (expr, site)) : Stated b (.exported expr site) := by
  cases ref with
  | untyped | unresolved => exact nomatch hassigned
  | container c =>
    obtain ⟨s, hs, hexports⟩ := Option.bind_eq_some_iff.mp hassigned
    exact (h.holds (href c rfl) hs).exports.assigned expr site hexports

theorem Lookup.eq_found_of_toOption {α : Type} {found : Lookup α} {symbol : α} (h : found.toOption = some symbol) :
    found = .found symbol := by
  cases found with
  | found s => exact congrArg Lookup.found (Option.some.inj h)
  | missing | unknown => exact nomatch h

/-! ## Behind imports -/

theorem Valid.knownValue_resolve (h : Valid b) {n : Nat} {symbol target : ValueSymbol} (hsymbol : KnownValue b symbol)
    (hfound : b.resolveValue n symbol = some target) : KnownValue b target := by
  induction n generalizing symbol with
  | zero => exact nomatch hfound
  | succ n ih =>
    cases symbol with
    | imported binding =>
      have href := h.knownRef_moduleRef binding.importer binding.specifier
      unfold Bindings.resolveValue at hfound
      dsimp only at hfound
      split at hfound
      · obtain ⟨next, hnext, hfound⟩ := Option.bind_eq_some_iff.mp hfound
        exact ih (h.knownValue_exported href (Lookup.eq_found_of_toOption hnext)) hfound
      · split at hfound
        · rename_i hnext
          exact ih (h.knownValue_exported href hnext) hfound
        · rename_i expr site hassigned _
          have hknown : KnownValue b (.expr expr site) := h.stated_assigned href hassigned
          exact ih hknown hfound
        · exact nomatch hfound
      · exact Option.some.inj hfound ▸ href
      · split at hfound
        · rename_i expr site hassigned
          have hknown : KnownValue b (.expr expr site) := h.stated_assigned href hassigned
          exact ih hknown hfound
        · exact Option.some.inj hfound ▸ href
    | _ => exact Option.some.inj hfound ▸ hsymbol

theorem Valid.knownType_resolve (h : Valid b) {n : Nat} {symbol target : TypeSymbol} (hsymbol : KnownType b symbol)
    (hfound : b.resolveType n symbol = some target) : KnownType b target := by
  induction n generalizing symbol with
  | zero => exact nomatch hfound
  | succ n ih =>
    cases symbol with
    | imported binding =>
      have href := h.knownRef_moduleRef binding.importer binding.specifier
      unfold Bindings.resolveType at hfound
      split at hfound
      · obtain ⟨next, hnext, hfound⟩ := Option.bind_eq_some_iff.mp hfound
        exact ih (h.knownType_exported href (Lookup.eq_found_of_toOption hnext)) hfound
      · obtain ⟨next, hnext, hfound⟩ := Option.bind_eq_some_iff.mp hfound
        exact ih (h.knownType_exported href (Lookup.eq_found_of_toOption hnext)) hfound
      · exact Option.some.inj hfound ▸ href
      · exact Option.some.inj hfound ▸ href
    | _ => exact Option.some.inj hfound ▸ hsymbol

/-- The type of a dotted name inside a module. -/
theorem Valid.knownType_member (h : Valid b) (href : KnownRef b ref) {names : List Ident} {symbol : TypeSymbol}
    (hfound : memberType b ref names = some symbol) : KnownType b symbol := by
  induction names generalizing ref with
  | nil => exact nomatch hfound
  | cons part rest ih =>
    cases rest with
    | nil => exact h.knownType_exported href (Lookup.eq_found_of_toOption hfound)
    | cons next rest =>
      unfold memberType at hfound
      split at hfound
      · rename_i inner hinner
        have hknown : KnownRef b inner := h.knownType_exported href hinner
        exact ih hknown hfound
      · exact nomatch hfound

/-! ## The word that imports -/

/-- The number of scopes there can be from a scope outwards. -/
def ScopeId.reach : ScopeId → Nat
  | main n => n + 1
  | inner _ parent n => n + 1 + parent.reach

/-- From a scope outwards the word that imports is found. -/
structure Grounded (b : Bindings) (id : ScopeId) : Prop where
  reach_le : id.reach ≤ id.depth + b.main.scopes.size
  finds : ∀ n, id.reach ≤ n → (b.findOutwards (·.values.get? "import") n id).isSome

/-- A scope that exists. -/
def Bindings.Finds (b : Bindings) (id : ScopeId) : Prop := (b.scopeAt? id).isSome

theorem Bindings.finds_iff : b.Finds id ↔ (b.source id).Has id := by
  rw [Finds, scopeAt?_eq]
  rfl

theorem Bindings.finds_of_lt {s : Scope} (hs : b.scopeAt? id = some s) {m : Nat} (hm : m < id.index) : b.Finds (id.beside m) := by
  have hlt : id.index < (b.tableAt id).scopes.size := (Array.getElem?_eq_some_iff.mp hs).1
  have htable : b.tableAt (id.beside m) = b.tableAt id := by cases id <;> rfl
  rw [Finds, scopeAt?, htable, ScopeId.index_beside, Array.getElem?_eq_getElem (by omega)]
  rfl

/-- In a table all scopes are grounded as soon as the one around it is. -/
theorem Valid.grounded_of_home (h : Valid b) {id₀ : ScopeId} (hid₀ : StandsScope b id₀)
    (hparent : ∀ body parent, id₀.home = .inner body parent 0 → Grounded b parent) (hid : id.home = id₀.home)
    (hfinds : b.Finds id) : Grounded b id := by
  refine ⟨?_, fun n hn => ?_⟩
  · cases id with
    | main k =>
      obtain ⟨s, hs⟩ := Option.isSome_iff_exists.mp hfinds
      have : k < b.main.scopes.size := (Array.getElem?_eq_some_iff.mp hs).1
      simp only [ScopeId.reach, ScopeId.depth]
      omega
    | inner body parent k =>
      have := (hparent body parent hid.symm).reach_le
      simp only [ScopeId.reach, ScopeId.depth]
      omega
  induction hk : id.index using Nat.strong_induction_on generalizing id n with
  | _ k ih =>
    obtain ⟨s, hs⟩ := Option.isSome_iff_exists.mp hfinds
    have houter := (h.holds (hid₀.congr hid) hs).outer
    unfold Rights.Outer at houter
    obtain ⟨n, rfl⟩ : ∃ n', n = n' + 1 := ⟨n - 1, by cases id <;> simp only [ScopeId.reach] at hn <;> omega⟩
    rw [Bindings.findOutwards, hs]
    dsimp only
    cases hget : s.values.get? "import" with
    | some symbol => rfl
    | none =>
      split at houter
      · rw [Dict.contains, hget] at houter
        exact absurd houter.2 Bool.false_ne_true
      · rename_i body parent
        rw [houter]
        refine (hparent body parent hid.symm).finds n ?_
        simp only [ScopeId.reach] at hn
        omega
      · obtain ⟨m, hm, hs'⟩ := houter
        rw [hs']
        have hreach : (id.beside m).reach + id.index = id.reach + m := by
          cases id <;> simp only [ScopeId.reach, ScopeId.beside, ScopeId.index] <;> omega
        exact ih m (by omega) ((id.home_beside m).trans hid) (Bindings.finds_of_lt hs hm) n (by omega) (id.index_beside m)

/-- The rights to bind anything in the table of a body. -/
def Rights.ofBody (body : Body) (parent : ScopeId) : Rights where
  scope id := id.home = .inner body parent 0
  declaration _ := True
  interface _ _ := True
  home _ _ h hid := h ▸ hid

/-- A body that says nothing about other modules is bound in a table of its own. -/
theorem binds_plain {body : Body} {parent : ScopeId} (hplain : body.isPlain = true) :
    Binds (.ofBody body parent) (keysAt body.key.file (boundModulesOf body.statements))
      ((Bindings.start default).withBody body parent)
      (Bindings.bindInner body parent body.key.file (Bindings.start default)) := by
  have hreach : anyReachesOut body.statements = false := by simpa [Body.isPlain] using hplain
  have hnone : (Bindings.start default).Lacks body parent := by
    intro id hid
    cases id with
    | main => cases hid
    | inner => rfl
  have hstart : Bound (.ofBody body parent) (Bindings.start default) := .of_lacks hnone fun _ => id
  exact hstart.bindInner body.key.file ⟨fun _ => trivial, fun _ _ => trivial⟩ hnone rfl fun hr =>
    absurd (hreach.symm.trans hr) Bool.false_ne_true

/-- A body that was bound has a scope. -/
theorem Valid.finds_body (h : Valid b) {body : Body} {parent : ScopeId} (hopen : b.isOpen body parent = true) :
    b.Finds (.inner body parent 0) := by
  rw [Bindings.finds_iff, Bindings.source]
  split
  · rename_i hplain
    exact (binds_plain hplain).has _ Bindings.has_self_withBody
  · rename_i hplain
    have hopened : ScopeId.inner body parent 0 ∈ b.opened := by simpa [Bindings.isOpen, hplain] using hopen
    exact (h.opened _ hopened).1

/-- Where something stands there is a scope. -/
theorem Valid.finds_site (h : Valid b) (hx : Stands b x) : b.Finds x.site.scope := by
  induction hx with
  | @root unit s hunit _ =>
    rw [Bindings.finds_iff, h.source_of_scope (.inl (h.files unit hunit).1)]
    exact (h.files unit hunit).2
  | @part x y hx hy ih =>
    obtain ⟨site, hinside, -, rfl⟩ := Item.mem_parts.mp hy
    rcases Item.inside_cases hinside with ⟨body, hbody, hopen, hsite⟩ | ⟨d, -, hsite⟩ | ⟨-, hsite⟩
    · rw [hsite]
      exact h.finds_body hopen
    · rw [hsite]
      cases hmodule : b.moduleScope? x.site.scope ⟨.moduleDecl, x.site.file, d.span.start⟩ with
      | none => exact ih
      | some inner =>
        rw [Bindings.moduleScope?_eq] at hmodule
        obtain ⟨hhome, hhas⟩ := (h.bound_source (h.standsScope_site hx)).module x.site.scope _ inner rfl hmodule
        rcases hhome with hhome | rfl
        · rw [Option.getD_some, Bindings.finds_iff, Bindings.source_congr hhome]
          exact hhas
        · exact Bindings.finds_iff.mpr h.global
    · rw [hsite]
      exact ih

theorem Valid.grounded (h : Valid b) (hx : Stands b x) : Grounded b x.site.scope := by
  suffices ∀ id, id.home = x.site.scope.home → b.Finds id → Grounded b id from this _ rfl (h.finds_site hx)
  induction hx with
  | @root unit s hunit hs =>
    have hhome := (h.files unit hunit).1
    refine fun id hid hfinds => h.grounded_of_home (.inl hhome) ?_ hid hfinds
    intro body parent hinner
    exact nomatch hhome.symm.trans hinner
  | @part x y hx hy ih =>
    obtain ⟨site, hinside, -, rfl⟩ := Item.mem_parts.mp hy
    have hinner := h.standsScope_site (.part hx hy)
    rcases Item.inside_cases hinside with ⟨body, hbody, hopen, hsite⟩ | ⟨d, -, hsite⟩ | ⟨-, hsite⟩
    · refine fun id hid hfinds => h.grounded_of_home hinner ?_ hid hfinds
      rw [hsite]
      rintro body' parent hhome
      obtain ⟨-, rfl, -⟩ := ScopeId.inner.inj hhome
      exact ih _ rfl (h.finds_site hx)
    · rw [hsite]
      cases hmodule : b.moduleScope? x.site.scope ⟨.moduleDecl, x.site.file, d.span.start⟩ with
      | none => exact ih
      | some inner =>
        rw [Bindings.moduleScope?_eq] at hmodule
        rcases ((h.bound_source (h.standsScope_site hx)).module x.site.scope _ inner rfl hmodule).1 with hhome | rfl
        · exact fun id hid => ih id (hid.trans hhome)
        · refine fun id hid hfinds => h.grounded_of_home (.inl rfl) (fun _ _ hhome => ?_) hid hfinds
          exact ScopeId.noConfusion (show ScopeId.main 0 = _ from hhome)
    · rw [hsite]
      exact ih

theorem Valid.lookup_import (h : Valid b) (hx : Stands b x) : (b.lookupValue x.site.scope "import").isSome :=
  (h.grounded hx).finds _ (h.grounded hx).reach_le

end

end Recheck.Check
