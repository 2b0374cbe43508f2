import Recheck.Proofs.Check.Statements

/-!
# Scopes that hold what stands

All that a name can lead to is declared by something that stands (`Valid`). This is so when the files of a program are
bound (`valid_ofProgram`), it stays so when a body is opened (`Valid.openBody`), and opening a body takes nothing away from
what stands (`Later`): it notes the scopes of modules inside the body only, none of which stood before.
-/

set_option autoImplicit false

namespace Recheck

open Syntax Check

namespace Check

/-! ## Bodies of nodes -/

section

variable {n : Node} {x : Item} {b : Bindings} {file : Path} {body : Body}

theorem typeParamBody?_eq {kind : NodeKind} {start : Nat} {names : List Ident}
    (h : typeParamBody? kind file start names = some body) : body = ⟨⟨kind, file, start⟩, names, [], []⟩ := by
  unfold typeParamBody? at h
  split at h
  · exact nomatch h
  · exact (Option.some.inj h).symm

/-- The statements of its body are parts of a node. -/
theorem Node.statements_sublist (h : n.body? file = some body) : (ofStatements body.statements).Sublist n.parts := by
  cases n with
  | expr e =>
    obtain ⟨kind, span⟩ := e
    cases kind with
    | function params returnType inner =>
      obtain rfl := Option.some.inj h
      refine List.sublist_append_of_sublist_right (List.sublist_append_of_sublist_right ?_)
      cases inner with
      | expr => exact List.nil_sublist _
      | block => exact List.Sublist.refl _
    | _ => exact nomatch h
  | type t => exact nomatch h
  | statement s =>
    cases s with
    | function d =>
      obtain rfl := Option.some.inj h
      exact List.sublist_append_of_sublist_right (List.sublist_append_right _ _)
    | block b =>
      obtain rfl := Option.some.inj h
      exact List.Sublist.refl _
    | interface d => exact typeParamBody?_eq h ▸ List.nil_sublist _
    | typeAlias d => exact typeParamBody?_eq h ▸ List.nil_sublist _
    | _ => exact nomatch h

theorem Node.file_body (h : n.body? file = some body) : body.key.file = file := by
  cases n with
  | expr e =>
    obtain ⟨kind, span⟩ := e
    cases kind with
    | function => exact Option.some.inj h ▸ rfl
    | _ => exact nomatch h
  | type t => exact nomatch h
  | statement s =>
    cases s with
    | function | block => exact Option.some.inj h ▸ rfl
    | interface d => exact typeParamBody?_eq h ▸ rfl
    | typeAlias d => exact typeParamBody?_eq h ▸ rfl
    | _ => exact nomatch h

namespace Item

theorem inside_of_body (h : x.node.body? x.site.file = some body) : x.inside b =
    if b.isOpen body x.site.scope then some { x.site with scope := .inner body x.site.scope 0 } else none := by
  unfold inside
  rw [h]

/-- Parameters are declared inside. -/
theorem param_mem_declarations {site : Site} (h : x.node.body? x.site.file = some body) (hinside : x.inside b = some site)
    {param : Param} (hparam : param ∈ body.params) : Declaration.param param site ∈ x.declarations b := by
  obtain ⟨node, outer⟩ := x
  unfold declarations
  cases node with
  | expr e =>
    obtain ⟨kind, span⟩ := e
    cases kind with
    | function =>
      obtain rfl := Option.some.inj h
      rw [hinside]
      exact List.mem_cons_of_mem _ (List.mem_map_of_mem hparam)
    | _ => exact nomatch h
  | type t => exact nomatch h
  | statement s =>
    cases s with
    | function d =>
      obtain rfl := Option.some.inj h
      simp only
      rw [hinside]
      exact List.mem_cons_of_mem _ (List.mem_map_of_mem hparam)
    | block b =>
      obtain rfl := Option.some.inj h
      exact nomatch hparam
    | interface d =>
      obtain rfl := typeParamBody?_eq h
      exact nomatch hparam
    | typeAlias d =>
      obtain rfl := typeParamBody?_eq h
      exact nomatch hparam
    | _ => exact nomatch h

end Item

theorem Node.modules_sublist {nodes nodes' : List Node} (h : nodes.Sublist nodes') :
    (nodes.flatMap (·.content.modules)).Sublist (nodes'.flatMap (·.content.modules)) := by
  induction h with
  | slnil => exact List.Sublist.refl _
  | cons n _ ih => exact ih.trans (List.sublist_append_right _ _)
  | cons_cons n _ ih => exact (List.Sublist.refl _).append ih

theorem Node.modules_sublist_of_mem {nodes : List Node} (h : n ∈ nodes) :
    n.content.modules.Sublist (nodes.flatMap (·.content.modules)) := by
  simpa using modules_sublist (List.singleton_sublist.mpr h)

theorem Stands.modules_nodup (hp : Program.Orderly b.program) (h : Stands b x) : x.node.content.modules.Nodup := by
  induction h with
  | @root unit s hunit hs =>
    refine (hp.modules unit hunit).sublist ?_
    rw [(Gathers.statements unit.tree.statements).modules_eq, List.nil_append]
    exact Node.modules_sublist_of_mem (List.mem_map_of_mem hs)
  | @part x y _ hy ih =>
    obtain ⟨-, -, hnode, -⟩ := Item.mem_parts.mp hy
    refine ih.sublist ?_
    rw [x.node.modules_eq]
    exact List.sublist_append_of_sublist_right (Node.modules_sublist_of_mem hnode)

end

/-! ## Binding a body -/

/-- The bindings in which a body is about to be bound. -/
def Bindings.withBody (b : Bindings) (body : Body) (parent : ScopeId) : Bindings :=
  { b with bodies := b.bodies.insert (.inner body parent 0) (Table.inside parent) }

section

variable {R : Rights} {b final : Bindings} {body : Body} {parent id : ScopeId} {importer : Path}

theorem Bindings.tableOf_withBody : (b.withBody body parent).tableOf id =
    if id.home = .inner body parent 0 then Table.inside parent else b.tableOf id := by
  cases id with
  | main => rfl
  | inner body' parent' n =>
    have hget := b.bodies.get?_insert (.inner body parent 0) (.inner body' parent' 0) (Table.inside parent)
    simp only [tableOf, withBody, hget, beq_iff_eq]
    by_cases heq : ScopeId.inner body parent 0 = .inner body' parent' 0
    · rw [if_pos heq, if_pos (show (ScopeId.inner body' parent' n).home = .inner body parent 0 from heq.symm)]
      rfl
    · rw [if_neg heq, if_neg (show (ScopeId.inner body' parent' n).home ≠ .inner body parent 0 from fun h => heq h.symm)]

/-- A body has no table before it is bound. -/
def Bindings.Lacks (b : Bindings) (body : Body) (parent : ScopeId) : Prop :=
  ∀ id, id.home = .inner body parent 0 → b.tableOf id = .empty

theorem Bindings.Lacks.not_has (h : b.Lacks body parent) (hid : id.home = .inner body parent 0) : ¬b.Has id := by
  rw [Has, scopeIn?, h id hid]
  rintro ⟨⟩

theorem Bindings.has_withBody (hnew : b.Lacks body parent) (h : b.Has id) : (b.withBody body parent).Has id := by
  rw [Has, scopeIn?, tableOf_withBody, if_neg fun hhome => hnew.not_has hhome h]
  exact h

theorem Bindings.has_self_withBody : (b.withBody body parent).Has (.inner body parent 0) := by
  rw [Has, scopeIn?, tableOf_withBody, if_pos (show ScopeId.home (.inner body parent 0) = .inner body parent 0 from rfl)]
  rfl

/-- No rights are needed where nothing is bound. -/
theorem Bound.of_lacks (hnew : b.Lacks body parent) (hR : ∀ id, R.scope id → id.home = .inner body parent 0) :
    Bound R b where
  scope id s hid hs := absurd (Option.isSome_iff_exists.mpr ⟨s, hs⟩) (hnew.not_has (hR id hid))
  module id key inner hid hinner := by
    rw [Bindings.moduleIn?, hnew id (hR id hid)] at hinner
    cases hinner

theorem Bound.withBody (h : Bound R b) (hnew : b.Lacks body parent) : Bound R (b.withBody body parent) where
  scope id s hid hs := by
    rw [Bindings.scopeIn?, Bindings.tableOf_withBody] at hs
    split at hs
    · rename_i hhome
      have hindex : id.index = 0 := by
        have := (Array.getElem?_eq_some_iff.mp hs).1
        simpa [Table.inside] using this
      obtain rfl : id = .inner body parent 0 := by
        rw [ScopeId.eq_iff_home]
        exact ⟨hhome, hindex⟩
      obtain rfl := Option.some.inj hs
      exact .inside rfl
    · exact (h.scope id s hid hs).mono (fun _ => Bindings.has_withBody hnew) (fun _ h => h) fun _ _ h => h
  module id key inner hid hinner := by
    rw [Bindings.moduleIn?, Bindings.tableOf_withBody] at hinner
    split at hinner
    · cases hinner
    · have := h.module id key inner hid hinner
      exact ⟨this.1, Bindings.has_withBody hnew this.2⟩

/-- The names that a body has before its statements. -/
theorem Bound.bindNames {K : NodeKey → Prop} (h : Bound R b) (hid : R.scope id) (file : Path) (names : List Ident)
    {params : List Param} (hd : ∀ param ∈ params, R.declaration (.param param ⟨file, id⟩)) :
    Binds R K b (Bindings.bindParams ⟨file, id⟩ params (Bindings.bindTypeParams id names b)) := by
  have hnames : Binds R K b (Bindings.bindTypeParams id names b) :=
    Binds.foldl names h.refl fun _ hb _ _ => hb.bound.putType hid trivial
  exact Binds.foldl params hnames fun _ hb param hmem => hb.bound.putValue hid (hd param hmem)

theorem Rights.Governs.ofBody {b : Bindings} (importer : Path) (hid : R.scope (.inner body parent 0)) (hhas : b.Has (.inner body parent 0)) :
    R.Governs b ⟨.inner body parent 0, none, body.key.file, importer, false⟩ := ⟨hid, hhas, nofun⟩

theorem Bound.bindInner (importer : Path) (hR : R.Free) (h : Bound R b) (hnew : b.Lacks body parent) (hid : R.scope (.inner body parent 0))
    (hreach : R.Reaches (b.withBody body parent) (anyReachesOut body.statements)) :
    Binds R (keysAt body.key.file (boundModulesOf body.statements)) (b.withBody body parent)
      (Bindings.bindInner body parent importer b) := by
  have hnames := (h.withBody hnew).bindNames (K := keysAt body.key.file (boundModulesOf body.statements)) hid
    body.key.file body.typeParams fun param (_ : param ∈ body.params) => hR.declaration _
  have hplace := Rights.Governs.ofBody importer hid (hnames.has _ Bindings.has_self_withBody)
  exact hnames.trans (Bound.bindBody hR hnames.bound hplace body.statements (hreach.mono hnames id))

/-- What is bound with the body of a node that stands is declared by what stands. -/
theorem Bound.sound_bindInner {x : Item} (hR : R.Permits final) (h : Bound R b)
    (hbody : x.node.body? x.site.file = some body) (hnew : b.Lacks body x.site.scope)
    (hid : R.scope (.inner body x.site.scope 0))
    (hreach : R.Reaches (b.withBody body x.site.scope) (anyReachesOut body.statements))
    (hx : Stands final x) (hopen : final.isOpen body x.site.scope = true)
    (hnodup : x.node.content.modules.Nodup)
    (hagrees : KeepsModules R (keysAt x.site.file (boundModulesOf body.statements))
      (Bindings.bindInner body x.site.scope importer b) final) :
    Bound R (Bindings.bindInner body x.site.scope importer b) := by
  have hinside : x.inside final = some ⟨x.site.file, .inner body x.site.scope 0⟩ := by
    rw [Item.inside_of_body hbody, if_pos hopen]
  have hfile := Node.file_body hbody
  rw [← hfile] at hinside hagrees
  have hnames := (h.withBody hnew).bindNames (K := fun _ => False) hid body.key.file body.typeParams
    fun param hparam => hR.declaration _ ⟨x, hx, Item.param_mem_declarations hbody hinside hparam⟩
  have hplace := Rights.Governs.ofBody importer hid (hnames.has _ Bindings.has_self_withBody)
  have hstatements := Node.statements_sublist hbody
  have hmodules : (boundModulesOf body.statements).Nodup := by
    refine List.Nodup.of_map moduleSpot (hnodup.sublist ((boundModulesOf_sublist body.statements).trans ?_))
    rw [(Gathers.statements body.statements).modules_eq, x.node.modules_eq, List.nil_append]
    exact List.sublist_append_of_sublist_right (Node.modules_sublist hstatements)
  refine Bound.sound_bindBody hR hnames.bound hplace body.statements (hreach.mono hnames id) hmodules ?_ hagrees
  intro s hs
  exact .part hx (Item.mem_parts.mpr ⟨_, hinside, hstatements.subset (List.mem_map_of_mem hs), rfl⟩)

end

/-! ## Valid bindings -/

/-- A scope of the files, or of a body that is bound and stands. -/
def StandsScope (b : Bindings) (id : ScopeId) : Prop :=
  id.home = .main 0 ∨ ∃ x body, Stands b x ∧ x.node.body? x.site.file = some body ∧
    b.isOpen body x.site.scope = true ∧ id.home = .inner body x.site.scope 0

/-- What the tables of some bindings may hold. -/
def Bindings.rights (b : Bindings) : Rights where
  scope id := id.home = .main 0 ∨ id.home ∈ b.opened
  declaration := Stated b
  interface decl site := Stands b ⟨.statement (.interface decl), site⟩
  home _ _ h hid := h ▸ hid

/-- What one of them may hold. -/
def Bindings.rightsAt (b : Bindings) (id : ScopeId) : Rights :=
  { b.rights with scope := fun id' => id'.home = id.home, home := fun _ _ h hid => h ▸ hid }

structure Valid (b : Bindings) : Prop where
  orderly : Program.Orderly b.program
  bound : Bound b.rights b
  closed : ∀ id, b.rights.scope id ∨ b.tableOf id = .empty
  opened : ∀ id ∈ b.opened, b.Has id ∧ ∃ x body, Stands b x ∧ x.node.body? x.site.file = some body ∧
    body.isPlain = false ∧ id = .inner body x.site.scope 0
  global : b.Has globalScope
  files : ∀ unit ∈ b.program.units, (b.fileSite unit).scope.home = .main 0 ∧ b.Has (b.fileSite unit).scope
  modules : ∀ path c, b.modules.get? path = some c → c.home = .main 0
  ambient : ∀ x ∈ b.ambientModules, ∀ c, x.2 = .container c → StandsScope b c

/-- Where the table of a scope comes from: that of a plain body follows from the body. -/
def Bindings.source (b : Bindings) : ScopeId → Bindings
  | .main _ => b
  | .inner body parent _ =>
    if body.isPlain then Bindings.bindInner body parent body.key.file (Bindings.start default) else b

section

variable {b : Bindings} {id id' : ScopeId} {x : Item} {body : Body}

theorem Bindings.tableAt_eq : b.tableAt id = (b.source id).tableOf id := by
  cases id with
  | main => rfl
  | inner body parent n =>
    unfold tableAt source
    simp only
    split <;> rfl

theorem Bindings.source_congr (h : id.home = id'.home) : b.source id = b.source id' := by
  cases id <;> cases id' <;> simp_all [ScopeId.home, ScopeId.beside, source]

theorem Bindings.scopeAt?_eq : b.scopeAt? id = (b.source id).scopeIn? id := by
  rw [scopeAt?, tableAt_eq]
  rfl

theorem Bindings.moduleScope?_eq {key : NodeKey} : b.moduleScope? id key = (b.source id).moduleIn? id key := by
  rw [moduleScope?, tableAt_eq]
  rfl

theorem StandsScope.congr (h : StandsScope b id) (hid : id'.home = id.home) : StandsScope b id' := by
  unfold StandsScope
  rw [hid]
  exact h

theorem StandsScope.inside (hx : Stands b x) (hbody : x.node.body? x.site.file = some body)
    (hopen : b.isOpen body x.site.scope = true) : StandsScope b (.inner body x.site.scope 0) :=
  .inr ⟨x, body, hx, hbody, hopen, rfl⟩

namespace Valid

variable (h : Valid b)
include h

theorem source_of_scope (hid : b.rights.scope id) : b.source id = b := by
  cases id with
  | main => rfl
  | inner body parent n =>
    rcases hid with hid | hid
    · exact nomatch hid
    · obtain ⟨-, y, other, -, -, hplain, heq⟩ := h.opened _ hid
      obtain ⟨rfl, -, -⟩ := ScopeId.inner.inj heq
      rw [Bindings.source, if_neg (by simp [hplain])]

theorem standsScope (hid : b.rights.scope id) : StandsScope b id := by
  rcases hid with hid | hid
  · exact .inl hid
  · obtain ⟨-, x, body, hx, hbody, -, heq⟩ := h.opened _ hid
    refine .inr ⟨x, body, hx, hbody, ?_, heq⟩
    rw [heq] at hid
    simp [Bindings.isOpen, hid]

/-- The table of a plain body holds what stands in it. -/
theorem plain (hx : Stands b x) (hbody : x.node.body? x.site.file = some body) (hplain : body.isPlain = true) :
    Bound (b.rightsAt (.inner body x.site.scope 0))
      (Bindings.bindInner body x.site.scope body.key.file (Bindings.start default)) := by
  have hnone : (Bindings.start default).Lacks body x.site.scope := by
    intro id hid
    cases id with
    | main => exact nomatch hid
    | inner => rfl
  have hstart : Bound (b.rightsAt (.inner body x.site.scope 0)) (Bindings.start default) := .of_lacks hnone fun _ => id
  have hreach : anyReachesOut body.statements = false := by simpa [Body.isPlain] using hplain
  have hpermits : (b.rightsAt (.inner body x.site.scope 0)).Permits b := ⟨fun _ h => h, fun _ _ h => h⟩
  refine hstart.sound_bindInner hpermits hbody hnone rfl ?_ hx
    (by simp [Bindings.isOpen, hplain]) (hx.modules_nodup h.orderly) ?_
  · intro hr
    exact nomatch hreach.symm.trans hr
  · intro id key inner hid _ hinner
    have hhome : id.home = (ScopeId.inner body x.site.scope 0).home := hid
    rw [Bindings.moduleScope?_eq, Bindings.source_congr hhome, Bindings.source, if_pos hplain]
    exact hinner

/-- The table of a scope that stands holds what stands. -/
theorem bound_source (hid : StandsScope b id) : Bound (b.rightsAt id) (b.source id) := by
  have governed (hid : b.rights.scope id) : Bound (b.rightsAt id) (b.source id) := by
    rw [h.source_of_scope hid]
    exact h.bound.weaken (fun id' hid' => b.rights.home _ _ hid'.symm hid) (fun _ h => h) fun _ _ h => h
  rcases hid with hid | ⟨x, body, hx, hbody, hopen, hid⟩
  · exact governed (.inl hid)
  · by_cases hplain : body.isPlain = true
    · have hsource : b.source id = b.source (.inner body x.site.scope 0) := Bindings.source_congr hid
      rw [Bindings.source, if_pos hplain] at hsource
      rw [hsource]
      exact (h.plain hx hbody hplain).weaken (fun id' hid' => hid'.trans hid) (fun _ h => h) fun _ _ h => h
    · refine governed (.inr ?_)
      rw [hid]
      simpa [Bindings.isOpen, hplain] using hopen

theorem standsScope_module {key : NodeKey} {inner : ScopeId} (hid : StandsScope b id)
    (hinner : b.moduleScope? id key = some inner) : StandsScope b inner := by
  rw [Bindings.moduleScope?_eq] at hinner
  rcases ((h.bound_source hid).module id key inner rfl hinner).1 with hhome | rfl
  · exact hid.congr hhome
  · exact .inl rfl

theorem standsScope_inside (hx : Stands b x) (hscope : StandsScope b x.site.scope) {site : Site}
    (hinside : x.inside b = some site) : StandsScope b site.scope := by
  rcases Item.inside_cases hinside with ⟨body, hbody, hopen, rfl⟩ | ⟨d, -, rfl⟩ | ⟨-, rfl⟩
  · exact .inside hx hbody hopen
  · cases hmodule : b.moduleScope? x.site.scope ⟨.moduleDecl, x.site.file, d.span.start⟩ with
    | none => exact hscope
    | some inner => exact h.standsScope_module hscope hmodule
  · exact hscope

theorem standsScope_site (hx : Stands b x) : StandsScope b x.site.scope := by
  induction hx with
  | root hunit => exact .inl (h.files _ hunit).1
  | part hx hy ih =>
    obtain ⟨site, hinside, -, rfl⟩ := Item.mem_parts.mp hy
    exact h.standsScope_inside hx ih hinside

end Valid

end

/-! ## Opening bodies -/

/-- What stood still stands, and the parts of a node stand where they did. -/
structure Grows (b b' : Bindings) : Prop where
  program : b'.program = b.program
  stands : ∀ x, Stands b x → Stands b' x
  inside : ∀ x site, Stands b x → x.inside b = some site → x.inside b' = some site
  opened : ∀ id ∈ b.opened, id ∈ b'.opened

section

variable {b b' b'' : Bindings} {x : Item} {body : Body} {id : ScopeId}

theorem Bindings.isOpen_mono {parent : ScopeId} (h : ∀ id ∈ b.opened, id ∈ b'.opened) (hopen : b.isOpen body parent = true) :
    b'.isOpen body parent = true := by
  simp only [isOpen, Bool.or_eq_true, List.contains_iff_mem] at hopen ⊢
  exact hopen.imp_right (h _)

namespace Grows

theorem refl (b : Bindings) : Grows b b := ⟨rfl, fun _ h => h, fun _ _ _ h => h, fun _ h => h⟩

theorem trans (h : Grows b b') (h' : Grows b' b'') : Grows b b'' where
  program := h'.program.trans h.program
  stands x hx := h'.stands x (h.stands x hx)
  inside x site hx hsite := h'.inside x site (h.stands x hx) (h.inside x site hx hsite)
  opened id hid := h'.opened id (h.opened id hid)

/-- It is enough that the modules that stand keep their scopes. -/
theorem of_modules (hprogram : b'.program = b.program) (hfiles : b'.fileScopes = b.fileScopes)
    (hopened : ∀ id ∈ b.opened, id ∈ b'.opened)
    (hmodules : ∀ x d, Stands b x → x.node = .statement (.moduleDecl d) →
      b'.moduleScope? x.site.scope ⟨.moduleDecl, x.site.file, d.span.start⟩ =
        b.moduleScope? x.site.scope ⟨.moduleDecl, x.site.file, d.span.start⟩) : Grows b b' := by
  have hinside (x : Item) (site : Site) (hx : Stands b x) (hsite : x.inside b = some site) : x.inside b' = some site := by
    rcases Item.inside_cases hsite with ⟨body, hbody, hopen, rfl⟩ | ⟨d, hnode, -⟩ | ⟨hbody, -⟩
    · rw [Item.inside_of_body hbody, if_pos (Bindings.isOpen_mono hopened hopen)]
    · have := hmodules x d hx hnode
      obtain ⟨node, outer⟩ := x
      obtain rfl := hnode
      rw [← hsite]
      simp only [Item.inside, Node.body?, this]
    · obtain ⟨node, outer⟩ := x
      cases node with
      | expr | type =>
        rw [← hsite]
        simp only [Item.inside, hbody]
      | statement s =>
        cases s with
        | moduleDecl d =>
          rw [← hsite]
          simp only [Item.inside, Node.body?, hmodules _ d hx rfl]
        | _ =>
          rw [← hsite]
          simp only [Item.inside, hbody]
  refine ⟨hprogram, fun x hx => ?_, hinside, hopened⟩
  induction hx with
  | @root unit s hunit hs =>
    have hsite : b.fileSite unit = b'.fileSite unit := by rw [Bindings.fileSite, Bindings.fileSite, hfiles]
    rw [hsite]
    exact .root (hprogram ▸ hunit) hs
  | @part x y hx hy ih =>
    obtain ⟨site, hsite, hnode, hy⟩ := Item.mem_parts.mp hy
    exact .part ih (Item.mem_parts.mpr ⟨site, hinside x site hx hsite, hnode, hy⟩)

variable (h : Grows b b')
include h

theorem isOpen {parent : ScopeId} (hopen : b.isOpen body parent = true) : b'.isOpen body parent = true :=
  Bindings.isOpen_mono h.opened hopen

theorem standsScope (hid : StandsScope b id) : StandsScope b' id := by
  rcases hid with hid | ⟨x, body, hx, hbody, hopen, hid⟩
  · exact .inl hid
  · exact .inr ⟨x, body, h.stands x hx, hbody, h.isOpen hopen, hid⟩

theorem stated {d : Declaration} (hd : Stated b d) : Stated b' d := by
  obtain ⟨⟨node, site⟩, hx, hd⟩ := hd
  refine ⟨_, h.stands _ hx, ?_⟩
  have inner (f : Site → List Declaration) (hd : d ∈ (Item.inside b ⟨node, site⟩).elim [] f) :
      d ∈ (Item.inside b' ⟨node, site⟩).elim [] f := by
    cases hinside : Item.inside b ⟨node, site⟩ with
    | none => rw [hinside] at hd; exact nomatch hd
    | some inner => rw [hinside] at hd; rw [h.inside _ _ hx hinside]; exact hd
  cases node with
  | expr e =>
    obtain ⟨kind, span⟩ := e
    cases kind with
    | function => exact inner _ hd
    | _ => exact nomatch hd
  | type => exact nomatch hd
  | statement s =>
    cases s with
    | function =>
      rcases List.mem_cons.mp hd with rfl | hd
      · exact List.mem_cons_self
      · exact List.mem_cons_of_mem _ (inner _ hd)
    | _ => exact hd

end Grows

/-! ### The step of the checker -/

/-- The scope of a module that stands is not noted again when a body is opened. -/
theorem Valid.not_keysAt (h : Valid b) (hx : Stands b x) (hbody : x.node.body? x.site.file = some body)
    (hclosed : b.isOpen body x.site.scope = false) {y : Item} (hy : Stands b y) {d : ModuleDecl}
    (hd : y.node = .statement (.moduleDecl d)) :
    ¬keysAt body.key.file (boundModulesOf body.statements) ⟨.moduleDecl, y.site.file, d.span.start⟩ := by
  rintro ⟨hfile, hstart⟩
  have hne : y ≠ x := by
    rintro rfl
    rw [hd] at hbody
    exact nomatch hbody
  refine hy.apart h.orderly hx hne (hfile.trans (Node.file_body hbody)) (a := moduleSpot d.span.start) ?_ ?_
  · rw [Item.taken, hd]
    exact List.mem_append_left _ List.mem_cons_self
  · have hinside : x.inside b = none := by
      rw [Item.inside_of_body hbody, hclosed]
      rfl
    rw [Item.taken, hinside, Option.isNone_none, if_pos rfl]
    refine List.mem_append_right _ ((Node.modules_sublist (Node.statements_sublist hbody)).subset ?_)
    have hmodules := (Gathers.statements body.statements).modules_eq
    rw [List.nil_append] at hmodules
    exact hmodules ▸ (boundModulesOf_sublist body.statements).subset (List.mem_map_of_mem hstart)

/-- The tables that binding a body can change. -/
def Rights.opening (body : Body) (parent : ScopeId) : Rights where
  scope id := id.home = .main 0 ∨ id.home = .inner body parent 0
  declaration _ := True
  interface _ _ := True
  home _ _ h hid := h ▸ hid

theorem Valid.lacks (h : Valid b) {parent : ScopeId} (hnew : ScopeId.inner body parent 0 ∉ b.opened) : b.Lacks body parent := by
  intro id hid
  rcases h.closed id with (hmain | hopened) | hempty
  · exact nomatch hid.symm.trans hmain
  · exact absurd (hid ▸ hopened) hnew
  · exact hempty

theorem Valid.bindInner (h : Valid b) {parent : ScopeId} (hnew : ScopeId.inner body parent 0 ∉ b.opened) (importer : Path) :
    Binds (.opening body parent) (keysAt body.key.file (boundModulesOf body.statements)) (b.withBody body parent)
      (Bindings.bindInner body parent importer b) := by
  have hlacks := h.lacks hnew
  have hbound : Bound (.opening body parent) b := by
    constructor
    · intro id s hid hs
      rcases hid with hid | hid
      · exact (h.bound.scope id s (.inl hid) hs).mono (fun _ h => h) (fun _ _ => trivial) fun _ _ _ => trivial
      · exact absurd (Option.isSome_iff_exists.mpr ⟨s, hs⟩) (hlacks.not_has hid)
    · intro id key inner hid hinner
      rcases hid with hid | hid
      · exact h.bound.module id key inner (.inl hid) hinner
      · rw [Bindings.moduleIn?, hlacks id hid] at hinner
        cases hinner
  exact Bound.bindInner importer ⟨fun _ => trivial, fun _ _ => trivial⟩ hbound hlacks (.inr rfl) fun _ =>
    ⟨.inl rfl, Bindings.has_withBody hlacks h.global⟩

theorem Valid.grows_openBody (h : Valid b) (hx : Stands b x) (hbody : x.node.body? x.site.file = some body)
    (hplain : body.isPlain = false) (importer : Path) : Grows b (b.openBody body x.site.scope importer) := by
  unfold Bindings.openBody
  simp only
  split
  · exact .refl b
  · rename_i hnew
    rw [List.contains_iff_mem] at hnew
    have hclosed : b.isOpen body x.site.scope = false := by simp [Bindings.isOpen, hplain, hnew]
    have hbinds := h.bindInner hnew importer
    have hrest := hbinds.rest
    generalize Bindings.bindInner body x.site.scope importer b = b₁ at hbinds hrest
    refine .of_modules (by rw [hrest]; rfl) (by rw [hrest]; rfl) (fun id => List.mem_cons_of_mem _) fun y d hy hd => ?_
    -- What stands is not inside the body, so its table is another one.
    have hother : y.site.scope.home ≠ .inner body x.site.scope 0 := by
      intro hhome
      rcases h.standsScope_site hy with hmain | ⟨z, body', -, -, hopen, hz⟩
      · exact nomatch hhome.symm.trans hmain
      · obtain ⟨rfl, hscope, -⟩ := ScopeId.inner.inj (hhome.symm.trans hz)
        rw [← hscope, hclosed] at hopen
        exact nomatch hopen
    have hkeys := h.not_keysAt hx hbody hclosed hy hd
    generalize (⟨.moduleDecl, y.site.file, d.span.start⟩ : NodeKey) = key at hkeys
    have hwith : (b.withBody body x.site.scope).moduleIn? y.site.scope key = b.moduleIn? y.site.scope key := by
      rw [Bindings.moduleIn?, Bindings.tableOf_withBody, if_neg hother]
      rfl
    have hsame : b₁.moduleIn? y.site.scope key = b.moduleIn? y.site.scope key := by
      rw [← hwith]
      exact hbinds.modules _ _ hkeys
    rw [Bindings.moduleScope?_eq, Bindings.moduleScope?_eq]
    cases hscope : y.site.scope with
    | main n =>
      rw [hscope] at hsame
      exact hsame
    | inner body' parent n =>
      unfold Bindings.source
      simp only
      split
      · rfl
      · rw [hscope] at hsame
        exact hsame

section

variable (importer : Path) (h : Valid b) (hopened : ScopeId.inner body x.site.scope 0 ∉ b.opened)
include hopened

theorem Bindings.openBody_eq : b.openBody body x.site.scope importer =
    { Bindings.bindInner body x.site.scope importer b with opened := .inner body x.site.scope 0 :: b.opened } := by
  unfold Bindings.openBody
  simp only [List.contains_iff_mem, hopened, if_false]

theorem Bindings.tableOf_openBody :
    (b.openBody body x.site.scope importer).tableOf id = (Bindings.bindInner body x.site.scope importer b).tableOf id := by
  rw [openBody_eq importer hopened]
  cases id <;> rfl

theorem Bindings.rights_openBody : (b.openBody body x.site.scope importer).rights.scope id ↔
    b.rights.scope id ∨ id.home = .inner body x.site.scope 0 := by
  simp only [Bindings.rights, openBody_eq importer hopened, List.mem_cons]
  tauto

include h

theorem Valid.has_openBody (hid : (b.withBody body x.site.scope).Has id) :
    (b.openBody body x.site.scope importer).Has id := by
  rw [Bindings.Has, Bindings.scopeIn?, Bindings.tableOf_openBody importer hopened]
  exact (h.bindInner hopened importer).has id hid

theorem Valid.bound_openBody (hx : Stands b x) (hbody : x.node.body? x.site.file = some body)
    (hplain : body.isPlain = false) :
    Bound (b.openBody body x.site.scope importer).rights (b.openBody body x.site.scope importer) := by
  have hgrows := h.grows_openBody hx hbody hplain importer
  have hlacks := h.lacks hopened
  have heq := Bindings.openBody_eq importer hopened
  have hscopes {id : ScopeId} : (b.openBody body x.site.scope importer).rights.scope id ↔
      b.rights.scope id ∨ id.home = .inner body x.site.scope 0 := Bindings.rights_openBody importer hopened
  have htable {id : ScopeId} : (b.openBody body x.site.scope importer).tableOf id =
      (Bindings.bindInner body x.site.scope importer b).tableOf id := Bindings.tableOf_openBody importer hopened
  have hsound := @Bound.sound_bindInner (b.openBody body x.site.scope importer).rights b
    (b.openBody body x.site.scope importer) body importer x
  generalize b.openBody body x.site.scope importer = b' at hgrows heq hscopes htable hsound ⊢
  have hbefore : Bound b'.rights b := by
    refine ⟨fun id s hid hs => ?_, fun id key inner hid hinner => ?_⟩
    · rcases hscopes.mp hid with hid | hid
      · exact (h.bound.scope id s hid hs).mono (fun _ h => h) (fun _ => hgrows.stated) fun _ _ => hgrows.stands _
      · exact absurd (Option.isSome_iff_exists.mpr ⟨s, hs⟩) (hlacks.not_has hid)
    · rcases hscopes.mp hid with hid | hid
      · exact h.bound.module id key inner hid hinner
      · rw [Bindings.moduleIn?, hlacks id hid] at hinner
        cases hinner
  have hopen : b'.isOpen body x.site.scope = true := by simp [Bindings.isOpen, heq]
  have hafter := hsound ⟨fun _ h => h, fun _ _ h => h⟩ hbefore hbody hlacks (hscopes.mpr (.inr rfl))
    (fun _ => ⟨.inl rfl, Bindings.has_withBody hlacks h.global⟩) (hgrows.stands x hx) hopen
    (hx.modules_nodup h.orderly) fun id key inner hid _ hinner => by
      have hsource : b'.source id = b' := by
        cases id with
        | main => rfl
        | inner other parent n =>
          have hother : other.isPlain = false := by
            rcases hscopes.mp hid with (hid | hid) | hid
            · cases hid
            · obtain ⟨-, y, _, -, -, hplain, heq⟩ := h.opened _ hid
              obtain ⟨rfl, -, -⟩ := ScopeId.inner.inj heq
              exact hplain
            · obtain ⟨rfl, -, -⟩ := ScopeId.inner.inj hid
              exact hplain
          rw [Bindings.source, hother]
          rfl
      rw [Bindings.moduleScope?_eq, hsource, Bindings.moduleIn?, htable]
      exact hinner
  exact hafter.of_tables fun _ => htable

end

/-- Opening a body binds in it what stands inside. -/
theorem Valid.openBody (h : Valid b) (hx : Stands b x) (hbody : x.node.body? x.site.file = some body)
    (hplain : body.isPlain = false) (importer : Path) : Valid (b.openBody body x.site.scope importer) := by
  by_cases hopened : ScopeId.inner body x.site.scope 0 ∈ b.opened
  · rw [Bindings.openBody]
    simpa [hopened] using h
  · have hgrows := h.grows_openBody hx hbody hplain importer
    have hlacks := h.lacks hopened
    have hbinds := h.bindInner hopened importer
    have heq := Bindings.openBody_eq importer hopened
    have hrest := hbinds.rest
    have hbound := h.bound_openBody importer hopened hx hbody hplain
    have hhas {id : ScopeId} (hid : b.Has id) := h.has_openBody importer hopened (Bindings.has_withBody hlacks hid)
    have hself := h.has_openBody importer hopened Bindings.has_self_withBody
    have hscopes {id : ScopeId} : (b.openBody body x.site.scope importer).rights.scope id ↔
        b.rights.scope id ∨ id.home = .inner body x.site.scope 0 := Bindings.rights_openBody importer hopened
    have htable {id : ScopeId} : (b.openBody body x.site.scope importer).tableOf id =
        (Bindings.bindInner body x.site.scope importer b).tableOf id := Bindings.tableOf_openBody importer hopened
    generalize Bindings.bindInner body x.site.scope importer b = b₁ at hbinds heq hrest htable
    generalize b.openBody body x.site.scope importer = b' at hgrows heq hbound hhas hself hscopes htable ⊢
    have hfiles : b'.fileSite = b.fileSite := by
      rw [heq, hrest]
      rfl
    have hambient (y : String × ModuleRef) (hy : y ∈ b'.ambientModules) : y ∈ b₁.ambientModules := by
      rw [heq] at hy
      exact hy
    refine ⟨hgrows.program ▸ h.orderly, hbound, fun id => ?_, fun id hid => ?_, hhas h.global, fun unit hunit => ?_,
      fun path c hc => ?_, fun y hy c hc => ?_⟩
    · by_cases hid : (Rights.opening body x.site.scope).scope id
      · exact .inl (hscopes.mpr (hid.imp_left .inl))
      · have hother : id.home ≠ .inner body x.site.scope 0 := fun hhome => hid (.inr hhome)
        rw [hscopes, htable, hbinds.tables id hid, Bindings.tableOf_withBody, if_neg hother]
        exact (h.closed id).imp_left .inl
    · rw [heq] at hid
      rcases List.mem_cons.mp hid with rfl | hid
      · exact ⟨hself, x, body, hgrows.stands x hx, hbody, hplain, rfl⟩
      · obtain ⟨hid, y, body', hy, hrest⟩ := h.opened id hid
        exact ⟨hhas hid, y, body', hgrows.stands y hy, hrest⟩
    · rw [hfiles]
      have := h.files unit (hgrows.program ▸ hunit)
      exact ⟨this.1, hhas this.2⟩
    · rw [heq, hrest] at hc
      exact h.modules path c hc
    · rcases hbinds.ambient y (hambient y hy) with hy | ⟨id, hid, href⟩
      · exact hgrows.standsScope (h.ambient y hy c hc)
      · have hhome := (href c hc).1
        rcases hid with hid | hid
        · exact .inl (hhome.trans hid)
        · refine .inr ⟨x, body, hgrows.stands x hx, hbody, ?_, hhome.trans hid⟩
          simp [Bindings.isOpen, heq]

theorem Bindings.isOpen_openBody (importer : Path) {parent : ScopeId} :
    (b.openBody body parent importer).isOpen body parent = true := by
  unfold Bindings.openBody Bindings.isOpen
  simp only
  split
  · rename_i hopened
    rw [hopened, Bool.or_true]
  · simp

end

end Check

end Recheck
