import Recheck.Proofs.Check.Filling
import Recheck.Proofs.Check.Attribution
import Recheck.Proofs.Check.RuleAttention

/-!
# Which imports are used

An import is used by what the check looks up outside the silent computations. Each node of a file is judged there, so where
a node refers to the import, and its name leads to the import from there, the import is used (`Sights.uses`). Where no node
has its name it is not used, unless another name leads to something that stands in the same place (`spared`).
-/

set_option autoImplicit false

namespace Recheck.Check

open Syntax

/-! ## References -/

namespace Node

/-- A block of declarations for the scope that all files share. -/
def isGlobal : Node → Bool
  | statement (.moduleDecl ⟨_, .global _, _, _⟩) => true
  | _ => false

/-- The name is referred to in a node, somewhere outside the blocks for the scope that all files share. -/
inductive RefersTo (name : String) : Node → Prop
  | own {n : Node} : name ∈ n.refers → RefersTo name n
  | part {n m : Node} : n.isGlobal = false → m ∈ n.parts → RefersTo name m → RefersTo name n

/-- The name is referred to somewhere in a node. -/
inductive Mentions (name : String) : Node → Prop
  | own {n : Node} : name ∈ n.refers → Mentions name n
  | part {n m : Node} : m ∈ n.parts → Mentions name m → Mentions name n

theorem RefersTo.ident {name name' : String} {span : Span} (h : RefersTo name (expr ⟨.ident name', span⟩)) : name = name' := by
  cases h with
  | own h => exact List.mem_singleton.mp h
  | part _ h => exact nomatch h

/-- A name that is looked up for a node is referred to in it. -/
theorem Mentions.of_looks {n : Node} {name : String} (h : name ∈ n.looks) : Mentions name n := by
  have composed {e : Expr} (h : name ∈ identName e) : Mentions name (expr e) := .own h
  cases n with
  | expr e =>
    obtain ⟨kind, span⟩ := e
    cases kind with
    | member => exact .part List.mem_cons_self (composed h)
    | _ => exact .own h
  | type => exact .own h
  | statement s =>
    cases s with
    | exportDecl d =>
      obtain ⟨kind, span⟩ := d
      cases kind with
      | default | assignment => exact .part List.mem_cons_self (composed h)
      | _ => exact .own h
    | _ => exact .own h

/-- Names are looked up for nodes whose parts stand where they do. -/
theorem plain_of_looks {n : Node} {name : String} (h : name ∈ n.looks) (file : Path) : n.body? file = none ∧ n.module = [] := by
  cases n with
  | expr e =>
    obtain ⟨kind, span⟩ := e
    cases kind with
    | function => exact nomatch h
    | _ => exact ⟨rfl, rfl⟩
  | type => exact ⟨rfl, rfl⟩
  | statement s =>
    cases s with
    | exportDecl => exact ⟨rfl, rfl⟩
    | _ => exact nomatch h

theorem visits_subset_parts (n : Node) : n.visits ⊆ n.parts := by
  have composed (e : Expr) : ofComposed e ⊆ ofExprs [e] := by
    unfold ofComposed
    split
    · exact List.nil_subset _
    · exact List.Subset.refl _
  cases n with
  | expr e =>
    obtain ⟨kind, span⟩ := e
    cases kind with
    | member => exact composed _
    | _ => exact List.Subset.refl _
  | type => exact List.Subset.refl _
  | statement s =>
    cases s with
    | exportDecl d =>
      obtain ⟨kind, span⟩ := d
      cases kind with
      | default | assignment => exact composed _
      | _ => exact List.nil_subset _
    | _ => exact List.Subset.refl _

end Node

/-! ## What lasts -/

/-- What is true of bindings stays true when a body is opened. -/
def Lasting (p : Program) (file : Path) (I : Bindings → Prop) : Prop :=
  ∀ b x body, Valid b → b.program = p → I b → Stands b x → x.node.body? x.site.file = some body → body.isPlain = false →
    I (b.openBody body x.site.scope file)

/-- Besides, no scope is moved. -/
theorem Lasting.nested {p : Program} {file : Path} {I : Bindings → Prop} (h : Lasting p file I) (b : Bindings) :
    Lasting p file fun b' => I b' ∧ b.Nested b' := fun b' x body hvalid hprogram hholds hx hbody hplain =>
  ⟨h b' x body hvalid hprogram hholds.1 hx hbody hplain, hholds.2.trans (b'.nested_openBody body x.site.scope file)⟩

/-- A state outside the silent computations, with room for what may be asked about a node of some height. -/
structure Ready (p : Program) (I : Bindings → Prop) (n h : Nat) (s : State) : Prop where
  steady : s.Steady p
  room : s.room p + h ≤ n
  loud : s.quiet = 0
  holds : I s.known.bindings

section

variable {p : Program} {file : Path} {I : Bindings → Prop} {n h : Nat} {s : State}

theorem State.known_find (s : State) (change : Findings → Findings) : (s.find change).known = s.known := by
  unfold State.find
  split <;> rfl

/-- A part of a check keeps what its answers keep. -/
theorem Lasting.run (hp : p.WellRead)
    (hanswer : ∀ q h s, 0 < h → s.Steady p → q.Proper h s.known.bindings → s.room p + h ≤ n → I s.known.bindings →
      I ((answer file n q).run s).2.known.bindings)
    {α : Type} {c : CheckM α} {Q : Bindings → α → Prop} (hpos : 0 < h) (hs : s.Steady p) (hc : Asks h Q c s.known.bindings)
    (hn : s.room p + h ≤ n) (hholds : I s.known.bindings) : I ((c.run (answer file n)).run s).2.known.bindings := by
  induction c generalizing s with
  | done => exact hholds
  | ask q next ih =>
    have first := (answers hp file n q h s hpos hs hc.1 hn).unwinds
    have hroom := (State.room_congr (p := p) first.resolving).symm ▸ hn
    exact ih _ first.steady (hc.2 _ _ first.later first.result) hroom (hanswer q h s hpos hs hc.1 hn hholds)

theorem Lasting.answer (hI : Lasting p file I) (hp : p.WellRead) (n : Nat) (q : Question) (h : Nat) (s : State) (hpos : 0 < h)
    (hs : s.Steady p) (hq : q.Proper h s.known.bindings) (hn : s.room p + h ≤ n) (hholds : I s.known.bindings) :
    I ((Check.answer file n q).run s).2.known.bindings := by
  induction n generalizing q h s with
  | zero => omega
  | succ n ih =>
    cases q with
    | judge j =>
      obtain ⟨hstands, hheight⟩ := hq
      exact Lasting.run hp ih j.item.node.height_pos hs (fine_rule j hs.valid hstands) (by omega) hholds
    | declared d =>
      change I ((remember d ((declarationRule d).run (Check.answer file n))).run s).2.known.bindings
      rw [remember_run]
      split
      · exact hholds
      · split
        · exact hholds
        · rename_i hmem
          have hnew : d ∉ s.known.resolving := fun hd => hmem (List.contains_iff_mem.mpr hd)
          refine Lasting.run hp ih (Nat.zero_lt_of_lt hp.cacheable_lt) (hs.enter hq hnew) (hs.fine_declarationRule hp hq) ?_ hholds
          rw [hs.room_enter hq hnew]
          omega
    | openBody body parent =>
      obtain ⟨x, hx, hbody, rfl, hplain⟩ := hq
      exact hI _ x body hs.valid hs.program hholds hx hbody hplain
    | report | use =>
      change I (s.find _).known.bindings
      rwa [State.known_find]
    | bindings | isQuiet => exact hholds

/-- It holds at any moment of a run. -/
theorem Lasting.comes (hI : Lasting p file I) (hp : p.WellRead) {m : Nat} {α : Type} {c : CheckM α} {q : Question} {s' : State}
    (hcomes : Comes file n c s m q s') (hs : s.Steady p) {Q : Bindings → α → Prop} (hpos : 0 < h)
    (hc : Asks h Q c s.known.bindings) (hn : s.room p + h ≤ n) (hholds : I s.known.bindings) : I s'.known.bindings := by
  induction hcomes generalizing h with
  | ask => exact hholds
  | @next _ n m q q' next s s' _ ih =>
    have first := (answers hp file n q h s hpos hs hc.1 hn).unwinds
    refine ih first.steady hpos (hc.2 _ _ first.later first.result) ?_ (hI.answer hp n q h s hpos hs hc.1 hn hholds)
    exact (State.room_congr first.resolving).symm ▸ hn
  | @judge _ n m j q' next s s' _ ih =>
    obtain ⟨hstands, hheight⟩ := hc.1
    exact ih hs j.item.node.height_pos (fine_rule j hs.valid hstands) (by omega) hholds
  | @declared _ n m d q' next s s' _ hnew _ ih =>
    refine ih (hs.enter hc.1 hnew) (Nat.zero_lt_of_lt hp.cacheable_lt) (hs.fine_declarationRule hp hc.1) ?_ hholds
    rw [hs.room_enter hc.1 hnew]
    omega

namespace Ready

variable (hs : Ready p I n h s) (hpos : 0 < h)
include hs hpos

theorem answer (hp : p.WellRead) (hI : Lasting p file I) {q : Question} (hq : q.Proper h s.known.bindings) :
    Ready p I n h ((Check.answer file n q).run s).2 ∧
      Later s.known.bindings ((Check.answer file n q).run s).2.known.bindings ∧
      q.Settles ((Check.answer file n q).run s).2.known.bindings ((Check.answer file n q).run s).1 := by
  have first := (answers hp file n q h s hpos hs.steady hq hs.room).unwinds
  refine ⟨⟨first.steady, ?_, ?_, ?_⟩, first.later, first.result⟩
  · rw [State.room_congr first.resolving]
    exact hs.room
  · exact loud_answer hp hpos hs.steady hq hs.room hs.loud
  · exact hI.answer hp n q h s hpos hs.steady hq hs.room hs.holds

omit hpos in
theorem answered (file : Path) {o : Lookout} (hknown : o.known s.known.bindings) (q : Question) :
    o.Answered q ((Check.answer file n q).run s).1 := by
  cases q with
  | bindings => cases n <;> exact hknown
  | isQuiet =>
    have hquiet : (decide (s.quiet ≠ 0)) = false := decide_eq_false (not_not.mpr hs.loud)
    cases n <;> exact hquiet
  | _ => trivial

end Ready

/-! ## Following a run -/

/-- In a run from one state to another the node was judged, and what was found then is found in the end. -/
def Judged (p : Program) (file : Path) (I : Bindings → Prop) (n h : Nat) (s final : State) (x : Item) : Prop :=
  ∃ j s', Judgement.looksInto j ∧ j.item = x ∧ Ready p I n h s' ∧ (Question.judge j).Proper h s'.known.bindings ∧
    Later s.known.bindings s'.known.bindings ∧ ((answer file n (.judge j)).run s').2.found.Grow final.found

variable (hp : p.WellRead) (hI : Lasting p file I)
include hp hI

/-- The target is used in a run, or all is judged that is owed. -/
theorem Attends.run {o : Lookout} {hit : Prop} {todo : List Node} {α : Type} {c : CheckM α} {Q : Bindings → α → Prop}
    {key : NodeKey} (hkey : ∀ found : Findings, key ∈ (found.use file o.target).used) (hc : Attends o hit todo c)
    (hpos : 0 < h) (hasks : Asks h Q c s.known.bindings) (hs : Ready p I n h s)
    (hknown : ∀ b, Later s.known.bindings b → I b → o.known b) :
    let final := ((c.run (answer file n)).run s).2
    key ∈ final.found.used ∨ ¬hit ∧ ∀ m ∈ todo, Judged p file I n h s final ⟨m, o.site⟩ := by
  induction c generalizing s todo with
  | done =>
    obtain ⟨rfl, hhit⟩ := hc
    exact .inr ⟨hhit, nofun⟩
  | ask q next ih =>
    obtain ⟨rest, htakes, hnext⟩ := hc
    obtain ⟨hready, hlater, hsettles⟩ := hs.answer hpos hp hI hasks.1
    have hgrow := grow_run file n (next ((answer file n q).run s).1) ((answer file n q).run s).2
    by_cases htarget : q = .use o.target
    · subst htarget
      refine .inl (hgrow.used ?_)
      have hfound : ((answer file n (.use o.target)).run s).2.found = s.found.use file o.target := by
        have hrun : ((answer file n (.use o.target)).run s).2 = s.find (·.use file o.target) := by cases n <;> rfl
        rw [hrun, State.find, if_pos hs.loud]
      rw [hfound]
      exact hkey _
    · have hanswered := hs.answered file (hknown _ (.refl hs.steady.valid) hs.holds) q
      rcases ih _ (hnext.resolve_left htarget _ hanswered) (hasks.2 _ _ hlater hsettles) hready
        fun b hb => hknown b (hlater.trans hb) with hused | ⟨hhit, hrest⟩
      · exact .inl hused
      · have hrest (m : Node) (hm : m ∈ rest) : Judged p file I n h s
            (((next ((answer file n q).run s).1).run (answer file n)).run ((answer file n q).run s).2).2 ⟨m, o.site⟩ := by
          obtain ⟨j, s', hj, hitem, hs', hproper, hlater', hgrow'⟩ := hrest m hm
          exact ⟨j, s', hj, hitem, hs', hproper, hlater.trans hlater', hgrow'⟩
        refine .inr ⟨hhit, fun m hm => ?_⟩
        cases q with
        | judge j =>
          obtain ⟨hlooks, hsite, rfl | ⟨rfl, -⟩⟩ := htakes
          · rcases List.mem_cons.mp hm with rfl | hm
            · exact ⟨j, s, hlooks, by rw [← hsite], hs, hasks.1, .refl hs.steady.valid, hgrow⟩
            · exact hrest m hm
          · exact hrest m hm
        | use binding => exact hrest m (htakes.1 ▸ hm)
        | _ => exact hrest m (htakes ▸ hm)

/-- A run that comes to no use under a key, by itself or in what it has judged, uses nothing under the key. -/
theorem Attends.spares {o : Lookout} {hit : Prop} {todo : List Node} {α : Type} {c : CheckM α} {Q : Bindings → α → Prop}
    {key : NodeKey} (hc : Attends o hit todo c) (hpos : 0 < h) (hasks : Asks h Q c s.known.bindings) (hs : Ready p I n h s)
    (hknown : ∀ b, Later s.known.bindings b → I b → o.known b)
    (hleads : ∀ name ∈ o.names, ∀ binding, o.Leads name binding →
      binding ≠ o.target ∧ ∀ found : Findings, key ∈ (found.use file binding).used → key ∈ found.used)
    (hjudge : ∀ j s', Judgement.looksInto j → j.item.site = o.site →
      (j.item.node ∈ todo ∨ ∃ name ∈ o.names, ∃ span, j.item.node = .expr ⟨.ident name, span⟩) → Ready p I n h s' →
      (Question.judge j).Proper h s'.known.bindings → Later s.known.bindings s'.known.bindings →
      key ∈ ((answer file n (.judge j)).run s').2.found.used → key ∈ s'.found.used)
    (hused : key ∈ ((c.run (answer file n)).run s).2.found.used) : key ∈ s.found.used := by
  induction c generalizing s todo with
  | done => exact hused
  | ask q next ih =>
    obtain ⟨rest, htakes, hnext⟩ := hc
    obtain ⟨hready, hlater, hsettles⟩ := hs.answer hpos hp hI hasks.1
    have hother : q ≠ .use o.target := by
      rintro rfl
      obtain ⟨-, name, hname, hlead⟩ := htakes
      exact (hleads name hname _ hlead).1 rfl
    have hanswered := hs.answered file (hknown _ (.refl hs.steady.valid) hs.holds) q
    have hrest : rest ⊆ todo := by
      cases q with
      | judge j =>
        obtain ⟨-, -, rfl | ⟨rfl, -⟩⟩ := htakes
        · exact List.subset_cons_self _ _
        · exact List.Subset.refl _
      | use binding => exact htakes.1 ▸ List.Subset.refl _
      | _ => exact htakes ▸ List.Subset.refl _
    have hfirst : key ∈ ((answer file n q).run s).2.found.used := by
      refine ih _ (hnext.resolve_left hother _ hanswered) (hasks.2 _ _ hlater hsettles) hready
        (fun b hb => hknown b (hlater.trans hb)) (fun j s' hj hsite hnode hs' hproper hb => ?_) hused
      exact hjudge j s' hj hsite (hnode.imp_left fun hm => hrest hm) hs' hproper (hlater.trans hb)
    cases q with
    | judge j =>
      obtain ⟨hlooks, hsite, hnode⟩ := htakes
      refine hjudge j s hlooks hsite ?_ hs hasks.1 (.refl hs.steady.valid) hfirst
      rcases hnode with rfl | ⟨-, hname⟩
      · exact .inl List.mem_cons_self
      · exact .inr hname
    | declared d =>
      rwa [(silent_declared file n d s).found] at hfirst
    | report fault span =>
      rw [answer_report, State.find, if_pos hs.loud] at hfirst
      exact hfirst
    | use binding =>
      have hrun : ((answer file n (.use binding)).run s).2 = s.find (·.use file binding) := by cases n <;> rfl
      rw [hrun, State.find, if_pos hs.loud] at hfirst
      obtain ⟨-, name, hname, hlead⟩ := htakes
      exact (hleads name hname binding hlead).2 _ hfirst
    | bindings | isQuiet | openBody => cases n <;> exact hfirst

omit hp hI

/-! ## Nodes -/

/-- Where the parts of a node stand as soon as its body is open. -/
def Item.core (b : Bindings) (x : Item) : Site :=
  match x.node.body? x.site.file with
  | some body => { x.site with scope := .inner body x.site.scope 0 }
  | none => (x.inside b).getD x.site

variable {b : Bindings} {x : Item} {target : ImportBinding} {marked : String → Prop}

theorem Item.core_of_looks {name : String} (h : name ∈ x.node.looks) : x.core b = x.site := by
  obtain ⟨hbody, hmodule⟩ := Node.plain_of_looks h x.site.file
  rw [core, hbody]
  dsimp only
  rw [inside_eq_site hbody hmodule, Option.getD_some]

/-- What is known while the rule for a node is followed. -/
def lookout (I : Bindings → Prop) (b : Bindings) (x : Item) (target : ImportBinding) (marked : String → Prop)
    (hfinds : ∀ b' name, Later b b' ∧ I b' → marked name →
      b'.lookupValue (x.core b).scope name = some (.imported target) ∧
        b'.lookupType (x.core b).scope name = some (.imported target)) : Lookout :=
  ⟨x.core b, x.node.looks, fun b' => Later b b' ∧ I b', marked, target, hfinds⟩

theorem lookout_at (hfinds) (hx : Stands b x) : (lookout I b x target marked hfinds).At x where
  names := List.Subset.refl _
  body body hbody := by
    change x.core b = _
    rw [Item.core, hbody]
  module d hd b' hb' := by
    obtain ⟨node, site⟩ := x
    obtain rfl : node = .statement (.moduleDecl d) := hd
    exact hb'.1.grows.inside _ _ hx rfl
  plain hbody hmodule := by
    change x.core b = _
    rw [Item.core, hbody]
    dsimp only
    rw [Item.inside_eq_site hbody hmodule, Option.getD_some]

/-- From the nodes in sight the name leads to the target, and from a node in sight its parts are in sight. -/
structure Sights (I : Bindings → Prop) (target : ImportBinding) (name : String) (sees : Bindings → Item → Prop) : Prop where
  finds : ∀ b x, Valid b → I b → Stands b x → sees b x →
    b.lookupValue x.site.scope name = some (.imported target) ∧ b.lookupType x.site.scope name = some (.imported target)
  later : ∀ b b' x, sees b x → Later b b' → b.Nested b' → sees b' x
  part : ∀ b x m, Valid b → I b → Stands b x → sees b x → x.node.isGlobal = false → m ∈ x.node.parts → sees b ⟨m, x.core b⟩

/-- The rule for a node that is judged has room for what it asks. -/
theorem Ready.rule {j : Judgement} (hs : Ready p I n h s) (hproper : (Question.judge j).Proper h s.known.bindings) :
    ∃ m, n = m + 1 ∧ Ready p I m j.item.node.content.height s := by
  have hheight := hproper.2
  have hroom := hs.room
  exact ⟨n - 1, by omega, hs.steady, by omega, hs.loud, hs.holds⟩

include hp hI

variable {name : String} {sees : Bindings → Item → Prop} {key : NodeKey} {j : Judgement}

/-- Where a node in sight is judged, the target is used, or the name is not looked up and the parts are judged. -/
theorem Sights.judge (hsights : Sights I target name sees) (hkey : ∀ found : Findings, key ∈ (found.use file target).used)
    (hj : j.looksInto) (hs : Ready p I n h s) (hproper : (Question.judge j).Proper h s.known.bindings)
    (hsees : sees s.known.bindings j.item) :
    let final := ((answer file n (.judge j)).run s).2
    key ∈ final.found.used ∨ name ∉ j.item.node.looks ∧ ∀ m ∈ j.item.node.visits, ∃ n h,
      Judged p file (fun b => I b ∧ s.known.bindings.Nested b) n h s final ⟨m, j.item.core s.known.bindings⟩ := by
  obtain ⟨m, rfl, hrule⟩ := hs.rule hproper
  have hstands := hproper.1
  have hfinds (b' : Bindings) (looked : String) (hb' : Later s.known.bindings b' ∧ I b' ∧ s.known.bindings.Nested b')
      (hlooked : looked = name ∧ looked ∈ j.item.node.looks) :
      b'.lookupValue (j.item.core s.known.bindings).scope looked = some (.imported target) ∧
        b'.lookupType (j.item.core s.known.bindings).scope looked = some (.imported target) := by
    obtain ⟨rfl, hlooks⟩ := hlooked
    rw [Item.core_of_looks hlooks]
    exact hsights.finds b' _ hb'.1.valid hb'.2.1 (hb'.1.grows.stands _ hstands) (hsights.later _ _ _ hsees hb'.1 hb'.2.2)
  have hattends := attends_rule hj
    (lookout_at (I := fun b => I b ∧ s.known.bindings.Nested b) hfinds hstands)
  have hready : Ready p (fun b => I b ∧ s.known.bindings.Nested b) m j.item.node.content.height s :=
    ⟨hrule.steady, hrule.room, hrule.loud, hrule.holds, .refl _⟩
  rcases hattends.run hp (hI.nested s.known.bindings) hkey j.item.node.height_pos (fine_rule j hs.steady.valid hstands) hready
    (fun _ hlater hholds => ⟨hlater, hholds⟩) with hused | ⟨hhit, hjudged⟩
  · exact .inl hused
  · exact .inr ⟨fun hlooks => hhit ⟨name, hlooks, rfl, hlooks⟩, fun node hnode => ⟨m, _, hjudged node hnode⟩⟩

/-- What refers to the target uses it. -/
theorem Sights.uses (hsights : Sights I target name sees) (hkey : ∀ found : Findings, key ∈ (found.use file target).used)
    (hrefers : j.item.node.RefersTo name) (hj : j.looksInto) (hs : Ready p I n h s)
    (hproper : (Question.judge j).Proper h s.known.bindings) (hsees : sees s.known.bindings j.item) :
    key ∈ ((answer file n (.judge j)).run s).2.found.used := by
  generalize hnode : j.item.node = node at hrefers
  induction hrefers generalizing j n h s with
  | own hname =>
    refine (hsights.judge hp hI hkey hj hs hproper hsees).resolve_right fun hnone => hnone.1 ?_
    exact hnode.symm ▸ Node.refers_subset_looks _ hname
  | @part node m hglobal hm hrefers ih =>
    subst hnode
    rcases hsights.judge hp hI hkey hj hs hproper hsees with hused | ⟨hnone, hjudged⟩
    · exact hused
    · rcases Node.visits_or_looks hm with hvisits | ⟨other, span, rfl, hlooks⟩
      · obtain ⟨n', h', j', s', hj', hitem, hs', hproper', hlater, hgrow⟩ := hjudged m hvisits
        have hpart := hsights.part _ _ m hs.steady.valid hs.holds hproper.1 hsees hglobal hm
        obtain ⟨hholds, hnested⟩ := hs'.holds
        refine hgrow.used (ih hj' ⟨hs'.steady, hs'.room, hs'.loud, hholds⟩ hproper' ?_ (congrArg Item.node hitem))
        rw [hitem]
        exact hsights.later _ _ _ hpart hlater hnested
      · exact absurd (hrefers.ident ▸ hlooks) hnone

/-- Where no node has the name of an import, and no other name leads to something that stands in the same place, the import is
not used. -/
theorem spared {unused : ImportBinding} (hunused : unused.localName = none)
    (hleads : ∀ b x other binding, Valid b → I b → Stands b x → other ≠ name →
      b.lookupValue x.site.scope other = some (.imported binding) ∨ b.lookupType x.site.scope other = some (.imported binding) →
      ∃ id, binding.localName = some id ∧ importKey binding.home id ≠ key)
    (hmentions : ¬j.item.node.Mentions name) (hj : j.looksInto) (hs : Ready p I n h s)
    (hproper : (Question.judge j).Proper h s.known.bindings)
    (hused : key ∈ ((answer file n (.judge j)).run s).2.found.used) : key ∈ s.found.used := by
  induction n generalizing j h s with
  | zero =>
    obtain ⟨_, hn, -⟩ := hs.rule hproper
    cases hn
  | succ n ih =>
    obtain ⟨_, hn, hrule⟩ := hs.rule hproper
    obtain rfl := Nat.succ.inj hn
    have hstands := hproper.1
    have hnone (b' : Bindings) (other : String) (_ : Later s.known.bindings b' ∧ I b') (hother : False) :
        b'.lookupValue (j.item.core s.known.bindings).scope other = some (.imported unused) ∧
          b'.lookupType (j.item.core s.known.bindings).scope other = some (.imported unused) := hother.elim
    have hattends := attends_rule hj (lookout_at hnone hstands)
    have hother {other : String} (hlooks : other ∈ j.item.node.looks) : other ≠ name :=
      fun heq => hmentions (.of_looks (heq ▸ hlooks))
    refine hattends.spares hp hI j.item.node.height_pos (fine_rule j hs.steady.valid hstands) hrule
      (fun _ hlater hholds => ⟨hlater, hholds⟩) ?_ ?_ hused
    · rintro other hlooks binding ⟨b, ⟨hlater, hholds⟩, hlead⟩
      change b.lookupValue (j.item.core _).scope other = _ ∨ b.lookupType (j.item.core _).scope other = _ at hlead
      rw [Item.core_of_looks hlooks] at hlead
      obtain ⟨id, hid, hkey⟩ :=
        hleads b _ other binding hlater.valid hholds (hlater.grows.stands _ hstands) (hother hlooks) hlead
      refine ⟨?_, fun found hfound => ?_⟩
      · rintro rfl
        exact nomatch hid.symm.trans hunused
      · unfold Findings.use at hfound
        rw [hid] at hfound
        dsimp only at hfound
        split at hfound
        · exact (List.mem_cons.mp hfound).resolve_left fun heq => hkey heq.symm
        · exact hfound
    · intro j' s' hj' _ hnode hs' hproper' _
      refine ih (fun hmention => ?_) hj' hs' hproper'
      rcases hnode with hvisits | ⟨other, hlooks, span, hident⟩
      · exact hmentions (.part (Node.visits_subset_parts _ hvisits) hmention)
      · rw [hident] at hmention
        cases hmention with
        | own hown => exact hother hlooks (List.mem_singleton.mp hown).symm
        | part hpart => exact nomatch hpart

end

end Recheck.Check
