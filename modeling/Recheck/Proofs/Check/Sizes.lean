import Mathlib.Data.String.Basic
import Mathlib.Algebra.Order.BigOperators.Group.List
import Recheck.Proofs.Check.Standing
import Recheck.Proofs.Syntax.Progress

/-!
# The size of a program

No token but the last is empty, so a text has at most one token more than bytes, and its tree is no higher than twice that
and declares no more. Hence the number that the depth of a check is computed from is above the height of whatever stands in
the program (`Stands.height_lt`) and above the number of its declarations (`cacheable_lt`). In the same way spots of a tree
that lie apart in the text are distinct, which is all that is needed to tell modules apart (`WellRead.orderly`).
-/

set_option autoImplicit false

namespace Recheck

open Syntax Syntax.Parser Check

/-! ## Texts -/

theorem Chars.byteLength_toList (s : String) : Chars.byteLength s.toList = s.utf8ByteSize := by
  rw [← String.utf8Len_toList]
  induction s.toList with
  | nil => rfl
  | cons c cs ih => rw [byteLength_cons, String.utf8Len_cons, ih, Nat.add_comm]

namespace Syntax

theorem Ruled.le_edge {T : List Token} (hT : Ruled T) {i : Nat} (hi : i < T.length) : i ≤ edge T i := by
  induction i with
  | zero => exact Nat.zero_le _
  | succ i ih => exact Nat.lt_of_le_of_lt (ih (by omega)) (hT.edge_lt_succ hi)

theorem length_lex_le (text : String) : (lex text).tokens.length ≤ text.utf8ByteSize + 1 := by
  obtain ⟨hT, hlimit⟩ := ruled_lex text
  have hlast := hT.le_edge (Nat.sub_lt hT.pos Nat.one_pos)
  have := hT.edge_le_limit ((lex text).tokens.length - 1)
  rw [hlimit, Chars.byteLength_toList] at this
  omega

end Syntax

namespace SourceUnit

variable {unit : SourceUnit}

/-- The statements of a file, one behind the other. -/
theorem Read.row (h : unit.Read) : Row 0 (StatementReads (lex unit.text).tokens) 0 ((lex unit.text).tokens.length - 1)
    unit.tree.statements := by
  obtain ⟨hT, -⟩ := ruled_lex unit.text
  obtain ⟨statements, final, -, hrun, -, -, hrow⟩ := program_run hT .exhausted .exhausted
    (n := (lex unit.text).tokens.length) (m := (lex unit.text).tokens.length + 1) (by omega) (by omega)
  rw [Grammar.over_exhausted] at hrun
  have htree : (parse unit.text).tree.statements = statements := congrArg Prod.fst hrun
  rw [h.tree_eq, htree]
  exact hrow

theorem Read.fits (h : unit.Read) : Fits (lex unit.text).tokens 0 0 ((lex unit.text).tokens.length - 1) 2 0
    (statementsContent unit.tree.statements) := by
  rw [statementsContent_eq]
  exact h.row.fits_of_le (ruled_lex unit.text).1 fun _ _ _ hs => hs.fits

theorem Read.height_le (h : unit.Read) : (statementsContent unit.tree.statements).height ≤ 2 * unit.text.utf8ByteSize + 2 := by
  have := h.fits.height_le
  have := length_lex_le unit.text
  omega

theorem Read.declared_le (h : unit.Read) : (statementsContent unit.tree.statements).declared ≤ 2 * unit.text.utf8ByteSize := by
  have := h.fits.declared_le
  have := length_lex_le unit.text
  omega

end SourceUnit

/-! ## Programs -/

namespace Program

variable {p : Program} {unit : SourceUnit}

theorem WellRead.read_of_mem (h : p.WellRead) (hunit : unit ∈ p.units) : unit.Read := by
  obtain ⟨⟨path, _⟩, hmem, rfl⟩ := List.mem_map.mp hunit
  exact (h.read path _ hmem).2

theorem WellRead.mem_of_unit? (h : p.WellRead) {path : Path} (hunit : p.unit? path = some unit) :
    unit ∈ p.units ∧ (unit.path == path) = true := by
  obtain ⟨key, hmem, hkey⟩ := (Dict.get?_eq_some_iff h.distinct).mp hunit
  exact ⟨List.mem_map_of_mem (f := (·.2)) hmem, BEq.trans (BEq.symm (h.read key unit hmem).1) hkey⟩

/-- No two files have spellings of one path. -/
theorem WellRead.apart (h : p.WellRead) : p.units.Pairwise fun u v => (u.path == v.path) = false := by
  have hkeys : p.files.entries.Pairwise fun a b => (a.1 == b.1) = false := List.pairwise_map.mp h.distinct
  refine List.pairwise_map.mpr (hkeys.imp_of_mem fun {a b} ha hb hab => Bool.eq_false_iff.mpr fun heq => ?_)
  have ha := (h.read a.1 a.2 ha).1
  have hb := (h.read b.1 b.2 hb).1
  exact absurd (BEq.trans ha (BEq.trans heq (BEq.symm hb))) (Bool.eq_false_iff.mp hab)

/-- What stands in texts that are told apart is told apart. -/
theorem WellRead.orderly (h : p.WellRead) : Program.Orderly p where
  paths := h.apart.imp fun {u v} hne (heq : u.path = v.path) => absurd (heq ▸ BEq.refl u.path) (Bool.eq_false_iff.mp hne)
  modules _ hunit := (h.read_of_mem hunit).fits.placed.nodup.filter _

theorem nodeBound_eq (p : Program) : nodeBound p = 1 + (p.units.map fun u => 2 * u.text.utf8ByteSize + 2).sum := by
  have hfold (sizes : List Nat) : sizes.foldl (· + ·) (1 + 0) = 1 + sizes.foldl (· + ·) 0 := List.foldl_assoc
  rw [nodeBound, List.sum_eq_foldl]
  exact hfold _

theorem WellRead.cacheable_lt (h : p.WellRead) : p.cacheable < nodeBound p := by
  have hall : ∀ unit ∈ p.units, unit.Read := fun unit => h.read_of_mem
  rw [nodeBound_eq, cacheable]
  generalize p.units = units at hall ⊢
  induction units with
  | nil => exact Nat.one_pos
  | cons unit units ih =>
    have := (hall unit List.mem_cons_self).declared_le
    have := ih fun u hu => hall u (List.mem_cons_of_mem _ hu)
    simp only [List.map_cons, List.sum_cons]
    omega

theorem WellRead.height_lt (h : p.WellRead) (hunit : unit ∈ p.units) :
    (statementsContent unit.tree.statements).height < nodeBound p := by
  have hle : 2 * unit.text.utf8ByteSize + 2 ≤ (p.units.map fun u => 2 * u.text.utf8ByteSize + 2).sum :=
    List.single_le_sum (by simp) _ (List.mem_map_of_mem hunit)
  have := (h.read_of_mem hunit).height_le
  rw [nodeBound_eq]
  omega

end Program

theorem Check.Stands.height_lt {b : Bindings} {x : Item} (hp : b.program.WellRead) (hx : Stands b x) :
    x.node.content.height < nodeBound b.program := by
  induction hx with
  | @root unit s hunit hs =>
    have := (Gathers.statements unit.tree.statements).height_le _ (List.mem_map_of_mem hs)
    exact Nat.lt_of_le_of_lt this (hp.height_lt hunit)
  | part _ hy ih =>
    obtain ⟨-, -, hnode, -⟩ := Item.mem_parts.mp hy
    exact Nat.lt_trans (Node.height_lt hnode) ih

/-! ## Programs that are created -/

namespace Program

variable {σ : Type} {loader : Loader σ} {st : σ}

/-- A loader that only ever answers with what it has read. `I` holds of its states. -/
def Reads (loader : Loader σ) (I : σ → Prop) : Prop :=
  ∀ st path, I st → I (loader.after st path) ∧
    ∀ unit, loader.answer st path = some unit → (path == unit.path) = true ∧ unit.Read

theorem wellRead_search {I : σ → Prop} (hl : Reads loader I) (host : Host) (old : Option Program) (n : Nat) {s : Search}
    (hs : s.program.WellRead) (hst : I st) : ((search host loader old n s).run st).1.WellRead := by
  induction n generalizing s st with
  | zero => exact hs
  | succ n ih =>
    unfold search
    split
    · exact hs
    · rename_i path queue _
      obtain ⟨hafter, hanswer⟩ := hl st path hst
      simp only [StateT.run_bind]
      rw [show (loader.load path).run st = (loader.answer st path, loader.after st path) from rfl]
      cases hunit : loader.answer st path with
      | none =>
        refine ih ?_ hafter
        unfold Search.miss
        split <;> exact ⟨hs.distinct, hs.read⟩
      | some unit =>
        refine ih ⟨?_, fun key u hu => ?_⟩ hafter
        · rw [Search.visit_program]
          exact hs.distinct.insert path unit
        · rw [Search.visit_program] at hu
          rcases Dict.mem_insert hu with hu | ⟨rfl, hkey⟩
          · exact hs.read key u hu
          · exact ⟨BEq.trans hkey (hanswer u hunit).1, (hanswer u hunit).2⟩

/-- A program is read from texts if its loader reads texts. -/
theorem wellRead_create {I : σ → Prop} (hl : Reads loader I) (rootNames : List Path) (options : CompilerOptions) (host : Host)
    (old : Option Program) (hst : I st) : ((create rootNames options host loader old).run st).1.WellRead :=
  wellRead_search hl host old _ ⟨Dict.distinct_empty, nofun⟩ hst

theorem wellRead_ofHost (rootNames : List Path) (options : CompilerOptions) (host : Host) :
    (ofHost rootNames options host).WellRead := by
  refine wellRead_create (I := fun _ => True) (fun st path _ => ⟨trivial, fun unit hunit => ?_⟩) rootNames options host none trivial
  obtain ⟨text, -, rfl⟩ := Option.map_eq_some_iff.mp hunit
  exact ⟨BEq.rfl, SourceUnit.read_ofText path text⟩

end Program

end Recheck
