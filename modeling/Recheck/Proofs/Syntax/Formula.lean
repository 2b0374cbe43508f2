import Recheck.Proofs.Syntax.Respacing
import Recheck.Syntax.Tree

/-!
# Formulas

A formula is an expression of names and operators. It is written with a blank between any two words, and an operand stands in
parentheses if it binds less tightly than its place asks for. Equal operators group to the left, so the right operand is
asked for a little more than the left one. The text of a formula is lexed as its words (`Formula.lex_text`).
-/

set_option autoImplicit false

namespace Recheck.Syntax

open Chars

/-! ## Operators -/

/-- How tightly an operator binds its operands. -/
def BinaryOp.power : BinaryOp → Nat
  | coalesce => 1
  | or => 3
  | and => 5
  | bitOr => 7
  | bitAnd => 9
  | eq | notEq | strictEq | strictNotEq => 11
  | lt | gt | ltEq | gtEq => 13
  | add | sub => 15
  | mul | div | rem => 17

def BinaryOp.word : BinaryOp → Word
  | coalesce => .inLine .questionQuestion "??"
  | or => .inLine .pipePipe "||"
  | and => .inLine .ampAmp "&&"
  | bitOr => .inLine .pipe "|"
  | bitAnd => .inLine .amp "&"
  | eq => .inLine .eqEq "=="
  | notEq => .inLine .bangEq "!="
  | strictEq => .inLine .eqEqEq "==="
  | strictNotEq => .inLine .bangEqEq "!=="
  | lt => .inLine .lt "<"
  | gt => .inLine .gt ">"
  | ltEq => .inLine .ltEq "<="
  | gtEq => .inLine .gtEq ">="
  | add => .inLine .plus "+"
  | sub => .inLine .minus "-"
  | mul => .inLine .star "*"
  | div => .inLine .slash "/"
  | rem => .inLine .percent "%"

/-- What may stand in front of an operand. -/
inductive Sign where
  | not
  | minus
  | plus
  | typeof
  | void
  | increment
  | decrement

namespace Sign

def word : Sign → Word
  | not => .inLine .bang "!"
  | minus => .inLine .minus "-"
  | plus => .inLine .plus "+"
  | typeof => .inLine .typeof "typeof"
  | void => .inLine .void "void"
  | increment => .inLine .increment "++"
  | decrement => .inLine .increment "--"

/-- The tree does not tell the two signs that step a variable. -/
def op : Sign → UnaryOp
  | not => .not
  | minus => .neg
  | plus => .plus
  | typeof => .typeof
  | void => .void
  | increment | decrement => .increment

/-- Signs bind more tightly than all operators between two operands. -/
def power : Nat := 19

end Sign

/-! ## Formulas -/

/-- A name that means nothing but itself wherever it stands. -/
structure PlainName where
  text : String
  identifier : isIdentifier text
  ordinary : text ∉ ["as", "async", "await"]

theorem PlainName.kind_eq (n : PlainName) : (Word.named n.text).kind = .identifier :=
  of_decide_eq_true (Bool.and_eq_true_iff.mp n.identifier).2

theorem PlainName.ne_of_mem (n : PlainName) {word : String} (h : word ∈ ["as", "async", "await"]) : n.text ≠ word := by
  intro hword
  exact n.ordinary (hword ▸ h)

inductive Formula where
  | name (n : PlainName)
  | signed (sign : Sign) (operand : Formula)
  | binary (op : BinaryOp) (left right : Formula)
  | conditional (condition thenValue elseValue : Formula)

namespace Formula

/-- How tightly a formula is held together. -/
def power : Formula → Nat
  | name _ | signed _ _ => Sign.power
  | binary op _ _ => op.power
  | conditional _ _ _ => 0

/-- The words of a formula. What it is made of stands in parentheses where it would fall apart otherwise. -/
def words : Formula → List Word
  | name n => [.named n.text]
  | signed sign operand => sign.word :: Word.enclosed (operand.power < Sign.power) operand.words
  | binary op left right =>
    Word.enclosed (left.power < op.power) left.words ++
      op.word :: Word.enclosed (right.power < op.power + 1) right.words
  | conditional condition thenValue elseValue =>
    Word.enclosed (condition.power < 1) condition.words ++ .question :: (thenValue.words ++ .colon :: elseValue.words)

/-- The words of a formula where it has to be held together so tightly. -/
def wordsAt (need : Nat) (f : Formula) : List Word := Word.enclosed (f.power < need) f.words

/-- The text of a formula, with a blank between any two words. -/
def text (f : Formula) : String := intercalate " " (f.words.map (·.text))

example :
    let a : PlainName := ⟨"a", by decide, by decide⟩
    let sum : Formula := .binary .add (.name a) (.signed .minus (.name a))
    text (.conditional (.binary .sub sum sum) (.binary .mul sum (.name a)) (.name a)) =
      "a + - a - ( a + - a ) ? ( a + - a ) * a : a" := by decide

/-- Apart from spans the node is the formula. -/
def Matches : Formula → ExprKind → Prop
  | name n, kind => kind = .ident n.text
  | signed sign operand, kind => ∃ e : Expr, kind = .unary sign.op e ∧ operand.Matches e.kind
  | binary op left right, kind => ∃ l r : Expr, kind = .binary op l r ∧ left.Matches l.kind ∧ right.Matches r.kind
  | conditional condition thenValue elseValue, kind => ∃ c t e : Expr,
    kind = .conditional c t e ∧ condition.Matches c.kind ∧ thenValue.Matches t.kind ∧ elseValue.Matches e.kind

end Formula

/-! ## Spelling -/

variable {c : Char} {cs rest : List Char} {kind : TokenKind} {w : Word} {ws : List Word}

/-- A word that is lexed as itself in front of any blank. -/
def Word.Lone (w : Word) : Prop := ∀ rest, Spaced rest → Spells w.text.toList [w] rest

/-- What is a token by itself is one in front of a blank. -/
theorem Word.Lone.of_scan (htoken : isBlank c = false ∧ (c = '/' → cs.head? ≠ some '/' ∧ cs.head? ≠ some '*'))
    (hscan : scan c cs = ⟨kind, cs.length + 1, none⟩) : (Word.inLine kind (String.ofList (c :: cs))).Lone := by
  intro rest hrest
  have hgap := gap_take_append hrest ((gap_token_iff c cs).mpr htoken) cs.length
  have hclosed : (scan c cs).fault = none := by rw [hscan]
  have hscan' := scan_take_append hrest (.inr (.inl hclosed))
  rw [hscan, Nat.add_sub_cancel] at hscan'
  rw [List.take_length] at hgap hscan'
  have hlist : (Word.inLine kind (String.ofList (c :: cs))).text.toList = c :: cs := String.toList_ofList
  rw [hlist]
  exact .token hgap hscan'

theorem Word.Lone.named {name : String} (h : isWord name) : (Word.named name).Lone :=
  fun _ hrest => .name h hrest.delimited

theorem BinaryOp.word_lone (op : BinaryOp) : op.word.Lone := by
  cases op <;> exact .of_scan (by decide) (by decide)

theorem Sign.word_lone (sign : Sign) : sign.word.Lone := by
  cases sign
  case typeof => exact .named (by decide)
  case void => exact .named (by decide)
  all_goals exact .of_scan (by decide) (by decide)

/-- Words that are lexed as themselves are spelled with a blank between any two of them. -/
theorem Spells.lone (h : ∀ w ∈ ws, w.Lone) : Spells (intercalate " " (ws.map (·.text))).toList ws [] := by
  induction ws with
  | nil => exact .nil
  | cons w ws ih =>
    cases ws with
    | nil => exact h w List.mem_cons_self [] .nil
    | cons v ws =>
      have hlist : (intercalate " " ((w :: v :: ws).map (·.text))).toList =
          w.text.toList ++ ' ' :: (intercalate " " ((v :: ws).map (·.text))).toList := by
        simp [intercalate]
      have hmore := ih fun u hu => h u (List.mem_cons_of_mem w hu)
      rw [hlist]
      exact .append (h w List.mem_cons_self _ (.cons (by decide) _)) hmore.blank

theorem Word.mem_enclosed {inParens : Bool} {words : List Word} (h : w ∈ Word.enclosed inParens words) :
    w ∈ words ∨ w = .lParen ∨ w = .rParen := by
  unfold Word.enclosed at h
  split at h
  · rcases List.mem_append.mp h with h | h
    · rcases List.mem_cons.mp h with rfl | h
      · exact .inr (.inl rfl)
      · exact .inl h
    · exact .inr (.inr (List.mem_singleton.mp h))
  · exact .inl h

namespace Formula

/-- What a formula is written with. -/
theorem forall_words {P : Word → Prop} (hname : ∀ n : PlainName, P (.named n.text)) (hsign : ∀ sign : Sign, P sign.word)
    (hop : ∀ op : BinaryOp, P op.word) (hmark : ∀ w ∈ [Word.lParen, .rParen, .question, .colon], P w) (f : Formula) :
    ∀ w ∈ f.words, P w := by
  have henclosed {inParens : Bool} {words : List Word} (h : ∀ w ∈ words, P w) : ∀ w ∈ Word.enclosed inParens words, P w := by
    intro w hw
    rcases Word.mem_enclosed hw with hw | rfl | rfl
    · exact h w hw
    · exact hmark _ (by simp)
    · exact hmark _ (by simp)
  induction f with
  | name n =>
    rw [words, List.forall_mem_singleton]
    exact hname n
  | signed sign operand ih =>
    rw [words, List.forall_mem_cons]
    exact ⟨hsign sign, henclosed ih⟩
  | binary op left right ihleft ihright =>
    rw [words, List.forall_mem_append, List.forall_mem_cons]
    exact ⟨henclosed ihleft, hop op, henclosed ihright⟩
  | conditional condition thenValue elseValue ihcondition ihthen ihelse =>
    rw [words, List.forall_mem_append, List.forall_mem_cons, List.forall_mem_append, List.forall_mem_cons]
    exact ⟨henclosed ihcondition, hmark _ (by simp), ihthen, hmark _ (by simp), ihelse⟩

theorem words_lone (f : Formula) : ∀ w ∈ f.words, w.Lone := by
  apply forall_words
  · exact fun n => .named (Bool.and_eq_true_iff.mp n.identifier).1
  · exact Sign.word_lone
  · exact BinaryOp.word_lone
  · intro w hw
    simp only [List.mem_cons, List.not_mem_nil, or_false] at hw
    rcases hw with rfl | rfl | rfl | rfl <;> exact .of_scan (by decide) (by decide)

/-- The text of a formula has its words and no faults. -/
theorem lex_text (f : Formula) : (lex f.text).tokens.map Token.word = f.words ++ [.last] ∧ (lex f.text).reports = [] :=
  (Spells.lone f.words_lone).lex

end Formula

end Recheck.Syntax
