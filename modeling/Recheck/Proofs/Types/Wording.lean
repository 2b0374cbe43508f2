import Recheck.Proofs.Syntax.Spelling
import Recheck.Proofs.Types.Unions

/-!
# The words of a type

A type that a file can write has a text that is lexed as its words, and as nothing else (`Ty.spells`). What stands behind the
text has to be a delimiter, so that the last word ends where the type does.
-/

set_option autoImplicit false

namespace Recheck

open Syntax

/-! ## Types that can be written -/

/-- The types that a file can write out in full. -/
inductive Ty.Writable : Ty → Prop where
  | keyword (word : KeywordType) : Writable (.keyword word)
  | string {value : String} (h : isPlain value) : Writable (.literal (.string value))
  | number {text : String} (h : isNumeral text) : Writable (.literal (.number text))
  | negative {text : String} (h : isNumeral text) : Writable (.literal (.number ("-" ++ text)))
  | bool (value : Bool) : Writable (.literal (.bool value))
  | array {element : Ty} (h : Writable element) : Writable (.array element)
  | tuple {elements : List Ty} (h : ∀ e ∈ elements, Writable e) : Writable (.tuple elements)
  | union {members : List Ty} (hnormal : Normal members) (h : ∀ m ∈ members, Writable m) : Writable (.union members)
  | object {properties : List PropertyTy} {index : Option Ty} (hnames : ∀ p ∈ properties, isWord p.name)
      (hdistinct : (properties.map (·.name)).Nodup) (hindex : ∀ t ∈ index, Writable t)
      (h : ∀ p ∈ properties, Writable p.type) : Writable (.object ⟨none, properties, index⟩)
  | function {params : List ParamTy} {ret : Ty} (hnames : ∀ p ∈ params, isIdentifier p.name)
      (hrest : ∀ p ∈ params, p.rest = false) (h : ∀ p ∈ params, Writable p.type) (hret : Writable ret) :
      Writable (.function ⟨params, ret⟩)

/-! ## Words -/

namespace Syntax.Word

/-- The mark of what may be left out. -/
def optional (isOptional : Bool) : List Word := if isOptional then [question] else []

/-- A number, which may have a sign. -/
def ofNumber (text : String) : List Word :=
  match text.toList with
  | '-' :: cs => [minus, .inLine .numberLiteral (String.ofList cs)]
  | _ => [.inLine .numberLiteral text]

def ofLiteral : LiteralType → List Word
  | .string value => [.inLine .stringLiteral ("\"" ++ value ++ "\"")]
  | .number text => ofNumber text
  | .bool value => [named (if value then "true" else "false")]

end Syntax.Word

open Syntax (Word)

mutual

/-- The words of the text of a type. -/
def Ty.words : Ty → List Word
  | .keyword word => [.named word.name]
  | .literal value => Word.ofLiteral value
  | .array element => Word.enclosed (element.isUnion || element.isFunction) (Ty.words element) ++ [.lBracket, .rBracket]
  | .tuple elements => .lBracket :: (Word.join .comma (Ty.wordsOf elements) ++ [.rBracket])
  | .union members => Word.join .pipe (Ty.memberWords members)
  | .object type => ObjectTy.words type
  | .function type => FunctionTy.words type

def Ty.wordsOf : List Ty → List (List Word)
  | [] => []
  | t :: rest => Ty.words t :: Ty.wordsOf rest

def Ty.memberWords : List Ty → List (List Word)
  | [] => []
  | t :: rest => Word.enclosed t.isFunction (Ty.words t) :: Ty.memberWords rest

def ObjectTy.words : ObjectTy → List Word
  | ⟨_, properties, index⟩ => .lBrace :: (Ty.indexWords index ++ (PropertyTy.words properties ++ [.rBrace]))

def Ty.indexWords : Option Ty → List Word
  | none => []
  | some t => [.lBracket, .named "x", .colon, .named "string", .rBracket, .colon] ++ (Ty.words t ++ [.semicolon])

def PropertyTy.words : List PropertyTy → List Word
  | [] => []
  | ⟨name, type, optional⟩ :: rest =>
    .named name :: (Word.optional optional ++ .colon :: (Ty.words type ++ .semicolon :: PropertyTy.words rest))

def FunctionTy.words : FunctionTy → List Word
  | ⟨params, ret⟩ => .lParen :: (Word.join .comma (ParamTy.words params) ++ .rParen :: .arrow :: Ty.words ret)

def ParamTy.words : List ParamTy → List (List Word)
  | [] => []
  | ⟨name, type, optional, _⟩ :: rest =>
    (.named name :: (Word.optional optional ++ .colon :: Ty.words type)) :: ParamTy.words rest

end

/-- The words of a property, with the semicolon behind it. -/
def PropertyTy.wordsOf (p : PropertyTy) : List Word :=
  .named p.name :: (Word.optional p.optional ++ .colon :: (p.type.words ++ [.semicolon]))

/-- The words of a parameter that is no rest parameter. -/
def ParamTy.wordsOf (p : ParamTy) : List Word :=
  .named p.name :: (Word.optional p.optional ++ .colon :: p.type.words)

theorem Ty.wordsOf_eq (types : List Ty) : Ty.wordsOf types = types.map Ty.words := by
  induction types with
  | nil => rfl
  | cons t rest ih => rw [Ty.wordsOf, ih, List.map_cons]

theorem Ty.memberWords_eq (types : List Ty) :
    Ty.memberWords types = types.map fun t => Word.enclosed t.isFunction t.words := by
  induction types with
  | nil => rfl
  | cons t rest ih => rw [Ty.memberWords, ih, List.map_cons]

theorem PropertyTy.words_cons (p : PropertyTy) (rest : List PropertyTy) :
    PropertyTy.words (p :: rest) =
      .named p.name :: (Word.optional p.optional ++ .colon :: (p.type.words ++ .semicolon :: PropertyTy.words rest)) := by
  obtain ⟨name, type, optional⟩ := p
  rfl

theorem PropertyTy.words_eq (properties : List PropertyTy) :
    PropertyTy.words properties = properties.flatMap PropertyTy.wordsOf := by
  induction properties with
  | nil => rfl
  | cons p rest ih =>
    rw [PropertyTy.words_cons, ih, List.flatMap_cons, PropertyTy.wordsOf]
    simp

theorem ParamTy.words_eq (params : List ParamTy) : ParamTy.words params = params.map ParamTy.wordsOf := by
  induction params with
  | nil => rfl
  | cons p others ih =>
    obtain ⟨name, type, optional, rest⟩ := p
    rw [ParamTy.words, ih, List.map_cons, ParamTy.wordsOf]

/-! ## Texts, part by part -/

theorem Ty.texts_eq (types : List Ty) : Ty.texts types = types.map Ty.text := by
  induction types with
  | nil => rfl
  | cons t rest ih => rw [Ty.texts, ih, List.map_cons]

theorem Ty.memberTexts_eq (types : List Ty) : Ty.memberTexts types = types.map fun t => enclosed t.isFunction t.text := by
  induction types with
  | nil => rfl
  | cons t rest ih => rw [Ty.memberTexts, ih, List.map_cons]

/-- The mark of what may be left out. -/
def optionalMark (isOptional : Bool) : String := if isOptional then "?" else ""

theorem PropertyTy.texts_cons (p : PropertyTy) (rest : List PropertyTy) :
    PropertyTy.texts (p :: rest) = p.name ++ optionalMark p.optional ++ ": " ++ p.type.text ++ "; " ++ PropertyTy.texts rest := by
  obtain ⟨name, type, optional⟩ := p
  rfl

/-- The text of a parameter that is no rest parameter. -/
def ParamTy.textOf (p : ParamTy) : String := p.name ++ optionalMark p.optional ++ ": " ++ p.type.text

theorem ParamTy.texts_eq {params : List ParamTy} (h : ∀ p ∈ params, p.rest = false) :
    ParamTy.texts params = params.map ParamTy.textOf := by
  induction params with
  | nil => rfl
  | cons p others ih =>
    obtain ⟨name, type, optional, rest⟩ := p
    obtain rfl : rest = false := h _ List.mem_cons_self
    rw [ParamTy.texts, ih fun p hp => h p (List.mem_cons_of_mem _ hp), List.map_cons, ParamTy.textOf]
    simp [optionalMark]

/-! ## Spelling -/

section

variable {ι : Type} {cs ds rest : List Char} {w : Word} {words : List Word}

namespace Syntax.Spells

theorem cons (h : Spells cs [w] (ds ++ rest)) (h' : Spells ds words rest) : Spells (cs ++ ds) (w :: words) rest := h.append h'

/-- A separator in front. -/
theorem mark_cons {c : Char} {kind : TokenKind} (hmark : (c, kind) ∈ plainMarks) (h : Spells ds words rest) :
    Spells (c :: ds) (.inLine kind (String.ofList [c]) :: words) rest := cons (.mark hmark) h

theorem optional (isOptional : Bool) (h : Spells (':' :: ds) words rest) :
    Spells ((optionalMark isOptional).toList ++ ':' :: ds) (Word.optional isOptional ++ words) rest := by
  cases isOptional with
  | false => exact h
  | true => exact Spells.question.append h

/-- Parts are spelled one by one when the separator is spelled by itself and ends what stands in front of it. -/
theorem join {text : ι → String} {parts : ι → List Word} {separator : String} {xs : List ι}
    (h : ∀ x ∈ xs, ∀ rest, Delimited rest → Spells (text x).toList (parts x) rest)
    (hseparator : ∀ rest, Spells separator.toList [w] rest) (hdelimited : ∀ rest, Delimited (separator.toList ++ rest))
    (hrest : Delimited rest) :
    Spells (Chars.intercalate separator (xs.map text)).toList (Word.join w (xs.map parts)) rest := by
  induction xs with
  | nil => exact .nil
  | cons x xs ih =>
    cases xs with
    | nil => exact h x List.mem_cons_self rest hrest
    | cons y xs =>
      have hmore := ih fun z hz => h z (List.mem_cons_of_mem _ hz)
      have htext : (Chars.intercalate separator ((x :: y :: xs).map text)).toList =
          (text x).toList ++ (separator.toList ++ (Chars.intercalate separator ((y :: xs).map text)).toList) := by
        rw [← String.toList_append, ← String.toList_append, ← String.append_assoc]
        rfl
      rw [htext]
      refine Spells.append (h x List.mem_cons_self _ ?_) (.cons (hseparator _) hmore)
      rw [List.append_assoc]
      exact hdelimited _

theorem commas {text : ι → String} {parts : ι → List Word} {xs : List ι}
    (h : ∀ x ∈ xs, ∀ rest, Delimited rest → Spells (text x).toList (parts x) rest) (hrest : Delimited rest) :
    Spells (Chars.intercalate ", " (xs.map text)).toList (Word.join .comma (xs.map parts)) rest :=
  join h (fun _ => mark_cons (by decide) (.blank .nil)) (fun _ => .cons (by decide) _) hrest

theorem bars {text : ι → String} {parts : ι → List Word} {xs : List ι}
    (h : ∀ x ∈ xs, ∀ rest, Delimited rest → Spells (text x).toList (parts x) rest) (hrest : Delimited rest) :
    Spells (Chars.intercalate " | " (xs.map text)).toList (Word.join .pipe (xs.map parts)) rest :=
  join h (fun _ => .blank (.cons .pipe (.blank .nil))) (fun _ => .cons (by decide) _) hrest

theorem enclosed {text : String} (inParens : Bool) (h : ∀ rest, Delimited rest → Spells text.toList words rest)
    (hrest : Delimited rest) : Spells (enclosed inParens text).toList (Word.enclosed inParens words) rest := by
  cases inParens with
  | false => exact h rest hrest
  | true =>
    have hlist : (Recheck.enclosed true text).toList = '(' :: (text.toList ++ [')']) := by
      simp [Recheck.enclosed]
    rw [hlist]
    exact .mark_cons (by decide) ((h _ (.cons (by decide) _)).append (.mark (by decide)))

end Syntax.Spells

/-! ## The text of a type -/

/-- What stands behind the name of a property or a parameter. -/
theorem Syntax.Spells.typed {name : String} {isOptional : Bool} {type : Ty} (hname : isWord name)
    (h : ∀ rest, Delimited rest → Spells type.text.toList type.words rest) (hrest : Delimited (ds ++ rest))
    (h' : Spells ds words rest) :
    Spells ((name ++ optionalMark isOptional ++ ": " ++ type.text).toList ++ ds)
      (.named name :: (Word.optional isOptional ++ .colon :: (type.words ++ words))) rest := by
  have hlist : (name ++ optionalMark isOptional ++ ": " ++ type.text).toList ++ ds =
      name.toList ++ ((optionalMark isOptional).toList ++ ':' :: ' ' :: (type.text.toList ++ ds)) := by
    simp
  rw [hlist]
  refine .cons (.name hname ?_) (.optional isOptional (.mark_cons (by decide) (.blank (.append (h _ hrest) h'))))
  cases isOptional with
  | false => exact .cons (by decide) _
  | true => exact .cons (by decide) _

theorem PropertyTy.spells {properties : List PropertyTy} (hnames : ∀ p ∈ properties, isWord p.name)
    (h : ∀ p ∈ properties, ∀ rest, Delimited rest → Spells p.type.text.toList p.type.words rest) :
    Spells (PropertyTy.texts properties).toList (PropertyTy.words properties) rest := by
  induction properties with
  | nil => exact .nil
  | cons p others ih =>
    have hmore := ih (fun q hq => hnames q (List.mem_cons_of_mem _ hq)) fun q hq => h q (List.mem_cons_of_mem _ hq)
    rw [PropertyTy.texts_cons, PropertyTy.words_cons, String.append_assoc, String.toList_append]
    refine .typed (hnames p List.mem_cons_self) (h p List.mem_cons_self) ?_ ?_
    · rw [String.toList_append, List.append_assoc]
      exact .cons (by decide) _
    · rw [String.toList_append]
      exact .mark_cons (by decide) (.blank hmore)

theorem ParamTy.spells {p : ParamTy} (hname : isIdentifier p.name)
    (h : ∀ rest, Delimited rest → Spells p.type.text.toList p.type.words rest) (hrest : Delimited rest) :
    Spells p.textOf.toList p.wordsOf rest := by
  have hword : isWord p.name := (Bool.and_eq_true_iff.mp hname).1
  have hnil : Delimited ([] ++ rest) := hrest
  rw [ParamTy.textOf, ParamTy.wordsOf, ← List.append_nil p.type.words, ← List.append_nil (String.toList _)]
  exact .typed hword h hnil .nil

theorem ObjectTy.spells {properties : List PropertyTy} {index : Option Ty}
    (hindex : ∀ t ∈ index, ∀ rest, Delimited rest → Spells t.text.toList t.words rest)
    (h : ∀ rest, Spells (PropertyTy.texts properties).toList (PropertyTy.words properties) rest) :
    Spells (ObjectTy.text ⟨none, properties, index⟩).toList (ObjectTy.words ⟨none, properties, index⟩) rest := by
  cases index with
  | none =>
    cases properties with
    | nil => exact .mark_cons (by decide) (.mark (by decide))
    | cons p others =>
      have hlist : (ObjectTy.text ⟨none, p :: others, none⟩).toList =
          '\x7b' :: ' ' :: ((PropertyTy.texts (p :: others)).toList ++ ['\x7d']) := by
        rw [ObjectTy.text]
        · simp
        · exact nofun
      have hwords : ObjectTy.words ⟨none, p :: others, none⟩ =
          .lBrace :: (PropertyTy.words (p :: others) ++ [.rBrace]) := rfl
      rw [hlist, hwords]
      exact .mark_cons (by decide) (.blank (.append (h _) (.mark (by decide))))
  | some t =>
    have hlist : (ObjectTy.text ⟨none, properties, some t⟩).toList =
        '\x7b' :: ' ' :: '[' :: ("x".toList ++ ':' :: ' ' :: ("string".toList ++ ']' :: ':' :: ' ' :: (t.text.toList ++
          ';' :: ' ' :: ((PropertyTy.texts properties).toList ++ ['\x7d'])))) := by
      rw [ObjectTy.text]
      simp
    have hwords : ObjectTy.words ⟨none, properties, some t⟩ =
        .lBrace :: .lBracket :: .named "x" :: .colon :: .named "string" :: .rBracket :: .colon ::
          (t.words ++ .semicolon :: (PropertyTy.words properties ++ [.rBrace])) := by
      simp [ObjectTy.words, Ty.indexWords]
    rw [hlist, hwords]
    refine .mark_cons (by decide) (.blank (.mark_cons (by decide) (.cons (.name (by decide) (.cons (by decide) _)) ?_)))
    refine .mark_cons (by decide) (.blank (.cons (.name (by decide) (.cons (by decide) _)) ?_))
    refine .mark_cons (by decide) (.mark_cons (by decide) (.blank ?_))
    refine .append (hindex t rfl _ (.cons (by decide) _)) (.mark_cons (by decide) (.blank ?_))
    exact .append (h _) (.mark (by decide))

theorem FunctionTy.spells {params : List ParamTy} {ret : Ty} (hrest : ∀ p ∈ params, p.rest = false)
    (h : ∀ p ∈ params, ∀ rest, Delimited rest → Spells p.textOf.toList p.wordsOf rest)
    (hret : Spells ret.text.toList ret.words rest) :
    Spells (FunctionTy.text ⟨params, ret⟩).toList (FunctionTy.words ⟨params, ret⟩) rest := by
  rw [FunctionTy.text, FunctionTy.words, ParamTy.texts_eq hrest, ParamTy.words_eq]
  have hlist : ("(" ++ Chars.intercalate ", " (params.map ParamTy.textOf) ++ ") => " ++ ret.text).toList =
      '(' :: ((Chars.intercalate ", " (params.map ParamTy.textOf)).toList ++ ')' :: ' ' :: (['=', '>'] ++
        ' ' :: ret.text.toList)) := by
    simp
  rw [hlist]
  refine .mark_cons (by decide) (.append (.commas h (.cons (by decide) _)) (.mark_cons (by decide) (.blank ?_)))
  exact .cons .arrow (.blank hret)

/-- A sign is no part of a number. -/
theorem Word.ofNumber_numeral {text : String} (h : isNumeral text) : Word.ofNumber text = [.inLine .numberLiteral text] := by
  unfold Word.ofNumber
  split
  next cs hcs =>
    rw [isNumeral, hcs] at h
    have hscan : scan '-' cs = ⟨.numberLiteral, cs.length + 1, none⟩ := of_decide_eq_true h
    have hnumber := (startsNumber_of_scan (congrArg Lexeme.kind hscan)).2
    exact nomatch (startsNumber_cons (by decide) cs).symm.trans hnumber
  next => rfl

theorem Word.ofNumber_negative (text : String) :
    Word.ofNumber ("-" ++ text) = [.minus, .inLine .numberLiteral text] := by
  have hlist : ("-" ++ text).toList = '-' :: text.toList := by simp
  rw [Word.ofNumber, hlist]
  simp

theorem Ty.spells {t : Ty} (h : t.Writable) (hrest : Delimited rest) : Spells t.text.toList t.words rest := by
  induction h generalizing rest with
  | keyword word =>
    have hword : ∀ k ∈ KeywordType.all, isWord k.name := by decide
    exact .name (hword word (by cases word <;> decide)) hrest
  | string h => exact .string h
  | number h =>
    rw [Ty.text, Ty.words, Word.ofLiteral, Word.ofNumber_numeral h]
    exact .number h hrest
  | negative h =>
    rw [Ty.text, Ty.words, Word.ofLiteral, Word.ofNumber_negative, showLiteral, String.toList_append]
    exact .cons (.minus h) (.number h hrest)
  | bool value => cases value <;> exact .name (by decide) hrest
  | array _ ih =>
    rw [Ty.text, Ty.words, String.toList_append]
    refine (Spells.enclosed _ (fun rest hrest => ih hrest) (.cons (by decide) _)).append ?_
    exact .mark_cons (by decide) (.mark (by decide))
  | tuple _ ih =>
    rw [Ty.text, Ty.words, Ty.texts_eq, Ty.wordsOf_eq, String.toList_append, String.toList_append]
    refine .mark_cons (by decide) (.append ?_ (.mark (by decide)))
    exact .commas (fun e he rest hrest => ih e he hrest) (.cons (by decide) _)
  | union hnormal _ ih =>
    rw [Ty.text, Ty.words, Ty.memberTexts_eq, Ty.memberWords_eq]
    exact .bars (fun m hm rest hrest => .enclosed _ (fun rest hrest => ih m hm hrest) hrest) hrest
  | object hnames hdistinct _ _ hindex h =>
    exact ObjectTy.spells (fun t ht rest hrest => hindex t ht hrest) fun rest =>
      PropertyTy.spells hnames fun p hp rest hrest => h p hp hrest
  | function hnames hplain _ _ h hret =>
    exact FunctionTy.spells hplain (fun p hp rest hrest => ParamTy.spells (hnames p hp) (fun rest hrest => h p hp hrest) hrest)
      (hret hrest)

end

end Recheck
