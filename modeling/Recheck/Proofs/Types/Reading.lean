import Recheck.Proofs.Syntax.Taking
import Recheck.Proofs.Types.Meaning

/-!
# Types are read back

The text of a type that a file can write is read as a node that means the type again (`Ty.text_reads_back`). The parser is
followed along the words of the type. How far it reads depends on what stands behind them: a whole type ends in front of what
is neither a bracket nor an operator (`EndsType`), while the operand of an array is taken up by the loop that reads its
brackets (`Opens`), so that operands are what the induction speaks of.
-/

set_option autoImplicit false

namespace Recheck.Syntax.Parser

variable {β : Type} {g : Grammar} {t : Ty} {tail ws : List Word} {R : β → Prop}

/-! ## Where a type begins and ends -/

/-- The tokens that types begin with. -/
def typeStarts : List TokenKind :=
  [.identifier, .void, .null, .true, .false, .stringLiteral, .numberLiteral, .minus, .lBrace, .lBracket, .lParen]

/-- Nothing in front of these words goes on as a type. -/
structure EndsType (tail : List Word) : Prop where
  bracket : kindIn tail 0 ≠ .lBracket
  pipe : kindIn tail 0 ≠ .pipe
  amp : kindIn tail 0 ≠ .amp

theorem ne_of_start {kind k : TokenKind} (h : kind ∈ typeStarts) (hk : k ∉ typeStarts) : kind ≠ k := fun h' => hk (h' ▸ h)

/-- The words of a type as an operand: other types with operators stand in parentheses. -/
def operandWords (t : Ty) : List Word := Word.enclosed (t.isUnion || t.isFunction) t.words

/-- The first word of an operand. If it is a name, only brackets can follow. -/
theorem operandWords_start (ht : t.Writable) : ∃ w rest, operandWords t = w :: rest ∧ w.kind ∈ typeStarts ∧
    (w.kind = .identifier → rest = [] ∨ ∃ more, rest = .lBracket :: more) := by
  induction ht with
  | keyword word => exact ⟨_, [], rfl, by cases word <;> decide, fun _ => .inl rfl⟩
  | string => exact ⟨_, [], rfl, (by decide : TokenKind.stringLiteral ∈ typeStarts), nofun⟩
  | @number text h =>
    refine ⟨.inLine .numberLiteral text, [], ?_, (by decide : TokenKind.numberLiteral ∈ typeStarts), nofun⟩
    exact Word.ofNumber_numeral h
  | @negative text h =>
    refine ⟨.minus, [.inLine .numberLiteral text], ?_, by decide, nofun⟩
    exact Word.ofNumber_negative text
  | bool value => cases value <;> exact ⟨_, [], rfl, by decide, fun _ => .inl rfl⟩
  | @array element _ ih =>
    obtain ⟨w, rest, hwords, hstart, hname⟩ := ih
    have heq : operandWords (.array element) = w :: (rest ++ [.lBracket, .rBracket]) := by
      rw [← List.cons_append, ← hwords]
      rfl
    refine ⟨w, rest ++ [.lBracket, .rBracket], heq, hstart, fun hw => .inr ?_⟩
    rcases hname hw with rfl | ⟨more, rfl⟩
    · exact ⟨_, rfl⟩
    · exact ⟨_, rfl⟩
  | tuple => exact ⟨_, _, rfl, by decide, nofun⟩
  | union => exact ⟨_, _, rfl, by decide, nofun⟩
  | object => exact ⟨_, _, rfl, by decide, nofun⟩
  | function => exact ⟨_, _, rfl, by decide, nofun⟩

theorem operandWords_of_plain (hunion : t.isUnion = false) (hfunction : t.isFunction = false) : operandWords t = t.words := by
  rw [operandWords, hunion, hfunction]
  rfl

/-- The members of a union are its operands. -/
theorem unionWords_eq {m : Ty} {rest : List Ty} (h : Ty.Normal (m :: rest)) :
    (Ty.union (m :: rest)).words = operandWords m ++ rest.flatMap fun m => .pipe :: operandWords m := by
  have hmember (m' : Ty) (hm : m' ∈ m :: rest) : Word.enclosed m'.isFunction m'.words = operandWords m' := by
    rw [operandWords, (h.flat m' hm).1, Bool.false_or]
  rw [Ty.words, Ty.memberWords_eq, List.map_congr_left hmember, List.map_cons, Word.join_cons, List.flatMap_map]

theorem words_start (ht : t.Writable) : ∃ w rest, t.words = w :: rest ∧ w.kind ∈ typeStarts := by
  have plain (hunion : t.isUnion = false) (hfunction : t.isFunction = false) :
      ∃ w rest, t.words = w :: rest ∧ w.kind ∈ typeStarts := by
    obtain ⟨w, rest, hwords, hstart, -⟩ := operandWords_start ht
    exact ⟨w, rest, operandWords_of_plain hunion hfunction ▸ hwords, hstart⟩
  cases ht with
  | @union members hnormal h =>
    cases members with
    | nil => exact absurd hnormal.several (by decide)
    | cons m rest =>
      obtain ⟨w, more, hwords, hstart, -⟩ := operandWords_start (h m List.mem_cons_self)
      exact ⟨w, _, by rw [unionWords_eq hnormal, hwords, List.cons_append], hstart⟩
  | function => exact ⟨_, _, rfl, by decide⟩
  | _ => exact plain rfl rfl

/-! ## Parts of types -/

/-- The grammar reads this type where one is expected. -/
def ReadsType (g : Grammar) (t : Ty) : Prop := ∀ tail, EndsType tail → Takes g.type (t.words ++ tail) tail (Means t)

namespace Takes

theorem typeAfter_colon (h : ReadsType g t) (htail : EndsType tail) :
    Takes (Parser.typeAfter g .colon) (.colon :: (t.words ++ tail)) tail fun type => ∃ node, type = some node ∧ Means t node :=
  eat_yes rfl (by decide) (yes rfl (bind (h tail htail) fun node hnode => pure ⟨node, rfl, hnode⟩))

theorem optional {isOptional : Bool} (hk : kindIn ws 0 ≠ .question) :
    Takes (eat .question) (Word.optional isOptional ++ ws) ws (· = isOptional) := by
  cases isOptional with
  | false => exact atKind_no hk (no nofun (pure rfl))
  | true => exact atKind_yes rfl (yes rfl (advance_bind (by decide) (pure rfl)))

theorem param {p : ParamTy} (hname : isIdentifier p.name) (hrest : p.rest = false) (h : ReadsType g p.type) (htail : EndsType tail)
    (heq : kindIn tail 0 ≠ .eq) : Takes (Parser.param g) (p.wordsOf ++ tail) tail (MeansParam p) := by
  have hkind : wordKind p.name = .identifier := of_decide_eq_true (Bool.and_eq_true_iff.mp hname).2
  have hne {k : TokenKind} (hk : .identifier ≠ k) : (Word.named p.name).kind ≠ k := fun h => hk (hkind.symm.trans h)
  unfold Parser.param
  rw [ParamTy.wordsOf, List.cons_append, List.append_assoc, List.cons_append]
  refine currentSpan fun start => eat_no (hne (by rintro ⟨⟩)) (atKind_no (hne (by rintro ⟨⟩)) (no (by rintro ⟨⟩) ?_))
  refine bind (expectIdent hkind) fun name hname => bind (optional (by rintro ⟨⟩)) ?_
  rintro _ rfl
  refine bind (typeAfter_colon h htail) ?_
  rintro _ ⟨node, rfl, hnode⟩
  refine bind (Q := (· = none)) (eat_no heq (no (by rintro ⟨⟩) (pure rfl))) ?_
  rintro _ rfl
  exact spanFrom fun span => pure ⟨hname, rfl, hrest.symm, node, rfl, hnode⟩

theorem params {ps : List ParamTy} (hnames : ∀ p ∈ ps, isIdentifier p.name) (hrest : ∀ p ∈ ps, p.rest = false)
    (h : ∀ p ∈ ps, ReadsType g p.type) :
    Takes (Parser.params g) (.lParen :: (Word.join .comma (ParamTy.words ps) ++ .rParen :: tail)) tail
      (List.Forall₂ MeansParam ps) := by
  have hne {p : ParamTy} (hp : p ∈ ps) {k : TokenKind} (hk : .identifier ≠ k) : (Word.named p.name).kind ≠ k :=
    fun h => hk ((of_decide_eq_true (Bool.and_eq_true_iff.mp (hnames p hp)).2).symm.trans h)
  unfold Parser.params
  rw [ParamTy.words_eq]
  refine bind (expect rfl (by decide)) fun _ _ => bind (commaList (F := fun tail => EndsType tail ∧ kindIn tail 0 ≠ .eq)
    rfl (by decide) ⟨⟨nofun, nofun, nofun⟩, nofun⟩ (fun _ => ⟨⟨nofun, nofun, nofun⟩, nofun⟩) (fun p hp => ?_) fun p hp tail htail =>
      param (hnames p hp) (hrest p hp) (h p hp) htail.1 htail.2) fun params hparams => ?_
  · exact ⟨_, _, rfl, hne hp nofun, hne hp nofun⟩
  · exact bind (expect rfl (by decide)) fun _ _ => pure hparams

theorem functionType {ps : List ParamTy} (hnames : ∀ p ∈ ps, isIdentifier p.name) (hrest : ∀ p ∈ ps, p.rest = false)
    (h : ∀ p ∈ ps, ReadsType g p.type) (hret : ReadsType g t) (htail : EndsType tail) :
    Takes (Parser.functionType g) ((Ty.function ⟨ps, t⟩).words ++ tail) tail fun kind =>
      ∃ params ret, kind = .function params ret ∧ List.Forall₂ MeansParam ps params ∧ Means t ret := by
  have hwords : (Ty.function ⟨ps, t⟩).words ++ tail =
      .lParen :: (Word.join .comma (ParamTy.words ps) ++ .rParen :: .arrow :: (t.words ++ tail)) := by
    simp [Ty.words, FunctionTy.words]
  unfold Parser.functionType
  rw [hwords]
  refine bind (params hnames hrest h) fun params hparams => bind (expect rfl (by decide)) fun _ _ => ?_
  exact bind (hret tail htail) fun ret hret => pure ⟨params, ret, rfl, hparams, hret⟩

/-! ### Members -/

theorem memberEnd : Takes Parser.memberEnd (.semicolon :: tail) tail fun _ => True :=
  eat_yes rfl (by decide) (yes rfl (pure trivial))

/-- A word is the name of a property, reserved or not. -/
theorem expectPropertyName {name : String} :
    Takes Parser.expectPropertyName (.named name :: tail) tail (·.name = name) := by
  have hreserved : ∀ k ∈ .identifier :: TokenKind.reserved.map (·.2),
      k ≠ .stringLiteral ∧ k ≠ .eof ∧ (k ≠ .identifier → k.isReservedWord = true) := by decide
  obtain ⟨hstring, heof, hword⟩ := hreserved _ (wordKind_mem name)
  have hident : wordKind name ≠ .stringLiteral := hstring
  unfold Parser.expectPropertyName
  refine current (no hstring ?_)
  by_cases h : wordKind name = .identifier
  · exact no (by simp [Word.named, Word.inLine, h]; decide) (expectIdent h)
  · exact yes (by simp [Word.named, Word.inLine, hword h]) (takeIdent heof)

theorem skipReadonly {name : String} (hk : kindIn ws 0 = .colon ∨ kindIn ws 0 = .question) :
    Takes Parser.skipReadonly (.named name :: ws) (.named name :: ws) fun _ => True := by
  unfold Parser.skipReadonly
  by_cases hword : (Word.named name).kind = .identifier ∧ name = "readonly"
  · refine atWord_yes hword.1 hword.2 (yes rfl (kindAt ?_))
    have hnext : kindIn (.named name :: ws) 1 = kindIn ws 0 := rfl
    rcases hk with hk | hk <;> rw [hnext, hk] <;> exact pure trivial
  · exact atWord_no (not_and_or.mp hword) (no nofun (pure trivial))

theorem namedMember {p : PropertyTy} (h : ReadsType g p.type) (start : Span) :
    Takes (Parser.namedMember g start) (p.wordsOf ++ tail) (.semicolon :: tail) fun m =>
      ∃ member, m = some member ∧ MeansMember p member := by
  have hwords : p.wordsOf ++ tail =
      .named p.name :: (Word.optional p.optional ++ .colon :: (p.type.words ++ .semicolon :: tail)) := by
    simp [PropertyTy.wordsOf]
  unfold Parser.namedMember
  rw [hwords]
  refine remaining (bind expectPropertyName fun name hname => bind (optional (by rintro ⟨⟩)) ?_)
  rintro _ rfl
  refine atKind_no (by rintro ⟨⟩) (atKind_no (by rintro ⟨⟩) (no (by rintro ⟨⟩)
    (bind (typeAfter_colon h ⟨(by rintro ⟨⟩), (by rintro ⟨⟩), (by rintro ⟨⟩)⟩) ?_)))
  rintro _ ⟨node, rfl, hnode⟩
  refine remaining (no ?_ (spanFrom fun span => pure ⟨_, rfl, hname, rfl, node, rfl, hnode⟩))
  simp only [List.length_cons, List.length_append]
  omega

theorem indexMember (hstring : ReadsType g .string) (h : ReadsType g t) (start : Span) :
    Takes (Parser.indexMember g start)
      (.named "x" :: .colon :: .named "string" :: .rBracket :: .colon :: (t.words ++ .semicolon :: tail)) (.semicolon :: tail)
      (MeansIndex t) := by
  unfold Parser.indexMember
  refine bind (discard (expectIdent (by decide))) fun _ _ => bind (expect rfl (by decide)) fun _ _ => ?_
  refine bind (discard (hstring (.rBracket :: _) ⟨nofun, nofun, nofun⟩)) fun _ _ => bind (expect rfl (by decide)) fun _ _ => ?_
  refine bind (expect rfl (by decide)) fun _ _ => bind (h _ ⟨nofun, nofun, nofun⟩) fun node hnode => ?_
  exact spanFrom fun span => pure ⟨rfl, node, rfl, hnode⟩

theorem memberStep_index (hstring : ReadsType g .string) (h : ReadsType g t) (acc : List Member) :
    Takes (memberStep g acc) (Ty.indexWords (some t) ++ tail) tail fun next => ∃ m, MeansIndex t m ∧ next = .more (m :: acc) := by
  have hwords : Ty.indexWords (some t) ++ tail =
      .lBracket :: .named "x" :: .colon :: .named "string" :: .rBracket :: .colon :: (t.words ++ .semicolon :: tail) := by
    simp [Ty.indexWords]
  unfold memberStep
  rw [hwords]
  refine atEnd_no (by rintro ⟨⟩) (atKind_no (by rintro ⟨⟩) (no (by rintro ⟨⟩) (currentSpan fun start => ?_)))
  refine bind (Q := fun _ => True) (atWord_no (.inl (by rintro ⟨⟩)) (no (by rintro ⟨⟩) (pure trivial))) fun _ _ => ?_
  refine eat_yes rfl (by decide) (yes rfl ?_)
  exact bind (indexMember hstring h start) fun m hm => bind memberEnd fun _ _ => pure ⟨m, hm, rfl⟩

theorem memberStep_property {p : PropertyTy} (h : ReadsType g p.type) (acc : List Member) :
    Takes (memberStep g acc) (p.wordsOf ++ tail) tail fun next => ∃ m, MeansMember p m ∧ next = .more (m :: acc) := by
  have hkinds : ∀ k ∈ .identifier :: TokenKind.reserved.map (·.2), k ≠ .eof ∧ k ≠ .rBrace ∧ k ≠ .lBracket := by decide
  obtain ⟨heof, hbrace, hbracket⟩ := hkinds _ (wordKind_mem p.name)
  have hnext : kindIn (Word.optional p.optional ++ .colon :: (p.type.words ++ [.semicolon]) ++ tail) 0 = .colon ∨
      kindIn (Word.optional p.optional ++ .colon :: (p.type.words ++ [.semicolon]) ++ tail) 0 = .question := by
    cases p.optional
    · exact .inl rfl
    · exact .inr rfl
  unfold memberStep
  refine atEnd_no heof (atKind_no hbrace (no nofun (currentSpan fun start => ?_)))
  refine bind (skipReadonly hnext) fun _ _ => eat_no hbracket (no nofun ?_)
  refine bind (namedMember h start) ?_
  rintro _ ⟨m, rfl, hm⟩
  exact bind memberEnd fun _ _ => pure ⟨m, hm, rfl⟩

theorem memberStep_done (acc : List Member) :
    Takes (memberStep g acc) (.rBrace :: tail) (.rBrace :: tail) (· = .done acc) :=
  atEnd_no nofun (atKind_yes rfl (yes rfl (pure rfl)))

theorem typeMembers {ps : List PropertyTy} {index : Option Ty} (hstring : ReadsType g .string)
    (hindex : ∀ t ∈ index, ReadsType g t) (h : ∀ p ∈ ps, ReadsType g p.type) :
    Takes (Parser.typeMembers g) ((Ty.object ⟨none, ps, index⟩).words ++ tail) tail fun members =>
      ∃ first others, members = first ++ others ∧ List.Forall₂ MeansIndex index.toList first ∧
        List.Forall₂ MeansMember ps others := by
  have hwords : (Ty.object ⟨none, ps, index⟩).words ++ tail =
      .lBrace :: (Ty.indexWords index ++ (ps.flatMap PropertyTy.wordsOf ++ .rBrace :: tail)) := by
    simp [Ty.words, ObjectTy.words, PropertyTy.words_eq]
  have properties (acc : List Member) {n : Nat} (hn : (ps.flatMap PropertyTy.wordsOf).length < n) :
      Takes (runSteps (memberStep g) n acc) (ps.flatMap PropertyTy.wordsOf ++ .rBrace :: tail) (.rBrace :: tail) fun items =>
        ∃ others, List.Forall₂ MeansMember ps others ∧ items = others.reverse ++ acc :=
    runSteps_each (F := fun _ => True) trivial (fun _ _ _ => trivial) (fun _ _ => List.cons_ne_nil _ _)
      (fun p hp acc tail _ => memberStep_property (h p hp) acc) memberStep_done acc hn
  have loop : Takes (Parser.repeating (memberStep g) []) (Ty.indexWords index ++ (ps.flatMap PropertyTy.wordsOf ++ .rBrace :: tail))
      (.rBrace :: tail) fun items => ∃ first others, List.Forall₂ MeansIndex index.toList first ∧
        List.Forall₂ MeansMember ps others ∧ items = (first ++ others).reverse := by
    refine repeating fun n hn => ?_
    rw [List.length_append, List.length_append, List.length_cons] at hn
    cases index with
    | none =>
      refine (properties [] (by omega)).mono ?_
      rintro items ⟨others, hothers, rfl⟩
      exact ⟨[], others, .nil, hothers, by simp⟩
    | some t =>
      obtain ⟨n, rfl⟩ := Nat.exists_eq_succ_of_ne_zero (Nat.ne_of_gt (Nat.lt_of_le_of_lt (Nat.zero_le _) hn))
      refine bind (memberStep_index hstring (hindex t rfl) []) ?_
      rintro _ ⟨m, hm, rfl⟩
      refine (properties [m] (by omega)).mono ?_
      rintro items ⟨others, hothers, rfl⟩
      exact ⟨[m], others, .cons hm .nil, hothers, by simp⟩
  unfold Parser.typeMembers
  rw [hwords]
  refine bind (expect rfl (by decide)) fun _ _ => bind loop ?_
  rintro _ ⟨first, others, hfirst, hothers, rfl⟩
  exact bind (expect rfl (by decide)) fun _ _ => pure ⟨first, others, List.reverse_reverse _, hfirst, hothers⟩

/-! ### Forms of types -/

theorem primary_keyword (word : KeywordType) :
    Takes (primaryType g) ((Ty.keyword word).words ++ tail) tail (Means (.keyword word)) := by
  have hkind : wordKind word.name = .identifier ∨ word = .void ∨ word = .null := by cases word <;> decide
  unfold primaryType
  refine currentSpan fun start => current ?_
  rcases hkind with hkind | rfl | rfl
  · have hkind : (Word.named word.name).kind = .identifier := hkind
    rw [hkind]
    unfold wordType
    refine currentText ?_
    rw [show (Word.named word.name).text = word.name from rfl, KeywordType.ofName?_name]
    exact advance_bind (by rw [hkind]; decide) (spanFrom fun span => pure (.keyword rfl))
  · exact bind (Q := (· = .keyword .void)) (current (advance_bind nofun (pure rfl))) fun kind hk =>
      spanFrom fun span => pure (.keyword hk)
  · exact bind (Q := (· = .keyword .null)) (current (advance_bind nofun (pure rfl))) fun kind hk =>
      spanFrom fun span => pure (.keyword hk)

theorem unescape_plain {cs : List Char} (h : cs.all fun c => c ≠ '"' && c ≠ '\\' && c ≠ '\n') : unescape cs = cs := by
  induction cs with
  | nil => rfl
  | cons c cs ih =>
    obtain ⟨hc, hcs⟩ := Bool.and_eq_true_iff.mp h
    simp only [Bool.and_eq_true, decide_eq_true_eq] at hc
    have hslash : c ≠ '\\' := hc.1.2
    unfold unescape
    split <;> rename_i heq <;> try exact absurd (List.cons.inj heq).1 hslash
    · exact nomatch heq
    · obtain ⟨rfl, rfl⟩ := List.cons.inj heq
      rw [ih hcs]

theorem unquote_plain {value : String} (h : isPlain value) : unquote ("\"" ++ value ++ "\"") = value := by
  have hlist : ("\"" ++ value ++ "\"").toList.drop 1 = value.toList ++ ['"'] := by simp
  have hlast : (value.toList ++ ['"']).getLast?.map Char.utf8Size = some 1 := by
    rw [List.getLast?_concat]
    rfl
  unfold unquote
  rw [hlist]
  split
  next hnil => exact absurd hnil (by simp)
  next => rw [if_pos hlast, List.dropLast_concat, unescape_plain h, String.ofList_toList]

/-- The forms that have a token of their own. -/
theorem primary_other {Q : TypeKind → Prop} (hstart : kindIn ws 0 ≠ .identifier ∧ kindIn ws 0 ≠ .lParen)
    (h : Takes (otherType g) ws tail Q) : Takes (primaryType g) ws tail fun node => Q node.kind := by
  unfold primaryType
  refine currentSpan fun start => kindAt ?_
  split
  next hk => exact absurd hk hstart.1
  next hk => exact absurd hk hstart.2
  next => exact bind h fun kind hk => spanFrom fun span => pure hk

theorem otherType_string {value : String} (h : isPlain value) :
    Takes (otherType g) (.inLine .stringLiteral ("\"" ++ value ++ "\"") :: tail) tail (· = .literal (.string value)) := by
  unfold otherType
  refine current (bind (Q := (·.value = value)) ?_ fun literal hl => pure (by rw [hl]))
  unfold Parser.expectString
  refine currentSpan fun span => atKind_yes rfl (yes rfl (currentText (advance_bind nofun (pure ?_))))
  exact unquote_plain h

theorem otherType_number (text : String) :
    Takes (otherType g) (.inLine .numberLiteral text :: tail) tail (· = .literal (.number text)) := by
  unfold otherType
  exact current (currentText (advance_bind nofun (pure rfl)))

theorem otherType_negative (text : String) :
    Takes (otherType g) (.minus :: .inLine .numberLiteral text :: tail) tail (· = .literal (.number ("-" ++ text))) := by
  unfold otherType
  exact current (kindAt (yes rfl (advance_bind nofun (currentText (advance_bind nofun (pure rfl))))))

theorem otherType_bool (value : Bool) :
    Takes (otherType g) (.named (if value then "true" else "false") :: tail) tail (· = .literal (.bool value)) := by
  unfold otherType
  cases value with
  | false => exact current (advance_bind nofun (pure rfl))
  | true => exact current (advance_bind nofun (pure rfl))

theorem otherType_object {ps : List PropertyTy} {index : Option Ty} (hstring : ReadsType g .string)
    (hindex : ∀ t ∈ index, ReadsType g t) (h : ∀ p ∈ ps, ReadsType g p.type) :
    Takes (otherType g) ((Ty.object ⟨none, ps, index⟩).words ++ tail) tail fun kind => ∃ first others,
      kind = .object (first ++ others) ∧ List.Forall₂ MeansIndex index.toList first ∧ List.Forall₂ MeansMember ps others := by
  unfold otherType
  refine current (bind (typeMembers hstring hindex h) ?_)
  rintro _ ⟨first, others, rfl, hfirst, hothers⟩
  exact pure ⟨first, others, rfl, hfirst, hothers⟩

theorem tupleElement {w : Word} (hwords : t.words = w :: ws) (hw : w.kind ≠ .dotDotDot) (h : ReadsType g t) (htail : EndsType tail)
    (hquestion : kindIn tail 0 ≠ .question) : Takes (Parser.tupleElement g) (t.words ++ tail) tail (Means t) := by
  unfold Parser.tupleElement
  refine discard_eat_no (by rw [hwords]; exact hw) (bind (h tail htail) fun node hnode => ?_)
  exact discard_eat_no hquestion (pure hnode)

theorem otherType_tuple {elements : List Ty} (hwritable : ∀ e ∈ elements, e.Writable) (h : ∀ e ∈ elements, ReadsType g e) :
    Takes (otherType g) ((Ty.tuple elements).words ++ tail) tail fun kind =>
      ∃ nodes, kind = .tuple nodes ∧ List.Forall₂ Means elements nodes := by
  have hwords : (Ty.tuple elements).words ++ tail =
      .lBracket :: (Word.join .comma (elements.map Ty.words) ++ .rBracket :: tail) := by
    simp [Ty.words, Ty.wordsOf_eq]
  unfold otherType
  rw [hwords]
  refine current (advance_bind (by rintro ⟨⟩) (bind (commaList (F := fun tail => EndsType tail ∧ kindIn tail 0 ≠ .question) rfl
    (by decide) ⟨⟨(by rintro ⟨⟩), (by rintro ⟨⟩), (by rintro ⟨⟩)⟩, (by rintro ⟨⟩)⟩
    (fun _ => ⟨⟨(by rintro ⟨⟩), (by rintro ⟨⟩), (by rintro ⟨⟩)⟩, (by rintro ⟨⟩)⟩) (fun e he => ?_) fun e he tail htail => ?_)
    fun nodes hnodes => bind (expect rfl (by decide)) fun _ _ => pure ⟨nodes, rfl, hnodes⟩))
  · obtain ⟨w, rest, hw, hstart⟩ := words_start (hwritable e he)
    exact ⟨w, rest, hw, ne_of_start hstart (by decide), ne_of_start hstart (by decide)⟩
  · obtain ⟨w, rest, hw, hstart⟩ := words_start (hwritable e he)
    exact tupleElement hw (ne_of_start hstart (by decide)) (h e he) htail.1 htail.2

end Takes

/-! ## Parentheses -/

/-- Whether a function type begins with an opening parenthesis in front of tokens of these kinds. -/
def isFunctionStart (first second third : TokenKind) : Bool :=
  match first with
  | .rParen | .dotDotDot | .this => true
  | .identifier =>
    match second with
    | .colon | .comma | .question => true
    | .rParen => third = .arrow
    | _ => false
  | _ => false

theorem atFunctionType_run (s : State) :
    atFunctionType s = (isFunctionStart (s.kindAt 1) (s.kindAt 2) (s.kindAt 3), s) := by
  change (match s.kindAt 1 with
    | .rParen | .dotDotDot | .this => Pure.pure true
    | .identifier =>
      match s.kindAt 2 with
      | .colon | .comma | .question => Pure.pure true
      | .rParen => Pure.pure (decide (s.kindAt 3 = .arrow))
      | _ => Pure.pure false
    | _ => Pure.pure false : Parse Bool) s = _
  generalize s.kindAt 1 = first, s.kindAt 2 = second, s.kindAt 3 = third
  cases first with
  | identifier => cases second <;> rfl
  | _ => rfl

/-- In front of an operand that is enclosed no function type begins. -/
theorem isFunctionStart_operand {first second third : TokenKind} (hfirst : first ∈ typeStarts)
    (hname : first = .identifier → second = .lBracket ∨ second = .pipe) : isFunctionStart first second third = false := by
  simp only [typeStarts, List.mem_cons, List.not_mem_nil, or_false] at hfirst
  rcases hfirst with rfl | rfl | rfl | rfl | rfl | rfl | rfl | rfl | rfl | rfl | rfl
  · rcases hname rfl with rfl | rfl <;> rfl
  all_goals rfl

namespace Takes

theorem atFunctionType {b : Bool} {f : Bool → Parse β} (hb : isFunctionStart (kindIn ws 1) (kindIn ws 2) (kindIn ws 3) = b)
    (h : Takes (f b) ws tail R) : Takes (Parser.atFunctionType >>= f) ws tail R :=
  ask (fun s hs => by rw [atFunctionType_run, s.kindAt_eq, s.kindAt_eq, s.kindAt_eq, hs, hb]) h

theorem primary_function {ps : List ParamTy} (hnames : ∀ p ∈ ps, isIdentifier p.name) (hrest : ∀ p ∈ ps, p.rest = false)
    (h : ∀ p ∈ ps, ReadsType g p.type) (hret : ReadsType g t) (htail : EndsType tail) :
    Takes (primaryType g) ((Ty.function ⟨ps, t⟩).words ++ tail) tail (Means (.function ⟨ps, t⟩)) := by
  have hstart : isFunctionStart (kindIn ((Ty.function ⟨ps, t⟩).words ++ tail) 1)
      (kindIn ((Ty.function ⟨ps, t⟩).words ++ tail) 2) (kindIn ((Ty.function ⟨ps, t⟩).words ++ tail) 3) = true := by
    cases ps with
    | nil => rfl
    | cons p others =>
      have hkind : wordKind p.name = .identifier :=
        of_decide_eq_true (Bool.and_eq_true_iff.mp (hnames p List.mem_cons_self)).2
      obtain ⟨more, hwords⟩ : ∃ more, (Ty.function ⟨p :: others, t⟩).words ++ tail =
          .lParen :: .named p.name :: (Word.optional p.optional ++ .colon :: more) := by
        rw [Ty.words, FunctionTy.words, ParamTy.words_eq, List.map_cons, Word.join_cons, ParamTy.wordsOf]
        simp only [List.cons_append, List.append_assoc]
        exact ⟨_, rfl⟩
      have hsecond : kindIn ((Ty.function ⟨p :: others, t⟩).words ++ tail) 1 = .identifier := by rw [hwords]; exact hkind
      rw [hsecond, hwords]
      cases p.optional <;> rfl
  unfold primaryType
  refine currentSpan fun start => current (atFunctionType hstart (yes rfl (bind (functionType hnames hrest h hret htail) ?_)))
  rintro _ ⟨params, ret, rfl, hparams, hret⟩
  exact spanFrom fun span => pure (.function rfl hparams hret)

/-- A type in parentheses means what it means without them. -/
theorem primary_enclosed (hstart : ∀ third,
      isFunctionStart (kindIn (t.words ++ .rParen :: tail) 0) (kindIn (t.words ++ .rParen :: tail) 1) third = false)
    (h : ReadsType g t) : Takes (primaryType g) (.lParen :: (t.words ++ .rParen :: tail)) tail (Means t) := by
  unfold primaryType
  refine currentSpan fun start => current (atFunctionType (hstart _) (no nofun (advance_bind nofun ?_)))
  refine bind (h _ ⟨nofun, nofun, nofun⟩) fun inner hinner => bind (expect rfl (by decide)) fun _ _ => ?_
  exact spanFrom fun span => pure (hinner.of_kind rfl)

/-! ## Brackets -/

theorem bracketStep_more (start : Span) (node : TypeNode) :
    Takes (bracketStep g start node) (.lBracket :: .rBracket :: tail) tail fun next =>
      ∃ more, next = .more more ∧ more.kind = .array node := by
  unfold bracketStep
  refine atKind_yes rfl (newlineBefore (yes rfl (advance_bind nofun (eat_yes rfl (by decide) (yes rfl ?_)))))
  exact spanFrom fun span => pure ⟨_, rfl, rfl⟩

theorem bracketStep_done (start : Span) (node : TypeNode) (htail : kindIn tail 0 ≠ .lBracket) :
    Takes (bracketStep g start node) tail tail (· = .done node) := by
  unfold bracketStep
  exact atKind_no htail (askAny (fun _ => rfl) fun newline => no nofun (pure rfl))

end Takes

theorem runSteps_more {σ : Type} {step : σ → Parse (Step σ)} {n : Nat} {acc next : σ} {s s' : State}
    (h : step acc s = (.more next, s')) : runSteps step (n + 1) acc s = runSteps step n next s' := by
  simp only [runSteps, Bind.bind, StateT.bind, h]

/-- Behind the first words the loop goes on that reads brackets, with a node of which `Q` holds. -/
def Opens (g : Grammar) (ws tail : List Word) (Q : TypeNode → Prop) : Prop :=
  ∀ s : State, s.words = ws ++ tail → ∃ start node n s', postfixType g s = runSteps (bracketStep g start) n node s' ∧
    s'.words = tail ∧ s'.reports = s.reports ∧ tail.length < n ∧ Q node

namespace Opens

variable {Q : TypeNode → Prop}

theorem of_primary (h : Takes (primaryType g) (ws ++ tail) tail Q) : Opens g ws tail Q := by
  intro s hs
  obtain ⟨hwords, hreports, hQ⟩ := h s hs
  refine ⟨s.span, _, _, _, rfl, hwords, hreports, ?_, hQ⟩
  rw [← hwords, State.words, List.length_map]
  exact Nat.lt_succ_self _

/-- One pair of brackets is one round of the loop. -/
theorem brackets (h : Opens g ws (.lBracket :: .rBracket :: tail) Q) :
    Opens g (ws ++ [.lBracket, .rBracket]) tail fun node => ∃ element, Q element ∧ node.kind = .array element := by
  intro s hs
  rw [List.append_assoc] at hs
  obtain ⟨start, node, n, s', hrun, hwords, hreports, hn, hQ⟩ := h s hs
  obtain ⟨n, rfl⟩ := Nat.exists_eq_succ_of_ne_zero (Nat.ne_of_gt (Nat.lt_of_le_of_lt (Nat.zero_le _) hn))
  obtain ⟨hwords', hreports', more, hmore, hkind⟩ := Takes.bracketStep_more (g := g) start node s' hwords
  refine ⟨start, more, n, _, ?_, hwords', hreports'.trans hreports, ?_, node, hQ, hkind⟩
  · rw [hrun, Nat.succ_eq_add_one, runSteps_more (Prod.ext hmore rfl)]
  · simp only [List.length_cons] at hn
    omega

theorem takes (h : Opens g ws tail Q) (htail : kindIn tail 0 ≠ .lBracket) : Takes (postfixType g) (ws ++ tail) tail Q := by
  intro s hs
  obtain ⟨start, node, n, s', hrun, hwords, hreports, hn, hQ⟩ := h s hs
  obtain ⟨n, rfl⟩ := Nat.exists_eq_succ_of_ne_zero (Nat.ne_of_gt (Nat.lt_of_le_of_lt (Nat.zero_le _) hn))
  have hround : Takes (runSteps (bracketStep g start) (n + 1) node) tail tail (· = node) := by
    refine Takes.bind (Takes.bracketStep_done start node htail) ?_
    rintro _ rfl
    exact Takes.pure rfl
  obtain ⟨hwords', hreports', hnode⟩ := hround s' hwords
  rw [hrun]
  exact ⟨hwords', hreports'.trans hreports, hnode.symm ▸ hQ⟩

end Opens

/-! ## Operators -/

namespace Takes

theorem joined_one {operator : TokenKind} {part : Parse TypeNode} {join : List TypeNode → TypeKind} {Q : TypeNode → Prop}
    (hfirst : kindIn ws 0 ≠ operator) (htail : kindIn tail 0 ≠ operator) (h : Takes part ws tail Q) :
    Takes (Parser.joined operator part join) ws tail Q := by
  unfold Parser.joined
  exact currentSpan fun start => discard_eat_no hfirst (bind h fun node hnode => atKind_no htail (no nofun (pure hnode)))

theorem intersectionType (hfirst : kindIn ws 0 ≠ .amp) (htail : kindIn tail 0 ≠ .amp) {Q : TypeNode → Prop}
    (h : Takes (Parser.postfixType g) ws tail Q) : Takes (Parser.intersectionType g) ws tail Q := joined_one hfirst htail h

/-- The operands of a union, between bars. -/
theorem typeNode_union {m : Ty} {rest : List Ty} (hrest : rest ≠ []) (hwritable : ∀ m' ∈ m :: rest, m'.Writable)
    (h : ∀ m' ∈ m :: rest, ∀ tail, Opens g (operandWords m') tail (Means m')) (htail : EndsType tail) :
    Takes (typeNode g) (operandWords m ++ (rest.flatMap (fun m => .pipe :: operandWords m) ++ tail)) tail fun node =>
      ∃ nodes, node.kind = .union nodes ∧ List.Forall₂ Means (m :: rest) nodes := by
  have hstart (m' : Ty) (hm : m' ∈ m :: rest) (tail : List Word) {k : TokenKind} (hk : k ∉ typeStarts) :
      kindIn (operandWords m' ++ tail) 0 ≠ k := by
    obtain ⟨w, more, hwords, hstart, -⟩ := operandWords_start (hwritable m' hm)
    rw [hwords]
    exact ne_of_start hstart hk
  have operand (m' : Ty) (hm : m' ∈ m :: rest) (tail : List Word) (hbracket : kindIn tail 0 ≠ .lBracket)
      (hamp : kindIn tail 0 ≠ .amp) : Takes (Parser.intersectionType g) (operandWords m' ++ tail) tail (Means m') :=
    intersectionType (hstart m' hm tail (by decide)) hamp ((h m' hm tail).takes hbracket)
  obtain ⟨next, others, rfl⟩ := List.exists_cons_of_ne_nil hrest
  have hm : m ∈ m :: next :: others := List.mem_cons_self
  unfold typeNode Parser.joined
  refine currentSpan fun start => discard_eat_no (hstart m hm _ (by decide)) ?_
  refine bind (operand m hm _ nofun nofun) fun first hfirst => atKind_yes rfl (yes rfl ?_)
  have members : Takes (Parser.separated .pipe (Parser.intersectionType g) first)
      ((next :: others).flatMap (fun m => .pipe :: operandWords m) ++ tail) tail fun nodes =>
        ∃ more, List.Forall₂ Means (next :: others) more ∧ nodes = first :: more :=
    separated (w := .pipe) (F := fun tail => kindIn tail 0 ≠ .lBracket ∧ kindIn tail 0 ≠ .amp) ⟨htail.bracket, htail.amp⟩ nofun
      (fun _ => ⟨nofun, nofun⟩) (fun m' hm' tail htail => operand m' (List.mem_cons_of_mem _ hm') tail htail.1 htail.2) htail.pipe
  refine bind members ?_
  rintro _ ⟨nodes, hnodes, rfl⟩
  exact spanFrom fun span => pure ⟨_, rfl, .cons hfirst hnodes⟩

end Takes

/-! ## All types -/

/-- The grammar reads this type as a whole. -/
def ReadsWhole (g : Grammar) (t : Ty) : Prop := ∀ tail, EndsType tail → Takes (typeNode g) (t.words ++ tail) tail (Means t)

/-- A type that is an operand of itself. -/
theorem ReadsWhole.of_opens (ht : t.Writable) (h : ∀ tail, EndsType tail → Opens g t.words tail (Means t)) : ReadsWhole g t := by
  intro tail htail
  obtain ⟨w, rest, hwords, hstart⟩ := words_start ht
  have hfirst {k : TokenKind} (hk : k ∉ typeStarts) : kindIn (t.words ++ tail) 0 ≠ k := by
    rw [hwords]
    exact ne_of_start hstart hk
  exact Takes.joined_one (hfirst (by decide)) htail.pipe
    (Takes.intersectionType (hfirst (by decide)) htail.amp ((h tail htail).takes htail.bracket))

theorem ofDepth_type (n : Nat) : (Grammar.ofDepth (n + 1)).type = typeNode (.ofDepth n) := by rw [Grammar.ofDepth]

/-- What is shown of each type: enough levels of the grammar read it, as a whole and as an operand. -/
structure Legible (t : Ty) : Prop where
  whole : ∀ n, t.words.length ≤ n → ReadsWhole (.ofDepth n) t
  operand : ∀ n tail, (operandWords t).length ≤ n → Opens (.ofDepth n) (operandWords t) tail (Means t)

namespace Legible

/-- One level further down the type is read where one is expected. -/
theorem reads {n : Nat} (h : Legible t) (hn : t.words.length < n) : ReadsType (.ofDepth n) t := by
  obtain ⟨n, rfl⟩ := Nat.exists_eq_succ_of_ne_zero (Nat.ne_of_gt (Nat.lt_of_le_of_lt (Nat.zero_le _) hn))
  intro tail htail
  rw [ofDepth_type]
  exact h.whole n (Nat.lt_succ_iff.mp hn) tail htail

theorem of_opens (ht : t.Writable) (hunion : t.isUnion = false) (hfunction : t.isFunction = false)
    (h : ∀ n tail, t.words.length ≤ n → Opens (.ofDepth n) t.words tail (Means t)) : Legible t where
  whole n hn := .of_opens ht fun tail _ => h n tail hn
  operand n tail hn := by
    rw [operandWords_of_plain hunion hfunction] at hn ⊢
    exact h n tail hn

/-- A type with an operator is an operand in parentheses. -/
theorem of_whole (hoperator : (t.isUnion || t.isFunction) = true)
    (hstart : ∀ tail third, isFunctionStart (kindIn (t.words ++ tail) 0) (kindIn (t.words ++ tail) 1) third = false)
    (h : ∀ n, t.words.length ≤ n → ReadsWhole (.ofDepth n) t) : Legible t where
  whole := h
  operand n tail hn := by
    have hwords : operandWords t = .lParen :: t.words ++ [.rParen] := by rw [operandWords, hoperator]; rfl
    obtain ⟨n, rfl⟩ : ∃ m, n = m + 1 := Nat.exists_eq_succ_of_ne_zero (by rintro rfl; simp [hwords] at hn)
    have hreads : ReadsType (.ofDepth (n + 1)) t := by
      intro tail htail
      rw [ofDepth_type]
      exact h n (by simp [hwords] at hn; omega) tail htail
    rw [hwords]
    refine .of_primary ?_
    rw [List.cons_append, List.cons_append, List.append_assoc]
    exact Takes.primary_enclosed (hstart _) hreads

theorem array (h : Legible t) (ht : t.Writable) : Legible (.array t) := by
  refine of_opens (.array ht) rfl rfl fun n tail hn => ?_
  have hwords : (Ty.array t).words = operandWords t ++ [.lBracket, .rBracket] := rfl
  rw [hwords] at hn ⊢
  have := (h.operand n (.lBracket :: .rBracket :: tail) (by rw [List.length_append] at hn; omega)).brackets
  intro s hs
  obtain ⟨start, node, m, s', hrun, hafter, hreports, hm, element, helement, hkind⟩ := this s hs
  exact ⟨start, node, m, s', hrun, hafter, hreports, hm, .array hkind helement⟩

theorem tuple {elements : List Ty} (h : ∀ e ∈ elements, Legible e) (hwritable : ∀ e ∈ elements, e.Writable) :
    Legible (.tuple elements) := by
  refine of_opens (.tuple hwritable) rfl rfl fun n tail hn => .of_primary ?_
  have hreads (e : Ty) (he : e ∈ elements) : ReadsType (.ofDepth n) e := by
    refine (h e he).reads (Nat.lt_of_lt_of_le ?_ hn)
    have := Word.length_le_join .comma (List.mem_map_of_mem (f := Ty.words) he)
    rw [Ty.words, Ty.wordsOf_eq, List.length_cons, List.length_append]
    omega
  have hfirst : kindIn ((Ty.tuple elements).words ++ tail) 0 = .lBracket := rfl
  refine (Takes.primary_other (by rw [hfirst]; decide) (Takes.otherType_tuple hwritable hreads)).mono ?_
  rintro node ⟨nodes, hkind, hnodes⟩
  exact .tuple hkind hnodes

theorem union_start {members : List Ty} (hnormal : Ty.Normal members) (h : ∀ m ∈ members, m.Writable) (tail : List Word)
    (third : TokenKind) : isFunctionStart (kindIn ((Ty.union members).words ++ tail) 0)
      (kindIn ((Ty.union members).words ++ tail) 1) third = false := by
  cases members with
  | nil => exact absurd hnormal.several (by decide)
  | cons m rest =>
    cases rest with
    | nil => exact absurd hnormal.several (by simp)
    | cons next others =>
      obtain ⟨w, more, hwords, hstart, hname⟩ := operandWords_start (h m List.mem_cons_self)
      rw [unionWords_eq hnormal, hwords]
      refine isFunctionStart_operand hstart fun hw => ?_
      rcases hname hw with rfl | ⟨more, rfl⟩
      · exact .inr rfl
      · exact .inl rfl

theorem union {members : List Ty} (hnormal : Ty.Normal members) (h : ∀ m ∈ members, Legible m)
    (hwritable : ∀ m ∈ members, m.Writable) : Legible (.union members) := by
  refine of_whole rfl (union_start hnormal hwritable) fun n hn tail htail => ?_
  cases members with
  | nil => exact absurd hnormal.several (by decide)
  | cons m rest =>
    have hrest : rest ≠ [] := by
      rintro rfl
      exact absurd hnormal.several (by simp)
    have hoperand (m' : Ty) (hm : m' ∈ m :: rest) (tail : List Word) : Opens (.ofDepth n) (operandWords m') tail (Means m') := by
      refine (h m' hm).operand n tail (Nat.le_trans ?_ hn)
      rw [unionWords_eq hnormal, List.length_append]
      rcases List.mem_cons.mp hm with rfl | hm
      · exact Nat.le_add_right _ _
      · have := Word.length_le_flatMap (fun m => .pipe :: operandWords m) hm
        rw [List.length_cons] at this
        omega
    rw [unionWords_eq hnormal, List.append_assoc]
    refine (Takes.typeNode_union hrest hwritable hoperand htail).mono ?_
    rintro node ⟨nodes, hkind, hnodes⟩
    exact .union hkind hnormal hnodes

theorem literal {value : LiteralType} (ht : (Ty.literal value).Writable)
    (hstart : ∀ tail, kindIn ((Ty.literal value).words ++ tail) 0 ≠ .identifier ∧
      kindIn ((Ty.literal value).words ++ tail) 0 ≠ .lParen)
    (h : ∀ g tail, Takes (otherType g) ((Ty.literal value).words ++ tail) tail (· = .literal value)) :
    Legible (.literal value) :=
  of_opens ht rfl rfl fun _ tail _ => .of_primary ((Takes.primary_other (hstart tail) (h _ tail)).mono fun _ => Means.literal)

theorem object {ps : List PropertyTy} {index : Option Ty} (ht : (Ty.object ⟨none, ps, index⟩).Writable)
    (hnames : ∀ p ∈ ps, isWord p.name) (hdistinct : (ps.map (·.name)).Nodup) (hindex : ∀ t ∈ index, Legible t)
    (h : ∀ p ∈ ps, Legible p.type) : Legible (.object ⟨none, ps, index⟩) := by
  refine of_opens ht rfl rfl fun n tail hn => .of_primary ?_
  have hlength : (Ty.object ⟨none, ps, index⟩).words.length =
      (Ty.indexWords index).length + (ps.flatMap PropertyTy.wordsOf).length + 2 := by
    simp [Ty.words, ObjectTy.words, PropertyTy.words_eq]
    omega
  have hstring : ReadsType (.ofDepth n) .string := by
    refine (of_opens (.keyword .string) rfl rfl fun n tail _ => .of_primary (Takes.primary_keyword .string)).reads ?_
    exact Nat.lt_of_lt_of_le (by rw [hlength]; exact Nat.lt_add_left _ (by decide)) hn
  have hindex (t : Ty) (ht : t ∈ index) : ReadsType (.ofDepth n) t := by
    obtain rfl : index = some t := ht
    refine (hindex t rfl).reads (Nat.lt_of_lt_of_le ?_ hn)
    rw [hlength, Ty.indexWords, List.length_append, List.length_append]
    omega
  have hreads (p : PropertyTy) (hp : p ∈ ps) : ReadsType (.ofDepth n) p.type := by
    refine (h p hp).reads (Nat.lt_of_lt_of_le ?_ hn)
    have := Word.length_le_flatMap PropertyTy.wordsOf hp
    simp only [PropertyTy.wordsOf, List.length_cons, List.length_append] at this
    rw [hlength]
    omega
  have hindexName (p : PropertyTy) (hp : p ∈ ps) : p.name ≠ indexName := fun heq =>
    absurd (hnames p hp) (by rw [heq]; decide)
  have hfirst : kindIn ((Ty.object ⟨none, ps, index⟩).words ++ tail) 0 = .lBrace := rfl
  refine (Takes.primary_other (by rw [hfirst]; decide) (Takes.otherType_object hstring hindex hreads)).mono ?_
  rintro node ⟨first, others, hkind, hfirst, hothers⟩
  exact .object hkind hfirst hothers hindexName hdistinct

theorem function {ps : List ParamTy} {ret : Ty} (ht : (Ty.function ⟨ps, ret⟩).Writable)
    (hnames : ∀ p ∈ ps, isIdentifier p.name) (hrest : ∀ p ∈ ps, p.rest = false) (h : ∀ p ∈ ps, Legible p.type)
    (hret : Legible ret) : Legible (.function ⟨ps, ret⟩) := by
  refine of_whole rfl (fun tail third => rfl) fun n hn => .of_opens ht fun tail htail => .of_primary ?_
  have hlength : (Ty.function ⟨ps, ret⟩).words.length =
      (Word.join .comma (ps.map ParamTy.wordsOf)).length + ret.words.length + 3 := by
    simp [Ty.words, FunctionTy.words, ParamTy.words_eq]
    omega
  have hreads (p : ParamTy) (hp : p ∈ ps) : ReadsType (.ofDepth n) p.type := by
    refine (h p hp).reads (Nat.lt_of_lt_of_le ?_ hn)
    have := Word.length_le_join .comma (List.mem_map_of_mem (f := ParamTy.wordsOf) hp)
    simp only [ParamTy.wordsOf, List.length_cons, List.length_append] at this
    rw [hlength]
    omega
  have hret : ReadsType (.ofDepth n) ret := hret.reads (Nat.lt_of_lt_of_le (by rw [hlength]; omega) hn)
  exact Takes.primary_function hnames hrest hreads hret htail

end Legible

theorem legible (ht : t.Writable) : Legible t := by
  induction ht with
  | keyword word => exact .of_opens (.keyword word) rfl rfl fun n tail _ => .of_primary (Takes.primary_keyword word)
  | string h => exact .literal (.string h) (fun _ => ⟨nofun, nofun⟩) fun _ _ => Takes.otherType_string h
  | @number text h =>
    have hwords : (Ty.literal (.number text)).words = [.inLine .numberLiteral text] := Word.ofNumber_numeral h
    refine .literal (.number h) (fun _ => ?_) fun _ _ => ?_ <;> rw [hwords]
    · exact ⟨nofun, nofun⟩
    · exact Takes.otherType_number text
  | @negative text h =>
    have hwords : (Ty.literal (.number ("-" ++ text))).words = [.minus, .inLine .numberLiteral text] := Word.ofNumber_negative text
    refine .literal (.negative h) (fun _ => ?_) fun _ _ => ?_ <;> rw [hwords]
    · exact ⟨nofun, nofun⟩
    · exact Takes.otherType_negative text
  | bool value =>
    refine .literal (.bool value) (fun _ => ?_) fun _ _ => Takes.otherType_bool value
    cases value <;> exact ⟨nofun, nofun⟩
  | array ht ih => exact ih.array ht
  | tuple hwritable ih => exact .tuple ih hwritable
  | union hnormal hwritable ih => exact .union hnormal ih hwritable
  | object hnames hdistinct hindex h ihindex ih =>
    exact .object (.object hnames hdistinct hindex h) hnames hdistinct ihindex ih
  | function hnames hrest h hret ih ihret => exact .function (.function hnames hrest h hret) hnames hrest ih ihret

end Recheck.Syntax.Parser

/-! ## Texts -/

namespace Recheck

open Syntax Syntax.Parser Check

/-- Reads a type at the beginning of a text, with one level of the grammar for each token. -/
def Syntax.readType (text : String) : TypeNode × Parser.State :=
  (Grammar.ofDepth ((lex text).tokens.length + 1)).type (.ofTokens (lex text).tokens)

/-- The text of a type that can be written out is read without faults up to its end, and what is read means that very type. -/
theorem Ty.text_reads_back {t : Ty} (ht : t.Writable) (site : Site) (file : Path) (s : Check.State) {depth : Nat}
    (hdepth : t.height < depth) :
    (lex t.text).reports = [] ∧ (readType t.text).2.reports = [] ∧ (readType t.text).2.rest.map (·.kind) = [.eof] ∧
      ((typeMeaning (readType t.text).1 site).run (answer file depth)).run s = (t, s) := by
  obtain ⟨hwords, hlex⟩ := (t.spells ht .nil).lex
  have hlength : t.words.length ≤ (lex t.text).tokens.length := by
    have := congrArg List.length hwords
    rw [List.length_map, List.length_append] at this
    omega
  have hread : Takes (Grammar.ofDepth ((lex t.text).tokens.length + 1)).type (t.words ++ [.last]) [.last] (Means t) := by
    rw [ofDepth_type]
    exact (legible ht).whole _ hlength [.last] ⟨nofun, nofun, nofun⟩
  obtain ⟨hrest, hreports, hmeans⟩ := hread (.ofTokens (lex t.text).tokens) hwords
  rw [← readType] at hrest hreports hmeans
  have hkinds := congrArg (List.map Word.kind) hrest
  rw [State.words, List.map_map] at hkinds
  exact ⟨hlex, hreports, hkinds, hmeans site depth hdepth file s⟩

/-- A record with an index. -/
def record : ObjectTy := ⟨none, [⟨"size", .literal (.number ("-" ++ "1.5")), false⟩], some .boolean⟩

/-- Its text is `(((key?: string) => void) | { [x: string]: boolean; size: -1.5; })[]`. -/
def callbacks : Ty := .array (.union [.function ⟨[⟨"key", .string, true, false⟩], .void⟩, .object record])

theorem callbacks_writable : callbacks.Writable := by
  have hfunction : (Ty.function ⟨[⟨"key", .string, true, false⟩], .void⟩).Writable := by
    refine .function ?_ (by decide) ?_ (.keyword .void) <;> rw [List.forall_mem_singleton]
    · decide
    · exact .keyword .string
  have hrecord : (Ty.object record).Writable := by
    refine .object ?_ (by decide) ?_ ?_
    · rw [List.forall_mem_singleton]
      decide
    · rintro _ ⟨⟩
      exact .keyword .boolean
    · rw [List.forall_mem_singleton]
      exact .negative (by decide)
  refine .array (.union ⟨by decide, ?_, ?_, ?_⟩ ?_)
  · simp [Ty.isUnion]
  · simp only [List.pairwise_cons, List.mem_singleton, forall_eq]
    exact ⟨by simp [BEq.beq, Ty.same], nofun, .nil⟩
  · simp [Ty.isAbsorbed, Ty.primitive?]
  · simp [hfunction, hrecord]

theorem Ty.text_reads_back_callbacks :
    callbacks.Writable ∧ callbacks.height < 5 ∧
      (lex callbacks.text).reports = [] ∧ (readType callbacks.text).2.reports = [] ∧
      (readType callbacks.text).2.rest.map (·.kind) = [.eof] ∧
      ((typeMeaning (readType callbacks.text).1 default).run (answer default 5)).run (.start (TypeChecker.ofProgram default).known) =
        (callbacks, .start (TypeChecker.ofProgram default).known) :=
  have hheight : callbacks.height < 5 := by decide
  ⟨callbacks_writable, hheight, Ty.text_reads_back callbacks_writable default default _ hheight⟩

end Recheck
