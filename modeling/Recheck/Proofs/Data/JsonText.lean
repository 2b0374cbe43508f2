import Recheck.Proofs.Data.Json

/-!
# The grammar of JSON texts

A text is a document with gaps: what stands in a gap has no meaning. `Written` is the grammar, for any kind of gaps and
with or without a spare comma behind the last member of a group, so the strict texts of a document are those whose gaps
are blanks and that have no spare comma (`IsStrict`). What the reader makes of a strict text is told by the document
(`parse_of_isStrict`), whether or not it can be read: a document may be nested too deep, or hold a number that is too
large or half of a character.
-/

set_option autoImplicit false

namespace Recheck.Json

/-! ## Lexemes -/

def IsDigits (ds : List Char) : Prop := ds ≠ [] ∧ ∀ c ∈ ds, c.isDigit = true

/-- A number as it is written. -/
inductive IsNumber : List Char → Prop where
  | mk {sign whole fraction exponent : List Char}
      (hsign : sign = [] ∨ sign = ['-'])
      (hwhole : IsDigits whole ∧ (whole.head? = some '0' → whole.length = 1))
      (hfraction : fraction = [] ∨ ∃ ds, IsDigits ds ∧ fraction = '.' :: ds)
      (hexponent : exponent = [] ∨ ∃ e ds, (e = 'e' ∨ e = 'E') ∧ IsDigits ds ∧
        (exponent = e :: ds ∨ exponent = e :: '-' :: ds ∨ exponent = e :: '+' :: ds)) :
      IsNumber (sign ++ (whole ++ (fraction ++ exponent)))

/-- What stands between the quotes of a string. -/
inductive StringBody : List Char → Prop where
  | nil : StringBody []
  | plain {c : Char} {cs : List Char} : c ≠ '"' → c ≠ '\\' → 32 ≤ c.toNat → StringBody cs → StringBody (c :: cs)
  | escape {c : Char} {cs : List Char} : c ∈ ['"', '\\', '/', 'b', 'f', 'n', 'r', 't'] → StringBody cs →
      StringBody ('\\' :: c :: cs)
  | unicode {hex cs : List Char} : hex.length = 4 → (∀ d ∈ hex, (hexValue? d).isSome = true) → StringBody cs →
      StringBody ('\\' :: 'u' :: (hex ++ cs))

/-- A string between its quotes. -/
def quoted (body : List Char) : List Char := '"' :: (body ++ ['"'])

/-- A value that holds no other, as it is written. -/
inductive IsScalar : List Char → Prop where
  | word {l : List Char} : l ∈ ["null".toList, "true".toList, "false".toList] → IsScalar l
  | number {l : List Char} : IsNumber l → IsScalar l
  | string {body : List Char} : StringBody body → IsScalar (quoted body)

/-! ## Reading lexemes -/

theorem utf8Size_of_hexValue? {d : Char} (h : (hexValue? d).isSome = true) : d.utf8Size = 1 := by
  have hle : d.val ≤ 0x7F := by
    unfold hexValue? at h
    simp only [Char.isDigit, Char.le_def, Bool.and_eq_true, decide_eq_true_eq] at h
    split at h
    · rename_i hd
      exact UInt32.le_trans hd.2 (by decide)
    · split at h
      · rename_i hd
        exact UInt32.le_trans hd.2 (by decide)
      · split at h
        · rename_i hd
          exact UInt32.le_trans hd.2 (by decide)
        · exact nomatch h
  exact Char.utf8Size_eq_one_iff.mpr hle

theorem byteLength_of_hex {hex : List Char} (h : ∀ d ∈ hex, (hexValue? d).isSome = true) :
    Chars.byteLength hex = hex.length := by
  induction hex with
  | nil => rfl
  | cons d hex ih =>
    rw [List.forall_mem_cons] at h
    rw [Chars.byteLength_cons, utf8Size_of_hexValue? h.1, ih h.2, List.length_cons, Nat.add_comm]

theorem exists_readHex {hex : List Char} (hlength : hex.length = 4) (h : ∀ d ∈ hex, (hexValue? d).isSome = true) :
    ∃ v, ∀ tail, readHex (hex ++ tail) = .ok (v, tail) := by
  obtain ⟨digits, hdigits⟩ : ∃ digits, hex.mapM hexValue? = some digits := by
    clear hlength
    induction hex with
    | nil => exact ⟨[], rfl⟩
    | cons d hex ih =>
      rw [List.forall_mem_cons] at h
      obtain ⟨v, hv⟩ := Option.isSome_iff_exists.mp h.1
      obtain ⟨digits, hdigits⟩ := ih h.2
      exact ⟨v :: digits, by simp [List.mapM_cons, hv, hdigits]⟩
  refine ⟨digits.foldl (fun n d => 16 * n + d) 0, fun tail => ?_⟩
  have htake : (hex ++ tail).take 4 = hex := by rw [← hlength, List.take_left]
  have hdrop : (hex ++ tail).drop 4 = tail := by rw [← hlength, List.drop_left]
  rw [readHex, htake, hdrop, if_neg (by rw [byteLength_of_hex h]; omega), hdigits]

/-- Behind a backslash stands a character, in one escape or in two, or something that is no character. -/
theorem readEscape_cases {body : List Char} (h : StringBody ('\\' :: body)) :
    (∃ fault, ∀ rest, readEscape (body ++ '"' :: rest) = .error fault) ∨
      ∃ c tail, StringBody tail ∧ tail.length < body.length ∧
        ∀ rest, readEscape (body ++ '"' :: rest) = .ok (c, tail ++ '"' :: rest) := by
  cases h with
  | plain _ hc => exact absurd rfl hc
  | @escape c cs hc hcs =>
    suffices ∃ d, ∀ tail, readEscape (c :: tail) = .ok (d, tail) by
      obtain ⟨d, hd⟩ := this
      exact .inr ⟨d, cs, hcs, by simp, fun rest => hd _⟩
    simp only [List.mem_cons, List.not_mem_nil, or_false] at hc
    rcases hc with rfl | rfl | rfl | rfl | rfl | rfl | rfl | rfl <;> exact ⟨_, fun _ => rfl⟩
  | @unicode hex cs hlength hhex hcs =>
    obtain ⟨v, hv⟩ := exists_readHex hlength hhex
    have hread (rest : List Char) : readEscape ('u' :: (hex ++ cs) ++ '"' :: rest) =
        if 0xD800 ≤ v && v ≤ 0xDBFF then readLowHalf v (cs ++ '"' :: rest)
        else if 0xDC00 ≤ v && v ≤ 0xDFFF then .error .malformed
        else .ok (Char.ofNat v, cs ++ '"' :: rest) := by
      show readUnicode (hex ++ cs ++ '"' :: rest) = _
      rw [readUnicode, List.append_assoc, hv]
      rfl
    simp only [hread]
    split
    · -- The first half of a character: the second one has to follow at once.
      cases hcs with
      | nil => exact .inl ⟨_, fun rest => rfl⟩
      | plain _ hc =>
        refine .inl ⟨.malformed, fun rest => ?_⟩
        unfold readLowHalf
        split
        · rename_i heq; exact absurd (List.cons.inj heq).1 hc
        · rename_i heq; exact absurd (List.cons.inj heq).1 hc
        · rfl
      | @escape c _ hc =>
        refine .inl ⟨.malformed, fun rest => ?_⟩
        unfold readLowHalf
        split
        · rename_i heq
          obtain ⟨-, htail⟩ := List.cons.inj heq
          rw [(List.cons.inj htail).1] at hc
          exact absurd hc (by decide)
        · rename_i heq
          obtain ⟨-, htail⟩ := List.cons.inj heq
          rw [← htail]
          rfl
        · rename_i _ hbehind
          exact absurd rfl (hbehind _)
      | @unicode low tail hlowLength hlow htail =>
        obtain ⟨w, hw⟩ := exists_readHex hlowLength hlow
        have hhalf (rest : List Char) : readLowHalf v ('\\' :: 'u' :: (low ++ tail) ++ '"' :: rest) =
            if 0xDC00 ≤ w && w ≤ 0xDFFF then
              .ok (Char.ofNat (0x10000 + (v - 0xD800) * 0x400 + (w - 0xDC00)), tail ++ '"' :: rest)
            else .error .malformed := by
          show (readHex (low ++ tail ++ '"' :: rest) >>= fun read => _) = _
          rw [List.append_assoc, hw]
          rfl
        simp only [hhalf]
        split
        · refine .inr ⟨_, tail, htail, ?_, fun rest => rfl⟩
          simp only [List.length_cons, List.length_append]
          omega
        · exact .inl ⟨_, fun rest => rfl⟩
    · split
      · exact .inl ⟨_, fun rest => rfl⟩
      · refine .inr ⟨_, cs, hcs, ?_, fun rest => rfl⟩
        simp only [List.length_cons, List.length_append]
        omega

/-- What a string says does not depend on what follows it. -/
theorem exists_readChars {body : List Char} (h : StringBody body) :
    ∃ r : Except Fault (List Char), ∀ n rest, body.length < n →
      readChars n (body ++ '"' :: rest) = r.map fun cs => (cs, rest) := by
  induction hlength : body.length using Nat.strongRecOn generalizing body with
  | ind length ih =>
    subst hlength
    cases body with
    | nil =>
      refine ⟨.ok [], fun n rest hn => ?_⟩
      obtain ⟨n, rfl⟩ := Nat.exists_eq_add_of_lt hn
      simp [readChars, Except.map]
    | cons c body =>
      by_cases hbackslash : c = '\\'
      · subst hbackslash
        rcases readEscape_cases h with ⟨fault, hread⟩ | ⟨d, tail, htail, hshort, hread⟩
        · refine ⟨.error fault, fun n rest hn => ?_⟩
          obtain ⟨n, rfl⟩ : ∃ k, n = k + 1 := ⟨n - 1, by omega⟩
          rw [List.cons_append, readChars]
          simp only [show ('\\' : Char) ≠ '"' by decide, if_false, if_true, hread]
          rfl
        · obtain ⟨r, hr⟩ := ih tail.length (by rw [List.length_cons]; omega) htail rfl
          refine ⟨r.map (d :: ·), fun n rest hn => ?_⟩
          rw [List.length_cons] at hn
          obtain ⟨n, rfl⟩ : ∃ k, n = k + 1 := ⟨n - 1, by omega⟩
          rw [List.cons_append, readChars]
          simp only [show ('\\' : Char) ≠ '"' by decide, if_false, if_true, hread]
          show (readChars n (tail ++ '"' :: rest) >>= fun read => _) = _
          rw [hr n rest (by omega)]
          cases r <;> rfl
      · cases h with
        | escape => exact absurd rfl hbackslash
        | unicode => exact absurd rfl hbackslash
        | plain hquote _ hcontrol hbody =>
          obtain ⟨r, hr⟩ := ih body.length (by rw [List.length_cons]; omega) hbody rfl
          refine ⟨r.map (c :: ·), fun n rest hn => ?_⟩
          rw [List.length_cons] at hn
          obtain ⟨n, rfl⟩ : ∃ k, n = k + 1 := ⟨n - 1, by omega⟩
          have hcontrol : ¬c.toNat < 32 := by omega
          rw [List.cons_append, readChars]
          simp only [hquote, hbackslash, hcontrol, if_false]
          rw [hr n rest (by omega)]
          cases r <;> rfl

theorem exists_readString {body : List Char} (h : StringBody body) :
    ∃ r : Except Fault String, ∀ rest, readString (body ++ '"' :: rest) = r.map (·, rest) := by
  obtain ⟨r, hr⟩ := exists_readChars h
  refine ⟨r.map String.ofList, fun rest => ?_⟩
  rw [readString, hr _ _ (by rw [List.length_append, List.length_cons]; omega)]
  cases r <;> rfl

theorem readDigits_append {ds rest : List Char} (h : IsDigits ds) (hrest : ∀ c ∈ rest.head?, c.isDigit = false) :
    readDigits (ds ++ rest) = .ok (ds, rest) := by
  have hstop : rest.takeWhile Char.isDigit = [] ∧ rest.dropWhile Char.isDigit = rest := by
    cases rest with
    | nil => exact ⟨rfl, rfl⟩
    | cons c rest => simp [hrest c rfl]
  rw [readDigits, List.takeWhile_append_of_pos h.2, List.dropWhile_append_of_pos h.2, hstop.1, hstop.2, List.append_nil]
  simp [h.1]

theorem exists_readFraction {fraction : List Char} (h : fraction = [] ∨ ∃ ds, IsDigits ds ∧ fraction = '.' :: ds) :
    ∃ r, ∀ tail : List Char, (∀ c ∈ tail.head?, c.isDigit = false ∧ c ≠ '.') →
      readFraction (fraction ++ tail) = .ok (r, tail) := by
  rcases h with rfl | ⟨ds, hds, rfl⟩
  · refine ⟨none, fun tail htail => ?_⟩
    rw [List.nil_append]
    unfold readFraction
    split
    · exact absurd rfl (htail '.' rfl).2
    · rfl
  · refine ⟨some ds, fun tail htail => ?_⟩
    rw [List.cons_append, readFraction, readDigits_append hds fun c hc => (htail c hc).1]
    rfl

theorem isDigit_ne {c d : Char} (hc : c.isDigit = true) (hd : d.isDigit = false) : c ≠ d := by
  rintro rfl
  rw [hc] at hd
  exact nomatch hd

theorem exists_readExponent {exponent : List Char} (h : exponent = [] ∨ ∃ e ds, (e = 'e' ∨ e = 'E') ∧ IsDigits ds ∧
      (exponent = e :: ds ∨ exponent = e :: '-' :: ds ∨ exponent = e :: '+' :: ds)) :
    ∃ r, ∀ rest, Stops rest → readExponent (exponent ++ rest) = .ok (r, rest) := by
  rcases h with rfl | ⟨e, ds, he, hds, hexponent⟩
  · exact ⟨none, fun rest hrest => readExponent_of_stops hrest⟩
  have hletter : (decide (e = 'e') || decide (e = 'E')) = true := by simpa using he
  have hread (rest : List Char) (hrest : Stops rest) : readDigits (ds ++ rest) = .ok (ds, rest) :=
    readDigits_append hds fun c hc => (hrest c hc).1
  obtain ⟨d, tail, rfl⟩ := List.exists_cons_of_ne_nil hds.1
  have hd := hds.2 d List.mem_cons_self
  rcases hexponent with rfl | rfl | rfl
  · refine ⟨some (digitsValue (d :: tail)), fun rest hrest => ?_⟩
    have hsign : (d = '-') = False ∧ (d = '+') = False := by
      simp [isDigit_ne hd (show '-'.isDigit = false by decide), isDigit_ne hd (show '+'.isDigit = false by decide)]
    have := hread rest hrest
    rw [List.cons_append] at this ⊢
    rw [readExponent]
    simp [hletter, hsign, this, bind, Except.bind]
  · refine ⟨some (-digitsValue (d :: tail)), fun rest hrest => ?_⟩
    have := hread rest hrest
    rw [List.cons_append] at this ⊢
    rw [readExponent]
    simp [hletter, this, bind, Except.bind]
  · refine ⟨some (digitsValue (d :: tail)), fun rest hrest => ?_⟩
    have := hread rest hrest
    rw [List.cons_append] at this ⊢
    rw [readExponent]
    simp [hletter, this, bind, Except.bind]

theorem readWhole_append {whole : List Char} (h : IsDigits whole ∧ (whole.head? = some '0' → whole.length = 1))
    {tail : List Char} (htail : ∀ c ∈ tail.head?, c.isDigit = false) : readWhole (whole ++ tail) = .ok (whole, tail) := by
  have hzero : ¬(whole.head? = some '0' ∧ whole.length ≠ 1) := fun hzero => hzero.2 (h.2 hzero.1)
  unfold readWhole
  rw [readDigits_append h.1 htail]
  simp only [bind, Except.bind, decide_eq_true_eq, Bool.and_eq_true, if_neg hzero]

/-- What a number says does not depend on what follows it, if that does not go on with the number. -/
theorem exists_readNumber {l : List Char} (h : IsNumber l) :
    ∃ r : Except Fault Json, ∀ rest, Stops rest → readNumber (l ++ rest) = r.map (·, rest) := by
  obtain @⟨sign, whole, fraction, exponent, hsign, hwhole, hfraction, hexponent⟩ := h
  obtain ⟨f, hf⟩ := exists_readFraction hfraction
  obtain ⟨e, he⟩ := exists_readExponent hexponent
  generalize hl : sign ++ (whole ++ (fraction ++ exponent)) = l
  refine ⟨if isTooLarge (whole ++ f.getD []) (e.getD 0 - (f.getD []).length) then .error .malformed
    else if !(decide (sign = ['-'])) && f.isNone && e.isNone && digitsValue whole ≤ maxUInt64 then
      .ok (natural (digitsValue whole))
    else .ok (number (String.ofList l)), fun rest hrest => ?_⟩
  -- Behind each part stands something that the part cannot go on with.
  have hbehindFraction : ∀ c ∈ (exponent ++ rest).head?, c.isDigit = false ∧ c ≠ '.' := by
    intro c hc
    rcases hexponent with rfl | ⟨e, ds, rfl | rfl, -, rfl | rfl | rfl⟩
    · exact ⟨(hrest c hc).1, (hrest c hc).2.1⟩
    all_goals
      obtain rfl := Option.some.inj hc
      decide
  have hbehindWhole : ∀ c ∈ (fraction ++ (exponent ++ rest)).head?, c.isDigit = false := by
    intro c hc
    rcases hfraction with rfl | ⟨ds, -, rfl⟩
    · exact (hbehindFraction c hc).1
    · obtain rfl := Option.some.inj hc
      decide
  have hnegative : ((l ++ rest).head? = some '-') = (sign = ['-']) := by
    obtain ⟨d, ds, hds⟩ := List.exists_cons_of_ne_nil hwhole.1.1
    have hd : d ≠ '-' := isDigit_ne (hwhole.1.2 d (hds ▸ List.mem_cons_self)) (by decide)
    rw [← hl]
    rcases hsign with rfl | rfl <;> simp [hds, hd]
  have hunsigned : (if sign = ['-'] then (l ++ rest).tail else l ++ rest) =
      whole ++ (fraction ++ (exponent ++ rest)) := by
    rw [← hl]
    rcases hsign with rfl | rfl <;> simp
  have htext : (l ++ rest).take ((l ++ rest).length - rest.length) = l := by
    rw [List.length_append, Nat.add_sub_cancel, List.take_left]
  rw [readNumber]
  simp only [hnegative, hunsigned, readWhole_append hwhole hbehindWhole, hf _ hbehindFraction, he _ hrest, bind,
    Except.bind, htext]
  split
  · rfl
  · split <;> rfl

theorem readScalar_of_isDigit {c : Char} (hc : c = '-' ∨ c.isDigit = true) (cs : List Char) :
    readScalar (c :: cs) = readNumber (c :: cs) := by
  have hquote : c ≠ '"' := by
    rintro rfl
    exact absurd hc (by decide)
  rw [readScalar, if_neg hquote, if_pos (by simpa using hc)]

theorem IsNumber.begins {l : List Char} (h : IsNumber l) : ∃ c cs, l = c :: cs ∧ (c = '-' ∨ c.isDigit = true) := by
  obtain @⟨sign, whole, fraction, exponent, hsign, hwhole, -, -⟩ := h
  obtain ⟨d, ds, hds⟩ := List.exists_cons_of_ne_nil hwhole.1.1
  rcases hsign with rfl | rfl
  · exact ⟨d, _, by rw [hds]; rfl, .inr (hwhole.1.2 d (hds ▸ List.mem_cons_self))⟩
  · exact ⟨'-', _, rfl, .inl rfl⟩

theorem quoted_append (body rest : List Char) : quoted body ++ rest = '"' :: (body ++ '"' :: rest) := by
  simp [quoted]

theorem readScalar_quoted (body rest : List Char) : readScalar (quoted body ++ rest) =
    (readString (body ++ '"' :: rest)).map fun read => (string read.1, read.2) := by
  rw [quoted_append, readScalar, if_pos rfl]
  cases readString (body ++ '"' :: rest) <;> rfl

/-- The value of a lexeme is its own, whatever follows it. -/
theorem readScalar_append {l : List Char} (h : IsScalar l) {rest : List Char} (hrest : Stops rest) :
    readScalar (l ++ rest) = (readScalar l).map fun read => (read.1, rest) := by
  suffices ∃ r : Except Fault Json, ∀ rest, Stops rest → readScalar (l ++ rest) = r.map (·, rest) by
    obtain ⟨r, hr⟩ := this
    have hl := hr [] fun _ hc => nomatch hc
    rw [List.append_nil] at hl
    rw [hr rest hrest, hl]
    cases r <;> rfl
  cases h with
  | word hword =>
    simp only [List.mem_cons, List.not_mem_nil, or_false] at hword
    rcases hword with rfl | rfl | rfl
    · exact ⟨.ok null, fun rest _ => rfl⟩
    · exact ⟨.ok (bool true), fun rest _ => rfl⟩
    · exact ⟨.ok (bool false), fun rest _ => rfl⟩
  | number hnumber =>
    obtain ⟨r, hr⟩ := exists_readNumber hnumber
    obtain ⟨c, cs, rfl, hc⟩ := hnumber.begins
    exact ⟨r, fun rest hrest => (readScalar_of_isDigit hc _).trans (hr rest hrest)⟩
  | string hbody =>
    obtain ⟨r, hr⟩ := exists_readString hbody
    refine ⟨r.map string, fun rest _ => ?_⟩
    rw [readScalar_quoted, hr]
    cases r <;> rfl

/-! ## Documents -/

/-- A value as it is written, without its gaps. Keys stand without their quotes. -/
inductive Document where
  | scalar (text : List Char)
  | array (items : List Document)
  | object (entries : List (List Char × Document))

/-- The key that some text between quotes says. -/
def keyOf (body : List Char) : Except Fault String := (readString (body ++ ['"'])).map (·.1)

namespace Document

mutual

/-- The value that a document says, if it is nested to at most this depth. The first failure counts. -/
def value : Nat → Document → Except Fault Json
  | _, scalar text => (readScalar text).map (·.1)
  | 0, array _ => .error .malformed
  | 0, object _ => .error .malformed
  | n + 1, array items => (itemValues n items).map Json.array
  | n + 1, object entries => (entryValues n entries).map Json.object

/-- The values of the items of an array. -/
def itemValues (n : Nat) : List Document → Except Fault (List Json)
  | [] => .ok []
  | d :: rest => do
    let v ← value n d
    let more ← itemValues n rest
    .ok (v :: more)

/-- The entries of an object. -/
def entryValues (n : Nat) : List (List Char × Document) → Except Fault (List (String × Json))
  | [] => .ok []
  | (body, d) :: rest => do
    let key ← keyOf body
    let v ← value n d
    let more ← entryValues n rest
    .ok ((key, v) :: more)

end

end Document

/-! ## The grammar -/

/-- What a group has between its commas: the items of an array, the entries of an object. -/
inductive Member where
  | item (d : Document)
  | entry (body : List Char) (d : Document)

/-- The parts of a text. -/
inductive Part where
  | value (d : Document)
  | member (m : Member)
  /-- The members of a group up to the bracket or brace that closes it. -/
  | members (close : Char) (ms : List Member)
  /-- A document with the gaps around it. -/
  | text (d : Document)

/-- How a part is written, with some kind of gaps, and with a spare comma behind the last member of a group or without. -/
inductive Written (gap : List Char → Prop) (spare : Bool) : Part → List Char → Prop where
  | scalar {l : List Char} : IsScalar l → Written gap spare (.value (.scalar l)) l
  | array {ds : List Document} {t : List Char} : Written gap spare (.members ']' (ds.map .item)) t →
      Written gap spare (.value (.array ds)) (['['] ++ t)
  | object {es : List (List Char × Document)} {t : List Char} :
      Written gap spare (.members '\x7d' (es.map fun e => .entry e.1 e.2)) t →
      Written gap spare (.value (.object es)) (['\x7b'] ++ t)
  | item {d : Document} {t : List Char} : Written gap spare (.value d) t → Written gap spare (.member (.item d)) t
  | entry {body : List Char} {d : Document} {g₁ g₂ t : List Char} : StringBody body → gap g₁ → gap g₂ →
      Written gap spare (.value d) t → Written gap spare (.member (.entry body d)) (quoted body ++ g₁ ++ [':'] ++ g₂ ++ t)
  | none {close : Char} {g : List Char} : gap g → Written gap spare (.members close []) (g ++ [close])
  | last {close : Char} {m : Member} {g₁ t g₂ : List Char} : gap g₁ → Written gap spare (.member m) t → gap g₂ →
      Written gap spare (.members close [m]) (g₁ ++ t ++ g₂ ++ [close])
  | spare {close : Char} {m : Member} {g₁ t g₂ g₃ : List Char} : spare = true → gap g₁ → Written gap spare (.member m) t →
      gap g₂ → gap g₃ → Written gap spare (.members close [m]) (g₁ ++ t ++ g₂ ++ [','] ++ g₃ ++ [close])
  | more {close : Char} {m : Member} {ms : List Member} {g₁ t g₂ ts : List Char} : gap g₁ →
      Written gap spare (.member m) t → gap g₂ → ms ≠ [] → Written gap spare (.members close ms) ts →
      Written gap spare (.members close (m :: ms)) (g₁ ++ t ++ g₂ ++ [','] ++ ts)
  | text {d : Document} {g₁ t g₂ : List Char} : gap g₁ → Written gap spare (.value d) t → gap g₂ →
      Written gap spare (.text d) (g₁ ++ t ++ g₂)

/-- Nothing but blanks. -/
def Blanks (g : List Char) : Prop := ∀ c ∈ g, isBlank c = true

instance (g : List Char) : Decidable (Blanks g) := List.decidableBAll _ g

/-- The strict texts of a document. -/
def IsStrict (d : Document) (text : String) : Prop := Written Blanks false (.text d) text.toList

/-! ## How parts begin -/

/-- The characters that values begin with. -/
def opens (c : Char) : Bool := c.isDigit || ['-', '"', 'n', 't', 'f', '[', '\x7b'].contains c

/-- A text that begins like a value. -/
def Opens (t : List Char) : Prop := ∃ c cs, t = c :: cs ∧ opens c = true

theorem ne_of_opens {c d : Char} (hc : opens c = true) (hd : opens d = false) : c ≠ d := by
  rintro rfl
  exact absurd hc (Bool.eq_false_iff.mp hd)

theorem isBlank_of_opens {c : Char} (hc : opens c = true) : isBlank c = false := by
  have h1 := ne_of_opens hc (show opens ' ' = false by decide)
  have h2 := ne_of_opens hc (show opens '\n' = false by decide)
  have h3 := ne_of_opens hc (show opens '\t' = false by decide)
  have h4 := ne_of_opens hc (show opens '\r' = false by decide)
  simp [isBlank, h1, h2, h3, h4]

theorem Opens.append {t : List Char} (h : Opens t) (rest : List Char) : Opens (t ++ rest) := by
  obtain ⟨c, cs, rfl, hc⟩ := h
  exact ⟨c, cs ++ rest, rfl, hc⟩

theorem IsScalar.begins {l : List Char} (h : IsScalar l) :
    ∃ c cs, l = c :: cs ∧ opens c = true ∧ c ≠ '[' ∧ c ≠ '\x7b' := by
  cases h with
  | word hword =>
    simp only [List.mem_cons, List.not_mem_nil, or_false] at hword
    rcases hword with rfl | rfl | rfl <;> exact ⟨_, _, rfl, by decide⟩
  | string => exact ⟨_, _, rfl, by decide⟩
  | number hnumber =>
    obtain ⟨c, cs, rfl, rfl | hc⟩ := hnumber.begins
    · exact ⟨_, _, rfl, by decide⟩
    · exact ⟨c, cs, rfl, by simp [opens, hc], isDigit_ne hc (by decide), isDigit_ne hc (by decide)⟩

namespace Written

variable {gap : List Char → Prop} {spare : Bool} {t : List Char}

theorem opens_value {d : Document} (h : Written gap spare (.value d) t) : Opens t := by
  cases h with
  | scalar hl =>
    obtain ⟨c, cs, rfl, hc, -⟩ := hl.begins
    exact ⟨c, cs, rfl, hc⟩
  | array => exact ⟨'[', _, rfl, by decide⟩
  | object => exact ⟨'\x7b', _, rfl, by decide⟩

theorem opens_member {m : Member} (h : Written gap spare (.member m) t) : Opens t := by
  cases h with
  | item hd => exact hd.opens_value
  | entry => exact ⟨'"', _, by rw [quoted]; rfl, by decide⟩

/-- Behind a gap, members begin like a value. -/
theorem opens_members {close : Char} {ms : List Member} (h : Written gap spare (.members close ms) t) (hne : ms ≠ []) :
    ∃ g u, gap g ∧ t = g ++ u ∧ Opens u := by
  cases h with
  | none => exact absurd rfl hne
  | @last _ _ g₁ u g₂ hg₁ hm _ => exact ⟨g₁, u ++ g₂ ++ [close], hg₁, by simp, (hm.opens_member.append _).append _⟩
  | @spare _ _ g₁ u g₂ g₃ _ hg₁ hm _ _ =>
    exact ⟨g₁, u ++ (g₂ ++ [','] ++ g₃ ++ [close]), hg₁, by simp, hm.opens_member.append _⟩
  | @more _ _ _ g₁ u g₂ ts hg₁ hm _ _ _ => exact ⟨g₁, u ++ (g₂ ++ [','] ++ ts), hg₁, by simp, hm.opens_member.append _⟩

theorem length_members {close : Char} {ms : List Member} (h : Written gap spare (.members close ms) t) :
    ms.length ≤ t.length := by
  induction ms generalizing t with
  | nil => exact Nat.zero_le _
  | cons m ms ih =>
    cases h with
    | last =>
      simp only [List.length_append, List.length_cons, List.length_nil]
      omega
    | spare =>
      simp only [List.length_append, List.length_cons, List.length_nil]
      omega
    | more _ _ _ _ hms =>
      have := ih hms
      simp only [List.length_append, List.length_cons, List.length_nil]
      omega

end Written

/-! ## Reading a document -/

theorem skipBlanks_append {g : List Char} (h : Blanks g) (cs : List Char) : skipBlanks (g ++ cs) = skipBlanks cs :=
  List.dropWhile_append_of_pos h

theorem skipBlanks_of_opens {t : List Char} (h : Opens t) : skipBlanks t = t := by
  obtain ⟨c, cs, rfl, hc⟩ := h
  exact skipBlanks_cons (isBlank_of_opens hc) cs

theorem readValue_append {g : List Char} (h : Blanks g) (n : Nat) (cs : List Char) :
    readValue n (g ++ cs) = readValue n cs := by
  cases n with
  | zero => rw [readValue, readValue, skipBlanks_append h]
  | succ n => rw [readValue, readValue, skipBlanks_append h]

/-- A number does not go on with a blank. -/
theorem stops_append {g : List Char} (h : Blanks g) {rest : List Char} (hrest : Stops rest) : Stops (g ++ rest) := by
  cases g with
  | nil => exact hrest
  | cons c g =>
    refine stops_cons ?_ _
    have hc := h c List.mem_cons_self
    unfold isBlank at hc
    simp only [Bool.or_eq_true, decide_eq_true_eq] at hc
    rcases hc with ((rfl | rfl) | rfl) | rfl <;> decide

theorem readKey_append {g g' body : List Char} (hg : Blanks g) (hg' : Blanks g') (hbody : StringBody body)
    (rest : List Char) : readKey (g ++ (quoted body ++ g' ++ [':'] ++ rest)) = (keyOf body).map (·, rest) := by
  obtain ⟨r, hr⟩ := exists_readString hbody
  have htext : quoted body ++ g' ++ [':'] ++ rest = '"' :: (body ++ '"' :: (g' ++ ':' :: rest)) := by simp [quoted]
  have hcolon : skipBlanks (g' ++ ':' :: rest) = ':' :: rest := by
    rw [skipBlanks_append hg', skipBlanks_cons (by decide)]
  rw [readKey, skipBlanks_append hg, htext, skipBlanks_cons (by decide), keyOf, hr []]
  show (readString (body ++ '"' :: (g' ++ ':' :: rest)) >>= fun read => _) = _
  rw [hr]
  cases r with
  | error => rfl
  | ok key => simp only [Except.map, bind, Except.bind, hcolon]

/-- An entry, read by a reader of values. -/
def readEntry (value : Reader Json) : Reader (String × Json) := fun cs => do
  let (key, rest) ← readKey cs
  let (item, rest) ← value rest
  .ok ((key, item), rest)

/-- What `readItems` and `readEntries` have in common: members with commas between them, up to the closing character. -/
def readMembers {α : Type} (close : Char) (member : Reader α) : Nat → Reader (List α)
  | 0, _ => .error .unfinished
  | n + 1, cs => do
    let (m, rest) ← member cs
    match skipBlanks rest with
    | ',' :: rest =>
      let (more, rest) ← readMembers close member n rest
      .ok (m :: more, rest)
    | rest => if rest.head? = some close then .ok ([m], rest.tail) else failAt rest

theorem readItems_eq (value : Reader Json) (n : Nat) : readItems value n = readMembers ']' value n := by
  induction n with
  | zero => rfl
  | succ n ih =>
    funext cs
    rw [readItems, readMembers, ih]
    refine bind_congr fun read => ?_
    obtain ⟨item, rest⟩ := read
    dsimp only
    generalize skipBlanks rest = behind
    split
    · rfl
    · rfl
    · rename_i hcomma hclose
      split
      · exact absurd rfl (hcomma _)
      · rw [if_neg]
        intro hhead
        obtain ⟨tail, htail⟩ := List.head?_eq_some_iff.mp hhead
        exact hclose tail htail

theorem readEntries_eq (value : Reader Json) (n : Nat) :
    readEntries value n = readMembers '\x7d' (readEntry value) n := by
  induction n with
  | zero => rfl
  | succ n ih =>
    funext cs
    rw [readEntries, readMembers, readEntry, ih]
    simp only [bind_assoc]
    refine bind_congr fun key => bind_congr fun item => ?_
    obtain ⟨item, rest⟩ := item
    dsimp only [bind, Except.bind]
    generalize skipBlanks rest = behind
    split
    · rfl
    · rfl
    · rename_i hcomma hclose
      split
      · exact absurd rfl (hcomma _)
      · rw [if_neg]
        intro hhead
        obtain ⟨tail, htail⟩ := List.head?_eq_some_iff.mp hhead
        exact hclose tail htail

section Groups

/-- The characters that can close a group. -/
def Closes (c : Char) : Prop := c = ']' ∨ c = '\x7d'

theorem Closes.isBlank {c : Char} (h : Closes c) : isBlank c = false := by
  rcases h with rfl | rfl <;> rfl

theorem Closes.stops {c : Char} (h : Closes c) (rest : List Char) : Stops (c :: rest) := by
  refine stops_cons ?_ rest
  rcases h with rfl | rfl <;> decide

variable {α : Type} {close : Char} {member : Reader α} {g cs rest : List Char} (hg : Blanks g) (n : Nat)
include hg

theorem readMembers_last (hclose : Closes close) {r : Except Fault α} (h : member cs = r.map (·, g ++ close :: rest)) :
    readMembers close member (n + 1) cs = r.map fun m => ([m], rest) := by
  have hbehind : skipBlanks (g ++ close :: rest) = close :: rest := by
    rw [skipBlanks_append hg, skipBlanks_cons hclose.isBlank]
  rw [readMembers, h]
  cases r with
  | error => rfl
  | ok m =>
    simp only [Except.map, bind, Except.bind, hbehind]
    rcases hclose with rfl | rfl <;> rfl

theorem readMembers_more {r : Except Fault α} (h : member cs = r.map (·, g ++ ',' :: rest)) :
    readMembers close member (n + 1) cs = (do
      let m ← r
      let (more, rest) ← readMembers close member n rest
      .ok (m :: more, rest)) := by
  have hcomma : skipBlanks (g ++ ',' :: rest) = ',' :: rest := by
    rw [skipBlanks_append hg, skipBlanks_cons (by decide)]
  rw [readMembers, h]
  cases r with
  | error => rfl
  | ok m => simp only [Except.map, bind, Except.bind, hcomma]

end Groups

/-- The key and the value that an entry says. -/
def entryValue (n : Nat) (body : List Char) (d : Document) : Except Fault (String × Json) := do
  let key ← keyOf body
  let v ← d.value n
  .ok (key, v)

/-- The reader makes of a part what its document says, and goes on behind the part. -/
def Takes : Part → List Char → Prop
  | .value d, t | .member (.item d), t =>
    ∀ n rest, Stops rest → readValue n (t ++ rest) = (d.value n).map (·, rest)
  | .member (.entry body d), t => ∀ n g rest, Blanks g → Stops rest →
    readEntry (readValue n) (g ++ (t ++ rest)) = (entryValue n body d).map (·, rest)
  | .members close ms, t => Closes close → ∀ n fuel rest, ms.length ≤ fuel →
    (∀ ds, ds ≠ [] → ms = ds.map .item →
      readMembers close (readValue n) fuel (t ++ rest) = (Document.itemValues n ds).map (·, rest)) ∧
    (∀ es, es ≠ [] → ms = es.map (fun e => .entry e.1 e.2) →
      readMembers close (readEntry (readValue n)) fuel (t ++ rest) = (Document.entryValues n es).map (·, rest))
  | .text _, _ => True

theorem takes_scalar {l : List Char} (h : IsScalar l) : Takes (.value (.scalar l)) l := by
  intro n rest hrest
  obtain ⟨c, cs, rfl, hc, hbracket, hbrace⟩ := h.begins
  have hread := readScalar_append h hrest
  rw [List.cons_append] at hread ⊢
  rw [readValue_cons (isBlank_of_opens hc) hbracket hbrace, hread]
  cases n <;> rw [Document.value] <;> cases readScalar (c :: cs) <;> rfl

theorem takes_entry {body g₁ g₂ t : List Char} {d : Document} (hbody : StringBody body) (hg₁ : Blanks g₁)
    (hg₂ : Blanks g₂) (h : Takes (.value d) t) :
    Takes (.member (.entry body d)) (quoted body ++ g₁ ++ [':'] ++ g₂ ++ t) := by
  intro n g rest hg hrest
  have htext : quoted body ++ g₁ ++ [':'] ++ g₂ ++ t ++ rest = quoted body ++ g₁ ++ [':'] ++ (g₂ ++ (t ++ rest)) := by simp
  rw [readEntry, htext, readKey_append hg hg₁ hbody, entryValue]
  cases keyOf body with
  | error => rfl
  | ok key =>
    show (readValue n (g₂ ++ (t ++ rest)) >>= fun read => _) = _
    rw [readValue_append hg₂, h n rest hrest]
    cases d.value n <;> rfl

theorem takes_array {ds : List Document} {t : List Char} (h : Written Blanks false (.members ']' (ds.map .item)) t)
    (ih : Takes (.members ']' (ds.map .item)) t) : Takes (.value (.array ds)) (['['] ++ t) := by
  intro n rest hrest
  have htext : ['['] ++ t ++ rest = '[' :: (t ++ rest) := by simp
  rw [htext]
  cases n with
  | zero =>
    rw [Document.value]
    rfl
  | succ n =>
    rw [readValue, skipBlanks_cons (by decide), Document.value]
    show readArray (readValue n) (t ++ rest) = _
    rw [readArray]
    cases ds with
    | nil =>
      cases h with
      | none hg =>
        rw [List.append_assoc, skipBlanks_append hg, List.singleton_append, skipBlanks_cons (by decide),
          Document.itemValues]
        rfl
    | cons d ds =>
      obtain ⟨g, u, hg, rfl, hu⟩ := h.opens_members (by simp)
      have hlength := h.length_members
      rw [List.length_map] at hlength
      have hread := (ih (.inl rfl) n ((g ++ u ++ rest).length + 1) rest (by
        rw [List.length_map, List.length_append]; omega)).1 (d :: ds) (List.cons_ne_nil _ _) rfl
      rw [List.append_assoc, skipBlanks_append hg, skipBlanks_of_opens (hu.append rest), ← List.append_assoc,
        readItems_eq, hread]
      obtain ⟨c, cs, rfl, hc⟩ := hu
      split
      · rename_i heq
        exact absurd (List.cons.inj heq).1 (ne_of_opens hc (by decide))
      · cases Document.itemValues n (d :: ds) <;> rfl

theorem takes_object {es : List (List Char × Document)} {t : List Char}
    (h : Written Blanks false (.members '\x7d' (es.map fun e => .entry e.1 e.2)) t)
    (ih : Takes (.members '\x7d' (es.map fun e => .entry e.1 e.2)) t) :
    Takes (.value (.object es)) (['\x7b'] ++ t) := by
  intro n rest hrest
  have htext : ['\x7b'] ++ t ++ rest = '\x7b' :: (t ++ rest) := by simp
  rw [htext]
  cases n with
  | zero =>
    rw [Document.value]
    rfl
  | succ n =>
    rw [readValue, skipBlanks_cons (by decide), Document.value]
    show readObject (readValue n) (t ++ rest) = _
    rw [readObject]
    cases es with
    | nil =>
      cases h with
      | none hg =>
        rw [List.append_assoc, skipBlanks_append hg, List.singleton_append, skipBlanks_cons (by decide),
          Document.entryValues]
        rfl
    | cons e es =>
      obtain ⟨g, u, hg, rfl, hu⟩ := h.opens_members (by simp)
      have hlength := h.length_members
      rw [List.length_map] at hlength
      have hread := (ih (.inr rfl) n ((g ++ u ++ rest).length + 1) rest (by
        rw [List.length_map, List.length_append]; omega)).2 (e :: es) (List.cons_ne_nil _ _) rfl
      rw [List.append_assoc, skipBlanks_append hg, skipBlanks_of_opens (hu.append rest), ← List.append_assoc,
        readEntries_eq, hread]
      obtain ⟨c, cs, rfl, hc⟩ := hu
      split
      · rename_i heq
        exact absurd (List.cons.inj heq).1 (ne_of_opens hc (by decide))
      · cases Document.entryValues n (e :: es) <;> rfl

theorem takes_last {close : Char} {m : Member} {g₁ t g₂ : List Char} (hg₁ : Blanks g₁) (hg₂ : Blanks g₂)
    (h : Takes (.member m) t) : Takes (.members close [m]) (g₁ ++ t ++ g₂ ++ [close]) := by
  intro hclose n fuel rest hfuel
  obtain ⟨fuel, rfl⟩ : ∃ k, fuel = k + 1 := ⟨fuel - 1, by simp at hfuel; omega⟩
  have htext : g₁ ++ t ++ g₂ ++ [close] ++ rest = g₁ ++ (t ++ (g₂ ++ close :: rest)) := by simp
  have hstops : Stops (g₂ ++ close :: rest) := stops_append hg₂ (hclose.stops rest)
  rw [htext]
  refine ⟨?_, ?_⟩
  · rintro ds - hms
    obtain ⟨d, rfl, rfl⟩ := List.map_eq_singleton_iff.mp hms.symm
    rw [readMembers_last hg₂ fuel hclose ((readValue_append hg₁ n _).trans (h n _ hstops)), Document.itemValues,
      Document.itemValues]
    cases d.value n <;> rfl
  · rintro es - hms
    obtain ⟨⟨body, d⟩, rfl, rfl⟩ := List.map_eq_singleton_iff.mp hms.symm
    rw [readMembers_last hg₂ fuel hclose (h n g₁ _ hg₁ hstops), entryValue, Document.entryValues, Document.entryValues]
    cases keyOf body with
    | error => rfl
    | ok key => cases d.value n <;> rfl

theorem takes_more {close : Char} {m : Member} {ms : List Member} {g₁ t g₂ ts : List Char} (hg₁ : Blanks g₁)
    (hg₂ : Blanks g₂) (hne : ms ≠ []) (h : Takes (.member m) t) (hms : Takes (.members close ms) ts) :
    Takes (.members close (m :: ms)) (g₁ ++ t ++ g₂ ++ [','] ++ ts) := by
  intro hclose n fuel rest hfuel
  rw [List.length_cons] at hfuel
  obtain ⟨fuel, rfl⟩ : ∃ k, fuel = k + 1 := ⟨fuel - 1, by omega⟩
  have htext : g₁ ++ t ++ g₂ ++ [','] ++ ts ++ rest = g₁ ++ (t ++ (g₂ ++ ',' :: (ts ++ rest))) := by simp
  have hstops : Stops (g₂ ++ ',' :: (ts ++ rest)) := stops_append hg₂ (stops_cons (by decide) _)
  obtain ⟨hitems, hentries⟩ := hms hclose n fuel rest (by omega)
  rw [htext]
  refine ⟨?_, ?_⟩
  · rintro ds - hds
    obtain ⟨d, ds, rfl, rfl, htail⟩ := List.map_eq_cons_iff.mp hds.symm
    have hrest := hitems ds (by rintro rfl; exact hne htail.symm) htail.symm
    rw [readMembers_more hg₂ fuel ((readValue_append hg₁ n _).trans (h n _ hstops)), hrest, Document.itemValues]
    cases d.value n with
    | error => rfl
    | ok v => cases Document.itemValues n ds <;> rfl
  · rintro es - hes
    obtain ⟨⟨body, d⟩, es, rfl, rfl, htail⟩ := List.map_eq_cons_iff.mp hes.symm
    have hrest := hentries es (by rintro rfl; exact hne htail.symm) htail.symm
    rw [readMembers_more hg₂ fuel (h n g₁ _ hg₁ hstops), hrest, entryValue, Document.entryValues]
    cases keyOf body with
    | error => rfl
    | ok key =>
      cases d.value n with
      | error => rfl
      | ok v => cases Document.entryValues n es <;> rfl

theorem Written.takes {part : Part} {t : List Char} (h : Written Blanks false part t) : Takes part t := by
  induction h with
  | scalar hl => exact takes_scalar hl
  | array h ih => exact takes_array h ih
  | object h ih => exact takes_object h ih
  | item _ ih => exact ih
  | entry hbody hg₁ hg₂ _ ih => exact takes_entry hbody hg₁ hg₂ ih
  | none =>
    intro _ n fuel rest _
    refine ⟨fun ds hne hds => ?_, fun es hne hes => ?_⟩
    · exact absurd (List.map_eq_nil_iff.mp hds.symm) hne
    · exact absurd (List.map_eq_nil_iff.mp hes.symm) hne
  | last hg₁ _ hg₂ ih => exact takes_last hg₁ hg₂ ih
  | spare hspare => exact nomatch hspare
  | more hg₁ _ hg₂ hne _ ih ihs => exact takes_more hg₁ hg₂ hne ih ihs
  | text => exact trivial

/-- **What a strict text says is told by its document.** -/
theorem parse_of_isStrict {d : Document} {text : String} (h : IsStrict d text) : parse text = d.value maxDepth := by
  obtain ⟨g₁, u, g₂, htext, hg₁, hd, hg₂⟩ :
      ∃ g₁ u g₂, text.toList = g₁ ++ u ++ g₂ ∧ Blanks g₁ ∧ Written Blanks false (.value d) u ∧ Blanks g₂ := by
    unfold IsStrict at h
    generalize text.toList = t at h
    cases h with
    | text hg₁ hd hg₂ => exact ⟨_, _, _, rfl, hg₁, hd, hg₂⟩
  have hend : skipBlanks g₂ = [] := by
    rw [← List.append_nil g₂, skipBlanks_append hg₂]
    rfl
  have hnothing : Stops [] := fun _ hc => nomatch hc
  have hstops : Stops g₂ := by simpa using stops_append hg₂ hnothing
  rw [parse, htext, List.append_assoc, readValue_append hg₁, hd.takes maxDepth g₂ hstops]
  cases d.value maxDepth with
  | error => rfl
  | ok v => simp [Except.map, bind, Except.bind, hend]

end Recheck.Json
