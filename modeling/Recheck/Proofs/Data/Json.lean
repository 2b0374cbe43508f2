import Recheck.Data.Json.Read
import Mathlib.Data.List.Basic

/-!
# Written values are read back

`Json.chars` writes a value on one line, and the reader takes it off the front of a text again, whatever follows
(`readValue_chars`). Two things have to be asked of the value. Other numbers than whole ones are kept as they were
written, so such a text need not be a number at all; and the reader counts how deep it is. `Json.Plain` says both, and
leaves open which whole numbers may occur: all of them when it is only asked which characters are written
(`printable_chars`), those of 64 bits when the value is to be read back.

Only a number has no end of its own. `Stops` says of the text behind a value that it does not go on with one.
-/

set_option autoImplicit false

namespace Recheck

theorem exists_of_bind_eq_ok {ε α β : Type} {x : Except ε α} {f : α → Except ε β} {b : β} (h : x >>= f = .ok b) :
    ∃ a, x = .ok a ∧ f a = .ok b := by
  cases x with
  | error e => exact nomatch h
  | ok a => exact ⟨a, rfl, h⟩

namespace Json

/-- A value with no other numbers than whole ones of some kind, nested to at most some depth. -/
inductive Plain (ok : Nat → Prop) : Nat → Json → Prop where
  | null (depth : Nat) : Plain ok depth null
  | bool (depth : Nat) (b : Bool) : Plain ok depth (bool b)
  | natural (depth : Nat) {n : Nat} (h : ok n) : Plain ok depth (natural n)
  | string (depth : Nat) (s : String) : Plain ok depth (string s)
  | array {depth : Nat} {items : List Json} (h : ∀ j ∈ items, Plain ok depth j) : Plain ok (depth + 1) (array items)
  | object {depth : Nat} {entries : List (String × Json)} (h : ∀ e ∈ entries, Plain ok depth e.2) :
      Plain ok (depth + 1) (object entries)

/-- No control character is among the characters, so in particular no line ends. -/
def Printable (cs : List Char) : Prop := ∀ c ∈ cs, 32 ≤ c.toNat

theorem Printable.append {as bs : List Char} (ha : Printable as) (hb : Printable bs) : Printable (as ++ bs) :=
  fun c hc => (List.mem_append.mp hc).elim (ha c) (hb c)

theorem Printable.cons {c : Char} {cs : List Char} (hc : 32 ≤ c.toNat) (hcs : Printable cs) : Printable (c :: cs) :=
  fun d hd => (List.mem_cons.mp hd).elim (fun h => h ▸ hc) (hcs d)

theorem Printable.nil : Printable [] := fun _ hc => nomatch hc

theorem Printable.of_all {cs : List Char} (h : cs.all (fun c => 32 ≤ c.toNat) = true) : Printable cs :=
  fun c hc => of_decide_eq_true (List.all_eq_true.mp h c hc)

/-! ## Strings -/

theorem hexDigit_spec : ∀ d < 16,
    hexValue? (hexDigit d) = some d ∧ (hexDigit d).utf8Size = 1 ∧ 32 ≤ (hexDigit d).toNat := by
  decide

/-- The escape of a control character by its number. -/
theorem readEscape_control {c : Char} (hc : c.toNat < 32) (rest : List Char) :
    readEscape (['u', '0', '0', hexDigit (c.toNat / 16), hexDigit (c.toNat % 16)] ++ rest) = .ok (c, rest) := by
  obtain ⟨hhigh, hhighSize, -⟩ := hexDigit_spec (c.toNat / 16) (by omega)
  obtain ⟨hlow, hlowSize, -⟩ := hexDigit_spec (c.toNat % 16) (by omega)
  have hsize : Chars.byteLength ['0', '0', hexDigit (c.toNat / 16), hexDigit (c.toNat % 16)] = 4 := by
    simp only [Chars.byteLength_cons, Chars.byteLength_nil, hhighSize, hlowSize]
    decide
  have hdigits : ['0', '0', hexDigit (c.toNat / 16), hexDigit (c.toNat % 16)].mapM hexValue? =
      some [0, 0, c.toNat / 16, c.toNat % 16] := by
    have hzero : hexValue? '0' = some 0 := by decide
    simp [List.mapM_cons, hhigh, hlow, hzero]
  have hvalue : [0, 0, c.toNat / 16, c.toNat % 16].foldl (fun n d => 16 * n + d) 0 = c.toNat := by
    simp only [List.foldl_cons, List.foldl_nil]
    omega
  have hread : readHex ('0' :: '0' :: hexDigit (c.toNat / 16) :: hexDigit (c.toNat % 16) :: rest) =
      .ok (c.toNat, rest) := by
    unfold readHex
    simp only [List.take_succ_cons, List.take_zero, List.drop_succ_cons, List.drop_zero, hsize, hdigits, hvalue]
    rfl
  have hunicode : readUnicode ('0' :: '0' :: hexDigit (c.toNat / 16) :: hexDigit (c.toNat % 16) :: rest) =
      .ok (c, rest) := by
    unfold readUnicode
    rw [hread]
    have hhalf : ¬0xD800 ≤ c.toNat := by omega
    have hhalf' : ¬0xDC00 ≤ c.toNat := by omega
    simp [bind, Except.bind, hhalf, hhalf', Char.ofNat_toNat]
  exact hunicode

/-- A character is written as it is, or as a backslash and an escape that reads as the character. -/
theorem escapeChar_cases (c : Char) :
    (escapeChar c = [c] ∧ c ≠ '"' ∧ c ≠ '\\' ∧ 32 ≤ c.toNat) ∨
      ∃ escape, escapeChar c = '\\' :: escape ∧ Printable escape ∧
        ∀ rest, readEscape (escape ++ rest) = .ok (c, rest) := by
  unfold escapeChar
  split
  · subst c; exact .inr ⟨_, rfl, .cons (by decide) .nil, fun _ => rfl⟩
  split
  · subst c; exact .inr ⟨_, rfl, .cons (by decide) .nil, fun _ => rfl⟩
  split
  · subst c; exact .inr ⟨_, rfl, .cons (by decide) .nil, fun _ => rfl⟩
  split
  · subst c; exact .inr ⟨_, rfl, .cons (by decide) .nil, fun _ => rfl⟩
  split
  · subst c; exact .inr ⟨_, rfl, .cons (by decide) .nil, fun _ => rfl⟩
  split
  · rename_i h
    obtain rfl : Char.ofNat 8 = c := h ▸ Char.ofNat_toNat c
    exact .inr ⟨_, rfl, .cons (by decide) .nil, fun _ => rfl⟩
  split
  · rename_i h
    obtain rfl : Char.ofNat 12 = c := h ▸ Char.ofNat_toNat c
    exact .inr ⟨_, rfl, .cons (by decide) .nil, fun _ => rfl⟩
  split
  · rename_i h
    obtain ⟨-, -, hhigh⟩ := hexDigit_spec (c.toNat / 16) (by omega)
    obtain ⟨-, -, hlow⟩ := hexDigit_spec (c.toNat % 16) (by omega)
    exact .inr ⟨_, rfl, .cons (by decide) (.cons (by decide) (.cons (by decide) (.cons hhigh (.cons hlow .nil)))),
      readEscape_control h⟩
  · rename_i hquote hbackslash _ _ _ _ _ hcontrol
    exact .inl ⟨rfl, hquote, hbackslash, Nat.le_of_not_lt hcontrol⟩

theorem printable_quote (s : String) : Printable (quote s) := by
  refine .cons (by decide) (.append (fun d hd => ?_) (.cons (by decide) .nil))
  obtain ⟨c, -, hdc⟩ := List.mem_flatMap.mp hd
  rcases escapeChar_cases c with ⟨he, -, -, hc⟩ | ⟨escape, he, hprintable, -⟩
  · rw [he, List.mem_singleton] at hdc
    exact hdc ▸ hc
  · rw [he] at hdc
    exact hprintable.cons (by decide) d hdc

/-- One character of a string costs one step, however it is written. -/
theorem readChars_escapeChar (n : Nat) (c : Char) (rest : List Char) :
    readChars (n + 1) (escapeChar c ++ rest) = (readChars n rest).map fun (more, rest) => (c :: more, rest) := by
  rcases escapeChar_cases c with ⟨he, hquote, hbackslash, hc⟩ | ⟨escape, he, -, hread⟩
  · have hcontrol : ¬c.toNat < 32 := by omega
    rw [he, List.singleton_append, readChars]
    simp only [hquote, hbackslash, hcontrol, if_false]
    cases readChars n rest <;> rfl
  · rw [he, List.cons_append, readChars]
    simp only [show ('\\' : Char) ≠ '"' by decide, if_false, if_true, hread]
    show (readChars n rest >>= fun read => _) = _
    cases readChars n rest <;> rfl

theorem readChars_escaped (cs rest : List Char) {n : Nat} (hn : cs.length < n) :
    readChars n (cs.flatMap escapeChar ++ '"' :: rest) = .ok (cs, rest) := by
  induction cs generalizing n with
  | nil =>
    obtain ⟨n, rfl⟩ := Nat.exists_eq_add_of_lt hn
    simp [readChars]
  | cons c cs ih =>
    obtain ⟨n, rfl⟩ : ∃ k, n = k + 1 := ⟨n - 1, by simp at hn; omega⟩
    rw [List.flatMap_cons, List.append_assoc, readChars_escapeChar, ih (by simpa using hn)]
    rfl

theorem length_le_escaped (cs : List Char) : cs.length ≤ (cs.flatMap escapeChar).length := by
  induction cs with
  | nil => exact Nat.zero_le _
  | cons c cs ih =>
    rw [List.flatMap_cons, List.length_append, List.length_cons]
    rcases escapeChar_cases c with ⟨he, -⟩ | ⟨escape, he, -⟩ <;> simp only [he, List.length_cons] <;> omega

/-- A string is read back behind its opening quote. -/
theorem readString_escaped (s : String) (rest : List Char) :
    readString (s.toList.flatMap escapeChar ++ '"' :: rest) = .ok (s, rest) := by
  have hlong := length_le_escaped s.toList
  unfold readString
  rw [readChars_escaped s.toList rest (by rw [List.length_append, List.length_cons]; omega)]
  simp [bind, Except.bind, String.ofList_toList]

/-! ## Numbers -/

/-- The text does not go on with a number. -/
def Stops (rest : List Char) : Prop :=
  ∀ c ∈ rest.head?, c.isDigit = false ∧ c ≠ '.' ∧ c ≠ 'e' ∧ c ≠ 'E'

theorem stops_cons {c : Char} (h : c.isDigit = false ∧ c ≠ '.' ∧ c ≠ 'e' ∧ c ≠ 'E') (rest : List Char) :
    Stops (c :: rest) := fun d hd => by
  obtain rfl := Option.some.inj (Option.mem_def.mp hd)
  exact h

theorem takeWhile_isDigit {digits rest : List Char} (hdigits : ∀ c ∈ digits, c.isDigit = true) (hrest : Stops rest) :
    (digits ++ rest).takeWhile Char.isDigit = digits ∧ (digits ++ rest).dropWhile Char.isDigit = rest := by
  rw [List.takeWhile_append_of_pos hdigits, List.dropWhile_append_of_pos hdigits]
  cases rest with
  | nil => exact ⟨List.append_nil _, rfl⟩
  | cons c rest =>
    have hc := (hrest c rfl).1
    simp [hc]

theorem isDigit_toDigits (n : Nat) : ∀ c ∈ Nat.toDigits 10 n, c.isDigit = true :=
  fun _ hc => Nat.isDigit_of_mem_toDigits (by decide) (by decide) hc

/-- Only zero is written with a zero in front. -/
theorem length_toDigits_of_zero (n : Nat) (h : (Nat.toDigits 10 n).head? = some '0') :
    (Nat.toDigits 10 n).length = 1 := by
  induction n using Nat.strongRecOn with
  | ind n ih =>
    by_cases hn : n < 10
    · rw [Nat.toDigits_of_lt_base hn]
      rfl
    · rw [Nat.toDigits_of_base_le (by decide) (by omega),
        List.head?_append_of_ne_nil _ Nat.toDigits_ne_nil] at h
      -- the digits before the last one are those of a number that is not zero, but they begin with a zero
      have hone : n / 10 < 10 := by
        simpa using (Nat.length_toDigits_le_iff (b := 10) (k := 1) (by decide) (by decide)).mp
          (Nat.le_of_eq (ih (n / 10) (by omega) h))
      rw [Nat.toDigits_of_lt_base hone] at h
      have hzero : ∀ d < 10, 0 < d → Nat.digitChar d ≠ '0' := by decide
      exact absurd (Option.some.inj h) (hzero _ hone (by omega))

theorem digitsValue_toDigits (n : Nat) : digitsValue (Nat.toDigits 10 n) = n := Nat.ofDigitChars_ten_toDigits

/-- A whole number of 64 bits has at most 20 digits. -/
theorem length_toDigits_le {n : Nat} (h : n ≤ maxUInt64) : (Nat.toDigits 10 n).length ≤ 20 :=
  (Nat.length_toDigits_le_iff (by decide) (by decide)).mpr (Nat.lt_of_le_of_lt h (by decide))

theorem not_isTooLarge {digits : List Char} (h : digits.length ≤ 20) : isTooLarge digits 0 = false := by
  have hshort : (digits.dropWhile (· = '0')).length ≤ 20 := Nat.le_trans (List.dropWhile_sublist _).length_le h
  unfold isTooLarge
  simp only
  split
  · rfl
  · rw [if_pos (by omega)]

theorem readFraction_of_stops {rest : List Char} (h : Stops rest) : readFraction rest = .ok (none, rest) := by
  unfold readFraction
  split
  · exact absurd rfl (h '.' rfl).2.1
  · rfl

theorem readExponent_of_stops {rest : List Char} (h : Stops rest) : readExponent rest = .ok (none, rest) := by
  cases rest with
  | nil => rfl
  | cons c rest =>
    obtain ⟨-, -, he, hE⟩ := h c rfl
    simp [readExponent, he, hE]

theorem readWhole_toDigits (n : Nat) {rest : List Char} (hrest : Stops rest) :
    readWhole (Nat.toDigits 10 n ++ rest) = .ok (Nat.toDigits 10 n, rest) := by
  obtain ⟨htake, hdrop⟩ := takeWhile_isDigit (isDigit_toDigits n) hrest
  have hdigits : readDigits (Nat.toDigits 10 n ++ rest) = .ok (Nat.toDigits 10 n, rest) := by
    simp [readDigits, htake, hdrop, Nat.toDigits_ne_nil]
  have hzero : ¬((Nat.toDigits 10 n).head? = some '0' ∧ (Nat.toDigits 10 n).length ≠ 1) :=
    fun h => h.2 (length_toDigits_of_zero n h.1)
  unfold readWhole
  rw [hdigits]
  simp only [bind, Except.bind, decide_eq_true_eq, Bool.and_eq_true, if_neg hzero]

theorem head?_toDigits (n : Nat) : ∃ c, (Nat.toDigits 10 n).head? = some c ∧ c.isDigit = true := by
  obtain ⟨c, cs, h⟩ := List.exists_cons_of_ne_nil (Nat.toDigits_ne_nil (n := n) (b := 10))
  exact ⟨c, by rw [h]; rfl, isDigit_toDigits n c (h ▸ List.mem_cons_self)⟩

theorem readNumber_toDigits {n : Nat} (hn : n ≤ maxUInt64) {rest : List Char} (hrest : Stops rest) :
    readNumber (Nat.toDigits 10 n ++ rest) = .ok (natural n, rest) := by
  obtain ⟨c, hc, hdigit⟩ := head?_toDigits n
  have hsign : (Nat.toDigits 10 n).head? ≠ some '-' := by
    rw [hc]
    rintro ⟨⟩
    exact absurd hdigit (by decide)
  unfold readNumber
  simp [hsign, readWhole_toDigits n hrest, readFraction_of_stops hrest, readExponent_of_stops hrest,
    not_isTooLarge (length_toDigits_le hn), digitsValue_toDigits, hn, bind, Except.bind]

/-! ## Values -/

theorem skipBlanks_cons {c : Char} (h : isBlank c = false) (cs : List Char) : skipBlanks (c :: cs) = c :: cs := by
  simp [skipBlanks, h]

/-- A value begins with a character that is neither blank nor the end of an array. -/
theorem Plain.begins {ok : Nat → Prop} {depth : Nat} {j : Json} (h : Plain ok depth j) :
    ∃ c cs, j.chars = c :: cs ∧ isBlank c = false ∧ c ≠ ']' := by
  cases h with
  | null => exact ⟨_, _, rfl, by decide⟩
  | bool _ b => cases b <;> exact ⟨_, _, rfl, by decide⟩
  | @natural _ n =>
    obtain ⟨c, hc, hdigit⟩ := head?_toDigits n
    obtain ⟨cs, hcs⟩ := List.head?_eq_some_iff.mp hc
    refine ⟨c, cs, hcs, ?_⟩
    simp only [isBlank, Bool.or_eq_false_iff, decide_eq_false_iff_not]
    refine ⟨⟨⟨⟨?_, ?_⟩, ?_⟩, ?_⟩, ?_⟩ <;> (rintro rfl; exact absurd hdigit (by decide))
  | string => exact ⟨_, _, rfl, by decide⟩
  | array => exact ⟨_, _, by rw [chars], by decide⟩
  | object => exact ⟨_, _, by rw [chars], by decide⟩

/-- The reader takes the value off the front of every text that stops behind it. -/
def Reads (value : Reader Json) (j : Json) : Prop :=
  ∀ rest, Stops rest → value (j.chars ++ rest) = .ok (j, rest)

/-- What begins with neither bracket nor brace is read in the same way at every depth. -/
theorem readValue_cons {c : Char} (hblank : isBlank c = false) (hbracket : c ≠ '[') (hbrace : c ≠ '\x7b')
    (depth : Nat) (cs : List Char) : readValue depth (c :: cs) = readScalar (c :: cs) := by
  cases depth with
  | zero => rw [readValue, skipBlanks_cons hblank]
  | succ depth =>
    rw [readValue, skipBlanks_cons hblank]
    split
    · rename_i heq; exact absurd (List.cons.inj heq).1 hbracket
    · rename_i heq; exact absurd (List.cons.inj heq).1 hbrace
    · rfl

theorem readValue_natural {n : Nat} (hn : n ≤ maxUInt64) (depth : Nat) : Reads (readValue depth) (natural n) := by
  intro rest hrest
  obtain ⟨c, hc, hdigit⟩ := head?_toDigits n
  obtain ⟨cs, hcs⟩ := List.head?_eq_some_iff.mp hc
  have hne : ∀ d, d.isDigit = false → c ≠ d := fun d hd h => by rw [h, hd] at hdigit; cases hdigit
  have hblank : isBlank c = false := by
    simp [isBlank, hne ' ' rfl, hne '\n' rfl, hne '\t' rfl, hne '\r' rfl]
  have hnumber := readNumber_toDigits hn hrest
  rw [chars, hcs, List.cons_append, readValue_cons hblank (hne '[' rfl) (hne '\x7b' rfl), readScalar,
    if_neg (hne '"' rfl), if_pos (by simp [hdigit]), ← List.cons_append, ← hcs, hnumber]

theorem readValue_string (s : String) (depth : Nat) : Reads (readValue depth) (string s) := by
  intro rest _
  rw [chars, quote, List.append_assoc, List.cons_append]
  rw [readValue_cons (by decide) (by decide) (by decide), readScalar, if_pos rfl, List.singleton_append,
    readString_escaped]
  rfl

theorem readItems_itemChars {value : Reader Json} {items : List Json} (h : ∀ j ∈ items, Reads value j)
    (hne : items ≠ []) {n : Nat} (hn : items.length ≤ n) (rest : List Char) :
    readItems value n (itemChars items ++ rest) = .ok (items, rest) := by
  induction items generalizing n with
  | nil => exact absurd rfl hne
  | cons j items ih =>
    obtain ⟨n, rfl⟩ : ∃ k, n = k + 1 := ⟨n - 1, by simp at hn; omega⟩
    have hj := h j List.mem_cons_self
    cases items with
    | nil =>
      have hchars : itemChars [j] ++ rest = j.chars ++ ']' :: rest := by simp [itemChars]
      rw [hchars, readItems, hj _ (stops_cons (by decide) _)]
      rfl
    | cons k items =>
      have hchars : itemChars (j :: k :: items) ++ rest = j.chars ++ ',' :: (itemChars (k :: items) ++ rest) := by
        simp [itemChars]
      have hmore := ih (fun j hj => h j (List.mem_cons_of_mem _ hj)) (List.cons_ne_nil _ _)
        (n := n) (by simpa using hn)
      rw [hchars, readItems, hj _ (stops_cons (by decide) _)]
      show (readItems value n (itemChars (k :: items) ++ rest) >>= fun read => _) = _
      rw [hmore]
      rfl

theorem readKey_quote (key : String) (rest : List Char) :
    readKey (quote key ++ ':' :: rest) = .ok (key, rest) := by
  have hchars : quote key ++ ':' :: rest = '"' :: (key.toList.flatMap escapeChar ++ '"' :: ':' :: rest) := by
    simp [quote]
  rw [hchars, readKey, skipBlanks_cons (by decide)]
  show (readString _ >>= fun read => _) = _
  rw [readString_escaped]
  rfl

theorem readEntries_entryChars {value : Reader Json} {entries : List (String × Json)}
    (h : ∀ e ∈ entries, Reads value e.2) (hne : entries ≠ []) {n : Nat} (hn : entries.length ≤ n)
    (rest : List Char) : readEntries value n (entryChars entries ++ rest) = .ok (entries, rest) := by
  induction entries generalizing n with
  | nil => exact absurd rfl hne
  | cons e entries ih =>
    obtain ⟨n, rfl⟩ : ∃ k, n = k + 1 := ⟨n - 1, by simp at hn; omega⟩
    obtain ⟨key, j⟩ := e
    have hj : Reads value j := h (key, j) List.mem_cons_self
    cases entries with
    | nil =>
      have hchars : entryChars [(key, j)] ++ rest = quote key ++ ':' :: (j.chars ++ '\x7d' :: rest) := by
        simp [entryChars]
      rw [hchars, readEntries, readKey_quote]
      show (value (j.chars ++ _) >>= fun read => _) = _
      rw [hj _ (stops_cons (by decide) _)]
      rfl
    | cons e entries =>
      have hchars : entryChars ((key, j) :: e :: entries) ++ rest =
          quote key ++ ':' :: (j.chars ++ ',' :: (entryChars (e :: entries) ++ rest)) := by
        simp [entryChars]
      have hmore := ih (fun e he => h e (List.mem_cons_of_mem _ he)) (List.cons_ne_nil _ _)
        (n := n) (by simpa using hn)
      rw [hchars, readEntries, readKey_quote]
      show (value (j.chars ++ _) >>= fun read => _) = _
      rw [hj _ (stops_cons (by decide) _)]
      show (readEntries value n (entryChars (e :: entries) ++ rest) >>= fun read => _) = _
      rw [hmore]
      rfl

theorem length_le_itemChars (items : List Json) : items.length ≤ (itemChars items).length := by
  induction items with
  | nil => exact Nat.zero_le _
  | cons j items ih =>
    cases items with
    | nil => simp [itemChars]
    | cons k items =>
      simp only [itemChars, List.length_append, List.length_cons] at ih ⊢
      omega

theorem length_le_entryChars (entries : List (String × Json)) : entries.length ≤ (entryChars entries).length := by
  induction entries with
  | nil => exact Nat.zero_le _
  | cons e entries ih =>
    cases entries with
    | nil =>
      simp only [entryChars, List.length_append, List.length_cons, List.length_nil]
      omega
    | cons e entries =>
      simp only [entryChars, List.length_append, List.length_cons] at ih ⊢
      omega

theorem readArray_itemChars {ok : Nat → Prop} {depth : Nat} {value : Reader Json} {items : List Json}
    (h : ∀ j ∈ items, Reads value j) (hplain : ∀ j ∈ items, Plain ok depth j) (rest : List Char) :
    readArray value (itemChars items ++ rest) = .ok (array items, rest) := by
  cases items with
  | nil => rw [itemChars, List.singleton_append, readArray, skipBlanks_cons (by decide)]; rfl
  | cons j items =>
    have hlength := length_le_itemChars (j :: items)
    have hread := readItems_itemChars h (List.cons_ne_nil _ _)
      (n := (itemChars (j :: items) ++ rest).length + 1) (by rw [List.length_append]; omega) rest
    obtain ⟨c, cs, hj, hblank, hbracket⟩ := (hplain j List.mem_cons_self).begins
    obtain ⟨more, hchars⟩ : ∃ more, itemChars (j :: items) ++ rest = c :: more := by
      cases items <;> simp [itemChars, hj]
    rw [hchars] at hread ⊢
    rw [readArray, skipBlanks_cons hblank]
    split
    · rename_i heq; exact absurd (List.cons.inj heq).1 hbracket
    · rw [hread]
      rfl

theorem readObject_entryChars {value : Reader Json} {entries : List (String × Json)}
    (h : ∀ e ∈ entries, Reads value e.2) (rest : List Char) :
    readObject value (entryChars entries ++ rest) = .ok (object entries, rest) := by
  cases entries with
  | nil => rw [entryChars, List.singleton_append, readObject, skipBlanks_cons (by decide)]; rfl
  | cons e entries =>
    have hlength := length_le_entryChars (e :: entries)
    have hread := readEntries_entryChars h (List.cons_ne_nil _ _)
      (n := (entryChars (e :: entries) ++ rest).length + 1) (by rw [List.length_append]; omega) rest
    obtain ⟨more, hchars⟩ : ∃ more, entryChars (e :: entries) ++ rest = '"' :: more := by
      cases entries <;> simp [entryChars, quote]
    rw [hchars] at hread ⊢
    rw [readObject, skipBlanks_cons (by decide)]
    show (readEntries value _ _ >>= fun read => _) = _
    rw [hread]
    rfl

/-- A plain value is read back wherever its text does not go on with a number. -/
theorem readValue_chars {depth : Nat} {j : Json} (h : Plain (· ≤ maxUInt64) depth j) :
    Reads (readValue depth) j := by
  induction h with
  | null =>
    intro rest _
    show readValue _ ('n' :: _) = _
    rw [readValue_cons (by decide) (by decide) (by decide)]
    rfl
  | bool _ b =>
    intro rest _
    cases b
    · show readValue _ ('f' :: _) = _
      rw [readValue_cons (by decide) (by decide) (by decide)]
      rfl
    · show readValue _ ('t' :: _) = _
      rw [readValue_cons (by decide) (by decide) (by decide)]
      rfl
  | natural depth hn => exact readValue_natural hn depth
  | string depth s => exact readValue_string s depth
  | array hitems ih =>
    intro rest _
    rw [chars, List.cons_append, readValue, skipBlanks_cons (by decide)]
    exact readArray_itemChars ih hitems rest
  | object _ ih =>
    intro rest _
    rw [chars, List.cons_append, readValue, skipBlanks_cons (by decide)]
    exact readObject_entryChars ih rest

/-- A value that is not nested too deep is what its own text says. -/
theorem parse_render {j : Json} (h : Plain (· ≤ maxUInt64) maxDepth j) : parse j.render = .ok j := by
  have hread := readValue_chars h [] (fun _ hc => nomatch hc)
  rw [List.append_nil] at hread
  rw [parse, render, String.toList_ofList, hread]
  rfl

/-! ## What is written -/

theorem printable_itemChars {items : List Json} (h : ∀ j ∈ items, Printable j.chars) : Printable (itemChars items) := by
  induction items with
  | nil => exact .cons (by decide) .nil
  | cons j items ih =>
    have hj := h j List.mem_cons_self
    cases items with
    | nil => exact hj.append (.cons (by decide) .nil)
    | cons k items =>
      rw [itemChars]
      · exact hj.append (.cons (by decide) (ih fun j hj => h j (List.mem_cons_of_mem _ hj)))
      · exact List.cons_ne_nil _ _

theorem printable_entryChars {entries : List (String × Json)} (h : ∀ e ∈ entries, Printable e.2.chars) :
    Printable (entryChars entries) := by
  induction entries with
  | nil => exact .cons (by decide) .nil
  | cons e entries ih =>
    obtain ⟨key, j⟩ := e
    have hj := h (key, j) List.mem_cons_self
    have hentry : Printable (quote key ++ ':' :: j.chars) := (printable_quote key).append (.cons (by decide) hj)
    cases entries with
    | nil => exact hentry.append (.cons (by decide) .nil)
    | cons e entries =>
      rw [entryChars]
      · exact hentry.append (.cons (by decide) (ih fun e he => h e (List.mem_cons_of_mem _ he)))
      · exact List.cons_ne_nil _ _

/-- A plain value stands on one line. -/
theorem printable_chars {ok : Nat → Prop} {depth : Nat} {j : Json} (h : Plain ok depth j) : Printable j.chars := by
  induction h with
  | null => exact .of_all (by decide)
  | bool _ b => cases b <;> exact .of_all (by decide)
  | @natural _ n =>
    intro c hc
    have := isDigit_toDigits n c hc
    simp only [Char.isDigit, Bool.and_eq_true, decide_eq_true_eq] at this
    exact Nat.le_trans (by decide) this.1
  | string _ s => exact printable_quote s
  | array _ ih => exact .cons (by decide) (printable_itemChars ih)
  | object _ ih => exact .cons (by decide) (printable_entryChars ih)

end Json

end Recheck
