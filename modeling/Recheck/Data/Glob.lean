/-!
# Glob patterns

A pattern describes paths with `?` (one byte of a segment), `*` (any part of a segment), `**` between
slashes (any number of directories), `[a-z]` and `[!a-z]` (one byte in or outside a set) and `{a,b}`
(either of two patterns). A backslash takes the meaning from the character behind it.

A pattern is read into tokens. A list of tokens stands for finitely many `Line`s, runs of atoms without
choice, and a path matches when one of them covers it from end to end. Matching counts bytes, so `?`
covers a part of a character that takes several.
-/

set_option autoImplicit false

namespace Recheck.Glob

/-- A set of bytes: those in one of the ranges, or all others. -/
structure ByteSet where
  negated : Bool
  ranges : List (UInt8 × UInt8)
deriving DecidableEq, Repr

namespace ByteSet

def contains (s : ByteSet) (b : UInt8) : Bool :=
  s.ranges.any (fun (lo, hi) => lo ≤ b && b ≤ hi) != s.negated

def all : ByteSet := ⟨true, []⟩

def only (b : UInt8) : ByteSet := ⟨false, [(b, b)]⟩

/-- The byte of `/`. -/
def slash : UInt8 := 47

/-- All bytes that do not end a segment. -/
def notSlash : ByteSet := ⟨true, [(slash, slash)]⟩

end ByteSet

/-- What a pattern is made of. -/
inductive Token where
  | literal (c : Char)
  /-- `?` -/
  | any
  /-- `*` -/
  | zeroOrMore
  /-- `**/` in front, or `**` alone: no directory or any number of them. -/
  | directoriesBefore
  /-- `/**` at the end: everything below. -/
  | everythingBelow
  /-- `/**/` in between: a slash or any number of directories between slashes. -/
  | directoriesBetween
  /-- `[…]`, with ranges of characters. -/
  | set (negated : Bool) (ranges : List (Char × Char))
  /-- `{…}` -/
  | choice (branches : List (List Token))
deriving Repr, Inhabited

/-! ## Reading -/

/-- What stands around the place where a pattern is being read: for each open brace, the tokens in front
of it and its finished branches, both last first. -/
abbrev Open := List (List Token × List (List Token))

/-- The ranges of a set whose latest range is `lo` to `hi`. A `-` with a character behind it moves the end
of the latest range. The answer is `none` for a range that ends before it begins. -/
def rangesFrom (lo hi : Char) : List Char → Option (List (Char × Char))
  | [] => some [(lo, hi)]
  | '-' :: [] => some [(lo, hi), ('-', '-')]
  | '-' :: c :: rest => if c < lo then none else rangesFrom lo c rest
  | c :: rest => (rangesFrom c c rest).map ((lo, hi) :: ·)

/-- Reads a set behind its opening bracket: whether it is negated, its ranges, and what follows the
closing bracket. The first character is a member even if it is `]` or `-`. -/
def readSet (cs : List Char) : Option (Bool × List (Char × Char) × List Char) :=
  let negated := cs.head? = some '!' || cs.head? = some '^'
  match if negated then cs.tail else cs with
  | [] => none
  | first :: rest =>
    match rest.dropWhile (· ≠ ']') with
    | _ :: after =>
      (rangesFrom first first (rest.takeWhile (· ≠ ']'))).map fun ranges => (negated, ranges, after)
    | [] => none

/-- How a `**` is read. -/
inductive Stars where
  /-- Like two `*`. -/
  | plain
  /-- Any directories, at the start. The separator behind is part of it. -/
  | before
  /-- Everything below; it takes the separator in front. -/
  | below
  /-- Any directories between separators; it takes both. -/
  | between
deriving DecidableEq, Repr

/-- What a `**` stands for, by the character in front of it, the tokens in front of it in its branch, and
the character behind it. -/
def starsKind (prev : Option Char) (branch : List Token) (inBraces : Bool) (next : Option Char) : Stars :=
  if branch.isEmpty then
    if next = none || next = some '/' then .before else .plain
  else if prev = some '/' || (inBraces && (prev = some ',' || prev = some '{')) then
    match next with
    | none => .below
    | some '/' => .between
    | some c => if inBraces && (c = ',' || c = '}') then .below else .plain
  else .plain

/-- The tokens of a branch, last first, with a `**` of this kind behind them. -/
def pushStars (kind : Stars) (branch : List Token) : List Token :=
  match kind with
  | .plain => .zeroOrMore :: .zeroOrMore :: branch
  | .before => .directoriesBefore :: branch
  | .below =>
    match branch with
    | .directoriesBefore :: _ => branch
    | .everythingBelow :: _ => branch
    | _ :: rest => .everythingBelow :: rest
    | [] => [.everythingBelow]
  | .between =>
    match branch with
    | .directoriesBefore :: _ => branch
    | .everythingBelow :: _ => branch
    | _ :: rest => .directoriesBetween :: rest
    | [] => [.directoriesBetween]

/-- What follows a `**` that is part of a run of directories begins behind the separator. -/
def afterStars (kind : Stars) (rest : List Char) : List Char :=
  match kind with
  | .before | .between => rest.tail
  | .plain | .below => rest

theorem length_afterStars (kind : Stars) (rest : List Char) :
    (afterStars kind rest).length ≤ rest.length := by
  cases kind <;> simp [afterStars]

theorem length_readSet {cs rest : List Char} {negated : Bool} {ranges : List (Char × Char)}
    (h : readSet cs = some (negated, ranges, rest)) : rest.length < cs.length := by
  unfold readSet at h
  simp only at h
  split at h
  · simp at h
  · rename_i first tail heq
    split at h
    · rename_i c after hdrop
      simp only [Option.map_eq_some_iff, Prod.mk.injEq] at h
      obtain ⟨_, _, _, _, rfl⟩ := h
      have hle := (List.dropWhile_suffix (fun x => decide (x ≠ ']')) (l := tail)).length_le
      rw [hdrop] at hle
      have hcs : (first :: tail).length ≤ cs.length := by
        rw [← heq]
        split <;> simp
      simp only [List.length_cons] at hle hcs
      omega
    · simp at h

/-- Reads the rest of a pattern. `prev` is the character in front, `branch` the tokens of the current
branch, last first. Brackets and braces that do not match, a range that ends before it begins and a
backslash at the end are refused. -/
def read (prev : Option Char) (branch : List Token) (around : Open) (cs : List Char) :
    Option (List Token) :=
  match cs with
  | [] => if around.isEmpty then some branch.reverse else none
  | c :: rest =>
    if c = '?' then read (some c) (.any :: branch) around rest
    else if c = '*' then
      if rest.head? = some '*' then
        let kind := starsKind prev branch (!around.isEmpty) rest.tail.head?
        let last := if kind = .before || kind = .between then '/' else '*'
        have := length_afterStars (starsKind prev branch (!around.isEmpty) rest.tail.head?) rest.tail
        read (some last) (pushStars kind branch) around (afterStars kind rest.tail)
      else read (some c) (.zeroOrMore :: branch) around rest
    else if c = '[' then
      match h : readSet rest with
      | some (negated, ranges, after) =>
        have := length_readSet h
        read (some ']') (.set negated ranges :: branch) around after
      | none => none
    else if c = '{' then read (some c) [] ((branch, []) :: around) rest
    else if c = '}' then
      match around with
      | (outer, done) :: around =>
        read (some c) (.choice (done.reverse ++ [branch.reverse]) :: outer) around rest
      | [] => none
    else if c = ',' then
      match around with
      | (outer, done) :: around => read (some c) [] ((outer, branch.reverse :: done) :: around) rest
      | [] => read (some c) (.literal c :: branch) [] rest
    else if c = '\\' then
      match rest.head? with
      | some escaped => read (some escaped) (.literal escaped :: branch) around rest.tail
      | none => none
    else read (some c) (.literal c :: branch) around rest
termination_by cs.length
decreasing_by all_goals (simp only [List.length_cons, List.length_tail] at *; omega)

/-! ## Meaning -/

/-- A part of a line. -/
inductive Atom where
  /-- One byte of the set. -/
  | one (set : ByteSet)
  /-- Any number of bytes of the set. -/
  | many (set : ByteSet)
deriving DecidableEq, Repr

/-- A pattern without choices. -/
abbrev Line := List Atom

def slash : Atom := .one (.only ByteSet.slash)

/-- The line that covers one character only. -/
def literal (c : Char) : Line := (String.utf8EncodeChar c).map fun b => .one (.only b)

/-- The byte ranges of a range of characters. Several bytes of one end stand for themselves. -/
def byteRanges (range : Char × Char) : List (UInt8 × UInt8) :=
  let lo := String.utf8EncodeChar range.1
  let hi := String.utf8EncodeChar range.2
  let single (b : UInt8) : UInt8 × UInt8 := (b, b)
  if range.1 = range.2 then lo.map single
  else lo.dropLast.map single ++ [(lo.getLast?.getD 0, hi.head?.getD 0)] ++ hi.tail.map single

mutual

/-- The lines of a token. -/
def Token.lines : Token → List Line
  | .literal c => [Glob.literal c]
  | .any => [[.one .notSlash]]
  | .zeroOrMore => [[.many .notSlash]]
  | .directoriesBefore => [[], [Glob.slash], [.many .all, Glob.slash]]
  | .everythingBelow => [[Glob.slash, .many .all]]
  | .directoriesBetween => [[Glob.slash], [Glob.slash, .many .all, Glob.slash]]
  | .set negated ranges => [[.one ⟨negated, ranges.flatMap byteRanges⟩]]
  | .choice branches => let found := branchLines branches; if found.isEmpty then [[]] else found

/-- The lines of tokens one after the other. -/
def linesOf : List Token → List Line
  | [] => [[]]
  | t :: rest => t.lines.flatMap fun head => (linesOf rest).map (head ++ ·)

/-- The lines of all branches of a choice. A branch that says nothing is no branch. -/
def branchLines : List (List Token) → List Line
  | [] => []
  | branch :: rest => (if saysNothing branch then [] else linesOf branch) ++ branchLines rest

/-- Whether tokens are none, or choices without a branch that says something. -/
def saysNothing : List Token → Bool
  | [] => true
  | .choice branches :: rest => noneSays branches && saysNothing rest
  | _ :: _ => false

def noneSays : List (List Token) → Bool
  | [] => true
  | branch :: rest => saysNothing branch && noneSays rest

end

/-- Whether a line covers bytes from end to end. -/
def Line.covers : Line → List UInt8 → Bool
  | [], bs => bs.isEmpty
  | .one set :: rest, bs =>
    match bs with
    | b :: bs => set.contains b && Line.covers rest bs
    | [] => false
  | .many set :: rest, bs => Line.covers rest bs || more set rest bs
where
  /-- Whether a byte of the set and then some more of them lead to the rest of the line. -/
  more (set : ByteSet) (rest : Line) : List UInt8 → Bool
    | [] => false
    | b :: bs => set.contains b && (Line.covers rest bs || more set rest bs)

end Glob

/-- A pattern for paths. -/
structure Glob where
  lines : List Glob.Line
deriving DecidableEq, Repr

namespace Glob

/-- Reads a pattern. `**` alone covers everything. -/
def parse? (pattern : String) : Option Glob :=
  (read none [] [] pattern.toList).map fun
    | [.directoriesBefore] => ⟨[[.many .all]]⟩
    | tokens => ⟨linesOf tokens⟩

/-- Whether a path matches. -/
def isMatch (g : Glob) (path : String) : Bool :=
  g.lines.any (·.covers path.toUTF8.toList)

end Glob

end Recheck
