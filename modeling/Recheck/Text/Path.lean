import Recheck.Text.Chars

/-!
# Paths

Files are known by their path, a text with `/` between its segments. `Path.normalize` gives the one
spelling under which a file is stored; `Path.components` is the view through which two spellings are
compared and ordered.
-/

namespace Recheck

/-- A path as written. Two spellings that lead through the same steps count as one path, so `==`
compares steps, not texts. -/
structure Path where
  text : String
deriving DecidableEq, Repr, Inhabited

namespace Path

/-- One step of a path, in the order in which steps sort. -/
inductive Component where
  /-- The root, in front of an absolute path. -/
  | root
  /-- A `.` in front of a relative path; elsewhere it is skipped. -/
  | here
  /-- A `..` segment. -/
  | parent
  /-- A named segment. -/
  | name (segment : String)
deriving DecidableEq, Repr

namespace Component

def rank : Component → Nat
  | root => 0
  | here => 1
  | parent => 2
  | name _ => 3

/-- Whether the step sorts strictly before the other. -/
def lt : Component → Component → Bool
  | name a, name b => a < b
  | a, b => a.rank < b.rank

end Component

/-- The segments between slashes, empty ones included. -/
def splitSlash : List Char → List (List Char)
  | [] => [[]]
  | c :: cs =>
    if c = '/' then [] :: splitSlash cs
    else match splitSlash cs with
      | seg :: rest => (c :: seg) :: rest
      | [] => [[c]]

/-- The step that a segment stands for; empty segments and `.` stand for none. -/
def component? (seg : List Char) : Option Component :=
  if seg = [] || seg = ['.'] then none
  else if seg = ['.', '.'] then some .parent
  else some (.name (String.ofList seg))

/-- A segment as written, with the step it stands for. -/
abbrev Segment := List Char × Option Component

/-- The segments of a path. Only the first one can be the root or a `.` that counts. -/
def segments (p : Path) : List Segment :=
  let plain (seg : List Char) : Segment := (seg, component? seg)
  match splitSlash p.text.toList with
  | [] => []
  | seg :: rest =>
    let first := if seg = [] && !rest.isEmpty then (seg, some .root)
      else if seg = ['.'] then (seg, some .here)
      else plain seg
    first :: rest.map plain

/-- The steps of a path. Repeated slashes, `.` inside the path and a slash at the end leave no trace. -/
def components (p : Path) : List Component := p.segments.filterMap (·.2)

/-- The text of some segments. -/
def ofSegments (segs : List Segment) : Path :=
  match segs with
  | [(_, some .root)] => ⟨"/"⟩
  | _ => ⟨Chars.intercalate "/" (segs.map fun s => String.ofList s.1)⟩

/-- Whether a segment leaves no trace among the steps. -/
def isSilent (seg : Segment) : Bool := seg.2.isNone

/-- Whether two spellings lead through the same steps. -/
def same (a b : Path) : Bool := a.components == b.components

instance : BEq Path := ⟨same⟩

theorem beq_iff {a b : Path} : (a == b) = true ↔ a.components = b.components := by
  show (a.components == b.components) = true ↔ _
  simp

instance : EquivBEq Path where
  rfl := beq_iff.2 rfl
  symm h := beq_iff.2 (beq_iff.1 h).symm
  trans h k := beq_iff.2 ((beq_iff.1 h).trans (beq_iff.1 k))

/-- Lexicographic order by steps. -/
def componentsLt : List Component → List Component → Bool
  | _, [] => false
  | [], _ :: _ => true
  | a :: as, b :: bs => a.lt b || (a == b && componentsLt as bs)

def lt (a b : Path) : Bool := componentsLt a.components b.components

def le (a b : Path) : Bool := !lt b a

/-- One step of folding: a name is entered, `..` leaves the last name, or is kept when there is none to
leave and the path is not rooted. The steps are held last first. -/
def foldStep (rooted : Bool) (out : List String) : Component → List String
  | .name s => s :: out
  | .parent =>
    match out with
    | last :: rest => if last = ".." then (if rooted then out else ".." :: out) else rest
    | [] => if rooted then out else [".."]
  | _ => out

/-- Slashes for backslashes. -/
def forwardSlashes (p : Path) : Path :=
  ⟨String.ofList (p.text.toList.map fun c => if c = '\\' then '/' else c)⟩

/-- The canonical spelling: forward slashes, no empty and no `.` segments, and `..` only in front of a
relative path. The empty path is `.`. -/
def normalize (p : Path) : Path :=
  let steps := components (forwardSlashes p)
  let rooted := steps.head? = some .root
  let out := (steps.foldl (foldStep rooted) []).reverse
  let joined := (if rooted then "/" else "") ++ Chars.intercalate "/" out
  if joined = "" then ⟨"."⟩ else ⟨joined⟩

def endsWith (p : Path) (tail : String) : Bool := tail.toList.isSuffixOf p.text.toList

/-- Whether the file holds declarations only. -/
def isTypeDefinition (p : Path) : Bool :=
  [".d.ts", ".d.mts", ".d.cts"].any p.endsWith

/-- Whether the file is compiled as a source of the project. -/
def isSourceModule (p : Path) : Bool :=
  !isTypeDefinition p && [".ts", ".tsx", ".mts", ".cts", ".js", ".jsx"].any p.endsWith

/-- The path with some text behind it. -/
def append (p : Path) (tail : String) : Path := ⟨p.text ++ tail⟩

/-- The generated declaration beside a file: `styles.css.d.ts` for `styles.css`. -/
def declarationSibling (p : Path) : Path := p.append ".d.ts"

def isAbsolute (p : Path) : Bool := p.text.toList.head? = some '/'

/-- Appends a path to a directory; an absolute path replaces it. -/
def join (base p : Path) : Path :=
  if isAbsolute p then p
  else if base.text = "" || base.text.toList.getLast? = some '/' then ⟨base.text ++ p.text⟩
  else ⟨base.text ++ "/" ++ p.text⟩

/-- The path without its last step; the root and the empty path have none. -/
def parent? (p : Path) : Option Path :=
  match p.segments.reverse.dropWhile isSilent with
  | [] => none
  | (_, some .root) :: _ => none
  | _ :: rest => some (ofSegments (rest.dropWhile isSilent).reverse)

/-- The last step, when it is a name. -/
def fileName? (p : Path) : Option String :=
  match (components p).reverse with
  | .name s :: _ => some s
  | _ => none

/-- The segments behind some steps that a path begins with. -/
def dropSteps : List Component → List Segment → Option (List Segment)
  | [], segs => some segs
  | _ :: _, [] => none
  | b :: bs, (_, none) :: segs => dropSteps (b :: bs) segs
  | b :: bs, (_, some s) :: segs => if b = s then dropSteps bs segs else none

/-- The path as seen from a directory above it. -/
def relativeTo? (p base : Path) : Option Path :=
  (dropSteps base.components p.segments).map fun segs =>
    ofSegments ((segs.dropWhile isSilent).reverse.dropWhile isSilent).reverse

/-- Puts a path in front of the first one that does not sort before it. -/
def insertInOrder (p : Path) : List Path → List Path
  | [] => [p]
  | q :: rest => if le p q then p :: q :: rest else q :: insertInOrder p rest

/-- Sorts by steps. Spellings of one path keep their order. -/
def sort (ps : List Path) : List Path := ps.foldr insertInOrder []

/-- A list without the members that equal the one in front. -/
def dropRepeats : List Path → List Path
  | [] => []
  | p :: rest => p :: (dropRepeats rest).dropWhile (· == p)

/-- The paths in order, each once. Of several spellings the first one stays. -/
def sortDistinct (ps : List Path) : List Path := dropRepeats (sort ps)

end Path

end Recheck
