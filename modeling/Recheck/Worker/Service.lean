import Recheck.Worker.Message

/-!
# The worker

A worker holds settings and, once it has been initialised, a session. Each line that is not blank is
answered with one response. A line that is no request, a request that comes too early and a failed
initialisation leave the worker as it was.
-/

set_option autoImplicit false

namespace Recheck

/-- Why a session cannot be set up. -/
inductive SetupFault where
  | project (fault : ConfigFault)
  | lint (path : Path) (fault : ConfigFault)
deriving DecidableEq, Repr

namespace SetupFault

def message : SetupFault → String
  | project fault => "invalid project configuration: " ++ fault.message
  | lint path fault => "invalid lint configuration " ++ path.text ++ ": " ++ fault.message

def code? : SetupFault → Option Nat
  | project fault => fault.code?
  | lint _ fault => fault.code?

end SetupFault

/-- The session of some settings. -/
def Session.ofConfig (c : CheckerConfig) (host : Host) : Except SetupFault Session := do
  let project ← (Project.load c.project host).mapError .project
  let lint? ← match c.lint with
    | some path => ((LintConfig.load path host).mapError (.lint path)).map some
    | none => .ok none
  .ok (.ofProject project lint?)

/-- The state of a worker. -/
structure Service where
  config : CheckerConfig
  session? : Option Session

namespace Service

/-- A worker that has not been initialised. -/
def ofConfig (c : CheckerConfig) : Service := ⟨c, none⟩

def isInitialised (w : Service) : Bool := w.session?.isSome

/-- Loads the project. A session that is there already is replaced. -/
def initialise (w : Service) (host : Host) : Response × Service :=
  match Session.ofConfig w.config host with
  | .ok session => (.ok .ack, { w with session? := some session })
  | .error fault => (.error ⟨RemoteFault.configuration, fault.message, fault.code?⟩, w)

/-- Runs a cycle of a session and reports it. -/
def report (c : CheckerConfig) (session : Session) (host : Host) : CycleReport × Session :=
  let (result, session) := session.run host
  (CycleReport.ofCycle (result.applyIgnores c) (.ofConfig c) session.program?, session)

/-- Handles a request of a session. -/
def handleIn (c : CheckerConfig) (session : Session) (host : Host) : Request → Response × Session
  | .init => (.ok .ack, session)
  | .invalidateFiles changed removed => (.ok .ack, session.invalidate changed removed)
  | .relatedFiles => (.ok (.files session.relatedFiles), session)
  | .check files =>
    let (found, session) := report c (session.updateBuilt files) host
    (.ok (.report found), session)

/-- Handles a request. -/
def handle (w : Service) (host : Host) (request : Request) : Response × Service :=
  match request, w.session? with
  | .init, _ => w.initialise host
  | request, none =>
    (.error ⟨RemoteFault.notInitialised, "'" ++ request.name ++ "' received before 'init'", none⟩, w)
  | request, some session =>
    let (response, session) := handleIn w.config session host request
    (response, { w with session? := some session })

/-! ## Lines -/

/-- Characters that make no line worth an answer. -/
def isBlank (c : Char) : Bool :=
  (9 ≤ c.toNat && c.toNat ≤ 13) || (0x2000 ≤ c.toNat && c.toNat ≤ 0x200A) ||
    [0x20, 0x85, 0xA0, 0x1680, 0x2028, 0x2029, 0x202F, 0x205F, 0x3000].contains c.toNat

/-- The lines of a text without their line ends. -/
def lines (text : String) : List String :=
  let found := Source.splitLines text.toList
  let found := if found.getLast? = some [] then found.dropLast else found
  found.map fun line =>
    let line := if line.getLast? = some '\n' then
        let line := line.dropLast
        if line.getLast? = some '\r' then line.dropLast else line
      else line
    String.ofList line

/-- The answer to a line, if it is not blank. -/
def answer (w : Service) (host : Host) (line : String) : Option Response × Service :=
  if line.toList.all isBlank then (none, w)
  else match Request.ofText? line with
    | none => (some (.error ⟨RemoteFault.protocol, "the line is no request", none⟩), w)
    | some request =>
      let (response, w) := w.handle host request
      (some response, w)

/-- The answers to some lines. -/
def answers (w : Service) (host : Host) : List String → List Response × Service
  | [] => ([], w)
  | line :: rest =>
    let (response, w) := w.answer host line
    let (more, w) := answers w host rest
    (response.toList ++ more, w)

/-- Serves a text of several lines. -/
def serve (w : Service) (host : Host) (input : String) : List Response × Service :=
  w.answers host (lines input)

end Service

end Recheck
