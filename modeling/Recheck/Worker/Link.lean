import Recheck.Worker.Service

/-!
# The host's end

A host starts a worker when it first needs one, sends it one request at a time and reads one line for
each. When the worker does not answer as it should, it is stopped, and the next call starts a fresh one.
-/

set_option autoImplicit false

namespace Recheck

/-- What is started as a worker. -/
inductive WorkerProgram where
  /-- The checker, with its settings handed over as JSON. -/
  | checker (config : CheckerConfig)
  /-- A program that does not exist. -/
  | missing
  /-- A program that answers every line alike. -/
  | constant (reply : String)

/-- A worker that is running. -/
inductive WorkerProcess where
  | checker (service : Service)
  | constant (reply : String)

/-- Why a call did not get its answer. -/
inductive LinkFault where
  /-- The worker could not be started. -/
  | spawn
  /-- The worker's line is no response. -/
  | protocol
  /-- The worker is gone. -/
  | closed
  /-- The response does not fit the request of this name. -/
  | unexpectedResponse (request : String)
  /-- The worker answers with a fault. -/
  | remote (fault : RemoteFault)
deriving DecidableEq, Repr

namespace LinkFault

def message : LinkFault → String
  | spawn => "failed to spawn checker worker"
  | protocol => "malformed worker message"
  | closed => "checker worker exited unexpectedly"
  | unexpectedResponse request => "unexpected response to '" ++ request ++ "'"
  | remote fault => fault.text

/-- Whether the project file or the lint settings are at fault. -/
def isConfiguration : LinkFault → Bool
  | remote fault => fault.isConfiguration
  | _ => false

end LinkFault

namespace WorkerProgram

/-- Starts a worker. One that cannot read its settings ends at once. -/
def spawn : WorkerProgram → Except LinkFault WorkerProcess
  | checker config =>
    match CheckerConfig.ofJsonText? config.toJson.render with
    | some config => .ok (.checker (.ofConfig config))
    | none => .error .closed
  | missing => .error .spawn
  | constant reply => .ok (.constant reply)

end WorkerProgram

namespace WorkerProcess

/-- The line with which a worker answers a line. -/
def reply (p : WorkerProcess) (host : Host) (line : String) : Option String × WorkerProcess :=
  match p with
  | constant reply => (some reply, p)
  | checker service =>
    let (response, service) := service.answer host line
    (response.map fun r => r.toJson.render, checker service)

end WorkerProcess

/-- A worker program, and the worker while one is running. -/
structure Link where
  program : WorkerProgram
  process? : Option WorkerProcess

/-- Calls over a link. What a call did to the link stays, also when it fails. -/
abbrev LinkM := ExceptT LinkFault (StateM Link)

namespace Link

/-- A link without a worker. -/
def ofProgram (program : WorkerProgram) : Link := ⟨program, none⟩

def isRunning (l : Link) : Bool := l.process?.isSome

/-- The link with its worker stopped. -/
def kill (l : Link) : Link := { l with process? := none }

/-- Stops the worker and fails. -/
def abandon {α : Type} (fault : LinkFault) : LinkM α := do
  modify kill
  throw fault

/-- Sends a request and reads what the response carries. -/
def send (host : Host) (request : Request) : LinkM Payload := do
  let link ← get
  match link.process? with
  | none => throw .closed
  | some process =>
    let (line?, process) := process.reply host request.toJson.render
    set { link with process? := some process }
    match line? with
    | none => abandon .closed
    | some line =>
      match Response.ofText? line with
      | none => abandon .protocol
      | some (.ok payload) => return payload
      | some (.error fault) => throw (.remote fault)

/-- Starts and initialises the worker unless one is running. A worker that cannot be initialised is
stopped. -/
def start (host : Host) : LinkM Unit := do
  let link ← get
  if link.isRunning then return
  match link.program.spawn with
  | .error fault => throw fault
  | .ok process =>
    set { link with process? := some process }
    try
      let _ ← send host .init
    catch fault => abandon fault

/-- Reports files as built and runs a cycle. -/
def check (host : Host) (files : List Path) : LinkM CycleReport := do
  start host
  let request := Request.check files
  match ← send host request with
  | .report report => return report
  | _ => throw (.unexpectedResponse request.name)

/-- Reports changed and removed files. -/
def invalidate (host : Host) (changed removed : List Path) : LinkM Unit := do
  start host
  let _ ← send host (.invalidateFiles changed removed)

/-- The files that the host should watch. -/
def relatedFiles (host : Host) : LinkM (List Path) := do
  start host
  match ← send host .relatedFiles with
  | .files files => return files
  | _ => throw (.unexpectedResponse Request.relatedFiles.name)

end Link

end Recheck
