import Recheck.Report.Basic

/-!
# Messages

A host and its worker exchange one JSON object per line. The host asks with a `Request`, the worker
answers each with one `Response`; a member `id` tells the variants apart. What an answer without an error
carries is told by its fields alone.
-/

set_option autoImplicit false

namespace Recheck

/-! ## Requests -/

/-- What a host asks for. -/
inductive Request where
  /-- Load the project. -/
  | init
  | invalidateFiles (changed removed : List Path)
  /-- The files that the host should watch. -/
  | relatedFiles
  /-- Some files were built; run a cycle. -/
  | check (files : List Path)
deriving DecidableEq, Repr

namespace Request

/-- The tag of a request. -/
def name : Request → String
  | init => "init"
  | invalidateFiles .. => "invalidateFiles"
  | relatedFiles => "typeCheckRelatedFiles"
  | check _ => "typeCheck"

def toJson (r : Request) : Json :=
  .object (("id", .string r.name) :: match r with
    | init => []
    | invalidateFiles changed removed => [("changed", .ofPaths changed), ("removed", .ofPaths removed)]
    | relatedFiles => []
    | check files => [("files", .ofPaths files)])

/-- The record of a request that carries nothing: any object, or an empty array. -/
def nothing? : Json → Option Unit
  | .object _ => some ()
  | .array [] => some ()
  | _ => none

/-- Reads a request of this name from its record. -/
def ofRecord? (name : String) (content : Json) : Option Request := do
  match name with
  | "init" => (nothing? content).map fun _ => init
  | "invalidateFiles" =>
    match ← content.record? ["changed", "removed"] with
    | [changed, removed] =>
      some (.invalidateFiles (← Json.field? Json.asPaths? changed) (← Json.field? Json.asPaths? removed))
    | _ => none
  | "typeCheckRelatedFiles" => (nothing? content).map fun _ => relatedFiles
  | "typeCheck" =>
    match ← content.record? ["files"] with
    | [files] => some (.check (← Json.field? Json.asPaths? files))
    | _ => none
  | _ => none

def ofJson? (j : Json) : Option Request := do
  let (name, content) ← j.tagged? "id"
  ofRecord? (← name.asString?) content

/-- Reads a line. -/
def ofText? (line : String) : Option Request := (Json.parse line).toOption.bind ofJson?

end Request

/-! ## Errors -/

/-- What went wrong on the other side. -/
structure RemoteFault where
  /-- The class of the fault. -/
  name : String
  message : String
  /-- The number of a fault in a configuration. -/
  code : Option Nat
deriving DecidableEq, Repr

namespace RemoteFault

/-- The class of faults in a project file or in lint settings. -/
def configuration : String := "ConfigurationError"

/-- The class of lines that are no request. -/
def protocol : String := "ProtocolError"

/-- The class of requests that come too early. -/
def notInitialised : String := "NotInitialisedError"

def isConfiguration (f : RemoteFault) : Bool := f.name = configuration

/-- The form `class: message`. -/
def text (f : RemoteFault) : String := f.name ++ ": " ++ f.message

def toJson (f : RemoteFault) : Json := .ofMembers
  [("name", some (.string f.name)), ("message", some (.string f.message)), ("code", f.code.map .natural)]

def ofJson? (j : Json) : Option RemoteFault := do
  match ← j.record? ["name", "message", "code"] with
  | [name, message, code] =>
    some ⟨← Json.field? Json.asString? name, ← Json.field? Json.asString? message,
      ← Json.optional ReportItem.number? code⟩
  | _ => none

end RemoteFault

/-! ## Responses -/

/-- What an answer carries. -/
inductive Payload where
  | report (report : CycleReport)
  | files (files : List Path)
  | ack
deriving DecidableEq, Repr

namespace Payload

def members : Payload → List (String × Json)
  | report r => r.members
  | files paths => [("files", .ofPaths paths)]
  | ack => []

def filesOfJson? (j : Json) : Option (List Path) := do
  match ← j.record? ["files"] with
  | [paths] => Json.field? Json.asPaths? paths
  | _ => none

/-- Reads what an answer carries: a report if it has the fields of one, or else files, or else nothing. -/
def ofJson? (j : Json) : Option Payload :=
  ((CycleReport.ofJson? j).map report).orElse fun _ =>
    ((filesOfJson? j).map files).orElse fun _ => (Request.nothing? j).map fun _ => ack

end Payload

/-- What a worker answers. -/
inductive Response where
  | ok (payload : Payload)
  | error (fault : RemoteFault)
deriving DecidableEq, Repr

namespace Response

def toJson : Response → Json
  | ok payload => .object (("id", .string "ok") :: payload.members)
  | error fault => .object [("id", .string "error"), ("error", fault.toJson)]

def ofJson? (j : Json) : Option Response := do
  let (name, content) ← j.tagged? "id"
  match ← name.asString? with
  | "ok" => (Payload.ofJson? content).map ok
  | "error" =>
    match ← content.record? ["error"] with
    | [fault] => (Json.field? RemoteFault.ofJson? fault).map error
    | _ => none
  | _ => none

/-- Reads a line. -/
def ofText? (line : String) : Option Response := (Json.parse line).toOption.bind ofJson?

end Response

end Recheck
