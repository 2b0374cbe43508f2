import Recheck.Worker.Link

/-!
# Hooks for a build tool

A build tool calls the checker at three occasions: files have changed, a build knows what it is made of,
and a build is done. Outside watch mode the worker does not outlive a build.
-/

set_option autoImplicit false

namespace Recheck

/-- A link to a worker, and whether builds follow each other in watch mode. -/
structure Hooks where
  link : Link
  watch : Bool

/-- What a build tool learns when a build is sealed. -/
structure SealedBuild where
  report : CycleReport
  /-- The files to watch from now on. -/
  relatedFiles : List Path

namespace Hooks

def ofProgram (program : WorkerProgram) (watch : Bool) : Hooks := ⟨.ofProgram program, watch⟩

/-- Makes a call over the link. -/
def call {α : Type} (h : Hooks) (m : LinkM α) : Except LinkFault α × Hooks :=
  let (result, link) := m.run.run h.link
  (result, { h with link := link })

/-- Files have changed. When there are none the worker is not bothered. -/
def filesChanged (host : Host) (changed removed : List Path) : LinkM Unit :=
  if changed.isEmpty && removed.isEmpty then pure () else Link.invalidate host changed removed

/-- A build is sealed: checks the files that were built, and asks what to watch. -/
def buildSealed (host : Host) (built : List Path) : LinkM SealedBuild := do
  let report ← Link.check host built
  let files ← Link.relatedFiles host
  return ⟨report, files⟩

/-- A build is done. -/
def buildDone (h : Hooks) : Hooks := if h.watch then h else { h with link := h.link.kill }

end Hooks

end Recheck
