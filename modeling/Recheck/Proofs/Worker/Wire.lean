import Recheck.Proofs.Data.Record
import Recheck.Worker.Message

/-!
# Messages arrive as they were sent

What one side writes on a line is what the other side reads from it (`messages_read_back`). For every
record there are the same two facts: its JSON is read back (`ofJson?_toJson`), and the JSON is plain, so that its text
is read back as the JSON it was. What an answer carries has no tag. A report is told from a list of files by its
times, and a list of files from an acknowledgement by its only member.

Numbers have a width on the way: positions and codes 32 bits, times 64 (`Response.Fits`).
-/

set_option autoImplicit false

namespace Recheck

open Json

variable {item time kind : Nat → Prop} {depth : Nat}

/-! ## Items -/

namespace ReportItem

/-- The numbers of an item are all of some kind. -/
def Numbers (kind : Nat → Prop) : ReportItem → Prop
  | diagnostic d => kind d.code ∧ (∀ n ∈ d.line, kind n) ∧ ∀ n ∈ d.character, kind n
  | lint l => kind l.line ∧ kind l.character

theorem severity?_name (s : Severity) : severity? (.string s.name) = some s := Severity.ofName?_name s

theorem ofJson?_toJson {i : ReportItem} (h : i.Numbers (· ≤ maxUInt32)) : ofJson? i.toJson = some i := by
  cases i with
  | diagnostic d =>
    obtain ⟨hcode, hline, hcharacter⟩ := h
    have hfile : optional asPath? (d.file.map ofPath) = some d.file := optional_map (fun _ _ => rfl) nofun
    have hline : optional number? (d.line.map natural) = some d.line :=
      optional_map (fun n hn => asNat?_natural (hline n hn)) nofun
    have hcharacter : optional number? (d.character.map natural) = some d.character :=
      optional_map (fun n hn => asNat?_natural (hcharacter n hn)) nofun
    have hcode : number? (natural d.code) = some d.code := asNat?_natural hcode
    rw [toJson, ofJson?, tagged?_ofMembers (by simp)]
    simp only [Option.bind_eq_bind, Option.bind_some, if_true]
    rw [diagnosticOfJson?, record?_ofMembers (by rfl) (by decide)]
    simp [field?, hfile, hline, hcharacter, hcode, severity?_name, asString?]
  | lint l =>
    obtain ⟨hline, hcharacter⟩ := h
    have hline : number? (natural l.line) = some l.line := asNat?_natural hline
    have hcharacter : number? (natural l.character) = some l.character := asNat?_natural hcharacter
    rw [toJson, ofJson?, tagged?_object (by simp)]
    have hne : lintTag ≠ diagnosticTag := by decide
    simp only [Option.bind_eq_bind, Option.bind_some, if_true, if_neg hne]
    rw [lintOfJson?, record?_object (by rfl) (by decide)]
    simp [field?, hline, hcharacter, severity?_name, asString?, asPath?, ofPath]

theorem plain_toJson (hitem : ∀ n, item n → kind n) {i : ReportItem} (h : i.Numbers item) :
    Plain kind (depth + 1) i.toJson := by
  cases i with
  | diagnostic d =>
    obtain ⟨hcode, hline, hcharacter⟩ := h
    refine plain_ofMembers ?_
    simp only [List.forall_mem_cons, List.not_mem_nil, false_imp_iff, implies_true, and_true, Option.mem_def,
      Option.some.injEq, Option.map_eq_some_iff, forall_eq', forall_exists_index, and_imp,
      forall_apply_eq_imp_iff₂]
    exact ⟨.string .., .string .., .string .., .natural _ (hitem _ hcode), .string .., fun _ _ => .string ..,
      fun n hn => .natural _ (hitem n (hline n hn)), fun n hn => .natural _ (hitem n (hcharacter n hn))⟩
  | lint l =>
    refine .object ?_
    simp only [List.forall_mem_cons, List.not_mem_nil, false_imp_iff, implies_true, and_true]
    exact ⟨.string .., .string .., .string .., .string .., .string .., .natural _ (hitem _ h.1),
      .natural _ (hitem _ h.2)⟩

end ReportItem

/-! ## Reports -/

namespace CycleReport

/-- The numbers of the items and the times of a report are all of some kind. -/
structure Numbers (item time : Nat → Prop) (r : CycleReport) : Prop where
  checkTime : time r.checkTime
  lintTime : time r.lintTime
  errors : ∀ i ∈ r.errors, i.Numbers item
  warnings : ∀ i ∈ r.warnings, i.Numbers item

theorem items?_map {items : List ReportItem} (h : ∀ i ∈ items, i.Numbers (· ≤ maxUInt32)) :
    items? (.array (items.map (·.toJson))) = some items :=
  mapM_map_self fun i hi => ReportItem.ofJson?_toJson (h i hi)

theorem ofJson?_members {r : CycleReport} (h : r.Numbers (· ≤ maxUInt32) (· ≤ maxUInt64)) :
    ofJson? (.object r.members) = some r := by
  rw [members, ofJson?, record?_object (by rfl) (by decide)]
  simp [field?, asNat?_natural h.checkTime, asNat?_natural h.lintTime, items?_map h.errors, items?_map h.warnings]

theorem plain_members (hitem : ∀ n, item n → kind n) (htime : ∀ n, time n → kind n) {r : CycleReport}
    (h : r.Numbers item time) : ∀ e ∈ r.members, Plain kind (depth + 2) e.2 := by
  simp only [members, List.forall_mem_cons, List.not_mem_nil, false_imp_iff, implies_true, and_true]
  exact ⟨.natural _ (htime _ h.checkTime), .natural _ (htime _ h.lintTime),
    plain_map fun i hi => ReportItem.plain_toJson hitem (h.errors i hi),
    plain_map fun i hi => ReportItem.plain_toJson hitem (h.warnings i hi)⟩

end CycleReport

/-! ## Requests -/

namespace Request

theorem ofJson?_toJson (r : Request) : ofJson? r.toJson = some r := by
  cases r with
  | init =>
    rw [toJson, ofJson?, tagged?_object (by simp)]
    rfl
  | invalidateFiles changed removed =>
    rw [toJson, ofJson?, tagged?_object (by simp)]
    simp only [asString?, name, ofRecord?, Option.bind_eq_bind, Option.bind_some]
    rw [record?_object (by rfl) (by decide)]
    simp [field?, asPaths?_ofPaths]
  | relatedFiles =>
    rw [toJson, ofJson?, tagged?_object (by simp)]
    rfl
  | check files =>
    rw [toJson, ofJson?, tagged?_object (by simp)]
    simp only [asString?, name, ofRecord?, Option.bind_eq_bind, Option.bind_some]
    rw [record?_object (by rfl) (by decide)]
    simp [field?, asPaths?_ofPaths]

theorem plain_toJson (r : Request) : Plain kind (depth + 2) r.toJson := by
  refine .object (List.forall_mem_cons.mpr ⟨.string .., ?_⟩)
  cases r with
  | init => exact nofun
  | invalidateFiles changed removed =>
    exact List.forall_mem_cons.mpr ⟨plain_ofPaths changed, List.forall_mem_singleton.mpr (plain_ofPaths removed)⟩
  | relatedFiles => exact nofun
  | check files => exact List.forall_mem_singleton.mpr (plain_ofPaths files)

theorem ofText?_render (r : Request) : ofText? r.toJson.render = some r := by
  rw [ofText?, parse_render r.plain_toJson]
  exact r.ofJson?_toJson

end Request

/-! ## Responses -/

namespace RemoteFault

/-- The number of a fault, if it has one, is of some kind. -/
def Numbers (kind : Nat → Prop) (f : RemoteFault) : Prop := ∀ n ∈ f.code, kind n

theorem ofJson?_toJson {f : RemoteFault} (h : f.Numbers (· ≤ maxUInt32)) : ofJson? f.toJson = some f := by
  have hcode : optional ReportItem.number? (f.code.map natural) = some f.code :=
    optional_map (fun n hn => asNat?_natural (h n hn)) nofun
  rw [toJson, ofJson?, record?_ofMembers (by rfl) (by decide)]
  simp [field?, asString?, hcode]

theorem plain_toJson (hitem : ∀ n, item n → kind n) {f : RemoteFault} (h : f.Numbers item) :
    Plain kind (depth + 1) f.toJson := by
  refine plain_ofMembers ?_
  simp only [List.forall_mem_cons, List.not_mem_nil, false_imp_iff, implies_true, and_true, Option.mem_def,
    Option.some.injEq, Option.map_eq_some_iff, forall_eq', forall_exists_index, and_imp, forall_apply_eq_imp_iff₂]
  exact ⟨.string .., .string .., fun n hn => .natural _ (hitem n (h n hn))⟩

end RemoteFault

namespace Payload

/-- The numbers of what an answer carries are all of some kind. -/
def Numbers (item time : Nat → Prop) : Payload → Prop
  | report r => r.Numbers item time
  | files _ => True
  | ack => True

/-- Files alone are no report. -/
theorem reportOfJson?_files (paths : Json) : CycleReport.ofJson? (.object [("files", paths)]) = none := rfl

theorem ofJson?_members {p : Payload} (h : p.Numbers (· ≤ maxUInt32) (· ≤ maxUInt64)) :
    ofJson? (.object p.members) = some p := by
  cases p with
  | report r =>
    have hreport : CycleReport.ofJson? (.object r.members) = some r := CycleReport.ofJson?_members h
    rw [members, ofJson?, hreport]
    rfl
  | files paths =>
    have hfiles : filesOfJson? (.object [("files", .ofPaths paths)]) = some paths := by
      rw [filesOfJson?, record?_object (by rfl) (by decide)]
      simp [field?, asPaths?_ofPaths]
    rw [members, ofJson?, reportOfJson?_files, hfiles]
    rfl
  | ack => rfl

theorem plain_members (hitem : ∀ n, item n → kind n) (htime : ∀ n, time n → kind n) {p : Payload}
    (h : p.Numbers item time) : ∀ e ∈ p.members, Plain kind (depth + 2) e.2 := by
  cases p with
  | report r => exact CycleReport.plain_members hitem htime h
  | files paths => exact List.forall_mem_singleton.mpr (plain_ofPaths paths)
  | ack => exact nofun

end Payload

namespace Response

/-- The numbers of an answer are all of some kind. -/
def Numbers (item time : Nat → Prop) : Response → Prop
  | ok payload => payload.Numbers item time
  | error fault => fault.Numbers item

theorem numbers_true (r : Response) : r.Numbers (fun _ => True) (fun _ => True) := by
  have hitem : ∀ i : ReportItem, i.Numbers fun _ => True := by
    rintro (d | l)
    · exact ⟨trivial, fun _ _ => trivial, fun _ _ => trivial⟩
    · exact ⟨trivial, trivial⟩
  rcases r with (report | files | _) | fault
  · exact ⟨trivial, trivial, fun i _ => hitem i, fun i _ => hitem i⟩
  · trivial
  · trivial
  · exact fun _ _ => trivial

/-- Positions and codes have 32 bits, and times 64. -/
def Fits (r : Response) : Prop := r.Numbers (· ≤ maxUInt32) (· ≤ maxUInt64)

theorem ofJson?_toJson {r : Response} (h : r.Fits) : ofJson? r.toJson = some r := by
  cases r with
  | ok payload =>
    have htag : "id" ∉ payload.members.map (·.1) := by
      cases payload <;> simp [Payload.members, CycleReport.members]
    rw [toJson, ofJson?, tagged?_object htag]
    show (Payload.ofJson? _).map ok = _
    rw [Payload.ofJson?_members h]
    rfl
  | error fault =>
    have hfault : RemoteFault.ofJson? fault.toJson = some fault := RemoteFault.ofJson?_toJson h
    rw [toJson, ofJson?, tagged?_object (by simp)]
    simp only [asString?, Option.bind_eq_bind, Option.bind_some]
    rw [record?_object (by rfl) (by decide)]
    simp [field?, hfault]

theorem plain_toJson (hitem : ∀ n, item n → kind n) (htime : ∀ n, time n → kind n) {r : Response}
    (h : r.Numbers item time) : Plain kind (depth + 3) r.toJson := by
  cases r with
  | ok payload => exact .object (List.forall_mem_cons.mpr ⟨.string .., Payload.plain_members hitem htime h⟩)
  | error fault =>
    exact .object (List.forall_mem_cons.mpr
      ⟨.string .., List.forall_mem_singleton.mpr (RemoteFault.plain_toJson hitem h)⟩)

theorem ofText?_render {r : Response} (h : r.Fits) : ofText? r.toJson.render = some r := by
  rw [ofText?, parse_render (plain_toJson (fun _ hn => Nat.le_trans hn (by decide)) (fun _ hn => hn) h)]
  exact ofJson?_toJson h

end Response

/-! ## Settings -/

namespace CheckerConfig

/-- The numbers of diagnostics have 32 bits. -/
def Fits (c : CheckerConfig) : Prop := ∀ code ∈ c.ignoreDiagnostics, code ≤ maxUInt32

theorem ofJson?_toJson {c : CheckerConfig} (h : c.Fits) : ofJson? c.toJson = some c := by
  have hlint : nullable asPath? ((c.lint.map ofPath).getD .null) = some c.lint := by
    cases c.lint <;> rfl
  have hcodes : codes? (.array (c.ignoreDiagnostics.map .natural)) = some c.ignoreDiagnostics :=
    mapM_map_self fun n hn => asNat?_natural (h n hn)
  have hformat : choice? DiagnosticFormat.ofName? (.string c.diagnosticFormat.name) = some c.diagnosticFormat :=
    DiagnosticFormat.ofName?_name _
  rw [toJson, ofJson?, ofRecord?, closedRecord?_object (by rfl) (by decide)]
  simp [fieldOr, hlint, hcodes, hformat, asStrings?_map, asPath?, ofPath, asString?, asBool?]

theorem plain_toJson {c : CheckerConfig} (h : ∀ code ∈ c.ignoreDiagnostics, kind code) :
    Plain kind (depth + 2) c.toJson := by
  have hlint : Plain kind (depth + 1) ((c.lint.map ofPath).getD .null) := by
    cases c.lint
    · exact .null _
    · exact .string ..
  refine .object ?_
  simp only [List.forall_mem_cons, List.not_mem_nil, false_imp_iff, implies_true, and_true]
  exact ⟨.string .., hlint, plain_map fun n hn => .natural _ (h n hn), plain_map fun rule _ => .string _ rule,
    .bool .., .string .., .bool .., .bool ..⟩

theorem ofJsonText?_render {c : CheckerConfig} (h : c.Fits) : ofJsonText? c.toJson.render = some c := by
  rw [ofJsonText?, parse_render (plain_toJson fun code hcode => Nat.le_trans (h code hcode) (by decide))]
  exact ofJson?_toJson h

end CheckerConfig

/-! ## Lines -/

/-- Every request, every answer and all settings are read back from the line that is written for them. -/
theorem messages_read_back :
    (∀ request : Request, Request.ofText? request.toJson.render = some request) ∧
    (∀ response : Response, response.Fits → Response.ofText? response.toJson.render = some response) ∧
    ∀ config : CheckerConfig, config.Fits → CheckerConfig.ofJsonText? config.toJson.render = some config :=
  ⟨Request.ofText?_render, fun _ => Response.ofText?_render, fun _ => CheckerConfig.ofJsonText?_render⟩

/-- A report with the largest numbers there are on the way, an item that says no more than it must, and a path with
characters that need an escape. -/
def fullReport : Response :=
  .ok (.report ⟨maxUInt64, 0,
    [.diagnostic ⟨"not a \"number\"", "", maxUInt32, .error, some ⟨"a\\b\n.ts"⟩, some maxUInt32, some 1⟩,
      .diagnostic ⟨"", "", 0, .message, none, none, none⟩],
    [.lint ⟨"too long", "max-line", .warning, ⟨"ü.ts"⟩, maxUInt32, 0⟩]⟩)

theorem fullReport_read_back :
    fullReport.Fits ∧ Response.ofText? fullReport.toJson.render = some fullReport := by
  have hfits : fullReport.Fits := by
    refine ⟨Nat.le_refl _, Nat.zero_le _, ?_, ?_⟩ <;> simp [ReportItem.Numbers, maxUInt32, UInt32.size]
  exact ⟨hfits, messages_read_back.2.1 fullReport hfits⟩

end Recheck
