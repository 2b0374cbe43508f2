import Recheck.Proofs.Text.Lines
import Recheck.Proofs.Worker.Reporting
import Recheck.Proofs.Worker.Wire

/-!
# Every line is answered in its place

A host tells the answers of its worker apart by their places alone. So every line that is not blank is answered with
one line, whatever it says, and a line that is turned down leaves no trace. It is no request at all, or a request that
comes before the worker was initialised, or an initialisation that fails. `exchange` lays the lines and their answers
out side by side; `exchange_sublist` says that the lines without traces can be taken out of it.

The files may change while lines arrive, so every line comes with the files of its time.
-/

set_option autoImplicit false

namespace Recheck.Service

/-- A line and the files that there are when it arrives. -/
abbrev Line := Host × String

/-- Only characters that make no line worth an answer. -/
def Blank (line : String) : Prop := line.toList.all isBlank = true

instance (line : String) : Decidable (Blank line) := inferInstanceAs (Decidable (_ = true))

/-- The lines of some texts, which arrive one after the other. -/
def arrivals (texts : List (Host × String)) : List Line :=
  texts.flatMap fun text => (Service.lines text.2).map fun line => (text.1, line)

/-- Serves some texts, which arrive one after the other. -/
def serveAll (w : Service) : List (Host × String) → List Response × Service
  | [] => ([], w)
  | text :: rest =>
    let (responses, w) := w.serve text.1 text.2
    let (more, w) := serveAll w rest
    (responses ++ more, w)

/-- What is written for some answers. -/
def written (responses : List Response) : String := String.join (responses.map fun r => r.toJson.render ++ "\n")

/-- A worker after some lines. -/
def hearing (w : Service) (lines : List Line) : Service := lines.foldl (fun w line => (w.answer line.1 line.2).2) w

/-- Lines side by side with their answers. -/
def exchange (w : Service) : List Line → List (Line × Option Response)
  | [] => []
  | line :: rest => (line, (w.answer line.1 line.2).1) :: exchange (w.answer line.1 line.2).2 rest

/-- The line is a request that is granted. -/
def Granted (e : Line × Option Response) : Prop := ∃ payload, e.2 = some (.ok payload)

instance : DecidablePred Granted
  | (_, some (.ok payload)) => .isTrue ⟨payload, rfl⟩
  | (_, some (.error _)) => .isFalse nofun
  | (_, none) => .isFalse nofun

/-- The line initialises the worker. -/
def Initialises (e : Line × Option Response) : Prop := Request.ofText? e.1.2 = some .init ∧ Granted e

variable {w : Service}

/-! ## One line -/

theorem answer_of_blank (w : Service) (host : Host) {line : String} (h : Blank line) : w.answer host line = (none, w) :=
  if_pos h

theorem answer_of_not_request (w : Service) (host : Host) {line : String} (h : ¬Blank line)
    (hline : Request.ofText? line = none) :
    ∃ message, w.answer host line = (some (.error ⟨RemoteFault.protocol, message, none⟩), w) := by
  unfold Blank at h
  refine ⟨"the line is no request", ?_⟩
  rw [answer, if_neg h, hline]

theorem answer_of_request (w : Service) (host : Host) {line : String} (h : ¬Blank line) {request : Request}
    (hline : Request.ofText? line = some request) :
    w.answer host line = (some (w.handle host request).1, (w.handle host request).2) := by
  unfold Blank at h
  rw [answer, if_neg h, hline]

theorem handle_of_session?_eq_none (host : Host) {request : Request} (h : w.session? = none)
    (hrequest : request ≠ .init) : w.handle host request =
      (.error ⟨RemoteFault.notInitialised, "'" ++ request.name ++ "' received before 'init'", none⟩, w) := by
  obtain ⟨c, session?⟩ := w
  subst h
  cases request with
  | init => exact absurd rfl hrequest
  | invalidateFiles changed removed => rfl
  | relatedFiles => rfl
  | check files => rfl

theorem handle_init_of_error {host : Host} {fault : SetupFault} (h : Session.ofConfig w.config host = .error fault) :
    w.handle host .init = (.error ⟨RemoteFault.configuration, fault.message, fault.code?⟩, w) := by
  show w.initialise host = _
  rw [initialise, h]

/-- Within a session every request is granted. -/
theorem handleIn_granted (c : CheckerConfig) (session : Session) (host : Host) (request : Request) :
    ∃ payload, (handleIn c session host request).1 = .ok payload := by
  cases request with
  | init => exact ⟨_, rfl⟩
  | invalidateFiles changed removed => exact ⟨_, rfl⟩
  | relatedFiles => exact ⟨_, rfl⟩
  | check files => exact ⟨_, rfl⟩

theorem handle_of_session {session : Session} (host : Host) {request : Request} (h : w.session? = some session)
    (hrequest : request ≠ .init) : w.handle host request =
      ((handleIn w.config session host request).1,
        { w with session? := some (handleIn w.config session host request).2 }) := by
  obtain ⟨c, session?⟩ := w
  subst h
  cases request with
  | init => exact absurd rfl hrequest
  | invalidateFiles changed removed => rfl
  | relatedFiles => rfl
  | check files => rfl

/-- A request that is not granted changes nothing. -/
theorem handle_unchanged (host : Host) (request : Request) (h : ∀ payload, (w.handle host request).1 ≠ .ok payload) :
    (w.handle host request).2 = w := by
  by_cases hrequest : request = .init
  · subst hrequest
    cases hsetup : Session.ofConfig w.config host with
    | ok session =>
      have hhandle : w.handle host .init = (.ok .ack, { w with session? := some session }) := by
        show w.initialise host = _
        rw [initialise, hsetup]
      exact absurd (congrArg Prod.fst hhandle) (h _)
    | error fault => rw [handle_init_of_error hsetup]
  cases hsession : w.session? with
  | none => rw [handle_of_session?_eq_none host hsession hrequest]
  | some session =>
    rw [handle_of_session host hsession hrequest] at h
    obtain ⟨payload, hok⟩ := handleIn_granted w.config session host request
    exact absurd hok (h payload)

/-- A line is blank, or no request, or a request. -/
theorem answer_cases (w : Service) (line : Line) :
    (Blank line.2 ∧ w.answer line.1 line.2 = (none, w)) ∨
    (¬Blank line.2 ∧ ∃ fault, w.answer line.1 line.2 = (some (.error fault), w)) ∨
    (¬Blank line.2 ∧ ∃ request, Request.ofText? line.2 = some request ∧
      w.answer line.1 line.2 = (some (w.handle line.1 request).1, (w.handle line.1 request).2)) := by
  by_cases hblank : Blank line.2
  · exact .inl ⟨hblank, answer_of_blank w line.1 hblank⟩
  cases hline : Request.ofText? line.2 with
  | none =>
    obtain ⟨message, hanswer⟩ := answer_of_not_request w line.1 hblank hline
    exact .inr (.inl ⟨hblank, _, hanswer⟩)
  | some request => exact .inr (.inr ⟨hblank, request, rfl, answer_of_request w line.1 hblank hline⟩)

/-- A line that is no granted request changes nothing. -/
theorem answer_unchanged {line : Line} (h : ¬Granted (line, (w.answer line.1 line.2).1)) :
    (w.answer line.1 line.2).2 = w := by
  obtain ⟨-, hanswer⟩ | ⟨-, fault, hanswer⟩ | ⟨-, request, -, hanswer⟩ := answer_cases w line
  · rw [hanswer]
  · rw [hanswer]
  · rw [hanswer] at h ⊢
    exact handle_unchanged line.1 request fun payload hok => h ⟨payload, congrArg some hok⟩

theorem answer_eq_none_iff (w : Service) (line : Line) : (w.answer line.1 line.2).1 = none ↔ Blank line.2 := by
  obtain ⟨hblank, hanswer⟩ | ⟨hblank, fault, hanswer⟩ | ⟨hblank, request, -, hanswer⟩ := answer_cases w line
  · simp [hanswer, hblank]
  · simp [hanswer, hblank]
  · simp [hanswer, hblank]

/-- A worker keeps its settings. -/
theorem config_answer (w : Service) (line : Line) : (w.answer line.1 line.2).2.config = w.config := by
  obtain ⟨-, hanswer⟩ | ⟨-, fault, hanswer⟩ | ⟨-, request, -, hanswer⟩ := answer_cases w line
  · rw [hanswer]
  · rw [hanswer]
  · rw [hanswer, config_handle]

/-- A session is there only after an initialisation. -/
theorem session?_answer {line : Line} (h : w.session? = none)
    (hline : ¬Initialises (line, (w.answer line.1 line.2).1)) : (w.answer line.1 line.2).2.session? = none := by
  by_cases hgranted : Granted (line, (w.answer line.1 line.2).1)
  · obtain ⟨-, hanswer⟩ | ⟨-, fault, hanswer⟩ | ⟨-, request, hrequest, hanswer⟩ := answer_cases w line
    · rw [hanswer]
      exact h
    · rw [hanswer]
      exact h
    · have hne : request ≠ .init := fun hinit => hline ⟨hinit ▸ hrequest, hgranted⟩
      rw [hanswer, handle_of_session?_eq_none line.1 h hne]
      exact h
  · rw [answer_unchanged hgranted]
    exact h

/-! ## Lines one after the other -/

theorem exchange_lines (w : Service) (lines : List Line) : (w.exchange lines).map (·.1) = lines := by
  induction lines generalizing w with
  | nil => rfl
  | cons line lines ih => rw [exchange, List.map_cons, ih]

theorem exchange_append (w : Service) (before after : List Line) :
    w.exchange (before ++ after) = w.exchange before ++ (w.hearing before).exchange after := by
  induction before generalizing w with
  | nil => rfl
  | cons line before ih => rw [List.cons_append, exchange, exchange, ih, List.cons_append]; rfl

theorem hearing_append (w : Service) (before after : List Line) :
    w.hearing (before ++ after) = (w.hearing before).hearing after := List.foldl_append

theorem config_hearing (w : Service) (lines : List Line) : (w.hearing lines).config = w.config := by
  induction lines generalizing w with
  | nil => rfl
  | cons line lines ih => exact (ih _).trans (config_answer w line)

theorem session?_hearing (h : w.session? = none) {lines : List Line} (hlines : ∀ e ∈ w.exchange lines, ¬Initialises e) :
    (w.hearing lines).session? = none := by
  induction lines generalizing w with
  | nil => exact h
  | cons line lines ih =>
    rw [exchange, List.forall_mem_cons] at hlines
    exact ih (session?_answer h hlines.1) hlines.2

theorem blank_of_mem_exchange {lines : List Line} {e : Line × Option Response} (he : e ∈ w.exchange lines) :
    e.2 = none ↔ Blank e.1.2 := by
  induction lines generalizing w with
  | nil => cases he
  | cons line lines ih =>
    rcases List.mem_cons.mp he with rfl | he
    · exact answer_eq_none_iff w line
    · exact ih he

/-- Lines that are no granted requests can be taken out: the others are answered as they were. -/
theorem exchange_sublist {lines : List Line} {kept : List (Line × Option Response)}
    (hkept : kept.Sublist (w.exchange lines)) (h : kept.filter Granted = (w.exchange lines).filter Granted) :
    w.exchange (kept.map (·.1)) = kept ∧ w.hearing (kept.map (·.1)) = w.hearing lines := by
  induction lines generalizing w kept with
  | nil =>
    obtain rfl := List.sublist_nil.mp hkept
    exact ⟨rfl, rfl⟩
  | cons line lines ih =>
    rw [exchange] at hkept h
    cases hkept with
    | cons _ hkept =>
      have hrefused : ¬Granted (line, (w.answer line.1 line.2).1) := by
        intro hgranted
        have hlength := (hkept.filter (fun e => decide (Granted e))).length_le
        rw [h, List.filter_cons_of_pos (by simpa using hgranted), List.length_cons] at hlength
        omega
      rw [List.filter_cons_of_neg (by simpa using hrefused)] at h
      have hsame := answer_unchanged hrefused
      rw [hsame] at hkept h
      exact ⟨(ih hkept h).1, (ih hkept h).2.trans (congrArg (hearing · lines) hsame.symm)⟩
    | @cons_cons kept _ _ hkept =>
      have hrest : kept.filter Granted = (exchange (w.answer line.1 line.2).2 lines).filter Granted := by
        rw [List.filter_cons, List.filter_cons] at h
        split at h
        · exact (List.cons.inj h).2
        · exact h
      rw [List.map_cons, exchange, (ih hkept hrest).1]
      exact ⟨rfl, (ih hkept hrest).2⟩

/-! ## Texts -/

theorem answers_eq (w : Service) (host : Host) (lines : List String) :
    w.answers host lines =
      ((w.exchange (lines.map fun line => (host, line))).filterMap (·.2), w.hearing (lines.map fun line => (host, line))) := by
  induction lines generalizing w with
  | nil => rfl
  | cons line lines ih =>
    rw [answers]
    simp only [ih]
    cases h : (w.answer host line).1 <;> simp [exchange, hearing, h]

theorem serveAll_eq (w : Service) (texts : List (Host × String)) :
    w.serveAll texts = ((w.exchange (arrivals texts)).filterMap (·.2), w.hearing (arrivals texts)) := by
  induction texts generalizing w with
  | nil => rfl
  | cons text texts ih =>
    rw [serveAll, serve, answers_eq]
    simp only [ih]
    have harrivals : arrivals (text :: texts) =
        (Service.lines text.2).map (fun line => (text.1, line)) ++ arrivals texts := List.flatMap_cons
    rw [harrivals, exchange_append, List.filterMap_append, hearing_append]

/-! ## Written lines -/

theorem splitLines_lines (lines : List (List Char)) (h : ∀ line ∈ lines, '\n' ∉ line) :
    Source.splitLines (lines.flatMap (· ++ ['\n'])) = lines.map (· ++ ['\n']) ++ [[]] := by
  induction lines with
  | nil => rfl
  | cons line lines ih =>
    rw [List.forall_mem_cons] at h
    rw [List.flatMap_cons, List.append_assoc, List.singleton_append, Source.splitLines_append h.1, ih h.2]
    rfl

/-- Lines without control characters are the lines of the text that has them one below the other. -/
theorem lines_join {texts : List String} (h : ∀ text ∈ texts, Json.Printable text.toList) :
    Service.lines (String.join (texts.map (· ++ "\n"))) = texts := by
  have hchars : (String.join (texts.map (· ++ "\n"))).toList = (texts.map String.toList).flatMap (· ++ ['\n']) := by
    rw [String.toList_join, List.flatMap_map, List.flatMap_map]
    exact List.flatMap_congr fun text _ => String.toList_append
  have hsplit := splitLines_lines (texts.map String.toList) (List.forall_mem_map.mpr fun text htext hfeed =>
    absurd (h text htext _ hfeed) (by decide))
  unfold Service.lines
  simp only [hchars, hsplit, List.getLast?_append, List.getLast?_singleton, Option.some_or, if_true,
    List.dropLast_concat, List.map_map]
  refine (List.map_congr_left fun text htext => ?_).trans (List.map_id texts)
  have hreturn : text.toList.getLast? ≠ some '\r' := fun hlast =>
    absurd (h text htext _ (List.mem_of_getLast? hlast)) (by decide)
  simp [hreturn, String.ofList_toList]

/-- An answer stands on one line. -/
theorem printable_render (r : Response) : Json.Printable r.toJson.render.toList := by
  rw [Json.render, String.toList_ofList]
  have hplain : Json.Plain (fun _ => True) 3 r.toJson :=
    Response.plain_toJson (fun _ _ => trivial) (fun _ _ => trivial) r.numbers_true
  exact Json.printable_chars hplain

/-- What is written is one line for each answer. -/
theorem lines_written (responses : List Response) :
    Service.lines (written responses) = responses.map fun r => r.toJson.render := by
  have hprintable : ∀ text ∈ responses.map fun r => r.toJson.render, Json.Printable text.toList :=
    List.forall_mem_map.mpr fun r _ => printable_render r
  have hlines := lines_join hprintable
  rw [List.map_map] at hlines
  exact hlines

end Recheck.Service
