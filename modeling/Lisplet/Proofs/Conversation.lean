import Lisplet.Proofs.Answers
import Lisplet.Proofs.Logging

/-!
# Conversations with one session

`mapM_handle_converses`: the answers of a server to a row of requests are those of one session that is called
once for each of them (`Converses`), and what these calls log is what the answers hold as output, each
line once and in order. A server need not keep the lines that it has answered with: with a buffer that is
emptied before code is run (`handleBuffered`) it gives the same answers. This ends with the first request
for a text that exhausts the stack (`Overflows`): it has no answer, and what its code logs is in none.
-/

namespace Lisplet.Server

open Session (Reportable)

/-! ### What a session answers -/

/-- A request in which code to evaluate, if there is any, is text. -/
def Textual (members : List (String × Json)) : Prop :=
  Json.member? members "cmd" = some (.string "eval") →
    ∀ code, Json.member? members "code" = some code → ∃ text, code = .string text

/-- The report of a session on one expression of a batch. -/
inductive Reports (s : Session) : Outcome → Json → Prop where
  | value {text display : String} {v : Value} (h : s.write v = .ok display) :
    Reports s ⟨text, .ok v⟩ (.object [("ok", .bool true), ("text", .string text), ("value", .string display)])
  | failure (text : String) (failure : Failure) :
    Reports s ⟨text, .error failure⟩
      (.object [("ok", .bool false), ("text", .string text), ("error", .string failure.message)])

/-- An entry in a list of the definitions of a session. -/
def Lists (s : Session) (d : String × Value) (entry : String × Json) : Prop :=
  ∃ text, s.write d.2 = .ok text ∧ entry = (d.1, .string text)

/-- What a session that is called for a request answers, and the session behind the call. -/
inductive Replies (s : Session) (members : List (String × Json)) : Json → Session → Prop where
  | ran {code : String} {outcomes : List Outcome} {reports : List Json} {output : List String} {s' : Session}
    (hcmd : Json.member? members "cmd" = some (.string "eval"))
    (hcode : (Json.member? members "code").getD (.string "") = .string code)
    (hrun : Session.run code s = .ok outcomes s') (hreports : List.Forall₂ (Reports s') outcomes reports)
    (houtput : s'.log = s.log ++ output) :
    Replies s members (.object [("ok", .bool true), ("results", .array reports),
      ("output", .array (output.map .string))]) s'
  | unreadable {code : String} {failure : Failure} (hcmd : Json.member? members "cmd" = some (.string "eval"))
    (hcode : (Json.member? members "code").getD (.string "") = .string code)
    (hparse : s.parse code = .error failure) :
    Replies s members (.object [("ok", .bool false), ("error", .string failure.message)]) s
  | listed {entries : List (String × Json)} (hcmd : Json.member? members "cmd" = some (.string "defines"))
    (hentries : List.Forall₂ (Lists s) s.userDefines entries) :
    Replies s members (.object [("ok", .bool true), ("defines", .object entries)]) s
  | undone (hcmd : Json.member? members "cmd" = some (.string "undo")) :
    Replies s members (.object [("ok", .bool true), ("undone", .bool s.undo.1)]) s.undo.2
  | unknown (hcmd : ∀ name ∈ ["eval", "defines", "undo"], Json.member? members "cmd" ≠ some (.string name)) :
    Replies s members (.object [("ok", .bool false),
      ("error", .string ("Unknown cmd: " ++ ((Json.member? members "cmd").getD .null).plain))]) s

/-- Requests to one session, one after the other, with the answers and the session behind the last. -/
inductive Converses : Session → List (List (String × Json)) → List Json → Session → Prop where
  | done (s : Session) : Converses s [] [] s
  | next {s t last : Session} {members : List (String × Json)} {requests : List (List (String × Json))} {answer : Json}
    {answers : List Json} (h : Replies s members answer t) (hrest : Converses t requests answers last) :
    Converses s (members :: requests) (answer :: answers) last

/-- The calls that a request is for. -/
def callsOf (members : List (String × Json)) : List Session.Call :=
  match Request.ofMembers members with
  | .eval (.text code) => [.run code]
  | .defines => [.userDefines]
  | .undo => [.undo]
  | _ => []

/-- The lines that an answer says were logged. -/
def Response.output : Response → List String
  | .results _ output => output
  | _ => []

/-- Answers a request where the log is a buffer, which is emptied before code is run. -/
def handleBuffered : Request → ServerM Response
  | .eval code => fun s => evalCode code (s.withLog [])
  | request => handle request

/-! ### The answer to a request -/

section
variable {s s' t : Session} {members : List (String × Json)} {code : String} {answer : Json}

theorem Textual.exists_code (h : Textual members) (hcmd : Json.member? members "cmd" = some (.string "eval")) :
    ∃ code, (Json.member? members "code").getD (.string "") = .string code := by
  cases hmember : Json.member? members "code" with
  | none => exact ⟨"", rfl⟩
  | some item => exact h hcmd item hmember

theorem ofMembers_eval (hcmd : Json.member? members "cmd" = some (.string "eval"))
    (hcode : (Json.member? members "code").getD (.string "") = .string code) :
    Request.ofMembers members = .eval (.text code) := by
  have hmember : Code.ofMember (Json.member? members "code") = .text code := by
    cases hmember : Json.member? members "code" with
    | none =>
      rw [hmember] at hcode
      cases hcode
      rfl
    | some item =>
      rw [hmember] at hcode
      cases hcode
      rfl
  simp only [Request.ofMembers, hcmd, hmember]

theorem ofMembers_unknown
    (h : ∀ name ∈ ["eval", "defines", "undo"], Json.member? members "cmd" ≠ some (.string name)) :
    Request.ofMembers members = .unknown ((Json.member? members "cmd").getD .null).plain := by
  unfold Request.ofMembers
  split
  · next hcmd => exact absurd hcmd (h "eval" (by simp))
  · next hcmd => exact absurd hcmd (h "defines" (by simp))
  · next hcmd => exact absurd hcmd (h "undo" (by simp))
  · next hcmd => rw [hcmd, Option.getD_some]
  · next hcmd => rw [hcmd, Option.getD_none]

theorem results_of_reports {outcomes : List Outcome} {reports : List Json}
    (h : List.Forall₂ (Reports s) outcomes reports) :
    ∃ rs, results s outcomes = .ok rs ∧ rs.map Response.resultJson = reports := by
  induction h with
  | nil => exact ⟨[], rfl, rfl⟩
  | @cons o report os _ hreport _ ih =>
    obtain ⟨rs, hrs, rfl⟩ := ih
    unfold results at hrs
    cases hreport with
    | @value text display v hv =>
      refine ⟨⟨true, text, display⟩ :: rs, ?_, rfl⟩
      rw [results, List.mapM_cons, hrs]
      simp only [Session.display, hv]
      rfl
    | failure text failure =>
      refine ⟨⟨false, text, failure.message⟩ :: rs, ?_, rfl⟩
      rw [results, List.mapM_cons, hrs]
      rfl

theorem definitions_of_lists {ds : List (String × Value)} {entries : List (String × Json)}
    (h : List.Forall₂ (Lists s) ds entries) :
    ∃ texts : List (String × String), (ds.mapM fun (name, v) => do return (name, ← s.write v)) = .ok texts ∧
      texts.map (fun d => (d.1, Json.string d.2)) = entries := by
  induction h with
  | nil => exact ⟨[], rfl, rfl⟩
  | @cons d _ ds _ hentry _ ih =>
    obtain ⟨text, htext, rfl⟩ := hentry
    obtain ⟨texts, htexts, rfl⟩ := ih
    refine ⟨(d.1, text) :: texts, ?_, rfl⟩
    rw [List.mapM_cons, htexts]
    dsimp only
    rw [htext]
    rfl

theorem listDefines_of_definitions {texts : List (String × String)} (h : definitions s = .ok texts) :
    listDefines s = .ok (.defines texts) s := by
  show EStateM.bind (ServerM.ofExcept (definitions s)) _ s = _
  rw [h]
  rfl

/-- Code that is read is run as it is with an empty log, behind the lines that are in the log already. -/
theorem run_withLog {outcomes : List Outcome} (h : Session.run code s = .ok outcomes s') :
    ∃ t, Session.run code (s.withLog []) = .ok outcomes t ∧ s' = t.behind s.log := by
  have hlogged := Session.run_logged s.log code (s.withLog [])
  rw [Session.behind_withLog, h] at hlogged
  cases hrun : Session.run code (s.withLog []) with
  | ok outcomes' t =>
    rw [hrun] at hlogged
    cases hlogged
    exact ⟨t, rfl, rfl⟩
  | error failure t =>
    rw [hrun] at hlogged
    cases hlogged

theorem evalCode_of_run {outcomes : List Outcome} {rs : List Result} (hrun : Session.run code s = .ok outcomes s')
    (hresults : results s' outcomes = .ok rs) :
    evalCode (.text code) s = .ok (.results rs (s'.log.drop s.log.length)) s' := by
  simp only [evalCode, Code.run, ServerM.ofSession, hrun, hresults]
  rfl

theorem evalCode_of_parse {failure : Failure} (hparse : s.parse code = .error failure) :
    evalCode (.text code) s = .ok (.failed failure.message) s := by
  have hrun : Session.run code s = .error failure s := by rw [Session.run_eq, hparse]
  have htold : failure.isBreakdown = false := by
    rcases Session.refuses_of_parse hparse with hkind | hkind <;> exact Failure.isBreakdown_of_kind? (by simp [hkind])
  simp only [evalCode, Code.run, ServerM.ofSession, hrun, htold]
  rfl

/-- A server calls its session for a request, whether it can answer then or not. -/
theorem after_of_textual (h : Textual members) (s : Session) : after members s = s.performAll (callsOf members) := by
  by_cases heval : Json.member? members "cmd" = some (.string "eval")
  · obtain ⟨code, hcode⟩ := h.exists_code heval
    have hperform : s.performAll (callsOf members) = s.after (Session.run code) := by
      rw [callsOf, ofMembers_eval heval hcode]
      rfl
    rw [hperform, after, ofMembers_eval heval hcode]
    simp only [handle, evalCode, Code.run, ServerM.ofSession, Session.after]
    cases Session.run code s with
    | ok outcomes s' =>
      dsimp only
      cases results s' outcomes <;> rfl
    | error failure s' =>
      dsimp only
      cases failure.isBreakdown <;> rfl
  · have hrequest : ∀ code, Request.ofMembers members ≠ .eval code := by
      unfold Request.ofMembers
      split
      · next hcmd => exact absurd hcmd heval
      all_goals
        intro code h
        cases h
    unfold after callsOf
    cases hmembers : Request.ofMembers members with
    | eval code => exact absurd hmembers (hrequest code)
    | defines =>
      simp only [handle, listDefines, bind, EStateM.bind, get, getThe, MonadStateOf.get, EStateM.get]
      cases definitions s <;> rfl
    | undo | unknown => rfl

/-- How a server deals with a request: what it answers, what becomes of its session, what it logs, and that a buffer
makes no difference. -/
structure Deals (s : Session) (members : List (String × Json)) (response : Response) (s' : Session) : Prop where
  handle : handle (.ofMembers members) s = .ok response s'
  output : s'.log = s.log ++ response.output
  buffered : ∀ buffer, ∃ buffer',
    handleBuffered (.ofMembers members) (s.withLog buffer) = .ok response (s'.withLog buffer')

/-- The server answers what the session does. -/
theorem Replies.deals (h : Replies s members answer s') :
    ∃ response, Deals s members response s' ∧ response.toJson = answer := by
  cases h with
  | @ran code outcomes reports output _ hcmd hcode hrun hreports houtput =>
    have hrequest := ofMembers_eval hcmd hcode
    obtain ⟨rs, hresults, rfl⟩ := results_of_reports hreports
    -- what the batch adds to the log is all that is in it when it starts with an empty one
    obtain ⟨t, ht, rfl⟩ := run_withLog hrun
    obtain rfl : t.log = output := List.append_cancel_left houtput
    have hhandle := evalCode_of_run hrun hresults
    rw [houtput, List.drop_left] at hhandle
    refine ⟨.results rs t.log, ⟨?_, houtput, fun buffer => ⟨t.log, ?_⟩⟩, rfl⟩
    · rw [hrequest]
      exact hhandle
    · rw [hrequest]
      exact evalCode_of_run ht hresults
  | @unreadable code failure hcmd hcode hparse =>
    have hrequest := ofMembers_eval hcmd hcode
    refine ⟨.failed failure.message, ⟨?_, (List.append_nil _).symm, fun buffer => ⟨[], ?_⟩⟩, rfl⟩
    · rw [hrequest]
      exact evalCode_of_parse hparse
    · rw [hrequest]
      exact evalCode_of_parse hparse
  | listed hcmd hentries =>
    have hrequest : Request.ofMembers members = .defines := by simp only [Request.ofMembers, hcmd]
    obtain ⟨texts, htexts, rfl⟩ := definitions_of_lists hentries
    refine ⟨.defines texts, ⟨?_, (List.append_nil _).symm, fun buffer => ⟨buffer, ?_⟩⟩, rfl⟩
    · rw [hrequest]
      exact listDefines_of_definitions htexts
    · rw [hrequest]
      exact listDefines_of_definitions (s := s.withLog buffer) htexts
  | undone hcmd =>
    have hrequest : Request.ofMembers members = .undo := by simp only [Request.ofMembers, hcmd]
    refine ⟨.undone s.undo.1, ⟨?_, ?_, fun buffer => ⟨buffer, ?_⟩⟩, rfl⟩
    · rw [hrequest]
      rfl
    · exact (Session.files_log_perform (c := .undo) rfl).2.trans (List.append_nil _).symm
    · rw [hrequest]
      show EStateM.Result.ok (Response.undone (s.withLog buffer).undo.1) (s.withLog buffer).undo.2 = _
      rw [Session.undo_withLog]
  | unknown hcmd =>
    have hrequest := ofMembers_unknown hcmd
    refine ⟨.failed ("Unknown cmd: " ++ _), ⟨?_, (List.append_nil _).symm, fun buffer => ⟨buffer, ?_⟩⟩, rfl⟩
    · rw [hrequest]
      rfl
    · rw [hrequest]
      rfl

theorem write_of_writes {v : Value} (hroom : s.Writes v) (h : ∃ text, v.text = .ok text) :
    ∃ text, s.write v = .ok text := by
  obtain ⟨text, htext⟩ := h
  exact ⟨text, (if_pos hroom).trans htext⟩

theorem exists_reports {es : List Value} {outcomes : List Outcome} (h : List.Forall₂ Reportable es outcomes)
    (hfits : ∀ o ∈ outcomes, Fits s o) : ∃ reports, List.Forall₂ (Reports s) outcomes reports := by
  induction h with
  | nil => exact ⟨[], .nil⟩
  | @cons e o _ _ ho _ ih =>
    obtain ⟨hfit, hfits⟩ := List.forall_mem_cons.1 hfits
    obtain ⟨reports, hreports⟩ := ih hfits
    obtain ⟨text, result⟩ := o
    cases result with
    | ok v =>
      obtain ⟨display, hdisplay⟩ := write_of_writes (hfit v rfl) ho.display
      exact ⟨_, .cons (.value hdisplay) hreports⟩
    | error failure => exact ⟨_, .cons (.failure text failure) hreports⟩

theorem exists_entries {ds : List (String × Value)} (h : ∀ d ∈ ds, Session.Presentable d.2)
    (hroom : ∀ d ∈ ds, s.Writes d.2) : ∃ entries, List.Forall₂ (Lists s) ds entries := by
  induction ds with
  | nil => exact ⟨[], .nil⟩
  | cons d ds ih =>
    obtain ⟨hd, hds⟩ := List.forall_mem_cons.1 h
    obtain ⟨hdroom, hdsroom⟩ := List.forall_mem_cons.1 hroom
    obtain ⟨text, htext⟩ := write_of_writes hdroom (hd.format false)
    obtain ⟨entries, hentries⟩ := ih hds hdsroom
    exact ⟨_, .cons ⟨text, htext, rfl⟩ hentries⟩

/-- A session over text replies to every request with text for code, if the stack is not exhausted. -/
theorem exists_replies (hs : s.Native) (h : Textual members) (hroom : ¬ Overflows s (.ofMembers members)) :
    ∃ answer t, Replies s members answer t := by
  by_cases heval : Json.member? members "cmd" = some (.string "eval")
  · obtain ⟨code, hcode⟩ := h.exists_code heval
    cases hparse : s.parse code with
    | error failure => exact ⟨_, s, .unreadable heval hcode hparse⟩
    | ok es =>
      rw [ofMembers_eval heval hcode] at hroom
      have hreportable := hs.run_of_parse hparse
      simp only [Overflows, Code.run, ServerM.ofSession] at hroom
      cases hrun : Session.run code s with
      | ok outcomes t =>
        rw [hrun] at hreportable hroom
        have hfits : ∀ o ∈ outcomes, Fits t o := by simpa using hroom
        obtain ⟨reports, hreports⟩ := exists_reports hreportable hfits
        obtain ⟨t, -, rfl⟩ := run_withLog hrun
        exact ⟨_, _, .ran heval hcode hrun hreports rfl⟩
      | error failure t =>
        rw [hrun] at hreportable hroom
        obtain ⟨rfl, -⟩ := hreportable
        exact absurd rfl hroom
  by_cases hdefines : Json.member? members "cmd" = some (.string "defines")
  · have hrequest : Request.ofMembers members = .defines := by simp only [Request.ofMembers, hdefines]
    rw [hrequest] at hroom
    obtain ⟨entries, hentries⟩ := exists_entries hs.userDefines (by simpa [Overflows] using hroom)
    exact ⟨_, s, .listed hdefines hentries⟩
  by_cases hundo : Json.member? members "cmd" = some (.string "undo")
  · exact ⟨_, s.undo.2, .undone hundo⟩
  · exact ⟨_, s, .unknown (by simp [heval, hdefines, hundo])⟩

theorem Textual.not_breaks {room : Nat} (h : Textual members) : ¬ Breaks room members := by
  rintro ⟨hcmd, code, hcode, hno⟩
  obtain ⟨text, rfl⟩ := h hcmd code hcode
  exact hno

end

/-! ### The answers to a row of requests -/

section
variable {s s' : Session} {requests : List (List (String × Json))} {answers : List Json}

/-- A server that answers a row of requests as one session does that is called for them in turn, and only so: the
session is then as the calls leave it, and the lines that they logged are the output of the answers, one after the
other. With a buffer for its log that is emptied before code is run, the server gives the same answers. -/
structure Keeps (s : Session) (requests : List (List (String × Json))) (responses : List Response) (s' : Session) :
    Prop where
  handled : requests.mapM (fun members => handle (.ofMembers members)) s = .ok responses s'
  converses : Converses s requests (responses.map Response.toJson) s'
  unique : ∀ answers t, Converses s requests answers t → answers = responses.map Response.toJson ∧ t = s'
  called : s' = s.performAll (requests.flatMap callsOf)
  logged : s'.log = s.log ++ responses.flatMap Response.output
  buffered : ∀ buffer, ∃ buffer',
    requests.mapM (fun members => handleBuffered (.ofMembers members)) (s.withLog buffer) =
      .ok responses (s'.withLog buffer')

theorem exists_converses (hs : Reached s) (h : ∀ members ∈ requests, Textual members) :
    ∃ done rest answers s', requests = done ++ rest ∧ Converses s done answers s' ∧ Reached s' ∧
      ∀ members ∈ rest.head?, Overflows s' (.ofMembers members) := by
  induction requests generalizing s with
  | nil => exact ⟨[], [], [], s, rfl, .done s, hs, by simp⟩
  | cons members requests ih =>
    obtain ⟨hmembers, hrequests⟩ := List.forall_mem_cons.1 h
    by_cases hroom : Overflows s (.ofMembers members)
    · refine ⟨[], members :: requests, [], s, rfl, .done s, hs, ?_⟩
      rintro _ ⟨⟩
      exact hroom
    · obtain ⟨answer, t, hreplies⟩ := exists_replies hs.native hmembers hroom
      obtain ⟨response, hdeals, -⟩ := hreplies.deals
      have ht := hs.handle hmembers.not_breaks
      rw [hdeals.handle] at ht
      obtain ⟨done, rest, answers, s', rfl, hrest, hs', hover⟩ := ih ht.2.1 hrequests
      exact ⟨members :: done, rest, _, s', rfl, .next hreplies hrest, hs', hover⟩

theorem Converses.mapM_handle (h : Converses s requests answers s') (htextual : ∀ members ∈ requests, Textual members) :
    ∃ responses : List Response, responses.map Response.toJson = answers ∧
      requests.mapM (fun members => handle (.ofMembers members)) s = .ok responses s' ∧
      s' = s.performAll (requests.flatMap callsOf) ∧ s'.log = s.log ++ responses.flatMap Response.output ∧
      ∀ buffer, ∃ buffer', requests.mapM (fun members => handleBuffered (.ofMembers members)) (s.withLog buffer) =
        .ok responses (s'.withLog buffer') := by
  induction h with
  | done s => exact ⟨[], rfl, rfl, rfl, (List.append_nil _).symm, fun buffer => ⟨buffer, rfl⟩⟩
  | @next s _ _ _ _ _ _ h _ ih =>
    obtain ⟨hmembers, hrequests⟩ := List.forall_mem_cons.1 htextual
    obtain ⟨response, hdeals, rfl⟩ := h.deals
    obtain ⟨responses, rfl, hhandle, hcalled, houtput, hbuffered⟩ := ih hrequests
    have hafter := after_of_textual hmembers s
    rw [after, hdeals.handle] at hafter
    refine ⟨response :: responses, rfl, mapM_cons_of_ok hdeals.handle hhandle, ?_, ?_, fun buffer => ?_⟩
    · rw [List.flatMap_cons, Session.performAll_append, ← hafter, hcalled]
    · rw [houtput, hdeals.output, List.flatMap_cons, List.append_assoc]
    -- whatever one request leaves in the buffer, the next one may start with it
    · obtain ⟨buffer', hresponse⟩ := hdeals.buffered buffer
      obtain ⟨last, hresponses⟩ := hbuffered buffer'
      exact ⟨last, mapM_cons_of_ok hresponse hresponses⟩

theorem Converses.keeps (h : Converses s requests answers s') (htextual : ∀ members ∈ requests, Textual members) :
    ∃ responses, Keeps s requests responses s' := by
  obtain ⟨responses, rfl, hhandle, hcalled, houtput, hbuffered⟩ := h.mapM_handle htextual
  refine ⟨responses, hhandle, h, fun answers t h' => ?_, hcalled, houtput, hbuffered⟩
  obtain ⟨responses', rfl, hhandle', -⟩ := h'.mapM_handle htextual
  rw [hhandle] at hhandle'
  cases hhandle'
  exact ⟨rfl, rfl⟩

end

/-- A server answers requests whose code is text as one session does that is called for them in turn (`Keeps`), up to
the first that exhausts the stack. That request has no answer, nor have those behind it, and the session is as the
call for it leaves it. -/
theorem mapM_handle_converses {s : Session} (hs : Reached s) (requests : List (List (String × Json)))
    (hrequests : ∀ members ∈ requests, Textual members) :
    ∃ done rest responses s', requests = done ++ rest ∧ Keeps s done responses s' ∧
      ∀ members ∈ rest.head?, Overflows s' (.ofMembers members) ∧
        requests.mapM (fun members => handle (.ofMembers members)) s =
          .error (.failure .exhausted) (s'.performAll (callsOf members)) := by
  obtain ⟨done, rest, answers, s', rfl, hconverses, hs', hover⟩ := exists_converses hs hrequests
  obtain ⟨responses, hkeeps⟩ := hconverses.keeps fun members hmem => hrequests members (List.mem_append_left _ hmem)
  refine ⟨done, rest, responses, s', rfl, hkeeps, fun members hmem => ⟨hover members hmem, ?_⟩⟩
  cases rest with
  | nil => cases hmem
  | cons first rest =>
    cases hmem
    have htextual : Textual members := hrequests members (by simp)
    have hafter := after_of_textual htextual s'
    have hhandle := hs'.handle htextual.not_breaks
    unfold after at hafter
    cases hres : handle (.ofMembers members) s' with
    | ok response t =>
      rw [hres] at hhandle
      exact absurd (hover members rfl) hhandle.1
    | error interruption t =>
      rw [hres] at hhandle hafter
      obtain rfl := hhandle.1
      rw [← hafter]
      exact mapM_append_of_error hkeeps.handled hres

/-- Between two batches that log there are one that fails in part, code that cannot be read, code that is missing, an
undo, a list of the definitions and a command that is not known. -/
theorem mapM_handle_converses_logged :
    let requests := [[("cmd", .string "eval"), ("code", .string "(log \"a\") (log x) (log \"b\")")],
      [("cmd", .string "eval"), ("code", .string "(log \"c\"")], [("cmd", .string "eval")], [("cmd", .string "undo")],
      [("cmd", .string "defines")], [("cmd", .int 3)],
      [("code", .string "(log \"d\")"), ("cmd", .string "eval")]]
    session ⟨1000, true, "", 0⟩ = .ok (.fresh 1000 true ∅) ∧ ∃ responses s',
      Keeps (.fresh 1000 true ∅) requests responses s' ∧ responses.flatMap Response.output = ["a", "b", "d"] := by
  intro requests
  have hsession : session ⟨1000, true, "", 0⟩ = .ok (.fresh 1000 true ∅) := rfl
  have htextual : ∀ members ∈ requests, Textual members := by
    simp [requests, Textual, Json.member?]
  obtain ⟨done, rest, responses, s', happend, hkeeps, hover⟩ :=
    mapM_handle_converses (reached_session hsession) requests htextual
  have hanswered : ((requests.mapM fun members => handle (.ofMembers members)).run' (.fresh 1000 true ∅)).isSome := by
    decide +kernel
  have hlog : ((Session.fresh 1000 true ∅).performAll (requests.flatMap callsOf)).log = ["a", "b", "d"] := by
    decide +kernel
  cases rest with
  | nil =>
    rw [List.append_nil] at happend
    rw [← happend] at hkeeps
    have hlogged := hkeeps.logged
    rw [hkeeps.called, hlog] at hlogged
    exact ⟨hsession, responses, s', hkeeps, hlogged.symm⟩
  | cons first rest =>
    rw [EStateM.run', EStateM.run, (hover first rfl).2] at hanswered
    cases hanswered

end Lisplet.Server
