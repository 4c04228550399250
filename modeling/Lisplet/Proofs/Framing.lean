import Lisplet.Proofs.PlainText
import Lisplet.Server.Connection
import Mathlib.Data.List.TakeWhile

/-!
# Framing

What a client is sent depends on the lines that it has completed and not on the chunks in which they
come. `Serves` says line by line what a session answers, without a buffer, and `Handles` what it answers
to one line that is not blank. A row of chunks is received like all their bytes at once (`foldl_receive`), bytes
received at once are taken line by line (`receive_start`), and lines are taken as `Serves` says
(`foldl_take`).
-/

namespace Lisplet.Server

/-- The lines that some bytes complete: all that a newline ends. -/
def completeLines (bytes : List UInt8) : List (List UInt8) := (bytes.splitOn newline).dropLast

/-- What is left of a line between the blanks at its two ends. -/
def Stripped (line core : List UInt8) : Prop :=
  ∃ before after, line = before ++ core ++ after ∧ (∀ b ∈ before, isBlankByte b) ∧
    (∀ b ∈ after, isBlankByte b) ∧ (∀ b ∈ core.head?, ¬ isBlankByte b) ∧ ∀ b ∈ core.getLast?, ¬ isBlankByte b

/-- The bytes that encode a text. -/
def encoding (text : String) : List UInt8 := text.toUTF8.data.toList

/-- What comes of a line without blanks around it: an answer and the session behind it, or the
interruption that ends the connection. -/
inductive Handles (s : Session) (core : List UInt8) : EStateM.Result Interruption Session Response → Prop where
  | undecodable (hcore : ∀ text, encoding text ≠ core) : Handles s core (.ok (.failed "Invalid request: *") s)
  | malformed {text : String} (hcore : encoding text = core) (hparse : Json.parse s.limit text = .error .malformed) :
    Handles s core (.ok (.failed "Invalid request: *") s)
  | beyond {text : String} {failure : Failure} (hcore : encoding text = core)
    (hparse : Json.parse s.limit text = .error (.beyond failure)) : Handles s core (.error (.failure failure) s)
  | misplaced {text : String} {v : Json} (hcore : encoding text = core) (hparse : Json.parse s.limit text = .ok v)
    (hv : ∀ members, v ≠ .object members) :
    Handles s core (.ok (.failed "Invalid request: expected an object") s)
  | request {text : String} {members : List (String × Json)} (hcore : encoding text = core)
    (hparse : Json.parse s.limit text = .ok (.object members)) : Handles s core (handle (.ofMembers members) s)

/-- Lines that come to a session, the answers to them, and what there is after the last of these: the
session, and the interruption if a line brought one. -/
inductive Serves : Session → List (List UInt8) → List Response → Session → Option Interruption → Prop where
  | done (s : Session) : Serves s [] [] s none
  | blank {s last : Session} {line : List UInt8} {lines : List (List UInt8)} {responses : List Response}
    {ended : Option Interruption} (hline : Stripped line []) (hrest : Serves s lines responses last ended) :
    Serves s (line :: lines) responses last ended
  | answer {s next last : Session} {line core : List UInt8} {lines : List (List UInt8)} {response : Response}
    {responses : List Response} {ended : Option Interruption} (hline : Stripped line core) (hcore : core ≠ [])
    (hresponse : Handles s core (.ok response next)) (hrest : Serves next lines responses last ended) :
    Serves s (line :: lines) (response :: responses) last ended
  | interrupted {s last : Session} {line core : List UInt8} {lines : List (List UInt8)} {interruption : Interruption}
    (hline : Stripped line core) (hcore : core ≠ []) (hbreak : Handles s core (.error interruption last)) :
    Serves s (line :: lines) [] last (some interruption)

/-! ### Lines -/

theorem frames_append (held xs ys : List UInt8) :
    frames held (xs ++ ys) =
      ((frames held xs).1 ++ (frames (frames held xs).2 ys).1, (frames (frames held xs).2 ys).2) := by
  induction xs generalizing held with
  | nil => simp [frames]
  | cons b xs ih =>
    simp only [List.cons_append, frames]
    split
    · rw [ih]
      rfl
    · exact ih _

theorem frames_fst (held bytes : List UInt8) :
    (frames held bytes).1 = (List.splitOnPPrepend (· == newline) bytes held).dropLast := by
  induction bytes generalizing held with
  | nil => simp [frames]
  | cons b bytes ih =>
    rw [frames]
    split
    · next h =>
      have hne := List.splitOnPPrepend_ne_nil (· == newline) bytes []
      rw [List.splitOnPPrepend_cons_pos (by simpa using h), ← List.splitOnPPrepend_nil_right,
        List.dropLast_cons_of_ne_nil hne, ← ih []]
    · next h => rw [List.splitOnPPrepend_cons_neg (by simpa using h), ih]

theorem completeLines_eq_frames (bytes : List UInt8) : completeLines bytes = (frames [] bytes).1 := by
  rw [completeLines, List.splitOn_eq_splitOnP, ← List.splitOnPPrepend_nil_right, frames_fst]

theorem frames_of_not_mem {held bytes : List UInt8} (h : newline ∉ bytes) : (frames held bytes).1 = [] := by
  induction bytes generalizing held with
  | nil => rfl
  | cons b bytes ih =>
    rw [List.mem_cons, not_or] at h
    rw [frames, if_neg (Ne.symm h.1)]
    exact ih h.2

theorem completeLines_append {bytes tail : List UInt8} (h : newline ∉ tail) :
    completeLines (bytes ++ tail) = completeLines bytes := by
  rw [completeLines_eq_frames, frames_append, frames_of_not_mem h, List.append_nil, completeLines_eq_frames]

theorem dropWhile_blank {blanks bytes : List UInt8} (hblanks : ∀ b ∈ blanks, isBlankByte b)
    (hbytes : ∀ b ∈ bytes.head?, ¬ isBlankByte b) : (blanks ++ bytes).dropWhile isBlankByte = bytes := by
  rw [List.dropWhile_append_of_pos hblanks]
  cases bytes with
  | nil => rfl
  | cons b bytes => exact List.dropWhile_cons_of_neg (hbytes b rfl)

theorem head?_dropWhile_blank (bytes : List UInt8) :
    ∀ b ∈ (bytes.dropWhile isBlankByte).head?, ¬ isBlankByte b := by
  intro b hb
  have := List.head?_dropWhile_not isBlankByte bytes
  rw [hb] at this
  simpa using this

theorem Stripped.trimLine_eq {line core : List UInt8} (h : Stripped line core) : trimLine line = core := by
  obtain ⟨before, after, rfl, hbefore, hafter, hhead, hlast⟩ := h
  unfold trimLine
  cases core with
  | nil =>
    have hall : (before ++ [] ++ after).dropWhile isBlankByte = [] :=
      List.dropWhile_eq_nil_iff.2 (by simpa [or_imp, forall_and] using ⟨hbefore, hafter⟩)
    rw [hall]
    rfl
  | cons b bytes =>
    have hfront : (before ++ b :: bytes ++ after).dropWhile isBlankByte = b :: bytes ++ after := by
      rw [List.append_assoc]
      exact dropWhile_blank hbefore hhead
    have hback : (after.reverse ++ (b :: bytes).reverse).dropWhile isBlankByte = (b :: bytes).reverse := by
      apply dropWhile_blank
      · simpa using hafter
      · rwa [List.head?_reverse]
    rw [hfront, List.reverse_append, hback, List.reverse_reverse]

theorem stripped_trimLine (line : List UInt8) : Stripped line (trimLine line) := by
  set rest := line.dropWhile isBlankByte with hrest
  have hback : rest = trimLine line ++ (rest.reverse.takeWhile isBlankByte).reverse := by
    rw [trimLine, ← List.reverse_append, List.takeWhile_append_dropWhile, List.reverse_reverse]
  refine ⟨line.takeWhile isBlankByte, (rest.reverse.takeWhile isBlankByte).reverse, ?_, ?_, ?_, ?_, ?_⟩
  · rw [List.append_assoc, ← hback, List.takeWhile_append_dropWhile]
  · exact fun b => List.mem_takeWhile_imp
  · exact fun b hb => List.mem_takeWhile_imp (List.mem_reverse.1 hb)
  · -- what is left starts where the blanks in front of the line end
    intro b hb
    apply head?_dropWhile_blank line
    rw [← hrest, hback, List.head?_append, hb]
    rfl
  · rw [trimLine, List.getLast?_reverse]
    exact head?_dropWhile_blank _

theorem fromUTF8?_eq_some_iff {bytes : List UInt8} {text : String} :
    String.fromUTF8? ⟨bytes.toArray⟩ = some text ↔ encoding text = bytes := by
  unfold String.fromUTF8?
  constructor
  · intro h
    split at h <;> cases h
    rfl
  · rintro rfl
    exact dif_pos text.isValidUTF8

/-! ### One line -/

/-- The result of a line that is answered if it is not interrupted. -/
def answered : EStateM.Result Interruption Session Response → EStateM.Result Interruption Session (Option Response)
  | .ok response s => .ok (some response) s
  | .error interruption s => .error interruption s

theorem answered_injective : Function.Injective answered := by
  rintro (⟨r, s⟩ | ⟨i, s⟩) (⟨r', s'⟩ | ⟨i', s'⟩) h <;> cases h <;> rfl

section Line

variable {s : Session} {line core : List UInt8} {result : EStateM.Result Interruption Session Response}

theorem exists_handles (s : Session) (core : List UInt8) : ∃ result, Handles s core result := by
  by_cases htext : ∃ text, encoding text = core
  · obtain ⟨text, hcore⟩ := htext
    cases hparse : Json.parse s.limit text with
    | ok v =>
      by_cases hv : ∃ members, v = .object members
      · obtain ⟨members, rfl⟩ := hv
        exact ⟨_, .request hcore hparse⟩
      · exact ⟨_, .misplaced hcore hparse (not_exists.1 hv)⟩
    | error fault =>
      cases fault with
      | malformed => exact ⟨_, .malformed hcore hparse⟩
      | beyond failure => exact ⟨_, .beyond hcore hparse⟩
  · exact ⟨_, .undecodable (not_exists.1 htext)⟩

theorem Handles.answer?_eq (h : Handles s core result) (hline : Stripped line core) (hcore : core ≠ []) :
    answer? (.ofBytes s.limit line) s = answered result := by
  obtain ⟨b, bytes, rfl⟩ := List.exists_cons_of_ne_nil hcore
  simp only [Line.ofBytes, hline.trimLine_eq]
  cases h with
  | undecodable htext =>
    have hnone : String.fromUTF8? ⟨(b :: bytes).toArray⟩ = none :=
      Option.eq_none_iff_forall_ne_some.2 fun text h => htext text (fromUTF8?_eq_some_iff.1 h)
    rw [hnone]
    rfl
  | malformed htext hparse =>
    rw [fromUTF8?_eq_some_iff.2 htext]
    simp only [hparse]
    rfl
  | beyond htext hparse =>
    rw [fromUTF8?_eq_some_iff.2 htext]
    simp only [hparse]
    rfl
  | @misplaced _ v htext hparse hv =>
    rw [fromUTF8?_eq_some_iff.2 htext]
    simp only [hparse]
    cases v with
    | object members => exact absurd rfl (hv members)
    | _ => rfl
  | @request _ members htext hparse =>
    rw [fromUTF8?_eq_some_iff.2 htext]
    simp only [hparse, answer?, bind, EStateM.bind]
    cases handle (.ofMembers members) s <;> rfl

theorem Handles.unique {result' : EStateM.Result Interruption Session Response} (h : Handles s core result)
    (h' : Handles s core result') (hline : Stripped line core) (hcore : core ≠ []) : result = result' := by
  apply answered_injective
  rw [← h.answer?_eq hline hcore, h'.answer?_eq hline hcore]

end Line

theorem Stripped.unique {line core core' : List UInt8} (h : Stripped line core) (h' : Stripped line core') :
    core = core' := h.trimLine_eq.symm.trans h'.trimLine_eq

/-! ### Rows of lines -/

theorem exists_serves (s : Session) (lines : List (List UInt8)) :
    ∃ responses last ended, Serves s lines responses last ended := by
  induction lines generalizing s with
  | nil => exact ⟨_, _, _, .done s⟩
  | cons line lines ih =>
    have hline := stripped_trimLine line
    by_cases hcore : trimLine line = []
    · obtain ⟨responses, last, ended, h⟩ := ih s
      exact ⟨_, _, _, .blank (hcore ▸ hline) h⟩
    · obtain ⟨result, hresult⟩ := exists_handles s (trimLine line)
      cases result with
      | ok response next =>
        obtain ⟨responses, last, ended, h⟩ := ih next
        exact ⟨_, _, _, .answer hline hcore hresult h⟩
      | error interruption last => exact ⟨_, _, _, .interrupted hline hcore hresult⟩

theorem Serves.unique {s last last' : Session} {lines : List (List UInt8)} {responses responses' : List Response}
    {ended ended' : Option Interruption} (h : Serves s lines responses last ended)
    (h' : Serves s lines responses' last' ended') : responses = responses' ∧ last = last' ∧ ended = ended' := by
  induction h generalizing responses' with
  | done => cases h'; exact ⟨rfl, rfl, rfl⟩
  | blank hline _ ih =>
    cases h' with
    | blank _ hrest' => exact ih hrest'
    | answer hline' hcore' => exact absurd (hline'.unique hline) hcore'
    | interrupted hline' hcore' => exact absurd (hline'.unique hline) hcore'
  | answer hline hcore hresponse _ ih =>
    cases h' with
    | blank hline' => exact absurd (hline.unique hline') hcore
    | answer hline' _ hresponse' hrest' =>
      obtain rfl := hline.unique hline'
      cases hresponse.unique hresponse' hline hcore
      obtain ⟨rfl, hrest⟩ := ih hrest'
      exact ⟨rfl, hrest⟩
    | interrupted hline' _ hbreak' =>
      obtain rfl := hline.unique hline'
      cases hresponse.unique hbreak' hline hcore
  | interrupted hline hcore hbreak =>
    cases h' with
    | blank hline' => exact absurd (hline.unique hline') hcore
    | answer hline' _ hresponse' =>
      obtain rfl := hline.unique hline'
      cases hbreak.unique hresponse' hline hcore
    | interrupted hline' _ hbreak' =>
      obtain rfl := hline.unique hline'
      cases hbreak.unique hbreak' hline hcore
      exact ⟨rfl, rfl, rfl⟩

/-- The line that an answer is sent as. -/
def Response.line (response : Response) : String := String.ofList response.toJson.render

namespace Connection

theorem take_blank {c : Connection} {line : List UInt8} (hline : Stripped line []) : c.take line = c := by
  unfold take
  split
  · rfl
  · rw [Line.ofBytes, hline.trimLine_eq]
    rfl

section Step

variable {c : Connection} {line core : List UInt8} (hc : c.ended = none) (hline : Stripped line core)
  (hcore : core ≠ [])

include hc hline hcore

theorem take_answer {response : Response} {next : Session} (h : Handles c.session core (.ok response next)) :
    c.take line = { c with session := next, sent := c.sent ++ [response.line] } := by
  simp only [take, hc, h.answer?_eq hline hcore]
  rfl

theorem take_interrupted {interruption : Interruption} {last : Session}
    (h : Handles c.session core (.error interruption last)) :
    c.take line = { c with session := last, ended := some interruption } := by
  simp only [take, hc, h.answer?_eq hline hcore]
  rfl

end Step

theorem foldl_take_of_ended {c : Connection} (hc : c.ended.isSome) (lines : List (List UInt8)) :
    lines.foldl take c = c := by
  induction lines with
  | nil => rfl
  | cons line lines ih => rw [List.foldl_cons, take, if_pos hc, ih]

theorem foldl_take {s last : Session} {lines : List (List UInt8)} {responses : List Response}
    {ended : Option Interruption} (h : Serves s lines responses last ended) {c : Connection}
    (hs : c.session = s) (hc : c.ended = none) :
    lines.foldl take c = { c with session := last, sent := c.sent ++ responses.map Response.line, ended } := by
  induction h generalizing c with
  | done =>
    subst hs
    simp [← hc]
  | blank hline _ ih => rw [List.foldl_cons, take_blank hline, ih hs hc]
  | @answer _ next _ _ _ _ response _ _ hline hcore hresponse _ ih =>
    subst hs
    have hrest := ih (c := { c with session := next, sent := c.sent ++ [response.line] }) rfl hc
    rw [List.foldl_cons, take_answer hc hline hcore hresponse, hrest, List.append_assoc, List.singleton_append,
      List.map_cons]
  | interrupted hline hcore hbreak =>
    subst hs
    rw [List.foldl_cons, take_interrupted hc hline hcore hbreak, foldl_take_of_ended rfl, List.map_nil,
      List.append_nil]

/-! ### Chunks -/

theorem take_held (c : Connection) (held line : List UInt8) :
    { c with held }.take line = { c.take line with held } := by
  unfold take
  dsimp only
  split
  · rfl
  · split <;> rfl

theorem foldl_take_held (c : Connection) (held : List UInt8) (lines : List (List UInt8)) :
    lines.foldl take { c with held } = { lines.foldl take c with held } := by
  induction lines generalizing c with
  | nil => rfl
  | cons line lines ih => rw [List.foldl_cons, take_held, ih, List.foldl_cons]

theorem receive_append (c : Connection) (xs ys : List UInt8) :
    (c.receive xs).receive ys = c.receive (xs ++ ys) := by
  simp only [receive, foldl_take_held, frames_append, List.foldl_append]

theorem foldl_receive (c : Connection) (chunks : List (List UInt8)) :
    chunks.foldl receive c = c.receive chunks.flatten := by
  induction chunks generalizing c with
  | nil => rfl
  | cons chunk chunks ih => rw [List.foldl_cons, ih, receive_append, List.flatten_cons]

theorem serve_eq_receive {session : Session} {chunks : List (List UInt8)} (h : ∀ chunk ∈ chunks, chunk ≠ []) :
    serve session chunks = (start session).receive chunks.flatten := by
  have hall : chunks.takeWhile (fun chunk => !chunk.isEmpty) = chunks := by
    rw [List.takeWhile_eq_self_iff]
    simpa using h
  rw [serve, hall, foldl_receive]

theorem receive_start (session : Session) (bytes : List UInt8) :
    (start session).receive bytes =
      { (completeLines bytes).foldl take (start session) with held := (frames [] bytes).2 } := by
  rw [completeLines_eq_frames]
  rfl

/-- A client is sent the answers to the lines that it completes, each on one line of plain text, up to
the line that ends the connection, in whatever chunks its bytes come and whatever follows the last of
its newlines. -/
theorem serve_framing (session : Session) (bytes : List UInt8) :
    ∃ responses last ended, Serves session (completeLines bytes) responses last ended ∧
      (∀ rs s e, Serves session (completeLines bytes) rs s e → rs = responses ∧ s = last ∧ e = ended) ∧
      (∀ response ∈ responses, Text.Plain response.line.toList) ∧
      ∀ chunks tail, (∀ chunk ∈ chunks, chunk ≠ []) → newline ∉ tail → chunks.flatten = bytes ++ tail →
        (serve session chunks).sent = responses.map Response.line ∧
        (serve session chunks).session = last ∧ (serve session chunks).ended = ended := by
  obtain ⟨responses, last, ended, h⟩ := exists_serves session (completeLines bytes)
  refine ⟨responses, last, ended, h, fun rs s e h' => h'.unique h, ?_, ?_⟩
  · intro response _
    rw [Response.line, String.toList_ofList]
    exact Json.plain_render response.toJson
  · intro chunks tail hchunks htail hbytes
    rw [serve_eq_receive hchunks, hbytes, receive_start, completeLines_append htail, foldl_take h rfl rfl]
    exact ⟨rfl, rfl, rfl⟩

/-- One line, cut inside of a character and inside of the end of the line, with the beginning of another. -/
theorem serve_framing_cut :
    let line := encoding "\x7b\"cmd\": \"é\"\x7d\r\n"
    let chunks := [line.take 10, (line.drop 10).take 4, line.drop 14 ++ [123]]
    (∀ chunk ∈ chunks, chunk ≠ []) ∧ newline ∉ [(123 : UInt8)] ∧ chunks.flatten = line ++ [123] ∧
      (serve (.fresh 1000 false ∅) chunks).sent = ["\x7b\"ok\": false, \"error\": \"Unknown cmd: \\u00e9\"\x7d"] := by
  intro line chunks
  have hchunks : ∀ chunk ∈ chunks, chunk ≠ [] := by decide +kernel
  have htail : newline ∉ [(123 : UInt8)] := by decide
  have hflatten : chunks.flatten = line ++ [123] := by decide +kernel
  have hwhole : (serve (.fresh 1000 false ∅) [line]).sent =
      ["\x7b\"ok\": false, \"error\": \"Unknown cmd: \\u00e9\"\x7d"] := by decide +kernel
  obtain ⟨responses, last, ended, -, -, -, h⟩ := serve_framing (.fresh 1000 false ∅) line
  have hone := (h [line] [] (by decide +kernel) (by decide) (by simp)).1
  exact ⟨hchunks, htail, hflatten, (h chunks [123] hchunks htail hflatten).1.trans (hone.symm.trans hwhole)⟩

end Connection

end Lisplet.Server
