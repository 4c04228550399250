import Lisplet.Proofs.Batches
import Lisplet.Proofs.Framing

/-!
# Requests that get an answer

`serve_answers`: the requests that end a connection are those to evaluate what is no code, such as a
number (`Breaks`), which leave the session as it was, and those for texts that exhaust the stack (`Overflows`);
all other requests are answered. So the lines of a client are answered up to the first line that holds such
a request (`Exhausts`), or a number too long to be read (`Fatal`). The sessions of a server are over text
(`Reached`), so each of its steps keeps them native and fails only with failures that can be told (`Told`),
unless the stack is exhausted.
-/

namespace Lisplet.Server

open Session (Reportable)

/-! ### Code that is no code -/

/-- An item that can stand outside of quotes. -/
def isSign : Json → Bool
  | .string s => s == "(" || s == ")" || s == "\"" || (!s.isEmpty && s.toList.all Text.isBlank)
  | _ => false

/-- The reading of items comes to one outside of quotes that is no sign. -/
inductive Stuck : Reading → List Json → Prop where
  | here {r : Reading} {item : Json} {items : List Json} (hquote : r.quote = none) (hitem : isSign item = false) :
    Stuck r (item :: items)
  | later {r r' : Reading} {item : Json} {items : List Json} (hfeed : r.feed item = .ok r') (h : Stuck r' items) :
    Stuck r (item :: items)

/-- What is neither text nor items that are read up to their end or to a fault. -/
def NoCode (room : Nat) : Json → Prop
  | .string _ => False
  | .array items => Stuck (.start room) items
  | .object members => members ≠ []
  | .null | .bool _ | .int _ | .float _ => True

/-- The members of a request to evaluate what is no code. -/
def Breaks (room : Nat) (members : List (String × Json)) : Prop :=
  Json.member? members "cmd" = some (.string "eval") ∧
    ∃ code, Json.member? members "code" = some code ∧ NoCode room code

section
variable {r : Reading} {item : Json} {items : List Json}

theorem ofItem_of_isSign (h : isSign item = true) : ∃ sign, Sign.ofItem item = .ok sign := by
  cases item with
  | string s =>
    simp only [isSign, Bool.or_eq_true, beq_iff_eq] at h
    simp only [Sign.ofItem]
    split_ifs with hopening hclosing hquote hblank
    · exact ⟨_, rfl⟩
    · exact ⟨_, rfl⟩
    · exact ⟨_, rfl⟩
    · exact ⟨_, rfl⟩
    · simp [hopening, hclosing, hquote, hblank] at h
  | _ => cases h

/-- The interruptions by an item. -/
def OfItem (interruption : Interruption) : Prop := interruption = .literalItem ∨ interruption = .strangeItem

theorem ofItem_of_not_isSign (h : isSign item = false) : ∃ i, OfItem i ∧ Sign.ofItem item = .error i := by
  cases item with
  | string s =>
    simp only [isSign, Bool.or_eq_false_iff, beq_eq_false_iff_ne] at h
    obtain ⟨⟨⟨hopening, hclosing⟩, hquote⟩, hblank⟩ := h
    refine ⟨.literalItem, .inl rfl, ?_⟩
    simp only [Sign.ofItem, hopening, hclosing, hquote, hblank, ↓reduceIte, Bool.false_eq_true]
  | _ => exact ⟨.strangeItem, .inr rfl, rfl⟩

/-- The reading of items stopped at a fault that a session reports. -/
def Misread (interruption : Interruption) : Prop := ∃ failure, interruption = .failure failure ∧ failure.ofReading

theorem accept_settles (r : Reading) (sign : Sign) : Settles (fun _ => True) Misread (r.accept sign) := by
  obtain ⟨done, opened, quote, position, room⟩ := r
  cases sign with
  | blank | quote => trivial
  | opening =>
    cases room with
    | zero => exact ⟨_, rfl, .inl rfl⟩
    | succ room => trivial
  | closing =>
    cases opened with
    | nil => exact ⟨_, rfl, .inr ⟨_, rfl⟩⟩
    | cons top below => trivial

theorem feed_settles (h : r.quote = none → isSign item = true) : Settles (fun _ => True) Misread (r.feed item) := by
  unfold Reading.feed
  cases hquote : r.quote with
  | none =>
    obtain ⟨sign, hsign⟩ := ofItem_of_isSign (h hquote)
    simp only [hsign]
    exact (accept_settles r sign).bind fun _ _ => trivial
  | some quote =>
    dsimp only
    split <;> trivial

theorem feed_of_not_isSign (hquote : r.quote = none) (hitem : isSign item = false) :
    ∃ i, OfItem i ∧ r.feed item = .error i := by
  obtain ⟨i, hi, hsign⟩ := ofItem_of_not_isSign hitem
  refine ⟨i, hi, ?_⟩
  simp only [Reading.feed, hquote, hsign]
  rfl

theorem Stuck.foldlM_feed (h : Stuck r items) : ∃ i, OfItem i ∧ items.foldlM Reading.feed r = .error i := by
  induction h with
  | here hquote hitem =>
    obtain ⟨i, hi, hfeed⟩ := feed_of_not_isSign hquote hitem
    exact ⟨i, hi, by rw [List.foldlM_cons, hfeed]; rfl⟩
  | later hfeed _ ih =>
    rw [List.foldlM_cons, hfeed]
    exact ih

theorem foldlM_feed_settles (h : ¬ Stuck r items) : Settles (fun _ => True) Misread (items.foldlM Reading.feed r) := by
  induction items generalizing r with
  | nil => trivial
  | cons item items ih =>
    have hitem : r.quote = none → isSign item = true := by
      intro hquote
      by_contra hsign
      exact h (.here hquote (by simpa using hsign))
    have hfeed := feed_settles hitem
    rw [List.foldlM_cons]
    cases hres : r.feed item with
    | ok r' => exact ih fun hstuck => h (.later hres hstuck)
    | error interruption =>
      rw [hres] at hfeed
      exact hfeed

theorem readItems_settles {room : Nat} (h : ¬ Stuck (.start room) items) :
    Settles (fun _ => True) Misread (readItems room items) := by
  refine (foldlM_feed_settles h).bind fun r _ => ?_
  unfold Reading.finish
  split
  · exact ⟨_, rfl, .inr ⟨_, rfl⟩⟩
  · exact ⟨_, rfl, .inr ⟨_, rfl⟩⟩
  · trivial

theorem Stuck.readItems {room : Nat} (h : Stuck (.start room) items) :
    ∃ i, OfItem i ∧ readItems room items = .error i := by
  obtain ⟨i, hi, hread⟩ := h.foldlM_feed
  exact ⟨i, hi, by rw [Server.readItems, hread]; rfl⟩

end

/-! ### Steps of a session -/

/-- A failure that an answer can tell of, or that the stack is exhausted. -/
def Told (failure : Failure) : Prop := failure.isBreakdown = false ∨ failure = .exhausted

mutual

theorem Form.value_settles : ∀ form : Form, Settles (fun v => v.isNative = true) Told form.value
  | .list parts => by
    have hparts := Form.values_settles parts
    rw [Form.value]
    cases hres : Form.values parts with
    | ok vs =>
      rw [hres] at hparts
      exact isNative_ofList hparts
    | error failure =>
      rw [hres] at hparts
      exact hparts
  | .quoted items => by
    rw [Form.value]
    exact .inl rfl

theorem Form.values_settles :
    ∀ forms : List Form, Settles (fun vs => ∀ v ∈ vs, v.isNative = true) Told (Form.values forms)
  | [] => by simp [Form.values, Settles]
  | form :: forms => by
    rw [Form.values]
    refine (Form.value_settles form).bind fun v hv => ?_
    refine (Form.values_settles forms).bind fun vs hvs => ?_
    exact List.forall_mem_cons.2 ⟨hv, hvs⟩

end

/-- A session over text under a limit on nesting. -/
structure Sound (limit : Nat) (s : Session) : Prop where
  native : s.Native
  limit : s.limit = limit

abbrev Shown (o : Outcome) : Prop := ∃ text, o.display = .ok text

section
variable {limit : Nat}

theorem record_meets {e : Value} (he : e.isNative = true) : Meets (Sound limit) Shown Told (Session.record e) := by
  intro s hs
  have hexpects : Invariant.native.Expects Invariant.native.value e := .of_code rfl he
  have hkept : ∀ s', Invariant.native.Within s s' → Sound limit s' := by
    rintro s' ⟨hworld, heq⟩
    rw [heq]
    exact ⟨⟨hworld, hs.native.history⟩, hs.limit⟩
  have hmeets : Meets (Invariant.native.Within s) _ _ (Session.record e) :=
    Invariant.record_meets hexpects (List.mem_singleton_self e)
  have hrecord := hmeets s ⟨hs.native.world, rfl⟩
  cases hres : Session.record e s with
  | ok o s' =>
    rw [hres] at hrecord
    exact ⟨hkept s' hrecord.1, (Reportable.of_recorded he hrecord.2).display⟩
  | error failure s' =>
    rw [hres] at hrecord
    obtain ⟨hwithin, ⟨⟨cause, hcause, rfl⟩, -⟩ | ⟨rfl, -⟩⟩ := hrecord
    · exact ⟨hkept s' hwithin, .inl (Failure.isBreakdown_of_kind? (Failure.kind?_report hcause _))⟩
    · exact ⟨hkept s' hwithin, .inr rfl⟩

/-- A batch of steps that are each recorded. -/
theorem batch_meets {α : Type} {l : List α} {step : α → SessionM Outcome}
    (h : ∀ a ∈ l, Meets (Sound limit) Shown Told (step a)) :
    Meets (Sound limit) (fun outcomes => ∀ o ∈ outcomes, Shown o) Told
      (if l.isEmpty then pure [] else do Session.remember; l.mapM step) := by
  split
  · exact .pure (by simp)
  · refine .modify_bind (fun s hs => ⟨⟨hs.native.world, ?_⟩, hs.limit⟩) (.mapM_all h)
    exact List.forall_mem_cons.2 ⟨hs.native.world .session, hs.native.history⟩

theorem run_meets (code : String) :
    Meets (Sound limit) (fun outcomes => ∀ o ∈ outcomes, Shown o) Told (Session.run code) := by
  refine .get_bind fun s hs => ?_
  have hparse : Settles (fun es => ∀ e ∈ es, e.isNative = true) Told (s.parse code) := by
    have hrefuses := Session.parse_native s code
    cases hres : s.parse code with
    | ok es =>
      rw [hres] at hrefuses
      exact hrefuses
    | error failure =>
      rw [hres] at hrefuses
      refine .inl (Failure.isBreakdown_of_kind? ?_)
      rcases hrefuses with hkind | hkind <;> simp [hkind]
  exact (Meets.ofExcept hparse).bind fun es hes => batch_meets fun e he => record_meets (hes e he)

theorem runForms_meets (forms : List Form) :
    Meets (Sound limit) (fun outcomes => ∀ o ∈ outcomes, Shown o) Told (runForms forms) :=
  batch_meets fun form _ => (Meets.ofExcept form.value_settles).bind fun _ hv => record_meets hv

/-! ### Requests -/

/-- An interruption by a failure that an answer can tell of, or because the stack is exhausted. -/
def Tellable (interruption : Interruption) : Prop := ∃ failure, interruption = .failure failure ∧ Told failure

theorem ofSession_meets {α : Type} {post : α → Prop} {step : SessionM α} (h : Meets (Sound limit) post Told step) :
    Meets (Sound limit) post Tellable (ServerM.ofSession step) := by
  intro s hs
  have hstep := h s hs
  unfold ServerM.ofSession
  cases hres : step s with
  | ok a s' =>
    rw [hres] at hstep
    exact hstep
  | error failure s' =>
    rw [hres] at hstep
    exact ⟨hstep.1, failure, rfl, hstep.2⟩

theorem runItems_meets {items : List Json} (h : ¬ Stuck (.start limit) items) :
    Meets (Sound limit) (fun outcomes => ∀ o ∈ outcomes, Shown o) Tellable (Code.items items).run := by
  refine .get_bind fun s hs => ?_
  obtain rfl := hs.limit
  have hread := readItems_settles h
  dsimp only
  cases hres : readItems s.limit items with
  | ok forms => exact ofSession_meets (runForms_meets forms)
  | error interruption =>
    rw [hres] at hread
    obtain ⟨failure, rfl, hfailure⟩ := hread
    refine .throw ⟨_, rfl, ?_⟩
    rcases hfailure with rfl | ⟨fault, rfl⟩ <;> exact .inl rfl

/-- There is room to write the value of an outcome, if it has one. -/
def Fits (s : Session) (o : Outcome) : Prop := ∀ v, o.result = .ok v → s.Writes v

/-- The stack is exhausted by a text that a request asks for: of an expression, of a value or of a definition. -/
def Overflows (s : Session) : Request → Prop
  | .eval code =>
    match code.run s with
    | .ok outcomes t => ∃ o ∈ outcomes, ¬ Fits t o
    | .error interruption _ => interruption = .failure .exhausted
  | .defines => ∃ d ∈ s.userDefines, ¬ s.Writes d.2
  | .undo | .unknown _ => False

/-- With text for code this is a matter of room for the expressions of the code and for their values. -/
theorem overflows_text {s : Session} (hs : s.Native) (code : String) :
    Overflows s (.eval (.text code)) ↔ ∃ es, s.parse code = .ok es ∧ ((∃ e ∈ es, ¬ s.Writes e) ∨
      ∃ outcomes t, Session.run code s = .ok outcomes t ∧ ∃ o ∈ outcomes, ¬ Fits t o) := by
  simp only [Overflows, Code.run, ServerM.ofSession]
  cases hparse : s.parse code with
  | error failure =>
    have hne : failure ≠ .exhausted := by
      rintro rfl
      rcases Session.refuses_of_parse hparse with hkind | hkind <;> cases hkind
    have hrun : Session.run code s = .error failure s := by rw [Session.run_eq, hparse]
    simp [hrun, hne]
  | ok es =>
    obtain ⟨hiff, hfails⟩ := hs.run_ends hparse
    cases hrun : Session.run code s with
    | ok outcomes t =>
      have hroom := hiff.1 ⟨outcomes, t, hrun⟩
      simpa [hrun] using fun e he hno => absurd (hroom e he) hno
    | error failure t =>
      obtain rfl := hfails failure t hrun
      have hno : ¬ ∀ e ∈ es, s.Writes e := fun hroom => by
        obtain ⟨outcomes, t', h⟩ := hiff.2 hroom
        cases hrun.symm.trans h
      simpa using hno

/-- A request is answered, or the stack is exhausted; the session stays sound. -/
def Settled (limit : Nat) (s : Session) (request : Request) : EStateM.Result Interruption Session Response → Prop
  | .ok _ s' => Sound limit s' ∧ ¬ Overflows s request
  | .error interruption s' => Sound limit s' ∧ interruption = .failure .exhausted ∧ Overflows s request

theorem write_settles {s : Session} {v : Value} (h : ∃ text, v.text = .ok text) :
    Settles (fun _ => s.Writes v) (fun failure => failure = .exhausted ∧ ¬ s.Writes v) (s.write v) := by
  unfold Session.write
  split
  · next hroom =>
    obtain ⟨text, htext⟩ := h
    rw [htext]
    exact hroom
  · next hroom => exact ⟨rfl, hroom⟩

theorem display_settles {s : Session} {o : Outcome} (h : Shown o) :
    Settles (fun _ => Fits s o) (fun failure => failure = .exhausted ∧ ¬ Fits s o) (s.display o) := by
  obtain ⟨text, htext⟩ := h
  unfold Session.display
  unfold Outcome.display at htext
  cases hresult : o.result with
  | ok v =>
    rw [hresult] at htext
    have hfits : Fits s o ↔ s.Writes v := by simp [Fits, hresult]
    simpa only [hfits] using write_settles (s := s) ⟨text, htext⟩
  | error failure =>
    intro v hv
    cases hresult.symm.trans hv

/-- Texts that are written one after the other are written if there is room for each. -/
theorem mapM_settles {α β : Type} {room : α → Prop} {f : α → Except Failure β} {l : List α}
    (h : ∀ a ∈ l, Settles (fun _ => room a) (fun failure => failure = .exhausted ∧ ¬ room a) (f a)) :
    Settles (fun _ => ∀ a ∈ l, room a) (fun failure => failure = .exhausted ∧ ∃ a ∈ l, ¬ room a) (l.mapM f) := by
  induction l with
  | nil => exact fun a ha => absurd ha List.not_mem_nil
  | cons a l ih =>
    have hhead := h a (List.mem_cons_self ..)
    have htail := ih fun a' ha' => h a' (List.mem_cons_of_mem _ ha')
    rw [List.mapM_cons]
    refine (Settles.imp ?_ hhead).bind fun b hb => (Settles.imp ?_ htail).bind fun bs hbs => ?_
    · exact fun _ hno => ⟨hno.1, a, List.mem_cons_self .., hno.2⟩
    · exact fun _ ⟨hfailure, a', ha', hno⟩ => ⟨hfailure, a', List.mem_cons_of_mem _ ha', hno⟩
    · exact List.forall_mem_cons.2 ⟨hb, hbs⟩

theorem results_settles {s : Session} {outcomes : List Outcome} (h : ∀ o ∈ outcomes, Shown o) :
    Settles (fun _ => ∀ o ∈ outcomes, Fits s o) (fun failure => failure = .exhausted ∧ ∃ o ∈ outcomes, ¬ Fits s o)
      (results s outcomes) :=
  mapM_settles fun o ho => (display_settles (h o ho)).bind fun _ hfits => hfits

theorem definitions_settles {s : Session} (hs : s.Native) :
    Settles (fun _ => ∀ d ∈ s.userDefines, s.Writes d.2)
      (fun failure => failure = .exhausted ∧ ∃ d ∈ s.userDefines, ¬ s.Writes d.2) (definitions s) :=
  mapM_settles fun d hd => (write_settles ((hs.userDefines d hd).format false)).bind fun _ hroom => hroom

theorem evalCode_settled {s : Session} {code : Code} (hs : Sound limit s)
    (h : Meets (Sound limit) (fun outcomes => ∀ o ∈ outcomes, Shown o) Tellable code.run) :
    Settled limit s (.eval code) (evalCode code s) := by
  have hrun := h s hs
  unfold evalCode
  cases hres : code.run s with
  | ok outcomes s' =>
    rw [hres] at hrun
    have hover : Overflows s (.eval code) ↔ ∃ o ∈ outcomes, ¬ Fits s' o := by simp only [Overflows, hres]
    have hresults := results_settles (s := s') hrun.2
    simp only
    cases hrs : results s' outcomes with
    | ok rs =>
      rw [hrs] at hresults
      exact ⟨hrun.1, fun hno => by obtain ⟨o, ho, hfits⟩ := hover.1 hno; exact hfits (hresults o ho)⟩
    | error failure =>
      rw [hrs] at hresults
      obtain ⟨rfl, hno⟩ := hresults
      exact ⟨hrun.1, rfl, hover.2 hno⟩
  | error interruption s' =>
    rw [hres] at hrun
    have hover : Overflows s (.eval code) ↔ interruption = .failure .exhausted := by simp only [Overflows, hres]
    obtain ⟨hs', failure, rfl, htold | rfl⟩ := hrun
    · simp only [htold]
      refine ⟨hs', fun hno => ?_⟩
      cases hover.1 hno
      cases htold
    · exact ⟨hs', rfl, hover.2 rfl⟩

theorem listDefines_settled {s : Session} (hs : Sound limit s) : Settled limit s .defines (listDefines s) := by
  have hdefinitions := definitions_settles hs.native
  show Settled limit s .defines (EStateM.bind (ServerM.ofExcept (definitions s)) _ s)
  cases hres : definitions s with
  | ok entries =>
    rw [hres] at hdefinitions
    exact ⟨hs, fun ⟨d, hd, hno⟩ => hno (hdefinitions d hd)⟩
  | error failure =>
    rw [hres] at hdefinitions
    obtain ⟨rfl, hno⟩ := hdefinitions
    exact ⟨hs, rfl, hno⟩

theorem Sound.perform {s : Session} (hs : Sound limit s) {c : Session.Call} (hc : ∀ globals, c ≠ .restore globals) :
    Sound limit (c.perform s) := by
  obtain ⟨hnative, hlimit⟩ :=
    Session.Tables.perform Session.native_iff hs.native (fun _ _ => Session.expects_of_parse) hc
  exact ⟨hnative, hlimit.trans hs.limit⟩

theorem undo_settled {s : Session} (hs : Sound limit s) : Settled limit s .undo (handle .undo s) :=
  ⟨hs.perform (c := .undo) (by simp), id⟩

theorem runMember_meets {member : Option Json} (h : ∀ code, member = some code → ¬ NoCode limit code) :
    Meets (Sound limit) (fun outcomes => ∀ o ∈ outcomes, Shown o) Tellable (Code.ofMember member).run := by
  cases member with
  | none => exact ofSession_meets (run_meets "")
  | some code =>
    have hcode := h code rfl
    cases code with
    | string text => exact ofSession_meets (run_meets text)
    | array items => exact runItems_meets hcode
    | object members =>
      cases members with
      | nil => exact runItems_meets fun hstuck => by cases hstuck
      | cons m ms => exact absurd (List.cons_ne_nil m ms) hcode
    | null | bool | int | float => exact absurd trivial hcode

/-- Every request but those to evaluate what is no code is answered, if there is room to write the answer. -/
theorem handle_settled {s : Session} (hs : Sound limit s) {members : List (String × Json)}
    (h : ¬ Breaks limit members) :
    Settled limit s (.ofMembers members) (handle (.ofMembers members) s) := by
  unfold Request.ofMembers
  split
  · next hcmd => exact evalCode_settled hs (runMember_meets fun code hmember hno => h ⟨hcmd, code, hmember, hno⟩)
  · exact listDefines_settled hs
  · exact undo_settled hs
  · exact ⟨hs, id⟩
  · exact ⟨hs, id⟩

theorem handle_of_breaks {s : Session} {members : List (String × Json)} (h : Breaks s.limit members) :
    (∃ interruption, handle (.ofMembers members) s = .error interruption s) ∧ ¬ Overflows s (.ofMembers members) := by
  obtain ⟨hcmd, code, hmember, hno⟩ := h
  have hrequest : Request.ofMembers members = .eval (.ofMember (some code)) := by
    simp only [Request.ofMembers, hcmd, hmember]
  rw [hrequest]
  cases code with
  | null | bool | int | float => exact ⟨⟨.scalarCode, rfl⟩, fun h => by cases h⟩
  | string => exact absurd hno id
  | array items =>
    obtain ⟨i, hi, hread⟩ := Stuck.readItems hno
    have hrun : (Code.items items).run s = .error i s := by
      simp only [Code.run, bind, EStateM.bind, get, getThe, MonadStateOf.get, EStateM.get, hread]
      rcases hi with rfl | rfl <;> rfl
    constructor
    · refine ⟨i, ?_⟩
      simp only [handle, evalCode, Code.ofMember, hrun]
      rcases hi with rfl | rfl <;> rfl
    · simp only [Overflows, Code.ofMember, hrun]
      rcases hi with rfl | rfl <;> exact fun h => by cases h
  | object members' =>
    cases members' with
    | nil => exact absurd rfl hno
    | cons m ms => exact ⟨⟨.namedItems, rfl⟩, fun h => by cases h⟩

end

/-- The session after a request, whether that is answered or not. -/
def after (members : List (String × Json)) (s : Session) : Session :=
  match handle (.ofMembers members) s with
  | .ok _ s' => s'
  | .error _ s' => s'

/-- The sessions of servers: a session is created, and then it is called and gets requests, in any order. -/
inductive Reached : Session → Prop where
  | created {settings : Settings} {wanted : Option Int} {files : NameMap String} {code : String} {s : Session}
    (h : Session.create settings wanted files code = .ok s) : Reached s
  | called {s : Session} (h : Reached s) {c : Session.Call} (hc : ∀ globals, c ≠ .restore globals) :
    Reached (c.perform s)
  | requested {s : Session} (h : Reached s) (members : List (String × Json)) : Reached (after members s)

theorem Reached.native {s : Session} (h : Reached s) : s.Native := by
  induction h with
  | created h => exact Session.native_create h
  | @called s _ c hc ih => exact (Sound.perform ⟨ih, rfl⟩ hc).native
  | @requested s _ members ih =>
    unfold after
    by_cases hbreaks : Breaks s.limit members
    · obtain ⟨⟨interruption, hhandle⟩, -⟩ := handle_of_breaks hbreaks
      rw [hhandle]
      exact ih
    · have hhandle := handle_settled ⟨ih, rfl⟩ hbreaks
      cases hres : handle (.ofMembers members) s with
      | ok response s' | error interruption s' =>
        rw [hres] at hhandle
        exact hhandle.1.native

/-- A request is answered, or the stack is exhausted; the session can be used further. -/
theorem Reached.handle {s : Session} (h : Reached s) {members : List (String × Json)}
    (hbreaks : ¬ Breaks s.limit members) :
    match handle (.ofMembers members) s with
    | .ok _ s' => ¬ Overflows s (.ofMembers members) ∧ Reached s' ∧ s'.limit = s.limit
    | .error interruption s' => interruption = .failure .exhausted ∧ Overflows s (.ofMembers members) ∧ Reached s' := by
  have hhandle := handle_settled ⟨h.native, rfl⟩ hbreaks
  have hreached := h.requested members
  unfold after at hreached
  cases hres : Server.handle (.ofMembers members) s with
  | ok response s' =>
    rw [hres] at hhandle hreached
    exact ⟨hhandle.2, hreached, hhandle.1.limit⟩
  | error interruption s' =>
    rw [hres] at hhandle hreached
    exact ⟨hhandle.2.1, hhandle.2.2, hreached⟩

/-! ### Lines -/

/-- A line that ends the connection. -/
def Fatal (room : Nat) (line : List UInt8) : Prop :=
  ∃ text, Stripped line (encoding text) ∧
    ((∃ failure, Json.parse room text = .error (.beyond failure)) ∨
      ∃ members, Json.parse room text = .ok (.object members) ∧ Breaks room members)

theorem encoding_injective : Function.Injective encoding := by
  intro text text' h
  exact Option.some.inj ((fromUTF8?_eq_some_iff.2 h).symm.trans (fromUTF8?_eq_some_iff.2 rfl))

theorem fatal_iff {room : Nat} {line : List UInt8} {text : String} (h : Stripped line (encoding text)) :
    Fatal room line ↔ (∃ failure, Json.parse room text = .error (.beyond failure)) ∨
      ∃ members, Json.parse room text = .ok (.object members) ∧ Breaks room members := by
  constructor
  · rintro ⟨text', htext', hfatal⟩
    rwa [encoding_injective (h.unique htext')]
  · exact fun hfatal => ⟨text, h, hfatal⟩

/-- A line with a request that exhausts the stack. -/
def Exhausts (s : Session) (line : List UInt8) : Prop :=
  ∃ text members, Stripped line (encoding text) ∧ Json.parse s.limit text = .ok (.object members) ∧
    Overflows s (.ofMembers members)

/-- A line is answered if it is not fatal, unless the stack is exhausted. A fatal one leaves the session as it was. -/
theorem fatal_of_handles {s : Session} (hs : Reached s) {line core : List UInt8} (hline : Stripped line core)
    {result : EStateM.Result Interruption Session Response} :
    Handles s core result →
      match result with
      | .ok _ s' => ¬ Fatal s.limit line ∧ Reached s' ∧ s'.limit = s.limit
      | .error _ s' => (Fatal s.limit line ∨ Exhausts s line) ∧ Reached s' := by
  intro h
  cases h with
  | undecodable hcore =>
    refine ⟨?_, hs, rfl⟩
    rintro ⟨text, htext, -⟩
    exact hcore text (htext.unique hline)
  | malformed hcore hparse =>
    subst hcore
    refine ⟨?_, hs, rfl⟩
    rw [fatal_iff hline, hparse]
    simp
  | misplaced hcore hparse hv =>
    subst hcore
    refine ⟨?_, hs, rfl⟩
    rw [fatal_iff hline, hparse]
    rintro (⟨failure, hfailure⟩ | ⟨members, hmembers, -⟩)
    · cases hfailure
    · exact hv members (Except.ok.inj hmembers)
  | beyond hcore hparse =>
    subst hcore
    exact ⟨.inl ((fatal_iff hline).2 (.inl ⟨_, hparse⟩)), hs⟩
  | @request text members hcore hparse =>
    subst hcore
    have hfatal : Fatal s.limit line ↔ Breaks s.limit members := by
      rw [fatal_iff hline]
      simp [hparse]
    by_cases hbreaks : Breaks s.limit members
    · obtain ⟨⟨interruption, hhandle⟩, -⟩ := handle_of_breaks hbreaks
      rw [hhandle]
      exact ⟨.inl (hfatal.2 hbreaks), hs⟩
    · have hhandle := hs.handle hbreaks
      cases hres : handle (.ofMembers members) s with
      | ok response s' =>
        rw [hres] at hhandle
        exact ⟨mt hfatal.1 hbreaks, hhandle.2⟩
      | error interruption s' =>
        rw [hres] at hhandle
        exact ⟨.inr ⟨text, members, hline, hparse, hhandle.2.1⟩, hhandle.2.2⟩

theorem Stripped.all_isBlankByte {line core : List UInt8} (h : Stripped line core) :
    line.all isBlankByte = true ↔ core = [] := by
  obtain ⟨before, after, rfl, hbefore, hafter, hhead, -⟩ := h
  simp only [List.all_append, Bool.and_eq_true, List.all_eq_true]
  constructor
  · rintro ⟨⟨-, hcore⟩, -⟩
    cases core with
    | nil => rfl
    | cons b bs => exact absurd (hcore b (List.mem_cons_self ..)) (hhead b rfl)
  · rintro rfl
    exact ⟨⟨hbefore, by simp⟩, hafter⟩

theorem not_fatal_of_blank {room : Nat} {line : List UInt8} (h : Stripped line []) : ¬ Fatal room line := by
  have hempty : encoding "" = [] := rfl
  have hparse : Json.parse room "" = .error .malformed := rfl
  rw [fatal_iff (hempty ▸ h), hparse]
  simp

/-- The lines up to the first that is fatal or exhausts the stack are answered, if they are not blank. -/
theorem Serves.split {s last : Session} {lines : List (List UInt8)} {responses : List Response}
    {ended : Option Interruption} (h : Serves s lines responses last ended) (hs : Reached s) :
    Reached last ∧ ∃ answered rest t, lines = answered ++ rest ∧ Serves s answered responses t none ∧ Reached t ∧
      (∀ line ∈ answered, ¬ Fatal s.limit line) ∧ (∀ line ∈ rest.head?, Fatal s.limit line ∨ Exhausts t line) ∧
      (ended = none ↔ rest = []) ∧ responses.length = answered.countP (!·.all isBlankByte) := by
  induction h with
  | done s => exact ⟨hs, [], [], s, rfl, .done s, hs, by simp, by simp, by simp, rfl⟩
  | @blank _ _ line _ _ _ hline _ ih =>
    obtain ⟨hlast, answered, rest, t, rfl, hserves, ht, hanswered, hrest, hended, hlength⟩ := ih hs
    refine ⟨hlast, line :: answered, rest, t, rfl, .blank hline hserves, ht, ?_, hrest, hended, ?_⟩
    · exact List.forall_mem_cons.2 ⟨not_fatal_of_blank hline, hanswered⟩
    · rw [List.countP_cons_of_neg (by simpa using hline.all_isBlankByte.2 rfl), hlength]
  | @answer _ _ _ line _ _ _ _ _ hline hcore hresponse _ ih =>
    obtain ⟨hfatal, hnext, hlimit⟩ := fatal_of_handles hs hline hresponse
    obtain ⟨hlast, answered, rest, t, rfl, hserves, ht, hanswered, hrest, hended, hlength⟩ := ih hnext
    rw [hlimit] at hanswered hrest
    refine ⟨hlast, line :: answered, rest, t, rfl, .answer hline hcore hresponse hserves, ht, ?_, hrest, hended, ?_⟩
    · exact List.forall_mem_cons.2 ⟨hfatal, hanswered⟩
    · have hblank := mt hline.all_isBlankByte.1 hcore
      rw [List.countP_cons_of_pos (by simpa using hblank), List.length_cons, hlength]
  | @interrupted s _ line _ lines _ hline _ hbreak =>
    obtain ⟨hstopped, hlast⟩ := fatal_of_handles hs hline hbreak
    refine ⟨hlast, [], line :: lines, s, rfl, .done s, hs, by simp, ?_, by simp, rfl⟩
    rintro _ ⟨⟩
    exact hstopped

/-- A response says whether the request succeeded, and if not, why. -/
def Response.IsReport (response : Response) : Prop :=
  (∃ members, response.toJson = .object (("ok", .bool true) :: members)) ∨
    ∃ message, response.toJson = .object [("ok", .bool false), ("error", .string message)]

theorem Response.isReport (response : Response) : response.IsReport := by
  cases response with
  | results | defines | undone => exact .inl ⟨_, rfl⟩
  | failed message => exact .inr ⟨message, rfl⟩

/-- A connection that came to a session: the complete lines that were answered, in order, and those from the first
on that was not. -/
structure Served (s : Session) (chunks : List (List UInt8)) (answered rest : List (List UInt8))
    (responses : List Response) (t : Session) : Prop where
  lines : completeLines chunks.flatten = answered ++ rest
  answers : Serves s answered responses t none
  legible : ∀ line ∈ answered, ¬ Fatal s.limit line
  stopped : ∀ line ∈ rest.head?, Fatal s.limit line ∨ Exhausts t line
  sent : (Connection.serve s chunks).sent = responses.map Response.line
  count : responses.length = answered.countP (!·.all isBlankByte)
  ended : (Connection.serve s chunks).ended = none ↔ rest = []
  usable : Reached t ∧ Reached (Connection.serve s chunks).session

/-- Every request is answered but those to evaluate what is no code, which change nothing, and those that exhaust
the stack, which with text for code is a matter of room for the expressions and their values. Of a connection every
line that is not blank is answered up to the first with such a request or one beyond reading. -/
structure Answers (s : Session) : Prop where
  request : ∀ members, ¬ Breaks s.limit members → ¬ Overflows s (.ofMembers members) →
    ∃ response s', handle (.ofMembers members) s = .ok response s' ∧ response.IsReport ∧ Reached s'
  breaks : ∀ members, Breaks s.limit members → ∃ interruption, handle (.ofMembers members) s = .error interruption s
  overflows : ∀ members, Overflows s (.ofMembers members) →
    ∃ s', handle (.ofMembers members) s = .error (.failure .exhausted) s' ∧ Reached s'
  room : ∀ code, Overflows s (.eval (.text code)) ↔ ∃ es, s.parse code = .ok es ∧ ((∃ e ∈ es, ¬ s.Writes e) ∨
    ∃ outcomes t, Session.run code s = .ok outcomes t ∧ ∃ o ∈ outcomes, ¬ Fits t o)
  connection : ∀ chunks, (∀ chunk ∈ chunks, chunk ≠ []) →
    ∃ answered rest responses t, Served s chunks answered rest responses t

theorem exists_served {s : Session} (hs : Reached s) {chunks : List (List UInt8)}
    (hchunks : ∀ chunk ∈ chunks, chunk ≠ []) :
    ∃ answered rest responses t, Served s chunks answered rest responses t := by
  obtain ⟨responses, last, ended, hserves⟩ := exists_serves s (completeLines chunks.flatten)
  obtain ⟨hlast, answered, rest, t, hlines, hanswers, ht, hanswered, hrest, hended, hlength⟩ := hserves.split hs
  have hserve : (Connection.serve s chunks).sent = responses.map Response.line ∧
      (Connection.serve s chunks).session = last ∧ (Connection.serve s chunks).ended = ended := by
    rw [Connection.serve_eq_receive hchunks, Connection.receive_start, Connection.foldl_take hserves rfl rfl]
    exact ⟨rfl, rfl, rfl⟩
  obtain ⟨hsent, rfl, rfl⟩ := hserve
  exact ⟨answered, rest, responses, t, hlines, hanswers, hanswered, hrest, hsent, hlength, hended, ht, hlast⟩

/-- A server in a session that its clients reached answers them. -/
theorem serve_answers {s : Session} (hs : Reached s) : Answers s where
  request members hbreaks hroom := by
    have hhandle := hs.handle hbreaks
    cases hres : handle (.ofMembers members) s with
    | ok response s' =>
      rw [hres] at hhandle
      exact ⟨response, s', rfl, response.isReport, hhandle.2.1⟩
    | error interruption s' =>
      rw [hres] at hhandle
      exact absurd hhandle.2.1 hroom
  breaks members hbreaks := (handle_of_breaks hbreaks).1
  overflows members hover := by
    have hhandle := hs.handle fun hbreaks => (handle_of_breaks hbreaks).2 hover
    cases hres : handle (.ofMembers members) s with
    | ok response s' =>
      rw [hres] at hhandle
      exact absurd hover hhandle.1
    | error interruption s' =>
      rw [hres] at hhandle
      exact ⟨s', by rw [hhandle.1], hhandle.2.2⟩
  room := overflows_text hs.native
  connection chunks hchunks := exists_served hs hchunks

theorem reached_session {settings : Settings} {s : Session} (h : session settings = .ok s) : Reached s := by
  have hcreate : Session.create settings none ∅ "" = .ok s := by
    unfold session at h
    unfold Session.create
    cases hlimit : Session.raiseLimit settings Session.leastLimit none with
    | error failure =>
      rw [hlimit] at h
      cases h
    | ok limit =>
      rw [hlimit] at h
      cases h
      rfl
  exact .created hcreate

/-- A server as it starts, and code that ends in an open list. -/
theorem serve_answers_unclosed :
    session ⟨1000, true, "", 0⟩ = .ok (.fresh 1000 true ∅) ∧ ∃ response s',
      handle (.ofMembers [("cmd", .string "eval"), ("code", .string "(f")]) (.fresh 1000 true ∅) = .ok response s' ∧
        response.IsReport ∧ Reached s' := by
  have hsession : session ⟨1000, true, "", 0⟩ = .ok (.fresh 1000 true ∅) := rfl
  refine ⟨hsession, (serve_answers (reached_session hsession)).request _ ?_ ?_⟩
  · rintro ⟨-, code, hmember, hno⟩
    cases hmember
    exact hno
  · nofun

/-- A request to evaluate a number is not answered, nor is the one behind it. -/
theorem serve_number :
    session ⟨1000, true, "", 0⟩ = .ok (.fresh 1000 true ∅) ∧
    handle (.ofMembers [("cmd", .string "eval"), ("code", .int 5)]) (.fresh 1000 true ∅) =
      .error .scalarCode (.fresh 1000 true ∅) ∧
    (let c := Connection.serve (.fresh 1000 true ∅)
      [encoding "\x7b\"cmd\": \"eval\", \"code\": 5\x7d\n\x7b\"cmd\": \"undo\"\x7d\n"]
    c.sent = [] ∧ c.ended = some .scalarCode) := by
  refine ⟨rfl, rfl, ?_⟩
  decide +kernel

end Lisplet.Server
