import Lisplet.Proofs.Calls
import Lisplet.Proofs.Native

/-!
# Sessions over text

`create_performAll_safe`: whatever code a session is given, its tables and its results are native, it
fails only with failures that name a kind, unless a batch overflows while it is printed, and every result,
echo and definition has a text (`Session.Safe`). The invariant is `Session.Native`, that the world and all
tables of the history are native.
-/

namespace Lisplet

namespace Failure

inductive Kind where
  | parse
  | unbound
  | type
  | arity
  | notFunction
  | recursion
deriving DecidableEq

/-- The kind of a failure; none if the means of the machine gave out. -/
def kind? : Failure → Option Kind
  | unreadable _ => some .parse
  | unbound _ => some .unbound
  | wrongKind .. | improperList _ | notDefinable _ | undefinedText | foreignText _ => some .type
  | wrongArity .. => some .arity
  | notFunction _ => some .notFunction
  | tooDeep .. => some .recursion
  | outOfRange | tooManyDigits | exhausted => none

theorem kind?_report {failure : Failure} (h : failure.ofEvaluation) (limit : Nat) :
    (failure.report .evaluating limit).kind?.isSome := by
  cases failure with
  | unreadable | notDefinable | undefinedText | foreignText | outOfRange | tooManyDigits | tooDeep => cases h
  | _ => rfl

theorem isBreakdown_of_kind? {failure : Failure} (h : failure.kind?.isSome) : failure.isBreakdown = false := by
  cases failure with
  | outOfRange | tooManyDigits | exhausted => cases h
  | _ => rfl

def Refuses (failure : Failure) : Prop := failure.kind? = some .parse ∨ failure.kind? = some .recursion

end Failure

namespace Session

def Native (s : Session) : Prop := s.Tables Globals.Native

section
variable {s : Session} {code : String}

theorem parse_native (s : Session) (code : String) :
    Settles (fun es => ∀ e ∈ es, e.isNative = true) Failure.Refuses (s.parse code) := by
  have hread := readText_native ⟨s.strict, s.limit⟩ code
  unfold parse
  cases hres : readText ⟨s.strict, s.limit⟩ code with
  | ok es =>
    rw [hres] at hread
    exact hread
  | error failure =>
    rw [hres] at hread
    rcases hread with rfl | ⟨fault, rfl⟩
    · exact .inr rfl
    · exact .inl rfl

theorem native_of_parse {es : List Value} (h : s.parse code = .ok es) : ∀ e ∈ es, e.isNative := by
  have hparse := parse_native s code
  rw [h] at hparse
  exact hparse

theorem refuses_of_parse {failure : Failure} (h : s.parse code = .error failure) : failure.Refuses := by
  have hparse := parse_native s code
  rw [h] at hparse
  exact hparse

theorem expects_of_parse {es : List Value} (h : s.parse code = .ok es) :
    ∀ e ∈ es, Invariant.native.Expects Invariant.native.value e :=
  fun e he => .of_code rfl (native_of_parse h e he)

/-! ### Calls -/

theorem native_iff (w : World) : Invariant.native.state w ↔ ∀ owner, Globals.Native (w.realm owner).globals := .rfl

theorem Native.performAll (hs : s.Native) {calls : List Call} (hcalls : ∀ globals, Call.restore globals ∉ calls) :
    (s.performAll calls).Native :=
  (Tables.performAll native_iff hs rfl (fun _ _ _ _ => expects_of_parse) hcalls).1

theorem native_create {settings : Settings} {wanted : Option Int} {files : NameMap String}
    (h : create settings wanted files code = .ok s) : s.Native := by
  obtain ⟨limit, hlimit⟩ := exists_limit_of_create h
  exact (Tables.create native_iff Globals.native_library hlimit (fun _ _ _ _ => expects_of_parse) h).1

/-! ### Results -/

/-- A value that may be shown to a client: it is native, and can be written in both ways. -/
structure Presentable (v : Value) : Prop where
  native : v.isNative
  format : ∀ bindings, ∃ text, v.format bindings = .ok text

theorem Presentable.of_isNative {v : Value} (h : v.isNative) : Presentable v :=
  ⟨h, fun bindings => ⟨_, v.format_native h bindings⟩⟩

theorem Native.eval (hs : s.Native) (code : String) :
    match Session.eval code s with
    | .ok vs _ => ∀ v ∈ vs, Presentable v
    | .error failure _ => failure.kind?.isSome := by
  rw [eval_eq]
  cases hparse : s.parse code with
  | error failure =>
    rcases refuses_of_parse hparse with hkind | hkind <;> simp [hkind]
  | ok es =>
    have hmeets : Meets (Invariant.native.Within s) (fun vs => ∀ v ∈ vs, v.isNative = true)
        (Invariant.native.Reported s.limit) (es.mapM evalExpr) :=
      .mapM_all fun e he => Invariant.evalExpr_meets (expects_of_parse hparse e he)
    have hres := hmeets s ⟨hs.world, rfl⟩
    dsimp only
    cases heval : es.mapM evalExpr s with
    | ok vs s' =>
      rw [heval] at hres
      exact fun v hv => .of_isNative (hres.2 v hv)
    | error failure s' =>
      rw [heval] at hres
      obtain ⟨-, cause, hcause, rfl⟩ := hres
      exact Failure.kind?_report hcause s.limit

structure Reportable (e : Value) (o : Outcome) : Prop where
  echo : e.text = .ok o.text
  result : Settles Presentable (fun failure => failure.kind?.isSome = true) o.result
  display : ∃ text, o.display = .ok text

theorem Reportable.of_recorded {limit : Nat} {e : Value} {o : Outcome} (he : e.isNative)
    (h : Invariant.native.Recorded Invariant.native.value limit e o) : Reportable e o where
  echo := by rw [h.text]; exact e.format_native he false
  result := by
    have hresult := h.result
    cases hres : o.result with
    | ok v =>
      rw [hres] at hresult
      exact .of_isNative hresult
    | error failure =>
      rw [hres] at hresult
      obtain ⟨cause, hcause, rfl⟩ := hresult
      exact Failure.kind?_report hcause limit
  display := by
    have hresult := h.result
    unfold Outcome.display
    cases hres : o.result with
    | ok v =>
      rw [hres] at hresult
      exact ⟨_, v.format_native hresult false⟩
    | error failure => exact ⟨_, rfl⟩

/-- Code that is read is run to its end, or up to an expression that there is no room to write. -/
theorem Native.run_of_parse {es : List Value} (hs : s.Native) (hparse : s.parse code = .ok es) :
    match Session.run code s with
    | .ok outcomes _ => List.Forall₂ Reportable es outcomes
    | .error failure _ => failure = .exhausted ∧ ∃ e ∈ es, ¬ s.Writes e := by
  rw [run_eq, hparse]
  cases es with
  | nil => exact .nil
  | cons e es =>
    have hnative := native_of_parse hparse
    have hmeets : Meets (Invariant.native.Within { s with history := s.globals :: s.history }) _ _ _ :=
      Invariant.batch_meets (expects_of_parse hparse)
    have hres := hmeets { s with history := s.globals :: s.history } ⟨hs.world, rfl⟩
    dsimp only
    cases hrun : (e :: es).mapM record { s with history := s.globals :: s.history } with
    | ok outcomes s' =>
      rw [hrun] at hres
      have hboth := (List.forall₂_and_left _ _).2 ⟨hnative, hres.2⟩
      exact hboth.imp fun _ _ h => .of_recorded h.1 h.2
    | error failure s' =>
      rw [hrun] at hres
      -- no failure of evaluation is a breakdown when reported, so that only the printer is left
      obtain ⟨-, ⟨⟨cause, hcause, rfl⟩, hbreak⟩ | hroom⟩ := hres
      · rw [Failure.isBreakdown_of_kind? (Failure.kind?_report hcause _)] at hbreak
        cases hbreak
      · exact hroom

/-- The stack is exhausted while an expression of the code is written. -/
def Overflows (s : Session) (code : String) (failure : Failure) : Prop :=
  failure = .exhausted ∧ ∃ es, s.parse code = .ok es ∧ ∃ e ∈ es, ¬ s.Writes e

theorem Native.run (hs : s.Native) :
    match Session.run code s with
    | .ok outcomes _ => ∃ es, s.parse code = .ok es ∧ List.Forall₂ Reportable es outcomes
    | .error failure _ => failure.Refuses ∨ s.Overflows code failure := by
  cases hparse : s.parse code with
  | error failure =>
    rw [run_eq, hparse]
    exact .inl (refuses_of_parse hparse)
  | ok es =>
    have hres := hs.run_of_parse hparse
    cases hrun : Session.run code s with
    | ok outcomes s' =>
      rw [hrun] at hres
      exact ⟨es, rfl, hres⟩
    | error failure s' =>
      rw [hrun] at hres
      exact .inr ⟨hres.1, es, hparse, hres.2⟩

theorem Native.userDefines (hs : s.Native) : ∀ d ∈ s.userDefines, Presentable d.2 := by
  intro d hd
  have hmem : (d.1, d.2) ∈ s.globals.entries := (List.mem_filter.1 hd).1
  exact .of_isNative (hs.world .session d.1 d.2 (NameMap.find?_eq_some_iff.2 hmem))

theorem Native.dump (hs : s.Native) : ∃ text, s.dump = .ok text :=
  exists_definitions fun d hd => (hs.userDefines d hd).format false

theorem text_summary {vs : List Value} (hlen : 1 < vs.length) (h : ∀ v ∈ vs, v.isNative) :
    (summary vs).text = .error (.foreignText (String.ofList (summary vs).inspect)) := by
  rw [(summary_eq vs).2.2 hlen]
  exact Value.text_sequence (Value.fault?_native _ _ (isNative_ofList h))

end

/-- A session holds native values only and shows its clients nothing else. Several results in a row are a
foreign list, which has no text. It fails only with failures that have a kind, and a batch only if it cannot
be read, or if the stack is exhausted while an expression is printed. -/
structure Safe (s : Session) : Prop where
  tables : ∀ globals ∈ s.globals :: s.history, globals.Native
  eval : ∀ code,
    match Session.eval code s with
    | .ok vs _ => (∀ v ∈ vs, Presentable v) ∧
      (1 < vs.length → (summary vs).text = .error (.foreignText (String.ofList (summary vs).inspect)))
    | .error failure _ => failure.kind?.isSome
  run : ∀ code,
    match Session.run code s with
    | .ok outcomes _ => ∃ es, s.parse code = .ok es ∧ List.Forall₂ Reportable es outcomes
    | .error failure _ =>
      (failure.kind? = some .parse ∨ failure.kind? = some .recursion) ∨ s.Overflows code failure
  dump : ∃ text, s.dump = .ok text
  defines : ∀ d ∈ s.userDefines, Presentable d.2

/-- A session over text is safe, whatever was done with it. -/
theorem create_performAll_safe (settings : Settings) (wanted : Option Int) (files : NameMap String) (start : String)
    (s₀ : Session) (hcreate : create settings wanted files start = .ok s₀) (calls : List Call)
    (hcalls : ∀ globals, Call.restore globals ∉ calls) : (s₀.performAll calls).Safe := by
  have hs : (s₀.performAll calls).Native := (native_create hcreate).performAll hcalls
  refine ⟨List.forall_mem_cons.2 ⟨hs.world .session, hs.history⟩, fun code => ?_, fun code => hs.run, hs.dump,
    hs.userDefines⟩
  have heval := hs.eval code
  cases hres : Session.eval code (s₀.performAll calls) with
  | ok vs s' =>
    rw [hres] at heval
    exact ⟨heval, fun hlen => text_summary hlen fun v hv => (heval v hv).native⟩
  | error failure s' =>
    rw [hres] at heval
    exact heval

/-- A session that starts with a primitive overwritten, runs a batch that fails in part and undoes it. -/
theorem create_performAll_safe_overwritten :
    ∃ s₀, create ⟨10, false, "", 0⟩ none ∅ "(define head null)" = .ok s₀ ∧
      ∃ text, (s₀.performAll [.run "(define x tail) (head x)", .undo, .dump]).dump = .ok text := by
  have hok : (create ⟨10, false, "", 0⟩ none ∅ "(define head null)").isOk := by decide +kernel
  cases hcreate : create ⟨10, false, "", 0⟩ none ∅ "(define head null)" with
  | ok s₀ =>
    have hsafe := create_performAll_safe _ none ∅ _ s₀ hcreate [.run "(define x tail) (head x)", .undo, .dump] (by simp)
    exact ⟨s₀, rfl, hsafe.dump⟩
  | error failure =>
    rw [hcreate] at hok
    cases hok

end Session

end Lisplet
