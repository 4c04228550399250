import Lisplet.Proofs.Invariant
import Lisplet.Session

/-!
# Calls on a session

What is done with a session from outside is a row of calls (`Session.performAll`); a call that fails
leaves the session as it was when it failed. Evaluation changes nothing of a session but its world,
and keeps there what is invariant (`Invariant.perform_eval`, `Invariant.perform_run`).
-/

namespace Lisplet

namespace Session

inductive Call where
  | eval (code : String)
  | run (code : String)
  | undo
  | restore (globals : Globals)
  | dump
  | userDefines

/-- The session after a step of it, whether that fails or not. -/
def after {α : Type} (m : SessionM α) (s : Session) : Session :=
  match m s with
  | .ok _ s' => s'
  | .error _ s' => s'

def Call.perform (s : Session) : Call → Session
  | .eval code => s.after (Session.eval code)
  | .run code => s.after (Session.run code)
  | .undo => s.undo.2
  | .restore globals => s.withGlobals globals
  | .dump | .userDefines => s

theorem after_congr {α : Type} {m m' : SessionM α} {s s' : Session} (h : m s = m' s') : s.after m = s'.after m' := by
  rw [after, after, h]

def performAll (s : Session) (calls : List Call) : Session := calls.foldl Call.perform s

section
variable {s : Session} {code : String}

theorem performAll_append (calls calls' : List Call) :
    s.performAll (calls ++ calls') = (s.performAll calls).performAll calls' :=
  List.foldl_append ..

/-! ### Code -/

theorem eval_eq (code : String) (s : Session) :
    Session.eval code s =
      match s.parse code with
      | .error failure => .error failure s
      | .ok es => es.mapM evalExpr s := by
  show (MonadExcept.ofExcept (s.parse code) >>= fun es => es.mapM evalExpr) s = _
  cases s.parse code <;> rfl

theorem run_eq (code : String) (s : Session) :
    Session.run code s =
      match s.parse code with
      | .error failure => .error failure s
      | .ok [] => .ok [] s
      | .ok (e :: es) => (e :: es).mapM record { s with history := s.globals :: s.history } := by
  show (MonadExcept.ofExcept (s.parse code) >>= fun es : List Value =>
    if es.isEmpty then pure [] else (do remember; es.mapM record)) s = _
  cases s.parse code with
  | error failure => rfl
  | ok es => cases es <;> rfl

/-- Code that is read as at least one expression. -/
def reads (s : Session) (code : String) : Bool :=
  match s.parse code with
  | .ok (_ :: _) => true
  | _ => false

theorem reads_iff : s.reads code ↔ ∃ e es, s.parse code = .ok (e :: es) := by
  unfold reads
  split
  · simp_all
  · next h => simpa using h

theorem perform_run_idle (h : s.reads code = false) : Call.perform s (.run code) = s := by
  rw [Call.perform, after, run_eq]
  cases hparse : s.parse code with
  | error failure => rfl
  | ok es =>
    cases es with
    | nil => rfl
    | cons e es => simp [reads, hparse] at h

end

/-! ### Records -/

section
variable {s t : Session} {e : Value} {o : Outcome} {failure : Failure}

theorem record_of_writes (h : s.Writes e) :
    record e s =
      match evalExpr e s with
      | .ok v t => .ok ⟨String.ofList e.render, .ok v⟩ t
      | .error failure t =>
        if failure.isBreakdown then .error failure t else .ok ⟨String.ofList e.render, .error failure⟩ t :=
  if_pos h

theorem record_of_not_writes (h : ¬ s.Writes e) : record e s = .error .exhausted s := if_neg h

/-- What is recorded of an expression is its text, which was written before, and what evaluation gave. -/
theorem record_eq_ok (h : record e s = .ok o t) :
    s.Writes e ∧ o.text = String.ofList e.render ∧
      evalExpr e s = (MonadExcept.ofExcept o.result : SessionM Value) t := by
  by_cases hwrites : s.Writes e
  · rw [record_of_writes hwrites] at h
    refine ⟨hwrites, ?_⟩
    split at h
    · next heval =>
      cases h
      exact ⟨rfl, heval⟩
    · next heval =>
      split at h <;> cases h
      exact ⟨rfl, heval⟩
  · rw [record_of_not_writes hwrites] at h
    cases h

/-- A record breaks down with evaluation, or before it if there is no room for the text. -/
theorem record_eq_error (h : record e s = .error failure t) :
    failure.isBreakdown ∧
      (s.Writes e ∧ evalExpr e s = .error failure t ∨ ¬ s.Writes e ∧ failure = .exhausted ∧ t = s) := by
  by_cases hwrites : s.Writes e
  · rw [record_of_writes hwrites] at h
    split at h
    · cases h
    · next heval =>
      split at h
      · next hbreak =>
        cases h
        exact ⟨hbreak, .inl ⟨hwrites, heval⟩⟩
      · cases h
  · rw [record_of_not_writes hwrites] at h
    cases h
    exact ⟨rfl, .inr ⟨hwrites, rfl, rfl⟩⟩

theorem limit_of_record (h : record e s = .ok o t) : t.limit = s.limit := by
  obtain ⟨-, -, heval⟩ := record_eq_ok h
  have hlimit : (s.after (evalExpr e)).limit = s.limit := by
    unfold after evalExpr
    cases Lisplet.eval s.limit (.global .session) e s.world <;> rfl
  rw [after, heval] at hlimit
  cases hresult : o.result <;> rw [hresult] at hlimit <;> exact hlimit

theorem limit_of_batch {es : List Value} {outcomes : List Outcome} (h : es.mapM record s = .ok outcomes t) :
    t.limit = s.limit := by
  induction es generalizing s outcomes with
  | nil =>
    cases h
    rfl
  | cons e es ih =>
    obtain ⟨o, os, u, rfl, hrecord, hbatch⟩ := mapM_cons_eq_ok h
    exact (ih hbatch).trans (limit_of_record hrecord)

/-- In a batch that comes to its end each expression was written and recorded. -/
theorem batch_records {es : List Value} {outcomes : List Outcome} (h : es.mapM record s = .ok outcomes t) :
    List.Forall₂ (fun e o => s.Writes e ∧ ∃ u u', record e u = .ok o u') es outcomes := by
  induction es generalizing s outcomes with
  | nil =>
    cases h
    exact .nil
  | cons e es ih =>
    obtain ⟨o, os, u, rfl, hrecord, hbatch⟩ := mapM_cons_eq_ok h
    refine .cons ⟨(record_eq_ok hrecord).1, s, u, hrecord⟩ ((ih hbatch).imp fun e o he => ⟨?_, he.2⟩)
    have hroom : e.writeDepth false false ≤ u.limit := he.1
    rwa [limit_of_record hrecord] at hroom

end

/-- A dump is a matter of names and texts. -/
theorem definitions_eq {ds ds' : List (String × Value)}
    (h : List.Forall₂ (fun d d' => d.1 = d'.1 ∧ d.2.text = d'.2.text) ds ds') : definitions ds = definitions ds' := by
  refine congrArg (· >>= fun lines => pure ("\n".intercalate lines)) ?_
  induction h with
  | nil => rfl
  | @cons d d' _ _ hd _ ih =>
    obtain ⟨name, v⟩ := d
    obtain ⟨name', v'⟩ := d'
    obtain ⟨rfl, hv⟩ := hd
    rw [List.mapM_cons, List.mapM_cons, ih]
    simp only [hv]

theorem exists_definitions {ds : List (String × Value)} (h : ∀ d ∈ ds, ∃ text, d.2.text = .ok text) :
    ∃ text, definitions ds = .ok text := by
  have hds : Settles (fun _ => True) (fun _ => False) (definitions ds) := by
    refine (Settles.mapM_true ?_).bind fun _ _ => trivial
    rintro ⟨name, v⟩ hd
    obtain ⟨text, htext⟩ := h _ hd
    show Settles _ _ (v.text >>= _)
    rw [htext]
    trivial
  exact hds.exists_ok

end Session

namespace Invariant

variable {inv : Invariant}

/-- A session that differs from `base` in the world only, of which the invariant holds. -/
def Within (inv : Invariant) (base s : Session) : Prop := inv.state s.world ∧ s = { base with world := s.world }

def Reported (inv : Invariant) (limit : Nat) (failure : Failure) : Prop :=
  ∃ cause, inv.fails cause ∧ failure = cause.report .evaluating limit

/-- At top level, `e` keeps the invariant and has a value as `goal` says. -/
def Expects (inv : Invariant) (goal : Value → Prop) (e : Value) : Prop :=
  ∀ depth, inv.Keeps goal (Lisplet.eval depth (.global .session) e)

/-- An outcome of an expression: its text, with a value or a failure as a session reports it. -/
structure Recorded (inv : Invariant) (goal : Value → Prop) (limit : Nat) (e : Value) (o : Outcome) : Prop where
  text : o.text = String.ofList e.render
  result : Settles goal (inv.Reported limit) o.result

/-- Why a row of expressions is left before its end: evaluation breaks down, or there is no room for the text
of an expression. -/
def Breaks (inv : Invariant) (base : Session) (es : List Value) (failure : Failure) : Prop :=
  inv.Reported base.limit failure ∧ failure.isBreakdown ∨ failure = .exhausted ∧ ∃ e ∈ es, ¬ base.Writes e

variable {goal : Value → Prop} {base s : Session} {e : Value} {es : List Value} {code : String}

theorem Expects.of_code (hscope : inv.scope (.global .session)) (he : inv.code e) : inv.Expects inv.value e :=
  fun depth => inv.eval depth _ e hscope he

theorem evalExpr_meets (he : inv.Expects goal e) :
    Meets (inv.Within base) goal (inv.Reported base.limit) (Session.evalExpr e) := by
  rintro s ⟨hworld, hs⟩
  have heval := he s.limit s.world hworld
  unfold Session.evalExpr
  cases hres : Lisplet.eval s.limit (.global .session) e s.world with
  | ok v world =>
    rw [hres] at heval
    exact ⟨⟨heval.1, by rw [hs]⟩, heval.2⟩
  | error failure world =>
    rw [hres] at heval
    exact ⟨⟨heval.1, by rw [hs]⟩, failure, heval.2, by rw [hs]⟩

/-- A batch records every failure but a breakdown. -/
theorem record_meets (he : inv.Expects goal e) (hmem : e ∈ es) :
    Meets (inv.Within base) (inv.Recorded goal base.limit e) (inv.Breaks base es) (Session.record e) := by
  intro s hs
  have heval := evalExpr_meets he s hs
  cases hres : Session.record e s with
  | ok o s' =>
    obtain ⟨-, htext, hresult⟩ := Session.record_eq_ok hres
    rw [hresult] at heval
    obtain ⟨text, result⟩ := o
    cases result with
    | ok v => exact ⟨heval.1, htext, heval.2⟩
    | error failure => exact ⟨heval.1, htext, heval.2⟩
  | error failure s' =>
    obtain ⟨hbreak, ⟨-, hfails⟩ | ⟨hwrites, rfl, rfl⟩⟩ := Session.record_eq_error hres
    · rw [hfails] at heval
      exact ⟨heval.1, .inl ⟨heval.2, hbreak⟩⟩
    · have hroom : base.Writes e ↔ s'.Writes e := by rw [hs.2]; exact .rfl
      exact ⟨hs, .inr ⟨rfl, e, hmem, mt hroom.1 hwrites⟩⟩

theorem batch_meets (hes : ∀ e ∈ es, inv.Expects goal e) :
    Meets (inv.Within base) (List.Forall₂ (inv.Recorded goal base.limit) es) (inv.Breaks base es)
      (es.mapM Session.record) :=
  .mapM fun e he => record_meets (hes e he) he

theorem after_within {α : Type} {post : α → Prop} {fails : Failure → Prop} {m : SessionM α}
    (h : Meets (inv.Within base) post fails m) (hs : inv.Within base s) : inv.Within base (s.after m) := by
  have h := h s hs
  unfold Session.after
  cases hres : m s with
  | ok a s' => rw [hres] at h; exact h.1
  | error failure s' => rw [hres] at h; exact h.1

section
variable (hworld : inv.state s.world) (hcode : ∀ es, s.parse code = .ok es → ∀ e ∈ es, inv.Expects goal e)

include hworld hcode

theorem perform_eval : inv.Within s (Session.Call.perform s (.eval code)) := by
  have hs : inv.Within s s := ⟨hworld, rfl⟩
  cases hparse : s.parse code with
  | error failure =>
    rw [Session.Call.perform, Session.after, Session.eval_eq, hparse]
    exact hs
  | ok es =>
    have heval : Session.eval code s = es.mapM Session.evalExpr s := by rw [Session.eval_eq, hparse]
    rw [Session.Call.perform, Session.after_congr heval]
    exact after_within (Meets.mapM_all fun e he => evalExpr_meets (hcode es hparse e he)) hs

theorem perform_run (hreads : s.reads code) :
    inv.Within { s with history := s.globals :: s.history } (Session.Call.perform s (.run code)) := by
  obtain ⟨e, es, hparse⟩ := Session.reads_iff.1 hreads
  have hrun : Session.run code s = (e :: es).mapM Session.record { s with history := s.globals :: s.history } := by
    rw [Session.run_eq, hparse]
  rw [Session.Call.perform, Session.after_congr hrun]
  exact after_within (batch_meets (hcode _ hparse)) ⟨hworld, rfl⟩

end

end Invariant

namespace Session

/-! ### Tables -/

/-- A property of tables holds of all that a session has, in use or remembered. -/
structure Tables (p : Globals → Prop) (s : Session) : Prop where
  world : ∀ owner, p (s.world.realm owner).globals
  history : ∀ globals ∈ s.history, p globals

theorem Tables.fresh {p : Globals → Prop} (h : ∀ owner, p (.library owner)) (limit : Nat) (strict : Bool)
    (files : NameMap String) : (fresh limit strict files).Tables p where
  world owner := by cases owner <;> exact h _
  history := by simp [Session.fresh]

section
variable {p : Globals → Prop} {inv : Invariant} (hinv : ∀ w, inv.state w ↔ ∀ owner, p (w.realm owner).globals)
  {goal : Value → Prop} {s : Session}

include hinv

/-- A call that keeps an invariant of tables, as long as it brings in no table from outside. -/
theorem Tables.perform (hs : s.Tables p) (hcode : ∀ code es, s.parse code = .ok es → ∀ e ∈ es, inv.Expects goal e)
    {c : Call} (hc : ∀ globals, c ≠ .restore globals) :
    (c.perform s).Tables p ∧ (c.perform s).limit = s.limit := by
  have hworld : inv.state s.world := (hinv _).2 hs.world
  cases c with
  | eval code =>
    obtain ⟨hstate, heq⟩ := Invariant.perform_eval hworld (hcode code)
    rw [heq]
    exact ⟨⟨(hinv _).1 hstate, hs.history⟩, rfl⟩
  | run code =>
    by_cases hreads : s.reads code
    · obtain ⟨hstate, heq⟩ := Invariant.perform_run hworld (hcode code) hreads
      rw [heq]
      exact ⟨⟨(hinv _).1 hstate, List.forall_mem_cons.2 ⟨hs.world .session, hs.history⟩⟩, rfl⟩
    · rw [perform_run_idle (by simpa using hreads)]
      exact ⟨hs, rfl⟩
  | undo =>
    rw [Call.perform, Session.undo]
    cases hhistory : s.history with
    | nil => exact ⟨hs, rfl⟩
    | cons globals history =>
      have hglobals := hs.history
      rw [hhistory, List.forall_mem_cons] at hglobals
      exact ⟨⟨World.forall_modifyRealm hs.world .session fun _ _ => hglobals.1, hglobals.2⟩, rfl⟩
  | restore globals => exact absurd rfl (hc globals)
  | dump | userDefines => exact ⟨hs, rfl⟩

theorem Tables.performAll (hs : s.Tables p) {limit : Nat} (hlimit : s.limit = limit)
    (hcode : ∀ s : Session, s.limit = limit → ∀ code es, s.parse code = .ok es → ∀ e ∈ es, inv.Expects goal e)
    {calls : List Call} (hcalls : ∀ globals, Call.restore globals ∉ calls) :
    (s.performAll calls).Tables p ∧ (s.performAll calls).limit = limit := by
  induction calls generalizing s with
  | nil => exact ⟨hs, hlimit⟩
  | cons c calls ih =>
    have hc := hs.perform hinv (hcode s hlimit) (c := c) fun globals hc => hcalls globals (hc ▸ List.mem_cons_self ..)
    exact ih hc.1 (hc.2.trans hlimit) fun globals hmem => hcalls globals (List.mem_cons_of_mem _ hmem)

omit hinv in
theorem exists_limit_of_create {settings : Settings} {wanted : Option Int} {files : NameMap String} {code : String}
    (h : create settings wanted files code = .ok s) : ∃ limit, raiseLimit settings leastLimit wanted = .ok limit := by
  unfold Session.create at h
  split at h
  · cases h
  · exact ⟨_, ‹_›⟩

/-- What a session starts with is code like any other. -/
theorem Tables.create (hlibrary : ∀ owner, p (.library owner)) {settings : Settings} {wanted : Option Int}
    {files : NameMap String} {code : String} {limit : Nat} (hlimit : raiseLimit settings leastLimit wanted = .ok limit)
    (hcode : ∀ s : Session, s.limit = limit → ∀ code es, s.parse code = .ok es → ∀ e ∈ es, inv.Expects goal e)
    (h : create settings wanted files code = .ok s) : s.Tables p ∧ s.limit = limit := by
  have hperform :=
    (Tables.fresh hlibrary limit settings.strictNumbers files).perform hinv (hcode _ rfl) (c := .eval code)
    (by simp)
  rw [Call.perform, after] at hperform
  rw [Session.create, hlimit] at h
  dsimp only at h
  split at h
  · next hres =>
    cases h
    rw [hres] at hperform
    exact hperform
  · cases h

end

end Session

end Lisplet
