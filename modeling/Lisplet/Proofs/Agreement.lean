import Lisplet.Proofs.Batches
import Lisplet.Proofs.Headroom

/-!
# Evaluating code and running it

Evaluation of a piece of code stops at the first failure, a batch records failures and goes on.
`eval_recorded`: up to the first failure the two do the same. If all that a batch records are values, the
code has these values and leaves the world as the batch does; else it fails as the first failure recorded
says, and leaves the world as it is in the batch right after that expression. An expression is evaluated
by recording it and taking the result out of the record (`record_eq_ok`); only the history differs
(`eval_eq_mapState`). A batch may break down before that, where there is no room to write an expression.
-/

namespace Lisplet

namespace Session

section
variable {s t u : Session} {e : Value} {es done : List Value} {o : Outcome} {failure : Failure}
  {outcomes before behind : List Outcome} {vs : List Value} {code : String}

/-! ### Expressions in a row -/

theorem mapM_evalExpr_of_values (h : es.mapM record s = .ok outcomes t)
    (hvs : outcomes.map Outcome.result = vs.map .ok) :
    es.mapM evalExpr s = .ok vs t := by
  induction es generalizing s outcomes vs with
  | nil =>
    cases h
    obtain rfl : vs = [] := by simpa using hvs.symm
    rfl
  | cons e es ih =>
    obtain ⟨o, os, s₁, rfl, hrecord, hbatch⟩ := mapM_cons_eq_ok h
    cases vs with
    | nil => cases hvs
    | cons v vs =>
      obtain ⟨hresult, hos⟩ := List.cons.inj hvs
      have heval := (record_eq_ok hrecord).2.2
      rw [hresult] at heval
      exact mapM_cons_of_ok heval (ih hbatch hos)

theorem exists_values (h : ∀ o ∈ outcomes, o.isOk) : ∃ vs : List Value, outcomes.map Outcome.result = vs.map .ok := by
  induction outcomes with
  | nil => exact ⟨[], rfl⟩
  | cons o os ih =>
    obtain ⟨ho, hos⟩ := List.forall_mem_cons.1 h
    obtain ⟨vs, hvs⟩ := ih hos
    cases hresult : o.result with
    | ok v => exact ⟨v :: vs, by rw [List.map_cons, List.map_cons, hresult, hvs]⟩
    | error failure => simp [Outcome.isOk, hresult] at ho

/-- What is recorded up to an outcome is what the expressions up to it give. -/
theorem recorded_eq_append (h : recorded es s = before ++ o :: behind) :
    ∃ done e rest t u, es = done ++ e :: rest ∧ done.mapM record s = .ok before t ∧ record e t = .ok o u := by
  induction es generalizing s before with
  | nil => simp [recorded] at h
  | cons e es ih =>
    rw [recorded] at h
    cases hrecord : record e s with
    | error failure t => simp [hrecord] at h
    | ok o' t =>
      rw [hrecord] at h
      cases before with
      | nil =>
        cases h
        exact ⟨[], e, es, s, t, rfl, rfl, hrecord⟩
      | cons b before =>
        obtain ⟨rfl, hrest⟩ := List.cons.inj h
        obtain ⟨done, e', rest, t', u, rfl, hdone, he'⟩ := ih hrest
        exact ⟨e :: done, e', rest, t', u, rfl, mapM_cons_of_ok hrecord hdone, he'⟩

/-- A batch that breaks down has recorded what the expressions before gave. -/
theorem recorded_of_breakdown {rest : List Value} (hdone : done.mapM record s = .ok before t)
    (he : record e t = .error failure u) : recorded (done ++ e :: rest) s = before := by
  induction done generalizing s before with
  | nil =>
    rw [List.mapM_nil] at hdone
    cases hdone
    simp only [List.nil_append, recorded, he]
  | cons e' done ih =>
    obtain ⟨o, os, s₁, rfl, hrecord, hbatch⟩ := mapM_cons_eq_ok hdone
    simp only [List.cons_append, recorded, hrecord, ih hbatch]

/-! ### Code -/

/-- The expressions of code are evaluated alike whatever the history is, which stays as it is. -/
theorem eval_eq_mapState (hparse : s.parse code = .ok es) (history : List Globals) :
    eval code s = mapState (fun t => { t with history := s.history }) (es.mapM evalExpr { s with history }) := by
  rw [eval_eq, hparse]
  exact Commutes.mapM (evalExpr_history s.history) { s with history }

/-- A batch is its expressions in a row, behind the table that is kept. -/
theorem run_eq_mapState (hparse : s.parse code = .ok es) :
    mapState (fun t => { t with history := s.history }) (run code s) =
      mapState (fun t => { t with history := s.history })
        (es.mapM record { s with history := s.globals :: s.history }) := by
  rw [run_eq, hparse]
  cases es <;> rfl

theorem batch_of_run (hparse : s.parse code = .ok es) (h : run code s = .ok outcomes t) :
    ∃ u, es.mapM record { s with history := s.globals :: s.history } = .ok outcomes u ∧
      ({ t with history := s.history } : Session) = { u with history := s.history } := by
  have hrun := run_eq_mapState hparse
  rw [h] at hrun
  cases hbatch : es.mapM record { s with history := s.globals :: s.history } with
  | ok os u =>
    rw [hbatch] at hrun
    injection hrun with hos hstate
    exact ⟨u, by rw [hos], hstate⟩
  | error failure u =>
    rw [hbatch] at hrun
    cases hrun

theorem batch_of_breakdown (hparse : s.parse code = .ok es) (h : run code s = .error failure t) :
    ∃ u, es.mapM record { s with history := s.globals :: s.history } = .error failure u ∧
      ({ t with history := s.history } : Session) = { u with history := s.history } := by
  have hrun := run_eq_mapState hparse
  rw [h] at hrun
  cases hbatch : es.mapM record { s with history := s.globals :: s.history } with
  | ok os u =>
    rw [hbatch] at hrun
    cases hrun
  | error failure' u =>
    rw [hbatch] at hrun
    injection hrun with hfailure hstate
    exact ⟨u, by rw [hfailure], hstate⟩

theorem recordedIn_of_parse (hparse : s.parse code = .ok es) :
    s.recordedIn code = recorded es { s with history := s.globals :: s.history } := by
  rw [recordedIn, hparse]

theorem eval_of_values (hparse : s.parse code = .ok es) (h : run code s = .ok outcomes t)
    (hok : ∀ o ∈ outcomes, o.isOk) :
    ∃ vs, outcomes.map Outcome.result = vs.map .ok ∧ eval code s = .ok vs { t with history := s.history } := by
  obtain ⟨u, hbatch, hstate⟩ := batch_of_run hparse h
  obtain ⟨vs, hvs⟩ := exists_values hok
  refine ⟨vs, hvs, ?_⟩
  rw [eval_eq_mapState hparse (s.globals :: s.history), mapM_evalExpr_of_values hbatch hvs, hstate]
  rfl

/-- A batch breaks down as the evaluation of its code does, or at the expression behind those that it recorded, if
there is no room to write it. -/
theorem eval_of_breakdown (hparse : s.parse code = .ok es) (h : run code s = .error failure t)
    (hok : ∀ o ∈ s.recordedIn code, o.isOk) :
    eval code s = .error failure { t with history := s.history } ∨
      failure = .exhausted ∧ ∃ e, es[(s.recordedIn code).length]? = some e ∧ ¬ s.Writes e := by
  obtain ⟨u, hbatch, hstate⟩ := batch_of_breakdown hparse h
  obtain ⟨done, e, rest, before, v, rfl, hdone, he⟩ := mapM_eq_error hbatch
  rw [recordedIn_of_parse hparse, recorded_of_breakdown hdone he] at hok ⊢
  obtain ⟨vs, hvs⟩ := exists_values hok
  obtain ⟨-, ⟨-, hfails⟩ | ⟨hwrites, rfl, -⟩⟩ := record_eq_error he
  · left
    rw [eval_eq_mapState hparse (s.globals :: s.history),
      mapM_append_of_error (mapM_evalExpr_of_values hdone hvs) hfails, hstate]
    rfl
  · refine .inr ⟨rfl, e, ?_, fun hroom => hwrites (hroom.trans_eq (limit_of_batch hdone).symm)⟩
    rw [length_of_mapM hdone, List.getElem?_append_right (Nat.le_refl _), Nat.sub_self, List.getElem?_cons_zero]

/-- Code fails as its first recorded failure says, in the state in which the batch recorded it. -/
theorem eval_of_failure (hparse : s.parse code = .ok es) (hsplit : s.recordedIn code = before ++ o :: behind)
    (hbefore : ∀ o' ∈ before, o'.isOk) (ho : o.result = .error failure) :
    ∃ t, (es.take (before.length + 1)).mapM record { s with history := s.globals :: s.history } =
      .ok (before ++ [o]) t ∧
      eval code s = .error failure { t with history := s.history } := by
  rw [recordedIn_of_parse hparse] at hsplit
  obtain ⟨done, e, rest, t, u, rfl, hdone, he⟩ := recorded_eq_append hsplit
  obtain ⟨vs, hvs⟩ := exists_values hbefore
  have hfails := (record_eq_ok he).2.2
  rw [ho] at hfails
  have htake : (done ++ e :: rest).take (before.length + 1) = done ++ [e] := by
    rw [length_of_mapM hdone, List.take_length_add_append]
    rfl
  refine ⟨u, by rw [htake]; exact mapM_concat_of_ok hdone he, ?_⟩
  rw [eval_eq_mapState hparse (s.globals :: s.history),
    mapM_append_of_error (mapM_evalExpr_of_values hdone hvs) hfails]
  rfl

theorem history_eval (s : Session) (code : String) : (s.after (eval code)).history = s.history :=
  history_perform (s := s) (c := .eval code)

end

/-- What the outcomes that a batch of some code records say about the evaluation of the code. -/
structure Foretells (s : Session) (code : String) (es : List Value) (outcomes : List Outcome) : Prop where
  recorded : ∀ os s', run code s = .ok os s' → os = outcomes ∧ os.length = es.length
  /-- A batch over text comes to its end if there is room to write the expressions. -/
  ends : s.Native → ((∃ s', run code s = .ok outcomes s') ↔ ∀ e ∈ es, s.Writes e)
  /-- If all outcomes are values, these are the values of the code (and `summary` of them is its value). -/
  values : (∀ o ∈ outcomes, o.isOk) → ∀ s', run code s = .ok outcomes s' →
    ∃ vs, outcomes.map Outcome.result = vs.map .ok ∧ eval code s = .ok vs { s' with history := s.history }
  /-- The first failure is that of the code, which leaves the world as the batch does behind that expression. -/
  failure : ∀ before o behind failure, outcomes = before ++ o :: behind → (∀ o' ∈ before, o'.isOk) →
    o.result = .error failure →
    ∃ t, (es.take (before.length + 1)).mapM record { s with history := s.globals :: s.history } =
        .ok (before ++ [o]) t ∧
      eval code s = .error failure { t with history := s.history }
  /-- A batch that breaks down with no failure on record breaks down as the code does, or because there is no room to
  write the expression that comes next. -/
  breakdown : (∀ o ∈ outcomes, o.isOk) → ∀ failure s', run code s = .error failure s' →
    eval code s = .error failure { s' with history := s.history } ∨
      failure = .exhausted ∧ ∃ e, es[outcomes.length]? = some e ∧ ¬ s.Writes e
  history : ∀ code', (s.after (eval code')).history = s.history

/-- Up to the first failure that a batch records, evaluating its code does the same as running it, but for the
history, which evaluation leaves alone. -/
theorem eval_recorded (s : Session) (code : String) (es : List Value) (hparse : s.parse code = .ok es) :
    s.Foretells code es (s.recordedIn code) where
  recorded os s' hos := by
    obtain ⟨t, hbatch, -⟩ := batch_of_run hparse hos
    exact ⟨(recordedIn_eq hos).symm, length_of_mapM hbatch⟩
  ends hs := by
    rw [← (hs.run_ends hparse).1]
    refine ⟨fun ⟨s', hrun⟩ => ⟨_, s', hrun⟩, fun ⟨os, s', hrun⟩ => ⟨s', ?_⟩⟩
    rw [recordedIn_eq hrun, hrun]
  values hok s' hrun := eval_of_values hparse hrun hok
  failure before o behind failure hsplit hbefore ho := eval_of_failure hparse hsplit hbefore ho
  breakdown hok failure s' hrun := eval_of_breakdown hparse hrun hok
  history := history_eval s

/-- A batch of three expressions, of which the second fails. -/
theorem eval_recorded_unbound :
    ∃ es o₁ o₂ o₃ t, (fresh 9 false ∅).parse "(define x 1) y (define x 2)" = .ok es ∧
      (fresh 9 false ∅).recordedIn "(define x 1) y (define x 2)" = [o₁, o₂, o₃] ∧ o₃.isOk ∧
      (es.take 2).mapM record { fresh 9 false ∅ with history := [.library .session] } = .ok [o₁, o₂] t ∧
      eval "(define x 1) y (define x 2)" (fresh 9 false ∅) = .error (.unbound "y") { t with history := [] } := by
  have hreads : (fresh 9 false ∅).reads "(define x 1) y (define x 2)" := by decide +kernel
  obtain ⟨e, es, hparse⟩ := reads_iff.1 hreads
  have hresults : ((fresh 9 false ∅).recordedIn "(define x 1) y (define x 2)").map Outcome.result =
      [.ok (.double (Binary64.ofNat 1)), .error (.unbound "y"), .ok (.double (Binary64.ofNat 2))] := by
    decide +kernel
  obtain ⟨o₁, os, hrecorded, h₁, hos⟩ := List.map_eq_cons_iff.1 hresults
  obtain ⟨o₂, os, rfl, h₂, hos⟩ := List.map_eq_cons_iff.1 hos
  obtain ⟨o₃, os, rfl, h₃, hos⟩ := List.map_eq_cons_iff.1 hos
  obtain rfl := List.map_eq_nil_iff.1 hos
  have hforetells := eval_recorded _ _ _ hparse
  obtain ⟨t, hbatch, heval⟩ := hforetells.failure [o₁] o₂ [o₃] _ hrecorded (by simp [Outcome.isOk, h₁]) h₂
  exact ⟨e :: es, o₁, o₂, o₃, t, hparse, hrecorded, by simp [Outcome.isOk, h₃], hbatch, heval⟩

end Session

end Lisplet
