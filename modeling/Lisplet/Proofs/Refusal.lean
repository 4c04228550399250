import Lisplet.Proofs.Simulation

/-!
# What is refused changes nothing

`Eval.refusals`: a primitive that fails leaves the world as it was, because it checks its operands before it
changes anything (`Harmless`). And an expression that is malformed, a form or an application whose operands
are no list, or a form with the wrong number of them or with something else where a name has to stand, fails
before any part of it is evaluated: in the same way whatever evaluates the parts. No other expression does.
-/

namespace Lisplet

/-! ### Failing where one started -/

section
variable {ε σ α β : Type}

/-- A computation that, if it fails, ends in the state in which it started. -/
def Harmless (m : EStateM ε σ α) : Prop := ∀ s e t, m s = .error e t → t = s

namespace Harmless

theorem throw (e : ε) : Harmless (throw e : EStateM ε σ α) := by
  rintro s _ _ ⟨⟩
  rfl

theorem ofExcept (x : Except ε α) : Harmless (MonadExcept.ofExcept x : EStateM ε σ α) := by
  cases x with
  | ok a => rintro s e t ⟨⟩
  | error e => exact throw e

theorem ofExcept_bind {x : Except ε α} {f : α → EStateM ε σ β} (hf : ∀ a, Harmless (f a)) :
    Harmless (MonadExcept.ofExcept x >>= f) := by
  cases x with
  | ok a => exact hf a
  | error e => exact throw e

theorem get_bind {f : σ → EStateM ε σ β} (hf : ∀ s, Harmless (f s)) : Harmless (get >>= f) :=
  fun s => hf s s

/-- What never fails does not fail elsewhere. -/
theorem of_ok {m : EStateM ε σ α} (h : ∀ s, ∃ a t, m s = .ok a t) : Harmless m := by
  intro s e t he
  obtain ⟨a, t', hok⟩ := h s
  rw [hok] at he
  cases he

end Harmless

end

namespace Primitive

theorem perform_harmless (owner : Owner) (p : Primitive) (operands : List Value) :
    Harmless (p.perform owner operands) := by
  fun_cases Primitive.perform owner p operands with
  | case1 a b => exact .of_ok fun w => ⟨_, _, rfl⟩
  | case2 a => exact .ofExcept_bind fun line => .of_ok fun w => ⟨_, _, rfl⟩
  | case3 a =>
    refine .ofExcept_bind fun name => .get_bind fun w => ?_
    split <;> exact .of_ok fun w => ⟨_, _, rfl⟩
  | case4 a b => exact .ofExcept_bind fun name => .ofExcept_bind fun text => .of_ok fun w => ⟨_, _, rfl⟩
  | case5 => exact .throw _

theorem apply_harmless (owner : Owner) (p : Primitive) (operands : List Value) :
    Harmless (p.apply owner operands) := by
  unfold Primitive.apply
  split
  · exact .ofExcept _
  · exact perform_harmless owner p operands

end Primitive

/-! ### Checks of operands -/

namespace Eval

theorem enter_of_length_ne {form : SpecialForm} {operands : List Value} (h : operands.length ≠ form.operands)
    (evaluate : Evaluator) (scope : Scope) :
    enter evaluate scope form operands = throw (.wrongArity (.form form) form.operands operands.length) := by
  fun_cases enter evaluate scope form operands with
  | case7 => rfl
  | _ => exact absurd rfl h

theorem step_pair {id : Identity} {head tail : Value} (h : tail.isList) (evaluate : Evaluator) (scope : Scope) :
    step evaluate scope (.pair id head tail) =
      match form? head with
      | some form => enter evaluate scope form tail.items
      | none => evaluate scope head >>= fun f => tail.items.mapM (evaluate scope) >>= apply evaluate f := by
  have helements : tail.elements = .ok tail.items := if_pos h
  simp only [step, helements]
  rfl

/-- A failure that takes the place of what a check would have gone on with. -/
theorem exists_refusal {α : Type} {x : Except Failure α} (h : ∀ a, x ≠ .ok a) :
    ∃ failure, ∀ (f : α → Eval Value) w, (MonadExcept.ofExcept x >>= f) w = .error failure w := by
  cases x with
  | ok a => exact absurd rfl (h a)
  | error failure => exact ⟨failure, fun f w => rfl⟩

theorem elements_ne_ok {v : Value} (h : v.isList = false) (operands : List Value) : v.elements ≠ .ok operands := by
  rw [Value.elements, h]
  exact complaint_ne_ok

/-- A value that gives the names of parameters: a list of symbols. -/
def IsParameters (v : Value) : Prop := v.isList = true ∧ ∀ item ∈ v.items, ∃ name, item = .symbol name

theorem isParameters_of_ok {v : Value} {names : List String} (h : parameters v = .ok names) : IsParameters v := by
  have hitems : Settles (List.Forall₂ (fun item name => item = .symbol name) v.items) (fun _ => True)
      (v.items.mapM (nameOperand .abstraction)) := by
    refine .mapM fun item _ => ?_
    cases hname : nameOperand .abstraction item with
    | ok name => exact nameOperand_eq_ok hname
    | error failure => trivial
  unfold parameters at h
  split at h
  · next hlist =>
    rw [h] at hitems
    have hmap : v.items = names.map .symbol := by
      rw [← List.forall₂_eq_eq_eq, List.forall₂_map_right_iff]
      exact hitems
    refine ⟨hlist, fun item hitem => ?_⟩
    rw [hmap] at hitem
    obtain ⟨name, -, rfl⟩ := List.mem_map.1 hitem
    exact ⟨name, rfl⟩
  · exact absurd h complaint_ne_ok

theorem exists_parameters {v : Value} (h : IsParameters v) : ∃ names, parameters v = .ok names := by
  have hitems : Settles (fun _ => True) (fun _ => False) (v.items.mapM (nameOperand .abstraction)) := by
    refine .mapM_true fun item hitem => ?_
    obtain ⟨name, rfl⟩ := h.2 item hitem
    trivial
  rw [parameters, if_pos h.1]
  exact hitems.exists_ok

/-- An expression that fails by its form: a form or an application whose operands are no list, or a form with
the wrong number of operands or with something else where it wants a name or parameters. -/
inductive Malformed : Value → Prop
  | improper {id : Identity} {head tail : Value} : tail.isList = false → Malformed (.pair id head tail)
  | length {id : Identity} {head tail : Value} {form : SpecialForm} : form? head = some form →
    tail.items.length ≠ form.operands → Malformed (.pair id head tail)
  | name {id : Identity} {head tail v : Value} {form : SpecialForm} {rest : List Value} : form? head = some form →
    form = .definition ∨ form = .binding → tail.items = v :: rest → (∀ name, v ≠ .symbol name) →
    Malformed (.pair id head tail)
  | parameters {id : Identity} {head tail v : Value} {rest : List Value} : form? head = some .abstraction →
    tail.items = v :: rest → ¬ IsParameters v → Malformed (.pair id head tail)

/-- Whatever the parts are evaluated by, and in whatever scope and state, the expression fails in this way
and changes nothing. -/
def Refuses (e : Value) (failure : Failure) : Prop := ∀ evaluate scope w, step evaluate scope e w = .error failure w

theorem enter_refuses_length {form : SpecialForm} {operands : List Value} (h : operands.length ≠ form.operands) :
    ∃ failure, ∀ evaluate scope w, enter evaluate scope form operands w = .error failure w := by
  refine ⟨.wrongArity (.form form) form.operands operands.length, fun evaluate scope w => ?_⟩
  rw [enter_of_length_ne h]
  rfl

theorem enter_refuses_name {form : SpecialForm} (hform : form = .definition ∨ form = .binding) {v : Value}
    (hname : ∀ name, v ≠ .symbol name) (rest : List Value) :
    ∃ failure, ∀ evaluate scope w, enter evaluate scope form (v :: rest) w = .error failure w := by
  by_cases hlength : (v :: rest).length = form.operands
  · obtain ⟨failure, hfailure⟩ := exists_refusal fun name (h : nameOperand form v = .ok name) =>
      hname name (nameOperand_eq_ok h)
    rcases hform with rfl | rfl
    · obtain ⟨e, rfl⟩ := List.length_eq_one_iff.1 (Nat.succ.inj hlength)
      exact ⟨failure, fun evaluate scope w => hfailure _ w⟩
    · obtain ⟨e, body, rfl⟩ := List.length_eq_two.1 (Nat.succ.inj hlength)
      exact ⟨failure, fun evaluate scope w => hfailure _ w⟩
  · exact enter_refuses_length hlength

theorem enter_refuses_parameters {v : Value} (hparams : ¬ IsParameters v) (rest : List Value) :
    ∃ failure, ∀ evaluate scope w, enter evaluate scope .abstraction (v :: rest) w = .error failure w := by
  by_cases hlength : (v :: rest).length = SpecialForm.abstraction.operands
  · obtain ⟨failure, hfailure⟩ := exists_refusal fun names h => hparams (isParameters_of_ok h)
    obtain ⟨body, rfl⟩ := List.length_eq_one_iff.1 (Nat.succ.inj hlength)
    exact ⟨failure, fun evaluate scope w => hfailure _ w⟩
  · exact enter_refuses_length hlength

theorem refuses_improper {id : Identity} {head tail : Value} (h : tail.isList = false) :
    ∃ failure, Refuses (.pair id head tail) failure := by
  obtain ⟨failure, hfailure⟩ := exists_refusal (elements_ne_ok h)
  exact ⟨failure, fun evaluate scope w => hfailure _ w⟩

/-- What a form refuses, the expression does, if its operands are a list at all. -/
theorem refuses_of_enter {id : Identity} {head tail : Value} {form : SpecialForm} (hform : form? head = some form)
    (h : ∃ failure, ∀ evaluate scope w, enter evaluate scope form tail.items w = .error failure w) :
    ∃ failure, Refuses (.pair id head tail) failure := by
  cases hlist : tail.isList with
  | false => exact refuses_improper hlist
  | true =>
    obtain ⟨failure, hfailure⟩ := h
    refine ⟨failure, fun evaluate scope w => ?_⟩
    rw [step_pair hlist, hform]
    exact hfailure evaluate scope w

theorem Malformed.exists_refuses {e : Value} (h : Malformed e) : ∃ failure, Refuses e failure := by
  cases h with
  | improper hlist => exact refuses_improper hlist
  | length hform hlength => exact refuses_of_enter hform (enter_refuses_length hlength)
  | name hform hbinds hitems hname => exact refuses_of_enter hform (hitems ▸ enter_refuses_name hbinds hname _)
  | parameters hform hitems hparams => exact refuses_of_enter hform (hitems ▸ enter_refuses_parameters hparams _)

/-! ### Expressions that are not refused -/

/-- Parts whose evaluation always fails, in the same way. -/
def failing (failure : Failure) : Evaluator := fun _ _ => throw failure

/-- It gives a result, with some way to evaluate its parts, or it fails as its parts do. -/
def Proceeds (w : World) (run : Evaluator → Eval Value) : Prop :=
  (∀ failure, run (failing failure) w = .error failure w) ∨ ∃ evaluate v w', run evaluate w = .ok v w'

theorem enter_proceeds {form : SpecialForm} {operands : List Value} (hlength : operands.length = form.operands)
    (hname : ∀ v rest, form = .definition ∨ form = .binding → operands = v :: rest → ∃ name, v = .symbol name)
    (hparams : ∀ v rest, form = .abstraction → operands = v :: rest → IsParameters v) (scope : Scope) (w : World) :
    Proceeds w fun evaluate => enter evaluate scope form operands := by
  cases form with
  | condition =>
    obtain ⟨test, yes, no, rfl⟩ := List.length_eq_three.1 hlength
    exact .inl fun failure => rfl
  | conjunction | disjunction =>
    obtain ⟨a, b, rfl⟩ := List.length_eq_two.1 hlength
    exact .inl fun failure => rfl
  | definition =>
    obtain ⟨v, e, rfl⟩ := List.length_eq_two.1 hlength
    obtain ⟨name, rfl⟩ := hname v [e] (.inl rfl) rfl
    exact .inl fun failure => rfl
  | binding =>
    obtain ⟨v, e, body, rfl⟩ := List.length_eq_three.1 hlength
    obtain ⟨name, rfl⟩ := hname v [e, body] (.inr rfl) rfl
    exact .inl fun failure => rfl
  | abstraction =>
    obtain ⟨v, body, rfl⟩ := List.length_eq_two.1 hlength
    obtain ⟨names, hnames⟩ := exists_parameters (hparams v [body] rfl rfl)
    refine .inr ⟨failing .exhausted, .closure (some w.next) names body scope, { w with next := w.next + 1 }, ?_⟩
    simp only [enter, hnames]
    rfl

theorem step_proceeds {e : Value} (h : ¬ Malformed e) :
    ∃ scope w, Proceeds w fun evaluate => step evaluate scope e := by
  let w := World.ofRealm (.fresh .session ∅) 0
  cases e with
  | symbol name =>
    refine ⟨.bind name .nil (.global .session), w, .inr ⟨failing .exhausted, .nil, w, ?_⟩⟩
    have hfind : (Scope.bind name .nil (.global .session)).find? name = some .nil := if_pos rfl
    simp only [step, lookup, hfind]
    rfl
  | pair id head tail =>
    have hlist : tail.isList = true := by
      by_contra hlist
      exact h (.improper (Bool.eq_false_iff.2 hlist))
    refine ⟨.global .session, w, ?_⟩
    simp only [step_pair hlist]
    cases hform : form? head with
    | none => exact .inl fun failure => rfl
    | some form =>
      refine enter_proceeds ?_ ?_ ?_ (.global .session) w
      · by_contra hlength
        exact h (.length hform hlength)
      · intro v rest hbinds hitems
        by_contra hname
        exact h (.name hform hbinds hitems fun name hv => hname ⟨name, hv⟩)
      · rintro v rest rfl hitems
        by_contra hparams
        exact h (.parameters hform hitems hparams)
  | _ => exact ⟨.global .session, w, .inr ⟨failing .exhausted, _, w, rfl⟩⟩

theorem malformed_iff {e : Value} : Malformed e ↔ ∃ failure, Refuses e failure := by
  refine ⟨Malformed.exists_refuses, fun ⟨failure, hrefuses⟩ => ?_⟩
  by_contra hwell
  obtain ⟨scope, w, hfails | ⟨evaluate, v, w', hok⟩⟩ := step_proceeds hwell
  · -- it would have to fail in two ways
    have hexhausted := (hrefuses (failing .exhausted) scope w).symm.trans (hfails .exhausted)
    have hrange := (hrefuses (failing .outOfRange) scope w).symm.trans (hfails .outOfRange)
    rw [hexhausted] at hrange
    cases hrange
  · exact nomatch (hrefuses evaluate scope w).symm.trans hok

/-- A primitive that fails changes nothing. Exactly the malformed expressions fail before any part of them is
evaluated, and they change nothing either. -/
theorem refusals (evaluate : Evaluator) (owner : Owner) (p : Primitive) (operands : List Value) (e : Value) :
    (∀ w failure w', apply evaluate (.primitive owner p) operands w = .error failure w' → w' = w) ∧
    (Malformed e ↔ ∃ failure, ∀ evaluate scope w, step evaluate scope e w = .error failure w) ∧
    (Malformed e → ∀ depth scope w, ∃ failure, Lisplet.eval depth scope e w = .error failure w) := by
  refine ⟨Primitive.apply_harmless owner p operands, malformed_iff, fun h depth scope w => ?_⟩
  cases depth with
  | zero => exact ⟨.exhausted, rfl⟩
  | succ depth =>
    obtain ⟨failure, hfailure⟩ := h.exists_refuses
    exact ⟨failure, hfailure (Lisplet.eval depth) scope w⟩

/-- A file is not written because its text is no string, and where an expression stands in the place of a
name, it is not evaluated and so logs nothing. -/
theorem refusals_unlogged :
    let w := World.ofRealm (.fresh .session ∅) 0
    let e := Value.ofList [.symbol "let", .ofList [.symbol "log", .string "x"], .nil, .nil]
    (∃ failure w',
      apply (Lisplet.eval 9) (.primitive .session .spit) [.string "f", .nil] w = .error failure w' ∧ w' = w) ∧
    Malformed e ∧ ∃ failure, Lisplet.eval 9 (.global .session) e w = .error failure w := by
  intro w e
  have hform : form? (.symbol "let") = some .binding := rfl
  have hmalformed : Malformed e := .name hform (.inr rfl) rfl fun name hname => by cases hname
  obtain ⟨hharmless, -, hfails⟩ := refusals (Lisplet.eval 9) .session .spit [.string "f", .nil] e
  exact ⟨⟨_, _, rfl, hharmless w _ _ rfl⟩, hmalformed, hfails hmalformed 9 _ w⟩

end Eval

end Lisplet
