import Lisplet.Proofs.Coupled
import Lisplet.Proofs.Invariant

/-!
# Simulations

A `Simulation` relates the states, the values and the scopes of two evaluations of the same code, so
that no single step of evaluation tells the two sides apart. `Simulation.eval`: then no evaluation
does. The two sides may also be two evaluators (`Simulation.step_follows`); every invariant is a
simulation of evaluation by itself (`Invariant.diagonal`).
-/

namespace Lisplet

/-- Relations that one step of evaluation on two sides keeps. -/
structure Simulation where
  state : World → World → Prop
  value : Value → Value → Prop
  /-- The scopes in which the two sides may evaluate an expression. -/
  ready : Scope → Scope → Value → Prop
  state_next : ∀ {w w'}, state w w' →
    w.next = w'.next ∧ state { w with next := w.next + 1 } { w' with next := w'.next + 1 }
  state_line : ∀ {w w' owner line}, state w w' → state (w.withLine owner line) (w'.withLine owner line)
  state_file : ∀ {w w' owner name text}, state w w' →
    state (w.withFile owner name text) (w'.withFile owner name text)
  files_eq : ∀ {w w' owner}, state w w' → (w.realm owner).files = (w'.realm owner).files
  state_global : ∀ {w w' s s' id head tail name e v v'}, state w w' → ready s s' (.pair id head tail) →
    Eval.form? head = some .definition → tail.items = [.symbol name, e] → value v v' →
    state (w.withGlobal s.owner name v) (w'.withGlobal s'.owner name v')
  lookup : ∀ {s s' name}, ready s s' (.symbol name) →
    Coupled state value (Eval.lookup s name) (Eval.lookup s' name)
  ready_items : ∀ {s s' e}, ready s s' e → ∀ item ∈ e.items, ready s s' item
  ready_extend : ∀ {s s' names e vs vs'}, ready s s' e → List.Forall₂ value vs vs' →
    ready (s.extend names vs) (s'.extend names vs') e
  value_code : ∀ {s s' v}, ready s s' v → (∀ name, v ≠ .symbol name) → (∀ id head tail, v ≠ .pair id head tail) →
    value v v
  value_closure : ∀ {s s' id head tail params body id' names}, ready s s' (.pair id head tail) →
    Eval.form? head = some .abstraction → tail.items = [params, body] →
    value (.closure id' names body s) (.closure id' names body s')
  value_nil : value .nil .nil
  value_bool : ∀ b, value (.bool b) (.bool b)
  value_string : ∀ s, value (.string s) (.string s)
  value_pair : ∀ {id a b a' b'}, value a a' → value b b' → value (.pair id a b) (.pair id a' b')
  value_result : ∀ {p : Primitive} {vs vs'}, List.Forall₂ value vs vs' →
    Option.Rel (Paired value) (p.result? vs) (p.result? vs')
  text_eq : ∀ {v v'}, value v v' → v.text = v'.text
  isTruthy_eq : ∀ {v v'}, value v v' → v.isTruthy = v'.isTruthy
  display_eq : ∀ {v v'}, value v v' → v.display = v'.display
  string_eq : ∀ {v v'}, value v v' → ∀ p : Primitive, p.string v = p.string v'
  /-- A function is a primitive on both sides, or one with the same body on both sides, which runs in
  scopes in which that may be evaluated. -/
  value_function : ∀ {f f'}, value f f' →
    (∃ owner p, f = .primitive owner p ∧ f' = .primitive owner p) ∨
    (∃ id params body s s', f = .closure id params body s ∧ f' = .closure id params body s' ∧ ready s s' body) ∨
    (f.isFunction = false ∧ f'.isFunction = false)

/-- A complaint about a text never comes to a result. -/
theorem complaint_ne_ok {α : Type} {x : Except Failure String} {complaint : String → Failure} {a : α} :
    (do throw (complaint (← x)) : Except Failure α) ≠ .ok a := by
  cases x <;> exact nofun

theorem nameOperand_eq_ok {form : SpecialForm} {v : Value} {name : String}
    (h : Eval.nameOperand form v = .ok name) : v = .symbol name := by
  unfold Eval.nameOperand at h
  split at h
  · cases h
    rfl
  · exact absurd h complaint_ne_ok

theorem elements_eq_ok {v : Value} {operands : List Value} (h : v.elements = .ok operands) : operands = v.items := by
  unfold Value.elements at h
  split at h
  · cases h
    rfl
  · exact absurd h complaint_ne_ok

theorem apply_eq_throw {evaluate : Evaluator} {f : Value} {operands : List Value} (h : f.isFunction = false) :
    Eval.apply evaluate f operands = (do throw (.notFunction (← MonadExcept.ofExcept f.text))) := by
  cases f with
  | primitive | closure => cases h
  | _ => rfl

namespace Simulation

variable {sim : Simulation}

/-- The first evaluator gives on the one side what the second one gives on the other. -/
def Follows (sim : Simulation) (evaluate evaluate' : Evaluator) : Prop :=
  ∀ s s' e, sim.ready s s' e → Coupled sim.state sim.value (evaluate s e) (evaluate' s' e)

/-! ### Library -/

section
variable {p : Primitive} {owner : Owner} {vs vs' : List Value}

theorem cons_coupled {a b a' b' : Value} (ha : sim.value a a') (hb : sim.value b b') :
    Coupled sim.state sim.value (Primitive.perform owner .cons [a, b]) (Primitive.perform owner .cons [a', b']) := by
  intro w w' hw
  obtain ⟨hnext, hw'⟩ := sim.state_next hw
  refine .ok hw' ?_
  rw [← hnext]
  exact sim.value_pair ha hb

theorem log_coupled {a a' : Value} (ha : sim.value a a') :
    Coupled sim.state sim.value (Primitive.perform owner .log [a]) (Primitive.perform owner .log [a']) := by
  simp only [Primitive.perform, sim.display_eq ha]
  refine .ofExcept_bind _ fun line _ => ?_
  exact .modify_bind (fun w w' hw => sim.state_line hw) (.pure sim.value_nil)

theorem slurp_coupled {a a' : Value} (ha : sim.value a a') :
    Coupled sim.state sim.value (Primitive.perform owner .slurp [a]) (Primitive.perform owner .slurp [a']) := by
  simp only [Primitive.perform, sim.string_eq ha]
  refine .ofExcept_bind _ fun name _ => .get_bind fun w w' hw => ?_
  rw [sim.files_eq hw]
  split
  · exact .pure (sim.value_string _)
  · exact .pure sim.value_nil

theorem spit_coupled {a b a' b' : Value} (ha : sim.value a a') (hb : sim.value b b') :
    Coupled sim.state sim.value (Primitive.perform owner .spit [a, b]) (Primitive.perform owner .spit [a', b']) := by
  simp only [Primitive.perform, sim.string_eq ha, sim.string_eq hb]
  refine .ofExcept_bind _ fun name _ => .ofExcept_bind _ fun text _ => ?_
  exact .modify_bind (fun w w' hw => sim.state_file hw) (.pure hb)

theorem perform_coupled (h : List.Forall₂ sim.value vs vs') :
    Coupled sim.state sim.value (p.perform owner vs) (p.perform owner vs') := by
  fun_cases Primitive.perform owner p vs with
  | case1 a b =>
    obtain _ | ⟨ha, _ | ⟨hb, _ | _⟩⟩ := h
    exact cons_coupled ha hb
  | case2 a =>
    obtain _ | ⟨ha, _ | _⟩ := h
    exact log_coupled ha
  | case3 a =>
    obtain _ | ⟨ha, _ | _⟩ := h
    exact slurp_coupled ha
  | case4 a b =>
    obtain _ | ⟨ha, _ | ⟨hb, _ | _⟩⟩ := h
    exact spit_coupled ha hb
  | case5 _ _ hcons hlog hslurp hspit =>
    -- The other side is no proper application either, since it has as many operands.
    rw [h.length_eq]
    fun_cases Primitive.perform owner p vs' with
    | case1 =>
      obtain _ | ⟨_, _ | ⟨_, _ | _⟩⟩ := h
      exact (hcons _ _ rfl rfl).elim
    | case2 =>
      obtain _ | ⟨_, _ | _⟩ := h
      exact (hlog _ rfl rfl).elim
    | case3 =>
      obtain _ | ⟨_, _ | _⟩ := h
      exact (hslurp _ rfl rfl).elim
    | case4 =>
      obtain _ | ⟨_, _ | ⟨_, _ | _⟩⟩ := h
      exact (hspit _ _ rfl rfl).elim
    | case5 => exact .throw _

theorem primitive_coupled (h : List.Forall₂ sim.value vs vs') :
    Coupled sim.state sim.value (p.apply owner vs) (p.apply owner vs') := by
  unfold Primitive.apply
  have hresult := sim.value_result (p := p) h
  generalize p.result? vs = r at hresult
  generalize p.result? vs' = r' at hresult
  cases hresult with
  | some hr => exact .ofExcept hr
  | none => exact perform_coupled h

end

/-! ### Forms and applications -/

section
variable {evaluate evaluate' : Evaluator} {s s' : Scope} {form : SpecialForm} {operands : List Value}

theorem enter_coupled (hev : sim.Follows evaluate evaluate') (hready : ∀ e ∈ operands, sim.ready s s' e)
    (hdefine : ∀ {name e w w' v v'}, form = .definition → operands = [.symbol name, e] → sim.state w w' →
      sim.value v v' → sim.state (w.withGlobal s.owner name v) (w'.withGlobal s'.owner name v'))
    (hclosure : ∀ {params body id names}, form = .abstraction → operands = [params, body] →
      sim.value (.closure id names body s) (.closure id names body s')) :
    Coupled sim.state sim.value (Eval.enter evaluate s form operands) (Eval.enter evaluate' s' form operands) := by
  fun_cases Eval.enter evaluate s form operands with
  | case1 test yes no =>
    refine (hev s s' test (hready _ (by simp))).bind fun v v' hv => ?_
    rw [sim.isTruthy_eq hv]
    split
    · exact hev s s' yes (hready _ (by simp))
    · exact hev s s' no (hready _ (by simp))
  | case2 a b =>
    refine (hev s s' a (hready _ (by simp))).bind fun v v' hv => ?_
    rw [sim.isTruthy_eq hv]
    split
    · exact hev s s' b (hready _ (by simp))
    · exact .pure (sim.value_bool false)
  | case3 a b =>
    refine (hev s s' a (hready _ (by simp))).bind fun v v' hv => ?_
    rw [sim.isTruthy_eq hv]
    split
    · exact .pure (sim.value_bool true)
    · exact hev s s' b (hready _ (by simp))
  | case4 name e =>
    refine .ofExcept_bind _ fun x hx => ?_
    obtain rfl := nameOperand_eq_ok hx
    refine (hev s s' e (hready _ (by simp))).bind fun v v' hv => ?_
    exact .modify_bind (fun w w' hw => hdefine rfl rfl hw hv) (.pure hv)
  | case5 name e body =>
    refine .ofExcept_bind _ fun x _ => ?_
    refine (hev s s' e (hready _ (by simp))).bind fun v v' hv => ?_
    exact hev _ _ body (sim.ready_extend (hready _ (by simp)) (.cons hv .nil))
  | case6 params body =>
    refine .ofExcept_bind _ fun names _ w w' hw => ?_
    obtain ⟨hnext, hw'⟩ := sim.state_next hw
    refine .ok hw' ?_
    rw [← hnext]
    exact hclosure rfl rfl
  | case7 _ _ hcondition hconjunction hdisjunction hdefinition hbinding habstraction =>
    -- No form takes these operands, whoever evaluates.
    fun_cases Eval.enter evaluate' s' form operands with
    | case1 => exact (hcondition _ _ _ rfl rfl).elim
    | case2 => exact (hconjunction _ _ rfl rfl).elim
    | case3 => exact (hdisjunction _ _ rfl rfl).elim
    | case4 => exact (hdefinition _ _ rfl rfl).elim
    | case5 => exact (hbinding _ _ _ rfl rfl).elim
    | case6 => exact (habstraction _ _ rfl rfl).elim
    | case7 => exact .throw _

theorem apply_coupled {f f' : Value} {vs vs' : List Value} (hev : sim.Follows evaluate evaluate')
    (hf : sim.value f f') (h : List.Forall₂ sim.value vs vs') :
    Coupled sim.state sim.value (Eval.apply evaluate f vs) (Eval.apply evaluate' f' vs') := by
  rcases sim.value_function hf with ⟨owner, p, rfl, rfl⟩ | ⟨id, params, body, s, s', rfl, rfl, hready⟩ | ⟨hfun, hfun'⟩
  · exact primitive_coupled h
  · unfold Eval.apply
    dsimp only
    rw [h.length_eq]
    split
    · exact hev _ _ body (sim.ready_extend hready h)
    · exact .throw _
  · rw [apply_eq_throw hfun, apply_eq_throw hfun', sim.text_eq hf]
    exact .ofExcept_bind _ fun text _ => .throw _

/-- One level of evaluation follows another if the evaluation of parts does. -/
theorem step_follows (hev : sim.Follows evaluate evaluate') :
    sim.Follows (Eval.step evaluate) (Eval.step evaluate') := by
  intro s s' e hready
  unfold Eval.step
  split
  · exact sim.lookup hready
  · next id head tail =>
    obtain ⟨hhead, hitems⟩ := List.forall_mem_cons.1 (sim.ready_items hready)
    refine .ofExcept_bind _ fun operands hoperands => ?_
    obtain rfl := elements_eq_ok hoperands
    split
    · next form hform =>
      refine enter_coupled hev hitems ?_ ?_
      · rintro name e w w' v v' rfl hoperands hw hv
        exact sim.state_global hw hready hform hoperands hv
      · rintro params body id' names rfl hoperands
        exact sim.value_closure hready hform hoperands
    · refine (hev s s' head hhead).bind fun f f' hf => ?_
      refine (Coupled.mapM fun e he => hev s s' e (hitems e he)).bind fun vs vs' hvs => ?_
      exact apply_coupled hev hf hvs
  · next hsymbol hpair => exact .pure (sim.value_code hready hsymbol hpair)

end

/-- Evaluation does not tell the two sides of a simulation apart. -/
theorem eval (depth : Nat) : sim.Follows (Lisplet.eval depth) (Lisplet.eval depth) := by
  induction depth with
  | zero => exact fun _ _ _ _ => .throw _
  | succ depth ih => exact step_follows ih

end Simulation

/-! ### Invariants as simulations -/

namespace Invariant

variable {inv : Invariant}

theorem forall₂_diagonal {vs vs' : List Value} (h : List.Forall₂ (fun v v' => v = v' ∧ inv.value v) vs vs') :
    vs = vs' ∧ ∀ v ∈ vs, inv.value v := by
  induction h with
  | nil => exact ⟨rfl, by simp⟩
  | cons h _ ih =>
    obtain ⟨rfl, hv⟩ := h
    obtain ⟨rfl, hvs⟩ := ih
    exact ⟨rfl, List.forall_mem_cons.2 ⟨hv, hvs⟩⟩

theorem paired_diagonal {r : Except Failure Value} (h : Settles inv.value inv.fails r) :
    Paired (fun v v' => v = v' ∧ inv.value v) r r := by
  cases r with
  | ok v => exact .ok ⟨rfl, h⟩
  | error failure => exact .error failure

theorem Keeps.coupled {m : Eval Value} (h : inv.Keeps inv.value m) :
    Coupled (fun w w' => w = w' ∧ inv.state w) (fun v v' => v = v' ∧ inv.value v) m m := by
  rintro w _ ⟨rfl, hw⟩
  have h := h w hw
  cases hres : m w with
  | ok v w' =>
    rw [hres] at h
    exact .ok ⟨rfl, h.1⟩ ⟨rfl, h.2⟩
  | error failure w' =>
    rw [hres] at h
    exact .error failure ⟨rfl, h.1⟩

/-- Both sides are the same, and the invariant holds of them. -/
def diagonal (inv : Invariant) : Simulation where
  state w w' := w = w' ∧ inv.state w
  value v v' := v = v' ∧ inv.value v
  ready s s' e := s = s' ∧ inv.scope s ∧ inv.code e
  state_next := by
    rintro w _ ⟨rfl, hw⟩
    exact ⟨rfl, rfl, inv.state_next hw⟩
  state_line := by
    rintro w _ owner line ⟨rfl, hw⟩
    exact ⟨rfl, inv.state_line hw⟩
  state_file := by
    rintro w _ owner name text ⟨rfl, hw⟩
    exact ⟨rfl, inv.state_file hw⟩
  files_eq := by
    rintro w _ owner ⟨rfl, -⟩
    rfl
  state_global := by
    rintro w _ s _ id head tail name e v _ ⟨rfl, hw⟩ ⟨rfl, -, hcode⟩ hform hitems ⟨rfl, hv⟩
    exact ⟨rfl, inv.state_global hw hcode hform hitems hv⟩
  lookup := by
    rintro s _ name ⟨rfl, hs, -⟩
    exact (lookup_keeps hs).coupled
  ready_items := by
    rintro s _ e ⟨rfl, hs, hcode⟩ item hitem
    exact ⟨rfl, hs, inv.code_items hcode item hitem⟩
  ready_extend := by
    rintro s _ names e vs vs' ⟨rfl, hs, hcode⟩ hvs
    obtain ⟨rfl, hall⟩ := forall₂_diagonal hvs
    exact ⟨rfl, inv.scope_extend hs hall, hcode⟩
  value_code := by
    rintro s _ v ⟨rfl, -, hcode⟩ hsymbol hpair
    exact ⟨rfl, inv.value_code hcode hsymbol hpair⟩
  value_closure := by
    rintro s _ id head tail params body id' names ⟨rfl, hs, hcode⟩ hform hitems
    exact ⟨rfl, inv.value_closure hcode hform hitems hs⟩
  value_nil := ⟨rfl, inv.value_nil⟩
  value_bool b := ⟨rfl, inv.value_bool b⟩
  value_string s := ⟨rfl, inv.value_string s⟩
  value_pair := by
    rintro id a b _ _ ⟨rfl, ha⟩ ⟨rfl, hb⟩
    exact ⟨rfl, inv.value_pair ha hb⟩
  value_result := by
    intro p vs vs' hvs
    obtain ⟨rfl, hall⟩ := forall₂_diagonal hvs
    cases hresult : p.result? vs with
    | none => exact .none
    | some r => exact .some (paired_diagonal (inv.value_result hresult hall))
  text_eq h := by rw [h.1]
  isTruthy_eq h := by rw [h.1]
  display_eq h := by rw [h.1]
  string_eq h p := by rw [h.1]
  value_function := by
    rintro f _ ⟨rfl, hf⟩
    cases f with
    | primitive owner p => exact .inl ⟨owner, p, rfl, rfl⟩
    | closure id params body s =>
      obtain ⟨hcode, hscope⟩ := inv.code_closure hf
      exact .inr (.inl ⟨id, params, body, s, s, rfl, rfl, rfl, hscope, hcode⟩)
    | _ => exact .inr (.inr ⟨rfl, rfl⟩)

end Invariant

end Lisplet
