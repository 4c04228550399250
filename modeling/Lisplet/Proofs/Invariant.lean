import Lisplet.Eval
import Lisplet.Proofs.Meets

/-!
# Invariants of evaluation

An `Invariant` is a set of properties, of states, code, values, scopes and failures, that no single
step of evaluation leaves. `Invariant.eval`: then no evaluation does, however deep it goes and
whether it fails or not.
-/

namespace Lisplet

namespace Failure

/-- The failures that evaluation reports by itself. -/
def ofEvaluation : Failure → Bool
  | unbound _ | wrongKind .. | improperList _ | wrongArity .. | notFunction _ | exhausted => true
  | _ => false

end Failure

def World.withGlobal (w : World) (owner : Owner) (name : String) (v : Value) : World :=
  w.modifyRealm owner fun r => { r with globals := r.globals.insert name v }

def World.withLine (w : World) (owner : Owner) (line : String) : World :=
  w.modifyRealm owner fun r => { r with log := r.log ++ [line] }

def World.withFile (w : World) (owner : Owner) (name text : String) : World :=
  w.modifyRealm owner fun r => { r with files := r.files.insert name text }

/-- Properties that one step of evaluation keeps. -/
structure Invariant where
  state : World → Prop
  /-- What may be evaluated. -/
  code : Value → Prop
  /-- What may come out. -/
  value : Value → Prop
  scope : Scope → Prop
  fails : Failure → Prop
  state_next : ∀ {w}, state w → state { w with next := w.next + 1 }
  state_line : ∀ {w owner line}, state w → state (w.withLine owner line)
  state_file : ∀ {w owner name text}, state w → state (w.withFile owner name text)
  state_global : ∀ {w owner id head tail name e v}, state w → code (.pair id head tail) →
    Eval.form? head = some .definition → tail.items = [.symbol name, e] → value v →
    state (w.withGlobal owner name v)
  value_global : ∀ {w owner name v}, state w → (w.realm owner).globals.find? name = some v → value v
  code_items : ∀ {v}, code v → ∀ item ∈ v.items, code item
  /-- What is neither a symbol nor a pair is its own value. -/
  value_code : ∀ {v}, code v → (∀ name, v ≠ .symbol name) → (∀ id head tail, v ≠ .pair id head tail) → value v
  value_nil : value .nil
  value_bool : ∀ b, value (.bool b)
  value_string : ∀ s, value (.string s)
  value_pair : ∀ {id a b}, value a → value b → value (.pair id a b)
  value_closure : ∀ {id head tail params body id' names s}, code (.pair id head tail) →
    Eval.form? head = some .abstraction → tail.items = [params, body] → scope s →
    value (.closure id' names body s)
  value_result : ∀ {p : Primitive} {operands r}, p.result? operands = some r → (∀ v ∈ operands, value v) →
    Settles value fails r
  code_closure : ∀ {id params body s}, value (.closure id params body s) → code body ∧ scope s
  scope_find : ∀ {s name v}, scope s → s.find? name = some v → value v
  scope_extend : ∀ {s names vs}, scope s → (∀ v ∈ vs, value v) → scope (s.extend names vs)
  fails_evaluation : ∀ {failure : Failure}, failure.ofEvaluation → fails failure
  fails_text : ∀ {v : Value} {manner failure}, code v ∨ value v → v.fault? manner = some failure → fails failure
  /-- What an improper list ends in is shown, though it is no part of the code. -/
  fails_ending : ∀ {id head manner failure} {tail : Value}, code (.pair id head tail) →
    tail.ending.fault? manner = some failure → fails failure

namespace Invariant

variable (inv : Invariant)

abbrev Keeps {α : Type} (post : α → Prop) (m : Eval α) : Prop := Meets inv.state post inv.fails m

def Sound (evaluate : Evaluator) : Prop :=
  ∀ scope e, inv.scope scope → inv.code e → inv.Keeps inv.value (evaluate scope e)

variable {inv}

/-! ### Texts and chains -/

theorem text_settles {v : Value} (hv : inv.code v ∨ inv.value v) : Settles (fun _ => True) inv.fails v.text := by
  unfold Value.text Value.format
  split
  · exact inv.fails_text hv ‹_›
  · trivial

theorem display_settles {v : Value} (hv : inv.value v) : Settles (fun _ => True) inv.fails v.display := by
  unfold Value.display
  split
  · trivial
  · exact text_settles (.inr hv)

theorem elements_settles {id : Identity} {head tail : Value} (hcode : inv.code (.pair id head tail)) :
    Settles (fun operands => operands = tail.items) inv.fails tail.elements := by
  unfold Value.elements Value.shown
  split
  · rfl
  · split
    · exact inv.fails_ending hcode ‹_›
    · exact inv.fails_evaluation rfl

/-! ### Library -/

section
variable {p : Primitive} {owner : Owner} {operands : List Value}

theorem string_settles {v : Value} (hv : inv.value v) : Settles (fun _ => True) inv.fails (p.string v) := by
  unfold Primitive.string
  split
  · trivial
  · exact (text_settles (.inr hv)).bind fun _ _ => inv.fails_evaluation rfl

theorem perform_keeps (h : ∀ v ∈ operands, inv.value v) : inv.Keeps inv.value (p.perform owner operands) := by
  fun_cases Primitive.perform owner p operands with
  | case1 a b =>
    intro w hw
    exact ⟨inv.state_next hw, inv.value_pair (h a (by simp)) (h b (by simp))⟩
  | case2 a =>
    refine (Meets.ofExcept (display_settles (h a (by simp)))).bind fun line _ => ?_
    exact .modify_bind (fun w hw => inv.state_line hw) (.pure inv.value_nil)
  | case3 a =>
    refine (Meets.ofExcept (string_settles (h a (by simp)))).bind fun name _ => ?_
    refine .get_bind fun w _ => ?_
    split
    · exact .pure (inv.value_string _)
    · exact .pure inv.value_nil
  | case4 a b =>
    refine (Meets.ofExcept (string_settles (h a (by simp)))).bind fun name _ => ?_
    refine (Meets.ofExcept (string_settles (h b (by simp)))).bind fun text _ => ?_
    exact .modify_bind (fun w hw => inv.state_file hw) (.pure (h b (by simp)))
  | case5 => exact .throw (inv.fails_evaluation rfl)

theorem primitive_keeps (h : ∀ v ∈ operands, inv.value v) : inv.Keeps inv.value (p.apply owner operands) := by
  unfold Primitive.apply
  split
  · exact .ofExcept (inv.value_result ‹_› h)
  · exact perform_keeps h

end

/-! ### Forms and applications -/

theorem nameOperand_settles {form : SpecialForm} {v : Value} (hv : inv.code v) :
    Settles (fun name => v = .symbol name) inv.fails (Eval.nameOperand form v) := by
  unfold Eval.nameOperand
  split
  · rfl
  · exact (text_settles (.inl hv)).bind fun _ _ => inv.fails_evaluation rfl

theorem parameters_settles {v : Value} (hv : inv.code v) : Settles (fun _ => True) inv.fails (Eval.parameters v) := by
  unfold Eval.parameters
  split
  · exact (Settles.mapM fun item hitem => nameOperand_settles (inv.code_items hv item hitem)).mono fun _ _ => trivial
  · exact (text_settles (.inl hv)).bind fun _ _ => inv.fails_evaluation rfl

theorem lookup_keeps {scope : Scope} {name : String} (hscope : inv.scope scope) :
    inv.Keeps inv.value (Eval.lookup scope name) := by
  unfold Eval.lookup
  split
  · exact .pure (inv.scope_find hscope ‹_›)
  · refine .get_bind fun w hw => ?_
    split
    · exact .pure (inv.value_global hw ‹_›)
    · exact .throw (inv.fails_evaluation rfl)

section
variable {evaluate : Evaluator} {scope : Scope} {form : SpecialForm} {operands : List Value} {f : Value}

theorem enter_keeps (hev : inv.Sound evaluate) (hscope : inv.scope scope) (hcode : ∀ v ∈ operands, inv.code v)
    (hdefine : ∀ {name e w v}, form = .definition → operands = [.symbol name, e] → inv.state w → inv.value v →
      inv.state (w.withGlobal scope.owner name v))
    (hclosure : ∀ {params body id names}, form = .abstraction → operands = [params, body] →
      inv.value (.closure id names body scope)) :
    inv.Keeps inv.value (Eval.enter evaluate scope form operands) := by
  fun_cases Eval.enter evaluate scope form operands with
  | case1 test yes no =>
    refine (hev scope test hscope (hcode _ (by simp))).bind fun v _ => ?_
    split
    · exact hev scope yes hscope (hcode _ (by simp))
    · exact hev scope no hscope (hcode _ (by simp))
  | case2 a b =>
    refine (hev scope a hscope (hcode _ (by simp))).bind fun v _ => ?_
    split
    · exact hev scope b hscope (hcode _ (by simp))
    · exact .pure (inv.value_bool false)
  | case3 a b =>
    refine (hev scope a hscope (hcode _ (by simp))).bind fun v _ => ?_
    split
    · exact .pure (inv.value_bool true)
    · exact hev scope b hscope (hcode _ (by simp))
  | case4 name e =>
    refine (Meets.ofExcept (nameOperand_settles (hcode name (by simp)))).bind ?_
    rintro name rfl
    -- The only write to a global table in all of evaluation.
    refine (hev scope e hscope (hcode _ (by simp))).bind fun v hv => ?_
    exact .modify_bind (fun w hw => hdefine rfl rfl hw hv) (.pure hv)
  | case5 name e body =>
    refine (Meets.ofExcept (nameOperand_settles (hcode name (by simp)))).bind fun name _ => ?_
    refine (hev scope e hscope (hcode _ (by simp))).bind fun v hv => ?_
    exact hev _ body (inv.scope_extend hscope (by simpa using hv)) (hcode _ (by simp))
  | case6 params body =>
    refine (Meets.ofExcept (parameters_settles (hcode params (by simp)))).bind fun names _ => ?_
    intro w hw
    exact ⟨inv.state_next hw, hclosure rfl rfl⟩
  | case7 => exact .throw (inv.fails_evaluation rfl)

theorem apply_keeps (hev : inv.Sound evaluate) (hf : inv.value f) (h : ∀ v ∈ operands, inv.value v) :
    inv.Keeps inv.value (Eval.apply evaluate f operands) := by
  unfold Eval.apply
  split
  · exact primitive_keeps h
  · split
    · exact hev _ _ (inv.scope_extend (inv.code_closure hf).2 h) (inv.code_closure hf).1
    · exact .throw (inv.fails_evaluation rfl)
  · exact (Meets.ofExcept (text_settles (.inr hf))).bind fun _ _ => .throw (inv.fails_evaluation rfl)

/-- One level of evaluation keeps the invariant if the evaluation of parts does. -/
theorem step_sound (hev : inv.Sound evaluate) : inv.Sound (Eval.step evaluate) := by
  intro scope e hscope he
  unfold Eval.step
  split
  · exact lookup_keeps hscope
  · next id head tail =>
    obtain ⟨hhead, hitems⟩ := List.forall_mem_cons.1 (inv.code_items he)
    refine (Meets.ofExcept (elements_settles he)).bind ?_
    rintro operands rfl
    split
    · next form hform =>
      refine enter_keeps hev hscope hitems ?_ ?_
      · rintro name e w v rfl hoperands hw hv
        exact inv.state_global hw he hform hoperands hv
      · rintro params body id' names rfl hoperands
        exact inv.value_closure he hform hoperands hscope
    · refine (hev scope head hscope hhead).bind fun f hf => ?_
      refine (Meets.mapM_all fun e he => hev scope e hscope (hitems e he)).bind fun vs hvs => ?_
      exact apply_keeps hev hf hvs
  · next hsymbol hpair => exact .pure (inv.value_code he hsymbol hpair)

end

/-- Evaluation keeps every invariant. -/
theorem eval (depth : Nat) : inv.Sound (Lisplet.eval depth) := by
  induction depth with
  | zero => exact fun _ _ _ _ => .throw (inv.fails_evaluation rfl)
  | succ depth ih => exact step_sound ih

/-- A property of states that no write takes away, whatever is written. -/
def ofState (state : World → Prop) (next : ∀ {w}, state w → state { w with next := w.next + 1 })
    (line : ∀ {w owner line}, state w → state (w.withLine owner line))
    (file : ∀ {w owner name text}, state w → state (w.withFile owner name text))
    (global : ∀ {w owner name v}, state w → state (w.withGlobal owner name v)) : Invariant where
  state := state
  code _ := True
  value _ := True
  scope _ := True
  fails _ := True
  state_next := next
  state_line := line
  state_file := file
  state_global hw _ _ _ _ := global hw
  value_global _ _ := trivial
  code_items _ _ _ := trivial
  value_code _ _ _ := trivial
  value_nil := trivial
  value_bool _ := trivial
  value_string _ := trivial
  value_pair _ _ := trivial
  value_closure _ _ _ _ := trivial
  value_result {_ _ r} _ _ := by cases r <;> trivial
  code_closure _ := ⟨trivial, trivial⟩
  scope_find _ _ := trivial
  scope_extend _ _ := trivial
  fails_evaluation _ := trivial
  fails_text _ _ := trivial
  fails_ending _ _ := trivial

end Invariant

end Lisplet
