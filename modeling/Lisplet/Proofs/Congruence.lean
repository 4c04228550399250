import Lisplet.Proofs.Invariant

/-!
# Evaluators that are related

A `Congruence` relates computations: it relates each one that evaluation consists of to itself, and
what is put together from related ones. `Congruence.step`: two evaluators that it relates on the parts of
an expression are related on the expression, because one level of evaluation treats them alike.
-/

namespace Lisplet

/-- A relation of computations that sequencing keeps. -/
structure Congruence where
  rel : {α : Type} → Eval α → Eval α → Prop
  bind : ∀ {α β : Type} {m m' : Eval α} {f f' : α → Eval β}, rel m m' → (∀ a, rel (f a) (f' a)) →
    rel (m >>= f) (m' >>= f')
  ofExcept : ∀ {α : Type} (x : Except Failure α), rel (MonadExcept.ofExcept x) (MonadExcept.ofExcept x)
  lookup : ∀ (s : Scope) (name : String), rel (Eval.lookup s name) (Eval.lookup s name)
  define : ∀ (owner : Owner) (name : String) (v : Value), rel (Eval.define owner name v) (Eval.define owner name v)
  identity : rel Eval.identity Eval.identity
  primitive : ∀ (owner : Owner) (p : Primitive) (operands : List Value),
    rel (p.apply owner operands) (p.apply owner operands)

namespace Congruence

variable (c : Congruence) {α β : Type} {evaluate evaluate' : Evaluator}

theorem pure (a : α) : c.rel (Pure.pure a) (Pure.pure a) := c.ofExcept (.ok a)

theorem throw (failure : Failure) : c.rel (throw failure : Eval α) (throw failure) := c.ofExcept (.error failure)

theorem mapM {f f' : β → Eval α} (h : ∀ b, c.rel (f b) (f' b)) (bs : List β) : c.rel (bs.mapM f) (bs.mapM f') := by
  induction bs with
  | nil => exact c.pure []
  | cons b bs ih =>
    rw [List.mapM_cons, List.mapM_cons]
    exact c.bind (h b) fun a => c.bind ih fun as => c.pure (a :: as)

/-- Whatever the parts are evaluated by, a form does the same with what comes out. -/
theorem enter (h : ∀ s e, c.rel (evaluate s e) (evaluate' s e)) (s : Scope) (form : SpecialForm)
    (operands : List Value) : c.rel (Eval.enter evaluate s form operands) (Eval.enter evaluate' s form operands) := by
  fun_cases Eval.enter evaluate s form operands with
  | case1 test yes no =>
    refine c.bind (h s test) fun v => ?_
    split
    · exact h s yes
    · exact h s no
  | case2 a b =>
    refine c.bind (h s a) fun v => ?_
    split
    · exact h s b
    · exact c.pure _
  | case3 a b =>
    refine c.bind (h s a) fun v => ?_
    split
    · exact c.pure _
    · exact h s b
  | case4 name e => exact c.bind (c.ofExcept _) fun x => c.bind (h s e) fun v => c.define _ x v
  | case5 name e body => exact c.bind (c.ofExcept _) fun x => c.bind (h s e) fun v => h _ body
  | case6 params body => exact c.bind (c.ofExcept _) fun names => c.bind c.identity fun id => c.pure _
  | case7 _ _ hcondition hconjunction hdisjunction hdefinition hbinding habstraction =>
    -- which clause applies depends on the form and its operands, not on what evaluates them
    fun_cases Eval.enter evaluate' s form operands with
    | case1 => exact (hcondition _ _ _ rfl rfl).elim
    | case2 => exact (hconjunction _ _ rfl rfl).elim
    | case3 => exact (hdisjunction _ _ rfl rfl).elim
    | case4 => exact (hdefinition _ _ rfl rfl).elim
    | case5 => exact (hbinding _ _ _ rfl rfl).elim
    | case6 => exact (habstraction _ _ rfl rfl).elim
    | case7 => exact c.throw _

theorem apply (h : ∀ s e, c.rel (evaluate s e) (evaluate' s e)) (f : Value) (operands : List Value) :
    c.rel (Eval.apply evaluate f operands) (Eval.apply evaluate' f operands) := by
  unfold Eval.apply
  split
  · exact c.primitive ..
  · split
    · exact h _ _
    · exact c.throw _
  · exact c.bind (c.ofExcept _) fun text => c.throw _

/-- One level of evaluation is related if the evaluation of parts is. -/
theorem step (h : ∀ s e, c.rel (evaluate s e) (evaluate' s e)) (s : Scope) (e : Value) :
    c.rel (Eval.step evaluate s e) (Eval.step evaluate' s e) := by
  unfold Eval.step
  split
  · exact c.lookup s _
  · next id head tail =>
    refine c.bind (c.ofExcept _) fun operands => ?_
    split
    · exact c.enter h s _ operands
    · exact c.bind (h s head) fun f => c.bind (c.mapM (h s) operands) fun vs => c.apply h f vs
  · exact c.pure _

end Congruence

end Lisplet
