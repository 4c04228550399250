import Lisplet.Proofs.Headroom
import Lisplet.Proofs.Numbering

/-!
# Forms that others stand for

`Eval.derived_forms`: `(let x e b)` comes out as `((function (x) b) e)` does, `(and a b)` as
`(if a b false)`, and `(or a b)` as `(if a true b)`, whatever names are bound to. The function that is
applied takes an identity before anything else is made (`Eval.eval_applied`), so that the first two differ
by a renaming of what they make, which evaluation does not notice (`Eval.eval_renamed`).
-/

namespace Lisplet

/-- The expression that enters a form with operands. -/
def SpecialForm.expression (form : SpecialForm) (operands : List Value) : Value :=
  .ofList (.symbol form.keyword :: operands)

/-- The expression that applies a function of one parameter. -/
def applied (x : String) (body e : Value) : Value :=
  .ofList [SpecialForm.abstraction.expression [.ofList [.symbol x], body], e]

namespace Eval

/-- The depth was used up. -/
def Exhausts (r : EStateM.Result Failure World Value) : Prop := ∃ w, r = .error .exhausted w

/-- Two evaluations in a world come out the same but for the identities of what they made: both fail, in the
same way, or their values are the same, and so are the tables, the files and the logs. -/
def SameOutcome (w : World) (r r' : EStateM.Result Failure World Value) : Prop :=
  ∃ ρ : Nat → Nat, Function.Injective ρ ∧ (∀ i < w.next, ρ i = i) ∧ SameEnd ρ w.next (Value.Renamed ρ) r r'

/-- An evaluation that does not use up its depth comes out the same at any greater one. -/
theorem eval_of_le {depth depth' : Nat} (hdepth : depth ≤ depth') {s : Scope} {e : Value} {w : World}
    (h : ¬ Exhausts (Lisplet.eval depth s e w)) : Lisplet.eval depth s e w = Lisplet.eval depth' s e w := by
  rcases eval_outlasts hdepth s e w w rfl with ⟨failure, t, hres, rfl⟩ | hends
  · exact absurd ⟨t, hres⟩ h
  · generalize Lisplet.eval depth s e w = r at hends
    generalize Lisplet.eval depth' s e w = r' at hends
    cases hends with
    | ok hs hv => rw [hs, hv]
    | error failure hs => rw [hs]

theorem eval_expression (form : SpecialForm) (operands : List Value) (depth : Nat) (scope : Scope) :
    Lisplet.eval (depth + 1) scope (form.expression operands) = enter (Lisplet.eval depth) scope form operands := by
  have hform : form? (.symbol form.keyword) = some form := by cases form <;> decide
  have hlist : (Value.ofList operands).isList = true := Value.isList_ofList operands
  show step (Lisplet.eval depth) scope (.pair none (.symbol form.keyword) (.ofList operands)) = _
  rw [step_pair hlist, hform, Value.items_ofList]

theorem eval_conjunction (depth : Nat) (scope : Scope) (a b : Value) :
    Lisplet.eval depth scope (SpecialForm.conjunction.expression [a, b]) =
      Lisplet.eval depth scope (SpecialForm.condition.expression [a, b, .bool false]) := by
  cases depth with
  | zero => rfl
  | succ depth =>
    rw [eval_expression, eval_expression]
    cases depth <;> rfl

theorem eval_disjunction (depth : Nat) (scope : Scope) (a b : Value) :
    Lisplet.eval depth scope (SpecialForm.disjunction.expression [a, b]) =
      Lisplet.eval depth scope (SpecialForm.condition.expression [a, .bool true, b]) := by
  cases depth with
  | zero => rfl
  | succ depth =>
    rw [eval_expression, eval_expression]
    cases depth <;> rfl

/-- The function that is applied takes an identity, and then its body is evaluated as that of a `let`. -/
theorem eval_applied (depth : Nat) (scope : Scope) (x : String) (e b : Value) (w : World) :
    Lisplet.eval (depth + 2) scope (applied x b e) w =
      Lisplet.eval (depth + 2) scope (SpecialForm.binding.expression [.symbol x, e, b])
        { w with next := w.next + 1 } := by
  have hfunction : Lisplet.eval (depth + 1) scope (SpecialForm.abstraction.expression [.ofList [.symbol x], b]) w =
      .ok (.closure (some w.next) [x] b scope) { w with next := w.next + 1 } := by
    rw [eval_expression]
    rfl
  have hstep : Lisplet.eval (depth + 2) scope (applied x b e) w =
      ([e].mapM (Lisplet.eval (depth + 1) scope) >>=
          apply (Lisplet.eval (depth + 1)) (.closure (some w.next) [x] b scope))
        { w with next := w.next + 1 } := by
    show step (Lisplet.eval (depth + 1)) scope
      (.pair none (SpecialForm.abstraction.expression [.ofList [.symbol x], b]) (.ofList [e])) w = _
    rw [step_pair (Value.isList_ofList [e])]
    exact bind_of_ok hfunction
  rw [hstep, eval_expression]
  cases hres : Lisplet.eval (depth + 1) scope e { w with next := w.next + 1 } with
  | ok v t =>
    have hoperands : [e].mapM (Lisplet.eval (depth + 1) scope) { w with next := w.next + 1 } = .ok [v] t :=
      mapM_cons_of_ok hres rfl
    rw [bind_of_ok hoperands]
    exact (bind_of_ok (f := fun v => Lisplet.eval (depth + 1) (scope.extend [x] [v]) b) hres).symm
  | error failure t =>
    have hoperands : [e].mapM (Lisplet.eval (depth + 1) scope) { w with next := w.next + 1 } = .error failure t := by
      rw [List.mapM_cons, bind_of_error hres]
    rw [bind_of_error hoperands]
    exact (bind_of_error (f := fun v => Lisplet.eval (depth + 1) (scope.extend [x] [v]) b) hres).symm

section
variable {w : World} (hw : w.Numbered) {scope : Scope} (hscope : scope.Below w.next)
include hw hscope

/-- Evaluation does not notice that an identity was taken before it. -/
theorem sameOutcome_of_taken {e : Value} (he : e.Below w.next) (depth : Nat) :
    SameOutcome w (Lisplet.eval depth scope e w) (Lisplet.eval depth scope e { w with next := w.next + 1 }) := by
  -- only what is made from here on moves up, by the one that was taken
  let ρ : Nat → Nat := fun i => if i < w.next then i else i + 1
  have hinjective : Function.Injective ρ := by
    intro i j hij
    simp only [ρ] at hij
    split at hij <;> split at hij <;> omega
  have hkeeps : ∀ i < w.next, ρ i = i := fun i hi => if_pos hi
  have hnext : ∀ k, ρ (w.next + k) = w.next + 1 + k := by
    intro k
    have hge : ¬ w.next + k < w.next := Nat.not_lt.2 (Nat.le_add_right ..)
    simp only [ρ, if_neg hge]
    omega
  have hends := eval_renamed hinjective depth _ scope e hscope he w _ le_rfl (hw.renamed hkeeps hnext)
  rw [Scope.rename_eq_self hkeeps hscope, Value.rename_eq_self hkeeps he] at hends
  exact ⟨ρ, hinjective, hkeeps, hends⟩

/-- A `let` comes out as the application of a function to the value that it binds. -/
theorem sameOutcome_applied (x : String) {e b : Value} (he : e.Below w.next) (hb : b.Below w.next) {depth depth' : Nat}
    (h : ¬ Exhausts (Lisplet.eval depth scope (SpecialForm.binding.expression [.symbol x, e, b]) w))
    (h' : ¬ Exhausts (Lisplet.eval depth' scope (applied x b e) w)) :
    SameOutcome w (Lisplet.eval depth scope (SpecialForm.binding.expression [.symbol x, e, b]) w)
      (Lisplet.eval depth' scope (applied x b e) w) := by
  have hform : (SpecialForm.binding.expression [.symbol x, e, b]).Below w.next :=
    ⟨by simp, trivial, by simp, trivial, by simp, he, by simp, hb, trivial⟩
  -- both sides at one depth that is enough for either, with room for the application
  have hdepth : depth ≤ max depth depth' + 2 := by omega
  have hdepth' : depth' ≤ max depth depth' + 2 := by omega
  rw [eval_of_le hdepth h, eval_of_le hdepth' h', eval_applied]
  exact sameOutcome_of_taken hw hscope hform _

end

/-- What the derived forms stand for. That identities are below the next one, as the first of them asks for, is so
in every state that a session comes to. -/
theorem derived_forms (depth depth' : Nat) (scope : Scope) (w : World) :
    (∀ x e b, w.Numbered → scope.Below w.next → e.Below w.next → b.Below w.next →
      ¬ Exhausts (Lisplet.eval depth scope (SpecialForm.binding.expression [.symbol x, e, b]) w) →
      ¬ Exhausts (Lisplet.eval depth' scope (applied x b e) w) →
      SameOutcome w (Lisplet.eval depth scope (SpecialForm.binding.expression [.symbol x, e, b]) w)
        (Lisplet.eval depth' scope (applied x b e) w)) ∧
    (∀ a b, ¬ Exhausts (Lisplet.eval depth scope (SpecialForm.conjunction.expression [a, b]) w) →
      ¬ Exhausts (Lisplet.eval depth' scope (SpecialForm.condition.expression [a, b, .bool false]) w) →
      Lisplet.eval depth scope (SpecialForm.conjunction.expression [a, b]) w =
        Lisplet.eval depth' scope (SpecialForm.condition.expression [a, b, .bool false]) w) ∧
    (∀ a b, ¬ Exhausts (Lisplet.eval depth scope (SpecialForm.disjunction.expression [a, b]) w) →
      ¬ Exhausts (Lisplet.eval depth' scope (SpecialForm.condition.expression [a, .bool true, b]) w) →
      Lisplet.eval depth scope (SpecialForm.disjunction.expression [a, b]) w =
        Lisplet.eval depth' scope (SpecialForm.condition.expression [a, .bool true, b]) w) ∧
    (∀ settings wanted files code s calls, Session.create settings wanted files code = .ok s →
      (∀ done globals rest, calls = done ++ Session.Call.restore globals :: rest →
        globals.Below (s.performAll done).world.next) →
      (s.performAll calls).Numbered) := by
  have hle : depth ≤ max depth depth' := Nat.le_max_left ..
  have hle' : depth' ≤ max depth depth' := Nat.le_max_right ..
  refine ⟨fun x e b hw hscope he hb h h' => sameOutcome_applied hw hscope x he hb h h', fun a b h h' => ?_,
    fun a b h h' => ?_, fun settings wanted files code s calls hcreate => Session.numbered_performAll hcreate⟩
  · rw [eval_of_le hle h, eval_of_le hle' h', eval_conjunction]
  · rw [eval_of_le hle h, eval_of_le hle' h', eval_disjunction]

/-- The names of forms are bound, a `let` binds one of them to a pair, and the identities of the pairs differ. -/
theorem derived_forms_bound :
    let w := World.ofRealm (.fresh .session ∅) 0
    let scope := (Scope.global .session).extend ["cons", "let"] [.primitive .session .cons, .nil]
    let e := Value.ofList [.symbol "cons", .symbol "let", .nil]
    let b := Value.ofList [.symbol "cons", .symbol "if", .symbol "if"]
    let r := Lisplet.eval 4 scope (SpecialForm.binding.expression [.symbol "if", e, b]) w
    let r' := Lisplet.eval 5 scope (applied "if" b e) w
    (∃ t, r = .ok (.pair (some 1) (.pair (some 0) .nil .nil) (.pair (some 0) .nil .nil)) t) ∧
    (∃ t, r' = .ok (.pair (some 2) (.pair (some 1) .nil .nil) (.pair (some 1) .nil .nil)) t) ∧
    SameOutcome w r r' ∧
    Lisplet.eval 4 scope (SpecialForm.conjunction.expression [.symbol "let", e]) w =
      Lisplet.eval 5 scope (SpecialForm.condition.expression [.symbol "let", e, .bool false]) w ∧
    Lisplet.eval 4 scope (SpecialForm.disjunction.expression [.symbol "let", e]) w =
      Lisplet.eval 5 scope (SpecialForm.condition.expression [.symbol "let", .bool true, e]) w ∧
    ∃ s, Session.create ⟨10, false, "", 0⟩ none ∅ "(define p (cons 1 2))" = .ok s ∧
      (s.performAll [.run "(define p (cons p p))", .undo]).Numbered := by
  intro w scope e b r r'
  have hw : w.Numbered := fun owner => by cases owner <;> exact Globals.library_below _ _
  have hscope : scope.Below w.next := by
    refine Scope.Below.extend (s := .global .session) trivial _ fun v hv => ?_
    fin_cases hv <;> trivial
  have he : e.Below w.next := ⟨by simp, trivial, by simp, trivial, by simp, trivial, trivial⟩
  have hb : b.Below w.next := ⟨by simp, trivial, by simp, trivial, by simp, trivial, trivial⟩
  have hr : r = .ok (.pair (some 1) (.pair (some 0) .nil .nil) (.pair (some 0) .nil .nil)) { w with next := 2 } := rfl
  have hr' : r' = .ok (.pair (some 2) (.pair (some 1) .nil .nil) (.pair (some 1) .nil .nil)) { w with next := 3 } := rfl
  obtain ⟨hbinding, hconjunction, hdisjunction, hnumbered⟩ := derived_forms 4 5 scope w
  refine ⟨⟨_, hr⟩, ⟨_, hr'⟩, hbinding "if" e b hw hscope he hb ?_ ?_, hconjunction _ _ ?_ ?_,
    hdisjunction _ _ ?_ ?_, ?_⟩
  · exact fun ⟨t, ht⟩ => nomatch hr.symm.trans ht
  · exact fun ⟨t, ht⟩ => nomatch hr'.symm.trans ht
  · exact fun ⟨t, ht⟩ => nomatch ht
  · exact fun ⟨t, ht⟩ => nomatch ht
  · exact fun ⟨t, ht⟩ => nomatch ht
  · exact fun ⟨t, ht⟩ => nomatch ht
  · have hok : (Session.create ⟨10, false, "", 0⟩ none ∅ "(define p (cons 1 2))").isOk := by decide +kernel
    cases hcreate : Session.create ⟨10, false, "", 0⟩ none ∅ "(define p (cons 1 2))" with
    | ok s =>
      refine ⟨s, rfl, hnumbered _ none ∅ _ s _ hcreate fun done globals rest hcalls => ?_⟩
      have hmem : Session.Call.restore globals ∈ [Session.Call.run "(define p (cons p p))", .undo] := by simp [hcalls]
      simp at hmem
    | error failure =>
      rw [hcreate] at hok
      cases hok

end Eval

end Lisplet
