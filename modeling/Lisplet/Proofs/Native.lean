import Lisplet.Proofs.Invariant
import Lisplet.Proofs.Reading

/-!
# Native values

A value is native if no part of it came in from outside: neither foreign values nor integers occur in
it, in the bodies of its functions or in what they captured. Native values have a text in every
manner (`Value.fault?_native`), what is read is native (`readText_native`), and evaluation stays among
native values (`Invariant.native`).
-/

namespace Lisplet

mutual

def Value.isNative : Value → Bool
  | .nil | .bool _ | .string _ | .symbol _ | .primitive .. => true
  | .number (.double _) => true
  | .number (.integer _) => false
  | .pair _ head tail => head.isNative && tail.isNative
  | .closure _ _ body scope => body.isNative && scope.isNative
  | .absent | .sequence .. => false

def Scope.isNative : Scope → Bool
  | .global _ => true
  | .enter outer => outer.isNative
  | .bind _ value rest => value.isNative && rest.isNative

end

/-! ### Texts -/

mutual

theorem Value.fault?_native : ∀ (v : Value) (manner : Value.Manner), v.isNative → v.fault? manner = none
  | .nil, _, _ | .bool _, _, _ | .string _, _, _ | .symbol _, _, _ | .primitive .., _, _ => by simp [Value.fault?]
  | .number (.double _), _, _ => by simp [Value.fault?, Number.isTooLong]
  | .number (.integer _), _, h => by cases h
  | .pair _ head tail, manner, h => by
    rw [Value.isNative, Bool.and_eq_true] at h
    cases manner <;>
      simp [Value.fault?, Value.fault?_native head _ h.1, Value.fault?_native tail _ h.2]
  | .closure _ _ body scope, manner, h => by
    rw [Value.isNative, Bool.and_eq_true] at h
    simp [Value.fault?, Value.fault?_native body _ h.1, Scope.fault?_native scope h.2]
  | .absent, _, h | .sequence .., _, h => by cases h

theorem Scope.fault?_native : ∀ scope : Scope, scope.isNative → scope.fault? = none
  | .global _, _ => by simp [Scope.fault?]
  | .enter outer, h => by
    rw [Scope.isNative] at h
    simp [Scope.fault?, Scope.fault?_native outer h]
  | .bind _ value rest, h => by
    rw [Scope.isNative, Bool.and_eq_true] at h
    simp [Scope.fault?, Scope.fault?_native rest h.2, Value.fault?_native value _ h.1]

end

theorem Value.format_native {v : Value} (h : v.isNative) (bindings : Bool) :
    v.format bindings = .ok (String.ofList (v.write bindings false)) := by
  rw [Value.format, Value.fault?_native v _ h]

theorem Value.display_native {v : Value} (h : v.isNative) : ∃ text, v.display = .ok text := by
  unfold Value.display
  split
  · exact ⟨_, rfl⟩
  · exact ⟨_, Value.format_native h false⟩

theorem Value.isNative_items : ∀ {v : Value}, v.isNative → ∀ item ∈ v.items, item.isNative
  | .pair _ head tail, h, item, hitem => by
    rw [Value.isNative, Bool.and_eq_true] at h
    rcases List.mem_cons.1 hitem with rfl | hitem
    · exact h.1
    · exact isNative_items h.2 item hitem
  | .nil, _, _, h | .bool _, _, _, h | .number _, _, _, h | .string _, _, _, h | .symbol _, _, _, h
  | .primitive .., _, _, h | .closure .., _, _, h | .absent, _, _, h | .sequence .., _, _, h => by cases h

theorem Value.isNative_ending : ∀ {v : Value}, v.isNative → v.ending.isNative
  | .pair _ _ tail, h => by
    rw [Value.isNative, Bool.and_eq_true] at h
    exact isNative_ending (v := tail) h.2
  | .nil, h | .bool _, h | .number _, h | .string _, h | .symbol _, h
  | .primitive .., h | .closure .., h | .absent, h | .sequence .., h => h

/-! ### Scopes and tables -/

namespace Scope

theorem isNative_find : ∀ (scope : Scope) {name : String} {v : Value}, scope.isNative → scope.find? name = some v →
    v.isNative
  | .global _, _, _, _, h => by cases h
  | .enter outer, _, _, hs, h => isNative_find outer hs h
  | .bind x value rest, name, v, hs, h => by
    rw [Scope.isNative, Bool.and_eq_true] at hs
    rw [Scope.find?] at h
    split at h
    · cases h
      exact hs.1
    · exact isNative_find rest hs.2 h

theorem isNative_bindAll {bindings : List (String × Value)} {scope : Scope} (hs : scope.isNative)
    (h : ∀ b ∈ bindings, b.2.isNative) : (bindAll bindings scope).isNative := by
  induction bindings with
  | nil => exact hs
  | cons b bindings ih =>
    have hrest := ih fun b' hb' => h b' (List.mem_cons_of_mem _ hb')
    show (Scope.bind b.1 b.2 (bindAll bindings scope)).isNative = true
    rw [Scope.isNative, hrest, h b (List.mem_cons_self ..)]
    rfl

theorem isNative_extend {scope : Scope} {names : List String} {vs : List Value} (hs : scope.isNative)
    (h : ∀ v ∈ vs, v.isNative) : (scope.extend names vs).isNative := by
  unfold extend
  split
  · exact hs
  · refine isNative_bindAll (by rw [Scope.isNative]; exact hs) fun b hb => ?_
    exact h b.2 (List.of_mem_zip (NameMap.mem_ofList hb)).2

end Scope

def Globals.Native (globals : Globals) : Prop := ∀ name v, globals.find? name = some v → v.isNative

theorem Globals.Native.insert {globals : Globals} (h : globals.Native) {name : String} {v : Value} (hv : v.isNative) :
    Globals.Native (globals.insert name v) :=
  NameMap.forall_find?_insert h hv

theorem Globals.native_library (owner : Owner) : (Globals.library owner).Native := by
  intro name v h
  obtain ⟨p, rfl⟩ := Globals.library_eq_some h
  rfl

def World.Native (w : World) : Prop := ∀ owner, (w.realm owner).globals.Native

theorem World.Native.modifyRealm {w : World} (h : w.Native) (owner : Owner) {f : Realm → Realm}
    (hf : ∀ r : Realm, r.globals.Native → (f r).globals.Native) : (w.modifyRealm owner f).Native :=
  World.forall_modifyRealm h owner hf

/-! ### Primitives -/

/-- `post` holds of the result, or evaluation reports a failure by itself. -/
abbrev Checked {α : Type} (post : α → Prop) (x : Except Failure α) : Prop :=
  Settles post (fun failure => failure.ofEvaluation = true) x

section
variable {p : Primitive} {a b : Value}

/-- A check of operands that are native fails with its own failure, never for want of a text. -/
theorem settles_complaint {α : Type} {post : α → Prop} {v : Value} (h : v.isNative) {complaint : String → Failure}
    (hc : ∀ text, (complaint text).ofEvaluation) :
    Checked post (do throw (complaint (← v.text))) := by
  rw [Value.text, Value.format_native h]
  exact hc _

theorem number_native (h : a.isNative) :
    Checked (fun n => ∃ x, n = .double x) (p.number a) := by
  unfold Primitive.number
  split
  · next n =>
    cases n with
    | double x => exact ⟨x, rfl⟩
    | integer n => cases h
  · exact settles_complaint h fun _ => rfl

theorem string_native (h : a.isNative) : Checked (fun _ => True) (p.string a) := by
  unfold Primitive.string
  split
  · trivial
  · exact settles_complaint h fun _ => rfl

theorem parts_native (h : a.isNative) :
    Checked (fun parts => parts.1.isNative = true ∧ parts.2.isNative = true) (p.parts a) := by
  unfold Primitive.parts
  split
  · rwa [Value.isNative, Bool.and_eq_true] at h
  · exact settles_complaint h fun _ => rfl

theorem arithmetic_native {f : Number → Number → Option Number} (ha : a.isNative) (hb : b.isNative)
    (hf : ∀ x y, ∃ z, f (.double x) (.double y) = some (.double z)) :
    Checked (fun v => v.isNative = true) (p.arithmetic f a b) := by
  refine (number_native ha).bind ?_
  rintro _ ⟨x, rfl⟩
  refine (number_native hb).bind ?_
  rintro _ ⟨y, rfl⟩
  obtain ⟨z, hz⟩ := hf x y
  rw [hz]
  rfl

theorem mod_double (x y : Float) : ∃ z, Number.mod (.double x) (.double y) = some (.double z) := by
  unfold Number.mod
  simp only [Number.toDouble?]
  split_ifs <;> exact ⟨_, rfl⟩

theorem compare_native {holds : Ordering → Bool} (ha : a.isNative) (hb : b.isNative) :
    Checked (fun v => v.isNative = true) (p.compare holds a b) := by
  unfold Primitive.compare
  split
  · rfl
  · exact (number_native ha).bind fun m _ => (number_native hb).bind fun n _ => rfl

theorem countOperands_native (ha : a.isNative) :
    Checked (fun v => v.isNative = true) (p.countOperands a) := by
  unfold Primitive.countOperands
  split
  · rfl
  · rfl
  · exact settles_complaint ha fun _ => rfl

theorem concat_native (ha : a.isNative) (hb : b.isNative) :
    Checked (fun v => v.isNative = true) (do return Value.string ((← a.display) ++ (← b.display))) := by
  obtain ⟨s, hs⟩ := Value.display_native ha
  obtain ⟨t, ht⟩ := Value.display_native hb
  rw [hs, ht]
  rfl

theorem result?_native {operands : List Value} {r : Except Failure Value} (h : p.result? operands = some r)
    (hoperands : ∀ v ∈ operands, v.isNative) : Checked (fun v => v.isNative = true) r := by
  match operands, hoperands with
  | [a], hoperands =>
    have ha : a.isNative := hoperands a (by simp)
    cases p with
    | negate | sqrt =>
      cases h
      refine (number_native ha).bind ?_
      rintro _ ⟨x, rfl⟩
      rfl
    | head =>
      cases h
      exact (parts_native ha).bind fun _ hparts => hparts.1
    | tail =>
      cases h
      exact (parts_native ha).bind fun _ hparts => hparts.2
    | symbol =>
      cases h
      exact (string_native ha).bind fun _ _ => rfl
    | arity =>
      cases h
      exact countOperands_native ha
    | not | isNumber | isString | isBoolean | isSymbol | isCons | isPair | isFunction | isNull =>
      cases h
      rfl
    | _ => cases h
  | [a, b], hoperands =>
    have ha : a.isNative := hoperands a (by simp)
    have hb : b.isNative := hoperands b (by simp)
    cases p with
    | add | sub | mul | div =>
      cases h
      exact arithmetic_native ha hb fun x y => ⟨_, rfl⟩
    | mod =>
      cases h
      exact arithmetic_native ha hb mod_double
    | less | greater | lessEqual | greaterEqual =>
      cases h
      exact compare_native ha hb
    | equal =>
      cases h
      rfl
    | concat =>
      cases h
      exact concat_native ha hb
    | _ => cases h
  | [], _ | _ :: _ :: _ :: _, _ => cases h

end

/-- Evaluation stays among native values, and fails only by itself. -/
def Invariant.native : Invariant where
  state := World.Native
  code v := v.isNative
  value v := v.isNative
  scope s := s.isNative
  fails failure := failure.ofEvaluation
  state_next hw := hw
  state_line hw := hw.modifyRealm _ fun _ hr => hr
  state_file hw := hw.modifyRealm _ fun _ hr => hr
  state_global hw _ _ _ hv := hw.modifyRealm _ fun _ hr => hr.insert hv
  value_global hw h := hw _ _ _ h
  code_items := Value.isNative_items
  value_code h _ _ := h
  value_nil := rfl
  value_bool _ := rfl
  value_string _ := rfl
  value_pair ha hb := by rw [Value.isNative, Bool.and_eq_true]; exact ⟨ha, hb⟩
  value_closure hcode _ hitems hscope := by
    rw [Value.isNative, Bool.and_eq_true]
    exact ⟨Value.isNative_items hcode _ (by simp [Value.items, hitems]), hscope⟩
  value_result := result?_native
  code_closure h := by rwa [Value.isNative, Bool.and_eq_true] at h
  scope_find := Scope.isNative_find _
  scope_extend := Scope.isNative_extend
  fails_evaluation h := h
  fails_text hv h := by
    rw [Value.fault?_native _ _ (hv.elim id id)] at h
    cases h
  fails_ending hcode h := by
    rw [Value.isNative, Bool.and_eq_true] at hcode
    rw [Value.fault?_native _ _ (Value.isNative_ending hcode.2)] at h
    cases h

/-! ### Reading -/

theorem isNative_ofList {vs : List Value} (h : ∀ v ∈ vs, v.isNative) : (Value.ofList vs).isNative := by
  induction vs with
  | nil => rfl
  | cons v vs ih =>
    have hvs := ih fun v' hv' => h v' (List.mem_cons_of_mem _ hv')
    show (Value.pair none v (Value.ofList vs)).isNative = true
    rw [Value.isNative, hvs, h v (List.mem_cons_self ..)]
    rfl

theorem legible_native : Legible fun _ v => v.isNative = true where
  nil _ := rfl
  bool _ _ := rfl
  double _ _ := rfl
  string _ _ := rfl
  symbol _ _ := rfl
  list := isNative_ofList

theorem readText_native (options : ReadOptions) (text : String) :
    Settles (fun vs => ∀ v ∈ vs, v.isNative = true) Failure.ofReading (readText options text) :=
  legible_native.readText options text

end Lisplet
