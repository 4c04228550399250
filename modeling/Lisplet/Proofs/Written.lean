import Lisplet.Proofs.Simulation

/-!
# Written code

The code of an evaluation is what is written in the expression and in the bodies of the functions
that can be reached from it, from the scope and from the global tables (`Written`). Values that are
built at run time add nothing to it. `eval_confined`: evaluation binds only names that a definition
in this code gives, leaves no other code behind in functions, and evaluates no other code.
-/

namespace Lisplet

namespace Value

/-- `e.Contains c`: the expression `c` is `e` or stands in it, as an element of a list. -/
inductive Contains : Value → Value → Prop
  | self (e : Value) : Contains e e
  | item {e item c : Value} (hitem : item ∈ e.items) (h : Contains item c) : Contains e c

end Value

/-- All values bound in the frames of a scope. -/
def Scope.values (s : Scope) : List Value := s.frames.flatten.map (·.2)

namespace Value

/-- `v.Reaches u`: from `v` one comes to `u` through pairs, bodies and captured frames. -/
inductive Reaches : Value → Value → Prop
  | self (v : Value) : Reaches v v
  | head {id : Identity} {head tail u : Value} (h : Reaches head u) : Reaches (.pair id head tail) u
  | tail {id : Identity} {head tail u : Value} (h : Reaches tail u) : Reaches (.pair id head tail) u
  | body {id : Identity} {params : List String} {body u : Value} {s : Scope} (h : Reaches body u) :
    Reaches (.closure id params body s) u
  | captured {id : Identity} {params : List String} {body v u : Value} {s : Scope} (hv : v ∈ s.values)
    (h : Reaches v u) : Reaches (.closure id params body s) u

/-- `v.Carries c`: the expression `c` stands in the body of a function that `v` reaches. -/
def Carries (v c : Value) : Prop :=
  ∃ id params body s, v.Reaches (.closure id params body s) ∧ body.Contains c

/-- An expression that, with some value, defines a global name. -/
def Defines (c : Value) (name : String) : Prop :=
  ∃ id id' rest, c = .pair id (.symbol SpecialForm.definition.keyword) (.pair id' (.symbol name) rest)

end Value

/-- The code of an evaluation of `e` in the scope `s` and the world `w`. -/
inductive Written (w : World) (s : Scope) (e : Value) : Value → Prop
  | expression {c : Value} (h : e.Contains c) : Written w s e c
  | literal {c : Value} (h : e.Carries c) : Written w s e c
  | frame {v c : Value} (hv : v ∈ s.values) (h : v.Carries c) : Written w s e c
  | global {owner : Owner} {name : String} {v c : Value} (hv : (w.realm owner).globals.find? name = some v)
    (h : v.Carries c) : Written w s e c

/-- The names that definitions in some code give. -/
def Targets (code : Value → Prop) (name : String) : Prop := ∃ c, code c ∧ c.Defines name

theorem Targets.mono {code code' : Value → Prop} (h : ∀ c, code c → code' c) {name : String}
    (hname : Targets code name) : Targets code' name := by
  obtain ⟨c, hc, hdef⟩ := hname
  exact ⟨c, h c hc, hdef⟩

/-! ### Values of scopes -/

namespace Scope

theorem values_bind (x : String) (v : Value) (rest : Scope) : (Scope.bind x v rest).values = v :: rest.values := by
  unfold values
  rw [frames]
  split
  · next h => simp [h]
  · next frame outer h => simp [h]

theorem mem_values_of_find? : ∀ {s : Scope} {name : String} {v : Value}, s.find? name = some v → v ∈ s.values
  | .global _, _, _, h => by cases h
  | .enter outer, _, _, h => mem_values_of_find? (s := outer) h
  | .bind x u rest, name, v, h => by
    rw [find?] at h
    rw [values_bind]
    split at h
    · cases h
      exact List.mem_cons_self ..
    · exact List.mem_cons_of_mem _ (mem_values_of_find? h)

theorem mem_values_bindAll {bindings : List (String × Value)} {s : Scope} {v : Value}
    (h : v ∈ (bindAll bindings s).values) : (∃ x, (x, v) ∈ bindings) ∨ v ∈ s.values := by
  induction bindings with
  | nil => exact .inr h
  | cons b bindings ih =>
    have hvalues : (bindAll (b :: bindings) s).values = b.2 :: (bindAll bindings s).values := values_bind ..
    rw [hvalues] at h
    rcases List.mem_cons.1 h with rfl | h
    · exact .inl ⟨b.1, List.mem_cons_self ..⟩
    · rcases ih h with ⟨x, hx⟩ | h
      · exact .inl ⟨x, List.mem_cons_of_mem _ hx⟩
      · exact .inr h

theorem mem_values_extend {s : Scope} {names : List String} {vs : List Value} {v : Value}
    (h : v ∈ (s.extend names vs).values) : v ∈ vs ∨ v ∈ s.values := by
  unfold extend at h
  split at h
  · exact .inr h
  · rcases mem_values_bindAll h with ⟨x, hx⟩ | h
    · exact .inl (List.of_mem_zip (NameMap.mem_ofList hx)).2
    · exact .inr h

end Scope

/-! ### Code in values -/

namespace Value

theorem Reaches.item {e item u : Value} (hitem : item ∈ e.items) (h : item.Reaches u) : e.Reaches u := by
  fun_induction items e with
  | case1 id head tail ih =>
    rcases List.mem_cons.1 hitem with rfl | hitem
    · exact .head h
    · exact .tail (ih hitem)
  | case2 => cases hitem

theorem Carries.item {e item c : Value} (hitem : item ∈ e.items) (h : item.Carries c) : e.Carries c := by
  obtain ⟨id, params, body, s, hreach, hbody⟩ := h
  exact ⟨id, params, body, s, .item hitem hreach, hbody⟩

theorem carries_pair {id : Identity} {a b c : Value} :
    (Value.pair id a b).Carries c ↔ a.Carries c ∨ b.Carries c := by
  constructor
  · rintro ⟨id, params, body, s, hreach, hbody⟩
    rcases hreach with _ | h | h
    · exact .inl ⟨id, params, body, s, h, hbody⟩
    · exact .inr ⟨id, params, body, s, h, hbody⟩
  · rintro (⟨id, params, body, s, h, hbody⟩ | ⟨id, params, body, s, h, hbody⟩)
    · exact ⟨id, params, body, s, .head h, hbody⟩
    · exact ⟨id, params, body, s, .tail h, hbody⟩

theorem carries_closure {id : Identity} {params : List String} {body c : Value} {s : Scope} :
    (Value.closure id params body s).Carries c ↔
      body.Contains c ∨ body.Carries c ∨ ∃ v ∈ s.values, v.Carries c := by
  constructor
  · rintro ⟨id, params, body, s, hreach, hbody⟩
    cases hreach with
    | self => exact .inl hbody
    | body h => exact .inr (.inl ⟨id, params, body, s, h, hbody⟩)
    | captured hv h => exact .inr (.inr ⟨_, hv, id, params, body, s, h, hbody⟩)
  · rintro (h | ⟨id, params, body, s, h, hbody⟩ | ⟨v, hv, id, params, body, s, h, hbody⟩)
    · exact ⟨id, params, body, s, .self _, h⟩
    · exact ⟨id, params, body, s, .body h, hbody⟩
    · exact ⟨id, params, body, s, .captured hv h, hbody⟩

/-- The values without parts. -/
def isAtom : Value → Bool
  | .nil | .bool _ | .number _ | .string _ | .symbol _ | .primitive .. | .absent => true
  | _ => false

theorem not_carries_of_isAtom {v c : Value} (h : v.isAtom) : ¬ v.Carries c := by
  rintro ⟨id, params, body, s, hreach, -⟩
  cases hreach <;> cases h

end Value

/-! ### Results of primitives -/

namespace Primitive

theorem settles_any {α : Type} (x : Except Failure α) : Settles (fun _ => True) (fun _ => True) x := by
  cases x <;> trivial

section
variable {p : Primitive} {a b : Value}

abbrev GivesAtom (r : Except Failure Value) : Prop := Settles (fun v => v.isAtom) (fun _ => True) r

theorem givesAtom_complaint {x : Except Failure String} {complaint : String → Failure} :
    GivesAtom (do throw (complaint (← x))) :=
  (settles_any x).bind fun _ _ => trivial

theorem givesAtom_computed (n : Option Number) : GivesAtom (computed n) := by
  cases n with
  | none => trivial
  | some n => rfl

theorem givesAtom_arithmetic (f : Number → Number → Option Number) : GivesAtom (p.arithmetic f a b) := by
  refine (settles_any (p.number a)).bind fun m _ => ?_
  exact (settles_any (p.number b)).bind fun n _ => givesAtom_computed _

theorem givesAtom_compare (holds : Ordering → Bool) : GivesAtom (p.compare holds a b) := by
  unfold Primitive.compare
  split
  · rfl
  · refine (settles_any (p.number a)).bind fun m _ => ?_
    exact (settles_any (p.number b)).bind fun n _ => rfl

theorem givesAtom_countOperands : GivesAtom (p.countOperands a) := by
  unfold countOperands
  split
  · rfl
  · rfl
  · exact givesAtom_complaint

theorem parts_eq (p : Primitive) (a : Value) :
    Settles (fun parts => ∃ id, a = .pair id parts.1 parts.2) (fun _ => True) (p.parts a) := by
  unfold parts
  split
  · exact ⟨_, rfl⟩
  · exact (settles_any _).bind fun _ _ => trivial

/-- What comes out of a primitive is an atom, or one half of a pair that went in. -/
theorem result?_origin {operands : List Value} {r : Except Failure Value} (h : p.result? operands = some r) :
    Settles (fun v => v.isAtom ∨ ∃ id a b, .pair id a b ∈ operands ∧ (v = a ∨ v = b)) (fun _ => True) r := by
  match operands with
  | [a] =>
    cases p with
    | head =>
      cases h
      refine (parts_eq .head a).bind ?_
      rintro ⟨x, y⟩ ⟨id, rfl⟩
      exact .inr ⟨id, x, y, List.mem_singleton_self _, .inl rfl⟩
    | tail =>
      cases h
      refine (parts_eq .tail a).bind ?_
      rintro ⟨x, y⟩ ⟨id, rfl⟩
      exact .inr ⟨id, x, y, List.mem_singleton_self _, .inr rfl⟩
    | negate | symbol =>
      cases h
      exact (settles_any _).bind fun _ _ => .inl rfl
    | sqrt =>
      cases h
      exact (settles_any _).bind fun n _ => (givesAtom_computed _).mono fun _ => .inl
    | arity =>
      cases h
      exact givesAtom_countOperands.mono fun _ => .inl
    | not | isNumber | isString | isBoolean | isSymbol | isCons | isPair | isFunction | isNull =>
      cases h
      exact .inl rfl
    | _ => cases h
  | [a, b] =>
    cases p with
    | add | sub | mul | div | mod =>
      cases h
      exact (givesAtom_arithmetic _).mono fun _ => .inl
    | less | greater | lessEqual | greaterEqual =>
      cases h
      exact (givesAtom_compare _).mono fun _ => .inl
    | equal =>
      cases h
      exact .inl rfl
    | concat =>
      cases h
      exact (settles_any _).bind fun _ _ => (settles_any _).bind fun _ _ => .inl rfl
    | _ => cases h
  | [] | _ :: _ :: _ :: _ => cases h

/-- Primitives make no functions. -/
theorem settles_carries {code : Value → Prop} {operands : List Value} {r : Except Failure Value}
    (h : p.result? operands = some r) (hoperands : ∀ v ∈ operands, ∀ c, v.Carries c → code c) :
    Settles (fun v => ∀ c, v.Carries c → code c) (fun _ => True) r := by
  refine (result?_origin h).mono ?_
  rintro v (hatom | ⟨id, a, b, hmem, hv⟩) c hc
  · exact absurd hc (Value.not_carries_of_isAtom hatom)
  · refine hoperands _ hmem c (Value.carries_pair.2 ?_)
    rcases hv with rfl | rfl
    · exact .inl hc
    · exact .inr hc

end

end Primitive

/-! ### Evaluation -/

namespace World

theorem find?_withGlobal (w : World) (owner owner' : Owner) (name x : String) (v : Value) :
    ((w.withGlobal owner name v).realm owner').globals.find? x =
      if owner' = owner ∧ x = name then some v else (w.realm owner').globals.find? x := by
  cases owner <;> cases owner' <;> simp [withGlobal, modifyRealm, realm]

/-- Binding a name takes no other name away. -/
theorem exists_find?_withGlobal {w : World} {owner owner' : Owner} {name x : String} {v : Value}
    (h : ∃ u, (w.realm owner').globals.find? x = some u) :
    ∃ u, ((w.withGlobal owner name v).realm owner').globals.find? x = some u := by
  rw [find?_withGlobal]
  split
  · exact ⟨v, rfl⟩
  · exact h

theorem globals_withLine (w : World) (owner owner' : Owner) (line : String) :
    ((w.withLine owner line).realm owner').globals = (w.realm owner').globals := by
  cases owner <;> cases owner' <;> rfl

theorem globals_withFile (w : World) (owner owner' : Owner) (name text : String) :
    ((w.withFile owner name text).realm owner').globals = (w.realm owner').globals := by
  cases owner <;> cases owner' <;> rfl

/-- Since `w₀` only names that the code defines were bound, and no other code came into the tables. -/
structure Confined (code : Value → Prop) (w₀ w : World) : Prop where
  globals : ∀ owner x, ¬ Targets code x → (w.realm owner).globals.find? x = (w₀.realm owner).globals.find? x
  values : ∀ owner x v, (w.realm owner).globals.find? x = some v → ∀ c, v.Carries c → code c

variable {code : Value → Prop} {w₀ w w' : World}

theorem Confined.of_globals_eq (h : Confined code w₀ w)
    (heq : ∀ owner, (w'.realm owner).globals = (w.realm owner).globals) : Confined code w₀ w' where
  globals owner x hx := by rw [heq, h.globals owner x hx]
  values owner x v hv := h.values owner x v (by rw [← heq]; exact hv)

theorem Confined.withGlobal (h : Confined code w₀ w) {owner : Owner} {name : String} {v : Value}
    (hname : Targets code name) (hv : ∀ c, v.Carries c → code c) : Confined code w₀ (w.withGlobal owner name v) where
  globals owner' x hx := by
    have hne : x ≠ name := by
      rintro rfl
      exact hx hname
    rw [find?_withGlobal, if_neg fun heq => hne heq.2, h.globals owner' x hx]
  values owner' x u hu := by
    rw [find?_withGlobal] at hu
    split at hu
    · cases hu
      exact hv
    · exact h.values owner' x u hu

end World

theorem form?_eq_some {head : Value} {form : SpecialForm} (h : Eval.form? head = some form) :
    head = .symbol form.keyword := by
  cases head with
  | symbol name =>
    have hkeyword := List.find?_some h
    rw [beq_iff_eq.1 hkeyword]
  | _ => cases h

/-- A definition that is evaluated says which name it defines. -/
theorem defines_of_form {id : Identity} {head tail e : Value} {name : String}
    (hform : Eval.form? head = some .definition) (hitems : tail.items = [.symbol name, e]) :
    (Value.pair id head tail).Defines name := by
  obtain rfl := form?_eq_some hform
  cases tail with
  | pair id' first rest =>
    rw [Value.items, List.cons.injEq] at hitems
    exact ⟨id, id', rest, by rw [hitems.1]⟩
  | _ => cases hitems

/-- Evaluation stays within the code that is given. -/
def Invariant.written (code : Value → Prop) (w₀ : World) : Invariant where
  state := World.Confined code w₀
  code e := (∀ c, e.Contains c → code c) ∧ ∀ c, e.Carries c → code c
  value v := ∀ c, v.Carries c → code c
  scope s := ∀ v ∈ s.values, ∀ c, v.Carries c → code c
  fails _ := True
  state_next hw := hw.of_globals_eq fun owner => by cases owner <;> rfl
  state_line hw := hw.of_globals_eq fun owner => World.globals_withLine ..
  state_file hw := hw.of_globals_eq fun owner => World.globals_withFile ..
  state_global hw hcode hform hitems hv := hw.withGlobal ⟨_, hcode.1 _ (.self _), defines_of_form hform hitems⟩ hv
  value_global hw hv := hw.values _ _ _ hv
  code_items hcode item hitem :=
    ⟨fun c hc => hcode.1 c (.item hitem hc), fun c hc => hcode.2 c (.item hitem hc)⟩
  value_code hcode _ _ := hcode.2
  value_nil c hc := absurd hc (Value.not_carries_of_isAtom rfl)
  value_bool b c hc := absurd hc (Value.not_carries_of_isAtom rfl)
  value_string s c hc := absurd hc (Value.not_carries_of_isAtom rfl)
  value_pair ha hb c hc := (Value.carries_pair.1 hc).elim (ha c) (hb c)
  value_closure := by
    intro id head tail params body id' names s hcode _ hitems hs c hc
    have hbody : body ∈ (Value.pair id head tail).items := by simp [Value.items, hitems]
    rcases Value.carries_closure.1 hc with hc | hc | ⟨v, hv, hc⟩
    · exact hcode.1 c (.item hbody hc)
    · exact hcode.2 c (.item hbody hc)
    · exact hs v hv c hc
  value_result hresult hoperands := Primitive.settles_carries hresult hoperands
  code_closure hv :=
    ⟨⟨fun c hc => hv c (Value.carries_closure.2 (.inl hc)),
      fun c hc => hv c (Value.carries_closure.2 (.inr (.inl hc)))⟩,
      fun v hmem c hc => hv c (Value.carries_closure.2 (.inr (.inr ⟨v, hmem, hc⟩)))⟩
  scope_find hs hv := hs _ (Scope.mem_values_of_find? hv)
  scope_extend hs hvs v hv := (Scope.mem_values_extend hv).elim (hvs v) (hs v)
  fails_evaluation _ := trivial
  fails_text _ _ := trivial
  fails_ending _ _ := trivial

section
variable (w : World) (s : Scope) (e : Value)

theorem Written.ready : (Invariant.written (Written w s e) w).scope s ∧ (Invariant.written (Written w s e) w).code e :=
  ⟨fun _ hv _ hc => .frame hv hc, fun _ hc => .expression hc, fun _ hc => .literal hc⟩

theorem Written.confined : World.Confined (Written w s e) w w where
  globals _ _ _ := rfl
  values _ _ _ hv _ hc := .global hv hc

end

/-- An evaluator that follows the rules on written code gives what evaluation gives, whatever it does
with other expressions. -/
theorem eval_eq_of_written {w : World} {s : Scope} {e : Value} {evaluate : Nat → Evaluator}
    (hzero : evaluate 0 = eval 0)
    (hsucc : ∀ depth s' c, Written w s e c → evaluate (depth + 1) s' c = Eval.step (evaluate depth) s' c)
    (depth : Nat) : evaluate depth s e w = eval depth s e w := by
  have hfollows : (Invariant.written (Written w s e) w).diagonal.Follows (evaluate depth) (eval depth) := by
    induction depth with
    | zero =>
      rw [hzero]
      exact Simulation.eval 0
    | succ depth ih =>
      rintro s₁ s₂ c hready
      rw [hsucc depth s₁ c (hready.2.2.1 c (.self c))]
      exact Simulation.step_follows ih s₁ s₂ c hready
  have hends := hfollows s s e ⟨rfl, Written.ready w s e⟩ w w ⟨rfl, Written.confined w s e⟩
  generalize evaluate depth s e w = r at hends
  generalize eval depth s e w = r' at hends
  cases hends with
  | ok hs h =>
    obtain ⟨rfl, -⟩ := hs
    obtain ⟨rfl, -⟩ := h
    rfl
  | error failure hs =>
    obtain ⟨rfl, -⟩ := hs
    rfl

/-- Code that is written after an evaluation was written before it. -/
theorem Written.of_confined {w w' : World} {s : Scope} {e c : Value} (h : World.Confined (Written w s e) w w')
    (hc : Written w' s e c) : Written w s e c := by
  cases hc with
  | expression hc => exact .expression hc
  | literal hc => exact .literal hc
  | frame hv hc => exact .frame hv hc
  | global hv hc => exact h.values _ _ _ hv _ hc

/-- Evaluation, whether it fails or not, binds only names that written definitions give, and leaves no
other definitions behind in functions. Nothing else is ever evaluated: an evaluator that breaks the
rules on expressions that are not written gives the same. -/
theorem eval_confined (depth : Nat) (s : Scope) (e : Value) (w : World) :
    (match eval depth s e w with
      | .ok v w' =>
        (∀ owner x, ¬ Targets (Written w s e) x →
          (w'.realm owner).globals.find? x = (w.realm owner).globals.find? x) ∧
        ∀ x, Targets (fun c => v.Carries c ∨ Written w' s e c) x → Targets (Written w s e) x
      | .error _ w' =>
        (∀ owner x, ¬ Targets (Written w s e) x →
          (w'.realm owner).globals.find? x = (w.realm owner).globals.find? x) ∧
        ∀ x, Targets (Written w' s e) x → Targets (Written w s e) x) ∧
    ∀ evaluate : Nat → Evaluator, evaluate 0 = eval 0 →
      (∀ depth s' c, Written w s e c → evaluate (depth + 1) s' c = Eval.step (evaluate depth) s' c) →
      evaluate depth s e w = eval depth s e w := by
  refine ⟨?_, fun evaluate hzero hsucc => eval_eq_of_written hzero hsucc depth⟩
  obtain ⟨hscope, hcode⟩ := Written.ready w s e
  have hkeeps := (Invariant.written (Written w s e) w).eval depth s e hscope hcode w (Written.confined w s e)
  cases hres : eval depth s e w with
  | ok v w' =>
    rw [hres] at hkeeps
    obtain ⟨hw', hv⟩ := hkeeps
    refine ⟨hw'.globals, fun x => Targets.mono ?_⟩
    rintro c (hc | hc)
    · exact hv c hc
    · exact hc.of_confined hw'
  | error failure w' =>
    rw [hres] at hkeeps
    exact ⟨hkeeps.1.globals, fun x => Targets.mono fun c hc => hc.of_confined hkeeps.1⟩

/-- In a list of atoms nothing is defined but by the list itself. -/
theorem Targets.of_atoms {es : List Value} {name : String} (hes : ∀ e ∈ es, e.isAtom)
    (h : Targets (Value.ofList es).Contains name) :
    ∃ rest, es = .symbol SpecialForm.definition.keyword :: .symbol name :: rest := by
  obtain ⟨c, hc, id, id', rest, hdef⟩ := h
  cases hc with
  | self =>
    rcases es with _ | ⟨e, _ | ⟨e', es⟩⟩
    · cases hdef
    · cases hdef
    · obtain ⟨-, rfl, htail⟩ := Value.pair.inj hdef
      obtain ⟨-, rfl, -⟩ := Value.pair.inj htail
      exact ⟨es, rfl⟩
  | @item _ e _ hitem hc =>
    rw [Value.items_ofList] at hitem
    have he := hes e hitem
    cases hc with
    | self => rw [hdef] at he; cases he
    | item hitem =>
      cases e with
      | pair => cases he
      | _ => cases hitem

/-- A definition of `y` as data that looks like a definition of `x`. -/
theorem eval_confined_data :
    let s := Scope.bind "k" (.ofList [.symbol "define", .symbol "x", .nil]) (.enter (.global .session))
    let e := Value.ofList [.symbol "define", .symbol "y", .symbol "k"]
    let w := World.ofRealm (.fresh .session ∅) 0
    ¬ Targets (Written w s e) "x" ∧
      match eval 9 s e w with
      | .ok _ w' => (w'.realm .session).globals.find? "x" = none
      | .error _ _ => False := by
  intro s e w
  have hdata : ∀ {c a b a' : Value}, a.isAtom → b.isAtom → a'.isAtom → ¬ (Value.ofList [a, b, a']).Carries c := by
    intro c a b a' ha hb ha' hc
    rcases Value.carries_pair.1 hc with hc | hc
    · exact Value.not_carries_of_isAtom ha hc
    rcases Value.carries_pair.1 hc with hc | hc
    · exact Value.not_carries_of_isAtom hb hc
    rcases Value.carries_pair.1 hc with hc | hc
    · exact Value.not_carries_of_isAtom ha' hc
    · exact Value.not_carries_of_isAtom rfl hc
  have htargets : ¬ Targets (Written w s e) "x" := by
    rintro ⟨c, hc, hdef⟩
    cases hc with
    | expression hc =>
      obtain ⟨rest, hrest⟩ := Targets.of_atoms (by simp [Value.isAtom]) ⟨c, hc, hdef⟩
      simp at hrest
    | literal hc => exact hdata rfl rfl rfl hc
    | frame hv hc =>
      obtain rfl := List.mem_singleton.1 hv
      exact hdata rfl rfl rfl hc
    | @global owner name v _ hv hc =>
      obtain ⟨p, rfl⟩ : ∃ p, v = .primitive owner p := by
        cases owner <;> exact Globals.library_eq_some hv
      exact Value.not_carries_of_isAtom rfl hc
  refine ⟨htargets, ?_⟩
  have hok : (match eval 9 s e w with | .ok _ _ => true | .error _ _ => false) = true := by decide +kernel
  have hconfined := (eval_confined 9 s e w).1
  cases hres : eval 9 s e w with
  | ok v w' =>
    rw [hres] at hconfined
    exact (hconfined.1 .session "x" htargets).trans (by decide +kernel)
  | error failure w' =>
    rw [hres] at hok
    cases hok

end Lisplet
