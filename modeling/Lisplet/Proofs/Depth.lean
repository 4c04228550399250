import Lisplet.Proofs.Calls
import Lisplet.Proofs.Reading
import Lisplet.Proofs.RoundTrip
import Lisplet.Proofs.Written

/-!
# How deeply functions are nested

Text is read up to a limit on nesting, and a function that a session defines was made inside of a
definition or a call: its body has two lists around it at least. `shallow_performAll`: so the bodies of
all functions in the tables of a session over text are nested two lists less deeply than the limit, and
can stand in a definition of their own.
-/

namespace Lisplet

namespace Value

/-- The code in the functions of a value can stand in a definition. -/
def Shallow (limit : Nat) (v : Value) : Prop := ∀ c, v.Carries c → c.nesting + 2 ≤ limit

variable {limit : Nat}

theorem shallow_of_isAtom {v : Value} (h : v.isAtom) : v.Shallow limit :=
  fun _ hc => absurd hc (not_carries_of_isAtom h)

theorem Shallow.body {id : Identity} {params : List String} {body : Value} {s : Scope}
    (h : (Value.closure id params body s).Shallow limit) : body.nesting + 2 ≤ limit :=
  h body (carries_closure.2 (.inl (.self body)))

theorem nesting_of_item {item : Value} : ∀ {e : Value}, item ∈ e.items → item.nesting + 1 ≤ e.nesting
  | .pair _ head tail, h => by
    rw [nesting]
    rcases List.mem_cons.1 h with rfl | h
    · exact Nat.le_max_left ..
    · exact (nesting_of_item h).trans (Nat.le_max_right ..)

theorem Contains.nesting_le {e c : Value} (h : e.Contains c) : c.nesting ≤ e.nesting := by
  induction h with
  | self e => exact Nat.le_refl _
  | item hitem _ ih =>
    have := nesting_of_item hitem
    omega

theorem nesting_ofList {vs : List Value} {room : Nat} (h : ∀ v ∈ vs, v.nesting ≤ room) :
    (Value.ofList vs).nesting ≤ room + 1 := by
  induction vs with
  | nil => exact Nat.zero_le _
  | cons v vs ih =>
    have hv := h v (List.mem_cons_self ..)
    have hvs := ih fun v' hv' => h v' (List.mem_cons_of_mem _ hv')
    exact Nat.max_le.2 ⟨Nat.succ_le_succ hv, hvs⟩

theorem shallow_ofList {vs : List Value} (h : ∀ v ∈ vs, v.Shallow limit) : (Value.ofList vs).Shallow limit := by
  induction vs with
  | nil => exact shallow_of_isAtom rfl
  | cons v vs ih =>
    intro c hc
    rcases carries_pair.1 hc with hc | hc
    · exact h v (List.mem_cons_self ..) c hc
    · exact ih (fun v' hv' => h v' (List.mem_cons_of_mem _ hv')) c hc

end Value

def Globals.Shallow (limit : Nat) (globals : Globals) : Prop :=
  ∀ name v, globals.find? name = some v → v.Shallow limit

/-- Evaluation of parts makes no function whose body is nested too deeply. -/
def Invariant.shallow (limit : Nat) : Invariant where
  state w := ∀ owner, Globals.Shallow limit (w.realm owner).globals
  code e := e.nesting + 1 ≤ limit ∧ e.Shallow limit
  value v := v.Shallow limit
  scope s := ∀ v ∈ s.values, v.Shallow limit
  fails _ := True
  state_next hw := hw
  state_line hw := World.forall_modifyRealm hw _ fun _ hr => hr
  state_file hw := World.forall_modifyRealm hw _ fun _ hr => hr
  state_global hw _ _ _ hv := World.forall_modifyRealm hw _ fun _ hr => NameMap.forall_find?_insert hr hv
  value_global hw hv := hw _ _ _ hv
  code_items hcode item hitem := by
    have := Value.nesting_of_item hitem
    exact ⟨by omega, fun c hc => hcode.2 c (.item hitem hc)⟩
  value_code hcode _ _ := hcode.2
  value_nil := Value.shallow_of_isAtom rfl
  value_bool _ := Value.shallow_of_isAtom rfl
  value_string _ := Value.shallow_of_isAtom rfl
  value_pair ha hb c hc := (Value.carries_pair.1 hc).elim (ha c) (hb c)
  value_closure := by
    intro id head tail params body id' names s hcode _ hitems hs c hc
    have hbody : body ∈ (Value.pair id head tail).items := by simp [Value.items, hitems]
    rcases Value.carries_closure.1 hc with hc | hc | ⟨v, hv, hc⟩
    · -- The body has the form of the function around it, which is part of an expression itself.
      have := hc.nesting_le
      have := Value.nesting_of_item hbody
      omega
    · exact hcode.2 c (.item hbody hc)
    · exact hs v hv c hc
  value_result hresult hoperands := Primitive.settles_carries hresult hoperands
  code_closure := by
    intro id params body s h
    have := h.body
    exact ⟨⟨by omega, fun c hc => h c (Value.carries_closure.2 (.inr (.inl hc)))⟩,
      fun v hv c hc => h c (Value.carries_closure.2 (.inr (.inr ⟨v, hv, hc⟩)))⟩
  scope_find hs hv := hs _ (Scope.mem_values_of_find? hv)
  scope_extend hs hvs v hv := (Scope.mem_values_extend hv).elim (hvs v) (hs v)
  fails_evaluation _ := trivial
  fails_text _ _ := trivial
  fails_ending _ _ := trivial

/-! ### Top level -/

section
variable {limit : Nat} {e : Value}

theorem enter_abstraction_keeps {evaluate : Evaluator} {s : Scope} {operands : List Value} :
    (Invariant.shallow limit).Keeps (fun _ => True) (Eval.enter evaluate s .abstraction operands) := by
  match operands with
  | [params, body] =>
    refine (Meets.ofExcept (Primitive.settles_any _)).bind fun names _ => ?_
    intro w hw
    exact ⟨hw, trivial⟩
  | [] | [_] | _ :: _ :: _ :: _ => exact .throw trivial

/-- An expression at top level may be nested one list deeper than its parts: the function that it may
make itself is not bound to a name. -/
theorem expects_shallow (hnesting : e.nesting ≤ limit) (he : e.Shallow limit) :
    (Invariant.shallow limit).Expects (fun _ => True) e := by
  have hscope : (Invariant.shallow limit).scope (.global .session) := fun v hv => by cases hv
  have hcode : ∀ item ∈ e.items, (Invariant.shallow limit).code item := by
    intro item hitem
    have := Value.nesting_of_item hitem
    exact ⟨by omega, fun c hc => he c (.item hitem hc)⟩
  intro depth
  cases depth with
  | zero => exact .throw trivial
  | succ depth =>
    have hev := (Invariant.shallow limit).eval depth
    show (Invariant.shallow limit).Keeps _ (Eval.step (eval depth) (.global .session) e)
    unfold Eval.step
    split
    · exact (Invariant.lookup_keeps hscope).mono fun _ _ => trivial
    · next id head tail =>
      obtain ⟨hhead, hitems⟩ := List.forall_mem_cons.1 hcode
      have helements : Settles (fun operands => operands = tail.items) (fun _ => True) tail.elements := by
        cases hres : tail.elements with
        | ok operands => exact elements_eq_ok hres
        | error failure => trivial
      refine (Meets.ofExcept helements).bind ?_
      rintro operands rfl
      split
      · next form hform =>
        by_cases habstraction : form = .abstraction
        · subst habstraction
          exact enter_abstraction_keeps
        · refine (Invariant.enter_keeps hev hscope hitems ?_ ?_).mono fun _ _ => trivial
          · rintro name e w v - - hw hv
            exact World.forall_modifyRealm hw _ fun _ hr => NameMap.forall_find?_insert hr hv
          · rintro params body id' names hform' -
            exact absurd hform' habstraction
      · refine (hev _ head hscope hhead).bind fun f hf => ?_
        refine (Meets.mapM_all fun e he => hev _ e hscope (hitems e he)).bind fun vs hvs => ?_
        exact (Invariant.apply_keeps hev hf hvs).mono fun _ _ => trivial
    · exact .pure trivial

theorem legible_shallow (limit : Nat) : Legible fun room v => v.nesting ≤ room ∧ v.Shallow limit where
  nil _ := ⟨Nat.zero_le _, Value.shallow_of_isAtom rfl⟩
  bool _ _ := ⟨Nat.zero_le _, Value.shallow_of_isAtom rfl⟩
  double _ _ := ⟨Nat.zero_le _, Value.shallow_of_isAtom rfl⟩
  string _ _ := ⟨Nat.zero_le _, Value.shallow_of_isAtom rfl⟩
  symbol _ _ := ⟨Nat.zero_le _, Value.shallow_of_isAtom rfl⟩
  list h := ⟨Value.nesting_ofList fun v hv => (h v hv).1, Value.shallow_ofList fun v hv => (h v hv).2⟩

end

namespace Session

variable {s : Session} {limit : Nat}

theorem expects_shallow_of_parse (hlimit : s.limit = limit) {code : String} {es : List Value}
    (h : s.parse code = .ok es) : ∀ e ∈ es, (Invariant.shallow limit).Expects (fun _ => True) e := by
  subst hlimit
  have hread := (legible_shallow s.limit).readText ⟨s.strict, s.limit⟩ code
  unfold parse at h
  cases hres : readText ⟨s.strict, s.limit⟩ code with
  | error failure =>
    rw [hres] at h
    cases h
  | ok vs =>
    rw [hres] at h hread
    cases h
    exact fun e he => expects_shallow (hread e he).1 (hread e he).2

theorem shallow_library (limit : Nat) (owner : Owner) : (Globals.library owner).Shallow limit := by
  intro name v h
  obtain ⟨p, rfl⟩ := Globals.library_eq_some h
  exact Value.shallow_of_isAtom rfl

theorem leastLimit_le {settings : Settings} {wanted : Option Int}
    (h : raiseLimit settings leastLimit wanted = .ok limit) :
    leastLimit ≤ limit := by
  unfold raiseLimit at h
  dsimp only at h
  split at h
  · cases h
  · cases h
    exact Nat.le_max_left ..

/-- The functions of a session over text can all stand in a definition within the limit of the session. -/
theorem shallow_performAll {settings : Settings} {wanted : Option Int} {files : NameMap String} {code : String}
    (h : create settings wanted files code = .ok s) {calls : List Call}
    (hcalls : ∀ globals, Call.restore globals ∉ calls) :
    leastLimit ≤ (s.performAll calls).limit ∧
      ∀ d ∈ (s.performAll calls).userDefines, d.2.Shallow (s.performAll calls).limit := by
  obtain ⟨limit, hlimit⟩ := exists_limit_of_create h
  have hinv : ∀ w, (Invariant.shallow limit).state w ↔ ∀ owner, Globals.Shallow limit (w.realm owner).globals :=
    fun _ => .rfl
  have hcode : ∀ s : Session, s.limit = limit → ∀ code es, s.parse code = .ok es →
      ∀ e ∈ es, (Invariant.shallow limit).Expects (fun _ => True) e := fun s hs code es => expects_shallow_of_parse hs
  obtain ⟨hs, hs'⟩ := Tables.create hinv (shallow_library limit) hlimit hcode h
  obtain ⟨hs, hs'⟩ := hs.performAll hinv hs' hcode hcalls
  refine ⟨?_, fun d hd => ?_⟩
  · rw [hs']
    exact leastLimit_le hlimit
  · rw [hs']
    exact hs.world .session d.1 d.2 (NameMap.find?_eq_some_iff.2 (List.mem_filter.1 hd).1)

end Session

end Lisplet
