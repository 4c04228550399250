import Lisplet.Proofs.Renaming

/-!
# Evaluation with other identities

`eval_renamed`: in a world with other identities, an expression with other identities has the same value
with other identities, or fails for the same reason, and the worlds after it are the same with other
identities. All along, what there is has identities below the next one, so that evaluation makes new
ones. Two runs that go along with each other so are `InStep`; one level of evaluation keeps in step if
the evaluation of parts does (`step_follows`).
-/

namespace Lisplet

namespace Eval

variable {ρ : Nat → Nat} {n : Nat} {α α' β β' : Type}

/-- How two runs end that go along with each other from `n` identities on: in worlds that are the same with
other identities, with results as `post` says for the number of identities, or with the same failure. -/
inductive SameEnd (ρ : Nat → Nat) (n : Nat) (post : Nat → α → α' → Prop) :
    EStateM.Result Failure World α → EStateM.Result Failure World α' → Prop
  | ok {a : α} {a' : α'} {w w' : World} (hn : n ≤ w.next) (hw : w.Renamed ρ w') (h : post w.next a a') :
    SameEnd ρ n post (.ok a w) (.ok a' w')
  | error (failure : Failure) {w w' : World} (hn : n ≤ w.next) (hw : w.Renamed ρ w') :
    SameEnd ρ n post (.error failure w) (.error failure w')

theorem SameEnd.mono {m : Nat} (hn : n ≤ m) {post : Nat → α → α' → Prop} {r : EStateM.Result Failure World α}
    {r' : EStateM.Result Failure World α'} (h : SameEnd ρ m post r r') : SameEnd ρ n post r r' := by
  cases h with
  | ok hm hw h => exact .ok (hn.trans hm) hw h
  | error failure hm hw => exact .error failure (hn.trans hm) hw

/-- Two computations that go along with each other in worlds with `n` identities or more. -/
def InStep (ρ : Nat → Nat) (n : Nat) (post : Nat → α → α' → Prop) (m : Eval α) (m' : Eval α') : Prop :=
  ∀ w w', n ≤ w.next → w.Renamed ρ w' → SameEnd ρ w.next post (m w) (m' w')

namespace InStep

variable {post : Nat → α → α' → Prop} {goal : Nat → β → β' → Prop} {m : Eval α} {m' : Eval α'}

theorem pure {a : α} {a' : α'} (h : ∀ k, n ≤ k → post k a a') : InStep ρ n post (Pure.pure a) (Pure.pure a') :=
  fun _ _ hn hw => .ok le_rfl hw (h _ hn)

theorem throw (failure : Failure) : InStep ρ n post (throw failure) (throw failure) :=
  fun _ _ _ hw => .error failure le_rfl hw

theorem bind {f : α → Eval β} {f' : α' → Eval β'} (hm : InStep ρ n post m m')
    (hf : ∀ k a a', n ≤ k → post k a a' → InStep ρ k goal (f a) (f' a')) : InStep ρ n goal (m >>= f) (m' >>= f') := by
  intro w w' hn hw
  have hends := hm w w' hn hw
  show SameEnd ρ w.next goal (EStateM.bind m f w) (EStateM.bind m' f' w')
  unfold EStateM.bind
  generalize m w = r at hends
  generalize m' w' = r' at hends
  cases hends with
  | ok hk ht h => exact (hf _ _ _ (hn.trans hk) h _ _ le_rfl ht).mono hk
  | error failure hk ht => exact .error failure hk ht

/-- A computation without state comes out the same on both sides. -/
theorem ofExcept_bind {γ : Type} (x : Except Failure γ) {f : γ → Eval β} {f' : γ → Eval β'}
    (hf : ∀ c, x = .ok c → InStep ρ n goal (f c) (f' c)) :
    InStep ρ n goal (MonadExcept.ofExcept x >>= f) (MonadExcept.ofExcept x >>= f') := by
  cases x with
  | ok c => exact hf c rfl
  | error failure => exact throw failure

theorem get_bind {f : World → Eval β} {f' : World → Eval β'}
    (hf : ∀ w w', n ≤ w.next → w.Renamed ρ w' → InStep ρ w.next goal (f w) (f' w')) :
    InStep ρ n goal (get >>= f) (get >>= f') :=
  fun w w' hn hw => hf w w' hn hw w w' le_rfl hw

theorem modifyRealm_bind (owner : Owner) {g g' : Realm → Realm} {f : Unit → Eval β} {f' : Unit → Eval β'}
    (hg : ∀ k r r', n ≤ k → r.Renamed ρ k r' → (g r).Renamed ρ k (g' r')) (hf : InStep ρ n goal (f ()) (f' ())) :
    InStep ρ n goal (modify (·.modifyRealm owner g) >>= f) (modify (·.modifyRealm owner g') >>= f') := by
  intro w w' hn hw
  have hnext : (w.modifyRealm owner g).next = w.next := by cases owner <;> rfl
  have hend := hf (w.modifyRealm owner g) (w'.modifyRealm owner g') (hnext ▸ hn)
    (hw.modifyRealm owner fun r r' => hg w.next r r' hn)
  rwa [hnext] at hend

theorem mapM {γ : Type} {f f' : γ → Eval Value} {cs : List γ}
    (h : ∀ c ∈ cs, ∀ k, n ≤ k → InStep ρ k (Value.Renamed ρ) (f c) (f' c)) :
    InStep ρ n (fun k => List.Forall₂ (Value.Renamed ρ k)) (cs.mapM f) (cs.mapM f') := by
  induction cs generalizing n with
  | nil => exact pure fun _ _ => .nil
  | cons c cs ih =>
    rw [List.mapM_cons, List.mapM_cons]
    refine (h c (List.mem_cons_self ..) n le_rfl).bind fun k v v' hk hv => ?_
    refine (ih fun c' hc' k' hk' => h c' (List.mem_cons_of_mem _ hc') k' (hk.trans hk')).bind
      fun k' vs vs' hk' hvs => ?_
    exact pure fun k'' hk'' => .cons (hv.mono (hk'.trans hk'')) (hvs.imp fun _ _ hu => hu.mono hk'')

end InStep

/-! ### Library -/

theorem identity_inStep : InStep ρ n (fun k id id' => (∀ i ∈ id, i < k) ∧ id' = id.map ρ) identity identity := by
  intro w w' hn hw
  refine .ok (Nat.le_succ _) hw.identity ⟨?_, ?_⟩
  · rintro i ⟨⟩
    exact Nat.lt_succ_self _
  · exact congrArg some (hw.next 0).symm

section
variable {owner : Owner} {p : Primitive} {a a' b b' : Value} (ha : a.Renamed ρ n a') (hb : b.Renamed ρ n b')

include ha hb in
theorem cons_inStep :
    InStep ρ n (Value.Renamed ρ) (Primitive.perform owner .cons [a, b]) (Primitive.perform owner .cons [a', b']) := by
  refine identity_inStep.bind fun k id id' hk hid => .pure fun k' hk' => ⟨⟨?_, ?_, ?_⟩, ?_⟩
  · exact fun i hi => (hid.1 i hi).trans_le hk'
  · exact ha.below.mono (hk.trans hk')
  · exact hb.below.mono (hk.trans hk')
  · rw [hid.2, ha.eq, hb.eq, Value.rename]

variable (hρ : Function.Injective ρ)

include ha hρ in
theorem log_inStep :
    InStep ρ n (Value.Renamed ρ) (Primitive.perform owner .log [a]) (Primitive.perform owner .log [a']) := by
  simp only [Primitive.perform, (Likeness.renamed hρ n).display_eq ha]
  refine .ofExcept_bind _ fun line _ => ?_
  exact .modifyRealm_bind owner (fun k r r' _ hr => ⟨hr.globals, hr.files, by rw [hr.log]⟩)
    (.pure fun k _ => ⟨trivial, rfl⟩)

include ha hρ in
theorem slurp_inStep :
    InStep ρ n (Value.Renamed ρ) (Primitive.perform owner .slurp [a]) (Primitive.perform owner .slurp [a']) := by
  simp only [Primitive.perform, (Likeness.renamed hρ n).string_eq ha]
  refine .ofExcept_bind _ fun name _ => .get_bind fun w w' _ hw => ?_
  rw [(hw.realm owner).files]
  split <;> exact .pure fun k _ => ⟨trivial, rfl⟩

include ha hb hρ in
theorem spit_inStep :
    InStep ρ n (Value.Renamed ρ) (Primitive.perform owner .spit [a, b]) (Primitive.perform owner .spit [a', b']) := by
  simp only [Primitive.perform, (Likeness.renamed hρ n).string_eq ha, (Likeness.renamed hρ n).string_eq hb]
  refine .ofExcept_bind _ fun name _ => .ofExcept_bind _ fun text _ => ?_
  exact .modifyRealm_bind owner (fun k r r' _ hr => ⟨hr.globals, by rw [hr.files], hr.log⟩)
    (.pure fun k hk => hb.mono hk)

end

section
variable (hρ : Function.Injective ρ) {vs vs' : List Value} (h : List.Forall₂ (Value.Renamed ρ n) vs vs')
include hρ h

theorem perform_inStep (owner : Owner) (p : Primitive) :
    InStep ρ n (Value.Renamed ρ) (p.perform owner vs) (p.perform owner vs') := by
  fun_cases Primitive.perform owner p vs with
  | case1 a b =>
    obtain _ | ⟨ha, _ | ⟨hb, _ | _⟩⟩ := h
    exact cons_inStep ha hb
  | case2 a =>
    obtain _ | ⟨ha, _ | _⟩ := h
    exact log_inStep ha hρ
  | case3 a =>
    obtain _ | ⟨ha, _ | _⟩ := h
    exact slurp_inStep ha hρ
  | case4 a b =>
    obtain _ | ⟨ha, _ | ⟨hb, _ | _⟩⟩ := h
    exact spit_inStep ha hb hρ
  | case5 _ _ hcons hlog hslurp hspit =>
    -- the other side has as many operands, so that it is no proper application either
    rw [h.length_eq]
    fun_cases Primitive.perform owner p vs' with
    | case1 =>
      obtain _ | ⟨_, _ | ⟨_, _ | _⟩⟩ := h
      exact (hcons _ _ rfl rfl).elim
    | case2 =>
      obtain _ | ⟨_, _ | _⟩ := h
      exact (hlog _ rfl rfl).elim
    | case3 =>
      obtain _ | ⟨_, _ | _⟩ := h
      exact (hslurp _ rfl rfl).elim
    | case4 =>
      obtain _ | ⟨_, _ | ⟨_, _ | _⟩⟩ := h
      exact (hspit _ _ rfl rfl).elim
    | case5 => exact .throw _

theorem primitive_inStep (owner : Owner) (p : Primitive) :
    InStep ρ n (Value.Renamed ρ) (p.apply owner vs) (p.apply owner vs') := by
  unfold Primitive.apply
  have hresult := (Likeness.renamed hρ n).result? h p
  generalize p.result? vs = r at hresult
  generalize p.result? vs' = r' at hresult
  cases hresult with
  | none => exact perform_inStep hρ h owner p
  | some hr =>
    cases hr with
    | ok hv => exact .pure fun k hk => hv.mono hk
    | error failure => exact .throw failure

end

/-! ### Forms and applications -/

theorem nameOperand_rename (form : SpecialForm) (v : Value) : nameOperand form (v.rename ρ) = nameOperand form v := by
  have htext := v.text_rename ρ
  cases v with
  | pair | closure | sequence => simp only [nameOperand, Value.rename] at htext ⊢; rw [htext]
  | _ => rfl

theorem parameters_rename (v : Value) : parameters (v.rename ρ) = parameters v := by
  have hname : nameOperand .abstraction ∘ Value.rename ρ = nameOperand .abstraction :=
    funext (nameOperand_rename .abstraction)
  rw [parameters, parameters, v.isList_rename, v.items_rename, v.text_rename, List.mapM_map, hname]

theorem form?_rename (v : Value) : form? (v.rename ρ) = form? v := by cases v <;> rfl

theorem lookup_inStep {s : Scope} (hs : s.Below n) (x : String) :
    InStep ρ n (Value.Renamed ρ) (lookup s x) (lookup (s.rename ρ) x) := by
  unfold lookup
  rw [s.find?_rename, s.owner_rename]
  cases hfind : s.find? x with
  | some v => exact .pure fun k hk => ⟨(hs.find? hfind).mono hk, rfl⟩
  | none =>
    refine .get_bind fun w w' _ hw => ?_
    have hglobal := (hw.realm s.owner).globals.find? x
    generalize (w.realm s.owner).globals.find? x = bound at hglobal
    generalize (w'.realm s.owner).globals.find? x = bound' at hglobal
    cases hglobal with
    | some hv => exact .pure fun k hk => hv.mono hk
    | none => exact .throw _

/-- The second evaluator goes along with the first, whatever the identities. -/
def Follows (ρ : Nat → Nat) (evaluate evaluate' : Evaluator) : Prop :=
  ∀ n s e, s.Below n → e.Below n → InStep ρ n (Value.Renamed ρ) (evaluate s e) (evaluate' (s.rename ρ) (e.rename ρ))

section
variable {evaluate evaluate' : Evaluator} (hev : Follows ρ evaluate evaluate') {s : Scope} (hs : s.Below n)
include hev hs

theorem branch_inStep {test : Value} (htest : test.Below n) {yes no yes' no' : Eval Value}
    (hyes : ∀ k, n ≤ k → InStep ρ k (Value.Renamed ρ) yes yes')
    (hno : ∀ k, n ≤ k → InStep ρ k (Value.Renamed ρ) no no') :
    InStep ρ n (Value.Renamed ρ) (evaluate s test >>= fun v => if v.isTruthy then yes else no)
      (evaluate' (s.rename ρ) (test.rename ρ) >>= fun v => if v.isTruthy then yes' else no') := by
  refine (hev n s test hs htest).bind fun k v v' hk hv => ?_
  rw [hv.eq, v.isTruthy_rename]
  split
  · exact hyes k hk
  · exact hno k hk

theorem enter_inStep (form : SpecialForm) {operands : List Value} (hoperands : ∀ e ∈ operands, e.Below n) :
    InStep ρ n (Value.Renamed ρ) (enter evaluate s form operands)
      (enter evaluate' (s.rename ρ) form (operands.map (Value.rename ρ))) := by
  by_cases hlength : operands.length = form.operands
  · cases form with
    | condition =>
      obtain ⟨test, yes, no, rfl⟩ := List.length_eq_three.1 hlength
      exact branch_inStep hev hs (hoperands _ (by simp))
        (fun k hk => hev k s yes (hs.mono hk) ((hoperands _ (by simp)).mono hk))
        (fun k hk => hev k s no (hs.mono hk) ((hoperands _ (by simp)).mono hk))
    | conjunction =>
      obtain ⟨a, b, rfl⟩ := List.length_eq_two.1 hlength
      exact branch_inStep hev hs (hoperands _ (by simp))
        (fun k hk => hev k s b (hs.mono hk) ((hoperands _ (by simp)).mono hk))
        (fun _ _ => .pure fun _ _ => ⟨trivial, rfl⟩)
    | disjunction =>
      obtain ⟨a, b, rfl⟩ := List.length_eq_two.1 hlength
      exact branch_inStep hev hs (hoperands _ (by simp)) (fun _ _ => .pure fun _ _ => ⟨trivial, rfl⟩)
        (fun k hk => hev k s b (hs.mono hk) ((hoperands _ (by simp)).mono hk))
    | definition =>
      obtain ⟨name, e, rfl⟩ := List.length_eq_two.1 hlength
      simp only [List.map_cons, List.map_nil, enter, nameOperand_rename, s.owner_rename]
      refine .ofExcept_bind _ fun x _ => (hev n s e hs (hoperands _ (by simp))).bind fun k v v' _ hv => ?_
      exact .modifyRealm_bind _ (fun k' r r' hk' hr => ⟨hr.globals.insert x (hv.mono hk'), hr.files, hr.log⟩)
        (.pure fun k' hk' => hv.mono hk')
    | binding =>
      obtain ⟨name, e, body, rfl⟩ := List.length_eq_three.1 hlength
      simp only [List.map_cons, List.map_nil, enter, nameOperand_rename]
      refine .ofExcept_bind _ fun x _ => (hev n s e hs (hoperands _ (by simp))).bind fun k v v' hk hv => ?_
      have hscope : (s.extend [x] [v]).Below k := (hs.mono hk).extend [x] (by simpa using hv.below)
      have hbody := hev k _ body hscope ((hoperands _ (by simp)).mono hk)
      rwa [s.extend_rename, List.map_singleton, ← hv.eq] at hbody
    | abstraction =>
      obtain ⟨params, body, rfl⟩ := List.length_eq_two.1 hlength
      simp only [List.map_cons, List.map_nil, enter, parameters_rename]
      refine .ofExcept_bind _ fun names _ => identity_inStep.bind fun k id id' hk hid => .pure fun k' hk' =>
        ⟨⟨?_, ?_, ?_⟩, ?_⟩
      · exact fun i hi => (hid.1 i hi).trans_le hk'
      · exact (hoperands _ (by simp)).mono (hk.trans hk')
      · exact hs.mono (hk.trans hk')
      · rw [hid.2, Value.rename]
  · rw [enter_of_length_ne hlength, enter_of_length_ne (by rwa [List.length_map]), List.length_map]
    exact .throw _

end

section
variable (hρ : Function.Injective ρ) {evaluate evaluate' : Evaluator} (hev : Follows ρ evaluate evaluate')
include hρ hev

theorem apply_inStep {f f' : Value} {vs vs' : List Value} (hf : f.Renamed ρ n f')
    (hvs : List.Forall₂ (Value.Renamed ρ n) vs vs') :
    InStep ρ n (Value.Renamed ρ) (apply evaluate f vs) (apply evaluate' f' vs') := by
  obtain ⟨hbelow, rfl⟩ := hf
  have hother : f.isFunction = false →
      InStep ρ n (Value.Renamed ρ) (apply evaluate f vs) (apply evaluate' (f.rename ρ) vs') := by
    intro hfun
    have hfun' : (f.rename ρ).isFunction = false := by cases f <;> first | rfl | cases hfun
    rw [apply_eq_throw hfun, apply_eq_throw hfun', f.text_rename]
    exact .ofExcept_bind _ fun text _ => .throw _
  cases f with
  | primitive owner p => exact primitive_inStep hρ hvs owner p
  | closure id params body s =>
    obtain ⟨rfl, hall⟩ := Value.Renamed.forall₂ hvs
    rw [Value.rename]
    simp only [apply, List.length_map]
    split
    · have hbody := hev n _ body (hbelow.2.2.extend params hall) hbelow.2.1
      rwa [s.extend_rename] at hbody
    · exact .throw _
  | _ => exact hother rfl

/-- One level of evaluation goes along with another if the evaluation of parts does. -/
theorem step_follows : Follows ρ (step evaluate) (step evaluate') := by
  intro n s e hs he
  cases e with
  | symbol name => exact lookup_inStep hs name
  | pair id head tail =>
    cases helements : tail.elements with
    | error failure =>
      simp only [Value.rename, step, tail.elements_rename, helements]
      exact .throw failure
    | ok operands =>
      have hlist : tail.isList = true := by
        by_contra hlist
        exact elements_ne_ok (Bool.eq_false_iff.2 hlist) operands helements
      have hitems : ∀ item ∈ tail.items, item.Below n := fun item hitem => he.2.2.item hitem
      rw [Value.rename, step_pair hlist, step_pair (tail.isList_rename.trans hlist), form?_rename, tail.items_rename]
      cases form? head with
      | some form => exact enter_inStep hev hs form hitems
      | none =>
        refine (hev n s head hs he.2.1).bind fun k f f' hk hf => ?_
        rw [List.mapM_map]
        refine (InStep.mapM fun e he k' hk' => ?_).bind fun k' vs vs' hk' hvs => apply_inStep hρ hev (hf.mono hk') hvs
        exact hev k' s e (hs.mono (hk.trans hk')) ((hitems e he).mono (hk.trans hk'))
  | _ => exact .pure fun k hk => ⟨he.mono hk, rfl⟩

end

/-- Evaluation does not depend on identities, but for those of what it makes. -/
theorem eval_renamed (hρ : Function.Injective ρ) (depth : Nat) :
    Follows ρ (Lisplet.eval depth) (Lisplet.eval depth) := by
  induction depth with
  | zero => exact fun _ _ _ _ _ => .throw _
  | succ depth ih => exact step_follows hρ ih

end Eval

end Lisplet
