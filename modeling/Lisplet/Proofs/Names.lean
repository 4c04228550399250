import Lisplet.Proofs.Batches
import Lisplet.Proofs.Congruence

/-!
# Names stay bound

`create_performAll_chained`: in every session, the tables of the history from the oldest on and then the
table in use bind more and more names, and all of them bind the primitives. Undo puts an older table in
the place of the one in use, so this holds of the chain as a whole (`Session.Chained`), with the table of
the primitives at its end. Within a piece of code a name stays bound from any point on: where evaluation is
broken off (`evalUntil`) no name is bound that is not bound at the end of the whole (`Interrupts`).
-/

namespace Lisplet

theorem Globals.names_library (owner : Owner) : Primitive.all.map Primitive.name ⊆ (Globals.library owner).names := by
  intro name hname
  refine NameMap.mem_names_ofList ?_
  simpa using hname

/-! ### Evaluation that is broken off -/

/-- Evaluation that is broken off where `stop` says so, when an expression at any depth is about to be
evaluated. -/
def evalUntil (stop : Nat → Scope → Value → World → Bool) : (depth : Nat) → Evaluator
  | 0 => fun _ _ => throw .exhausted
  | depth + 1 => fun s e w =>
    if stop depth s e w then .error .exhausted w else Eval.step (evalUntil stop depth) s e w

/-- Never broken off, it is evaluation. -/
theorem evalUntil_never : evalUntil (fun _ _ _ _ => false) = eval := by
  funext depth
  induction depth with
  | zero => rfl
  | succ depth ih =>
    rw [evalUntil, eval, ih]
    rfl

/-- The state in which a run ends, with a result or without. -/
def finalState {ε σ α : Type} : EStateM.Result ε σ α → σ
  | .ok _ s => s
  | .error _ s => s

section
variable {ε σ α β : Type} {p : σ → Prop}

theorem Meets.finalState {post : α → Prop} {fails : ε → Prop} {m : EStateM ε σ α} (h : Meets p post fails m) {s : σ}
    (hs : p s) : p (finalState (m s)) := by
  have h := h s hs
  cases hres : m s with
  | ok a t => rw [hres] at h; exact h.1
  | error e t => rw [hres] at h; exact h.1

/-- The first computation is the second one, perhaps broken off; if `p` holds then, it holds at the end of the
second one, which keeps it. -/
structure Interrupts (p : σ → Prop) (m m' : EStateM ε σ α) : Prop where
  keeps : Meets p (fun _ => True) (fun _ => True) m'
  ends : ∀ s, m s = m' s ∨ ∃ e t, m s = .error e t ∧ (p t → p (finalState (m' s)))

namespace Interrupts

theorem refl {m : EStateM ε σ α} (h : Meets p (fun _ => True) (fun _ => True) m) : Interrupts p m m :=
  ⟨h, fun _ => .inl rfl⟩

theorem bind {m m' : EStateM ε σ α} {f f' : α → EStateM ε σ β} (hm : Interrupts p m m')
    (hf : ∀ a, Interrupts p (f a) (f' a)) : Interrupts p (m >>= f) (m' >>= f') := by
  refine ⟨hm.keeps.bind fun a _ => (hf a).keeps, fun s => ?_⟩
  show EStateM.bind m f s = EStateM.bind m' f' s ∨
    ∃ e t, EStateM.bind m f s = .error e t ∧ (p t → p (Lisplet.finalState (EStateM.bind m' f' s)))
  unfold EStateM.bind
  rcases hm.ends s with heq | ⟨e, t, herror, hp⟩
  · rw [heq]
    cases m' s with
    | ok a t => exact (hf a).ends t
    | error e t => exact .inl rfl
  · -- broken off in the first part: the second one still runs, and keeps `p`
    rw [herror]
    refine .inr ⟨e, t, rfl, fun ht => ?_⟩
    have ht := hp ht
    cases hres : m' s with
    | ok a t' =>
      rw [hres] at ht
      exact (hf a).keeps.finalState ht
    | error e t' =>
      rw [hres] at ht
      exact ht

end Interrupts

end

open Session (bound)

/-- Computations that leave every name bound, perhaps broken off. -/
def Eval.interrupting (name : String) : Congruence where
  rel m m' := Interrupts (bound name).state m m'
  bind hm hf := hm.bind hf
  ofExcept x := .refl (.ofExcept (by cases x <;> trivial))
  lookup s x := .refl ((bound name).lookup_keeps trivial)
  define owner x v := .refl (.modify_bind (fun _ => World.exists_find?_withGlobal) (.pure trivial))
  identity := .refl fun w hw => ⟨(bound name).state_next hw, trivial⟩
  primitive owner p operands := .refl ((bound name).primitive_keeps fun _ _ => trivial)

theorem evalUntil_interrupts (name : String) (stop : Nat → Scope → Value → World → Bool) (depth : Nat) (s : Scope)
    (e : Value) : Interrupts (bound name).state (evalUntil stop depth s e) (eval depth s e) := by
  induction depth generalizing s e with
  | zero => exact .refl (.throw trivial)
  | succ depth ih =>
    have hstep : Interrupts _ (Eval.step (evalUntil stop depth) s e) (Eval.step (eval depth) s e) :=
      (Eval.interrupting name).step ih s e
    refine ⟨hstep.keeps, fun w => ?_⟩
    rw [evalUntil]
    dsimp only
    split
    · exact .inr ⟨_, w, rfl, hstep.keeps.finalState⟩
    · exact hstep.ends w

namespace Session

theorem after_map {α β : Type} (m : SessionM α) (g : α → β) (s : Session) :
    s.after (m >>= fun a => pure (g a)) = s.after m := by
  cases h : m s with
  | ok a t => rw [after_congr (bind_of_ok h), after_eq h]; rfl
  | error failure t => rw [after, after, bind_of_error h, h]

/-! ### Code -/

/-- A step for each expression, which evaluates the expression at top level if it `starts` that, and changes
nothing else. -/
structure Evaluates {α : Type} (starts : Session → Value → Prop) (m : Value → SessionM α) : Prop where
  started : ∀ s e, starts s e →
    s.after (m e) = { s with world := finalState (Lisplet.eval s.limit (.global .session) e s.world) }
  idle : ∀ s e, ¬ starts s e → s.after (m e) = s

theorem evaluates_evalExpr : Evaluates (fun _ _ => True) evalExpr where
  started s e _ := by
    unfold after evalExpr
    cases Lisplet.eval s.limit (.global .session) e s.world <;> rfl
  idle s e h := absurd trivial h

theorem evaluates_record : Evaluates Writes record where
  started s e hwrites := by
    rw [← evaluates_evalExpr.started s e trivial, after, after, record_of_writes hwrites]
    cases evalExpr e s with
    | ok v t => rfl
    | error failure t =>
      dsimp only
      cases failure.isBreakdown <;> rfl
  idle s e hwrites := by rw [after, record_of_not_writes hwrites]

/-- A state of the world that is passed when expressions are evaluated one by one: in the midst of one of
them whose evaluation was started, when those before it are done. -/
def Passes {α : Type} (starts : Session → Value → Prop) (m : Value → SessionM α) (es : List Value) (s : Session)
    (w : World) : Prop :=
  ∃ done e rest as t stop, es = done ++ e :: rest ∧ done.mapM m s = .ok as t ∧ starts t e ∧
    w = finalState (evalUntil stop t.limit (.global .session) e t.world)

section
variable {α : Type} {starts : Session → Value → Prop} {m : Value → SessionM α} (hm : Evaluates starts m)
  {s : Session} {name : String} {e : Value} {es : List Value} {w : World}

theorem Binds.mapM_cons (h : (s.after (m e)).Binds name)
    (hrest : ∀ t : Session, t.Binds name → (t.after (es.mapM m)).Binds name) :
    (s.after ((e :: es).mapM m)).Binds name := by
  rw [List.mapM_cons]
  cases hres : m e s with
  | ok a t =>
    rw [after, hres] at h
    rw [after_congr (bind_of_ok hres), after_map]
    exact hrest t h
  | error failure t =>
    rw [after, hres] at h
    rw [after, bind_of_error hres]
    exact h

include hm

theorem Binds.mapM (h : s.Binds name) (es : List Value) : (s.after (es.mapM m)).Binds name := by
  induction es generalizing s with
  | nil => exact h
  | cons e es ih =>
    have heval : Meets (bound name).state _ _ _ := (bound name).eval s.limit (.global .session) e trivial trivial
    refine Binds.mapM_cons ?_ fun t ht => ih ht
    by_cases hstarts : starts s e
    · rw [hm.started s e hstarts]
      exact heval.finalState h
    · rwa [hm.idle s e hstarts]

/-- A name that is bound at any point is bound in the end. -/
theorem Passes.binds (h : Passes starts m es s w) (hw : (bound name).state w) : (s.after (es.mapM m)).Binds name := by
  obtain ⟨done, e, rest, as, t, stop, rfl, hdone, hstarts, rfl⟩ := h
  rw [List.mapM_append, after_congr (bind_of_ok hdone), after_map]
  refine Binds.mapM_cons ?_ fun u hu => hu.mapM hm rest
  rw [hm.started t e hstarts]
  rcases (evalUntil_interrupts name stop t.limit (.global .session) e).ends t.world with heq | ⟨failure, u, herror, hu⟩
  · rwa [heq] at hw
  · rw [herror] at hw
    exact hu hw

theorem Passes.names_subset (h : Passes starts m es s w) :
    w.session.globals.names ⊆ (s.after (es.mapM m)).globals.names :=
  fun _ hx => NameMap.mem_names.2 (h.binds hm (NameMap.mem_names.1 hx))

end

/-! ### Tables -/

/-- The older table binds no more names than the newer one. -/
def Extends (newer older : Globals) : Prop := older.names ⊆ newer.names

theorem Extends.trans {t t' t'' : Globals} (h : Extends t t') (h' : Extends t' t'') : Extends t t'' :=
  List.Subset.trans h' h

/-- From the table in use back through the history to the primitives, no table binds a name that a newer one
does not bind. -/
def Chained (s : Session) : Prop := (s.globals :: (s.history ++ [Globals.library .session])).Pairwise Extends

section
variable {s : Session} {code : String}

theorem extends_perform_eval (s : Session) (code : String) :
    Extends (Call.perform s (.eval code)).globals s.globals := by
  intro name hname
  have hwithin : (bound name).Within s (Call.perform s (.eval code)) :=
    Invariant.perform_eval (NameMap.mem_names.1 hname) fun _ _ e _ => .of_code trivial trivial
  exact NameMap.mem_names.2 hwithin.1

theorem extends_perform_run (hreads : s.reads code) : Extends (Call.perform s (.run code)).globals s.globals := by
  intro name hname
  have hwithin : (bound name).Within _ (Call.perform s (.run code)) :=
    Invariant.perform_run (NameMap.mem_names.1 hname) (fun _ _ e _ => .of_code trivial trivial) hreads
  exact NameMap.mem_names.2 hwithin.1

theorem Extends.pairwise_cons {t t' : Globals} {ts : List Globals} (ht : Extends t' t)
    (h : (t :: ts).Pairwise Extends) :
    (t' :: t :: ts).Pairwise Extends := by
  refine List.pairwise_cons.2 ⟨List.forall_mem_cons.2 ⟨ht, fun older holder => ht.trans ?_⟩, h⟩
  exact (List.pairwise_cons.1 h).1 older holder

/-- Evaluation replaces the table in use by a newer one, a batch puts one on top, and undo takes it away again. -/
theorem Chained.perform (hs : s.Chained) {c : Call} (hc : ∀ globals, c ≠ .restore globals) : (c.perform s).Chained := by
  have hhistory := history_perform (s := s) (c := c)
  cases c with
  | eval code =>
    rw [Chained, hhistory]
    exact ((extends_perform_eval s code).pairwise_cons hs).sublist ((List.sublist_cons_self ..).cons_cons _)
  | run code =>
    by_cases hreads : s.reads code
    · rw [Chained, hhistory, Call.isEffective, if_pos hreads]
      exact (extends_perform_run hreads).pairwise_cons hs
    · rw [perform_run_idle (by simpa using hreads)]
      exact hs
  | undo =>
    cases hbefore : s.history with
    | nil =>
      have hundo : Call.perform s .undo = s := by simp only [Call.perform, undo, hbefore]
      rwa [hundo]
    | cons globals history =>
      rw [Chained, hbefore] at hs
      rw [Call.perform, undo_eq hbefore]
      exact (List.pairwise_cons.1 hs).2
  | restore globals => exact absurd rfl (hc globals)
  | dump | userDefines => exact hs

theorem Chained.performAll (hs : s.Chained) {calls : List Call} (hcalls : ∀ globals, Call.restore globals ∉ calls) :
    (s.performAll calls).Chained := by
  induction calls generalizing s with
  | nil => exact hs
  | cons c calls ih =>
    have hc : (c.perform s).Chained := hs.perform fun globals hc => hcalls globals (hc ▸ List.mem_cons_self ..)
    exact ih hc fun globals hmem => hcalls globals (List.mem_cons_of_mem _ hmem)

theorem chained_create {settings : Settings} {wanted : Option Int} {files : NameMap String}
    (h : create settings wanted files code = .ok s) : s.Chained := by
  obtain ⟨limit, hlimit⟩ := exists_limit_of_create h
  have hfresh : (fresh limit settings.strictNumbers files).Chained := by
    simp [Chained, fresh, globals, World.ofRealm, Realm.fresh, Extends]
  have heval := hfresh.perform (c := .eval code) (by simp)
  rw [Session.create, hlimit] at h
  dsimp only at h
  split at h
  · next hres =>
    cases h
    rwa [Call.perform, after_eq hres] at heval
  · cases h

end

/-- The tables of a session bind more and more names, from the primitives through the history to the table in
use, whatever code was evaluated, failed or was undone; and a name that is bound at any point of a piece of
code is bound at its end. -/
theorem create_performAll_chained (settings : Settings) (wanted : Option Int) (files : NameMap String) (start : String)
    (s₀ : Session) (hcreate : create settings wanted files start = .ok s₀) (calls : List Call)
    (hcalls : ∀ globals, Call.restore globals ∉ calls) :
    let s := s₀.performAll calls
    let builtins := Primitive.all.map Primitive.name
    (builtins.Nodup ∧ builtins.length = 30 ∧ builtins ⊆ s.globals.names) ∧
    ((s.history.reverse ++ [s.globals]).map NameMap.names).Pairwise (· ⊆ ·) ∧
    ∀ code es, s.parse code = .ok es →
      (∀ w, Passes (fun _ _ => True) evalExpr es s w →
        w.session.globals.names ⊆ (Call.perform s (.eval code)).globals.names) ∧
      ∀ w, Passes Writes record es { s with history := s.globals :: s.history } w →
        w.session.globals.names ⊆ (Call.perform s (.run code)).globals.names := by
  have hs : (s₀.performAll calls).Chained := (chained_create hcreate).performAll hcalls
  generalize s₀.performAll calls = s at hs
  have hlibrary : Extends s.globals (.library .session) := (List.pairwise_cons.1 hs).1 _ (by simp)
  refine ⟨⟨by decide, by decide, List.Subset.trans (Globals.names_library .session) hlibrary⟩, ?_,
    fun code es hparse => ⟨?_, ?_⟩⟩
  · have htables : (s.globals :: s.history).Pairwise Extends :=
      hs.sublist ((List.sublist_append_left ..).cons_cons _)
    rw [List.pairwise_map, ← List.reverse_cons, List.pairwise_reverse]
    exact htables
  · intro w hw
    have heval : eval code s = es.mapM evalExpr s := by rw [eval_eq, hparse]
    rw [Call.perform, after_congr heval]
    exact hw.names_subset evaluates_evalExpr
  · intro w hw
    have hrun : run code s = es.mapM record { s with history := s.globals :: s.history } := by
      obtain ⟨done, e, rest, as, t, stop, rfl, -⟩ := hw
      rw [run_eq, hparse]
      cases done <;> rfl
    rw [Call.perform, after_congr hrun]
    exact hw.names_subset evaluates_record

/-- A primitive is overwritten, a batch and an evaluation fail in part, and a batch is undone. -/
theorem create_performAll_chained_undone :
    ∃ s₀, create ⟨10, false, "", 0⟩ none ∅ "(define head null)" = .ok s₀ ∧
      let s := s₀.performAll [.run "(define x 1) (y)", .eval "(define z 2) y", .run "(define u 3)", .undo]
      "head" ∈ s.globals.names ∧ ((s.history.reverse ++ [s.globals]).map NameMap.names).Pairwise (· ⊆ ·) := by
  have hok : (create ⟨10, false, "", 0⟩ none ∅ "(define head null)").isOk := by decide +kernel
  cases hcreate : create ⟨10, false, "", 0⟩ none ∅ "(define head null)" with
  | ok s₀ =>
    obtain ⟨⟨-, -, hbuiltins⟩, hchain, -⟩ := create_performAll_chained _ none ∅ _ s₀ hcreate
      [.run "(define x 1) (y)", .eval "(define z 2) y", .run "(define u 3)", .undo] (by simp)
    exact ⟨s₀, rfl, hbuiltins (by decide), hchain⟩
  | error failure =>
    rw [hcreate] at hok
    cases hok

end Session

end Lisplet
