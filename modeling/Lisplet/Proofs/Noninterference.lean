import Lisplet.Proofs.Alike
import Lisplet.Proofs.Calls

/-!
# Lexical scope

`evalIn_indistinguishable`: what an expression does depends on a scope only through the names that
occur in the expression. Two evaluations in scopes that agree on these names show the same, and leave
sessions that are alike (`Session.Alike`): functions that were made may have captured different frames,
but no later use of the sessions, however long, tells them apart (`Session.Alike.indistinguishable`).
-/

namespace Lisplet

namespace Session

/-! ### What clients see -/

/-- What shows of a realm: the names of its table with their texts, its files and its log. -/
structure View where
  globals : List (String × Except Failure String)
  files : NameMap String
  log : List String

def view (s : Session) (owner : Owner) : View :=
  let r := s.world.realm owner
  ⟨r.globals.entries.map fun d => (d.1, d.2.text), r.files, r.log⟩

/-- What shows of a step: its result or failure, and the session behind it. -/
def seen {α β : Type} (shows : α → β) (m : SessionM α) (s : Session) : Except Failure β × (Owner → View) :=
  match m s with
  | .ok a s' => (.ok (shows a), s'.view)
  | .error failure s' => (.error failure, s'.view)

/-- The text of an expression of a batch, with its failure or the text of its value. -/
def showOutcome (o : Outcome) : String × Except Failure (Except Failure String) := (o.text, o.result.map Value.text)

/-- Whatever is done with them next shows the same. -/
structure Indistinguishable (s s' : Session) : Prop where
  view : s.view = s'.view
  expression : ∀ e, s.seen Value.text (evalExpr e) = s'.seen Value.text (evalExpr e)
  eval : ∀ code, s.seen (List.map Value.text) (Session.eval code) = s'.seen (List.map Value.text) (Session.eval code)
  run : ∀ code, s.seen (List.map showOutcome) (Session.run code) = s'.seen (List.map showOutcome) (Session.run code)
  undo : s.undo.1 = s'.undo.1
  dump : s.dump = s'.dump

/-- One use of a session. -/
inductive Use where
  | expression (e : Value)
  | call (c : Call)

def Use.perform (s : Session) : Use → Session
  | .expression e => s.after (evalExpr e)
  | .call c => c.perform s

def useAll (s : Session) (uses : List Use) : Session := uses.foldl Use.perform s

/-- Evaluates an expression in a scope. -/
def evalIn (depth : Nat) (scope : Scope) (e : Value) : SessionM Value := fun s =>
  match Lisplet.eval depth scope e s.world with
  | .ok v world => .ok v { s with world }
  | .error failure world => .error failure { s with world }

/-- Whether an expression is evaluated in the one scope or in the other shows neither then nor later. -/
structure SameIn (s : Session) (depth : Nat) (e : Value) (scope scope' : Scope) : Prop where
  now : s.seen Value.text (evalIn depth scope e) = s.seen Value.text (evalIn depth scope' e)
  later : ∀ uses, Indistinguishable ((s.after (evalIn depth scope e)).useAll uses)
    ((s.after (evalIn depth scope' e)).useAll uses)

/-! ### Sessions that are alike -/

structure Alike (s s' : Session) : Prop where
  world : s.world.Alike s'.world
  history : List.Forall₂ (NameMap.Matches Value.Alike) s.history s'.history
  limit : s.limit = s'.limit
  strict : s.strict = s'.strict

theorem Alike.refl (s : Session) : s.Alike s where
  world := .refl _
  history := List.forall₂_same.2 fun _ _ => .refl .refl _
  limit := rfl
  strict := rfl

variable {s s' : Session}

theorem Alike.withWorld (h : s.Alike s') {w w' : World} (hw : w.Alike w') :
    Alike { s with world := w } { s' with world := w' } :=
  ⟨hw, h.history, h.limit, h.strict⟩

theorem Alike.globals (h : s.Alike s') : NameMap.Matches Value.Alike s.globals s'.globals :=
  (h.world.realm .session).globals

theorem map_eq_of_forall₂ {α β : Type} {rel : α → α → Prop} {f : α → β} (hf : ∀ a a', rel a a' → f a = f a')
    {as as' : List α} (h : List.Forall₂ rel as as') : as.map f = as'.map f := by
  induction h with
  | nil => rfl
  | cons h _ ih => rw [List.map_cons, List.map_cons, hf _ _ h, ih]

theorem Alike.view_eq (h : s.Alike s') : s.view = s'.view := by
  funext owner
  have hrealm := h.world.realm owner
  have hglobals := map_eq_of_forall₂ (f := fun d => (d.1, d.2.text)) (fun d d' hd => by rw [hd.1, hd.2.text_eq])
    hrealm.globals
  rw [view, view, hglobals, hrealm.files, hrealm.log]

theorem Alike.parse_eq (h : s.Alike s') (code : String) : s.parse code = s'.parse code := by
  rw [parse, parse, h.limit, h.strict]

section
variable {α β : Type} {post : α → α → Prop} {m m' : SessionM α}

theorem Alike.seen_eq (h : s.Alike s') (hm : Coupled Alike post m m') {shows : α → β}
    (hshows : ∀ a a', post a a' → shows a = shows a') : s.seen shows m = s'.seen shows m' := by
  have hends := hm s s' h
  unfold seen
  generalize m s = r at hends
  generalize m' s' = r' at hends
  cases hends with
  | ok hs ha => simp only [hshows _ _ ha, hs.view_eq]
  | error failure hs => simp only [hs.view_eq]

theorem Alike.after (h : s.Alike s') (hm : Coupled Alike post m m') : (s.after m).Alike (s'.after m') := by
  have hends := hm s s' h
  unfold Session.after
  generalize m s = r at hends
  generalize m' s' = r' at hends
  cases hends with
  | ok hs _ => exact hs
  | error _ hs => exact hs

end

/-! ### Evaluation -/

theorem evalIn_coupled (depth : Nat) {scope scope' : Scope} {e : Value} (h : scope.Agree e.symbols scope') :
    Coupled Alike Value.Alike (evalIn depth scope e) (evalIn depth scope' e) := by
  intro s s' hs
  have hends := Simulation.alike.eval depth scope scope' e h s.world s'.world hs.world
  unfold evalIn
  generalize Lisplet.eval depth scope e s.world = r at hends
  generalize Lisplet.eval depth scope' e s'.world = r' at hends
  cases hends with
  | ok hw hv => exact .ok (hs.withWorld hw) hv
  | error failure hw => exact .error failure (hs.withWorld hw)

theorem evalExpr_eq (e : Value) (s : Session) :
    evalExpr e s =
      match evalIn s.limit (.global .session) e s with
      | .ok v s' => .ok v s'
      | .error failure s' => .error (failure.report .evaluating s.limit) s' := by
  unfold evalExpr evalIn
  cases Lisplet.eval s.limit (.global .session) e s.world <;> rfl

theorem evalExpr_coupled (e : Value) : Coupled Alike Value.Alike (evalExpr e) (evalExpr e) := by
  intro s s' hs
  have hscope : Scope.Agree e.symbols (.global .session) (.global .session) := .of_find?_eq rfl fun _ _ => rfl
  have hends := evalIn_coupled s.limit hscope s s' hs
  rw [evalExpr_eq, evalExpr_eq, ← hs.limit]
  generalize evalIn s.limit (.global .session) e s = r at hends
  generalize evalIn s.limit (.global .session) e s' = r' at hends
  cases hends with
  | ok hs hv => exact .ok hs hv
  | error failure hs => exact .error _ hs

theorem record_coupled (e : Value) :
    Coupled Alike (fun o o' => showOutcome o = showOutcome o') (record e) (record e) := by
  intro s s' hs
  have hends := evalExpr_coupled e s s' hs
  have hroom : s.Writes e ↔ s'.Writes e := by rw [Writes, Writes, hs.limit]
  by_cases hwrites : s.Writes e
  · rw [record_of_writes hwrites, record_of_writes (hroom.1 hwrites)]
    generalize evalExpr e s = r at hends
    generalize evalExpr e s' = r' at hends
    cases hends with
    | ok hs hv => exact .ok hs (by simp only [showOutcome, Except.map, hv.text_eq])
    | error failure hs =>
      dsimp only
      split
      · exact .error failure hs
      · exact .ok hs rfl
  · rw [record_of_not_writes hwrites, record_of_not_writes (mt hroom.2 hwrites)]
    exact .error _ hs

theorem eval_coupled (code : String) :
    Coupled Alike (List.Forall₂ Value.Alike) (Session.eval code) (Session.eval code) := by
  intro s s' hs
  rw [eval_eq, eval_eq, ← hs.parse_eq]
  cases s.parse code with
  | error failure => exact .error failure hs
  | ok es => exact Coupled.mapM (fun e _ => evalExpr_coupled e) s s' hs

theorem run_coupled (code : String) :
    Coupled Alike (List.Forall₂ fun o o' => showOutcome o = showOutcome o') (Session.run code) (Session.run code) := by
  intro s s' hs
  rw [run_eq, run_eq, ← hs.parse_eq]
  cases s.parse code with
  | error failure => exact .error failure hs
  | ok es =>
    cases es with
    | nil => exact .ok hs .nil
    | cons e es =>
      exact Coupled.mapM (fun e _ => record_coupled e) _ _ ⟨hs.world, .cons hs.globals hs.history, hs.limit, hs.strict⟩

/-! ### Uses -/

theorem Alike.withGlobals (h : s.Alike s') {globals globals' : Globals}
    (hglobals : NameMap.Matches Value.Alike globals globals') :
    (s.withGlobals globals).Alike (s'.withGlobals globals') :=
  h.withWorld (h.world.modifyRealm .session fun _ _ hr => ⟨hglobals, hr.files, hr.log⟩)

theorem Alike.undo (h : s.Alike s') : s.undo.1 = s'.undo.1 ∧ s.undo.2.Alike s'.undo.2 := by
  have hhistory := h.history
  unfold Session.undo
  generalize s.history = tables at hhistory
  generalize s'.history = tables' at hhistory
  cases hhistory with
  | nil => exact ⟨rfl, h⟩
  | cons hglobals hrest =>
    have hback := h.withGlobals hglobals
    exact ⟨rfl, hback.world, hrest, hback.limit, hback.strict⟩

theorem Alike.perform (h : s.Alike s') (u : Use) : (u.perform s).Alike (u.perform s') := by
  cases u with
  | expression e => exact h.after (evalExpr_coupled e)
  | call c =>
    cases c with
    | eval code => exact h.after (eval_coupled code)
    | run code => exact h.after (run_coupled code)
    | undo => exact h.undo.2
    | restore globals => exact h.withGlobals (.refl .refl _)
    | dump | userDefines => exact h

theorem Alike.useAll (h : s.Alike s') (uses : List Use) : (s.useAll uses).Alike (s'.useAll uses) := by
  induction uses generalizing s s' with
  | nil => exact h
  | cons u uses ih => exact ih (h.perform u)

theorem Alike.dump_eq (h : s.Alike s') : s.dump = s'.dump := by
  have hdefines : List.Forall₂ (fun d d' => d.1 = d'.1 ∧ d.2.Alike d'.2) s.userDefines s'.userDefines := by
    refine List.rel_filter ?_ h.globals
    rintro ⟨name, v⟩ ⟨name', v'⟩ ⟨-, hv⟩
    simp only [hv.isPrimitive_eq]
  exact definitions_eq (hdefines.imp fun d d' hd => ⟨hd.1, hd.2.text_eq⟩)

theorem Alike.indistinguishable (h : s.Alike s') : Indistinguishable s s' where
  view := h.view_eq
  expression e := h.seen_eq (evalExpr_coupled e) fun _ _ hv => hv.text_eq
  eval code := h.seen_eq (eval_coupled code) fun _ _ hvs => map_eq_of_forall₂ (fun _ _ hv => hv.text_eq) hvs
  run code := h.seen_eq (run_coupled code) fun _ _ hos => map_eq_of_forall₂ (fun _ _ ho => ho) hos
  undo := h.undo.1
  dump := h.dump_eq

theorem SameIn.of_agree {depth : Nat} {e : Value} {scope scope' : Scope} (h : scope.Agree e.symbols scope') :
    SameIn s depth e scope scope' where
  now := (Alike.refl s).seen_eq (evalIn_coupled depth h) fun _ _ hv => hv.text_eq
  later uses := (((Alike.refl s).after (evalIn_coupled depth h)).useAll uses).indistinguishable

/-- What an expression does depends on a scope only through the names that occur in it: in scopes over
the same globals that agree on these names it does the same, now and later. So bindings of other names
never matter. -/
theorem evalIn_indistinguishable (s : Session) (depth : Nat) (e : Value) (scope scope' : Scope)
    (howner : scope.owner = scope'.owner) (hagree : ∀ x ∈ e.symbols, scope.find? x = scope'.find? x) :
    SameIn s depth e scope scope' ∧
      ∀ names values, (∀ x ∈ names, x ∉ e.symbols) → SameIn s depth e (scope.extend names values) scope := by
  refine ⟨.of_agree (.of_find?_eq howner hagree), fun names values hnames => .of_agree (.of_find?_eq ?_ ?_)⟩
  · exact Scope.owner_extend scope names values
  · intro x hx
    have hfree : (NameMap.ofList (names.zip values)).find? x = none := by
      by_contra hbound
      obtain ⟨v, hv⟩ := Option.ne_none_iff_exists'.1 hbound
      have hmem := NameMap.mem_ofList (NameMap.find?_eq_some_iff.1 hv)
      exact hnames x (List.of_mem_zip hmem).1 hx
    rw [Scope.find?_extend, hfree, Option.none_or]

/-- A function that stays behind in the table has captured one frame or another. -/
theorem evalIn_indistinguishable_captured :
    let s := fresh 20 false ∅
    let e := Value.ofList [.symbol "define", .symbol "f", .ofList [.symbol "function", .nil, .symbol "x"]]
    let scope := (Scope.global .session).extend ["x"] [.bool true]
    let scope' := (Scope.global .session).extend ["y", "x"] [.string "local", .bool true]
    (scope.owner = scope'.owner ∧ ∀ x ∈ e.symbols, scope.find? x = scope'.find? x) ∧
      scope.find? "y" ≠ scope'.find? "y" ∧
      SameIn s 20 e scope scope' ∧ SameIn s 20 e (scope.extend ["z"] [.nil]) scope := by
  intro s e scope scope'
  have hagree : ∀ x ∈ e.symbols, scope.find? x = scope'.find? x := by decide
  have hsame := evalIn_indistinguishable s 20 e scope scope' rfl hagree
  exact ⟨⟨rfl, hagree⟩, by decide, hsame.1, hsame.2 ["z"] [.nil] (by decide)⟩

end Session

end Lisplet
