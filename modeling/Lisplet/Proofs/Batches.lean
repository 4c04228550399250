import Lisplet.Proofs.Declared
import Lisplet.Proofs.History
import Lisplet.Proofs.Joining
import Lisplet.Proofs.Safety

/-!
# Batches in turn

`run_joined`: two pieces of code with a blank between them are run as one batch like the first and
then the second, but for the history, which has one table for both, and as long as no batch breaks down
(`Joins`). The expressions of the joined code are those of its parts (`parse_joined`), and no expression of
a batch looks at the history (`batch_history`), so that the second half does not see that no table was kept
before it. A batch breaks down at an expression that there is no room to write, and then leaves out all that
stands behind it, which is still run if it is a batch of its own (`run_joined_unwritten`).
-/

namespace Lisplet

/-! ### Reading -/

section
variable {options : ReadOptions} {first second : String} {blank : Char} {vs us : List Value}

theorem readAll_of_readText {text : String} (h : readText options text = .ok vs) :
    let readings := readAll options text.length ⟨options.room, []⟩ (Lexeme.scan 0 text.toList)
    readings.failure = none ∧ readings.values = vs := by
  rw [readText, Reader.all_eq] at h
  dsimp only at h ⊢
  split at h
  · cases h
  · next hfailure => exact ⟨hfailure, Except.ok.inj h⟩

/-- Two texts that are read, with a blank between them, are read as the values of both. -/
theorem readText_joined (hblank : Text.isBlank blank = true) (hfirst : readText options first = .ok vs)
    (hsecond : readText options second = .ok us) :
    readText options (first ++ String.singleton blank ++ second) = .ok (vs ++ us) := by
  obtain ⟨hfailure, rfl⟩ := readAll_of_readText hfirst
  obtain ⟨hfailure', rfl⟩ := readAll_of_readText hsecond
  have htext : (first ++ String.singleton blank ++ second).toList = first.toList ++ blank :: second.toList := by simp
  have hlength : (first ++ String.singleton blank ++ second).length = second.length + (first.toList.length + 1) := by
    rw [← String.length_toList, ← String.length_toList, htext, List.length_append, List.length_cons]
    omega
  rw [readText, Reader.all_eq, htext, hlength, Lexeme.scan_append_blank (isUnclosed_of_readAll hfailure) hblank,
    readAll_append rfl hfailure, Lexeme.scan_add, readAll_shift]
  simp only [Readings.shift, hfailure', Option.map_none]

end

/-! ### Steps that a change of the state does not matter to -/

section
variable {ε σ α β : Type} {u : σ → σ}

/-- A result with its state changed. -/
def mapState (u : σ → σ) : EStateM.Result ε σ α → EStateM.Result ε σ α
  | .ok a s => .ok a (u s)
  | .error e s => .error e (u s)

/-- It makes no difference whether the state is changed by `u` before the step or after it. -/
def Commutes (u : σ → σ) (m : EStateM ε σ α) : Prop := ∀ s, m (u s) = mapState u (m s)

theorem Commutes.bind {m : EStateM ε σ α} {f : α → EStateM ε σ β} (hm : Commutes u m) (hf : ∀ a, Commutes u (f a)) :
    Commutes u (m >>= f) := by
  intro s
  show EStateM.bind m f _ = mapState u (EStateM.bind m f s)
  unfold EStateM.bind
  rw [hm]
  cases m s with
  | ok a t => exact hf a t
  | error e t => rfl

theorem Commutes.mapM {f : α → EStateM ε σ β} (hf : ∀ a, Commutes u (f a)) {as : List α} : Commutes u (as.mapM f) := by
  induction as with
  | nil => exact fun s => rfl
  | cons a as ih =>
    rw [List.mapM_cons]
    exact (hf a).bind fun b => ih.bind fun bs s => rfl

end

namespace Session

section
variable {s : Session} {first second : String} {blank : Char} {es es' : List Value}

theorem parse_joined (hblank : Text.isBlank blank = true) (hfirst : s.parse first = .ok es)
    (hsecond : s.parse second = .ok es') :
    s.parse (first ++ String.singleton blank ++ second) = .ok (es ++ es') := by
  rw [parse, readText_joined hblank (readText_of_parse hfirst) (readText_of_parse hsecond)]
  rfl

end

/-! ### The history -/

theorem evalExpr_history (history : List Globals) (e : Value) :
    Commutes (fun s => { s with history }) (evalExpr e) := by
  intro s
  unfold evalExpr
  dsimp only
  cases Lisplet.eval s.limit (.global .session) e s.world <;> rfl

theorem record_commutes {u : Session → Session} {e : Value} (h : Commutes u (evalExpr e))
    (hlimit : ∀ s, (u s).limit = s.limit) : Commutes u (record e) := by
  intro s
  have hroom : (u s).Writes e ↔ s.Writes e := by rw [Writes, Writes, hlimit]
  by_cases hwrites : s.Writes e
  · rw [record_of_writes hwrites, record_of_writes (hroom.2 hwrites), h s]
    cases evalExpr e s with
    | ok v t => rfl
    | error failure t =>
      dsimp only [mapState]
      split <;> rfl
  · rw [record_of_not_writes hwrites, record_of_not_writes (mt hroom.1 hwrites)]
    rfl

/-- A batch neither looks at the history nor changes it. -/
theorem batch_history (history : List Globals) (es : List Value) :
    Commutes (fun s => { s with history }) (es.mapM record) :=
  .mapM fun e => record_commutes (evalExpr_history history e) fun _ => rfl

/-! ### Batches -/

section
variable {s s₁ : Session} {code : String} {es : List Value}

theorem after_eq {α : Type} {m : SessionM α} {a : α} (h : m s = .ok a s₁) : s.after m = s₁ := by
  rw [after, h]

theorem undo_eq {globals : Globals} {history : List Globals} (h : s.history = globals :: history) :
    s.undo = (true, { s.withGlobals globals with history }) := by
  rw [undo, h]

theorem exists_undo {globals : Globals} {history : List Globals} (h : s.history = globals :: history) :
    ∃ t, s.undo = (true, t) ∧ t.globals = globals ∧ t.history = history :=
  ⟨_, undo_eq h, rfl, rfl⟩

/-- A batch leaves the table from before it in the history, also if it breaks down. -/
theorem history_after_run (hreads : s.reads code) : (s.after (run code)).history = s.globals :: s.history := by
  have hhistory := history_perform (s := s) (c := .run code)
  rwa [Call.isEffective, if_pos hreads] at hhistory

theorem parse_after_run (code code' : String) : (s.after (run code)).parse code' = s.parse code' :=
  parse_perform (c := .run code) code'

/-- In a session over text, code that is read is run to its end if there is room to write its expressions, and
else up to the first one for which there is none. -/
theorem Native.run_ends (hs : s.Native) (hparse : s.parse code = .ok es) :
    ((∃ outcomes t, Session.run code s = .ok outcomes t) ↔ ∀ e ∈ es, s.Writes e) ∧
      ∀ failure t, Session.run code s = .error failure t → failure = .exhausted := by
  have hres := hs.run_of_parse hparse
  cases hrun : Session.run code s with
  | ok outcomes t =>
    obtain ⟨es', u, hparse', hlimit, hbatch⟩ := run_eq_ok hrun
    obtain rfl : es' = es := Except.ok.inj (hparse'.symm.trans hparse)
    have hroom : ∀ e ∈ es', u.Writes e := ((List.forall₂_and_left _ _).1 (batch_records hbatch)).1
    exact ⟨⟨fun _ e he => (hroom e he).trans_eq hlimit, fun _ => ⟨_, _, rfl⟩⟩, fun failure t h => by cases h⟩
  | error failure t =>
    rw [hrun] at hres
    obtain ⟨rfl, e, he, hroom⟩ := hres
    refine ⟨⟨?_, fun h => absurd (h e he) hroom⟩, ?_⟩
    · rintro ⟨outcomes, t, h⟩
      cases h
    · rintro failure t ⟨⟩
      rfl

end

section
variable {s : Session} {first second : String} {blank : Char} (hblank : Text.isBlank blank = true)
  (hfirst : s.reads first) (hsecond : s.reads second)

include hblank hfirst hsecond

theorem run_joined_eq :
    run (first ++ String.singleton blank ++ second) s =
      match run first s with
      | .error failure s₁ => .error failure s₁
      | .ok outcomes s₁ =>
        match run second s₁ with
        | .ok outcomes' s₂ => .ok (outcomes ++ outcomes') { s₂ with history := s₁.history }
        | .error failure s₂ => .error failure { s₂ with history := s₁.history } := by
  obtain ⟨e, es, hparse⟩ := reads_iff.1 hfirst
  obtain ⟨e', es', hparse'⟩ := reads_iff.1 hsecond
  have hrun : run first s = (e :: es).mapM record { s with history := s.globals :: s.history } := by rw [run_eq, hparse]
  have hjoined : run (first ++ String.singleton blank ++ second) s =
      (e :: es ++ e' :: es').mapM record { s with history := s.globals :: s.history } := by
    rw [run_eq, parse_joined hblank hparse hparse']
    rfl
  -- the joined batch is the first one, and then the rest of the expressions
  rw [hjoined, List.mapM_append]
  show EStateM.bind _ _ _ = _
  unfold EStateM.bind
  rw [← hrun]
  cases hres : run first s with
  | error failure s₁ => rfl
  | ok outcomes s₁ =>
    have hparse₁ : s₁.parse second = .ok (e' :: es') := by
      rw [← after_eq hres, parse_after_run, hparse']
    have hrun' : run second s₁ = (e' :: es').mapM record { s₁ with history := s₁.globals :: s₁.history } := by
      rw [run_eq, hparse₁]
    -- the rest runs as a batch of its own, but for the table that it does not keep
    have hrest : (e' :: es').mapM record s₁ = mapState (fun t => { t with history := s₁.history }) (run second s₁) := by
      rw [hrun', ← batch_history]
    show EStateM.bind _ _ _ = _
    unfold EStateM.bind
    rw [hrest]
    dsimp only
    cases run second s₁ <;> rfl

end

/-- Two pieces of code that hold the expressions `es` and `es'`, run as one batch `joined` instead of in turn. -/
structure Joins (s : Session) (es es' : List Value) (first second joined : String) : Prop where
  /-- Two batches that come to their ends make one that gives the outcomes of both and leaves the same session, but
  for the history. -/
  results : ∀ outcomes₁ s₁ outcomes₂ s₂, run first s = .ok outcomes₁ s₁ → run second s₁ = .ok outcomes₂ s₂ →
    run joined s = .ok (outcomes₁ ++ outcomes₂) { s₂ with history := s₁.history }
  /-- Where the first half breaks down, so does the joined batch: nothing of the second half is done. -/
  first_breaks : ∀ failure s₁, run first s = .error failure s₁ → run joined s = .error failure s₁
  second_breaks : ∀ outcomes₁ s₁ failure s₂, run first s = .ok outcomes₁ s₁ → run second s₁ = .error failure s₂ →
    run joined s = .error failure { s₂ with history := s₁.history }
  /-- The history has one table more instead of two. -/
  history : (s.after (run joined)).history = s.globals :: s.history ∧
    ((s.after (run first)).after (run second)).history = (s.after (run first)).globals :: s.globals :: s.history
  undone : ∃ u u₁ u₂, (s.after (run joined)).undo = (true, u) ∧
    ((s.after (run first)).after (run second)).undo = (true, u₁) ∧ u₁.undo = (true, u₂) ∧ u.globals = u₂.globals
  /-- In a session over text the batches come to their ends if there is room to write all expressions. -/
  ends : s.Native → (∀ e ∈ es ++ es', s.Writes e) →
    ∃ outcomes₁ s₁ outcomes₂ s₂, run first s = .ok outcomes₁ s₁ ∧ run second s₁ = .ok outcomes₂ s₂
  /-- Else the stack is exhausted. -/
  overflows : s.Native → (∃ e ∈ es ++ es', ¬ s.Writes e) → ∃ t, run joined s = .error .exhausted t

/-- Two pieces of code, each of at least one expression, are run as one batch with a blank between them like the two
batches in turn, but for the history, as long as none of them breaks down. -/
theorem run_joined (s : Session) (first second : String) (blank : Char) (hblank : Text.isBlank blank = true)
    {e e' : Value} {es es' : List Value} (hfirst : s.parse first = .ok (e :: es))
    (hsecond : s.parse second = .ok (e' :: es')) :
    s.Joins (e :: es) (e' :: es') first second (first ++ String.singleton blank ++ second) := by
  have hparse := parse_joined hblank hfirst hsecond
  have hreads₁ : s.reads first := reads_iff.2 ⟨_, _, hfirst⟩
  have hreads₂ : s.reads second := reads_iff.2 ⟨_, _, hsecond⟩
  have hreads : s.reads (first ++ String.singleton blank ++ second) := reads_iff.2 ⟨_, _, hparse⟩
  have hreads' : (s.after (run first)).reads second := by rwa [reads, parse_after_run]
  have hjoined := run_joined_eq hblank hreads₁ hreads₂
  have hhistory := history_after_run hreads
  have hhistory' := (history_after_run hreads').trans (congrArg _ (history_after_run hreads₁))
  refine ⟨fun outcomes₁ s₁ outcomes₂ s₂ hrun₁ hrun₂ => ?_, fun failure s₁ hrun => ?_,
    fun outcomes₁ s₁ failure s₂ hrun₁ hrun₂ => ?_, ⟨hhistory, hhistory'⟩, ?_, fun hs hroom => ?_, fun hs hroom => ?_⟩
  · simp only [hjoined, hrun₁, hrun₂]
  · rw [hjoined, hrun]
  · simp only [hjoined, hrun₁, hrun₂]
  · obtain ⟨u, hundo, hglobals, -⟩ := exists_undo hhistory
    obtain ⟨u₁, hundo₁, -, hhistory₁⟩ := exists_undo hhistory'
    obtain ⟨u₂, hundo₂, hglobals₂, -⟩ := exists_undo hhistory₁
    exact ⟨u, u₁, u₂, hundo, hundo₁, hundo₂, hglobals.trans hglobals₂.symm⟩
  · obtain ⟨outcomes, t, hrun⟩ := (hs.run_ends hparse).1.2 hroom
    rw [hjoined] at hrun
    cases hrun₁ : run first s with
    | error failure s₁ => simp [hrun₁] at hrun
    | ok outcomes₁ s₁ =>
      cases hrun₂ : run second s₁ with
      | error failure s₂ => simp [hrun₁, hrun₂] at hrun
      | ok outcomes₂ s₂ => exact ⟨outcomes₁, s₁, outcomes₂, s₂, rfl, hrun₂⟩
  · obtain ⟨hiff, hfails⟩ := hs.run_ends hparse
    cases hrun : run (first ++ String.singleton blank ++ second) s with
    | ok outcomes t =>
      obtain ⟨e, he, hwrites⟩ := hroom
      exact absurd (hiff.1 ⟨outcomes, t, hrun⟩ e he) hwrites
    | error failure t => exact ⟨t, by rw [hfails failure t hrun]⟩

/-- The first batch fails in part and redefines what the second, on a new line, looks at. -/
theorem run_joined_redefined :
    let s := fresh 9 false ∅
    let es := [Value.ofList [.symbol "define", .symbol "x", .bool true], .symbol "y"]
    let es' := [Value.ofList [.symbol "define", .symbol "x", .nil], .symbol "x"]
    s.parse "(define x true) y" = .ok es ∧ s.parse "(define x null) x" = .ok es' ∧ ∃ outcomes₁ s₁ outcomes₂ s₂,
      run "(define x true) y" s = .ok outcomes₁ s₁ ∧ run "(define x null) x" s₁ = .ok outcomes₂ s₂ ∧
      run "(define x true) y\n(define x null) x" s =
        .ok (outcomes₁ ++ outcomes₂) { s₂ with history := s₁.history } := by
  intro s es es'
  have hfirst : s.parse "(define x true) y" = .ok es := by decide +kernel
  have hsecond : s.parse "(define x null) x" = .ok es' := by decide +kernel
  have hjoined := run_joined s _ _ '\n' (by decide) hfirst hsecond
  have hroom : ∀ e ∈ es ++ es', s.Writes e := by decide
  obtain ⟨outcomes₁, s₁, outcomes₂, s₂, hrun₁, hrun₂⟩ := hjoined.ends (Tables.fresh Globals.native_library ..) hroom
  exact ⟨hfirst, hsecond, outcomes₁, s₁, outcomes₂, s₂, hrun₁, hrun₂, hjoined.results _ _ _ _ hrun₁ hrun₂⟩

end Session

/-- A symbol inside of so many lists. -/
def Value.nested (name : String) : Nat → Value
  | 0 => .symbol name
  | n + 1 => .ofList [nested name n]

namespace Value

theorem readable_nested {name : String} (h : ReadableName name) : ∀ n, (nested name n).Readable
  | 0 => .symbol name h
  | n + 1 => .pair none _ _ (readable_nested h n) .nil rfl

theorem nesting_nested (name : String) : ∀ n, (nested name n).nesting = n
  | 0 => rfl
  | n + 1 => by
    show max ((nested name n).nesting + 1) 0 = n + 1
    rw [nesting_nested name n, Nat.max_zero]

theorem reread_nested (name : String) : ∀ n, (nested name n).reread = nested name n
  | 0 => rfl
  | n + 1 => by
    show Value.pair none (nested name n).reread .nil = _
    rw [reread_nested name n]
    rfl

end Value

namespace Session

/-- A list that there is room to read but not to write: its value is found without a look at what is nested in it, but a
batch breaks down before that, and what stands behind the list in the same batch is not evaluated. -/
theorem run_joined_unwritten :
    let s := fresh leastLimit false ∅
    let e := Value.ofList [.symbol "and", .bool false, .nested "x" 500]
    let first := String.ofList e.render
    let joined := first ++ String.singleton '\n' ++ "(define y null)"
    s.parse first = .ok [e] ∧ evalExpr e s = .ok (.bool false) s ∧
      (∃ s₁, run first s = .error .exhausted s₁) ∧ ((s.after (run first)).after (run "(define y null)")).Binds "y" ∧
      (∃ t, run joined s = .error .exhausted t) ∧ ¬ (s.after (run joined)).Binds "y" := by
  intro s e first joined
  have hname : ReadableName "x" := ⟨by decide, by simp; decide, by decide, by decide, by decide⟩
  have hreadable : e.Readable :=
    .pair _ _ _ (.symbol _ (SpecialForm.readableName .conjunction))
      (.pair _ _ _ (.bool false) (.pair _ _ _ (Value.readable_nested hname 500) .nil rfl) rfl) rfl
  have hnesting : e.nesting = 501 := by
    show max 1 (max 1 (max ((Value.nested "x" 500).nesting + 1) 0)) = 501
    rw [Value.nesting_nested]
    rfl
  have hreread : e.reread = e := by
    show Value.ofList [.symbol "and", .bool false, (Value.nested "x" 500).reread] = e
    rw [Value.reread_nested]
  have hparse : s.parse first = .ok [e] := by
    have hroom : e.nesting ≤ s.limit := hnesting.trans_le (by decide)
    rw [parse, hreadable.readText_render s.strict hroom, hreread]
    rfl
  have hwrites : ¬ s.Writes e := by
    rw [Writes, hreadable.writeDepth_eq, hnesting]
    decide
  have hrun : run first s = .error .exhausted { s with history := s.globals :: s.history } := by
    rw [run_eq, hparse]
    exact bind_of_error (record_of_not_writes hwrites)
  have hjoined : run joined s = .error .exhausted { s with history := s.globals :: s.history } := by
    rw [run_joined_eq (by decide) (reads_iff.2 ⟨_, _, hparse⟩) (by decide +kernel), hrun]
  have hsecond : ((({ s with history := s.globals :: s.history } : Session).after (run "(define y null)")).globals.find?
      "y").isSome := by
    decide +kernel
  refine ⟨hparse, rfl, ⟨_, hrun⟩, ?_, ⟨_, hjoined⟩, ?_⟩
  · rw [show s.after (run first) = { s with history := s.globals :: s.history } by rw [after, hrun]]
    exact Option.isSome_iff_exists.1 hsecond
  · rw [show s.after (run joined) = { s with history := s.globals :: s.history } by rw [after, hjoined]]
    rintro ⟨v, hv⟩
    have hnone : s.globals.find? "y" = none := by decide +kernel
    cases hnone.symm.trans hv

end Session

end Lisplet
