import Lisplet.Proofs.Balance
import Lisplet.Proofs.Replay
import Lisplet.Proofs.Resolution

/-!
# What functions capture, as code

`Session.eval_captured`: the text of a function with the bindings that it captured, evaluated at top level,
makes a function in whose scope a name means what the captured frames say, or else what it means globally.
The frames are written as one row of nested forms, the outermost binding outermost (`Scope.wrap_eq`). Each
form adds a frame of one binding when it is evaluated (`eval_bound`). So a session needs a limit for as many
forms within forms as there are bindings; one with less gives up, while it reads or while it evaluates.
-/

namespace Lisplet

/-! ### Texts that nest too deeply -/

section
variable {options : ReadOptions} {finish : Nat} {f : Forest} {ls rest : List Lexeme} {n : Nesting}

/-- The reader gives up in a forest that nests deeper than lists may still be opened. -/
theorem readAll_exhausted (hroom : n.room + n.opened.length = options.room) (hls : ls.map (·.token) = f.tokens)
    (hs : f.Sound options.strict) (hd : n.room < f.depth) :
    (readAll options finish n (ls ++ rest)).failure = some .exhausted := by
  induction f generalizing ls rest n with
  | nil => exact absurd hd (Nat.not_lt_zero _)
  | string body next ih =>
    obtain ⟨l, ls, rfl, hl, hls⟩ := List.map_eq_cons_iff.1 hls
    obtain ⟨n', hlen, hleft, heq⟩ := readAll_deliver finish (ls ++ rest) (Nesting.accept_quoted hl) hroom
    rw [List.cons_append, heq]
    exact ih (by rw [hlen, hleft, hroom]) hls hs.of_string (by rwa [hleft])
  | literal cs next ih =>
    obtain ⟨l, ls, rfl, hl, hls⟩ := List.map_eq_cons_iff.1 hls
    obtain ⟨n', hlen, hleft, heq⟩ :=
      readAll_deliver finish (ls ++ rest) (Nesting.accept_literal hl hs.of_literal.1) hroom
    rw [List.cons_append, heq]
    exact ih (by rw [hlen, hleft, hroom]) hls hs.of_literal.2 (by rwa [hleft])
  | list inner next ihInner ihNext =>
    obtain ⟨o, ls₁, c, ls₂, rfl, ho, h₁, hc, h₂⟩ := Forest.split_list hls
    obtain ⟨room, opened⟩ := n
    cases room with
    | zero => simp only [List.cons_append, readAll, Nesting.accept, ho]
    | succ room =>
      have hopen : (⟨room, [] :: opened⟩ : Nesting).room + (⟨room, [] :: opened⟩ : Nesting).opened.length =
          options.room := by
        simp only [List.length_cons] at hroom ⊢
        omega
      simp only [List.cons_append, List.append_assoc, readAll, Nesting.accept_opening ho]
      by_cases hinner : room < inner.depth
      · exact ihInner hopen h₁ hs.of_list.1 hinner
      · rw [readAll_inside h₁ hs.of_list.1 (Nat.not_lt.1 hinner)]
        obtain ⟨n', hlen, hleft, heq⟩ := readAll_deliver finish (ls₂ ++ rest) (Nesting.accept_closing hc) hroom
        rw [heq]
        refine ihNext (by rw [hlen, hleft, hroom]) h₂ hs.of_list.2 ?_
        rw [hleft]
        simp only [Forest.depth] at hd ⊢
        omega

theorem readText_exhausted {text : String} (hf : (Lexeme.scan 0 text.toList).map (·.token) = f.tokens)
    (hs : f.Sound options.strict) (hd : options.room < f.depth) : readText options text = .error .exhausted := by
  refine readText_error ?_
  rw [← List.append_nil (Lexeme.scan 0 text.toList)]
  exact readAll_exhausted rfl hf hs hd

end

/-! ### Frames written down -/

namespace Scope

theorem flatten_frames_bind (x : String) (v : Value) (rest : Scope) :
    (bind x v rest).frames.flatten = (x, v) :: rest.frames.flatten := by
  rw [frames]
  cases rest.frames <;> rfl

theorem flatten_frames_extend (s : Scope) (x : String) (v : Value) :
    (s.extend [x] [v]).frames.flatten = (x, v) :: s.frames.flatten :=
  flatten_frames_bind x v (.enter s)

/-- The bindings of all frames are written one around the other, the innermost one innermost. -/
theorem wrap_eq (text : List Char) : ∀ s : Scope,
    s.wrap text = s.frames.flatten.foldl (fun text b => letText b.1 (b.2.write true false) text) text
  | .global _ => by rw [wrap, frames]; rfl
  | .enter outer => by rw [wrap, frames, List.flatten_cons, List.nil_append, wrap_eq text outer]
  | .bind x v rest => by rw [wrap, flatten_frames_bind, List.foldl_cons, wrap_eq _ rest]

theorem fault?_eq_none : ∀ s : Scope, (∀ b ∈ s.frames.flatten, b.2.fault? (.source true) = none) → s.fault? = none
  | .global _, _ => by rw [fault?]
  | .enter outer, h => by
    rw [fault?]
    exact fault?_eq_none outer h
  | .bind x v rest, h => by
    rw [flatten_frames_bind, List.forall_mem_cons] at h
    rw [fault?, fault?_eq_none rest h.2, h.1, Option.none_or]

theorem flatten_frames_nested (x : String) (v : Value) (base : Scope) (n : Nat) :
    ((List.replicate n x).foldr (fun x s => s.extend [x] [v]) base).frames.flatten =
      List.replicate n (x, v) ++ base.frames.flatten := by
  induction n with
  | zero => rfl
  | succ n ih => rw [List.replicate_succ, List.foldr_cons, flatten_frames_extend, ih]; rfl

theorem lookup_flatten_frames (x : String) (s : Scope) :
    s.frames.flatten.lookup x = s.frames.findSome? (List.lookup x) := by
  induction s.frames with
  | nil => rfl
  | cons frame outer ih =>
    rw [List.flatten_cons, List.lookup_append, List.findSome?_cons, ih]
    cases List.lookup x frame <;> rfl

end Scope

/-- A binding of a readable name to a readable constant. -/
structure Capturable (b : String × Value) : Prop where
  name : ReadableName b.1
  readable : b.2.Readable
  constant : b.2.isConstant

/-- An expression inside a form for each binding, the first binding innermost. -/
def Value.bound (e : Value) (bindings : List (String × Value)) : Value :=
  bindings.foldl (fun e b => .ofList [.symbol SpecialForm.binding.keyword, .symbol b.1, b.2.reread, e]) e

/-- The forest of a form that binds a name. -/
def Forest.binding (b : String × Value) (f : Forest) : Forest :=
  .list (.literal SpecialForm.binding.keyword.toList (.literal b.1.toList (b.2.before f))) .nil

theorem letText_eq (name : String) (value body : List Char) :
    letText name value body =
      '(' :: (SpecialForm.binding.keyword.toList ++ ' ' :: name.toList ++ ' ' :: value ++ ' ' :: body ++ [')']) := by
  have hhead : "(let ".toList = '(' :: (SpecialForm.binding.keyword.toList ++ [' ']) := by decide
  unfold letText
  rw [hhead]
  simp only [List.append_assoc, List.cons_append, List.nil_append]

/-- A forest inside a form for each binding. -/
def Forest.bound (f : Forest) (bindings : List (String × Value)) : Forest :=
  bindings.foldl (fun f b => .binding b f) f

/-- A scope with a frame for each binding, the first binding innermost. -/
def Scope.rebound (base : Scope) (bindings : List (String × Value)) : Scope :=
  bindings.foldr (fun b s => s.extend [b.1] [b.2.reread]) base

section
variable {b : String × Value} (hb : Capturable b)
include hb

theorem spells_binding {text : List Char} {f : Forest} (hf : Spells text f.tokens) :
    Spells (letText b.1 (b.2.write true false) text) (Forest.binding b f).tokens := by
  have hblank : Text.isBlank ' ' := by decide
  have hword := (SpecialForm.readableName .binding).spells
  have hform := (((hword.blank hblank hb.name.spells).blank hblank hb.readable.spells).blank hblank hf).list
  rw [letText_eq, Value.write_constant hb.constant]
  simpa only [Forest.binding, Forest.tokens, b.2.tokens_before f, List.append_assoc, List.cons_append,
    List.nil_append] using hform

theorem values_binding {e : Value} {f : Forest} (hf : f.values = [e]) :
    (Forest.binding b f).values = [.ofList [.symbol SpecialForm.binding.keyword, .symbol b.1, b.2.reread, e]] := by
  rw [Forest.binding, Forest.values, Forest.values, Forest.values, Forest.values, hb.readable.values_before.1, hf,
    (literalValue_symbol (SpecialForm.readableName _)).1, (literalValue_symbol hb.name).1]

theorem sound_binding {strict : Bool} {f : Forest} (hf : f.Sound strict) : (Forest.binding b f).Sound strict := by
  have hvalue := (hb.readable.sound_before strict).1 f hf
  refine .list (.literal (literalValue_symbol (SpecialForm.readableName _)).2 ?_) fun cs hcs => by cases hcs
  exact .literal (literalValue_symbol hb.name).2 hvalue

theorem depth_binding (f : Forest) : (Forest.binding b f).depth = f.depth + 1 := by
  simp only [Forest.binding, Forest.depth, hb.readable.depth_before.1, Value.nesting_constant hb.constant, Nat.zero_max,
    Nat.max_zero]

end

section
variable {bindings : List (String × Value)} (hbindings : ∀ b ∈ bindings, Capturable b)
include hbindings

theorem spells_bound {text : List Char} {f : Forest} (hf : Spells text f.tokens) :
    Spells (bindings.foldl (fun text b => letText b.1 (b.2.write true false) text) text) (f.bound bindings).tokens := by
  induction bindings generalizing text f with
  | nil => exact hf
  | cons b bindings ih =>
    obtain ⟨hb, hbindings⟩ := List.forall_mem_cons.1 hbindings
    rw [List.foldl_cons, Forest.bound, List.foldl_cons]
    exact ih hbindings (spells_binding hb hf)

theorem values_bound {e : Value} {f : Forest} (hf : f.values = [e]) :
    (f.bound bindings).values = [e.bound bindings] := by
  induction bindings generalizing e f with
  | nil => exact hf
  | cons b bindings ih =>
    obtain ⟨hb, hbindings⟩ := List.forall_mem_cons.1 hbindings
    exact ih hbindings (values_binding hb hf)

theorem sound_bound {strict : Bool} {f : Forest} (hf : f.Sound strict) : (f.bound bindings).Sound strict := by
  induction bindings generalizing f with
  | nil => exact hf
  | cons b bindings ih =>
    obtain ⟨hb, hbindings⟩ := List.forall_mem_cons.1 hbindings
    exact ih hbindings (sound_binding hb hf)

theorem depth_bound (f : Forest) : (f.bound bindings).depth = bindings.length + f.depth := by
  induction bindings generalizing f with
  | nil => exact (Nat.zero_add _).symm
  | cons b bindings ih =>
    obtain ⟨hb, hbindings⟩ := List.forall_mem_cons.1 hbindings
    rw [Forest.bound, List.foldl_cons, ← Forest.bound, ih hbindings, depth_binding hb, List.length_cons]
    omega

/-- The forms are evaluated to the frames that they stand for. -/
theorem eval_bound (depth : Nat) (base : Scope) (e : Value) (w : World) :
    Lisplet.eval (bindings.length + (depth + 1)) base (e.bound bindings) w =
      Lisplet.eval (depth + 1) (base.rebound bindings) e w := by
  induction bindings generalizing depth e with
  | nil => rw [List.length_nil, Nat.zero_add]; rfl
  | cons b bindings ih =>
    obtain ⟨hb, hbindings⟩ := List.forall_mem_cons.1 hbindings
    -- the hypothesis takes off the forms outside; the innermost is left, with a level more for its value
    rw [List.length_cons, Nat.succ_add_eq_add_succ]
    refine (ih hbindings (depth + 1) _).trans ?_
    exact bind_of_ok (Value.eval_constant (Value.isConstant_reread hb.constant) depth _ w)

end

namespace Scope

theorem owner_rebound (base : Scope) (bindings : List (String × Value)) :
    (base.rebound bindings).owner = base.owner := by
  induction bindings with
  | nil => rfl
  | cons b bindings ih => exact (owner_extend _ [b.1] [b.2.reread]).trans ih

theorem find?_rebound (owner : Owner) (bindings : List (String × Value)) (x : String) :
    ((global owner).rebound bindings).find? x = (bindings.lookup x).map Value.reread := by
  induction bindings with
  | nil => rfl
  | cons b bindings ih =>
    rw [rebound, List.foldr_cons, ← rebound, find?_extend, ih, NameMap.find?_ofList, List.lookup_cons]
    by_cases hx : x = b.1
    · simp [lastValue?, hx]
    · simp [lastValue?, Ne.symm hx, beq_false_of_ne hx]

end Scope

/-! ### Functions with their bindings -/

/-- What a function is made of, if code can make it with what it captured. -/
structure Recreatable (params : List String) (body : Value) (captured : Scope) : Prop where
  params : ∀ x ∈ params, ReadableName x
  body : body.Readable
  captured : ∀ frame ∈ captured.frames, ∀ b ∈ frame, Capturable b

section
variable (params : List String) (body : Value) (captured : Scope)

/-- The expression that makes a function with its bindings. -/
def functionRecipe : Value := (Value.closure none params body (.global .session)).recipe.bound captured.frames.flatten

/-- The forest of the text of a function with its bindings. -/
def functionForest : Forest :=
  (Value.closure none params body (.global .session)).recipeForest.bound captured.frames.flatten

/-- How deeply the lists nest in the text of a function with its bindings. -/
def functionNesting : Nat := captured.frames.flatten.length + max 2 (body.nesting + 1)

end

namespace Recreatable

variable {params : List String} {body : Value} {captured : Scope} (h : Recreatable params body captured)
include h

theorem capturable : ∀ b ∈ captured.frames.flatten, Capturable b := by
  intro b hb
  obtain ⟨frame, hframe, hb⟩ := List.mem_flatten.1 hb
  exact h.captured frame hframe b hb

theorem replayable : (Value.closure none params body (.global .session)).Replayable := .closure none h.params h.body

theorem fault?_eq : captured.fault? = none := by
  refine captured.fault?_eq_none fun b hb => ?_
  obtain ⟨x, v⟩ := b
  obtain ⟨-, hv, hconst⟩ := h.capturable _ hb
  cases hv with
  | pair => cases hconst
  | _ => rfl

/-- The text of a function with its bindings spells the forest. -/
theorem exists_text (id : Identity) : ∃ text, (Value.closure id params body captured).format true = .ok text ∧
    (Lexeme.scan 0 text.toList).map (·.token) = (functionForest params body captured).tokens := by
  refine ⟨String.ofList (captured.wrap (functionText params body.render)), ?_, ?_⟩
  · simp [Value.format, Value.fault?, h.fault?_eq, h.body.fault?_eq, Value.write, dotted, Value.render]
  · have hspells := spells_bound h.capturable (spells_functionText h.params h.body.spells)
    have hscan := hspells 0 [] fun c hc => by cases hc
    rwa [← captured.wrap_eq, List.append_nil, Lexeme.scan_nil, List.map_nil, List.append_nil,
      ← String.toList_ofList (l := captured.wrap _)] at hscan

theorem values_forest : (functionForest params body captured).values = [functionRecipe params body captured] :=
  values_bound h.capturable h.replayable.values_recipeForest

theorem sound_forest (strict : Bool) : (functionForest params body captured).Sound strict :=
  sound_bound h.capturable (h.replayable.sound_recipeForest strict)

theorem depth_forest : (functionForest params body captured).depth = functionNesting body captured := by
  rw [functionForest, functionNesting, depth_bound h.capturable]
  simp only [Value.recipeForest, Forest.depth, Forest.depth_ofNames, h.body.depth_before.1]
  omega

theorem eval_recipe {depth : Nat} (hdepth : captured.frames.flatten.length < depth) (base : Scope) (w : World) :
    Lisplet.eval depth base (functionRecipe params body captured) w =
      .ok (.closure (some w.next) params body.reread (base.rebound captured.frames.flatten))
        { w with next := w.next + 1 } := by
  obtain ⟨more, rfl⟩ := Nat.exists_eq_add_of_lt hdepth
  rw [functionRecipe, Nat.add_assoc, eval_bound h.capturable, Value.eval_recipe_closure]

end Recreatable

namespace Session

/-- Evaluated, the text makes a function of the parameters and an equal body, in whose scope names mean what
the frames say, or else what they mean globally; and nothing else changes. -/
def Recreates (s : Session) (text : String) (params : List String) (body : Value) (captured : Scope) : Prop :=
  ∃ next id body' scope,
    Session.eval text s = .ok [.closure id params body' scope] { s with world := { s.world with next } } ∧
    body.Equal body' ∧
    ∀ x w,
      (∀ v, captured.frames.findSome? (List.lookup x) = some v → ∃ v', Eval.lookup scope x w = .ok v' w ∧ v.Equal v') ∧
      (captured.frames.findSome? (List.lookup x) = none → Eval.lookup scope x w = Eval.global .session x w)

variable {params : List String} {body : Value} {captured : Scope} {s : Session} {text : String}

theorem recreates_of_tokens (h : Recreatable params body captured)
    (htext : (Lexeme.scan 0 text.toList).map (·.token) = (functionForest params body captured).tokens)
    (hlimit : functionNesting body captured ≤ s.limit) : s.Recreates text params body captured := by
  have hparse : s.parse text = .ok [functionRecipe params body captured] := by
    rw [parse, readText_forest htext (h.sound_forest s.strict) (h.depth_forest.trans_le hlimit), h.values_forest]
    rfl
  have hlength : captured.frames.flatten.length < s.limit := by
    rw [functionNesting] at hlimit
    omega
  refine ⟨s.world.next + 1, some s.world.next, body.reread, (Scope.global .session).rebound captured.frames.flatten, ?_,
    h.body.same_reread.symm, fun x w => ?_⟩
  · rw [eval_eq, hparse]
    refine mapM_cons_of_ok ?_ rfl
    rw [evalExpr, h.eval_recipe hlength]
  · rw [← captured.lookup_flatten_frames, Eval.lookup_eq, Scope.find?_rebound, Scope.owner_rebound]
    constructor
    · intro v hv
      obtain ⟨before, after, hbindings, -⟩ := List.lookup_eq_some_iff.1 hv
      have hreadable : v.Readable := (h.capturable (x, v) (by simp [hbindings])).readable
      rw [hv]
      exact ⟨v.reread, rfl, hreadable.same_reread.symm⟩
    · intro hnone
      rw [hnone, Eval.global_eq]
      rfl

theorem eval_of_tooDeep (h : Recreatable params body captured)
    (htext : (Lexeme.scan 0 text.toList).map (·.token) = (functionForest params body captured).tokens)
    (hlimit : s.limit < functionNesting body captured) :
    Session.eval text s = .error (.tooDeep .reading s.limit) s := by
  have hread : readText ⟨s.strict, s.limit⟩ text = .error .exhausted :=
    readText_exhausted htext (h.sound_forest s.strict) (hlimit.trans_eq h.depth_forest.symm)
  rw [eval_eq, parse, hread]
  rfl

/-- A function comes back from its text with the bindings in every session that has room for that. Any other may
give up, and then nothing changes. -/
theorem eval_captured (id : Identity) (h : Recreatable params body captured) :
    ∃ text, (Value.closure id params body captured).format true = .ok text ∧
      (∃ enough, ∀ s : Session, enough ≤ s.limit →
        s.writeCaptured (.closure id params body captured) = .ok text ∧ s.Recreates text params body captured) ∧
      ∀ s : Session, s.Recreates text params body captured ∨
        ∃ stage, Session.eval text s = .error (.tooDeep stage s.limit) s := by
  obtain ⟨text, hformat, htext⟩ := h.exists_text id
  refine ⟨text, hformat, ⟨max (functionNesting body captured)
    ((Value.closure id params body captured).writeDepth true false), fun s henough => ⟨?_, ?_⟩⟩, fun s => ?_⟩
  · exact (if_pos ((Nat.le_max_right ..).trans henough)).trans hformat
  · exact recreates_of_tokens h htext ((Nat.le_max_left ..).trans henough)
  · rcases Nat.lt_or_ge s.limit (functionNesting body captured) with hlimit | hlimit
    · exact .inr ⟨.reading, eval_of_tooDeep h htext hlimit⟩
    · exact .inl (recreates_of_tokens h htext hlimit)

/-- The inner of two frames hides a name of the outer one. -/
theorem eval_captured_hidden :
    let body := Value.ofList [.symbol "if", .symbol "x", .symbol "y", .symbol "z"]
    let captured := ((Scope.global .session).extend ["x", "y"] [.bool true, .string "(z"]).extend ["x"] [.nil]
    let text := "(let y \"(z\" (let x true (let x null (function (z) (if x y z)))))"
    Recreatable ["z"] body captured ∧ (Value.closure none ["z"] body captured).format true = .ok text ∧
      (fresh leastLimit true ∅).Recreates text ["z"] body captured := by
  intro body captured text
  have hname : ∀ x ∈ ["x", "y", "z"], ReadableName x := by
    intro x hx
    fin_cases hx <;> exact ⟨by decide, by simp; decide, by decide, by decide, by decide⟩
  have hbody : body.Readable :=
    .pair _ _ _ (.symbol _ (SpecialForm.readableName .condition))
      (.pair _ _ _ (.symbol _ (hname "x" (by simp)))
        (.pair _ _ _ (.symbol _ (hname "y" (by simp)))
          (.pair _ _ _ (.symbol _ (hname "z" (by simp))) .nil rfl) rfl) rfl) rfl
  have h : Recreatable ["z"] body captured := by
    refine ⟨by simpa using hname "z" (by simp), hbody, fun frame hframe b hb => ?_⟩
    have hb : b ∈ [("x", .nil), ("x", .bool true), ("y", .string "(z")] := List.mem_flatten_of_mem hframe hb
    fin_cases hb
    · exact ⟨hname _ (by simp), .nil, rfl⟩
    · exact ⟨hname _ (by simp), .bool true, rfl⟩
    · exact ⟨hname _ (by simp), .string _ (by decide), rfl⟩
  obtain ⟨text', hformat, -, hback⟩ := eval_captured none h
  have htext : (Value.closure none ["z"] body captured).format true = .ok text := by decide +kernel
  obtain rfl : text' = text := by simpa [htext] using hformat.symm
  have hread : ((Session.eval text).run' (fresh leastLimit true ∅)).isSome := by decide +kernel
  refine ⟨h, htext, (hback _).resolve_right ?_⟩
  rintro ⟨stage, hfails⟩
  rw [EStateM.run', EStateM.run, hfails] at hread
  cases hread

/-- The names of as many frames as the limit says are not read back. -/
theorem eval_captured_deep :
    let s := fresh leastLimit false ∅
    let captured := (List.replicate leastLimit "x").foldr (fun x scope => scope.extend [x] [.nil]) (.global .session)
    Recreatable [] (.symbol "x") captured ∧
      ∃ text, (Value.closure none [] (.symbol "x") captured).format true = .ok text ∧
        Session.eval text s = .error (.tooDeep .reading leastLimit) s ∧
          ¬ s.Recreates text [] (.symbol "x") captured := by
  intro s captured
  have hname : ReadableName "x" := ⟨by decide, by simp; decide, by decide, by decide, by decide⟩
  have hframes : captured.frames.flatten = List.replicate leastLimit ("x", .nil) :=
    (Scope.flatten_frames_nested "x" .nil (.global .session) leastLimit).trans (List.append_nil _)
  have h : Recreatable [] (.symbol "x") captured := by
    refine ⟨by simp, .symbol _ hname, fun frame hframe b hb => ?_⟩
    have hb : b ∈ captured.frames.flatten := List.mem_flatten_of_mem hframe hb
    rw [hframes] at hb
    rw [List.eq_of_mem_replicate hb]
    exact ⟨hname, .nil, rfl⟩
  obtain ⟨text, hformat, htext⟩ := h.exists_text none
  have hfails : Session.eval text s = .error (.tooDeep .reading leastLimit) s := by
    refine eval_of_tooDeep h htext ?_
    rw [functionNesting, hframes, List.length_replicate]
    exact Nat.lt_add_of_pos_right (by decide)
  refine ⟨h, text, hformat, hfails, ?_⟩
  rintro ⟨next, id, body, scope, heval, -⟩
  rw [hfails] at heval
  cases heval

end Session

end Lisplet
