import Lisplet.Proofs.Depth
import Lisplet.Proofs.Spelling

/-!
# Dumps

A dump is code: one definition for each name that the user defined. `dump_replays`: evaluated in a fresh
session, it defines the same names as equal values, and dumped again it is the same text, also if the
definitions overwrite primitives or are named like special forms. Each line spells the forest of a
definition (`spells_line`), the forest is read as an expression (`readText_definitions`), and the
expression makes the value anew whatever the names in the table mean (`evalExpr_definition`).
-/

namespace Lisplet

/-! ### Tables -/

namespace NameMap

variable {α : Type}

/-- The map with more entries; of two with one name the later wins. -/
def insertAll (m : NameMap α) (entries : List (String × α)) : NameMap α :=
  entries.foldl (fun m e => m.insert e.1 e.2) m

theorem mem_insertAll {m : NameMap α} {es : List (String × α)} (hes : es.Pairwise (·.1 < ·.1)) {e : String × α} :
    e ∈ (m.insertAll es).entries ↔ e ∈ es ∨ (∀ e' ∈ es, e'.1 ≠ e.1) ∧ e ∈ m.entries := by
  induction es generalizing m with
  | nil => simp [insertAll]
  | cons e' es ih =>
    obtain ⟨hlt, hes⟩ := List.pairwise_cons.1 hes
    have hfirst : e = e' → ∀ e'' ∈ es, e''.1 ≠ e.1 := by
      rintro rfl e'' he'' heq
      exact String.lt_irrefl _ (heq ▸ hlt e'' he'')
    show e ∈ (insertAll (m.insert e'.1 e'.2) es).entries ↔ _
    rw [ih hes, mem_insert]
    simp only [List.mem_cons, forall_eq_or_imp]
    grind

end NameMap

/-! ### Values that code makes anew -/

namespace Value

/-- Equal in either way of comparing. -/
def Equal (v w : Value) : Prop := v.same .loose w = true ∧ v.same .strict w = true

/-- What is its own value. -/
def isConstant : Value → Bool
  | .nil | .bool _ | .number _ | .string _ => true
  | _ => false

/-- The values that the code of a definition makes anew: readable constants, and functions that
captured no frame, of readable parameters and a readable body. -/
inductive Replayable : Value → Prop
  | constant {v : Value} : v.Readable → v.isConstant → Replayable v
  | closure (id : Identity) {params : List String} {body : Value} :
    (∀ x ∈ params, ReadableName x) → body.Readable → Replayable (.closure id params body (.global .session))

/-- The body of a function leaves room for a definition around it within a limit on nesting. -/
def FitsIn (limit : Nat) (v : Value) : Prop :=
  ∀ id params body scope, v = .closure id params body scope → body.nesting + 2 ≤ limit

theorem Shallow.fitsIn {limit : Nat} {v : Value} (h : v.Shallow limit) : v.FitsIn limit := by
  rintro id params body scope rfl
  exact h.body

/-- An equal value, or a function of the same parameters and an equal body that captured no frame. -/
def Renews : Value → Value → Prop
  | .closure _ params body _, w => ∃ id body', w = .closure id params body' (.global .session) ∧ body.Equal body'
  | v, w => v.Equal w

/-- The expression that a dump has for a value. -/
def recipe : Value → Value
  | .closure _ params body _ =>
    .ofList [.symbol SpecialForm.abstraction.keyword, .ofList (params.map .symbol), body.reread]
  | v => v.reread

/-- What becomes of a value in a dump that is evaluated. -/
def renewed (id : Identity) : Value → Value
  | .closure _ params body _ => .closure id params body.reread (.global .session)
  | v => v.reread

def recipeForest : Value → Forest
  | .closure _ params body _ =>
    .list (.literal SpecialForm.abstraction.keyword.toList (.list (.ofNames params) (body.before .nil))) .nil
  | v => v.before .nil

section
variable {v : Value} (hv : v.isConstant)
include hv

theorem recipe_constant : v.recipe = v.reread := by
  cases v with
  | nil | bool | number | string => rfl
  | _ => cases hv

theorem renewed_constant (id : Identity) : v.renewed id = v.reread := by
  cases v with
  | nil | bool | number | string => rfl
  | _ => cases hv

theorem recipeForest_constant : v.recipeForest = v.before .nil := by
  cases v with
  | nil | bool | number | string => rfl
  | _ => cases hv

theorem renews_constant {w : Value} : v.Renews w ↔ v.Equal w := by
  cases v with
  | nil | bool | number | string => rfl
  | _ => cases hv

theorem nesting_constant : v.nesting = 0 := by
  cases v with
  | nil | bool | number | string => rfl
  | _ => cases hv

theorem write_constant : v.write true false = v.render := by
  cases v with
  | nil | bool | number | string => rfl
  | _ => cases hv

theorem isConstant_reread : v.reread.isConstant := by
  cases v with
  | number n => cases n <;> rfl
  | nil | bool | string => rfl
  | _ => cases hv

end

theorem text_closure {id : Identity} {params : List String} {body : Value} {scope : Scope} (h : body.Readable) :
    (closure id params body scope).text = .ok (String.ofList (functionText params body.render)) := by
  simp [text, format, fault?, h.fault?_eq, write, dotted, render]

theorem writeDepth_renewed (v : Value) (id : Identity) :
    (v.renewed id).writeDepth false false = v.writeDepth false false := by
  cases v with
  | closure => simp [renewed, writeDepth, writeDepth_reread]
  | _ => exact writeDepth_reread false _ false

namespace Replayable

variable {v : Value}

theorem renews (h : v.Replayable) (id : Identity) : v.Renews (v.renewed id) := by
  cases h with
  | constant hv hconst =>
    rw [renewed_constant hconst, renews_constant hconst]
    exact hv.same_reread.symm
  | closure id' hparams hbody => exact ⟨id, _, rfl, hbody.same_reread.symm⟩

theorem isPrimitive_renewed (h : v.Replayable) (id : Identity) : (v.renewed id).isPrimitive = false := by
  cases h with
  | constant hv hconst =>
    have hconst' := isConstant_reread hconst
    rw [renewed_constant hconst]
    cases hreread : v.reread with
    | primitive => rw [hreread] at hconst'; cases hconst'
    | _ => rfl
  | closure => rfl

theorem text_renewed (h : v.Replayable) (id : Identity) : (v.renewed id).text = v.text := by
  cases h with
  | constant hv hconst =>
    rw [renewed_constant hconst, hv.text_eq, hv.reread.1.text_eq, render, render, hv.write_reread]
  | closure id' hparams hbody =>
    rw [renewed, text_closure hbody, text_closure hbody.reread.1, render, render, hbody.write_reread]

/-- The text of a value spells its expression. -/
theorem spells (h : v.Replayable) : ∃ text, v.text = .ok text ∧ Spells text.toList v.recipeForest.tokens := by
  cases h with
  | constant hv hconst =>
    refine ⟨_, hv.text_eq, ?_⟩
    rw [recipeForest_constant hconst, String.toList_ofList]
    exact hv.spells
  | closure id' hparams hbody =>
    refine ⟨_, text_closure hbody, ?_⟩
    rw [String.toList_ofList]
    exact spells_functionText hparams hbody.spells

theorem values_recipeForest (h : v.Replayable) : v.recipeForest.values = [v.recipe] := by
  cases h with
  | constant hv hconst =>
    rw [recipeForest_constant hconst, recipe_constant hconst, hv.values_before.1]
    rfl
  | closure id hparams hbody =>
    rw [recipeForest, Forest.values, Forest.values, Forest.values, Forest.values, Forest.values_ofNames hparams,
      hbody.values_before.1, (literalValue_symbol (SpecialForm.readableName _)).1]
    rfl

theorem sound_recipeForest (h : v.Replayable) (strict : Bool) : v.recipeForest.Sound strict := by
  have hnil : Forest.nil.Sound strict := fun cs hcs => by cases hcs
  cases h with
  | constant hv hconst =>
    rw [recipeForest_constant hconst]
    exact (hv.sound_before strict).1 _ hnil
  | closure id hparams hbody =>
    refine .list (.literal (literalValue_symbol (SpecialForm.readableName _)).2 (.list ?_ ?_)) hnil
    · exact Forest.sound_ofNames hparams strict
    · exact (hbody.sound_before strict).1 _ hnil

theorem depth_recipeForest (h : v.Replayable) {room : Nat} (hroom : v.FitsIn room) (hleast : 3 ≤ room) :
    v.recipeForest.depth + 1 ≤ room := by
  cases h with
  | constant hv hconst =>
    have hdepth := hv.depth_before.1 .nil
    rw [recipeForest_constant hconst]
    rw [nesting_constant hconst] at hdepth
    simp only [Forest.depth] at hdepth
    omega
  | closure id hparams hbody =>
    have hdepth := hbody.depth_before.1 .nil
    simp only [Forest.depth] at hdepth
    simp only [recipeForest, Forest.depth, Forest.depth_ofNames]
    have := hroom _ _ _ _ rfl
    omega

end Replayable

/-! ### Evaluation -/

theorem eval_constant {v : Value} (h : v.isConstant) (depth : Nat) (scope : Scope) (w : World) :
    Lisplet.eval (depth + 1) scope v w = .ok v w := by
  cases v with
  | nil | bool | number | string => rfl
  | _ => cases h

theorem parameters_ofList (names : List String) : Eval.parameters (.ofList (names.map .symbol)) = .ok names := by
  have hnames : (names.map Value.symbol).mapM (Eval.nameOperand .abstraction) = .ok names := by
    induction names with
    | nil => rfl
    | cons x names ih =>
      rw [List.map_cons, List.mapM_cons, ih]
      rfl
  rw [Eval.parameters, if_pos (isList_ofList _), items_ofList, hnames]

/-- The expression of a function makes the function in whatever scope it is evaluated. -/
theorem eval_recipe_closure (id : Identity) (params : List String) (body : Value) (captured : Scope) (depth : Nat)
    (scope : Scope) (w : World) :
    Lisplet.eval (depth + 1) scope (Value.closure id params body captured).recipe w =
      .ok (.closure (some w.next) params body.reread scope) { w with next := w.next + 1 } := by
  have hstep : Lisplet.eval (depth + 1) scope (Value.closure id params body captured).recipe w =
      Eval.enter (Lisplet.eval depth) scope .abstraction [.ofList (params.map .symbol), body.reread] w := rfl
  rw [hstep, Eval.enter, parameters_ofList]
  rfl

/-- The expression of a value gives the value anew and changes nothing, whatever the names mean. -/
theorem Replayable.eval_recipe {v : Value} (h : v.Replayable) (depth : Nat) (w : World) :
    ∃ id next, Lisplet.eval (depth + 1) (.global .session) v.recipe w = .ok (v.renewed id) { w with next } := by
  cases h with
  | constant hv hconst =>
    refine ⟨none, w.next, ?_⟩
    rw [recipe_constant hconst, renewed_constant hconst]
    exact eval_constant (isConstant_reread hconst) depth _ w
  | @closure id params body =>
    exact ⟨some w.next, w.next + 1, eval_recipe_closure id params body (.global .session) depth (.global .session) w⟩

end Value

namespace Session

/-- The expression of a definition in a dump. -/
def definition (d : String × Value) : Value :=
  .ofList [.symbol SpecialForm.definition.keyword, .symbol d.1, d.2.recipe]

/-- A definition is made whatever the table says so far. -/
theorem evalExpr_definition {d : String × Value} (h : d.2.Replayable) {s : Session} (hlimit : 2 ≤ s.limit) :
    ∃ id next, evalExpr (definition d) s =
      .ok (d.2.renewed id) { s with world := { s.world with next }.withGlobal .session d.1 (d.2.renewed id) } := by
  obtain ⟨depth, hdepth⟩ := Nat.exists_eq_add_of_le' hlimit
  obtain ⟨id, next, heval⟩ := h.eval_recipe depth s.world
  refine ⟨id, next, ?_⟩
  have hstep : Lisplet.eval s.limit (.global .session) (definition d) s.world =
      Eval.enter (Lisplet.eval (depth + 1)) (.global .session) .definition [.symbol d.1, d.2.recipe] s.world := by
    rw [hdepth]
    rfl
  have henter : Eval.enter (Lisplet.eval (depth + 1)) (.global .session) .definition [.symbol d.1, d.2.recipe] s.world =
      .ok (d.2.renewed id) ({ s.world with next }.withGlobal .session d.1 (d.2.renewed id)) := by
    exact bind_of_ok (m := Lisplet.eval (depth + 1) (.global .session) d.2.recipe) heval
  rw [evalExpr, hstep, henter]

/-- What becomes of a definition in a dump that is evaluated. -/
structure Renewed (d d' : String × Value) : Prop where
  name : d.1 = d'.1
  replayable : d.2.Replayable
  value : ∃ id, d'.2 = d.2.renewed id

namespace Renewed

variable {d d' : String × Value} (h : Renewed d d')
include h

theorem renews : d.2.Renews d'.2 := by
  obtain ⟨id, hvalue⟩ := h.value
  rw [hvalue]
  exact h.replayable.renews id

theorem text_eq : d.2.text = d'.2.text := by
  obtain ⟨id, hvalue⟩ := h.value
  rw [hvalue, h.replayable.text_renewed]

theorem writeDepth_eq : d'.2.writeDepth false false = d.2.writeDepth false false := by
  obtain ⟨id, hvalue⟩ := h.value
  rw [hvalue, Value.writeDepth_renewed]

theorem isPrimitive_eq : d'.2.isPrimitive = false := by
  obtain ⟨id, hvalue⟩ := h.value
  rw [hvalue, h.replayable.isPrimitive_renewed]

end Renewed

theorem mapM_definition {ds : List (String × Value)} (h : ∀ d ∈ ds, d.2.Replayable) {s : Session}
    (hlimit : 2 ≤ s.limit) :
    ∃ ds' s', (ds.map definition).mapM evalExpr s = .ok (ds'.map (·.2)) s' ∧ List.Forall₂ Renewed ds ds' ∧
      s'.globals = s.globals.insertAll ds' := by
  induction ds generalizing s with
  | nil => exact ⟨[], s, rfl, .nil, rfl⟩
  | cons d ds ih =>
    obtain ⟨id, next, hfirst⟩ := evalExpr_definition (h d (by simp)) hlimit
    obtain ⟨ds', s', hrest, hrenewed, hglobals⟩ := ih (fun d hd => h d (by simp [hd]))
      (s := { s with world := { s.world with next }.withGlobal .session d.1 (d.2.renewed id) }) hlimit
    refine ⟨(d.1, d.2.renewed id) :: ds', s', ?_, .cons ⟨rfl, h d (by simp), id, rfl⟩ hrenewed, hglobals⟩
    exact mapM_cons_of_ok hfirst hrest

/-! ### Dumps -/

/-- The forest of a row of definitions. -/
def definitionForest (ds : List (String × Value)) : Forest :=
  ds.foldr (fun d next =>
    .list (.literal SpecialForm.definition.keyword.toList (.literal d.1.toList d.2.recipeForest)) next) .nil

/-- Names and values whose definition can be dumped and evaluated again. -/
structure Definable (d : String × Value) : Prop where
  name : ReadableName d.1
  value : d.2.Replayable

section
variable {ds : List (String × Value)} (hds : ∀ d ∈ ds, Definable d)
include hds

theorem values_definitionForest : (definitionForest ds).values = ds.map definition := by
  induction ds with
  | nil => rfl
  | cons d ds ih =>
    have hd := hds d (by simp)
    rw [definitionForest, List.foldr_cons, ← definitionForest, Forest.values, Forest.values, Forest.values,
      hd.value.values_recipeForest, (literalValue_symbol (SpecialForm.readableName _)).1,
      (literalValue_symbol hd.name).1, ih fun d hd => hds d (by simp [hd])]
    rfl

theorem sound_definitionForest (strict : Bool) : (definitionForest ds).Sound strict := by
  induction ds with
  | nil => intro cs hcs; cases hcs
  | cons d ds ih =>
    have hd := hds d (by simp)
    refine .list (.literal (literalValue_symbol (SpecialForm.readableName _)).2 ?_)
      (ih fun d hd => hds d (by simp [hd]))
    exact .literal (literalValue_symbol hd.name).2 (hd.value.sound_recipeForest strict)

theorem depth_definitionForest {room : Nat} (hleast : 3 ≤ room) (hroom : ∀ d ∈ ds, d.2.FitsIn room) :
    (definitionForest ds).depth ≤ room := by
  induction ds with
  | nil => exact Nat.zero_le _
  | cons d ds ih =>
    have hfirst := (hds d (by simp)).value.depth_recipeForest (hroom d (by simp)) hleast
    have hrest := ih (fun d hd => hds d (by simp [hd])) fun d hd => hroom d (by simp [hd])
    exact Nat.max_le.2 ⟨hfirst, hrest⟩

end

/-- The tokens of a definition. -/
def definitionRow (d : String × Value) : List Token :=
  (Forest.list (.literal SpecialForm.definition.keyword.toList (.literal d.1.toList d.2.recipeForest)) .nil).tokens

theorem flatten_definitionRow (ds : List (String × Value)) :
    (ds.map definitionRow).flatten = (definitionForest ds).tokens := by
  induction ds with
  | nil => rfl
  | cons d ds ih =>
    rw [List.map_cons, List.flatten_cons, ih]
    simp [definitionRow, definitionForest, Forest.tokens]

theorem spells_line {d : String × Value} (hd : Definable d) :
    ∃ text, d.2.text = .ok text ∧ Spells s!"(define {d.1} {text})".toList (definitionRow d) := by
  obtain ⟨text, htext, hspells⟩ := hd.value.spells
  refine ⟨text, htext, ?_⟩
  have hblank : Text.isBlank ' ' := by decide
  have hword := (SpecialForm.readableName .definition).spells
  have hline := ((hword.blank hblank hd.name.spells).blank hblank hspells).list
  have hhead : "(define ".toList = '(' :: (SpecialForm.definition.keyword.toList ++ [' ']) := by decide
  have hchars : s!"(define {d.1} {text})".toList =
      '(' :: (SpecialForm.definition.keyword.toList ++ ' ' :: d.1.toList ++ ' ' :: text.toList ++ [')']) := by
    show ("(define " ++ d.1 ++ " " ++ text ++ ")").toList = _
    simp only [String.toList_append, hhead, List.append_assoc, List.cons_append, List.nil_append]
    rfl
  rw [hchars]
  simpa only [definitionRow, Forest.tokens, List.append_assoc, List.cons_append, List.nil_append] using hline

/-- A dump spells its definitions. -/
theorem spells_definitions {ds : List (String × Value)} (hds : ∀ d ∈ ds, Definable d) :
    ∃ text, definitions ds = .ok text ∧ Spells text.toList (definitionForest ds).tokens := by
  have hlines : ∃ lines, (ds.mapM fun d => do
        let text ← d.2.text
        return s!"(define {d.1} {text})") = (.ok lines : Except Failure (List String)) ∧
      List.Forall₂ (fun line row => Spells line.toList row) lines (ds.map definitionRow) := by
    induction ds with
    | nil => exact ⟨[], rfl, .nil⟩
    | cons d ds ih =>
      obtain ⟨text, htext, hspells⟩ := spells_line (hds d (by simp))
      obtain ⟨lines, hmap, hall⟩ := ih fun d hd => hds d (by simp [hd])
      refine ⟨s!"(define {d.1} {text})" :: lines, ?_, .cons hspells hall⟩
      rw [List.mapM_cons, hmap]
      simp only [htext]
      rfl
  obtain ⟨lines, hmap, hall⟩ := hlines
  refine ⟨"\n".intercalate lines, ?_, ?_⟩
  · exact congrArg (· >>= fun lines => pure ("\n".intercalate lines)) hmap
  · rw [← flatten_definitionRow]
    exact Spells.intercalate rfl (by decide) hall

/-- A dump is read as its definitions. -/
theorem readText_definitions {ds : List (String × Value)} (hds : ∀ d ∈ ds, Definable d) (strict : Bool) {room : Nat}
    (hleast : 3 ≤ room) (hroom : ∀ d ∈ ds, d.2.FitsIn room) :
    ∃ text, definitions ds = .ok text ∧ readText ⟨strict, room⟩ text = .ok (ds.map definition) := by
  obtain ⟨text, htext, hspells⟩ := spells_definitions hds
  refine ⟨text, htext, ?_⟩
  have htokens : (Lexeme.scan 0 text.toList).map (·.token) = (definitionForest ds).tokens := by
    have hscan := hspells 0 [] (fun c hc => by cases hc)
    rwa [List.append_nil, Lexeme.scan_nil, List.map_nil, List.append_nil] at hscan
  rw [readText_forest htokens (sound_definitionForest hds strict) (depth_definitionForest hds hleast hroom),
    values_definitionForest hds]

/-! ### Tables -/

theorem userDefines_insertAll {globals : Globals} (hglobals : ∀ d ∈ globals.entries, d.2.isPrimitive)
    {ds : List (String × Value)} (hsorted : ds.Pairwise (·.1 < ·.1)) (hds : ∀ d ∈ ds, d.2.isPrimitive = false) :
    Globals.userDefines (globals.insertAll ds) = ds := by
  refine NameMap.eq_of_mem_iff ((globals.insertAll ds).sorted.filter _) hsorted fun d => ?_
  rw [Globals.userDefines, List.mem_filter, NameMap.mem_insertAll hsorted, Bool.not_eq_true']
  constructor
  · rintro ⟨hd | hd, hprim⟩
    · exact hd
    · rw [hglobals d hd.2] at hprim
      cases hprim
  · exact fun hd => ⟨.inl hd, hds d hd⟩

theorem pairwise_of_renewed {ds ds' : List (String × Value)} (h : List.Forall₂ Renewed ds ds')
    (hds : ds.Pairwise (·.1 < ·.1)) : ds'.Pairwise (·.1 < ·.1) := by
  have hnames : ds.map (·.1) = ds'.map (·.1) := by
    induction h with
    | nil => rfl
    | cons hd _ ih => rw [List.map_cons, List.map_cons, hd.name, ih (List.pairwise_cons.1 hds).2]
  have hmapped : (ds.map (·.1)).Pairwise (· < ·) := List.pairwise_map.2 hds
  rw [hnames] at hmapped
  exact List.pairwise_map.1 hmapped

theorem isPrimitive_of_renewed {ds ds' : List (String × Value)} (h : List.Forall₂ Renewed ds ds') :
    ∀ d' ∈ ds', d'.2.isPrimitive = false := by
  induction h with
  | nil => simp
  | cons hd _ ih => exact List.forall_mem_cons.2 ⟨hd.isPrimitive_eq, ih⟩

theorem isPrimitive_library (owner : Owner) : ∀ d ∈ (Globals.library owner).entries, d.2.isPrimitive := by
  intro d hd
  obtain ⟨p, hp⟩ := Globals.library_eq_some (NameMap.find?_eq_some_iff.2 hd)
  rw [hp]
  rfl

/-- Evaluated in a fresh session, the dump defines the same names as equal values, and dumped again it is
the same text, for which there is room wherever there is room for the first. -/
def Replays (s : Session) (limit : Nat) (strict : Bool) (files : NameMap String) : Prop :=
  ∃ text values s', s.dump = .ok text ∧ Session.eval text (fresh limit strict files) = .ok values s' ∧
    List.Forall₂ (fun d d' => d.1 = d'.1 ∧ d.2.Renews d'.2 ∧ d'.2.writeDepth false false = d.2.writeDepth false false)
      s.userDefines s'.userDefines ∧
    s'.dump = .ok text

theorem replays_of_fitsIn {s : Session} (hdefs : ∀ d ∈ s.userDefines, Definable d) {limit : Nat} (hlimit : 3 ≤ limit)
    (hroom : ∀ d ∈ s.userDefines, d.2.FitsIn limit) (strict : Bool) (files : NameMap String) :
    s.Replays limit strict files := by
  obtain ⟨text, htext, hread⟩ := readText_definitions hdefs strict hlimit hroom
  have hlimit' : 2 ≤ (fresh limit strict files).limit := Nat.le_of_succ_le hlimit
  obtain ⟨ds', s', hmap, hrenewed, hglobals⟩ := mapM_definition (fun d hd => (hdefs d hd).value) hlimit'
  have hfresh : (fresh limit strict files).globals = .library .session := rfl
  have hdefines : s'.userDefines = ds' := by
    rw [userDefines, hglobals, hfresh]
    exact userDefines_insertAll (isPrimitive_library .session)
      (pairwise_of_renewed hrenewed (s.globals.sorted.filter _)) (isPrimitive_of_renewed hrenewed)
  have hparse : (fresh limit strict files).parse text = .ok (s.userDefines.map definition) :=
    congrArg (Except.mapError _) hread
  have heval : Session.eval text (fresh limit strict files) = .ok (ds'.map (·.2)) s' := by
    rw [eval_eq, hparse]
    exact hmap
  have hdump : s'.dump = s.dump := by
    rw [dump, dump, hdefines]
    exact (definitions_eq (hrenewed.imp fun d d' hd => ⟨hd.name, hd.text_eq⟩)).symm
  refine ⟨text, _, s', htext, heval, ?_, hdump.trans htext⟩
  rw [hdefines]
  exact hrenewed.imp fun d d' hd => ⟨hd.name, hd.renews, hd.writeDepth_eq⟩

/-- Dumps replay: in a fresh session that has room for their text, and so in every fresh session with
the limit of the one that was dumped, if that was given text only. -/
theorem dump_replays (s : Session) (hdefs : ∀ d ∈ s.userDefines, Definable d) (limit : Nat) (strict : Bool)
    (files : NameMap String) :
    (3 ≤ limit → (∀ d ∈ s.userDefines, d.2.FitsIn limit) → s.Replays limit strict files) ∧
    ∀ settings wanted files₀ code s₀ calls, create settings wanted files₀ code = .ok s₀ →
      (∀ globals, Call.restore globals ∉ calls) → s = s₀.performAll calls → s.limit ≤ limit →
      s.Replays limit strict files := by
  refine ⟨fun hlimit hroom => replays_of_fitsIn hdefs hlimit hroom strict files, ?_⟩
  rintro settings wanted files₀ code s₀ calls hcreate hcalls rfl hlimit
  obtain ⟨hleast, hroom⟩ := shallow_performAll hcreate hcalls
  refine replays_of_fitsIn hdefs (Nat.le_trans ?_ (hleast.trans hlimit)) (fun d hd => ?_) strict files
  · decide
  · exact Value.Shallow.fitsIn fun c hc => (hroom d hd c hc).trans hlimit

/-- A primitive is overwritten by a function without parameters, and a name is that of a special form. -/
theorem dump_replays_overwritten :
    ∃ s, create ⟨10, false, "", 0⟩ none ∅ "(define + (function () (if x \"(\n\" null))) (define define -0)" = .ok s ∧
      (∀ d ∈ s.userDefines, Definable d ∧ d.2.FitsIn 3) ∧ s.Replays 3 true ∅ ∧ s.Replays s.limit true ∅ := by
  let body := Value.ofList [.symbol "if", .symbol "x", .string "(\n", .nil]
  have hbody : body.Readable :=
    .pair _ _ _ (.symbol _ (SpecialForm.readableName .condition))
      (.pair _ _ _ (.symbol _ ⟨by decide, by simp; decide, by decide, by decide, by decide⟩)
        (.pair _ _ _ (.string _ (by decide)) (.pair _ _ _ .nil .nil rfl) rfl) rfl) rfl
  have hplus : Definable ("+", .closure (some 0) [] body (.global .session)) :=
    ⟨⟨by decide, by simp; decide, by decide, by decide, by decide⟩, .closure (some 0) (by simp) hbody⟩
  have hdefine : Definable ("define", .double (Binary64.ofCode true 0)) :=
    ⟨SpecialForm.readableName .definition, .constant (.double _ (by decide +kernel)) rfl⟩
  have hrun :
      (match create ⟨10, false, "", 0⟩ none ∅
          "(define + (function () (if x \"(\n\" null))) (define define -0)" with
      | .ok s => decide (s.userDefines =
          [("+", .closure (some 0) [] body (.global .session)), ("define", .double (Binary64.ofCode true 0))])
      | .error _ => false) = true := by
    decide +kernel
  cases hcreate : create ⟨10, false, "", 0⟩ none ∅
      "(define + (function () (if x \"(\n\" null))) (define define -0)" with
  | error failure =>
    rw [hcreate] at hrun
    cases hrun
  | ok s =>
    rw [hcreate] at hrun
    have hdefines := of_decide_eq_true hrun
    have hdefs : ∀ d ∈ s.userDefines, Definable d := by
      rw [hdefines]
      exact List.forall_mem_cons.2 ⟨hplus, List.forall_mem_cons.2 ⟨hdefine, by simp⟩⟩
    have hroom : ∀ d ∈ s.userDefines, d.2.FitsIn 3 := by
      rw [hdefines]
      refine List.forall_mem_cons.2 ⟨?_, List.forall_mem_cons.2 ⟨?_, by simp⟩⟩
      · rintro id params body' scope ⟨⟩
        decide
      · rintro id params body' scope ⟨⟩
    refine ⟨s, rfl, fun d hd => ⟨hdefs d hd, hroom d hd⟩, ?_, ?_⟩
    · exact (dump_replays s hdefs 3 true ∅).1 (by decide) hroom
    · exact (dump_replays s hdefs s.limit true ∅).2 _ none ∅ _ s [] hcreate (by simp) rfl (Nat.le_refl _)

end Session

end Lisplet
