import Lisplet.Proofs.Calls
import Lisplet.Proofs.Diagnosis
import Lisplet.Proofs.Spelling
import Lisplet.Proofs.Written

/-!
# Declared names

The index of a document says which names its forms at top level define, without evaluating them.
`run_declared`: if the document is run and every expression has a value, all these names are bound, and
those that the index lists as functions were last defined as functions. The index is read off the forest
that the document spells (`definedNames_forest`), each of whose trees is one expression of the batch.
-/

namespace Lisplet

open Editor (SymbolKind)

/-! ### What a forest declares -/

namespace Forest

/-- What a name is declared as, given what follows it. -/
def kind : Forest → SymbolKind
  | list (literal keyword _) _ => if keyword = SpecialForm.abstraction.keyword.toList then .function else .variable
  | _ => .variable

/-- The literal that the inside of a list declares. -/
def declared? : Forest → Option (List Char × SymbolKind)
  | literal keyword (literal name rest) =>
    if keyword = SpecialForm.definition.keyword.toList then some (name, rest.kind) else none
  | _ => none

/-- The literals that the trees of a forest declare. -/
def declarations : Forest → List (List Char × SymbolKind)
  | nil => []
  | string _ next => next.declarations
  | literal _ next => next.declarations
  | list inner next => inner.declared?.toList ++ next.declarations

/-- A tree of the forest declares `d`, and the trees behind it declare what comes after. -/
def DeclaresThen (f : Forest) (d : List Char × SymbolKind) (after : List (List Char × SymbolKind)) : Prop :=
  ∃ (vs : List Value) (inner next : Forest), f.values = vs ++ .ofList inner.values :: next.values ∧
    inner.declared? = some d ∧ next.declarations = after

section
variable {f next : Forest} {d : List Char × SymbolKind} {before after : List (List Char × SymbolKind)}

theorem DeclaresThen.cons {v : Value} (h : next.DeclaresThen d after) (hvalues : f.values = v :: next.values) :
    f.DeclaresThen d after := by
  obtain ⟨vs, inner, later, hsplit, hrest⟩ := h
  exact ⟨v :: vs, inner, later, by rw [hvalues, hsplit, List.cons_append], hrest⟩

theorem declaresThen_of_declarations (h : f.declarations = before ++ d :: after) : f.DeclaresThen d after := by
  induction f generalizing before with
  | nil => simp [declarations] at h
  | string body next ih | literal body next ih => exact (ih h).cons rfl
  | list inner next _ ih =>
    rw [declarations] at h
    cases hd : inner.declared? with
    | none =>
      rw [hd] at h
      exact (ih h).cons rfl
    | some d' =>
      rw [hd] at h
      cases before with
      | nil =>
        obtain ⟨rfl, hafter⟩ := List.cons.inj h
        exact ⟨[], inner, next, rfl, hd, hafter⟩
      | cons b before => exact (ih (List.cons.inj h).2).cons rfl

end

theorem declared?_eq_some {inner : Forest} {cs : List Char} {kind : SymbolKind}
    (h : inner.declared? = some (cs, kind)) :
    ∃ rest, inner = literal SpecialForm.definition.keyword.toList (literal cs rest) ∧ rest.kind = kind := by
  unfold declared? at h
  split at h
  · next keyword name rest =>
    split at h
    · next hkeyword =>
      obtain ⟨rfl, rfl⟩ := Prod.mk.inj (Option.some.inj h)
      exact ⟨rest, by rw [hkeyword], rfl⟩
    · cases h
  · cases h

theorem kind_eq_function {f : Forest} (h : f.kind = .function) :
    ∃ inner next, f = list (literal SpecialForm.abstraction.keyword.toList inner) next := by
  unfold kind at h
  split at h
  · next keyword inner next =>
    split at h
    · next hkeyword => exact ⟨inner, next, by rw [hkeyword]⟩
    · cases h
  · cases h

theorem literalValue_eq_symbol {cs : List Char} {name : String} (h : literalValue cs = .symbol name) :
    name = String.ofList cs := by
  unfold literalValue at h
  split at h
  · cases h
  · split_ifs at h
    exact (Value.symbol.inj h).symm

theorem values_eq_symbol {f : Forest} {name : String} {vs : List Value} (h : f.values = .symbol name :: vs) :
    ∃ next, f = literal name.toList next ∧ next.values = vs := by
  cases f with
  | nil => cases h
  | string body next => cases h
  | list inner next =>
    cases hvalues : inner.values <;> simp [values, hvalues, Value.chain] at h
  | literal cs next =>
    obtain ⟨hcs, hnext⟩ := List.cons.inj h
    exact ⟨next, by rw [literalValue_eq_symbol hcs, String.toList_ofList], hnext⟩

theorem declared?_of_defines {inner : Forest} {name : String} (h : (Value.ofList inner.values).Defines name) :
    ∃ kind, inner.declared? = some (name.toList, kind) := by
  obtain ⟨id, id', rest, heq⟩ := h
  have hitems : inner.values = .symbol SpecialForm.definition.keyword :: .symbol name :: rest.items := by
    rw [← Value.items_ofList inner.values, heq]
    rfl
  obtain ⟨next, rfl, hnext⟩ := values_eq_symbol hitems
  obtain ⟨next, rfl, -⟩ := values_eq_symbol hnext
  exact ⟨next.kind, by simp [declared?]⟩

theorem mem_declarations {f : Forest} {e : Value} {name : String} (he : e ∈ f.values) (h : e.Defines name) :
    ∃ kind, (name.toList, kind) ∈ f.declarations := by
  induction f with
  | nil => cases he
  | string body next ih =>
    rcases List.mem_cons.1 he with rfl | he
    · obtain ⟨id, id', rest, heq⟩ := h
      cases heq
    · exact ih he
  | literal cs next ih =>
    rcases List.mem_cons.1 he with rfl | he
    · obtain ⟨id, id', rest, heq⟩ := h
      unfold literalValue at heq
      split at heq
      · cases heq
      · split_ifs at heq
    · exact ih he
  | list inner next _ ih =>
    rcases List.mem_cons.1 he with rfl | he
    · obtain ⟨kind, hkind⟩ := declared?_of_defines h
      exact ⟨kind, by simp [declarations, hkind]⟩
    · obtain ⟨kind, hkind⟩ := ih he
      exact ⟨kind, List.mem_append_right _ hkind⟩

end Forest

/-! ### The pieces of a forest -/

namespace Editor

/-- A piece has the characters of a token. -/
structure Piece.Shows (p : Piece) (t : Token) : Prop where
  text : p.text = t.text
  cut : t.IsCut

theorem shows_pieces (text : String) : List.Forall₂ Piece.Shows (pieces text.toList) (tokensOf text) := by
  rw [pieces_eq, tokensOf, List.forall₂_map_left_iff, List.forall₂_map_right_iff, List.forall₂_same]
  exact fun l hl => ⟨rfl, Lexeme.isCut_scan hl⟩

section
variable {p q : Piece} {ps rest : List Piece} {depth : Nat} {cs : List Char}

theorem Piece.Shows.eq_of_text {t u : Token} (h : p.Shows t) (hu : u.IsCut) (htext : p.text = u.text) : t = u :=
  Token.text_inj h.cut hu (h.text.symm.trans htext)

theorem split_list {inner next : Forest} (h : List.Forall₂ Piece.Shows ps (Forest.list inner next).tokens) :
    ∃ p ps₁ q ps₂, ps = p :: (ps₁ ++ q :: ps₂) ∧ p.Shows .opening ∧ List.Forall₂ Piece.Shows ps₁ inner.tokens ∧
      q.Shows .closing ∧ List.Forall₂ Piece.Shows ps₂ next.tokens := by
  obtain ⟨p, ps', hp, h', rfl⟩ := List.forall₂_cons_right_iff.1 h
  have h₁ := List.forall₂_take_append _ _ _ h'
  obtain ⟨q, ps₂, hq, h₂, heq⟩ := List.forall₂_cons_right_iff.1 (List.forall₂_drop_append _ _ _ h')
  exact ⟨p, _, q, ps₂, by rw [← heq, List.take_append_drop], hp, h₁, hq, h₂⟩

theorem definedNames_opening (h : p.Shows .opening) :
    definedNames depth (p :: rest) =
      (if depth = 0 then (definedName? rest).toList else []) ++ definedNames (depth + 1) rest := by
  have htext : p.text = ['('] := h.text
  rw [definedNames, if_pos htext]
  split <;> rfl

theorem definedNames_closing (h : p.Shows .closing) :
    definedNames depth (p :: rest) = definedNames (depth - 1) rest := by
  have htext : p.text = [')'] := h.text
  rw [definedNames, if_neg (by simp [htext]), if_pos htext]

theorem definedNames_leaf {t : Token} (h : p.Shows t) (ho : t ≠ .opening) (hc : t ≠ .closing) :
    definedNames depth (p :: rest) = definedNames depth rest := by
  have hopening : p.text ≠ ['('] := fun htext => ho (h.eq_of_text (u := .opening) trivial htext)
  have hclosing : p.text ≠ [')'] := fun htext => hc (h.eq_of_text (u := .closing) trivial htext)
  rw [definedNames, if_neg hopening, if_neg hclosing]

/-- Inside a list nothing is defined at top level. -/
theorem definedNames_inside {f : Forest} (h : List.Forall₂ Piece.Shows ps f.tokens) :
    definedNames (depth + 1) (ps ++ rest) = definedNames (depth + 1) rest := by
  induction f generalizing ps rest depth with
  | nil =>
    cases h
    rfl
  | string body next ih | literal body next ih =>
    obtain _ | ⟨hp, h⟩ := h
    rw [List.cons_append, definedNames_leaf hp nofun nofun, ih h]
  | list inner next ihInner ihNext =>
    obtain ⟨p, ps₁, q, ps₂, rfl, hp, h₁, hq, h₂⟩ := split_list h
    rw [List.cons_append, definedNames_opening hp, if_neg (Nat.succ_ne_zero _), List.nil_append, List.append_assoc,
      ihInner h₁, List.cons_append, definedNames_closing hq, Nat.add_sub_cancel, ihNext h₂]

/-- What a name is defined as, given the pieces behind it. -/
def kindOf : List Piece → SymbolKind
  | opening :: head :: _ =>
    if opening.text = ['('] ∧ head.text = SpecialForm.abstraction.keyword.toList then .function else .variable
  | _ => .variable

theorem definedName?_eq {keyword name : Piece} :
    definedName? (keyword :: name :: rest) =
      if keyword.text = SpecialForm.definition.keyword.toList ∧ name.text ≠ ['('] ∧ name.text ≠ [')']
        ∧ name.text.head? ≠ some '"' then some (name, kindOf rest)
      else none := by
  match rest with
  | [] | [_] => rfl
  | opening :: head :: _ =>
    refine if_congr Iff.rfl (Eq.trans ?_ (apply_ite (fun kind => some (name, kind)) (_ ∧ _) _ _).symm) rfl
    rfl

theorem kindOf_eq_variable {t : Token} (h : p.Shows t) (ho : t ≠ .opening) : kindOf (p :: rest) = .variable := by
  have hopening : p.text ≠ ['('] := fun htext => ho (h.eq_of_text (u := .opening) trivial htext)
  cases rest with
  | nil => rfl
  | cons head rest => simp [kindOf, hopening]

theorem isCut_keyword (form : SpecialForm) : (Token.literal form.keyword.toList).IsCut :=
  let name := SpecialForm.readableName form
  ⟨name.nonempty, name.unquoted, name.undelimited⟩

/-- Whether a list behind a name makes a function is settled by the first piece in it. -/
theorem kindOf_list {t : Token} (hp : p.Shows .opening) (hq : q.Shows t) :
    kindOf (p :: q :: rest) = if t = .literal SpecialForm.abstraction.keyword.toList then .function else .variable := by
  have htext : p.text = ['('] := hp.text
  have hiff : q.text = SpecialForm.abstraction.keyword.toList ↔ t = .literal SpecialForm.abstraction.keyword.toList :=
    ⟨hq.eq_of_text (isCut_keyword _), fun h => by rw [hq.text, h]; rfl⟩
  simp only [kindOf, htext, hiff, true_and]

theorem kindOf_inside {f : Forest} (h : List.Forall₂ Piece.Shows ps f.tokens) (hq : q.Shows .closing) :
    kindOf (ps ++ q :: rest) = f.kind := by
  cases f with
  | nil =>
    cases h
    exact kindOf_eq_variable hq nofun
  | string body next | literal body next =>
    obtain _ | ⟨hp, h⟩ := h
    exact kindOf_eq_variable hp nofun
  | list inner next =>
    obtain ⟨p, ps₁, c, ps₂, rfl, hp, h₁, hc, -⟩ := split_list h
    cases inner with
    | nil =>
      cases h₁
      exact kindOf_list hp hc
    | string body inner =>
      obtain _ | ⟨hfirst, h₁⟩ := h₁
      exact kindOf_list hp hfirst
    | literal cs inner =>
      obtain _ | ⟨hfirst, h₁⟩ := h₁
      simpa [Forest.kind] using kindOf_list hp hfirst
    | list deeper inner =>
      obtain _ | ⟨hfirst, h₁⟩ := h₁
      exact kindOf_list hp hfirst

theorem definedName?_of_keyword {t : Token} (h : p.Shows t) (ht : t ≠ .literal SpecialForm.definition.keyword.toList) :
    definedName? (p :: rest) = none := by
  cases rest with
  | nil => rfl
  | cons name rest => rw [definedName?_eq, if_neg fun hcond => ht (h.eq_of_text (isCut_keyword _) hcond.1)]

theorem definedName?_of_name {t : Token} (h : q.Shows t) (ht : ∀ cs, t ≠ .literal cs) :
    definedName? (p :: q :: rest) = none := by
  rw [definedName?_eq, if_neg]
  rintro ⟨-, hopening, hclosing, hquote⟩
  cases t with
  | opening => exact hopening h.text
  | closing => exact hclosing h.text
  | quoted body | unclosed body => exact hquote (by rw [h.text]; rfl)
  | literal cs => exact ht cs rfl

theorem definedName?_of_literal (hp : p.Shows (.literal SpecialForm.definition.keyword.toList))
    (hq : q.Shows (.literal cs)) :
    definedName? (p :: q :: rest) = some (q, kindOf rest) := by
  have hname : ∀ t : Token, (∀ cs, t ≠ .literal cs) → q.text ≠ t.text := fun t ht htext =>
    IsLiteral.text_ne hq.cut ht (htext.symm.trans hq.text)
  have hquote : q.text.head? ≠ some '"' := by
    rw [hq.text]
    exact hq.cut.unquoted
  rw [definedName?_eq, if_pos ⟨hp.text, hname .opening nofun, hname .closing nofun, hquote⟩]

/-- What the pieces of a list declare is settled before the list ends. -/
theorem definedName?_inside {inner : Forest} (h : List.Forall₂ Piece.Shows ps inner.tokens) (hq : q.Shows .closing) :
    (definedName? (ps ++ q :: rest)).map (fun d => (d.1.text, d.2)) = inner.declared? := by
  cases inner with
  | nil =>
    cases h
    rw [List.nil_append, definedName?_of_keyword hq nofun]
    rfl
  | string body inner | list body inner =>
    obtain _ | ⟨hp, h⟩ := h
    rw [List.cons_append, definedName?_of_keyword hp nofun]
    rfl
  | literal keyword inner =>
    obtain _ | ⟨hp, h⟩ := h
    by_cases hkeyword : keyword = SpecialForm.definition.keyword.toList
    · subst hkeyword
      cases inner with
      | nil =>
        cases h
        rw [List.cons_append, List.nil_append, definedName?_of_name hq nofun]
        rfl
      | string body inner | list body inner =>
        obtain _ | ⟨hname, h⟩ := h
        rw [List.cons_append, List.cons_append, definedName?_of_name hname nofun]
        rfl
      | literal cs inner =>
        obtain _ | ⟨hname, h⟩ := h
        rw [List.cons_append, List.cons_append, definedName?_of_literal hp hname, kindOf_inside h hq, Option.map_some,
          hname.text, Forest.declared?, if_pos rfl]
        rfl
    · rw [List.cons_append, definedName?_of_keyword hp fun h => hkeyword (Token.literal.inj h)]
      cases inner with
      | literal cs inner => rw [Forest.declared?, if_neg hkeyword, Option.map_none]
      | _ => rfl

theorem definedNames_forest {f : Forest} (h : List.Forall₂ Piece.Shows ps f.tokens) :
    (definedNames 0 ps).map (fun d => (d.1.text, d.2)) = f.declarations := by
  induction f generalizing ps with
  | nil =>
    cases h
    rfl
  | string body next ih | literal body next ih =>
    obtain _ | ⟨hp, h⟩ := h
    rw [definedNames_leaf hp nofun nofun, ih h, Forest.declarations]
  | list inner next _ ih =>
    obtain ⟨p, ps₁, q, ps₂, rfl, hp, h₁, hq, h₂⟩ := split_list h
    rw [definedNames_opening hp, if_pos rfl, definedNames_inside h₁, definedNames_closing hq, List.map_append, ih h₂,
      Forest.declarations, ← definedName?_inside h₁ hq]
    cases definedName? (ps₁ ++ q :: ps₂) <;> rfl

end

/-- An entry is the last one of its name that was put in. -/
theorem mem_foldl_putSymbol {entries : List SymbolEntry} {entry : SymbolEntry}
    (h : entry ∈ entries.foldl putSymbol []) :
    ∃ before after, entries = before ++ entry :: after ∧ ∀ e ∈ after, e.name ≠ entry.name := by
  -- from the end, because a later entry takes the place of an earlier one
  induction entries using List.reverseRecOn with
  | nil => cases h
  | append_singleton entries e ih =>
    rw [List.foldl_concat] at h
    have hmem : entry = e ∨ entry ∈ entries.foldl putSymbol [] ∧ entry.name ≠ e.name := by
      generalize entries.foldl putSymbol [] = symbols at h
      unfold putSymbol at h
      split at h
      · obtain ⟨k, hk, heq⟩ := List.mem_map.1 h
        split at heq
        · exact .inl heq.symm
        · next hname =>
          subst heq
          exact .inr ⟨hk, by simpa using hname⟩
      · next hnone =>
        rcases List.mem_append.1 h with h | h
        · refine .inr ⟨h, fun hname => hnone ?_⟩
          exact List.any_eq_true.2 ⟨entry, h, by simpa using hname⟩
        · exact .inl (List.mem_singleton.1 h)
    rcases hmem with rfl | ⟨hmem, hname⟩
    · exact ⟨entries, [], rfl, by simp⟩
    · obtain ⟨before, after, rfl, hafter⟩ := ih hmem
      refine ⟨before, after ++ [e], by simp, fun k hk => ?_⟩
      rcases List.mem_append.1 hk with hk | hk
      · exact hafter k hk
      · rw [List.mem_singleton.1 hk]
        exact hname.symm

/-- A symbol of the index comes from the last tree that declares its name. -/
theorem mem_symbols {options : ReadOptions} {text : String} {f : Forest} (hf : f.tokens = tokensOf text)
    {entry : SymbolEntry} (h : entry ∈ (Index.build options text.toList).symbols) :
    ∃ before cs after, f.declarations = before ++ (cs, entry.kind) :: after ∧ entry.name = String.ofList cs ∧
      ∀ d ∈ after, String.ofList d.1 ≠ entry.name := by
  obtain ⟨before, after, heq, hafter⟩ := mem_foldl_putSymbol h
  obtain ⟨ds, rest, hds, -, hrest⟩ := List.map_eq_append_iff.1 heq
  obtain ⟨d, ds', rfl, rfl, rfl⟩ := List.map_eq_cons_iff.1 hrest
  have hshows := shows_pieces text
  rw [← hf] at hshows
  rw [← definedNames_forest hshows, hds, List.map_append, List.map_cons]
  refine ⟨_, d.1.text, _, rfl, rfl, fun d' hd' => ?_⟩
  obtain ⟨k, hk, rfl⟩ := List.mem_map.1 hd'
  exact hafter _ (List.mem_map_of_mem hk)

end Editor

/-! ### Evaluating definitions -/

section
variable {ε σ α β : Type}

theorem ofExcept_bind_eq_ok {x : Except ε α} {f : α → EStateM ε σ β} {s s' : σ} {b : β}
    (h : (MonadExcept.ofExcept x >>= f) s = .ok b s') : ∃ a, x = .ok a ∧ f a s = .ok b s' := by
  cases x with
  | ok a => exact ⟨a, rfl, h⟩
  | error e => cases h

end

theorem form?_keyword (form : SpecialForm) :
    Eval.form? (literalValue form.keyword.toList) = some form := by
  rw [(literalValue_symbol (SpecialForm.readableName form)).1]
  cases form <;> rfl

section
variable {depth : Nat} {s : Scope} {id : Identity} {head tail v : Value} {w w' : World}

theorem eval_form {form : SpecialForm} (hform : Eval.form? head = some form)
    (h : eval depth s (.pair id head tail) w = .ok v w') :
    ∃ depth', Eval.enter (eval depth') s form tail.items w = .ok v w' := by
  cases depth with
  | zero => cases h
  | succ depth =>
    obtain ⟨operands, helements, henter⟩ := ofExcept_bind_eq_ok h
    obtain rfl := elements_eq_ok helements
    rw [hform] at henter
    exact ⟨depth, henter⟩

/-- A definition that has a value binds a name to the value of its second operand. -/
theorem eval_definition (hform : Eval.form? head = some .definition)
    (h : eval depth s (.pair id head tail) w = .ok v w') :
    ∃ depth' name e w₁, tail.items = [.symbol name, e] ∧ eval depth' s e w = .ok v w₁ ∧
      w' = w₁.withGlobal s.owner name v := by
  obtain ⟨depth', henter⟩ := eval_form hform h
  match hitems : tail.items, henter with
  | [x, e], henter =>
    obtain ⟨name, hname, hrest⟩ := ofExcept_bind_eq_ok henter
    obtain rfl := nameOperand_eq_ok hname
    obtain ⟨v', w₁, heval, hdefine⟩ := bind_eq_ok hrest
    cases hdefine
    exact ⟨depth', name, e, w₁, rfl, heval, rfl⟩
  | [], henter | [_], henter | _ :: _ :: _ :: _, henter => cases henter

theorem eval_abstraction (hform : Eval.form? head = some .abstraction)
    (h : eval depth s (.pair id head tail) w = .ok v w') :
    ∃ id' params body, v = .closure id' params body s := by
  obtain ⟨depth', henter⟩ := eval_form hform h
  match tail.items, henter with
  | [params, body], henter =>
    obtain ⟨names, -, hclosure⟩ := ofExcept_bind_eq_ok henter
    cases hclosure
    exact ⟨_, _, _, rfl⟩
  | [], henter | [_], henter | _ :: _ :: _ :: _, henter => cases henter

end

/-! ### Running a batch -/

namespace Session

def Binds (s : Session) (name : String) : Prop := ∃ v, s.globals.find? name = some v

/-- Evaluation never takes away a global name. -/
def bound (name : String) : Invariant :=
  .ofState (fun w => ∃ v, (w.realm .session).globals.find? name = some v) (fun h => h)
    (fun h => by rwa [World.globals_withLine]) (fun h => by rwa [World.globals_withFile])
    World.exists_find?_withGlobal

theorem Binds.batch {s s' : Session} {name : String} {es : List Value} {outcomes : List Outcome} (h : s.Binds name)
    (hrun : es.mapM record s = .ok outcomes s') : s'.Binds name := by
  have hmeets : Meets ((bound name).Within s) _ _ (es.mapM record) :=
    Invariant.batch_meets fun e _ => Invariant.Expects.of_code trivial trivial
  have hend := hmeets s ⟨h, rfl⟩
  rw [hrun] at hend
  exact hend.1.1

theorem record_isOk {e : Value} {s s' : Session} {o : Outcome} (h : record e s = .ok o s') (ho : o.isOk) :
    ∃ v, evalExpr e s = .ok v s' ∧ o.result = .ok v := by
  obtain ⟨-, -, heval⟩ := record_eq_ok h
  cases hresult : o.result with
  | ok v =>
    rw [hresult] at heval
    exact ⟨v, heval, rfl⟩
  | error failure => simp [Outcome.isOk, hresult] at ho

/-- In a batch whose expressions all have values, each one is evaluated by itself, and the names that are
bound then stay bound. -/
theorem batch_values {es : List Value} {s s' : Session} {outcomes : List Outcome}
    (h : es.mapM record s = .ok outcomes s') (hok : ∀ o ∈ outcomes, o.isOk) :
    List.Forall₂ (fun e o => ∃ t v t', evalExpr e t = .ok v t' ∧ o.result = .ok v ∧
      ∀ name, t'.Binds name → s'.Binds name) es outcomes := by
  induction es generalizing s outcomes with
  | nil =>
    cases h
    exact .nil
  | cons e es ih =>
    obtain ⟨o, os, t, rfl, hrecord, hbatch⟩ := mapM_cons_eq_ok h
    obtain ⟨ho, hos⟩ := List.forall_mem_cons.1 hok
    obtain ⟨v, heval, hresult⟩ := record_isOk hrecord ho
    exact .cons ⟨s, v, t, heval, hresult, fun name hname => hname.batch hbatch⟩ (ih hbatch hos)

theorem run_eq_ok {s s' : Session} {code : String} {outcomes : List Outcome} (h : run code s = .ok outcomes s') :
    ∃ es t, s.parse code = .ok es ∧ t.limit = s.limit ∧ es.mapM record t = .ok outcomes s' := by
  rw [run_eq] at h
  cases hparse : s.parse code with
  | error failure =>
    rw [hparse] at h
    cases h
  | ok es =>
    rw [hparse] at h
    cases es with
    | nil => exact ⟨[], s, rfl, rfl, h⟩
    | cons e es => exact ⟨e :: es, { s with history := s.globals :: s.history }, rfl, rfl, h⟩

theorem readText_of_parse {s : Session} {code : String} {es : List Value} (h : s.parse code = .ok es) :
    readText ⟨s.strict, s.limit⟩ code = .ok es := by
  unfold parse at h
  cases hread : readText ⟨s.strict, s.limit⟩ code with
  | ok vs =>
    rw [hread] at h
    exact h
  | error failure =>
    rw [hread] at h
    cases h

theorem evalExpr_eq_ok {e v : Value} {s s' : Session} (h : evalExpr e s = .ok v s') :
    Lisplet.eval s.limit (.global .session) e s.world = .ok v s'.world := by
  unfold evalExpr at h
  split at h
  · cases h
    assumption
  · cases h

/-- A declaration that has a value defines its name, and gives a function if it says so. -/
theorem evalExpr_declared {inner : Forest} {cs : List Char} {kind : SymbolKind} {s s' : Session} {v : Value}
    (hdecl : inner.declared? = some (cs, kind)) (h : evalExpr (.ofList inner.values) s = .ok v s') :
    s'.Binds (String.ofList cs) ∧ (Value.ofList inner.values).Defines (String.ofList cs) ∧
      (kind = .function → ∃ id params body scope, v = .closure id params body scope) := by
  obtain ⟨rest, rfl, rfl⟩ := Forest.declared?_eq_some hdecl
  obtain ⟨depth, name, e, w, hitems, heval, hworld⟩ := eval_definition (form?_keyword .definition) (evalExpr_eq_ok h)
  obtain ⟨hname, hrest⟩ := List.cons.inj ((Value.items_ofList _).symm.trans hitems)
  obtain rfl := Forest.literalValue_eq_symbol hname
  have hglobal := World.find?_withGlobal w .session .session (String.ofList cs) (String.ofList cs) v
  refine ⟨⟨v, ?_⟩, ⟨none, none, .ofList rest.values, ?_⟩, fun hkind => ?_⟩
  · rw [if_pos ⟨rfl, rfl⟩] at hglobal
    rw [← hglobal, ← show s'.world = w.withGlobal .session (String.ofList cs) v from hworld]
    rfl
  · rw [← hname, ← (literalValue_symbol (SpecialForm.readableName .definition)).1]
    rfl
  · obtain ⟨inner, next, rfl⟩ := Forest.kind_eq_function hkind
    obtain ⟨rfl, -⟩ := List.cons.inj hrest
    obtain ⟨id, params, body, hv⟩ := eval_abstraction (form?_keyword .abstraction) heval
    exact ⟨id, params, body, _, hv⟩

/-- If every expression of a document has a value, each name of its index is bound, and the last expression
that defines it gives a function if the index says so. -/
theorem run_declared (s : Session) (options : ReadOptions) (text : String) {outcomes : List Outcome} {s' : Session}
    (hrun : run text s = .ok outcomes s') (hok : ∀ o ∈ outcomes, o.isOk) :
    ∀ entry ∈ (Editor.Index.build options text.toList).symbols,
      s'.Binds entry.name ∧
      ∃ es before e o after, s.parse text = .ok es ∧ es.length = outcomes.length ∧
        es.zip outcomes = before ++ (e, o) :: after ∧
        e.Defines entry.name ∧ (∀ p ∈ after, ¬ p.1.Defines entry.name) ∧
        (entry.kind = .function → ∃ id params body scope, o.result = .ok (.closure id params body scope)) := by
  intro entry hentry
  obtain ⟨es, t, hparse, -, hbatch⟩ := run_eq_ok hrun
  obtain ⟨f, htokens, hvalues⟩ := exists_forest (readText_of_parse hparse)
  obtain ⟨before, cs, after, hdecls, hname, hlast⟩ := Editor.mem_symbols htokens hentry
  obtain ⟨vs, inner, next, hsplit, hdecl, hnext⟩ := Forest.declaresThen_of_declarations hdecls
  obtain rfl : es = vs ++ .ofList inner.values :: next.values := hvalues.symm.trans hsplit
  -- the outcomes are split where the expressions are
  have hall := batch_values hbatch hok
  obtain ⟨o, os, hfirst, hrest, hdrop⟩ := List.forall₂_cons_right_iff.1 (List.forall₂_drop_append _ _ _ hall.flip)
  have hos : vs.length = (outcomes.take vs.length).length := (List.forall₂_take_append _ _ _ hall.flip).length_eq.symm
  obtain ⟨t₁, v, t₂, heval, hresult, hkept⟩ := hfirst
  obtain ⟨hbinds, hdefines, hfunction⟩ := evalExpr_declared hdecl heval
  rw [← hname] at hbinds hdefines
  refine ⟨hkept _ hbinds, _, vs.zip (outcomes.take vs.length), .ofList inner.values, o, next.values.zip os, hparse,
    hall.length_eq, ?_, hdefines, fun p hp hagain => ?_, fun hkind => ?_⟩
  · conv_lhs => rw [← List.take_append_drop vs.length outcomes, hdrop, List.zip_append hos, List.zip_cons_cons]
  · obtain ⟨kind, hmem⟩ := Forest.mem_declarations (List.of_mem_zip hp).1 hagain
    rw [hnext] at hmem
    exact hlast _ hmem String.ofList_toList
  · obtain ⟨id, params, body, scope, rfl⟩ := hfunction hkind
    exact ⟨id, params, body, scope, hresult⟩

/-- A name is first defined as a variable and then as a function. -/
theorem run_declared_redefined :
    ∃ outcomes s', run "(define f 1) (define f (function (x) x))" (fresh 9 false ∅) = .ok outcomes s' ∧
      s'.Binds "f" ∧ ∃ o ∈ outcomes, ∃ id params body scope, o.result = .ok (.closure id params body scope) := by
  have hrun :
      (match run "(define f 1) (define f (function (x) x))" (fresh 9 false ∅) with
      | .ok outcomes _ => outcomes.all (·.isOk)
      | .error _ _ => false) = true := by
    decide +kernel
  have hindex : ⟨"f", .function, ⟨0, 21⟩⟩ ∈
      (Editor.Index.build ⟨true, 9⟩ "(define f 1) (define f (function (x) x))".toList).symbols := by
    decide +kernel
  cases hres : run "(define f 1) (define f (function (x) x))" (fresh 9 false ∅) with
  | error failure t =>
    rw [hres] at hrun
    cases hrun
  | ok outcomes t =>
    rw [hres] at hrun
    obtain ⟨hbinds, es, before, e, o, after, -, -, hzip, -, -, hfunction⟩ :=
      run_declared _ _ _ hres (List.all_eq_true.1 hrun) _ hindex
    have hmem : (e, o) ∈ es.zip outcomes := hzip ▸ List.mem_append_right _ (List.mem_cons_self ..)
    exact ⟨outcomes, t, rfl, hbinds, o, (List.of_mem_zip hmem).2, hfunction rfl⟩

end Session

end Lisplet
