import Lisplet.Proofs.Declared
import Lisplet.Proofs.Joining

/-!
# Forms at top level

A text that is read is a row of forms, each of which is spelled by its own lexemes and stands for one
value (`TopForm`). `symbols_of_readText`: the index of the text lists the forms that begin with the
keyword of a definition and a literal, each name where it comes first and with what the last form of
the name says. A literal need not be a symbol: the index also lists numbers and the words for
truth values and for nothing, which no form can define (`symbols_number`). The names that are symbols
are those that the values define.
-/

namespace Lisplet

/-! ### Lexemes in their text -/

namespace Lexeme

/-- The first lexeme of a text stands behind blanks, the others are those of what follows, and a literal goes
on up to a delimiter. -/
theorem scan_eq_cons {n : Nat} {text : List Char} {l : Lexeme} {ls : List Lexeme} (h : scan n text = l :: ls) :
    ∃ gap rest, text = gap ++ l.token.text ++ rest ∧ (∀ c ∈ gap, Text.isBlank c = true) ∧
      l.start = n + gap.length ∧ l.stop = l.start + l.token.text.length ∧ ls = scan l.stop rest ∧
      (∀ cs, l.token = .literal cs → Delimited rest) := by
  fun_induction scan n text with
  | case1 => cases h
  | case2 start c cs hblank ih =>
    obtain ⟨gap, rest, rfl, hgap, hstart, hbehind⟩ := ih h
    refine ⟨c :: gap, rest, rfl, List.forall_mem_cons.2 ⟨hblank, hgap⟩, ?_, hbehind⟩
    rw [hstart, List.length_cons, Nat.add_assoc, Nat.add_comm 1]
  | case3 start cs hblank | case4 start cs hblank ho =>
    obtain ⟨rfl, rfl⟩ := List.cons.inj h
    exact ⟨[], cs, rfl, by simp, rfl, rfl, rfl, by simp⟩
  | case5 start cs body hempty hblank ho hc =>
    obtain ⟨rfl, rfl⟩ := List.cons.inj h
    have hbody : body = cs := by
      rw [← List.append_nil body, ← List.isEmpty_iff.1 hempty, List.takeWhile_append_dropWhile]
    exact ⟨[], [], by simp [Token.text, hbody], by simp, rfl, rfl, (scan_nil _).symm, by simp⟩
  | case6 start cs body hempty hblank ho hc =>
    obtain ⟨rfl, rfl⟩ := List.cons.inj h
    obtain ⟨tail, htail⟩ := exists_quote hempty
    refine ⟨[], tail, ?_, by simp, rfl, by simp [Token.text, Nat.add_assoc], by rw [htail, List.tail_cons], by simp⟩
    conv_lhs => rw [← List.takeWhile_append_dropWhile (l := cs), htail]
    simp [Token.text, body]
  | case7 start c cs hblank ho hc hq run =>
    obtain ⟨rfl, rfl⟩ := List.cons.inj h
    refine ⟨[], cs.dropWhile inLiteral, ?_, by simp, rfl, rfl, rfl, fun _ _ => ?_⟩
    · simp only [Token.text, run, List.nil_append, List.cons_append, List.takeWhile_append_dropWhile]
    · simpa using delimited_dropWhile (show Delimited [] by simp [Delimited]) cs

/-- The lexemes behind some of them are those of the text from some place on. -/
theorem scan_eq_append {n : Nat} {text : List Char} {ls ls' : List Lexeme} (h : scan n text = ls ++ ls') :
    ∃ before rest, text = before ++ rest ∧ ls' = scan (n + before.length) rest ∧
      ∀ k ∈ ls.getLast?, ∀ cs, k.token = .literal cs → Delimited rest := by
  induction ls using List.reverseRecOn generalizing ls' with
  | nil => exact ⟨[], text, rfl, h.symm, by simp⟩
  | append_singleton ls k ih =>
    rw [← List.append_cons] at h
    obtain ⟨before, rest, rfl, hk, -⟩ := ih h
    obtain ⟨gap, rest, rfl, -, hstart, hstop, hls', hrest⟩ := scan_eq_cons hk.symm
    refine ⟨before ++ (gap ++ k.token.text), rest, by simp, ?_, fun l hl => ?_⟩
    · rw [hls', hstop, hstart, List.length_append, List.length_append, Nat.add_assoc, Nat.add_assoc]
    · rw [List.getLast?_concat] at hl
      cases hl
      exact hrest

theorem scan_split {n : Nat} {text : List Char} {l : Lexeme} (h : l ∈ scan n text) :
    ∃ before after, text = before ++ l.token.text ++ after ∧ l.start = n + before.length := by
  obtain ⟨ls, ls', hsplit⟩ := List.append_of_mem h
  obtain ⟨before, rest, rfl, hl, -⟩ := scan_eq_append hsplit
  obtain ⟨gap, after, rfl, -, hstart, -⟩ := scan_eq_cons hl.symm
  exact ⟨before ++ gap, after, by simp, by rw [hstart, List.length_append, Nat.add_assoc]⟩

end Lexeme

namespace Editor

/-- What is defined stands behind the keyword and is neither a parenthesis nor a string. -/
theorem definedName?_eq_some {ps : List Piece} {d : Piece × SymbolKind} (h : definedName? ps = some d) :
    ∃ keyword rest, ps = keyword :: d.1 :: rest ∧ keyword.text = SpecialForm.definition.keyword.toList ∧
      d.1.text ≠ ['('] ∧ d.1.text ≠ [')'] ∧ d.1.text.head? ≠ some '"' := by
  rcases ps with _ | ⟨keyword, _ | ⟨name, rest⟩⟩
  · cases h
  · cases h
  · rw [definedName?_eq] at h
    split at h
    · next hname =>
      cases h
      exact ⟨keyword, rest, rfl, hname⟩
    · cases h

/-! ### The table of symbols -/

section
variable {α : Type} [DecidableEq α] {as : List α} {b : α}

theorem eraseDups_concat :
    (as ++ [b]).eraseDups = if b ∈ as then as.eraseDups else as.eraseDups ++ [b] := by
  rw [List.eraseDups_append]
  by_cases h : b ∈ as
  · have hnew : [b].removeAll as = [] := by simp [List.removeAll, h]
    rw [if_pos h, hnew, List.eraseDups_nil, List.append_nil]
  · have hnew : [b].removeAll as = [b] := by simp [List.removeAll, h]
    rw [if_neg h, hnew]
    rfl

theorem filter_eraseDups (p : α → Bool) : as.eraseDups.filter p = (as.filter p).eraseDups := by
  induction as using List.reverseRecOn with
  | nil => rfl
  | append_singleton as b ih =>
    rw [eraseDups_concat, List.filter_append]
    by_cases hp : p b
    · have hsingle : [b].filter p = [b] := by simp [hp]
      rw [hsingle, eraseDups_concat]
      by_cases hb : b ∈ as <;> simp [hb, hp, ih, List.filter_append]
    · have hsingle : [b].filter p = [] := by simp [hp]
      rw [hsingle, List.append_nil, ← ih]
      by_cases hb : b ∈ as <;> simp [hb, hsingle, List.filter_append]

end

section
variable {symbols entries : List SymbolEntry} {entry : SymbolEntry}

theorem names_putSymbol :
    (putSymbol symbols entry).map (·.name) =
      if entry.name ∈ symbols.map (·.name) then symbols.map (·.name) else symbols.map (·.name) ++ [entry.name] := by
  have hany : symbols.any (·.name == entry.name) = true ↔ entry.name ∈ symbols.map (·.name) := by
    simp [List.any_eq_true]
  by_cases hmem : entry.name ∈ symbols.map (·.name)
  · rw [putSymbol, if_pos (hany.2 hmem), if_pos hmem, List.map_map]
    refine List.map_congr_left fun s _ => ?_
    by_cases hs : s.name = entry.name <;> simp [hs]
  · rw [putSymbol, if_neg (mt hany.1 hmem), if_neg hmem, List.map_append, List.map_singleton]

/-- Names stay in the order in which they come first. -/
theorem names_foldl_putSymbol :
    (entries.foldl putSymbol []).map (·.name) = (entries.map (·.name)).eraseDups := by
  induction entries using List.reverseRecOn with
  | nil => rfl
  | append_singleton entries e ih =>
    rw [List.foldl_concat, names_putSymbol, ih, List.map_append, List.map_singleton, eraseDups_concat]
    exact if_congr List.mem_eraseDups rfl rfl

end

end Editor

/-! ### Forms -/

namespace Value

/-- The name that a value defines: its first two elements are the keyword of a definition and a symbol. -/
def defined? : Value → Option String
  | .pair _ (.symbol keyword) (.pair _ (.symbol name) _) =>
    if keyword = SpecialForm.definition.keyword then some name else none
  | _ => none

theorem defined?_eq_some {v : Value} {name : String} : v.defined? = some name ↔ v.Defines name := by
  constructor
  · intro h
    unfold defined? at h
    split at h
    · next id keyword id' x rest =>
      split at h
      · next hkeyword =>
        cases h
        exact ⟨id, id', rest, by rw [hkeyword]⟩
      · cases h
    · cases h
  · rintro ⟨id, id', rest, rfl⟩
    rw [defined?, if_pos rfl]

/-- The third element is a list that begins with the keyword of a function. -/
def GivesFunction (v : Value) : Prop :=
  v.items[2]?.bind (·.items.head?) = some (.symbol SpecialForm.abstraction.keyword)

instance (v : Value) : Decidable v.GivesFunction := inferInstanceAs (Decidable (_ = _))

end Value

def Token.isLiteral : Token → Bool
  | .literal _ => true
  | _ => false

/-- A form at top level: the lexemes that spell it, and the value that it stands for. -/
structure TopForm where
  lexemes : List Lexeme
  value : Value

namespace TopForm

/-- The lexemes of a form are those of one tree, which stands for the value. -/
def Spelled (form : TopForm) : Prop :=
  ∃ f : Forest, form.lexemes.map (·.token) = f.tokens ∧ f.values = [form.value]

/-- The lexeme behind the keyword of a definition, if it is a literal. -/
def target? (form : TopForm) : Option Lexeme :=
  if form.value.items.head? = some (.symbol SpecialForm.definition.keyword) then
    form.lexemes[2]?.filter (·.token.isLiteral)
  else none

/-- The characters of a literal that a form seems to define. -/
def name? (form : TopForm) : Option String := form.target?.map fun l => String.ofList l.token.text

end TopForm

theorem literalValue_keyword (form : SpecialForm) : literalValue form.keyword.toList = .symbol form.keyword :=
  (literalValue_symbol (SpecialForm.readableName form)).1

theorem items_literalValue (cs : List Char) : (literalValue cs).items = [] := by
  unfold literalValue
  split
  · rfl
  · split_ifs <;> rfl

namespace Forest

variable {inner : Forest} {ls : List Lexeme} {o c : Lexeme}

/-- The target of a list is the literal that the inside of the list declares. -/
theorem target?_list (h : ls.map (·.token) = inner.tokens) (hc : c.token = .closing) :
    (TopForm.target? ⟨o :: (ls ++ [c]), .ofList inner.values⟩).map (·.token.text) = inner.declared?.map (·.1) := by
  unfold TopForm.target?
  rw [Value.items_ofList]
  by_cases hhead : inner.values.head? = some (.symbol SpecialForm.definition.keyword)
  · rw [if_pos hhead]
    obtain ⟨vs, hvalues⟩ := List.head?_eq_some_iff.1 hhead
    obtain ⟨next, rfl, -⟩ := values_eq_symbol hvalues
    obtain ⟨k, ls, rfl, -, h⟩ := List.map_eq_cons_iff.1 h
    -- what stands behind the keyword is the first lexeme of the rest, or the end of the list
    cases next with
    | nil =>
      obtain rfl : ls = [] := List.map_eq_nil_iff.1 h
      simp [hc, Token.isLiteral, declared?]
    | string body next | list body next =>
      obtain ⟨l, ls, rfl, hl, -⟩ := List.map_eq_cons_iff.1 h
      simp [hl, Token.isLiteral, declared?]
    | literal cs next =>
      obtain ⟨l, ls, rfl, hl, -⟩ := List.map_eq_cons_iff.1 h
      simp [hl, Token.isLiteral, declared?, Token.text]
  · rw [if_neg hhead, Option.map_none]
    cases hdecl : inner.declared? with
    | none => rfl
    | some d =>
      obtain ⟨rest, rfl, -⟩ := declared?_eq_some hdecl
      exact absurd (by rw [values, literalValue_keyword]; rfl) hhead

theorem kind_eq_function_iff (f : Forest) :
    f.kind = .function ↔ f.values.head?.bind (·.items.head?) = some (.symbol SpecialForm.abstraction.keyword) := by
  constructor
  · intro h
    obtain ⟨inner, next, rfl⟩ := kind_eq_function h
    rw [values, List.head?_cons, Option.bind_some, Value.items_ofList, values, literalValue_keyword]
    rfl
  · intro h
    obtain ⟨e, hvalues, hitems⟩ := Option.bind_eq_some_iff.1 h
    cases f with
    | nil => cases hvalues
    | string body next =>
      cases hvalues
      cases hitems
    | literal cs next =>
      cases hvalues
      rw [items_literalValue] at hitems
      cases hitems
    | list inner next =>
      cases hvalues
      rw [Value.items_ofList] at hitems
      obtain ⟨vs, hinner⟩ := List.head?_eq_some_iff.1 hitems
      obtain ⟨next, rfl, -⟩ := values_eq_symbol hinner
      rw [kind, if_pos rfl]

theorem kind_declared {cs : List Char} {kind : Editor.SymbolKind} (h : inner.declared? = some (cs, kind)) :
    kind = if (Value.ofList inner.values).GivesFunction then .function else .variable := by
  obtain ⟨rest, rfl, rfl⟩ := declared?_eq_some h
  have hiff : rest.kind = .function ↔
      (Value.ofList (literal SpecialForm.definition.keyword.toList (literal cs rest)).values).GivesFunction := by
    rw [kind_eq_function_iff, Value.GivesFunction, Value.items_ofList, List.head?_eq_getElem?]
    rfl
  split
  · next hfunction => exact hiff.2 hfunction
  · next hfunction =>
    cases hkind : rest.kind
    · rfl
    · exact absurd (hiff.1 hkind) hfunction

end Forest

/-! ### The forms of a text -/

namespace TopForm

open Editor (Piece SymbolKind SymbolEntry definedName? definedNames)

variable {form : TopForm} {text : List Char} {f inner : Forest} {ls : List Lexeme} {o c l : Lexeme}

/-- What a form defines: the piece of its target, and what as. -/
def definition? (text : List Char) (form : TopForm) : Option (Piece × SymbolKind) :=
  form.target?.map fun l => (l.piece text, if form.value.GivesFunction then .function else .variable)

theorem getElem?_of_target? (h : form.target? = some l) : form.lexemes[2]? = some l := by
  unfold target? at h
  split at h
  · exact (Option.filter_eq_some_iff.1 h).1
  · cases h

theorem target?_of_items (h : form.value.items = []) : form.target? = none := by
  rw [target?, h, if_neg (by simp)]

theorem shows_piece (text : List Char) (hcut : ∀ l ∈ ls, l.token.IsCut) :
    List.Forall₂ Piece.Shows (ls.map (Lexeme.piece text)) (ls.map (·.token)) := by
  rw [List.forall₂_map_left_iff, List.forall₂_map_right_iff, List.forall₂_same]
  exact fun l hl => ⟨rfl, hcut l hl⟩

/-- What the pieces of a list define is what the list defines as a form. -/
theorem definedName?_list {ls₁ ls₂ : List Lexeme} (h : ls₁.map (·.token) = inner.tokens)
    (hcut : ∀ l ∈ ls₁, l.token.IsCut) (hc : c.token = .closing) :
    definedName? ((ls₁ ++ c :: ls₂).map (Lexeme.piece text)) =
      definition? text ⟨o :: (ls₁ ++ [c]), .ofList inner.values⟩ := by
  have hclosing : (c.piece text).Shows .closing := ⟨by rw [Lexeme.piece, hc], trivial⟩
  have hpieces : (definedName? ((ls₁ ++ c :: ls₂).map (Lexeme.piece text))).map (fun d => (d.1.text, d.2)) =
      inner.declared? := by
    rw [List.map_append, List.map_cons, Editor.definedName?_inside (h ▸ shows_piece text hcut) hclosing]
  have htarget := Forest.target?_list (o := o) h hc
  cases hdecl : inner.declared? with
  | none =>
    rw [hdecl] at hpieces htarget
    rw [Option.map_eq_none_iff.1 hpieces, definition?, Option.map_eq_none_iff.1 htarget, Option.map_none]
  | some d =>
    rw [hdecl] at hpieces htarget
    obtain ⟨⟨p, kind⟩, hp, rfl⟩ := Option.map_eq_some_iff.1 hpieces
    obtain ⟨l, hl, -⟩ := Option.map_eq_some_iff.1 htarget
    -- both are the second one inside the list
    have hsecond : (ls₁ ++ [c])[1]? = some l := getElem?_of_target? hl
    have hpiece : l.piece text = p := by
      obtain ⟨keyword, rest, hps, -⟩ := Editor.definedName?_eq_some hp
      have hfirst : ((ls₁ ++ c :: ls₂).map (Lexeme.piece text))[1]? = some p := by rw [hps]; rfl
      rw [List.append_cons, List.getElem?_map,
        List.getElem?_append_left (List.getElem?_eq_some_iff.1 hsecond).1, hsecond] at hfirst
      exact Option.some.inj hfirst
    have hkind : kind = _ := Forest.kind_declared hdecl
    rw [hp, definition?, hl, Option.map_some, hpiece, hkind]

/-- A row of lexemes and a row of values are those of a row of forms. -/
structure Row (forms : List TopForm) (ls : List Lexeme) (vs : List Value) : Prop where
  spelled : ∀ form ∈ forms, form.Spelled
  lexemes : forms.flatMap (·.lexemes) = ls
  values : forms.map (·.value) = vs

section
variable {forms : List TopForm} {vs : List Value}

theorem Row.cons (hform : form.Spelled) (h : Row forms ls vs) :
    Row (form :: forms) (form.lexemes ++ ls) (form.value :: vs) where
  spelled := List.forall_mem_cons.2 ⟨hform, h.spelled⟩
  lexemes := by rw [List.flatMap_cons, h.lexemes]
  values := by rw [List.map_cons, h.values]

theorem definedNames_leaf {v : Value} (hcut : l.token.IsCut) (ho : l.token ≠ .opening) (hc : l.token ≠ .closing)
    (hv : v.items = []) (h : definedNames 0 (ls.map (Lexeme.piece text)) = forms.filterMap (definition? text)) :
    definedNames 0 ((l :: ls).map (Lexeme.piece text)) = (⟨[l], v⟩ :: forms).filterMap (definition? text) := by
  have hnone : definition? text ⟨[l], v⟩ = none := by
    rw [definition?, target?_of_items hv, Option.map_none]
  rw [List.map_cons, Editor.definedNames_leaf ⟨rfl, hcut⟩ ho hc, h, List.filterMap_cons_none hnone]

end

/-- Lexemes that spell a forest are a row of forms, and these define what the pieces define. -/
theorem exists_row (text : List Char) (hls : ls.map (·.token) = f.tokens) (hcut : ∀ l ∈ ls, l.token.IsCut) :
    ∃ forms, Row forms ls f.values ∧
      definedNames 0 (ls.map (Lexeme.piece text)) = forms.filterMap (definition? text) := by
  induction f generalizing ls with
  | nil =>
    obtain rfl : ls = [] := List.map_eq_nil_iff.1 hls
    exact ⟨[], ⟨by simp, rfl, rfl⟩, rfl⟩
  | string body next ih =>
    obtain ⟨l, ls, rfl, hl, hls⟩ := List.map_eq_cons_iff.1 hls
    obtain ⟨hcutl, hcut⟩ := List.forall_mem_cons.1 hcut
    obtain ⟨forms, hrow, hdefs⟩ := ih hls hcut
    have hspelled : Spelled ⟨[l], .string (String.ofList body)⟩ := ⟨.string body .nil, by simp [hl, Forest.tokens], rfl⟩
    exact ⟨_, hrow.cons hspelled, definedNames_leaf hcutl (by simp [hl]) (by simp [hl]) rfl hdefs⟩
  | literal cs next ih =>
    obtain ⟨l, ls, rfl, hl, hls⟩ := List.map_eq_cons_iff.1 hls
    obtain ⟨hcutl, hcut⟩ := List.forall_mem_cons.1 hcut
    obtain ⟨forms, hrow, hdefs⟩ := ih hls hcut
    have hspelled : Spelled ⟨[l], literalValue cs⟩ := ⟨.literal cs .nil, by simp [hl, Forest.tokens], rfl⟩
    exact ⟨_, hrow.cons hspelled, definedNames_leaf hcutl (by simp [hl]) (by simp [hl]) (items_literalValue cs) hdefs⟩
  | list inner next _ ih =>
    obtain ⟨o, ls₁, c, ls₂, rfl, ho, h₁, hc, h₂⟩ := Forest.split_list hls
    obtain ⟨hcuto, hcut⟩ := List.forall_mem_cons.1 hcut
    obtain ⟨hcut₁, hcut₂⟩ := List.forall_mem_append.1 hcut
    obtain ⟨forms, hrow, hdefs⟩ := ih h₂ (List.forall_mem_cons.1 hcut₂).2
    have hspelled : Spelled ⟨o :: (ls₁ ++ [c]), .ofList inner.values⟩ :=
      ⟨.list inner .nil, by simp [ho, h₁, hc, Forest.tokens], rfl⟩
    have hshows₁ := h₁ ▸ shows_piece text hcut₁
    refine ⟨_, by simpa [Forest.values] using hrow.cons hspelled, ?_⟩
    have hopening : (o.piece text).Shows .opening := ⟨by rw [Lexeme.piece, ho], trivial⟩
    have hclosing : (c.piece text).Shows .closing := ⟨by rw [Lexeme.piece, hc], trivial⟩
    -- nothing inside the list is at top level, so the form is settled by what stands behind the opening
    rw [List.map_cons, Editor.definedNames_opening hopening, if_pos rfl, definedName?_list h₁ hcut₁ hc, List.map_append,
      List.map_cons, Editor.definedNames_inside hshows₁, Editor.definedNames_closing hclosing, hdefs]
    cases hdef : definition? text ⟨o :: (ls₁ ++ [c]), .ofList inner.values⟩ with
    | none => rw [List.filterMap_cons_none hdef]; rfl
    | some d => rw [List.filterMap_cons_some hdef]; rfl

/-- A form is a leaf or a list. -/
theorem Spelled.cases (h : form.Spelled) : form.value.items = [] ∨
    ∃ o ls c, ∃ inner : Forest, form = ⟨o :: (ls ++ [c]), .ofList inner.values⟩ ∧ ls.map (·.token) = inner.tokens ∧
      c.token = .closing := by
  obtain ⟨lexemes, value⟩ := form
  obtain ⟨f, hls, hvalues⟩ := h
  cases f with
  | nil => cases hvalues
  | string body next =>
    obtain ⟨rfl, -⟩ := List.cons.inj hvalues
    exact .inl rfl
  | literal cs next =>
    obtain ⟨rfl, -⟩ := List.cons.inj hvalues
    exact .inl (items_literalValue cs)
  | list inner next =>
    obtain ⟨rfl, hnext⟩ := List.cons.inj hvalues
    obtain rfl : next = .nil := by cases next <;> first | rfl | cases hnext
    obtain ⟨o, ls₁, c, ls₂, hsplit, -, h₁, hc, h₂⟩ := Forest.split_list hls
    obtain rfl : ls₂ = [] := List.map_eq_nil_iff.1 h₂
    exact .inr ⟨o, ls₁, c, inner, by rw [show lexemes = _ from hsplit], h₁, hc⟩

theorem name?_eq_some {x : String} : form.name? = some x ↔ form.target?.map (·.token.text) = some x.toList := by
  constructor
  · intro h
    obtain ⟨l, hl, rfl⟩ := Option.map_eq_some_iff.1 h
    rw [hl, Option.map_some, String.toList_ofList]
  · intro h
    obtain ⟨l, hl, hx⟩ := Option.map_eq_some_iff.1 h
    rw [name?, hl, Option.map_some, hx, String.ofList_toList]

/-- A form defines its name if this is a symbol, and nothing else. -/
theorem Spelled.defines_iff (h : form.Spelled) (x : String) :
    form.value.Defines x ↔ form.name? = some x ∧ literalValue x.toList = .symbol x := by
  rcases h.cases with hitems | ⟨o, ls, c, inner, rfl, hls, hc⟩
  · constructor
    · rintro ⟨id, id', rest, hvalue⟩
      rw [hvalue] at hitems
      cases hitems
    · rintro ⟨hname, -⟩
      rw [name?, target?_of_items hitems] at hname
      cases hname
  · rw [name?_eq_some, Forest.target?_list hls hc]
    constructor
    · intro hdefines
      obtain ⟨kind, hdecl⟩ := Forest.declared?_of_defines hdefines
      refine ⟨by rw [hdecl, Option.map_some], ?_⟩
      obtain ⟨rest, rfl, -⟩ := Forest.declared?_eq_some hdecl
      obtain ⟨id, id', rest, hvalue⟩ := hdefines
      exact (Value.pair.inj (Value.pair.inj hvalue).2.2).2.1
    · rintro ⟨hname, hsymbol⟩
      obtain ⟨⟨cs, kind⟩, hdecl, rfl⟩ := Option.map_eq_some_iff.1 hname
      obtain ⟨rest, rfl, -⟩ := Forest.declared?_eq_some hdecl
      refine ⟨none, none, .ofList rest.values, ?_⟩
      rw [← hsymbol, ← literalValue_keyword]
      rfl

end TopForm

namespace Editor

/-- An entry tells of a form: it has its name, and says what is defined and where the name stands. -/
structure SymbolEntry.TellsOf (entry : SymbolEntry) (text : List Char) (form : TopForm) : Prop where
  name : form.name? = some entry.name
  kind : entry.kind = .function ↔ form.value.GivesFunction
  position : ∃ l before after, form.target? = some l ∧ text = before ++ entry.name.toList ++ after ∧
    before.length = l.start ∧
    entry.position = ⟨before.count '\n', (before.reverse.takeWhile (· != '\n')).length⟩

/-- The entry that a definition makes. -/
def SymbolEntry.ofDefinition (d : Piece × SymbolKind) : SymbolEntry := ⟨String.ofList d.1.text, d.2, d.1.position⟩

theorem symbols_build (options : ReadOptions) (text : List Char) :
    (Index.build options text).symbols = ((definedNames 0 (pieces text)).map .ofDefinition).foldl putSymbol [] :=
  rfl

theorem SymbolEntry.name_definition? (text : List Char) (form : TopForm) :
    (form.definition? text).map (fun d => (ofDefinition d).name) = form.name? := by
  rw [TopForm.definition?, Option.map_map]
  rfl

theorem SymbolEntry.tellsOf_ofDefinition {text : List Char} {form : TopForm} {d : Piece × SymbolKind}
    (hlexemes : ∀ l ∈ form.lexemes, l ∈ Lexeme.scan 0 text) (h : form.definition? text = some d) :
    (ofDefinition d).TellsOf text form := by
  obtain ⟨l, hl, rfl⟩ := Option.map_eq_some_iff.1 h
  refine ⟨by rw [TopForm.name?, hl]; rfl, ?_, ?_⟩
  · by_cases hfunction : form.value.GivesFunction <;> simp [ofDefinition, hfunction]
  · obtain ⟨before, after, htext, hstart⟩ :=
      Lexeme.scan_split (hlexemes l (List.mem_of_getElem? (TopForm.getElem?_of_target? hl)))
    rw [Nat.zero_add] at hstart
    refine ⟨l, before, after, hl, by rw [ofDefinition, String.toList_ofList]; exact htext, hstart.symm, ?_⟩
    rw [← Text.foldl_advance, ← positionOf_length before (l.token.text ++ after), ← List.append_assoc, ← htext,
      ← hstart]
    rfl

/-- An entry tells of the last form of its name. -/
theorem mem_foldl_definitions {text : List Char} {forms : List TopForm} {entry : SymbolEntry}
    (hlexemes : ∀ form ∈ forms, ∀ l ∈ form.lexemes, l ∈ Lexeme.scan 0 text)
    (h : entry ∈ ((forms.filterMap (·.definition? text)).map .ofDefinition).foldl putSymbol []) :
    ∃ before form after, forms = before ++ form :: after ∧ entry.TellsOf text form ∧
      ∀ later ∈ after, later.name? ≠ some entry.name := by
  rw [List.map_filterMap] at h
  obtain ⟨before, after, hsplit, hlast⟩ := mem_foldl_putSymbol h
  obtain ⟨forms₁, forms₂, rfl, -, h₂⟩ := List.filterMap_eq_append_iff.1 hsplit
  obtain ⟨skipped, form, later, rfl, -, hform, rfl⟩ := List.filterMap_eq_cons_iff.1 h₂
  obtain ⟨d, hd, rfl⟩ := Option.map_eq_some_iff.1 hform
  refine ⟨forms₁ ++ skipped, form, later, by rw [List.append_assoc],
    SymbolEntry.tellsOf_ofDefinition (hlexemes form (by simp)) hd, fun form' hform' hname => ?_⟩
  rw [← SymbolEntry.name_definition? text] at hname
  obtain ⟨d', hd', hname⟩ := Option.map_eq_some_iff.1 hname
  exact hlast _ (List.mem_filterMap.2 ⟨form', hform', Option.map_eq_some_iff.2 ⟨d', hd', rfl⟩⟩) hname

/-- The index of a text that is read, form by form: its names are those of the forms, in the order in which they
come first, and each entry tells of the last form of its name. What a value defines is the name of its form, if
this is a symbol; so the names that are symbols are those that the values define. -/
theorem symbols_of_readText {options : ReadOptions} {text : String} {vs : List Value}
    (h : readText options text = .ok vs) (options' : ReadOptions) :
    ∃ forms, TopForm.Row forms (Lexeme.scan 0 text.toList) vs ∧
      (Index.build options' text.toList).symbols.map (·.name) = (forms.filterMap (·.name?)).eraseDups ∧
      (∀ entry ∈ (Index.build options' text.toList).symbols, ∃ before form after, forms = before ++ form :: after ∧
        entry.TellsOf text.toList form ∧ ∀ later ∈ after, later.name? ≠ some entry.name) ∧
      (∀ form ∈ forms, ∀ x, form.value.Defines x ↔ form.name? = some x ∧ literalValue x.toList = .symbol x) ∧
      ((Index.build options' text.toList).symbols.map (·.name)).filter (fun x => literalValue x.toList = .symbol x) =
        (vs.filterMap Value.defined?).eraseDups := by
  obtain ⟨f, hf, rfl⟩ := exists_forest h
  obtain ⟨forms, hrow, hdefs⟩ := TopForm.exists_row text.toList hf.symm fun l hl => Lexeme.isCut_scan hl
  have hnames : (Index.build options' text.toList).symbols.map (·.name) = (forms.filterMap (·.name?)).eraseDups := by
    rw [symbols_build, names_foldl_putSymbol, pieces_eq, hdefs, List.map_map, List.map_filterMap]
    exact congrArg (fun g => (forms.filterMap g).eraseDups) (funext (SymbolEntry.name_definition? text.toList))
  refine ⟨forms, hrow, hnames, fun entry hentry => ?_, fun form hform => (hrow.spelled form hform).defines_iff, ?_⟩
  · rw [symbols_build, pieces_eq, hdefs] at hentry
    refine mem_foldl_definitions (fun form hform l hl => ?_) hentry
    rw [← hrow.lexemes]
    exact List.mem_flatMap.2 ⟨form, hform, hl⟩
  · rw [hnames, filter_eraseDups, ← hrow.values, List.filterMap_map, List.filter_filterMap]
    refine congrArg List.eraseDups (List.filterMap_congr fun form hform => Option.ext fun x => ?_)
    rw [Option.filter_eq_some_iff, decide_eq_true_eq, Function.comp_apply, Value.defined?_eq_some]
    exact ((hrow.spelled form hform).defines_iff x).symm

/-- A definition of a number is listed, though no value defines it. -/
theorem symbols_number :
    (readText ⟨true, 9⟩ "(define 5 1)").map (·.filterMap Value.defined?) = .ok [] ∧
      (Index.build ⟨true, 9⟩ "(define 5 1)".toList).symbols = [⟨"5", .variable, ⟨0, 8⟩⟩] := by
  constructor
  · rfl
  · decide +kernel

/-- A name that is defined twice, a number, a string, and a definition inside of another form. -/
theorem symbols_of_readText_redefined :
    ∃ vs, readText ⟨true, 9⟩ "(define f 1) (define 5 f) (define \"s\" 2) (g (define h 3)) (define f (function (x) x))" =
      .ok vs ∧ (vs.filterMap Value.defined?).eraseDups = ["f"] := by
  have hok : (readText ⟨true, 9⟩
      "(define f 1) (define 5 f) (define \"s\" 2) (g (define h 3)) (define f (function (x) x))").isOk := by
    decide +kernel
  cases hread : readText ⟨true, 9⟩
      "(define f 1) (define 5 f) (define \"s\" 2) (g (define h 3)) (define f (function (x) x))" with
  | error failure =>
    rw [hread] at hok
    cases hok
  | ok vs =>
    obtain ⟨forms, -, -, -, -, hsymbols⟩ := symbols_of_readText hread ⟨true, 9⟩
    refine ⟨vs, rfl, hsymbols.symm.trans ?_⟩
    decide +kernel

end Editor

end Lisplet
