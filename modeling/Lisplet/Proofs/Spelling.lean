import Lisplet.Proofs.RoundTrip

/-!
# What texts spell

A text spells a row of tokens if these are its tokens in front of the end and of every delimiter.
Spellings are put together as texts are (`Spells.blank`, `Spells.list`, `Spells.intercalate`): a readable
value spells its forest, and the text of a function that of a form (`spells_functionText`).
-/

namespace Lisplet

open Lexeme

/-- The tokens of a text in front of a delimiter or the end. -/
def Spells (cs : List Char) (ts : List Token) : Prop :=
  ∀ n rest, Delimited rest →
    (Lexeme.scan n (cs ++ rest)).map (·.token) = ts ++ (Lexeme.scan (n + cs.length) rest).map (·.token)

namespace Spells

variable {cs ds : List Char} {ts us : List Token}

theorem of_isLiteral (h : IsLiteral cs) : Spells cs [.literal cs] := fun n _ hr => h.scan hr n

theorem blank {b : Char} (hb : Text.isBlank b) (hcs : Spells cs ts) (hds : Spells ds us) :
    Spells (cs ++ b :: ds) (ts ++ us) := by
  intro n rest hr
  have hdelim : Delimited (b :: (ds ++ rest)) := by
    rintro c ⟨⟩
    rw [isDelimiter, hb, Bool.or_true]
  have hlen : n + (cs ++ b :: ds).length = n + cs.length + 1 + ds.length := by
    simp only [List.length_append, List.length_cons]
    omega
  rw [List.append_assoc, List.cons_append, hcs n _ hdelim, scan_blank hb, hds _ rest hr, hlen, List.append_assoc]

theorem list (hcs : Spells cs ts) : Spells ('(' :: (cs ++ [')'])) (.opening :: (ts ++ [.closing])) := by
  intro n rest hr
  have hdelim : Delimited (')' :: rest) := by rintro c ⟨⟩; rfl
  have hlen : n + ('(' :: (cs ++ [')'])).length = n + 1 + cs.length + 1 := by
    simp only [List.length_append, List.length_cons, List.length_nil]
    omega
  rw [List.cons_append, scan_opening, List.map_cons, List.append_assoc, List.singleton_append, hcs _ _ hdelim,
    scan_closing, List.map_cons, hlen, List.cons_append, List.append_assoc, List.singleton_append]

theorem nil : Spells [] [] := fun _ _ _ => rfl

theorem intercalate {sep : String} {b : Char} (hsep : sep.toList = [b]) (hb : Text.isBlank b) {texts : List String}
    {rows : List (List Token)} (h : List.Forall₂ (fun text row => Spells text.toList row) texts rows) :
    Spells (sep.intercalate texts).toList rows.flatten := by
  induction h with
  | nil => exact .nil
  | @cons text row texts rows htext hrest ih =>
    cases hrest with
    | nil => simpa using htext
    | cons =>
      rw [String.intercalate_cons_cons, String.toList_append, String.toList_append, hsep, List.append_assoc,
        List.singleton_append]
      exact htext.blank hb ih

end Spells

theorem ReadableName.spells {name : String} (h : ReadableName name) : Spells name.toList [.literal name.toList] :=
  .of_isLiteral ⟨h.nonempty, h.unquoted, h.undelimited⟩

theorem Value.Readable.spells {v : Value} (h : v.Readable) : Spells v.render (v.before .nil).tokens :=
  h.scan_write.1

/-! ### Values read back -/

namespace Value

theorem Readable.write_reread {v : Value} (h : v.Readable) (inTail : Bool) :
    v.reread.write false inTail = v.write false inTail := by
  induction h generalizing inTail with
  | nil | bool | string | symbol => rfl
  | double x hx =>
    have htext : (Number.double (NumberStyle.readBack x)).text = (Number.double x).text :=
      NumberStyle.double_readBack hx
    rw [reread, write, write, htext]
  | pair id head tail _ _ _ ihHead ihTail => rw [reread, write, write, ihHead, ihTail]

theorem Readable.reread {v : Value} (h : v.Readable) : v.reread.Readable ∧ (v.isList → v.reread.isList) := by
  induction h with
  | nil => exact ⟨.nil, id⟩
  | bool b => exact ⟨.bool b, id⟩
  | double x hx => exact ⟨.double _ (NumberStyle.isFinite_readBack hx), id⟩
  | string s hs => exact ⟨.string s hs, id⟩
  | symbol name hn => exact ⟨.symbol name hn, id⟩
  | pair id head tail _ _ hl ihHead ihTail =>
    exact ⟨.pair none _ _ ihHead.1 ihTail.1 (ihTail.2 hl), fun _ => ihTail.2 hl⟩

theorem writeDepth_reread (bindings : Bool) : ∀ (v : Value) (inTail : Bool),
    v.reread.writeDepth bindings inTail = v.writeDepth bindings inTail
  | .pair id head tail, _ => by
    simp only [reread, writeDepth, writeDepth_reread bindings head, writeDepth_reread bindings tail]
  | .number (.double _), _ | .number (.integer _), _ | .nil, _ | .bool _, _ | .string _, _ | .symbol _, _
  | .primitive .., _ | .closure .., _ | .absent, _ | .sequence .., _ => rfl

/-- A readable value is written twice as many calls deep as it nests. -/
theorem Readable.writeDepth_eq {v : Value} (h : v.Readable) (bindings inTail : Bool) :
    v.writeDepth bindings inTail = 2 * v.nesting := by
  induction h generalizing inTail with
  | nil | bool | double | string | symbol => rfl
  | pair id head tail _ _ _ ihHead ihTail =>
    rw [writeDepth, nesting, ihHead, ihTail]
    omega

theorem Readable.readText_render {v : Value} (h : v.Readable) (strict : Bool) {room : Nat}
    (hroom : v.nesting ≤ room) :
    readText ⟨strict, room⟩ (String.ofList v.render) = .ok [v.reread] := by
  have hscan : (Lexeme.scan 0 (String.ofList v.render).toList).map (·.token) = (v.before .nil).tokens := by
    rw [String.toList_ofList, h.scan_render]
  rw [readText_forest hscan (h.sound_render strict) (h.depth_render hroom), h.values_before.1, Forest.values]

end Value

/-! ### Names and functions -/

theorem SpecialForm.readableName (form : SpecialForm) : ReadableName form.keyword := by
  cases form <;> exact ⟨by decide, by simp [keyword]; decide, by decide, by decide, by decide⟩

namespace Forest

def ofNames (names : List String) : Forest := names.foldr (fun x next => .literal x.toList next) .nil

theorem tokens_ofNames (names : List String) : (ofNames names).tokens = names.map fun x => .literal x.toList := by
  induction names with
  | nil => rfl
  | cons x names ih => exact congrArg (.literal x.toList :: ·) ih

theorem values_ofNames {names : List String} (h : ∀ x ∈ names, ReadableName x) :
    (ofNames names).values = names.map .symbol := by
  induction names with
  | nil => rfl
  | cons x names ih =>
    have hx := literalValue_symbol (h x (by simp))
    have hrest := ih fun y hy => h y (by simp [hy])
    rw [ofNames, List.foldr_cons, ← ofNames, values, hx.1, hrest, List.map_cons]

theorem sound_ofNames {names : List String} (h : ∀ x ∈ names, ReadableName x) (strict : Bool) :
    (ofNames names).Sound strict := by
  induction names with
  | nil => intro cs hcs; cases hcs
  | cons x names ih => exact .literal (literalValue_symbol (h x (by simp))).2 (ih fun y hy => h y (by simp [hy]))

theorem depth_ofNames (names : List String) : (ofNames names).depth = 0 := by
  induction names with
  | nil => rfl
  | cons x names ih => exact ih

end Forest

theorem functionText_eq (params : List String) (body : List Char) :
    functionText params body =
      '(' :: (SpecialForm.abstraction.keyword.toList ++ ' ' :: '(' :: ((" ".intercalate params).toList ++ [')'])
        ++ ' ' :: body ++ [')']) := by
  have hhead : "(function (".toList = '(' :: (SpecialForm.abstraction.keyword.toList ++ [' ', '(']) := by decide
  have hclose : ") ".toList = [')', ' '] := by decide
  unfold functionText
  rw [hhead, hclose]
  simp only [List.append_assoc, List.cons_append, List.nil_append]

theorem spells_functionText {params : List String} (hparams : ∀ x ∈ params, ReadableName x) {body : List Char}
    {f : Forest} (hbody : Spells body f.tokens) :
    Spells (functionText params body)
      (Forest.list (.literal SpecialForm.abstraction.keyword.toList (.list (.ofNames params) f)) .nil).tokens := by
  have hblank : Text.isBlank ' ' := by decide
  have hnames : Spells (" ".intercalate params).toList (Forest.ofNames params).tokens := by
    have hall : List.Forall₂ (fun text row => Spells text.toList row) params
        (params.map fun x => [.literal x.toList]) := by
      rw [List.forall₂_map_right_iff]
      exact List.forall₂_same.2 fun x hx => (hparams x hx).spells
    have hrows := Spells.intercalate (show " ".toList = [' '] from rfl) hblank hall
    rwa [← List.flatMap_def, ← List.map_eq_flatMap, ← Forest.tokens_ofNames] at hrows
  have hword := (SpecialForm.readableName .abstraction).spells
  have hform := ((hword.blank hblank hnames.list).blank hblank hbody).list
  rw [functionText_eq]
  simpa only [Forest.tokens, List.append_assoc, List.cons_append, List.nil_append] using hform

end Lisplet
