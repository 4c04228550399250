import Lisplet.Proofs.Forest
import Lisplet.Proofs.Lexing
import Lisplet.Proofs.NumberText
import Lisplet.Value.Printer
import Lisplet.Value.Same

/-!
# Written values read back

A readable value is an atom whose text is a lexeme of its own, or a list of readable values.
`readText_spaced`: the texts of readable values with white space between them are read as equal
values, strictly or not. The text of a value spells a forest (`Value.before`), so that reading is
settled by the run of the reader on forests; what remains is that each atom is one lexeme and denotes
itself.
-/

namespace Lisplet

/-! ### Readable values -/

/-- Starts as a number literal: with an optional minus and a digit. -/
def startsNumber : List Char → Bool
  | '-' :: c :: _ => c.isDigit
  | c :: _ => c.isDigit
  | [] => false

/-- The name of a symbol that is written as it is read. -/
structure ReadableName (name : String) : Prop where
  nonempty : name.toList ≠ []
  undelimited : ∀ c ∈ name.toList, Lexeme.isDelimiter c = false
  unquoted : name.toList.head? ≠ some '"'
  notNumber : startsNumber name.toList = false
  notWord : name ∉ ["true", "false", "null"]

namespace Value

/-- The values that are read back from their text. -/
inductive Readable : Value → Prop
  | nil : Readable .nil
  | bool (b : Bool) : Readable (.bool b)
  | double (x : Float) : x.isFinite → Readable (.double x)
  | string (s : String) : '"' ∉ s.toList → Readable (.string s)
  | symbol (name : String) : ReadableName name → Readable (.symbol name)
  | pair (id : Identity) (head tail : Value) :
    Readable head → Readable tail → tail.isList → Readable (.pair id head tail)

def nesting : Value → Nat
  | .pair _ head tail => max (head.nesting + 1) tail.nesting
  | _ => 0

/-- What a readable value is read back as: pairs have no identity, and zero has no sign. -/
def reread : Value → Value
  | .number (.double x) => .double (NumberStyle.readBack x)
  | .pair _ head tail => .pair none head.reread tail.reread
  | v => v

/-! ### The forest of a value -/

mutual

/-- The tree of a value in front of a forest. -/
def before (next : Forest) : Value → Forest
  | .nil => .literal "null".toList next
  | .bool b => .literal (if b then "true" else "false").toList next
  | .number n => .literal n.text next
  | .string s => .string s.toList next
  | .symbol name => .literal name.toList next
  | .pair _ head tail => .list (head.before tail.elementForest) next
  | .primitive .. | .closure .. | .absent | .sequence .. => next

def elementForest : Value → Forest
  | .pair _ head tail => head.before tail.elementForest
  | _ => .nil

end

theorem tokens_before (v : Value) (next : Forest) :
    (v.before next).tokens = (v.before .nil).tokens ++ next.tokens := by
  cases v <;> simp [before, Forest.tokens]

end Value

open Lexeme

/-! ### Atoms -/

theorem isDelimiter_of_isNumeric {c : Char} (h : NumberStyle.isNumeric c) : isDelimiter c = false := by
  simp only [NumberStyle.isNumeric, Bool.or_eq_true] at h
  rcases h with h | h
  · have hnat := Char.isDigit_iff_toNat.1 h
    simp only [show '0'.toNat = 48 from rfl, show '9'.toNat = 57 from rfl] at hnat
    have ho : c ≠ '(' := fun hc => absurd h (by rw [hc]; decide)
    have hcl : c ≠ ')' := fun hc => absurd h (by rw [hc]; decide)
    have hb : Text.isBlank c = false := by
      simp only [Text.isBlank, Bool.or_eq_false_iff, Bool.and_eq_false_iff, decide_eq_false_iff_not,
        beq_eq_false_iff_ne]
      omega
    simp [isDelimiter, ho, hcl, hb]
  · have hall : ['.', 'e', '+', '-'].all (!isDelimiter ·) = true := by decide
    simpa using List.all_eq_true.1 hall c (List.contains_iff_mem.1 h)

theorem scan_eq_none {cs : List Char} (h : startsNumber cs = false) : Numeral.scan cs = none := by
  have hwhole : (Numeral.scanSign cs).2.takeWhile Char.isDigit = [] := by
    unfold Numeral.scanSign
    split
    · rename_i cs
      cases cs with
      | nil => rfl
      | cons c cs => rw [List.takeWhile_cons_of_neg (by simpa [startsNumber] using h)]
    · rename_i hminus
      cases cs with
      | nil => rfl
      | cons c cs =>
        rw [List.takeWhile_cons_of_neg]
        intro hc
        unfold startsNumber at h
        split at h
        · rename_i heq
          exact hminus _ (by rw [(List.cons.inj heq).1])
        · rename_i heq
          obtain ⟨rfl, -⟩ := List.cons.inj heq
          simp [hc] at h
        · rename_i heq
          cases heq
  simp [Numeral.scan, hwhole]

theorem literalValue_double {x : Float} (hx : x.isFinite) :
    literalValue (Number.double x).text = .double (NumberStyle.readBack x) ∧
      overhangs (Number.double x).text = false := by
  obtain ⟨n, hscan, hn⟩ := NumberStyle.scan_double hx
  have htext : (Number.double x).text = NumberStyle.source.double x := rfl
  rw [htext, literalValue, overhangs, hscan]
  exact ⟨congrArg Value.double hn, rfl⟩

theorem literalValue_symbol {name : String} (h : ReadableName name) :
    literalValue name.toList = .symbol name ∧ overhangs name.toList = false := by
  have hscan := scan_eq_none h.notNumber
  have hword : ∀ w ∈ ["true", "false", "null"], name.toList ≠ w.toList :=
    fun w hw heq => h.notWord (String.toList_inj.1 heq ▸ hw)
  simp only [literalValue, overhangs, hscan, if_neg (hword "true" (by simp)), if_neg (hword "false" (by simp)),
    if_neg (hword "null" (by simp)), String.ofList_toList, and_self]

/-- A text that is one literal, and what follows it is delimited. -/
structure IsLiteral (cs : List Char) : Prop where
  nonempty : cs ≠ []
  unquoted : cs.head? ≠ some '"'
  undelimited : ∀ c ∈ cs, isDelimiter c = false

theorem IsLiteral.of_all {cs : List Char}
    (h : (!cs.isEmpty && cs.head? != some '"' && cs.all (!isDelimiter ·)) = true) : IsLiteral cs := by
  simp only [Bool.and_eq_true, Bool.not_eq_true', List.isEmpty_eq_false_iff, bne_iff_ne, List.all_eq_true] at h
  exact ⟨h.1.1, h.1.2, h.2⟩

theorem IsLiteral.double {x : Float} (hx : x.isFinite) : IsLiteral (Number.double x).text := by
  obtain ⟨n, hscan, -⟩ := NumberStyle.scan_double hx
  have hchars := NumberStyle.isNumeric_double hx
  refine ⟨fun h => ?_, fun h => ?_, fun c hc => isDelimiter_of_isNumeric (hchars c hc)⟩
  · rw [show NumberStyle.source.double x = [] from h] at hscan
    cases hscan
  · exact absurd (hchars '"' (List.mem_of_head? h)) (by decide)

theorem IsLiteral.scan {cs rest : List Char} (h : IsLiteral cs) (hr : Delimited rest) (n : Nat) :
    (Lexeme.scan n (cs ++ rest)).map (·.token) =
      .literal cs :: (Lexeme.scan (n + cs.length) rest).map (·.token) := by
  rw [scan_literal h.nonempty h.unquoted h.undelimited hr, List.map_cons]

namespace Value

theorem delimited_write {v : Value} (hl : v.isList) (rest : List Char) :
    Delimited (v.write false true ++ rest) := by
  cases v with
  | nil => rintro c ⟨⟩; rfl
  | pair id head tail => rintro c ⟨⟩; rfl
  | _ => cases hl

/-- The tokens that lexemes of a text start with, when the text starts with a written value. -/
theorem Readable.scan_write {v : Value} (h : v.Readable) :
    (∀ n rest, Delimited rest →
      (Lexeme.scan n (v.write false false ++ rest)).map (·.token) =
        (v.before .nil).tokens ++ (Lexeme.scan (n + (v.write false false).length) rest).map (·.token)) ∧
    (v.isList → ∀ n rest,
      (Lexeme.scan n (v.write false true ++ rest)).map (·.token) =
        v.elementForest.tokens ++
          .closing :: (Lexeme.scan (n + (v.write false true).length) rest).map (·.token)) := by
  induction h with
  | nil =>
    refine ⟨fun n rest hr => ?_, fun _ n rest => ?_⟩
    · exact (IsLiteral.of_all (by decide)).scan hr n
    · show (Lexeme.scan n (')' :: rest)).map (·.token) = _
      rw [scan_closing]; rfl
  | bool b =>
    refine ⟨fun n rest hr => ?_, fun hl => by cases hl⟩
    cases b with
    | true => exact (IsLiteral.of_all (by decide)).scan hr n
    | false => exact (IsLiteral.of_all (by decide)).scan hr n
  | double x hx => exact ⟨fun n rest hr => (IsLiteral.double hx).scan hr n, fun hl => by cases hl⟩
  | string s hs =>
    refine ⟨fun n rest _ => ?_, fun hl => by cases hl⟩
    have htext : (Value.string s).write false false ++ rest = '"' :: (s.toList ++ '"' :: rest) := by
      simp [write, dotted]
    have hlen : ((Value.string s).write false false).length = s.toList.length + 2 := by
      simp [write, dotted]
    rw [htext, hlen, scan_quoted hs]
    rfl
  | symbol name hn =>
    exact ⟨fun n rest hr => IsLiteral.scan ⟨hn.nonempty, hn.unquoted, hn.undelimited⟩ hr n, fun hl => by cases hl⟩
  | pair id head tail _ _ hl ihHead ihTail =>
    have hinside : ∀ n rest,
        (Lexeme.scan n (head.write false false ++ (tail.write false true ++ rest))).map (·.token) =
          (head.before tail.elementForest).tokens ++ .closing ::
            (Lexeme.scan (n + (head.write false false).length + (tail.write false true).length) rest).map
              (·.token) := by
      intro n rest
      rw [ihHead.1 n _ (delimited_write hl rest), ihTail.2 hl, tokens_before head tail.elementForest,
        List.append_assoc]
    have hlen : ∀ inTail, ((Value.pair id head tail).write false inTail).length =
        1 + (head.write false false).length + (tail.write false true).length := by
      intro inTail
      simp only [write, List.length_append, List.length_cons]
      omega
    refine ⟨fun n rest _ => ?_, fun _ n rest => ?_⟩
    · have htext : (Value.pair id head tail).write false false ++ rest =
          '(' :: (head.write false false ++ (tail.write false true ++ rest)) := by simp [write]
      rw [htext, scan_opening, List.map_cons, hinside, hlen]
      simp [before, Forest.tokens, Nat.add_assoc]
    · have htext : (Value.pair id head tail).write false true ++ rest =
          ' ' :: (head.write false false ++ (tail.write false true ++ rest)) := by simp [write]
      rw [htext, scan_blank (by decide), hinside, hlen]
      simp [elementForest, Nat.add_assoc]

theorem Readable.values_before {v : Value} (h : v.Readable) :
    (∀ next, (v.before next).values = v.reread :: next.values) ∧
      (v.isList → .ofList v.elementForest.values = v.reread) := by
  induction h with
  | nil => exact ⟨fun next => rfl, fun _ => rfl⟩
  | bool b => exact ⟨fun next => by cases b <;> rfl, fun hl => by cases hl⟩
  | double x hx =>
    refine ⟨fun next => ?_, fun hl => by cases hl⟩
    simp only [before, Forest.values, (literalValue_double hx).1, reread]
  | string s hs =>
    refine ⟨fun next => ?_, fun hl => by cases hl⟩
    simp only [before, Forest.values, String.ofList_toList, reread]
  | symbol name hn =>
    refine ⟨fun next => ?_, fun hl => by cases hl⟩
    simp only [before, Forest.values, (literalValue_symbol hn).1, reread]
  | pair id head tail _ _ hl ihHead ihTail =>
    have hlist : Value.ofList (head.before tail.elementForest).values = (Value.pair id head tail).reread := by
      rw [ihHead.1, reread, ← ihTail.2 hl]
      rfl
    exact ⟨fun next => congrArg (· :: next.values) hlist, fun _ => hlist⟩

/-- The literals of the forest of a readable value are numerals in full, or no numbers at all. -/
theorem Readable.sound_before {v : Value} (h : v.Readable) (strict : Bool) :
    (∀ next : Forest, next.Sound strict → (v.before next).Sound strict) ∧ v.elementForest.Sound strict := by
  have hnil : Forest.nil.Sound strict := fun cs hcs => by cases hcs
  induction h with
  | nil => exact ⟨fun next => .literal rfl, hnil⟩
  | bool b => exact ⟨fun next => .literal (by cases b <;> rfl), hnil⟩
  | double x hx => exact ⟨fun next => .literal (literalValue_double hx).2, hnil⟩
  | string s hs =>
    refine ⟨fun next hnext cs hcs => ?_, hnil⟩
    rcases List.mem_cons.1 hcs with heq | hcs
    · cases heq
    · exact hnext cs hcs
  | symbol name hn => exact ⟨fun next => .literal (literalValue_symbol hn).2, hnil⟩
  | pair id head tail _ _ hl ihHead ihTail =>
    have hinside := ihHead.1 _ ihTail.2
    exact ⟨fun next hnext => .list hinside hnext, hinside⟩

theorem Readable.depth_before {v : Value} (h : v.Readable) :
    (∀ next : Forest, (v.before next).depth = max v.nesting next.depth) ∧
      v.elementForest.depth = v.nesting - 1 := by
  induction h with
  | nil | bool | double | string | symbol => exact ⟨fun next => (Nat.zero_max _).symm, rfl⟩
  | pair id head tail _ _ hl ihHead ihTail =>
    have hinside := ihHead.1 tail.elementForest
    have htail := ihTail.2
    refine ⟨fun next => ?_, ?_⟩
    · simp only [before, Forest.depth, nesting]
      omega
    · simp only [elementForest, nesting]
      omega

/-! The text of a readable value by itself. -/

theorem Readable.scan_render {v : Value} (h : v.Readable) :
    (Lexeme.scan 0 v.render).map (·.token) = (v.before .nil).tokens := by
  have hscan := h.scan_write.1 0 [] (by rintro c ⟨⟩)
  rwa [scan_nil, List.map_nil, List.append_nil, List.append_nil] at hscan

theorem Readable.sound_render {v : Value} (h : v.Readable) (strict : Bool) : (v.before .nil).Sound strict :=
  (h.sound_before strict).1 .nil fun cs hcs => by cases hcs

theorem Readable.depth_render {v : Value} (h : v.Readable) {room : Nat} (hroom : v.nesting ≤ room) :
    (v.before .nil).depth ≤ room :=
  (h.depth_before.1 .nil).trans_le (Nat.max_le.2 ⟨hroom, Nat.zero_le _⟩)

theorem Readable.fault?_eq {v : Value} (h : v.Readable) : v.fault? (.source false) = none := by
  induction h with
  | nil | bool | double | string | symbol => rfl
  | pair id head tail _ _ _ ihHead ihTail => simp only [fault?, ihHead, ihTail, Option.or_none]

theorem Readable.text_eq {v : Value} (h : v.Readable) : v.text = .ok (String.ofList v.render) := by
  simp only [text, format, h.fault?_eq, render]

theorem Readable.same_reread {v : Value} (h : v.Readable) :
    v.same .strict v.reread = true ∧ v.same .loose v.reread = true := by
  induction h with
  | nil => exact ⟨rfl, rfl⟩
  | bool b => exact ⟨beq_self_eq_true b, beq_self_eq_true b⟩
  | double x hx => exact ⟨Number.eq_readBack hx, Number.eq_readBack hx⟩
  | string s hs => exact ⟨beq_self_eq_true s, beq_self_eq_true s⟩
  | symbol name hn => exact ⟨beq_self_eq_true name, beq_self_eq_true name⟩
  | pair id head tail _ _ _ ihHead ihTail =>
    simp only [reread, same, ihHead.1, ihTail.1, Bool.and_self, Bool.or_true, and_self]

end Value

/-! ### Texts with white space around them -/

/-- White space around `n` texts: in front of them, and behind each. Only what stands behind the last
text may be empty. -/
structure Spacing (n : Nat) where
  lead : List Char
  gaps : List (List Char)
  length_gaps : gaps.length = n
  blank_lead : ∀ c ∈ lead, Text.isBlank c = true
  blank_gaps : ∀ gap ∈ gaps, ∀ c ∈ gap, Text.isBlank c = true
  separated : ∀ gap ∈ gaps.dropLast, gap ≠ []

def joined (texts : List String) (gaps : List (List Char)) : List Char :=
  (List.zipWith (fun text gap => text.toList ++ gap) texts gaps).flatten

def Spacing.text {n : Nat} (spacing : Spacing n) (texts : List String) : String :=
  String.ofList (spacing.lead ++ joined texts spacing.gaps)

def Forest.ofValues (vs : List Value) : Forest := vs.foldr (fun v next => v.before next) .nil

section
variable {vs : List Value} (hvs : ∀ v ∈ vs, v.Readable)
include hvs

theorem scan_joined (gaps : List (List Char)) (hlen : gaps.length = vs.length)
    (hblank : ∀ gap ∈ gaps, ∀ c ∈ gap, Text.isBlank c = true) (hsep : ∀ gap ∈ gaps.dropLast, gap ≠ []) (n : Nat) :
    (Lexeme.scan n (joined (vs.map fun v => String.ofList v.render) gaps)).map (·.token) =
      (Forest.ofValues vs).tokens := by
  induction vs generalizing gaps n with
  | nil => simp [joined, scan_nil, Forest.ofValues, Forest.tokens]
  | cons v vs ih =>
    obtain ⟨gap, gaps, rfl⟩ := List.exists_cons_of_length_eq_add_one hlen
    have hgap := hblank gap (by simp)
    have hlen' : gaps.length = vs.length := by simpa using hlen
    have hsep' : ∀ g ∈ gaps.dropLast, g ≠ [] := by
      intro g hg
      cases gaps with
      | nil => cases hg
      | cons g' gs => exact hsep g (by simp [hg])
    have hrest := ih (fun w hw => hvs w (by simp [hw])) gaps hlen' (fun g hg => hblank g (by simp [hg])) hsep'
    -- a gap is empty only at the end of the text
    have hdelim : Delimited (gap ++ joined (vs.map fun v => String.ofList v.render) gaps) := by
      intro c hc
      cases gap with
      | cons b gap =>
        obtain rfl : b = c := by simpa using hc
        simp [isDelimiter, hgap b (by simp)]
      | nil =>
        cases gaps with
        | cons g gs => exact absurd rfl (hsep [] (by simp))
        | nil => simp [joined] at hc
    have htext : joined ((v :: vs).map fun v => String.ofList v.render) (gap :: gaps) =
        v.write false false ++ (gap ++ joined (vs.map fun v => String.ofList v.render) gaps) := by
      simp [joined, Value.render]
    rw [htext, (hvs v (by simp)).scan_write.1 n _ hdelim, scan_blanks hgap, hrest, ← Value.tokens_before]
    rfl

theorem mapM_text : vs.mapM Value.text = .ok (vs.map fun v => String.ofList v.render) := by
  induction vs with
  | nil => rfl
  | cons v vs ih =>
    rw [List.mapM_cons, (hvs v (by simp)).text_eq, ih fun w hw => hvs w (by simp [hw])]
    rfl

theorem values_ofValues : (Forest.ofValues vs).values = vs.map Value.reread := by
  induction vs with
  | nil => rfl
  | cons v vs ih =>
    rw [Forest.ofValues, List.foldr_cons, (hvs v (by simp)).values_before.1, ← Forest.ofValues,
      ih fun w hw => hvs w (by simp [hw])]
    rfl

theorem sound_ofValues (strict : Bool) : (Forest.ofValues vs).Sound strict := by
  induction vs with
  | nil => intro cs hcs; cases hcs
  | cons v vs ih => exact ((hvs v (by simp)).sound_before strict).1 _ (ih fun w hw => hvs w (by simp [hw]))

theorem depth_ofValues {room : Nat} (hroom : ∀ v ∈ vs, v.nesting ≤ room) : (Forest.ofValues vs).depth ≤ room := by
  induction vs with
  | nil => exact Nat.zero_le _
  | cons v vs ih =>
    refine ((hvs v (by simp)).depth_before.1 _).trans_le (Nat.max_le.2 ⟨hroom v (by simp), ?_⟩)
    exact ih (fun w hw => hvs w (by simp [hw])) fun w hw => hroom w (by simp [hw])

end

/-- The texts of readable values are read back as equal values, however they are spaced. -/
theorem readText_spaced (strict : Bool) (room : Nat) (vs : List Value) (hvs : ∀ v ∈ vs, v.Readable)
    (hroom : ∀ v ∈ vs, v.nesting ≤ room) (spacing : Spacing vs.length) :
    ∃ texts ws, vs.mapM Value.text = .ok texts ∧ readText ⟨strict, room⟩ (spacing.text texts) = .ok ws ∧
      List.Forall₂ (fun v w => v.same .loose w = true ∧ v.same .strict w = true) vs ws := by
  refine ⟨vs.map fun v => String.ofList v.render, vs.map Value.reread, ?_, ?_, ?_⟩
  · exact mapM_text hvs
  · have hscan : (Lexeme.scan 0 (spacing.text (vs.map fun v => String.ofList v.render)).toList).map (·.token) =
        (Forest.ofValues vs).tokens := by
      rw [Spacing.text, String.toList_ofList, scan_blanks spacing.blank_lead]
      exact scan_joined hvs spacing.gaps spacing.length_gaps spacing.blank_gaps spacing.separated _
    rw [readText_forest hscan (sound_ofValues hvs strict) (depth_ofValues hvs hroom), values_ofValues hvs]
  · rw [List.forall₂_map_right_iff]
    exact List.forall₂_same.2 fun v hv => (hvs v hv).same_reread.symm

def Spacing.twoLines : Spacing 2 where
  lead := []
  gaps := [['\n'], []]
  length_gaps := rfl
  blank_lead := by simp
  blank_gaps := by simp [Text.isBlank]
  separated := by simp

/-- A list of a symbol with a quote inside, a negative zero and `null`, then a string of a parenthesis. -/
theorem readText_spaced_minus_zero :
    ∃ texts ws,
      [Value.ofList [.symbol "-a\"b", .double (Binary64.ofCode true 0), .nil], .string "("].mapM Value.text =
        .ok texts ∧
      readText ⟨true, 1⟩ (Spacing.twoLines.text texts) = .ok ws ∧
      List.Forall₂ (fun v w => v.same .loose w = true ∧ v.same .strict w = true)
        [Value.ofList [.symbol "-a\"b", .double (Binary64.ofCode true 0), .nil], .string "("] ws :=
  readText_spaced true 1 [Value.ofList [.symbol "-a\"b", .double (Binary64.ofCode true 0), .nil], .string "("]
    (List.forall_mem_cons.2
      ⟨.pair _ _ _ (.symbol _ ⟨by decide, by simp; decide, by decide, by decide, by decide⟩)
        (.pair _ _ _ (.double _ (by decide +kernel)) (.pair _ _ _ .nil .nil rfl) rfl) rfl,
      List.forall_mem_cons.2 ⟨.string _ (by decide), fun v hv => by cases hv⟩⟩)
    (by decide) Spacing.twoLines

end Lisplet
