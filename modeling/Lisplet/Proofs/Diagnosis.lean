import Lisplet.Editor.Diagnostic
import Lisplet.Proofs.Balance
import Lisplet.Proofs.Headroom
import Lisplet.Proofs.Pieces
import Lisplet.Proofs.RoundTrip

/-!
# Diagnoses

`ofIndex_build`: a document has no diagnostics exactly if it is read, else one, which says what the
reader says. Every text that is read spells a forest, strictly or not (`exists_forest`), and the pieces
of the index are told apart by their characters as the tokens are (`Token.text_inj`); so the
parentheses of a text that is read balance, and the warning about them is never given.
-/

namespace Lisplet

/-! ### Texts that are read -/

section
variable {options : ReadOptions} {finish : Nat} {n : Nesting} {text : String}

theorem Nesting.accept_lenient {strict : Bool} {l : Lexeme} {progress : Progress}
    (h : n.accept strict l = .ok progress) : n.accept false l = .ok progress := by
  cases htok : l.token with
  | literal cs =>
    simp only [accept, htok, readLiteral_eq] at h ⊢
    split at h
    · cases h
    · simpa using h
  | _ => simpa only [accept, htok] using h

theorem readAll_lenient {ls : List Lexeme} (h : (readAll options finish n ls).failure = none) :
    readAll { options with strict := false } finish n ls = readAll options finish n ls := by
  induction ls generalizing n with
  | nil => rfl
  | cons l ls ih =>
    cases hres : n.accept options.strict l with
    | error failure => simp [readAll, hres] at h
    | ok progress =>
      have hlenient := Nesting.accept_lenient hres
      cases progress with
      | value v =>
        simp only [readAll, hres] at h
        simp only [readAll, hres, hlenient, ih h]
      | pending n' =>
        simp only [readAll, hres] at h
        simp only [readAll, hres, hlenient, ih h]

/-- Lexemes that are read spell a forest, and the values read are those of the forest. -/
theorem exists_forest_of_readAll {ls : List Lexeme}
    (h : (readAll options finish ⟨options.room, []⟩ ls).failure = none) :
    ∃ f : Forest, ls.map (·.token) = f.tokens ∧ f.values = (readAll options finish ⟨options.room, []⟩ ls).values := by
  -- With room for every list, the reader fails only as the count of open lists says.
  let ample := max options.room ((ls.map (·.token)).count .opening)
  have hlenient := readAll_lenient h
  have hample : readAll ⟨false, ample⟩ finish ⟨ample, []⟩ ls = readAll options finish ⟨options.room, []⟩ ls := by
    have hsettled : (readAll ⟨false, options.room⟩ finish ⟨options.room, []⟩ ls).failure ≠ some .exhausted := by
      simp [hlenient, h]
    rw [← hlenient]
    exact readAll_roomier (.mk [] (Nat.le_max_left ..)) (Nat.le_max_left ..) hsettled
  have hfits : Fits ample 0 (ls.map (·.token)) := .of_count (Nat.le_max_right ..)
  have hfault := readAll_failure (n := ⟨ample, []⟩) finish (Nat.add_zero ample) hfits
  rw [hample, h, eq_comm, Option.map_eq_none_iff] at hfault
  obtain ⟨f, fs, hfs, htokens⟩ := exists_forests hfault
  obtain rfl : fs = [] := List.length_eq_zero_iff.1 hfs
  have hf : ls.map (·.token) = f.tokens ++ [] := htokens
  refine ⟨f, by rw [hf, List.append_nil], ?_⟩
  rw [hf] at hfits
  rw [← hample, readAll_eq_values (by rw [hf, List.append_nil]) f.sound_lenient hfits.depth_le.1]

/-- A text that is read spells a forest, and the values read are those of the forest. -/
theorem exists_forest {vs : List Value} (h : readText options text = .ok vs) :
    ∃ f : Forest, f.tokens = tokensOf text ∧ f.values = vs := by
  have hfailure := failure_of_readText_ok h
  rw [Reader.ofText, Reader.all_eq] at hfailure
  obtain ⟨f, htokens, hvalues⟩ := exists_forest_of_readAll hfailure
  have hread : readText options text = .ok f.values := by
    simp only [readText, Reader.all_eq, hfailure, hvalues]
  exact ⟨f, htokens.symm, Except.ok.inj (hread.symm.trans h)⟩

end

theorem Forest.count_tokens (f : Forest) : f.tokens.count .closing = f.tokens.count .opening := by
  induction f with
  | nil => rfl
  | string body next ih | literal body next ih => simpa [tokens] using ih
  | list inner next ihInner ihNext => simp [tokens, ihInner, ihNext]; omega

/-! ### Tokens and their characters -/

/-- A token that a text is cut into: strings hold no quote, and literals are literals. -/
def Token.IsCut : Token → Prop
  | .opening | .closing => True
  | .quoted body | .unclosed body => '"' ∉ body
  | .literal cs => IsLiteral cs

theorem Lexeme.isCut_scan {n : Nat} {text : List Char} {l : Lexeme} (h : l ∈ scan n text) : l.token.IsCut := by
  have hbody : ∀ cs : List Char, '"' ∉ cs.takeWhile inQuotes := fun cs hmem => by
    have := List.mem_takeWhile_imp hmem
    simp [inQuotes] at this
  fun_induction scan n text with
  | case1 => cases h
  | case2 start c cs hblank ih => exact ih h
  | case3 start cs hblank ih | case4 start cs hblank ho ih =>
    rcases List.mem_cons.1 h with rfl | h
    · trivial
    · exact ih h
  | case5 start cs body hempty hblank ho hc =>
    obtain rfl := List.mem_singleton.1 h
    exact hbody cs
  | case6 start cs body hempty hblank ho hc ih =>
    rcases List.mem_cons.1 h with rfl | h
    · exact hbody cs
    · exact ih h
  | case7 start c cs hblank ho hc hq run ih =>
    rcases List.mem_cons.1 h with rfl | h
    · refine ⟨List.cons_ne_nil _ _, by simpa [run] using hq, fun a ha => ?_⟩
      rcases List.mem_cons.1 ha with rfl | ha
      · simp [isDelimiter, ho, hc, hblank]
      · simpa [inLiteral] using List.mem_takeWhile_imp ha
    · exact ih h

theorem IsLiteral.text_ne {cs : List Char} (h : IsLiteral cs) {t : Token} (ht : ∀ cs', t ≠ .literal cs') :
    t.text ≠ cs := by
  rintro rfl
  cases t with
  | opening => exact absurd (h.undelimited '(' (by simp [Token.text])) (by decide)
  | closing => exact absurd (h.undelimited ')' (by simp [Token.text])) (by decide)
  | quoted body | unclosed body => exact h.unquoted rfl
  | literal cs => exact ht cs rfl

/-- Tokens of texts are told apart by their characters. -/
theorem Token.text_inj {t t' : Token} (ht : t.IsCut) (ht' : t'.IsCut) (h : t.text = t'.text) : t = t' := by
  have hquoted : ∀ {body body' : List Char}, '"' ∉ body' → body ++ ['"'] ≠ body' := by
    rintro body _ hbody rfl
    simp at hbody
  cases t with
  | literal cs =>
    by_cases hlit : ∃ cs', t' = .literal cs'
    · obtain ⟨cs', rfl⟩ := hlit
      exact congrArg literal h
    · exact absurd h.symm (IsLiteral.text_ne ht fun cs' h' => hlit ⟨cs', h'⟩)
  | opening | closing =>
    cases t' with
    | literal cs' => exact absurd h (IsLiteral.text_ne ht' (by simp))
    | _ => simp_all [text]
  | quoted body =>
    cases t' with
    | quoted body' => simpa [text] using h
    | unclosed body' => exact absurd (List.cons.inj h).2 (hquoted ht')
    | literal cs' => exact absurd h (IsLiteral.text_ne ht' (by simp))
    | opening | closing => simp [text] at h
  | unclosed body =>
    cases t' with
    | quoted body' => exact absurd (List.cons.inj h).2.symm (hquoted ht)
    | unclosed body' => simpa [text] using h
    | literal cs' => exact absurd h (IsLiteral.text_ne ht' (by simp))
    | opening | closing => simp [text] at h

/-! ### Places -/

namespace Text

theorem foldl_advance (cs : List Char) :
    cs.foldl Position.advance ⟨0, 0⟩ = ⟨cs.count '\n', (cs.reverse.takeWhile (· != '\n')).length⟩ := by
  induction cs using List.reverseRecOn with
  | nil => rfl
  | append_singleton cs c ih =>
    rw [List.foldl_concat, ih, Position.advance]
    by_cases hc : c = '\n' <;> simp [hc]

/-- The line of an offset is the number of newlines before it, and the column counts back to the last
one of them. -/
theorem positionOf_eq {text : List Char} {offset : Nat} (h : offset ≤ text.length) :
    positionOf text offset =
      ⟨(text.take offset).count '\n', ((text.take offset).reverse.takeWhile (· != '\n')).length⟩ := by
  rw [positionOf, foldl_advance, Nat.sub_eq_zero_of_le h]
  rfl

end Text

theorem Consumption.position_fault {finish position : Nat} {ls taken : List Lexeme} {fault : ReadFault}
    (h : Consumption finish ls taken (some (.unreadable fault)) position) :
    fault.position = finish ∨ ∃ l ∈ ls, fault.position = l.start := by
  generalize hfailure : some (Failure.unreadable fault) = failure at h
  induction h with
  | complete | exhausted => cases hfailure
  | ended =>
    cases hfailure
    exact .inl rfl
  | @refused l fault hposition after =>
    cases hfailure
    exact .inr ⟨l, List.mem_cons_self .., hposition⟩
  | cons l _ ih =>
    exact (ih hfailure).imp_right fun ⟨k, hk, hposition⟩ => ⟨k, List.mem_cons_of_mem _ hk, hposition⟩

/-- A reader stops in the text. -/
theorem Consumption.position_le {finish position : Nat} {ls taken : List Lexeme} {failure : Option Failure}
    (h : Consumption finish ls taken failure position) (hls : ∀ l ∈ ls, l.stop ≤ finish) : position ≤ finish := by
  induction h with
  | complete | ended => exact Nat.le_refl _
  | refused | exhausted => exact hls _ (List.mem_cons_self ..)
  | cons l _ ih => exact ih fun k hk => hls k (List.mem_cons_of_mem _ hk)

/-- Reading fails for a fault in the text or for want of room. -/
theorem Consumption.failure_cases {finish position : Nat} {ls taken : List Lexeme} {failure : Failure}
    (h : Consumption finish ls taken (some failure) position) :
    failure = .exhausted ∨ ∃ fault, failure = .unreadable fault := by
  generalize hfailure : some failure = stop at h
  induction h with
  | complete => cases hfailure
  | ended | refused =>
    cases hfailure
    exact .inr ⟨_, rfl⟩
  | exhausted =>
    cases hfailure
    exact .inl rfl
  | cons l _ ih => exact ih hfailure

namespace Editor

open Text (positionOf)

variable {options : ReadOptions} {text : String}

theorem position_fault {fault : ReadFault} (h : readText options text = .error (.unreadable fault)) :
    fault.position ≤ text.length := by
  have hconsumption := Reader.consumption (.ofText options text)
  rw [failure_of_readText_error h] at hconsumption
  rcases hconsumption.position_fault with heq | ⟨l, hl, heq⟩
  · rw [heq, Reader.finish, Reader.ofText, Nat.zero_max, String.length_toList]
  · rw [Reader.lexemes_ofText] at hl
    have := Lexeme.scan_bounds hl
    rw [String.length_toList] at this
    omega

theorem position_all_le (options : ReadOptions) (text : String) :
    (Reader.ofText options text).all.position ≤ text.length := by
  have hposition := (Reader.consumption (.ofText options text)).position_le fun l hl => by
    rw [Reader.lexemes_ofText] at hl
    have := Lexeme.scan_bounds hl
    rw [Nat.zero_add] at this
    exact this.2.2.trans (Nat.le_max_right ..)
  rwa [Reader.finish, Reader.ofText, Nat.zero_max, String.length_toList] at hposition

theorem countP_pieces {t : Token} (ht : t.IsCut) (text : String) :
    (pieces text.toList).countP (·.text = t.text) = (tokensOf text).count t := by
  rw [pieces_eq, tokensOf, List.countP_map, List.count, List.countP_map]
  refine List.countP_congr fun l hl => ?_
  show decide (l.token.text = t.text) = true ↔ (l.token == t) = true
  rw [decide_eq_true_iff, beq_iff_eq]
  exact ⟨Token.text_inj (Lexeme.isCut_scan hl) ht, congrArg Token.text⟩

theorem parenBalance_eq_zero {vs : List Value} (h : readText options text = .ok vs) :
    parenBalance (pieces text.toList) = 0 := by
  obtain ⟨f, hf, -⟩ := exists_forest h
  have hopening := countP_pieces (t := .opening) trivial text
  have hclosing := countP_pieces (t := .closing) trivial text
  have hcount := f.count_tokens
  rw [hf, ← hopening, ← hclosing] at hcount
  exact Int.sub_eq_zero.2 (congrArg Nat.cast hcount.symm)

theorem problem?_of_ok {vs : List Value} (h : readText options text = .ok vs) :
    problem? options text.toList = none := by
  have hfailure := failure_of_readText_ok h
  rw [Reader.ofText] at hfailure
  rw [problem?, hfailure]

theorem problem?_of_error {failure : Failure} (h : readText options text = .error failure) :
    problem? options text.toList = some (match failure with
      | .unreadable fault => ⟨fault.message, positionOf text.toList fault.position⟩
      | _ => ⟨"input nested too deeply", positionOf text.toList (Reader.ofText options text).all.position⟩) := by
  have hfailure := failure_of_readText_error h
  rw [Reader.ofText] at hfailure
  rw [problem?, hfailure]
  cases failure <;> rfl

theorem problem?_eq_none_iff : problem? options text.toList = none ↔ ∃ vs, readText options text = .ok vs := by
  cases hread : readText options text with
  | ok vs => simp [problem?_of_ok hread]
  | error failure => simp [problem?_of_error hread]

/-- The diagnostics of a text: none exactly if it is read, else the one error that the reader reports, with
the line and the column of its place, or of the place where the reader gives up if the text is nested too
deeply. The parentheses of an index without a problem balance. -/
structure Diagnosed (options : ReadOptions) (text : String) : Prop where
  clean : Diagnostic.ofIndex (Index.build options text.toList) = [] ↔ ∃ vs, readText options text = .ok vs
  faulty : ∀ fault, readText options text = .error (.unreadable fault) →
    Diagnostic.ofIndex (Index.build options text.toList) =
      [⟨⟨(text.toList.take fault.position).count '\n',
          ((text.toList.take fault.position).reverse.takeWhile (· != '\n')).length⟩, fault.message, .error⟩]
  nested : ∀ failure, readText options text = .error failure → (∀ fault, failure ≠ .unreadable fault) →
    failure = .exhausted ∧
      let place := (Reader.ofText options text).all.position
      Diagnostic.ofIndex (Index.build options text.toList) =
        [⟨⟨(text.toList.take place).count '\n', ((text.toList.take place).reverse.takeWhile (· != '\n')).length⟩,
          "input nested too deeply", .error⟩]
  balanced : (Index.build options text.toList).problem = none → (Index.build options text.toList).balance = 0

theorem balance_of_problem (h : problem? options text.toList = none) : parenBalance (pieces text.toList) = 0 := by
  obtain ⟨vs, hread⟩ := problem?_eq_none_iff.1 h
  exact parenBalance_eq_zero hread

theorem ofIndex_build (options : ReadOptions) (text : String) : Diagnosed options text where
  clean := by
    refine ⟨fun h => ?_, fun h => ?_⟩
    · by_contra hread
      obtain ⟨problem, hproblem⟩ := Option.ne_none_iff_exists'.1 (mt problem?_eq_none_iff.1 hread)
      simp only [Diagnostic.ofIndex, Index.build, hproblem] at h
      cases h
    · have hproblem := problem?_eq_none_iff.2 h
      simp [Diagnostic.ofIndex, Index.build, hproblem, balance_of_problem hproblem]
  faulty fault hread := by
    have hplace : fault.position ≤ text.toList.length := String.length_toList ▸ position_fault hread
    simp only [Diagnostic.ofIndex, Index.build, problem?_of_error hread, Text.positionOf_eq hplace]
  nested failure hread hfault := by
    have hconsumption := Reader.consumption (.ofText options text)
    rw [failure_of_readText_error hread] at hconsumption
    rcases hconsumption.failure_cases with rfl | ⟨fault, hfailure⟩
    · have hplace : (Reader.ofText options text).all.position ≤ text.toList.length :=
        String.length_toList ▸ position_all_le options text
      simp only [Diagnostic.ofIndex, Index.build, problem?_of_error hread, Text.positionOf_eq hplace, true_and]
    · exact absurd hfailure (hfault fault)
  balanced := balance_of_problem

/-- A literal in the second line that starts as a number, in a list that is not closed. -/
theorem ofIndex_build_malformed :
    readText ⟨true, 9⟩ "(a\n 1b" = .error (.unreadable (.malformedNumber "1b" 4)) ∧
      Diagnostic.ofIndex (Index.build ⟨true, 9⟩ "(a\n 1b".toList) =
        [⟨⟨1, 1⟩, "malformed number '1b' at 4", .error⟩] := by
  have hread : readText ⟨true, 9⟩ "(a\n 1b" = .error (.unreadable (.malformedNumber "1b" 4)) := by rfl
  refine ⟨hread, ((ofIndex_build ⟨true, 9⟩ "(a\n 1b").faulty _ hread).trans ?_⟩
  decide +kernel

end Editor

end Lisplet
