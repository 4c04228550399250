import Lisplet.Editor.Assist
import Lisplet.Proofs.TopLevel

/-!
# Hovering over definitions

The index counts lines by newlines alone and cuts names at every blank. The word at a position is
looked up in lines that other marks end too, and it goes on over blanks that end no word.
`symbols_foundIn`: where these agree, the position of a definition leads back to its name; with plain line
ends before it, the position does so in no other case. `symbols_missed` has a text for each difference.
-/

namespace Lisplet

namespace Text

/-! ### Lines -/

/-- Lines end in a newline, with or without a carriage return before it, and in nothing else. -/
def hasPlainEnds : List Char → Bool
  | [] => true
  | '\r' :: '\n' :: cs => hasPlainEnds cs
  | c :: cs => (c == '\n' || !isLineEnd c) && hasPlainEnds cs

section
variable {c : Char} {cs held row rest earlier : List Char}

theorem linesFrom_cons (hc : isLineEnd c = false) : linesFrom held (c :: cs) = linesFrom (c :: held) cs := by
  have hne : c ≠ '\r' := by
    rintro rfl
    cases hc
  rw [linesFrom, if_neg (by simp [hc])]
  exact fun cs' h _ => hne h

theorem linesFrom_end (hc : isLineEnd c = true) (hpair : c = '\r' → cs.head? ≠ some '\n') :
    linesFrom held (c :: cs) = (c :: held).reverse :: linesFrom [] cs := by
  rw [linesFrom, if_pos hc]
  rintro cs' rfl rfl
  exact hpair rfl rfl

theorem linesFrom_row (h : ∀ c ∈ row, isLineEnd c = false) :
    linesFrom held (row ++ rest) = linesFrom (row.reverse ++ held) rest := by
  induction row generalizing held with
  | nil => rfl
  | cons c cs ih =>
    obtain ⟨hc, hcs⟩ := List.forall_mem_cons.1 h
    rw [List.cons_append, linesFrom_cons hc, ih hcs, List.reverse_cons, List.append_assoc]
    rfl

theorem getLast?_of_cons (h : ∀ d ∈ (c :: cs).getLast?, d = '\n') : ∀ d ∈ cs.getLast?, d = '\n' := by
  intro d hd
  refine h d ?_
  rw [List.getLast?_cons, hd]
  rfl

/-- Up to a newline there are as many lines as newlines. -/
theorem exists_linesFrom (hplain : hasPlainEnds earlier) (hlast : ∀ c ∈ earlier.getLast?, c = '\n')
    (hheld : earlier = [] → held = []) :
    ∃ ls, linesFrom held (earlier ++ rest) = ls ++ linesFrom [] rest ∧ ls.length = earlier.count '\n' := by
  fun_induction hasPlainEnds earlier generalizing held with
  | case1 => exact ⟨[], by rw [hheld rfl]; rfl, rfl⟩
  | case2 cs ih =>
    obtain ⟨ls, hls, hlength⟩ := ih hplain (getLast?_of_cons (getLast?_of_cons hlast)) fun _ => rfl
    refine ⟨('\n' :: '\r' :: held).reverse :: ls, ?_, by simp [hlength]⟩
    rw [List.cons_append, List.cons_append, linesFrom, hls, List.cons_append]
  | case3 c cs hpair ih =>
    obtain ⟨hc, hplain⟩ := Bool.and_eq_true_iff.1 hplain
    by_cases hend : isLineEnd c = true
    · obtain rfl : c = '\n' := by simpa [hend] using hc
      obtain ⟨ls, hls, hlength⟩ := ih hplain (getLast?_of_cons hlast) fun _ => rfl
      refine ⟨('\n' :: held).reverse :: ls, ?_, by simp [hlength]⟩
      rw [List.cons_append, linesFrom_end hend (by simp), hls, List.cons_append]
    · have hne : c ≠ '\n' := by
        rintro rfl
        exact hend rfl
      -- the line that `c` stands in goes on, because a newline comes later
      have hcs : cs ≠ [] := by
        rintro rfl
        exact hne (hlast c rfl)
      obtain ⟨ls, hls, hlength⟩ := ih hplain (getLast?_of_cons hlast) fun h => absurd h hcs
      refine ⟨ls, ?_, by rw [hlength, List.count_cons_of_ne hne]⟩
      rw [List.cons_append, linesFrom_cons (by simpa using hend), hls]

theorem getElem?_lines (hplain : hasPlainEnds earlier) (hlast : ∀ c ∈ earlier.getLast?, c = '\n') :
    (lines (earlier ++ rest))[earlier.count '\n']? = (lines rest).head? := by
  obtain ⟨ls, hls, hlength⟩ := exists_linesFrom hplain hlast fun _ => rfl
  rw [lines, hls, ← hlength, List.getElem?_append_right (Nat.le_refl _), Nat.sub_self, List.head?_eq_getElem?]
  rfl

/-- A line that has begun goes on with what follows, at least by one character. -/
theorem head?_linesFrom (hheld : held ≠ []) (rest : List Char) :
    ∃ tail, (linesFrom held rest).head? = some (held.reverse ++ tail) ∧ tail.head? = rest.head? := by
  fun_induction linesFrom held rest with
  | case1 held hempty => exact absurd (List.isEmpty_iff.1 hempty) hheld
  | case2 held hempty => exact ⟨[], by simp, rfl⟩
  | case3 held cs => exact ⟨['\r', '\n'], by simp, rfl⟩
  | case4 held c cs hpair hend => exact ⟨[c], by simp, rfl⟩
  | case5 held c cs hpair hend ih =>
    obtain ⟨tail, hline, -⟩ := ih (List.cons_ne_nil _ _)
    exact ⟨c :: tail, by simpa using hline, rfl⟩

theorem head?_lines (hne : row ≠ []) (hrow : ∀ c ∈ row, isLineEnd c = false) (rest : List Char) :
    ∃ tail, (lines (row ++ rest)).head? = some (row ++ tail) ∧ tail.head? = rest.head? := by
  obtain ⟨tail, hline, htail⟩ := head?_linesFrom (mt List.reverse_eq_nil_iff.1 hne) rest
  refine ⟨tail, ?_, htail⟩
  rw [lines, linesFrom_row hrow, List.append_nil, hline, List.reverse_reverse]

theorem head?_append_ne (hrow : '\n' ∉ row) (hrest : rest.head? ≠ some '\n') : (row ++ rest).head? ≠ some '\n' := by
  cases row with
  | nil => exact hrest
  | cons c cs =>
    rintro ⟨⟩
    exact hrow (List.mem_cons_self ..)

/-- A row in which a line ends is at least as long as the first line. -/
theorem head?_linesFrom_stray (hend : ∃ c ∈ row, isLineEnd c = true) (hrow : '\n' ∉ row)
    (hrest : rest.head? ≠ some '\n') (held : List Char) :
    ∃ line, (linesFrom held (row ++ rest)).head? = some line ∧ line.length ≤ held.length + row.length := by
  induction row generalizing held with
  | nil => simp at hend
  | cons c cs ih =>
    rw [List.cons_append]
    have hcs : '\n' ∉ cs := fun h => hrow (List.mem_cons_of_mem _ h)
    by_cases hc : isLineEnd c = true
    · rw [linesFrom_end hc fun _ => head?_append_ne hcs hrest]
      exact ⟨_, rfl, by simp⟩
    · rw [linesFrom_cons (by simpa using hc)]
      have hlater : ∃ c ∈ cs, isLineEnd c = true := by simpa [hc] using hend
      obtain ⟨line, hline, hlength⟩ := ih hlater hcs (c :: held)
      exact ⟨line, hline, by simp only [List.length_cons] at hlength ⊢; omega⟩

end

section
variable {c : Char} {cs row rest earlier : List Char}

theorem hasPlainEnds_cons (hpair : c = '\r' → cs.head? ≠ some '\n') :
    hasPlainEnds (c :: cs) = ((c == '\n' || !isLineEnd c) && hasPlainEnds cs) := by
  rw [hasPlainEnds]
  rintro cs' rfl rfl
  exact hpair rfl rfl

theorem hasPlainEnds_append (h : hasPlainEnds (earlier ++ rest)) (hlast : ∀ c ∈ earlier.getLast?, c = '\n') :
    hasPlainEnds earlier ∧ hasPlainEnds rest := by
  fun_induction hasPlainEnds earlier with
  | case1 => exact ⟨rfl, h⟩
  | case2 cs ih => exact ih h (getLast?_of_cons (getLast?_of_cons hlast))
  | case3 c cs hpair ih =>
    have hnext : c = '\r' → (cs ++ rest).head? ≠ some '\n' := by
      rintro rfl
      cases cs with
      | nil => exact absurd (hlast _ rfl) (by decide)
      | cons d cs =>
        rintro ⟨⟩
        exact hpair cs rfl rfl
    rw [List.cons_append, hasPlainEnds_cons hnext, Bool.and_eq_true] at h
    obtain ⟨hcs, hrest⟩ := ih h.2 (getLast?_of_cons hlast)
    exact ⟨Bool.and_eq_true_iff.2 ⟨h.1, hcs⟩, hrest⟩

theorem isLineEnd_of_hasPlainEnds (h : hasPlainEnds (row ++ rest)) (hrow : '\n' ∉ row)
    (hrest : rest.head? ≠ some '\n') : ∀ c ∈ row, isLineEnd c = false := by
  induction row with
  | nil => simp
  | cons c cs ih =>
    have hcs : '\n' ∉ cs := fun h => hrow (List.mem_cons_of_mem _ h)
    have hc : c ≠ '\n' := by
      rintro rfl
      exact hrow (List.mem_cons_self ..)
    rw [List.cons_append, hasPlainEnds_cons fun _ => head?_append_ne hcs hrest, Bool.and_eq_true] at h
    exact List.forall_mem_cons.2 ⟨by simpa [hc] using h.1, ih h.2 hcs⟩

end

/-- What is counted up to a place is the newlines before its row, and then the row. -/
theorem exists_foldl_advance (before : List Char) :
    ∃ earlier row, before = earlier ++ row ∧ (∀ c ∈ earlier.getLast?, c = '\n') ∧ '\n' ∉ row ∧
      before.foldl Position.advance ⟨0, 0⟩ = ⟨earlier.count '\n', row.length⟩ := by
  induction before using List.reverseRecOn with
  | nil => exact ⟨[], [], rfl, by simp, by simp, rfl⟩
  | append_singleton before c ih =>
    obtain ⟨earlier, row, rfl, hlast, hrow, hcount⟩ := ih
    rw [List.foldl_concat, hcount, Position.advance]
    by_cases hc : c = '\n'
    · subst hc
      refine ⟨earlier ++ row ++ ['\n'], [], by simp, by simp, by simp, ?_⟩
      rw [if_pos rfl, List.count_append, List.count_append, List.count_eq_zero_of_not_mem hrow]
      rfl
    · refine ⟨earlier, row ++ [c], by simp, hlast, by simpa using ⟨hrow, Ne.symm hc⟩, ?_⟩
      rw [if_neg hc, List.length_append]
      rfl

theorem isBlank_of_isLineEnd {c : Char} (h : isLineEnd c = true) : isBlank c = true := by
  simp only [isLineEnd, isBlank, Bool.or_eq_true, Bool.and_eq_true, decide_eq_true_eq, beq_iff_eq] at h ⊢
  omega

end Text

/-- Two literals, one behind the other, have a blank between them. -/
theorem Lexeme.scan_literals {n : Nat} {text ks cs : List Char} {ls₁ ls₂ : List Lexeme} {k l : Lexeme}
    (h : scan n text = ls₁ ++ k :: l :: ls₂) (hk : k.token = .literal ks) (hl : l.token = .literal cs) :
    ∃ before after, text = before ++ (cs ++ after) ∧ l.start = n + before.length ∧
      (∃ c ∈ before.getLast?, Text.isBlank c = true) ∧ Delimited after := by
  rw [List.append_cons] at h
  obtain ⟨before, rest, rfl, hrest, hdelimited⟩ := scan_eq_append h
  obtain ⟨gap, after, rfl, hgap, hstart, -, -, hafter⟩ := scan_eq_cons hrest.symm
  have hcut : IsLiteral cs := by
    have hl' := isCut_scan (h ▸ List.mem_append_right _ (List.mem_cons_self ..) : l ∈ _)
    rwa [hl] at hl'
  -- the first literal ends at a delimiter, with which the second one cannot begin
  have hne : gap ≠ [] := by
    rintro rfl
    obtain ⟨c, cs, rfl⟩ := List.exists_cons_of_ne_nil hcut.nonempty
    have hc := hdelimited k (by rw [List.getLast?_concat]; rfl) ks hk c (by rw [hl]; rfl)
    rw [hcut.undelimited c (List.mem_cons_self ..)] at hc
    cases hc
  rw [hl]
  refine ⟨before ++ gap, after, by simp [Token.text], by rw [hstart, List.length_append, Nat.add_assoc], ?_,
    hafter cs hl⟩
  refine ⟨gap.getLast hne, ?_, hgap _ (List.getLast_mem hne)⟩
  rw [List.getLast?_append_of_ne_nil _ hne, List.getLast?_eq_some_getLast hne]
  rfl

/-! ### Words -/

namespace Editor

open Text (Position hasPlainEnds isLineEnd isBlank)

theorem isDelimiter_of_isWordEnd {c : Char} (h : isWordEnd c = true) : Lexeme.isDelimiter c = true := by
  simp only [isWordEnd, Bool.or_eq_true, beq_iff_eq] at h
  rcases h with ((((rfl | rfl) | rfl) | rfl) | rfl) | rfl <;> rfl

section
variable {row name tail earlier after : List Char} {k : Nat}

/-- In a row, the word at a name is the name with what stands next to it. -/
theorem wordIn_eq (hname : ∀ c ∈ name, isWordEnd c = false) (hk : k ≤ name.length) :
    wordIn (row ++ name ++ tail) (row.length + k) =
      (row.reverse.takeWhile fun c => !isWordEnd c).reverse ++ name ++ tail.takeWhile fun c => !isWordEnd c := by
  have htake : (row ++ name ++ tail).take (row.length + k) = row ++ name.take k := by
    rw [List.append_assoc, List.take_length_add_append, List.take_append_of_le_length hk]
  have hdrop : (row ++ name ++ tail).drop (row.length + k) = name.drop k ++ tail := by
    rw [List.append_assoc, List.drop_length_add_append, List.drop_append_of_le_length hk]
  have hleft : ∀ c ∈ (name.take k).reverse, (!isWordEnd c) = true := fun c hc => by
    simp [hname c (List.mem_of_mem_take (List.mem_reverse.1 hc))]
  have hright : ∀ c ∈ name.drop k, (!isWordEnd c) = true := fun c hc => by
    simp [hname c (List.mem_of_mem_drop hc)]
  rw [wordIn, htake, hdrop, List.reverse_append, List.takeWhile_append_of_pos hleft,
    List.takeWhile_append_of_pos hright, List.reverse_append, List.reverse_reverse]
  conv_rhs => rw [← List.take_append_drop k name]
  simp only [List.append_assoc]

theorem takeWhile_eq_nil {cs : List Char} :
    (cs.takeWhile fun c => !isWordEnd c) = [] ↔ ∀ c ∈ cs.head?, isWordEnd c = true := by
  cases cs with
  | nil => simp
  | cons c cs => by_cases hc : isWordEnd c = true <;> simp [hc]

end

/-! ### Definitions in their text -/

/-- Where the name of an entry stands in a text: in a row behind the lines that come earlier, between a blank
and a delimiter. -/
structure SymbolEntry.Stands (entry : SymbolEntry) (text earlier row after : List Char) : Prop where
  split : text = earlier ++ (row ++ (entry.name.toList ++ after))
  literal : IsLiteral entry.name.toList
  ended : ∀ c ∈ earlier.getLast?, c = '\n'
  unbroken : '\n' ∉ row
  position : entry.position = ⟨earlier.count '\n', row.length⟩
  blank : ∃ c ∈ (earlier ++ row).getLast?, isBlank c = true
  delimited : Lexeme.Delimited after

/-- The position of an entry leads to its name, from the first column of the name to the one behind it. -/
def SymbolEntry.FoundIn (entry : SymbolEntry) (text : List Char) : Prop :=
  ∀ column, entry.position.column ≤ column → column ≤ entry.position.column + entry.name.length →
    wordAt text ⟨entry.position.line, column⟩ = .ok (some entry.name)

namespace SymbolEntry.Stands

variable {entry : SymbolEntry} {text earlier row after : List Char}

theorem isWordEnd_eq (h : entry.Stands text earlier row after) : ∀ c ∈ entry.name.toList, isWordEnd c = false := by
  intro c hc
  by_contra hend
  have hdelimiter := isDelimiter_of_isWordEnd (by simpa using hend)
  rw [h.literal.undelimited c hc] at hdelimiter
  cases hdelimiter

theorem isLineEnd_eq (h : entry.Stands text earlier row after) : ∀ c ∈ entry.name.toList, isLineEnd c = false := by
  intro c hc
  by_contra hend
  have hblank := Text.isBlank_of_isLineEnd (by simpa using hend)
  have hdelimiter := h.literal.undelimited c hc
  simp [Lexeme.isDelimiter, hblank] at hdelimiter

theorem head?_ne (h : entry.Stands text earlier row after) : (entry.name.toList ++ after).head? ≠ some '\n' := by
  intro hhead
  rw [List.head?_append_of_ne_nil _ h.literal.nonempty] at hhead
  exact absurd (h.isLineEnd_eq _ (List.mem_of_mem_head? hhead)) (by decide)

theorem length_pos (h : entry.Stands text earlier row after) : 0 < entry.name.length := by
  rw [← String.length_toList]
  exact List.length_pos_of_ne_nil h.literal.nonempty

theorem getElem?_lines (h : entry.Stands text earlier row after) (hplain : hasPlainEnds earlier) :
    (Text.lines text)[entry.position.line]? = (Text.lines (row ++ (entry.name.toList ++ after))).head? := by
  rw [h.split, h.position, Text.getElem?_lines hplain h.ended]

/-- If no line ends in the row, the word at the name is the name with what stands next to it in the line. -/
theorem exists_wordAt (h : entry.Stands text earlier row after) (hplain : hasPlainEnds earlier)
    (hrow : ∀ c ∈ row, isLineEnd c = false) :
    ∃ tail : List Char, tail.head? = after.head? ∧ ∀ k ≤ entry.name.length,
      wordAt text ⟨entry.position.line, row.length + k⟩ =
        .ok (some (String.ofList ((row.reverse.takeWhile fun c => !isWordEnd c).reverse ++ entry.name.toList ++
          tail.takeWhile fun c => !isWordEnd c))) := by
  have hne : row ++ entry.name.toList ≠ [] := List.append_ne_nil_of_right_ne_nil _ h.literal.nonempty
  have hfree : ∀ c ∈ row ++ entry.name.toList, isLineEnd c = false := by
    intro c hc
    rcases List.mem_append.1 hc with hc | hc
    · exact hrow c hc
    · exact h.isLineEnd_eq c hc
  obtain ⟨tail, hline, htail⟩ := Text.head?_lines hne hfree after
  refine ⟨tail, htail, fun k hk => ?_⟩
  rw [← String.length_toList] at hk
  have hinside : ¬ (row ++ entry.name.toList ++ tail).length < row.length + k := by
    simp only [List.length_append]
    omega
  rw [List.append_assoc] at hline
  simp only [wordAt, h.getElem?_lines hplain, hline, if_neg hinside, wordIn_eq h.isWordEnd_eq hk]
  rw [if_neg (by simp [h.literal.nonempty])]

/-- If a line ends in the row, the line that is looked at ends before the name does. -/
theorem wordAt_stray (h : entry.Stands text earlier row after) (hplain : hasPlainEnds earlier)
    (hrow : ∃ c ∈ row, isLineEnd c = true) :
    wordAt text ⟨entry.position.line, row.length + entry.name.length⟩ = .error .beyondLine := by
  obtain ⟨line, hline, hlength⟩ := Text.head?_linesFrom_stray hrow h.unbroken h.head?_ne []
  have hbeyond : line.length < row.length + entry.name.length := by
    have hpos := h.length_pos
    simp only [List.length_nil] at hlength
    omega
  have hlines : (Text.lines text)[entry.position.line]? = some line := (h.getElem?_lines hplain).trans hline
  simp only [wordAt, hlines, if_pos hbeyond]

theorem foundIn_iff (h : entry.Stands text earlier row after) (hplain : hasPlainEnds earlier) :
    entry.FoundIn text ↔ (∀ c ∈ row, isLineEnd c = false) ∧ (∀ c ∈ row.getLast?, isWordEnd c = true) ∧
      ∀ c ∈ after.head?, isWordEnd c = true := by
  have hcolumn : entry.position.column = row.length := by rw [h.position]
  rw [FoundIn, hcolumn]
  constructor
  · intro hfound
    have hrow : ∀ c ∈ row, isLineEnd c = false := by
      by_contra hstray
      have herror := h.wordAt_stray hplain (by simpa using hstray)
      rw [hfound _ (Nat.le_add_right ..) (Nat.le_refl _)] at herror
      cases herror
    obtain ⟨tail, htail, hword⟩ := h.exists_wordAt hplain hrow
    have hname := (hfound _ (Nat.le_refl _) (Nat.le_add_right ..)).symm.trans (hword 0 (Nat.zero_le _))
    have hlength := congrArg String.length (Option.some.inj (Except.ok.inj hname))
    simp only [String.length_ofList, List.length_append, String.length_toList, List.length_reverse] at hlength
    refine ⟨hrow, ?_, ?_⟩
    · rw [← List.head?_reverse]
      exact takeWhile_eq_nil.1 (List.length_eq_zero_iff.1 (by omega))
    · rw [← htail]
      exact takeWhile_eq_nil.1 (List.length_eq_zero_iff.1 (by omega))
  · rintro ⟨hrow, hleft, hright⟩ column hmin hmax
    obtain ⟨tail, htail, hword⟩ := h.exists_wordAt hplain hrow
    obtain ⟨k, rfl⟩ := Nat.exists_eq_add_of_le hmin
    rw [hword k (by omega), takeWhile_eq_nil.2 (by rwa [List.head?_reverse]), takeWhile_eq_nil.2 (by rwa [htail])]
    simp

/-- In a text with plain line ends and blanks, every definition is found. -/
theorem foundIn (h : entry.Stands text earlier row after) (hplain : hasPlainEnds text)
    (hblanks : ∀ c ∈ text, isBlank c = true → isWordEnd c = true) : entry.FoundIn text := by
  have hsplit := h.split
  rw [hsplit] at hplain
  obtain ⟨hearlier, hrest⟩ := Text.hasPlainEnds_append hplain h.ended
  refine (h.foundIn_iff hearlier).2 ⟨Text.isLineEnd_of_hasPlainEnds hrest h.unbroken h.head?_ne, ?_, ?_⟩
  · intro c hc
    obtain ⟨d, hd, hblank⟩ := h.blank
    rw [List.getLast?_append, hc] at hd
    cases hd
    exact hblanks c (by simp [hsplit, List.mem_of_getLast? hc]) hblank
  · intro c hc
    have hdelimiter := h.delimited c hc
    simp only [Lexeme.isDelimiter, Bool.or_eq_true, beq_iff_eq] at hdelimiter
    rcases hdelimiter with (rfl | rfl) | hblank
    · rfl
    · rfl
    · exact hblanks c (by simp [hsplit, List.mem_of_mem_head? hc]) hblank

end SymbolEntry.Stands

/-- A definition at top level stands in the pieces behind its keyword. -/
theorem mem_definedNames {depth : Nat} {ps : List Piece} {d : Piece × SymbolKind} (h : d ∈ definedNames depth ps) :
    ∃ before keyword rest, ps = before ++ keyword :: d.1 :: rest ∧
      keyword.text = SpecialForm.definition.keyword.toList ∧
      d.1.text ≠ ['('] ∧ d.1.text ≠ [')'] ∧ d.1.text.head? ≠ some '"' := by
  induction ps generalizing depth with
  | nil => cases h
  | cons p ps ih =>
    have hlater : ∀ {depth}, d ∈ definedNames depth ps → ∃ before keyword rest,
        p :: ps = before ++ keyword :: d.1 :: rest ∧ keyword.text = SpecialForm.definition.keyword.toList ∧
          d.1.text ≠ ['('] ∧ d.1.text ≠ [')'] ∧ d.1.text.head? ≠ some '"' := by
      intro depth h
      obtain ⟨before, keyword, rest, rfl, hname⟩ := ih h
      exact ⟨p :: before, keyword, rest, rfl, hname⟩
    rw [definedNames] at h
    split_ifs at h
    · rcases List.mem_append.1 h with h | h
      · obtain ⟨keyword, rest, rfl, hname⟩ := definedName?_eq_some (Option.mem_toList.1 h)
        exact ⟨[p], keyword, rest, rfl, hname⟩
      · exact hlater h
    · exact hlater h
    · exact hlater h
    · exact hlater h

theorem Piece.Shows.literal {p : Piece} {t : Token} (h : p.Shows t) (ho : p.text ≠ ['(']) (hc : p.text ≠ [')'])
    (hq : p.text.head? ≠ some '"') : t = .literal p.text := by
  cases t with
  | opening => exact absurd h.text ho
  | closing => exact absurd h.text hc
  | quoted body | unclosed body => exact absurd (by rw [h.text]; rfl) hq
  | literal cs => rw [h.text, Token.text]

section
variable {options : ReadOptions} {text : List Char} {entry : SymbolEntry}

/-- The name of an entry is a literal of the text, and the lexeme before it is one, too. -/
theorem mem_symbols_scan (h : entry ∈ (Index.build options text).symbols) :
    ∃ ls₁ k l ls₂ keyword, Lexeme.scan 0 text = ls₁ ++ k :: l :: ls₂ ∧ k.token = .literal keyword ∧
      l.token = .literal entry.name.toList ∧ entry.position = (l.piece text).position := by
  rw [symbols_build] at h
  obtain ⟨before, after, hentries, -⟩ := mem_foldl_putSymbol h
  have hmem : entry ∈ (definedNames 0 (pieces text)).map .ofDefinition := by
    rw [hentries]
    exact List.mem_append_right _ (List.mem_cons_self ..)
  obtain ⟨d, hd, rfl⟩ := List.mem_map.1 hmem
  obtain ⟨ps₁, keyword, ps₂, hps, hkeyword, ho, hc, hq⟩ := mem_definedNames hd
  rw [pieces_eq] at hps
  obtain ⟨ls₁, ls', hscan, -, hls'⟩ := List.map_eq_append_iff.1 hps
  obtain ⟨k, ls'', rfl, rfl, hls''⟩ := List.map_eq_cons_iff.1 hls'
  obtain ⟨l, ls₂, rfl, hl, -⟩ := List.map_eq_cons_iff.1 hls''
  have hk : (k.piece text).Shows k.token := ⟨rfl, Lexeme.isCut_scan (by rw [hscan]; simp)⟩
  have hname : (l.piece text).Shows l.token := ⟨rfl, Lexeme.isCut_scan (by rw [hscan]; simp)⟩
  rw [hl] at hname
  refine ⟨ls₁, k, l, ls₂, _, hscan, hk.eq_of_text (isCut_keyword _) hkeyword, ?_, by rw [hl]; rfl⟩
  rw [hname.literal ho hc hq, SymbolEntry.ofDefinition, String.toList_ofList]

theorem exists_stands (h : entry ∈ (Index.build options text).symbols) :
    ∃ earlier row after, entry.Stands text earlier row after := by
  obtain ⟨ls₁, k, l, ls₂, keyword, hscan, hk, hl, hposition⟩ := mem_symbols_scan h
  obtain ⟨before, after, htext, hstart, hblank, hafter⟩ := Lexeme.scan_literals hscan hk hl
  obtain ⟨earlier, row, rfl, hlast, hrow, hcount⟩ := Text.exists_foldl_advance before
  have hcut : l.token.IsCut := Lexeme.isCut_scan (by rw [hscan]; simp)
  rw [hl] at hcut
  refine ⟨earlier, row, after, by rw [htext, List.append_assoc], hcut, hlast, hrow, ?_, hblank, hafter⟩
  rw [Nat.zero_add] at hstart
  rw [hposition, ← hcount, ← positionOf_length _ (entry.name.toList ++ after), ← htext, ← hstart]
  rfl

theorem nodup_names (entries : List SymbolEntry) : ((entries.foldl putSymbol []).map (·.name)).Nodup := by
  induction entries using List.reverseRecOn with
  | nil => exact .nil
  | append_singleton entries e ih =>
    rw [List.foldl_concat, names_putSymbol]
    split
    · exact ih
    · next hnew => exact List.nodup_append.2 ⟨ih, List.nodup_singleton _, by simpa using hnew⟩

theorem find?_of_mem (h : entry ∈ (Index.build options text).symbols) :
    (Index.build options text).find? entry.name = some entry := by
  unfold Index.find?
  cases hfind : (Index.build options text).symbols.find? (·.name == entry.name) with
  | none => exact absurd (List.find?_eq_none.1 hfind entry h) (by simp)
  | some e =>
    have hname : e.name = entry.name := by simpa using List.find?_some hfind
    rw [List.inj_on_of_nodup_map (nodup_names _) (List.mem_of_find?_eq_some hfind) h hname]

end

/-- What an editor has of an entry: its name is found, and where it is neither a form nor a primitive, its definition
is shown. It stands in the text where the entry says, and the position leads back to it if no other mark than a newline
ends a line before it and words end where it ends. So it does in every text with plain line ends and blanks. -/
structure SymbolEntry.Known (index : Index) (text : List Char) (entry : SymbolEntry) : Prop where
  found : index.find? entry.name = some entry
  shown : SpecialForm.ofKeyword? entry.name = none → Primitive.ofName? entry.name = none →
    hover? index entry.name =
      some (entry.name ++ ": " ++ entry.kind.text ++ " (defined at " ++ toString (entry.position.line + 1) ++ ":" ++
        toString (entry.position.column + 1) ++ ")")
  stands : ∃ earlier row after, entry.Stands text earlier row after ∧
    (hasPlainEnds earlier → (entry.FoundIn text ↔
      (∀ c ∈ row, isLineEnd c = false) ∧ (∀ c ∈ row.getLast?, isWordEnd c = true) ∧
        ∀ c ∈ after.head?, isWordEnd c = true))
  plain : hasPlainEnds text → (∀ c ∈ text, isBlank c = true → isWordEnd c = true) → entry.FoundIn text

theorem symbols_foundIn (options : ReadOptions) (text : List Char) {entry : SymbolEntry}
    (h : entry ∈ (Index.build options text).symbols) : entry.Known (Index.build options text) text := by
  have hfind := find?_of_mem h
  obtain ⟨earlier, row, after, hstands⟩ := exists_stands h
  refine ⟨hfind, fun hform hprimitive => ?_, ⟨earlier, row, after, hstands, hstands.foundIn_iff⟩, hstands.foundIn⟩
  simp only [hover?, hform, hprimitive, hfind, Option.map_some]
  rfl

/-- A definition behind a carriage return and a newline. -/
theorem symbols_foundIn_second :
    SymbolEntry.FoundIn ⟨"y", .variable, ⟨1, 8⟩⟩ "(f 1)\r\n(define y 2)".toList := by
  have hmem : ⟨"y", .variable, ⟨1, 8⟩⟩ ∈ (Index.build ⟨true, 9⟩ "(f 1)\r\n(define y 2)".toList).symbols := by
    decide +kernel
  have hblanks : "(f 1)\r\n(define y 2)".toList.all (fun c => !isBlank c || isWordEnd c) = true := by decide
  refine (symbols_foundIn _ _ hmem).plain (by decide) fun c hc hblank => ?_
  simpa [hblank] using List.all_eq_true.1 hblanks c hc

/-- A line that ends in a carriage return alone, and a blank that ends no word. -/
theorem symbols_missed :
    (⟨"x", .variable, ⟨0, 10⟩⟩ ∈ (Index.build ⟨true, 9⟩ "1\r(define x 2)".toList).symbols ∧
      wordAt "1\r(define x 2)".toList ⟨0, 10⟩ = .error .beyondLine) ∧
    ⟨"x", .variable, ⟨0, 8⟩⟩ ∈ (Index.build ⟨true, 9⟩ "(define\u00a0x 1)".toList).symbols ∧
      wordAt "(define\u00a0x 1)".toList ⟨0, 8⟩ = .ok (some "define\u00a0x") := by
  decide +kernel

end Editor

end Lisplet
