import Lisplet.Text.Lines
import Mathlib

/-!
# Positions and offsets

Newlines cut a text into rows. `positionOf_rows`: the offsets of a text, its end included, and the positions
in its rows stand for each other, and the order of the offsets is the order in which the positions are read.
A character in front changes positions as it changes the rows (`positionOf_cons`), so that the position of an
offset lies in a row and leads back to the offset (`offsetOf_positionOf`). That a later position stands for
a later offset is a matter of the rows alone (`offsetOf_lt`).
-/

namespace Lisplet.Text

/-- What stands between the newlines of a text. -/
def rows (text : List Char) : List (List Char) := text.splitOn '\n'

/-- The offset at which a row starts: behind the rows before it and the newlines that end them. -/
def rowStart (text : List Char) (n : Nat) : Nat := (((rows text).map (·.length + 1)).take n).sum

/-- The offset that a position stands for. -/
def offsetOf (text : List Char) (p : Position) : Nat := rowStart text p.line + p.column

namespace Position

/-- The position lies in a row of the text, or at its end. -/
def In (p : Position) (text : List Char) : Prop := ∃ row, (rows text)[p.line]? = some row ∧ p.column ≤ row.length

/-- The position comes earlier when the text is read. -/
def Before (p q : Position) : Prop := p.line < q.line ∨ p.line = q.line ∧ p.column < q.column

/-- What becomes of a position when a character is put in front of the text. -/
def behind (c : Char) (p : Position) : Position :=
  if c = '\n' then ⟨p.line + 1, p.column⟩ else if p.line = 0 then ⟨0, p.column + 1⟩ else p

theorem advance_behind (c d : Char) (p : Position) : (p.behind c).advance d = (p.advance d).behind c := by
  unfold behind advance
  split_ifs <;> simp_all

theorem before_trichotomy (p q : Position) : p.Before q ∨ p = q ∨ q.Before p := by
  obtain ⟨line, column⟩ := p
  obtain ⟨line', column'⟩ := q
  simp only [Before, Position.mk.injEq]
  omega

end Position

/-! ### Rows -/

section
variable {c : Char} {text cs row : List Char} {later : List (List Char)} {n m : Nat}

theorem rows_newline (cs : List Char) : rows ('\n' :: cs) = [] :: rows cs := rfl

theorem exists_rows (text : List Char) : ∃ row later, rows text = row :: later :=
  List.exists_cons_of_ne_nil (List.splitOn_ne_nil '\n' text)

theorem rows_cons (hc : c ≠ '\n') (hrows : rows cs = row :: later) : rows (c :: cs) = (c :: row) :: later := by
  have hhead : rows (c :: cs) = (rows cs).modifyHead (c :: ·) := by
    rw [rows, List.splitOn, List.splitOnP_cons_eq_if_modifyHead, if_neg (by simpa using hc)]
    rfl
  rw [hhead, hrows, List.modifyHead_cons]

/-- All rows together, each with a newline behind it, have one character more than the text. -/
theorem sum_rows (text : List Char) : ((rows text).map (·.length + 1)).sum = text.length + 1 := by
  induction text with
  | nil => rfl
  | cons c cs ih =>
    obtain ⟨row, later, hrows⟩ := exists_rows cs
    by_cases hc : c = '\n'
    · subst hc
      rw [rows_newline, List.map_cons, List.sum_cons, ih, List.length_cons, List.length_nil]
      omega
    · rw [hrows, List.map_cons, List.sum_cons] at ih
      rw [rows_cons hc hrows, List.map_cons, List.sum_cons, List.length_cons, List.length_cons]
      omega

theorem rowStart_succ (hrow : (rows text)[n]? = some row) :
    rowStart text (n + 1) = rowStart text n + (row.length + 1) := by
  rw [rowStart, List.take_add_one, List.getElem?_map, hrow, List.sum_append]
  rfl

theorem rowStart_mono (h : n ≤ m) : rowStart text n ≤ rowStart text m :=
  (List.take_sublist_take_left h).sum_le_sum fun _ _ => Nat.zero_le _

theorem rowStart_le (text : List Char) (n : Nat) : rowStart text n ≤ text.length + 1 := by
  rw [← sum_rows, ← List.sum_take_add_sum_drop _ n]
  exact Nat.le_add_right ..

end

/-! ### Positions -/

section
variable {text : List Char} {offset : Nat} {p q : Position}

theorem positionOf_cons (c : Char) {cs : List Char} (h : offset ≤ cs.length) :
    positionOf (c :: cs) (offset + 1) = (positionOf cs offset).behind c := by
  have hfold : ∀ taken : List Char,
      (c :: taken).foldl Position.advance ⟨0, 0⟩ = (taken.foldl Position.advance ⟨0, 0⟩).behind c := by
    -- the last character taken is the one that moves the position
    intro taken
    induction taken using List.reverseRecOn with
    | nil => rfl
    | append_singleton taken d ih =>
      rw [← List.cons_append, List.foldl_concat, List.foldl_concat, ih, Position.advance_behind]
  have hend : offset - cs.length = 0 := Nat.sub_eq_zero_of_le h
  have hend' : offset + 1 - (c :: cs).length = 0 := Nat.sub_eq_zero_of_le (Nat.succ_le_succ h)
  rw [positionOf, positionOf, List.take_succ_cons, hfold, hend, hend']
  rfl

theorem offsetOf_positionOf (h : offset ≤ text.length) :
    (positionOf text offset).In text ∧ offsetOf text (positionOf text offset) = offset := by
  induction offset generalizing text with
  | zero =>
    obtain ⟨row, later, hrows⟩ := exists_rows text
    have hstart : positionOf text 0 = ⟨0, 0⟩ := by simp [positionOf]
    rw [hstart]
    exact ⟨⟨row, by rw [hrows]; rfl, Nat.zero_le _⟩, rfl⟩
  | succ offset ih =>
    obtain ⟨c, cs, rfl⟩ := List.exists_cons_of_length_pos (Nat.zero_lt_of_lt h)
    have hoffset : offset ≤ cs.length := Nat.le_of_succ_le_succ h
    obtain ⟨⟨row, hrow, hcolumn⟩, hback⟩ := ih hoffset
    obtain ⟨first, later, hrows⟩ := exists_rows cs
    rw [positionOf_cons c hoffset]
    generalize positionOf cs offset = p at hrow hcolumn hback
    obtain ⟨line, column⟩ := p
    simp only [Position.In, Position.behind, offsetOf, rowStart] at hrow hcolumn hback ⊢
    -- a newline in front is a row of its own, any other character makes the first row longer
    by_cases hc : c = '\n'
    · subst hc
      refine ⟨⟨row, by simpa [rows_newline] using hrow, by simpa using hcolumn⟩, ?_⟩
      simp only [reduceIte, rows_newline, List.map_cons, List.take_succ_cons, List.sum_cons, List.length_nil]
      omega
    · rw [rows_cons hc hrows, if_neg hc]
      rw [hrows] at hrow hback
      cases line with
      | zero =>
        cases hrow
        exact ⟨⟨c :: row, rfl, Nat.succ_le_succ hcolumn⟩, congrArg (· + 1) hback⟩
      | succ line =>
        refine ⟨⟨row, hrow, hcolumn⟩, ?_⟩
        simp only [List.map_cons, List.take_succ_cons, List.sum_cons, List.length_cons, if_neg line.succ_ne_zero]
          at hback ⊢
        omega

theorem offsetOf_lt (hp : p.In text) (h : p.Before q) : offsetOf text p < offsetOf text q := by
  obtain ⟨row, hrow, hcolumn⟩ := hp
  have hnext := rowStart_succ hrow
  rcases h with hline | ⟨hline, hbefore⟩
  · have hlater : rowStart text (p.line + 1) ≤ rowStart text q.line := rowStart_mono hline
    rw [offsetOf, offsetOf]
    omega
  · rw [offsetOf, offsetOf, hline]
    omega

theorem offsetOf_lt_iff (hp : p.In text) (hq : q.In text) : offsetOf text p < offsetOf text q ↔ p.Before q := by
  refine ⟨fun hlt => ?_, offsetOf_lt hp⟩
  rcases p.before_trichotomy q with hbefore | rfl | hafter
  · exact hbefore
  · exact absurd hlt (Nat.lt_irrefl _)
  · exact absurd (offsetOf_lt hq hafter) (Nat.lt_asymm hlt)

theorem offsetOf_inj (hp : p.In text) (hq : q.In text) (h : offsetOf text p = offsetOf text q) : p = q := by
  rcases p.before_trichotomy q with hbefore | heq | hafter
  · exact absurd h (Nat.ne_of_lt (offsetOf_lt hp hbefore))
  · exact heq
  · exact absurd h.symm (Nat.ne_of_lt (offsetOf_lt hq hafter))

theorem offsetOf_le (hp : p.In text) : offsetOf text p ≤ text.length := by
  obtain ⟨row, hrow, hcolumn⟩ := hp
  have hnext := rowStart_succ hrow
  have hend := rowStart_le text (p.line + 1)
  rw [offsetOf]
  omega

end

/-- Up to its end, a text has as many positions as offsets: the position of an offset lies in a row, so many
characters behind the start of the row as its column says, and it is no position of another offset; every
position in a row belongs to an offset; and later offsets have later positions. -/
theorem positionOf_rows (text : List Char) :
    (∀ offset ≤ text.length, ∃ row, (rows text)[(positionOf text offset).line]? = some row ∧
      rowStart text (positionOf text offset).line + (positionOf text offset).column = offset ∧
      (positionOf text offset).column ≤ row.length) ∧
    (∀ p : Position, p.In text → offsetOf text p ≤ text.length ∧ positionOf text (offsetOf text p) = p) ∧
    ∀ o ≤ text.length, ∀ o' ≤ text.length,
      (o ≠ o' → positionOf text o ≠ positionOf text o') ∧
      (o < o' ↔ (positionOf text o).Before (positionOf text o')) := by
  refine ⟨fun offset h => ?_, fun p hp => ⟨offsetOf_le hp, ?_⟩, fun o ho o' ho' => ?_⟩
  · obtain ⟨⟨row, hrow, hcolumn⟩, hback⟩ := offsetOf_positionOf h
    exact ⟨row, hrow, hback, hcolumn⟩
  · obtain ⟨hin, hback⟩ := offsetOf_positionOf (offsetOf_le hp)
    exact offsetOf_inj hin hp hback
  · obtain ⟨hin, hback⟩ := offsetOf_positionOf ho
    obtain ⟨hin', hback'⟩ := offsetOf_positionOf ho'
    have horder := offsetOf_lt_iff hin hin'
    rw [hback, hback'] at horder
    refine ⟨fun hne heq => hne ?_, horder⟩
    rw [← hback, heq, hback']

/-- The newline that ends a row, the empty row behind it, and the end of a text that ends in a newline. -/
theorem positionOf_rows_empty :
    let text := "ab\n\nc\n".toList
    (2 ≤ text.length ∧ 3 ≤ text.length ∧ 6 ≤ text.length) ∧ Position.In ⟨1, 0⟩ text ∧
      positionOf text 3 = ⟨1, 0⟩ ∧ (positionOf text 2).Before (positionOf text 3) ∧
      ∃ row, (rows text)[(positionOf text 6).line]? = some row ∧
        rowStart text (positionOf text 6).line + (positionOf text 6).column = 6 ∧
          (positionOf text 6).column ≤ row.length := by
  intro text
  have htwo : 2 ≤ text.length := by decide
  have hthree : 3 ≤ text.length := by decide
  have hin : Position.In ⟨1, 0⟩ text := ⟨[], by decide, Nat.le_refl _⟩
  obtain ⟨hoffsets, hpositions, horder⟩ := positionOf_rows text
  exact ⟨⟨htwo, hthree, by decide⟩, hin, (hpositions _ hin).2, (horder 2 htwo 3 hthree).2.1 (by decide),
    hoffsets 6 (by decide)⟩

end Lisplet.Text
