import Lisplet.Proofs.Hover

/-!
# Words of a line

Delimiters cut a line into words. `wordAt_isWord`: every column of a line, the end of the line included, lies
in one word, or in the empty stretch between two delimiters; that is what is found at the column, and at every
other column from the beginning of the word up to its end. Beyond the end of a line the lookup fails, and
beyond the last line there is no word.
-/

namespace Lisplet.Editor

/-- No delimiter stands from `start` up to `stop`, and the stretch cannot be made longer: it reaches to the ends
of the row, or to delimiters. -/
structure IsWord (row : List Char) (start stop : Nat) : Prop where
  start_le : start ≤ stop
  stop_le : stop ≤ row.length
  undelimited : ∀ i c, start ≤ i → i < stop → row[i]? = some c → isWordEnd c = false
  left : start = 0 ∨ ∃ c, row[start - 1]? = some c ∧ isWordEnd c = true
  right : stop = row.length ∨ ∃ c, row[stop]? = some c ∧ isWordEnd c = true

/-- A stretch of a row, if anything stands in it. -/
def stretch? (row : List Char) (start stop : Nat) : Option String :=
  if start = stop then none else some (String.ofList (row.extract start stop))

section
variable {row before name after : List Char} {start stop start' stop' column : Nat}

/-! ### What stands between delimiters -/

theorem exists_front (cs : List Char) :
    ∃ name after, cs = name ++ after ∧ (∀ c ∈ name, isWordEnd c = false) ∧ ∀ c ∈ after.head?, isWordEnd c = true := by
  induction cs with
  | nil => exact ⟨[], [], rfl, by simp, by simp⟩
  | cons c cs ih =>
    by_cases hc : isWordEnd c = true
    · exact ⟨[], c :: cs, rfl, by simp, by simpa using hc⟩
    · obtain ⟨name, after, rfl, hname, hafter⟩ := ih
      exact ⟨c :: name, after, rfl, List.forall_mem_cons.2 ⟨by simpa using hc, hname⟩, hafter⟩

theorem exists_back (cs : List Char) :
    ∃ before name, cs = before ++ name ∧ (∀ c ∈ name, isWordEnd c = false) ∧
      ∀ c ∈ before.getLast?, isWordEnd c = true := by
  obtain ⟨name, before, hcs, hname, hbefore⟩ := exists_front cs.reverse
  refine ⟨before.reverse, name.reverse, ?_, by simpa using hname, by simpa using hbefore⟩
  rw [← List.reverse_append, ← hcs, List.reverse_reverse]

/-- A row cut at the delimiters that are the nearest to a column. -/
theorem exists_cut (h : column ≤ row.length) :
    ∃ before name after, row = before ++ name ++ after ∧ before.length ≤ column ∧ column ≤ before.length + name.length ∧
      (∀ c ∈ name, isWordEnd c = false) ∧ (∀ c ∈ before.getLast?, isWordEnd c = true) ∧
      ∀ c ∈ after.head?, isWordEnd c = true := by
  obtain ⟨before, left, htake, hleft, hbefore⟩ := exists_back (row.take column)
  obtain ⟨right, after, hdrop, hright, hafter⟩ := exists_front (row.drop column)
  have hrow : row = before ++ (left ++ right) ++ after := by
    rw [← List.append_assoc, ← htake, List.append_assoc, ← hdrop, List.take_append_drop]
  have hcolumn : before.length + left.length = column := by
    rw [← List.length_append, ← htake, List.length_take_of_le h]
  refine ⟨before, left ++ right, after, hrow, by omega, ?_, List.forall_mem_append.2 ⟨hleft, hright⟩, hbefore, hafter⟩
  rw [List.length_append]
  omega

theorem isWord_append (hname : ∀ c ∈ name, isWordEnd c = false) (hbefore : ∀ c ∈ before.getLast?, isWordEnd c = true)
    (hafter : ∀ c ∈ after.head?, isWordEnd c = true) :
    IsWord (before ++ name ++ after) before.length (before.length + name.length) where
  start_le := Nat.le_add_right ..
  stop_le := by simp only [List.length_append, Nat.le_add_right]
  undelimited i c hstart hstop hc := by
    rw [List.append_assoc, List.getElem?_append_right hstart, List.getElem?_append_left (by omega)] at hc
    exact hname c (List.mem_of_getElem? hc)
  left := by
    cases hlast : before.getLast? with
    | none => exact .inl (by rw [List.getLast?_eq_none_iff.1 hlast]; rfl)
    | some c =>
      have hpos := List.length_pos_of_mem (List.mem_of_getLast? hlast)
      rw [List.append_assoc, List.getElem?_append_left (by omega), ← List.getLast?_eq_getElem?]
      exact .inr ⟨c, hlast, hbefore c hlast⟩
  right := by
    rw [← List.length_append, List.getElem?_append_right (Nat.le_refl _), Nat.sub_self, ← List.head?_eq_getElem?]
    cases after with
    | nil => exact .inl (by rw [List.append_nil])
    | cons c after => exact .inr ⟨c, rfl, hafter c rfl⟩

theorem extract_append (before name after : List Char) :
    (before ++ name ++ after).extract before.length (before.length + name.length) = name := by
  rw [List.extract_eq_take_drop, List.append_assoc, List.drop_left, Nat.add_sub_cancel_left, List.take_left]

/-! ### Words that meet are one word -/

namespace IsWord

theorem start_le_start (h : IsWord row start stop) (h' : IsWord row start' stop') (hmeet : start' ≤ stop) :
    start' ≤ start := by
  -- the delimiter before the later start stands inside the other word
  by_contra hlater
  rcases h'.left with hfirst | ⟨c, hc, hend⟩
  · omega
  · rw [h.undelimited (start' - 1) c (by omega) (by omega) hc] at hend
    cases hend

theorem stop_le_stop (h : IsWord row start stop) (h' : IsWord row start' stop') (hmeet : start' ≤ stop) :
    stop' ≤ stop := by
  by_contra hlater
  rcases h.right with hlast | ⟨c, hc, hend⟩
  · have hinside := h'.stop_le
    omega
  · rw [h'.undelimited stop c hmeet (by omega) hc] at hend
    cases hend

theorem unique (h : IsWord row start stop) (h' : IsWord row start' stop') (hmeet : start ≤ stop')
    (hmeet' : start' ≤ stop) : start' = start ∧ stop' = stop :=
  ⟨Nat.le_antisymm (h.start_le_start h' hmeet') (h'.start_le_start h hmeet),
    Nat.le_antisymm (h.stop_le_stop h' hmeet') (h'.stop_le_stop h hmeet)⟩

theorem wordIn_eq (h : IsWord row start stop) (hstart : start ≤ column) (hstop : column ≤ stop) :
    wordIn row column = row.extract start stop := by
  obtain ⟨before, name, after, rfl, hbegin, hend, hname, hbefore, hafter⟩ := exists_cut (hstop.trans h.stop_le)
  -- the word is what the nearest delimiters leave
  obtain ⟨rfl, rfl⟩ := (isWord_append hname hbefore hafter).unique h (hbegin.trans hstop) (hstart.trans hend)
  obtain ⟨k, rfl⟩ := Nat.exists_eq_add_of_le hstart
  rw [Editor.wordIn_eq hname (Nat.le_of_add_le_add_left hstop), takeWhile_eq_nil.2 (by rwa [List.head?_reverse]),
    takeWhile_eq_nil.2 hafter, extract_append, List.reverse_nil, List.nil_append, List.append_nil]

theorem wordAt_eq (h : IsWord row start stop) {text : List Char} {n : Nat} (hrow : (Text.lines text)[n]? = some row)
    (hstart : start ≤ column) (hstop : column ≤ stop) : wordAt text ⟨n, column⟩ = .ok (stretch? row start stop) := by
  have hinside : ¬ row.length < column := Nat.not_lt.2 (hstop.trans h.stop_le)
  have hlength : (row.extract start stop).length = stop - start := by
    have hbehind := h.stop_le
    rw [List.extract_eq_take_drop, List.length_take, List.length_drop]
    omega
  have hempty : (row.extract start stop).isEmpty = true ↔ start = stop := by
    have horder := h.start_le
    rw [List.isEmpty_iff_length_eq_zero, hlength]
    omega
  simp only [wordAt, hrow, if_neg hinside, h.wordIn_eq hstart hstop, hempty, stretch?]

end IsWord

end

/-- At every column of a line, up to its end, there is one word or one empty stretch that cannot be made longer,
and this is what is found at all its columns. Beyond the end of a line the lookup fails, and beyond the last
line nothing is found. -/
theorem wordAt_isWord (text : List Char) (n column : Nat) :
    (∀ row, (Text.lines text)[n]? = some row →
      (column ≤ row.length → ∃ start stop, (start ≤ column ∧ column ≤ stop ∧ IsWord row start stop) ∧
        (∀ start' stop', start' ≤ column → column ≤ stop' → IsWord row start' stop' → start' = start ∧ stop' = stop) ∧
        ∀ k, start ≤ k → k ≤ stop → wordAt text ⟨n, k⟩ = .ok (stretch? row start stop)) ∧
      (row.length < column → wordAt text ⟨n, column⟩ = .error .beyondLine)) ∧
    ((Text.lines text).length ≤ n → wordAt text ⟨n, column⟩ = .ok none) := by
  refine ⟨fun row hrow => ⟨fun h => ?_, fun h => ?_⟩, fun h => ?_⟩
  · obtain ⟨before, name, after, rfl, hbegin, hend, hname, hbefore, hafter⟩ := exists_cut h
    have hword := isWord_append hname hbefore hafter
    refine ⟨_, _, ⟨hbegin, hend, hword⟩, fun start' stop' hstart hstop h' => ?_, fun k hstart hstop => ?_⟩
    · exact hword.unique h' (hbegin.trans hstop) (hstart.trans hend)
    · exact hword.wordAt_eq hrow hstart hstop
  · simp only [wordAt, hrow, if_pos h]
  · simp only [wordAt, List.getElem?_eq_none h]

/-- A word between a parenthesis and a carriage return. -/
theorem wordAt_isWord_return :
    let text := "f(ab\r\n".toList
    (Text.lines text)[0]? = some text ∧ 4 ≤ text.length ∧ text.length < 7 ∧ (Text.lines text).length ≤ 1 ∧
      IsWord text 2 4 ∧ wordAt text ⟨0, 3⟩ = .ok (some "ab") ∧ wordAt text ⟨0, 7⟩ = .error .beyondLine ∧
      wordAt text ⟨1, 7⟩ = .ok none := by
  intro text
  have hrow : (Text.lines text)[0]? = some text := by decide
  have hword : IsWord (['f', '('] ++ ['a', 'b'] ++ ['\r', '\n']) 2 4 :=
    isWord_append (by simp [isWordEnd]) (by simp [isWordEnd]) (by simp [isWordEnd])
  obtain ⟨start, stop, -, hunique, hfound⟩ := ((wordAt_isWord text 0 4).1 text hrow).1 (by decide)
  obtain ⟨rfl, rfl⟩ := hunique 2 4 (by decide) (by decide) hword
  exact ⟨hrow, by decide, by decide, by decide, hword, hfound 3 (by decide) (by decide),
    ((wordAt_isWord text 0 7).1 text hrow).2 (by decide), (wordAt_isWord text 1 7).2 (by decide)⟩

end Lisplet.Editor
