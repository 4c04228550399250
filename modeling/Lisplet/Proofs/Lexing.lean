import Lisplet.Reader.Lexeme
import Mathlib

/-!
# The cut as a scan

`Lexeme.scan` says what the lexemes of a text are without an automaton: at each place the next
character decides the kind of lexeme, and the lexeme is the longest run of its kind. `cut_eq_scan`:
the automaton that is fed one character at a time finds the same lexemes at the same offsets. The
other lemmas say how a scan starts when the beginning of the text is known, up to a delimiter.
-/

namespace Lisplet.Lexeme

def inQuotes (c : Char) : Bool := c != '"'

def inLiteral (c : Char) : Bool := !isDelimiter c

/-- The lexemes of a text whose first character has the offset `start`. -/
def scan (start : Nat) : List Char → List Lexeme
  | [] => []
  | c :: cs =>
    if Text.isBlank c then scan (start + 1) cs
    else if c = '(' then ⟨.opening, start, start + 1⟩ :: scan (start + 1) cs
    else if c = ')' then ⟨.closing, start, start + 1⟩ :: scan (start + 1) cs
    else if c = '"' then
      let body := cs.takeWhile inQuotes
      if (cs.dropWhile inQuotes).isEmpty then [⟨.unclosed body, start, start + body.length + 1⟩]
      else
        ⟨.quoted body, start, start + body.length + 2⟩
          :: scan (start + body.length + 2) (cs.dropWhile inQuotes).tail
    else
      let run := c :: cs.takeWhile inLiteral
      ⟨.literal run, start, start + run.length⟩ :: scan (start + run.length) (cs.dropWhile inLiteral)
termination_by text => text.length
decreasing_by
  all_goals simp only [List.length_cons, List.length_tail]
  · omega
  · omega
  · omega
  · have := (List.dropWhile_suffix (l := cs) inQuotes).length_le
    omega
  · have := (List.dropWhile_suffix (l := cs) inLiteral).length_le
    omega

theorem isBlank_opening : Text.isBlank '(' = false := by decide

theorem isBlank_closing : Text.isBlank ')' = false := by decide

/-! ### The automaton -/

namespace Cut

variable (done : List Lexeme)

/-- A literal in progress ends at the next delimiter, and the cut goes on from there. -/
theorem finish_inLiteral (start : Nat) (held text : List Char) (n : Nat) :
    (text.foldl feed ⟨done, .inLiteral start held, n⟩).finish =
      ((text.dropWhile inLiteral).foldl feed
        ⟨⟨.literal (held.reverse ++ text.takeWhile inLiteral), start, n + (text.takeWhile inLiteral).length⟩ :: done,
          .between, n + (text.takeWhile inLiteral).length⟩).finish := by
  induction text generalizing held n with
  | nil => simp [finish]
  | cons c cs ih =>
    by_cases hc : isDelimiter c = true
    · simp [inLiteral, hc, feed]
    · have hc' : inLiteral c = true := by simp [inLiteral, hc]
      have hstep : feed ⟨done, .inLiteral start held, n⟩ c = ⟨done, .inLiteral start (c :: held), n + 1⟩ := by
        simp [feed, hc]
      rw [List.foldl_cons, hstep, ih, List.dropWhile_cons_of_pos hc', List.takeWhile_cons_of_pos hc']
      simp [Nat.add_comm, Nat.add_left_comm]

theorem finish_inString_open (start : Nat) (held text : List Char) (n : Nat)
    (h : text.dropWhile inQuotes = []) :
    (text.foldl feed ⟨done, .inString start held, n⟩).finish =
      done.reverse ++ [⟨.unclosed (held.reverse ++ text.takeWhile inQuotes), start,
        n + (text.takeWhile inQuotes).length⟩] := by
  induction text generalizing held n with
  | nil => simp [finish]
  | cons c cs ih =>
    have hc : inQuotes c = true := by
      by_contra hne
      simp [List.dropWhile_cons_of_neg hne] at h
    have hstep : feed ⟨done, .inString start held, n⟩ c = ⟨done, .inString start (c :: held), n + 1⟩ := by
      have hne : c ≠ '"' := by simpa [inQuotes] using hc
      simp [feed, hne]
    rw [List.dropWhile_cons_of_pos hc] at h
    rw [List.foldl_cons, hstep, ih _ _ h, List.takeWhile_cons_of_pos hc]
    simp [Nat.add_comm, Nat.add_left_comm]

/-- A string in progress ends at the next quote, and the cut goes on behind it. -/
theorem finish_inString_closed (start : Nat) (held text : List Char) (n : Nat)
    (h : text.dropWhile inQuotes ≠ []) :
    (text.foldl feed ⟨done, .inString start held, n⟩).finish =
      ((text.dropWhile inQuotes).tail.foldl feed
        ⟨⟨.quoted (held.reverse ++ text.takeWhile inQuotes), start, n + (text.takeWhile inQuotes).length + 1⟩ :: done,
          .between, n + (text.takeWhile inQuotes).length + 1⟩).finish := by
  induction text generalizing held n with
  | nil => simp at h
  | cons c cs ih =>
    by_cases hc : c = '"'
    · simp [inQuotes, hc, feed]
    · have hc' : inQuotes c = true := by simp [inQuotes, hc]
      have hstep : feed ⟨done, .inString start held, n⟩ c = ⟨done, .inString start (c :: held), n + 1⟩ := by
        simp [feed, hc]
      rw [List.dropWhile_cons_of_pos hc'] at h
      rw [List.foldl_cons, hstep, ih _ _ h, List.dropWhile_cons_of_pos hc', List.takeWhile_cons_of_pos hc']
      simp [Nat.add_comm, Nat.add_left_comm]

/-- Between lexemes the automaton goes on as the scan does. -/
theorem finish_between (n : Nat) (text : List Char) :
    (text.foldl feed ⟨done, .between, n⟩).finish = done.reverse ++ scan n text := by
  fun_induction scan n text generalizing done with
  | case1 => simp [finish]
  | case2 start c cs hblank ih =>
    have ho : c ≠ '(' := fun h => by rw [h, isBlank_opening] at hblank; cases hblank
    have hc : c ≠ ')' := fun h => by rw [h, isBlank_closing] at hblank; cases hblank
    rw [List.foldl_cons, show feed ⟨done, .between, start⟩ c = ⟨done, .between, start + 1⟩ by
      simp [feed, restart, ho, hc, hblank], ih]
  | case3 start cs hblank ih =>
    rw [List.foldl_cons, show feed ⟨done, .between, start⟩ '(' =
      ⟨⟨.opening, start, start + 1⟩ :: done, .between, start + 1⟩ from rfl, ih]
    simp
  | case4 start cs hblank ho ih =>
    rw [List.foldl_cons, show feed ⟨done, .between, start⟩ ')' =
      ⟨⟨.closing, start, start + 1⟩ :: done, .between, start + 1⟩ from rfl, ih]
    simp
  | case5 start cs body hempty hblank ho hc =>
    rw [List.foldl_cons, show feed ⟨done, .between, start⟩ '"' = ⟨done, .inString start [], start + 1⟩ from rfl,
      finish_inString_open _ _ _ _ _ (List.isEmpty_iff.1 hempty)]
    simp [body, Nat.add_right_comm]
  | case6 start cs body hempty hblank ho hc ih =>
    rw [List.foldl_cons, show feed ⟨done, .between, start⟩ '"' = ⟨done, .inString start [], start + 1⟩ from rfl,
      finish_inString_closed _ _ _ _ _ fun h => hempty (List.isEmpty_iff.2 h),
      show start + 1 + (cs.takeWhile inQuotes).length + 1 = start + body.length + 2 by simp only [body]; omega, ih]
    simp [body]
  | case7 start c cs hblank ho hc hq run ih =>
    rw [List.foldl_cons, show feed ⟨done, .between, start⟩ c = ⟨done, .inLiteral start [c], start + 1⟩ by
      simp [feed, restart, ho, hc, hblank, hq], finish_inLiteral,
      show start + 1 + (cs.takeWhile inLiteral).length = start + run.length by simp only [run, List.length_cons]; omega,
      ih]
    simp [run]

end Cut

theorem cut_eq_scan (start : Nat) (text : List Char) : cut start text = scan start text :=
  Cut.finish_between [] start text

/-! ### Scans of texts with a known beginning -/

/-- What a literal can end before. -/
def Delimited (cs : List Char) : Prop := ∀ c ∈ cs.head?, isDelimiter c = true

theorem scan_nil (n : Nat) : scan n [] = [] := by
  -- Not the equation for a given form of text: `scan` is not structural, and deriving it takes seconds.
  rw [scan.eq_def]

theorem scan_blank {c : Char} (h : Text.isBlank c = true) (n : Nat) (cs : List Char) :
    scan n (c :: cs) = scan (n + 1) cs := by
  rw [scan.eq_def]
  dsimp only
  rw [if_pos h]

theorem scan_blanks {gap : List Char} (h : ∀ c ∈ gap, Text.isBlank c = true) (n : Nat) (cs : List Char) :
    scan n (gap ++ cs) = scan (n + gap.length) cs := by
  induction gap generalizing n with
  | nil => rfl
  | cons c gap ih =>
    rw [List.cons_append, scan_blank (h c (by simp)), ih fun c hc => h c (by simp [hc]), List.length_cons]
    congr 1
    omega

theorem scan_opening (n : Nat) (cs : List Char) :
    scan n ('(' :: cs) = ⟨.opening, n, n + 1⟩ :: scan (n + 1) cs := by
  rw [scan.eq_def]
  dsimp only
  rw [if_neg (by decide), if_pos rfl]

theorem scan_closing (n : Nat) (cs : List Char) :
    scan n (')' :: cs) = ⟨.closing, n, n + 1⟩ :: scan (n + 1) cs := by
  rw [scan.eq_def]
  dsimp only
  rw [if_neg (by decide), if_neg (by decide), if_pos rfl]

theorem scan_quoted {body : List Char} (h : '"' ∉ body) (n : Nat) (cs : List Char) :
    scan n ('"' :: (body ++ '"' :: cs)) =
      ⟨.quoted body, n, n + body.length + 2⟩ :: scan (n + body.length + 2) cs := by
  have hbody : ∀ c ∈ body, inQuotes c = true := fun c hc => by
    simpa [inQuotes] using fun hq : c = '"' => h (hq ▸ hc)
  have htake : (body ++ '"' :: cs).takeWhile inQuotes = body := by
    rw [List.takeWhile_append_of_pos hbody, List.takeWhile_cons_of_neg (by decide), List.append_nil]
  have hdrop : (body ++ '"' :: cs).dropWhile inQuotes = '"' :: cs := by
    rw [List.dropWhile_append_of_pos hbody, List.dropWhile_cons_of_neg (by decide)]
  rw [scan.eq_def]
  dsimp only
  rw [if_neg (by decide), if_neg (by decide), if_neg (by decide), if_pos rfl]
  simp only [htake, hdrop, List.isEmpty_cons, Bool.false_eq_true, ↓reduceIte, List.tail_cons]

/-- A run of characters that no delimiter is in is a literal, if it does not start as a string. -/
theorem scan_literal {cs rest : List Char} (hne : cs ≠ []) (hq : cs.head? ≠ some '"')
    (h : ∀ c ∈ cs, isDelimiter c = false) (hr : Delimited rest) (n : Nat) :
    scan n (cs ++ rest) = ⟨.literal cs, n, n + cs.length⟩ :: scan (n + cs.length) rest := by
  obtain ⟨c, cs, rfl⟩ := List.exists_cons_of_ne_nil hne
  have hcs : ∀ a ∈ cs, inLiteral a = true := fun a ha => by simp [inLiteral, h a (by simp [ha])]
  have hc := h c (by simp)
  simp only [isDelimiter, Bool.or_eq_false_iff, beq_eq_false_iff_ne] at hc
  obtain ⟨⟨ho, hcl⟩, hb⟩ := hc
  have hrest : rest.takeWhile inLiteral = [] ∧ rest.dropWhile inLiteral = rest := by
    cases rest with
    | nil => simp
    | cons a rest => simp [inLiteral, hr a rfl]
  rw [List.cons_append, scan.eq_def]
  dsimp only
  rw [if_neg (by simp [hb]), if_neg ho, if_neg hcl, if_neg fun h => hq (by simp [h])]
  simp only [List.takeWhile_append_of_pos hcs, List.dropWhile_append_of_pos hcs, hrest, List.append_nil]

end Lisplet.Lexeme
