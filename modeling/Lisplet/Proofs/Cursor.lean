import Lisplet.Proofs.Echo
import Lisplet.Proofs.TopLevel

/-!
# The cursor of a reader

`Reader.performAll_advances`: whatever is done with a reader, failing or not, its cursor moves forward only
and not beyond the text. A value that is read leaves the cursor right behind its last character, and a
failure leaves it where it was at the end of the text alone. Reading a value stops behind a lexeme
(`readOne_value`, `readOne_failure`), and from there on the text has the lexemes that are left
(`Reader.exists_behind`). So reading all values is the loop that reads one after the other
(`Reader.yields_iff`), which takes at least a character each time.
-/

namespace Lisplet

/-! ### The last token of a value -/

/-- What a value ends with: the parenthesis that closes it, the string, or the literal that it is. -/
inductive Token.Ends : Token → Value → Prop
  | closing (vs : List Value) : Ends .closing (.ofList vs)
  | quoted (body : List Char) : Ends (.quoted body) (.string (String.ofList body))
  | literal (cs : List Char) : Ends (.literal cs) (literalValue cs)

theorem Forest.eq_nil_of_values {f : Forest} (h : f.values = []) : f = .nil := by
  cases f with
  | nil => rfl
  | string | literal | list => cases h

theorem TopForm.Spelled.ends {before : List Lexeme} {l : Lexeme} {v : Value} (h : Spelled ⟨before ++ [l], v⟩) :
    l.token.Ends v := by
  obtain ⟨f, htokens, hvalues⟩ := h
  rw [List.map_append, List.map_singleton] at htokens
  have hlast (ts : List Token) (t : Token) (ht : f.tokens = ts ++ [t]) : l.token = t :=
    List.singleton_inj.1 (List.append_inj_right' (htokens.trans ht) rfl)
  cases f with
  | nil => cases hvalues
  | string body next =>
    obtain ⟨rfl, hnext⟩ := List.cons.inj hvalues
    obtain rfl := Forest.eq_nil_of_values hnext
    rw [hlast [] (.quoted body) rfl]
    exact .quoted body
  | literal cs next =>
    obtain ⟨rfl, hnext⟩ := List.cons.inj hvalues
    obtain rfl := Forest.eq_nil_of_values hnext
    rw [hlast [] (.literal cs) rfl]
    exact .literal cs
  | list inner next =>
    obtain ⟨rfl, hnext⟩ := List.cons.inj hvalues
    obtain rfl := Forest.eq_nil_of_values hnext
    rw [hlast (.opening :: inner.tokens) .closing rfl]
    exact .closing inner.values

/-! ### Where the reading of a value stops -/

section
variable {options : ReadOptions} {finish position : Nat} {n : Nesting} {ls : List Lexeme}

/-- A value is read up to the end of a lexeme, and the lexemes up to there are read as that value. -/
theorem readOne_value {v : Value} (h : readOne options finish n ls = (.ok v, position)) :
    ∃ before l after, ls = before ++ l :: after ∧ position = l.stop ∧
      readAll options finish n (before ++ [l]) = ⟨[v], none, finish⟩ := by
  induction ls generalizing n with
  | nil => cases h
  | cons l ls ih =>
    rw [readOne] at h
    cases haccept : n.accept options.strict l with
    | error failure =>
      rw [haccept] at h
      cases h
    | ok progress =>
      rw [haccept] at h
      cases progress with
      | value v =>
        cases h
        exact ⟨[], l, ls, rfl, rfl, by simp [readAll, haccept]⟩
      | pending n' =>
        obtain ⟨before, k, after, rfl, hposition, hall⟩ := ih h
        exact ⟨l :: before, k, after, rfl, hposition, by simp only [List.cons_append, readAll, haccept, hall]⟩

/-- The first failure stops the reading of one value and of all alike, unless there is nothing to read. -/
theorem readOne_failure {failure : Failure} (h : readOne options finish n ls = (.error failure, position)) :
    (position = finish ∨ ∃ before l after, ls = before ++ l :: after ∧ position = l.stop) ∧
      (ls ≠ [] ∨ n.opened ≠ [] → readAll options finish n ls = ⟨[], some failure, position⟩) := by
  induction ls generalizing n with
  | nil =>
    cases h
    refine ⟨.inl rfl, fun hne => ?_⟩
    rw [readAll, if_neg (by simpa using hne)]
  | cons l ls ih =>
    rw [readOne] at h
    cases haccept : n.accept options.strict l with
    | error failure =>
      rw [haccept] at h
      cases h
      exact ⟨.inr ⟨[], l, ls, rfl, rfl⟩, fun _ => by simp only [readAll, haccept]⟩
    | ok progress =>
      rw [haccept] at h
      cases progress with
      | value v => cases h
      | pending n' =>
        obtain ⟨hposition, hall⟩ := ih h
        refine ⟨hposition.imp_right ?_, fun _ => ?_⟩
        · rintro ⟨before, k, after, rfl, hk⟩
          exact ⟨l :: before, k, after, rfl, hk⟩
        · simp only [readAll, haccept, hall (.inr (Nesting.accept_pending haccept).2)]

end

namespace Reader

variable {r r' : Reader} {before after : List Lexeme} {l : Lexeme} {v : Value} {failure : Failure}

theorem lexemes_eq (r : Reader) : r.lexemes = Lexeme.scan r.position (r.text.drop r.position) :=
  Lexeme.cut_eq_scan ..

theorem lexeme_bounds (h : l ∈ r.lexemes) : r.position < l.stop ∧ l.stop ≤ r.text.length := by
  have := Lexeme.scan_bounds (r.lexemes_eq ▸ h)
  rw [List.length_drop] at this
  omega

/-- A lexeme in its text; from its end on, the text has the lexemes behind it. -/
theorem exists_behind (h : r.lexemes = before ++ l :: after) :
    ∃ front rest, r.text = front ++ l.token.text ++ rest ∧ l.stop = front.length + l.token.text.length ∧
      (∀ cs, l.token = .literal cs → Lexeme.Delimited rest) ∧ lexemes { r with position := l.stop } = after := by
  have hbounds := lexeme_bounds (r := r) (l := l) (by simp [h])
  rw [lexemes_eq] at h
  obtain ⟨skipped, left, hdrop, hl, -⟩ := Lexeme.scan_eq_append h
  obtain ⟨gap, rest, rfl, -, hstart, hstop, hafter, hrest⟩ := Lexeme.scan_eq_cons hl.symm
  have htext : r.text = (r.text.take r.position ++ skipped ++ gap) ++ l.token.text ++ rest := by
    rw [List.append_assoc, List.append_assoc, List.append_assoc, ← List.append_assoc gap, ← hdrop,
      List.take_append_drop]
  have hfront : l.stop = (r.text.take r.position ++ skipped ++ gap).length + l.token.text.length := by
    simp only [List.length_append, List.length_take]
    omega
  refine ⟨_, rest, htext, hfront, hrest, ?_⟩
  rw [lexemes_eq, hafter]
  congr 1
  conv_lhs => rw [show r.text = _ from htext]
  rw [List.drop_left' (by rw [List.length_append, hfront])]

/-- The reader has become `r'` by reading `v`: the lexemes from its cursor on are those of one tree that stands
for `v`, up to `l`, and then those from the new cursor on, which is right behind the last character of `l`. -/
structure HasRead (r r' : Reader) (v : Value) (before : List Lexeme) (l : Lexeme) : Prop where
  spelled : TopForm.Spelled ⟨before ++ [l], v⟩
  lexemes : r.lexemes = before ++ l :: r'.lexemes
  ends : l.token.Ends v
  behind : ∃ front rest, r.text = front ++ l.token.text ++ rest ∧ r'.position = front.length + l.token.text.length ∧
    ∀ cs, l.token = .literal cs → Lexeme.Delimited rest

/-- The same reader with its cursor no further back, and not beyond the text unless it was there. -/
structure Advances (r r' : Reader) : Prop where
  text : r'.text = r.text
  options : r'.options = r.options
  le : r.position ≤ r'.position
  le_finish : r'.position ≤ r.finish

theorem Advances.refl (r : Reader) : r.Advances r := ⟨rfl, rfl, Nat.le_refl _, Nat.le_max_left ..⟩

theorem Advances.trans {r'' : Reader} (h : r.Advances r') (h' : r'.Advances r'') : r.Advances r'' where
  text := h'.text.trans h.text
  options := h'.options.trans h.options
  le := h.le.trans h'.le
  le_finish := by
    have hle := h'.le_finish
    rw [finish, h.text] at hle
    exact hle.trans (Nat.max_le.2 ⟨h.le_finish, Nat.le_max_right ..⟩)

/-! ### One value -/

theorem one_eq_ok (h : r.one = (.ok v, r')) :
    ∃ before l after, r.lexemes = before ++ l :: after ∧ r' = { r with position := l.stop } ∧
      readAll r.options r.finish ⟨r.options.room, []⟩ (before ++ [l]) = ⟨[v], none, r.finish⟩ := by
  cases hone : readOne r.options r.finish ⟨r.options.room, []⟩ r.lexemes with
  | mk outcome position =>
    rw [one, hone] at h
    cases h
    obtain ⟨before, l, after, hls, rfl, hall⟩ := readOne_value hone
    exact ⟨before, l, after, hls, rfl, hall⟩

theorem one_eq_error (h : r.one = (.error failure, r')) :
    ∃ position, r' = { r with position } ∧
      (position = r.finish ∨ ∃ before l after, r.lexemes = before ++ l :: after ∧ position = l.stop) ∧
      (r.lexemes ≠ [] → r.all = ⟨[], some failure, position⟩) := by
  cases hone : readOne r.options r.finish ⟨r.options.room, []⟩ r.lexemes with
  | mk outcome position =>
    rw [one, hone] at h
    cases h
    obtain ⟨hposition, hall⟩ := readOne_failure hone
    exact ⟨position, rfl, hposition, fun hne => hall (.inl hne)⟩

theorem hasRead_one (h : r.one = (.ok v, r')) : ∃ before l, r.HasRead r' v before l := by
  obtain ⟨before, l, after, hls, rfl, hall⟩ := one_eq_ok h
  obtain ⟨front, rest, htext, hstop, hrest, hafter⟩ := exists_behind hls
  have hfailure : (readAll r.options r.finish ⟨r.options.room, []⟩ (before ++ [l])).failure = none := by rw [hall]
  obtain ⟨f, htokens, hvalues⟩ := exists_forest_of_readAll hfailure
  have hspelled : TopForm.Spelled ⟨before ++ [l], v⟩ := ⟨f, htokens, by rw [hvalues, hall]⟩
  exact ⟨before, l, hspelled, by rw [hls, hafter], hspelled.ends, front, rest, htext, hstop, hrest⟩

theorem position_one_lt (h : r.one = (.ok v, r')) : r.position < r'.position ∧ r'.position ≤ r.text.length := by
  obtain ⟨before, l, after, hls, rfl, -⟩ := one_eq_ok h
  exact lexeme_bounds (by simp [hls])

/-- A failure leaves the cursor where it was at the end of the text alone. -/
theorem position_one_eq_iff (h : r.one = (.error failure, r')) :
    r'.position = r.position ↔ r.text.length ≤ r.position := by
  obtain ⟨position, rfl, rfl | ⟨before, l, after, hls, rfl⟩, -⟩ := one_eq_error h
  · simp only [finish]
    omega
  · have := lexeme_bounds (r := r) (l := l) (by simp [hls])
    simp only
    omega

theorem advances_one {outcome : Except Failure Value} (h : r.one = (outcome, r')) : r.Advances r' := by
  cases outcome with
  | ok v =>
    have hlt := position_one_lt h
    obtain ⟨before, l, after, -, rfl, -⟩ := one_eq_ok h
    exact ⟨rfl, rfl, hlt.1.le, hlt.2.trans (Nat.le_max_right ..)⟩
  | error failure =>
    obtain ⟨position, rfl, rfl | ⟨before, l, after, hls, rfl⟩, -⟩ := one_eq_error h
    · exact ⟨rfl, rfl, Nat.le_max_left .., Nat.le_refl _⟩
    · have hbounds := lexeme_bounds (r := r) (l := l) (by simp [hls])
      exact ⟨rfl, rfl, hbounds.1.le, hbounds.2.trans (Nat.le_max_right ..)⟩

theorem all_of_one_ok (h : r.one = (.ok v, r')) : r.all = { r'.all with values := v :: r'.all.values } := by
  have hlt := position_one_lt h
  obtain ⟨before, l, after, hls, rfl, hall⟩ := one_eq_ok h
  obtain ⟨-, -, -, -, -, hafter⟩ := exists_behind hls
  have hfinish : finish { r with position := l.stop } = r.finish := by
    simp only [finish] at hlt ⊢
    omega
  simp only [all, hafter, hfinish]
  rw [hls, List.append_cons, readAll_append rfl (by rw [hall]), hall]
  rfl

theorem all_of_one_error (h : r.one = (.error failure, r')) (hne : r.lexemes ≠ []) :
    r.all = ⟨[], some failure, r'.position⟩ := by
  obtain ⟨position, rfl, -, hall⟩ := one_eq_error h
  exact hall hne

/-! ### Blanks -/

theorem skipBlanks_bounds (r : Reader) : r.position ≤ r.skipBlanks.position ∧ r.skipBlanks.position ≤ r.finish := by
  have hgap := (List.takeWhile_sublist (l := r.text.drop r.position) Text.isBlank).length_le
  rw [List.length_drop] at hgap
  simp only [skipBlanks, finish]
  omega

theorem lexemes_skipBlanks (r : Reader) : r.skipBlanks.lexemes = r.lexemes := by
  set gap := (r.text.drop r.position).takeWhile Text.isBlank
  set left := (r.text.drop r.position).dropWhile Text.isBlank
  have hsplit : r.text.drop r.position = gap ++ left := List.takeWhile_append_dropWhile.symm
  have hleft : r.text.drop (r.position + gap.length) = left := by rw [← List.drop_drop, hsplit, List.drop_left]
  calc r.skipBlanks.lexemes = Lexeme.scan (r.position + gap.length) (r.text.drop (r.position + gap.length)) :=
        lexemes_eq r.skipBlanks
    _ = Lexeme.scan r.position (gap ++ left) := by rw [hleft, Lexeme.scan_blanks fun c => List.mem_takeWhile_imp]
    _ = r.lexemes := by rw [← hsplit, lexemes_eq]

theorem one_skipBlanks (r : Reader) : r.skipBlanks.one = r.one := by
  have hfinish : r.skipBlanks.finish = r.finish := by
    have := r.skipBlanks_bounds
    simp only [finish, show r.skipBlanks.text = r.text from rfl] at this ⊢
    omega
  simp only [one, lexemes_skipBlanks, hfinish]
  rfl

theorem atEnd_skipBlanks (r : Reader) : r.skipBlanks.atEnd = true ↔ r.lexemes = [] := by
  simp only [atEnd, decide_eq_true_eq]
  constructor
  · intro hend
    rw [← lexemes_skipBlanks, lexemes_eq, List.drop_eq_nil_of_le hend, Lexeme.scan_nil]
  · intro hnil
    have hblank := Lexeme.isBlank_of_scan r.position (r.text.drop r.position) 0 (by simp [← lexemes_eq, hnil])
    rw [List.drop_zero] at hblank
    simp only [skipBlanks, List.takeWhile_eq_self_iff.2 hblank, List.length_drop]
    omega

/-! ### All values -/

/-- The loop that skips blanks and reads a value as long as the text has not ended. Whoever leaves it after some
values has skipped blanks and read values in turn. -/
inductive Yields : Reader → Readings → Prop
  | finished {r : Reader} (hend : r.skipBlanks.atEnd = true) : Yields r ⟨[], none, r.skipBlanks.position⟩
  | failed {r r' : Reader} {failure : Failure} (hend : r.skipBlanks.atEnd = false)
    (hone : r.skipBlanks.one = (.error failure, r')) : Yields r ⟨[], some failure, r'.position⟩
  | value {r r' : Reader} {v : Value} {readings : Readings} (hend : r.skipBlanks.atEnd = false)
    (hone : r.skipBlanks.one = (.ok v, r')) (hrest : Yields r' readings) :
    Yields r { readings with values := v :: readings.values }

variable {readings : Readings}

theorem Yields.eq_all (h : r.Yields readings) : readings = r.all := by
  induction h with
  | @finished r hend =>
    have hnil := r.atEnd_skipBlanks.1 hend
    have hbounds := r.skipBlanks_bounds
    have hposition : r.skipBlanks.position = r.finish := by
      simp only [atEnd, decide_eq_true_eq, show r.skipBlanks.text = r.text from rfl] at hend
      rw [finish] at hbounds ⊢
      omega
    rw [all, hnil, hposition]
    rfl
  | failed hend hone =>
    rw [one_skipBlanks] at hone
    exact (all_of_one_error hone fun hnil => by simp [(atEnd_skipBlanks _).2 hnil] at hend).symm
  | value hend hone hrest ih =>
    rw [one_skipBlanks] at hone
    rw [all_of_one_ok hone, ih]

theorem yields_all (r : Reader) : r.Yields r.all := by
  -- every value leaves less of the text
  induction hk : r.text.length - r.position using Nat.strongRecOn generalizing r with
  | ind k ih =>
    cases hend : r.skipBlanks.atEnd with
    | true =>
      have h := Yields.finished hend
      rwa [h.eq_all] at h
    | false =>
      cases hone : r.skipBlanks.one with
      | mk outcome r' =>
        cases outcome with
        | error failure =>
          have h := Yields.failed hend hone
          rwa [h.eq_all] at h
        | ok v =>
          have hread := r.one_skipBlanks ▸ hone
          have hlt := position_one_lt hread
          have hless : r'.text.length - r'.position < k := by
            rw [(advances_one hread).text]
            omega
          have h := Yields.value hend hone (ih _ hless r' rfl)
          rwa [h.eq_all] at h

/-- Reading all values ends, and what it gives is what the loop gives. -/
theorem yields_iff : r.Yields readings ↔ readings = r.all :=
  ⟨Yields.eq_all, fun h => h ▸ r.yields_all⟩

/-- Each value takes a character at least. -/
theorem Yields.length_le (h : r.Yields readings) :
    r.position + readings.values.length ≤ readings.position ∧ readings.position ≤ r.finish := by
  induction h with
  | finished => exact skipBlanks_bounds _
  | failed hend hone =>
    rw [one_skipBlanks] at hone
    exact ⟨(advances_one hone).le, (advances_one hone).le_finish⟩
  | value hend hone hrest ih =>
    rw [one_skipBlanks] at hone
    have hlt := position_one_lt hone
    simp only [finish, (advances_one hone).text, List.length_cons] at ih ⊢
    omega

/-! ### What is done with a reader -/

inductive Step where
  | one
  | skip
  | all
deriving DecidableEq, Repr

/-- The reader after a step, also if the step fails. -/
def perform (r : Reader) : Step → Reader
  | .one => r.one.2
  | .skip => r.skipBlanks
  | .all => { r with position := r.all.position }

def performAll (r : Reader) (steps : List Step) : Reader := steps.foldl perform r

theorem advances_perform (r : Reader) (step : Step) : r.Advances (r.perform step) := by
  cases step with
  | one => exact advances_one rfl
  | skip => exact ⟨rfl, rfl, r.skipBlanks_bounds.1, r.skipBlanks_bounds.2⟩
  | all =>
    have hall := r.yields_all.length_le
    exact ⟨rfl, rfl, (Nat.le_add_right ..).trans hall.1, hall.2⟩

theorem advances_performAll (r : Reader) (steps : List Step) : r.Advances (r.performAll steps) := by
  induction steps generalizing r with
  | nil => exact .refl r
  | cons step steps ih => exact (r.advances_perform step).trans (ih _)

/-- Whatever has been done with a reader, each further step moves its cursor forward, if at all, and not
beyond the text. A value that is read moves it to right behind the value, a failure moves it unless it was at
the end of the text. Reading all values is the loop that reads one after the other: it ends, and gives no more
values than there are characters. -/
theorem performAll_advances (text : List Char) (start : Nat) (options : ReadOptions) (steps : List Step) :
    let r := performAll ⟨text, start, options⟩ steps
    (r.text = text ∧ r.options = options ∧ start ≤ r.position ∧ r.position ≤ max start text.length) ∧
    (∀ step, r.position ≤ (r.perform step).position ∧ (r.perform step).position ≤ max start text.length) ∧
    (∀ v r', r.one = (.ok v, r') → r.position < r'.position ∧ ∃ before l, r.HasRead r' v before l) ∧
    (∀ failure r', r.one = (.error failure, r') → (r'.position = r.position ↔ text.length ≤ r.position)) ∧
    (∀ readings, r.Yields readings ↔ readings = r.all) ∧ r.all.values.length ≤ text.length := by
  intro r
  have hrun := advances_performAll ⟨text, start, options⟩ steps
  have htext : r.text = text := hrun.text
  refine ⟨⟨htext, hrun.options, hrun.le, hrun.le_finish⟩, fun step => ?_, fun v r' hone => ?_,
    fun failure r' hone => ?_, fun readings => yields_iff, ?_⟩
  · have hstep := r.advances_perform step
    exact ⟨hstep.le, (hrun.trans hstep).le_finish⟩
  · exact ⟨(position_one_lt hone).1, hasRead_one hone⟩
  · rw [position_one_eq_iff hone, htext]
  · have hall := r.yields_all.length_le
    rw [finish, htext] at hall
    omega

/-- Behind a parenthesis that closes nothing, a list is read, and behind the list a string without its end. -/
theorem performAll_advances_resumed :
    let r := performAll ⟨") (a) \"b".toList, 0, ⟨false, 1⟩⟩ [.one]
    let r' := performAll ⟨") (a) \"b".toList, 0, ⟨false, 1⟩⟩ [.one, .one]
    r.one = (.ok (.ofList [.symbol "a"]), r') ∧ (∃ before l, r.HasRead r' (.ofList [.symbol "a"]) before l) ∧
    r'.one.1 = .error (.unreadable (.unclosedString 6)) ∧ r'.one.2.position ≠ r'.position := by
  intro r r'
  have hvalue : r.one = (.ok (.ofList [.symbol "a"]), r') := by rfl
  have hfailure : r'.one = (.error (.unreadable (.unclosedString 6)), r'.one.2) := by rfl
  obtain ⟨-, -, hread, -⟩ := performAll_advances ") (a) \"b".toList 0 ⟨false, 1⟩ [.one]
  obtain ⟨-, -, -, hstays, -⟩ := performAll_advances ") (a) \"b".toList 0 ⟨false, 1⟩ [.one, .one]
  refine ⟨hvalue, (hread _ _ hvalue).2, congrArg (·.1) hfailure, fun hposition => ?_⟩
  have hend := (hstays _ _ hfailure).1 hposition
  exact absurd hend (by decide +kernel)

end Reader

end Lisplet
