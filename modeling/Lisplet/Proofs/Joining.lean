import Lisplet.Proofs.Balance

/-!
# Reading joined texts

`Reader.all_joined`: a text that is read, a blank and a second text are read like the first text and
then the second one, with every place of the second moved behind the first. Reading from a place in a
text is reading what follows it. The lexemes of a text do not depend on where it stands but for their
places (`scan_add`), nor on what a blank separates from it (`scan_append_blank`), and the reader does
not look at places but to report them (`readAll_shift`, `readOne_shift`).
-/

namespace Lisplet

theorem ReadFault.position_shift (fault : ReadFault) (n : Nat) : (fault.shift n).position = fault.position + n := by
  cases fault <;> rfl

/-- A failure to read the same text `n` characters further on. -/
def Failure.shift (n : Nat) : Failure → Failure
  | .unreadable fault => .unreadable (fault.shift n)
  | failure => failure

def Readings.shift (n : Nat) (r : Readings) : Readings := ⟨r.values, r.failure.map (.shift n), r.position + n⟩

/-! ### Lexemes -/

namespace Lexeme

def shift (n : Nat) (l : Lexeme) : Lexeme := ⟨l.token, l.start + n, l.stop + n⟩

theorem scan_add (n k : Nat) (text : List Char) : scan (n + k) text = (scan n text).map (shift k) := by
  fun_induction scan n text with
  | case1 => rw [scan_nil, List.map_nil]
  | case2 start c cs hblank ih =>
    rw [scan_blank hblank, Nat.add_right_comm, ih]
  | case3 start cs hblank ih =>
    rw [scan_opening, Nat.add_right_comm, ih, List.map_cons]
    rfl
  | case4 start cs hblank ho ih =>
    rw [scan_closing, Nat.add_right_comm, ih, List.map_cons]
    rfl
  | case5 start cs body hempty hblank ho hc =>
    rw [scan.eq_def]
    dsimp only
    rw [if_neg hblank, if_neg ho, if_neg hc, if_pos rfl, if_pos hempty, List.map_singleton, shift]
    simp only [body]
    congr 2
    omega
  | case6 start cs body hempty hblank ho hc ih =>
    rw [scan.eq_def]
    dsimp only
    rw [if_neg hblank, if_neg ho, if_neg hc, if_pos rfl, if_neg hempty, List.map_cons, ← ih, shift]
    have hstop : start + k + body.length + 2 = start + body.length + 2 + k := by omega
    simp only [body] at hstop ⊢
    rw [hstop]
  | case7 start c cs hblank ho hc hq run ih =>
    rw [scan.eq_def]
    dsimp only
    rw [if_neg hblank, if_neg ho, if_neg hc, if_neg hq, List.map_cons, ← ih, shift]
    have hstop : start + k + run.length = start + run.length + k := by omega
    simp only [run] at hstop ⊢
    rw [hstop]

theorem exists_quote {cs : List Char} (h : (cs.dropWhile inQuotes).isEmpty ≠ true) :
    ∃ tail, cs.dropWhile inQuotes = '"' :: tail := by
  have hne : cs.dropWhile inQuotes ≠ [] := fun hnil => h (List.isEmpty_iff.2 hnil)
  have hhead : (cs.dropWhile inQuotes).head hne = '"' := by
    simpa [inQuotes] using List.head_dropWhile_not inQuotes hne
  exact ⟨_, by rw [← hhead, List.cons_head_tail]⟩

theorem delimited_dropWhile {rest : List Char} (h : Delimited rest) (cs : List Char) :
    Delimited (cs.dropWhile inLiteral ++ rest) := by
  intro c hc
  cases hdrop : cs.dropWhile inLiteral with
  | nil =>
    rw [hdrop] at hc
    exact h c hc
  | cons d ds =>
    have hd := List.head?_dropWhile_not inLiteral cs
    rw [hdrop] at hc hd
    cases hc
    simpa [inLiteral] using hd

/-- Behind a blank a text is cut anew, unless a string is still open there. -/
theorem scan_append_blank {n : Nat} {text : List Char} (h : ∀ l ∈ scan n text, l.token.isUnclosed = false) {b : Char}
    (hb : Text.isBlank b = true) (rest : List Char) :
    scan n (text ++ b :: rest) = scan n text ++ scan (n + (text.length + 1)) rest := by
  have hdelim : Delimited (b :: rest) := by
    rintro c ⟨⟩
    simp [isDelimiter, hb]
  fun_induction scan n text with
  | case1 => rw [List.nil_append, scan_blank hb, List.nil_append, List.length_nil]
  | case2 start c cs hblank ih =>
    rw [List.cons_append, scan_blank hblank, ih h, List.length_cons]
    congr 2
    omega
  | case3 start cs hblank ih =>
    rw [List.cons_append, scan_opening, ih (List.forall_mem_cons.1 h).2, List.cons_append, List.length_cons]
    congr 3
    omega
  | case4 start cs hblank ho ih =>
    rw [List.cons_append, scan_closing, ih (List.forall_mem_cons.1 h).2, List.cons_append, List.length_cons]
    congr 3
    omega
  | case5 start cs body hempty hblank ho hc => cases h _ (List.mem_singleton_self _)
  | case6 start cs body hempty hblank ho hc ih =>
    obtain ⟨tail, htail⟩ := exists_quote hempty
    have hbody : '"' ∉ body := fun hmem => by
      have := List.mem_takeWhile_imp hmem
      simp [inQuotes] at this
    have hcs : cs = body ++ '"' :: tail := by rw [← htail, List.takeWhile_append_dropWhile]
    have htext : '"' :: cs ++ b :: rest = '"' :: (body ++ '"' :: (tail ++ b :: rest)) := by
      rw [hcs, List.cons_append, List.append_assoc, List.cons_append]
    have hlen : ('"' :: cs).length = body.length + 2 + tail.length := by
      rw [hcs]
      simp only [List.length_cons, List.length_append]
      omega
    rw [htail, List.tail_cons] at ih h ⊢
    rw [htext, scan_quoted hbody, ih (List.forall_mem_cons.1 h).2, List.cons_append, hlen]
    congr 3
    omega
  | case7 start c cs hblank ho hc hq run ih =>
    have hrun : ∀ a ∈ run, isDelimiter a = false := by
      intro a ha
      rcases List.mem_cons.1 ha with rfl | ha
      · simp [isDelimiter, ho, hc, hblank]
      · simpa [inLiteral] using List.mem_takeWhile_imp ha
    have hcs : c :: cs = run ++ cs.dropWhile inLiteral := by
      rw [List.cons_append, List.takeWhile_append_dropWhile]
    have hlen : (c :: cs).length = run.length + (cs.dropWhile inLiteral).length := by
      rw [hcs, List.length_append]
    rw [hlen, hcs, List.append_assoc, scan_literal (List.cons_ne_nil _ _) (by simpa [run] using hq) hrun
      (delimited_dropWhile hdelim cs), ih (List.forall_mem_cons.1 h).2, List.cons_append]
    congr 3
    omega

end Lexeme

/-! ### Readers -/

section
variable {options : ReadOptions} {finish : Nat} {n n' : Nesting} {l : Lexeme} {ls : List Lexeme}

theorem Nesting.accept_shift (strict : Bool) (n : Nesting) (l : Lexeme) (k : Nat) :
    n.accept strict (l.shift k) = (n.accept strict l).mapError (.shift k) := by
  obtain ⟨room, opened⟩ := n
  unfold accept
  rw [show (l.shift k).token = l.token from rfl, show (l.shift k).start = l.start + k from rfl]
  cases l.token with
  | opening => cases room <;> rfl
  | closing => cases opened <;> rfl
  | quoted body => rfl
  | unclosed body => rfl
  | literal cs =>
    simp only [readLiteral_eq]
    split <;> rfl

theorem readAll_shift (options : ReadOptions) (finish k : Nat) (n : Nesting) (ls : List Lexeme) :
    readAll options (finish + k) n (ls.map (.shift k)) = (readAll options finish n ls).shift k := by
  induction ls generalizing n with
  | nil =>
    rw [List.map_nil, readAll, readAll]
    split <;> rfl
  | cons l ls ih =>
    rw [List.map_cons, readAll, readAll, Nesting.accept_shift]
    cases n.accept options.strict l with
    | error failure => rfl
    | ok progress =>
      cases progress with
      | value v =>
        dsimp only [Except.mapError]
        rw [ih]
        rfl
      | pending n' => exact ih n'

theorem readOne_shift (options : ReadOptions) (finish k : Nat) (n : Nesting) (ls : List Lexeme) :
    readOne options (finish + k) n (ls.map (.shift k)) =
      ((readOne options finish n ls).1.mapError (.shift k), (readOne options finish n ls).2 + k) := by
  induction ls generalizing n with
  | nil => rfl
  | cons l ls ih =>
    rw [List.map_cons, readOne, readOne, Nesting.accept_shift]
    cases n.accept options.strict l with
    | error failure => rfl
    | ok progress =>
      cases progress with
      | value v => rfl
      | pending n' => exact ih n'

theorem Nesting.deliver_pending {v : Value} (h : n.deliver v = .pending n') :
    n'.room + n'.opened.length = n.room + n.opened.length ∧ n'.opened ≠ [] := by
  obtain ⟨room, opened⟩ := n
  cases opened with
  | nil => cases h
  | cons top below =>
    cases h
    exact ⟨rfl, List.cons_ne_nil _ _⟩

/-- What is open and what may be opened make the same sum all along, and a list stays open until there is a
value. -/
theorem Nesting.accept_pending {strict : Bool} (h : n.accept strict l = .ok (.pending n')) :
    n'.room + n'.opened.length = n.room + n.opened.length ∧ n'.opened ≠ [] := by
  obtain ⟨room, opened⟩ := n
  unfold accept at h
  cases htok : l.token with
  | opening =>
    rw [htok] at h
    cases room with
    | zero => cases h
    | succ room =>
      cases h
      refine ⟨?_, List.cons_ne_nil _ _⟩
      simp only [List.length_cons]
      omega
  | closing =>
    rw [htok] at h
    cases opened with
    | nil => cases h
    | cons top below =>
      obtain ⟨hsum, hne⟩ := deliver_pending (Except.ok.inj h)
      refine ⟨hsum.trans ?_, hne⟩
      simp only [List.length_cons]
      omega
  | quoted body =>
    rw [htok] at h
    exact deliver_pending (Except.ok.inj h)
  | unclosed body =>
    rw [htok] at h
    cases h
  | literal cs =>
    rw [htok] at h
    simp only [readLiteral_eq] at h
    split at h
    · cases h
    · exact deliver_pending (Except.ok.inj h)

/-- In lexemes that are all read, every string is closed. -/
theorem isUnclosed_of_readAll (h : (readAll options finish n ls).failure = none) :
    ∀ l ∈ ls, l.token.isUnclosed = false := by
  induction ls generalizing n with
  | nil => intro l hl; cases hl
  | cons l ls ih =>
    rw [readAll] at h
    cases haccept : n.accept options.strict l with
    | error failure =>
      rw [haccept] at h
      cases h
    | ok progress =>
      have hl : l.token.isUnclosed = false := by
        cases htok : l.token with
        | unclosed body =>
          simp only [Nesting.accept, htok] at haccept
          cases haccept
        | _ => rfl
      rw [haccept] at h
      cases progress with
      | value v => exact List.forall_mem_cons.2 ⟨hl, ih h⟩
      | pending n' => exact List.forall_mem_cons.2 ⟨hl, ih h⟩

/-- Behind lexemes that are all read, the reader starts anew. -/
theorem readAll_append (hroom : n.room + n.opened.length = options.room)
    (h : (readAll options finish n ls).failure = none) (finish' : Nat) (rest : List Lexeme) :
    readAll options finish' n (ls ++ rest) =
      { readAll options finish' ⟨options.room, []⟩ rest with
        values := (readAll options finish n ls).values ++
          (readAll options finish' ⟨options.room, []⟩ rest).values } := by
  induction ls generalizing n with
  | nil =>
    obtain ⟨room, opened⟩ := n
    cases opened with
    | nil =>
      obtain rfl : room = options.room := hroom
      rfl
    | cons top below => cases h
  | cons l ls ih =>
    rw [List.cons_append, readAll, readAll]
    rw [readAll] at h
    cases haccept : n.accept options.strict l with
    | error failure =>
      rw [haccept] at h
      cases h
    | ok progress =>
      rw [haccept] at h
      cases progress with
      | value v =>
        dsimp only at h ⊢
        rw [ih rfl h]
        rfl
      | pending n' => exact ih ((Nesting.accept_pending haccept).1.trans hroom) h

end

/-- A text that is read and a second text behind a blank are read as the one and then the other, whose
places all move by the length of what stands before it. What is read from a place on is what the rest of
the text is read as, with all places moved to there. -/
theorem Reader.all_joined (options : ReadOptions) (first second : List Char) (blank : Char)
    (hblank : Text.isBlank blank = true) (hfirst : (Reader.all ⟨first, 0, options⟩).failure = none) :
    Reader.all ⟨first ++ blank :: second, 0, options⟩ =
      { (Reader.all ⟨second, 0, options⟩).shift (first.length + 1) with
        values := (Reader.all ⟨first, 0, options⟩).values ++ (Reader.all ⟨second, 0, options⟩).values } ∧
    (∀ fault, (Reader.all ⟨second, 0, options⟩).failure = some (.unreadable fault) →
      ∃ moved, (Reader.all ⟨first ++ blank :: second, 0, options⟩).failure = some (.unreadable moved) ∧
        moved = fault.shift (first.length + 1) ∧ moved.position = fault.position + (first.length + 1)) ∧
    ∀ (text : List Char) (start : Nat), start ≤ text.length →
      let rest := Reader.one ⟨text.drop start, 0, options⟩
      Reader.one ⟨text, start, options⟩ =
        (rest.1.mapError (.shift start), ⟨text, rest.2.position + start, options⟩) := by
  have hall : Reader.all ⟨first ++ blank :: second, 0, options⟩ =
      { (Reader.all ⟨second, 0, options⟩).shift (first.length + 1) with
        values := (Reader.all ⟨first, 0, options⟩).values ++ (Reader.all ⟨second, 0, options⟩).values } := by
    simp only [all, lexemes, Reader.finish, Lexeme.cut_eq_scan, List.drop_zero, Nat.zero_max] at hfirst ⊢
    have hlen : (first ++ blank :: second).length = second.length + (first.length + 1) := by
      rw [List.length_append, List.length_cons]
      omega
    rw [Lexeme.scan_append_blank (isUnclosed_of_readAll hfirst) hblank, readAll_append rfl hfirst, Lexeme.scan_add,
      hlen, readAll_shift]
    rfl
  refine ⟨hall, ?_, ?_⟩
  · intro fault hfault
    refine ⟨fault.shift (first.length + 1), ?_, rfl, fault.position_shift _⟩
    rw [hall]
    simp only [Readings.shift, hfault]
    rfl
  · intro text start hstart
    have hlen : max start text.length = (text.drop start).length + start := by
      rw [List.length_drop]
      omega
    have hscan := Lexeme.scan_add 0 start (text.drop start)
    rw [Nat.zero_add] at hscan
    simp only [one, lexemes, Reader.finish, Lexeme.cut_eq_scan, List.drop_zero, Nat.zero_max, hlen, hscan,
      readOne_shift]

/-- A list with a string of a parenthesis and a number, then in the next line a list that is closed twice. -/
theorem Reader.all_joined_stray :
    (Reader.all ⟨"(a \"b )\") -2".toList, 0, ⟨true, 5⟩⟩).failure = none ∧
    (Reader.all ⟨"(a \"b )\") -2".toList ++ '\n' :: "(c)) d".toList, 0, ⟨true, 5⟩⟩).failure =
      some (.unreadable (.strayClose 16)) ∧
    (Reader.one ⟨"(a \"b )\") -2".toList, 3, ⟨true, 5⟩⟩).2.position = 8 := by
  have hfirst : (Reader.all ⟨"(a \"b )\") -2".toList, 0, ⟨true, 5⟩⟩).failure = none := by decide +kernel
  have hsecond : (Reader.all ⟨"(c)) d".toList, 0, ⟨true, 5⟩⟩).failure = some (.unreadable (.strayClose 3)) := by
    decide +kernel
  have hrest : (Reader.one ⟨"(a \"b )\") -2".toList.drop 3, 0, ⟨true, 5⟩⟩).2.position = 5 := by decide +kernel
  obtain ⟨-, hjoined, hone⟩ :=
    Reader.all_joined ⟨true, 5⟩ "(a \"b )\") -2".toList "(c)) d".toList '\n' (by decide) hfirst
  refine ⟨hfirst, ?_, ?_⟩
  · obtain ⟨moved, hfailure, rfl, -⟩ := hjoined _ hsecond
    exact hfailure
  · rw [hone _ 3 (by decide)]
    show _ + 3 = 8
    rw [hrest]

end Lisplet
