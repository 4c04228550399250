import Lisplet.Editor.Index
import Lisplet.Proofs.Forest

/-!
# Pieces and lexemes

The index of a document and the reader cut a text each in their own way. `pieces_eq`: the pieces of
the index are the lexemes of the reader, with the same characters, offsets and positions.
`pieces_agree`: so the index has the pieces that the reader consumes, up to the place where the reader
stops (`readAll_consumption`).
-/

namespace Lisplet

/-! ### Lexemes in their text -/

namespace Lexeme

theorem scan_bounds {n : Nat} {text : List Char} {l : Lexeme} (h : l ∈ scan n text) :
    n ≤ l.start ∧ l.start < l.stop ∧ l.stop ≤ n + text.length := by
  fun_induction scan n text with
  | case1 => cases h
  | case2 start c cs hblank ih =>
    have := ih h
    simp only [List.length_cons]
    omega
  | case3 start cs hblank ih | case4 start cs hblank ho ih =>
    simp only [List.length_cons]
    rcases List.mem_cons.1 h with rfl | h
    · simp only
      omega
    · have := ih h
      omega
  | case5 start cs body hempty hblank ho hc =>
    have hbody : body.length ≤ cs.length := (List.takeWhile_sublist inQuotes).length_le
    obtain rfl := List.mem_singleton.1 h
    simp only [List.length_cons]
    omega
  | case6 start cs body hempty hblank ho hc ih =>
    have hlen : body.length + (cs.dropWhile inQuotes).length = cs.length := by
      rw [← List.length_append, List.takeWhile_append_dropWhile]
    have hne : (cs.dropWhile inQuotes).length ≠ 0 := by simpa using hempty
    simp only [List.length_cons]
    rcases List.mem_cons.1 h with rfl | h
    · simp only
      omega
    · have := ih h
      rw [List.length_tail] at this
      omega
  | case7 start c cs hblank ho hc hq run ih =>
    have hlen : (cs.takeWhile inLiteral).length + (cs.dropWhile inLiteral).length = cs.length := by
      rw [← List.length_append, List.takeWhile_append_dropWhile]
    have hrun : run.length = (cs.takeWhile inLiteral).length + 1 := List.length_cons
    simp only [List.length_cons]
    rcases List.mem_cons.1 h with rfl | h
    · simp only
      omega
    · have := ih h
      omega

theorem scan_pairwise (n : Nat) (text : List Char) : (scan n text).Pairwise fun k l => k.stop ≤ l.start := by
  fun_induction scan n text with
  | case1 => exact .nil
  | case2 start c cs hblank ih => exact ih
  | case3 | case4 | case6 | case7 => exact .cons (fun l hl => (scan_bounds hl).1) ‹_›
  | case5 => exact List.pairwise_singleton ..

end Lexeme

/-! ### Pieces in their text -/

/-- A lexeme of a text as a piece of it. -/
def Lexeme.piece (text : List Char) (l : Lexeme) : Editor.Piece :=
  ⟨l.token.text, l.start, Text.positionOf text l.start⟩

namespace Editor

open Text (Position positionOf)

section
variable {offset : Nat} {position : Position} {c : Char} {cs rest : List Char}

theorem piecesFrom_append (offset : Nat) (position : Position) (cs rest : List Char) :
    piecesFrom offset position cs.length (cs ++ rest) =
      piecesFrom (offset + cs.length) (cs.foldl Position.advance position) 0 rest := by
  induction cs generalizing offset position with
  | nil => rfl
  | cons c cs ih =>
    rw [List.length_cons, List.cons_append, piecesFrom, ih, List.foldl_cons, Nat.add_assoc, Nat.add_comm 1]

theorem piecesFrom_piece (h : pieceLength (c :: (cs ++ rest)) = cs.length + 1) :
    piecesFrom offset position 0 (c :: (cs ++ rest)) =
      ⟨c :: cs, offset, position⟩ ::
        piecesFrom (offset + (cs.length + 1)) ((c :: cs).foldl Position.advance position) 0 rest := by
  rw [piecesFrom]
  simp only [h]
  rw [piecesFrom_append, Nat.add_assoc, Nat.add_comm 1, List.foldl_cons, List.take_succ_cons, List.take_left]

theorem piecesFrom_blank (h : Text.isBlank c = true) :
    piecesFrom offset position 0 (c :: cs) = piecesFrom (offset + 1) (position.advance c) 0 cs := by
  have hlength : pieceLength (c :: cs) = 0 := by
    have hne : c ≠ '(' ∧ c ≠ ')' ∧ c ≠ '"' := by
      refine ⟨?_, ?_, ?_⟩ <;> (rintro rfl; revert h; decide)
    simp [pieceLength, hne, Lexeme.isDelimiter, h]
  rw [piecesFrom]
  simp only [hlength]

theorem pieceLength_quoted (h : cs.dropWhile Lexeme.inQuotes ≠ []) :
    pieceLength ('"' :: cs) = (cs.takeWhile Lexeme.inQuotes ++ ['"']).length + 1 := by
  have hempty : (cs.dropWhile (· != '"')).isEmpty = false := List.isEmpty_eq_false_iff.2 h
  have hbody : (cs.takeWhile (· != '"')).length = (cs.takeWhile Lexeme.inQuotes).length := rfl
  simp only [pieceLength, hempty, hbody]
  simp
  omega

theorem pieceLength_unclosed (h : cs.dropWhile Lexeme.inQuotes = []) : pieceLength ('"' :: cs) = cs.length + 1 := by
  have hempty : (cs.dropWhile (· != '"')).isEmpty = true := List.isEmpty_iff.2 h
  have hbody : cs.takeWhile (· != '"') = cs := by
    rw [← List.append_nil (cs.takeWhile _), ← show cs.dropWhile (· != '"') = [] from h, List.takeWhile_append_dropWhile]
  simp only [pieceLength, hempty, hbody]
  simp
  omega

theorem pieceLength_literal (hblank : Text.isBlank c ≠ true) (ho : c ≠ '(') (hc : c ≠ ')') (hq : c ≠ '"') :
    pieceLength (c :: cs) = (cs.takeWhile Lexeme.inLiteral).length + 1 := by
  have hlit : Lexeme.isDelimiter c = false := by simp [Lexeme.isDelimiter, ho, hc, hblank]
  have hrun : cs.takeWhile (fun c => !Lexeme.isDelimiter c) = cs.takeWhile Lexeme.inLiteral := rfl
  simp [pieceLength, ho, hc, hq, hlit, hrun]

end

theorem positionOf_length (before text : List Char) :
    positionOf (before ++ text) before.length = before.foldl Position.advance ⟨0, 0⟩ := by
  simp [positionOf]

/-- A lexeme at the front of a text is the first piece, and what follows it has the other pieces. -/
theorem piecesFrom_lexeme {before text rest : List Char} {l : Lexeme} {ls : List Lexeme}
    (htext : text = l.token.text ++ rest) (hne : l.token.text ≠ []) (hstart : l.start = before.length)
    (hstop : l.stop = before.length + l.token.text.length) (hlength : pieceLength text = l.token.text.length)
    (h : piecesFrom l.stop ((before ++ l.token.text).foldl Position.advance ⟨0, 0⟩) 0 rest =
      ls.map (Lexeme.piece (before ++ l.token.text ++ rest))) :
    piecesFrom before.length (before.foldl Position.advance ⟨0, 0⟩) 0 text =
      (l :: ls).map (Lexeme.piece (before ++ text)) := by
  subst htext
  rw [List.map_cons, Lexeme.piece, hstart, positionOf_length, ← List.append_assoc, ← h, hstop]
  obtain ⟨c, cs, hcs⟩ := List.exists_cons_of_ne_nil hne
  rw [hcs, List.cons_append] at hlength ⊢
  rw [piecesFrom_piece hlength, List.foldl_append, List.length_cons]

theorem piecesFrom_eq (before text : List Char) :
    piecesFrom before.length (before.foldl Position.advance ⟨0, 0⟩) 0 text =
      (Lexeme.scan before.length text).map (Lexeme.piece (before ++ text)) := by
  -- along the text, `before` is what has been cut already
  generalize hn : before.length = n
  fun_induction Lexeme.scan n text generalizing before with
  | case1 => rfl
  | case2 start c cs hblank ih =>
    have ih := ih (before ++ [c]) (by simp [hn])
    rw [List.foldl_append, List.append_assoc] at ih
    rw [piecesFrom_blank hblank]
    exact ih
  | case3 start cs hblank ih | case4 start cs hblank ho ih =>
    subst hn
    exact piecesFrom_lexeme rfl (List.cons_ne_nil _ _) rfl rfl rfl (ih _ List.length_append)
  | case5 start cs body hempty hblank ho hc =>
    subst hn
    have hbody : body = cs := by
      rw [← List.append_nil body, ← List.isEmpty_iff.1 hempty, List.takeWhile_append_dropWhile]
    have hend : piecesFrom (before.length + body.length + 1)
        ((before ++ '"' :: body).foldl Position.advance ⟨0, 0⟩) 0 [] = [] := rfl
    refine piecesFrom_lexeme ?_ (List.cons_ne_nil _ _) rfl rfl ?_ hend
    · simp only [Token.text, hbody, List.append_nil]
    · rw [pieceLength_unclosed (List.isEmpty_iff.1 hempty), Token.text, List.length_cons, hbody]
  | case6 start cs body hempty hblank ho hc ih =>
    subst hn
    have hne : cs.dropWhile Lexeme.inQuotes ≠ [] := fun h => hempty (List.isEmpty_iff.2 h)
    have hhead : (cs.dropWhile Lexeme.inQuotes).head hne = '"' := by
      simpa [Lexeme.inQuotes] using List.head_dropWhile_not Lexeme.inQuotes hne
    have hquote : '"' :: (cs.dropWhile Lexeme.inQuotes).tail = cs.dropWhile Lexeme.inQuotes := by
      rw [← hhead, List.cons_head_tail]
    have hlength : before.length + body.length + 2 = before.length + (Token.quoted body).text.length := by
      simp [Token.text, Nat.add_assoc]
    refine piecesFrom_lexeme ?_ (List.cons_ne_nil _ _) rfl hlength (pieceLength_quoted hne) (ih _ ?_)
    · simp only [Token.text, List.cons_append, List.append_assoc, List.nil_append, body, hquote,
        List.takeWhile_append_dropWhile]
    · rw [List.length_append, hlength]
  | case7 start c cs hblank ho hc hq run ih =>
    subst hn
    refine piecesFrom_lexeme ?_ (List.cons_ne_nil _ _) rfl rfl (pieceLength_literal hblank ho hc hq)
      (ih _ List.length_append)
    simp only [Token.text, run, List.cons_append, List.takeWhile_append_dropWhile]

/-- The pieces of a text are its lexemes. -/
theorem pieces_eq (text : List Char) : pieces text = (Lexeme.scan 0 text).map (Lexeme.piece text) :=
  piecesFrom_eq [] text

end Editor

/-! ### What a reader consumes -/

/-- The lexemes that are read one after the other: all of them, or those up to the one that cannot be
accepted. -/
def consumedFrom (options : ReadOptions) : Nesting → List Lexeme → List Lexeme
  | _, [] => []
  | nesting, l :: ls =>
    match nesting.accept options.strict l with
    | .error _ => [l]
    | .ok (.value _) => l :: consumedFrom options ⟨options.room, []⟩ ls
    | .ok (.pending nesting) => l :: consumedFrom options nesting ls

namespace Reader

def consumed (r : Reader) : List Lexeme := consumedFrom r.options ⟨r.options.room, []⟩ r.lexemes

/-- A reader at the beginning of a text. -/
def ofText (options : ReadOptions) (text : String) : Reader := ⟨text.toList, 0, options⟩

end Reader

/-- Why a lexeme cannot be accepted is reported where it starts. -/
theorem Nesting.accept_eq_error {n : Nesting} {strict : Bool} {l : Lexeme} {failure : Failure}
    (h : n.accept strict l = .error failure) :
    failure = .exhausted ∨ ∃ fault, failure = .unreadable fault ∧ fault.position = l.start := by
  obtain ⟨room, opened⟩ := n
  cases htok : l.token with
  | opening =>
    cases room with
    | zero =>
      simp only [accept, htok] at h
      cases h
      exact .inl rfl
    | succ room => simp [accept_opening htok] at h
  | closing =>
    cases opened with
    | nil =>
      simp only [accept, htok] at h
      cases h
      exact .inr ⟨_, rfl, rfl⟩
    | cons top below => simp [accept_closing htok] at h
  | quoted body => simp [accept_quoted htok] at h
  | unclosed body =>
    simp only [accept, htok] at h
    cases h
    exact .inr ⟨_, rfl, rfl⟩
  | literal cs =>
    simp only [accept, htok, readLiteral_eq] at h
    split at h
    · cases h
      exact .inr ⟨_, rfl, rfl⟩
    · cases h

/-- What is consumed of lexemes, why reading stops and where: at the end of the text, which may come too
early, or at a lexeme that cannot be accepted. -/
inductive Consumption (finish : Nat) : List Lexeme → List Lexeme → Option Failure → Nat → Prop
  | complete : Consumption finish [] [] none finish
  | ended : Consumption finish [] [] (some (.unreadable (.endOfInput finish))) finish
  | refused {l : Lexeme} {fault : ReadFault} (h : fault.position = l.start) (after : List Lexeme) :
    Consumption finish (l :: after) [l] (some (.unreadable fault)) l.stop
  | exhausted (l : Lexeme) (after : List Lexeme) : Consumption finish (l :: after) [l] (some .exhausted) l.stop
  | cons (l : Lexeme) {ls taken : List Lexeme} {failure : Option Failure} {position : Nat}
    (h : Consumption finish ls taken failure position) : Consumption finish (l :: ls) (l :: taken) failure position

section
variable (options : ReadOptions) (finish : Nat) (n : Nesting) (ls : List Lexeme)

/-- A reader that gets no further lexemes than it consumes reads the same. -/
theorem readAll_consumedFrom : readAll options finish n (consumedFrom options n ls) = readAll options finish n ls := by
  induction ls generalizing n with
  | nil => rfl
  | cons l ls ih =>
    cases hres : n.accept options.strict l with
    | error failure => simp only [consumedFrom, readAll, hres]
    | ok progress => cases progress <;> simp only [consumedFrom, readAll, hres, ih]

theorem readAll_consumption :
    Consumption finish ls (consumedFrom options n ls) (readAll options finish n ls).failure
      (readAll options finish n ls).position := by
  induction ls generalizing n with
  | nil =>
    unfold readAll
    split
    · exact .complete
    · exact .ended
  | cons l ls ih =>
    cases hres : n.accept options.strict l with
    | error failure =>
      simp only [consumedFrom, readAll, hres]
      rcases Nesting.accept_eq_error hres with rfl | ⟨fault, rfl, hposition⟩
      · exact .exhausted l ls
      · exact .refused hposition ls
    | ok progress =>
      cases progress with
      | value v =>
        simp only [consumedFrom, readAll, hres]
        exact .cons l (ih _)
      | pending n' =>
        simp only [consumedFrom, readAll, hres]
        exact .cons l (ih n')

end

namespace Consumption

variable {finish position : Nat} {ls taken : List Lexeme} {failure : Option Failure}

theorem eq_of_none (h : Consumption finish ls taken none position) : taken = ls := by
  generalize hfailure : none = failure at h
  induction h with
  | complete => rfl
  | ended | refused | exhausted => cases hfailure
  | cons l _ ih => rw [ih hfailure]

theorem exists_append (h : Consumption finish ls taken failure position) : ∃ rest, taken ++ rest = ls := by
  induction h with
  | complete | ended => exact ⟨[], rfl⟩
  | refused _ after | exhausted _ after => exact ⟨after, rfl⟩
  | cons l _ ih =>
    obtain ⟨rest, rfl⟩ := ih
    exact ⟨rest, rfl⟩

theorem filter_head {l : Lexeme} {after : List Lexeme} (hsorted : (l :: after).Pairwise fun k l => k.stop ≤ l.start)
    {bound : Nat} (hle : bound ≤ l.stop) :
    (l :: after).filter (·.start < bound) = [l].filter (·.start < bound) := by
  have hafter : after.filter (·.start < bound) = [] := by
    refine List.filter_eq_nil_iff.2 fun k hk => ?_
    have := (List.pairwise_cons.1 hsorted).1 k hk
    simp only [decide_eq_true_eq]
    omega
  rw [List.filter_cons, List.filter_cons, hafter, List.filter_nil]

/-- The lexemes that are not consumed start behind the place that is reported and the place reached. -/
theorem filter_eq (h : Consumption finish ls taken failure position) (hsorted : ls.Pairwise fun k l => k.stop ≤ l.start)
    (hwide : ∀ l ∈ ls, l.start < l.stop) {bound : Nat}
    (hbound : bound = position ∨ ∃ fault, failure = some (.unreadable fault) ∧ bound = fault.position) :
    ls.filter (·.start < bound) = taken.filter (·.start < bound) := by
  induction h with
  | complete | ended => rfl
  | @refused l fault hfault after =>
    refine filter_head hsorted ?_
    rcases hbound with rfl | ⟨_, ⟨⟩, rfl⟩
    · exact Nat.le_refl _
    · exact hfault ▸ Nat.le_of_lt (hwide l (List.mem_cons_self ..))
  | exhausted l after =>
    refine filter_head hsorted ?_
    rcases hbound with rfl | ⟨_, ⟨⟩, -⟩
    exact Nat.le_refl _
  | cons l _ ih =>
    rw [List.filter_cons, List.filter_cons,
      ih (List.pairwise_cons.1 hsorted).2 (fun k hk => hwide k (List.mem_cons_of_mem _ hk)) hbound]

end Consumption

section
variable {options : ReadOptions} {text : String}

theorem Reader.lexemes_ofText (options : ReadOptions) (text : String) :
    (ofText options text).lexemes = Lexeme.scan 0 text.toList := by
  rw [lexemes, ofText, List.drop_zero, Lexeme.cut_eq_scan]

theorem Reader.consumption (r : Reader) : Consumption r.finish r.lexemes r.consumed r.all.failure r.all.position :=
  readAll_consumption ..

theorem failure_of_readText_ok {vs : List Value} (h : readText options text = .ok vs) :
    (Reader.ofText options text).all.failure = none := by
  unfold readText at h
  dsimp only at h
  split at h
  · cases h
  · assumption

theorem failure_of_readText_error {failure : Failure} (h : readText options text = .error failure) :
    (Reader.ofText options text).all.failure = some failure := by
  unfold readText at h
  dsimp only at h
  split at h
  · cases h
    assumption
  · cases h

end

/-- The characters of a lexeme and the offset at which it starts. -/
def Lexeme.mark (l : Lexeme) : List Char × Nat := (l.token.text, l.start)

namespace Editor

def Piece.mark (p : Piece) : List Char × Nat := (p.text, p.start)

variable {options : ReadOptions} {text : String}

theorem marks_pieces (options : ReadOptions) (text : String) :
    (pieces text.toList).map Piece.mark = (Reader.ofText options text).lexemes.map Lexeme.mark := by
  rw [pieces_eq, List.map_map, Reader.lexemes_ofText]
  rfl

theorem filter_marks {bound : Nat}
    (hbound : bound = (Reader.ofText options text).all.position ∨
      ∃ fault, (Reader.ofText options text).all.failure = some (.unreadable fault) ∧ bound = fault.position) :
    ((pieces text.toList).map Piece.mark).filter (·.2 < bound) =
      ((Reader.ofText options text).consumed.map Lexeme.mark).filter (·.2 < bound) := by
  have hlexemes := Reader.lexemes_ofText options text
  have hfilter := (Reader.consumption (.ofText options text)).filter_eq (hlexemes ▸ Lexeme.scan_pairwise ..)
    (fun l hl => (Lexeme.scan_bounds (hlexemes ▸ hl)).2.1) hbound
  rw [marks_pieces options, List.filter_map, List.filter_map]
  exact congrArg _ hfilter

/-- The index has exactly the tokens that the reader consumes, at the offsets at which they start: all of
them if the text is read, else those before the place that is reported, or, where the text is nested too
deeply, before the place reached. What is consumed is the beginning of the lexemes that alone is read like
all of them. -/
theorem pieces_agree (options : ReadOptions) (text : String) :
    (∀ vs, readText options text = .ok vs →
      (pieces text.toList).map Piece.mark = (Reader.ofText options text).consumed.map Lexeme.mark) ∧
    (∀ fault, readText options text = .error (.unreadable fault) →
      ((pieces text.toList).map Piece.mark).filter (·.2 < fault.position) =
        ((Reader.ofText options text).consumed.map Lexeme.mark).filter (·.2 < fault.position)) ∧
    (readText options text = .error .exhausted →
      ((pieces text.toList).map Piece.mark).filter (·.2 < (Reader.ofText options text).all.position) =
        ((Reader.ofText options text).consumed.map Lexeme.mark).filter
          (·.2 < (Reader.ofText options text).all.position)) ∧
    (∃ rest, (Reader.ofText options text).consumed ++ rest = (Reader.ofText options text).lexemes) ∧
    readAll options (Reader.ofText options text).finish ⟨options.room, []⟩ (Reader.ofText options text).consumed =
      (Reader.ofText options text).all := by
  have hconsumption := Reader.consumption (.ofText options text)
  refine ⟨fun vs hread => ?_, fun fault hread => ?_, fun _ => filter_marks (.inl rfl), hconsumption.exists_append,
    readAll_consumedFrom ..⟩
  · rw [failure_of_readText_ok hread] at hconsumption
    rw [marks_pieces options, hconsumption.eq_of_none]
  · exact filter_marks (.inr ⟨fault, failure_of_readText_error hread, rfl⟩)

/-- A quote inside a literal, a string that touches a literal, and a list that is closed twice. -/
theorem pieces_agree_stray :
    readText ⟨false, 9⟩ "(a\"b \"c (d\"e) )f" = .error (.unreadable (.strayClose 14)) ∧
      ((Reader.ofText ⟨false, 9⟩ "(a\"b \"c (d\"e) )f").consumed.map Lexeme.mark).filter (·.2 < 14) =
        [("(".toList, 0), ("a\"b".toList, 1), ("\"c (d\"".toList, 5), ("e".toList, 11), (")".toList, 12)] := by
  have hread : readText ⟨false, 9⟩ "(a\"b \"c (d\"e) )f" = .error (.unreadable (.strayClose 14)) := by rfl
  refine ⟨hread, ((pieces_agree ⟨false, 9⟩ "(a\"b \"c (d\"e) )f").2.1 _ hread).symm.trans ?_⟩
  decide

end Editor

end Lisplet
