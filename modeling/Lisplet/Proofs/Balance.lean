import Lisplet.Proofs.Forest

/-!
# What the reader accepts

`readText_balanced`: a text is read exactly if its tokens are balanced, and then the values are those
of the one forest that the tokens spell; otherwise the first token out of place is reported, or the
end of the text. The reader agrees with a count of open lists alone (`readAll_failure`), and the
count finds the first place where the tokens are out of order (`firstFault_spec`).
-/

namespace Lisplet

def Token.isUnclosed : Token → Bool
  | .unclosed _ => true
  | _ => false

/-- No token is out of place when `depth` lists are open: every string is closed, and what is closed
was opened before. -/
structure InOrder (depth : Nat) (ts : List Token) : Prop where
  terminated : ∀ t ∈ ts, t.isUnclosed = false
  covered : ∀ p, p <+: ts → p.count .closing ≤ p.count .opening + depth

structure Balanced (ts : List Token) : Prop extends InOrder 0 ts where
  closed : ts.count .closing = ts.count .opening

/-- No more than `room` further lists are open at once, as far as the tokens are in order. -/
def Fits (room depth : Nat) (ts : List Token) : Prop :=
  ∀ p, p <+: ts → InOrder depth p → p.count .opening ≤ p.count .closing + room

/-! ### One token -/

/-- How many lists are open behind a token that `depth` lists are open before, if it is in place. -/
def Token.after (depth : Nat) : Token → Option Nat
  | .opening => some (depth + 1)
  | .closing =>
    match depth with
    | 0 => none
    | depth + 1 => some depth
  | .quoted _ | .literal _ => some depth
  | .unclosed _ => none

section
variable {room depth depth' : Nat} {t : Token} {ts : List Token}

theorem Token.count_of_after (h : t.after depth = some depth') (p : List Token) :
    (t :: p).count .closing + (p.count .opening + depth') = p.count .closing + ((t :: p).count .opening + depth) := by
  cases t with
  | opening => obtain rfl : depth + 1 = depth' := Option.some.inj h; simp; omega
  | closing =>
    cases depth with
    | zero => cases h
    | succ depth => obtain rfl : depth = depth' := Option.some.inj h; simp; omega
  | quoted | literal => obtain rfl : depth = depth' := Option.some.inj h; simp
  | unclosed => cases h

theorem Token.isUnclosed_of_after (h : t.after depth = some depth') : t.isUnclosed = false := by
  cases t with
  | unclosed => cases h
  | _ => rfl

theorem Token.after_eq_none (h : t.after depth = none) : t = .closing ∧ depth = 0 ∨ t.isUnclosed := by
  cases t with
  | closing =>
    cases depth with
    | zero => exact .inl ⟨rfl, rfl⟩
    | succ depth => cases h
  | unclosed => exact .inr rfl
  | _ => cases h

theorem InOrder.nil : InOrder depth [] where
  terminated t ht := by cases ht
  covered p hp := by simp [List.prefix_nil.1 hp]

theorem InOrder.cons (ht : t.after depth = some depth') (h : InOrder depth' ts) : InOrder depth (t :: ts) where
  terminated t' ht' := by
    rcases List.mem_cons.1 ht' with rfl | ht'
    · exact Token.isUnclosed_of_after ht
    · exact h.terminated t' ht'
  covered p hp := by
    rcases List.prefix_cons_iff.1 hp with rfl | ⟨q, rfl, hq⟩
    · simp
    · have := h.covered q hq
      have := Token.count_of_after ht q
      omega

/-- The room behind a token: what is open and what may be opened make the same sum. -/
theorem Fits.of_cons (ht : t.after depth = some depth') (h : Fits room depth (t :: ts)) :
    ∃ room', room' + depth' = room + depth ∧ Fits room' depth' ts := by
  have hone := h [t] (by simp) (InOrder.nil.cons ht)
  have hcount := Token.count_of_after ht []
  simp only [List.count_nil] at hcount
  refine ⟨room + depth - depth', by omega, fun p hp hin => ?_⟩
  have := h (t :: p) (List.cons_prefix_cons.2 ⟨rfl, hp⟩) (hin.cons ht)
  have := Token.count_of_after ht p
  omega

theorem Fits.of_count (h : ts.count .opening ≤ room) : Fits room depth ts := by
  intro p hp _
  have := hp.sublist.count_le .opening
  omega

/-- A forest that fits is not nested too deeply, and leaves the room to what follows. -/
theorem Fits.depth_le {f : Forest} (h : Fits room depth (f.tokens ++ ts)) :
    f.depth ≤ room ∧ Fits room depth ts := by
  induction f generalizing room depth ts with
  | nil => exact ⟨Nat.zero_le _, h⟩
  | string body next ih | literal body next ih =>
    obtain ⟨room', hroom, h'⟩ := h.of_cons rfl
    obtain rfl : room' = room := by omega
    exact ih h'
  | list inner next ihInner ihNext =>
    rw [Forest.tokens, List.cons_append, List.append_assoc] at h
    obtain ⟨roomInner, hroom, hopen⟩ := h.of_cons rfl
    obtain ⟨hinner, hclose⟩ := ihInner hopen
    obtain ⟨roomNext, hroom', hnext⟩ := hclose.of_cons rfl
    obtain rfl : roomNext = room := by omega
    obtain ⟨hnext, hrest⟩ := ihNext hnext
    exact ⟨Nat.max_le.2 ⟨by omega, hnext⟩, hrest⟩

end

/-! ### Counting open lists -/

def Lexeme.fault (l : Lexeme) : ReadFault :=
  if l.token.isUnclosed then .unclosedString l.start else .strayClose l.start

/-- The fault of lexemes that `depth` lists are open before, of a text that ends at `finish`. -/
def firstFault (finish : Nat) : Nat → List Lexeme → Option ReadFault
  | 0, [] => none
  | _ + 1, [] => some (.endOfInput finish)
  | depth, l :: ls =>
    match l.token.after depth with
    | some depth => firstFault finish depth ls
    | none => some l.fault

section
variable {finish depth depth' : Nat} {l : Lexeme} {ls : List Lexeme}

theorem firstFault_cons (h : l.token.after depth = some depth') :
    firstFault finish depth (l :: ls) = firstFault finish depth' ls := by
  cases depth <;> simp only [firstFault, h]

theorem firstFault_fault (h : l.token.after depth = none) : firstFault finish depth (l :: ls) = some l.fault := by
  cases depth <;> simp only [firstFault, h]

end

section
variable {room finish depth' : Nat} {l : Lexeme} {ls : List Lexeme} {n n' : Nesting}

theorem Nesting.accept_fault (h : l.token.after n.opened.length = none) (strict : Bool) :
    n.accept strict l = .error (.unreadable l.fault) := by
  obtain ⟨left, opened⟩ := n
  cases htok : l.token with
  | closing =>
    cases opened with
    | nil => simp [Nesting.accept, Lexeme.fault, htok, Token.isUnclosed]
    | cons top below => rw [htok] at h; cases h
  | unclosed => simp [Nesting.accept, Lexeme.fault, htok, Token.isUnclosed]
  | _ => rw [htok] at h; cases h

/-- A value outside of lists is complete, and the reader starts anew; else the value is added to the
list that is open. -/
theorem readAll_deliver {strict : Bool} {v : Value} (finish : Nat) (ls : List Lexeme)
    (h : n.accept strict l = .ok (n'.deliver v)) (hroom : n'.room + n'.opened.length = room) :
    ∃ n'', n''.opened.length = n'.opened.length ∧ n''.room = n'.room ∧
      (readAll ⟨strict, room⟩ finish n (l :: ls)).failure = (readAll ⟨strict, room⟩ finish n'' ls).failure := by
  obtain ⟨left, opened⟩ := n'
  cases opened with
  | nil => exact ⟨⟨room, []⟩, rfl, hroom.symm, by simp only [readAll, h, Nesting.deliver]⟩
  | cons top below => exact ⟨⟨left, (v :: top) :: below⟩, rfl, rfl, by simp only [readAll, h, Nesting.deliver]⟩

theorem readAll_cons_failure (finish : Nat) (ls : List Lexeme) (h : l.token.after n.opened.length = some depth')
    (hroom : n.room + n.opened.length = room) (hle : depth' ≤ room) :
    ∃ n', n'.opened.length = depth' ∧ n'.room + depth' = room ∧
      (readAll ⟨false, room⟩ finish n (l :: ls)).failure = (readAll ⟨false, room⟩ finish n' ls).failure := by
  obtain ⟨left, opened⟩ := n
  have hdeliver : ∀ (n' : Nesting) (v : Value), Nesting.accept false ⟨left, opened⟩ l = .ok (n'.deliver v) →
      n'.opened.length = depth' → n'.room + depth' = room →
      ∃ n', n'.opened.length = depth' ∧ n'.room + depth' = room ∧ (readAll ⟨false, room⟩ finish ⟨left, opened⟩
        (l :: ls)).failure = (readAll ⟨false, room⟩ finish n' ls).failure := by
    rintro n' v haccept rfl hn'
    obtain ⟨n'', hlen, hleft, heq⟩ := readAll_deliver finish ls haccept hn'
    exact ⟨n'', hlen, by rw [hleft, hn'], heq⟩
  cases htok : l.token with
  | opening =>
    obtain rfl : opened.length + 1 = depth' := by rw [htok] at h; exact Option.some.inj h
    obtain ⟨left, rfl⟩ : ∃ k, left = k + 1 := ⟨left - 1, by simp only at hroom; omega⟩
    refine ⟨⟨left, [] :: opened⟩, rfl, by simp only at hroom ⊢; omega, ?_⟩
    simp only [readAll, Nesting.accept_opening htok]
  | closing =>
    cases opened with
    | nil => rw [htok] at h; cases h
    | cons top below =>
      obtain rfl : below.length = depth' := by rw [htok] at h; exact Option.some.inj h
      exact hdeliver ⟨left + 1, below⟩ _ (Nesting.accept_closing htok) rfl
        (by simp only [List.length_cons] at hroom ⊢; omega)
  | quoted body =>
    obtain rfl : opened.length = depth' := by rw [htok] at h; exact Option.some.inj h
    exact hdeliver ⟨left, opened⟩ _ (Nesting.accept_quoted htok) rfl hroom
  | literal cs =>
    obtain rfl : opened.length = depth' := by rw [htok] at h; exact Option.some.inj h
    exact hdeliver ⟨left, opened⟩ _ (Nesting.accept_literal htok rfl) rfl hroom
  | unclosed => rw [htok] at h; cases h

/-- The reader fails as the count of open lists says. -/
theorem readAll_failure (finish : Nat) (hroom : n.room + n.opened.length = room)
    (hfits : Fits n.room n.opened.length (ls.map (·.token))) :
    (readAll ⟨false, room⟩ finish n ls).failure = (firstFault finish n.opened.length ls).map .unreadable := by
  induction ls generalizing n with
  | nil =>
    obtain ⟨left, opened⟩ := n
    cases opened <;> simp [readAll, firstFault]
  | cons l ls ih =>
    cases hafter : l.token.after n.opened.length with
    | none => rw [firstFault_fault hafter]; simp only [readAll, Nesting.accept_fault hafter]; rfl
    | some depth' =>
      rw [List.map_cons] at hfits
      -- What is open and what may be opened make the same sum on both sides.
      obtain ⟨room', hsum, hfits'⟩ := hfits.of_cons hafter
      obtain ⟨n', rfl, hn', heq⟩ := readAll_cons_failure finish ls hafter hroom (by omega)
      obtain rfl : room' = n'.room := by omega
      rw [heq, firstFault_cons hafter, ih hn' hfits']

end

/-! ### Where the tokens are out of order -/

/-- The lexeme `l` is the first one out of place: those before it are in order, and it closes what is
not open, or is a string without an end. -/
structure Misplaced (depth : Nat) (before : List Lexeme) (l : Lexeme) (fault : ReadFault) : Prop where
  inOrder : InOrder depth (before.map (·.token))
  offends :
    (l.token = .closing ∧ (before.map (·.token)).count .closing = (before.map (·.token)).count .opening + depth ∧
      fault = .strayClose l.start) ∨
    (l.token.isUnclosed ∧ fault = .unclosedString l.start)

section
variable {finish depth depth' : Nat} {l : Lexeme} {before ls : List Lexeme} {fault : ReadFault}

theorem Misplaced.cons {k : Lexeme} (hk : k.token.after depth = some depth') (h : Misplaced depth' before l fault) :
    Misplaced depth (k :: before) l fault where
  inOrder := h.inOrder.cons hk
  offends := by
    refine h.offends.imp_left fun ⟨hl, hcount, hfault⟩ => ⟨hl, ?_, hfault⟩
    have := Token.count_of_after hk (before.map (·.token))
    rw [List.map_cons]
    omega

theorem Misplaced.head (h : l.token.after depth = none) : Misplaced depth [] l l.fault where
  inOrder := InOrder.nil
  offends := by
    rcases Token.after_eq_none h with ⟨hl, rfl⟩ | hl
    · exact .inl ⟨hl, rfl, by simp [Lexeme.fault, hl, Token.isUnclosed]⟩
    · exact .inr ⟨hl, by simp [Lexeme.fault, hl]⟩

theorem Misplaced.not_balanced {after : List Lexeme} (h : Misplaced 0 before l fault) :
    ¬ Balanced ((before ++ l :: after).map (·.token)) := by
  intro hb
  rcases h.offends with ⟨hl, hcount, -⟩ | ⟨hl, -⟩
  · have := hb.covered ((before ++ [l]).map (·.token)) (by simp)
    simp [hl] at this
    omega
  · have := hb.terminated l.token (by simp)
    simp [hl] at this

/-- The count finds no fault exactly if the tokens are in order and all lists are closed, else it
finds the first lexeme out of place, or the end. -/
theorem firstFault_spec (finish depth : Nat) (ls : List Lexeme) :
    match firstFault finish depth ls with
    | none => InOrder depth (ls.map (·.token)) ∧
        (ls.map (·.token)).count .closing = (ls.map (·.token)).count .opening + depth
    | some fault =>
      (∃ before l after, ls = before ++ l :: after ∧ Misplaced depth before l fault) ∨
      (InOrder depth (ls.map (·.token)) ∧
        (ls.map (·.token)).count .closing < (ls.map (·.token)).count .opening + depth ∧
          fault = .endOfInput finish) := by
  induction ls generalizing depth with
  | nil =>
    cases depth with
    | zero => exact ⟨InOrder.nil, rfl⟩
    | succ depth => exact .inr ⟨InOrder.nil, by simp, rfl⟩
  | cons l ls ih =>
    cases hafter : l.token.after depth with
    | none => rw [firstFault_fault hafter]; exact .inl ⟨[], l, ls, rfl, Misplaced.head hafter⟩
    | some depth' =>
      have hcount := Token.count_of_after hafter (ls.map (·.token))
      have ih := ih depth'
      rw [firstFault_cons hafter]
      cases hfault : firstFault finish depth' ls with
      | none =>
        rw [hfault] at ih
        exact ⟨ih.1.cons hafter, by rw [List.map_cons]; have := ih.2; omega⟩
      | some fault =>
        rw [hfault] at ih
        rcases ih with ⟨before, l', after, rfl, h⟩ | ⟨hin, hlt, rfl⟩
        · exact .inl ⟨l :: before, l', after, rfl, h.cons hafter⟩
        · exact .inr ⟨hin.cons hafter, by rw [List.map_cons]; omega, rfl⟩

/-- Without a fault, the tokens spell a forest, and one more for each list that was open. -/
theorem exists_forests (h : firstFault finish depth ls = none) :
    ∃ (f : Forest) (fs : List Forest), fs.length = depth ∧
      ls.map (·.token) = f.tokens ++ fs.flatMap (.closing :: ·.tokens) := by
  induction ls generalizing depth with
  | nil =>
    cases depth with
    | zero => exact ⟨.nil, [], rfl, rfl⟩
    | succ depth => cases h
  | cons l ls ih =>
    cases hafter : l.token.after depth with
    | none => rw [firstFault_fault hafter] at h; cases h
    | some depth' =>
      rw [firstFault_cons hafter] at h
      obtain ⟨f, fs, rfl, heq⟩ := ih h
      rw [List.map_cons, heq]
      cases htok : l.token with
      | opening =>
        rw [htok] at hafter
        cases fs with
        | nil => cases hafter
        | cons g fs =>
          -- The forest up to the next closing is the inside of this list, and the one behind it follows the list.
          refine ⟨.list f g, fs, (Nat.succ.inj (Option.some.inj hafter)).symm, ?_⟩
          simp [Forest.tokens]
      | closing =>
        rw [htok] at hafter
        cases depth with
        | zero => cases hafter
        | succ depth => exact ⟨.nil, f :: fs, congrArg (· + 1) (Option.some.inj hafter).symm, rfl⟩
      | quoted body =>
        rw [htok] at hafter
        exact ⟨.string body f, fs, (Option.some.inj hafter).symm, rfl⟩
      | literal cs =>
        rw [htok] at hafter
        exact ⟨.literal cs f, fs, (Option.some.inj hafter).symm, rfl⟩
      | unclosed => rw [htok] at hafter; cases hafter

end

/-! ### Texts -/

def tokensOf (text : String) : List Token := (Lexeme.scan 0 text.toList).map (·.token)

section
variable {room : Nat} {text : String}

theorem readText_of_firstFault (hfits : Fits room 0 (tokensOf text)) :
    match firstFault text.length 0 (Lexeme.scan 0 text.toList) with
    | none => ∃ f : Forest, f.tokens = tokensOf text ∧ readText ⟨false, room⟩ text = .ok f.values
    | some fault => readText ⟨false, room⟩ text = .error (.unreadable fault) := by
  cases hfault : firstFault text.length 0 (Lexeme.scan 0 text.toList) with
  | none =>
    obtain ⟨f, fs, hfs, heq⟩ := exists_forests hfault
    obtain rfl : fs = [] := List.length_eq_zero_iff.1 hfs
    have hf : tokensOf text = f.tokens ++ [] := heq
    refine ⟨f, by rw [hf, List.append_nil], ?_⟩
    rw [hf] at hfits
    exact readText_forest (by rw [heq]; simp) f.sound_lenient hfits.depth_le.1
  | some fault =>
    have hfail := readAll_failure (n := ⟨room, []⟩) text.length (Nat.add_zero room) hfits
    rw [List.length_nil, hfault] at hfail
    exact readText_error hfail

end

/-- Without strictness a text is read exactly if its tokens are balanced, as the values of the one
forest that they spell. Else the first token out of place is reported, or the end of the text. -/
theorem readText_balanced (room : Nat) (text : String) (hfits : Fits room 0 (tokensOf text)) :
    ((∃ vs, readText ⟨false, room⟩ text = .ok vs) ↔ Balanced (tokensOf text)) ∧
    (∀ vs, readText ⟨false, room⟩ text = .ok vs →
      ∃ f : Forest, f.tokens = tokensOf text ∧ (∀ g : Forest, g.tokens = tokensOf text → g = f) ∧ vs = f.values) ∧
    (¬ Balanced (tokensOf text) →
      (∃ before l after fault, Lexeme.scan 0 text.toList = before ++ l :: after ∧ Misplaced 0 before l fault ∧
        readText ⟨false, room⟩ text = .error (.unreadable fault)) ∨
      (InOrder 0 (tokensOf text) ∧ (tokensOf text).count .closing < (tokensOf text).count .opening ∧
        ∃ fault, fault.message = "unexpected end of input" ∧ fault.position = text.length ∧
          readText ⟨false, room⟩ text = .error (.unreadable fault))) := by
  have hread := readText_of_firstFault hfits
  have hspec := firstFault_spec text.length 0 (Lexeme.scan 0 text.toList)
  cases hfault : firstFault text.length 0 (Lexeme.scan 0 text.toList) with
  | none =>
    rw [hfault] at hread hspec
    obtain ⟨f, hf, hread⟩ := hread
    have hbalanced : Balanced (tokensOf text) := ⟨hspec.1, hspec.2⟩
    refine ⟨⟨fun _ => hbalanced, fun _ => ⟨_, hread⟩⟩, fun vs hvs => ?_, fun h => absurd hbalanced h⟩
    rw [hread, Except.ok.injEq] at hvs
    exact ⟨f, hf, fun g hg => Forest.tokens_injective (by rw [hg, hf]), hvs.symm⟩
  | some fault =>
    rw [hfault] at hread hspec
    have hbalanced : ¬ Balanced (tokensOf text) := by
      rcases hspec with ⟨before, l, after, hls, h⟩ | ⟨-, hlt, -⟩
      · rw [tokensOf, hls]
        exact h.not_balanced
      · exact fun hb => Nat.lt_irrefl _ (hb.closed ▸ hlt)
    refine ⟨⟨fun ⟨vs, hvs⟩ => ?_, fun h => absurd h hbalanced⟩, fun vs hvs => ?_, fun _ => ?_⟩
    · rw [hread] at hvs; cases hvs
    · rw [hread] at hvs; cases hvs
    · refine hspec.imp (fun ⟨before, l, after, hls, h⟩ => ⟨before, l, after, fault, hls, h, hread⟩) ?_
      rintro ⟨hin, hlt, rfl⟩
      exact ⟨hin, hlt, _, rfl, rfl, hread⟩

/-- A list is closed twice before a string that does not end. -/
theorem readText_balanced_stray :
    ¬ Balanced (tokensOf "(a ()) ) \"b") ∧
    readText ⟨false, 2⟩ "(a ()) ) \"b" = .error (.unreadable (.strayClose 7)) ∧
    ((∃ vs, readText ⟨false, 2⟩ "(a ()) ) \"b" = .ok vs) ↔ Balanced (tokensOf "(a ()) ) \"b")) := by
  have h := readText_balanced 2 "(a ()) ) \"b" (Fits.of_count (by rw [tokensOf, ← Lexeme.cut_eq_scan]; decide))
  have hread : readText ⟨false, 2⟩ "(a ()) ) \"b" = .error (.unreadable (.strayClose 7)) := by rfl
  refine ⟨fun hb => ?_, hread, h.1⟩
  obtain ⟨vs, hvs⟩ := h.1.2 hb
  rw [hread] at hvs
  cases hvs

end Lisplet
