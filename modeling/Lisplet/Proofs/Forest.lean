import Lisplet.Proofs.Lexing
import Lisplet.Reader

/-!
# Forests of tokens

A forest is a row of trees whose leaves are strings and literals. Read in order it is a row of tokens
(`Forest.tokens`), and it stands for a row of values (`Forest.values`). `readAll_forest`: from
lexemes that spell a forest, the reader reads the values of the forest, whatever follows. A row of
tokens spells at most one forest (`Forest.tokens_injective`).
-/

namespace Lisplet

/-- What a literal denotes: the number it starts with, one of the words, else a symbol. -/
def literalValue (cs : List Char) : Value :=
  match Numeral.scan cs with
  | some (numeral, _) => .double numeral.toDouble
  | none =>
    if cs = "true".toList then .bool true
    else if cs = "false".toList then .bool false
    else if cs = "null".toList then .nil
    else .symbol (String.ofList cs)

/-- A literal that goes on behind the number it starts with. -/
def overhangs (cs : List Char) : Bool :=
  match Numeral.scan cs with
  | some (_, rest) => !rest.isEmpty
  | none => false

/-- Reading a literal fails only if it is strict and the literal overhangs. -/
theorem readLiteral_eq (strict : Bool) (cs : List Char) (start : Nat) :
    readLiteral strict cs start =
      if strict && overhangs cs then .error (.unreadable (.malformedNumber (String.ofList cs) start))
      else .ok (literalValue cs) := by
  unfold readLiteral overhangs literalValue
  cases hscan : Numeral.scan cs with
  | some scanned => rfl
  | none =>
    simp only [Bool.and_false, Bool.false_eq_true, ↓reduceIte]
    split
    · rfl
    · split
      · rfl
      · split <;> rfl

namespace Nesting

variable {l : Lexeme} {strict : Bool} {room : Nat} {opened below : List (List Value)} {top : List Value}

theorem accept_opening (h : l.token = .opening) :
    accept strict ⟨room + 1, opened⟩ l = .ok (.pending ⟨room, [] :: opened⟩) := by
  simp only [accept, h]

theorem accept_closing (h : l.token = .closing) :
    accept strict ⟨room, top :: below⟩ l = .ok (deliver ⟨room + 1, below⟩ (.ofList top.reverse)) := by
  simp only [accept, h]

theorem accept_quoted {body : List Char} (h : l.token = .quoted body) :
    accept strict ⟨room, opened⟩ l = .ok (deliver ⟨room, opened⟩ (.string (String.ofList body))) := by
  simp only [accept, h]

theorem accept_literal {cs : List Char} (h : l.token = .literal cs) (hs : (strict && overhangs cs) = false) :
    accept strict ⟨room, opened⟩ l = .ok (deliver ⟨room, opened⟩ (literalValue cs)) := by
  simp only [accept, h, readLiteral_eq, hs, Bool.false_eq_true, ↓reduceIte, Except.map]

end Nesting

/-- A row of trees, given by the first tree and the rest of the row. -/
inductive Forest where
  | nil
  | string (body : List Char) (next : Forest)
  | literal (cs : List Char) (next : Forest)
  | list (inner next : Forest)
deriving DecidableEq, Repr

namespace Forest

def tokens : Forest → List Token
  | nil => []
  | string body next => .quoted body :: next.tokens
  | literal cs next => .literal cs :: next.tokens
  | list inner next => .opening :: (inner.tokens ++ .closing :: next.tokens)

/-- The values that the trees of a forest stand for. -/
def values : Forest → List Value
  | nil => []
  | string body next => .string (String.ofList body) :: next.values
  | literal cs next => literalValue cs :: next.values
  | list inner next => .ofList inner.values :: next.values

def depth : Forest → Nat
  | nil => 0
  | string _ next => next.depth
  | literal _ next => next.depth
  | list inner next => max (inner.depth + 1) next.depth

/-! ### Unique spelling -/

/-- Tokens spell a forest up to a place where none goes on in one way only. -/
theorem tokens_append_inj {f g : Forest} {r s : List Token} (hr : r.head? = none ∨ r.head? = some .closing)
    (hs : s.head? = none ∨ s.head? = some .closing) (h : f.tokens ++ r = g.tokens ++ s) : f = g ∧ r = s := by
  induction f generalizing g r s with
  | nil =>
    cases g with
    | nil => exact ⟨rfl, h⟩
    | string | literal | list => rw [tokens, List.nil_append] at h; simp [h, tokens] at hr
  | string body next ih =>
    cases g with
    | string body' next' =>
      simp only [tokens, List.cons_append, List.cons.injEq, Token.quoted.injEq] at h
      obtain ⟨rfl, h⟩ := h
      obtain ⟨rfl, rfl⟩ := ih hr hs h
      exact ⟨rfl, rfl⟩
    | nil => rw [tokens, tokens, List.nil_append] at h; simp [← h] at hs
    | literal | list => simp [tokens] at h
  | literal cs next ih =>
    cases g with
    | literal cs' next' =>
      simp only [tokens, List.cons_append, List.cons.injEq, Token.literal.injEq] at h
      obtain ⟨rfl, h⟩ := h
      obtain ⟨rfl, rfl⟩ := ih hr hs h
      exact ⟨rfl, rfl⟩
    | nil => rw [tokens, tokens, List.nil_append] at h; simp [← h] at hs
    | string | list => simp [tokens] at h
  | list inner next ihInner ihNext =>
    cases g with
    | list inner' next' =>
      simp only [tokens, List.cons_append, List.append_assoc, List.cons.injEq, true_and] at h
      obtain ⟨rfl, hnext⟩ := ihInner (.inr rfl) (.inr rfl) h
      obtain ⟨rfl, rfl⟩ := ihNext hr hs (List.cons.inj hnext).2
      exact ⟨rfl, rfl⟩
    | nil => rw [tokens, tokens, List.nil_append] at h; simp [← h] at hs
    | string | literal => simp [tokens] at h

theorem tokens_injective {f g : Forest} (h : f.tokens = g.tokens) : f = g :=
  (tokens_append_inj (r := []) (s := []) (.inl rfl) (.inl rfl) (by rw [h])).1

/-! ### Reading -/

/-- The literals of a forest are read under the given strictness. -/
def Sound (strict : Bool) (f : Forest) : Prop :=
  ∀ cs, Token.literal cs ∈ f.tokens → (strict && overhangs cs) = false

theorem sound_lenient (f : Forest) : f.Sound false := fun _ _ => rfl

section
variable {strict : Bool} {body cs : List Char} {inner next : Forest}

theorem Sound.of_string (h : (string body next).Sound strict) : next.Sound strict :=
  fun cs hcs => h cs (List.mem_cons_of_mem _ hcs)

theorem Sound.of_literal (h : (literal cs next).Sound strict) :
    (strict && overhangs cs) = false ∧ next.Sound strict :=
  ⟨h cs (List.mem_cons_self ..), fun cs hcs => h cs (List.mem_cons_of_mem _ hcs)⟩

theorem Sound.of_list (h : (list inner next).Sound strict) : inner.Sound strict ∧ next.Sound strict :=
  ⟨fun cs hcs => h cs (by simp [tokens, hcs]), fun cs hcs => h cs (by simp [tokens, hcs])⟩

theorem Sound.literal (hcs : overhangs cs = false) (hnext : next.Sound strict) : (literal cs next).Sound strict := by
  intro cs' hmem
  rcases List.mem_cons.1 hmem with heq | hmem
  · rw [Token.literal.inj heq, hcs, Bool.and_false]
  · exact hnext cs' hmem

theorem Sound.list (hinner : inner.Sound strict) (hnext : next.Sound strict) : (list inner next).Sound strict := by
  intro cs hcs
  simp only [tokens, List.mem_cons, List.mem_append, reduceCtorEq, false_or] at hcs
  exact hcs.elim (hinner cs) (hnext cs)

end

theorem split_list {ls : List Lexeme} {inner next : Forest} (h : ls.map (·.token) = (list inner next).tokens) :
    ∃ o ls₁ c ls₂, ls = o :: (ls₁ ++ c :: ls₂) ∧ o.token = .opening ∧ ls₁.map (·.token) = inner.tokens ∧
      c.token = .closing ∧ ls₂.map (·.token) = next.tokens := by
  obtain ⟨o, ls', rfl, ho, h⟩ := List.map_eq_cons_iff.1 h
  obtain ⟨ls₁, ls'', rfl, h₁, h⟩ := List.map_eq_append_iff.1 h
  obtain ⟨c, ls₂, rfl, hc, h₂⟩ := List.map_eq_cons_iff.1 h
  exact ⟨o, ls₁, c, ls₂, rfl, ho, h₁, hc, h₂⟩

end Forest

section
variable {options : ReadOptions} {finish : Nat} {f : Forest} {ls rest : List Lexeme}

/-- Inside a list, the values of a forest are added to it. -/
theorem readAll_inside {room : Nat} {top : List Value} {below : List (List Value)}
    (hls : ls.map (·.token) = f.tokens) (hs : f.Sound options.strict) (hd : f.depth ≤ room) :
    readAll options finish ⟨room, top :: below⟩ (ls ++ rest) =
      readAll options finish ⟨room, (f.values.reverse ++ top) :: below⟩ rest := by
  induction f generalizing ls rest room top below with
  | nil =>
    obtain rfl : ls = [] := List.map_eq_nil_iff.1 hls
    rfl
  | string body next ih =>
    obtain ⟨l, ls, rfl, hl, hls⟩ := List.map_eq_cons_iff.1 hls
    simp only [List.cons_append, readAll, Nesting.accept_quoted hl, Nesting.deliver]
    rw [ih hls hs.of_string hd]
    simp [Forest.values]
  | literal cs next ih =>
    obtain ⟨l, ls, rfl, hl, hls⟩ := List.map_eq_cons_iff.1 hls
    simp only [List.cons_append, readAll, Nesting.accept_literal hl hs.of_literal.1, Nesting.deliver]
    rw [ih hls hs.of_literal.2 hd]
    simp [Forest.values]
  | list inner next ihInner ihNext =>
    obtain ⟨o, ls₁, c, ls₂, rfl, ho, h₁, hc, h₂⟩ := Forest.split_list hls
    have hd' : inner.depth + 1 ≤ room ∧ next.depth ≤ room := Nat.max_le.1 hd
    obtain ⟨room, rfl⟩ := Nat.exists_eq_add_of_le' (Nat.le_trans (Nat.le_add_left 1 _) hd'.1)
    simp only [List.cons_append, List.append_assoc, readAll, Nesting.accept_opening ho]
    rw [ihInner h₁ hs.of_list.1 (by omega)]
    simp only [readAll, Nesting.accept_closing hc, Nesting.deliver, List.append_nil, List.reverse_reverse]
    rw [ihNext h₂ hs.of_list.2 hd'.2]
    simp [Forest.values]

/-- Outside of lists, the values of a forest are read one after the other. -/
theorem readAll_forest (hls : ls.map (·.token) = f.tokens) (hs : f.Sound options.strict)
    (hd : f.depth ≤ options.room) :
    readAll options finish ⟨options.room, []⟩ (ls ++ rest) =
      { readAll options finish ⟨options.room, []⟩ rest with
        values := f.values ++ (readAll options finish ⟨options.room, []⟩ rest).values } := by
  induction f generalizing ls rest with
  | nil =>
    obtain rfl : ls = [] := List.map_eq_nil_iff.1 hls
    rfl
  | string body next ih =>
    obtain ⟨l, ls, rfl, hl, hls⟩ := List.map_eq_cons_iff.1 hls
    simp only [List.cons_append, readAll, Nesting.accept_quoted hl, Nesting.deliver, ih hls hs.of_string hd,
      Forest.values]
  | literal cs next ih =>
    obtain ⟨l, ls, rfl, hl, hls⟩ := List.map_eq_cons_iff.1 hls
    simp only [List.cons_append, readAll, Nesting.accept_literal hl hs.of_literal.1, Nesting.deliver,
      ih hls hs.of_literal.2 hd, Forest.values]
  | list inner next _ ihNext =>
    obtain ⟨o, ls₁, c, ls₂, rfl, ho, h₁, hc, h₂⟩ := Forest.split_list hls
    have hd' : inner.depth + 1 ≤ options.room ∧ next.depth ≤ options.room := Nat.max_le.1 hd
    obtain ⟨room, hroom⟩ := Nat.exists_eq_add_of_le' (Nat.le_trans (Nat.le_add_left 1 _) hd'.1)
    have hopen : Nesting.accept options.strict ⟨options.room, []⟩ o = .ok (.pending ⟨room, [[]]⟩) := by
      rw [hroom, Nesting.accept_opening ho]
    simp only [List.cons_append, List.append_assoc, readAll, hopen]
    rw [readAll_inside h₁ hs.of_list.1 (by omega)]
    simp only [readAll, Nesting.accept_closing hc, Nesting.deliver, List.append_nil, List.reverse_reverse,
      ihNext h₂ hs.of_list.2 hd'.2, Forest.values, List.cons_append]

theorem readAll_eq_values (hls : ls.map (·.token) = f.tokens) (hs : f.Sound options.strict)
    (hd : f.depth ≤ options.room) :
    readAll options finish ⟨options.room, []⟩ ls = ⟨f.values, none, finish⟩ := by
  rw [← List.append_nil ls, readAll_forest hls hs hd]
  simp [readAll]

end

section
variable {options : ReadOptions} {text : String}

theorem Reader.all_eq (options : ReadOptions) (text : String) :
    Reader.all ⟨text.toList, 0, options⟩ =
      readAll options text.length ⟨options.room, []⟩ (Lexeme.scan 0 text.toList) := by
  rw [Reader.all, Reader.lexemes, Reader.finish, List.drop_zero, Nat.zero_max, Lexeme.cut_eq_scan, String.length_toList]

theorem readText_error {failure : Failure}
    (h : (readAll options text.length ⟨options.room, []⟩ (Lexeme.scan 0 text.toList)).failure = some failure) :
    readText options text = .error failure := by
  simp only [readText, Reader.all_eq, h]

/-- A text that spells a forest is read as the values of the forest. -/
theorem readText_forest {f : Forest} (hf : (Lexeme.scan 0 text.toList).map (·.token) = f.tokens)
    (hs : f.Sound options.strict) (hd : f.depth ≤ options.room) : readText options text = .ok f.values := by
  simp only [readText, Reader.all_eq, readAll_eq_values hf hs hd]

end

end Lisplet
