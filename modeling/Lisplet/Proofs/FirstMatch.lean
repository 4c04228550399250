import Lisplet.Number.Numeral
import Mathlib

/-!
# First matches

A pattern has matches of several lengths at the front of a text. Repetitions and optional parts try the
longest first, and give back what the parts behind them need: `Pattern.rests` lists what the matches leave, in
the order in which they are tried. `Pattern.first?_numeral`: the first match of the pattern of numerals leaves
what the scan of a numeral leaves. So the scan, which tries nothing twice, misses no match.
-/

namespace Lisplet

/-- What may stand at the front of a text. -/
inductive Pattern where
  | one (allowed : Char → Bool)
  | many (allowed : Char → Bool)
  | maybe (p : Pattern)
  | seq (p q : Pattern)

namespace Pattern

/-- What the runs of allowed characters leave, the longest run first. -/
def restsOfRuns (allowed : Char → Bool) : List Char → List (List Char)
  | [] => [[]]
  | c :: cs => if allowed c then restsOfRuns allowed cs ++ [c :: cs] else [c :: cs]

/-- What the matches leave, in the order in which they are tried. -/
def rests : Pattern → List Char → List (List Char)
  | one _, [] => []
  | one allowed, c :: cs => if allowed c then [cs] else []
  | many allowed, cs => restsOfRuns allowed cs
  | maybe p, cs => p.rests cs ++ [cs]
  | seq p q, cs => (p.rests cs).flatMap q.rests

/-- What the first match leaves. -/
def first? (p : Pattern) (cs : List Char) : Option (List Char) := (p.rests cs).head?

def digits : Pattern := seq (one Char.isDigit) (many Char.isDigit)

def fraction : Pattern := maybe (seq (one (· == '.')) (many Char.isDigit))

def exponent : Pattern :=
  maybe (seq (one fun c => c == 'e' || c == 'E') (seq (maybe (one fun c => c == '+' || c == '-')) digits))

/-- An optional minus, digits, an optional point with what digits follow, and an optional exponent. -/
def numeral : Pattern := seq (maybe (one (· == '-'))) (seq digits (seq fraction exponent))

/-! ### Parts of patterns -/

section
variable {allowed : Char → Bool} {p q : Pattern} {c : Char} {cs : List Char}

theorem first?_many (allowed : Char → Bool) (cs : List Char) :
    (many allowed).first? cs = some (cs.dropWhile allowed) := by
  induction cs with
  | nil => rfl
  | cons c cs ih =>
    simp only [first?, rests] at ih
    by_cases hc : allowed c = true
    · simp [first?, rests, restsOfRuns, hc, ih]
    · simp [first?, rests, restsOfRuns, hc]

theorem first?_maybe (p : Pattern) (cs : List Char) : (maybe p).first? cs = some ((p.first? cs).getD cs) := by
  simp only [first?, rests, List.head?_append]
  cases (p.rests cs).head? <;> rfl

theorem first?_seq (p q : Pattern) (cs : List Char) : (seq p q).first? cs = (p.rests cs).findSome? q.first? :=
  List.head?_flatMap

theorem first?_one_seq_cons (allowed : Char → Bool) (q : Pattern) (c : Char) (cs : List Char) :
    (seq (one allowed) q).first? (c :: cs) = if allowed c then q.first? cs else none := by
  rw [first?_seq, rests]
  split
  · rw [List.findSome?_singleton]
  · rfl

/-- Nothing is given back to a pattern that matches everywhere. -/
theorem first?_seq_of_isSome (hq : ∀ cs, (q.first? cs).isSome = true) (cs : List Char) :
    (seq p q).first? cs = (p.first? cs).bind q.first? := by
  rw [first?_seq, first?]
  cases p.rests cs with
  | nil => rfl
  | cons rest rests =>
    obtain ⟨behind, hbehind⟩ := Option.isSome_iff_exists.1 (hq rest)
    simp [hbehind]

/-- An optional character is taken if what follows cannot start with it. -/
theorem first?_maybe_one_seq_cons (hc : allowed c = true) (hq : q.first? (c :: cs) = none) :
    (seq (maybe (one allowed)) q).first? (c :: cs) = q.first? cs := by
  rw [first?_seq, rests, rests, if_pos hc, List.singleton_append, List.findSome?_cons, List.findSome?_singleton, hq]
  cases q.first? cs <;> rfl

theorem first?_maybe_one_seq_of_not (hcs : ∀ c ∈ cs.head?, allowed c = false) :
    (seq (maybe (one allowed)) q).first? cs = q.first? cs := by
  have hrests : (one allowed).rests cs = [] := by
    cases cs with
    | nil => rfl
    | cons c cs => simp [rests, hcs c rfl]
  rw [first?_seq, rests, hrests, List.nil_append, List.findSome?_singleton]

end

/-! ### Numerals -/

open Numeral

theorem first?_digits (cs : List Char) :
    digits.first? cs = if (cs.takeWhile Char.isDigit).isEmpty then none else some (cs.dropWhile Char.isDigit) := by
  cases cs with
  | nil => rfl
  | cons c cs =>
    rw [digits, first?_one_seq_cons, first?_many]
    by_cases hc : c.isDigit = true <;> simp [hc]

theorem first?_digits_cons {c : Char} (hc : c.isDigit = false) (cs : List Char) : digits.first? (c :: cs) = none := by
  rw [first?_digits, List.takeWhile_cons_of_neg (by simp [hc])]
  rfl

theorem first?_fraction (cs : List Char) : fraction.first? cs = some (scanFraction cs).2 := by
  rw [fraction, first?_maybe]
  unfold scanFraction
  split
  · rw [first?_one_seq_cons, if_pos (by decide), first?_many]
    rfl
  · rename_i hpoint
    cases cs with
    | nil => rfl
    | cons c cs =>
      have hc : c ≠ '.' := fun h => hpoint cs (by rw [h])
      rw [first?_one_seq_cons, if_neg (by simpa using hc)]
      rfl

theorem first?_signed (cs : List Char) :
    (seq (maybe (one fun c => c == '+' || c == '-')) digits).first? cs = digits.first? (scanExponentSign cs).2 := by
  unfold scanExponentSign
  split
  · exact first?_maybe_one_seq_cons rfl (first?_digits_cons rfl _)
  · rename_i hplus
    unfold scanSign
    split
    · exact first?_maybe_one_seq_cons rfl (first?_digits_cons rfl _)
    · rename_i hminus
      refine first?_maybe_one_seq_of_not fun c hc => ?_
      obtain ⟨rest, rfl⟩ := List.head?_eq_some_iff.1 hc
      have hne : c ≠ '+' ∧ c ≠ '-' := ⟨fun h => hplus rest (by rw [h]), fun h => hminus rest (by rw [h])⟩
      simpa using hne

theorem first?_exponent (cs : List Char) : exponent.first? cs = some ((scanExponent? cs).getD (0, cs)).2 := by
  rw [exponent, first?_maybe]
  cases cs with
  | nil => rfl
  | cons c cs =>
    simp only [first?_one_seq_cons, first?_signed, first?_digits, scanExponent?, Bool.or_eq_true, beq_iff_eq]
    split_ifs <;> rfl

/-- The first match of the pattern of numerals is the numeral that is scanned. -/
theorem first?_numeral (cs : List Char) : numeral.first? cs = (scan cs).map (·.2) := by
  have htail (cs : List Char) :
      (seq fraction exponent).first? cs =
        some ((scanExponent? (scanFraction cs).2).getD (0, (scanFraction cs).2)).2 := by
    rw [first?_seq_of_isSome fun cs => by rw [first?_exponent]; rfl, first?_fraction, Option.bind_some, first?_exponent]
  have hunsigned (cs : List Char) :
      (seq digits (seq fraction exponent)).first? cs = (digits.first? cs).bind (seq fraction exponent).first? :=
    first?_seq_of_isSome (fun cs => by rw [htail]; rfl) cs
  have hsign : numeral.first? cs = (seq digits (seq fraction exponent)).first? (scanSign cs).2 := by
    unfold scanSign
    split
    · exact first?_maybe_one_seq_cons rfl (by rw [hunsigned, first?_digits_cons rfl]; rfl)
    · rename_i hminus
      refine first?_maybe_one_seq_of_not fun c hc => ?_
      obtain ⟨rest, rfl⟩ := List.head?_eq_some_iff.1 hc
      simpa using fun h : c = '-' => hminus rest (by rw [h])
  rw [hsign, hunsigned, first?_digits, scan]
  dsimp only
  split_ifs
  · rfl
  · rw [Option.bind_some, htail]
    rfl

end Pattern

end Lisplet
