import Lisplet.Proofs.Diagnosis
import Lisplet.Proofs.Grammar

/-!
# Strict and lenient readers

`Reader.all_strict`: a strict reader does what a lenient one does, unless a literal that starts as a
number and is none comes up; at the first such literal it stops. One lexeme is accepted alike by both
or is such a literal (`Nesting.accept_strict`), so two runs over the same lexemes either agree or part at
one place (`readAll_strict`), behind which only the lenient reader goes on.
-/

namespace Lisplet

/-- A literal that starts as a number and is not a numeral. -/
def Lexeme.Malformed (l : Lexeme) : Prop :=
  ∃ cs, l.token = .literal cs ∧ startsNumber cs = true ∧ ¬ Numeral.IsNumeral cs

/-- The failure of a strict reader at a lexeme. -/
def Lexeme.refusal (l : Lexeme) : Failure := .unreadable (.malformedNumber (String.ofList l.token.text) l.start)

theorem Nesting.accept_strict (n : Nesting) (l : Lexeme) :
    (¬ l.Malformed ∧ n.accept true l = n.accept false l) ∨
      (l.Malformed ∧ n.accept true l = .error l.refusal ∧ ∃ v, n.accept false l = .ok (n.deliver v)) := by
  unfold accept
  cases htok : l.token with
  | literal cs =>
    have hmalformed : l.Malformed ↔ overhangs cs = true := by
      rw [overhangs_iff]
      constructor
      · rintro ⟨cs', htok', h⟩
        cases htok.symm.trans htok'
        exact h
      · intro h
        exact ⟨cs, htok, h⟩
    simp only [readLiteral_eq, hmalformed, Bool.true_and, Bool.false_and]
    by_cases hover : overhangs cs = true
    · right
      refine ⟨hover, ?_, literalValue cs, rfl⟩
      rw [if_pos hover, Lexeme.refusal, htok]
      rfl
    · left
      refine ⟨hover, ?_⟩
      rw [if_neg hover]
      rfl
  | _ =>
    left
    refine ⟨?_, rfl⟩
    rintro ⟨cs, hcs, -⟩
    cases htok.symm.trans hcs

/-- Strict and lenient reading of the same lexemes agree. -/
structure Agrees (room finish : Nat) (n : Nesting) (ls : List Lexeme) : Prop where
  readings : readAll ⟨true, room⟩ finish n ls = readAll ⟨false, room⟩ finish n ls
  consumed : consumedFrom ⟨true, room⟩ n ls = consumedFrom ⟨false, room⟩ n ls
  wellFormed : ∀ k ∈ consumedFrom ⟨false, room⟩ n ls, ¬ k.Malformed

/-- Strict and lenient reading of the same lexemes part at `l`: up to there they agree, there the strict
reader stops, and the lenient one goes on. -/
structure Parts (room finish : Nat) (n : Nesting) (ls before : List Lexeme) (l : Lexeme) (after : List Lexeme) :
    Prop where
  split : ls = before ++ l :: after
  malformed : l.Malformed
  first : ∀ k ∈ before, ¬ k.Malformed
  stops : (readAll ⟨true, room⟩ finish n ls).failure = some l.refusal
  values : (readAll ⟨true, room⟩ finish n ls).values <+: (readAll ⟨false, room⟩ finish n ls).values
  goesOn : ∃ n', (readAll ⟨false, room⟩ finish n ls).failure = (readAll ⟨false, room⟩ finish n' after).failure
  strict : consumedFrom ⟨true, room⟩ n ls = before ++ [l]
  lenient : l ∈ consumedFrom ⟨false, room⟩ n ls

section
variable {room finish : Nat} {n n' : Nesting} {k l : Lexeme} {ls before after : List Lexeme}

/-- Both readers accept a lexeme and are in the same place behind it. -/
inductive Follows (room : Nat) (n : Nesting) (k : Lexeme) : Nesting → Prop
  | pending {n' : Nesting} (hstrict : n.accept true k = .ok (.pending n'))
    (hlenient : n.accept false k = .ok (.pending n')) : Follows room n k n'
  | value {v : Value} (hstrict : n.accept true k = .ok (.value v)) (hlenient : n.accept false k = .ok (.value v)) :
    Follows room n k ⟨room, []⟩

theorem Agrees.refused (hk : ¬ k.Malformed) {failure : Failure} (hstrict : n.accept true k = .error failure)
    (hlenient : n.accept false k = .error failure) : Agrees room finish n (k :: ls) := by
  refine ⟨?_, ?_, ?_⟩
  · simp only [readAll, hstrict, hlenient]
  · simp only [consumedFrom, hstrict, hlenient]
  · simp only [consumedFrom, hlenient]
    exact List.forall_mem_singleton.2 hk

theorem Agrees.cons (hk : ¬ k.Malformed) (hnext : Follows room n k n') (h : Agrees room finish n' ls) :
    Agrees room finish n (k :: ls) := by
  rcases hnext with ⟨hstrict, hlenient⟩ | ⟨hstrict, hlenient⟩
  all_goals
    refine ⟨?_, ?_, ?_⟩
    · simp only [readAll, hstrict, hlenient, h.readings]
    · simp only [consumedFrom, hstrict, hlenient, h.consumed]
    · simp only [consumedFrom, hlenient]
      intro k' hk'
      rcases List.mem_cons.1 hk' with rfl | hk'
      · exact hk
      · exact h.wellFormed k' hk'

theorem Parts.head (hl : l.Malformed) (hstrict : n.accept true l = .error l.refusal) {v : Value}
    (hlenient : n.accept false l = .ok (n.deliver v)) : Parts room finish n (l :: ls) [] l ls where
  split := rfl
  malformed := hl
  first k hk := by cases hk
  stops := by simp only [readAll, hstrict]
  values := by
    simp only [readAll, hstrict]
    exact List.nil_prefix
  goesOn := by
    simp only [readAll, hlenient]
    cases n.deliver v with
    | value v => exact ⟨_, rfl⟩
    | pending n' => exact ⟨n', rfl⟩
  strict := by simp only [consumedFrom, hstrict, List.nil_append]
  lenient := by
    simp only [consumedFrom, hlenient]
    cases n.deliver v <;> exact List.mem_cons_self ..

theorem Parts.cons (hk : ¬ k.Malformed) (hnext : Follows room n k n') (h : Parts room finish n' ls before l after) :
    Parts room finish n (k :: ls) (k :: before) l after where
  split := by rw [h.split, List.cons_append]
  malformed := h.malformed
  first k' hk' := by
    rcases List.mem_cons.1 hk' with rfl | hk'
    · exact hk
    · exact h.first k' hk'
  stops := by
    rcases hnext with ⟨hstrict, -⟩ | ⟨hstrict, -⟩ <;> simp only [readAll, hstrict, h.stops]
  values := by
    rcases hnext with ⟨hstrict, hlenient⟩ | ⟨hstrict, hlenient⟩ <;> simp only [readAll, hstrict, hlenient]
    · exact h.values
    · exact List.cons_prefix_cons.2 ⟨rfl, h.values⟩
  goesOn := by
    rcases hnext with ⟨-, hlenient⟩ | ⟨-, hlenient⟩ <;> simp only [readAll, hlenient] <;> exact h.goesOn
  strict := by
    rcases hnext with ⟨hstrict, -⟩ | ⟨hstrict, -⟩ <;> simp only [consumedFrom, hstrict, h.strict, List.cons_append]
  lenient := by
    rcases hnext with ⟨-, hlenient⟩ | ⟨-, hlenient⟩ <;> simp only [consumedFrom, hlenient] <;>
      exact List.mem_cons_of_mem _ h.lenient

theorem readAll_strict (room finish : Nat) (n : Nesting) (ls : List Lexeme) :
    Agrees room finish n ls ∨ ∃ before l after, Parts room finish n ls before l after := by
  induction ls generalizing n with
  | nil => exact .inl ⟨rfl, rfl, fun k hk => by cases hk⟩
  | cons k ls ih =>
    rcases n.accept_strict k with ⟨hk, hsame⟩ | ⟨hk, hstrict, v, hlenient⟩
    · cases haccept : n.accept false k with
      | error failure => exact .inl (.refused hk (hsame.trans haccept) haccept)
      | ok progress =>
        obtain ⟨n', hnext⟩ : ∃ n', Follows room n k n' := by
          cases progress with
          | value v => exact ⟨_, .value (hsame.trans haccept) haccept⟩
          | pending n' => exact ⟨_, .pending (hsame.trans haccept) haccept⟩
        rcases ih n' with h | ⟨before, l, after, h⟩
        · exact .inl (h.cons hk hnext)
        · exact .inr ⟨k :: before, l, after, h.cons hk hnext⟩
    · exact .inr ⟨[], k, ls, .head hk hstrict hlenient⟩

/-! ### Where the readers part -/

variable (hsorted : ls.Pairwise fun k l => k.stop ≤ l.start) (hbounds : ∀ k ∈ ls, k.start < k.stop ∧ k.stop ≤ finish)
  (h : Parts room finish n ls before l after)
include hsorted hbounds h

theorem Parts.start_le (hk : k ∈ after) : l.start ≤ k.start := by
  have hl := hbounds l (by simp [h.split])
  rw [h.split] at hsorted
  have := (List.pairwise_cons.1 (List.pairwise_append.1 hsorted).2.1).1 k hk
  omega

/-- Where the lenient reader fails, it fails behind the place where the strict one stops. -/
theorem Parts.start_le_fault {fault : ReadFault}
    (hfault : (readAll ⟨false, room⟩ finish n ls).failure = some (.unreadable fault)) : l.start ≤ fault.position := by
  obtain ⟨n', hn'⟩ := h.goesOn
  have hconsumption := readAll_consumption ⟨false, room⟩ finish n' after
  rw [← hn', hfault] at hconsumption
  rcases hconsumption.position_fault with hposition | ⟨k, hk, hposition⟩
  · have := hbounds l (by simp [h.split])
    omega
  · rw [hposition]
    exact h.start_le hsorted hbounds hk

/-- The strict reader stops at the first of the malformed literals. -/
theorem Parts.start_le_malformed (hk : k ∈ consumedFrom ⟨false, room⟩ n ls) (hmalformed : k.Malformed) :
    l.start ≤ k.start := by
  obtain ⟨rest, hrest⟩ := (readAll_consumption ⟨false, room⟩ finish n ls).exists_append
  have hmem : k ∈ before ++ l :: after := by
    rw [← h.split, ← hrest]
    exact List.mem_append_left _ hk
  rcases List.mem_append.1 hmem with hk | hk
  · exact absurd hmalformed (h.first k hk)
  · rcases List.mem_cons.1 hk with rfl | hk
    · exact Nat.le_refl _
    · exact h.start_le hsorted hbounds hk

end

/-- A strict reader and a lenient one read the same, unless the strict one stops at the first literal that
starts as a number and is none. Then what it has read before is the beginning of what the lenient reader
reads, which does not fail before that place. Conversely a strict reader stops at such a literal when it
comes to it, and comes to the first one if the lenient reader comes to any. -/
theorem Reader.all_strict (text : List Char) (start room : Nat) :
    let strict : Reader := ⟨text, start, ⟨true, room⟩⟩
    let lenient : Reader := ⟨text, start, ⟨false, room⟩⟩
    (strict.all = lenient.all ∨
      ∃ before l after, lenient.lexemes = before ++ l :: after ∧ l.Malformed ∧ (∀ k ∈ before, ¬ k.Malformed) ∧
        strict.all.failure = some (.unreadable (.malformedNumber (String.ofList l.token.text) l.start)) ∧
        strict.all.values <+: lenient.all.values ∧ l ∈ lenient.consumed ∧
        ∀ fault, lenient.all.failure = some (.unreadable fault) → l.start ≤ fault.position) ∧
    (∀ l ∈ strict.consumed, l.Malformed →
      strict.all.failure = some (.unreadable (.malformedNumber (String.ofList l.token.text) l.start))) ∧
    ∀ l ∈ lenient.consumed, l.Malformed → ∃ k ∈ strict.consumed, k.Malformed ∧ k.start ≤ l.start := by
  intro strict lenient
  have hscan : lenient.lexemes = Lexeme.scan start (text.drop start) := by rw [lexemes, Lexeme.cut_eq_scan]
  have hsorted : lenient.lexemes.Pairwise fun k l => k.stop ≤ l.start := hscan ▸ Lexeme.scan_pairwise ..
  have hbounds : ∀ k ∈ lenient.lexemes, k.start < k.stop ∧ k.stop ≤ max start text.length := by
    intro k hk
    have := Lexeme.scan_bounds (hscan ▸ hk)
    rw [List.length_drop] at this
    omega
  rcases readAll_strict room (max start text.length) ⟨room, []⟩ lenient.lexemes with h | ⟨before, l, after, h⟩
  · refine ⟨.inl h.readings, ?_, ?_⟩
    · intro l hl hmalformed
      have hl : l ∈ consumedFrom ⟨true, room⟩ ⟨room, []⟩ lenient.lexemes := hl
      rw [h.consumed] at hl
      exact absurd hmalformed (h.wellFormed l hl)
    · intro l hl hmalformed
      exact absurd hmalformed (h.wellFormed l hl)
  · have hconsumed : strict.consumed = before ++ [l] := h.strict
    refine ⟨.inr ⟨before, l, after, h.split, h.malformed, h.first, h.stops, h.values, h.lenient, ?_⟩, ?_, ?_⟩
    · intro fault hfault
      exact h.start_le_fault hsorted hbounds hfault
    · intro k hk hmalformed
      rw [hconsumed] at hk
      rcases List.mem_append.1 hk with hk | hk
      · exact absurd hmalformed (h.first k hk)
      · obtain rfl := List.mem_singleton.1 hk
        exact h.stops
    · intro k hk hmalformed
      exact ⟨l, by simp [hconsumed], h.malformed, h.start_le_malformed hsorted hbounds hk hmalformed⟩

-- a numeral in full, then two literals that overhang
example : (Reader.all ⟨"(-0.e1 (1b 2c".toList, 0, ⟨true, 5⟩⟩).failure =
    some (.unreadable (.malformedNumber "1b" 8)) := by decide +kernel

end Lisplet
