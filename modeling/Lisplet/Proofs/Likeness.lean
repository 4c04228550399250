import Lisplet.Proofs.Written

/-!
# What primitives tell apart

A `Likeness` relates values that have the same text and are made of related parts. Primitives that
depend on their operands alone treat related operands alike (`Likeness.result?`): they fail for the same
reason, or their results are related.
-/

namespace Lisplet

/-- The same atom, or two values of the same make with related parts. Of functions only the number of
parameters is seen from outside, of foreign lists nothing. -/
inductive Value.Shaped (rel : Value → Value → Prop) : Value → Value → Prop
  | atom {v : Value} (h : v.isAtom) : Shaped rel v v
  | pair {id id' : Identity} {a b a' b' : Value} (ha : rel a a') (hb : rel b b') :
    Shaped rel (.pair id a b) (.pair id' a' b')
  | closure {id id' : Identity} {params params' : List String} {body body' : Value} {s s' : Scope}
    (h : params.length = params'.length) : Shaped rel (.closure id params body s) (.closure id' params' body' s')
  | sequence {id id' : Identity} {items items' : Value} : Shaped rel (.sequence id items) (.sequence id' items')

/-- A relation of values that primitives do not look through. -/
structure Likeness where
  rel : Value → Value → Prop
  atom : ∀ {v}, v.isAtom → rel v v
  shaped : ∀ {v v'}, rel v v' → Value.Shaped rel v v'
  text_eq : ∀ {v v'}, rel v v' → v.text = v'.text
  equal_eq : ∀ {a b a' b'}, rel a a' → rel b b' → a.equal b = a'.equal b'

namespace Likeness

variable {l : Likeness} {p : Primitive} {a b a' b' : Value} (ha : l.rel a a') (hb : l.rel b b')

include ha in
theorem isTruthy_eq : a.isTruthy = a'.isTruthy := by cases l.shaped ha <;> rfl

include ha in
theorem display_eq : a.display = a'.display := by
  have htext := l.text_eq ha
  cases l.shaped ha with
  | atom => rfl
  | pair | closure | sequence => exact htext

include ha in
theorem number_eq : p.number a = p.number a' := by
  have htext := l.text_eq ha
  cases l.shaped ha with
  | atom => rfl
  | pair | closure | sequence => simp only [Primitive.number, htext]

include ha in
theorem string_eq : p.string a = p.string a' := by
  have htext := l.text_eq ha
  cases l.shaped ha with
  | atom => rfl
  | pair | closure | sequence => simp only [Primitive.string, htext]

include ha in
theorem countOperands_eq : p.countOperands a = p.countOperands a' := by
  have htext := l.text_eq ha
  cases l.shaped ha with
  | atom => rfl
  | pair | sequence => simp only [Primitive.countOperands, htext]
  | closure h => simp only [Primitive.countOperands, h]

include ha in
theorem parts_paired :
    Paired (fun parts parts' => l.rel parts.1 parts'.1 ∧ l.rel parts.2 parts'.2) (p.parts a) (p.parts a') := by
  have htext := l.text_eq ha
  cases l.shaped ha with
  | pair hhead htail => exact .ok ⟨hhead, htail⟩
  | atom hatom =>
    cases hparts : p.parts a with
    | ok parts =>
      have hpair := Primitive.parts_eq p a
      rw [hparts] at hpair
      obtain ⟨id, rfl⟩ := hpair
      cases hatom
    | error failure => exact .error failure
  | closure | sequence =>
    simp only [Primitive.parts, htext]
    cases Value.text _ <;> exact .error _

include ha hb in
theorem arithmetic_eq (f : Number → Number → Option Number) : p.arithmetic f a b = p.arithmetic f a' b' := by
  rw [Primitive.arithmetic, Primitive.arithmetic, number_eq ha, number_eq hb]

include ha hb in
theorem compare_eq (holds : Ordering → Bool) : p.compare holds a b = p.compare holds a' b' := by
  have hm := number_eq (p := p) ha
  have hn := number_eq (p := p) hb
  unfold Primitive.compare
  split
  · cases l.shaped ha
    cases l.shaped hb
    rfl
  · next hnot =>
    split
    · cases l.shaped ha
      cases l.shaped hb
      exact (hnot _ _ rfl rfl).elim
    · rw [hm, hn]

/-- What comes out as an atom, for the same reason on both sides, is related. -/
theorem paired_atom {r : Except Failure Value} (h : Primitive.GivesAtom r) :
    Option.Rel (Paired l.rel) (some r) (some r) := by
  cases r with
  | ok v => exact .some (.ok (l.atom h))
  | error failure => exact .some (.error failure)

include ha in
theorem result?_unary (p : Primitive) : Option.Rel (Paired l.rel) (p.result? [a]) (p.result? [a']) := by
  cases p with
  | head => exact .some ((parts_paired ha).bind fun _ _ h => .ok h.1)
  | tail => exact .some ((parts_paired ha).bind fun _ _ h => .ok h.2)
  | negate =>
    simp only [Primitive.result?, number_eq ha]
    exact paired_atom ((Primitive.settles_any _).bind fun _ _ => rfl)
  | sqrt =>
    simp only [Primitive.result?, number_eq ha]
    exact paired_atom ((Primitive.settles_any _).bind fun _ _ => Primitive.givesAtom_computed _)
  | symbol =>
    simp only [Primitive.result?, string_eq ha]
    exact paired_atom ((Primitive.settles_any _).bind fun _ _ => rfl)
  | arity =>
    simp only [Primitive.result?, countOperands_eq ha]
    exact paired_atom Primitive.givesAtom_countOperands
  | not =>
    simp only [Primitive.result?, isTruthy_eq ha]
    exact paired_atom rfl
  | isNumber | isString | isBoolean | isSymbol | isCons | isPair | isFunction | isNull =>
    cases l.shaped ha <;> exact paired_atom rfl
  | _ => exact .none

include ha hb in
theorem result?_binary (p : Primitive) : Option.Rel (Paired l.rel) (p.result? [a, b]) (p.result? [a', b']) := by
  cases p with
  | add | sub | mul | div | mod =>
    simp only [Primitive.result?, arithmetic_eq ha hb]
    exact paired_atom (Primitive.givesAtom_arithmetic _)
  | less | greater | lessEqual | greaterEqual =>
    simp only [Primitive.result?, compare_eq ha hb]
    exact paired_atom (Primitive.givesAtom_compare _)
  | equal =>
    simp only [Primitive.result?, l.equal_eq ha hb]
    exact paired_atom rfl
  | concat =>
    simp only [Primitive.result?, display_eq ha, display_eq hb]
    exact paired_atom ((Primitive.settles_any _).bind fun _ _ => (Primitive.settles_any _).bind fun _ _ => rfl)
  | _ => exact .none

theorem result? {vs vs' : List Value} (h : List.Forall₂ l.rel vs vs') (p : Primitive) :
    Option.Rel (Paired l.rel) (p.result? vs) (p.result? vs') := by
  obtain _ | ⟨ha, _ | ⟨hb, _ | _⟩⟩ := h
  · exact .none
  · exact result?_unary ha p
  · exact result?_binary ha hb p
  · exact .none

end Likeness

end Lisplet
