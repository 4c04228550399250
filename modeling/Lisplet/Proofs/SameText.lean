import Lisplet.Proofs.Echo
import Lisplet.Proofs.Numbering
import Lisplet.Proofs.Spelling

/-!
# Equal lists have one text

`same_iff_text`: two lists that can be read back are equal exactly if they have the same text, for either is the
case exactly if they are read back as the same value. Equality passes over pairs with the same identity, which is
right because an identity is given once: all pairs that there are lie in one memory (`Built.exists_memory`).
-/

namespace Lisplet

namespace Value

/-! ### Pairs in memory -/

/-- What the pairs are made of that have an identity. -/
abbrev Memory := Nat → Value × Value

/-- Every pair in the value that has an identity is the one of this identity in the memory. -/
def LiesIn (memory : Memory) : Value → Prop
  | .pair id head tail => (∀ i ∈ id, memory i = (head, tail)) ∧ head.LiesIn memory ∧ tail.LiesIn memory
  | _ => True

variable {memory memory' : Memory} {n : Nat}

theorem liesIn_of_isAtom {v : Value} (h : v.isAtom) : v.LiesIn memory := by
  cases v with
  | pair => cases h
  | _ => trivial

theorem LiesIn.congr (hn : ∀ i < n, memory i = memory' i) :
    ∀ {v : Value}, v.Below n → v.LiesIn memory → v.LiesIn memory'
  | .pair .., hbelow, h =>
    ⟨fun i hi => (hn i (hbelow.1 i hi)).symm.trans (h.1 i hi), h.2.1.congr hn hbelow.2.1, h.2.2.congr hn hbelow.2.2⟩
  | .nil, _, _ | .bool _, _, _ | .number _, _, _ | .string _, _, _ | .symbol _, _, _ | .primitive .., _, _
  | .closure .., _, _ | .absent, _, _ | .sequence .., _, _ => trivial

theorem LiesIn.parts_eq {id id' : Identity} {head tail head' tail' : Value} (h : (pair id head tail).LiesIn memory)
    (h' : (pair id' head' tail').LiesIn memory) (hshared : Identity.shared id id' = true) :
    head = head' ∧ tail = tail' := by
  cases id with
  | none => cases hshared
  | some i =>
    have hi : some i = id' := by simpa [Identity.shared] using hshared
    exact Prod.mk.inj ((h.1 i rfl).symm.trans (h'.1 i hi.symm))

theorem liesIn_of_below_zero : ∀ {v : Value}, v.Below 0 → v.LiesIn memory
  | .pair .., h =>
    ⟨fun i hi => absurd (h.1 i hi) (Nat.not_lt_zero i), liesIn_of_below_zero h.2.1, liesIn_of_below_zero h.2.2⟩
  | .nil, _ | .bool _, _ | .number _, _ | .string _, _ | .symbol _, _ | .primitive .., _
  | .closure .., _ | .absent, _ | .sequence .., _ => trivial

/-- The values that there may be at some time: atoms, what is read, the pairs made of values that there are, and the
parts of pairs. Between these steps other things may have been made. -/
inductive Built : World → List Value → Prop
  | start (w : World) : Built w []
  | later {w w' : World} {vs : List Value} : w.next ≤ w'.next → Built w vs → Built w' vs
  | atom {w : World} {vs : List Value} {v : Value} : v.isAtom → Built w vs → Built w (v :: vs)
  | read {w : World} {vs ws : List Value} {options : ReadOptions} {text : String} :
    readText options text = .ok ws → Built w vs → Built w (ws ++ vs)
  | cons {w w' : World} {vs : List Value} {owner : Owner} {a b p : Value} : a ∈ vs → b ∈ vs →
    Primitive.cons.apply owner [a, b] w = .ok p w' → Built w vs → Built w' (p :: vs)
  | parts {w : World} {vs : List Value} {id : Identity} {head tail : Value} : .pair id head tail ∈ vs →
    Built w vs → Built w (head :: tail :: vs)

theorem Built.exists_memory {w : World} {vs : List Value} (h : Built w vs) :
    ∃ memory : Memory, ∀ v ∈ vs, v.LiesIn memory ∧ v.Below w.next := by
  induction h with
  | start w => exact ⟨fun _ => (.nil, .nil), by simp⟩
  | later hnext _ ih =>
    obtain ⟨memory, hvs⟩ := ih
    exact ⟨memory, fun v hv => ⟨(hvs v hv).1, (hvs v hv).2.mono hnext⟩⟩
  | atom hatom _ ih =>
    obtain ⟨memory, hvs⟩ := ih
    exact ⟨memory, List.forall_mem_cons.2 ⟨⟨liesIn_of_isAtom hatom, below_of_isAtom hatom⟩, hvs⟩⟩
  | @read _ _ ws options text hread _ ih =>
    obtain ⟨memory, hvs⟩ := ih
    have hws := Session.legible_below.readText options text
    rw [hread] at hws
    refine ⟨memory, List.forall_mem_append.2 ⟨fun v hv => ?_, hvs⟩⟩
    exact ⟨liesIn_of_below_zero (hws v hv), (hws v hv).mono (Nat.zero_le _)⟩
  | @cons w w' vs owner a b p ha hb hcons _ ih =>
    obtain ⟨memory, hvs⟩ := ih
    have hmade : Primitive.cons.apply owner [a, b] w =
        .ok (.pair (some w.next) a b) { w with next := w.next + 1 } := rfl
    rw [hmade] at hcons
    cases hcons
    -- no value that there is has the identity of the new pair
    have hold : ∀ v ∈ vs, v.LiesIn (Function.update memory w.next (a, b)) ∧ v.Below (w.next + 1) := fun v hv =>
      ⟨(hvs v hv).1.congr (fun i hi => (Function.update_of_ne (Nat.ne_of_lt hi) ..).symm) (hvs v hv).2,
        (hvs v hv).2.mono (Nat.le_succ _)⟩
    refine ⟨Function.update memory w.next (a, b),
      List.forall_mem_cons.2 ⟨⟨⟨?_, (hold a ha).1, (hold b hb).1⟩, ?_⟩, hold⟩⟩
    · rintro i ⟨⟩
      exact Function.update_self ..
    · refine ⟨?_, (hold a ha).2, (hold b hb).2⟩
      rintro i ⟨⟩
      exact Nat.lt_succ_self _
  | parts hpair _ ih =>
    obtain ⟨memory, hvs⟩ := ih
    obtain ⟨⟨-, hhead, htail⟩, -, hhead', htail'⟩ := hvs _ hpair
    exact ⟨memory, List.forall_mem_cons.2 ⟨⟨hhead, hhead'⟩, List.forall_mem_cons.2 ⟨⟨htail, htail'⟩, hvs⟩⟩⟩

/-! ### Equal when read back -/

theorem Readable.same_iff {v w : Value} (hv : v.Readable) (hw : w.Readable) (hvm : v.LiesIn memory)
    (hwm : w.LiesIn memory) : v.same .strict w = true ↔ v.reread = w.reread := by
  induction hv generalizing w with
  | nil | bool | string | symbol => cases hw <;> simp [same, Value.reread]
  | double x hx =>
    cases hw with
    | double y hy => simp [same, Value.reread, Number.eq_iff_readBack hx hy]
    | _ => simp [same, Value.reread]
  | pair id head tail _ _ _ ihHead ihTail =>
    cases hw with
    | pair id' head' tail' hhead htail =>
      have hsame := and_congr (ihHead hhead hvm.2.1 hwm.2.1) (ihTail htail hvm.2.2 hwm.2.2)
      simp only [same, Bool.or_eq_true, Bool.and_eq_true, hsame, Value.reread, pair.injEq, true_and,
        or_iff_right_iff_imp]
      -- pairs that share an identity are one pair
      intro h
      obtain ⟨rfl, rfl⟩ := hvm.parts_eq hwm h
      exact ⟨rfl, rfl⟩
    | _ => simp [same, Value.reread]

theorem Readable.text_eq_iff {v w : Value} (hv : v.Readable) (hw : w.Readable) :
    v.text = w.text ↔ v.reread = w.reread := by
  rw [hv.text_eq, hw.text_eq, Except.ok.injEq, String.ofList_inj]
  constructor
  · intro h
    -- with room for both, one text is read as both values
    have hread := hv.readText_render false (Nat.le_max_left v.nesting w.nesting)
    rw [h, hw.readText_render false (Nat.le_max_right v.nesting w.nesting)] at hread
    simpa using hread.symm
  · intro h
    rw [render, ← hv.write_reread, h, hw.write_reread, ← render]

/-! ### Places in a value -/

/-- What stands at a place: the path says for each list on the way which of its elements to enter. -/
def at? : List Nat → Value → Option Value
  | [], v => some v
  | i :: path, v => v.items[i]?.bind (at? path)

theorem items_reread : ∀ v : Value, v.reread.items = v.items.map reread
  | .pair _ head tail => congrArg (head.reread :: ·) (items_reread tail)
  | .number (.double _) | .number (.integer _) | .nil | .bool _ | .string _ | .symbol _ | .primitive .. | .closure ..
  | .absent | .sequence .. => rfl

theorem at?_reread (path : List Nat) (v : Value) : v.reread.at? path = (v.at? path).map reread := by
  induction path generalizing v with
  | nil => rfl
  | cons i path ih =>
    rw [at?, at?, items_reread, List.getElem?_map, Option.bind_map, Option.map_bind]
    exact congrArg (Option.bind _) (funext ih)

/-! ### Lists -/

/-- A list of at least one element that can be read back. -/
structure Listed (memory : Memory) (v : Value) : Prop where
  readable : v.Readable
  pair : ∃ id head tail, v = .pair id head tail
  liesIn : v.LiesIn memory

section
variable {likeness : Likeness} (hlikeness : likeness ≠ .elements) {p q : Value} (hp : p.Listed memory)
  (hq : q.Listed memory)

include hlikeness hp hq

theorem Listed.same_iff : p.same likeness q = true ↔ p.reread = q.reread := by
  rw [← hp.readable.same_iff hq.readable hp.liesIn hq.liesIn]
  obtain ⟨id, head, tail, rfl⟩ := hp.pair
  obtain ⟨id', head', tail', rfl⟩ := hq.pair
  cases likeness with
  | elements => exact absurd rfl hlikeness
  | strict | loose => rfl

theorem Listed.same_eq_false {path : List Nat} {b : Bool} {n : Number} (hb : p.at? path = some (.bool b))
    (hn : q.at? path = some (.number n)) : p.same likeness q = false ∧ q.same likeness p = false := by
  have hne : p.reread ≠ q.reread := by
    intro h
    have hat := congrArg (at? path) h
    rw [at?_reread, at?_reread, hb, hn] at hat
    cases n <;> cases hat
  refine ⟨?_, ?_⟩
  · rwa [← Bool.not_eq_true, hp.same_iff hlikeness hq]
  · rw [← Bool.not_eq_true, hq.same_iff hlikeness hp]
    exact hne.symm

end

end Value

/-- The readable symbols are those that are read as themselves. -/
theorem readText_eq_symbol_iff {options : ReadOptions} {name : String} :
    readText options name = .ok [.symbol name] ↔ (Value.symbol name).Readable := by
  refine ⟨fun h => (readable_of_readText h _ (List.mem_singleton_self _)).1, fun h => ?_⟩
  have hread := h.readText_render options.strict (Nat.zero_le options.room)
  rwa [show (Value.symbol name).render = name.toList from rfl, String.ofList_toList] at hread

/-- Two lists that can be read back are equal exactly if they have the same text. So equality is an equivalence, and it
tells booleans from numbers at every place. -/
theorem same_iff_text (likeness : Value.Likeness) (hlikeness : likeness ≠ .elements) :
    (∀ (memory : Value.Memory) (p q : Value), p.Listed memory → q.Listed memory →
      ∃ text text', p.text = .ok text ∧ q.text = .ok text' ∧ (p.same likeness q = true ↔ text = text')) ∧
    (∀ memory : Value.Memory, Equivalence fun p q : {v : Value // v.Listed memory} => p.1.same likeness q.1 = true) ∧
    (∀ (memory : Value.Memory) (p q : Value), p.Listed memory → q.Listed memory → ∀ path b n,
      p.at? path = some (.bool b) → q.at? path = some (.number n) →
      p.same likeness q = false ∧ q.same likeness p = false) ∧
    (∀ options name, readText options name = .ok [.symbol name] ↔ (Value.symbol name).Readable) ∧
    ∀ w vs, Value.Built w vs → ∃ memory, ∀ v ∈ vs, v.LiesIn memory := by
  refine ⟨fun memory p q hp hq => ?_, fun memory => ?_, fun memory p q hp hq path b n => hp.same_eq_false hlikeness hq,
    fun options name => readText_eq_symbol_iff, fun w vs h => ?_⟩
  · refine ⟨_, _, hp.readable.text_eq, hq.readable.text_eq, ?_⟩
    rw [hp.same_iff hlikeness hq, ← hp.readable.text_eq_iff hq.readable, hp.readable.text_eq, hq.readable.text_eq,
      Except.ok.injEq]
  · have hsame : ∀ p q : {v : Value // v.Listed memory}, p.1.same likeness q.1 = true ↔ p.1.reread = q.1.reread :=
      fun p q => p.2.same_iff hlikeness q.2
    simp only [hsame]
    exact ⟨fun p => rfl, Eq.symm, Eq.trans⟩
  · obtain ⟨memory, hvs⟩ := h.exists_memory
    exact ⟨memory, fun v hv => (hvs v hv).1⟩

/-- Two lists that share a list in them, one with a negative zero and one with a zero. -/
theorem same_iff_text_zeros :
    let shared := Value.pair (some 0) (.bool true) .nil
    let p := Value.pair (some 2) shared (.pair (some 1) (.double (Binary64.ofCode true 0)) .nil)
    let q := Value.pair (some 4) shared (.pair (some 3) (.double (Binary64.ofCode false 0)) .nil)
    ∃ text, p.text = .ok text ∧ q.text = .ok text ∧ p.same .loose q = true := by
  intro shared p q
  obtain ⟨htext, -, -, -, hmemory⟩ := same_iff_text .loose (by decide)
  let w (n : Nat) : World := .ofRealm (.fresh .session ∅) n
  have hcons : ∀ n a b, Primitive.cons.apply .session [a, b] (w n) = .ok (.pair (some n) a b) (w (n + 1)) :=
    fun _ _ _ => rfl
  have hatoms : Value.Built (w 0)
      [.double (Binary64.ofCode false 0), .double (Binary64.ofCode true 0), .bool true, .nil] :=
    .atom rfl (.atom rfl (.atom rfl (.atom rfl (.start _))))
  have hshared := hatoms.cons (by simp) (by simp) (hcons 0 (.bool true) .nil)
  have hp := (hshared.cons (by simp) (by simp) (hcons 1 (.double (Binary64.ofCode true 0)) .nil)).cons
    (by simp [shared]) (by simp) (hcons 2 shared (.pair (some 1) (.double (Binary64.ofCode true 0)) .nil))
  have hq := (hp.cons (by simp) (by simp) (hcons 3 (.double (Binary64.ofCode false 0)) .nil)).cons
    (by simp [shared]) (by simp) (hcons 4 shared (.pair (some 3) (.double (Binary64.ofCode false 0)) .nil))
  obtain ⟨memory, hvs⟩ := hmemory _ _ hq
  have hreadable : ∀ i j negative,
      (Value.pair i shared (.pair j (.double (Binary64.ofCode negative 0)) .nil)).Readable := by
    intro i j negative
    have hfinite : (Binary64.ofCode negative 0).isFinite := by cases negative <;> decide +kernel
    exact .pair _ _ _ (.pair _ _ _ (.bool true) .nil rfl) (.pair _ _ _ (.double _ hfinite) .nil rfl) rfl
  obtain ⟨text, text', hptext, hqtext, hsame⟩ := htext memory p q
    ⟨hreadable _ _ _, ⟨_, _, _, rfl⟩, hvs p (by simp [p])⟩ ⟨hreadable _ _ _, ⟨_, _, _, rfl⟩, hvs q (by simp [q])⟩
  have heq : p.text = q.text := by decide +kernel
  have htexts : text = text' := by
    rw [hptext, hqtext] at heq
    exact Except.ok.inj heq
  exact ⟨text, hptext, htexts ▸ hqtext, hsame.2 htexts⟩

end Lisplet
