import Lisplet.Json
import Mathlib.Tactic

/-!
# Plain text

The text of a JSON value consists of the characters of ASCII from the blank to the tilde
(`Json.plain_render`), so it takes one line and every byte of it is one character. All that a value
brings along is put in digits or escaped.
-/

namespace Lisplet

namespace Text

/-- Text in the characters of ASCII that show, of which no newline is one. -/
def Plain (cs : List Char) : Prop := ∀ c ∈ cs, 0x20 ≤ c.toNat ∧ c.toNat < 0x7F

instance (cs : List Char) : Decidable (Plain cs) := List.decidableBAll _ cs

@[simp] theorem plain_nil : Plain [] := by simp [Plain]

@[simp] theorem plain_cons {c : Char} {cs : List Char} :
    Plain (c :: cs) ↔ (0x20 ≤ c.toNat ∧ c.toNat < 0x7F) ∧ Plain cs := by simp [Plain]

@[simp] theorem plain_append {cs ds : List Char} : Plain (cs ++ ds) ↔ Plain cs ∧ Plain ds :=
  List.forall_mem_append

theorem plain_replicate (n : Nat) : Plain (List.replicate n '0') := by
  intro c hc
  rw [List.eq_of_mem_replicate hc]
  decide

theorem Plain.sublist {cs ds : List Char} (h : Plain ds) (hsub : cs.Sublist ds) : Plain cs :=
  fun c hc => h c (hsub.subset hc)

theorem plain_flatMap {f : Char → List Char} (h : ∀ c, Plain (f c)) (cs : List Char) :
    Plain (cs.flatMap f) := by
  intro d hd
  obtain ⟨c, -, hc⟩ := List.mem_flatMap.1 hd
  exact h c d hc

theorem plain_digitChar : ∀ k < 16, Plain [Nat.digitChar k] := by decide

theorem plain_toDigits {base : Nat} (hone : 1 < base) (hbase : base ≤ 16) (n : Nat) :
    Plain (Nat.toDigits base n) := by
  induction n using Nat.strong_induction_on with
  | _ n ih =>
    rw [Nat.toDigits_eq_if hone]
    split
    · exact plain_digitChar n (by omega)
    · have hmod : n % base < base := Nat.mod_lt n (by omega)
      exact plain_append.2
        ⟨ih (n / base) (Nat.div_lt_self (by omega) hone), plain_digitChar _ (by omega)⟩

theorem plain_hex (width n : Nat) : Plain (hex width n) :=
  plain_append.2 ⟨plain_replicate _, plain_toDigits (by omega) (by omega) n⟩

theorem plain_repr (n : Nat) : Plain n.repr.toList := by
  rw [Nat.repr, String.toList_ofList]
  exact plain_toDigits (by omega) (by omega) n

theorem plain_toString (n : Int) : Plain (toString n).toList := by
  cases n with
  | ofNat n => exact plain_repr n
  | negSucc n =>
    rw [show toString (Int.negSucc n) = "-" ++ n.succ.repr from rfl, String.toList_append]
    exact plain_append.2 ⟨by decide, plain_repr n.succ⟩

end Text

namespace NumberStyle

open Text

theorem plain_positional {style : NumberStyle} (hend : Plain style.wholeEnd) {digits : List Char}
    (hdigits : Plain digits) (point : Int) : Plain (style.positional digits point) := by
  unfold positional
  split
  · simp [hdigits, hend, plain_replicate]
  · split
    · have htake := hdigits.sublist (digits.take_sublist point.toNat)
      have hdrop := hdigits.sublist (digits.drop_sublist point.toNat)
      simp [htake, hdrop]
    · simp [hdigits, plain_replicate]

theorem plain_exponent (style : NumberStyle) (e : Int) : Plain (style.exponent e) := by
  have hdigits : Plain (Nat.toDigits 10 e.natAbs) := plain_toDigits (by omega) (by omega) _
  unfold exponent
  split <;> simp [hdigits, plain_replicate]

theorem plain_scientific (style : NumberStyle) {digits : List Char} (hdigits : Plain digits)
    (point : Int) : Plain (style.scientific digits point) := by
  have htake := hdigits.sublist (digits.take_sublist 1)
  have hdrop := hdigits.sublist digits.tail_sublist
  unfold scientific
  split <;> simp [htake, hdrop, plain_exponent]

theorem plain_double {style : NumberStyle} (hend : Plain style.wholeEnd) (hnan : Plain style.nan)
    (hinf : Plain style.infinity) (x : Float) : Plain (style.double x) := by
  have hdecimal (d : Decimal) : Plain (style.decimal d) := by
    have hdigits : Plain d.digits := plain_toDigits (by omega) (by omega) _
    unfold decimal
    split
    · exact plain_positional hend hdigits d.point
    · exact plain_scientific style hdigits d.point
  have hsign (p : Prop) [Decidable p] : Plain (if p then ['-'] else []) := by
    split <;> decide
  unfold double
  split
  · exact hnan
  · dsimp only
    split
    · exact plain_append.2 ⟨hsign _, hinf⟩
    · split
      · exact plain_append.2 ⟨hsign _, plain_cons.2 ⟨by decide, hend⟩⟩
      · exact plain_append.2 ⟨hsign _, hdecimal _⟩

end NumberStyle

namespace Json

open Text

theorem plain_escapeUnit (n : Nat) : Plain (escapeUnit n) := by
  simp [escapeUnit, plain_hex]

theorem plain_escapeChar (c : Char) : Plain (escapeChar c) := by
  unfold escapeChar
  split
  · next h => obtain rfl | rfl := h <;> decide
  split
  · decide
  split
  · decide
  split
  · decide
  split
  · decide
  split
  · decide
  split
  · next h => exact plain_cons.2 ⟨h, plain_nil⟩
  split
  · exact plain_escapeUnit _
  · exact plain_append.2 ⟨plain_escapeUnit _, plain_escapeUnit _⟩

theorem plain_stringText (s : String) : Plain (stringText s) := by
  simp [stringText, plain_flatMap plain_escapeChar]

mutual

theorem plain_render : ∀ v : Json, Plain v.render
  | .null => by decide
  | .bool b => by cases b <;> decide
  | .int n => plain_toString n
  | .float x => NumberStyle.plain_double (by decide) (by decide) (by decide) x
  | .string s => plain_stringText s
  | .array items => by simp [render, plain_renderItems items]
  | .object members => by simp [render, plain_renderMembers members]

theorem plain_renderItems : ∀ items : List Json, Plain (renderItems items)
  | [] => plain_nil
  | [item] => plain_render item
  | item :: next :: items => by
    simp [renderItems, plain_render item, plain_renderItems (next :: items)]

theorem plain_renderMembers : ∀ members : List (String × Json), Plain (renderMembers members)
  | [] => plain_nil
  | [(name, item)] => by simp [renderMembers, plain_stringText, plain_render item]
  | (name, item) :: next :: members => by
    simp [renderMembers, plain_stringText, plain_render item, plain_renderMembers (next :: members)]

end

end Json

end Lisplet
