import Lisplet.Proofs.Declared
import Lisplet.Proofs.Depth
import Lisplet.Proofs.Grammar
import Lisplet.Proofs.Joining

/-!
# What was read, written back

`echoes_readText`: a value that was read has a text, and one value is read off that text, up to its
end. It equals the value exactly if all doubles in the value are finite: a numeral beyond the doubles
is read as an infinity, and the text of an infinity is a symbol. So what is read back is settled by
readable values, with the texts of infinite doubles in place of the doubles (`Value.respell`).
-/

namespace Lisplet

/-! ### Doubles that are not finite -/

theorem Binary64.code_eq_infinity {x : Float} (hx : x.isFinite = false) (hnan : x.isNaN = false) :
    code x = infinity := by
  have hexponent : x.toBits.toNat / 2 ^ 52 % 2 ^ 11 = 2047 := by
    have hcode : ¬ x.toBits.toNat % 2 ^ 63 < 2047 * 2 ^ 52 := fun h => by simp [(isFinite_iff x).2 h] at hx
    omega
  change (Float.Model.UnpackedFloat.unpack .binary64 x.toBits.toBitVec).isNaN = false at hnan
  unfold Float.Model.UnpackedFloat.unpack at hnan
  dsimp only at hnan
  rw [if_pos (Word.unpackExponent_eq_neg_one_iff.2 hexponent)] at hnan
  split at hnan
  · rename_i hmantissa
    have hlow : x.toBits.toNat % 2 ^ 52 = 0 := by
      simpa [Float.Model.UnpackedFloat.unpackMantissa] using congrArg BitVec.toNat hmantissa
    show x.toBits.toNat % 2 ^ 63 = 2047 * 2 ^ 52
    omega
  · cases hnan

theorem NumberStyle.double_of_not_isFinite {x : Float} (hx : x.isFinite = false) :
    source.double x ∈ ["NaN".toList, "Infinity".toList, "-Infinity".toList] := by
  unfold double
  by_cases hnan : x.isNaN = true
  · rw [if_pos hnan]
    simp [source]
  · rw [if_neg hnan]
    have hcode := Binary64.code_eq_infinity hx (by simpa using hnan)
    simp only [hcode, ↓reduceIte]
    split <;> simp [source]

theorem readableName_of_not_isFinite {x : Float} (hx : x.isFinite = false) :
    ReadableName (String.ofList (Number.double x).text) := by
  have htext := NumberStyle.double_of_not_isFinite hx
  have hnames : ∀ cs ∈ ["NaN".toList, "Infinity".toList, "-Infinity".toList], ReadableName (String.ofList cs) := by
    intro cs hcs
    simp only [List.mem_cons, List.not_mem_nil, or_false] at hcs
    rcases hcs with rfl | rfl | rfl <;>
      exact ⟨by decide, by simp; decide, by decide, by decide, by decide⟩
  exact hnames _ htext

namespace Value

def isFinite : Value → Bool
  | .number (.double x) => x.isFinite
  | .pair _ head tail => head.isFinite && tail.isFinite
  | _ => true

/-- The value with symbols for the doubles that are not finite; it is written as the value is. -/
def respell : Value → Value
  | .number (.double x) => if x.isFinite then .double x else .symbol (String.ofList (Number.double x).text)
  | .pair id head tail => .pair id head.respell tail.respell
  | v => v

theorem write_respell : ∀ (v : Value) (inTail : Bool), v.respell.write false inTail = v.write false inTail
  | .number (.double x), inTail => by
    unfold respell
    split
    · rfl
    · simp only [write, String.toList_ofList]
  | .pair id head tail, inTail => by
    simp only [respell, write, write_respell head, write_respell tail]
  | .number (.integer _), _ | .nil, _ | .bool _, _ | .string _, _ | .symbol _, _ | .primitive .., _
  | .closure .., _ | .absent, _ | .sequence .., _ => rfl

theorem fault?_respell : ∀ v : Value, v.respell.fault? (.source false) = v.fault? (.source false)
  | .number (.double x) => by
    unfold respell
    split <;> rfl
  | .pair id head tail => by
    simp only [respell, fault?, fault?_respell head, fault?_respell tail]
  | .number (.integer _) | .nil | .bool _ | .string _ | .symbol _ | .primitive .. | .closure .. | .absent
  | .sequence .. => rfl

theorem text_respell (v : Value) : v.respell.text = v.text := by
  simp only [text, format, fault?_respell, write_respell]

theorem isList_respell : ∀ v : Value, v.respell.isList = v.isList
  | .number (.double x) => by
    unfold respell
    split <;> rfl
  | .pair id head tail => isList_respell tail
  | .number (.integer _) | .nil | .bool _ | .string _ | .symbol _ | .primitive .. | .closure .. | .absent
  | .sequence .. => rfl

theorem nesting_respell : ∀ v : Value, v.respell.nesting = v.nesting
  | .number (.double x) => by
    unfold respell
    split <;> rfl
  | .pair id head tail => by
    simp only [respell, nesting, nesting_respell head, nesting_respell tail]
  | .number (.integer _) | .nil | .bool _ | .string _ | .symbol _ | .primitive .. | .closure .. | .absent
  | .sequence .. => rfl

theorem writeDepth_respell (bindings : Bool) : ∀ (v : Value) (inTail : Bool),
    v.respell.writeDepth bindings inTail = v.writeDepth bindings inTail
  | .number (.double x), _ => by
    unfold respell
    split <;> rfl
  | .pair id head tail, _ => by
    simp only [respell, writeDepth, writeDepth_respell bindings head, writeDepth_respell bindings tail]
  | .number (.integer _), _ | .nil, _ | .bool _, _ | .string _, _ | .symbol _, _ | .primitive .., _
  | .closure .., _ | .absent, _ | .sequence .., _ => rfl

/-- What is read back equals the value if no symbol stands for a double. -/
theorem same_respell : ∀ {v : Value}, v.respell.Readable →
    (v.same .loose v.respell.reread = true ↔ v.isFinite = true) ∧
      (v.same .strict v.respell.reread = true ↔ v.isFinite = true)
  | .number (.double x), _ => by
    unfold respell
    by_cases hx : x.isFinite = true
    · rw [if_pos hx]
      have heq : (Number.double x).eq (.double (NumberStyle.readBack x)) = true := Number.eq_readBack hx
      simp only [reread, same, heq, isFinite, hx, and_self]
    · rw [if_neg hx]
      simp only [reread, same, isFinite, hx, Bool.false_eq_true, and_self]
  | .pair id head tail, h => by
    cases h with
    | pair _ _ _ hhead htail hl =>
      -- what is read has no identity, so the parts decide
      have hshared : Identity.shared id none = false := by cases id <;> rfl
      simp only [respell, reread, same, hshared, Bool.false_or, Bool.and_eq_true, isFinite, (same_respell hhead).2,
        (same_respell htail).2, and_self]
  | .nil, h | .bool _, h | .string _, h | .symbol _, h => by
    have hsame := h.same_reread
    exact ⟨iff_of_true hsame.2 rfl, iff_of_true hsame.1 rfl⟩

theorem readable_ofList {vs : List Value} (h : ∀ v ∈ vs, v.respell.Readable) : (Value.ofList vs).respell.Readable := by
  induction vs with
  | nil => exact .nil
  | cons v vs ih =>
    obtain ⟨hv, hvs⟩ := List.forall_mem_cons.1 h
    exact .pair _ _ _ hv (ih hvs) ((isList_respell _).trans (isList_ofList vs))

end Value

/-! ### Values of texts -/

theorem IsLiteral.readable {cs : List Char} (h : IsLiteral cs) : (literalValue cs).respell.Readable := by
  unfold literalValue
  cases hscan : Numeral.scan cs with
  | some scanned =>
    obtain ⟨numeral, rest⟩ := scanned
    simp only [Value.respell]
    split
    · next hx => exact .double _ hx
    · next hx => exact .symbol _ (readableName_of_not_isFinite (by simpa using hx))
  | none =>
    dsimp only
    split_ifs with htrue hfalse hnull
    · exact .bool true
    · exact .bool false
    · exact .nil
    · refine .symbol _ ⟨?_, ?_, ?_, ?_, ?_⟩
      · simpa using h.nonempty
      · simpa using h.undelimited
      · simpa using h.unquoted
      · by_contra hstart
        exact scan_of_startsNumber (by simpa using hstart) hscan
      · simp only [List.mem_cons, List.not_mem_nil, or_false, ← String.toList_inj, String.toList_ofList]
        rintro (heq | heq | heq)
        · exact htrue heq
        · exact hfalse heq
        · exact hnull heq

theorem Forest.readable_values {f : Forest} (h : ∀ t ∈ f.tokens, t.IsCut) : ∀ v ∈ f.values, v.respell.Readable := by
  induction f with
  | nil => intro v hv; cases hv
  | string body next ih =>
    obtain ⟨hbody, hnext⟩ := List.forall_mem_cons.1 h
    exact List.forall_mem_cons.2 ⟨.string _ (by rwa [String.toList_ofList]), ih hnext⟩
  | literal cs next ih =>
    obtain ⟨hcs, hnext⟩ := List.forall_mem_cons.1 h
    exact List.forall_mem_cons.2 ⟨IsLiteral.readable hcs, ih hnext⟩
  | list inner next ihInner ihNext =>
    have hinner := ihInner fun t ht => h t (by simp [tokens, ht])
    have hnext := ihNext fun t ht => h t (by simp [tokens, ht])
    exact List.forall_mem_cons.2 ⟨Value.readable_ofList hinner, hnext⟩

theorem readable_of_readText {options : ReadOptions} {text : String} {vs : List Value}
    (h : readText options text = .ok vs) : ∀ v ∈ vs, v.respell.Readable ∧ v.respell.nesting ≤ options.room := by
  obtain ⟨f, htokens, rfl⟩ := exists_forest h
  have hcut : ∀ t ∈ f.tokens, t.IsCut := by
    intro t ht
    rw [htokens] at ht
    obtain ⟨l, hl, rfl⟩ := List.mem_map.1 ht
    exact Lexeme.isCut_scan hl
  have hshallow := (legible_shallow options.room).readText options text
  rw [h] at hshallow
  intro v hv
  exact ⟨Forest.readable_values hcut v hv, (Value.nesting_respell v).trans_le (hshallow v hv).1⟩

/-! ### One value up to the end -/

section
variable {options : ReadOptions} {finish : Nat} {n n' : Nesting} {l : Lexeme} {ls : List Lexeme}

theorem readAll_eq_nil {position : Nat} (h : readAll options finish n ls = ⟨[], none, position⟩) :
    ls = [] ∧ n.opened = [] := by
  induction ls generalizing n with
  | nil =>
    rw [readAll] at h
    split at h
    · exact ⟨rfl, List.isEmpty_iff.1 ‹_›⟩
    · cases h
  | cons l ls ih =>
    rw [readAll] at h
    cases haccept : n.accept options.strict l with
    | error failure =>
      rw [haccept] at h
      cases h
    | ok progress =>
      rw [haccept] at h
      cases progress with
      | value v => cases h
      | pending n' => exact absurd (ih h).2 (Nesting.accept_pending haccept).2

/-- The first value of all is the one that is read alone, up to the end of its last lexeme. -/
theorem readOne_of_readAll {v : Value} {vs : List Value} {failure : Option Failure} {position : Nat}
    (h : readAll options finish n ls = ⟨v :: vs, failure, position⟩) :
    ∃ taken l rest, ls = taken ++ l :: rest ∧ readOne options finish n ls = (.ok v, l.stop) ∧
      readAll options finish ⟨options.room, []⟩ rest = ⟨vs, failure, position⟩ := by
  induction ls generalizing n with
  | nil =>
    rw [readAll] at h
    split at h <;> cases h
  | cons l ls ih =>
    rw [readAll] at h
    cases haccept : n.accept options.strict l with
    | error failure =>
      rw [haccept] at h
      cases h
    | ok progress =>
      rw [haccept] at h
      cases progress with
      | value w =>
        simp only [Readings.mk.injEq, List.cons.injEq] at h
        obtain ⟨⟨rfl, rfl⟩, rfl, rfl⟩ := h
        exact ⟨[], l, ls, rfl, by rw [readOne, haccept], rfl⟩
      | pending n' =>
        obtain ⟨taken, k, rest, rfl, hone, hrest⟩ := ih h
        exact ⟨l :: taken, k, rest, rfl, by rw [readOne, haccept]; exact hone, hrest⟩

end

/-- Behind its lexemes a text is blank. -/
theorem Lexeme.isBlank_of_scan (n : Nat) (text : List Char) :
    ∀ k, (∀ l ∈ scan n text, l.stop ≤ n + k) → ∀ c ∈ text.drop k, Text.isBlank c = true := by
  -- along the text, each lexeme takes its own length off `k`
  fun_induction scan n text with
  | case1 => simp
  | case2 start c cs hblank ih =>
    intro k h
    cases k with
    | zero =>
      have hcs := ih 0 fun l hl => (h l hl).trans (by omega)
      exact List.forall_mem_cons.2 ⟨hblank, hcs⟩
    | succ k => exact ih k fun l hl => (h l hl).trans (by omega)
  | case3 start cs hblank ih | case4 start cs hblank ho ih =>
    intro k h
    obtain ⟨hhead, hrest⟩ := List.forall_mem_cons.1 h
    obtain ⟨k, rfl⟩ := Nat.exists_eq_add_of_le' (Nat.le_of_add_le_add_left hhead)
    exact ih k fun l hl => (hrest l hl).trans (by omega)
  | case5 start cs body hempty hblank ho hc =>
    intro k h
    have hhead : start + body.length + 1 ≤ start + k := h _ (List.mem_singleton_self _)
    have hbody : body = cs := by
      have := List.takeWhile_append_dropWhile (p := inQuotes) (l := cs)
      rwa [List.isEmpty_iff.1 hempty, List.append_nil] at this
    rw [hbody] at hhead
    rw [List.drop_eq_nil_of_le (by simp only [List.length_cons]; omega)]
    simp
  | case6 start cs body hempty hblank ho hc ih =>
    intro k h
    obtain ⟨hhead, hrest⟩ := List.forall_mem_cons.1 h
    obtain ⟨rest, hdrop⟩ := exists_quote hempty
    obtain ⟨k, rfl⟩ := Nat.exists_eq_add_of_le (show body.length + 2 ≤ k by simp only at hhead; omega)
    have htext : '"' :: cs = ('"' :: (body ++ ['"'])) ++ rest := by
      rw [List.cons_append, List.append_assoc, List.singleton_append, ← hdrop, List.takeWhile_append_dropWhile]
    rw [htext, show body.length + 2 = ('"' :: (body ++ ['"'])).length by simp, List.drop_length_add_append]
    rw [hdrop] at ih hrest
    exact ih k fun l hl => (hrest l hl).trans (by omega)
  | case7 start c cs hblank ho hc hq run ih =>
    intro k h
    obtain ⟨hhead, hrest⟩ := List.forall_mem_cons.1 h
    obtain ⟨k, rfl⟩ := Nat.exists_eq_add_of_le (show run.length ≤ k by simp only at hhead; omega)
    have htext : c :: cs = run ++ cs.dropWhile inLiteral := by
      rw [List.cons_append, List.takeWhile_append_dropWhile]
    rw [htext, List.drop_length_add_append]
    exact ih k fun l hl => (hrest l hl).trans (by omega)

theorem Lexeme.stop_of_scan {n : Nat} {text : List Char} {taken : List Lexeme} {l : Lexeme} {c : Char}
    (h : scan n text = taken ++ [l]) (hc : text.getLast? = some c) (hblank : Text.isBlank c = false) :
    l.stop = n + text.length := by
  have hmem : l ∈ scan n text := by simp [h]
  have hl := scan_bounds hmem
  have hsorted := scan_pairwise n text
  rw [h, List.pairwise_append] at hsorted
  have hstops : ∀ k ∈ scan n text, k.stop ≤ n + (l.stop - n) := by
    intro k hk
    rw [h, List.mem_append, List.mem_singleton] at hk
    rcases hk with hk | rfl
    · have := hsorted.2.2 k hk l (List.mem_singleton_self l)
      omega
    · omega
  have hrest := isBlank_of_scan n text (l.stop - n) hstops
  by_contra hne
  have hlast : (text.drop (l.stop - n)).getLast? = some c := by
    rw [List.getLast?_drop, if_neg (by omega), hc]
  simp [hrest c (List.mem_of_getLast? hlast)] at hblank

namespace Value

theorem getLast?_write_inTail : ∀ {v : Value}, v.isList = true → (v.write false true).getLast? = some ')'
  | .nil, _ => rfl
  | .pair id head tail, h => by
    rw [write, List.getLast?_append, getLast?_write_inTail (v := tail) h]
    rfl

/-- The text of a readable value does not end in a blank. -/
theorem Readable.getLast?_render {v : Value} (h : v.Readable) :
    ∃ c, v.render.getLast? = some c ∧ Text.isBlank c = false := by
  have hliteral : ∀ {cs : List Char}, IsLiteral cs → ∃ c, cs.getLast? = some c ∧ Text.isBlank c = false := by
    intro cs hcs
    refine ⟨cs.getLast hcs.nonempty, List.getLast?_eq_some_getLast hcs.nonempty, ?_⟩
    have hlast := hcs.undelimited _ (List.getLast_mem hcs.nonempty)
    simp only [Lexeme.isDelimiter, Bool.or_eq_false_iff] at hlast
    exact hlast.2
  cases h with
  | nil => exact hliteral (.of_all (by decide))
  | bool b =>
    cases b with
    | true => exact hliteral (.of_all (by decide))
    | false => exact hliteral (.of_all (by decide))
  | double x hx => exact hliteral (.double hx)
  | string s hs =>
    refine ⟨'"', ?_, by decide⟩
    exact List.getLast?_append_of_ne_nil _ (List.cons_ne_nil '"' [])
  | symbol name hn => exact hliteral ⟨hn.nonempty, hn.unquoted, hn.undelimited⟩
  | pair id head tail _ _ hl =>
    refine ⟨')', ?_, by decide⟩
    rw [render, write, List.getLast?_append, getLast?_write_inTail hl]
    rfl

/-- The text of a readable value is read as one value, up to its end. -/
theorem Readable.one_render {v : Value} (h : v.Readable) (strict : Bool) {room : Nat} (hroom : v.nesting ≤ room) :
    (Reader.ofText ⟨strict, room⟩ (String.ofList v.render)).one =
      (.ok v.reread, ⟨v.render, v.render.length, ⟨strict, room⟩⟩) := by
  have hall : readAll ⟨strict, room⟩ v.render.length ⟨room, []⟩ (Lexeme.scan 0 v.render) =
      ⟨[v.reread], none, v.render.length⟩ := by
    rw [readAll_eq_values h.scan_render (h.sound_render strict) (h.depth_render hroom), h.values_before.1,
      Forest.values]
  obtain ⟨taken, l, rest, hls, hone, hrest⟩ := readOne_of_readAll hall
  obtain ⟨rfl, -⟩ := readAll_eq_nil hrest
  obtain ⟨c, hc, hblank⟩ := h.getLast?_render
  have hstop : l.stop = v.render.length := (Lexeme.stop_of_scan hls hc hblank).trans (Nat.zero_add _)
  rw [Reader.one, Reader.lexemes_ofText]
  simp only [Reader.ofText, Reader.finish, String.toList_ofList, Nat.zero_max, hone, hstop]

end Value

/-- A text is read as one value, up to its end, that equals the given one if that is finite. -/
def Value.Echoes (v : Value) (room : Nat) (written : String) : Prop :=
  ∀ strict, ∃ w,
    (Reader.ofText ⟨strict, room⟩ written).one = (.ok w, ⟨written.toList, written.length, ⟨strict, room⟩⟩) ∧
      (v.same .loose w = true ↔ v.isFinite = true) ∧ (v.same .strict w = true ↔ v.isFinite = true)

theorem Value.echoes_render {v : Value} (h : v.respell.Readable) {room : Nat} (hroom : v.respell.nesting ≤ room) :
    v.Echoes room (String.ofList v.render) := by
  intro strict
  have hrender : v.respell.render = v.render := write_respell v false
  refine ⟨v.respell.reread, ?_, same_respell h⟩
  rw [← hrender, h.one_render strict hroom, String.toList_ofList, String.length_ofList]

/-- Every value that is read has a text, written at most two calls deep for each list that may be nested, that
is read as one value, which equals it if it is finite. So the text that a batch records for an expression, which
there was room to write, denotes the expression, unless that holds an infinity. -/
theorem echoes_readText (text : String) :
    (∀ options vs, readText options text = .ok vs →
      ∀ v ∈ vs, ∃ written, v.text = .ok written ∧ v.writeDepth false false ≤ 2 * options.room ∧
        v.Echoes options.room written) ∧
    (∀ (s s' : Session) (outcomes : List Outcome), Session.run text s = .ok outcomes s' →
      ∃ es, s.parse text = .ok es ∧
        List.Forall₂ (fun e o =>
          s.Writes e ∧ (∃ t t', Session.record e t = .ok o t') ∧ e.Echoes s.limit o.text) es outcomes) := by
  refine ⟨fun options vs h v hv => ?_, fun s s' outcomes h => ?_⟩
  · obtain ⟨hreadable, hroom⟩ := readable_of_readText h v hv
    refine ⟨String.ofList v.render, ?_, ?_, Value.echoes_render hreadable hroom⟩
    · rw [← Value.text_respell, hreadable.text_eq, Value.render, Value.write_respell, ← Value.render]
    · rw [← Value.writeDepth_respell, hreadable.writeDepth_eq]
      exact Nat.mul_le_mul_left 2 hroom
  · obtain ⟨es, t, hparse, hlimit, hbatch⟩ := Session.run_eq_ok h
    have hread := readable_of_readText (Session.readText_of_parse hparse)
    have hrecords := (List.forall₂_and_left _ _).2 ⟨hread, Session.batch_records hbatch⟩
    refine ⟨es, hparse, hrecords.imp ?_⟩
    rintro e o ⟨⟨hreadable, hroom⟩, hwrites, u, u', hrecord⟩
    rw [(Session.record_eq_ok hrecord).2.1]
    exact ⟨hwrites.trans_eq hlimit, ⟨u, u', hrecord⟩, Value.echoes_render hreadable hroom⟩

/-- A list with a negative zero and an empty list in it, and a number that a literal starts with. -/
theorem echoes_readText_overhang :
    readText ⟨false, 9⟩ "(-a -0 ()) 12x" =
      .ok [.ofList [.symbol "-a", .double (Binary64.ofCode true 0), .nil], .double (Binary64.ofNat 12)] ∧
    (∃ written w, (Value.ofList [.symbol "-a", .double (Binary64.ofCode true 0), .nil]).text = .ok written ∧
      (Reader.ofText ⟨true, 9⟩ written).one = (.ok w, ⟨written.toList, written.length, ⟨true, 9⟩⟩) ∧
      (Value.ofList [.symbol "-a", .double (Binary64.ofCode true 0), .nil]).same .strict w = true) := by
  have hread : readText ⟨false, 9⟩ "(-a -0 ()) 12x" =
      .ok [.ofList [.symbol "-a", .double (Binary64.ofCode true 0), .nil], .double (Binary64.ofNat 12)] := by
    decide +kernel
  obtain ⟨written, htext, -, hechoes⟩ := (echoes_readText _).1 _ _ hread _ (List.mem_cons_self ..)
  obtain ⟨w, hone, -, hsame⟩ := hechoes true
  exact ⟨hread, written, w, htext, hone, hsame.2 (by decide +kernel)⟩

/-- A numeral beyond the doubles is not read back. -/
theorem readText_beyond :
    readText ⟨true, 9⟩ "1e999" = .ok [.double (Binary64.ofCode false Binary64.infinity)] ∧
      (Value.double (Binary64.ofCode false Binary64.infinity)).text = .ok "Infinity" ∧
      (Reader.ofText ⟨true, 9⟩ "Infinity").one.1 = .ok (.symbol "Infinity") ∧
      (Value.double (Binary64.ofCode false Binary64.infinity)).same .loose (.symbol "Infinity") = false := by
  decide +kernel

end Lisplet
