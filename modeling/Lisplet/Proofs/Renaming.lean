import Lisplet.Proofs.Alike
import Lisplet.Proofs.Refusal

/-!
# Other identities

Identities tell pairs and functions apart, and that is all they are for: an evaluation that starts with other
identities ends with other identities and is else the same (`eval_renamed`). Identities are changed by
`Value.rename`. What an evaluation makes gets the next identity, so that all identities stay below it
(`World.Renamed`).
-/

namespace Lisplet

mutual

/-- The value with other identities. -/
def Value.rename (ρ : Nat → Nat) : Value → Value
  | .pair id head tail => .pair (id.map ρ) (head.rename ρ) (tail.rename ρ)
  | .closure id params body scope => .closure (id.map ρ) params (body.rename ρ) (scope.rename ρ)
  | .sequence id items => .sequence (id.map ρ) (items.rename ρ)
  | .nil => .nil
  | .bool b => .bool b
  | .number n => .number n
  | .string s => .string s
  | .symbol name => .symbol name
  | .primitive owner p => .primitive owner p
  | .absent => .absent

def Scope.rename (ρ : Nat → Nat) : Scope → Scope
  | .global owner => .global owner
  | .enter outer => .enter (outer.rename ρ)
  | .bind name v rest => .bind name (v.rename ρ) (rest.rename ρ)

end

mutual

/-- No identity of the value, or of anything in it, is `n` or more. -/
def Value.Below (n : Nat) : Value → Prop
  | .pair id head tail => (∀ i ∈ id, i < n) ∧ head.Below n ∧ tail.Below n
  | .closure id _ body scope => (∀ i ∈ id, i < n) ∧ body.Below n ∧ scope.Below n
  | .sequence id items => (∀ i ∈ id, i < n) ∧ items.Below n
  | .nil | .bool _ | .number _ | .string _ | .symbol _ | .primitive .. | .absent => True

def Scope.Below (n : Nat) : Scope → Prop
  | .global _ => True
  | .enter outer => outer.Below n
  | .bind _ v rest => v.Below n ∧ rest.Below n

end

/-! ### Identities below a number -/

mutual

theorem Value.Below.mono {n m : Nat} (hn : n ≤ m) : ∀ {v : Value}, v.Below n → v.Below m
  | .pair .., h => ⟨fun i hi => (h.1 i hi).trans_le hn, h.2.1.mono hn, h.2.2.mono hn⟩
  | .closure .., h => ⟨fun i hi => (h.1 i hi).trans_le hn, h.2.1.mono hn, h.2.2.mono hn⟩
  | .sequence .., h => ⟨fun i hi => (h.1 i hi).trans_le hn, h.2.mono hn⟩
  | .nil, _ | .bool _, _ | .number _, _ | .string _, _ | .symbol _, _ | .primitive .., _ | .absent, _ => trivial

theorem Scope.Below.mono {n m : Nat} (hn : n ≤ m) : ∀ {s : Scope}, s.Below n → s.Below m
  | .global _, _ => trivial
  | .enter outer, h => Scope.Below.mono (s := outer) hn h
  | .bind .., h => ⟨h.1.mono hn, h.2.mono hn⟩

end

theorem Identity.map_eq_self {n : Nat} {ρ : Nat → Nat} (hρ : ∀ i < n, ρ i = i) {id : Identity} (h : ∀ i ∈ id, i < n) :
    id.map ρ = id := by
  cases id with
  | none => rfl
  | some i => exact congrArg some (hρ i (h i rfl))

mutual

theorem Value.rename_eq_self {n : Nat} {ρ : Nat → Nat} (hρ : ∀ i < n, ρ i = i) :
    ∀ {v : Value}, v.Below n → v.rename ρ = v
  | .pair .., h => by
    rw [Value.rename, Identity.map_eq_self hρ h.1, Value.rename_eq_self hρ h.2.1, Value.rename_eq_self hρ h.2.2]
  | .closure .., h => by
    rw [Value.rename, Identity.map_eq_self hρ h.1, Value.rename_eq_self hρ h.2.1, Scope.rename_eq_self hρ h.2.2]
  | .sequence .., h => by rw [Value.rename, Identity.map_eq_self hρ h.1, Value.rename_eq_self hρ h.2]
  | .nil, _ | .bool _, _ | .number _, _ | .string _, _ | .symbol _, _ | .primitive .., _ | .absent, _ => by
    rw [Value.rename]

theorem Scope.rename_eq_self {n : Nat} {ρ : Nat → Nat} (hρ : ∀ i < n, ρ i = i) :
    ∀ {s : Scope}, s.Below n → s.rename ρ = s
  | .global _, _ => by rw [Scope.rename]
  | .enter outer, h => by rw [Scope.rename, Scope.rename_eq_self (s := outer) hρ h]
  | .bind .., h => by rw [Scope.rename, Value.rename_eq_self hρ h.1, Scope.rename_eq_self hρ h.2]

end

namespace Value

theorem below_of_isAtom {n : Nat} {v : Value} (h : v.isAtom) : v.Below n := by
  cases v with
  | pair | closure | sequence => cases h
  | _ => trivial

theorem Below.item {n : Nat} {item : Value} : ∀ {e : Value}, e.Below n → item ∈ e.items → item.Below n
  | .pair _ head tail, h, hitem => by
    rcases List.mem_cons.1 hitem with rfl | hitem
    · exact h.2.1
    · exact h.2.2.item hitem

/-! ### Texts -/

variable (ρ : Nat → Nat)

theorem write_rename : ∀ (v : Value) (inTail : Bool), (v.rename ρ).write false inTail = v.write false inTail
  | .pair _ head tail, _ => by rw [rename, write, write, write_rename head, write_rename tail]
  | .closure _ params body scope, _ => by rw [rename, write, write, write_rename body]; rfl
  | .sequence .., _ => by rw [rename, write, write]
  | .nil, _ | .bool _, _ | .number _, _ | .string _, _ | .symbol _, _ | .primitive .., _ | .absent, _ => by rw [rename]

theorem render_rename (v : Value) : (v.rename ρ).render = v.render := write_rename ρ v false

mutual

theorem inspect_rename : ∀ v : Value, (v.rename ρ).inspect = v.inspect
  | .pair id head tail => render_rename ρ (.pair id head tail)
  | .closure id params body scope => render_rename ρ (.closure id params body scope)
  | .sequence _ items => congrArg (fun text => '[' :: (text ++ [']'])) (inspectItems_rename items)
  | .nil | .bool _ | .number _ | .string _ | .symbol _ | .primitive .. | .absent => by rw [rename]

theorem inspectItems_rename : ∀ v : Value, (v.rename ρ).inspectItems = v.inspectItems
  | .pair _ head tail => by
    have hhead := inspect_rename head
    have htail := inspectItems_rename tail
    cases tail with
    | nil => exact hhead
    | _ => exact congrArg₂ (fun text texts => text ++ ", ".toList ++ texts) hhead htail
  | .closure .. | .sequence .. | .nil | .bool _ | .number _ | .string _ | .symbol _ | .primitive .. | .absent => rfl

end

theorem fault?_rename : ∀ (v : Value) (manner : Manner), manner ≠ .source true →
    (v.rename ρ).fault? manner = v.fault? manner
  | .pair _ head tail, manner, h => by
    have hitems : (tail.rename ρ).fault? .elements = tail.fault? .elements := fault?_rename tail _ (by simp)
    cases manner with
    | source bindings => simp only [rename, fault?, fault?_rename head _ h, fault?_rename tail _ h]
    | inspection =>
      simp only [rename, fault?, fault?_rename head (.source false) (by simp),
        fault?_rename tail (.source false) (by simp)]
    | elements => simp only [rename, fault?, fault?_rename head .inspection (by simp), hitems]
  | .closure _ _ body _, manner, h => by
    simp only [rename, fault?, if_neg h, fault?_rename body (.source false) (by simp)]
  | .sequence _ items, manner, h => by
    have hitems : (items.rename ρ).fault? .elements = items.fault? .elements := fault?_rename items _ (by simp)
    cases manner <;> simp only [rename, fault?, hitems, inspectItems_rename]
  | .nil, _, _ | .bool _, _, _ | .number _, _, _ | .string _, _, _ | .symbol _, _, _ | .primitive .., _, _
  | .absent, _, _ => by rw [rename]

theorem text_rename (v : Value) : (v.rename ρ).text = v.text := by
  rw [text, text, format, format, fault?_rename ρ v _ (by simp), write_rename]

theorem shown_rename (v : Value) : (v.rename ρ).shown = v.shown := by
  rw [shown, shown, fault?_rename ρ v _ (by simp), inspect_rename]

/-! ### Comparison -/

variable {ρ}

section
variable (hρ : Function.Injective ρ)
include hρ

theorem shared_map (i j : Identity) : Identity.shared (i.map ρ) (j.map ρ) = Identity.shared i j := by
  cases i with
  | none => rfl
  | some i =>
    cases j with
    | none => rfl
    | some j => simp [Identity.shared, hρ.eq_iff]

theorem same_rename : ∀ (v w : Value) (likeness : Likeness), (v.rename ρ).same likeness (w.rename ρ) = v.same likeness w
  | .pair _ head tail, w, likeness => by
    cases w with
    | pair => cases likeness <;> simp only [rename, same, shared_map hρ, same_rename head, same_rename tail]
    | _ => simp only [rename, same]
  | .closure .., w, _ => by cases w <;> simp only [rename, same, shared_map hρ]
  | .sequence _ items, w, _ => by cases w <;> simp only [rename, same, shared_map hρ, same_rename items]
  | .nil, w, _ | .bool _, w, _ | .number _, w, _ | .string _, w, _ | .symbol _, w, _ | .primitive .., w, _
  | .absent, w, _ => by cases w <;> simp only [rename, same]

theorem equal_rename (v w : Value) : (v.rename ρ).equal (w.rename ρ) = v.equal w := by
  have hsame := same_rename hρ v w .strict
  cases v with
  | pair =>
    cases w with
    | pair => exact shared_map hρ ..
    | _ => exact hsame
  | _ => cases w <;> exact hsame

end

theorem isTruthy_rename (v : Value) : (v.rename ρ).isTruthy = v.isTruthy := by cases v <;> rfl

/-! ### Chains -/

theorem items_rename : ∀ v : Value, (v.rename ρ).items = v.items.map (rename ρ)
  | .pair _ head tail => by rw [rename, items, items, items_rename tail]; rfl
  | .closure .. | .sequence .. | .nil | .bool _ | .number _ | .string _ | .symbol _ | .primitive .. | .absent => by
    simp only [rename, items, List.map_nil]

theorem ending_rename : ∀ v : Value, (v.rename ρ).ending = v.ending.rename ρ
  | .pair _ head tail => by rw [rename, ending, ending, ending_rename tail]
  | .closure .. | .sequence .. | .nil | .bool _ | .number _ | .string _ | .symbol _ | .primitive .. | .absent => by
    simp only [rename, ending]

theorem isList_rename (v : Value) : (v.rename ρ).isList = v.isList := by
  rw [isList, isList, ending_rename]
  cases v.ending <;> rfl

theorem elements_rename (v : Value) : (v.rename ρ).elements = v.elements.map (List.map (rename ρ)) := by
  rw [elements, elements, isList_rename, items_rename, ending_rename, shown_rename]
  split
  · rfl
  · cases v.ending.shown <;> rfl

end Value

/-! ### Scopes -/

theorem NameMap.entries_ofList_map {α : Type} (f : α → α) (es : List (String × α)) :
    (ofList (es.map (Prod.map id f))).entries = (ofList es).entries.map (Prod.map id f) := by
  have hmatches : Matches (fun a a' => f a = a') (ofList es) (ofList (es.map (Prod.map id f))) :=
    .ofList (List.forall₂_map_right_iff.2 (List.forall₂_same.2 fun e _ => ⟨rfl, rfl⟩))
  have hentries : List.Forall₂ (fun e e' => Prod.map id f e = e') (ofList es).entries
      (ofList (es.map (Prod.map id f))).entries := hmatches.imp fun e e' he => Prod.ext he.1 he.2
  exact (List.forall₂_eq_eq_eq ▸ List.forall₂_map_left_iff.2 hentries).symm

namespace Scope

variable {ρ : Nat → Nat} {n : Nat}

theorem owner_rename : ∀ s : Scope, (s.rename ρ).owner = s.owner
  | .global _ => by rw [rename]
  | .enter outer => by rw [rename, owner, owner, owner_rename outer]
  | .bind _ _ rest => by rw [rename, owner, owner, owner_rename rest]

theorem find?_rename (x : String) : ∀ s : Scope, (s.rename ρ).find? x = (s.find? x).map (Value.rename ρ)
  | .global _ => by rw [rename]; rfl
  | .enter outer => by rw [rename, find?, find?, find?_rename x outer]
  | .bind _ _ rest => by
    rw [rename, find?, find?, find?_rename x rest]
    split <;> rfl

theorem bindAll_rename (bindings : List (String × Value)) (s : Scope) :
    (bindAll bindings s).rename ρ = bindAll (bindings.map (Prod.map id (Value.rename ρ))) (s.rename ρ) := by
  induction bindings with
  | nil => rfl
  | cons b bindings ih =>
    have hrename : (bindAll (b :: bindings) s).rename ρ = .bind b.1 (b.2.rename ρ) ((bindAll bindings s).rename ρ) := by
      rw [bindAll, List.foldr_cons, ← bindAll, rename]
    rw [hrename, ih]
    rfl

theorem extend_rename (s : Scope) (names : List String) (vs : List Value) :
    (s.extend names vs).rename ρ = (s.rename ρ).extend names (vs.map (Value.rename ρ)) := by
  unfold extend
  split
  · rfl
  · rw [bindAll_rename, List.zip_map_right, NameMap.entries_ofList_map, rename]

theorem Below.find? {x : String} {v : Value} : ∀ {s : Scope}, s.Below n → s.find? x = some v → v.Below n
  | .global _, _, h => by cases h
  | .enter outer, hs, h => Below.find? (s := outer) hs h
  | .bind _ _ rest, hs, h => by
    rw [Scope.find?] at h
    split at h
    · cases h
      exact hs.1
    · exact hs.2.find? h

theorem Below.extend {s : Scope} (hs : s.Below n) (names : List String) {vs : List Value} (hvs : ∀ v ∈ vs, v.Below n) :
    (s.extend names vs).Below n := by
  have hbind : ∀ bindings : List (String × Value), (∀ b ∈ bindings, b.2.Below n) →
      (bindAll bindings (.enter s)).Below n := by
    intro bindings
    induction bindings with
    | nil => exact fun _ => hs
    | cons b bindings ih =>
      intro h
      obtain ⟨hb, hbindings⟩ := List.forall_mem_cons.1 h
      exact ⟨hb, ih hbindings⟩
  unfold Scope.extend
  split
  · exact hs
  · exact hbind _ fun b hb => hvs _ (List.of_mem_zip (NameMap.mem_ofList hb)).2

end Scope

/-! ### Worlds -/

/-- A value with other identities; those that it had are below `n`. -/
structure Value.Renamed (ρ : Nat → Nat) (n : Nat) (v v' : Value) : Prop where
  below : v.Below n
  eq : v' = v.rename ρ

theorem Value.Renamed.mono {ρ : Nat → Nat} {n m : Nat} (hn : n ≤ m) {v v' : Value} (h : v.Renamed ρ n v') :
    v.Renamed ρ m v' :=
  ⟨h.below.mono hn, h.eq⟩

theorem Value.Renamed.forall₂ {ρ : Nat → Nat} {n : Nat} {vs vs' : List Value}
    (h : List.Forall₂ (Value.Renamed ρ n) vs vs') :
    vs' = vs.map (Value.rename ρ) ∧ ∀ v ∈ vs, v.Below n := by
  induction h with
  | nil => exact ⟨rfl, by simp⟩
  | cons hv _ ih => exact ⟨congrArg₂ List.cons hv.eq ih.1, List.forall_mem_cons.2 ⟨hv.below, ih.2⟩⟩

def Likeness.renamed {ρ : Nat → Nat} (hρ : Function.Injective ρ) (n : Nat) : Likeness where
  rel := Value.Renamed ρ n
  atom {v} h := by
    refine ⟨Value.below_of_isAtom h, ?_⟩
    cases v with
    | pair | closure | sequence => cases h
    | _ => rfl
  shaped {v _} h := by
    obtain ⟨hbelow, rfl⟩ := h
    cases v with
    | pair => exact .pair ⟨hbelow.2.1, rfl⟩ ⟨hbelow.2.2, rfl⟩
    | closure => exact .closure rfl
    | sequence => exact .sequence
    | _ => exact .atom rfl
  text_eq {v _} h := by rw [h.eq, v.text_rename]
  equal_eq {a b _ _} ha hb := by rw [ha.eq, hb.eq, Value.equal_rename hρ]

structure Realm.Renamed (ρ : Nat → Nat) (n : Nat) (r r' : Realm) : Prop where
  globals : NameMap.Matches (Value.Renamed ρ n) r.globals r'.globals
  files : r.files = r'.files
  log : r.log = r'.log

theorem Realm.Renamed.mono {ρ : Nat → Nat} {n m : Nat} (hn : n ≤ m) {r r' : Realm} (h : r.Renamed ρ n r') :
    r.Renamed ρ m r' :=
  ⟨h.globals.imp fun _ _ he => ⟨he.1, he.2.mono hn⟩, h.files, h.log⟩

namespace World

/-- The same world with other identities, and the next ones go on being the same. -/
structure Renamed (ρ : Nat → Nat) (w w' : World) : Prop where
  realm : ∀ owner, (w.realm owner).Renamed ρ w.next (w'.realm owner)
  next : ∀ k, ρ (w.next + k) = w'.next + k

namespace Renamed

variable {ρ : Nat → Nat} {w w' : World}

theorem modifyRealm (h : w.Renamed ρ w') (owner : Owner) {f f' : Realm → Realm}
    (hf : ∀ r r', r.Renamed ρ w.next r' → (f r).Renamed ρ w.next (f' r')) :
    (w.modifyRealm owner f).Renamed ρ (w'.modifyRealm owner f') := by
  have hsession := h.realm .session
  have hlibrary := h.realm .library
  cases owner with
  | session => exact ⟨fun owner => by cases owner; exacts [hf _ _ hsession, hlibrary], h.next⟩
  | library => exact ⟨fun owner => by cases owner; exacts [hsession, hf _ _ hlibrary], h.next⟩

/-- Both sides take the next identity. -/
theorem identity (h : w.Renamed ρ w') :
    World.Renamed ρ { w with next := w.next + 1 } { w' with next := w'.next + 1 } where
  realm owner := (h.realm owner).mono (Nat.le_succ _)
  next k := by
    have hnext := h.next (k + 1)
    simp only
    rw [Nat.succ_add_eq_add_succ, Nat.succ_add_eq_add_succ]
    exact hnext

end Renamed

end World

end Lisplet
