import Lisplet.Proofs.Likeness

/-!
# Values that look alike

Two values are alike if they differ only in what functions captured, and there only in bindings whose
names do not occur in the body. Values that are alike have the same text and go through every primitive
alike (`Likeness.alike`), so that they make a simulation (`Simulation.alike`).
-/

namespace Lisplet

namespace Value

/-- The names that occur in an expression. -/
def symbols : Value → List String
  | .symbol name => [name]
  | .pair _ head tail => head.symbols ++ tail.symbols
  | _ => []

inductive Alike : Value → Value → Prop
  | refl (v : Value) : Alike v v
  | pair {id : Identity} {a b a' b' : Value} (ha : Alike a a') (hb : Alike b b') :
    Alike (.pair id a b) (.pair id a' b')
  | closure {id : Identity} {params : List String} {body : Value} {s s' : Scope} (howner : s.owner = s'.owner)
    (hfind : ∀ x ∈ body.symbols, Option.Rel Alike (s.find? x) (s'.find? x)) :
    Alike (.closure id params body s) (.closure id params body s')

namespace Alike

/-! ### Texts -/

theorem write_eq : ∀ {v v' : Value}, Alike v v' → ∀ inTail, v.write false inTail = v'.write false inTail
  | _, _, .refl _, _ => rfl
  | .pair .., .pair .., .pair ha hb, _ => by rw [write, write, ha.write_eq, hb.write_eq]
  | .closure .., .closure .., .closure _ _, _ => by rw [write, write]; rfl

theorem fault?_eq : ∀ {v v' : Value}, Alike v v' → v.fault? (.source false) = v'.fault? (.source false)
  | _, _, .refl _ => rfl
  | .pair .., .pair .., .pair ha hb => congrArg₂ Option.or ha.fault?_eq hb.fault?_eq
  | .closure .., .closure .., .closure _ _ => rfl

theorem text_eq {v v' : Value} (h : Alike v v') : v.text = v'.text := by
  rw [text, text, format, format, h.fault?_eq, h.write_eq]

/-! ### Comparison -/

theorem same_left : ∀ {v v' : Value}, Alike v v' → ∀ likeness (w : Value), v.same likeness w = v'.same likeness w
  | _, _, .refl _, _, _ => rfl
  | .pair .., .pair .., .pair ha hb, likeness, w => by
    cases w with
    | pair => cases likeness <;> simp only [same, ha.same_left, hb.same_left]
    | _ => simp only [same]
  | .closure .., .closure .., .closure _ _, _, w => by cases w <;> simp only [same]

theorem same_right : ∀ {w w' : Value}, Alike w w' → ∀ likeness (v : Value), v.same likeness w = v.same likeness w'
  | _, _, .refl _, _, _ => rfl
  | .pair .., .pair .., .pair ha hb, likeness, v => by
    cases v with
    | pair => cases likeness <;> simp only [same, ha.same_right, hb.same_right]
    | _ => simp only [same]
  | .closure .., .closure .., .closure _ _, _, v => by cases v <;> simp only [same]

theorem equal_eq {a b a' b' : Value} (ha : Alike a a') (hb : Alike b b') : a.equal b = a'.equal b' := by
  have hsame : a.same .strict b = a'.same .strict b' := by rw [ha.same_left, hb.same_right]
  cases ha with
  | refl a =>
    cases hb with
    | refl => rfl
    | pair => cases a <;> rfl
    | closure => cases a <;> exact hsame
  | pair =>
    cases hb with
    | refl b => cases b <;> rfl
    | pair => rfl
    | closure => exact hsame
  | closure => cases hb <;> exact hsame

theorem isPrimitive_eq {v v' : Value} (h : Alike v v') : v.isPrimitive = v'.isPrimitive := by cases h <;> rfl

theorem shaped {v v' : Value} (h : Alike v v') : Shaped Alike v v' := by
  cases h with
  | refl v =>
    cases v with
    | pair id a b => exact .pair (.refl a) (.refl b)
    | closure => exact .closure rfl
    | sequence => exact .sequence
    | _ => exact .atom rfl
  | pair ha hb => exact .pair ha hb
  | closure => exact .closure rfl

end Alike

end Value

def Likeness.alike : Likeness where
  rel := Value.Alike
  atom _ := .refl _
  shaped := Value.Alike.shaped
  text_eq := Value.Alike.text_eq
  equal_eq := Value.Alike.equal_eq

/-! ### Tables -/

namespace NameMap

variable {α : Type} {rel : α → α → Prop} {m m' : NameMap α} {a a' : α}

/-- The same names, bound to related things. -/
def Matches (rel : α → α → Prop) (m m' : NameMap α) : Prop :=
  List.Forall₂ (fun e e' => e.1 = e'.1 ∧ rel e.2 e'.2) m.entries m'.entries

theorem Matches.refl (h : ∀ a, rel a a) (m : NameMap α) : Matches rel m m :=
  List.forall₂_same.2 fun e _ => ⟨rfl, h e.2⟩

theorem forall₂_insertEntry {es es' : List (String × α)} (x : String) (ha : rel a a')
    (h : List.Forall₂ (fun e e' => e.1 = e'.1 ∧ rel e.2 e'.2) es es') :
    List.Forall₂ (fun e e' => e.1 = e'.1 ∧ rel e.2 e'.2) (insertEntry x a es) (insertEntry x a' es') := by
  induction h with
  | nil => exact .cons ⟨rfl, ha⟩ .nil
  | cons he hes ih =>
    simp only [insertEntry, he.1]
    split
    · exact .cons ⟨rfl, ha⟩ (.cons he hes)
    · split
      · exact .cons he ih
      · exact .cons ⟨rfl, ha⟩ hes

theorem Matches.insert (h : Matches rel m m') (x : String) (ha : rel a a') :
    Matches rel (m.insert x a) (m'.insert x a') :=
  forall₂_insertEntry x ha h

theorem Matches.ofList {es es' : List (String × α)}
    (h : List.Forall₂ (fun e e' => e.1 = e'.1 ∧ rel e.2 e'.2) es es') :
    Matches rel (NameMap.ofList es) (NameMap.ofList es') := by
  suffices hfold : ∀ m m' : NameMap α, Matches rel m m' →
      Matches rel (es.foldl (fun m e => m.insert e.1 e.2) m) (es'.foldl (fun m e => m.insert e.1 e.2) m') from
    hfold empty empty .nil
  induction h with
  | nil => exact fun m m' hm => hm
  | cons he _ ih =>
    intro m m' hm
    rw [List.foldl_cons, List.foldl_cons, he.1]
    exact ih _ _ (hm.insert _ he.2)

theorem Matches.find? (h : Matches rel m m') (x : String) : Option.Rel rel (m.find? x) (m'.find? x) := by
  unfold NameMap.find?
  unfold Matches at h
  generalize m.entries = es at h
  generalize m'.entries = es' at h
  induction h with
  | nil => exact .none
  | @cons e e' _ _ he _ ih =>
    by_cases hx : e.1 = x
    · rw [List.find?_cons_of_pos (by simpa using hx), List.find?_cons_of_pos (by simpa [← he.1] using hx)]
      exact .some he.2
    · rw [List.find?_cons_of_neg (by simpa using hx), List.find?_cons_of_neg (by simpa [← he.1] using hx)]
      exact ih

end NameMap

/-! ### Scopes -/

namespace Scope

/-- Scopes with the same globals in which each of the names means something alike. -/
structure Agree (names : List String) (s s' : Scope) : Prop where
  owner : s.owner = s'.owner
  find? : ∀ x ∈ names, Option.Rel Value.Alike (s.find? x) (s'.find? x)

theorem owner_extend (s : Scope) (names : List String) (vs : List Value) : (s.extend names vs).owner = s.owner := by
  have hbind : ∀ bindings : List (String × Value), (bindAll bindings (.enter s)).owner = s.owner := by
    intro bindings
    induction bindings with
    | nil => rfl
    | cons b bindings ih => exact ih
  unfold extend
  split
  · rfl
  · exact hbind _

namespace Agree

variable {names : List String} {s s' : Scope}

theorem of_find?_eq (howner : s.owner = s'.owner) (h : ∀ x ∈ names, s.find? x = s'.find? x) : Agree names s s' where
  owner := howner
  find? x hx := by
    rw [h x hx]
    cases s'.find? x with
    | none => exact .none
    | some v => exact .some (.refl v)

theorem mono {names' : List String} (h : Agree names s s') (hsub : ∀ x ∈ names', x ∈ names) : Agree names' s s' :=
  ⟨h.owner, fun x hx => h.find? x (hsub x hx)⟩

theorem extend {params : List String} {vs vs' : List Value} (h : Agree names s s')
    (hvs : List.Forall₂ Value.Alike vs vs') : Agree names (s.extend params vs) (s'.extend params vs') where
  owner := by rw [owner_extend, owner_extend, h.owner]
  find? x hx := by
    have hzip : List.Forall₂ (fun e e' : String × Value => e.1 = e'.1 ∧ Value.Alike e.2 e'.2)
        (params.zip vs) (params.zip vs') := by
      induction hvs generalizing params with
      | nil => simp
      | cons hv _ ih =>
        cases params with
        | nil => simp
        | cons p params => exact .cons ⟨rfl, hv⟩ ih
    rw [find?_extend, find?_extend]
    have hframe := (NameMap.Matches.ofList hzip).find? x
    generalize (NameMap.ofList (params.zip vs)).find? x = bound at hframe
    generalize (NameMap.ofList (params.zip vs')).find? x = bound' at hframe
    cases hframe with
    | none => exact h.find? x hx
    | some hv => exact .some hv

end Agree

end Scope

theorem Value.mem_symbols_of_item {item : Value} {x : String} (hx : x ∈ item.symbols) :
    ∀ {e : Value}, item ∈ e.items → x ∈ e.symbols
  | .pair _ head tail, hitem => by
    rw [Value.symbols, List.mem_append]
    rcases List.mem_cons.1 hitem with rfl | hitem
    · exact .inl hx
    · exact .inr (mem_symbols_of_item hx hitem)

/-! ### States -/

structure Realm.Alike (r r' : Realm) : Prop where
  globals : NameMap.Matches Value.Alike r.globals r'.globals
  files : r.files = r'.files
  log : r.log = r'.log

theorem Realm.Alike.refl (r : Realm) : r.Alike r := ⟨.refl .refl _, rfl, rfl⟩

namespace World

structure Alike (w w' : World) : Prop where
  realm : ∀ owner, (w.realm owner).Alike (w'.realm owner)
  next : w.next = w'.next

theorem Alike.refl (w : World) : w.Alike w := ⟨fun _ => .refl _, rfl⟩

theorem Alike.modifyRealm {w w' : World} (h : w.Alike w') (owner : Owner) {f f' : Realm → Realm}
    (hf : ∀ r r', r.Alike r' → (f r).Alike (f' r')) : (w.modifyRealm owner f).Alike (w'.modifyRealm owner f') := by
  refine ⟨fun owner' => ?_, ?_⟩
  · cases owner with
    | session =>
      cases owner' with
      | session => exact hf _ _ (h.realm .session)
      | library => exact h.realm .library
    | library =>
      cases owner' with
      | session => exact h.realm .session
      | library => exact hf _ _ (h.realm .library)
  · cases owner <;> exact h.next

end World

/-- Evaluation does not tell apart what is alike. -/
def Simulation.alike : Simulation where
  state := World.Alike
  value := Value.Alike
  ready s s' e := Scope.Agree e.symbols s s'
  state_next hw := ⟨hw.next, hw.realm, congrArg (· + 1) hw.next⟩
  state_line hw := hw.modifyRealm _ fun r r' hr => ⟨hr.globals, hr.files, by rw [hr.log]⟩
  state_file hw := hw.modifyRealm _ fun r r' hr => ⟨hr.globals, by rw [hr.files], hr.log⟩
  files_eq hw := (hw.realm _).files
  state_global := by
    intro w w' s s' id head tail name e v v' hw hs _ _ hv
    rw [← hs.owner]
    exact hw.modifyRealm _ fun r r' hr => ⟨hr.globals.insert name hv, hr.files, hr.log⟩
  lookup := by
    intro s s' name hs
    have hfind := hs.find? name (List.mem_singleton_self name)
    unfold Eval.lookup
    rw [← hs.owner]
    generalize s.find? name = bound at hfind
    generalize s'.find? name = bound' at hfind
    cases hfind with
    | some hv => exact .pure hv
    | none =>
      refine .get_bind fun w w' hw => ?_
      have hglobal := (hw.realm s.owner).globals.find? name
      generalize (w.realm s.owner).globals.find? name = bound at hglobal
      generalize (w'.realm s.owner).globals.find? name = bound' at hglobal
      cases hglobal with
      | some hv => exact .pure hv
      | none => exact .throw _
  ready_items hs item hitem := hs.mono fun x hx => Value.mem_symbols_of_item hx hitem
  ready_extend hs hvs := hs.extend hvs
  value_code _ _ _ := .refl _
  value_closure := by
    intro s s' id head tail params body id' names hs _ hitems
    have hbody : body ∈ (Value.pair id head tail).items := by simp [Value.items, hitems]
    exact .closure hs.owner fun x hx => hs.find? x (Value.mem_symbols_of_item hx hbody)
  value_nil := .refl _
  value_bool _ := .refl _
  value_string _ := .refl _
  value_pair := .pair
  value_result hvs := Likeness.alike.result? hvs _
  text_eq hv := hv.text_eq
  isTruthy_eq := Likeness.alike.isTruthy_eq
  display_eq := Likeness.alike.display_eq
  string_eq hv _ := Likeness.alike.string_eq hv
  value_function := by
    intro f f' hf
    cases hf with
    | refl =>
      cases f with
      | primitive owner p => exact .inl ⟨owner, p, rfl, rfl⟩
      | closure id params body s =>
        exact .inr (.inl ⟨id, params, body, s, s, rfl, rfl, .of_find?_eq rfl fun _ _ => rfl⟩)
      | _ => exact .inr (.inr ⟨rfl, rfl⟩)
    | pair => exact .inr (.inr ⟨rfl, rfl⟩)
    | closure howner hfind => exact .inr (.inl ⟨_, _, _, _, _, rfl, rfl, howner, hfind⟩)

end Lisplet
