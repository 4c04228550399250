import Lisplet.Proofs.Alike
import Lisplet.Proofs.Written

/-!
# What names mean

`Scope.lookup_branched`: in scopes that were extended from one another, in any order, over one table, while
names were defined through any of them, a name means what the latest extension on the way to the scope says
that gives it a value; else what it was defined as last, through whatever scope; else nothing. A run of
extensions and definitions is `Scope.Branched`, which keeps with each scope the extensions that led to it.
-/

namespace Lisplet

/-- The value of the last entry with a name. -/
def lastValue? (x : String) (entries : List (String × Value)) : Option Value :=
  (entries.filter (·.1 == x)).getLast?.map (·.2)

theorem lastValue?_concat (x : String) (entries : List (String × Value)) (name : String) (v : Value) :
    lastValue? x (entries ++ [(name, v)]) = if x = name then some v else lastValue? x entries := by
  by_cases hx : x = name <;> simp [lastValue?, hx, eq_comm (a := name)]

theorem NameMap.find?_ofList (entries : List (String × Value)) (x : String) :
    (NameMap.ofList entries).find? x = lastValue? x entries := by
  induction entries using List.reverseRecOn with
  | nil => rfl
  | append_singleton entries e ih =>
    have hlast : NameMap.ofList (entries ++ [e]) = (NameMap.ofList entries).insert e.1 e.2 := by
      rw [NameMap.ofList, List.foldl_append]
      rfl
    rw [hlast, NameMap.find?_insert, ih, lastValue?_concat]

namespace Scope

/-! ### Frames -/

/-- A name means what the innermost frame says that binds it. -/
theorem find?_eq_findSome? (x : String) : ∀ s : Scope, s.find? x = s.frames.findSome? (List.lookup x)
  | .global _ => rfl
  | .enter outer => by
    rw [find?, frames, List.findSome?_cons, find?_eq_findSome? x outer]
    rfl
  | .bind y v rest => by
    have hlookup : ∀ frame : List (String × Value),
        List.lookup x ((y, v) :: frame) = if y = x then some v else List.lookup x frame := by
      intro frame
      by_cases hx : x = y
      · simp [hx]
      · simp [List.lookup_cons, beq_false_of_ne hx, Ne.symm hx]
    rw [find?, frames, find?_eq_findSome? x rest]
    cases rest.frames with
    | nil =>
      rw [List.findSome?_cons, hlookup]
      split <;> rfl
    | cons frame outer =>
      rw [List.findSome?_cons, List.findSome?_cons, hlookup]
      split <;> rfl

theorem find?_eq_none_iff {x : String} {s : Scope} :
    s.find? x = none ↔ ∀ frame ∈ s.frames, ∀ b ∈ frame, b.1 ≠ x := by
  rw [find?_eq_findSome?, List.findSome?_eq_none_iff]
  refine forall₂_congr fun frame _ => ?_
  rw [List.lookup_eq_none_iff]
  refine forall₂_congr fun b _ => ?_
  rw [bne_iff_ne, ne_comm]

/-! ### Scopes that branch off from one another -/

/-- The extensions that lead to a scope, the latest first: the names of each with the values. -/
abbrev Path := List (List String × List Value)

/-- What the latest of the extensions gives a name that gives it any value. -/
def Path.value? (x : String) (path : Path) : Option Value :=
  path.findSome? fun step => lastValue? x (step.1.zip step.2)

/-- Scopes that were extended from one another, each with the extensions that led to it, while definitions
were made through any of them; `w` is the world that comes of it. -/
inductive Branched (owner : Owner) (w₀ : World) :
    (scopes : List (Path × Scope)) → (definitions : List (String × Value)) → (w : World) → Prop
  | start : Branched owner w₀ [([], .global owner)] [] w₀
  | extend {scopes : List (Path × Scope)} {definitions : List (String × Value)} {w : World} {path : Path} {s : Scope}
    (h : Branched owner w₀ scopes definitions w) (hs : (path, s) ∈ scopes)
    (names : List String) (values : List Value) :
    Branched owner w₀ (scopes ++ [((names, values) :: path, s.extend names values)]) definitions w
  | define {scopes : List (Path × Scope)} {definitions : List (String × Value)} {w w' : World} {path : Path} {s : Scope}
    {name : String} {v : Value} (h : Branched owner w₀ scopes definitions w) (hs : (path, s) ∈ scopes)
    (hdefine : Eval.define s.owner name v w = .ok v w') :
    Branched owner w₀ scopes (definitions ++ [(name, v)]) w'

variable {owner : Owner} {w₀ w w' : World} {scopes : List (Path × Scope)} {definitions : List (String × Value)}
  {path : Path} {s : Scope}

/-- Extensions alone decide what the frames of a scope say. -/
theorem Branched.scope (h : Branched owner w₀ scopes definitions w) :
    ∀ e ∈ scopes, e.2.owner = owner ∧ ∀ x, e.2.find? x = e.1.value? x := by
  induction h with
  | start => simp [Scope.owner, find?, Path.value?]
  | @extend scopes definitions w path s h hs names values ih =>
    obtain ⟨howner, hfind⟩ := ih _ hs
    intro e he
    rcases List.mem_append.1 he with he | he
    · exact ih e he
    · obtain rfl := List.mem_singleton.1 he
      refine ⟨(owner_extend s names values).trans howner, fun x => ?_⟩
      rw [find?_extend, NameMap.find?_ofList, hfind, Path.value?, Path.value?, List.findSome?_cons]
      cases lastValue? x (names.zip values) with
      | none => exact Option.none_or
      | some v => rfl
  | define h hs hdefine ih => exact ih

/-- Definitions alone decide what the table says. -/
theorem Branched.globals (h : Branched owner w₀ scopes definitions w) (x : String) :
    (w.realm owner).globals.find? x = (lastValue? x definitions).or ((w₀.realm owner).globals.find? x) := by
  induction h with
  | start => rfl
  | extend h hs names values ih => exact ih
  | @define scopes definitions w w' path s name v h hs hdefine ih =>
    rw [(h.scope _ hs).1] at hdefine
    cases hdefine
    have hinsert := World.find?_withGlobal w owner owner name x v
    rw [World.withGlobal] at hinsert
    rw [hinsert, ih, lastValue?_concat]
    by_cases hx : x = name <;> simp [hx]

end Scope

namespace Eval

/-- The result of looking up a name, given what it means. -/
def found (x : String) : Option Value → Eval Value
  | some v => pure v
  | none => throw (.unbound x)

theorem global_eq (owner : Owner) (x : String) (w : World) :
    global owner x w = found x ((w.realm owner).globals.find? x) w := by
  show (match (w.realm owner).globals.find? x with
    | some v => pure v
    | none => throw (.unbound x) : Eval Value) w = _
  cases (w.realm owner).globals.find? x <;> rfl

theorem lookup_eq (s : Scope) (x : String) (w : World) :
    lookup s x w = found x ((s.find? x).or ((w.realm s.owner).globals.find? x)) w := by
  unfold lookup
  cases s.find? x with
  | some v => rfl
  | none => exact global_eq s.owner x w

theorem define_eq (owner : Owner) (name : String) (v : Value) (w : World) :
    define owner name v w = .ok v (w.withGlobal owner name v) := rfl

end Eval

namespace Scope

variable {owner : Owner} {w₀ w : World} {scopes : List (Path × Scope)} {definitions : List (String × Value)}

/-- What a name means in scopes that branch off from one another over one table. A definition, through
whatever scope it is made, changes that only of its own name, and only where no frame binds it. -/
theorem lookup_branched (h : Branched owner w₀ scopes definitions w) {path : Path} {s : Scope}
    (hs : (path, s) ∈ scopes) :
    (∀ x, Eval.lookup s x w =
      Eval.found x ((path.value? x).or ((lastValue? x definitions).or ((w₀.realm owner).globals.find? x))) w) ∧
    ∀ e ∈ scopes, ∀ name v, ∃ w', Eval.define e.2.owner name v w = .ok v w' ∧ ∀ x,
      (x = name → (∀ frame ∈ s.frames, ∀ b ∈ frame, b.1 ≠ name) → Eval.lookup s x w' = .ok v w') ∧
      ((x ≠ name ∨ ∃ frame ∈ s.frames, ∃ b ∈ frame, b.1 = name) →
        ∃ found, Eval.lookup s x w = Eval.found x found w ∧ Eval.lookup s x w' = Eval.found x found w') := by
  have hlookup : ∀ {definitions : List (String × Value)} {w : World}, Branched owner w₀ scopes definitions w →
      ∀ x, Eval.lookup s x w =
        Eval.found x ((path.value? x).or ((lastValue? x definitions).or ((w₀.realm owner).globals.find? x))) w := by
    intro definitions w h x
    obtain ⟨howner, hfind⟩ := h.scope _ hs
    rw [Eval.lookup_eq, hfind, howner, h.globals]
  refine ⟨hlookup h, fun e he name v => ⟨_, Eval.define_eq .., fun x => ?_⟩⟩
  have hframes : path.value? name = none ↔ ∀ frame ∈ s.frames, ∀ b ∈ frame, b.1 ≠ name := by
    rw [← (h.scope _ hs).2 name]
    exact find?_eq_none_iff
  -- afterwards it is the same run with one more definition
  rw [hlookup (h.define he (Eval.define_eq e.2.owner name v w)) x, lastValue?_concat]
  constructor
  · rintro rfl hfree
    rw [hframes.2 hfree, if_pos rfl]
    rfl
  · intro hother
    refine ⟨_, hlookup h x, ?_⟩
    by_cases hname : x = name
    · subst hname
      obtain ⟨frame, hframe, b, hb, rfl⟩ := hother.resolve_left (absurd rfl)
      have hbound : path.value? b.1 ≠ none := fun hnone => hframes.1 hnone frame hframe b hb rfl
      obtain ⟨u, hu⟩ := Option.ne_none_iff_exists'.1 hbound
      rw [hu, Option.some_or, Option.some_or]
    · rw [if_neg hname]

/-- Two scopes branch off from one that binds `x` twice in its frame, and a name is defined through the left
one, which names it without a value. -/
theorem lookup_branched_siblings :
    let w₀ := World.ofRealm (.fresh .session ∅) 0
    let names := ["x", "y", "x"]
    let values := [.nil, .bool true, .string "last", .string "more"]
    let parent := (Scope.global .session).extend names values
    let left := parent.extend ["y", "z"] [.bool false]
    let right := parent.extend [] [.nil]
    ∃ w, Eval.define left.owner "z" (.string "new") w₀ = .ok (.string "new") w ∧
      Branched .session w₀
        [([], .global .session), ([(names, values)], parent), ([(["y", "z"], [.bool false]), (names, values)], left),
          ([([], [.nil]), (names, values)], right)] [("z", .string "new")] w ∧
      Eval.lookup left "x" w = .ok (.string "last") w ∧ Eval.lookup left "y" w = .ok (.bool false) w ∧
      Eval.lookup left "z" w = .ok (.string "new") w ∧ Eval.lookup right "y" w = .ok (.bool true) w ∧
      Eval.lookup right "z" w = .ok (.string "new") w ∧ Eval.lookup right "t" w = .error (.unbound "t") w := by
  intro w₀ names values parent left right
  have hparent : Branched .session w₀ [([], .global .session), ([(names, values)], parent)] [] w₀ :=
    .extend .start (.head _) names values
  have hleft := hparent.extend (.tail _ (.head _)) ["y", "z"] [.bool false]
  have hright := hleft.extend (.tail _ (.head _)) [] [.nil]
  have hdefined := hright.define (.tail _ (.tail _ (.head _))) (Eval.define_eq left.owner "z" (.string "new") w₀)
  have hl := (lookup_branched hdefined (.tail _ (.tail _ (.head _)))).1
  have hr := (lookup_branched hdefined (.tail _ (.tail _ (.tail _ (.head _))))).1
  exact ⟨_, rfl, hdefined, hl "x", hl "y", hl "z", hr "y", hr "z", hr "t"⟩

end Scope

end Lisplet
