import Lisplet.Proofs.Calls

/-!
# What the user defined

`dump_changeAll`: what a session lists as defined by the user, and so its dump, depends on what the names mean and
on nothing else, whatever definitions and restored tables led there. The names are listed in increasing order,
those whose value is no primitive and no others. A table keeps its bindings sorted; the list is the same if it
is made from the bindings in any other order (`Globals.IsListing`).
-/

namespace Lisplet

/-! ### Bindings in any order -/

/-- A list of the bindings of a table, in any order. -/
structure Globals.IsListing (globals : Globals) (items : List (String × Value)) : Prop where
  nodup : (items.map (·.1)).Nodup
  mem_iff : ∀ x v, (x, v) ∈ items ↔ globals.find? x = some v

/-- The bindings that are not primitives, sorted by name. -/
def sortedDefines (items : List (String × Value)) : List (String × Value) :=
  (items.mergeSort fun d d' => d.1 ≤ d'.1).filter fun d => !d.2.isPrimitive

namespace Globals

variable {globals : Globals} {items : List (String × Value)}

theorem IsListing.sortedDefines_eq (h : globals.IsListing items) : sortedDefines items = globals.userDefines := by
  let sorted := items.mergeSort fun d d' => d.1 ≤ d'.1
  have hperm : sorted.Perm items := List.mergeSort_perm ..
  have hle : sorted.Pairwise fun d d' => decide (d.1 ≤ d'.1) = true :=
    List.pairwise_mergeSort (fun _ _ _ => by simpa using String.le_trans)
      (fun d d' => by simpa using String.le_total d.1 d'.1) items
  have hne : sorted.Pairwise fun d d' => d.1 ≠ d'.1 :=
    List.pairwise_map.1 ((hperm.map Prod.fst).nodup_iff.2 h.nodup)
  have hlt : sorted.Pairwise fun d d' => d.1 < d'.1 :=
    (hle.and hne).imp fun hdd' =>
      String.not_le.1 fun hge => hdd'.2 (String.le_antisymm (of_decide_eq_true hdd'.1) hge)
  -- strictly sorted lists with the same elements are equal, so the order of `items` leaves no trace
  have hentries : sorted = globals.entries :=
    NameMap.eq_of_mem_iff hlt globals.sorted fun d => by
      rw [hperm.mem_iff, h.mem_iff, NameMap.find?_eq_some_iff]
  exact congrArg (List.filter _) hentries

theorem mem_userDefines {x : String} {v : Value} :
    (x, v) ∈ globals.userDefines ↔ globals.find? x = some v ∧ v.isPrimitive = false := by
  rw [userDefines, List.mem_filter, NameMap.find?_eq_some_iff, Bool.not_eq_true']

theorem pairwise_userDefines (globals : Globals) : (globals.userDefines.map (·.1)).Pairwise (· < ·) :=
  List.pairwise_map.2 (globals.sorted.filter _)

end Globals

namespace Session

/-! ### Changes of a table -/

/-- What is done to the table of a session. -/
inductive Change where
  /-- Binds the name that a value gives. A value that is no symbol is refused. -/
  | define (name v : Value)
  /-- Puts a table in the place of the one there is. -/
  | restore (globals : Globals)

namespace Change

def perform (s : Session) : Change → Session
  | .define name v =>
    match Eval.defineValue .session name v s.world with
    | .ok _ world => { s with world }
    | .error _ world => { s with world }
  | .restore globals => s.withGlobals globals

/-- What a name means after a change, given what it meant before. -/
def meaning? (x : String) (found : Option Value) : Change → Option Value
  | .define name v => if name = .symbol x then some v else found
  | .restore globals => globals.find? x

end Change

def changeAll (s : Session) (changes : List Change) : Session := changes.foldl Change.perform s

theorem defineValue_refused {name : Value} (hname : ∀ x, name ≠ .symbol x) (v : Value) (w : World) :
    ∃ failure, Eval.defineValue .session name v w = .error failure w := by
  unfold Eval.defineValue
  split
  · exact absurd rfl (hname _)
  · generalize name.shown = shown
    cases shown <;> exact ⟨_, rfl⟩

theorem find?_perform (c : Change) (s : Session) (x : String) :
    (c.perform s).globals.find? x = c.meaning? x (s.globals.find? x) := by
  cases c with
  | restore globals => rfl
  | define name v =>
    by_cases hsymbol : ∃ y, name = .symbol y
    · obtain ⟨y, rfl⟩ := hsymbol
      refine (NameMap.find?_insert s.globals y x v).trans ?_
      simp only [Change.meaning?, Value.symbol.injEq, eq_comm]
    · obtain ⟨failure, hrefused⟩ := defineValue_refused (fun y hy => hsymbol ⟨y, hy⟩) v s.world
      rw [Change.meaning?, if_neg fun hx => hsymbol ⟨x, hx⟩]
      simp only [Change.perform, hrefused]

theorem find?_changeAll (changes : List Change) (s : Session) (x : String) :
    (s.changeAll changes).globals.find? x = changes.foldl (Change.meaning? x) (s.globals.find? x) := by
  induction changes generalizing s with
  | nil => rfl
  | cons c changes ih => rw [changeAll, List.foldl_cons, List.foldl_cons, ← find?_perform, ← ih, changeAll]

/-! ### Dumps -/

/-- What is listed and what is dumped, after whatever changes. It does not depend on the changes beyond what the names
mean after them, and not on the order in which a table gives its bindings. -/
theorem dump_changeAll (s s' : Session) (changes changes' : List Change) :
    let t := s.changeAll changes
    let t' := s'.changeAll changes'
    ((∀ x, t.globals.find? x = t'.globals.find? x) →
      t.userDefines = t'.userDefines ∧ t.dump = t'.dump ∧
      (∀ items items', t.globals.IsListing items → t'.globals.IsListing items' →
        sortedDefines items = t.userDefines ∧ sortedDefines items' = t.userDefines) ∧
      ((∀ d ∈ t.userDefines, ∃ text, d.2.text = .ok text) → ∃ text, t.dump = .ok text ∧ t'.dump = .ok text)) ∧
    (t.userDefines.map (·.1)).Pairwise (· < ·) ∧
    (∀ x v, (x, v) ∈ t.userDefines ↔
      changes.foldl (Change.meaning? x) (s.globals.find? x) = some v ∧ v.isPrimitive = false) ∧
    ∀ x v, x ∈ (Change.perform t (.define (.symbol x) v)).userDefines.map (·.1) ↔ v.isPrimitive = false := by
  intro t t'
  refine ⟨fun hmeaning => ?_, t.globals.pairwise_userDefines, fun x v => ?_, fun x v => ?_⟩
  · have hglobals : t.globals = t'.globals := NameMap.ext_find? hmeaning
    have hdefines : t.userDefines = t'.userDefines := congrArg Globals.userDefines hglobals
    have hdump : t.dump = t'.dump := congrArg definitions hdefines
    refine ⟨hdefines, hdump, fun items items' h h' => ⟨h.sortedDefines_eq, ?_⟩, fun htext => ?_⟩
    · rw [h'.sortedDefines_eq, hdefines, userDefines]
    · obtain ⟨text, hok⟩ := exists_definitions htext
      exact ⟨text, hok, hdump.symm.trans hok⟩
  · rw [← find?_changeAll]
    exact Globals.mem_userDefines
  · have hfind : (Change.perform t (.define (.symbol x) v)).globals.find? x = some v := by
      rw [find?_perform, Change.meaning?, if_pos rfl]
    have hmem : ∀ u, (x, u) ∈ (Change.perform t (.define (.symbol x) v)).userDefines ↔
        v = u ∧ u.isPrimitive = false := fun u => by
      rw [userDefines, Globals.mem_userDefines, hfind, Option.some.injEq]
    simp [hmem]

/-- A primitive that is overwritten is listed, a name that is bound to a primitive in the end is not. -/
theorem dump_changeAll_overwritten :
    let t := (fresh 9 false ∅).changeAll
      [.define (.symbol "b") .nil, .restore (.library .session), .define (.symbol "+") (.bool true),
        .define (.symbol "a") .nil, .define (.symbol "a") (.primitive .session .add)]
    let t' := (fresh 9 false ∅).changeAll
      [.restore (.library .session), .define (.symbol "a") (.primitive .session .add),
        .define (.symbol "+") (.bool true), .define (.string "+") .nil]
    t.userDefines = t'.userDefines ∧ (∃ text, t.dump = .ok text ∧ t'.dump = .ok text) ∧
      ("+", Value.bool true) ∈ t.userDefines ∧ ∀ v, ("a", v) ∉ t.userDefines := by
  intro t t'
  obtain ⟨hsame, -, hmem, -⟩ := dump_changeAll (fresh 9 false ∅) (fresh 9 false ∅)
    [.define (.symbol "b") .nil, .restore (.library .session), .define (.symbol "+") (.bool true),
      .define (.symbol "a") .nil, .define (.symbol "a") (.primitive .session .add)]
    [.restore (.library .session), .define (.symbol "a") (.primitive .session .add),
      .define (.symbol "+") (.bool true), .define (.string "+") .nil]
  simp only [List.foldl_cons, List.foldl_nil, Change.meaning?, Value.symbol.injEq] at hmem
  have hmeaning : ∀ x, t.globals.find? x = t'.globals.find? x := fun x => by
    simp only [t, t', find?_changeAll, List.foldl_cons, List.foldl_nil, Change.meaning?, Value.symbol.injEq,
      reduceCtorEq, if_false]
    split_ifs with ha hplus
    · exact absurd (ha.trans hplus.symm) (by decide)
    all_goals rfl
  obtain ⟨hdefines, -, -, hdump⟩ := hsame hmeaning
  refine ⟨hdefines, hdump ?_, (hmem _ _).2 ⟨rfl, rfl⟩, fun v hv => ?_⟩
  · rintro ⟨x, v⟩ hd
    obtain ⟨hv, hnot⟩ := (hmem x v).1 hd
    split_ifs at hv
    · cases hv
      cases hnot
    · cases hv
      exact ⟨_, rfl⟩
    · obtain ⟨p, rfl⟩ := Globals.library_eq_some hv
      cases hnot
  · obtain ⟨hv, hnot⟩ := (hmem _ v).1 hv
    cases hv
    cases hnot

end Session

end Lisplet
