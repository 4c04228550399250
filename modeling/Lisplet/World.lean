import Lisplet.Scope

/-!
# What evaluation can change

Each owner has a realm: its global table, its files and what it logged. Evaluation works on the
realms of all owners, and numbers the pairs and functions it makes.
-/

namespace Lisplet

/-- A table of global names. -/
abbrev Globals := NameMap Value

/-- The state that belongs to one owner. -/
structure Realm where
  globals : Globals
  files : NameMap String
  /-- The lines logged, in the order of logging. -/
  log : List String

/-- The global table that binds exactly the primitives. -/
def Globals.library (owner : Owner) : Globals :=
  .ofList (Primitive.all.map fun p => (p.name, .primitive owner p))

theorem Globals.library_eq_some {owner : Owner} {name : String} {v : Value}
    (h : (Globals.library owner).find? name = some v) : ∃ p, v = .primitive owner p := by
  obtain ⟨p, -, hp⟩ := List.mem_map.1 (NameMap.mem_ofList (NameMap.find?_eq_some_iff.1 h))
  exact ⟨p, (Prod.mk.inj hp).2.symm⟩

/-- The entries of a table that are not primitives, in the order of their names. -/
def Globals.userDefines (globals : Globals) : List (String × Value) :=
  globals.entries.filter fun (_, v) => !v.isPrimitive

/-- A realm that knows the primitives and nothing else. -/
def Realm.fresh (owner : Owner) (files : NameMap String) : Realm := ⟨.library owner, files, []⟩

/-- The state of evaluation. -/
structure World where
  session : Realm
  library : Realm
  /-- The next identity. -/
  next : Nat

namespace World

def realm (w : World) : Owner → Realm
  | .session => w.session
  | .library => w.library

def modifyRealm (w : World) (owner : Owner) (f : Realm → Realm) : World :=
  match owner with
  | .session => { w with session := f w.session }
  | .library => { w with library := f w.library }

theorem forall_modifyRealm {p : Globals → Prop} {w : World} (h : ∀ owner, p (w.realm owner).globals) (owner : Owner)
    {f : Realm → Realm} (hf : ∀ r : Realm, p r.globals → p (f r).globals) :
    ∀ owner', p ((w.modifyRealm owner f).realm owner').globals := by
  intro owner'
  cases owner with
  | session =>
    cases owner' with
    | session => exact hf _ (h .session)
    | library => exact h .library
  | library =>
    cases owner' with
    | session => exact h .session
    | library => exact hf _ (h .library)

/-- The state around a realm, in which identities below `next` are taken. -/
def ofRealm (session : Realm) (next : Nat) : World := ⟨session, .fresh .library ∅, next⟩

end World

/-- A computation that may fail; what it changed before stays changed. -/
abbrev Eval := EStateM Failure World

namespace Eval

/-- An identity that nothing has yet. -/
def identity : Eval Identity :=
  modifyGet fun w => (some w.next, { w with next := w.next + 1 })

/-- What a name is bound to in the globals of an owner. -/
def global (owner : Owner) (name : String) : Eval Value := do
  match ((← get).realm owner).globals.find? name with
  | some v => return v
  | none => throw (.unbound name)

/-- What a name means in a scope: the innermost binding, else the global one. -/
def lookup (scope : Scope) (name : String) : Eval Value :=
  match scope.find? name with
  | some v => pure v
  | none => global scope.owner name

/-- Binds a global name, whatever the scope. -/
def define (owner : Owner) (name : String) (v : Value) : Eval Value := do
  modify (·.modifyRealm owner fun r => { r with globals := r.globals.insert name v })
  return v

/-- Binds the global name that a symbol gives. -/
def defineValue (owner : Owner) (name v : Value) : Eval Value :=
  match name with
  | .symbol x => define owner x v
  | other => do throw (.notDefinable (← MonadExcept.ofExcept other.shown))

end Eval

end Lisplet
