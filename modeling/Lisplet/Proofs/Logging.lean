import Lisplet.Proofs.Batches
import Lisplet.Proofs.Simulation

/-!
# The log is only written

Evaluation adds lines to the log and never looks at it. `run_logged`: a batch that starts with other
lines in the log has the same outcomes and adds the same lines to them. Two evaluations that differ
in the lines logged before are a simulation (`Simulation.logged`).
-/

namespace Lisplet

/-- The world as it is when `lines` were logged before all that is in the log. -/
def World.behind (lines : List String) (w : World) : World :=
  w.modifyRealm .session fun r => { r with log := lines ++ r.log }

section
variable {lines : List String}

theorem World.behind_modifyRealm {w : World} {owner : Owner} {f : Realm → Realm}
    (hf : ∀ r : Realm, f { r with log := lines ++ r.log } = { f r with log := lines ++ (f r).log }) :
    (w.behind lines).modifyRealm owner f = (w.modifyRealm owner f).behind lines := by
  cases owner with
  | session => simp only [behind, modifyRealm, hf]
  | library => rfl

theorem World.realm_behind (w : World) (owner : Owner) :
    ((w.behind lines).realm owner).globals = (w.realm owner).globals ∧
      ((w.behind lines).realm owner).files = (w.realm owner).files := by
  cases owner <;> exact ⟨rfl, rfl⟩

/-- The invariant that says nothing. -/
def Invariant.vacuous : Invariant :=
  .ofState (fun _ => True) (fun _ => trivial) (fun _ => trivial) (fun _ => trivial) (fun _ => trivial)

/-- The two sides are the same but for the lines logged before. -/
def Simulation.logged (lines : List String) : Simulation where
  __ := Invariant.vacuous.diagonal
  state w w' := w = w'.behind lines
  state_next := by
    rintro _ w' rfl
    exact ⟨rfl, rfl⟩
  state_line := by
    rintro _ w' owner line rfl
    exact World.behind_modifyRealm fun r => by simp only [List.append_assoc]
  state_file := by
    rintro _ w' owner name text rfl
    exact World.behind_modifyRealm fun r => rfl
  files_eq := by
    rintro _ w' owner rfl
    exact (w'.realm_behind owner).2
  state_global := by
    rintro _ w' s _ id head tail name e v _ rfl ⟨rfl, -⟩ _ _ ⟨rfl, -⟩
    exact World.behind_modifyRealm fun r => rfl
  lookup := by
    rintro s _ name ⟨rfl, -⟩
    unfold Eval.lookup
    cases s.find? name with
    | some v => exact .pure ⟨rfl, trivial⟩
    | none =>
      refine .get_bind ?_
      rintro _ w' rfl
      rw [(w'.realm_behind s.owner).1]
      cases (w'.realm s.owner).globals.find? name with
      | some v => exact .pure ⟨rfl, trivial⟩
      | none => exact .throw _

theorem eval_logged (lines : List String) (depth : Nat) (s : Scope) (e : Value) :
    Commutes (World.behind lines) (eval depth s e) := by
  intro w
  have hends := (Simulation.logged lines).eval depth s s e ⟨rfl, trivial, trivial⟩ (w.behind lines) w rfl
  generalize eval depth s e (w.behind lines) = r at hends ⊢
  generalize eval depth s e w = r' at hends ⊢
  cases hends with
  | ok hs hv =>
    obtain ⟨rfl, -⟩ := hv
    cases hs
    rfl
  | error failure hs =>
    cases hs
    rfl

end

namespace Session

/-- The session as it is when `lines` were logged before all that is in the log. -/
def behind (lines : List String) (s : Session) : Session := { s with world := s.world.behind lines }

/-- The session with other lines in its log. -/
def withLog (log : List String) (s : Session) : Session :=
  { s with world := s.world.modifyRealm .session fun r => { r with log } }

theorem behind_withLog (s : Session) : (s.withLog []).behind s.log = s := by
  simp only [behind, World.behind, withLog, World.modifyRealm, List.append_nil, log]

/-- What is undone does not depend on the log, which stays. -/
theorem undo_withLog (log : List String) (s : Session) :
    (s.withLog log).undo = (s.undo.1, s.undo.2.withLog log) := by
  unfold undo
  rw [show (s.withLog log).history = s.history from rfl]
  cases s.history <;> rfl

theorem run_logged (lines : List String) (code : String) : Commutes (behind lines) (run code) := by
  have hexpr : ∀ e, Commutes (behind lines) (evalExpr e) := by
    intro e s
    unfold evalExpr
    rw [show (s.behind lines).world = s.world.behind lines from rfl, eval_logged,
      show (s.behind lines).limit = s.limit from rfl]
    cases Lisplet.eval s.limit (.global .session) e s.world <;> rfl
  -- reading does not depend on the log, and neither does the table that is kept in the history
  intro s
  rw [run_eq, run_eq, show (s.behind lines).parse code = s.parse code from rfl]
  cases s.parse code with
  | error failure => rfl
  | ok es =>
    cases es with
    | nil => rfl
    | cons e es =>
      exact Commutes.mapM (fun e => record_commutes (hexpr e) fun _ => rfl) { s with history := s.globals :: s.history }

end Session

end Lisplet
