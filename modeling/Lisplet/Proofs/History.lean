import Lisplet.Proofs.Calls

/-!
# Undo

`undo_performAll`: behind a batch and calls that undo each of their own batches, undo goes back to the
table and the history from before the batch. The history is then the table from before the batch on
top of the history from before (`history_performAll`), because each call pushes one table, pops one
or leaves the history alone (`history_perform`). Files and log only ever grow (`Realm.Grown`).
-/

namespace Lisplet

/-- Since `r`, lines were logged and files written, and nothing was taken back. -/
structure Realm.Grown (r r' : Realm) : Prop where
  log : r.log <+: r'.log
  files : ∃ writes : List (String × String),
    r'.files = writes.foldl (fun files (name, text) => files.insert name text) r.files

namespace Realm.Grown

variable {r r' r'' : Realm}

theorem of_eq (hlog : r'.log = r.log) (hfiles : r'.files = r.files) : r.Grown r' where
  log := by rw [hlog]
  files := ⟨[], hfiles⟩

theorem refl : r.Grown r := of_eq rfl rfl

theorem trans (h : r.Grown r') (h' : r'.Grown r'') : r.Grown r'' where
  log := h.log.trans h'.log
  files := by
    obtain ⟨writes, hwrites⟩ := h.files
    obtain ⟨writes', hwrites'⟩ := h'.files
    exact ⟨writes ++ writes', by rw [hwrites', hwrites, List.foldl_append]⟩

theorem line (line : String) : r.Grown { r with log := r.log ++ [line] } where
  log := List.prefix_append ..
  files := ⟨[], rfl⟩

theorem file (name text : String) : r.Grown { r with files := r.files.insert name text } where
  log := List.prefix_rfl
  files := ⟨[(name, text)], rfl⟩

theorem modifyRealm {w : World} (h : r.Grown w.session) (owner : Owner) {f : Realm → Realm}
    (hf : ∀ r : Realm, r.Grown (f r)) : r.Grown (w.modifyRealm owner f).session := by
  cases owner with
  | session => exact h.trans (hf w.session)
  | library => exact h

end Realm.Grown

/-- Evaluation takes nothing back that was logged or written since `r`. -/
def Invariant.grown (r : Realm) : Invariant :=
  .ofState (fun w => r.Grown w.session) (fun hw => hw)
    (fun hw => hw.modifyRealm _ fun _ => .line _)
    (fun hw => hw.modifyRealm _ fun _ => .file _ _)
    (fun hw => hw.modifyRealm _ fun _ => .of_eq rfl rfl)

namespace Session

namespace Call

def isUndo : Call → Bool
  | .undo => true
  | _ => false

def isEffective (s : Session) : Call → Bool
  | .run code => s.reads code
  | _ => false

def evaluates : Call → Bool
  | .eval _ | .run _ => true
  | _ => false

end Call

section
variable {s : Session} {c : Call}

/-- A call changes the world, and the history: it pushes a table, pops one or leaves it alone. -/
theorem perform_grown (c : Call) (s : Session) :
    ∃ world history, s.world.session.Grown world.session ∧ c.perform s = { s with world, history } ∧
      history =
        if c.isEffective s then s.globals :: s.history else if c.isUndo then s.history.tail else s.history := by
  have hworld : (Invariant.grown s.world.session).state s.world := Realm.Grown.refl
  have hcode : ∀ e, (Invariant.grown s.world.session).Expects _ e := fun e => .of_code trivial trivial
  cases c with
  | eval code =>
    obtain ⟨hgrown, heq⟩ : (Invariant.grown s.world.session).Within s (Call.perform s (.eval code)) :=
      Invariant.perform_eval hworld fun _ _ e _ => hcode e
    exact ⟨_, _, hgrown, heq, rfl⟩
  | run code =>
    by_cases hreads : s.reads code
    · obtain ⟨hgrown, heq⟩ := Invariant.perform_run hworld (fun _ _ e _ => hcode e) hreads
      exact ⟨_, _, hgrown, heq, by simp [Call.isEffective, hreads]⟩
    · rw [Bool.not_eq_true] at hreads
      exact ⟨_, _, .refl, perform_run_idle hreads, by simp [Call.isEffective, Call.isUndo, hreads]⟩
  | undo =>
    cases hhistory : s.history with
    | nil =>
      refine ⟨s.world, s.history, .refl, ?_, by simp [Call.isEffective, Call.isUndo, hhistory]⟩
      simp only [Call.perform, Session.undo, hhistory]
      rw [← hhistory]
    | cons globals history =>
      refine ⟨(s.withGlobals globals).world, history, .of_eq rfl rfl, ?_, by simp [Call.isEffective, Call.isUndo]⟩
      simp only [Call.perform, Session.undo, hhistory, withGlobals]
  | restore globals => exact ⟨(s.withGlobals globals).world, _, .of_eq rfl rfl, rfl, rfl⟩
  | dump | userDefines => exact ⟨_, _, .refl, rfl, rfl⟩

theorem history_perform : (c.perform s).history =
    if c.isEffective s then s.globals :: s.history else if c.isUndo then s.history.tail else s.history := by
  obtain ⟨world, history, -, heq, rfl⟩ := perform_grown c s
  rw [heq]

theorem parse_perform (code : String) : (c.perform s).parse code = s.parse code := by
  obtain ⟨world, history, -, heq, -⟩ := perform_grown c s
  rw [heq]
  rfl

theorem isEffective_perform (c' : Call) : c'.isEffective (c.perform s) = c'.isEffective s := by
  cases c' with
  | run code => simp only [Call.isEffective, reads, parse_perform]
  | _ => rfl

theorem grown_performAll (calls : List Call) : s.world.session.Grown (s.performAll calls).world.session := by
  induction calls generalizing s with
  | nil => exact .refl
  | cons c calls ih =>
    obtain ⟨world, history, hgrown, heq, -⟩ := perform_grown c s
    have hstep : s.world.session.Grown (c.perform s).world.session := by rw [heq]; exact hgrown
    exact hstep.trans ih

/-- Only evaluation writes files and log lines. -/
theorem files_log_perform (h : c.evaluates = false) : (c.perform s).files = s.files ∧ (c.perform s).log = s.log := by
  cases c with
  | eval | run => cases h
  | undo =>
    rw [Call.perform, Session.undo]
    cases s.history <;> exact ⟨rfl, rfl⟩
  | restore | dump | userDefines => exact ⟨rfl, rfl⟩

/-- Calls that undo no more than `tables` and their own batches leave what is below untouched. -/
theorem history_performAll {tables rest : List Globals} {calls : List Call} (hs : s.history = tables ++ rest)
    (hcalls : ∀ p, p <+: calls → p.countP (·.isUndo) ≤ p.countP (·.isEffective s) + tables.length) :
    ∃ tables', (s.performAll calls).history = tables' ++ rest ∧
      tables'.length + calls.countP (·.isUndo) = tables.length + calls.countP (·.isEffective s) := by
  induction calls generalizing s tables with
  | nil => exact ⟨tables, hs, rfl⟩
  | cons c calls ih =>
    -- The induction goes on with `tables'` on top, of which the later calls may undo as many.
    have hstep : ∀ tables' : List Globals, (c.perform s).history = tables' ++ rest →
        tables'.length + [c].countP (·.isUndo) = tables.length + [c].countP (·.isEffective s) →
        ∃ tables', (s.performAll (c :: calls)).history = tables' ++ rest ∧
          tables'.length + (c :: calls).countP (·.isUndo) =
            tables.length + (c :: calls).countP (·.isEffective s) := by
      intro tables' hs' hlen
      obtain ⟨tables'', hhistory, hcount⟩ := ih hs' fun p hp => by
        have := hcalls (c :: p) (List.cons_prefix_cons.2 ⟨rfl, hp⟩)
        simp only [isEffective_perform]
        rw [← List.singleton_append, List.countP_append, List.countP_append] at this
        omega
      refine ⟨tables'', hhistory, ?_⟩
      simp only [isEffective_perform] at hcount
      rw [← List.singleton_append, List.countP_append, List.countP_append]
      omega
    have hhistory := history_perform (s := s) (c := c)
    by_cases heff : c.isEffective s
    · have hundo : c.isUndo = false := by cases c <;> first | rfl | cases heff
      rw [if_pos heff, hs] at hhistory
      exact hstep (s.globals :: tables) hhistory (by simp [heff, hundo])
    · rw [if_neg heff] at hhistory
      by_cases hundo : c.isUndo
      · rw [if_pos hundo, hs] at hhistory
        have hone := hcalls [c] (by simp)
        cases tables with
        | nil => simp [heff, hundo] at hone
        | cons table tables => exact hstep tables hhistory (by simp [heff, hundo])
      · rw [if_neg hundo, hs] at hhistory
        exact hstep tables hhistory (by simp [heff, hundo])

end

/-- Undo behind a batch, with all later batches undone, goes back to before the batch, but keeps what
was logged and written; and code without expressions changes nothing. -/
theorem undo_performAll (s : Session) (code : String) :
    ((∃ e es, s.parse code = .ok (e :: es)) →
      ∀ w : List Call, (∀ p, p <+: w → p.countP (·.isUndo) ≤ p.countP (·.isEffective s)) →
        w.countP (·.isUndo) = w.countP (·.isEffective s) →
        ∃ undone, (s.performAll (.run code :: w)).undo = (true, undone) ∧
          undone.globals = s.globals ∧ undone.history = s.history ∧
          undone.files = (s.performAll (.run code :: w)).files ∧ undone.log = (s.performAll (.run code :: w)).log ∧
          (∀ u v, Call.run code :: w = u ++ v → (s.performAll u).world.session.Grown undone.world.session) ∧
          ∀ c ∈ w, c.evaluates = false → ∀ t : Session, (c.perform t).files = t.files ∧ (c.perform t).log = t.log) ∧
    ((¬ ∃ e es, s.parse code = .ok (e :: es)) → Call.perform s (.run code) = s) := by
  rw [← reads_iff]
  refine ⟨fun hreads w hprefix htotal => ?_, fun hreads => perform_run_idle (by simpa using hreads)⟩
  have hrun : (Call.perform s (.run code)).history = [] ++ s.globals :: s.history := by
    rw [history_perform, Call.isEffective, if_pos hreads, List.nil_append]
  obtain ⟨tables, hhistory, hlen⟩ := history_performAll hrun fun p hp => by
    simpa only [isEffective_perform, List.length_nil, Nat.add_zero] using hprefix p hp
  simp only [isEffective_perform, htotal, List.length_nil, Nat.zero_add, Nat.add_eq_right] at hlen
  obtain rfl : tables = [] := List.length_eq_zero_iff.1 hlen
  rw [List.nil_append] at hhistory
  have hperform : s.performAll (.run code :: w) = (Call.perform s (.run code)).performAll w := rfl
  rw [hperform, Session.undo, hhistory]
  refine ⟨_, rfl, rfl, rfl, rfl, rfl, fun u v huv => ?_, fun c _ hc t => files_log_perform hc⟩
  have hgrown := grown_performAll (s := s.performAll u) v
  rw [← performAll_append, ← huv] at hgrown
  exact hgrown.trans (.of_eq rfl rfl)

/-- An evaluation that fails, a batch that fails in part, a restored table, code that cannot be read, and
an undo of the batch. -/
theorem undo_performAll_nested :
    ∃ undone, ((fresh 9 false ∅).performAll
      [.run "(define x true)", .eval "y", .run "(define x null) y", .restore ∅, .run ")", .undo]).undo =
        (true, undone) ∧
      undone.globals = .library .session ∧ undone.history = [] := by
  obtain ⟨undone, hundo, hglobals, hhistory, -⟩ := (undo_performAll (fresh 9 false ∅) "(define x true)").1
    (reads_iff.1 (by decide)) [.eval "y", .run "(define x null) y", .restore ∅, .run ")", .undo]
    (fun p hp => by
      have hp := List.mem_inits p _ |>.2 hp
      simp only [List.inits, List.map, List.mem_cons, List.not_mem_nil, or_false] at hp
      rcases hp with rfl | rfl | rfl | rfl | rfl | rfl <;> decide)
    (by decide)
  exact ⟨undone, hundo, hglobals, hhistory⟩

end Session

end Lisplet
