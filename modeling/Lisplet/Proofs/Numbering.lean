import Lisplet.Proofs.Calls
import Lisplet.Proofs.Equivariance
import Lisplet.Proofs.Reading

/-!
# Identities are given once

Text has no identities, and evaluation gives each pair and each function that it makes the next one. So in
every state that a session comes to, all identities are below the next one (`Session.numbered_performAll`).
-/

namespace Lisplet

def Globals.Below (n : Nat) (globals : Globals) : Prop := ∀ x v, globals.find? x = some v → v.Below n

theorem Globals.Below.mono {n m : Nat} (hn : n ≤ m) {globals : Globals} (h : globals.Below n) : globals.Below m :=
  fun x v hx => (h x v hx).mono hn

theorem Globals.library_below (n : Nat) (owner : Owner) : (Globals.library owner).Below n := by
  intro x v h
  obtain ⟨p, rfl⟩ := Globals.library_eq_some h
  trivial

namespace World

variable {ρ : Nat → Nat} {w w' : World}

/-- The next identity is above all that there are in the tables. -/
def Numbered (w : World) : Prop := ∀ owner, (w.realm owner).globals.Below w.next

/-- A renaming that leaves the identities alone that there are leaves the tables alone. -/
theorem Numbered.renamed (h : w.Numbered) (hρ : ∀ i < w.next, ρ i = i) {next : Nat}
    (hnext : ∀ k, ρ (w.next + k) = next + k) :
    w.Renamed ρ { w with next } where
  realm owner := by
    refine ⟨List.forall₂_same.2 fun e he => ⟨rfl, ?_⟩, rfl, rfl⟩
    have hbelow := h owner e.1 e.2 (NameMap.find?_eq_some_iff.2 he)
    exact ⟨hbelow, (Value.rename_eq_self hρ hbelow).symm⟩
  next := hnext

theorem Renamed.numbered (h : w.Renamed ρ w') : w.Numbered := by
  intro owner x v hx
  have hfind := (h.realm owner).globals.find? x
  rw [hx] at hfind
  generalize (w'.realm owner).globals.find? x = found at hfind
  cases hfind with
  | some hv => exact hv.below

end World

/-- Evaluation makes nothing with an identity that it has not given. -/
theorem eval_numbered {w : World} (hw : w.Numbered) {s : Scope} (hs : s.Below w.next) {e : Value} (he : e.Below w.next)
    (depth : Nat) :
    match eval depth s e w with
    | .ok v w' => w.next ≤ w'.next ∧ w'.Numbered ∧ v.Below w'.next
    | .error _ w' => w.next ≤ w'.next ∧ w'.Numbered := by
  -- the evaluation goes along with itself
  have hsame : w.Renamed id w := hw.renamed (fun _ _ => rfl) fun _ => rfl
  have hend := Eval.eval_renamed Function.injective_id depth _ s e hs he w w le_rfl hsame
  generalize eval depth (s.rename id) (e.rename id) w = r' at hend
  generalize eval depth s e w = r at hend ⊢
  cases hend with
  | ok hn hw' hv => exact ⟨hn, hw'.numbered, hv.below⟩
  | error failure hn hw' => exact ⟨hn, hw'.numbered⟩

namespace Session

/-- The next identity is above all that there are in the tables, also in those to which `undo` goes back. -/
structure Numbered (s : Session) : Prop where
  world : s.world.Numbered
  history : ∀ globals ∈ s.history, globals.Below s.world.next

theorem Numbered.withWorld {s : Session} (h : s.Numbered) {w : World} (hnext : s.world.next ≤ w.next)
    (hw : w.Numbered) :
    Numbered { s with world := w } :=
  ⟨hw, fun globals hglobals => (h.history globals hglobals).mono hnext⟩

theorem Numbered.withGlobals {s : Session} (h : s.Numbered) {globals : Globals}
    (hglobals : globals.Below s.world.next) :
    (s.withGlobals globals).Numbered :=
  ⟨World.forall_modifyRealm h.world .session fun _ _ => hglobals, h.history⟩

abbrev Numbers {α : Type} (m : SessionM α) : Prop := Meets Numbered (fun _ => True) (fun _ => True) m

theorem numbers_evalExpr {e : Value} (he : e.Below 0) : Numbers (evalExpr e) := by
  intro s hs
  have heval := eval_numbered (s := .global .session) hs.world trivial (he.mono (Nat.zero_le _)) s.limit
  unfold evalExpr
  generalize Lisplet.eval s.limit (.global .session) e s.world = r at heval ⊢
  cases r with
  | ok v w => exact ⟨hs.withWorld heval.1 heval.2.1, trivial⟩
  | error failure w => exact ⟨hs.withWorld heval.1 heval.2, trivial⟩

theorem numbers_record {e : Value} (he : e.Below 0) : Numbers (record e) := by
  intro s hs
  have heval := numbers_evalExpr he s hs
  by_cases hwrites : s.Writes e
  · rw [record_of_writes hwrites]
    generalize evalExpr e s = r at heval ⊢
    cases r with
    | ok v s' => exact heval
    | error failure s' =>
      by_cases hbreak : failure.isBreakdown
      · simp only [hbreak, ↓reduceIte]
        exact heval
      · simp only [hbreak]
        exact heval
  · rw [record_of_not_writes hwrites]
    exact ⟨hs, trivial⟩

theorem legible_below : Legible fun _ v => v.Below 0 where
  nil _ := trivial
  bool _ _ := trivial
  double _ _ := trivial
  string _ _ := trivial
  symbol _ _ := trivial
  list {_ vs} h := by
    induction vs with
    | nil => trivial
    | cons v vs ih =>
      obtain ⟨hv, hvs⟩ := List.forall_mem_cons.1 h
      exact ⟨by simp, hv, ih hvs⟩

variable {s : Session}

theorem below_of_parse {code : String} {es : List Value} (h : s.parse code = .ok es) : ∀ e ∈ es, e.Below 0 := by
  have hread := legible_below.readText ⟨s.strict, s.limit⟩ code
  unfold parse at h
  cases hres : readText ⟨s.strict, s.limit⟩ code with
  | error failure =>
    rw [hres] at h
    cases h
  | ok vs =>
    rw [hres] at h hread
    cases h
    exact hread

theorem numbers_eval (code : String) : Numbers (Session.eval code) := by
  intro s hs
  rw [eval_eq]
  cases hparse : s.parse code with
  | error failure => exact ⟨hs, trivial⟩
  | ok es =>
    have hmeets := Meets.mapM_all fun e he => numbers_evalExpr (below_of_parse hparse e he)
    exact (hmeets.mono fun _ _ => trivial) s hs

theorem numbers_run (code : String) : Numbers (Session.run code) := by
  intro s hs
  rw [run_eq]
  cases hparse : s.parse code with
  | error failure => exact ⟨hs, trivial⟩
  | ok es =>
    cases es with
    | nil => exact ⟨hs, trivial⟩
    | cons e es =>
      have hmeets := Meets.mapM_all fun e he => numbers_record (below_of_parse hparse e he)
      exact (hmeets.mono fun _ _ => trivial) _ ⟨hs.world, List.forall_mem_cons.2 ⟨hs.world .session, hs.history⟩⟩

theorem Numbered.after {α : Type} {m : SessionM α} (hm : Numbers m) (hs : s.Numbered) : (s.after m).Numbered := by
  have hs' := hm s hs
  unfold Session.after
  generalize m s = r at hs' ⊢
  cases r with
  | ok a s' => exact hs'.1
  | error failure s' => exact hs'.1

theorem Numbered.perform (hs : s.Numbered) {c : Call}
    (hc : ∀ globals, c = .restore globals → globals.Below s.world.next) :
    (c.perform s).Numbered := by
  cases c with
  | eval code => exact hs.after (numbers_eval code)
  | run code => exact hs.after (numbers_run code)
  | undo =>
    rw [Call.perform, Session.undo]
    cases hhistory : s.history with
    | nil => exact hs
    | cons globals history =>
      have hglobals := hs.history
      rw [hhistory, List.forall_mem_cons] at hglobals
      have hs' := hs.withGlobals hglobals.1
      exact ⟨hs'.world, hglobals.2⟩
  | restore globals => exact hs.withGlobals (hc globals rfl)
  | dump | userDefines => exact hs

theorem numbered_create {settings : Settings} {wanted : Option Int} {files : NameMap String} {code : String}
    (h : create settings wanted files code = .ok s) : s.Numbered := by
  obtain ⟨limit, hlimit⟩ := exists_limit_of_create h
  have hfresh : (fresh limit settings.strictNumbers files).Numbered :=
    ⟨fun owner => by cases owner <;> exact Globals.library_below _ _, by simp [Session.fresh]⟩
  have heval := numbers_eval code _ hfresh
  rw [create, hlimit] at h
  dsimp only at h
  split at h
  · next hres =>
    cases h
    rw [hres] at heval
    exact heval.1
  · cases h

/-- Tables may be restored if their identities were given before, as those of all earlier tables were. -/
theorem numbered_performAll {settings : Settings} {wanted : Option Int} {files : NameMap String} {code : String}
    (h : create settings wanted files code = .ok s) {calls : List Call}
    (hcalls : ∀ done globals rest, calls = done ++ Call.restore globals :: rest →
      globals.Below (s.performAll done).world.next) :
    (s.performAll calls).Numbered := by
  induction calls using List.reverseRecOn with
  | nil => exact numbered_create h
  | append_singleton calls c ih =>
    have hs := ih fun done globals rest hsplit =>
      hcalls done globals (rest ++ [c]) (by rw [hsplit, List.append_assoc, List.cons_append])
    rw [performAll_append]
    refine hs.perform fun globals hc => hcalls calls globals [] ?_
    rw [hc]

end Session

end Lisplet
