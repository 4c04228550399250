import Lisplet.Proofs.Meets
import Lisplet.Reader

/-!
# What reading can give

`Legible.readText`: a property of values, by the number of lists that may still be opened, holds of
all that is read if it holds of atoms and goes over from the elements to the list. The values of an
open list have one list more around them than those of the list above, so the property of the whole
stack (`Legible.Open`) is read from the innermost list outwards, with one more list of room each time.
-/

namespace Lisplet

def Failure.ofReading (failure : Failure) : Prop := failure = .exhausted ∨ ∃ fault, failure = .unreadable fault

/-- What may stand where so many lists may still be opened: all atoms that are read, and lists of what
may stand in them. -/
structure Legible (may : Nat → Value → Prop) : Prop where
  nil : ∀ room, may room .nil
  bool : ∀ room b, may room (.bool b)
  double : ∀ room x, may room (.double x)
  string : ∀ room s, may room (.string s)
  symbol : ∀ room name, may room (.symbol name)
  list : ∀ {room vs}, (∀ v ∈ vs, may room v) → may (room + 1) (.ofList vs)

namespace Legible

variable {may : Nat → Value → Prop}

/-- The lists that are open, the innermost first, hold what may stand in them. -/
def Open (may : Nat → Value → Prop) : Nat → List (List Value) → Prop
  | _, [] => True
  | room, vs :: below => (∀ v ∈ vs, may room v) ∧ Open may (room + 1) below

/-- What a lexeme leads to, when so many lists may be opened outside of all. -/
def Reached (may : Nat → Value → Prop) (total : Nat) : Progress → Prop
  | .value v => may total v
  | .pending n => Open may n.room n.opened ∧ n.room + n.opened.length = total

theorem deliver {n : Nesting} {v : Value} (hopen : Open may n.room n.opened) (hv : may n.room v) :
    Reached may (n.room + n.opened.length) (n.deliver v) := by
  obtain ⟨room, opened⟩ := n
  cases opened with
  | nil => exact hv
  | cons top below => exact ⟨⟨List.forall_mem_cons.2 ⟨hv, hopen.1⟩, hopen.2⟩, rfl⟩

variable (h : Legible may)
include h

theorem readLiteral (strict : Bool) (cs : List Char) (start room : Nat) :
    Settles (may room) Failure.ofReading (readLiteral strict cs start) := by
  unfold Lisplet.readLiteral
  split
  · split
    · exact .inr ⟨_, rfl⟩
    · exact h.double room _
  · split_ifs
    · exact h.bool room _
    · exact h.bool room _
    · exact h.nil room
    · exact h.symbol room _

theorem accept {n : Nesting} (hopen : Open may n.room n.opened) (strict : Bool) (l : Lexeme) :
    Settles (Reached may (n.room + n.opened.length)) Failure.ofReading (n.accept strict l) := by
  obtain ⟨room, opened⟩ := n
  unfold Nesting.accept
  split
  · cases room with
    | zero => exact .inl rfl
    | succ room =>
      refine ⟨⟨by simp, hopen⟩, ?_⟩
      simp only [List.length_cons]
      omega
  · cases opened with
    | nil => exact .inr ⟨_, rfl⟩
    | cons top below =>
      have hlist : may (room + 1) (.ofList top.reverse) := h.list fun v hv => hopen.1 v (List.mem_reverse.1 hv)
      have hreached := deliver (n := ⟨room + 1, below⟩) hopen.2 hlist
      rw [show room + (top :: below).length = room + 1 + below.length by simp only [List.length_cons]; omega]
      exact hreached
  · exact deliver hopen (h.string room _)
  · exact .inr ⟨_, rfl⟩
  · next cs _ =>
    have hliteral := h.readLiteral strict cs l.start room
    cases hread : Lisplet.readLiteral strict cs l.start with
    | ok v =>
      rw [hread] at hliteral
      exact deliver hopen hliteral
    | error failure =>
      rw [hread] at hliteral
      exact hliteral

theorem readAll (options : ReadOptions) (finish : Nat) (n : Nesting) (ls : List Lexeme)
    (hopen : Open may n.room n.opened) (hroom : n.room + n.opened.length = options.room) :
    (∀ v ∈ (readAll options finish n ls).values, may options.room v) ∧
      ∀ failure, (readAll options finish n ls).failure = some failure → failure.ofReading := by
  induction ls generalizing n with
  | nil =>
    unfold Lisplet.readAll
    split
    · exact ⟨by simp, by simp⟩
    · refine ⟨by simp, ?_⟩
      rintro _ ⟨⟩
      exact .inr ⟨_, rfl⟩
  | cons l ls ih =>
    have haccept := h.accept hopen options.strict l
    rw [hroom] at haccept
    cases hres : n.accept options.strict l with
    | error failure =>
      rw [hres] at haccept
      simp only [Lisplet.readAll, hres]
      refine ⟨by simp, ?_⟩
      rintro _ ⟨⟩
      exact haccept
    | ok progress =>
      rw [hres] at haccept
      cases progress with
      | value v =>
        obtain ⟨hvalues, hfailure⟩ := ih ⟨options.room, []⟩ trivial rfl
        simp only [Lisplet.readAll, hres]
        exact ⟨List.forall_mem_cons.2 ⟨haccept, hvalues⟩, hfailure⟩
      | pending n' =>
        simp only [Lisplet.readAll, hres]
        exact ih n' haccept.1 haccept.2

theorem readText (options : ReadOptions) (text : String) :
    Settles (fun vs => ∀ v ∈ vs, may options.room v) Failure.ofReading (readText options text) := by
  unfold Lisplet.readText Reader.all
  dsimp only
  obtain ⟨hvalues, hfailure⟩ := h.readAll options (Reader.finish ⟨text.toList, 0, options⟩) ⟨options.room, []⟩
    (Reader.lexemes ⟨text.toList, 0, options⟩) trivial rfl
  split
  · exact hfailure _ ‹_›
  · exact hvalues

end Legible

end Lisplet
