import Lisplet.Proofs.Runs
import Mathlib

/-!
# Steps that keep an invariant

`Settles`: what holds of the result of a computation or of its failure. `Meets`: the same of a
computation with state, which moreover keeps an invariant of the state, also when it fails. Both
hold of a computation if they hold of its parts.
-/

namespace Lisplet

variable {ε σ α β : Type}

/-- `post` holds of the result, or `fails` of the failure. -/
def Settles (post : α → Prop) (fails : ε → Prop) : Except ε α → Prop
  | .ok a => post a
  | .error e => fails e

namespace Settles

variable {post post' : α → Prop} {fails : ε → Prop} {x : Except ε α}

theorem mono (hpost : ∀ a, post a → post' a) (h : Settles post fails x) : Settles post' fails x := by
  cases x with
  | ok a => exact hpost a h
  | error e => exact h

theorem imp {fails' : ε → Prop} (hfails : ∀ e, fails e → fails' e) (h : Settles post fails x) :
    Settles post fails' x := by
  cases x with
  | ok a => exact h
  | error e => exact hfails e h

theorem bind {goal : β → Prop} {f : α → Except ε β} (hx : Settles post fails x)
    (hf : ∀ a, post a → Settles goal fails (f a)) : Settles goal fails (x >>= f) := by
  cases x with
  | ok a => exact hf a hx
  | error e => exact hx

theorem exists_ok (h : Settles post (fun _ => False) x) : ∃ a, x = .ok a := by
  cases x with
  | ok a => exact ⟨a, rfl⟩
  | error e => exact absurd h id

theorem mapM {related : α → β → Prop} {f : α → Except ε β} {as : List α}
    (h : ∀ a ∈ as, Settles (related a) fails (f a)) : Settles (List.Forall₂ related as) fails (as.mapM f) := by
  induction as with
  | nil => exact .nil
  | cons a as ih =>
    rw [List.mapM_cons]
    refine (h a (List.mem_cons_self ..)).bind fun b hb => ?_
    refine (ih fun a' ha' => h a' (List.mem_cons_of_mem _ ha')).bind fun bs hbs => ?_
    exact .cons hb hbs

theorem mapM_true {f : α → Except ε β} {as : List α} (h : ∀ a ∈ as, Settles (fun _ => True) fails (f a)) :
    Settles (fun _ => True) fails (as.mapM f) :=
  (mapM h).mono fun _ _ => trivial

end Settles

/-- Started where `inv` holds, `m` ends where `inv` holds, with a result of which `post` holds or a
failure of which `fails` holds. -/
def Meets (inv : σ → Prop) (post : α → Prop) (fails : ε → Prop) (m : EStateM ε σ α) : Prop :=
  ∀ s, inv s →
    match m s with
    | .ok a s' => inv s' ∧ post a
    | .error e s' => inv s' ∧ fails e

namespace Meets

variable {inv : σ → Prop} {post : α → Prop} {goal : β → Prop} {fails : ε → Prop} {m : EStateM ε σ α}

theorem pure {a : α} (h : post a) : Meets inv post fails (Pure.pure a) := fun _ hs => ⟨hs, h⟩

theorem throw {e : ε} (h : fails e) : Meets inv post fails (throw e) := fun _ hs => ⟨hs, h⟩

theorem bind {f : α → EStateM ε σ β} (hm : Meets inv post fails m)
    (hf : ∀ a, post a → Meets inv goal fails (f a)) : Meets inv goal fails (m >>= f) := by
  intro s hs
  have hm := hm s hs
  cases hres : m s with
  | ok a s' =>
    rw [hres] at hm
    rw [bind_of_ok hres]
    exact hf a hm.2 s' hm.1
  | error e s' =>
    rw [hres] at hm
    rw [bind_of_error hres]
    exact hm

theorem ofExcept {x : Except ε α} (h : Settles post fails x) : Meets inv post fails (MonadExcept.ofExcept x) := by
  cases x with
  | ok a => exact pure h
  | error e => exact throw h

theorem mono {post' : α → Prop} (hpost : ∀ a, post a → post' a) (h : Meets inv post fails m) :
    Meets inv post' fails m := by
  intro s hs
  have h := h s hs
  cases hres : m s with
  | ok a s' =>
    rw [hres] at h
    exact ⟨h.1, hpost a h.2⟩
  | error e s' =>
    rw [hres] at h
    exact h

theorem get_bind {f : σ → EStateM ε σ β} (hf : ∀ s, inv s → Meets inv goal fails (f s)) :
    Meets inv goal fails (get >>= f) :=
  fun s hs => hf s hs s hs

theorem modify_bind {u : σ → σ} {f : Unit → EStateM ε σ β} (hu : ∀ s, inv s → inv (u s))
    (hf : Meets inv goal fails (f ())) : Meets inv goal fails (modify u >>= f) :=
  fun s hs => hf (u s) (hu s hs)

theorem mapM {related : α → β → Prop} {f : α → EStateM ε σ β} {as : List α}
    (h : ∀ a ∈ as, Meets inv (related a) fails (f a)) :
    Meets inv (List.Forall₂ related as) fails (as.mapM f) := by
  induction as with
  | nil => exact pure .nil
  | cons a as ih =>
    rw [List.mapM_cons]
    refine (h a (List.mem_cons_self ..)).bind fun b hb => ?_
    refine (ih fun a' ha' => h a' (List.mem_cons_of_mem _ ha')).bind fun bs hbs => ?_
    exact pure (.cons hb hbs)

theorem mapM_all {f : α → EStateM ε σ β} {as : List α} (h : ∀ a ∈ as, Meets inv goal fails (f a)) :
    Meets inv (fun bs => ∀ b ∈ bs, goal b) fails (as.mapM f) := by
  refine (mapM h).mono fun bs hbs => ?_
  induction hbs with
  | nil => simp
  | cons hb _ ih => exact List.forall_mem_cons.2 ⟨hb, ih fun a ha => h a (List.mem_cons_of_mem _ ha)⟩

end Meets

end Lisplet
