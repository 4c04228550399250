import Lisplet.Proofs.Runs
import Mathlib

/-!
# Two runs side by side

`Paired`: two computations both give results, which are related, or fail for the same reason.
`Coupled`: the same of two computations with state that start in related states, and moreover end in
related states, also when they fail.
-/

namespace Lisplet

variable {ε σ α β α' β' : Type}

inductive Paired (post : α → α' → Prop) : Except ε α → Except ε α' → Prop
  | ok {a : α} {a' : α'} (h : post a a') : Paired post (.ok a) (.ok a')
  | error (e : ε) : Paired post (.error e) (.error e)

namespace Paired

variable {post : α → α' → Prop} {goal : β → β' → Prop} {x : Except ε α} {x' : Except ε α'}

theorem bind {f : α → Except ε β} {f' : α' → Except ε β'} (hx : Paired post x x')
    (hf : ∀ a a', post a a' → Paired goal (f a) (f' a')) : Paired goal (x >>= f) (x' >>= f') := by
  cases hx with
  | ok h => exact hf _ _ h
  | error e => exact .error e

theorem of_eq {post : α → α → Prop} (h : ∀ a, post a a) (x : Except ε α) : Paired post x x := by
  cases x with
  | ok a => exact .ok (h a)
  | error e => exact .error e

end Paired

/-- The two ends of a pair of runs. -/
inductive Ends (rel : σ → σ → Prop) (post : α → α' → Prop) : EStateM.Result ε σ α → EStateM.Result ε σ α' → Prop
  | ok {a : α} {a' : α'} {s s' : σ} (hs : rel s s') (h : post a a') : Ends rel post (.ok a s) (.ok a' s')
  | error (e : ε) {s s' : σ} (hs : rel s s') : Ends rel post (.error e s) (.error e s')

theorem Ends.bind {rel : σ → σ → Prop} {post : α → α' → Prop} {goal : β → β' → Prop} {m : EStateM ε σ α}
    {m' : EStateM ε σ α'} {f : α → EStateM ε σ β} {f' : α' → EStateM ε σ β'} {s s' : σ}
    (h : Ends rel post (m s) (m' s'))
    (hf : ∀ a a' t t', post a a' → rel t t' → m s = .ok a t → Ends rel goal (f a t) (f' a' t')) :
    Ends rel goal ((m >>= f) s) ((m' >>= f') s') := by
  show Ends rel goal (EStateM.bind m f s) (EStateM.bind m' f' s')
  unfold EStateM.bind
  generalize m s = r at h hf
  generalize m' s' = r' at h
  cases h with
  | ok ht ha => exact hf _ _ _ _ ha ht rfl
  | error e ht => exact .error e ht

def Coupled (rel : σ → σ → Prop) (post : α → α' → Prop) (m : EStateM ε σ α) (m' : EStateM ε σ α') : Prop :=
  ∀ s s', rel s s' → Ends rel post (m s) (m' s')

namespace Coupled

variable {rel : σ → σ → Prop} {post : α → α' → Prop} {goal : β → β' → Prop}
  {m : EStateM ε σ α} {m' : EStateM ε σ α'}

theorem pure {a : α} {a' : α'} (h : post a a') : Coupled rel post (Pure.pure a : EStateM ε σ α) (Pure.pure a') :=
  fun _ _ hs => .ok hs h

theorem throw (e : ε) : Coupled rel post (throw e : EStateM ε σ α) (throw e : EStateM ε σ α') :=
  fun _ _ hs => .error e hs

theorem bind {f : α → EStateM ε σ β} {f' : α' → EStateM ε σ β'} (hm : Coupled rel post m m')
    (hf : ∀ a a', post a a' → Coupled rel goal (f a) (f' a')) : Coupled rel goal (m >>= f) (m' >>= f') :=
  fun s s' hs => (hm s s' hs).bind fun a a' t t' ha ht _ => hf a a' ha t t' ht

theorem ofExcept {x : Except ε α} {x' : Except ε α'} (h : Paired post x x') :
    Coupled rel post (MonadExcept.ofExcept x : EStateM ε σ α) (MonadExcept.ofExcept x') := by
  cases h with
  | ok h => exact pure h
  | error e => exact throw e

/-- A computation without state comes out the same on both sides. -/
theorem ofExcept_bind {γ : Type} (x : Except ε γ) {f : γ → EStateM ε σ β} {f' : γ → EStateM ε σ β'}
    (hf : ∀ c, x = .ok c → Coupled rel goal (f c) (f' c)) :
    Coupled rel goal (MonadExcept.ofExcept x >>= f) (MonadExcept.ofExcept x >>= f') := by
  cases x with
  | ok c => exact hf c rfl
  | error e => exact throw e

theorem get_bind {f : σ → EStateM ε σ β} {f' : σ → EStateM ε σ β'}
    (hf : ∀ s s', rel s s' → Coupled rel goal (f s) (f' s')) : Coupled rel goal (get >>= f) (get >>= f') :=
  fun s s' hs => hf s s' hs s s' hs

theorem modify_bind {u u' : σ → σ} {f : Unit → EStateM ε σ β} {f' : Unit → EStateM ε σ β'}
    (hu : ∀ s s', rel s s' → rel (u s) (u' s')) (hf : Coupled rel goal (f ()) (f' ())) :
    Coupled rel goal (modify u >>= f) (modify u' >>= f') :=
  fun s s' hs => hf (u s) (u' s') (hu s s' hs)

theorem mapM {γ : Type} {f : γ → EStateM ε σ α} {f' : γ → EStateM ε σ α'} {cs : List γ}
    (h : ∀ c ∈ cs, Coupled rel post (f c) (f' c)) :
    Coupled rel (List.Forall₂ post) (cs.mapM f) (cs.mapM f') := by
  induction cs with
  | nil => exact pure .nil
  | cons c cs ih =>
    rw [List.mapM_cons, List.mapM_cons]
    refine (h c (List.mem_cons_self ..)).bind fun a a' ha => ?_
    refine (ih fun c' hc' => h c' (List.mem_cons_of_mem _ hc')).bind fun as as' has => ?_
    exact pure (.cons ha has)

end Coupled

end Lisplet
