/-!
# Runs of a computation

What a run of `m >>= f`, or of a step for each element of a list, is made of: it gives a result exactly if
its parts do, one after the other, and it fails because one of them fails when those before it are done
(`mapM_eq_error`).
-/

namespace Lisplet

variable {ε σ α β : Type} {s t u : σ} {e : ε}

section
variable {m : EStateM ε σ α} {f : α → EStateM ε σ β} {a : α} {b : β}

theorem bind_of_ok (h : m s = .ok a t) : (m >>= f) s = f a t := by
  show EStateM.bind m f s = _
  rw [EStateM.bind, h]

theorem bind_of_error (h : m s = .error e t) : (m >>= f) s = .error e t := by
  show EStateM.bind m f s = _
  rw [EStateM.bind, h]

theorem bind_eq_ok (h : (m >>= f) s = .ok b u) : ∃ a t, m s = .ok a t ∧ f a t = .ok b u := by
  cases hm : m s with
  | ok a t =>
    rw [bind_of_ok hm] at h
    exact ⟨a, t, rfl, h⟩
  | error e t =>
    rw [bind_of_error hm] at h
    cases h

end

section
variable {f : α → EStateM ε σ β} {as done rest : List α} {a : α} {b : β} {bs : List β}

theorem mapM_cons_of_ok (ha : f a s = .ok b t) (has : as.mapM f t = .ok bs u) :
    (a :: as).mapM f s = .ok (b :: bs) u := by
  rw [List.mapM_cons, bind_of_ok ha, bind_of_ok has]
  rfl

theorem mapM_cons_eq_ok (h : (a :: as).mapM f s = .ok bs u) :
    ∃ b bs' t, bs = b :: bs' ∧ f a s = .ok b t ∧ as.mapM f t = .ok bs' u := by
  rw [List.mapM_cons] at h
  obtain ⟨b, t, ha, hrest⟩ := bind_eq_ok h
  obtain ⟨bs', u', has, hpure⟩ := bind_eq_ok hrest
  cases hpure
  exact ⟨b, bs', t, rfl, ha, has⟩

theorem mapM_concat_of_ok (hdone : done.mapM f s = .ok bs t) (ha : f a t = .ok b u) :
    (done ++ [a]).mapM f s = .ok (bs ++ [b]) u := by
  have hlast : [a].mapM f t = .ok [b] u := mapM_cons_of_ok ha rfl
  rw [List.mapM_append, bind_of_ok hdone, bind_of_ok hlast]
  rfl

theorem length_of_mapM (h : as.mapM f s = .ok bs t) : bs.length = as.length := by
  induction as generalizing s bs with
  | nil =>
    cases h
    rfl
  | cons a as ih =>
    obtain ⟨b, bs, t', rfl, -, has⟩ := mapM_cons_eq_ok h
    exact congrArg (· + 1) (ih has)

theorem mapM_append_of_error (hdone : done.mapM f s = .ok bs t) (ha : f a t = .error e u) :
    (done ++ a :: rest).mapM f s = .error e u := by
  have hrest : (a :: rest).mapM f t = .error e u := by rw [List.mapM_cons, bind_of_error ha]
  rw [List.mapM_append, bind_of_ok hdone, bind_of_error hrest]

theorem mapM_eq_error (h : as.mapM f s = .error e u) :
    ∃ done a rest bs t, as = done ++ a :: rest ∧ done.mapM f s = .ok bs t ∧ f a t = .error e u := by
  induction as generalizing s with
  | nil => cases h
  | cons a as ih =>
    rw [List.mapM_cons] at h
    cases ha : f a s with
    | error e' t =>
      rw [bind_of_error ha] at h
      cases h
      exact ⟨[], a, as, [], s, rfl, rfl, ha⟩
    | ok b t =>
      rw [bind_of_ok ha] at h
      cases has : as.mapM f t with
      | ok bs u' =>
        rw [bind_of_ok has] at h
        cases h
      | error e' u' =>
        rw [bind_of_error has] at h
        cases h
        obtain ⟨done, a', rest, bs, t', rfl, hdone, ha'⟩ := ih has
        exact ⟨a :: done, a', rest, b :: bs, t', rfl, mapM_cons_of_ok ha hdone, ha'⟩

end

end Lisplet
