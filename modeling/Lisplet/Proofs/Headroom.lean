import Lisplet.Proofs.Calls
import Lisplet.Proofs.Congruence
import Lisplet.Proofs.Coupled

/-!
# Room to spare

The limit on nesting matters only by failing. `readAll_roomier`, `readOne_roomier`: a reader that does
not run out of room reads the same with more of it. `eval_outlasts`: an evaluation that is not
exhausted ends the same when it may go deeper. `Session.ends_withLimit`: so does all that a session
does with code, as long as nothing is reported as nested too deeply.
-/

namespace Lisplet

/-! ### Reading -/

/-- The same lists are open, and no fewer may still be opened. -/
inductive Nesting.Roomier : Nesting → Nesting → Prop
  | mk (opened : List (List Value)) {room room' : Nat} (h : room ≤ room') : Roomier ⟨room, opened⟩ ⟨room', opened⟩

inductive Progress.Roomier : Progress → Progress → Prop
  | value (v : Value) : Roomier (.value v) (.value v)
  | pending {n n' : Nesting} (h : n.Roomier n') : Roomier (.pending n) (.pending n')

section
variable {n n' : Nesting} {options : ReadOptions} {room finish : Nat}

theorem Nesting.Roomier.deliver (h : n.Roomier n') (v : Value) : (n.deliver v).Roomier (n'.deliver v) := by
  obtain ⟨opened, hroom⟩ := h
  cases opened with
  | nil => exact .value v
  | cons top below => exact .pending (.mk _ hroom)

/-- Only an opening parenthesis asks for room. -/
theorem Nesting.Roomier.accept (h : n.Roomier n') (strict : Bool) (l : Lexeme) :
    n.accept strict l = .error .exhausted ∨ Paired Progress.Roomier (n.accept strict l) (n'.accept strict l) := by
  obtain @⟨opened, room, room', hroom⟩ := h
  unfold Nesting.accept
  cases l.token with
  | opening =>
    cases room with
    | zero => exact .inl rfl
    | succ room =>
      obtain ⟨room', rfl⟩ := Nat.exists_eq_add_of_le' (Nat.le_trans (Nat.le_add_left 1 room) hroom)
      exact .inr (.ok (.pending (.mk _ (Nat.le_of_succ_le_succ hroom))))
  | closing =>
    cases opened with
    | nil => exact .inr (.error _)
    | cons top below => exact .inr (.ok (Roomier.deliver (.mk _ (Nat.succ_le_succ hroom)) _))
  | quoted body => exact .inr (.ok (Roomier.deliver (.mk _ hroom) _))
  | unclosed body => exact .inr (.error _)
  | literal cs =>
    right
    dsimp only
    cases readLiteral strict cs l.start with
    | ok v => exact .ok (Roomier.deliver (.mk _ hroom) v)
    | error failure => exact .error failure

theorem readAll_roomier {ls : List Lexeme} (hn : n.Roomier n') (hroom : options.room ≤ room)
    (h : (readAll options finish n ls).failure ≠ some .exhausted) :
    readAll { options with room } finish n' ls = readAll options finish n ls := by
  induction ls generalizing n n' with
  | nil =>
    obtain ⟨opened, -⟩ := hn
    rfl
  | cons l ls ih =>
    rcases hn.accept options.strict l with hspent | haccept
    · simp [readAll, hspent] at h
    · simp only [readAll] at h ⊢
      generalize n.accept options.strict l = r at haccept h
      generalize n'.accept options.strict l = r' at haccept
      cases haccept with
      | error failure => rfl
      | ok hprogress =>
        cases hprogress with
        | value v => simp only [ih (.mk [] hroom) h]
        | pending hn' => exact ih hn' h

end

namespace Reader

/-- The reader when so many lists may be nested. -/
def withRoom (r : Reader) (room : Nat) : Reader := { r with options := { r.options with room } }

variable {r : Reader} {room room' : Nat}

theorem all_withRoom (hroom : room ≤ room') (h : (r.withRoom room).all.failure ≠ some .exhausted) :
    (r.withRoom room').all = (r.withRoom room).all := by
  rw [all, withRoom] at h
  exact readAll_roomier (.mk [] hroom) hroom h

end Reader

theorem readText_roomier {strict : Bool} {room room' : Nat} {text : String} (hroom : room ≤ room')
    (h : readText ⟨strict, room⟩ text ≠ .error .exhausted) :
    readText ⟨strict, room'⟩ text = readText ⟨strict, room⟩ text := by
  have hall : Reader.all ⟨text.toList, 0, ⟨strict, room'⟩⟩ = Reader.all ⟨text.toList, 0, ⟨strict, room⟩⟩ := by
    refine Reader.all_withRoom (r := ⟨text.toList, 0, ⟨strict, room⟩⟩) hroom fun hfailure => h ?_
    have hfailure : (Reader.all ⟨text.toList, 0, ⟨strict, room⟩⟩).failure = some .exhausted := hfailure
    simp only [readText, hfailure]
  rw [readText, readText, hall]

/-! ### Evaluation -/

section
variable {ε σ α β : Type}

/-- Unless the first run fails as `spent` says, the two runs end alike. -/
def Outlasts (spent : ε → Prop) (rel : σ → σ → Prop) (m m' : EStateM ε σ α) : Prop :=
  ∀ s s', rel s s' → (∃ e t, m s = .error e t ∧ spent e) ∨ Ends rel Eq (m s) (m' s')

namespace Outlasts

variable {spent : ε → Prop} {rel : σ → σ → Prop} {m m' : EStateM ε σ α}

theorem of_coupled (h : Coupled rel Eq m m') : Outlasts spent rel m m' := fun s s' hs => .inr (h s s' hs)

theorem refl (m : EStateM ε σ α) : Outlasts spent Eq m m := by
  rintro s _ rfl
  right
  cases m s with
  | ok a t => exact .ok rfl rfl
  | error e t => exact .error e rfl

theorem bind {f f' : α → EStateM ε σ β} (hm : Outlasts spent rel m m')
    (hf : ∀ a, Outlasts spent rel (f a) (f' a)) : Outlasts spent rel (m >>= f) (m' >>= f') := by
  intro s s' hs
  show (∃ e t, EStateM.bind m f s = .error e t ∧ spent e) ∨ Ends rel Eq (EStateM.bind m f s) (EStateM.bind m' f' s')
  unfold EStateM.bind
  rcases hm s s' hs with ⟨e, t, hres, he⟩ | hends
  · rw [hres]
    exact .inl ⟨e, t, rfl, he⟩
  · generalize m s = r at hends
    generalize m' s' = r' at hends
    cases hends with
    | ok ht heq =>
      subst heq
      exact hf _ _ _ ht
    | error e ht => exact .inr (.error e ht)

theorem mapM {γ : Type} {f f' : γ → EStateM ε σ α} {cs : List γ} (h : ∀ c, Outlasts spent rel (f c) (f' c)) :
    Outlasts spent rel (cs.mapM f) (cs.mapM f') := by
  induction cs with
  | nil => exact of_coupled (.pure rfl)
  | cons c cs ih =>
    rw [List.mapM_cons, List.mapM_cons]
    exact (h c).bind fun a => ih.bind fun as => of_coupled (.pure rfl)

end Outlasts

end

/-- The second computation ends as the first one, unless that is exhausted. -/
abbrev Eval.Outlasts {α : Type} (m m' : Eval α) : Prop := Lisplet.Outlasts (· = .exhausted) Eq m m'

/-- Computations outlast others if their parts do. -/
def Eval.outlasting : Congruence where
  rel m m' := Eval.Outlasts m m'
  bind hm hf := hm.bind hf
  ofExcept _ := .refl _
  lookup _ _ := .refl _
  define _ _ _ := .refl _
  identity := .refl _
  primitive _ _ _ := .refl _

/-- An evaluation that is not exhausted ends the same when it may go deeper. -/
theorem eval_outlasts {depth depth' : Nat} (hdepth : depth ≤ depth') (s : Scope) (e : Value) :
    Eval.Outlasts (eval depth s e) (eval depth' s e) := by
  induction depth generalizing depth' s e with
  | zero => exact fun w _ _ => .inl ⟨_, w, rfl, rfl⟩
  | succ depth ih =>
    obtain ⟨depth', rfl⟩ := Nat.exists_eq_add_of_le' (Nat.le_trans (Nat.le_add_left 1 depth) hdepth)
    exact Eval.outlasting.step (ih (Nat.le_of_succ_le_succ hdepth)) s e

/-! ### Sessions -/

/-- That something is nested too deeply: the report of a session, or a text that there is no room to write. -/
def Failure.isTooDeep : Failure → Bool
  | exhausted | tooDeep .. => true
  | _ => false

theorem Failure.report_eq {failure : Failure} (h : failure ≠ .exhausted) (stage : Stage) (limit : Nat) :
    failure.report stage limit = failure := by
  cases failure with
  | exhausted => exact absurd rfl h
  | _ => rfl

def Outcome.isTooDeep (o : Outcome) : Bool :=
  match o.result with
  | .ok _ => false
  | .error failure => failure.isTooDeep

namespace Session

/-- The session when expressions may be nested so deeply. -/
def withLimit (s : Session) (limit : Nat) : Session := { s with limit }

/-- The same session with another limit. -/
def Raised (limit limit' : Nat) (s s' : Session) : Prop := s.limit = limit ∧ s' = s.withLimit limit'

/-- The results that a batch records, also those before it breaks down. -/
def recorded : List Value → Session → List Outcome
  | [], _ => []
  | e :: es, s =>
    match record e s with
    | .ok o s' => o :: recorded es s'
    | .error _ _ => []

/-- The results that a piece of code records. -/
def recordedIn (s : Session) (code : String) : List Outcome :=
  match s.parse code with
  | .ok es => recorded es { s with history := s.globals :: s.history }
  | .error _ => []

/-- A batch that does not break down gives what it records. -/
theorem recorded_eq {es : List Value} {s s' : Session} {outcomes : List Outcome}
    (h : es.mapM record s = .ok outcomes s') : recorded es s = outcomes := by
  induction es generalizing s outcomes with
  | nil =>
    cases h
    rfl
  | cons e es ih =>
    obtain ⟨o, os, t, rfl, hrecord, hbatch⟩ := mapM_cons_eq_ok h
    simp only [recorded, hrecord, ih hbatch]

theorem recordedIn_eq {s s' : Session} {code : String} {outcomes : List Outcome}
    (h : run code s = .ok outcomes s') : s.recordedIn code = outcomes := by
  rw [run_eq] at h
  unfold recordedIn
  cases hparse : s.parse code with
  | error failure =>
    rw [hparse] at h
    cases h
  | ok es =>
    rw [hparse] at h
    cases es with
    | nil =>
      cases h
      rfl
    | cons e es => exact recorded_eq h

section
variable {limit limit' : Nat} {s s' : Session}

theorem evalExpr_outlasts (hlimit : limit ≤ limit') (e : Value) :
    Outlasts (·.isTooDeep) (Raised limit limit') (evalExpr e) (evalExpr e) := by
  rintro s _ ⟨rfl, rfl⟩
  have heval := eval_outlasts hlimit (.global .session) e s.world s.world rfl
  unfold evalExpr
  simp only [withLimit]
  generalize Lisplet.eval s.limit (.global .session) e s.world = r at heval
  generalize Lisplet.eval limit' (.global .session) e s.world = r' at heval
  rcases heval with ⟨_, w, rfl, rfl⟩ | hends
  · exact .inl ⟨_, _, rfl, rfl⟩
  · cases hends with
    | ok hw hv =>
      subst hw hv
      exact .inr (.ok ⟨rfl, rfl⟩ rfl)
    | error failure hw =>
      subst hw
      by_cases hspent : failure = .exhausted
      · exact .inl ⟨_, _, rfl, by rw [hspent]; rfl⟩
      · simp only [Failure.report_eq hspent]
        exact .inr (.error failure ⟨rfl, rfl⟩)

theorem record_ends (hlimit : limit ≤ limit') (hs : Raised limit limit' s s') (e : Value) :
    (∃ failure t, record e s = .error failure t ∧ failure.isTooDeep) ∨
      (∃ o t, record e s = .ok o t ∧ o.isTooDeep) ∨
        Ends (Raised limit limit') Eq (record e s) (record e s') := by
  by_cases hwrites : s.Writes e
  · have hwrites' : s'.Writes e := by
      obtain ⟨rfl, rfl⟩ := hs
      exact hwrites.trans hlimit
    have hexpr := evalExpr_outlasts hlimit e s s' hs
    rw [record_of_writes hwrites, record_of_writes hwrites']
    generalize evalExpr e s = r at hexpr
    generalize evalExpr e s' = r' at hexpr
    rcases hexpr with ⟨failure, t, rfl, hdeep⟩ | hends
    · by_cases hbreak : failure.isBreakdown
      · exact .inl ⟨failure, t, by simp only [hbreak, ↓reduceIte], hdeep⟩
      · simp only [hbreak]
        exact .inr (.inl ⟨_, _, rfl, hdeep⟩)
    · refine .inr (.inr ?_)
      cases hends with
      | ok ht hv =>
        subst hv
        exact .ok ht rfl
      | error failure ht =>
        dsimp only
        split
        · exact .error failure ht
        · exact .ok ht rfl
  · exact .inl ⟨_, s, record_of_not_writes hwrites, rfl⟩

theorem batch_ends (hlimit : limit ≤ limit') (hs : Raised limit limit' s s') {es : List Value}
    (hfails : ∀ failure t, es.mapM record s = .error failure t → failure.isTooDeep = false)
    (h : ∀ o ∈ recorded es s, o.isTooDeep = false) :
    Ends (Raised limit limit') Eq (es.mapM record s) (es.mapM record s') := by
  induction es generalizing s s' with
  | nil => exact .ok hs rfl
  | cons e es ih =>
    rw [List.mapM_cons] at hfails ⊢
    unfold recorded at h
    rcases record_ends hlimit hs e with ⟨failure, t, hres, hdeep⟩ | ⟨o, t, hres, hdeep⟩ | hends
    · rw [hfails _ _ (bind_of_error hres)] at hdeep
      cases hdeep
    · rw [hres] at h
      rw [h o (by simp)] at hdeep
      cases hdeep
    · refine hends.bind fun o _ t t' ho ht hres => ?_
      subst ho
      rw [hres] at h
      have hrest := ih ht (fun failure u hu => hfails failure u ((bind_of_ok hres).trans (bind_of_error hu)))
        fun o ho => h o (List.mem_cons_of_mem _ ho)
      exact hrest.bind fun os _ t t' hos ht _ => hos ▸ .ok ht rfl

/-- Code is read the same under a higher limit, unless it is nested too deeply. -/
theorem parse_raised (hlimit : limit ≤ limit') (hs : Raised limit limit' s s') (code : String) :
    s.parse code = .error (.tooDeep .reading limit) ∨ s'.parse code = s.parse code := by
  obtain ⟨rfl, rfl⟩ := hs
  simp only [parse, withLimit]
  by_cases hspent : readText ⟨s.strict, s.limit⟩ code = .error .exhausted
  · rw [hspent]
    exact .inl rfl
  · rw [readText_roomier hlimit hspent]
    right
    cases hres : readText ⟨s.strict, s.limit⟩ code with
    | ok es => rfl
    | error failure =>
      have hfailure : failure ≠ .exhausted := fun heq => hspent (by rw [hres, heq])
      simp only [Except.mapError, Failure.report_eq hfailure]

theorem run_ends (hlimit : limit ≤ limit') (hs : Raised limit limit' s s') {code : String}
    (hfails : ∀ failure t, run code s = .error failure t → failure.isTooDeep = false)
    (hrecorded : ∀ o ∈ s.recordedIn code, o.isTooDeep = false) :
    Ends (Raised limit limit') Eq (run code s) (run code s') := by
  rcases parse_raised hlimit hs code with hparse | hparse
  · have hread := hfails (.tooDeep .reading limit) s (by rw [run_eq, hparse])
    cases hread
  · unfold recordedIn at hrecorded
    rw [run_eq] at hfails
    rw [run_eq, run_eq, hparse]
    cases hres : s.parse code with
    | error failure => exact .error failure hs
    | ok es =>
      rw [hres] at hrecorded hfails
      obtain ⟨rfl, rfl⟩ := hs
      cases es with
      | nil => exact .ok ⟨rfl, rfl⟩ rfl
      | cons e es =>
        exact batch_ends (s := { s with history := s.globals :: s.history }) hlimit ⟨rfl, rfl⟩ hfails hrecorded

end

end Session

end Lisplet
