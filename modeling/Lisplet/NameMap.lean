/-!
# Maps from names

A finite map kept as an association list with strictly increasing names, so that two maps with the
same lookups are equal and the order of the entries never depends on how they came in.
-/

namespace Lisplet

structure NameMap (α : Type) where
  entries : List (String × α)
  sorted : entries.Pairwise (·.1 < ·.1)

namespace NameMap

variable {α : Type}

/-- Puts an entry at its place, in the stead of one of the same name. -/
def insertEntry (name : String) (a : α) : List (String × α) → List (String × α)
  | [] => [(name, a)]
  | e :: es =>
    if name < e.1 then (name, a) :: e :: es
    else if e.1 < name then e :: insertEntry name a es
    else (name, a) :: es

theorem mem_insertEntry {name : String} {a : α} {es : List (String × α)} {x : String × α}
    (h : x ∈ insertEntry name a es) : x = (name, a) ∨ x ∈ es := by
  induction es with
  | nil => simpa [insertEntry] using h
  | cons e es ih =>
    simp only [insertEntry] at h
    split at h
    · simpa using h
    · split at h
      · rcases List.mem_cons.1 h with rfl | h
        · exact .inr (List.mem_cons_self ..)
        · exact (ih h).imp_right (List.mem_cons_of_mem _)
      · exact (List.mem_cons.1 h).imp_right (List.mem_cons_of_mem _)

theorem pairwise_insertEntry {name : String} {a : α} {es : List (String × α)}
    (h : es.Pairwise (·.1 < ·.1)) : (insertEntry name a es).Pairwise (·.1 < ·.1) := by
  induction es with
  | nil => simp [insertEntry]
  | cons e es ih =>
    obtain ⟨he, hes⟩ := List.pairwise_cons.1 h
    simp only [insertEntry]
    split
    · rename_i hlt
      refine List.pairwise_cons.2 ⟨fun x hx => ?_, h⟩
      rcases List.mem_cons.1 hx with rfl | hx
      · exact hlt
      · exact String.lt_trans hlt (he x hx)
    · split
      · rename_i hgt
        refine List.pairwise_cons.2 ⟨fun x hx => ?_, ih hes⟩
        rcases mem_insertEntry hx with rfl | hx
        · exact hgt
        · exact he x hx
      · rename_i hle hge
        have heq : name = e.1 := String.le_antisymm (String.not_lt.1 hge) (String.not_lt.1 hle)
        exact List.pairwise_cons.2 ⟨fun x hx => heq ▸ he x hx, hes⟩

/-- The map without entries. -/
def empty : NameMap α := ⟨[], .nil⟩

instance : EmptyCollection (NameMap α) := ⟨empty⟩

instance : Inhabited (NameMap α) := ⟨empty⟩

/-- Binds a name, replacing what it was bound to. -/
def insert (m : NameMap α) (name : String) (a : α) : NameMap α :=
  ⟨insertEntry name a m.entries, pairwise_insertEntry m.sorted⟩

/-- Removes a name. -/
def erase (m : NameMap α) (name : String) : NameMap α :=
  ⟨m.entries.filter (·.1 != name), m.sorted.filter _⟩

/-- What a name is bound to. -/
def find? (m : NameMap α) (name : String) : Option α :=
  (m.entries.find? (·.1 == name)).map (·.2)

def contains (m : NameMap α) (name : String) : Bool := (m.find? name).isSome

def size (m : NameMap α) : Nat := m.entries.length

/-- The names in increasing order. -/
def names (m : NameMap α) : List String := m.entries.map (·.1)

/-- The map of the given entries; of two with one name the later wins. -/
def ofList (entries : List (String × α)) : NameMap α :=
  entries.foldl (fun m (name, a) => m.insert name a) empty

/-! ### Lookups -/

@[simp] theorem find?_empty (x : String) : (empty : NameMap α).find? x = none := rfl

theorem find?_insertEntry {name x : String} {a : α} {es : List (String × α)}
    (h : es.Pairwise (·.1 < ·.1)) :
    ((insertEntry name a es).find? (·.1 == x)).map (·.2) =
      if x = name then some a else (es.find? (·.1 == x)).map (·.2) := by
  induction es with
  | nil => by_cases hx : x = name <;> simp [insertEntry, hx, eq_comm (a := name)]
  | cons e es ih =>
    obtain ⟨he, hes⟩ := List.pairwise_cons.1 h
    simp only [insertEntry]
    split
    · by_cases hx : x = name
      · simp [hx]
      · simp [hx, eq_comm (a := name)]
    · split
      · rename_i hgt
        by_cases hx : e.1 = x
        · have hne : x ≠ name := fun hn => String.lt_irrefl name (by rwa [hx, hn] at hgt)
          simp [hx, hne]
        · simp [hx, ih hes]
      · rename_i hle hge
        have heq : name = e.1 := String.le_antisymm (String.not_lt.1 hge) (String.not_lt.1 hle)
        by_cases hx : x = name
        · simp [hx]
        · simp [hx, eq_comm (a := name), ← heq]

@[simp] theorem find?_insert (m : NameMap α) (name x : String) (a : α) :
    (m.insert name a).find? x = if x = name then some a else m.find? x :=
  find?_insertEntry m.sorted

theorem forall_find?_insert {p : α → Prop} {m : NameMap α} (h : ∀ x a, m.find? x = some a → p a) {name : String} {a : α}
    (ha : p a) : ∀ x b, (m.insert name a).find? x = some b → p b := by
  intro x b hx
  rw [find?_insert] at hx
  split at hx
  · cases hx
    exact ha
  · exact h x b hx

theorem find?_eq_some_iff {m : NameMap α} {x : String} {a : α} :
    m.find? x = some a ↔ (x, a) ∈ m.entries := by
  obtain ⟨es, h⟩ := m
  simp only [find?]
  induction es with
  | nil => simp
  | cons e es ih =>
    obtain ⟨he, hes⟩ := List.pairwise_cons.1 h
    by_cases hx : e.1 = x
    · subst hx
      have hnot : (e.1, a) ∉ es := fun hmem => String.lt_irrefl e.1 (he (e.1, a) hmem)
      simp only [List.find?_cons, beq_self_eq_true, Option.map_some, Option.some.injEq,
        List.mem_cons, hnot, or_false]
      constructor
      · rintro rfl; rfl
      · intro h; exact (congrArg Prod.snd h).symm
    · have hne : (x, a) ≠ e := fun h => hx (congrArg Prod.fst h).symm
      simp [hx, hne, ih hes]

theorem mem_insert {m : NameMap α} {name : String} {a : α} {e : String × α} :
    e ∈ (m.insert name a).entries ↔ e = (name, a) ∨ e.1 ≠ name ∧ e ∈ m.entries := by
  obtain ⟨x, b⟩ := e
  rw [← find?_eq_some_iff, ← find?_eq_some_iff, find?_insert]
  by_cases hx : x = name
  · simp [hx, eq_comm]
  · simp [hx]

theorem mem_ofList {entries : List (String × α)} {e : String × α} (h : e ∈ (ofList entries).entries) : e ∈ entries := by
  have hfold : ∀ (es : List (String × α)) (m : NameMap α),
      e ∈ (es.foldl (fun m entry => m.insert entry.1 entry.2) m).entries → e ∈ m.entries ∨ e ∈ es := by
    intro es
    induction es with
    | nil => exact fun m hm => .inl hm
    | cons entry es ih =>
      intro m hm
      rcases ih _ hm with hm | hm
      · rcases mem_insertEntry hm with rfl | hm
        · exact .inr (List.mem_cons_self ..)
        · exact .inl hm
      · exact .inr (List.mem_cons_of_mem _ hm)
  rcases hfold entries .empty h with h | h
  · cases h
  · exact h

@[simp] theorem find?_erase (m : NameMap α) (name x : String) :
    (m.erase name).find? x = if x = name then none else m.find? x := by
  refine Option.ext fun a => ?_
  have hmem : (m.erase name).find? x = some a ↔ m.find? x = some a ∧ x ≠ name := by
    rw [find?_eq_some_iff, find?_eq_some_iff, erase, List.mem_filter]
    simp
  rw [hmem]
  by_cases hx : x = name <;> simp [hx]

theorem mem_names {m : NameMap α} {x : String} : x ∈ m.names ↔ ∃ a, m.find? x = some a := by
  simp only [names, List.mem_map, Prod.exists, exists_and_right, exists_eq_right, find?_eq_some_iff]

theorem mem_names_insert {m : NameMap α} {name x : String} {a : α} :
    x ∈ (m.insert name a).names ↔ x = name ∨ x ∈ m.names := by
  by_cases hx : x = name <;> simp [mem_names, hx]

theorem mem_names_ofList {entries : List (String × α)} {x : String} (h : x ∈ entries.map (·.1)) :
    x ∈ (ofList entries).names := by
  have hfold : ∀ (es : List (String × α)) (m : NameMap α), x ∈ m.names ∨ x ∈ es.map (·.1) →
      x ∈ (es.foldl (fun m entry => m.insert entry.1 entry.2) m).names := by
    intro es
    induction es with
    | nil => simp
    | cons entry es ih =>
      intro m hm
      refine ih _ ?_
      rw [mem_names_insert]
      simpa [or_comm, or_assoc, or_left_comm] using hm
  exact hfold entries .empty (.inr h)

theorem eq_of_mem_iff {es fs : List (String × α)} (hs : es.Pairwise (·.1 < ·.1))
    (ht : fs.Pairwise (·.1 < ·.1)) (h : ∀ e, e ∈ es ↔ e ∈ fs) : es = fs := by
  induction es generalizing fs with
  | nil =>
    cases fs with
    | nil => rfl
    | cons f fs => simpa using h f
  | cons e es ih =>
    cases fs with
    | nil => simpa using h e
    | cons f fs =>
      obtain ⟨he, hes⟩ := List.pairwise_cons.1 hs
      obtain ⟨hf, hfs⟩ := List.pairwise_cons.1 ht
      have hef : e = f := by
        rcases List.mem_cons.1 ((h e).1 (List.mem_cons_self ..)) with hef | hmem
        · exact hef
        · rcases List.mem_cons.1 ((h f).2 (List.mem_cons_self ..)) with hfe | hmem'
          · exact hfe.symm
          · exact absurd (String.lt_trans (hf e hmem) (he f hmem')) (String.lt_irrefl _)
      subst hef
      refine congrArg (e :: ·) (ih hes hfs fun x => ?_)
      have hx := h x
      simp only [List.mem_cons] at hx
      by_cases hxe : x = e
      · subst hxe
        exact iff_of_false (fun hmem => String.lt_irrefl _ (he x hmem))
          fun hmem => String.lt_irrefl _ (hf x hmem)
      · simpa [hxe] using hx

/-- Maps with the same lookups are equal. -/
theorem ext_find? {m n : NameMap α} (h : ∀ x, m.find? x = n.find? x) : m = n := by
  have hmem : ∀ e, e ∈ m.entries ↔ e ∈ n.entries := fun e => by
    have hm := find?_eq_some_iff (m := m) (x := e.1) (a := e.2)
    rw [h, find?_eq_some_iff] at hm
    exact hm.symm
  obtain ⟨es, hs⟩ := m
  obtain ⟨fs, ht⟩ := n
  have := eq_of_mem_iff hs ht hmem
  subst this
  rfl

end NameMap

end Lisplet
