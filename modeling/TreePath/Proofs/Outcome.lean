import Mathlib.Data.List.Forall2

/-!
# Outcomes of computations

A computation of several steps succeeds when all of its steps do (`exists_of_bind_eq_ok`), and
otherwise fails as the first of them that fails (`failure?_bind`).  The same holds of a list of
computations (`mapM_eq_ok_iff`, `mapM_eq_error_iff`).
-/

set_option autoImplicit false

namespace TreePath

variable {ε α β γ : Type}

/-- A computation that succeeds succeeds in both of its steps. -/
theorem exists_of_bind_eq_ok {first : Except ε α} {next : α → Except ε β} {b : β}
    (h : first >>= next = .ok b) : ∃ a, first = .ok a ∧ next a = .ok b := by
  cases first with
  | error e => cases h
  | ok a => exact ⟨a, rfl, h⟩

/-- A computation that fails fails in its first step or behind it. -/
theorem bind_eq_error {first : Except ε α} {next : α → Except ε β} {e : ε}
    (h : first >>= next = .error e) :
    first = .error e ∨ ∃ a, first = .ok a ∧ next a = .error e := by
  cases first with
  | error fault =>
    cases h
    exact .inl rfl
  | ok a => exact .inr ⟨a, rfl, h⟩

section Lists

variable {f : α → Except ε β} {list : List α}

/-- Computations one after another succeed with the results of each, in order. -/
theorem mapM_eq_ok_iff {results : List β} :
    list.mapM f = .ok results ↔ List.Forall₂ (fun a b => f a = .ok b) list results := by
  induction list generalizing results with
  | nil =>
    rw [List.mapM_nil, List.forall₂_nil_left_iff]
    exact ⟨fun h => (Except.ok.inj h).symm, fun h => h ▸ rfl⟩
  | cons a rest ih =>
    rw [List.mapM_cons, List.forall₂_cons_left_iff]
    constructor
    · intro h
      obtain ⟨b, hb, h⟩ := exists_of_bind_eq_ok h
      obtain ⟨bs, hbs, h⟩ := exists_of_bind_eq_ok h
      cases h
      exact ⟨b, bs, hb, ih.mp hbs, rfl⟩
    · rintro ⟨b, bs, hb, hbs, rfl⟩
      rw [hb, ih.mpr hbs]
      rfl

/-- Where a run over a list succeeds, each of its elements has. -/
theorem exists_of_mapM_eq_ok {results : List β} (h : list.mapM f = .ok results) {a : α}
    (ha : a ∈ list) : ∃ b, f a = .ok b := by
  induction mapM_eq_ok_iff.mp h with
  | nil => cases ha
  | cons hfirst hrest ih =>
    rcases List.mem_cons.mp ha with rfl | hmem
    · exact ⟨_, hfirst⟩
    · exact ih (mapM_eq_ok_iff.mpr hrest) hmem

/-- Every result is the result of one of the computations. -/
theorem exists_of_mem_of_mapM {results : List β} (h : list.mapM f = .ok results) {b : β}
    (hb : b ∈ results) : ∃ a ∈ list, f a = .ok b := by
  induction mapM_eq_ok_iff.mp h with
  | nil => cases hb
  | cons hfirst hrest ih =>
    rcases List.mem_cons.mp hb with rfl | hmem
    · exact ⟨_, List.mem_cons_self, hfirst⟩
    · obtain ⟨other, hother, hresult⟩ := ih (mapM_eq_ok_iff.mpr hrest) hmem
      exact ⟨other, List.mem_cons_of_mem _ hother, hresult⟩

/-- Computations one after another fail as the first of them that fails. -/
theorem mapM_eq_error_iff {e : ε} :
    list.mapM f = .error e ↔ ∃ before a after, list = before ++ a :: after ∧
      (∀ other ∈ before, ∃ b, f other = .ok b) ∧ f a = .error e := by
  induction list with
  | nil =>
    constructor
    · intro h
      cases h
    · rintro ⟨before, a, after, hlist, -⟩
      simp at hlist
  | cons first rest ih =>
    rw [List.mapM_cons]
    constructor
    · intro h
      rcases bind_eq_error h with hfirst | ⟨b, hb, h⟩
      · exact ⟨[], first, rest, rfl, List.forall_mem_nil _, hfirst⟩
      · rcases bind_eq_error h with hrest | ⟨bs, -, h⟩
        · obtain ⟨before, a, after, rfl, hbefore, ha⟩ := ih.mp hrest
          exact ⟨first :: before, a, after, rfl, List.forall_mem_cons.mpr ⟨⟨b, hb⟩, hbefore⟩, ha⟩
        · cases h
    · rintro ⟨before, a, after, hlist, hbefore, ha⟩
      cases before with
      | nil =>
        cases hlist
        rw [ha]
        rfl
      | cons other before =>
        cases hlist
        obtain ⟨⟨b, hb⟩, hbefore⟩ := List.forall_mem_cons.mp hbefore
        rw [hb, ih.mpr ⟨before, a, after, rfl, hbefore, ha⟩]
        rfl

/-- A list of computations that fails has one that fails so. -/
theorem exists_of_mapM_eq_error {e : ε} (h : list.mapM f = .error e) : ∃ a ∈ list, f a = .error e := by
  obtain ⟨before, a, after, rfl, -, ha⟩ := mapM_eq_error_iff.mp h
  exact ⟨a, by simp, ha⟩

end Lists

/-- Telling an error in other words makes no success. -/
theorem eq_ok_of_mapError {ε' : Type} {outcome : Except ε α} {f : ε → ε'} {a : α}
    (h : outcome.mapError f = .ok a) : outcome = .ok a := by
  cases outcome with
  | error e => cases h
  | ok b => exact congrArg Except.ok (Except.ok.inj h)

/-- The error of a computation that failed. -/
def failure? : Except ε α → Option ε
  | .error e => some e
  | .ok _ => none

/-- There is no failure when there is a result. -/
theorem failure?_eq_none_iff {outcome : Except ε α} :
    failure? outcome = none ↔ ∃ a, outcome = .ok a := by
  cases outcome <;> simp [failure?]

/-- The failure is the error, when there is one. -/
theorem failure?_eq_some_iff {outcome : Except ε α} {e : ε} :
    failure? outcome = some e ↔ outcome = .error e := by
  cases outcome <;> simp [failure?]

/-- Of two steps one after the other, the first that fails is the one whose failure is seen. -/
theorem failure?_bind (first : Except ε α) (second : Except ε β) (f : α → β → γ) :
    failure? (first >>= fun a => second >>= fun b => pure (f a b)) =
      (failure? first).or (failure? second) := by
  cases first with
  | error e => rfl
  | ok a => cases second <;> rfl

/-- A function on the result does not change the failure. -/
theorem failure?_map (outcome : Except ε α) (f : α → β) :
    failure? (outcome >>= fun a => pure (f a)) = failure? outcome := by
  cases outcome <;> rfl

end TreePath
