import TreePath.Proofs.Path.Group

/-!
# Searching for bracket groups

The search reads a text character by character.  What it reads behind an opening bracket is accepted
exactly when it is the content of a group (`GroupState.accepts_opened`), so the group that it finds at
the front of a text is the word of the language that the text begins with (`frontGroup?_eq_some_iff`).
-/

set_option autoImplicit false

namespace TreePath

namespace Path

variable {state : GroupState} {text content group : List Char} {c : Char}

/-! ## What is read behind an opening bracket -/

namespace GroupState

/-- The text may stand between the place that has been reached and the closing bracket. -/
def accepts (state : GroupState) : List Char → Bool
  | [] => state.closes
  | c :: rest =>
    match state.next? c with
    | some next => next.accepts rest
    | none => false

/-- The text may stand between the place that has been reached and the next colon. -/
def acceptsPart : GroupState → List Char → Bool
  | opened, part => isGroupPart part
  | minus, part => !part.isEmpty && part.all Char.isDigit
  | digit, part => part.all Char.isDigit
  | colon, part => isGroupPart part

/-- A digit can stand at every place behind an opening bracket. -/
theorem next?_of_isDigit (state : GroupState) (hc : c.isDigit) : state.next? c = some digit := by
  cases state <;> simp [next?, hc]

/-- Behind a character something has been read. -/
theorem ne_opened_of_next? {next : GroupState} (h : state.next? c = some next) : next ≠ opened := by
  rintro rfl
  by_cases hdigit : c.isDigit
  · rw [next?_of_isDigit state hdigit] at h
    cases h
  · cases state <;> simp [next?, hdigit] at h <;> grind

/-- A part that begins with a digit goes on with digits only. -/
theorem isGroupPart_cons_of_isDigit (hc : c.isDigit) (part : List Char) :
    isGroupPart (c :: part) = part.all Char.isDigit := by
  have hminus : c ≠ '-' := by
    rintro rfl
    cases hc
  rw [isGroupPart, List.all_cons, hc, Bool.true_and]
  · exact List.cons_ne_nil _ _
  · rintro digits heq
    exact hminus (List.cons.inj heq).1

/-- One character further in the same part. -/
theorem acceptsPart_cons (hcolon : c ≠ ':') (part : List Char) :
    state.acceptsPart (c :: part) =
      match state.next? c with
      | some next => next.acceptsPart part
      | none => false := by
  by_cases hdigit : c.isDigit
  · rw [next?_of_isDigit state hdigit]
    cases state <;> simp [acceptsPart, hdigit, isGroupPart_cons_of_isDigit]
  · by_cases hminus : c = '-'
    · subst hminus
      cases state <;> simp [acceptsPart, next?, isGroupPart, Char.isDigit]
    · have hpart : isGroupPart (c :: part) = false := by
        rw [isGroupPart]
        · simp [hdigit]
        · exact List.cons_ne_nil _ _
        · rintro digits heq
          exact hminus (List.cons.inj heq).1
      cases state <;> simp [acceptsPart, next?, hdigit, hminus, hcolon, hpart]

/-- What is accepted consists of parts between colons, the first of which goes on where the reading
stands. -/
theorem accepts_eq (hstate : state ≠ opened) {first : List Char} {rest : List (List Char)}
    (hsplit : content.splitOn ':' = first :: rest) :
    state.accepts content = (state.acceptsPart first && rest.all isGroupPart) := by
  induction content generalizing state first rest with
  | nil =>
    rw [List.splitOn_nil] at hsplit
    cases hsplit
    cases state with
    | opened => exact absurd rfl hstate
    | minus => rfl
    | digit => rfl
    | colon => rfl
  | cons c content ih =>
    obtain ⟨next, others, hnext⟩ := List.exists_cons_of_ne_nil (content.splitOn_ne_nil ':')
    rw [List.splitOn_cons_eq_if_modifyHead, hnext] at hsplit
    by_cases hcolon : c = ':'
    · subst hcolon
      cases hsplit
      have hcolon : colon ≠ opened := by decide
      have hrest := ih hcolon hnext
      cases state with
      | opened => exact absurd rfl hstate
      | minus => rfl
      | digit => exact hrest
      | colon => exact hrest
    · rw [if_neg (by simpa using hcolon), List.modifyHead_cons] at hsplit
      obtain ⟨rfl, rfl⟩ := List.cons.inj hsplit
      rw [accepts, acceptsPart_cons hcolon]
      cases hgo : state.next? c with
      | none => rfl
      | some after =>
        exact ih (ne_opened_of_next? hgo) hnext

/-- What is accepted behind an opening bracket is the content of a group. -/
theorem accepts_opened (content : List Char) : opened.accepts content = isGroupContent content := by
  cases content with
  | nil => rfl
  | cons c content =>
    obtain ⟨first, rest, hsplit⟩ := List.exists_cons_of_ne_nil ((c :: content).splitOn_ne_nil ':')
    -- Behind the bracket a group goes on as behind a colon; only the group without content differs.
    have hcolon : opened.accepts (c :: content) = colon.accepts (c :: content) := rfl
    rw [hcolon, accepts_eq (by decide) hsplit, isGroupContent, hsplit]
    rfl

end GroupState

/-- A group is read up to its closing bracket. -/
theorem readGroup?_eq_some_iff : readGroup? state text = some group ↔
    ∃ content, state.accepts content ∧ group = content ++ [']'] ∧ group <+: text := by
  constructor
  · intro h
    induction text generalizing state group with
    | nil => cases h
    | cons c text ih =>
      rw [readGroup?] at h
      split at h
      next hclose =>
        subst hclose
        split at h
        next hcloses =>
          cases h
          exact ⟨[], hcloses, rfl, text, rfl⟩
        next => cases h
      next hopen =>
        split at h
        next next hnext =>
          obtain ⟨read, hread, rfl⟩ := Option.map_eq_some_iff.mp h
          obtain ⟨content, hcontent, rfl, hbegins⟩ := ih hread
          refine ⟨c :: content, ?_, rfl, List.cons_prefix_cons.mpr ⟨rfl, hbegins⟩⟩
          rw [GroupState.accepts, hnext]
          exact hcontent
        next => cases h
  · rintro ⟨content, hcontent, rfl, more, rfl⟩
    induction content generalizing state with
    | nil =>
      rw [GroupState.accepts] at hcontent
      simp [readGroup?, hcontent]
    | cons c content ih =>
      rw [GroupState.accepts] at hcontent
      cases hnext : state.next? c with
      | none =>
        rw [hnext] at hcontent
        cases hcontent
      | some next =>
        rw [hnext] at hcontent
        have hopen : c ≠ ']' := by
          rintro rfl
          cases state <;> cases hnext
        rw [List.cons_append, List.cons_append, readGroup?, if_neg hopen, hnext]
        simp only [ih hcontent, Option.map_some]

/-- **The group that is read at the front of a text is the word of the language that the text begins
with.** -/
theorem frontGroup?_eq_some_iff :
    frontGroup? text = some group ↔ group ∈ bracketGroup ∧ group <+: text := by
  rw [mem_bracketGroup]
  constructor
  · intro h
    fun_cases frontGroup? text with
    | case1 rest =>
      rw [frontGroup?] at h
      obtain ⟨read, hread, rfl⟩ := Option.map_eq_some_iff.mp h
      obtain ⟨content, hcontent, rfl, hbegins⟩ := readGroup?_eq_some_iff.mp hread
      rw [GroupState.accepts_opened] at hcontent
      exact ⟨⟨content, hcontent, rfl⟩, List.cons_prefix_cons.mpr ⟨rfl, hbegins⟩⟩
    | case2 => simp [frontGroup?] at h
  · rintro ⟨⟨content, hcontent, rfl⟩, more, rfl⟩
    rw [← GroupState.accepts_opened] at hcontent
    have hread : readGroup? .opened (content ++ [']'] ++ more) = some (content ++ [']']) :=
      readGroup?_eq_some_iff.mpr ⟨content, hcontent, rfl, List.prefix_append _ _⟩
    rw [List.cons_append, frontGroup?, hread]
    rfl

/-- Nothing is read exactly where no group begins. -/
theorem frontGroup?_eq_none_iff : frontGroup? text = none ↔ ¬ startsGroup text := by
  rw [startsGroup_iff, Option.eq_none_iff_forall_not_mem]
  constructor
  · rintro h ⟨group, hgroup⟩
    exact h group (frontGroup?_eq_some_iff.mpr hgroup)
  · intro h group hread
    exact h ⟨group, frontGroup?_eq_some_iff.mp hread⟩

end Path

end TreePath
