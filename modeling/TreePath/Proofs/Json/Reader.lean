import TreePath.Json.Reader
import TreePath.Proofs.Json.Number
import TreePath.Proofs.Json.Text

/-!
# Reading a list of texts

What a reader makes of a text does not depend on the blanks in front of the text, nor on what follows
it, as long as that cannot go on a number.  `Reads` says so of one text.  When it holds of each of the
texts between two brackets, the reader of elements takes all of them, whatever blanks lay them out, or
fails where one of them fails (`readBracket_texts`).
-/

set_option autoImplicit false

namespace TreePath

namespace Json

variable {α β : Type} {blanks rest : List Char} {c : Char}

/-! ## Blanks -/

/-- The characters are all blanks. -/
def Blanks (blanks : List Char) : Prop := ∀ c ∈ blanks, isBlank c

/-- An empty text is blank. -/
theorem blanks_nil : Blanks [] := by
  intro c hc
  cases hc

/-- Blanks in front are skipped together with those that follow. -/
theorem skipBlanks_append (h : Blanks blanks) (input : List Char) :
    skipBlanks (blanks ++ input) = skipBlanks input := by
  rw [skipBlanks, List.dropWhile_append_of_pos h, skipBlanks]

/-- A character that is no blank stays. -/
theorem skipBlanks_cons (h : ¬ isBlank c) (rest : List Char) : skipBlanks (c :: rest) = c :: rest := by
  rw [skipBlanks, List.dropWhile_cons_of_neg h]

/-- The blanks of JSON are four characters, and no others that Unicode has. -/
theorem isBlank_iff : isBlank c ↔ c = ' ' ∨ c = '\n' ∨ c = '\r' ∨ c = '\t' := by
  simp [isBlank, or_assoc]

/-- Blanks in front of an input that ends a number end it as well. -/
theorem endsNumber_append (h : Blanks blanks) (hrest : EndsNumber rest) :
    EndsNumber (blanks ++ rest) := by
  cases blanks with
  | nil => exact hrest
  | cons c more =>
    have hblank : isBlank c := h c List.mem_cons_self
    rw [List.cons_append, endsNumber_cons]
    rcases isBlank_iff.mp hblank with rfl | rfl | rfl | rfl <;> decide

/-! ## Elements -/

/-- From behind blanks, and up to an input that ends numbers, the reader makes this of the text. -/
def Reads (reader : Reader α) (text : List Char) (outcome : Option α) : Prop :=
  ∀ blanks rest, Blanks blanks → EndsNumber rest →
    reader (blanks ++ (text ++ rest)) = outcome.map (·, rest)

/-- The text begins with a character that neither is blank nor closes a bracket. -/
def Begins (closing : Char) (text : List Char) : Prop :=
  ∃ c more, text = c :: more ∧ ¬ isBlank c ∧ c ≠ closing

section Elements

variable {element : Reader α} {closing : Char} {input more : List Char} {a : α} {fuel : Nat}

/-- Elements are not read when the first of them is not. -/
theorem readElements_none (h : element input = none) :
    readElements element closing (fuel + 1) input = none := by
  rw [readElements, h]
  rfl

/-- The closing bracket behind an element ends the list. -/
theorem readElements_closing (h : element input = some (a, more))
    (hclosing : skipBlanks more = closing :: rest) :
    readElements element closing (fuel + 1) input = some ([a], rest) := by
  rw [readElements, h]
  simp only [Option.bind_eq_bind, Option.bind_some, hclosing, if_true]
  rfl

/-- A comma behind an element is followed by the other elements. -/
theorem readElements_comma (hne : ',' ≠ closing) (h : element input = some (a, ',' :: more)) :
    readElements element closing (fuel + 1) input =
      (readElements element closing fuel more).map fun (others, rest) => (a :: others, rest) := by
  have hskip : skipBlanks (',' :: more) = ',' :: more := skipBlanks_cons (by decide) more
  rw [readElements, h]
  simp only [Option.bind_eq_bind, Option.bind_some, hskip, if_neg hne]
  cases readElements element closing fuel more <;> rfl

variable {text : β → List Char} {outcome : β → Option α} {front back : List Char}

/-- The texts between brackets are read one after another. -/
theorem readElements_texts (hclosing : closing = ']' ∨ closing = '}') (hfront : Blanks front)
    (hback : Blanks back) {first : β} {others : List β}
    (h : ∀ b ∈ first :: others, Reads element (text b) (outcome b))
    (hfuel : others.length < fuel) (rest : List Char) :
    readElements element closing fuel (front ++ (text first ++
        (others.flatMap (fun b => ',' :: (front ++ text b)) ++ (back ++ closing :: rest)))) =
      ((first :: others).mapM outcome).map (·, rest) := by
  have hskip : skipBlanks (back ++ closing :: rest) = closing :: rest := by
    rw [skipBlanks_append hback]
    exact skipBlanks_cons (by rcases hclosing with rfl | rfl <;> decide) rest
  have hends : EndsNumber (back ++ closing :: rest) := by
    apply endsNumber_append hback
    rw [endsNumber_cons]
    rcases hclosing with rfl | rfl <;> decide
  have hcomma : ',' ≠ closing := by rcases hclosing with rfl | rfl <;> decide
  induction others generalizing first fuel with
  | nil =>
    cases fuel with
    | zero => cases hfuel
    | succ fuel =>
      have hfirst := h first List.mem_cons_self front _ hfront hends
      rw [List.flatMap_nil, List.nil_append, List.mapM_cons]
      cases houtcome : outcome first with
      | none =>
        rw [houtcome] at hfirst
        exact readElements_none hfirst
      | some a =>
        rw [houtcome] at hfirst
        exact readElements_closing hfirst hskip
  | cons second others ih =>
    cases fuel with
    | zero => cases hfuel
    | succ fuel =>
      -- Behind the first comma stand the blanks and the text of the second.
      have hothers := ih (fun b hb => h b (List.mem_cons_of_mem _ hb))
        (Nat.lt_of_succ_lt_succ hfuel)
      have hfirst := h first List.mem_cons_self front (',' :: (front ++ (text second ++
        (others.flatMap (fun b => ',' :: (front ++ text b)) ++ (back ++ closing :: rest)))))
        hfront (endsNumber_cons.mpr (by decide))
      rw [List.flatMap_cons, List.mapM_cons]
      simp only [List.cons_append, List.append_assoc]
      cases houtcome : outcome first with
      | none =>
        rw [houtcome] at hfirst
        exact readElements_none hfirst
      | some a =>
        rw [houtcome] at hfirst
        rw [readElements_comma hcomma hfirst, hothers]
        cases (second :: others).mapM outcome <;> rfl

/-- Texts with commas between them, each behind the blanks of `front`, up to the closing bracket. -/
def bracketChars (front back : List Char) (closing : Char) (text : β → List Char) :
    List β → List Char
  | [] => [closing]
  | first :: others =>
    front ++ (text first ++
      (others.flatMap (fun b => ',' :: (front ++ text b)) ++ (back ++ [closing])))

/-- All texts behind an opening bracket are read, or one of them fails. -/
theorem readBracket_texts (hclosing : closing = ']' ∨ closing = '}') (hfront : Blanks front)
    (hback : Blanks back) {list : List β} (h : ∀ b ∈ list, Reads element (text b) (outcome b))
    (hbegins : ∀ b ∈ list, Begins closing (text b)) (rest : List Char) :
    readBracket element closing (bracketChars front back closing text list ++ rest) =
      (list.mapM outcome).map (·, rest) := by
  cases list with
  | nil =>
    have hblank : ¬ isBlank closing := by rcases hclosing with rfl | rfl <;> decide
    rw [bracketChars, List.singleton_append, readBracket, skipBlanks_cons hblank]
    exact if_pos rfl
  | cons first others =>
    obtain ⟨c, more, htext, hblank, hne⟩ := hbegins first List.mem_cons_self
    have hskip : ∀ tail, skipBlanks (front ++ (text first ++ tail)) = c :: (more ++ tail) := by
      intro tail
      rw [skipBlanks_append hfront, htext, List.cons_append, skipBlanks_cons hblank]
    -- Each of the others is longer than nothing, so the length of the input bounds their number.
    have hcommas := length_le_length_flatMap
      (fun b => List.cons_ne_nil ',' (front ++ text b)) others
    simp only [bracketChars, List.append_assoc, List.singleton_append]
    rw [readBracket, hskip]
    simp only [if_neg hne]
    apply readElements_texts hclosing hfront hback h
    simp only [List.length_append, List.length_cons]
    omega

end Elements

end Json

end TreePath
