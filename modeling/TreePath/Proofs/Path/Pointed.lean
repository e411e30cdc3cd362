import TreePath.Proofs.Path.Tokens

/-!
# Tokens by points alone

What the tokens of a path text are can be said without a search and without the order in which the
text is cut: put a point in front of every bracket group of the whole text, cut at the points, and
drop the empty pieces.  `tokens_eq_pieces` says that this gives the tokens, for every text.

The two ways agree because a group holds neither a point nor another group.  So a group never reaches
over a point, and it begins in its component exactly when it begins in the text
(`startsGroup_component`).

It follows that tokens lose nothing but the points (`flatten_tokenChars`), and that a point separates
the tokens in front of it from those behind it (`tokenChars_append_point`).
-/

set_option autoImplicit false

namespace TreePath

namespace Path

variable {text first back : List Char} {rest : List (List Char)} {c : Char}

/-- A bracket group stands at the front of the text. -/
def BeginsGroup (text : List Char) : Prop :=
  ∃ content more, isGroupContent content ∧ text = '[' :: (content ++ ']' :: more)

/-- The test of the lexer for a group at the front of a text is exact. -/
theorem beginsGroup_iff : BeginsGroup text ↔ startsGroup text := by
  rw [startsGroup_iff]
  constructor
  · rintro ⟨content, more, hcontent, rfl⟩
    exact ⟨'[' :: (content ++ [']']), mem_bracketGroup.mpr ⟨content, hcontent, rfl⟩, more, by simp⟩
  · rintro ⟨group, hgroup, more, rfl⟩
    obtain ⟨content, hcontent, rfl⟩ := mem_bracketGroup.mp hgroup
    exact ⟨content, more, hcontent, by simp⟩

/-- Whether a group stands at the front of a text is decided by the test of the lexer. -/
instance : DecidablePred BeginsGroup := fun _ => decidable_of_iff _ beginsGroup_iff.symm

/-- The text with a point in front of every bracket group. -/
def pointGroups : List Char → List Char
  | [] => []
  | c :: rest =>
    if BeginsGroup (c :: rest) then '.' :: c :: pointGroups rest else c :: pointGroups rest

/-! ## Groups and points -/

/-- Behind the first component the text has ended or goes on with the separator. -/
theorem exists_back_of_splitOn {separator : Char} (h : text.splitOn separator = first :: rest) :
    ∃ back, text = first ++ back ∧ ∀ c ∈ back.head?, c = separator := by
  have htext : [separator].intercalate (text.splitOn separator) = text :=
    List.intercalate_splitOn separator
  rw [h] at htext
  cases rest with
  | nil =>
    rw [List.intercalate_singleton] at htext
    exact ⟨[], by rw [List.append_nil, htext], fun c hc => by cases hc⟩
  | cons next others =>
    rw [List.intercalate_cons_cons] at htext
    refine ⟨separator :: [separator].intercalate (next :: others), ?_, ?_⟩
    · rw [← htext]
      simp
    · intro c hc
      exact (Option.some.inj hc).symm

/-- Whether a group begins in front of a component is a matter of the component alone. -/
theorem startsGroup_component (h : text.splitOn '.' = first :: rest) (c : Char) :
    startsGroup (c :: text) = startsGroup (c :: first) := by
  obtain ⟨back, rfl, hback⟩ := exists_back_of_splitOn h
  rw [Bool.eq_iff_iff, ← List.cons_append]
  constructor
  · intro hstarts
    refine startsGroup_of_append (List.cons_ne_nil _ _) ?_ hstarts
    intro c hc group hgroup
    rw [hback c hc]
    exact point_not_mem_tail hgroup
  · exact startsGroup_mono (List.prefix_append _ _)

/-- A character that is no point belongs to the first component of the text behind it. -/
theorem splitOn_cons_of_ne (hc : c ≠ '.') (text : List Char) :
    (c :: text).splitOn '.' = consFirst c (text.splitOn '.') := by
  obtain ⟨first, rest, hsplit⟩ := List.exists_cons_of_ne_nil (text.splitOn_ne_nil '.')
  rw [List.splitOn_cons_eq_if_modifyHead, if_neg (by simpa using hc), hsplit]
  rfl

/-- A character in front goes to the first of the pieces, whatever stands behind them. -/
theorem consFirst_append (hpieces : rest ≠ []) (others : List (List Char)) :
    consFirst c (rest ++ others) = consFirst c rest ++ others := by
  cases rest with
  | nil => exact absurd rfl hpieces
  | cons piece pieces => rfl

/-- **Points in front of groups cut where the groups are cut.** -/
theorem splitOn_pointGroups (text : List Char) :
    (pointGroups text).splitOn '.' = (text.splitOn '.').flatMap cutGroups := by
  induction text with
  | nil => rfl
  | cons c text ih =>
    rw [pointGroups]
    simp only [beginsGroup_iff]
    by_cases hc : c = '.'
    · subst hc
      have hgroup : startsGroup ('.' :: text) = false := rfl
      simp only [hgroup, Bool.false_eq_true, if_false]
      rw [splitOn_point, splitOn_point, ih, List.flatMap_cons]
      rfl
    · obtain ⟨first, rest, hsplit⟩ := List.exists_cons_of_ne_nil (text.splitOn_ne_nil '.')
      obtain ⟨piece, pieces, hcut, -⟩ := ungrouped_of_cutGroups first
      rw [hsplit, List.flatMap_cons] at ih
      have hrest : (c :: pointGroups text).splitOn '.' =
          consFirst c (cutGroups first) ++ rest.flatMap cutGroups := by
        rw [splitOn_cons_of_ne hc, ih, consFirst_append (by simp [hcut])]
      rw [splitOn_cons_of_ne hc, hsplit, consFirst, List.flatMap_cons, cutGroups,
        startsGroup_component hsplit]
      by_cases hgroup : startsGroup (c :: first)
      · simp only [hgroup, if_true]
        rw [splitOn_point, hrest, List.cons_append]
      · simp only [hgroup]
        exact hrest

/-! ## What tokens keep -/

/-- The components between points have all characters of the text but the points. -/
theorem flatten_splitOn_point (text : List Char) :
    (text.splitOn '.').flatten = text.filter (· != '.') := by
  induction text with
  | nil => rfl
  | cons c text ih =>
    by_cases hc : c = '.'
    · subst hc
      rw [splitOn_point, List.flatten_cons, ih]
      rfl
    · rw [splitOn_cons_of_ne hc, flatten_consFirst, ih, List.filter_cons_of_pos (by simpa using hc)]

/-- Nothing but the points is lost. -/
theorem flatten_tokenChars (text : List Char) :
    (tokenChars text).flatten = text.filter (· != '.') := by
  have hpieces (component : List Char) : (pieces component).flatten = component := by
    rw [pieces, List.flatten_filter_not_isEmpty, flatten_cutGroups]
  rw [tokenChars_eq, ← flatten_splitOn_point]
  generalize text.splitOn '.' = components
  induction components with
  | nil => rfl
  | cons component components ih =>
    rw [List.flatMap_cons, List.flatten_append, hpieces, ih, List.flatten_cons]

/-- A point in the text separates the tokens in front of it from those behind it. -/
theorem tokenChars_append_point (front back : List Char) :
    tokenChars (front ++ '.' :: back) = tokenChars front ++ tokenChars back := by
  rw [tokenChars_eq, tokenChars_eq, tokenChars_eq, List.splitOn_append_cons_self,
    List.flatMap_append]

/-- **The tokens of a text are its pieces when a point is put in front of every bracket group.**  Put
together they are the text without its points, each of them has the shape of a token, and a point in a
text separates its tokens. -/
theorem tokens_eq_pieces (text : String) :
    tokens text =
        (((pointGroups text.toList).splitOn '.').filter (!·.isEmpty)).map String.ofList ∧
      (tokens text).flatMap String.toList = text.toList.filter (· != '.') ∧
      (∀ token ∈ tokens text, IsToken token.toList) ∧
      ∀ other, tokens (text ++ "." ++ other) = tokens text ++ tokens other := by
  refine ⟨?_, ?_, ?_, ?_⟩
  · rw [tokens, splitOn_pointGroups, List.filter_flatMap, tokenChars_eq]
    rfl
  · rw [← flatten_tokenChars, tokens, List.flatMap_map]
    simp [List.flatMap_def]
  · intro token htoken
    obtain ⟨chars, hchars, rfl⟩ := List.mem_map.mp htoken
    rw [String.toList_ofList]
    exact isToken_of_mem_tokenChars hchars
  · intro other
    have hpoint : ".".toList = ['.'] := rfl
    rw [tokens, String.toList_append, String.toList_append, hpoint, List.append_assoc,
      List.singleton_append, tokenChars_append_point, List.map_append]
    rfl

-- A group that holds another bracket is none, and the inner one is cut off.
example : tokens "a[1[2]]b.[x][-3:]" = ["a[1", "[2]]b", "[x]", "[-3:]"] := by cbv

end Path

end TreePath
