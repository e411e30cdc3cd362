import TreePath.Proofs.Path.Search

/-!
# What a token is

The tokens of a path text are its pieces between points and in front of bracket groups.  The search
for groups goes on behind the group that it found, and passes over none that way, because a group
holds no other: the cuts are those in front of every place where a group begins (`splitGroups_eq`).

A token is not empty, holds no point, and no bracket group begins behind its first character
(`isToken_of_mem_tokenChars`); nothing else can be said about it, because every such text is a token
of its own in front of a point, of a group or of the end of the text (`tokenChars_append`).
-/

set_option autoImplicit false

namespace TreePath

namespace Path

variable {text token piece front back : List Char} {c : Char}

/-- A text that can be a token. -/
structure IsToken (token : List Char) : Prop where
  ne_nil : token ≠ []
  no_point : '.' ∉ token
  /-- groups begin at the first character only -/
  no_group : ∀ front group back, token = front ++ group ++ back → group ∈ bracketGroup → front = []

/-! ## Texts without a group -/

/-- No group begins in the text. -/
def Ungrouped (text : List Char) : Prop := ∀ back, back <:+ text → ¬ startsGroup back

/-- No group begins in the empty text. -/
theorem ungrouped_nil : Ungrouped [] := by
  intro back hback hgroup
  rw [List.suffix_nil.mp hback] at hgroup
  cases hgroup

/-- No group begins in a text when none begins at its first character or in the rest. -/
theorem ungrouped_cons : Ungrouped (c :: text) ↔ ¬ startsGroup (c :: text) ∧ Ungrouped text := by
  constructor
  · intro h
    exact ⟨h _ List.suffix_rfl, fun back hback => h back (hback.trans (List.suffix_cons c text))⟩
  · rintro ⟨hfirst, hrest⟩ back hback
    rcases List.suffix_cons_iff.mp hback with rfl | hsuffix
    · exact hfirst
    · exact hrest back hsuffix

/-- Behind the first character no group begins. -/
theorem ungrouped_tail_iff : Ungrouped (c :: text).tail ↔
    ∀ front group back, c :: text = front ++ group ++ back → group ∈ bracketGroup → front = [] := by
  constructor
  · intro h front group back hsplit hgroup
    cases front with
    | nil => rfl
    | cons first front =>
      rw [List.append_assoc, List.cons_append] at hsplit
      obtain ⟨-, rfl⟩ := List.cons.inj hsplit
      have hsuffix : group ++ back <:+ front ++ (group ++ back) := List.suffix_append _ _
      exact absurd (startsGroup_iff.mpr ⟨group, hgroup, List.prefix_append group back⟩)
        (h _ hsuffix)
  · rintro h back ⟨front, hsplit⟩ hstarts
    obtain ⟨group, hgroup, more, rfl⟩ := startsGroup_iff.mp hstarts
    have hcut := h (c :: front) group more (by simpa using hsplit.symm) hgroup
    cases hcut

/-- Without an opening bracket no group begins. -/
theorem ungrouped_of_not_mem (h : '[' ∉ text) : Ungrouped text := by
  intro back hback hgroup
  exact h (hback.mem (List.mem_of_mem_head? (head?_of_startsGroup hgroup)))

/-- A group begins at a bracket, so none begins in front of the first one. -/
theorem ungrouped_append (hopen : '[' ∉ front) (h : Ungrouped text) : Ungrouped (front ++ text) := by
  induction front with
  | nil => exact h
  | cons c front ih =>
    obtain ⟨hfirst, hlater⟩ := not_or.mp (mt List.mem_cons.mpr hopen)
    refine ungrouped_cons.mpr ⟨fun hgroup => ?_, ih hlater⟩
    exact hfirst (Option.some.inj (head?_of_startsGroup hgroup)).symm

/-- A text without points and groups is a token unless it is empty. -/
theorem isToken_of_ungrouped (hne : text ≠ []) (hpoint : '.' ∉ text) (h : Ungrouped text) :
    IsToken text := by
  cases text with
  | nil => exact absurd rfl hne
  | cons c text => exact ⟨hne, hpoint, ungrouped_tail_iff.mp (ungrouped_cons.mp h).2⟩

/-- A group is a token: it holds no second one. -/
theorem isToken_of_mem_bracketGroup (h : token ∈ bracketGroup) : IsToken token := by
  obtain ⟨content, hcontent, rfl⟩ := mem_bracketGroup.mp h
  refine ⟨List.cons_ne_nil _ _, ?_, ungrouped_tail_iff.mp ?_⟩
  · have hpoint : '.' ∉ content := not_mem_content hcontent (by decide)
    simp [hpoint]
  · exact ungrouped_of_not_mem (bracket_not_mem_tail h)

/-! ## Cutting in front of groups -/

/-- Adds a character to the first of the pieces. -/
def consFirst (c : Char) : List (List Char) → List (List Char)
  | [] => [[c]]
  | piece :: pieces => (c :: piece) :: pieces

/-- Cuts a text in front of every bracket group; the first piece may be empty. -/
def cutGroups : List Char → List (List Char)
  | [] => [[]]
  | c :: rest =>
    let pieces := consFirst c (cutGroups rest)
    if startsGroup (c :: rest) then [] :: pieces else pieces

/-- The pieces of a text without points. -/
def pieces (text : List Char) : List (List Char) := (cutGroups text).filter (!·.isEmpty)

/-- A text whose first character belongs to no piece in front of it: it is empty or begins with a
group. -/
def Opens (text : List Char) : Prop := text = [] ∨ startsGroup text

/-- The first character of such a text stands in no group but at its front. -/
theorem Opens.head? (h : Opens text) :
    ∀ c ∈ text.head?, ∀ group ∈ bracketGroup, c ∉ group.tail := by
  intro c hc group hgroup
  rcases h with rfl | hstarts
  · cases hc
  · rw [head?_of_startsGroup hstarts] at hc
    exact Option.some.inj hc ▸ bracket_not_mem_tail hgroup

/-- The cut in front of such a text leaves an empty first piece. -/
theorem Opens.cutGroups (h : Opens text) : ∃ rest, cutGroups text = [] :: rest := by
  cases text with
  | nil => exact ⟨[], rfl⟩
  | cons c text =>
    have hgroup : startsGroup (c :: text) := h.resolve_left (List.cons_ne_nil _ _)
    refine ⟨consFirst c (Path.cutGroups text), ?_⟩
    rw [Path.cutGroups]
    simp only [hgroup, if_true]

/-- A front without a group is the first piece in front of a text that opens. -/
theorem cutGroups_append (hfront : Ungrouped front) (hback : Opens back)
    {rest : List (List Char)} (hcut : cutGroups back = [] :: rest) :
    cutGroups (front ++ back) = front :: rest := by
  induction front with
  | nil => exact hcut
  | cons c front ih =>
    obtain ⟨hfirst, hlater⟩ := ungrouped_cons.mp hfront
    have hgroup : startsGroup (c :: (front ++ back)) = false := by
      rw [← Bool.not_eq_true]
      exact fun h => hfirst (startsGroup_of_append (List.cons_ne_nil _ _) hback.head? h)
    rw [List.cons_append, cutGroups, ih hlater]
    simp only [hgroup, consFirst]
    rfl

/-- A token is the first piece of a text that goes on with the end or with a group. -/
theorem pieces_append (hne : token ≠ []) (htail : Ungrouped token.tail) (hback : Opens back) :
    pieces (token ++ back) = token :: pieces back := by
  obtain ⟨rest, hcut⟩ := hback.cutGroups
  cases token with
  | nil => exact absurd rfl hne
  | cons c token =>
    have hpieces := cutGroups_append htail hback hcut
    rw [List.tail_cons] at hpieces
    rw [pieces, pieces, List.cons_append, cutGroups, hcut, hpieces]
    by_cases hgroup : startsGroup (c :: (token ++ back)) <;> simp [hgroup, consFirst]

/-- A character in front of the pieces stands in front of their characters. -/
theorem flatten_consFirst (c : Char) (pieces : List (List Char)) :
    (consFirst c pieces).flatten = c :: pieces.flatten := by
  cases pieces <;> simp [consFirst]

/-- The pieces put together are the text. -/
theorem flatten_cutGroups (text : List Char) : (cutGroups text).flatten = text := by
  induction text with
  | nil => rfl
  | cons c text ih =>
    rw [cutGroups]
    by_cases hgroup : startsGroup (c :: text) <;> simp [hgroup, flatten_consFirst, ih]

/-- No group begins in the first piece, and in the others only at the first character. -/
theorem ungrouped_of_cutGroups (text : List Char) :
    ∃ first rest, cutGroups text = first :: rest ∧ Ungrouped first ∧
      ∀ piece ∈ rest, Ungrouped piece.tail := by
  induction text with
  | nil => exact ⟨[], [], rfl, ungrouped_nil, fun piece hpiece => by cases hpiece⟩
  | cons c text ih =>
    obtain ⟨first, rest, hcut, hfirst, hrest⟩ := ih
    rw [cutGroups, hcut]
    by_cases hgroup : startsGroup (c :: text)
    · simp only [hgroup, if_true, consFirst]
      refine ⟨[], (c :: first) :: rest, rfl, ungrouped_nil, ?_⟩
      exact List.forall_mem_cons.mpr ⟨hfirst, hrest⟩
    · simp only [hgroup, consFirst]
      refine ⟨c :: first, rest, rfl, ungrouped_cons.mpr ⟨?_, hfirst⟩, hrest⟩
      -- A group at the head of the piece would be one at the head of the text.
      intro hpiece
      have htext : first <+: text := by
        rw [← flatten_cutGroups text, hcut, List.flatten_cons]
        exact List.prefix_append _ _
      exact hgroup (startsGroup_mono (List.cons_prefix_cons.mpr ⟨rfl, htext⟩) hpiece)

/-- Every piece of a text without points is a token. -/
theorem isToken_of_mem_pieces (htext : '.' ∉ text) (h : piece ∈ pieces text) : IsToken piece := by
  obtain ⟨hmem, hne⟩ := List.mem_filter.mp h
  have hne : piece ≠ [] := by simpa using hne
  have hpoint : '.' ∉ piece := by
    intro hpoint
    rw [← flatten_cutGroups text] at htext
    exact htext (List.mem_flatten.mpr ⟨piece, hmem, hpoint⟩)
  have htail : Ungrouped piece.tail := by
    obtain ⟨first, rest, hcut, hfirst, hrest⟩ := ungrouped_of_cutGroups text
    rw [hcut] at hmem
    rcases List.mem_cons.mp hmem with rfl | hlater
    · exact fun back hback => hfirst back (hback.trans (List.tail_suffix _))
    · exact hrest piece hlater
  cases piece with
  | nil => exact absurd rfl hne
  | cons c piece => exact ⟨hne, hpoint, ungrouped_tail_iff.mp htail⟩

/-! ## The search passes over no group -/

/-- **The search cuts in front of every place where a group begins.**  What it passes over without
searching is the inside of a group that it found, which holds no bracket. -/
theorem splitGroups_eq (piece : List Char) {inside : Nat} (hinside : '[' ∉ text.take inside) :
    splitGroups piece inside text = (cutGroups text).modifyHead (piece ++ ·) := by
  induction text generalizing piece inside with
  | nil => simp [splitGroups, cutGroups]
  | cons c text ih =>
    obtain ⟨first, rest, hcut, -⟩ := ungrouped_of_cutGroups text
    rw [cutGroups, hcut, consFirst]
    rw [hcut] at ih
    cases inside with
    | succ inside =>
      rw [List.take_succ_cons, List.mem_cons, not_or] at hinside
      have hgroup : ¬ startsGroup (c :: text) := by
        intro h
        have hhead := head?_of_startsGroup h
        exact hinside.1 (Option.some.inj hhead).symm
      rw [splitGroups, ih _ hinside.2]
      simp [hgroup]
    | zero =>
      cases hfront : frontGroup? (c :: text) with
      | none =>
        have hgroup := frontGroup?_eq_none_iff.mp hfront
        simp only [splitGroups, hfront]
        rw [ih _ (by simp)]
        simp [hgroup]
      | some group =>
        obtain ⟨hgroup, hbegins⟩ := frontGroup?_eq_some_iff.mp hfront
        have hstarts : startsGroup (c :: text) := startsGroup_iff.mpr ⟨group, hgroup, hbegins⟩
        have hbrackets := bracket_not_mem_tail hgroup
        obtain ⟨content, -, rfl⟩ := mem_bracketGroup.mp hgroup
        obtain ⟨-, more, rfl⟩ := List.cons_prefix_cons.mp hbegins
        have hlength : ('[' :: (content ++ [']'])).length - 1 = (content ++ [']']).length := rfl
        simp only [splitGroups, hfront]
        rw [ih [c] (by rwa [hlength, List.take_left])]
        simp only [hstarts, if_true, List.modifyHead_cons, List.append_nil, List.singleton_append]

/-! ## Cutting at points -/

/-- The separator stands in no component. -/
theorem not_mem_of_mem_splitOn {separator : Char} (h : piece ∈ text.splitOn separator) :
    separator ∉ piece := by
  induction text generalizing piece with
  | nil =>
    rw [List.splitOn_nil, List.mem_singleton] at h
    rw [h]
    exact List.not_mem_nil
  | cons c text ih =>
    obtain ⟨first, rest, hsplit⟩ := List.exists_cons_of_ne_nil (text.splitOn_ne_nil separator)
    rw [List.splitOn_cons_eq_if_modifyHead, hsplit] at h
    rw [hsplit] at ih
    by_cases hc : c = separator
    · rw [if_pos (by simpa using hc)] at h
      rcases List.mem_cons.mp h with rfl | hmem
      · exact List.not_mem_nil
      · exact ih hmem
    · rw [if_neg (by simpa using hc), List.modifyHead_cons] at h
      rcases List.mem_cons.mp h with rfl | hmem
      · exact List.not_mem_cons_of_ne_of_not_mem (fun heq => hc heq.symm) (ih List.mem_cons_self)
      · exact ih (List.mem_cons_of_mem _ hmem)

/-- The pieces between points of a text behind a front without points. -/
theorem splitOn_append {separator : Char} (hfront : separator ∉ front) (back : List Char) :
    (front ++ back).splitOn separator = (back.splitOn separator).modifyHead (front ++ ·) := by
  induction front with
  | nil =>
    obtain ⟨first, rest, hsplit⟩ := List.exists_cons_of_ne_nil (back.splitOn_ne_nil separator)
    rw [List.nil_append, hsplit]
    rfl
  | cons c front ih =>
    obtain ⟨hc, hlater⟩ := not_or.mp (mt List.mem_cons.mpr hfront)
    have hne : (c == separator) = false := by simpa using fun heq => hc heq.symm
    rw [List.cons_append, List.splitOn_cons_eq_if_modifyHead, hne, ih hlater,
      if_neg Bool.false_ne_true, List.modifyHead_modifyHead]
    rfl

/-- A point at the front of a text is behind an empty component. -/
theorem splitOn_point (text : List Char) : ('.' :: text).splitOn '.' = [] :: text.splitOn '.' :=
  List.splitOn_append_cons_self_of_not_mem List.not_mem_nil text

/-- The tokens are the pieces of the components between points, in their order. -/
theorem tokenChars_eq (text : List Char) :
    tokenChars text = (text.splitOn '.').flatMap pieces := by
  have hcut (component : List Char) : splitGroups [] 0 component = cutGroups component := by
    rw [splitGroups_eq [] (by simp)]
    exact congrFun List.modifyHead_id _
  rw [tokenChars, List.filter_flatMap]
  simp only [hcut]
  rfl

/-- **Every token of a text has the shape of a token.** -/
theorem isToken_of_mem_tokenChars (h : token ∈ tokenChars text) : IsToken token := by
  rw [tokenChars_eq] at h
  obtain ⟨component, hcomponent, hpiece⟩ := List.mem_flatMap.mp h
  exact isToken_of_mem_pieces (not_mem_of_mem_splitOn hcomponent) hpiece

/-- A text that may follow a token: up to its first point it is empty or begins with a group. -/
def Follows (text : List Char) : Prop :=
  ∃ first rest, text.splitOn '.' = first :: rest ∧ Opens first

/-- Nothing can follow a token. -/
theorem follows_nil : Follows [] := ⟨[], [], rfl, .inl rfl⟩

/-- A point can follow a token. -/
theorem follows_point (text : List Char) : Follows ('.' :: text) :=
  ⟨[], text.splitOn '.', splitOn_point text, .inl rfl⟩

/-- A bracket group can follow a token. -/
theorem follows_group {group : List Char} (hgroup : group ∈ bracketGroup) (text : List Char) :
    Follows (group ++ text) := by
  obtain ⟨first, rest, hsplit⟩ := List.exists_cons_of_ne_nil (text.splitOn_ne_nil '.')
  refine ⟨group ++ first, rest, ?_, .inr ?_⟩
  · rw [splitOn_append (isToken_of_mem_bracketGroup hgroup).no_point, hsplit]
    rfl
  · exact startsGroup_iff.mpr ⟨group, hgroup, List.prefix_append group first⟩

/-- **A token is cut off** in front of a point, of a group and of the end of the text. -/
theorem tokenChars_append (htoken : IsToken token) (hback : Follows back) :
    tokenChars (token ++ back) = token :: tokenChars back := by
  obtain ⟨first, rest, hsplit, hfirst⟩ := hback
  have htail : Ungrouped token.tail := by
    cases token with
    | nil => exact ungrouped_nil
    | cons c token => exact ungrouped_tail_iff.mpr htoken.no_group
  rw [tokenChars_eq, tokenChars_eq, splitOn_append htoken.no_point, hsplit, List.modifyHead_cons,
    List.flatMap_cons, List.flatMap_cons, pieces_append htoken.ne_nil htail hfirst, List.cons_append]

/-- A token is split into itself. -/
theorem tokenChars_of_isToken (h : IsToken token) : tokenChars token = [token] := by
  have hcut := tokenChars_append h follows_nil
  rwa [List.append_nil] at hcut

/-- A point at the front of a text adds no token. -/
theorem tokenChars_point (text : List Char) : tokenChars ('.' :: text) = tokenChars text := by
  rw [tokenChars_eq, tokenChars_eq, splitOn_point]
  rfl

/-! ## Tokens as strings -/

/-- A token as a text has itself as its only token. -/
theorem tokens_of_isToken {token : String} (h : IsToken token.toList) : tokens token = [token] := by
  rw [tokens, tokenChars_of_isToken h, List.map_singleton, String.ofList_toList]

/-- A name with a bracket group behind it is split in front of the group. -/
theorem tokens_append {name token : String} (hname : IsToken name.toList) (hgroup : token.toList ∈ bracketGroup) :
    tokens (name ++ token) = [name, token] := by
  have hfollows : Follows token.toList := by
    have h := follows_group hgroup []
    rwa [List.append_nil] at h
  rw [tokens, String.toList_append, tokenChars_append hname hfollows,
    tokenChars_of_isToken (isToken_of_mem_bracketGroup hgroup), List.map_cons, List.map_singleton,
    String.ofList_toList, String.ofList_toList]

end Path

end TreePath
