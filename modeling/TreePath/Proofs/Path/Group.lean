import Mathlib.Computability.Language
import TreePath.Path.Token

/-!
# Bracket groups as a language

A path text is cut in front of every bracket group.  `bracketGroup` is the regular language of these
groups, built up from numbers and colons.  In other words a group is a bracket that holds something,
made of parts between colons, where every part is empty or an optional minus with digits
(`mem_bracketGroup`).  Whether a text begins with a word of the language is decided by what stands in
front of its first closing bracket (`startsGroup_iff`).

A group holds only digits, minuses and colons (`char_of_isGroupContent`).  So it holds no other group
and no point, and a text that goes on with a bracket or a point begins with a group only if its front
already does (`startsGroup_of_append`).
-/

set_option autoImplicit false

namespace TreePath

namespace Path

open scoped Computability

/-- One or more digits. -/
def digits : Language Char := {text : List Char | text ≠ [] ∧ ∀ c ∈ text, c.isDigit}

/-- Digits behind an optional minus. -/
def number : Language Char := (1 + {['-']}) * digits

/-- A colon with an optional number behind it. -/
def bound : Language Char := {[':']} * (1 + number)

/-- A bracket of numbers that are separated by colons, where any number may be missing but something
has to be there. -/
def bracketGroup : Language Char :=
  {['[']} * (number * bound∗ + bound * bound∗) * {[']']}

/-- A part of a bracket group: empty, or an optional minus with digits. -/
def isGroupPart : List Char → Bool
  | [] => true
  | '-' :: digits => !digits.isEmpty && digits.all Char.isDigit
  | digits => digits.all Char.isDigit

/-- The content of a bracket group. -/
def isGroupContent (content : List Char) : Bool :=
  !content.isEmpty && (content.splitOn ':').all isGroupPart

/-- The text begins with a bracket group. -/
def startsGroup : List Char → Bool
  | '[' :: rest =>
    let content := rest.takeWhile (· != ']')
    content.length < rest.length && isGroupContent content
  | _ => false

variable {content part text front back : List Char} {c : Char}

/-! ## The parts of a group -/

/-- A part of a group holds minus signs and digits only. -/
theorem char_of_isGroupPart (h : isGroupPart part) (hc : c ∈ part) : c = '-' ∨ c.isDigit := by
  fun_cases isGroupPart part with
  | case1 => cases hc
  | case2 digits =>
    simp only [isGroupPart, Bool.and_eq_true, List.all_eq_true] at h
    rcases List.mem_cons.mp hc with rfl | hmem
    · exact .inl rfl
    · exact .inr (h.2 c hmem)
  | case3 digits hempty hminus =>
    simp only [isGroupPart, List.all_eq_true] at h
    exact .inr (h c hc)

/-- Digits alone are a part of a group, and so is the empty text. -/
theorem isGroupPart_of_digits (h : ∀ c ∈ part, c.isDigit) : isGroupPart part := by
  fun_cases isGroupPart part with
  | case1 => rfl
  | case2 digits => cases h '-' List.mem_cons_self
  | case3 digits hempty hminus => simpa [isGroupPart] using h

/-- Without a minus a part of a group holds digits only. -/
theorem isGroupPart_iff_of_unsigned (h : ∀ rest, part ≠ '-' :: rest) :
    isGroupPart part ↔ ∀ c ∈ part, c.isDigit := by
  refine ⟨fun hpart => ?_, isGroupPart_of_digits⟩
  fun_cases isGroupPart part with
  | case1 => exact List.forall_mem_nil _
  | case2 rest => exact absurd rfl (h rest)
  | case3 digits hempty hminus => simpa [isGroupPart] using hpart

/-- A number is a part of a group that is not empty. -/
theorem mem_number : text ∈ number ↔ text ≠ [] ∧ isGroupPart text := by
  rw [number, Language.mem_mul]
  constructor
  · rintro ⟨sign, hsign, text, ⟨hne, hall⟩, rfl⟩
    rcases hsign with rfl | rfl
    · exact ⟨hne, isGroupPart_of_digits hall⟩
    · refine ⟨List.cons_ne_nil _ _, ?_⟩
      simpa [isGroupPart, hne] using hall
  · rintro ⟨hne, hpart⟩
    fun_cases isGroupPart text with
    | case1 => exact absurd rfl hne
    | case2 digits =>
      simp only [isGroupPart, Bool.and_eq_true, List.all_eq_true] at hpart
      exact ⟨['-'], .inr rfl, digits, ⟨by simpa using hpart.1, hpart.2⟩, rfl⟩
    | case3 digits hempty hminus =>
      simp only [isGroupPart, List.all_eq_true] at hpart
      exact ⟨[], .inl rfl, text, ⟨hne, hpart⟩, rfl⟩

/-- The parts of a group are the numbers and the empty text. -/
theorem mem_optional_number : text ∈ 1 + number ↔ isGroupPart text := by
  rw [Language.mem_add, mem_number, Language.mem_one]
  constructor
  · rintro (rfl | ⟨-, hpart⟩)
    · rfl
    · exact hpart
  · intro hpart
    by_cases hempty : text = []
    · exact .inl hempty
    · exact .inr ⟨hempty, hpart⟩

/-- Bounds one after another are parts with a colon in front of each. -/
theorem mem_bounds : text ∈ bound∗ ↔
    ∃ parts : List (List Char), text = parts.flatMap (':' :: ·) ∧ ∀ part ∈ parts, isGroupPart part := by
  rw [Language.mem_kstar]
  constructor
  · rintro ⟨bounds, rfl, hbounds⟩
    induction bounds with
    | nil => exact ⟨[], rfl, fun part hpart => by cases hpart⟩
    | cons first rest ih =>
      obtain ⟨parts, hparts, hall⟩ := ih fun part hpart => hbounds part (List.mem_cons_of_mem _ hpart)
      obtain ⟨colon, rfl, part, hpart, rfl⟩ := hbounds first List.mem_cons_self
      refine ⟨part :: parts, ?_, ?_⟩
      · rw [List.flatten_cons, hparts, List.flatMap_cons]
        rfl
      · exact List.forall_mem_cons.mpr ⟨mem_optional_number.mp hpart, hall⟩
  · rintro ⟨parts, rfl, hparts⟩
    refine ⟨parts.map (':' :: ·), List.flatMap_def, ?_⟩
    intro text htext
    obtain ⟨part, hpart, rfl⟩ := List.mem_map.mp htext
    exact ⟨[':'], rfl, part, mem_optional_number.mpr (hparts part hpart), rfl⟩

/-! ## The content of a group -/

/-- A part of a group holds no colon, so it is one component of the content. -/
theorem colon_not_mem_of_isGroupPart (h : isGroupPart part) : ':' ∉ part := by
  intro hcolon
  rcases char_of_isGroupPart h hcolon with heq | hdigit
  · cases heq
  · cases hdigit

/-- Parts that are joined by colons are the first part and then each part behind a colon. -/
theorem intercalate_colon (first : List Char) (rest : List (List Char)) :
    [':'].intercalate (first :: rest) = first ++ rest.flatMap (':' :: ·) := by
  induction rest generalizing first with
  | nil => simp
  | cons next rest ih =>
    rw [List.intercalate_cons_cons, ih, List.flatMap_cons, List.append_assoc]
    rfl

/-- Parts with colons between them are told apart by the colons. -/
theorem splitOn_of_colon_not_mem {first : List Char} {rest : List (List Char)}
    (hcolon : ∀ part ∈ first :: rest, ':' ∉ part) :
    (first ++ rest.flatMap (':' :: ·)).splitOn ':' = first :: rest := by
  rw [← intercalate_colon, List.splitOn_intercalate ':' hcolon (List.cons_ne_nil _ _)]

/-- Parts of a group that are joined by colons are found again by splitting at the colons. -/
theorem splitOn_parts {first : List Char} {rest : List (List Char)}
    (h : ∀ part ∈ first :: rest, isGroupPart part) :
    (first ++ rest.flatMap (':' :: ·)).splitOn ':' = first :: rest :=
  splitOn_of_colon_not_mem fun part hpart => colon_not_mem_of_isGroupPart (h part hpart)

/-- A text is its parts between colons with a colon in front of each but the first. -/
theorem exists_parts (content : List Char) : ∃ first rest,
    content.splitOn ':' = first :: rest ∧ content = first ++ rest.flatMap (':' :: ·) := by
  obtain ⟨first, rest, hsplit⟩ := List.exists_cons_of_ne_nil (content.splitOn_ne_nil ':')
  refine ⟨first, rest, hsplit, ?_⟩
  rw [← intercalate_colon, ← hsplit, List.intercalate_splitOn]

/-- Apart from the colons a text has the characters of its parts. -/
theorem mem_iff_of_ne_colon (hcolon : c ≠ ':') :
    c ∈ content ↔ ∃ part ∈ content.splitOn ':', c ∈ part := by
  obtain ⟨first, rest, hsplit, hcontent⟩ := exists_parts content
  rw [hsplit, hcontent]
  simp [hcolon]

/-- The content of a group is not empty and consists of parts with colons between them. -/
theorem isGroupContent_iff : isGroupContent content ↔ content ≠ [] ∧
    ∃ first rest, content = first ++ rest.flatMap (':' :: ·) ∧
      ∀ part ∈ first :: rest, isGroupPart part := by
  have hempty : (!content.isEmpty) = true ↔ content ≠ [] := by simp
  rw [isGroupContent, Bool.and_eq_true, hempty, List.all_eq_true]
  refine and_congr_right fun _ => ?_
  constructor
  · intro hparts
    obtain ⟨first, rest, hsplit, hcontent⟩ := exists_parts content
    rw [hsplit] at hparts
    exact ⟨first, rest, hcontent, hparts⟩
  · rintro ⟨first, rest, rfl, hparts⟩
    rw [splitOn_parts hparts]
    exact hparts

/-- The content of a group is what the language of groups has between the brackets. -/
theorem mem_groupContent :
    content ∈ number * bound∗ + bound * bound∗ ↔ isGroupContent content := by
  rw [isGroupContent_iff, Language.mem_add, Language.mem_mul, Language.mem_mul]
  constructor
  · rintro (⟨first, hfirst, bounds, hbounds, rfl⟩ | ⟨first, hfirst, bounds, hbounds, rfl⟩)
    · obtain ⟨hne, hpart⟩ := mem_number.mp hfirst
      obtain ⟨rest, rfl, hrest⟩ := mem_bounds.mp hbounds
      refine ⟨by simp [hne], first, rest, rfl, List.forall_mem_cons.mpr ⟨hpart, hrest⟩⟩
    · -- The first part is missing, so a colon comes first.
      obtain ⟨colon, rfl, next, hnext, rfl⟩ := hfirst
      obtain ⟨rest, rfl, hrest⟩ := mem_bounds.mp hbounds
      refine ⟨by simp, [], next :: rest, rfl, ?_⟩
      exact List.forall_mem_cons.mpr
        ⟨rfl, List.forall_mem_cons.mpr ⟨mem_optional_number.mp hnext, hrest⟩⟩
  · rintro ⟨hne, first, rest, rfl, hparts⟩
    obtain ⟨hfirst, hrest⟩ := List.forall_mem_cons.mp hparts
    by_cases hempty : first = []
    · subst hempty
      cases rest with
      | nil => exact absurd rfl hne
      | cons next rest =>
        obtain ⟨hnext, hlater⟩ := List.forall_mem_cons.mp hrest
        exact .inr ⟨':' :: next, ⟨[':'], rfl, next, mem_optional_number.mpr hnext, rfl⟩,
          rest.flatMap (':' :: ·), mem_bounds.mpr ⟨rest, rfl, hlater⟩, rfl⟩
    · exact .inl ⟨first, mem_number.mpr ⟨hempty, hfirst⟩, rest.flatMap (':' :: ·),
        mem_bounds.mpr ⟨rest, rfl, hrest⟩, rfl⟩

/-- A group holds only colons, minuses and digits. -/
theorem char_of_isGroupContent (h : isGroupContent content) (hc : c ∈ content) :
    c = ':' ∨ c = '-' ∨ c.isDigit := by
  by_cases hcolon : c = ':'
  · exact .inl hcolon
  · obtain ⟨part, hpart, hmem⟩ := (mem_iff_of_ne_colon hcolon).mp hc
    rw [isGroupContent, Bool.and_eq_true, List.all_eq_true] at h
    exact .inr (char_of_isGroupPart (h.2 part hpart) hmem)

/-- A character that is no colon, minus or digit stands in no content of a group. -/
theorem not_mem_content (h : isGroupContent content) (hc : ¬ (c = ':' ∨ c = '-' ∨ c.isDigit)) :
    c ∉ content := fun hmem => hc (char_of_isGroupContent h hmem)

/-! ## Groups in a text -/

/-- The groups are the brackets of the contents of groups. -/
theorem mem_bracketGroup :
    text ∈ bracketGroup ↔ ∃ content, isGroupContent content ∧ text = '[' :: (content ++ [']']) := by
  rw [bracketGroup, Language.mem_mul]
  constructor
  · rintro ⟨opened, hopened, close, rfl, rfl⟩
    obtain ⟨bracket, rfl, content, hcontent, rfl⟩ := Language.mem_mul.mp hopened
    exact ⟨content, mem_groupContent.mp hcontent, rfl⟩
  · rintro ⟨content, hcontent, rfl⟩
    exact ⟨'[' :: content, ⟨['['], rfl, content, mem_groupContent.mpr hcontent, rfl⟩, [']'], rfl,
      rfl⟩

/-- A text that is longer than what it has in front of its first closing bracket goes on with this
bracket. -/
theorem exists_close (h : (text.takeWhile (· != ']')).length < text.length) :
    ∃ more, text = text.takeWhile (· != ']') ++ ']' :: more := by
  have hparts : text.takeWhile (· != ']') ++ text.dropWhile (· != ']') = text :=
    List.takeWhile_append_dropWhile
  cases hleft : text.dropWhile (· != ']') with
  | nil =>
    rw [hleft, List.append_nil] at hparts
    rw [hparts] at h
    exact absurd h (Nat.lt_irrefl _)
  | cons close more =>
    have hclose := List.head?_dropWhile_not (· != ']') text
    rw [hleft] at hclose
    obtain rfl : close = ']' := by simpa using hclose
    exact ⟨more, by rw [← hleft, hparts]⟩

/-- A bracket without another closing one is a group exactly if its content is that of one. -/
theorem startsGroup_bracket (hclose : ']' ∉ content) (more : List Char) :
    startsGroup ('[' :: (content ++ ']' :: more)) = isGroupContent content := by
  have htake : (content ++ ']' :: more).takeWhile (· != ']') = content := by
    have hall : ∀ c ∈ content, (c != ']') = true := by
      intro c hc
      have hne : c ≠ ']' := fun heq => hclose (heq ▸ hc)
      simpa using hne
    rw [List.takeWhile_append_of_pos hall]
    simp
  rw [startsGroup, htake]
  simp

/-- A text is cut exactly where a word of the language of groups begins. -/
theorem startsGroup_iff : startsGroup text ↔ ∃ group ∈ bracketGroup, group <+: text := by
  constructor
  · intro h
    fun_cases startsGroup text with
    | case1 rest content =>
      rw [startsGroup, Bool.and_eq_true, decide_eq_true_eq] at h
      obtain ⟨more, hmore⟩ := exists_close h.1
      refine ⟨'[' :: (content ++ [']']), mem_bracketGroup.mpr ⟨content, h.2, rfl⟩, more, ?_⟩
      rw [List.cons_append, List.append_assoc, List.singleton_append, ← hmore]
    | case2 => simp [startsGroup] at h
  · rintro ⟨group, hgroup, rest, rfl⟩
    obtain ⟨content, hcontent, rfl⟩ := mem_bracketGroup.mp hgroup
    have hclose : ']' ∉ content := not_mem_content hcontent (by decide)
    rw [List.cons_append, List.append_assoc, List.singleton_append, startsGroup_bracket hclose]
    exact hcontent

/-- A text whose front begins with a group begins with this group, too. -/
theorem startsGroup_mono (hlonger : front <+: text) (h : startsGroup front) : startsGroup text := by
  obtain ⟨group, hgroup, hfront⟩ := startsGroup_iff.mp h
  exact startsGroup_iff.mpr ⟨group, hgroup, hfront.trans hlonger⟩

/-- The opening bracket of a group is its first character and stands nowhere else in it. -/
theorem bracket_not_mem_tail {group : List Char} (hgroup : group ∈ bracketGroup) :
    '[' ∉ group.tail := by
  obtain ⟨content, hcontent, rfl⟩ := mem_bracketGroup.mp hgroup
  have hopen : '[' ∉ content := not_mem_content hcontent (by decide)
  simp [hopen]

/-- No point stands in a group. -/
theorem point_not_mem_tail {group : List Char} (hgroup : group ∈ bracketGroup) :
    '.' ∉ group.tail := by
  obtain ⟨content, hcontent, rfl⟩ := mem_bracketGroup.mp hgroup
  have hpoint : '.' ∉ content := not_mem_content hcontent (by decide)
  simp [hpoint]

/-- A text that begins with a group begins with an opening bracket. -/
theorem head?_of_startsGroup (h : startsGroup text) : text.head? = some '[' := by
  obtain ⟨group, hgroup, more, rfl⟩ := startsGroup_iff.mp h
  obtain ⟨content, -, rfl⟩ := mem_bracketGroup.mp hgroup
  rfl

/-- A text that does not go on, or goes on with a character that no group holds behind its first,
begins with a group only if its front does. -/
theorem startsGroup_of_append (hfront : front ≠ [])
    (hback : ∀ c ∈ back.head?, ∀ group ∈ bracketGroup, c ∉ group.tail)
    (h : startsGroup (front ++ back)) : startsGroup front := by
  obtain ⟨group, hgroup, hbegins⟩ := startsGroup_iff.mp h
  rcases List.prefix_or_prefix_of_prefix hbegins (List.prefix_append front back) with hwithin | hover
  · exact startsGroup_iff.mpr ⟨group, hgroup, hwithin⟩
  · obtain ⟨beyond, rfl⟩ := hover
    cases beyond with
    | nil => exact startsGroup_iff.mpr ⟨_, hgroup, by simp⟩
    | cons c more =>
      -- The group would reach into the back and hold its first character.
      obtain ⟨rest, hrest⟩ := (List.prefix_append_right_inj front).mp hbegins
      have hmem : c ∈ (front ++ c :: more).tail := by
        rw [List.tail_append_of_ne_nil hfront]
        simp
      exact absurd hmem (hback c (by simp [← hrest]) _ hgroup)

end Path

end TreePath
