import TreePath.Proofs.Path.RoundTrip

/-!
# Brackets behind a name

What a bracket is, is said twice.  A path text is cut in front of every bracket group, and a token in
brackets is read as an index or a slice.  The two differ in the sign of their numbers.  In a group a
number has a minus or no sign (`number`), and what is read as an index or a slice may have a plus as
well (`signedNumber`).

So a bracket that is read is a group exactly when it has no plus (`Readable.isGroupContent_iff`).  By
itself every such bracket is a token.  Behind a name it is cut off, and then read as it is by itself,
when it has no plus, and with a plus it stays in the name (`parse_bracket`).
-/

set_option autoImplicit false

namespace TreePath

namespace Path

open scoped Computability

variable {content part text : List Char} {c : Char}

/-! ## Numbers with a plus -/

/-- A number as it stands in a group, or digits behind a plus. -/
def signedNumber : Language Char := number + {['+']} * digits

/-- A signed number is a number of a group, or a plus with digits behind it. -/
theorem mem_signedNumber :
    text ∈ signedNumber ↔ text ∈ number ∨ ∃ rest ∈ digits, text = '+' :: rest := by
  rw [signedNumber, Language.mem_add, Language.mem_mul]
  refine or_congr_right ?_
  constructor
  · rintro ⟨plus, rfl, rest, hrest, rfl⟩
    exact ⟨rest, hrest, rfl⟩
  · rintro ⟨rest, hrest, rfl⟩
    exact ⟨['+'], rfl, rest, hrest, rfl⟩

/-- The numbers of groups are those without a plus. -/
theorem mem_number_iff : part ∈ number ↔ part ∈ signedNumber ∧ '+' ∉ part := by
  rw [mem_signedNumber]
  constructor
  · intro h
    refine ⟨.inl h, fun hplus => ?_⟩
    rcases char_of_isGroupPart (mem_number.mp h).2 hplus with hminus | hdigit
    · cases hminus
    · cases hdigit
  · rintro ⟨h | ⟨rest, -, rfl⟩, hplus⟩
    · exact h
    · exact absurd List.mem_cons_self hplus

/-- A signed number has at least one digit, so it is not empty. -/
theorem ne_nil_of_mem_signedNumber (h : part ∈ signedNumber) : part ≠ [] := by
  rcases mem_signedNumber.mp h with hnumber | ⟨rest, -, rfl⟩
  · exact (mem_number.mp hnumber).1
  · exact List.cons_ne_nil _ _

/-- A signed number holds a sign and digits only. -/
theorem char_of_mem_signedNumber (h : part ∈ signedNumber) (hc : c ∈ part) :
    c = '+' ∨ c = '-' ∨ c.isDigit := by
  rcases mem_signedNumber.mp h with hnumber | ⟨rest, hrest, rfl⟩
  · exact .inr (char_of_isGroupPart (mem_number.mp hnumber).2 hc)
  · rcases List.mem_cons.mp hc with rfl | hmem
    · exact .inl rfl
    · exact .inr (.inr (hrest.2 c hmem))

/-- An integer is read from a number with or without a plus, and from nothing else. -/
theorem isSome_readInteger_iff : (Decimal.readInteger text).isSome ↔ text ∈ signedNumber := by
  have hvalue (found : Option Nat) (f : Int → Int) :
      ((do let n ← found; pure (n : Int)).map f).isSome = found.isSome := by
    cases found <;> rfl
  rw [mem_signedNumber, mem_number]
  fun_cases Decimal.readInteger text with
  | case1 rest =>
    rw [hvalue, Decimal.isSome_readNat_iff]
    simp [isGroupPart]
  | case2 rest =>
    rw [hvalue, Decimal.isSome_readNat_iff]
    simp [isGroupPart]
    rfl
  | case3 _ hminus hplus =>
    have hsign : ¬ ∃ rest ∈ digits, text = '+' :: rest := by
      rintro ⟨rest, -, heq⟩
      exact hplus rest heq
    rw [hvalue, Decimal.isSome_readNat_iff, isGroupPart_iff_of_unsigned hminus]
    exact (or_iff_left hsign).symm

/-! ## Brackets that are read as an index or a slice -/

/-- The content of a bracket that can be read as an index or a slice: it is not empty, and every part
between colons is a number or missing. -/
structure Readable (content : List Char) : Prop where
  ne_nil : content ≠ []
  parts : ∀ part ∈ content.splitOn ':', part = [] ∨ part ∈ signedNumber

/-- What can be read between brackets holds colons, signs and digits only. -/
theorem Readable.char (h : Readable content) (hc : c ∈ content) :
    c = ':' ∨ c = '+' ∨ c = '-' ∨ c.isDigit := by
  by_cases hcolon : c = ':'
  · exact .inl hcolon
  · obtain ⟨part, hpart, hmem⟩ := (mem_iff_of_ne_colon hcolon).mp hc
    rcases h.parts part hpart with rfl | hnumber
    · cases hmem
    · exact .inr (char_of_mem_signedNumber hnumber hmem)

/-- **A bracket that can be read is a group exactly when it has no plus.** -/
theorem Readable.isGroupContent_iff (h : Readable content) :
    isGroupContent content ↔ '+' ∉ content := by
  constructor
  · exact fun hgroup => not_mem_content hgroup (by decide)
  · intro hplus
    rw [isGroupContent, Bool.and_eq_true, List.all_eq_true]
    refine ⟨by simpa using h.ne_nil, fun part hpart => ?_⟩
    rw [← mem_optional_number]
    rcases h.parts part hpart with hempty | hnumber
    · exact .inl hempty
    · have hwithout : '+' ∉ part := fun hmem =>
        hplus ((mem_iff_of_ne_colon (by decide)).mpr ⟨part, hpart, hmem⟩)
      exact .inr (mem_number_iff.mpr ⟨hnumber, hwithout⟩)

end Path

namespace Segment

open TreePath.Path (signedNumber Readable isSome_readInteger_iff ne_nil_of_mem_signedNumber)
open scoped Computability

variable {segment : Segment} {token : String} {text : List Char} {parts : List (List Char)}

/-- The reader of numbers accepts signed numbers only. -/
theorem mem_signedNumber_of_readNumber {i : Int64} (h : readNumber token text = .ok i) :
    text ∈ signedNumber := by
  rw [readNumber] at h
  split at h
  next word hword =>
    obtain ⟨value, hvalue, -⟩ := Option.bind_eq_some_iff.mp hword
    exact isSome_readInteger_iff.mp (Option.isSome_of_eq_some hvalue)
  next => cases h

/-- The reader of bounds accepts the empty text and signed numbers only. -/
theorem mem_of_readBound {bound : Option Int64} (h : readBound token text = .ok bound) :
    text = [] ∨ text ∈ signedNumber := by
  rw [readBound] at h
  split at h
  next hempty => exact .inl (List.isEmpty_iff.mp hempty)
  next =>
    cases hread : readNumber token text with
    | error e =>
      rw [hread] at h
      cases h
    | ok i => exact .inr (mem_signedNumber_of_readNumber hread)

/-- What is read as an index or a slice can be read. -/
theorem readable_of_ofParts {content : List Char}
    (h : ofParts token (content.splitOn ':') = .ok segment) : Readable content := by
  have hparts := readsParts_of_ofParts h
  constructor
  · rintro rfl
    rw [List.splitOn_nil] at hparts
    cases hparts with
    | index hposition => exact ne_nil_of_mem_signedNumber (mem_signedNumber_of_readNumber hposition) rfl
  · generalize content.splitOn ':' = parts at hparts
    cases hparts with
    | index hposition =>
      exact List.forall_mem_singleton.mpr (.inr (mem_signedNumber_of_readNumber hposition))
    | slice hstart hstop =>
      exact List.forall_mem_cons.mpr
        ⟨mem_of_readBound hstart, List.forall_mem_singleton.mpr (mem_of_readBound hstop)⟩
    | stepped hstart hstop hstep _ =>
      exact List.forall_mem_cons.mpr ⟨mem_of_readBound hstart, List.forall_mem_cons.mpr
        ⟨mem_of_readBound hstop, List.forall_mem_singleton.mpr (mem_of_readBound hstep)⟩⟩

/-- Only a bracket that can be read is an index or a slice. -/
theorem exists_readable_of_ofToken (h : ofToken token = .ok segment)
    (hpositional : segment.isPositional) :
    ∃ content, token.toList = '[' :: (content ++ [']']) ∧ Readable content := by
  rw [ofToken] at h
  split at h
  next hroot =>
    cases h
    cases hpositional
  next hroot =>
    split at h
    next content hcontent =>
      exact ⟨content, bracketContent?_eq_some_iff.mp hcontent, readable_of_ofParts h⟩
    next hnone =>
      cases h
      cases hpositional

end Segment

namespace Path

variable {name token : String} {segment : Segment} {content text front : List Char}
  {c : Char}

/-! ## Behind a name -/

/-- A character that is no colon, sign or digit stands in no readable content. -/
theorem Readable.not_mem (h : Readable content) (hc : ¬ (c = ':' ∨ c = '+' ∨ c = '-' ∨ c.isDigit)) :
    c ∉ content := fun hmem => hc (h.char hmem)

/-- A bracket that can be read is a token by itself. -/
theorem Readable.isToken (h : Readable content) : IsToken ('[' :: (content ++ [']'])) := by
  have hpoint : '.' ∉ content := h.not_mem (by decide)
  have hopen : '[' ∉ content := h.not_mem (by decide)
  refine ⟨List.cons_ne_nil _ _, by simp [hpoint], ungrouped_tail_iff.mp ?_⟩
  exact ungrouped_of_not_mem (by simp [hopen])

/-- With a plus a bracket behind a name makes one token with the name. -/
theorem Readable.isToken_append (h : Readable content) (hplus : '+' ∈ content)
    (hpoint : '.' ∉ front) (hopen : '[' ∉ front) :
    IsToken (front ++ '[' :: (content ++ [']'])) := by
  have hpoint' : '.' ∉ content := h.not_mem (by decide)
  have hopen' : '[' ∉ content := h.not_mem (by decide)
  have hclose : ']' ∉ content := h.not_mem (by decide)
  have hgroup : ¬ startsGroup ('[' :: (content ++ [']'])) := by
    rw [startsGroup_bracket hclose, h.isGroupContent_iff]
    exact not_not_intro hplus
  refine isToken_of_ungrouped (by simp) (by simp [hpoint, hpoint']) (ungrouped_append hopen ?_)
  exact ungrouped_cons.mpr ⟨hgroup, ungrouped_of_not_mem (by simp [hopen'])⟩

/-- A text that is one token has the segment of this token as its path. -/
theorem parse_token (htoken : IsToken token.toList) (hread : Segment.ofToken token = .ok segment) :
    parse token = .ok [segment] := by
  rw [parse, tokens_of_isToken htoken, List.mapM_cons, hread]
  rfl

section Name

variable (hempty : name ≠ "") (hpoint : '.' ∉ name.toList) (hopen : '[' ∉ name.toList)

include hempty hopen

/-- A token behind a name without an opening bracket leaves the text without one in front. -/
theorem head?_name_append (token : String) : (name ++ token).toList.head? ≠ some '[' := by
  have hne : name.toList ≠ [] := mt String.toList_eq_nil_iff.mp hempty
  rw [String.toList_append, List.head?_append_of_ne_nil _ hne]
  exact fun h => hopen (List.mem_of_mem_head? h)

include hpoint

/-- With a plus a bracket behind a name is part of a longer name. -/
theorem Readable.parse_append_of_plus (h : Readable content)
    (htoken : token.toList = '[' :: (content ++ [']'])) (hplus : '+' ∈ content) :
    parse (name ++ token) = .ok [.key (name ++ token)] := by
  have hroot : name ++ token ≠ "$" := by
    intro heq
    have hplus : '+' ∈ (name ++ token).toList := by simp [htoken, hplus]
    rw [heq] at hplus
    exact absurd hplus (by decide)
  refine parse_token ?_ (Segment.ofToken_eq_key hroot fun hbracket => ?_)
  · rw [String.toList_append, htoken]
    exact h.isToken_append hplus hpoint hopen
  · exact head?_name_append hempty hopen token hbracket.1

/-- Without a plus a bracket behind a name is cut off. -/
theorem Readable.parse_append (h : Readable content)
    (htoken : token.toList = '[' :: (content ++ [']'])) (hplus : '+' ∉ content)
    (hroot : name ≠ "$") (hread : Segment.ofToken token = .ok segment) :
    parse (name ++ token) = .ok [.key name, segment] := by
  have hname : IsToken name.toList :=
    isToken_of_ungrouped (mt String.toList_eq_nil_iff.mp hempty) hpoint (ungrouped_of_not_mem hopen)
  have hgroup : token.toList ∈ bracketGroup :=
    mem_bracketGroup.mpr ⟨content, h.isGroupContent_iff.mpr hplus, htoken⟩
  have hkey : Segment.ofToken name = .ok (.key name) := by
    have hhead := head?_name_append hempty hopen ""
    rw [String.append_empty] at hhead
    exact Segment.ofToken_eq_key hroot fun hbracket => hhead hbracket.1
  rw [parse, tokens_append hname hgroup, List.mapM_cons, hkey, List.mapM_cons, hread]
  rfl

end Name

/-- **A bracket is read behind a name as it is read by itself, unless it has a plus.**  A bracket that
stands for an index or a slice is a path of this one segment.  Behind a name it is cut off and stands
for the same segment, and with a plus it stays in the name. -/
theorem parse_bracket (hempty : name ≠ "") (hroot : name ≠ "$") (hpoint : '.' ∉ name.toList)
    (hopen : '[' ∉ name.toList) (hread : Segment.ofToken token = .ok segment)
    (hpositional : segment.isPositional) :
    parse token = .ok [segment] ∧
      parse (name ++ token) =
        .ok (if '+' ∈ token.toList then [.key (name ++ token)] else [.key name, segment]) := by
  obtain ⟨content, htoken, hcontent⟩ := Segment.exists_readable_of_ofToken hread hpositional
  have hplus : '+' ∈ token.toList ↔ '+' ∈ content := by simp [htoken]
  refine ⟨parse_token (htoken ▸ hcontent.isToken) hread, ?_⟩
  by_cases hsign : '+' ∈ content
  · rw [if_pos (hplus.mpr hsign)]
    exact hcontent.parse_append_of_plus hempty hpoint hopen htoken hsign
  · rw [if_neg (mt hplus.mp hsign)]
    exact hcontent.parse_append hempty hpoint hopen htoken hsign hroot hread

/-- The step `-03` is accepted alone and behind a name, while the plus of `[:+3]` makes the bracket a
part of the name in front of it. -/
theorem parse_bracket_sample :
    (Segment.ofToken "[-2::-03]" = .ok (.slice ⟨some (-2), none, -3⟩) ∧
      parse "[-2::-03]" = .ok [.slice ⟨some (-2), none, -3⟩] ∧
      parse "tags[-2::-03]" = .ok [.key "tags", .slice ⟨some (-2), none, -3⟩]) ∧
    Segment.ofToken "[:+3]" = .ok (.slice ⟨none, some 3, 1⟩) ∧
      parse "[:+3]" = .ok [.slice ⟨none, some 3, 1⟩] ∧
      parse "tags[:+3]" = .ok [.key "tags[:+3]"] := by
  have hminus : Segment.ofToken "[-2::-03]" = .ok (.slice ⟨some (-2), none, -3⟩) := rfl
  have hplus : Segment.ofToken "[:+3]" = .ok (.slice ⟨none, some 3, 1⟩) := rfl
  have hcut : _ ∧ parse ("tags" ++ "[-2::-03]") = _ :=
    parse_bracket (by decide) (by decide) (by decide) (by decide) hminus rfl
  have hkept : _ ∧ parse ("tags" ++ "[:+3]") = _ :=
    parse_bracket (by decide) (by decide) (by decide) (by decide) hplus rfl
  rw [if_neg (by decide)] at hcut
  rw [if_pos (by decide)] at hkept
  exact ⟨⟨hminus, hcut⟩, hplus, hkept⟩

/-- By itself a bracket with a plus is an index, and behind a name it is none. -/
theorem plus_stays_in_name :
    Segment.ofToken "[+1]" = .ok (.index 1) ∧ parse "[+1]" = .ok [.index 1] ∧
      parse ("a" ++ "[+1]") = .ok [.key "a[+1]"] ∧
      parse ("a" ++ "[+1]") ≠ .ok [.key "a", .index 1] := by
  have hparse : parse ("a" ++ "[+1]") = .ok [.key "a[+1]"] := rfl
  refine ⟨rfl, rfl, hparse, ?_⟩
  rw [hparse]
  simp

end Path

end TreePath
