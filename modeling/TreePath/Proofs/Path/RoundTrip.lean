import TreePath.Path.Parse
import TreePath.Proofs.Decimal.Integer
import TreePath.Proofs.Outcome
import TreePath.Proofs.Path.Tokens

/-!
# Written paths are read back

A path is canonical when each of its names is a token that stands for a name, and each of its slices
has a step.  The text of a canonical path is cut into the texts of its segments
(`tokenChars_chars`), and each of them is read as its segment (`ofToken_render`).  Reading gives
canonical paths only (`canonical_of_parse`).  So the canonical paths are those that are read back from
their text, and also those that are read from any text (`parse_render_iff`).
-/

set_option autoImplicit false

namespace TreePath

/-- A name that a path text can hold: a token that is neither the root token nor a bracket. -/
structure IsPathName (name : String) : Prop extends Path.IsToken name.toList where
  not_root : name ≠ "$"
  not_bracket : ¬ (name.toList.head? = some '[' ∧ name.toList.getLast? = some ']')

/-- A segment that a path text can hold. -/
def Segment.Canonical : Segment → Prop
  | root => True
  | key name => IsPathName name
  | index _ => True
  | slice range => range.step ≠ 0

/-! ## The texts of segments -/

section Texts

open TreePath.Path (isGroupPart isGroupContent bracketGroup mem_bracketGroup IsToken)

/-- A number is written as a part of a group, with a minus and digits only. -/
theorem isGroupPart_integerChars (i : Int) : isGroupPart (Decimal.integerChars i) := by
  have hdigits (n : Nat) : ∀ c ∈ Decimal.digitChars n, c.isDigit :=
    fun c => Decimal.isDigit_of_mem_digitChars
  rw [Decimal.integerChars]
  split
  · have hne := Decimal.digitChars_ne_nil i.natAbs
    simpa [isGroupPart, hne] using hdigits i.natAbs
  · exact Path.isGroupPart_of_digits (hdigits i.natAbs)

/-- A bound is written as a part of a group, a missing one as the empty part. -/
theorem isGroupPart_boundChars (bound : Option Int64) : isGroupPart (Slice.boundChars bound) := by
  cases bound with
  | none => rfl
  | some b => exact isGroupPart_integerChars b.toInt

namespace Slice

/-- The parts of the bracket behind the start. -/
def laterParts (range : Slice) : List (List Char) :=
  boundChars range.stop :: if range.step = 1 then [] else [Decimal.integerChars range.step.toInt]

/-- A slice is written as its start and its later parts, each of these behind a colon. -/
theorem chars_eq (range : Slice) : range.chars =
    '[' :: (boundChars range.start ++ range.laterParts.flatMap (':' :: ·) ++ [']']) := by
  rw [chars, laterParts]
  split <;> simp

/-- Every part of a slice is written as a part of a group. -/
theorem isGroupPart_parts (range : Slice) :
    ∀ part ∈ boundChars range.start :: range.laterParts, isGroupPart part := by
  rw [List.forall_mem_cons, laterParts, List.forall_mem_cons]
  refine ⟨isGroupPart_boundChars _, isGroupPart_boundChars _, ?_⟩
  intro part hpart
  split at hpart
  · cases hpart
  · rw [List.mem_singleton.mp hpart]
    exact isGroupPart_integerChars _

end Slice

namespace Segment

variable {segment : Segment}

/-- An index or a slice is written as a bracket group. -/
theorem chars_mem_bracketGroup (h : segment.isPositional) : segment.chars ∈ bracketGroup := by
  cases segment with
  | root => cases h
  | key name => cases h
  | index i =>
    refine mem_bracketGroup.mpr ⟨Decimal.integerChars i.toInt, ?_, rfl⟩
    refine Path.isGroupContent_iff.mpr ⟨Decimal.integerChars_ne_nil _, Decimal.integerChars i.toInt,
      [], by simp, ?_⟩
    exact List.forall_mem_singleton.mpr (isGroupPart_integerChars _)
  | slice range =>
    refine mem_bracketGroup.mpr ⟨_, ?_, range.chars_eq⟩
    -- A slice has at least one colon.
    refine Path.isGroupContent_iff.mpr ⟨?_, _, _, rfl, range.isGroupPart_parts⟩
    simp [Slice.laterParts]

/-- A canonical segment is written as a token. -/
theorem isToken_chars (h : segment.Canonical) : IsToken segment.chars := by
  cases segment with
  | root => exact ⟨by simp [chars], by simp [chars], Path.ungrouped_tail_iff.mp Path.ungrouped_nil⟩
  | key name => exact h.toIsToken
  | index i => exact Path.isToken_of_mem_bracketGroup (chars_mem_bracketGroup rfl)
  | slice range => exact Path.isToken_of_mem_bracketGroup (chars_mem_bracketGroup rfl)

/-! ## Segments are read back -/

/-- What stands between brackets is found exactly in the texts that begin and end with them. -/
theorem bracketContent?_eq_some_iff {text content : List Char} :
    bracketContent? text = some content ↔ text = '[' :: (content ++ [']']) := by
  constructor
  · intro h
    fun_cases bracketContent? text with
    | case1 rest hclose =>
      rw [bracketContent?, if_pos hclose] at h
      cases h
      rw [List.dropLast_append_getLast? _ hclose]
    | case2 rest hclose => simp [bracketContent?, hclose] at h
    | case3 => simp [bracketContent?] at h
  · rintro rfl
    simp [bracketContent?]

/-- Only texts between brackets are read as brackets. -/
theorem bracketContent?_eq_none_iff {text : List Char} :
    bracketContent? text = none ↔ ¬ (text.head? = some '[' ∧ text.getLast? = some ']') := by
  cases text with
  | nil => simp [bracketContent?]
  | cons first rest =>
    rw [List.head?_cons, List.getLast?_cons]
    by_cases hfirst : first = '['
    · subst hfirst
      cases hlast : rest.getLast? with
      | none => simp [bracketContent?, hlast]
      | some last => simp [bracketContent?, hlast]
    · simp [bracketContent?, hfirst]

/-- A token that is not between brackets is a name, except for the root token. -/
theorem ofToken_eq_key {token : String} (hroot : token ≠ "$")
    (hbracket : ¬ (token.toList.head? = some '[' ∧ token.toList.getLast? = some ']')) :
    ofToken token = .ok (key token) := by
  rw [ofToken, if_neg hroot, bracketContent?_eq_none_iff.mpr hbracket]

/-- A bracket of parts is read as its parts. -/
theorem ofToken_bracket {first : List Char} {rest : List (List Char)} {token : String}
    (htoken : token.toList = '[' :: (first ++ rest.flatMap (':' :: ·) ++ [']']))
    (hcolon : ∀ part ∈ first :: rest, ':' ∉ part) :
    ofToken token = ofParts token (first :: rest) := by
  have hroot : token ≠ "$" := by
    rintro rfl
    cases htoken
  rw [ofToken, if_neg hroot, bracketContent?_eq_some_iff.mpr htoken]
  simp only [Path.splitOn_of_colon_not_mem hcolon]

/-- A written number is read back. -/
theorem readNumber_integerChars (token : String) (i : Int64) :
    readNumber token (Decimal.integerChars i.toInt) = .ok i := by
  rw [readNumber, Decimal.readInt64_integerChars]

/-- A written bound is read back, a missing one as missing. -/
theorem readBound_boundChars (token : String) (bound : Option Int64) :
    readBound token (Slice.boundChars bound) = .ok bound := by
  cases bound with
  | none => rfl
  | some b =>
    have hempty : (Slice.boundChars (some b)).isEmpty = false :=
      List.isEmpty_eq_false_iff.mpr (Decimal.integerChars_ne_nil b.toInt)
    have hnumber : readNumber token (Slice.boundChars (some b)) = .ok b :=
      readNumber_integerChars token b
    rw [readBound, hempty, hnumber]
    rfl

/-- **A canonical segment is read back from its text.** -/
theorem ofToken_render (h : segment.Canonical) : ofToken segment.render = .ok segment := by
  cases segment with
  | root => rfl
  | key name =>
    have hrender : (key name).render = name := String.ofList_toList
    rw [hrender, ofToken_eq_key h.not_root h.not_bracket]
  | index i =>
    have htoken : (index i).render.toList =
        '[' :: (Decimal.integerChars i.toInt ++ [].flatMap (':' :: ·) ++ [']']) := by
      simp [render, chars]
    have hcolon := Path.colon_not_mem_of_isGroupPart (isGroupPart_integerChars i.toInt)
    rw [ofToken_bracket htoken (List.forall_mem_singleton.mpr hcolon), ofParts,
      readNumber_integerChars]
    rfl
  | slice range =>
    have htoken : (slice range).render.toList = _ := String.toList_ofList.trans range.chars_eq
    have hcolon : ∀ part ∈ Slice.boundChars range.start :: range.laterParts, ':' ∉ part :=
      fun part hpart => Path.colon_not_mem_of_isGroupPart (range.isGroupPart_parts part hpart)
    obtain ⟨start, stop, step⟩ := range
    rw [ofToken_bracket htoken hcolon, Slice.laterParts]
    by_cases hstep : step = 1
    · rw [if_pos hstep, ofParts, readBound_boundChars, readBound_boundChars, hstep]
      rfl
    · have hbound := readBound_boundChars (slice ⟨start, stop, step⟩).render (some step)
      have hzero : ¬ step = 0 := h
      rw [if_neg hstep, ofParts, readBound_boundChars, readBound_boundChars]
      simp only [Slice.boundChars, Option.elim_some] at hbound
      simp only [hbound, bind, Except.bind, Option.getD_some, hzero, if_false]
      rfl

/-- The parts of a bracket are read as a segment. -/
inductive ReadsParts (token : String) : List (List Char) → Segment → Prop
  | index {position : List Char} {i : Int64} :
      readNumber token position = .ok i → ReadsParts token [position] (index i)
  | slice {start stop : List Char} {first last : Option Int64} :
      readBound token start = .ok first → readBound token stop = .ok last →
      ReadsParts token [start, stop] (slice ⟨first, last, 1⟩)
  | stepped {start stop step : List Char} {first last width : Option Int64} :
      readBound token start = .ok first → readBound token stop = .ok last →
      readBound token step = .ok width → width.getD 1 ≠ 0 →
      ReadsParts token [start, stop, step] (slice ⟨first, last, width.getD 1⟩)

/-- Parts that are read as a segment have the number and the kinds of parts of this segment. -/
theorem readsParts_of_ofParts {token : String} {parts : List (List Char)}
    (h : ofParts token parts = .ok segment) : ReadsParts token parts segment := by
  match parts with
  | [position] =>
    obtain ⟨i, hi, h⟩ := exists_of_bind_eq_ok h
    cases h
    exact .index hi
  | [start, stop] =>
    obtain ⟨first, hfirst, h⟩ := exists_of_bind_eq_ok h
    obtain ⟨last, hlast, h⟩ := exists_of_bind_eq_ok h
    cases h
    exact .slice hfirst hlast
  | [start, stop, step] =>
    obtain ⟨width, hwidth, h⟩ := exists_of_bind_eq_ok h
    by_cases hzero : width.getD 1 = 0
    · rw [if_pos hzero] at h
      cases h
    · rw [if_neg hzero] at h
      obtain ⟨first, hfirst, h⟩ := exists_of_bind_eq_ok h
      obtain ⟨last, hlast, h⟩ := exists_of_bind_eq_ok h
      cases h
      exact .stepped hfirst hlast hwidth hzero
  | [] => cases h
  | _ :: _ :: _ :: _ :: _ => cases h

/-- Parts of the right number and kinds are read as their segment; the order in which the parts are
read does not matter when all can be read. -/
theorem ReadsParts.ofParts {token : String} {parts : List (List Char)}
    (h : ReadsParts token parts segment) : Segment.ofParts token parts = .ok segment := by
  cases h with
  | index hposition =>
    rw [Segment.ofParts, hposition]
    rfl
  | slice hstart hstop =>
    rw [Segment.ofParts, hstart, hstop]
    rfl
  | stepped hstart hstop hstep hzero =>
    rw [Segment.ofParts, hstart, hstop, hstep]
    show (if _ then _ else _) = _
    rw [if_neg hzero]
    rfl

/-- What is read from a bracket has a step. -/
theorem canonical_of_ofParts {token : String} {parts : List (List Char)}
    (h : ofParts token parts = .ok segment) : segment.Canonical := by
  cases readsParts_of_ofParts h with
  | index _ => trivial
  | slice _ _ =>
    have hone : (1 : Int64) ≠ 0 := by decide
    exact hone
  | stepped _ _ _ hzero => exact hzero

/-- What is read from a token is canonical. -/
theorem canonical_of_ofToken {token : String} (htoken : IsToken token.toList)
    (h : ofToken token = .ok segment) : segment.Canonical := by
  rw [ofToken] at h
  split at h
  next hroot =>
    cases h
    trivial
  next hroot =>
    split at h
    next content hcontent => exact canonical_of_ofParts h
    next hnone =>
      cases h
      exact ⟨htoken, hroot, bracketContent?_eq_none_iff.mp hnone⟩

end Segment

end Texts

namespace Path

variable {path : Path}

/-! ## Paths are read back -/

/-- The segments behind the first begin with a point or with a group, or there are none. -/
theorem follows_restChars (path : Path) (h : ∀ segment ∈ path, segment.Canonical) :
    Follows (restChars path) := by
  cases path with
  | nil => exact follows_nil
  | cons segment rest =>
    rw [restChars]
    by_cases hpositional : segment.isPositional
    · rw [if_pos hpositional, List.nil_append]
      exact follows_group (Segment.chars_mem_bracketGroup hpositional) _
    · rw [if_neg hpositional]
      exact follows_point _

/-- The text behind the first segment is cut into the texts of the segments. -/
theorem tokenChars_restChars (h : ∀ segment ∈ path, segment.Canonical) :
    tokenChars (restChars path) = path.map Segment.chars := by
  induction path with
  | nil => rfl
  | cons segment rest ih =>
    obtain ⟨hsegment, hrest⟩ := List.forall_mem_cons.mp h
    have hcut := tokenChars_append (Segment.isToken_chars hsegment) (follows_restChars rest hrest)
    rw [ih hrest] at hcut
    rw [restChars, List.map_cons, ← hcut]
    by_cases hpositional : segment.isPositional
    · rw [if_pos hpositional, List.nil_append]
    · rw [if_neg hpositional]
      exact tokenChars_point _

/-- **The text of a canonical path is cut into the texts of its segments.** -/
theorem tokenChars_chars (h : ∀ segment ∈ path, segment.Canonical) :
    tokenChars (chars path) = path.map Segment.chars := by
  cases path with
  | nil => rfl
  | cons segment rest =>
    obtain ⟨hsegment, hrest⟩ := List.forall_mem_cons.mp h
    rw [chars, tokenChars_append (Segment.isToken_chars hsegment) (follows_restChars rest hrest),
      tokenChars_restChars hrest, List.map_cons]

/-- A canonical path is read back from its text. -/
theorem parse_render (h : ∀ segment ∈ path, segment.Canonical) : parse path.render = .ok path := by
  have htokens : tokens path.render = path.map Segment.render := by
    rw [tokens, render, String.toList_ofList, tokenChars_chars h, List.map_map]
    rfl
  rw [parse, htokens]
  clear htokens
  induction path with
  | nil => rfl
  | cons segment rest ih =>
    obtain ⟨hsegment, hrest⟩ := List.forall_mem_cons.mp h
    rw [List.map_cons, List.mapM_cons, Segment.ofToken_render hsegment, ih hrest]
    rfl

/-- What is read from a text is canonical. -/
theorem canonical_of_parse {text : String} (h : parse text = .ok path) :
    ∀ segment ∈ path, segment.Canonical := by
  intro segment hsegment
  obtain ⟨token, htoken, hread⟩ := exists_of_mem_of_mapM h hsegment
  obtain ⟨chars, hchars, rfl⟩ := List.mem_map.mp htoken
  refine Segment.canonical_of_ofToken ?_ hread
  rw [String.toList_ofList]
  exact isToken_of_mem_tokenChars hchars

/-- **The canonical paths are the paths of texts.**  A path is read back from its text exactly when
it is read from some text, and exactly when its segments are canonical. -/
theorem parse_render_iff (path : Path) :
    (parse path.render = .ok path ↔ ∃ text, parse text = .ok path) ∧
      (parse path.render = .ok path ↔ ∀ segment ∈ path, segment.Canonical) := by
  refine ⟨⟨fun h => ⟨_, h⟩, ?_⟩, canonical_of_parse, parse_render⟩
  rintro ⟨text, h⟩
  exact parse_render (canonical_of_parse h)

-- A name may begin with a group, and what follows it is cut off all the same.
example : parse (render [.key "[1]b", .index (-2)]) = .ok [.key "[1]b", .index (-2)] := by cbv

-- A name with a group behind its first character falls apart.
example : parse (render [.key "a[1]"]) = .ok [.key "a", .index 1] := by cbv

end Path

end TreePath
