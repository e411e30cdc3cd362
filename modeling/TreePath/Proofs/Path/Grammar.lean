import TreePath.Proofs.Path.RoundTrip

/-!
# The grammar of path texts

A token stands for a segment in one of five ways, and `Spells` lists them: the root token, a number
in brackets, two or three bounds in brackets with colons between them, and a name.  A token is read as
the segment that it spells (`ofToken_eq_ok_iff`).  A token in brackets that spells nothing is refused,
and no other token is (`exists_fault_iff`).

A path text is read token by token.  It gives one segment for each token, in order, unless a token is
refused, and then it fails as the first token that is (`reading_follows_grammar`).
-/

set_option autoImplicit false

namespace TreePath

namespace Segment

open TreePath.Decimal (Denotes readInt64_eq_some_iff)

/-- A text of at least two characters, from an opening to a closing bracket. -/
def InBrackets (text : List Char) : Prop := ∃ content, text = '[' :: (content ++ [']'])

/-- What is written for a bound of a slice: nothing when the bound is missing, or a number. -/
inductive IsBound : List Char → Option Int64 → Prop
  | missing : IsBound [] none
  | number {text : List Char} {i : Int64} : Denotes text i.toInt → IsBound text (some i)

/-- The segments that tokens stand for.  A step that is missing is one, and no step is zero. -/
inductive Spells : List Char → Segment → Prop
  | root : Spells ['$'] root
  | index {number : List Char} {i : Int64} : Denotes number i.toInt →
      Spells ('[' :: (number ++ [']'])) (index i)
  | slice {start stop : List Char} {first last : Option Int64} :
      IsBound start first → IsBound stop last →
      Spells ('[' :: (start ++ ':' :: stop ++ [']'])) (slice ⟨first, last, 1⟩)
  | stepped {start stop step : List Char} {first last width : Option Int64} :
      IsBound start first → IsBound stop last → IsBound step width → width.getD 1 ≠ 0 →
      Spells ('[' :: (start ++ ':' :: (stop ++ ':' :: step) ++ [']']))
        (slice ⟨first, last, width.getD 1⟩)
  | key {name : String} : name ≠ "$" → ¬ InBrackets name.toList → Spells name.toList (key name)

variable {token : String} {text content : List Char} {segment : Segment}

/-! ## Numbers and bounds -/

/-- The reader of numbers gives the number that the text denotes, and accepts nothing else. -/
theorem readNumber_eq_ok_iff {i : Int64} : readNumber token text = .ok i ↔ Denotes text i.toInt := by
  rw [← readInt64_eq_some_iff, readNumber]
  cases Decimal.readInt64 text <;> simp

/-- The reader of bounds gives the bound that the text writes, and accepts nothing else. -/
theorem readBound_eq_ok_iff {bound : Option Int64} :
    readBound token text = .ok bound ↔ IsBound text bound := by
  rw [readBound]
  split
  next hempty =>
    obtain rfl := List.isEmpty_iff.mp hempty
    constructor
    · intro h
      cases h
      exact .missing
    · intro h
      cases h with
      | missing => rfl
      | number hnumber => exact absurd rfl hnumber.ne_nil
  next hempty =>
    constructor
    · intro h
      cases hread : readNumber token text with
      | error e =>
        rw [hread] at h
        cases h
      | ok i =>
        rw [hread] at h
        cases h
        exact .number (readNumber_eq_ok_iff.mp hread)
    · intro h
      cases h with
      | missing => exact absurd rfl hempty
      | number hnumber =>
        rw [readNumber_eq_ok_iff.mpr hnumber]
        rfl

/-- A text that denotes a number holds no colon, so a bracket splits at the right places. -/
theorem colon_not_mem_of_denotes {i : Int} (h : Denotes text i) : ':' ∉ text := by
  intro hcolon
  rcases h.char hcolon with hplus | hminus | hdigit
  · cases hplus
  · cases hminus
  · cases hdigit

/-- A text that is a bound holds no colon. -/
theorem IsBound.colon_not_mem {bound : Option Int64} (h : IsBound text bound) : ':' ∉ text := by
  cases h with
  | missing => exact List.not_mem_nil
  | number hnumber => exact colon_not_mem_of_denotes hnumber

/-! ## Tokens -/

/-- What is read from the parts of a bracket is spelled by the bracket. -/
theorem spells_of_readsParts (h : ReadsParts token (content.splitOn ':') segment) :
    Spells ('[' :: (content ++ [']'])) segment := by
  obtain ⟨first, rest, hsplit, rfl⟩ := Path.exists_parts content
  rw [hsplit] at h
  cases h with
  | index hposition =>
    have hnumber := readNumber_eq_ok_iff.mp hposition
    simpa using Spells.index hnumber
  | slice hstart hstop =>
    have hfirst := readBound_eq_ok_iff.mp hstart
    have hlast := readBound_eq_ok_iff.mp hstop
    simpa using Spells.slice hfirst hlast
  | stepped hstart hstop hstep hzero =>
    have hfirst := readBound_eq_ok_iff.mp hstart
    have hlast := readBound_eq_ok_iff.mp hstop
    have hwidth := readBound_eq_ok_iff.mp hstep
    simpa using Spells.stepped hfirst hlast hwidth hzero

/-- A token that is read as a segment spells it. -/
theorem spells_of_ofToken (h : ofToken token = .ok segment) : Spells token.toList segment := by
  rw [ofToken] at h
  split at h
  next hroot =>
    cases h
    subst hroot
    exact .root
  next hroot =>
    split at h
    next content hcontent =>
      rw [bracketContent?_eq_some_iff.mp hcontent]
      exact spells_of_readsParts (readsParts_of_ofParts h)
    next hnone =>
      cases h
      refine .key hroot ?_
      rintro ⟨content, hbrackets⟩
      rw [bracketContent?_eq_some_iff.mpr hbrackets] at hnone
      cases hnone

/-- A token that spells a segment is read as this segment. -/
theorem ofToken_of_spells (h : Spells token.toList segment) : ofToken token = .ok segment := by
  generalize htext : token.toList = text at h
  cases h with
  | root =>
    obtain rfl : token = "$" := String.toList_inj.mp htext
    rfl
  | @index number i hnumber =>
    have hcolon := colon_not_mem_of_denotes hnumber
    have htoken : token.toList = '[' :: (number ++ [].flatMap (':' :: ·) ++ [']']) := by
      simpa using htext
    rw [ofToken_bracket htoken (List.forall_mem_singleton.mpr hcolon)]
    exact (ReadsParts.index (readNumber_eq_ok_iff.mpr hnumber)).ofParts
  | @slice start stop first last hfirst hlast =>
    have hcolon : ∀ part ∈ [start, stop], ':' ∉ part := by
      simp [hfirst.colon_not_mem, hlast.colon_not_mem]
    have htoken : token.toList = '[' :: (start ++ [stop].flatMap (':' :: ·) ++ [']']) := by
      simpa using htext
    rw [ofToken_bracket htoken hcolon]
    exact (ReadsParts.slice (readBound_eq_ok_iff.mpr hfirst) (readBound_eq_ok_iff.mpr hlast)).ofParts
  | @stepped start stop step first last width hfirst hlast hwidth hzero =>
    have hcolon : ∀ part ∈ [start, stop, step], ':' ∉ part := by
      simp [hfirst.colon_not_mem, hlast.colon_not_mem, hwidth.colon_not_mem]
    have htoken : token.toList = '[' :: (start ++ [stop, step].flatMap (':' :: ·) ++ [']']) := by
      simpa using htext
    rw [ofToken_bracket htoken hcolon]
    exact (ReadsParts.stepped (readBound_eq_ok_iff.mpr hfirst) (readBound_eq_ok_iff.mpr hlast)
      (readBound_eq_ok_iff.mpr hwidth) hzero).ofParts
  | @key name hroot hbrackets =>
    obtain rfl : token = name := String.toList_inj.mp htext
    have hnone : bracketContent? token.toList = none := by
      cases hcontent : bracketContent? token.toList with
      | none => rfl
      | some content => exact absurd ⟨content, bracketContent?_eq_some_iff.mp hcontent⟩ hbrackets
    rw [ofToken, if_neg hroot, hnone]

/-- **A token is read as the segment that it spells.** -/
theorem ofToken_eq_ok_iff : ofToken token = .ok segment ↔ Spells token.toList segment :=
  ⟨spells_of_ofToken, ofToken_of_spells⟩

/-! ## Refused tokens -/

/-- What can be wrong with the content of a bracket: a part between colons that is no number, a step
that is zero, or too many parts. -/
inductive Misspells (content : List Char) : SegmentFault → Prop
  | notANumber {part : List Char} : part ∈ content.splitOn ':' → (∀ i : Int64, ¬ Denotes part i.toInt) →
      Misspells content (.notANumber (String.ofList part))
  | zeroStep {start stop step : List Char} : content.splitOn ':' = [start, stop, step] →
      Denotes step 0 → Misspells content .zeroStep
  | tooManySeparators : 3 < (content.splitOn ':').length → Misspells content .tooManySeparators

section Faults

variable {e : PathError}

/-- When a number cannot be read, the error shows its text and the text denotes no word. -/
theorem of_readNumber_eq_error (h : readNumber token text = .error e) :
    e = .invalidSegment token (.notANumber (String.ofList text)) ∧
      ∀ i : Int64, ¬ Denotes text i.toInt := by
  rw [readNumber] at h
  split at h
  next => cases h
  next hnone =>
    cases h
    refine ⟨rfl, fun i hi => ?_⟩
    rw [readInt64_eq_some_iff.mpr hi] at hnone
    cases hnone

/-- When a bound cannot be read, the error shows its text and the text denotes no word. -/
theorem of_readBound_eq_error (h : readBound token text = .error e) :
    e = .invalidSegment token (.notANumber (String.ofList text)) ∧
      ∀ i : Int64, ¬ Denotes text i.toInt := by
  rw [readBound] at h
  split at h
  next => cases h
  next =>
    cases hread : readNumber token text with
    | ok i =>
      rw [hread] at h
      cases h
    | error fault =>
      rw [hread] at h
      cases h
      exact of_readNumber_eq_error hread

/-- A bracket is refused for what is wrong with it. -/
theorem misspells_of_ofParts (h : ofParts token (content.splitOn ':') = .error e) :
    ∃ fault, e = .invalidSegment token fault ∧ Misspells content fault := by
  have hnumber {part : List Char} (hpart : part ∈ content.splitOn ':')
      (hread : e = .invalidSegment token (.notANumber (String.ofList part)) ∧
        ∀ i : Int64, ¬ Denotes part i.toInt) :
      ∃ fault, e = .invalidSegment token fault ∧ Misspells content fault :=
    ⟨_, hread.1, .notANumber hpart hread.2⟩
  match hparts : content.splitOn ':' with
  | [] => exact absurd hparts (content.splitOn_ne_nil ':')
  | [position] =>
    rw [hparts] at h
    rcases bind_eq_error h with hread | ⟨i, -, h⟩
    · exact hnumber (by simp [hparts]) (of_readNumber_eq_error hread)
    · cases h
  | [start, stop] =>
    rw [hparts] at h
    rcases bind_eq_error h with hread | ⟨first, -, h⟩
    · exact hnumber (by simp [hparts]) (of_readBound_eq_error hread)
    · rcases bind_eq_error h with hread | ⟨last, -, h⟩
      · exact hnumber (by simp [hparts]) (of_readBound_eq_error hread)
      · cases h
  | [start, stop, step] =>
    rw [hparts] at h
    rcases bind_eq_error h with hread | ⟨width, hwidth, h⟩
    · exact hnumber (by simp [hparts]) (of_readBound_eq_error hread)
    · by_cases hzero : width.getD 1 = 0
      · rw [if_pos hzero] at h
        cases h
        cases readBound_eq_ok_iff.mp hwidth with
        | missing => exact absurd hzero (by decide)
        | number hstep =>
          obtain rfl : _ = (0 : Int64) := hzero
          exact ⟨_, rfl, .zeroStep hparts hstep⟩
      · rw [if_neg hzero] at h
        rcases bind_eq_error h with hread | ⟨first, -, h⟩
        · exact hnumber (by simp [hparts]) (of_readBound_eq_error hread)
        · rcases bind_eq_error h with hread | ⟨last, -, h⟩
          · exact hnumber (by simp [hparts]) (of_readBound_eq_error hread)
          · cases h
  | _ :: _ :: _ :: _ :: _ =>
    rw [hparts] at h
    cases h
    exact ⟨_, rfl, .tooManySeparators (by simp [hparts])⟩

/-- **A refused token is a bracket with something wrong in it**, and the error names both. -/
theorem misspells_of_ofToken (h : ofToken token = .error e) :
    ∃ content fault, token.toList = '[' :: (content ++ [']']) ∧
      e = .invalidSegment token fault ∧ Misspells content fault := by
  rw [ofToken] at h
  split at h
  next => cases h
  next =>
    split at h
    next content hcontent =>
      obtain ⟨fault, he, hfault⟩ := misspells_of_ofParts h
      exact ⟨content, fault, bracketContent?_eq_some_iff.mp hcontent, he, hfault⟩
    next => cases h

end Faults

/-- **The refused tokens are the brackets that spell nothing.** -/
theorem exists_fault_iff : (∃ fault, ofToken token = .error (.invalidSegment token fault)) ↔
    InBrackets token.toList ∧ ∀ segment, ¬ Spells token.toList segment := by
  constructor
  · rintro ⟨fault, h⟩
    obtain ⟨content, -, htoken, -⟩ := misspells_of_ofToken h
    refine ⟨⟨content, htoken⟩, fun segment hspells => ?_⟩
    rw [ofToken_of_spells hspells] at h
    cases h
  · rintro ⟨-, hnone⟩
    cases hread : ofToken token with
    | ok segment => exact absurd (spells_of_ofToken hread) (hnone segment)
    | error e =>
      obtain ⟨content, fault, -, rfl, -⟩ := misspells_of_ofToken hread
      exact ⟨fault, rfl⟩

end Segment

namespace Path

/-- **Path texts are read by the grammar.**  A token is read as the segment that it spells, and it is
refused by an error that names it exactly when it stands in brackets and spells nothing.  A path text
is read when none of its tokens is refused, with one segment for each token in order, and otherwise it
fails as the first token that is refused. -/
theorem reading_follows_grammar (token text : String) :
    (∀ segment, Segment.ofToken token = .ok segment ↔ Segment.Spells token.toList segment) ∧
      ((∃ fault, Segment.ofToken token = .error (.invalidSegment token fault)) ↔
        Segment.InBrackets token.toList ∧ ∀ segment, ¬ Segment.Spells token.toList segment) ∧
      ((∃ e, parse text = .error e) ↔
        ∃ other ∈ tokens text, ∃ e, Segment.ofToken other = .error e) ∧
      (∀ e, parse text = .error e ↔ ∃ before first after, tokens text = before ++ first :: after ∧
        (∀ other ∈ before, ∃ segment, Segment.ofToken other = .ok segment) ∧
          Segment.ofToken first = .error e) ∧
      ∀ path, parse text = .ok path ↔
        List.Forall₂ (fun other segment => Segment.ofToken other = .ok segment) (tokens text) path := by
  refine ⟨fun segment => Segment.ofToken_eq_ok_iff, Segment.exists_fault_iff, ⟨?_, ?_⟩,
    fun e => mapM_eq_error_iff, fun path => mapM_eq_ok_iff⟩
  · rintro ⟨e, h⟩
    obtain ⟨other, hother, hread⟩ := exists_of_mapM_eq_error h
    exact ⟨other, hother, e, hread⟩
  · rintro ⟨other, hother, e, hread⟩
    cases hparse : parse text with
    | error fault => exact ⟨fault, rfl⟩
    | ok path =>
      obtain ⟨segment, hsegment⟩ := exists_of_mapM_eq_ok hparse hother
      rw [hread] at hsegment
      cases hsegment

-- Brackets inside a bracket do not make a name of it.
example : parse "a.[1]x].[" =
    .error (.invalidSegment "[1]x]" (.notANumber "1]x")) := by cbv

end Path

end TreePath
