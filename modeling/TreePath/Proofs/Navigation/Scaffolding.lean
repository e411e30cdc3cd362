import TreePath.Proofs.Navigation.ReadDecides

/-!
# What a write builds on its way

A write to a path that reads as absent builds what is missing.  At the first name that is not there
it appends one entry, and below it one mapping for each further name (`nest`).  Where only names
and root tokens follow and the path ends in a name, the innermost of these mappings holds the value
in the end.  Else the write fails after the names in front of the first bracket are built, and what
it leaves is their scaffolding around an empty mapping.  `write_of_read_none` says this for every
tree and path.

A value that was built in this way is found, and replaced, along the same names (`read_nest`,
`mutate_write_nest`).
-/

set_option autoImplicit false

namespace TreePath

namespace Path

/-- The names in a path, in order. -/
def names : Path → List String
  | [] => []
  | .key name :: rest => name :: names rest
  | _ :: rest => names rest

/-- The segments in front of the first bracket. -/
def unbracketed (path : Path) : Path := path.takeWhile fun segment => !segment.isPositional

/-- No segment of the path is written in brackets. -/
def hasNoBracket (path : Path) : Bool := path.all fun segment => !segment.isPositional

/-- The last segment of the path is a name. -/
def endsInName : Path → Bool
  | [] => false
  | [.key _] => true
  | [_] => false
  | _ :: rest => endsInName rest

/-- Only the end of a path decides whether it ends in a name. -/
theorem endsInName_append (front : Path) {back : Path} (h : back ≠ []) :
    endsInName (front ++ back) = endsInName back := by
  induction front with
  | nil => rfl
  | cons segment rest ih =>
    have hne : rest ++ back ≠ [] := List.append_ne_nil_of_right_ne_nil _ h
    rw [List.cons_append]
    cases hrest : rest ++ back with
    | nil => exact absurd hrest hne
    | cons next more =>
      rw [← ih, hrest]
      cases segment <;> rfl

/-- Whether a path ends in a name is seen from its last segment alone. -/
theorem endsInName_cons (segment : Segment) {rest : Path} (h : rest ≠ []) :
    endsInName (segment :: rest) = endsInName rest :=
  endsInName_append [segment] h

end Path

namespace Node

open TreePath.Path (names unbracketed hasNoBracket endsInName)

/-- Mappings of one entry each, under the given names from the outside in, around a node. -/
def nest : List String → Node → Node
  | [], node => node
  | name :: rest, node => singleton name (nest rest node)

/-- The outcome of a write along a path that meets nothing but new mappings, and what it leaves in
its place.  Either the names of the path stand around the value, or the write fails, because there is
a bracket or the path does not end in a name, and the names in front of the first bracket stand
around an empty mapping. -/
def Builds (value : Node) (path : Path) (ends : Bool) (place : Node → Node)
    (change : Change (Option Node)) : Prop :=
  if hasNoBracket path ∧ ends then
    change = .done (some value) (place (nest (names path) value))
  else
    ∃ e, change = .failed e (place (nest (names (unbracketed path)) emptyMapping))

/-- What is built in a place is built in a larger tree around the place. -/
theorem Builds.within {value : Node} {path : Path} {ends : Bool} {place : Node → Node}
    {change : Change (Option Node)} (h : Builds value path ends place change)
    (outer : Node → Node) :
    Builds value path ends (fun tree => outer (place tree)) (change.within outer) := by
  unfold Builds at h ⊢
  split
  next hcond =>
    rw [if_pos hcond] at h
    rw [h, Change.done_within]
  next hcond =>
    rw [if_neg hcond] at h
    obtain ⟨e, he⟩ := h
    exact ⟨e, by rw [he, Change.failed_within]⟩

section Build

variable {entries : Entries Node} {name : String} {back : Path}

/-! ## Building -/

/-- A write behind a name that is absent goes on in an empty mapping, which becomes the new last
entry, whether the write succeeds or fails there. -/
theorem mutate_write_absent (value : Node) (habsent : name ∉ Entries.keys entries)
    (hback : back ≠ []) :
    mutate (.write value) (mapping entries) (.key name :: back) =
      (mutate (.write value) emptyMapping back).within fun tree =>
        mapping (entries ++ [(name, tree)]) := by
  rw [mutate_cons _ _ (by simp) hback, position_key_of_not_mem habsent]
  rfl

/-- A write at a name that is absent appends the value as the last entry. -/
theorem mutate_write_absent_last (value : Node) (habsent : name ∉ Entries.keys entries) :
    mutate (.write value) (mapping entries) [.key name] =
      .done (some value) (mapping (entries ++ [(name, value)])) := by
  rw [mutate, mutateLast, writeLast_key, Entries.get?_eq_none_iff.mpr habsent,
    Option.getD_none, Entries.put_of_not_mem value habsent]

/-- A bracket finds nothing to write to in an empty mapping. -/
theorem mutate_write_bracket (value : Node) {segment : Segment} (h : segment.isPositional)
    (rest : Path) :
    ∃ e, mutate (.write value) emptyMapping (segment :: rest) = .failed e emptyMapping := by
  have hroot : segment ≠ .root := by
    rintro rfl
    cases h
  rw [emptyMapping]
  by_cases hrest : rest = []
  · subst hrest
    cases landing (mapping []) segment with
    | root => cases h
    | key name => cases h
    | entry hindex hentry => cases hentry
    | entries _ range => exact ⟨.invalidAssignment (.slice range) .rangeOfKeys, rfl⟩
    | misfit hsegment hposition hread hmutate => exact ⟨_, hmutate (.write value)⟩
  · rw [mutate_cons _ _ hroot hrest]
    cases landing (mapping []) segment with
    | root => cases h
    | key name => cases h
    | entry hindex hentry => cases hentry
    | entries _ range => exact ⟨.ambiguousBranch (.slice range), rfl⟩
    | misfit hsegment hposition hread hmutate =>
      rw [hposition]
      exact ⟨_, rfl⟩

/-- What a write along a path builds in an empty mapping. -/
theorem builds_emptyMapping (value : Node) (path : Path) (hpath : path ≠ []) :
    Builds value path (endsInName path) id (mutate (.write value) emptyMapping path) := by
  induction path with
  | nil => exact absurd rfl hpath
  | cons segment rest ih =>
    cases segment with
    | root =>
      by_cases hrest : rest = []
      · subst hrest
        exact ⟨.protectedRoot .write, rfl⟩
      · rw [mutate_root_cons _ _ hrest, Path.endsInName_cons _ hrest]
        exact ih hrest
    | key name =>
      -- Nothing is there under a name, and what is built for it is an empty mapping again.
      by_cases hrest : rest = []
      · subst hrest
        exact mutate_write_absent_last value List.not_mem_nil
      · have hstep := mutate_write_absent value (Entries.not_mem_keys_nil name) hrest
        rw [Path.endsInName_cons _ hrest, emptyMapping, hstep]
        exact (ih hrest).within (singleton name)
    | index i => exact mutate_write_bracket value rfl rest
    | slice range => exact mutate_write_bracket value rfl rest

/-- What a write along a path builds in a mapping that does not have the first name. -/
theorem builds_absent (value : Node) (back : Path) (habsent : name ∉ Entries.keys entries) :
    Builds value back (endsInName (.key name :: back))
      (fun tree => mapping (entries ++ [(name, tree)]))
      (mutate (.write value) (mapping entries) (.key name :: back)) := by
  by_cases hback : back = []
  · subst hback
    exact mutate_write_absent_last value habsent
  · rw [Path.endsInName_cons _ hback, mutate_write_absent value habsent hback]
    exact (builds_emptyMapping value back hback).within _

/-! ## Following what was built -/

/-- A new last entry is found by its name. -/
theorem leads_last_entry (child : Node) (habsent : name ∉ Entries.keys entries) :
    Leads (mapping (entries ++ [(name, child)])) [.key name] [entries.length] child := by
  refine .down ?_ ?_ (.here child)
  · rw [Node.position, Entries.position?_append_singleton child habsent]
  · simp [child?]

/-- The value of the last entry is replaced in place. -/
theorem replaceAt_last_entry (entries : Entries Node) (name : String) (child new : Node) :
    (mapping (entries ++ [(name, child)])).replaceAt [entries.length] new =
      mapping (entries ++ [(name, new)]) := by
  have hchild : (mapping (entries ++ [(name, child)])).child? entries.length = some child := by
    simp [child?]
  have hlt : entries.length < (entries ++ [(name, child)]).length := by simp
  rw [replaceAt_cons hchild, replaceAt_nil, setChild, List.modify_eq_take_cons_drop hlt]
  simp

/-- A mutation behind the name of the last entry changes its value in place. -/
theorem mutate_last_entry (mutation : Mutation) (child : Node)
    (habsent : name ∉ Entries.keys entries) (hback : back ≠ []) :
    mutate mutation (mapping (entries ++ [(name, child)])) (.key name :: back) =
      (mutate mutation child back).within fun tree => mapping (entries ++ [(name, tree)]) := by
  have hstep := mutate_append mutation (leads_last_entry child habsent) hback
  rw [List.singleton_append] at hstep
  rw [hstep]
  congr 1
  funext tree
  exact replaceAt_last_entry entries name child tree

/-- A write at the name of a new last entry exchanges its value and keeps its place. -/
theorem mutate_write_last_entry (value other : Node) (habsent : name ∉ Entries.keys entries) :
    mutate (.write other) (mapping (entries ++ [(name, value)])) [.key name] =
      .done (some value) (mapping (entries ++ [(name, other)])) := by
  rw [← Entries.put_of_not_mem value habsent, ← Entries.put_of_not_mem other habsent]
  rw [mutate, mutateLast, writeLast_key, Entries.get?_put_self, Entries.put_put,
    Option.getD_some]

/-- The names that a value was built under lead to it. -/
theorem read_nest (value : Node) (path : Path) (hbracket : hasNoBracket path) :
    (nest (names path) value).read path = .ok (some value) := by
  induction path with
  | nil => rfl
  | cons segment rest ih =>
    cases segment with
    | root =>
      by_cases hrest : rest = []
      · subst hrest
        exact readLast_root value
      · rw [read_root_cons _ hrest]
        exact ih hbracket
    | key name =>
      by_cases hrest : rest = []
      · subst hrest
        exact congrArg Except.ok (Entries.get?_put_self name value [])
      · have hleads := leads_last_entry (nest (names rest) value)
          (Entries.not_mem_keys_nil name)
        exact (read_append hleads hrest).trans (ih hbracket)
    | index i => cases hbracket
    | slice range => cases hbracket

/-- A write along the names that a value was built under replaces it. -/
theorem mutate_write_nest (value other : Node) (path : Path) (hpath : path ≠ [])
    (hbracket : hasNoBracket path) (hend : endsInName path) :
    mutate (.write other) (nest (names path) value) path =
      .done (some value) (nest (names path) other) := by
  induction path with
  | nil => exact absurd rfl hpath
  | cons segment rest ih =>
    cases segment with
    | root =>
      by_cases hrest : rest = []
      · subst hrest
        cases hend
      · rw [Path.endsInName_cons _ hrest] at hend
        rw [mutate_root_cons _ _ hrest]
        exact ih hrest hbracket hend
    | key name =>
      by_cases hrest : rest = []
      · subst hrest
        exact mutate_write_last_entry value other (Entries.not_mem_keys_nil name)
      · rw [Path.endsInName_cons _ hrest] at hend
        have hstep := mutate_last_entry (.write other) (nest (names rest) value)
          (Entries.not_mem_keys_nil name) hrest
        rw [ih hrest hbracket hend] at hstep
        exact hstep
    | index i => cases hbracket
    | slice range => cases hbracket

/-- A value that a write built is read along its path. -/
theorem read_built (value : Node) (habsent : name ∉ Entries.keys entries)
    (hbracket : hasNoBracket back) :
    (mapping (entries ++ [(name, nest (names back) value)])).read (.key name :: back) =
      .ok (some value) := by
  by_cases hback : back = []
  · subst hback
    rw [names, nest, ← Entries.put_of_not_mem value habsent]
    exact congrArg Except.ok (Entries.get?_put_self name value entries)
  · have hleads := leads_last_entry (nest (names back) value) habsent
    exact (read_append hleads hback).trans (read_nest value back hbracket)

/-- A value that a write built is replaced along its path. -/
theorem mutate_write_built (value other : Node) (habsent : name ∉ Entries.keys entries)
    (hbracket : hasNoBracket back) (hend : endsInName (.key name :: back)) :
    mutate (.write other) (mapping (entries ++ [(name, nest (names back) value)]))
        (.key name :: back) =
      .done (some value) (mapping (entries ++ [(name, nest (names back) other)])) := by
  by_cases hback : back = []
  · subst hback
    exact mutate_write_last_entry value other habsent
  · rw [Path.endsInName_cons _ hback] at hend
    rw [mutate_last_entry _ _ habsent hback,
      mutate_write_nest value other back hback hbracket hend, Change.done_within]

end Build

section Absent

variable {root : Node} {path front back : Path} {name : String} {address : Address}
  {entries : Entries Node}

/-- A write to a path with an absent name appends one entry at the first of them. -/
theorem write_firstAbsent (value : Node)
    (h : FirstAbsent root path front name back address entries) :
    if hasNoBracket back ∧ endsInName path then
      write value root path = .done value
        (root.replaceAt address (mapping (entries ++ [(name, nest (names back) value)])))
    else
      ∃ e, write value root path = .failed e
        (root.replaceAt address
          (mapping (entries ++ [(name, nest (names (unbracketed back)) emptyMapping)]))) := by
  have hend : endsInName path = endsInName (.key name :: back) := by
    rw [h.path_eq, Path.endsInName_append _ (List.cons_ne_nil _ _)]
  have hbuilt := (builds_absent value back h.absent).within (root.replaceAt address)
  rw [← mutate_append _ h.leads (List.cons_ne_nil _ _), ← h.path_eq, ← hend] at hbuilt
  unfold Builds at hbuilt
  unfold write
  split
  next hcond =>
    rw [if_pos hcond] at hbuilt
    rw [hbuilt]
    rfl
  next hcond =>
    rw [if_neg hcond] at hbuilt
    obtain ⟨e, he⟩ := hbuilt
    exact ⟨e, by rw [he, Change.failed_map]⟩

end Absent

/-- **A write builds exactly what is missing.**  A path that reads as absent has a first name that
is not there, in a mapping that the segments in front of it lead to, and a write to the path appends
one entry with this name to the mapping and changes nothing else.  Where no bracket follows and the
path ends in a name, the write succeeds and the entry holds the value below the further names.  Else
the write fails, and the entry holds an empty mapping below the names in front of the first
bracket. -/
theorem write_of_read_none (root value : Node) (path : Path) (h : root.read path = .ok none) :
    (∃ front name back address entries,
      FirstAbsent root path front name back address entries) ∧
    ∀ front name back address entries,
      FirstAbsent root path front name back address entries →
      if hasNoBracket back ∧ endsInName path then
        write value root path = .done value
          (root.replaceAt address (mapping (entries ++ [(name, nest (names back) value)])))
      else
        ∃ e, write value root path = .failed e
          (root.replaceAt address
            (mapping (entries ++ [(name, nest (names (unbracketed back)) emptyMapping)]))) :=
  ⟨firstAbsent_of_read_none h, fun _ _ _ _ _ habsent => write_firstAbsent value habsent⟩

/-- Two writes below a name that the mapping of the sample does not have: one builds the names on
the way to its value, the other leaves them when it meets a bracket. -/
theorem write_of_read_none_sample :
    write null sample [.key "map", .key "a", .root, .key "b"] =
        .done null (mapping [("list", sequence [ofInt64 1, ofInt64 2, ofInt64 3]),
          ("map", mapping [("on", ofBool true), ("a", mapping [("b", null)])])]) ∧
      ∃ e, write null sample [.key "map", .key "a", .key "b", .index 0] =
        .failed e (mapping [("list", sequence [ofInt64 1, ofInt64 2, ofInt64 3]),
          ("map", mapping [("on", ofBool true), ("a", mapping [("b", emptyMapping)])])]) := by
  have habsent (back : Path) : FirstAbsent sample ([.key "map"] ++ .key "a" :: back)
      [.key "map"] "a" back [1] [("on", ofBool true)] :=
    ⟨rfl, .down rfl rfl (.here _), by decide⟩
  have hbuilt := (write_of_read_none sample null [.key "map", .key "a", .root, .key "b"] rfl).2
    _ _ _ _ _ (habsent _)
  have hleft := (write_of_read_none sample null [.key "map", .key "a", .key "b", .index 0] rfl).2
    _ _ _ _ _ (habsent _)
  rw [if_pos (by decide)] at hbuilt
  rw [if_neg (by decide)] at hleft
  exact ⟨hbuilt, hleft⟩

end Node

end TreePath
