import TreePath.Proofs.Navigation.Scaffolding

/-!
# The lens laws of paths

Reading and writing along one path behave as a lens on the tree.  What was written is read, the
second of two writes hides the first, and what was read can be put back without a trace
(`lens_laws`).  The second operation resolves the whole path again in the changed tree, so the laws
rest on the fact that a write does not move its own path: the way to the place of the change is
found again (`Leads.replaceAt`), also through mappings that the write itself has built
(`read_built`).

An index on a mapping reads an entry and not a value.  There the written value is read as the entry
with the old key, and the law of putting back does not hold.
-/

set_option autoImplicit false

namespace TreePath

namespace Node

open TreePath.Path (names hasNoBracket endsInName)

variable {root new value old : Node} {path : Path} {last : Segment}

/-! ## Writes that succeed -/

/-- A write that succeeds changes the node that the segments in front of the last lead to, or builds
what is missing. -/
theorem write_done_cases (h : write value root (path ++ [last]) = .done old new) :
    (∃ address target answer changed, Leads root path address target ∧
      writeLast value target last = .done answer changed ∧
      new = root.replaceAt address changed) ∨
    ∃ front name back address entries,
      FirstAbsent root (path ++ [last]) front name back address entries ∧
        hasNoBracket back ∧ endsInName (path ++ [last]) ∧
        new = root.replaceAt address (mapping (entries ++ [(name, nest (names back) value)])) := by
  rcases leads_or_absent_or_blocked root path with
    ⟨address, target, hleads⟩ | ⟨front, name, back, address, entries, habsent⟩ | ⟨e, hblocked⟩
  · rw [write_last value hleads] at h
    obtain ⟨inner, hinner, hnew⟩ := Change.eq_done_of_within h
    obtain ⟨answer, hanswer⟩ := Change.eq_done_of_map hinner
    exact .inl ⟨address, target, answer, inner, hleads, hanswer, hnew.symm⟩
  · -- The absent name of the front is the absent name of the whole path.
    have hlonger := habsent.append [last]
    have hbuilt := write_firstAbsent value hlonger
    split at hbuilt
    next hcond =>
      rw [hbuilt] at h
      cases h
      exact .inr ⟨front, name, back ++ [last], address, entries, hlonger, hcond.1, hcond.2, rfl⟩
    next hcond =>
      obtain ⟨e, he⟩ := hbuilt
      rw [he] at h
      cases h
  · rw [write, hblocked.mutate _ (List.cons_ne_nil _ _)] at h
    cases h

/-! ## What was written is read -/

/-- A value that was written under a name is read there. -/
theorem read_write_key {name : String}
    (h : write value root (path ++ [.key name]) = .done old new) :
    new.read (path ++ [.key name]) = .ok (some value) := by
  rcases write_done_cases h with
    ⟨address, target, answer, changed, hleads, hlast, rfl⟩ |
    ⟨front, absent, back, address, entries, habsent, hbracket, hend, rfl⟩
  · rw [read_last (hleads.replaceAt changed)]
    exact readLast_writeLast_key hlast
  · rw [habsent.path_eq, read_append (habsent.leads.replaceAt _) (List.cons_ne_nil _ _)]
    exact read_built value habsent.absent hbracket

/-- A value that was written at an index is read there: as it stands where the index lands on a
sequence, as the entry with the old key where it lands on a mapping. -/
theorem read_write_index {i : Int64}
    (h : write value root (path ++ [.index i]) = .done old new) :
    (∃ address items, Leads root path address (sequence items) ∧
      new.read (path ++ [.index i]) = .ok (some value)) ∨
    ∃ address entries position key child, Leads root path address (mapping entries) ∧
      resolveIndex i entries.length .mapping = .ok position ∧
      entries[position]? = some (key, child) ∧
      new.read (path ++ [.index i]) = .ok (some (singleton key value)) := by
  rcases write_done_cases h with
    ⟨address, target, answer, changed, hleads, hlast, rfl⟩ |
    ⟨front, absent, back, address, entries, habsent, hbracket, hend, rfl⟩
  · rw [read_last (hleads.replaceAt changed)]
    rcases readLast_writeLast_index hlast with
      ⟨items, rfl, hread⟩ | ⟨entries, position, key, child, rfl, hindex, hentry, hread⟩
    · exact .inl ⟨address, items, hleads, hread⟩
    · exact .inr ⟨address, entries, position, key, child, hleads, hindex, hentry, hread⟩
  · -- What is built ends in a name, and an index does not.
    rw [Path.endsInName_append _ (List.cons_ne_nil _ _)] at hend
    cases hend

/-! ## A second write hides the first -/

/-- After a write the same path can be written again, with the tree that this write alone gives. -/
theorem write_write (other : Node) (hsingle : last.isSingle)
    (h : write value root (path ++ [last]) = .done old new) :
    ∃ first second tree, write other new (path ++ [last]) = .done first tree ∧
      write other root (path ++ [last]) = .done second tree := by
  rcases write_done_cases h with
    ⟨address, target, answer, changed, hleads, hlast, rfl⟩ |
    ⟨front, name, back, address, entries, habsent, hbracket, hend, rfl⟩
  · obtain ⟨first, second, tree, hfirst, hsecond⟩ := writeLast_writeLast other hsingle hlast
    refine ⟨first.getD null, second.getD null, root.replaceAt address tree, ?_, ?_⟩
    · rw [write_last other (hleads.replaceAt changed), hfirst, Change.done_map,
        Change.done_within, replaceAt_replaceAt]
    · rw [write_last other hleads, hsecond, Change.done_map, Change.done_within]
  · refine ⟨value, other,
      root.replaceAt address (mapping (entries ++ [(name, nest (names back) other)])), ?_, ?_⟩
    · rw [habsent.path_eq, Path.endsInName_append _ (List.cons_ne_nil _ _)] at hend
      rw [write, habsent.path_eq,
        mutate_append _ (habsent.leads.replaceAt _) (List.cons_ne_nil _ _),
        mutate_write_built value other habsent.absent hbracket hend, Change.done_within,
        Change.done_map, replaceAt_replaceAt]
      rfl
    · have hbuilt := write_firstAbsent other habsent
      rwa [if_pos ⟨hbracket, hend⟩] at hbuilt

/-! ## What was read can be put back -/

/-- Where writing back an old value changes nothing at the last segment, it changes nothing in the
whole tree. -/
theorem write_read_of_last {address : Address} {target : Node}
    (hleads : Leads root path address target)
    (h : writeLast old target last = .done (some old) target) :
    write old root (path ++ [last]) = .done old root := by
  rw [write_last old hleads, h, Change.done_map, Change.done_within,
    replaceAt_subtree? hleads.subtree?]
  rfl

/-- **Reading and writing along a path obey the lens laws.**  After a write to a name or an index
the path reads the written value, which at an index of a mapping is the entry with the old key, and
a second write gives the tree that it alone would give.  What is read under a name, or at an index
or a slice of a sequence, can be written back and leaves the tree as it was. -/
theorem lens_laws (root : Node) (path : Path) (last : Segment) :
    (∀ value old new, last.isSingle → write value root (path ++ [last]) = .done old new →
      (match last with
        | .index i =>
          (∃ address items, Leads root path address (sequence items) ∧
            new.read (path ++ [last]) = .ok (some value)) ∨
          ∃ address entries position key child, Leads root path address (mapping entries) ∧
            resolveIndex i entries.length .mapping = .ok position ∧
            entries[position]? = some (key, child) ∧
            new.read (path ++ [last]) = .ok (some (singleton key value))
        | _ => new.read (path ++ [last]) = .ok (some value)) ∧
      ∀ other, ∃ first second tree, write other new (path ++ [last]) = .done first tree ∧
        write other root (path ++ [last]) = .done second tree) ∧
    ∀ old, root.read (path ++ [last]) = .ok (some old) →
      ((∃ name, last = .key name) ∨
        ∃ address items, Leads root path address (sequence items) ∧
          ((∃ i, last = .index i) ∨ root.Sized ∧ ∃ range, last = .slice range)) →
      write old root (path ++ [last]) = .done old root := by
  constructor
  · intro value old new hsingle h
    refine ⟨?_, fun other => write_write other hsingle h⟩
    cases last with
    | root => cases hsingle
    | key name => exact read_write_key h
    | index i => exact read_write_index h
    | slice range => cases hsingle
  · intro old h hlast
    rcases hlast with ⟨name, rfl⟩ | ⟨address, items, hleads, ⟨i, rfl⟩ | ⟨hsized, range, rfl⟩⟩
    · obtain ⟨address, target, hleads, hread⟩ := leads_of_read_some h
      exact write_read_of_last hleads (writeLast_readLast_key hread)
    · rw [read_last hleads] at h
      exact write_read_of_last hleads (writeLast_readLast_item h)
    · have hlength := (hsized.subtree? hleads.subtree?).fitsWord_length
      rw [read_last hleads] at h
      exact write_read_of_last hleads (writeLast_readLast_slice hlength h)

/-- The laws in the sample: a value written at an index of its mapping, and the items that a slice
of its list reads, put back. -/
theorem lens_laws_sample :
    (∃ new, (write null sample [.key "map", .index (-1)]).tree = new ∧
      new.read [.key "map", .index (-1)] = .ok (some (singleton "on" null)) ∧
      ∃ first second tree,
        write (ofInt64 5) new [.key "map", .index (-1)] = .done first tree ∧
          write (ofInt64 5) sample [.key "map", .index (-1)] = .done second tree) ∧
      write (sequence [ofInt64 3, ofInt64 1]) sample [.key "list", .slice ⟨none, none, -2⟩] =
        .done (sequence [ofInt64 3, ofInt64 1]) sample := by
  have hmap : Leads sample [.key "map"] [1] (mapping [("on", ofBool true)]) :=
    .down rfl rfl (.here _)
  have hlist : Leads sample [.key "list"] [0] (sequence [ofInt64 1, ofInt64 2, ofInt64 3]) :=
    .down rfl rfl (.here _)
  have hput := (lens_laws sample [.key "map"] (.index (-1))).1 null _ _ rfl rfl
  have hget := (lens_laws sample [.key "list"] (.slice ⟨none, none, -2⟩)).2 _ read_sample_slice
    (.inr ⟨_, _, hlist, .inr ⟨sample_wellFormed.sized, _, rfl⟩⟩)
  refine ⟨⟨_, rfl, ?_, hput.2 (ofInt64 5)⟩, hget⟩
  rcases hput.1 with ⟨_, _, hleads, _⟩ | ⟨_, _, _, key, _, hleads, hindex, hentry, hread⟩
  · cases (hleads.unique hmap).2
  · cases (hleads.unique hmap).2
    cases hindex
    cases hentry
    exact hread

end Node

end TreePath
