import TreePath.Proofs.Navigation.Descent
import TreePath.Proofs.Navigation.LastSegment

/-!
# What a read says about a change

A read, a write and a deletion of one path agree on one tree.  Where the read fails, both changes
fail with the same error and leave the tree (`mutate_of_read_error`).  Where the read finds a value,
a write answers with it (`write_follows_read`) and a deletion takes just this value out
(`delete_follows_read`).  Where the read finds nothing, a deletion leaves the tree.  The two
exceptions are the root token at the end, which no change may address, and a slice, which refuses
the values that do not fit it.
-/

set_option autoImplicit false

namespace TreePath

namespace Node

variable {root old : Node} {path : Path} {last : Segment} {e : PathError}

/-! ## The three outcomes of a read -/

/-- A read that finds something leads to a node that has it. -/
theorem leads_of_read_some (h : root.read (path ++ [last]) = .ok (some old)) :
    ∃ address target, Leads root path address target ∧
      target.readLast last = .ok (some old) := by
  rcases leads_or_absent_or_blocked root path with
    ⟨address, target, hleads⟩ | ⟨front, name, back, address, entries, habsent⟩ | ⟨e, hblocked⟩
  · rw [read_last hleads] at h
    exact ⟨address, target, hleads, h⟩
  · rw [(habsent.append [last]).read] at h
    cases h
  · rw [hblocked.read (List.cons_ne_nil _ _)] at h
    cases h

/-- A read that finds nothing meets a first name that is not there. -/
theorem firstAbsent_of_read_none (h : root.read path = .ok none) :
    ∃ front name back address entries,
      FirstAbsent root path front name back address entries := by
  obtain rfl | ⟨front, last, rfl⟩ := List.eq_nil_or_concat path
  · cases h
  rw [List.concat_eq_append] at h ⊢
  rcases leads_or_absent_or_blocked root front with
    ⟨address, target, hleads⟩ | ⟨front, name, back, address, entries, habsent⟩ | ⟨e, hblocked⟩
  · rw [read_last hleads] at h
    obtain ⟨name, entries, rfl, rfl, habsent⟩ := eq_key_of_readLast_eq_none h
    exact ⟨front, name, [], address, entries, rfl, hleads, habsent⟩
  · exact ⟨front, name, back ++ [last], address, entries, habsent.append [last]⟩
  · rw [hblocked.read (List.cons_ne_nil _ _)] at h
    cases h

/-- Where the read fails every mutation fails with the same error and leaves the tree. -/
theorem mutate_of_read_error (mutation : Mutation)
    (h : root.read (path ++ [last]) = .error e) :
    mutate mutation root (path ++ [last]) = .failed e root := by
  rcases leads_or_absent_or_blocked root path with
    ⟨address, target, hleads⟩ | ⟨front, name, back, address, entries, habsent⟩ | ⟨e', hblocked⟩
  · rw [read_last hleads] at h
    rw [mutate_last mutation hleads, mutateLast_of_error mutation h, Change.failed_within,
      replaceAt_subtree? hleads.subtree?]
  · rw [(habsent.append [last]).read] at h
    cases h
  · rw [hblocked.read (List.cons_ne_nil _ _)] at h
    cases h
    exact hblocked.mutate mutation (List.cons_ne_nil _ _)

/-! ## Writes -/

/-- Behind a front that leads to a node, a write is that of its last segment there, with null in place
of an answer that is missing. -/
theorem write_last {address : Address} {target : Node} (value : Node)
    (hleads : Leads root path address target) (last : Segment) :
    write value root (path ++ [last]) =
      ((writeLast value target last).map (·.getD null)).within (root.replaceAt address) := by
  rw [write, mutate_last _ hleads, Change.map_within]
  rfl

/-- The result of a write is that of its last segment. -/
theorem result_write {address : Address} {target value : Node}
    (hleads : Leads root path address target)
    (h : (writeLast value target last).result = .ok (some old)) :
    (write value root (path ++ [last])).result = .ok old := by
  rw [write_last value hleads, Change.result_within, Change.map, h]
  rfl

/-- A write that its last segment refuses leaves the whole tree as it was. -/
theorem write_refused {address : Address} {target value : Node}
    (hleads : Leads root path address target)
    (h : writeLast value target last = .failed e target) :
    write value root (path ++ [last]) = .failed e root := by
  rw [write_last value hleads, h, Change.failed_map, Change.failed_within,
    replaceAt_subtree? hleads.subtree?]

/-- **The read decides the write.**  A path that cannot be read cannot be written, for the same
reason.  Where the read finds a value, a write to a name or an index answers with this value, which
for an index on a mapping is the one entry there; a write to a slice answers with it or refuses the
new value; and a write to the root token is refused.  A write that is refused leaves the tree. -/
theorem write_follows_read (root value : Node) (path : Path) (last : Segment) :
    (∀ e, root.read (path ++ [last]) = .error e →
      write value root (path ++ [last]) = .failed e root) ∧
    ∀ old, root.read (path ++ [last]) = .ok (some old) →
      match last with
      | .key _ => (write value root (path ++ [last])).result = .ok old
      | .index i =>
        (write value root (path ++ [last])).result = .ok old ∧
          ∀ address entries, Leads root path address (mapping entries) →
            ∃ position key child, resolveIndex i entries.length .mapping = .ok position ∧
              entries[position]? = some (key, child) ∧ old = singleton key child
      | .slice _ =>
        root.Sized →
          (write value root (path ++ [last])).result = .ok old ∨
            ∃ fault, write value root (path ++ [last]) =
              .failed (.invalidAssignment last fault) root
      | .root => write value root (path ++ [last]) = .failed (.protectedRoot .write) root := by
  constructor
  · intro e h
    rw [write, mutate_of_read_error _ h, Change.failed_map]
  · intro old h
    obtain ⟨address, target, hleads, hlast⟩ := leads_of_read_some h
    cases last with
    | root => exact write_refused hleads (writeLast_root value target)
    | key name => exact result_write hleads (result_writeLast_of_isSingle value rfl hlast)
    | index i =>
      refine ⟨result_write hleads (result_writeLast_of_isSingle value rfl hlast), ?_⟩
      intro place entries hplace
      -- On a mapping only an index within it reads something, and this is one entry.
      rw [read_last hplace] at h
      cases landing (mapping entries) (.index i) with
      | entry hindex hentry =>
        rw [readLast_entry hindex hentry] at h
        cases h
        exact ⟨_, _, _, hindex, hentry, rfl⟩
      | misfit hsegment hposition hread hmutate =>
        rw [hread] at h
        cases h
    | slice range =>
      intro hsized
      have hlength := (hsized.subtree? hleads.subtree?).fitsWord_length
      rcases writeLast_slice value hlength hlast with hdone | ⟨fault, hfault⟩
      · exact .inl (result_write hleads hdone)
      · exact .inr ⟨fault, write_refused hleads hfault⟩

/-- Every second item of the list in the sample, from its end. -/
theorem read_sample_slice : sample.read [.key "list", .slice ⟨none, none, -2⟩] =
    .ok (some (sequence [ofInt64 3, ofInt64 1])) := by
  have hpositions : Slice.positions ⟨none, none, -2⟩ 3 = [2, 0] := by decide +kernel
  show Except.ok (some (sequence
    (pick [ofInt64 1, ofInt64 2, ofInt64 3] (Slice.positions ⟨none, none, -2⟩ 3)))) = _
  rw [hpositions]
  rfl

/-- A write to the sample for each case: an index beyond the list, a name, an index on a mapping, a
slice that runs backwards, and the root token. -/
theorem write_follows_read_sample :
    write null sample [.key "list", .index 7] =
        .failed (.indexOutOfRange 7 3 .sequence) sample ∧
      (write null sample [.key "map", .key "on"]).result = .ok (ofBool true) ∧
      (write null sample [.key "map", .index (-1)]).result =
        .ok (singleton "on" (ofBool true)) ∧
      (∃ position key child, resolveIndex (-1) 1 .mapping = .ok position ∧
        [("on", ofBool true)][position]? = some (key, child) ∧
        singleton "on" (ofBool true) = singleton key child) ∧
      ((write null sample [.key "list", .slice ⟨none, none, -2⟩]).result =
          .ok (sequence [ofInt64 3, ofInt64 1]) ∨
        ∃ fault, write null sample [.key "list", .slice ⟨none, none, -2⟩] =
          .failed (.invalidAssignment (.slice ⟨none, none, -2⟩) fault) sample) ∧
      write null sample [.key "list", .root] = .failed (.protectedRoot .write) sample := by
  have hbeyond := (write_follows_read sample null [.key "list"] (.index 7)).1 _ rfl
  have hname := (write_follows_read sample null [.key "map"] (.key "on")).2 _ rfl
  have hentry := (write_follows_read sample null [.key "map"] (.index (-1))).2 _ rfl
  have hitems := (write_follows_read sample null [.key "list"] (.slice ⟨none, none, -2⟩)).2 _
    read_sample_slice sample_wellFormed.sized
  have hroot := (write_follows_read sample null [.key "list"] .root).2 _ rfl
  refine ⟨hbeyond, hname, hentry.1, ?_, hitems, hroot⟩
  exact hentry.2 [1] [("on", ofBool true)] (.down rfl rfl (.here _))

/-! ## Deletions -/

/-- **A deletion takes out what the read finds.**  Unless the path ends in the root token, a
deletion answers as the read does, and it leaves the tree when nothing is found.  A path that ends
in the root token deletes nothing: the deletion answers as the read does where the read finds
nothing, and is refused where it finds something.

A slice of a mapping is removed key by key, which takes out the selected entries because a tree that
a program can hold is well formed. -/
theorem delete_follows_read (root : Node) (path : Path) :
    (∀ last, last ≠ .root → (∀ range, last = .slice range → root.WellFormed) →
      (delete root (path ++ [last])).result = root.read (path ++ [last]) ∧
        ((∀ x, root.read (path ++ [last]) ≠ .ok (some x)) →
          (delete root (path ++ [last])).tree = root)) ∧
    delete root (path ++ [.root]) =
      match root.read (path ++ [.root]) with
      | .error e => .failed e root
      | .ok none => .done none root
      | .ok (some _) => .failed (.protectedRoot .delete) root := by
  constructor
  · intro last hlast hslice
    cases hread : root.read (path ++ [last]) with
    | error e =>
      have hdelete : delete root (path ++ [last]) = .failed e root := mutate_of_read_error _ hread
      rw [hdelete]
      exact ⟨rfl, fun _ => rfl⟩
    | ok found =>
      cases found with
      | none =>
        obtain ⟨front, name, back, address, entries, habsent⟩ := firstAbsent_of_read_none hread
        rw [habsent.delete]
        exact ⟨rfl, fun _ => rfl⟩
      | some old =>
        obtain ⟨address, target, hleads, hfound⟩ := leads_of_read_some hread
        have hwell : ∀ range, last = .slice range → target.WellFormed :=
          fun range hrange => (hslice range hrange).subtree? hleads.subtree?
        refine ⟨?_, fun hnone => absurd rfl (hnone old)⟩
        rw [delete, mutate_last _ hleads, Change.result_within, ← hfound]
        exact result_deleteLast hlast hwell
  · cases hread : root.read (path ++ [.root]) with
    | error e => exact mutate_of_read_error _ hread
    | ok found =>
      cases found with
      | none =>
        obtain ⟨front, name, back, address, entries, habsent⟩ := firstAbsent_of_read_none hread
        exact habsent.delete
      | some old =>
        obtain ⟨address, target, hleads, hfound⟩ := leads_of_read_some hread
        have hroot : mutateLast .delete target .root = .failed (.protectedRoot .delete) target :=
          deleteLast_root target
        rw [delete, mutate_last _ hleads, hroot, Change.failed_within,
          replaceAt_subtree? hleads.subtree?]

/-- Deletions from the sample: a slice of a mapping, a name that is not there, and the root
token. -/
theorem delete_follows_read_sample :
    (delete sample [.key "map", .slice ⟨none, none, -1⟩]).result =
        .ok (some (mapping [("on", ofBool true)])) ∧
      (delete sample [.key "map", .key "off"]).tree = sample ∧
      delete sample [.key "map", .root] = .failed (.protectedRoot .delete) sample := by
  have hread : sample.read [.key "map", .slice ⟨none, none, -1⟩] =
      .ok (some (mapping [("on", ofBool true)])) := by
    have hpositions : Slice.positions ⟨none, none, -1⟩ 1 = [0] := by decide +kernel
    show Except.ok (some (mapping (Entries.ofList
      (pick [("on", ofBool true)] (Slice.positions ⟨none, none, -1⟩ 1))))) = _
    rw [hpositions]
    rfl
  have hslice := (delete_follows_read sample [.key "map"]).1 (.slice ⟨none, none, -1⟩) (by simp)
    fun _ _ => sample_wellFormed
  have habsent := (delete_follows_read sample [.key "map"]).1 (.key "off") (by simp) (by simp)
  have hroot := (delete_follows_read sample [.key "map"]).2
  refine ⟨hslice.1.trans hread, habsent.2 ?_, hroot⟩
  intro x h
  cases h

end Node

end TreePath
