import TreePath.Proofs.Navigation.ReadDecides

/-!
# Paths are composed

A path can be followed in two parts.  The first part finds a node, and the second part does in that
node what the whole path does in the tree: it reads the same, and it changes the tree by changing
the node in its place (`read_mutate_append`).  Nothing else in the tree takes part, neither when the
second part succeeds nor when it fails.

The first part has to find a node of the tree itself.  A slice, and an index that lands on a
mapping, build a container for their answer when they stand at the end of a path, but in the middle
of a path the first is refused and the second leads to the bare child.
-/

set_option autoImplicit false

namespace TreePath

namespace Node

/-- The path does not end in a segment that builds its answer: neither in a slice nor in an index
that lands on a mapping. -/
structure EndsInPlace (root : Node) (path : Path) : Prop where
  not_slice : ∀ front range, path ≠ front ++ [.slice range]
  not_entry : ∀ front i address entries, path = front ++ [.index i] →
    ¬ Leads root front address (mapping entries)

section Ends

variable {root node target : Node} {front back : Path} {last : Segment} {address : Address}
  {name : String} {e : PathError}

/-- A name leads to what is read under it. -/
theorem leads_key {entries : Entries Node} (h : Entries.get? entries name = some target) :
    ∃ position, Leads (mapping entries) [.key name] [position] target := by
  have hthere : ¬ Entries.position? entries name = none := by
    rw [Entries.position?_eq_none_iff, ← Entries.get?_eq_none_iff, h]
    simp
  obtain ⟨position, hposition⟩ := Option.ne_none_iff_exists'.mp hthere
  refine ⟨position, .down ?_ ?_ (.here target)⟩
  · rw [Node.position, hposition]
  · rw [child?, Entries.getElem?_position? hposition, h]

/-- Where the last segment does not build its answer, it leads to what it reads. -/
theorem leads_of_readLast (hslice : ∀ range, last ≠ .slice range)
    (hentry : ∀ i entries, last = .index i → node ≠ mapping entries)
    (h : node.readLast last = .ok (some target)) : ∃ address, Leads node [last] address target := by
  cases landing node last with
  | root =>
    rw [readLast_root] at h
    cases h
    exact ⟨[], .root (.here _)⟩
  | key entries name =>
    rw [readLast_key, Except.ok.injEq] at h
    obtain ⟨position, hleads⟩ := leads_key h
    exact ⟨[position], hleads⟩
  | @entry entries i => exact absurd rfl (hentry i entries rfl)
  | @item items i position child hindex hitem =>
    rw [readLast_item hindex hitem] at h
    cases h
    exact ⟨[position], .down (position_item hindex) hitem (.here _)⟩
  | entries entries range => exact absurd rfl (hslice range)
  | items items range => exact absurd rfl (hslice range)
  | misfit hsegment hposition hread hmutate =>
    rw [hread] at h
    cases h

/-- A segment that cannot be read at the end of a path blocks a longer path. -/
theorem blocked_of_readLast (h : node.readLast last = .error e) : Blocked node [last] e := by
  cases landing node last with
  | root =>
    rw [readLast_root] at h
    cases h
  | key entries name => cases h
  | entry hindex hentry =>
    rw [readLast_entry hindex hentry] at h
    cases h
  | item hindex hitem =>
    rw [readLast_item hindex hitem] at h
    cases h
  | entries entries range => cases h
  | items items range => cases h
  | misfit hsegment hposition hread hmutate =>
    rw [hread] at h
    cases h
    exact .here hsegment hposition

/-! ## What the front decides -/

/-- A front that finds a node leads to it. -/
theorem EndsInPlace.leads (hfront : root.EndsInPlace front)
    (h : root.read front = .ok (some target)) : ∃ address, Leads root front address target := by
  obtain rfl | ⟨path, last, rfl⟩ := List.eq_nil_or_concat front
  · cases h
    exact ⟨[], .here root⟩
  · rw [List.concat_eq_append] at h hfront ⊢
    obtain ⟨address, node, hleads, hlast⟩ := leads_of_read_some h
    have hslice : ∀ range, last ≠ .slice range := by
      rintro range rfl
      exact hfront.not_slice path range rfl
    have hentry : ∀ i entries, last = .index i → node ≠ mapping entries := by
      rintro i entries rfl rfl
      exact hfront.not_entry path i address entries rfl hleads
    obtain ⟨further, hfurther⟩ := leads_of_readLast hslice hentry hlast
    exact ⟨address ++ further, hleads.append hfurther⟩

/-- Behind a front that cannot be read a path cannot be read, for the same reason. -/
theorem read_append_of_error (h : root.read front = .error e) (hback : back ≠ []) :
    root.read (front ++ back) = .error e := by
  obtain rfl | ⟨path, last, rfl⟩ := List.eq_nil_or_concat front
  · cases h
  rw [List.concat_eq_append] at h ⊢
  have hmore : [last] ++ back ≠ [] := List.append_ne_nil_of_right_ne_nil _ hback
  rcases leads_or_absent_or_blocked root path with
    ⟨address, target, hleads⟩ | ⟨path, name, more, address, entries, habsent⟩ | ⟨e', hblocked⟩
  · rw [read_last hleads] at h
    rw [List.append_assoc, read_append hleads hmore]
    exact (blocked_of_readLast h).read hback
  · rw [(habsent.append [last]).read] at h
    cases h
  · rw [hblocked.read (List.cons_ne_nil _ _)] at h
    cases h
    rw [List.append_assoc]
    exact hblocked.read hmore

/-- A read that comes back with nothing does so however the path goes on, because a name of it was
already absent. -/
theorem read_append_of_none (h : root.read front = .ok none) (back : Path) :
    root.read (front ++ back) = .ok none := by
  obtain ⟨path, name, more, address, entries, habsent⟩ := firstAbsent_of_read_none h
  exact (habsent.append back).read

end Ends

/-- **Following a path is following its parts.**  Behind a front that fails or finds nothing the
whole path reads just that.  Behind a front that finds a node the path reads what its back reads in
this node, and a mutation answers as it does there and leaves the tree with the changed node in its
place, on success and on failure: all other nodes are the same, and the nodes above keep their shape
and their keys in order. -/
theorem read_mutate_append (root : Node) (front back : Path) (hfront : root.EndsInPlace front)
    (hback : back ≠ []) :
    root.read (front ++ back) =
      (match root.read front with
        | .error e => .error e
        | .ok none => .ok none
        | .ok (some middle) => middle.read back) ∧
    ∀ middle, root.read front = .ok (some middle) →
      ∃ address, Leads root front address middle ∧ root.subtree? address = some middle ∧
        ∀ mutation,
          (mutate mutation root (front ++ back)).result = (mutate mutation middle back).result ∧
          (mutate mutation root (front ++ back)).tree =
            root.replaceAt address (mutate mutation middle back).tree ∧
          AgreeOff address root (mutate mutation root (front ++ back)).tree := by
  constructor
  · cases hread : root.read front with
    | error e => exact read_append_of_error hread hback
    | ok found =>
      cases found with
      | none => exact read_append_of_none hread back
      | some middle =>
        obtain ⟨address, hleads⟩ := hfront.leads hread
        exact read_append hleads hback
  · intro middle hread
    obtain ⟨address, hleads⟩ := hfront.leads hread
    refine ⟨address, hleads, hleads.subtree?, ?_⟩
    intro mutation
    rw [mutate_append mutation hleads hback]
    exact ⟨rfl, rfl, agreeOff_replaceAt root _ address⟩

/-- A front through the list of the sample to its last item, which is a leaf: the read and the
write behind it fail as they fail there.  A front to the mapping of the sample: the write behind it
builds a mapping in it. -/
theorem read_mutate_append_sample :
    sample.read [.key "list", .index (-1), .key "a"] =
        .error (.typeMismatch (.key "a") .scalar) ∧
      (mutate (.write null) sample [.key "map", .key "a", .key "b"]).tree =
        mapping [("list", sequence [ofInt64 1, ofInt64 2, ofInt64 3]),
          ("map", mapping [("on", ofBool true), ("a", mapping [("b", null)])])] := by
  have hitem : Leads sample [.key "list"] [0] (sequence [ofInt64 1, ofInt64 2, ofInt64 3]) :=
    .down rfl rfl (.here _)
  have hlist : sample.EndsInPlace [.key "list", .index (-1)] := by
    constructor
    · intro front range h
      simpa using congrArg List.getLast? h
    · intro front i address entries h hleads
      have hsplit : [.key "list"] ++ [.index (-1)] = front ++ [.index i] := h
      obtain ⟨rfl, -⟩ := List.append_inj' hsplit rfl
      cases (hleads.unique hitem).2
  have hmap : sample.EndsInPlace [.key "map"] := by
    constructor
    · intro front range h
      simpa using congrArg List.getLast? h
    · intro front i address entries h hleads
      simpa using congrArg List.getLast? h
  have hfail := (read_mutate_append sample [.key "list", .index (-1)] [.key "a"] hlist (by simp)).1
  have hbuild := (read_mutate_append sample [.key "map"] [.key "a", .key "b"] hmap (by simp)).2 _ rfl
  obtain ⟨address, hleads, -, hmutate⟩ := hbuild
  have hplace : Leads sample [.key "map"] [1] (mapping [("on", ofBool true)]) :=
    .down rfl rfl (.here _)
  obtain ⟨rfl, -⟩ := hleads.unique hplace
  exact ⟨hfail, (hmutate (.write null)).2.1⟩

end Node

end TreePath
