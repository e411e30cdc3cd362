import TreePath.Proofs.Navigation.Composition
import TreePath.Proofs.Navigation.Scaffolding

/-!
# Paths that part at a name

Two paths with a common front that go on with different names meet different entries of one mapping.
A mutation along the first changes the mapping only under its own name (`get?_mutate_key`), so the
second still reads what it read, and two writes along them commute up to the order of the entries:
only names that both writes create may come to stand the other way round
(`mutations_of_diverging_paths`).

The common front may be missing in part.  A write then builds the rest of it first, and the tree that
is built this far is the ground on which both paths part (`exists_ground`).  For that the front must
hold nothing but names and root tokens behind its first absent name, which is so when each of its
indices lands on a child.
-/

set_option autoImplicit false

namespace TreePath

namespace Node

open TreePath.Path (names hasNoBracket)

/-! ## Trees up to the order of entries -/

/-- The second tree is the first with the entries of some of its mappings in another order. -/
inductive Reorders : Node → Node → Prop
  | refl (root : Node) : Reorders root root
  | step {root other : Node} {address : Address} {entries others : Entries Node} :
      root.subtree? address = some (mapping entries) → entries.Perm others →
      Reorders (root.replaceAt address (mapping others)) other → Reorders root other

/-- Two mappings put at one place give the same tree up to order when they do themselves. -/
theorem reorders_replaceAt {root target : Node} {address : Address}
    {entries others : Entries Node} (htarget : root.subtree? address = some target)
    (h : entries.Perm others) :
    Reorders (root.replaceAt address (mapping entries))
      (root.replaceAt address (mapping others)) := by
  refine .step (subtree?_replaceAt_self htarget _) h ?_
  rw [replaceAt_replaceAt]
  exact .refl _

/-! ## One name in front of a path -/

section Name

variable {entries : Entries Node} {name other : String} {rest : Path}

/-- A path that begins with a name reads what the rest of it reads in the value under the name. -/
theorem read_key (entries : Entries Node) (name : String) (rest : Path) :
    (mapping entries).read (.key name :: rest) =
      match Entries.get? entries name with
      | some child => child.read rest
      | none => .ok none := by
  by_cases hrest : rest = []
  · subst hrest
    rw [read, readLast_key]
    cases Entries.get? entries name <;> rfl
  · cases hfound : Entries.get? entries name with
    | none =>
      rw [read_cons _ (by simp) hrest,
        position_key_of_not_mem (Entries.get?_eq_none_iff.mp hfound)]
    | some child =>
      obtain ⟨position, hleads⟩ := leads_key hfound
      exact read_append hleads hrest

/-- What a write makes of the value that it finds under a name, by the rest of its path. -/
def writeUnder (value : Node) (rest : Path) (found : Option Node) : Change (Option Node) :=
  if rest.isEmpty then .done (some (found.getD value)) value
  else mutate (.write value) (found.getD emptyMapping) rest

/-- A name leads to the position of its entry, and a node put there is stored under the name. -/
theorem replaceAt_key {child : Node} (h : Entries.get? entries name = some child) :
    ∃ address, Leads (mapping entries) [.key name] address child ∧
      ∀ tree, (mapping entries).replaceAt address tree =
        mapping (Entries.put name tree entries) := by
  obtain ⟨position, hleads⟩ := leads_key h
  refine ⟨[position], hleads, ?_⟩
  intro tree
  cases hleads with
  | down hposition hchild hend =>
    cases hend
    simp only [Node.position, Except.ok.injEq] at hposition
    rw [replaceAt_cons hchild, replaceAt_nil, setChild, Entries.modify_position? hposition]

/-- A write that begins with a name stores under it what it makes of the value there. -/
theorem write_key (value : Node) (entries : Entries Node) (name : String) (rest : Path) :
    mutate (.write value) (mapping entries) (.key name :: rest) =
      (writeUnder value rest (Entries.get? entries name)).within fun tree =>
        mapping (Entries.put name tree entries) := by
  by_cases hrest : rest = []
  · subst hrest
    rfl
  · have hempty : rest.isEmpty = false := by simpa using hrest
    rw [writeUnder, hempty]
    cases hfound : Entries.get? entries name with
    | none =>
      have habsent := Entries.get?_eq_none_iff.mp hfound
      simp only [Entries.put_of_not_mem _ habsent]
      exact mutate_write_absent value habsent hrest
    | some child =>
      obtain ⟨address, hleads, hplace⟩ := replaceAt_key hfound
      have hstep := mutate_append (.write value) hleads hrest
      rw [funext hplace] at hstep
      exact hstep

/-- A mutation that begins with a name leaves what is found under the other names. -/
theorem get?_mutate_key (hne : other ≠ name) (mutation : Mutation) (entries : Entries Node)
    (rest : Path) :
    ∃ after, (mutate mutation (mapping entries) (.key name :: rest)).tree = mapping after ∧
      Entries.get? after other = Entries.get? entries other := by
  cases mutation with
  | write value =>
    rw [write_key]
    exact ⟨_, rfl, Entries.get?_put_of_ne hne _ entries⟩
  | delete =>
    by_cases hrest : rest = []
    · subst hrest
      exact ⟨_, rfl, Entries.get?_erase_of_ne hne entries⟩
    · cases hfound : Entries.get? entries name with
      | none =>
        rw [mutate_cons _ _ (by simp) hrest,
          position_key_of_not_mem (Entries.get?_eq_none_iff.mp hfound)]
        exact ⟨entries, rfl, rfl⟩
      | some child =>
        obtain ⟨address, hleads, hplace⟩ := replaceAt_key hfound
        have hstep := mutate_append .delete hleads hrest
        rw [List.singleton_append] at hstep
        rw [hstep, Change.tree_within, hplace]
        exact ⟨_, rfl, Entries.get?_put_of_ne hne _ entries⟩

/-- A name in front of a path does not fit a node that is no mapping. -/
theorem mutate_key_misfit {node : Node} (h : ∀ entries, node ≠ mapping entries)
    (mutation : Mutation) (name : String) (rest : Path) :
    mutate mutation node (.key name :: rest) =
      .failed (.typeMismatch (.key name) node.kind) node := by
  cases node with
  | mapping entries => exact absurd rfl (h entries)
  | sequence items => cases rest <;> cases mutation <;> rfl
  | scalar leaf => cases rest <;> cases mutation <;> rfl

end Name

/-! ## Different names in one node -/

section Fork

variable {a b : String}

/-- A mutation behind one name does not show behind another. -/
theorem read_mutate_key (hab : a ≠ b) (mutation : Mutation) (node : Node) (p q : Path) :
    (mutate mutation node (.key a :: p)).tree.read (.key b :: q) = node.read (.key b :: q) := by
  by_cases hnode : ∃ entries, node = mapping entries
  · obtain ⟨entries, rfl⟩ := hnode
    obtain ⟨after, htree, hfound⟩ := get?_mutate_key hab.symm mutation entries p
    rw [htree, read_key, read_key, hfound]
  · rw [mutate_key_misfit (not_exists.mp hnode)]
    rfl

/-- A write behind one name does not show in the answer of a write behind another. -/
theorem result_write_key (hab : a ≠ b) (v w node : Node) (p q : Path) :
    (mutate (.write w) (mutate (.write v) node (.key a :: p)).tree (.key b :: q)).result =
      (mutate (.write w) node (.key b :: q)).result := by
  by_cases hnode : ∃ entries, node = mapping entries
  · obtain ⟨entries, rfl⟩ := hnode
    obtain ⟨after, htree, hfound⟩ := get?_mutate_key hab.symm (.write v) entries p
    rw [htree, write_key, write_key, Change.result_within, Change.result_within, hfound]
  · rw [mutate_key_misfit (not_exists.mp hnode)]
    rfl

/-- Writes behind two names give the same entries in either order, up to their own order. -/
theorem tree_write_key (hab : a ≠ b) (v w node : Node) (p q : Path) :
    let first := mutate (.write w) (mutate (.write v) node (.key a :: p)).tree (.key b :: q)
    let second := mutate (.write v) (mutate (.write w) node (.key b :: q)).tree (.key a :: p)
    first.tree = second.tree ∨
      ∃ entries others, first.tree = mapping entries ∧ second.tree = mapping others ∧
        entries.Perm others := by
  intro first second
  by_cases hnode : ∃ entries, node = mapping entries
  · obtain ⟨entries, rfl⟩ := hnode
    have hfirst : first.tree = mapping (Entries.put b
        (writeUnder w q (Entries.get? entries b)).tree
        (Entries.put a (writeUnder v p (Entries.get? entries a)).tree entries)) := by
      simp only [first, write_key, Change.tree_within, Entries.get?_put_of_ne hab.symm]
    have hsecond : second.tree = mapping (Entries.put a
        (writeUnder v p (Entries.get? entries a)).tree
        (Entries.put b (writeUnder w q (Entries.get? entries b)).tree entries)) := by
      simp only [second, write_key, Change.tree_within, Entries.get?_put_of_ne hab]
    exact .inr ⟨_, _, hfirst, hsecond, Entries.put_put_perm hab _ _ entries⟩
  · have hmisfit := mutate_key_misfit (not_exists.mp hnode)
    refine .inl ?_
    simp only [first, second, hmisfit, Change.failed]

end Fork

/-! ## The ground on which two paths part -/

/-- Each segment in brackets chooses a child that is there: the path has no slice, and every index
in it lands on a child. -/
structure IndicesLand (root : Node) (path : Path) : Prop where
  no_slice : ∀ range, .slice range ∉ path
  lands : ∀ front i back, path = front ++ .index i :: back →
    ∃ address child, Leads root (front ++ [.index i]) address child

section Ground

variable {root node : Node} {path front back common rest : Path} {name : String}
  {address : Address} {entries : Entries Node}

/-- A path with an absent name leads nowhere. -/
theorem FirstAbsent.not_leads (h : FirstAbsent root path front name back address entries)
    (place : Address) (target : Node) : ¬ Leads root path place target := by
  intro hleads
  have hnone := (h.append [.root]).read
  rw [read_last hleads, readLast_root] at hnone
  cases hnone

/-- Behind the first absent name there is no bracket when every index lands on a child. -/
theorem IndicesLand.hasNoBracket (hpath : IndicesLand root path)
    (h : FirstAbsent root path front name back address entries) : hasNoBracket back := by
  rw [Path.hasNoBracket, List.all_eq_true]
  intro segment hsegment
  cases segment with
  | root => rfl
  | key other => rfl
  | index i =>
    obtain ⟨before, after, rfl⟩ := List.append_of_mem hsegment
    have hsplit : path = (front ++ .key name :: before) ++ .index i :: after := by
      rw [h.path_eq, List.append_assoc, List.cons_append]
    obtain ⟨place, child, hleads⟩ := hpath.lands _ i after hsplit
    -- The shorter path has the same absent name, so it cannot lead to the child.
    have hshort : FirstAbsent root ((front ++ .key name :: before) ++ [.index i]) front name
        (before ++ [.index i]) address entries :=
      ⟨by rw [List.append_assoc, List.cons_append], h.leads, h.absent⟩
    exact absurd hleads (hshort.not_leads place child)
  | slice range =>
    have hmem : .slice range ∈ path := by
      rw [h.path_eq]
      exact List.mem_append_right _ (List.mem_cons_of_mem _ hsegment)
    exact absurd hmem (hpath.no_slice range)

/-- Names and root tokens lead through the mappings that were built for them. -/
theorem leads_nest (node : Node) (path : Path) (hbracket : hasNoBracket path) :
    ∃ address, Leads (nest (names path) node) path address node := by
  induction path with
  | nil => exact ⟨[], .here node⟩
  | cons segment rest ih =>
    cases segment with
    | root =>
      obtain ⟨address, hleads⟩ := ih hbracket
      exact ⟨address, .root hleads⟩
    | key name =>
      obtain ⟨address, hleads⟩ := ih hbracket
      exact ⟨_, (leads_last_entry _ (Entries.not_mem_keys_nil name)).append hleads⟩
    | index i => cases hbracket
    | slice range => cases hbracket

/-- A mutation along names and root tokens goes through the mappings that were built for them. -/
theorem mutate_nest (mutation : Mutation) (node : Node) (path : Path)
    (hbracket : hasNoBracket path) (hrest : rest ≠ []) :
    mutate mutation (nest (names path) node) (path ++ rest) =
      (mutate mutation node rest).within (nest (names path)) := by
  induction path with
  | nil => rfl
  | cons segment path ih =>
    have hmore : path ++ rest ≠ [] := List.append_ne_nil_of_right_ne_nil _ hrest
    cases segment with
    | root =>
      rw [List.cons_append, mutate_root_cons _ _ hmore]
      exact ih hbracket
    | key name =>
      have hstep := mutate_last_entry mutation (nest (names path) node)
        (Entries.not_mem_keys_nil name) hmore
      rw [ih hbracket] at hstep
      exact hstep
    | index i => cases hbracket
    | slice range => cases hbracket

/-- A write along names and root tokens builds their mappings and goes on in the innermost. -/
theorem mutate_write_emptyMapping (value : Node) (path : Path) (hbracket : hasNoBracket path)
    (hrest : rest ≠ []) :
    mutate (.write value) emptyMapping (path ++ rest) =
      (mutate (.write value) emptyMapping rest).within (nest (names path)) := by
  induction path with
  | nil => rfl
  | cons segment path ih =>
    have hmore : path ++ rest ≠ [] := List.append_ne_nil_of_right_ne_nil _ hrest
    cases segment with
    | root =>
      rw [List.cons_append, mutate_root_cons _ _ hmore]
      exact ih hbracket
    | key name =>
      have hstep := mutate_write_absent value (Entries.not_mem_keys_nil name) hmore
      rw [ih hbracket] at hstep
      exact hstep
    | index i => cases hbracket
    | slice range => cases hbracket

/-- Where a front is missing in part, there is a tree with the missing mappings in which the front
leads to an empty mapping, and writes behind the front do in the one tree what they do in the
other. -/
theorem exists_ground (h : FirstAbsent root common front name back address entries)
    (hbracket : hasNoBracket back) :
    ∃ ground place, Leads ground common place emptyMapping ∧
      ∀ value rest, rest ≠ [] →
        mutate (.write value) root (common ++ rest) =
          mutate (.write value) ground (common ++ rest) := by
  obtain ⟨inner, hinner⟩ := leads_nest emptyMapping back hbracket
  have hlast := leads_last_entry (nest (names back) emptyMapping) h.absent
  have hfront := h.leads.replaceAt (mapping (entries ++ [(name, nest (names back) emptyMapping)]))
  refine ⟨_, _, h.path_eq ▸ hfront.append (hlast.append hinner), ?_⟩
  intro value rest hrest
  have hmore : back ++ rest ≠ [] := List.append_ne_nil_of_right_ne_nil _ hrest
  have hcommon : common ++ rest = front ++ (.key name :: (back ++ rest)) := by
    rw [h.path_eq, List.append_assoc, List.cons_append]
  -- Both sides write behind the built names in an empty mapping and put the names around it.
  rw [hcommon, mutate_append _ h.leads (List.cons_ne_nil _ _),
    mutate_append _ hfront (List.cons_ne_nil _ _), mutate_write_absent value h.absent hmore,
    mutate_last_entry _ _ h.absent hmore, mutate_write_emptyMapping value back hbracket hrest,
    mutate_nest _ _ back hbracket hrest]
  simp only [Change.within_within, replaceAt_replaceAt]

end Ground

/-! ## The two paths -/

section Paths

variable {root target : Node} {common : Path} {address : Address} {a b : String}

/-- Behind a common front, a change under one name leaves what is read under another name. -/
theorem read_mutate_fork (hleads : Leads root common address target) (hab : a ≠ b)
    (mutation : Mutation) (p q : Path) :
    (mutate mutation root (common ++ .key a :: p)).tree.read (common ++ .key b :: q) =
      root.read (common ++ .key b :: q) := by
  rw [mutate_append _ hleads (List.cons_ne_nil _ _), Change.tree_within,
    read_append (hleads.replaceAt _) (List.cons_ne_nil _ _), read_mutate_key hab,
    read_append hleads (List.cons_ne_nil _ _)]

/-- A second write behind a front that leads to a node is made in the node that the first one
left. -/
theorem mutate_mutate_fork (hleads : Leads root common address target) (v w : Node)
    (p q : Path) :
    mutate (.write w) (mutate (.write v) root (common ++ .key a :: p)).tree
        (common ++ .key b :: q) =
      (mutate (.write w) (mutate (.write v) target (.key a :: p)).tree (.key b :: q)).within
        (root.replaceAt address) := by
  rw [mutate_append _ hleads (List.cons_ne_nil _ _), Change.tree_within,
    mutate_append _ (hleads.replaceAt _) (List.cons_ne_nil _ _)]
  congr 1
  funext tree
  exact replaceAt_replaceAt root _ tree address

/-- Behind a common front, a write under one name has the same result before and after a write under
another name. -/
theorem result_mutate_fork (hleads : Leads root common address target) (hab : a ≠ b)
    (v w : Node) (p q : Path) :
    (mutate (.write w) (mutate (.write v) root (common ++ .key a :: p)).tree
        (common ++ .key b :: q)).result =
      (mutate (.write w) root (common ++ .key b :: q)).result := by
  rw [mutate_mutate_fork hleads, Change.result_within, result_write_key hab,
    mutate_append _ hleads (List.cons_ne_nil _ _), Change.result_within]

/-- Behind a front that leads to a node, writes behind two names give the same tree in either order,
up to the order of entries. -/
theorem tree_mutate_fork (hleads : Leads root common address target) (hab : a ≠ b)
    (v w : Node) (p q : Path) :
    Reorders
      (mutate (.write w) (mutate (.write v) root (common ++ .key a :: p)).tree
        (common ++ .key b :: q)).tree
      (mutate (.write v) (mutate (.write w) root (common ++ .key b :: q)).tree
        (common ++ .key a :: p)).tree := by
  rw [mutate_mutate_fork hleads, mutate_mutate_fork hleads, Change.tree_within,
    Change.tree_within]
  rcases tree_write_key hab v w target p q with hsame | ⟨entries, others, hfirst, hsecond, hperm⟩
  · rw [hsame]
    exact .refl _
  · rw [hfirst, hsecond]
    exact reorders_replaceAt hleads.subtree? hperm

end Paths

/-- What two writes along paths that part do to each other, said of the mutations. -/
structure Independent (root : Node) (first second : Path) (v w : Node) : Prop where
  first_result : (mutate (.write v) (mutate (.write w) root second).tree first).result =
    (mutate (.write v) root first).result
  second_result : (mutate (.write w) (mutate (.write v) root first).tree second).result =
    (mutate (.write w) root second).result
  reorders : Reorders (mutate (.write w) (mutate (.write v) root first).tree second).tree
    (mutate (.write v) (mutate (.write w) root second).tree first).tree

section Cases

variable {root target ground : Node} {common front back : Path} {address : Address} {a b name : String}
  {entries : Entries Node} {e : PathError}

/-- Behind a front that leads to a node, writes behind two names are independent. -/
theorem independent_of_leads (hleads : Leads root common address target) (hab : a ≠ b)
    (v w : Node) (p q : Path) :
    Independent root (common ++ .key a :: p) (common ++ .key b :: q) v w where
  first_result := result_mutate_fork hleads hab.symm w v q p
  second_result := result_mutate_fork hleads hab v w p q
  reorders := tree_mutate_fork hleads hab v w p q

/-- Writes that do in one tree what they do in another are independent in both. -/
theorem Independent.of_ground {first second : Path} {v w : Node}
    (h : Independent ground first second v w)
    (hfirst : mutate (.write v) root first = mutate (.write v) ground first)
    (hsecond : mutate (.write w) root second = mutate (.write w) ground second) :
    Independent root first second v w where
  first_result := by rw [hfirst, hsecond, h.first_result]
  second_result := by rw [hfirst, hsecond, h.second_result]
  reorders := by
    rw [hfirst, hsecond]
    exact h.reorders

/-- Behind a blocked front writes fail and change nothing. -/
theorem independent_of_blocked (hblocked : Blocked root common e) (v w : Node) (p q : Path) :
    Independent root (common ++ .key a :: p) (common ++ .key b :: q) v w := by
  have hstay (name : String) (rest : Path) (value : Node) :
      (mutate (.write value) root (common ++ .key name :: rest)).tree = root := by
    rw [hblocked.mutate _ (List.cons_ne_nil _ _)]
    rfl
  constructor
  · rw [hstay]
  · rw [hstay]
  · rw [hstay a p v, hstay b q w, hstay a p v]
    exact .refl root

/-- At a front that is missing in part, a mutation behind one name does not show behind another:
there was nothing, and there is nothing after it. -/
theorem read_mutate_absent (h : FirstAbsent root common front name back address entries)
    (hbracket : hasNoBracket back) (hab : a ≠ b) (mutation : Mutation) (p q : Path) :
    (mutate mutation root (common ++ .key a :: p)).tree.read (common ++ .key b :: q) =
      root.read (common ++ .key b :: q) := by
  cases mutation with
  | delete =>
    have hstay : mutate .delete root (common ++ .key a :: p) = .done none root :=
      (h.append (.key a :: p)).delete
    rw [hstay]
    rfl
  | write value =>
    obtain ⟨ground, place, hleads, hwrite⟩ := exists_ground h hbracket
    rw [hwrite value _ (List.cons_ne_nil _ _), read_mutate_fork hleads hab,
      read_append hleads (List.cons_ne_nil _ _), (h.append (.key b :: q)).read]
    exact read_key [] b q

end Cases

/-- **Mutations along paths that part do not meet.**  Two paths share a front in which every index
lands on a child, and go on with different names.  After any mutation along the first, whether it
succeeds or fails, the second reads what it read before.  Two writes along them answer in either
order as each does alone, and leave the same tree up to the order of entries, also where one of them
fails or both do. -/
theorem mutations_of_diverging_paths (root : Node) (common p q : Path) (a b : String)
    (hab : a ≠ b) (hcommon : root.IndicesLand common) :
    (∀ mutation,
      (mutate mutation root (common ++ .key a :: p)).tree.read (common ++ .key b :: q) =
        root.read (common ++ .key b :: q)) ∧
    ∀ v w,
      (write v (write w root (common ++ .key b :: q)).tree (common ++ .key a :: p)).result =
          (write v root (common ++ .key a :: p)).result ∧
      (write w (write v root (common ++ .key a :: p)).tree (common ++ .key b :: q)).result =
          (write w root (common ++ .key b :: q)).result ∧
      Reorders (write w (write v root (common ++ .key a :: p)).tree (common ++ .key b :: q)).tree
        (write v (write w root (common ++ .key b :: q)).tree (common ++ .key a :: p)).tree := by
  -- A write answers as its mutation does and leaves the same tree.
  have hwrites (v w : Node)
      (h : Independent root (common ++ .key a :: p) (common ++ .key b :: q) v w) :=
    And.intro (congrArg (Except.map (·.getD null)) h.first_result)
      (And.intro (congrArg (Except.map (·.getD null)) h.second_result) h.reorders)
  rcases leads_or_absent_or_blocked root common with
    ⟨address, target, hleads⟩ | ⟨front, name, back, address, entries, habsent⟩ | ⟨e, hblocked⟩
  · refine ⟨fun mutation => read_mutate_fork hleads hab mutation p q, ?_⟩
    intro v w
    exact hwrites v w (independent_of_leads hleads hab v w p q)
  · have hbracket := hcommon.hasNoBracket habsent
    refine ⟨fun mutation => read_mutate_absent habsent hbracket hab mutation p q, ?_⟩
    intro v w
    obtain ⟨ground, place, hleads, hwrite⟩ := exists_ground habsent hbracket
    exact hwrites v w ((independent_of_leads hleads hab v w p q).of_ground
      (hwrite v _ (List.cons_ne_nil _ _)) (hwrite w _ (List.cons_ne_nil _ _)))
  · constructor
    · intro mutation
      rw [hblocked.mutate mutation (List.cons_ne_nil _ _)]
      rfl
    · intro v w
      exact hwrites v w (independent_of_blocked hblocked v w p q)

/-- Two writes to the mapping of the sample, which an index leads to.  The first fails and leaves an
empty mapping under its name, the second succeeds, and only the order of the two new names tells
which was first. -/
theorem mutations_of_diverging_paths_sample :
    (write null sample [.index (-1), .key "a", .index 0]).tree.read [.index (-1), .key "b"] =
        .ok none ∧
      Reorders
        (mapping [("list", sequence [ofInt64 1, ofInt64 2, ofInt64 3]),
          ("map", mapping [("on", ofBool true), ("a", emptyMapping), ("b", ofInt64 5)])])
        (mapping [("list", sequence [ofInt64 1, ofInt64 2, ofInt64 3]),
          ("map", mapping [("on", ofBool true), ("b", ofInt64 5), ("a", emptyMapping)])]) := by
  have hlands : sample.IndicesLand [.index (-1)] := by
    constructor
    · simp
    · intro front i back h
      cases front with
      | nil =>
        obtain ⟨rfl, -⟩ : -1 = i ∧ back = [] := by simpa using h
        exact ⟨[1], mapping [("on", ofBool true)], .down rfl rfl (.here _)⟩
      | cons segment rest => simp at h
  have h := mutations_of_diverging_paths sample [.index (-1)] [.index 0] [] "a" "b" (by decide) hlands
  exact ⟨h.1 (.write null), (h.2 null (ofInt64 5)).2.2⟩

end Node

end TreePath
