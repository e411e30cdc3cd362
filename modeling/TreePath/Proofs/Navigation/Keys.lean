import TreePath.Proofs.Navigation.ReadDecides

/-!
# The keys of mappings under changes

Distinct keys are an invariant of reading and changing.  A tree whose mappings all have distinct keys
answers every read with such a node (`distinct_read`), and every mutation with a value of this kind
leaves such a tree and answers with such a node, whether it succeeds or fails
(`keepsDistinct_mutate`).

The order of keys is an invariant as well.  A mapping that a path meets keeps its place in the tree.
A write leaves its keys in their order, with at most one new key at the end (`keys_mutate_write`),
and a deletion takes out just the keys that its answer tells and leaves the others in their order
(`keys_mutate_delete`).
-/

set_option autoImplicit false

namespace TreePath

namespace Node

/-! ## Distinct keys -/

/-- The tree that a change leaves and the node that it answers with have distinct keys. -/
structure KeepsDistinct (change : Change (Option Node)) : Prop where
  tree : change.tree.Distinct
  answer : ∀ node, change.result = .ok (some node) → node.Distinct

section Distinctness

variable {root node value new old : Node} {segment : Segment} {e : PathError}
  {entries : Entries Node} {items : List Node}

/-- A failed change that leaves distinct keys keeps them. -/
theorem keepsDistinct_failed (h : node.Distinct) : KeepsDistinct (.failed e node) where
  tree := h
  answer := fun _ hanswer => by cases hanswer

/-- A change that comes back with nothing and leaves distinct keys keeps them. -/
theorem keepsDistinct_done_none (h : node.Distinct) : KeepsDistinct (.done none node) where
  tree := h
  answer := fun _ hanswer => by cases hanswer

/-- A change that comes back with a node of distinct keys and leaves such a tree keeps them. -/
theorem keepsDistinct_done (hold : old.Distinct) (h : node.Distinct) :
    KeepsDistinct (.done (some old) node) where
  tree := h
  answer := fun _ hanswer => by
    cases hanswer
    exact hold

/-- A mapping of one entry has distinct keys when its value has. -/
theorem distinct_singleton (key : String) (h : node.Distinct) : (singleton key node).Distinct := by
  refine (distinct_mapping _).mpr ⟨List.nodup_singleton key, ?_⟩
  intro entry hentry
  obtain rfl := List.mem_singleton.mp hentry
  exact h

/-- A mapping without entries has no key twice. -/
theorem distinct_emptyMapping : emptyMapping.Distinct :=
  (distinct_mapping []).mpr ⟨List.nodup_nil, fun _ hentry => absurd hentry List.not_mem_nil⟩

/-- Entries that are collected from a list have distinct keys when the values of the list have. -/
theorem distinct_mapping_ofList {pairs : List (String × Node)}
    (h : ∀ pair ∈ pairs, pair.2.Distinct) : (mapping (Entries.ofList pairs)).Distinct := by
  refine (distinct_mapping _).mpr ⟨Entries.distinct_ofList pairs, ?_⟩
  intro entry hentry
  obtain ⟨pair, hpair, hvalue⟩ := Entries.exists_mem_of_mem_ofList hentry
  rw [hvalue]
  exact h pair hpair

/-- What the last segment of a path reads has distinct keys. -/
theorem distinct_readLast (h : node.Distinct) (hread : node.readLast segment = .ok (some new)) :
    new.Distinct := by
  cases landing node segment with
  | root =>
    rw [readLast_root] at hread
    cases hread
    exact h
  | key entries name =>
    rw [readLast_key, Except.ok.injEq] at hread
    exact h.get? hread
  | @entry entries i position key child hindex hentry =>
    rw [readLast_entry hindex hentry] at hread
    cases hread
    exact distinct_singleton key (((distinct_mapping _).mp h).2 _ (List.mem_of_getElem? hentry))
  | item hindex hitem =>
    rw [readLast_item hindex hitem] at hread
    cases hread
    exact (distinct_sequence _).mp h _ (List.mem_of_getElem? hitem)
  | entries entries range =>
    cases hread
    exact distinct_mapping_ofList fun pair hpair =>
      ((distinct_mapping entries).mp h).2 pair (mem_of_mem_pick hpair)
  | items items range =>
    cases hread
    exact (distinct_sequence _).mpr fun item hitem =>
      (distinct_sequence items).mp h item (mem_of_mem_pick hitem)
  | misfit hsegment hposition hmisfit hmutate =>
    rw [hmisfit] at hread
    cases hread

/-- **What is read has distinct keys.** -/
theorem distinct_read (h : root.Distinct) (path : Path) (hread : root.read path = .ok (some new)) :
    new.Distinct := by
  obtain rfl | ⟨front, last, rfl⟩ := List.eq_nil_or_concat path
  · cases hread
    exact h
  · rw [List.concat_eq_append] at hread
    obtain ⟨address, target, hleads, hlast⟩ := leads_of_read_some hread
    exact distinct_readLast (h.subtree? hleads.subtree?) hlast

/-- A value that is stored under a key of a mapping leaves distinct keys. -/
theorem distinct_mapping_put (name : String) (h : (mapping entries).Distinct)
    (hvalue : value.Distinct) : (mapping (Entries.put name value entries)).Distinct := by
  obtain ⟨hkeys, hvalues⟩ := (distinct_mapping entries).mp h
  refine (distinct_mapping _).mpr ⟨hkeys.put name value, ?_⟩
  intro entry hentry
  rcases Entries.mem_put hentry with heq | hmem
  · rw [heq]
    exact hvalue
  · exact hvalues entry hmem

/-- Some of the entries of a mapping, in their order, have distinct keys when all of them have. -/
theorem distinct_mapping_sublist {kept : Entries Node} (h : (mapping entries).Distinct)
    (hkept : kept.Sublist entries) : (mapping kept).Distinct := by
  obtain ⟨hkeys, hvalues⟩ := (distinct_mapping entries).mp h
  exact (distinct_mapping kept).mpr
    ⟨(hkept.map _).nodup hkeys, fun entry hentry => hvalues entry (hkept.subset hentry)⟩

/-- A write at the end of a path keeps the keys distinct. -/
theorem keepsDistinct_writeLast (hvalue : value.Distinct) (h : node.Distinct)
    (segment : Segment) : KeepsDistinct (writeLast value node segment) := by
  cases landing node segment with
  | root =>
    rw [writeLast_root]
    exact keepsDistinct_failed h
  | key entries name =>
    rw [writeLast_key]
    refine keepsDistinct_done ?_ (distinct_mapping_put name h hvalue)
    cases hfound : Entries.get? entries name with
    | none => exact hvalue
    | some child => exact h.get? hfound
  | @entry entries i position key child hindex hentry =>
    rw [writeLast_entry hindex hentry]
    have hchild := ((distinct_mapping _).mp h).2 _ (List.mem_of_getElem? hentry)
    exact keepsDistinct_done (distinct_singleton key hchild) (h.setChild hvalue position)
  | @item items i position child hindex hitem =>
    rw [writeLast_item hindex hitem]
    have hchild := (distinct_sequence _).mp h _ (List.mem_of_getElem? hitem)
    exact keepsDistinct_done hchild (h.setChild hvalue position)
  | entries entries range => exact keepsDistinct_failed h
  | items items range =>
    cases hassign : assignSlice items range value with
    | error fault =>
      rw [writeLast_items_error hassign]
      exact keepsDistinct_failed h
    | ok pair =>
      obtain ⟨picked, left⟩ := pair
      obtain ⟨values, rfl, hmem⟩ := mem_of_assignSlice hassign
      have hall : ∀ item, item ∈ picked ∨ item ∈ left → item.Distinct := fun item hitem =>
        (hmem item hitem).elim ((distinct_sequence items).mp h item)
          ((distinct_sequence values).mp hvalue item)
      rw [writeLast_items_ok hassign]
      exact keepsDistinct_done
        ((distinct_sequence picked).mpr fun item hitem => hall item (.inl hitem))
        ((distinct_sequence left).mpr fun item hitem => hall item (.inr hitem))
  | misfit hsegment hposition hread hmutate =>
    have hwrite : writeLast value node segment = .failed _ node := hmutate (.write value)
    rw [hwrite]
    exact keepsDistinct_failed h

/-- A deletion at the end of a path keeps the keys distinct. -/
theorem keepsDistinct_deleteLast (h : node.Distinct) (segment : Segment) :
    KeepsDistinct (deleteLast node segment) := by
  cases landing node segment with
  | root =>
    rw [deleteLast_root]
    exact keepsDistinct_failed h
  | key entries name =>
    rw [deleteLast_key]
    exact ⟨distinct_mapping_sublist h List.eraseP_sublist,
      fun child hfound => h.get? (Except.ok.inj hfound)⟩
  | @entry entries i position key child hindex hentry =>
    rw [deleteLast_entry hindex hentry]
    have hchild := ((distinct_mapping _).mp h).2 _ (List.mem_of_getElem? hentry)
    exact keepsDistinct_done (distinct_singleton key hchild)
      (distinct_mapping_sublist h (List.eraseIdx_sublist _ _))
  | @item items i position child hindex hitem =>
    rw [deleteLast_item hindex hitem]
    have hchild := (distinct_sequence _).mp h _ (List.mem_of_getElem? hitem)
    exact keepsDistinct_done hchild ((distinct_sequence _).mpr fun item hkept =>
      (distinct_sequence items).mp h item ((List.eraseIdx_sublist _ _).subset hkept))
  | entries entries range =>
    refine keepsDistinct_done ?_ (distinct_mapping_sublist h Entries.kept_sublist)
    exact distinct_mapping_ofList fun pair hpair =>
      ((distinct_mapping entries).mp h).2 pair (Entries.mem_of_mem_removed hpair)
  | items items range =>
    have hitems := (distinct_sequence items).mp h
    exact keepsDistinct_done
      ((distinct_sequence _).mpr fun item hitem => hitems item (mem_of_mem_pick hitem))
      ((distinct_sequence _).mpr fun item hitem => hitems item (mem_of_mem_unmarked hitem))
  | misfit hsegment hposition hread hmutate =>
    have hdelete : deleteLast node segment = .failed _ node := hmutate .delete
    rw [hdelete]
    exact keepsDistinct_failed h

/-- The value of a mutation, if it has one, has distinct keys. -/
def DistinctValue : Mutation → Prop
  | .write value => value.Distinct
  | .delete => True

/-- **A mutation keeps the keys of all mappings distinct**, whether it succeeds or fails, and what it
answers with has distinct keys. -/
theorem keepsDistinct_mutate (mutation : Mutation) (hmutation : DistinctValue mutation)
    (h : root.Distinct) (path : Path) : KeepsDistinct (mutate mutation root path) := by
  induction path generalizing root with
  | nil => exact keepsDistinct_failed h
  | cons segment rest ih =>
    by_cases hrest : rest = []
    · subst hrest
      cases mutation with
      | write value => exact keepsDistinct_writeLast hmutation h segment
      | delete => exact keepsDistinct_deleteLast h segment
    by_cases hroot : segment = .root
    · subst hroot
      rw [mutate_root_cons mutation root hrest]
      exact ih h
    cases hposition : root.position segment with
    | error e =>
      rw [mutate_cons mutation root hroot hrest, hposition]
      exact keepsDistinct_failed h
    | ok found =>
      cases found with
      | some position =>
        obtain ⟨child, hchild⟩ := exists_child?_of_position hposition
        rw [mutate_down mutation hposition hchild hrest]
        have hdown := ih (h.child? hchild)
        exact ⟨h.setChild hdown.tree position, hdown.answer⟩
      | none =>
        obtain ⟨name, entries, rfl, rfl, habsent⟩ := eq_key_of_position_eq_none hposition
        rw [mutate_cons mutation _ hroot hrest, hposition]
        cases mutation with
        | delete => exact keepsDistinct_done_none h
        | write value =>
          -- The new mapping goes to the end, under a key that is not there.
          have hdown := ih distinct_emptyMapping
          refine ⟨?_, hdown.answer⟩
          show (mapping (entries ++ [(name, _)])).Distinct
          rw [← Entries.put_of_not_mem _ habsent]
          exact distinct_mapping_put name h hdown.tree

/-- A write keeps the keys distinct, and what it answers with has distinct keys. -/
theorem distinct_write (hvalue : value.Distinct) (h : root.Distinct) (path : Path) :
    (write value root path).tree.Distinct ∧
      ∀ node, (write value root path).result = .ok node → node.Distinct := by
  have hkeeps := keepsDistinct_mutate (.write value) hvalue h path
  refine ⟨hkeeps.tree, fun node hnode => ?_⟩
  cases hanswer : (mutate (.write value) root path).result with
  | error e =>
    rw [write, Change.map, hanswer] at hnode
    cases hnode
  | ok answer =>
    rw [write, Change.map, hanswer] at hnode
    cases hnode
    cases answer with
    | none => exact distinct_scalar .null
    | some old => exact hkeeps.answer old hanswer

end Distinctness

/-! ## The order of keys -/

/-- The name that a path begins with, behind root tokens. -/
def nextName? : Path → Option String
  | .root :: rest => nextName? rest
  | .key name :: _ => some name
  | _ => none

/-- Keys that stay as they are, or get one new key at their end, which is the given one. -/
def KeysGrow (next : Option String) (old new : List String) : Prop :=
  new = old ∨ ∃ name, next = some name ∧ name ∉ old ∧ new = old ++ [name]

/-- The keys that a deletion with the answer took out of the mapping that the path starts from.  Only
a path of one segment takes something out of this mapping itself: a name takes itself, and an index
or a slice answers with a mapping of what it took. -/
def deletedKeys (answer : Except PathError (Option Node)) : Path → List String
  | .root :: rest => deletedKeys answer rest
  | [.key name] =>
    match answer with
    | .ok (some _) => [name]
    | _ => []
  | [_] =>
    match answer with
    | .ok (some removed) => removed.keys?.getD []
    | _ => []
  | _ => []

section Order

variable {root node target : Node} {front back path : Path} {address : Address}
  {old : List String}

/-- A write at the end of a path leaves the keys of the mapping there, or adds the name that it goes
to. -/
theorem keys_writeLast (h : node.keys? = some old) (value : Node) (segment : Segment) :
    ∃ new, (writeLast value node segment).tree.keys? = some new ∧
      KeysGrow (nextName? [segment]) old new := by
  cases landing node segment with
  | root =>
    rw [writeLast_root]
    exact ⟨old, h, .inl rfl⟩
  | key entries name =>
    cases h
    rw [writeLast_key]
    refine ⟨_, rfl, ?_⟩
    by_cases hname : name ∈ Entries.keys entries
    · exact .inl (Entries.keys_put_of_mem value hname)
    · refine .inr ⟨name, rfl, hname, ?_⟩
      rw [Entries.put_of_not_mem value hname, Entries.keys_append, Entries.keys_cons,
        Entries.keys_nil]
  | entry hindex hentry =>
    rw [writeLast_entry hindex hentry]
    exact ⟨old, (keys?_setChild _ value _).trans h, .inl rfl⟩
  | item hindex hitem => cases h
  | entries entries range => exact ⟨old, h, .inl rfl⟩
  | items items range => cases h
  | misfit hsegment hposition hread hmutate =>
    have hwrite : writeLast value node segment = .failed _ node := hmutate (.write value)
    rw [hwrite]
    exact ⟨old, h, .inl rfl⟩

/-- **A write keeps the order of keys.**  The mapping that the path starts from keeps its keys, also
when the write fails, and gets at most one new key, the next name of the path, at the end. -/
theorem keys_mutate_write (h : node.keys? = some old) (value : Node) (path : Path) :
    ∃ new, (mutate (.write value) node path).tree.keys? = some new ∧
      KeysGrow (nextName? path) old new := by
  induction path with
  | nil => exact ⟨old, h, .inl rfl⟩
  | cons segment rest ih =>
    by_cases hrest : rest = []
    · subst hrest
      exact keys_writeLast h value segment
    by_cases hroot : segment = .root
    · subst hroot
      rw [mutate_root_cons _ node hrest]
      exact ih
    cases hposition : node.position segment with
    | error e =>
      rw [mutate_cons _ node hroot hrest, hposition]
      exact ⟨old, h, .inl rfl⟩
    | ok found =>
      cases found with
      | some position =>
        obtain ⟨child, hchild⟩ := exists_child?_of_position hposition
        rw [mutate_down _ hposition hchild hrest, Change.tree_within, keys?_setChild]
        exact ⟨old, h, .inl rfl⟩
      | none =>
        -- The missing name is created at the end, whatever becomes of the rest of the path.
        obtain ⟨name, entries, rfl, rfl, habsent⟩ := eq_key_of_position_eq_none hposition
        cases h
        rw [mutate_cons _ _ hroot hrest, hposition]
        refine ⟨_, rfl, .inr ⟨name, rfl, habsent, ?_⟩⟩
        rw [Entries.keys_append, Entries.keys_cons, Entries.keys_nil]

/-- A deletion that comes back with nothing has deleted no key. -/
theorem deletedKeys_none (path : Path) : deletedKeys (.ok none) path = [] := by
  fun_induction deletedKeys (.ok none) path <;> simp_all

/-- A deletion that fails has deleted no key. -/
theorem deletedKeys_error (e : PathError) (path : Path) : deletedKeys (.error e) path = [] := by
  fun_induction deletedKeys (.error e) path <;> simp_all

/-- Only the last segment of a path takes keys out. -/
theorem deletedKeys_cons (answer : Except PathError (Option Node)) {segment : Segment} {rest : Path}
    (hsegment : segment ≠ .root) (hrest : rest ≠ []) :
    deletedKeys answer (segment :: rest) = [] := by
  cases rest with
  | nil => exact absurd rfl hrest
  | cons next more =>
    cases segment with
    | root => exact absurd rfl hsegment
    | key name => rfl
    | index i => rfl
    | slice range => rfl

/-- A change that took just the keys out that its answer tells, and left the others in their
order. -/
def KeysShrink (path : Path) (old : List String) (change : Change (Option Node)) : Prop :=
  change.tree.keys? = some (old.filter (· ∉ deletedKeys change.result path))

/-- A deletion that deletes no key and leaves the keys of a mapping as they were shrinks them by
nothing. -/
theorem keysShrink_of_keys? {change : Change (Option Node)} (h : change.tree.keys? = some old)
    (hnothing : deletedKeys change.result path = []) : KeysShrink path old change := by
  simp [KeysShrink, hnothing, h]

/-- Deleting a name takes just this name out. -/
theorem keysShrink_key {entries : Entries Node} (hdistinct : Entries.Distinct entries)
    (name : String) : KeysShrink [.key name] (Entries.keys entries)
      (deleteLast (mapping entries) (.key name)) := by
  rw [deleteLast_key]
  cases hfound : Entries.get? entries name with
  | none =>
    refine keysShrink_of_keys? ?_ (deletedKeys_none _)
    exact congrArg (fun left => some (Entries.keys left))
      (Entries.erase_of_not_mem (Entries.get?_eq_none_iff.mp hfound))
  | some child =>
    refine congrArg some ((Entries.keys_erase hdistinct name).trans ?_)
    refine List.filter_congr fun key _ => ?_
    by_cases hname : key = name <;> simp [Change.done, deletedKeys, hname]

/-- Removing keys one after another takes just the keys of the removed entries out. -/
theorem keysShrink_eraseEach {entries : Entries Node} (hdistinct : Entries.Distinct entries)
    (names : List String) (range : Slice) : KeysShrink [.slice range] (Entries.keys entries)
      (.done (some (mapping (Entries.ofList (Entries.eraseEach entries names).1)))
        (mapping (Entries.eraseEach entries names).2)) := by
  -- The answer holds the removed entries as they stand, since their keys are distinct.
  rw [Entries.ofList_of_distinct (Entries.distinct_removed hdistinct)]
  refine congrArg some ((Entries.keys_kept hdistinct).trans ?_)
  refine List.filter_congr fun key hkey => ?_
  simp [Change.done, deletedKeys, keys?, Entries.mem_keys_removed hdistinct, hkey]

/-- A deletion at the end of a path takes just the keys out that its answer tells. -/
theorem keysShrink_deleteLast (h : node.keys? = some old) (hdistinct : old.Nodup)
    (segment : Segment) : KeysShrink [segment] old (deleteLast node segment) := by
  cases landing node segment with
  | root =>
    rw [deleteLast_root]
    exact keysShrink_of_keys? h (deletedKeys_error _ _)
  | key entries name =>
    cases h
    exact keysShrink_key hdistinct name
  | @entry entries i position name child hindex hentry =>
    cases h
    rw [deleteLast_entry hindex hentry]
    refine congrArg some ((Entries.keys_eraseIdx hdistinct hentry).trans ?_)
    refine List.filter_congr fun key _ => ?_
    by_cases hname : key = name <;> simp [Change.done, deletedKeys, singleton, keys?, hname]
  | item hindex hitem => cases h
  | entries entries range =>
    cases h
    exact keysShrink_eraseEach hdistinct _ range
  | items items range => cases h
  | misfit hsegment hposition hread hmutate =>
    have hdelete : deleteLast node segment = .failed _ node := hmutate .delete
    rw [hdelete]
    exact keysShrink_of_keys? h (deletedKeys_error _ _)

/-- **A deletion keeps the order of keys.**  The mapping that the path starts from loses the keys that
the answer tells and keeps the others in their order. -/
theorem keys_mutate_delete (h : node.keys? = some old) (hdistinct : old.Nodup) (path : Path) :
    KeysShrink path old (mutate .delete node path) := by
  induction path with
  | nil => exact keysShrink_of_keys? h (deletedKeys_error _ _)
  | cons segment rest ih =>
    by_cases hrest : rest = []
    · subst hrest
      exact keysShrink_deleteLast h hdistinct segment
    by_cases hroot : segment = .root
    · subst hroot
      rw [mutate_root_cons _ node hrest]
      exact ih
    refine keysShrink_of_keys? ?_ (deletedKeys_cons _ hroot hrest)
    rw [mutate_cons _ node hroot hrest]
    cases hposition : node.position segment with
    | error e => exact h
    | ok found =>
      cases found with
      | none => exact h
      | some position =>
        obtain ⟨child, hchild⟩ := exists_child?_of_position hposition
        simp only [hchild, Change.tree_within, keys?_setChild, h]

/-- The front of a path still leads to the same place after a change behind it, and there the changed
node stands. -/
theorem leads_mutate_append (mutation : Mutation) (hleads : Leads root front address target)
    (hback : back ≠ []) :
    Leads (mutate mutation root (front ++ back)).tree front address
      (mutate mutation target back).tree := by
  rw [mutate_append mutation hleads hback]
  exact hleads.replaceAt _

/-- A write behind a mapping leaves it in its place, and its keys grow by the next name of the path at
most. -/
theorem keys_write_append (hleads : Leads root front address target) (h : target.keys? = some old)
    (value : Node) (hback : back ≠ []) :
    ∃ after new, Leads (write value root (front ++ back)).tree front address after ∧
      after.keys? = some new ∧ KeysGrow (nextName? back) old new := by
  obtain ⟨new, hnew, hgrow⟩ := keys_mutate_write h value back
  exact ⟨_, new, leads_mutate_append _ hleads hback, hnew, hgrow⟩

/-- A deletion behind a mapping leaves it in its place, without the keys that the deletion has deleted
there. -/
theorem keys_delete_append (hleads : Leads root front address target) (h : target.keys? = some old)
    (hdistinct : old.Nodup) (hback : back ≠ []) :
    ∃ after, Leads (delete root (front ++ back)).tree front address after ∧
      after.keys? =
        some (old.filter (· ∉ deletedKeys (delete root (front ++ back)).result back)) := by
  refine ⟨_, leads_mutate_append _ hleads hback, ?_⟩
  rw [delete, mutate_append _ hleads hback, Change.result_within]
  exact keys_mutate_delete h hdistinct back

end Order

end Node

end TreePath
