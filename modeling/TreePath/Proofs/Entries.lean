import Mathlib.Data.List.Induction
import Mathlib.Data.List.InsertIdx
import Mathlib.Data.List.Nodup
import TreePath.Node.Entries

/-!
# Laws of ordered entries

`put`, `get?`, `erase` and `position?` of ordered entries, seen through the list of keys.  Whether a
key is there is a matter of the keys alone (`get?_eq_none_iff`, `position?_eq_none_iff`).  A stored
value is found again (`get?_put_self`), a second value stored under the same key hides the first
(`put_put`), and storing what is there changes nothing, not even the order (`put_get?`).  A new key
goes to the end (`put_of_not_mem`).

These laws do not ask for distinct keys: a key that occurs twice is looked up, replaced and removed
at its first place throughout.  Removing is where distinct keys count.  Then a removal takes out just
the entry with its key (`erase_eq_filter`, `keys_eraseIdx`), and removing many keys one after another
takes out just the entries that the keys were taken from (`removed_eraseEach`) and keeps the others in
their order (`kept_eraseEach`).

Values that are stored one after another leave every key at the place where it was stored first, with
the value that was stored last (`merges_iff`).
-/

set_option autoImplicit false

namespace TreePath

namespace Entries

variable {α : Type} {entries : Entries α} {key : String} {value : α}

/-- No entries have no keys. -/
@[simp] theorem keys_nil : keys ([] : Entries α) = [] := rfl

/-- No key is among those of no entries. -/
theorem not_mem_keys_nil (key : String) : key ∉ keys ([] : Entries α) := List.not_mem_nil

/-- The key of the first entry is the first key. -/
@[simp] theorem keys_cons (entry : String × α) (rest : Entries α) :
    keys (entry :: rest) = entry.1 :: keys rest := rfl

/-- The keys of entries in front come in front. -/
@[simp] theorem keys_append (front back : Entries α) :
    keys (front ++ back) = keys front ++ keys back := by
  simp [keys]

/-- There are as many keys as entries, repeated ones included. -/
@[simp] theorem length_keys : (keys entries).length = entries.length := by
  simp [keys]

/-- The key of an entry is among the keys. -/
theorem key_mem_keys {entry : String × α} (h : entry ∈ entries) : entry.1 ∈ keys entries :=
  List.mem_map_of_mem h

/-- Keys are distinct when the first is none of the others and these are distinct. -/
@[simp] theorem distinct_cons {entry : String × α} {rest : Entries α} :
    Distinct (entry :: rest) ↔ entry.1 ∉ keys rest ∧ Distinct rest := by
  rw [Distinct, keys_cons, List.nodup_cons, Distinct]

/-- The key of an entry is not among the keys in front of it. -/
theorem Distinct.not_mem_keys {front rest : Entries α} {entry : String × α}
    (h : Distinct (front ++ entry :: rest)) : entry.1 ∉ keys front := by
  intro hmem
  rw [Distinct, keys_append, List.nodup_append] at h
  exact h.2.2 _ hmem _ List.mem_cons_self rfl

/-! ## Looking up -/

/-- The first entry decides when it has the key. -/
theorem get?_cons (entry : String × α) (rest : Entries α) (key : String) :
    get? (entry :: rest) key = if entry.1 = key then some entry.2 else get? rest key := by
  obtain ⟨k, v⟩ := entry
  by_cases h : k = key
  · subst h
    rw [get?, List.lookup_cons_self, if_pos rfl]
  · have hne : (key == k) = false := by simpa using fun heq => h heq.symm
    rw [get?, List.lookup_cons, hne, if_neg h]
    rfl

/-- Nothing is found exactly under the keys that are not there. -/
theorem get?_eq_none_iff : get? entries key = none ↔ key ∉ keys entries := by
  induction entries with
  | nil => simp [get?]
  | cons entry rest ih =>
    rw [get?_cons]
    by_cases h : entry.1 = key
    · simp [h]
    · have hne : key ≠ entry.1 := fun heq => h heq.symm
      simp [h, ih, hne]

/-- The position of a key is that of the first entry with it. -/
theorem position?_eq_findIdx? : position? entries key = (keys entries).findIdx? (· == key) := by
  rw [position?, keys, List.findIdx?_map]
  rfl

/-- A key has no position exactly when it is not there. -/
theorem position?_eq_none_iff : position? entries key = none ↔ key ∉ keys entries := by
  rw [position?_eq_findIdx?, List.findIdx?_eq_none_iff]
  constructor
  · intro h hmem
    simpa using h key hmem
  · intro h k hk
    have hne : k ≠ key := fun heq => h (heq ▸ hk)
    simpa using hne

/-- The position of a key is within the entries. -/
theorem lt_length_of_position? {position : Nat} (h : position? entries key = some position) :
    position < entries.length := by
  rw [position?, List.findIdx?_eq_some_iff_getElem] at h
  obtain ⟨hlt, -⟩ := h
  exact hlt

/-- The value at the position of a key is the one that is found under it. -/
theorem getElem?_position? {position : Nat} (h : position? entries key = some position) :
    (entries[position]?).map (·.2) = get? entries key := by
  induction entries generalizing position with
  | nil => cases h
  | cons entry rest ih =>
    rw [position?, List.findIdx?_cons] at h
    rw [get?_cons]
    by_cases hkey : entry.1 = key
    · have hzero : position = 0 := by simpa [hkey] using h.symm
      simp [hzero, hkey]
    · have hne : (entry.1 == key) = false := by simpa using hkey
      rw [hne] at h
      obtain ⟨next, hnext, rfl⟩ := Option.map_eq_some_iff.mp h
      rw [List.getElem?_cons_succ, if_neg hkey]
      exact ih hnext

/-! ## Storing -/

/-- A stored value is found again. -/
theorem get?_put_self (key : String) (value : α) (entries : Entries α) :
    get? (put key value entries) key = some value := by
  induction entries with
  | nil => simp [put, get?_cons]
  | cons entry rest ih =>
    obtain ⟨k, v⟩ := entry
    by_cases h : k = key
    · simp [put, h, get?_cons]
    · simp [put, h, get?_cons, ih]

/-- Under the other keys the same values are found. -/
theorem get?_put_of_ne {other : String} (hne : other ≠ key) (value : α) (entries : Entries α) :
    get? (put key value entries) other = get? entries other := by
  induction entries with
  | nil => rw [put, get?_cons, if_neg fun heq => hne heq.symm]
  | cons entry rest ih =>
    obtain ⟨k, v⟩ := entry
    by_cases h : k = key
    · have hother : k ≠ other := fun heq => hne (heq.symm.trans h)
      rw [put, if_pos h, get?_cons, get?_cons, if_neg hother, if_neg hother]
    · rw [put, if_neg h, get?_cons, get?_cons, ih]

/-- Replacing the value at the position of a key stores it under the key. -/
theorem modify_position? {position : Nat} (h : position? entries key = some position)
    (value : α) : entries.modify position (fun entry => (entry.1, value)) = put key value entries := by
  induction entries generalizing position with
  | nil => cases h
  | cons entry rest ih =>
    obtain ⟨k, v⟩ := entry
    rw [position?, List.findIdx?_cons] at h
    by_cases hkey : k = key
    · have hzero : position = 0 := by simpa [hkey] using h.symm
      simp [hzero, put, hkey]
    · have hne : (k == key) = false := by simpa using hkey
      simp only [hne] at h
      obtain ⟨next, hnext, rfl⟩ := Option.map_eq_some_iff.mp h
      rw [List.modify_succ_cons, put, if_neg hkey, ih hnext]

/-- Values that are stored under two keys are stored in either order; only two new keys may come to
stand in another order. -/
theorem put_put_perm {other : String} (hne : key ≠ other) (value new : α) (entries : Entries α) :
    (put other new (put key value entries)).Perm (put key value (put other new entries)) := by
  induction entries with
  | nil =>
    have hback : other ≠ key := fun heq => hne heq.symm
    simp only [put, if_neg hne, if_neg hback]
    exact List.Perm.swap _ _ _
  | cons entry rest ih =>
    obtain ⟨k, v⟩ := entry
    by_cases hkey : k = key
    · have hother : k ≠ other := fun heq => hne (hkey.symm.trans heq)
      simp only [put, if_pos hkey, if_neg hother]
      exact List.Perm.refl _
    · by_cases hother : k = other
      · simp only [put, if_pos hother, if_neg hkey]
        exact List.Perm.refl _
      · simp only [put, if_neg hother, if_neg hkey]
        exact ih.cons _

/-- The second of two values stored under one key hides the first. -/
theorem put_put (key : String) (value other : α) (entries : Entries α) :
    put key other (put key value entries) = put key other entries := by
  induction entries with
  | nil => simp [put]
  | cons entry rest ih =>
    obtain ⟨k, v⟩ := entry
    by_cases h : k = key
    · simp [put, h]
    · simp [put, h, ih]

/-- Storing what is there changes nothing. -/
theorem put_get? (h : get? entries key = some value) : put key value entries = entries := by
  induction entries with
  | nil => simp [get?] at h
  | cons entry rest ih =>
    obtain ⟨k, v⟩ := entry
    rw [get?_cons] at h
    by_cases hk : k = key
    · simp only [hk, if_true, Option.some.injEq] at h
      simp [put, hk, h]
    · simp only [hk, if_false] at h
      simp [put, hk, ih h]

/-- A new key goes to the end. -/
theorem put_of_not_mem (value : α) (h : key ∉ keys entries) :
    put key value entries = entries ++ [(key, value)] := by
  induction entries with
  | nil => rfl
  | cons entry rest ih =>
    obtain ⟨k, v⟩ := entry
    simp only [keys_cons, List.mem_cons, not_or] at h
    have hk : k ≠ key := fun heq => h.1 heq.symm
    simp [put, hk, ih h.2]

/-- A value that is stored under a key that is there leaves the keys in their order. -/
theorem keys_put_of_mem (value : α) (h : key ∈ keys entries) :
    keys (put key value entries) = keys entries := by
  induction entries with
  | nil => cases h
  | cons entry rest ih =>
    obtain ⟨k, v⟩ := entry
    by_cases hk : k = key
    · rw [put, if_pos hk, keys_cons, keys_cons]
    · have hrest : key ∈ keys rest := (List.mem_cons.mp h).resolve_left fun heq => hk heq.symm
      rw [put, if_neg hk, keys_cons, keys_cons, ih hrest]

/-- Storing a value keeps the keys distinct. -/
theorem Distinct.put (hdistinct : Distinct entries) (key : String) (value : α) :
    Distinct (Entries.put key value entries) := by
  rw [Distinct]
  by_cases h : key ∈ keys entries
  · rw [keys_put_of_mem value h]
    exact hdistinct
  · rw [put_of_not_mem value h, keys_append, List.nodup_append]
    refine ⟨hdistinct, List.nodup_singleton key, ?_⟩
    intro k hk other hother heq
    obtain rfl := List.mem_singleton.mp hother
    exact h (heq ▸ hk)

/-- After storing a value the entries hold it or are the old ones. -/
theorem mem_put {entry : String × α} (h : entry ∈ put key value entries) :
    entry.2 = value ∨ entry ∈ entries := by
  induction entries with
  | nil =>
    obtain rfl := List.mem_singleton.mp h
    exact .inl rfl
  | cons first rest ih =>
    obtain ⟨k, v⟩ := first
    by_cases hk : k = key
    · rw [put, if_pos hk] at h
      rcases List.mem_cons.mp h with rfl | hmem
      · exact .inl rfl
      · exact .inr (List.mem_cons_of_mem _ hmem)
    · rw [put, if_neg hk] at h
      rcases List.mem_cons.mp h with rfl | hmem
      · exact .inr List.mem_cons_self
      · exact (ih hmem).imp_right (List.mem_cons_of_mem _)

/-- What is found under a key is the value of an entry. -/
theorem mem_of_get? (h : get? entries key = some value) : (key, value) ∈ entries := by
  induction entries with
  | nil => cases h
  | cons entry rest ih =>
    obtain ⟨k, v⟩ := entry
    rw [get?_cons] at h
    by_cases hk : k = key
    · rw [if_pos hk] at h
      cases h
      exact hk ▸ List.mem_cons_self
    · rw [if_neg hk] at h
      exact List.mem_cons_of_mem _ (ih h)

/-- Among distinct keys the key of an entry leads to its value. -/
theorem Distinct.get?_of_mem (hdistinct : Distinct entries) {entry : String × α}
    (h : entry ∈ entries) : get? entries entry.1 = some entry.2 := by
  induction entries with
  | nil => cases h
  | cons first rest ih =>
    obtain ⟨hfirst, hrest⟩ := distinct_cons.mp hdistinct
    rw [get?_cons]
    rcases List.mem_cons.mp h with rfl | hmem
    · rw [if_pos rfl]
    · have hne : first.1 ≠ entry.1 := by
        intro heq
        exact hfirst (heq ▸ key_mem_keys hmem)
      rw [if_neg hne, ih hrest hmem]

/-- What is found under a key has something under it in every list with the same keys. -/
theorem exists_get?_of_perm {β : Type} {others : Entries β} (h : (keys entries).Perm (keys others))
    (hfound : get? entries key = some value) : ∃ other, get? others key = some other := by
  have hkey : key ∈ keys others := h.subset (key_mem_keys (mem_of_get? hfound))
  rw [← Option.isSome_iff_exists, Option.isSome_iff_ne_none]
  exact fun hnone => get?_eq_none_iff.mp hnone hkey

/-- Entries that are put in one by one have distinct keys, also where keys are repeated among the
pairs. -/
theorem distinct_ofList (pairs : List (String × α)) : Distinct (ofList pairs) :=
  List.foldlRecOn pairs _ List.nodup_nil fun _ hentries pair _ => hentries.put pair.1 pair.2

/-- Entries that are collected from a list hold its values. -/
theorem exists_mem_of_mem_ofList {pairs : List (String × α)} {entry : String × α}
    (h : entry ∈ ofList pairs) : ∃ pair ∈ pairs, entry.2 = pair.2 := by
  have hall := List.foldlRecOn
    (motive := fun collected : Entries α => ∀ other ∈ collected, ∃ pair ∈ pairs, other.2 = pair.2)
    pairs (fun entries pair => entries.put pair.1 pair.2)
    (fun other hother => absurd hother List.not_mem_nil)
    (by
      intro collected hcollected pair hpair other hother
      rcases mem_put hother with hvalue | hmem
      · exact ⟨pair, hpair, hvalue⟩
      · exact hcollected other hmem)
  exact hall entry h

/-- A list of distinct keys is collected as it stands. -/
theorem ofList_of_distinct {pairs : List (String × α)} (hdistinct : Distinct pairs) :
    ofList pairs = pairs := by
  -- The pairs go one by one behind those that are already collected.
  have hcollect (collected : Entries α) (h : Distinct (collected ++ pairs)) :
      pairs.foldl (fun entries pair => entries.put pair.1 pair.2) collected =
        collected ++ pairs := by
    clear hdistinct
    induction pairs generalizing collected with
    | nil => rw [List.append_nil, List.foldl_nil]
    | cons pair rest ih =>
      rw [List.foldl_cons, put_of_not_mem _ h.not_mem_keys, ih _ (by rwa [List.append_assoc]),
        List.append_assoc, List.singleton_append]
  exact hcollect [] hdistinct

/-- Mapped values stand under distinct keys as the values did. -/
theorem Distinct.map_values {β : Type} (hdistinct : Distinct entries) (f : α → β) :
    Distinct (entries.map fun entry => (entry.1, f entry.2)) := by
  have hkeys : keys (entries.map fun entry => (entry.1, f entry.2)) = keys entries := by
    simp [keys]
  rw [Distinct, hkeys]
  exact hdistinct

/-- Entries with the same distinct keys in the same order and the same values under them are the
same. -/
theorem Distinct.ext {others : Entries α} (hdistinct : Distinct entries)
    (hkeys : keys entries = keys others) (hvalues : ∀ key, get? entries key = get? others key) :
    entries = others := by
  induction entries generalizing others with
  | nil =>
    rw [keys_nil, eq_comm, keys, List.map_eq_nil_iff] at hkeys
    exact hkeys.symm
  | cons entry rest ih =>
    cases others with
    | nil => cases hkeys
    | cons other more =>
      obtain ⟨hentry, hrest⟩ := distinct_cons.mp hdistinct
      obtain ⟨hkey, hmore⟩ : entry.1 = other.1 ∧ keys rest = keys more := List.cons.inj hkeys
      have hvalue : entry.2 = other.2 := by
        have hfirst := hvalues entry.1
        rw [get?_cons, get?_cons, if_pos rfl, if_pos hkey.symm] at hfirst
        exact Option.some.inj hfirst
      have hothers : ∀ key, get? rest key = get? more key := by
        intro key
        by_cases hsame : entry.1 = key
        · rw [hsame] at hentry
          rw [get?_eq_none_iff.mpr hentry, get?_eq_none_iff.mpr (hmore ▸ hentry)]
        · have hboth := hvalues key
          rw [get?_cons, get?_cons, if_neg hsame, if_neg fun h => hsame (hkey.trans h)] at hboth
          exact hboth
      rw [Prod.ext hkey hvalue, ih hrest hmore hothers]

/-! ## Merging equal keys -/

/-- What is left of a list of pairs when equal keys are merged: every key at its first place, with
its last value. -/
structure Merges (pairs : List (String × α)) (entries : Entries α) : Prop where
  keys : Entries.keys entries = (Entries.keys pairs).eraseDups
  values : ∀ key, get? entries key = get? pairs.reverse key

/-- The last pair is put into the entries of those in front of it. -/
theorem ofList_concat (pairs : List (String × α)) (pair : String × α) :
    ofList (pairs ++ [pair]) = put pair.1 pair.2 (ofList pairs) := by
  rw [ofList, List.foldl_append, List.foldl_cons, List.foldl_nil, ofList]

/-- Keys stand in the order in which they first occurred. -/
theorem keys_ofList (pairs : List (String × α)) :
    keys (ofList pairs) = (keys pairs).eraseDups := by
  induction pairs using List.reverseRecOn with
  | nil => rfl
  | append_singleton pairs pair ih =>
    have hmem : pair.1 ∈ keys (ofList pairs) ↔ pair.1 ∈ keys pairs := by
      rw [ih, List.mem_eraseDups]
    rw [ofList_concat, keys_append, List.eraseDups_append, ← ih]
    by_cases h : pair.1 ∈ keys pairs
    · rw [keys_put_of_mem _ (hmem.mpr h)]
      simp [List.removeAll, h]
    · rw [put_of_not_mem _ (mt hmem.mp h), keys_append]
      simp [List.removeAll, h, List.eraseDups_cons]

/-- The value of a key is the one that came last. -/
theorem get?_ofList (pairs : List (String × α)) (key : String) :
    get? (ofList pairs) key = get? pairs.reverse key := by
  induction pairs using List.reverseRecOn with
  | nil => rfl
  | append_singleton pairs pair ih =>
    rw [ofList_concat, List.reverse_append, List.reverse_singleton, List.singleton_append, get?_cons]
    by_cases h : pair.1 = key
    · rw [if_pos h, ← h, get?_put_self]
    · rw [if_neg h, get?_put_of_ne (Ne.symm h), ih]

/-- **Values that are stored one after another are merged.** -/
theorem merges_iff {pairs : List (String × α)} : Merges pairs entries ↔ entries = ofList pairs := by
  constructor
  · rintro ⟨hkeys, hvalues⟩
    refine (Distinct.ext (distinct_ofList pairs) ?_ fun key => ?_).symm
    · rw [hkeys, keys_ofList]
    · rw [hvalues, get?_ofList]
  · rintro rfl
    exact ⟨keys_ofList pairs, get?_ofList pairs⟩

/-- A new key at the end is found at the last position. -/
theorem position?_append_singleton (value : α) (h : key ∉ keys entries) :
    position? (entries ++ [(key, value)]) key = some entries.length := by
  have hnone : (keys entries).findIdx? (· == key) = none := by
    rw [← position?_eq_findIdx?, position?_eq_none_iff]
    exact h
  rw [position?_eq_findIdx?, keys_append, List.findIdx?_append, hnone]
  simp

/-! ## Removing -/

/-- Removing a key that is not there changes nothing. -/
theorem erase_of_not_mem (h : key ∉ keys entries) : erase entries key = entries := by
  rw [erase]
  apply List.eraseP_of_forall_not
  intro entry hentry heq
  have hkey : entry.1 = key := by simpa using heq
  exact h (hkey ▸ key_mem_keys hentry)

/-- After a removal the same values are found under the other keys. -/
theorem get?_erase_of_ne {other : String} (hne : other ≠ key) (entries : Entries α) :
    get? (erase entries key) other = get? entries other := by
  induction entries with
  | nil => rfl
  | cons entry rest ih =>
    obtain ⟨k, v⟩ := entry
    by_cases h : k = key
    · have hother : k ≠ other := fun heq => hne (heq.symm.trans h)
      rw [erase, List.eraseP_cons_of_pos (by simpa using h), get?_cons, if_neg hother]
    · have herase : erase ((k, v) :: rest) key = (k, v) :: erase rest key :=
        List.eraseP_cons_of_neg (by simpa using h)
      rw [herase, get?_cons, get?_cons, ih]

/-- Taking a key out leaves the other keys distinct. -/
theorem Distinct.erase (hdistinct : Distinct entries) (key : String) :
    Distinct (Entries.erase entries key) := by
  have hsublist : (Entries.erase entries key).Sublist entries := List.eraseP_sublist
  exact (hsublist.map _).nodup hdistinct

/-- A choice by the keys chooses among the keys. -/
theorem keys_filter (chosen : String → Bool) (entries : Entries α) :
    keys (entries.filter fun entry => chosen entry.1) = (keys entries).filter chosen := by
  rw [keys, keys, List.filter_map]
  rfl

/-- Among distinct keys a removal takes out the entry with the key. -/
theorem erase_eq_filter (hdistinct : Distinct entries) (key : String) :
    erase entries key = entries.filter (·.1 != key) := by
  induction entries with
  | nil => rfl
  | cons entry rest ih =>
    obtain ⟨hentry, hrest⟩ := distinct_cons.mp hdistinct
    by_cases h : entry.1 = key
    · have hothers : ∀ other ∈ rest, (other.1 != key) = true := by
        intro other hother
        have hne : other.1 ≠ key := fun heq => hentry (h.trans heq.symm ▸ key_mem_keys hother)
        simpa using hne
      rw [erase, List.eraseP_cons_of_pos (by simpa using h), List.filter_cons_of_neg (by simpa using h),
        List.filter_eq_self.mpr hothers]
    · have herase : erase (entry :: rest) key = entry :: erase rest key :=
        List.eraseP_cons_of_neg (by simpa using h)
      rw [herase, ih hrest, List.filter_cons_of_pos (by simpa using h)]

/-- A removal takes a key out of the keys and leaves their order. -/
theorem keys_erase (hdistinct : Distinct entries) (key : String) :
    keys (erase entries key) = (keys entries).filter (· != key) := by
  rw [erase_eq_filter hdistinct]
  exact keys_filter (· != key) entries

/-- Removing an entry by its position takes its key out of the keys. -/
theorem keys_eraseIdx (hdistinct : Distinct entries) {position : Nat} {entry : String × α}
    (h : entries[position]? = some entry) :
    keys (entries.eraseIdx position) = (keys entries).filter (· != entry.1) := by
  obtain ⟨hlt, rfl⟩ := List.getElem?_eq_some_iff.mp h
  have hwithin : position < (keys entries).length := by rwa [length_keys]
  have hkey : (keys entries)[position] = entries[position].1 := by simp [keys]
  rw [← hdistinct.erase_eq_filter, ← hkey, hdistinct.erase_getElem]
  exact (List.eraseIdx_map _ entries position).symm

/-- An entry with another key stays when a key is taken out. -/
theorem mem_erase_of_ne {entry : String × α} (hne : entry.1 ≠ key) (h : entry ∈ entries) :
    entry ∈ erase entries key := by
  refine (List.mem_eraseP_of_neg ?_).mpr h
  simpa using hne

/-- Among distinct keys the key of an entry leads to this entry. -/
theorem Distinct.find?_key (hdistinct : Distinct entries) {entry : String × α}
    (h : entry ∈ entries) : entries.find? (·.1 == entry.1) = some entry := by
  induction entries with
  | nil => cases h
  | cons first rest ih =>
    obtain ⟨hfirst, hrest⟩ := distinct_cons.mp hdistinct
    rcases List.mem_cons.mp h with rfl | hmem
    · simp
    · have hne : first.1 ≠ entry.1 := by
        intro heq
        exact hfirst (heq ▸ key_mem_keys hmem)
      rw [List.find?_cons_of_neg (by simpa using hne)]
      exact ih hrest hmem

section EraseEach

variable {names : List String}

/-- What is removed was among the entries. -/
theorem mem_of_mem_removed {entry : String × α} (h : entry ∈ (eraseEach entries names).1) :
    entry ∈ entries := by
  induction names generalizing entries with
  | nil => cases h
  | cons name rest ih =>
    simp only [eraseEach] at h
    rcases List.mem_append.mp h with hfirst | hrest
    · exact List.mem_of_find?_eq_some (Option.mem_toList.mp hfirst)
    · exact List.mem_of_mem_eraseP (ih hrest)

/-- What is left of entries stands in their order. -/
theorem kept_sublist : (eraseEach entries names).2.Sublist entries := by
  induction names generalizing entries with
  | nil => exact List.Sublist.refl entries
  | cons name rest ih => exact ih.trans List.eraseP_sublist

/-- Removing keys one after another keeps the entries with other keys, in their order. -/
theorem kept_eraseEach (hdistinct : Distinct entries) :
    (eraseEach entries names).2 = entries.filter (·.1 ∉ names) := by
  induction names generalizing entries with
  | nil => simp [eraseEach]
  | cons name rest ih =>
    have hrest := ih (hdistinct.erase name)
    rw [erase_eq_filter hdistinct, List.filter_filter] at hrest
    simp only [eraseEach, erase_eq_filter hdistinct, hrest]
    congr 1
    funext entry
    by_cases hname : entry.1 = name <;> simp [hname]

/-- Removing keys one after another keeps the other keys in their order. -/
theorem keys_kept (hdistinct : Distinct entries) :
    keys (eraseEach entries names).2 = (keys entries).filter (· ∉ names) := by
  rw [kept_eraseEach hdistinct]
  exact keys_filter (fun key => decide (key ∉ names)) entries

/-- The entry that a key finds has just this key. -/
theorem keys_find? (entries : Entries α) (key : String) :
    keys (entries.find? (·.1 == key)).toList = if key ∈ keys entries then [key] else [] := by
  cases hfind : entries.find? (·.1 == key) with
  | none =>
    have habsent : key ∉ keys entries := by
      rw [← position?_eq_none_iff, position?, List.findIdx?_eq_none_iff]
      exact fun entry hentry => by simpa using List.find?_eq_none.mp hfind entry hentry
    rw [if_neg habsent, Option.toList_none, keys_nil]
  | some entry =>
    have hkey : entry.1 = key := by simpa using List.find?_some hfind
    have hmem : key ∈ keys entries := hkey ▸ key_mem_keys (List.mem_of_find?_eq_some hfind)
    rw [if_pos hmem, Option.toList_some, keys_cons, keys_nil, hkey]

/-- The removed keys are those that were there. -/
theorem mem_keys_removed (hdistinct : Distinct entries) :
    key ∈ keys (eraseEach entries names).1 ↔ key ∈ keys entries ∧ key ∈ names := by
  induction names generalizing entries with
  | nil => simp [eraseEach]
  | cons name rest ih =>
    have hrest := ih (hdistinct.erase name)
    rw [keys_erase hdistinct, List.mem_filter] at hrest
    simp only [eraseEach, keys_append, List.mem_append, keys_find?, hrest, List.mem_cons]
    by_cases hname : key = name
    · subst hname
      by_cases hthere : key ∈ keys entries <;> simp [hthere]
    · by_cases hthere : name ∈ keys entries <;> simp [hthere, hname]

/-- What is removed has distinct keys. -/
theorem distinct_removed (hdistinct : Distinct entries) :
    Distinct (eraseEach entries names).1 := by
  induction names generalizing entries with
  | nil => exact List.nodup_nil
  | cons name rest ih =>
    rw [Distinct]
    simp only [eraseEach, keys_append, keys_find?]
    rw [List.nodup_append]
    refine ⟨by split <;> simp, ih (hdistinct.erase name), ?_⟩
    -- A key that is removed later is still there after the first removal.
    intro first hfirst later hlater heq
    have hname : first = name := by
      split at hfirst
      · exact List.mem_singleton.mp hfirst
      · cases hfirst
    have hthere := ((mem_keys_removed (hdistinct.erase name)).mp hlater).1
    rw [keys_erase hdistinct, List.mem_filter] at hthere
    simp [← heq, hname] at hthere

end EraseEach

/-- Removing the keys of chosen entries one after another takes out these entries in their order. -/
theorem removed_eraseEach {chosen : Entries α} (hdistinct : Distinct entries)
    (hchosen : Distinct chosen) (h : ∀ entry ∈ chosen, entry ∈ entries) :
    (eraseEach entries (keys chosen)).1 = chosen := by
  induction chosen generalizing entries with
  | nil => rfl
  | cons entry rest ih =>
    obtain ⟨hentry, hrest⟩ := distinct_cons.mp hchosen
    have hfind := hdistinct.find?_key (h entry List.mem_cons_self)
    -- The removed key is not a key of the rest, so the rest can still be taken out.
    have hkept : ∀ other ∈ rest, other ∈ erase entries entry.1 := by
      intro other hother
      have hne : other.1 ≠ entry.1 := by
        intro heq
        exact hentry (heq ▸ key_mem_keys hother)
      exact mem_erase_of_ne hne (h other (List.mem_cons_of_mem _ hother))
    have htail := ih (hdistinct.erase entry.1) hrest hkept
    rw [keys_cons]
    simp only [eraseEach, hfind, htail, Option.toList_some, List.singleton_append]

end Entries

end TreePath
