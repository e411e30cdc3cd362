import TreePath.Proofs.Gzip.RoundTrip
import TreePath.Proofs.Outcome
import TreePath.Proofs.Storage.FileSystem
import TreePath.Storage.Loading

/-!
# Two ways to load a document

A document is loaded from a file, whose name says whether it is compressed, or from bytes, whose first
two say so.  Where the name and the bytes agree on that, both ways give the same
(`load_follows_loadBytes`).  Where they do not agree, the file cannot be loaded at all: what does not
begin as a compressed file does cannot be decompressed (`startsWithMagic_of_text?`), and what does is
no text.  The second is a fact about UTF-8.  The second of the two bytes only continues a character,
and the first is a whole character by itself (`startsWithMagic_of_decode?`).

So the way through the bytes gives what the way through the file gives, and it gives a tree in some
cases where the file has the wrong name.
-/

set_option autoImplicit false

namespace TreePath

variable {bytes : List UInt8} {text : String}

/-! ## Bytes that are text -/

namespace Utf8

/-- Bytes are decoded to the one text whose bytes they are. -/
theorem decode?_eq_some_iff : decode? bytes = some text ↔ bytes.toByteArray = text.toByteArray := by
  rw [decode?, String.fromUTF8?]
  split
  next h =>
    rw [Option.some.injEq, ← String.toByteArray_inj]
    rfl
  next h =>
    constructor
    · intro hnone
      cases hnone
    · intro htext
      exact absurd (htext ▸ text.isValidUTF8) h

/-- No text begins as a compressed file does. -/
theorem startsWithMagic_of_decode? (h : decode? bytes = some text) :
    Gzip.startsWithMagic bytes = false := by
  rw [decode?_eq_some_iff, ← String.utf8Encode_toList] at h
  by_contra hmagic
  obtain ⟨rest, rfl⟩ : Gzip.magic <+: bytes := by
    simpa [Gzip.startsWithMagic] using hmagic
  -- The first byte is a character, so the second is the first byte of the text behind it.
  have hfirst : ['\x1f'].utf8Encode ++ (0x8b :: rest).toByteArray = text.toList.utf8Encode := by
    rw [← h]
    exact (@List.toByteArray_append [0x1f] (0x8b :: rest)).symm
  obtain ⟨more, hmore⟩ := List.isPrefix_of_utf8Encode_append_eq_utf8Encode _ hfirst
  rw [← hmore, List.utf8Encode_append, ByteArray.append_right_inj] at hfirst
  have hvalid : ((0x8b : UInt8) :: rest).toByteArray.IsValidUTF8 := ⟨more, hfirst⟩
  have hlead : (0x8b : UInt8).IsUTF8FirstByte := by
    simpa using hvalid.isUTF8FirstByte_getElem_zero (by simp)
  exact absurd hlead (by decide)

end Utf8

namespace Gzip

/-- Only what begins as a compressed file does is decompressed. -/
theorem startsWithMagic_of_text? (h : text? bytes = some text) : startsWithMagic bytes = true := by
  obtain ⟨content, hcontent, -⟩ := Option.bind_eq_some_iff.mp h
  obtain ⟨stream, hheader, -⟩ := Option.bind_eq_some_iff.mp hcontent
  unfold skipHeader? at hheader
  split at hheader
  next a b m flags _ _ _ _ _ _ rest =>
    split at hheader
    next => cases hheader
    next hflags =>
      simp only [ne_eq, Bool.or_eq_true, decide_eq_true_eq, not_or, not_not] at hflags
      have hbegin : [a, b] = magic := hflags.1.1.1.1
      simp [startsWithMagic, ← hbegin]
  next => cases hheader

end Gzip

/-! ## The text inside -/

/-- A text is found in bytes by unpacking those that begin like an archive and decoding the others. -/
theorem textOfBytes_eq_ok_iff :
    textOfBytes bytes = .ok text ↔
      if Gzip.startsWithMagic bytes then Gzip.text? bytes = some text
      else Utf8.decode? bytes = some text := by
  rw [textOfBytes]
  split
  next => cases Gzip.text? bytes <;> simp
  next => cases Utf8.decode? bytes <;> simp

/-- Finding the text in bytes never fails with an error of a format. -/
theorem textOfBytes_ne_malformed (bytes : List UInt8) (fault : SyntaxFault) :
    textOfBytes bytes ≠ .error (.malformed fault) := by
  intro h
  rw [textOfBytes] at h
  split at h
  next => cases htext : Gzip.text? bytes <;> simp [htext] at h
  next => cases htext : Utf8.decode? bytes <;> simp [htext] at h

namespace FileSystem

variable {files : FileSystem} {name : String} {node : Node}

/-- Finding the text of a document never fails with an error of a format. -/
theorem documentText_ne_malformed (files : FileSystem) (name : String) (fault : SyntaxFault) :
    files.documentText name ≠ .error (.malformed fault) := by
  intro h
  rw [documentText] at h
  split at h
  next =>
    split at h
    next => cases h
    next => cases h
    next bytes hfind => cases htext : Gzip.text? bytes <;> simp [htext] at h
  next => cases htext : files.readText? name <;> simp [htext] at h

/-- A document whose text is found is a file that can be read. -/
theorem exists_read?_of_documentText (h : files.documentText name = .ok text) :
    ∃ bytes, files.read? name = some bytes := by
  rw [documentText] at h
  split at h
  next =>
    split at h
    next => cases h
    next => cases h
    next bytes hfind => exact ⟨bytes, read?_eq_some_iff.mpr hfind⟩
  next =>
    cases htext : files.readText? name with
    | none => simp [htext] at h
    | some found =>
      obtain ⟨bytes, hbytes, -⟩ := Option.bind_eq_some_iff.mp htext
      exact ⟨bytes, hbytes⟩

/-- The text of a document is found by unpacking or by decoding, as the name says, and not as the
bytes do. -/
theorem documentText_of_kind (hfile : files.read? name = some bytes) :
    files.documentText name = .ok text ↔
      if Name.isCompressed name then Gzip.text? bytes = some text
      else Utf8.decode? bytes = some text := by
  rw [documentText]
  split
  next =>
    rw [read?_eq_some_iff.mp hfile]
    cases htext : Gzip.text? bytes <;> simp [htext]
  next =>
    rw [readText?, hfile, Option.bind_some]
    cases Utf8.decode? bytes <;> simp

/-- **The text of a file is the text of its bytes, when the name says of them what they say
themselves; otherwise the file has none.** -/
theorem documentText_eq_ok_iff (hfile : files.read? name = some bytes) :
    files.documentText name = .ok text ↔
      Name.isCompressed name = Gzip.startsWithMagic bytes ∧ textOfBytes bytes = .ok text := by
  rw [documentText_of_kind hfile, textOfBytes_eq_ok_iff]
  cases hname : Name.isCompressed name with
  | true =>
    cases hmagic : Gzip.startsWithMagic bytes with
    | true => simp
    | false =>
      have hnone : Gzip.text? bytes ≠ some text := by
        intro htext
        rw [Gzip.startsWithMagic_of_text? htext] at hmagic
        cases hmagic
      simp [hnone]
  | false =>
    cases hmagic : Gzip.startsWithMagic bytes with
    | true =>
      have hnone : Utf8.decode? bytes ≠ some text := by
        intro htext
        rw [Utf8.startsWithMagic_of_decode? htext] at hmagic
        cases hmagic
      simp [hnone]
    | false => simp

/-! ## The document -/

/-- A file is loaded as its bytes are when its name and its first bytes agree on whether it is
compressed, and not at all otherwise. -/
theorem load_eq_ok_iff (hfile : files.read? name = some bytes) :
    files.load name = .ok node ↔
      Name.isCompressed name = Gzip.startsWithMagic bytes ∧
        (Format.ofName name).loadBytes bytes = .ok node := by
  constructor
  · intro h
    obtain ⟨text, htext, hnode⟩ := exists_of_bind_eq_ok h
    obtain ⟨hagree, hbytes⟩ := (documentText_eq_ok_iff hfile).mp htext
    refine ⟨hagree, ?_⟩
    rw [Format.loadBytes, hbytes]
    exact hnode
  · rintro ⟨hagree, h⟩
    obtain ⟨text, hbytes, hnode⟩ := exists_of_bind_eq_ok h
    rw [load, (documentText_eq_ok_iff hfile).mpr ⟨hagree, hbytes⟩]
    exact hnode

/-- A text that is no document is refused by both ways with the same fault. -/
theorem load_eq_malformed_iff (hfile : files.read? name = some bytes) {fault : SyntaxFault} :
    files.load name = .error (.malformed fault) ↔
      Name.isCompressed name = Gzip.startsWithMagic bytes ∧
        (Format.ofName name).loadBytes bytes = .error (.malformed fault) := by
  constructor
  · intro h
    rcases bind_eq_error h with htext | ⟨text, htext, hfault⟩
    · exact absurd htext (documentText_ne_malformed files name fault)
    · obtain ⟨hagree, hbytes⟩ := (documentText_eq_ok_iff hfile).mp htext
      refine ⟨hagree, ?_⟩
      rw [Format.loadBytes, hbytes]
      exact hfault
  · rintro ⟨hagree, h⟩
    rcases bind_eq_error h with htext | ⟨text, hbytes, hfault⟩
    · exact absurd htext (textOfBytes_ne_malformed bytes fault)
    · rw [load, (documentText_eq_ok_iff hfile).mpr ⟨hagree, hbytes⟩]
      exact hfault

/-- **The two ways to load a document agree.**  A document that is loaded from a file is there, and
its bytes give the same tree.  Where the name says of the bytes what they say themselves, both ways
give the same tree or fail both, and they find the same fault in a text that is no document.  Where
it does not, the file cannot be loaded. -/
theorem load_follows_loadBytes (files : FileSystem) (name : String) :
    (∀ node, files.load name = .ok node →
      ∃ bytes, files.read? name = some bytes ∧
        (Format.ofName name).loadBytes bytes = .ok node) ∧
    ∀ bytes, files.read? name = some bytes →
      (Name.isCompressed name = Gzip.startsWithMagic bytes →
        (∀ node, files.load name = .ok node ↔
          (Format.ofName name).loadBytes bytes = .ok node) ∧
        ∀ fault, files.load name = .error (.malformed fault) ↔
          (Format.ofName name).loadBytes bytes = .error (.malformed fault)) ∧
      (Name.isCompressed name ≠ Gzip.startsWithMagic bytes → ∃ e, files.load name = .error e) := by
  constructor
  · intro node h
    obtain ⟨text, htext, -⟩ := exists_of_bind_eq_ok h
    obtain ⟨bytes, hfile⟩ := exists_read?_of_documentText htext
    exact ⟨bytes, hfile, ((load_eq_ok_iff hfile).mp h).2⟩
  · intro bytes hfile
    constructor
    · intro hagree
      refine ⟨fun node => ?_, fun fault => ?_⟩
      · rw [load_eq_ok_iff hfile, and_iff_right hagree]
      · rw [load_eq_malformed_iff hfile, and_iff_right hagree]
    · intro hdiffer
      cases hload : files.load name with
      | error e => exact ⟨e, rfl⟩
      | ok node => exact absurd ((load_eq_ok_iff hfile).mp hload).1 hdiffer

/-- A compressed document under a name for compressed ones, and the same bytes and their text under
names that say the opposite. -/
def shelves : FileSystem where
  items := [(["home"], .directory),
    (["home", "d.json.gz"], .file (Gzip.compress (Utf8.encode "[1]"))),
    (["home", "d.json"], .file (Gzip.compress (Utf8.encode "[1]"))),
    (["home", "e.gz"], .file (Utf8.encode "[1]"))]
  working := ["home"]

/-- Both ways load the compressed document.  Under the other two names the bytes are no document,
though they are one by themselves. -/
theorem load_follows_loadBytes_sample :
    shelves.load "d.json.gz" = .ok (.sequence [.ofInt64 1]) ∧
      Format.json.loadBytes (Gzip.compress (Utf8.encode "[1]")) = .ok (.sequence [.ofInt64 1]) ∧
      (∃ e, shelves.load "d.json" = .error e) ∧
      (∃ e, shelves.load "e.gz" = .error e) ∧
      Format.json.loadBytes (Utf8.encode "[1]") = .ok (.sequence [.ofInt64 1]) := by
  have hpacked : Format.json.loadBytes (Gzip.compress (Utf8.encode "[1]")) =
      .ok (.sequence [.ofInt64 1]) := by
    have htext : textOfBytes (Gzip.compress (Utf8.encode "[1]")) = .ok "[1]" :=
      textOfBytes_eq_ok_iff.mpr (Gzip.text?_compress "[1]")
    rw [Format.loadBytes, htext]
    rfl
  have hfile : shelves.read? "d.json.gz" = some (Gzip.compress (Utf8.encode "[1]")) := rfl
  obtain ⟨hback, hboth⟩ := load_follows_loadBytes shelves "d.json.gz"
  have hload := (((hboth _ hfile).1 rfl).1 (.sequence [.ofInt64 1])).mpr hpacked
  obtain ⟨bytes, hbytes, hloaded⟩ := hback _ hload
  rw [hfile, Option.some.injEq] at hbytes
  have hjson := ((load_follows_loadBytes shelves "d.json").2 _ rfl).2 (by decide)
  have hgz := ((load_follows_loadBytes shelves "e.gz").2 _ rfl).2 (by decide)
  exact ⟨hload, hbytes ▸ hloaded, hjson, hgz, rfl⟩

end FileSystem

end TreePath
