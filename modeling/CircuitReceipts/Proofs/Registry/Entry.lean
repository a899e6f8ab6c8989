import CircuitReceipts.Failure
import CircuitReceipts.Proofs.Success
import Mathlib.Tactic.Push

/-!
# Entries of a manifest

What comes of an entry: it describes an artifact, or it is refused, which is a judgement on it and
its file. A path that is no text, or that no file can have, is not looked for; the failure that it
leads to escapes.
-/

namespace CircuitReceipts

namespace Manifest

variable {t : FileTree} {directory : Path} {name : Text} {entry : Json} {a : Artifact}
  {e : ManifestError}

/-- Whether an entry describes an artifact: one with the contents of the file that the entry names,
and with the image id that the entry gives, unless that is absent or null. -/
structure Loads (t : FileTree) (directory : Path) (name : Text) (entry : Json) (a : Artifact) :
    Prop where
  named : a.name = name
  contents : ∃ file, entry.get? "path" = some (.str file) ∧
    t.read (directory.join (.ofText file)) = .ok a.blob
  identified : ∀ id, entry.get? "image_id" = some id → id = .null ∨ id = .str a.imageId

/-- What an entry is refused for. -/
inductive EntryRefused (t : FileTree) (directory : Path) (name : Text) (entry : Json) :
    ManifestError → Prop where
  /-- It is no object, or one without a path. -/
  | noPath : entry.get? "path" = none → EntryRefused t directory name entry (.noPath name)
  | unreadable {file : Text} {e : FileError} : entry.get? "path" = some (.str file) →
      t.read (directory.join (.ofText file)) = .error e → e.isAboutFiles = true →
      EntryRefused t directory name entry (.unreadableArtifact (directory.join (.ofText file)))
  /-- It gives an image id, of whatever kind, that is not the one of its file. -/
  | mismatch {file : Text} {blob : Bytes} {id : Json} : entry.get? "path" = some (.str file) →
      t.read (directory.join (.ofText file)) = .ok blob → entry.get? "image_id" = some id →
      id ≠ .null → id ≠ .str (Artifact.imageId ⟨name, blob⟩) →
      EntryRefused t directory name entry (.imageMismatch name id (Artifact.imageId ⟨name, blob⟩))

/-- What is wrong with an entry without being refused. -/
inductive EntryEscapes (t : FileTree) (directory : Path) (entry : Json) : ManifestError → Prop where
  /-- Its path is no text. -/
  | kind {j : Json} : entry.get? "path" = some j → (∀ file, j ≠ .str file) →
      EntryEscapes t directory entry (.misuse .wrongKind)
  /-- No file can have its path. -/
  | path {file : Text} {e : FileError} : entry.get? "path" = some (.str file) →
      t.read (directory.join (.ofText file)) = .error e → e.isAboutFiles = false →
      EntryEscapes t directory entry (.file e)

theorem Loads.artifact_eq (h : Loads t directory name entry a) :
    artifact t directory name entry = .ok a := by
  obtain ⟨rfl, ⟨file, hpath, hread⟩, hid⟩ := h
  rw [artifact, hpath]
  simp only [blob, hread, mapError_ok, ok_bind]
  cases hgiven : entry.get? "image_id" with
  | none => rfl
  | some id =>
    rcases hid id hgiven with rfl | rfl
    · rfl
    · exact if_pos rfl

theorem EntryRefused.artifact_eq (h : EntryRefused t directory name entry e) :
    artifact t directory name entry = .error e := by
  cases h with
  | noPath hpath =>
    rw [artifact, hpath]
    rfl
  | unreadable hpath hread habout =>
    rw [artifact, hpath]
    simp only [blob, hread, mapError_error, error_bind, habout, if_true]
  | @mismatch _ _ id hpath hread hgiven hnull hid =>
    rw [artifact, hpath]
    simp only [blob, hread, mapError_ok, ok_bind, hgiven]
    cases id with
    | null => exact absurd rfl hnull
    | str id => exact if_neg fun h => hid (congrArg Json.str h)
    | bool | int | float | arr | obj => rfl

theorem EntryEscapes.artifact_eq (h : EntryEscapes t directory entry e) (name : Text) :
    artifact t directory name entry = .error e := by
  cases h with
  | @kind j hpath hkind =>
    rw [artifact, hpath]
    cases j with
    | str file => exact absurd rfl (hkind file)
    | null | bool | int | float | arr | obj => rfl
  | path hpath hread habout =>
    rw [artifact, hpath]
    simp only [blob, hread, mapError_error, error_bind, habout]
    rfl

theorem entry_cases (t : FileTree) (directory : Path) (name : Text) (entry : Json) :
    (∃ a, Loads t directory name entry a) ∨ ∃ e,
      EntryRefused t directory name entry e ∨ EntryEscapes t directory entry e := by
  cases hpath : entry.get? "path" with
  | none => exact .inr ⟨_, .inl (.noPath hpath)⟩
  | some j =>
    by_cases hkind : ∀ file, j ≠ .str file
    · exact .inr ⟨_, .inr (.kind hpath hkind)⟩
    obtain ⟨file, rfl⟩ := by simpa using hkind
    cases hread : t.read (directory.join (.ofText file)) with
    | error e =>
      cases habout : e.isAboutFiles with
      | true => exact .inr ⟨_, .inl (.unreadable hpath hread habout)⟩
      | false => exact .inr ⟨_, .inr (.path hpath hread habout)⟩
    | ok blob =>
      by_cases hid : ∀ id, entry.get? "image_id" = some id →
          id = .null ∨ id = .str (Artifact.imageId ⟨name, blob⟩)
      · exact .inl ⟨⟨name, blob⟩, rfl, ⟨file, hpath, hread⟩, hid⟩
      · push Not at hid
        obtain ⟨id, hgiven, hnull, hne⟩ := hid
        exact .inr ⟨_, .inl (.mismatch hpath hread hgiven hnull hne)⟩

theorem artifact_eq_ok_iff :
    artifact t directory name entry = .ok a ↔ Loads t directory name entry a := by
  refine ⟨fun h => ?_, Loads.artifact_eq⟩
  rcases entry_cases t directory name entry with ⟨a', hloads⟩ | ⟨e, hrefused | hescapes⟩
  · cases h.symm.trans hloads.artifact_eq
    exact hloads
  · cases h.symm.trans hrefused.artifact_eq
  · cases h.symm.trans (hescapes.artifact_eq name)

theorem artifact_eq_error_iff : artifact t directory name entry = .error e ↔
    EntryRefused t directory name entry e ∨ EntryEscapes t directory entry e := by
  constructor
  · intro h
    rcases entry_cases t directory name entry with ⟨a, hloads⟩ | ⟨e', hfails⟩
    · cases h.symm.trans hloads.artifact_eq
    · have heq : artifact t directory name entry = .error e' :=
        hfails.elim EntryRefused.artifact_eq (EntryEscapes.artifact_eq · name)
      cases h.symm.trans heq
      exact hfails
  · exact (Or.elim · EntryRefused.artifact_eq (EntryEscapes.artifact_eq · name))

theorem EntryRefused.isReported (h : EntryRefused t directory name entry e) :
    (Failure.manifest e).isReported = true := by
  cases h <;> rfl

theorem EntryEscapes.isReported (h : EntryEscapes t directory entry e) :
    (Failure.manifest e).isReported = false := by
  cases h <;> rfl

def namedArtifact (t : FileTree) (directory : Path) (m : Text × Json) :
    Except ManifestError (Text × Artifact) := do
  return (m.1, ← artifact t directory m.1 m.2)

theorem namedArtifact_eq_ok_iff {m : Text × Json} {b : Text × Artifact} :
    namedArtifact t directory m = .ok b ↔ b.1 = m.1 ∧ Loads t directory m.1 m.2 b.2 := by
  simp only [namedArtifact, bind_eq_ok, pure_eq_ok, artifact_eq_ok_iff]
  constructor
  · rintro ⟨a, hloads, rfl⟩
    exact ⟨rfl, hloads⟩
  · rintro ⟨hname, hloads⟩
    exact ⟨b.2, hloads, Prod.ext hname.symm rfl⟩

theorem exists_namedArtifact_iff {m : Text × Json} :
    (∃ b, namedArtifact t directory m = .ok b) ↔ ∃ a, Loads t directory m.1 m.2 a := by
  constructor
  · rintro ⟨b, hb⟩
    exact ⟨b.2, (namedArtifact_eq_ok_iff.1 hb).2⟩
  · rintro ⟨a, ha⟩
    exact ⟨(m.1, a), namedArtifact_eq_ok_iff.2 ⟨rfl, ha⟩⟩

theorem namedArtifact_eq_error_iff {m : Text × Json} : namedArtifact t directory m = .error e ↔
    EntryRefused t directory m.1 m.2 e ∨ EntryEscapes t directory m.2 e := by
  rw [namedArtifact, bind_eq_error, artifact_eq_error_iff]
  refine or_iff_left ?_
  rintro ⟨a, -, ⟨⟩⟩

end Manifest

end CircuitReceipts
