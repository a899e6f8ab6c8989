import CircuitReceipts.FileTree
import CircuitReceipts.Json.Document
import CircuitReceipts.Json.Printer
import CircuitReceipts.Json.Shown
import CircuitReceipts.Registry

/-!
# Manifests

A registry in files: each artifact in a file of its own, and a manifest that gives for each name
the file, relative to the manifest, and the image id. Reading a manifest checks the image ids it
gives; writing one and reading it back gives the same artifacts.
-/

namespace CircuitReceipts

/-- Why a manifest cannot be read or written. -/
inductive ManifestError where
  | unreadable (path : Path)
  | unreadableArtifact (path : Path)
  | noPath (name : Text)
  | imageMismatch (name : Text) (declared : Json) (got : Text)
  | misnamed (e : Misnamed)
  | file (e : FileError)
  | misuse (m : Misuse)
deriving Inhabited

/-- The text of a manifest error, where it has one. -/
def ManifestError.message? : ManifestError → Option Text
  | unreadable p => some ("Cannot read manifest " ++ p.written)
  | unreadableArtifact p => some ("Cannot read artifact " ++ p.written)
  | noPath name => some ("Manifest entry for " ++ name.quoted ++ " has no path")
  | imageMismatch name declared got =>
    some ("Image id mismatch for " ++ name ++ ": manifest " ++ declared.display ++ ", file " ++ got)
  | misnamed e => some e.message
  | file _ => none
  | misuse _ => none

namespace Manifest

/-- The name of the manifest in a directory. -/
def fileName : Path := .ofText "manifest.json"

/-- The path of the manifest that a path stands for: in a directory, the one with the usual
name. -/
def locate (t : FileTree) (p : Path) : Except FileError Path := do
  if ← t.isDirectory p then return p.join fileName else return p

def members : Json → Except ManifestError (List (Text × Json))
  | .obj ms => .ok ms
  | _ => .error (.misuse .notAnObject)

def document (h : Host) (t : FileTree) (p : Path) : Except ManifestError Json :=
  match t.read p with
  | .error e => .error (if e.isAboutFiles then .unreadable p else .file e)
  | .ok b =>
    match Json.ofFile h b with
    | .ok j => .ok j
    | .error .badDocument => .error (.unreadable p)
    | .error m => .error (.misuse m)

def blob (t : FileTree) (p : Path) : Except ManifestError Bytes :=
  (t.read p).mapError fun e => if e.isAboutFiles then .unreadableArtifact p else .file e

/-- The artifact of an entry, whose file is sought from the given directory. -/
def artifact (t : FileTree) (directory : Path) (name : Text) (entry : Json) :
    Except ManifestError Artifact := do
  match entry.get? "path" with
  | none => throw (.noPath name)
  | some (.str path) =>
    let a : Artifact := ⟨name, ← blob t (directory.join (.ofText path))⟩
    match entry.get? "image_id" with
    | none => return a
    | some .null => return a
    | some (.str id) =>
      if id = a.imageId then return a else throw (.imageMismatch name (.str id) a.imageId)
    | some j => throw (.imageMismatch name j a.imageId)
  | some _ => throw (.misuse .wrongKind)

/-- The members of a manifest that name artifacts. -/
def circuits (h : Host) (t : FileTree) (p : Path) :
    Except ManifestError (List (Text × Json)) := do
  let top ← members (← document h t p)
  members ((Table.get? (Text.ofString "circuits") top).getD (.obj []))

/-- The paths of the artifact files of a manifest, as far as it gives any. -/
def blobPaths (h : Host) (t : FileTree) (p : Path) : List Path :=
  match circuits h t p with
  | .error _ => []
  | .ok entries =>
    entries.filterMap fun (_, entry) =>
      ((entry.get? "path").bind Json.text?).map fun path => p.parent.join (.ofText path)

end Manifest

namespace Registry

/-- The registry of a manifest, or of the manifest in a directory. -/
def ofManifest (h : Host) (t : FileTree) (p : Path) : Except ManifestError Registry := do
  let path ← (Manifest.locate t p).mapError .file
  let entries ← (← Manifest.circuits h t path).mapM fun (name, entry) => do
    return (name, ← Manifest.artifact t path.parent name entry)
  (ofEntries entries).mapError .misnamed

/-- The name of the file of an artifact. -/
def blobName (name : Text) : Text :=
  name ++ ".bin"

def manifest (r : Registry) : Json :=
  let entry (e : Text × Artifact) : Text × Json :=
    (e.1, Json.sorted [("path", .str (blobName e.1)), ("image_id", .str e.2.imageId)])
  .obj [("circuits", Json.sorted (r.artifacts.map entry))]

/-- Writes the artifacts and the manifest to a directory, which is made if it is not there. The
result is the tree and the path of the manifest. -/
def exportTo (r : Registry) (t : FileTree) (directory : Path) :
    Except FileError (FileTree × Path) := do
  let t ← t.makeDirectory directory
  let t ← r.artifacts.foldlM (fun (t : FileTree) (e : Text × Artifact) =>
    t.write (directory.join (.ofText (blobName e.1))) e.2.blob) t
  let path := directory.join Manifest.fileName
  let t ← t.write path (Encoding.encodeUtf8 r.manifest.indented)
  return (t, path)

end Registry

end CircuitReceipts
