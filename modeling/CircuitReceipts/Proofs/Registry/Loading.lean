import CircuitReceipts.Proofs.Json.Distinct
import CircuitReceipts.Proofs.Json.Reading
import CircuitReceipts.Proofs.Registry.Entry

/-!
# Loading a registry

What comes of a manifest: a registry is loaded exactly if every entry describes an artifact.
Otherwise the first thing that is wrong decides. Most of it is refused, which is a judgement on the
files; but a manifest of the wrong kind, and one that is no text or is too deep, are not looked for,
and the failures that they lead to escape.
-/

namespace CircuitReceipts

namespace Manifest

variable {host : Host} {t : FileTree} {p path directory : Path} {j : Json}
  {entries : List (Text × Json)}
  {e : ManifestError}

/-! ### Manifests -/

/-- Whether the file at a path is the given text in UTF-8. -/
def HasText (t : FileTree) (path : Path) (text : Text) : Prop :=
  ∃ contents, t.read path = .ok contents ∧ Encoding.fileText? contents = some text

/-- Whether the file at a path is a JSON document with the given value. -/
def Holds (host : Host) (t : FileTree) (path : Path) (j : Json) : Prop :=
  ∃ text, HasText t path text ∧ Json.read host text = .ok j

/-- Whether the file at a path is a manifest with the given entries: an object that has them under
`circuits`, or nothing there if there are none. -/
def Lists (host : Host) (t : FileTree) (path : Path) (entries : List (Text × Json)) : Prop :=
  ∃ top, Holds host t path (.obj top) ∧
    ((Json.obj top).get? "circuits" = some (.obj entries) ∨
      (Json.obj top).get? "circuits" = none ∧ entries = [])

/-- Whether a registry is the one that a path leads to: the manifest at the path, or in the
directory at the path, lists its names, and the artifact under each name is the one that the entry
describes. -/
def Describes (host : Host) (t : FileTree) (p : Path) (r : Registry) : Prop :=
  ∃ path entries, locate t p = .ok path ∧ Lists host t path entries ∧
    r.names = Table.keys entries ∧
    ∀ m ∈ entries, ∃ a, r.lookup? m.1 = some a ∧ Loads t path.parent m.1 m.2 a

/-- What a manifest is refused for. -/
inductive Refused (host : Host) (t : FileTree) (p : Path) : ManifestError → Prop where
  | unreadable {path : Path} {e : FileError} : locate t p = .ok path → t.read path = .error e →
      e.isAboutFiles = true → Refused host t p (.unreadable path)
  | malformed {path : Path} {text : Text} : locate t p = .ok path → HasText t path text →
      Json.read host text = .error .malformed → Refused host t p (.unreadable path)
  /-- The first entry that describes no artifact is refused. -/
  | entry {path : Path} {earlier later : List (Text × Json)} {m : Text × Json} {e : ManifestError} :
      locate t p = .ok path → Lists host t path (earlier ++ m :: later) →
      (∀ m' ∈ earlier, ∃ a, Loads t path.parent m'.1 m'.2 a) →
      EntryRefused t path.parent m.1 m.2 e → Refused host t p e

/-- What is wrong with a manifest without being refused. -/
inductive Escapes (host : Host) (t : FileTree) (p : Path) : ManifestError → Prop where
  /-- The path to start from, or a name in it, is too long. -/
  | location : t.find p = .error .nameTooLong → Escapes host t p (.file .nameTooLong)
  /-- No file can have the path. -/
  | path {path : Path} {e : FileError} : locate t p = .ok path → t.read path = .error e →
      e.isAboutFiles = false → Escapes host t p (.file e)
  /-- The file is not in UTF-8. -/
  | encoding {path : Path} {contents : Bytes} : locate t p = .ok path →
      t.read path = .ok contents → Encoding.fileText? contents = none →
      Escapes host t p (.misuse .badEncoding)
  /-- The document has too many containers inside each other. -/
  | depth {path : Path} {text : Text} : locate t p = .ok path → HasText t path text →
      Json.read host text = .error .tooDeep → Escapes host t p (.misuse .tooDeep)
  /-- A whole number in the document has too many digits. -/
  | digits {path : Path} {text : Text} : locate t p = .ok path → HasText t path text →
      Json.read host text = .error .tooLong → Escapes host t p (.misuse .tooManyDigits)
  /-- The document is no object. -/
  | document {path : Path} {j : Json} : locate t p = .ok path → Holds host t path j →
      (∀ top, j ≠ .obj top) → Escapes host t p (.misuse .notAnObject)
  /-- What stands under `circuits` is no object. -/
  | circuits {path : Path} {top : List (Text × Json)} {j : Json} : locate t p = .ok path →
      Holds host t path (.obj top) → (Json.obj top).get? "circuits" = some j →
      (∀ entries, j ≠ .obj entries) → Escapes host t p (.misuse .notAnObject)
  /-- The first entry that describes no artifact escapes. -/
  | entry {path : Path} {earlier later : List (Text × Json)} {m : Text × Json} {e : ManifestError} :
      locate t p = .ok path → Lists host t path (earlier ++ m :: later) →
      (∀ m' ∈ earlier, ∃ a, Loads t path.parent m'.1 m'.2 a) →
      EntryEscapes t path.parent m.2 e → Escapes host t p e

/-- What is refused is a judgement on the manifest and its files. -/
theorem Refused.isReported (h : Refused host t p e) : (Failure.manifest e).isReported = true := by
  cases h with
  | unreadable | malformed => rfl
  | entry _ _ _ hentry => exact hentry.isReported

/-- What escapes is no judgement. -/
theorem Escapes.isReported (h : Escapes host t p e) : (Failure.manifest e).isReported = false := by
  cases h with
  | entry _ _ _ hentry => exact hentry.isReported
  | location | path | encoding | depth | digits | document | circuits => rfl

theorem locate_eq_error_iff {e : FileError} :
    locate t p = .error e ↔ t.find p = .error .nameTooLong ∧ e = .nameTooLong := by
  have hasked : locate t p = .error e ↔ t.isDirectory p = .error e := by
    rw [locate, bind_eq_error]
    refine or_iff_left ?_
    rintro ⟨isDirectory, -, h⟩
    cases isDirectory <;> cases h
  rw [hasked, FileTree.isDirectory]
  split
  · next hfind => simp [hfind]
  · next hfind => simp [hfind, eq_comm]
  · next e' hlong hfind => simpa [hfind] using fun h => absurd h hlong

theorem document_of_error {e : FileError} (h : t.read path = .error e) :
    document host t path = .error (if e.isAboutFiles then .unreadable path else .file e) := by
  rw [document, h]

theorem document_of_undecodable {contents : Bytes} (hread : t.read path = .ok contents)
    (htext : Encoding.fileText? contents = none) :
    document host t path = .error (.misuse .badEncoding) := by
  rw [document, hread]
  simp only [Json.ofFile, htext]

/-- Of a file that is a text, the manifest is what the text reads as. -/
theorem document_of_text {text : Text} (h : HasText t path text) :
    document host t path = (Json.read host text).mapError fun
      | .malformed => .unreadable path
      | .tooDeep => .misuse .tooDeep
      | .tooLong => .misuse .tooManyDigits := by
  obtain ⟨contents, hread, htext⟩ := h
  rw [document, hread]
  simp only [Json.ofFile, htext]
  cases Json.read host text with
  | ok j => rfl
  | error e => cases e <;> rfl

theorem document_eq_ok_iff : document host t path = .ok j ↔ Holds host t path j := by
  constructor
  · intro h
    cases hread : t.read path with
    | error e => cases h.symm.trans (document_of_error hread)
    | ok contents =>
    cases htext : Encoding.fileText? contents with
    | none => cases h.symm.trans (document_of_undecodable hread htext)
    | some text =>
    have hhas : HasText t path text := ⟨contents, hread, htext⟩
    rw [document_of_text hhas, mapError_eq_ok] at h
    exact ⟨text, hhas, h⟩
  · rintro ⟨text, hhas, hjson⟩
    rw [document_of_text hhas, hjson]
    rfl

/-- A file that holds no document is refused or escapes. -/
theorem fails_of_document (hat : locate t p = .ok path) (h : document host t path = .error e) :
    Refused host t p e ∨ Escapes host t p e := by
  cases hread : t.read path with
  | error e' =>
    rw [document_of_error hread] at h
    cases habout : e'.isAboutFiles <;> rw [habout] at h <;> cases h
    · exact .inr (.path hat hread habout)
    · exact .inl (.unreadable hat hread habout)
  | ok contents =>
  cases htext : Encoding.fileText? contents with
  | none =>
    cases h.symm.trans (document_of_undecodable hread htext)
    exact .inr (.encoding hat hread htext)
  | some text =>
  have hhas : HasText t path text := ⟨contents, hread, htext⟩
  rw [document_of_text hhas, mapError_eq_error] at h
  obtain ⟨_ | _ | _, hjson, rfl⟩ := h
  · exact .inl (.malformed hat hhas hjson)
  · exact .inr (.depth hat hhas hjson)
  · exact .inr (.digits hat hhas hjson)

theorem members_of_ne_obj (h : ∀ ms, j ≠ .obj ms) :
    members j = .error (.misuse .notAnObject) := by
  cases j with
  | obj ms => exact absurd rfl (h ms)
  | null | bool | int | float | str | arr => rfl

theorem members_eq_ok_iff {ms : List (Text × Json)} : members j = .ok ms ↔ j = .obj ms := by
  cases j with
  | obj ms' => simp [members]
  | null | bool | int | float | str | arr => simp [members]

theorem circuits_of_holds {top : List (Text × Json)} (h : Holds host t path (.obj top)) :
    circuits host t path = members (((Json.obj top).get? "circuits").getD (.obj [])) := by
  rw [circuits, document_eq_ok_iff.2 h]
  rfl

theorem circuits_eq_ok_iff : circuits host t path = .ok entries ↔ Lists host t path entries := by
  constructor
  · intro h
    obtain ⟨j, hdocument, hrest⟩ := bind_eq_ok.1 h
    obtain ⟨top, htop, -⟩ := bind_eq_ok.1 hrest
    obtain rfl := members_eq_ok_iff.1 htop
    have hholds := document_eq_ok_iff.1 hdocument
    rw [circuits_of_holds hholds, members_eq_ok_iff] at h
    refine ⟨top, hholds, ?_⟩
    cases hget : (Json.obj top).get? "circuits" with
    | some j =>
      rw [hget] at h
      exact .inl (congrArg some h)
    | none =>
      rw [hget] at h
      cases h
      exact .inr ⟨rfl, rfl⟩
  · rintro ⟨top, hholds, hget | ⟨hget, rfl⟩⟩ <;> rw [circuits_of_holds hholds, hget] <;> rfl

theorem fails_of_circuits (hat : locate t p = .ok path) (h : circuits host t path = .error e) :
    Refused host t p e ∨ Escapes host t p e := by
  rcases bind_eq_error.1 h with hdocument | ⟨j, hdocument, hrest⟩
  · exact fails_of_document hat hdocument
  have hholds := document_eq_ok_iff.1 hdocument
  by_cases hkind : ∀ top, j ≠ .obj top
  · rw [members_of_ne_obj hkind] at hrest
    cases hrest
    exact .inr (.document hat hholds hkind)
  obtain ⟨top, rfl⟩ := by simpa using hkind
  rw [circuits_of_holds hholds] at h
  cases hget : (Json.obj top).get? "circuits" with
  | none =>
    rw [hget] at h
    cases h
  | some j =>
    rw [hget] at h
    by_cases hkind : ∀ entries, j ≠ .obj entries
    · cases h.symm.trans (members_of_ne_obj hkind)
      exact .inr (.circuits hat hholds hget hkind)
    · obtain ⟨entries, rfl⟩ := by simpa using hkind
      cases h

theorem Lists.nodup_keys (h : Lists host t path entries) : (Table.keys entries).Nodup := by
  obtain ⟨top, ⟨text, -, hjson⟩, hgiven | ⟨-, rfl⟩⟩ := h
  · exact ((Json.distinct_of_read hjson).of_get? hgiven).nodup_keys
  · exact List.nodup_nil

/-! ### The registry of a manifest -/

/-- The artifacts of listed entries are under the names of the entries, which are their own, and
each is the one that its entry describes. -/
theorem artifacts_of_mapM {artifacts : List (Text × Artifact)}
    (hnodup : (Table.keys entries).Nodup)
    (h : entries.mapM (namedArtifact t directory) = .ok artifacts) :
    Table.keys artifacts = Table.keys entries ∧ (∀ b ∈ artifacts, b.2.name = b.1) ∧
      ∀ m ∈ entries, ∃ a, Table.get? m.1 artifacts = some a ∧ Loads t directory m.1 m.2 a := by
  have hkeys : Table.keys artifacts = Table.keys entries :=
    (map_eq_map_of_mapM h fun hb => (namedArtifact_eq_ok_iff.1 hb).1.symm).symm
  refine ⟨hkeys, fun b hb => ?_, fun m hm => ?_⟩
  · obtain ⟨m, -, hm⟩ := exists_of_mem_mapM h hb
    obtain ⟨hname, hloads⟩ := namedArtifact_eq_ok_iff.1 hm
    exact hloads.named.trans hname.symm
  · obtain ⟨b, hb, hm⟩ := exists_of_mem_of_mapM h hm
    obtain ⟨hname, hloads⟩ := namedArtifact_eq_ok_iff.1 hm
    exact ⟨b.2, Table.get?_of_mem (hkeys ▸ hnodup) (hname ▸ hb), hloads⟩

end Manifest

namespace Registry

open Manifest

variable {host : Host} {t : FileTree} {p path : Path} {entries : List (Text × Json)} {r : Registry}
  {e : ManifestError}

/-- Artifacts under their own names, each name used once, are a registry as they are. -/
theorem ofEntries_of_named {artifacts : List (Text × Artifact)}
    (hnodup : (Table.keys artifacts).Nodup) (hnamed : ∀ b ∈ artifacts, b.2.name = b.1) :
    ofEntries artifacts = .ok ⟨artifacts⟩ := by
  have hfind : artifacts.find? (fun b => b.2.name ≠ b.1) = none := by
    simpa [List.find?_eq_none] using hnamed
  simp only [ofEntries, Table.ofEntries_of_nodup hnodup, hfind]

theorem ofManifest_of_locate (hat : locate t p = .ok path) :
    ofManifest host t p = circuits host t path >>= fun entries =>
      entries.mapM (namedArtifact t path.parent) >>= fun artifacts =>
        (ofEntries artifacts).mapError .misnamed := by
  rw [ofManifest, hat]
  rfl

theorem ofManifest_of_lists (hat : locate t p = .ok path) (hlists : Lists host t path entries) :
    ofManifest host t p = (entries.mapM (namedArtifact t path.parent)).map Registry.mk := by
  rw [ofManifest_of_locate hat, circuits_eq_ok_iff.2 hlists, ok_bind]
  cases h : entries.mapM (namedArtifact t path.parent) with
  | error e => rfl
  | ok artifacts =>
    obtain ⟨hkeys, hnamed, -⟩ := artifacts_of_mapM hlists.nodup_keys h
    rw [ok_bind, ofEntries_of_named (hkeys ▸ hlists.nodup_keys) hnamed]
    rfl

theorem ofManifest_eq_ok_iff : ofManifest host t p = .ok r ↔ Describes host t p r := by
  constructor
  · intro h
    obtain ⟨path, hpath, hrest⟩ := bind_eq_ok.1 h
    obtain ⟨entries, hentries, -⟩ := bind_eq_ok.1 hrest
    have hat := mapError_eq_ok.1 hpath
    have hlists := circuits_eq_ok_iff.1 hentries
    rw [ofManifest_of_lists hat hlists, map_eq_ok] at h
    obtain ⟨artifacts, hartifacts, rfl⟩ := h
    obtain ⟨hkeys, -, hloads⟩ := artifacts_of_mapM hlists.nodup_keys hartifacts
    exact ⟨path, entries, hat, hlists, hkeys, hloads⟩
  · rintro ⟨path, entries, hat, hlists, hnames, hloads⟩
    have hnodup := hlists.nodup_keys
    obtain ⟨artifacts, hartifacts⟩ := exists_mapM_eq_ok fun m hm =>
      exists_namedArtifact_iff.2 ((hloads m hm).imp fun _ => And.right)
    obtain ⟨hkeys, -, hloads'⟩ := artifacts_of_mapM hnodup hartifacts
    have htable : artifacts = r.artifacts := by
      refine Table.ext_of_get? (hkeys.trans hnames.symm) (hkeys ▸ hnodup) fun key hkey => ?_
      obtain ⟨m, hm, rfl⟩ := List.mem_map.1 (hkeys ▸ hkey)
      obtain ⟨a, hget, ha⟩ := hloads m hm
      obtain ⟨a', hget', ha'⟩ := hloads' m hm
      obtain rfl : a = a' := Except.ok.inj (ha.artifact_eq.symm.trans ha'.artifact_eq)
      exact hget'.trans hget.symm
    rw [ofManifest_of_lists hat hlists, hartifacts, htable]
    rfl

theorem ofManifest_of_circuits (hat : locate t p = .ok path)
    (h : circuits host t path = .error e) : ofManifest host t p = .error e := by
  rw [ofManifest_of_locate hat, h]
  rfl

theorem ofManifest_of_entry {earlier later : List (Text × Json)} {m : Text × Json}
    (hat : locate t p = .ok path) (hlists : Lists host t path (earlier ++ m :: later))
    (hearlier : ∀ m' ∈ earlier, ∃ a, Loads t path.parent m'.1 m'.2 a)
    (h : namedArtifact t path.parent m = .error e) : ofManifest host t p = .error e := by
  rw [ofManifest_of_lists hat hlists, map_eq_error, mapM_eq_error]
  exact ⟨earlier, m, later, rfl, fun m' hm' => exists_namedArtifact_iff.2 (hearlier m' hm'), h⟩

theorem ofManifest_of_refused (h : Refused host t p e) : ofManifest host t p = .error e := by
  cases h with
  | unreadable hat hread habout =>
    refine ofManifest_of_circuits hat ?_
    rw [circuits, document_of_error hread, habout]
    rfl
  | malformed hat hhas hjson =>
    refine ofManifest_of_circuits hat ?_
    rw [circuits, document_of_text hhas, hjson]
    rfl
  | entry hat hlists hearlier hentry =>
    exact ofManifest_of_entry hat hlists hearlier (namedArtifact_eq_error_iff.2 (.inl hentry))

theorem ofManifest_of_escapes (h : Escapes host t p e) : ofManifest host t p = .error e := by
  cases h with
  | location hlong =>
    rw [ofManifest, locate_eq_error_iff.2 ⟨hlong, rfl⟩]
    rfl
  | path hat hread habout =>
    refine ofManifest_of_circuits hat ?_
    rw [circuits, document_of_error hread, habout]
    rfl
  | encoding hat hread htext =>
    refine ofManifest_of_circuits hat ?_
    rw [circuits, document_of_undecodable hread htext]
    rfl
  | depth hat hhas hjson | digits hat hhas hjson =>
    refine ofManifest_of_circuits hat ?_
    rw [circuits, document_of_text hhas, hjson]
    rfl
  | document hat hholds hkind =>
    refine ofManifest_of_circuits hat ?_
    rw [circuits, document_eq_ok_iff.2 hholds, ok_bind, members_of_ne_obj hkind]
    rfl
  | circuits hat hholds hget hkind =>
    refine ofManifest_of_circuits hat ?_
    rw [circuits_of_holds hholds, hget]
    exact members_of_ne_obj hkind
  | entry hat hlists hearlier hentry =>
    exact ofManifest_of_entry hat hlists hearlier (namedArtifact_eq_error_iff.2 (.inr hentry))

theorem ofManifest_eq_error_iff :
    ofManifest host t p = .error e ↔ Refused host t p e ∨ Escapes host t p e := by
  refine ⟨fun h => ?_, (Or.elim · ofManifest_of_refused ofManifest_of_escapes)⟩
  cases hat : locate t p with
  | error e' =>
    obtain ⟨hlong, rfl⟩ := locate_eq_error_iff.1 hat
    cases h.symm.trans (ofManifest_of_escapes (.location hlong))
    exact .inr (.location hlong)
  | ok path =>
  cases hcircuits : circuits host t path with
  | error e' =>
    cases h.symm.trans (ofManifest_of_circuits hat hcircuits)
    exact fails_of_circuits hat hcircuits
  | ok entries =>
  have hlists := circuits_eq_ok_iff.1 hcircuits
  rw [ofManifest_of_lists hat hlists, map_eq_error, mapM_eq_error] at h
  obtain ⟨earlier, m, later, rfl, hloaded, hm⟩ := h
  have hearlier : ∀ m' ∈ earlier, ∃ a, Loads t path.parent m'.1 m'.2 a := fun m' hm' =>
    exists_namedArtifact_iff.1 (hloaded m' hm')
  exact (namedArtifact_eq_error_iff.1 hm).imp (.entry hat hlists hearlier)
    (.entry hat hlists hearlier)

/-- Whatever the files hold, a path leads to a registry exactly if it is the one that the manifest
there describes: each artifact stands under the name of its entry, with the contents of its file and
with the image id that the entry gives. Otherwise there is a judgement on the manifest, exactly if
it is refused, or a failure that is none, exactly if what is wrong with the manifest escapes. -/
theorem loads_or_refused_or_escapes (host : Host) (t : FileTree) (p : Path) :
    (∀ r, ofManifest host t p = .ok r ↔ Describes host t p r) ∧
      (∀ e, ofManifest host t p = .error e ∧ (Failure.manifest e).isReported = true ↔
        Refused host t p e) ∧
      ∀ e, ofManifest host t p = .error e ∧ (Failure.manifest e).isReported = false ↔
        Escapes host t p e := by
  refine ⟨fun r => ofManifest_eq_ok_iff, fun e => ⟨?_, fun h => ?_⟩, fun e => ⟨?_, fun h => ?_⟩⟩
  · rintro ⟨h, hreported⟩
    refine (ofManifest_eq_error_iff.1 h).resolve_right fun hescapes => ?_
    exact absurd (hreported.symm.trans hescapes.isReported) (by decide)
  · exact ⟨ofManifest_of_refused h, h.isReported⟩
  · rintro ⟨h, hreported⟩
    refine (ofManifest_eq_error_iff.1 h).resolve_left fun hrefused => ?_
    exact absurd (hreported.symm.trans hrefused.isReported) (by decide)
  · exact ⟨ofManifest_of_escapes h, h.isReported⟩

/-- A manifest that is an empty list is not refused: that it is no object escapes. -/
theorem list_manifest_escapes :
    ofManifest .standard ⟨[(["manifest.json"], .file [0x5B, 0x5D])]⟩ (.ofText "manifest.json") =
        .error (.misuse .notAnObject) ∧
      (Failure.manifest (.misuse .notAnObject)).isReported = false := by
  have hjson : Json.read .standard (Json.arr []).compact = .ok (.arr []) :=
    Json.read_compact (.arr (by simp)) (by decide)
  have hread : FileTree.read ⟨[(["manifest.json"], .file [0x5B, 0x5D])]⟩ (.ofText "manifest.json") =
      .ok [0x5B, 0x5D] := by decide +kernel
  have hat : locate ⟨[(["manifest.json"], .file [0x5B, 0x5D])]⟩ (.ofText "manifest.json") =
      .ok (.ofText "manifest.json") := by decide +kernel
  have hholds : Holds .standard ⟨[(["manifest.json"], .file [0x5B, 0x5D])]⟩
      (.ofText "manifest.json")
      (.arr []) := ⟨_, ⟨_, hread, rfl⟩, hjson⟩
  exact ⟨ofManifest_of_escapes (.document hat hholds (by simp)), rfl⟩

end Registry

end CircuitReceipts
