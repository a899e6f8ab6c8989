import CircuitReceipts.Proofs.FileTree.Access
import CircuitReceipts.Proofs.Json.Layout
import CircuitReceipts.Proofs.Json.Sorted
import CircuitReceipts.Proofs.Registry.Loading

/-!
# A registry is loaded back from the files it is exported to

Each artifact is written to a file of its own, named after it, and the manifest gives for each name
that file and the image id. Names that can stand in the name of a file, and name different files,
keep the artifacts apart. So loading finds every artifact again, in the order of the names. A file
that was replaced has to have the same digest, for otherwise the image id in the manifest is not the
one of the file.
-/

namespace CircuitReceipts

theorem Text.unpaired_of_nameable {t : Text} (h : ∀ s ∈ t, FileTree.Nameable s) : t.Unpaired := by
  refine unpaired_of_forall fun s hs => ?_
  cases s with
  | char c => exact Symbol.isHigh_char c
  | surrogate k =>
    have hk : 0x480 ≤ k.val ∧ k.val < 0x500 := h _ hs
    rw [Bool.eq_false_iff, Ne, Token.isHigh_iff, Symbol.point]
    omega

theorem Artifact.hash_eq_of_imageId_eq {a b : Artifact} (h : a.imageId = b.imageId) :
    Sha256.hash a.blob = Sha256.hash b.blob := by
  have hread := congrArg Bytes.ofHex? h
  rw [imageId, imageId, Bytes.ofHex?_hex, Bytes.ofHex?_hex] at hread
  exact Option.some.inj hread

namespace Registry

open FileTree Manifest

variable {host : Host} {r : Registry} {t t' : FileTree} {directory p : Path} {l : Location}
  {name : Text}
  {e : Text × Artifact} {blobs : Text × Artifact → Bytes}

/-! ### Names -/

/-- Whether the file of an artifact with the given name can stand in a directory: the name holds
neither a slash nor a zero, its surrogates stand for bytes, and neither the name of the file nor its
path is too long. -/
structure IsStem (directory : Path) (name : Text) : Prop where
  slash : .char '/' ∉ name
  nameable : ∀ s ∈ name, Nameable s
  short : nameSize (blobName name) ≤ maxNameBytes
  room : nameSize (directory.join (.ofText (blobName name))).written ≤ maxPathBytes

theorem blobName_ne {short : Text} (h : short.length < 4) : blobName name ≠ short := by
  rintro rfl
  rw [blobName, List.length_append] at h
  exact absurd h (Nat.not_lt.2 (Nat.le_add_left 4 _))

theorem nameable_blobName (h : ∀ s ∈ name, Nameable s) : ∀ s ∈ blobName name, Nameable s := by
  intro s hs
  rcases List.mem_append.1 hs with hs | hs
  · exact h s hs
  · exact (by decide : ∀ s ∈ Text.ofString ".bin", Nameable s) s hs

theorem IsStem.fitsIn (h : IsStem directory name) : FitsIn directory (blobName name) where
  slash hs := (List.mem_append.1 hs).elim h.slash (by decide)
  nameable := nameable_blobName h.nameable
  notSame := by
    have hempty : blobName name ≠ [] := blobName_ne (by decide)
    have hdot : blobName name ≠ Text.ofString "." := blobName_ne (by decide)
    simp [Path.isSame, hempty, hdot]
  notAbove := decide_eq_false (blobName_ne (by decide))
  short := h.short
  room := h.room

def manifestName : Text := "manifest.json"

theorem fitsIn_manifestName (hroom : nameSize (directory.join fileName).written ≤ maxPathBytes) :
    FitsIn directory manifestName :=
  ⟨by decide, by decide, by decide, by decide, by decide, hroom⟩

theorem nameBytes_blobName_ne (name : Text) :
    nameBytes (blobName name) ≠ nameBytes manifestName := by
  intro h
  rw [blobName, nameBytes_append] at h
  have hending : nameBytes ".bin" <:+ nameBytes manifestName := h ▸ List.suffix_append _ _
  exact absurd hending (by decide)

theorem nameBytes_blobName_inj {other : Text} :
    nameBytes (blobName name) = nameBytes (blobName other) ↔ nameBytes name = nameBytes other := by
  rw [blobName, blobName, nameBytes_append, nameBytes_append, List.append_cancel_right_eq]

/-! ### The manifest of a registry -/

def entry (e : Text × Artifact) : Text × Json :=
  (e.1, Json.sorted [("path", .str (blobName e.1)), ("image_id", .str e.2.imageId)])

theorem nodup_entry {a b : Json} :
    (Table.keys [(Text.ofString "path", a), (Text.ofString "image_id", b)]).Nodup :=
  (by decide : [Text.ofString "path", Text.ofString "image_id"].Nodup)

theorem get?_path (e : Text × Artifact) : (entry e).2.get? "path" = some (.str (blobName e.1)) :=
  Json.get?_sorted nodup_entry "path"

theorem get?_imageId (e : Text × Artifact) :
    (entry e).2.get? "image_id" = some (.str e.2.imageId) :=
  Json.get?_sorted nodup_entry "image_id"

theorem plain_entry (h : ∀ s ∈ e.1, Nameable s) :
    (entry e).2.Plain host ∧ (entry e).2.height ≤ 1 := by
  have hblob := Text.unpaired_of_nameable (nameable_blobName h)
  have hvalues : ∀ m ∈ [(Text.ofString "path", Json.str (blobName e.1)),
      (Text.ofString "image_id", Json.str e.2.imageId)], m.2.Plain host ∧ m.2.height ≤ 0 := by
    intro m hm
    rcases List.mem_pair.1 hm with rfl | rfl
    · exact ⟨.str hblob, by simp [Json.height]⟩
    · exact ⟨.str (Text.unpaired_hex _), by simp [Json.height]⟩
  refine ⟨.sorted nodup_entry (fun m hm => ?_) fun m hm => (hvalues m hm).1,
    Json.height_sorted_le fun m hm => (hvalues m hm).2⟩
  rcases List.mem_pair.1 hm with rfl | rfl <;> exact Text.unpaired_ofString _

/-- The registry with its artifacts in the order of their names. -/
def inOrder (r : Registry) : Registry :=
  ⟨r.artifacts.mergeSort fun a b => !b.1.precedes a.1⟩

theorem perm_inOrder (r : Registry) : r.inOrder.artifacts.Perm r.artifacts :=
  List.mergeSort_perm _ _

theorem nodup_inOrder (h : r.names.Nodup) : r.inOrder.names.Nodup :=
  (r.perm_inOrder.map Prod.fst).nodup_iff.2 h

/-- The registry with the given bytes in place of its artifacts. -/
def withBlobs (r : Registry) (blobs : Text × Artifact → Bytes) : Registry :=
  ⟨r.artifacts.map fun e => (e.1, ⟨e.1, blobs e⟩)⟩

theorem names_withBlobs (r : Registry) (blobs : Text × Artifact → Bytes) :
    (r.withBlobs blobs).names = r.names :=
  List.map_map

theorem lookup?_withBlobs (h : r.names.Nodup) (he : e ∈ r.artifacts)
    (blobs : Text × Artifact → Bytes) :
    (r.inOrder.withBlobs blobs).lookup? e.1 = some ⟨e.1, blobs e⟩ := by
  have hnodup : (r.inOrder.withBlobs blobs).names.Nodup := by
    rw [names_withBlobs]
    exact nodup_inOrder h
  exact Table.get?_of_mem hnodup (List.mem_map_of_mem (r.perm_inOrder.mem_iff.2 he))

theorem withBlobs_self (h : ∀ e ∈ r.artifacts, e.2.name = e.1) :
    r.withBlobs (fun e => e.2.blob) = r := by
  have hself : r.artifacts.map (fun e => (e.1, (⟨e.1, e.2.blob⟩ : Artifact))) =
      r.artifacts.map id :=
    List.map_congr_left fun ⟨key, a⟩ he => by
      obtain rfl : a.name = key := h _ he
      rfl
  rw [withBlobs, hself, List.map_id]

/-- The bytes of the artifacts of a registry, with other bytes under one name. -/
def replaced (name : Text) (b : Bytes) (e : Text × Artifact) : Bytes :=
  if e.1 = name then b else e.2.blob

theorem manifest_eq (r : Registry) :
    r.manifest = .obj [("circuits", .obj (r.inOrder.artifacts.map entry))] := by
  have hentries : (r.artifacts.map entry).mergeSort (fun a b => !b.1.precedes a.1) =
      r.inOrder.artifacts.map entry :=
    (List.map_mergeSort (f := entry) fun _ _ _ _ => rfl).symm
  rw [← hentries]
  rfl

theorem plain_manifest (hnodup : r.names.Nodup)
    (hnames : ∀ name ∈ r.names, ∀ s ∈ name, Nameable s) :
    r.manifest.Plain host ∧ r.manifest.height ≤ 3 := by
  have hkeys : Table.keys (r.artifacts.map entry) = r.names := List.map_map
  have hentries : ∀ m ∈ r.artifacts.map entry,
      Text.Unpaired m.1 ∧ m.2.Plain host ∧ m.2.height ≤ 1 := by
    intro m hm
    obtain ⟨e, he, rfl⟩ := List.mem_map.1 hm
    have hname := hnames e.1 (List.mem_map_of_mem he)
    exact ⟨Text.unpaired_of_nameable hname, plain_entry hname⟩
  have hcircuits : (Json.sorted (r.artifacts.map entry)).Plain host :=
    .sorted (hkeys ▸ hnodup) (fun m hm => (hentries m hm).1) fun m hm => (hentries m hm).2.1
  have hheight : (Json.sorted (r.artifacts.map entry)).height ≤ 2 :=
    Json.height_sorted_le fun m hm => (hentries m hm).2.2
  refine ⟨.obj (List.nodup_singleton _) ?_ ?_, Json.height_obj_le ?_⟩ <;>
    refine List.forall_mem_singleton.2 ?_
  · exact Text.unpaired_ofString "circuits"
  · exact hcircuits
  · exact hheight

/-! ### Directories that a registry is stored in -/

/-- Whether a directory holds the manifest of a registry, and in the file of each artifact the given
bytes. -/
structure Stored (t : FileTree) (directory : Path) (l : Location) (r : Registry)
    (blobs : Text × Artifact → Bytes) : Prop where
  leads : t.LeadsTo directory l
  stems : ∀ e ∈ r.artifacts, IsStem directory e.1
  room : nameSize (directory.join fileName).written ≤ maxPathBytes
  manifest : t.node? (l ++ [listed manifestName]) =
    some (.file (Encoding.encodeUtf8 r.manifest.indented))
  blobs : ∀ e ∈ r.artifacts, t.node? (l ++ [listed (blobName e.1)]) = some (.file (blobs e))

namespace Stored

/-- Both the path of the manifest and that of the directory stand for the manifest. -/
theorem locate_eq (h : Stored t directory l r blobs)
    (hp : p ∈ [directory.join fileName, directory]) :
    Manifest.locate t p = .ok (directory.join fileName) := by
  rcases List.mem_pair.1 hp with rfl | rfl
  · have hfile : t.isDirectory (directory.join fileName) = .ok false :=
      h.leads.isDirectory_file (fitsIn_manifestName h.room) h.manifest
    rw [Manifest.locate, hfile]
    rfl
  · rw [Manifest.locate, h.leads.isDirectory_eq]
    rfl

theorem lists (h : Stored t directory l r blobs) (hnodup : r.names.Nodup) :
    Lists host t (directory.join fileName) (r.inOrder.artifacts.map entry) := by
  have hdocument : r.manifest.Plain host ∧ _ := plain_manifest hnodup fun name hname => by
    obtain ⟨e, he, rfl⟩ := List.mem_map.1 hname
    exact (h.stems e he).nameable
  obtain ⟨hplain, hheight⟩ := hdocument
  have hread := h.leads.read_file (fitsIn_manifestName h.room) h.manifest
  have hholds : Holds host t (directory.join fileName) r.manifest :=
    ⟨_, ⟨_, hread, Json.fileText?_indented hplain⟩,
      Json.read_indented hplain (Nat.le_trans hheight (Nat.le_trans (by decide) host.nesting_ge))⟩
  rw [manifest_eq] at hholds
  exact ⟨_, hholds, .inl rfl⟩

theorem loads (h : Stored t directory l r blobs) (he : e ∈ r.artifacts)
    (hhash : Sha256.hash (blobs e) = Sha256.hash e.2.blob) :
    Loads t directory e.1 (entry e).2 ⟨e.1, blobs e⟩ where
  named := rfl
  contents := ⟨_, get?_path e, h.leads.read_file (h.stems e he).fitsIn (h.blobs e he)⟩
  identified := by
    intro id hid
    have hgiven : id = .str e.2.imageId := Option.some.inj (hid.symm.trans (get?_imageId e))
    exact .inr (hgiven.trans (congrArg (fun d => Json.str (Bytes.hex d)) hhash.symm))

/-- An entry is refused if the file of its artifact has another digest. -/
theorem refused (h : Stored t directory l r blobs) (he : e ∈ r.artifacts)
    (hhash : Sha256.hash (blobs e) ≠ Sha256.hash e.2.blob) :
    EntryRefused t directory e.1 (entry e).2
      (.imageMismatch e.1 (.str e.2.imageId) (Artifact.imageId ⟨e.1, blobs e⟩)) := by
  refine .mismatch (get?_path e) (h.leads.read_file (h.stems e he).fitsIn (h.blobs e he))
    (get?_imageId e) nofun fun heq => hhash ?_
  exact (Artifact.hash_eq_of_imageId_eq (Json.str.inj heq)).symm

theorem parent_join_fileName (directory : Path) : (directory.join fileName).parent = directory := by
  rw [fileName, Path.join_ofText (by decide) (by decide), Path.parent, List.dropLast_concat]

/-- If every file has the digest of the one that was stored, the registry with the artifacts in the
files is loaded. -/
theorem ofManifest_eq (h : Stored t directory l r blobs) (hnodup : r.names.Nodup)
    (hhash : ∀ e ∈ r.artifacts, Sha256.hash (blobs e) = Sha256.hash e.2.blob)
    (hp : p ∈ [directory.join fileName, directory]) :
    ofManifest host t p = .ok (r.inOrder.withBlobs blobs) := by
  have hkeys : Table.keys (r.inOrder.artifacts.map entry) = (r.inOrder.withBlobs blobs).names := by
    rw [names_withBlobs]
    exact List.map_map
  refine ofManifest_eq_ok_iff.2 ⟨_, _, h.locate_eq hp, h.lists hnodup, hkeys.symm, fun m hm => ?_⟩
  obtain ⟨e, he, rfl⟩ := List.mem_map.1 hm
  have hmem := r.perm_inOrder.mem_iff.1 he
  rw [parent_join_fileName]
  exact ⟨_, lookup?_withBlobs hnodup hmem blobs, h.loads hmem (hhash e hmem)⟩

/-- Replacing the file of one artifact leaves the manifest and the other files as they were. -/
theorem exists_write (h : Stored t directory l r fun e => e.2.blob)
    (hdistinct : (r.names.map nameBytes).Nodup) (hname : name ∈ r.names) (b : Bytes) :
    ∃ t', t.write (directory.join (.ofText (blobName name))) b = .ok t' ∧
      Stored t' directory l r (replaced name b) := by
  obtain ⟨e, he, rfl⟩ := List.mem_map.1 hname
  have hfree : t.node? (l ++ [listed (blobName e.1)]) ≠ some .directory := by
    rw [h.blobs e he]
    nofun
  obtain ⟨t', hwrite, hleads, hputs⟩ := h.leads.exists_write (h.stems e he).fitsIn hfree b
  have hother {file : Text} (hfile : nameBytes file ≠ nameBytes (blobName e.1)) :
      t'.node? (l ++ [listed file]) = t.node? (l ++ [listed file]) :=
    hputs.others _ fun heq => hfile (concat_listed_eq_iff.1 heq)
  refine ⟨t', hwrite, hleads, h.stems, h.room, ?_, fun e' he' => ?_⟩
  · rw [hother (nameBytes_blobName_ne e.1).symm, h.manifest]
  · rw [replaced]
    split_ifs with hsame
    · rw [hsame, hputs.written]
    · have hname' : nameBytes e'.1 ≠ nameBytes e.1 := fun heq =>
        hsame (List.inj_on_of_nodup_map hdistinct (List.mem_map_of_mem he') hname heq)
      rw [hother fun heq => hname' (nameBytes_blobName_inj.1 heq), h.blobs e' he']

section Replaced

variable {a : Artifact} {b : Bytes}

theorem hash_replaced (hnodup : r.names.Nodup) (ha : r.lookup? name = some a)
    (hhash : Sha256.hash b = Sha256.hash a.blob) (he : e ∈ r.artifacts) :
    Sha256.hash (replaced name b e) = Sha256.hash e.2.blob := by
  rw [replaced]
  split_ifs with hsame
  · obtain rfl : e.2 = a := by
      have hget := Table.get?_of_mem hnodup he
      rw [hsame] at hget
      exact Option.some.inj (hget.symm.trans ha)
    exact hhash
  · rfl

/-- A registry whose artifact was replaced by one with the same digest is loaded with that one. -/
theorem exists_ofManifest (h : Stored t directory l r (replaced name b)) (hnodup : r.names.Nodup)
    (ha : r.lookup? name = some a) (hhash : Sha256.hash b = Sha256.hash a.blob)
    (hp : p ∈ [directory.join fileName, directory]) :
    ∃ r', ofManifest host t p = .ok r' ∧ r'.lookup? name = some ⟨name, b⟩ := by
  refine ⟨_, h.ofManifest_eq hnodup (fun e he => hash_replaced hnodup ha hhash he) hp, ?_⟩
  have hfound := lookup?_withBlobs hnodup (Table.mem_of_get? ha) (replaced name b)
  rwa [replaced, if_pos rfl] at hfound

/-- If one file has another digest than the one that was stored, that is the error. -/
theorem ofManifest_eq_error (h : Stored t directory l r (replaced name b)) (hnodup : r.names.Nodup)
    (ha : r.lookup? name = some a) (hhash : Sha256.hash b ≠ Sha256.hash a.blob)
    (hp : p ∈ [directory.join fileName, directory]) : ofManifest host t p =
      .error (.imageMismatch name (.str a.imageId) (Artifact.imageId ⟨name, b⟩)) := by
  have hsorted := nodup_inOrder hnodup
  have he : (name, a) ∈ r.artifacts := Table.mem_of_get? ha
  -- The entries before the one of the replaced file describe their artifacts, so it is the first to
  -- fail.
  obtain ⟨earlier, later, hsplit⟩ := List.append_of_mem (r.perm_inOrder.mem_iff.2 he)
  have hlists : Lists host t _ _ := h.lists hnodup
  rw [hsplit, List.map_append, List.map_cons] at hlists
  refine ofManifest_of_refused (.entry (h.locate_eq hp) hlists (fun m hm => ?_) ?_)
  · obtain ⟨e, he', rfl⟩ := List.mem_map.1 hm
    have hmem : e ∈ r.artifacts := r.perm_inOrder.mem_iff.1 (hsplit ▸ List.mem_append_left _ he')
    have hne : e.1 ≠ name := by
      rw [names, Table.keys, hsplit, List.map_append, List.map_cons, List.nodup_append] at hsorted
      exact hsorted.2.2 _ (List.mem_map_of_mem he') _ (List.mem_cons_self ..)
    rw [parent_join_fileName]
    exact ⟨_, h.loads hmem (by rw [replaced, if_neg hne])⟩
  · have hblob : replaced name b (name, a) = b := if_pos rfl
    have hrefused := h.refused he (by rwa [hblob])
    rw [hblob] at hrefused
    rwa [parent_join_fileName]

end Replaced

end Stored

/-! ### Exporting -/

/-- Whether a registry can be exported to a directory: the directory is there and empty, the names
can stand in the names of files, and they name different files. -/
structure Exportable (r : Registry) (t : FileTree) (directory : Path) : Prop where
  empty : t.EmptyAt directory
  stems : ∀ name ∈ r.names, IsStem directory name
  distinct : (r.names.map nameBytes).Nodup
  room : nameSize (directory.join fileName).written ≤ maxPathBytes

/-- Exporting writes the files of all artifacts, and the manifest. -/
theorem Exportable.exists_exportTo (h : r.Exportable t directory) :
    ∃ t' l, r.exportTo t directory = .ok (t', directory.join fileName) ∧
      Stored t' directory l r fun e => e.2.blob := by
  obtain ⟨l, hleads, hnothing⟩ := h.empty
  have hstems : ∀ e ∈ r.artifacts, IsStem directory e.1 := fun e he =>
    h.stems e.1 (List.mem_map_of_mem he)
  have hmanifest := fitsIn_manifestName h.room
  have hdistinct : (r.artifacts.map fun e => nameBytes (blobName e.1)).Nodup := by
    have hendings := h.distinct.map fun a b (heq : a ++ nameBytes ".bin" = b ++ nameBytes ".bin") =>
      List.append_cancel_right heq
    simpa [names, Table.keys, blobName, Function.comp_def] using hendings
  obtain ⟨t₁, hblobs, hleads₁, hfiles, hothers⟩ := hleads.exists_foldlM_write
    (fun e => blobName e.1) (fun e => e.2.blob) (fun e he => (hstems e he).fitsIn)
    (fun e he => (hstems e he).fitsIn.node?_ne_directory hnothing) hdistinct
  have hapart : ∀ e ∈ r.artifacts, l ++ [listed manifestName] ≠ l ++ [listed (blobName e.1)] :=
    fun e _ heq => nameBytes_blobName_ne e.1 (concat_listed_eq_iff.1 heq).symm
  obtain ⟨t', hwrite, hleads', hputs⟩ := hleads₁.exists_write hmanifest
    (by rw [hothers _ hapart]; exact hmanifest.node?_ne_directory hnothing)
    (Encoding.encodeUtf8 r.manifest.indented)
  refine ⟨t', l, ?_, hleads', hstems, h.room, hputs.written, fun e he => ?_⟩
  · rw [exportTo, hleads.makeDirectory_eq, ok_bind, hblobs, ok_bind]
    exact bind_eq_ok.2 ⟨t', hwrite, rfl⟩
  · rw [hputs.others _ (hapart e he).symm, hfiles e he]

theorem named_of_ofEntries {entries : List (Text × Artifact)} (h : ofEntries entries = .ok r) :
    ∀ e ∈ r.artifacts, e.2.name = e.1 := by
  simp only [ofEntries] at h
  split at h
  · cases h
  · next hnone =>
    cases h
    simpa [List.find?_eq_none] using hnone

/-- A registry that is exported to an empty directory is loaded again, from the manifest and from
the directory: with the same names, and under each name with the same artifact and image id. If
afterwards the file of an artifact is replaced, the registry is still loaded if the new contents
have the same digest; otherwise the manifest is refused for the image id under that name. -/
theorem reload_of_exportTo (host : Host) {entries : List (Text × Artifact)}
    (hr : ofEntries entries = .ok r)
    (h : r.Exportable t directory) :
    ∃ t' manifest, r.exportTo t directory = .ok (t', manifest) ∧
      (∀ p ∈ [manifest, directory], ∃ r', ofManifest host t' p = .ok r' ∧ r'.names.Perm r.names ∧
        r'.imageIds.Perm r.imageIds ∧ ∀ name, r'.lookup? name = r.lookup? name) ∧
      ∀ name a b, r.lookup? name = some a →
        ∃ t'', t'.write (directory.join (.ofText (blobName name))) b = .ok t'' ∧
          ∀ p ∈ [manifest, directory],
            (Sha256.hash b = Sha256.hash a.blob → ∃ r', ofManifest host t'' p = .ok r' ∧
              r'.lookup? name = some ⟨name, b⟩) ∧
            (Sha256.hash b ≠ Sha256.hash a.blob → ∃ e, ofManifest host t'' p = .error e ∧
              e = .imageMismatch name (.str a.imageId) (Artifact.imageId ⟨name, b⟩) ∧
              (Failure.manifest e).isReported = true) := by
  have hnamed := named_of_ofEntries hr
  have hnodup : r.names.Nodup := h.distinct.of_map
  have hperm := r.perm_inOrder
  obtain ⟨t', l, hexport, hstored⟩ := h.exists_exportTo
  refine ⟨t', _, hexport, fun p hp => ⟨r.inOrder, ?_, hperm.map _, hperm.map _, fun name => ?_⟩,
    fun name a b ha => ?_⟩
  · rw [hstored.ofManifest_eq hnodup (fun _ _ => rfl) hp,
      withBlobs_self fun e he => hnamed e (hperm.mem_iff.1 he)]
  · exact (Table.get?_perm hnodup hperm.symm name).symm
  · have hname : name ∈ r.names := List.mem_map_of_mem (Table.mem_of_get? ha)
    obtain ⟨t'', hwrite, hreplaced⟩ := hstored.exists_write h.distinct hname b
    refine ⟨t'', hwrite, fun p hp => ⟨fun hhash => ?_, fun hhash => ?_⟩⟩
    · exact hreplaced.exists_ofManifest hnodup ha hhash hp
    · exact ⟨_, hreplaced.ofManifest_eq_error hnodup ha hhash hp, rfl, rfl⟩

/-- The names of these artifacts are written with escapes in the manifest, and the second comes
first there. -/
theorem reload_of_exportTo_two :
    ∃ t' manifest,
      exportTo ⟨[("é", ⟨"é", [0x01]⟩), ("\n", ⟨"\n", []⟩)]⟩ ⟨[(["out"], .directory)]⟩
        (.ofText "out") = .ok (t', manifest) ∧
      ∀ p ∈ [manifest, .ofText "out"], ∃ r', ofManifest .standard t' p = .ok r' ∧
        r'.lookup? "é" = some ⟨"é", [0x01]⟩ := by
  have hleads : LeadsTo ⟨[(["out"], .directory)]⟩ (.ofText "out") ["out"] :=
    ⟨by decide +kernel, by decide +kernel⟩
  have hstems : ∀ name ∈ [Text.ofString "é", Text.ofString "\n"], IsStem (.ofText "out") name := by
    intro name hname
    rcases List.mem_pair.1 hname with rfl | rfl <;>
      exact ⟨by decide, by decide, by decide, by decide +kernel⟩
  have hexportable : Exportable ⟨[("é", ⟨"é", [0x01]⟩), ("\n", ⟨"\n", []⟩)]⟩
      ⟨[(["out"], .directory)]⟩ (.ofText "out") :=
    ⟨⟨_, hleads, by simp [Table.keys]⟩, hstems, by decide, by decide +kernel⟩
  have hregistry : ofEntries [("é", ⟨"é", [0x01]⟩), ("\n", ⟨"\n", []⟩)] =
      .ok ⟨[("é", ⟨"é", [0x01]⟩), ("\n", ⟨"\n", []⟩)]⟩ := rfl
  obtain ⟨t', manifest, hexport, hreload, -⟩ := reload_of_exportTo .standard hregistry hexportable
  refine ⟨t', manifest, hexport, fun p hp => ?_⟩
  obtain ⟨r', hload, -, -, hlookup⟩ := hreload p hp
  exact ⟨r', hload, hlookup "é"⟩

end Registry

end CircuitReceipts
