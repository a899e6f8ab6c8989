import CircuitReceipts.Proofs.Json.Sorted
import CircuitReceipts.Proofs.Success
import CircuitReceipts.Receipt.Verification

/-!
# Seals are read back

The document of a seal is plain, so it is read back from its bytes, and reading its fields gives the
seal that was written.
-/

namespace CircuitReceipts

theorem Json.plain_of_integer? {j : Json} {n : Int} (h : j.integer? = some n) :
    j.Plain .lifted ∧ j.height = 0 := by
  cases j with
  | int n => exact ⟨.int (Host.lifted_writes n), by simp [height]⟩
  | bool b => exact ⟨.bool b, by simp [height]⟩
  | _ => simp [integer?] at h

namespace Opening

def members (o : Opening) : List (Text × Json) :=
  [("index", .int o.index), ("leaf", .str o.leaf.hex),
    ("mp", .arr (o.path.map fun level => .arr (level.map fun d => .str d.hex)))]

def names : List Text := ["index", "leaf", "mp"].map Text.ofString

theorem keys_members (o : Opening) : Table.keys o.members = names := rfl

theorem nodup_members (o : Opening) : (Table.keys o.members).Nodup := by
  rw [keys_members]
  decide

theorem unpaired_of_mem_members (o : Opening) : ∀ m ∈ o.members, Text.Unpaired m.1 := by
  intro m hm
  have hkey : m.1 ∈ Table.keys o.members := List.mem_map_of_mem hm
  rw [keys_members] at hkey
  exact Text.unpaired_of_mem_map hkey

theorem bytes?_hex (b : Bytes) : (Json.str b.hex).bytes? = some b :=
  Bytes.ofHex?_hex b

theorem level?_arr (level : List Bytes) :
    level? (.arr (level.map fun d => .str d.hex)) = some level :=
  mapM_map_eq_some bytes?_hex level

theorem ofJson?_toJson (o : Opening) : ofJson? o.toJson = some o := by
  have hget (key : Text) : o.toJson.get? key = Table.get? key o.members :=
    Json.get?_sorted o.nodup_members key
  have hindex : o.toJson.get? "index" = some (.int o.index) := hget _
  have hleaf : o.toJson.get? "leaf" = some (.str o.leaf.hex) := hget _
  have hpath : o.toJson.get? "mp" =
      some (.arr (o.path.map fun level => .arr (level.map fun d => .str d.hex))) := hget _
  have hlevels := mapM_map_eq_some level?_arr o.path
  rw [ofJson?, hindex, hleaf, hpath]
  simp only [Option.bind_eq_bind, Option.bind_some, Json.integer?, bytes?_hex, Json.elements?,
    hlevels]
  rfl

theorem plain_path (path : List (List Bytes)) :
    (Json.arr (path.map fun level => .arr (level.map fun d => .str d.hex))).Plain .lifted ∧
      (Json.arr (path.map fun level => .arr (level.map fun d => .str d.hex))).height ≤ 2 := by
  have hdigest : ∀ level : List Bytes, ∀ j ∈ level.map (fun d => Json.str d.hex),
      j.Plain .lifted ∧ j.height ≤ 0 := by
    intro level j hj
    obtain ⟨d, -, rfl⟩ := List.mem_map.1 hj
    exact ⟨.str (Text.unpaired_hex d), by simp [Json.height]⟩
  have hlevel : ∀ j ∈ path.map (fun level => Json.arr (level.map fun d => .str d.hex)),
      j.Plain .lifted ∧ j.height ≤ 1 := by
    intro j hj
    obtain ⟨level, -, rfl⟩ := List.mem_map.1 hj
    exact ⟨.arr fun j hj => (hdigest level j hj).1,
      Json.height_arr_le fun j hj => (hdigest level j hj).2⟩
  exact ⟨.arr fun j hj => (hlevel j hj).1, Json.height_arr_le fun j hj => (hlevel j hj).2⟩

theorem plain_toJson (o : Opening) : o.toJson.Plain .lifted ∧ o.toJson.height ≤ 3 := by
  have hvalues : ∀ m ∈ o.members, m.2.Plain .lifted ∧ m.2.height ≤ 2 := by
    intro m hm
    simp only [members, List.mem_cons, List.not_mem_nil, or_false] at hm
    rcases hm with rfl | rfl | rfl
    · exact ⟨.int (Host.lifted_writes _), by simp [Json.height]⟩
    · exact ⟨.str (Text.unpaired_hex _), by simp [Json.height]⟩
    · exact plain_path o.path
  exact ⟨.sorted o.nodup_members o.unpaired_of_mem_members fun m hm => (hvalues m hm).1,
    Json.height_sorted_le fun m hm => (hvalues m hm).2⟩

end Opening

namespace Seal

def members (o : ProverOptions) (po2 : Json) (imageId : Text) (journalDigest : Bytes)
    (userCycles : Nat) (traceRoot : Bytes) (openings : List Opening) : List (Text × Json) :=
  [("version", .int sealVersion), ("hashfn", .str o.hash.name), ("merkle_arity", o.arity),
    ("n_queries", o.queries), ("image_id", .str imageId),
    ("journal_digest", .str journalDigest.hex), ("user_cycles", .int userCycles),
    ("po2", po2), ("trace_root", .str traceRoot.hex),
    ("openings", .arr (openings.map Opening.toJson))]

variable {o : ProverOptions} {po2 : Json} {imageId : Text} {journalDigest : Bytes}
  {userCycles : Nat} {traceRoot : Bytes} {openings : List Opening}

def names : List Text :=
  ["version", "hashfn", "merkle_arity", "n_queries", "image_id", "journal_digest", "user_cycles",
    "po2", "trace_root", "openings"].map Text.ofString

theorem keys_members :
    Table.keys (members o po2 imageId journalDigest userCycles traceRoot openings) = names := rfl

theorem nodup_members :
    (Table.keys (members o po2 imageId journalDigest userCycles traceRoot openings)).Nodup := by
  rw [keys_members]
  decide

theorem unpaired_of_mem_members :
    ∀ m ∈ members o po2 imageId journalDigest userCycles traceRoot openings, Text.Unpaired m.1 := by
  intro m hm
  have hkey : m.1 ∈ Table.keys
      (members o po2 imageId journalDigest userCycles traceRoot openings) :=
    List.mem_map_of_mem hm
  rw [keys_members] at hkey
  exact Text.unpaired_of_mem_map hkey

/-- The document of a seal is plain and holds five containers inside each other. -/
theorem plain_document {queries arityNumber exponent : Int}
    (hqueries : o.queries.integer? = some queries) (harity : o.arity.integer? = some arityNumber)
    (hpo2 : po2.integer? = some exponent) (hid : imageId.Unpaired) :
    (document o po2 imageId journalDigest userCycles traceRoot openings).Plain .lifted ∧
      (document o po2 imageId journalDigest userCycles traceRoot openings).height ≤ 5 := by
  have hname : o.hash.name.Unpaired := by
    cases o.hash <;> exact Text.unpaired_ofString _
  have hnumber {j : Json} {n : Int} (h : j.integer? = some n) : j.Plain .lifted ∧ j.height ≤ 4 := by
    obtain ⟨hj, hheight⟩ := Json.plain_of_integer? h
    exact ⟨hj, by omega⟩
  have htext {t : Text} (ht : t.Unpaired) : (Json.str t).Plain .lifted ∧ (Json.str t).height ≤ 4 :=
    ⟨.str ht, by simp [Json.height]⟩
  have hopenings : (Json.arr (openings.map Opening.toJson)).Plain .lifted ∧
      (Json.arr (openings.map Opening.toJson)).height ≤ 4 := by
    have hitem : ∀ j ∈ openings.map Opening.toJson, j.Plain .lifted ∧ j.height ≤ 3 := by
      intro j hj
      obtain ⟨opening, -, rfl⟩ := List.mem_map.1 hj
      exact opening.plain_toJson
    exact ⟨.arr fun j hj => (hitem j hj).1, Json.height_arr_le fun j hj => (hitem j hj).2⟩
  have hvalues : ∀ m ∈ members o po2 imageId journalDigest userCycles traceRoot openings,
      m.2.Plain .lifted ∧ m.2.height ≤ 4 := by
    intro m hm
    simp only [members, List.mem_cons, List.not_mem_nil, or_false] at hm
    rcases hm with rfl | rfl | rfl | rfl | rfl | rfl | rfl | rfl | rfl | rfl
    · exact hnumber (j := .int sealVersion) rfl
    · exact htext hname
    · exact hnumber harity
    · exact hnumber hqueries
    · exact htext hid
    · exact htext (Text.unpaired_hex _)
    · exact hnumber (j := .int userCycles) rfl
    · exact hnumber hpo2
    · exact htext (Text.unpaired_hex _)
    · exact hopenings
  exact ⟨.sorted nodup_members unpaired_of_mem_members fun m hm => (hvalues m hm).1,
    Json.height_sorted_le fun m hm => (hvalues m hm).2⟩

/-- A seal is read back from the bytes of its document. -/
theorem ofBytes_document {queries arityNumber exponent : Int} {arity : Arity}
    (hqueries : o.queries.integer? = some queries) (hrange : 1 ≤ queries ∧ queries ≤ maxQueries)
    (harity : o.arity.integer? = some arityNumber) (hsize : Arity.ofInt? arityNumber = some arity)
    (hpo2 : po2.integer? = some exponent) (hid : imageId.Unpaired) (hcycles : 0 < userCycles) :
    Seal.ofBytes (Encoding.encodeUtf8
        (document o po2 imageId journalDigest userCycles traceRoot openings).compact) =
      .ok ⟨o.hash, arity, queries, imageId, journalDigest.hex, userCycles, exponent, traceRoot,
        openings⟩ := by
  have hdocument :
      (document o po2 imageId journalDigest userCycles traceRoot openings).Plain .lifted ∧
      (document o po2 imageId journalDigest userCycles traceRoot openings).height ≤ 5 :=
    plain_document hqueries harity hpo2 hid
  have hget (key : Text) :
      (document o po2 imageId journalDigest userCycles traceRoot openings).get? key =
        Table.get? key (members o po2 imageId journalDigest userCycles traceRoot openings) :=
    Json.get?_sorted nodup_members key
  have hobject : ofJson (document o po2 imageId journalDigest userCycles traceRoot openings) =
      ofObject (document o po2 imageId journalDigest userCycles traceRoot openings) := rfl
  have hopenings : (openings.map Opening.toJson).mapM Opening.ofJson? = some openings :=
    mapM_map_eq_some Opening.ofJson?_toJson openings
  rw [ofBytes, Json.ofBytes_compact hdocument.1 (Nat.le_trans hdocument.2 Host.lifted.nesting_ge)]
  generalize document o po2 imageId journalDigest userCycles traceRoot openings = j at *
  -- Each field is found under its name.
  have hinteger {name : Text} {field : Json} {n : Int} (hfield : Table.get? name
      (members o po2 imageId journalDigest userCycles traceRoot openings) = some field)
      (hn : field.integer? = some n) : integer j name = .ok n := by
    rw [integer, hget, hfield, Option.bind_some, hn]
  have htext {name t : Text} (hfield : Table.get? name
      (members o po2 imageId journalDigest userCycles traceRoot openings) = some (.str t)) :
      text j name = .ok t := by
    rw [text, hget, hfield]
    rfl
  have hversion : integer j "version" = .ok sealVersion := hinteger rfl rfl
  have hhash : text j "hashfn" = .ok o.hash.name := htext rfl
  have harity' : integer j "merkle_arity" = .ok arityNumber := hinteger rfl harity
  have hqueries' : integer j "n_queries" = .ok queries := hinteger rfl hqueries
  have hid' : text j "image_id" = .ok imageId := htext rfl
  have hdigest : text j "journal_digest" = .ok journalDigest.hex := htext rfl
  have hcycles' : integer j "user_cycles" = .ok userCycles := hinteger rfl rfl
  have hpo2' : integer j "po2" = .ok exponent := hinteger rfl hpo2
  have hroot : text j "trace_root" = .ok traceRoot.hex := htext rfl
  have hitems : items j "openings" = .ok (openings.map Opening.toJson) := by
    rw [items, hget]
    rfl
  have hpositive : ¬((userCycles : Int) < 1 ∨ queries < 1) := by omega
  have hfew : ¬(maxQueries : Int) < queries := by omega
  simp only [hobject, ofObject, hversion, hhash, harity', hqueries', hid', hdigest, hcycles', hpo2',
    hroot, hitems, ok_bind, HashName.ofName?_name, hsize, hopenings, Bytes.ofHex?_hex,
    if_neg hpositive, if_neg hfew]
  rfl

end Seal

end CircuitReceipts
