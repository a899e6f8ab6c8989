import CircuitReceipts.Proofs.FileTree.Name
import CircuitReceipts.Proofs.Success
import CircuitReceipts.Proofs.Table

/-!
# Files in a directory

A path that leads to a directory leads on to the files in it, one for each text that can be the name
of a file there. Writing such a file leaves every other node as it is, and all directories where
they are, so several files can be written one after another and read back in the end.
-/

namespace CircuitReceipts

namespace Path

variable {directory : Path} {file : Text} {s : Symbol}

theorem join_ofText (hslash : .char '/' ∉ file) (hsame : isSame file = false) :
    directory.join (.ofText file) = ⟨directory.root, directory.names ++ [file]⟩ := by
  have hroot : rootOf file = [] := by
    unfold rootOf
    split <;> first | rfl | simp at hslash
  rw [ofText, hroot, Text.splitOn_of_not_mem hslash, List.filter_singleton, hsame]
  rfl

/-- The path of a name in a directory is written like the directory, but for slashes, with the name
at the end. -/
theorem exists_written_concat (p : Path) (name : Text) :
    ∃ start : Text, (⟨p.root, p.names ++ [name]⟩ : Path).written = start ++ name ∧
      ∀ s ∈ start, s ∈ p.written ∨ s = .char '/' := by
  obtain ⟨root, names⟩ := p
  have hwritten : (⟨root, names ++ [name]⟩ : Path).written =
      root ++ Text.join "/" (names ++ [name]) := by
    simp [written]
  rw [hwritten]
  cases names with
  | nil =>
    refine ⟨root, by rw [List.nil_append, Text.join_singleton], fun s hs => .inl ?_⟩
    have hne : root ≠ [] := List.ne_nil_of_mem hs
    simpa [written, hne, Text.join_nil] using hs
  | cons first rest =>
    refine ⟨root ++ Text.join "/" (first :: rest) ++ "/", ?_, fun s hs => ?_⟩
    · rw [Text.join_concat (List.cons_ne_nil _ _)]
      simp only [List.append_assoc]
    · rcases List.mem_append.1 hs with hs | hs
      · exact .inl (by simpa [written] using hs)
      · exact .inr (List.mem_singleton.1 hs)

end Path

namespace FileTree

variable {t t' : FileTree} {directory : Path} {l k next : Location} {name file path : Text}
  {names : List Text} {b : Bytes} {s : Symbol}

/-! ### Names -/

/-- Whether a symbol may stand in the path of a file: it is not zero, and if it is a surrogate, it
stands for a byte. -/
def Nameable : Symbol → Prop
  | .char c => c ≠ '\x00'
  | .surrogate k => 0x480 ≤ k.val ∧ k.val < 0x500

instance : DecidablePred Nameable
  | .char _ => inferInstanceAs (Decidable (_ ≠ _))
  | .surrogate _ => inferInstanceAs (Decidable (_ ∧ _))

theorem checkPath_eq_ok_iff :
    checkPath path = .ok () ↔ (∀ s ∈ path, Nameable s) ∧ nameSize path ≤ maxPathBytes := by
  simp only [checkPath, throw_bind, guard_eq_ok, guard_throw_eq_ok, pure_eq_ok, List.any_eq_true,
    List.contains_iff_mem, not_exists, not_and, Bool.not_eq_true, Nat.not_lt, and_true]
  constructor
  · rintro ⟨hbytes, hzero, hsize⟩
    refine ⟨fun s hs => ?_, hsize⟩
    have hbyte := hbytes s hs
    cases s with
    | char c => exact fun h => hzero (h ▸ hs)
    | surrogate k => simpa [Nameable] using hbyte
  · rintro ⟨hpath, hsize⟩
    refine ⟨fun s hs => ?_, fun h => hpath _ h rfl, hsize⟩
    have hname := hpath s hs
    cases s with
    | char c => rfl
    | surrogate k => simpa [Nameable] using hname

/-- Whether a text can be the name of a file in the directory at a path. -/
structure FitsIn (directory : Path) (file : Text) : Prop where
  slash : .char '/' ∉ file
  nameable : ∀ s ∈ file, Nameable s
  notSame : Path.isSame file = false
  notAbove : Path.isAbove file = false
  short : nameSize file ≤ maxNameBytes
  room : nameSize (directory.join (.ofText file)).written ≤ maxPathBytes

/-- The byte of a slash is in the bytes of no other symbol. -/
theorem eq_slash_of_mem (hs : Nameable s) (h : 0x2F ∈ symbolNameBytes s) : s = .char '/' := by
  have hbyte {n : Nat} (h : (0x2F : UInt8) = UInt8.ofNat n) : n % 256 = 0x2F := by
    have hnat := congrArg UInt8.toNat h
    rw [UInt8.toNat_ofNat'] at hnat
    exact hnat.symm
  cases s with
  | surrogate k =>
    have hk := hbyte (List.mem_singleton.1 h)
    rw [Nameable] at hs
    omega
  | char c =>
    have hlt := (Symbol.char c).point_lt
    rw [symbolNameBytes_char, Encoding.symbolBytes] at h
    refine Symbol.eq_of_point_eq (?_ : _ = 0x2F)
    -- only a symbol with a single byte has one below 0x80
    split_ifs at h <;> simp only [List.mem_cons, List.not_mem_nil, or_false] at h
    · have := hbyte h
      omega
    · rcases h with h | h <;> have := hbyte h <;> omega
    · rcases h with h | h | h <;> have := hbyte h <;> omega
    · rcases h with h | h | h | h <;> have := hbyte h <;> omega

theorem FitsIn.listed_ne_slash (h : FitsIn directory file) : listed file ≠ Text.ofString "/" := by
  intro hlisted
  have hbytes : nameBytes file = [0x2F] := by
    rw [← nameBytes_listed, hlisted]
    rfl
  have hbyte : (0x2F : UInt8) ∈ nameBytes file := by
    rw [hbytes]
    exact List.mem_singleton_self _
  obtain ⟨s, hs, hmem⟩ := List.mem_flatMap.1 hbyte
  exact h.slash (eq_slash_of_mem (h.nameable s hs) hmem ▸ hs)

/-! ### Walking to a file -/

/-- Whether a path leads to a directory, at the given location. -/
structure LeadsTo (t : FileTree) (directory : Path) (l : Location) : Prop where
  found : t.find directory = .ok l
  isDirectory : t.node? l = some .directory

/-- Whether a path leads to a directory with nothing in it. -/
def EmptyAt (t : FileTree) (directory : Path) : Prop :=
  ∃ l, t.LeadsTo directory l ∧ ∀ name, l ++ [name] ∉ Table.keys t.nodes

theorem FitsIn.ne_top (h : FitsIn directory file) (l : Location) : l ++ [listed file] ≠ top := by
  intro htop
  have hlast := congrArg List.getLast? htop
  rw [List.getLast?_concat] at hlast
  exact h.listed_ne_slash (Option.some.inj hlast)

theorem FitsIn.node?_eq (h : FitsIn directory file) (t : FileTree) (l : Location) :
    t.node? (l ++ [listed file]) = Table.get? (l ++ [listed file]) t.nodes := by
  have hroot : ((l ++ [listed file]).isEmpty || decide (l ++ [listed file] = top)) = false := by
    simp [h.ne_top l]
  rw [node?, hroot]
  rfl

theorem node?_of_step (h : t.step l name = .ok next) : t.node? l = some .directory := by
  rw [step] at h
  split at h
  · cases h
  · cases h
  · assumption

theorem step_congr (h : t.node? l = some .directory) (h' : t'.node? l = some .directory)
    (name : Text) : t'.step l name = t.step l name := by
  rw [step, step, h, h']

theorem locate_cons (t : FileTree) (l : Location) (name : Text) (names : List Text) :
    t.locate l (name :: names) = t.step l name >>= (t.locate · names) :=
  List.foldlM_cons

/-- A walk that ends in a directory begins in one. -/
theorem node?_of_locate (h : t.locate l names = .ok k) (hk : t.node? k = some .directory) :
    t.node? l = some .directory := by
  cases names with
  | nil =>
    cases h
    exact hk
  | cons name names =>
    rw [locate_cons, bind_eq_ok] at h
    obtain ⟨next, hstep, -⟩ := h
    exact node?_of_step hstep

/-- A walk passes through directories only, so it ends in the same place in every tree that has
them. -/
theorem locate_of_directories
    (hkept : ∀ l, t.node? l = some .directory → t'.node? l = some .directory)
    (h : t.locate l names = .ok k) : t'.locate l names = .ok k := by
  induction names generalizing l with
  | nil => exact h
  | cons name names ih =>
    rw [locate_cons, bind_eq_ok] at h ⊢
    obtain ⟨next, hstep, hrest⟩ := h
    have hl := node?_of_step hstep
    exact ⟨next, by rw [step_congr hl (hkept l hl), hstep], ih hrest⟩

theorem LeadsTo.of_directories (h : LeadsTo t directory l)
    (hkept : ∀ l, t.node? l = some .directory → t'.node? l = some .directory) :
    LeadsTo t' directory l := by
  obtain ⟨u, hpath, hlocate⟩ := bind_eq_ok.1 h.found
  exact ⟨bind_eq_ok.2 ⟨u, hpath, locate_of_directories hkept hlocate⟩, hkept l h.isDirectory⟩

theorem checkPath_of_fitsIn (h : checkPath directory.written = .ok ())
    (hf : FitsIn directory file) :
    checkPath (directory.join (.ofText file)).written = .ok () := by
  have hroom := hf.room
  rw [Path.join_ofText hf.slash hf.notSame] at hroom ⊢
  obtain ⟨start, hwritten, hstart⟩ := Path.exists_written_concat directory file
  refine checkPath_eq_ok_iff.2 ⟨fun s hs => ?_, hroom⟩
  rw [hwritten] at hs
  rcases List.mem_append.1 hs with hs | hs
  · rcases hstart s hs with hs | rfl
    · exact (checkPath_eq_ok_iff.1 h).1 s hs
    · decide
  · exact hf.nameable s hs

theorem LeadsTo.find_file (h : LeadsTo t directory l) (hf : FitsIn directory file) :
    t.find (directory.join (.ofText file)) = .ok (l ++ [listed file]) := by
  obtain ⟨⟨⟩, hpath, hlocate⟩ := bind_eq_ok.1 h.found
  have hstep : t.step l file = .ok (l ++ [listed file]) := by
    rw [step, h.isDirectory]
    simp only [hf.notSame, hf.notAbove, Bool.false_eq_true, if_false,
      if_neg (Nat.not_lt.2 hf.short)]
  refine bind_eq_ok.2 ⟨(), checkPath_of_fitsIn hpath hf, ?_⟩
  rw [Path.join_ofText hf.slash hf.notSame, locate, List.foldlM_append]
  exact bind_eq_ok.2 ⟨l, hlocate, bind_eq_ok.2 ⟨_, hstep, rfl⟩⟩

theorem LeadsTo.read_file (h : LeadsTo t directory l) (hf : FitsIn directory file)
    (hfile : t.node? (l ++ [listed file]) = some (.file b)) :
    t.read (directory.join (.ofText file)) = .ok b := by
  rw [read, h.find_file hf, ok_bind, contents, hfile]

theorem LeadsTo.isDirectory_eq (h : LeadsTo t directory l) :
    t.isDirectory directory = .ok true := by
  rw [FileTree.isDirectory, h.found]
  simp only [h.isDirectory, decide_true]

theorem LeadsTo.isDirectory_file (h : LeadsTo t directory l) (hf : FitsIn directory file)
    (hfile : t.node? (l ++ [listed file]) = some (.file b)) :
    t.isDirectory (directory.join (.ofText file)) = .ok false := by
  rw [FileTree.isDirectory, h.find_file hf]
  simp only [hfile]
  rfl

theorem LeadsTo.makeDirectory_eq (h : LeadsTo t directory l) :
    t.makeDirectory directory = .ok t := by
  -- every directory on the way is found where it would be made
  have hmake {k : Location} {names : List Text} (hlocate : t.locate k names = .ok l) :
      t.makeFrom k names = .ok t := by
    induction names generalizing k with
    | nil => rfl
    | cons name names ih =>
      rw [locate_cons, bind_eq_ok] at hlocate
      obtain ⟨next, hstep, hrest⟩ := hlocate
      rw [makeFrom, hstep, ok_bind, node?_of_locate hrest h.isDirectory]
      exact ih hrest
  obtain ⟨⟨⟩, hpath, hlocate⟩ := bind_eq_ok.1 h.found
  exact bind_eq_ok.2 ⟨(), hpath, hmake hlocate⟩

theorem FitsIn.node?_ne_directory (h : FitsIn directory file)
    (hnothing : ∀ name, l ++ [name] ∉ Table.keys t.nodes) :
    t.node? (l ++ [listed file]) ≠ some .directory := by
  rw [h.node?_eq]
  intro hnode
  exact hnothing _ (List.mem_map_of_mem (Table.mem_of_get? hnode))

/-! ### Writing files -/

theorem concat_listed_eq_iff {other : Text} :
    l ++ [listed file] = l ++ [listed other] ↔ nameBytes file = nameBytes other := by
  rw [List.append_cancel_left_eq, List.singleton_inj, listed_eq_iff]

/-- Whether a tree comes from another one by giving a location the contents of a file. -/
structure Puts (t t' : FileTree) (l : Location) (b : Bytes) : Prop where
  written : t'.node? l = some (.file b)
  others : ∀ k, k ≠ l → t'.node? k = t.node? k

theorem FitsIn.puts_put (h : FitsIn directory file) (t : FileTree) (l : Location) (b : Bytes) :
    Puts t ⟨Table.put (l ++ [listed file]) (.file b) t.nodes⟩ (l ++ [listed file]) b := by
  constructor
  · rw [h.node?_eq, Table.get?_put, if_pos rfl]
  · intro k hk
    rw [node?, node?, Table.get?_put, if_neg (Ne.symm hk)]

/-- Writing a file that fits in a directory puts it there, unless a directory stands in its
place. -/
theorem LeadsTo.exists_write (h : LeadsTo t directory l) (hf : FitsIn directory file)
    (hfree : t.node? (l ++ [listed file]) ≠ some .directory) (b : Bytes) :
    ∃ t', t.write (directory.join (.ofText file)) b = .ok t' ∧ LeadsTo t' directory l ∧
      Puts t t' (l ++ [listed file]) b := by
  have hputs := hf.puts_put t l b
  refine ⟨_, ?_, h.of_directories fun k hk => ?_, hputs⟩
  · rw [write, h.find_file hf, ok_bind]
    split
    · contradiction
    · rfl
  · rw [hputs.others k fun heq => hfree (heq ▸ hk), hk]

section

variable {α : Type} {xs : List α}

/-- Files with different names that fit in a directory are written one after another, and stand
there in the end; the other nodes are as they were. -/
theorem LeadsTo.exists_foldlM_write (h : LeadsTo t directory l) (name : α → Text)
    (blob : α → Bytes) (hfits : ∀ x ∈ xs, FitsIn directory (name x))
    (hfree : ∀ x ∈ xs, t.node? (l ++ [listed (name x)]) ≠ some .directory)
    (hdistinct : (xs.map fun x => nameBytes (name x)).Nodup) :
    ∃ t', xs.foldlM (fun t x => t.write (directory.join (.ofText (name x))) (blob x)) t =
        .ok t' ∧ LeadsTo t' directory l ∧
      (∀ x ∈ xs, t'.node? (l ++ [listed (name x)]) = some (.file (blob x))) ∧
      ∀ k, (∀ x ∈ xs, k ≠ l ++ [listed (name x)]) → t'.node? k = t.node? k := by
  -- On the files still to be written. Their places differ, so what is written first is not touched
  -- again, and it is no directory in the way of the others.
  induction xs generalizing t with
  | nil => exact ⟨t, rfl, h, by simp, fun _ _ => rfl⟩
  | cons x xs ih =>
    rw [List.forall_mem_cons] at hfits hfree
    rw [List.map_cons, List.nodup_cons] at hdistinct
    have hother : ∀ y ∈ xs, l ++ [listed (name y)] ≠ l ++ [listed (name x)] := by
      intro y hy heq
      exact hdistinct.1 (List.mem_map.2 ⟨y, hy, concat_listed_eq_iff.1 heq⟩)
    obtain ⟨t₁, hwrite, hleads, hputs⟩ := h.exists_write hfits.1 hfree.1 (blob x)
    obtain ⟨t', hfold, hleads', hwritten, hothers⟩ := ih hleads hfits.2
      (fun y hy => by rw [hputs.others _ (hother y hy)]; exact hfree.2 y hy) hdistinct.2
    refine ⟨t', by rw [List.foldlM_cons, hwrite, ok_bind, hfold], hleads', ?_, fun k hk => ?_⟩
    · refine List.forall_mem_cons.2 ⟨?_, hwritten⟩
      rw [hothers _ fun y hy => (hother y hy).symm, hputs.written]
    · rw [List.forall_mem_cons] at hk
      rw [hothers k hk.2, hputs.others k hk.1]

end

end FileTree

end CircuitReceipts
