import Mathlib.Data.List.Nodup
import Xv6.Mkfs.RoundTrip

/-!
# What the tool packs

When `main` exits with status 0 its image is consistent exactly where there are fewer files than
inode numbers and their names, without directories and cut to what a directory entry holds, are
distinct and not empty. The tool checks neither. It does fail where a file is too long or the image
has too few blocks, and before the wrap-around in its last check could matter.
-/

namespace Xv6.Mkfs

/-! ### Directories -/

/-- What a `struct dirent` says: an inode number and a name that ends where it is padded. -/
def entryOf (de : List UInt8) : Nat × List UInt8 :=
  (Bytes.uint 2 (fun i => de.getD i 0) 0, ((de.drop 2).take dirSiz).takeWhile (· ≠ 0))

def direntsFrom : Nat → List UInt8 → List (Nat × List UInt8)
  | 0, _ => []
  | count + 1, bytes => entryOf (bytes.take 16) :: direntsFrom count (bytes.drop 16)

def dirents (bytes : List UInt8) : List (Nat × List UInt8) :=
  (direntsFrom (bytes.length / 16) bytes).filter fun entry => entry.1 ≠ 0

/-- The inode `dirlookup` finds. -/
def lookup (entries : List (Nat × List UInt8)) (name : List UInt8) : Option Nat :=
  (entries.find? fun entry => entry.2 = name).map Prod.fst

def Input.name (input : Input) : List UInt8 := input.shortname.take dirSiz

def Input.content (input : Input) : List UInt8 :=
  (input.reads.getD []).flatMap Subtype.val

/-- The entries of the root directory: itself twice, and the files. -/
def rootEntries (inputs : List Input) : List (Nat × List UInt8) :=
  (rootIno, [46]) :: (rootIno, [46, 46]) ::
    (inputs.zipIdx 2).map fun (entry : Input × Nat) => (entry.2, entry.1.name)

section Image

variable (conf : Conf) (image : Image)

/-- An inode with a type, or that the root directory names. -/
def InUse (inum : Nat) : Prop :=
  (inum < inodeRoom ∧ typeOf image.block conf.sb inum ≠ 0) ∨
    ∃ name, (inum, name) ∈ dirents (fileOf image.block conf.sb rootIno)

/-- The image is one the kernel can use. -/
structure Consistent (inputs : List Input) : Prop where
  super : Bytes.uints 4 (image.block 1) 0 8 = [0x10203040, conf.fsSize, conf.sb.nblocks, ninodes,
    conf.nlog, conf.sb.logstart, conf.sb.inodestart, conf.sb.bmapstart]
  addr : ∀ inum slot, InUse conf image inum → slot.Valid →
    addrOf image.block conf.sb inum slot ≠ 0 →
      conf.nmeta ≤ addrOf image.block conf.sb inum slot ∧
        addrOf image.block conf.sb inum slot < conf.sb.size
  unique : ∀ inum slot inum' slot', InUse conf image inum → InUse conf image inum' →
    slot.Valid → slot'.Valid → addrOf image.block conf.sb inum slot ≠ 0 →
      addrOf image.block conf.sb inum slot = addrOf image.block conf.sb inum' slot' →
        inum = inum' ∧ slot = slot'
  bitmap : ∀ b, b < bpb → (Bytes.bit (image.block conf.sb.bmapstart) b = true ↔
    b < conf.nmeta ∨ ∃ inum slot, InUse conf image inum ∧ slot.Valid ∧
      addrOf image.block conf.sb inum slot = b)
  inums : ∀ inum, InUse conf image inum → inum < conf.sb.ninodes
  root : dirents (fileOf image.block conf.sb rootIno) = rootEntries inputs
  names : ((dirents (fileOf image.block conf.sb rootIno)).map Prod.snd).Nodup ∧
    [] ∉ (dirents (fileOf image.block conf.sb rootIno)).map Prod.snd
  opened : ∀ (i : Nat) (input : Input), inputs[i]? = some input →
    ∃ inum, lookup (dirents (fileOf image.block conf.sb rootIno)) input.name = some inum ∧
      typeOf image.block conf.sb inum ≠ 0 ∧ fileOf image.block conf.sb inum = input.content

end Image

def NamesOk (inputs : List Input) : Prop :=
  ([46] :: [46, 46] :: inputs.map Input.name).Nodup ∧ [] ∉ inputs.map Input.name

instance (inputs : List Input) : Decidable (NamesOk inputs) :=
  inferInstanceAs (Decidable (_ ∧ _))

/-! ### Reading directories -/

def entryBytes : Nat → List Input → List UInt8
  | _, [] => []
  | next, input :: rest => dirent next input.shortname ++ entryBytes (next + 1) rest

@[simp]
theorem length_dirent (inum : Nat) (name : List UInt8) : (dirent inum name).length = 16 :=
  Bytes.length_load _ _ _

theorem length_entryBytes (next : Nat) (inputs : List Input) :
    (entryBytes next inputs).length = 16 * inputs.length := by
  induction inputs generalizing next with
  | nil => rfl
  | cons input rest ih =>
      rw [entryBytes, List.length_append, length_dirent, ih, List.length_cons]
      omega

theorem entryOf_dirent {inum : Nat} {name : List UInt8} (hinum : inum < 2 ^ 16) (hname : 0 ∉ name) :
    entryOf (dirent inum name) = (inum, name.take dirSiz) := by
  have hxshort : xshort inum = inum := Bytes.uint_setUint_self (by simpa using hinum)
  have hlength : (name.take dirSiz).length ≤ 14 := by
    rw [List.length_take]
    exact Nat.min_le_left _ _
  generalize htake : name.take dirSiz = short at hlength
  have hshort : ∀ x ∈ short, x ≠ 0 := by
    rintro x hx rfl
    exact hname (List.mem_of_mem_take (htake ▸ hx))
  have hbytes : (dirent inum name).drop 2 = short ++ List.replicate (14 - short.length) 0 := by
    apply List.ext_getElem
    · simp only [List.length_drop, length_dirent, List.length_append, List.length_replicate]
      omega
    · intro i hi hi'
      simp only [List.length_drop, length_dirent] at hi
      rw [List.getElem_drop, List.getElem_append]
      simp only [dirent, Bytes.load, List.getElem_map, List.getElem_range, Nat.zero_add, htake]
      split
      · exact Bytes.store_of_inside _
      · rw [Bytes.store_of_outside (by omega), Bytes.setUint_of_outside _ (by omega),
          List.getElem_replicate]
  have hnumber : Bytes.uint 2 (fun i => (dirent inum name).getD i 0) 0 = inum := by
    have hself : Bytes.uint 2 (Bytes.setUint 2 (fun _ => 0) 0 (xshort inum)) 0 = inum := by
      rw [hxshort]
      exact Bytes.uint_setUint_self (by simpa using hinum)
    rw [← hself]
    apply Bytes.uint_congr
    intro i _ hi
    rw [List.getD_eq_getElem _ _ (by rw [length_dirent]; omega)]
    simp only [dirent, Bytes.load, List.getElem_map, List.getElem_range, Nat.zero_add, htake]
    rw [Bytes.store_of_outside (by omega), hself]
  rw [entryOf, hnumber, hbytes, List.take_of_length_le (by
    simp only [List.length_append, List.length_replicate, dirSiz]
    omega)]
  refine Prod.ext rfl ?_
  rw [List.takeWhile_append_of_pos (by simpa using hshort)]
  cases 14 - short.length <;> simp [List.replicate_succ]

theorem direntsFrom_append {de : List UInt8} (hde : de.length = 16) (count : Nat)
    (rest : List UInt8) :
    direntsFrom (count + 1) (de ++ rest) = entryOf de :: direntsFrom count rest := by
  rw [direntsFrom, List.take_left' hde, List.drop_left' hde]

theorem direntsFrom_zeros (count : Nat) :
    direntsFrom count (List.replicate (16 * count) 0) = List.replicate count (0, []) := by
  induction count with
  | zero => rfl
  | succ count ih =>
      rw [Nat.mul_succ, Nat.add_comm (16 * count), List.replicate_add,
        direntsFrom_append List.length_replicate, ih, List.replicate_succ]
      rfl

theorem Input.zero_not_mem_shortname (input : Input) : 0 ∉ input.shortname := by
  have hbase : 0 ∉ (input.path.reverse.takeWhile (· ≠ 47)).reverse := by
    intro hmem
    exact input.path_ok (List.mem_reverse.mp
      ((List.takeWhile_sublist _).subset (List.mem_reverse.mp hmem)))
  unfold Input.shortname
  split
  · next rest heq =>
      rw [heq] at hbase
      exact fun hmem => hbase (List.mem_cons_of_mem _ hmem)
  · exact hbase

theorem direntsFrom_entryBytes {next : Nat} (inputs : List Input)
    (hnext : next + inputs.length ≤ 2 ^ 16) (count : Nat) (rest : List UInt8) :
    direntsFrom (inputs.length + count) (entryBytes next inputs ++ rest) =
      ((inputs.zipIdx next).map fun (entry : Input × Nat) => (entry.2, entry.1.name)) ++
        direntsFrom count rest := by
  induction inputs generalizing next with
  | nil => rw [List.length_nil, Nat.zero_add]; rfl
  | cons input inputs ih =>
      rw [List.length_cons] at hnext
      rw [List.length_cons, Nat.add_right_comm, entryBytes, List.append_assoc,
        direntsFrom_append (length_dirent _ _), ih (by omega), List.zipIdx_cons, List.map_cons,
        List.cons_append, entryOf_dirent (by omega) input.zero_not_mem_shortname]
      rfl

theorem dirents_root {inputs : List Input} (hcount : inputs.length + 2 ≤ 2 ^ 16) (padding : Nat) :
    dirents (dirent rootIno [46] ++ (dirent rootIno [46, 46] ++ (entryBytes 2 inputs ++
      List.replicate (16 * padding) 0))) = rootEntries inputs := by
  have hlength : (dirent rootIno [46] ++ (dirent rootIno [46, 46] ++ (entryBytes 2 inputs ++
      List.replicate (16 * padding) 0))).length / 16 = inputs.length + padding + 1 + 1 := by
    simp only [List.length_append, length_dirent, length_entryBytes, List.length_replicate]
    omega
  rw [dirents, hlength, direntsFrom_append (length_dirent _ _),
    direntsFrom_append (length_dirent _ _), direntsFrom_entryBytes inputs (by omega),
    direntsFrom_zeros, entryOf_dirent (by decide) (by decide),
    entryOf_dirent (by decide) (by decide), rootEntries]
  have hfiles : ((inputs.zipIdx 2).map fun (entry : Input × Nat) => (entry.2, entry.1.name)).filter
      (fun entry => entry.1 ≠ 0) =
        (inputs.zipIdx 2).map fun (entry : Input × Nat) => (entry.2, entry.1.name) := by
    apply List.filter_eq_self.mpr
    intro entry hentry
    obtain ⟨indexed, hindexed, rfl⟩ := List.mem_map.mp hentry
    have hle := (List.mem_zipIdx hindexed).1
    simp only [ne_eq, decide_not, Bool.not_eq_eq_eq_not, Bool.not_true, decide_eq_false_iff_not]
    omega
  simp only [List.filter_cons, List.filter_append, hfiles]
  simp [rootIno, dirSiz]

/-! ### The calls of `main` -/

/-- The calls the loop of `main` makes for files whose inodes start at `next`. -/
def packCalls : Nat → List Input → List Call
  | _, [] => []
  | next, input :: rest =>
      .ialloc .file :: .iappend rootIno (dirent next input.shortname) ::
        ((input.reads.getD []).map fun cc => .iappend next cc.1) ++ packCalls (next + 1) rest

def dots : List Call :=
  [.ialloc .dir, .iappend rootIno (dirent rootIno [46]), .iappend rootIno (dirent rootIno [46, 46])]

theorem appended_append (calls rest : List Call) (i : Nat) :
    appended (calls ++ rest) i = appended calls i ++ appended rest i := by
  induction calls with
  | nil => rfl
  | cons call calls ih =>
      cases call with
      | ialloc type => exact ih
      | iappend inum xp =>
          rw [List.cons_append, appended, appended, ih, List.append_assoc]

theorem appended_chunks (next i : Nat) (chunks : List Chunk) :
    appended (chunks.map fun cc => .iappend next cc.1) i =
      if i = next then chunks.flatMap Subtype.val else [] := by
  induction chunks with
  | nil => simp [appended]
  | cons cc chunks ih =>
      rw [List.map_cons, appended, ih, List.flatMap_cons]
      split <;> rfl

theorem allocs_append (calls rest : List Call) :
    allocs (calls ++ rest) = allocs calls + allocs rest := by
  induction calls with
  | nil => rw [List.nil_append, allocs, Nat.zero_add]
  | cons call calls ih =>
      cases call with
      | ialloc type =>
          rw [List.cons_append, allocs, allocs, ih]
          omega
      | iappend inum xp => exact ih

theorem allocs_chunks (next : Nat) (chunks : List Chunk) :
    allocs (chunks.map fun cc => .iappend next cc.1) = 0 := by
  induction chunks with
  | nil => rfl
  | cons cc chunks ih => exact ih

theorem allocs_packCalls (next : Nat) (inputs : List Input) :
    allocs (packCalls next inputs) = inputs.length := by
  induction inputs generalizing next with
  | nil => rfl
  | cons input rest ih =>
      rw [packCalls, List.cons_append, List.cons_append, allocs, allocs, allocs_append,
        allocs_chunks, ih, List.length_cons, Nat.zero_add]

theorem ordered_append {next : Nat} {calls rest : List Call} (h : Ordered next calls)
    (hrest : Ordered (next + allocs calls) rest) : Ordered next (calls ++ rest) := by
  induction calls generalizing next with
  | nil => exact hrest
  | cons call calls ih =>
      cases call with
      | ialloc type =>
          refine ih h ?_
          rwa [allocs, Nat.add_comm (allocs calls), ← Nat.add_assoc] at hrest
      | iappend inum xp => exact ⟨h.1, h.2.1, ih h.2.2 hrest⟩

theorem ordered_chunks {next inum : Nat} (hpos : 0 < inum) (hinum : inum < next)
    (chunks : List Chunk) : Ordered next (chunks.map fun cc => .iappend inum cc.1) := by
  induction chunks with
  | nil => trivial
  | cons cc chunks ih => exact ⟨hpos, hinum, ih⟩

theorem ordered_packCalls {next : Nat} (hnext : rootIno < next) (inputs : List Input) :
    Ordered next (packCalls next inputs) := by
  induction inputs generalizing next with
  | nil => trivial
  | cons input rest ih =>
      have hlt : rootIno < next + 1 := Nat.lt_succ_of_lt hnext
      refine ⟨by decide, hlt, ordered_append (ordered_chunks (by omega) (Nat.lt_succ_self _) _) ?_⟩
      rw [allocs_chunks]
      exact ih hlt

theorem appended_packCalls_root {next : Nat} (hnext : rootIno < next) (inputs : List Input) :
    appended (packCalls next inputs) rootIno = entryBytes next inputs := by
  induction inputs generalizing next with
  | nil => rfl
  | cons input rest ih =>
      rw [packCalls, List.cons_append, List.cons_append, appended, appended, if_pos rfl,
        appended_append, appended_chunks, if_neg (Nat.ne_of_lt hnext), List.nil_append, ih (by omega),
        entryBytes]

theorem appended_packCalls {next i : Nat} (hi : i ≠ rootIno) (inputs : List Input) :
    appended (packCalls next inputs) i =
      if next ≤ i then (inputs[i - next]?).elim [] Input.content else [] := by
  induction inputs generalizing next with
  | nil => simp [packCalls, appended]
  | cons input rest ih =>
      rw [packCalls, List.cons_append, List.cons_append, appended, appended, if_neg hi,
        List.nil_append, appended_append, appended_chunks, ih]
      by_cases heq : i = next
      · subst heq
        rw [if_pos rfl, if_neg (by omega), if_pos (Nat.le_refl _), Nat.sub_self, List.append_nil]
        rfl
      · rw [if_neg heq, List.nil_append]
        by_cases hle : next ≤ i
        · rw [if_pos hle, if_pos (by omega), show i - next = i - (next + 1) + 1 by omega,
            List.getElem?_cons_succ]
        · rw [if_neg hle, if_neg (by omega)]

def packed (inputs : List Input) (i : Nat) : List UInt8 := appended (dots ++ packCalls 2 inputs) i

theorem packed_root (inputs : List Input) :
    packed inputs rootIno =
      dirent rootIno [46] ++ (dirent rootIno [46, 46] ++ entryBytes 2 inputs) := by
  rw [packed, appended_append, appended_packCalls_root (by decide)]
  simp [dots, appended]

theorem length_packed_root (inputs : List Input) :
    (packed inputs rootIno).length = 16 * (inputs.length + 2) := by
  rw [packed_root]
  simp only [List.length_append, length_dirent, length_entryBytes]
  omega

theorem packed_file {inputs : List Input} {k : Nat} {input : Input} (h : inputs[k]? = some input) :
    packed inputs (k + 2) = input.content := by
  have hne : k + 2 ≠ rootIno := by
    simp only [rootIno]
    omega
  rw [packed, appended_append, appended_packCalls hne, if_pos (by omega), Nat.add_sub_cancel, h]
  simp [dots, appended, hne]

section Main

variable {conf : Conf}

theorem performAll_append (calls rest : List Call) (state : State) :
    performAll conf (calls ++ rest) state =
      (performAll conf calls state).bind (performAll conf rest) := List.foldlM_append

theorem addFile_eq {files : Nat → List UInt8} {state : State} {input : Input} {chunks : List Chunk}
    (h : Builds conf files state) (hroom : state.freeinode < inodeRoom)
    (hreads : input.reads = some chunks) :
    addFile conf rootIno state input =
      performAll conf (.ialloc .file ::
        .iappend rootIno (dirent state.freeinode input.shortname) ::
          chunks.map fun cc => .iappend state.freeinode cc.1) state := by
  obtain ⟨state', hialloc, -, -, -⟩ := ialloc_spec .file h hroom
  rw [addFile, hreads]
  simp only [performAll, List.foldlM_cons, Call.perform, hialloc, bind, Except.bind, Except.map,
    List.foldlM_map]

theorem foldlM_addFile {inputs : List Input} {files : Nat → List UInt8} {state : State} {next : Nat}
    (h : Builds conf files state) (hnext : state.freeinode = next) (hroot : rootIno < next)
    (hroom : next + inputs.length ≤ inodeRoom) (hopen : ∀ input ∈ inputs, input.reads ≠ none) :
    inputs.foldlM (addFile conf rootIno) state = performAll conf (packCalls next inputs) state := by
  induction inputs generalizing files state next with
  | nil => rfl
  | cons input rest ih =>
      subst hnext
      rw [List.length_cons] at hroom
      obtain ⟨chunks, hreads⟩ := Option.ne_none_iff_exists'.mp (hopen input List.mem_cons_self)
      have hround := addFile_eq h (by omega) hreads
      have hspec := calls_spec h
        (show Ordered state.freeinode (.ialloc .file ::
          .iappend rootIno (dirent state.freeinode input.shortname) ::
            chunks.map fun cc => .iappend state.freeinode cc.1) from
          ⟨by decide, by omega, ordered_chunks (by omega) (Nat.lt_succ_self _) _⟩)
        (by rw [allocs, allocs, allocs_chunks]; omega)
      rw [packCalls, hreads, Option.getD_some, performAll_append, ← hround, List.foldlM_cons]
      rw [← hround] at hspec
      cases hrun : addFile conf rootIno state input with
      | error failure => rfl
      | ok state' =>
          rw [hrun] at hspec
          obtain ⟨hbuilds, hinodes⟩ := hspec
          rw [allocs, allocs, allocs_chunks] at hinodes
          exact ih hbuilds hinodes (by omega) (by omega)
            fun other hother => hopen other (List.mem_cons_of_mem _ hother)

theorem open_of_foldlM {inputs : List Input} {state state' : State}
    (h : inputs.foldlM (addFile conf rootIno) state = .ok state') :
    ∀ input ∈ inputs, input.reads ≠ none := by
  induction inputs generalizing state with
  | nil => exact fun input hinput => absurd hinput List.not_mem_nil
  | cons first rest ih =>
      rw [List.foldlM_cons] at h
      cases hfirst : addFile conf rootIno state first with
      | error failure =>
          rw [hfirst] at h
          cases h
      | ok next =>
          rw [hfirst] at h
          intro input hinput hnone
          rcases List.mem_cons.mp hinput with rfl | hrest
          · rw [addFile, hnone] at hfirst
            cases hfirst
          · exact ih h input hrest hnone

theorem main_eq (inputs : List Input) :
    main conf inputs =
      (performAll conf dots (blank conf)).bind fun start =>
        (inputs.foldlM (addFile conf rootIno) start).bind fun state =>
          finish conf rootIno start.freeblock inputs.length state := by
  obtain ⟨state, hialloc, -, -, -⟩ := ialloc_spec .dir (builds_blank conf)
    (show 1 < inodeRoom by decide)
  rw [show (blank conf).freeinode = rootIno from rfl] at hialloc
  simp only [main, performAll, dots, List.foldlM_cons, List.foldlM_nil, Call.perform, hialloc, bind,
    Except.bind, Except.map, if_true]
  cases iappend conf rootIno (dirent rootIno [46]) state with
  | error failure => rfl
  | ok dot =>
      dsimp only
      cases iappend conf rootIno (dirent rootIno [46, 46]) dot with
      | error failure => rfl
      | ok start => rfl

/-! ### The image at the end -/

theorem Built.byteOf_eq {files : Nat → List UInt8} {owners : List (Nat × Slot)}
    {addrs : Nat → Nat → Nat} {state : State} {inum i : Nat}
    (h : Built conf files owners addrs state) (hinum : inum < inodeRoom) (hi : i < maxFile * bsize) :
    byteOf state.image.block conf.sb inum i = (files inum).getD i 0 := by
  have hvalid : i / bsize < maxFile := Nat.div_lt_of_lt_mul (by rwa [Nat.mul_comm])
  rw [byteOf, h.addrOf_eq hinum (.data (i / bsize)) hvalid]
  by_cases hmem : (inum, Slot.data (i / bsize)) ∈ owners
  · have hpos := conf.nmeta_pos
    have hle := le_place conf.nmeta hmem
    have hdata := h.holds.data inum (i / bsize) hmem (i % bsize) (Nat.mod_lt _ (by decide))
    rw [Nat.div_add_mod'] at hdata
    rw [if_neg (by omega), hdata]
  · have hunused : (files inum).length ≤ i / bsize * bsize :=
      Nat.le_of_not_lt fun hlt => hmem ((h.mem inum (.data (i / bsize))).mpr hlt)
    have hmul : i / bsize * bsize ≤ i := Nat.div_mul_le_self i bsize
    rw [place_of_not_mem hmem, if_pos rfl, List.getD_eq_default _ _ (by omega)]

/-- What the image says after `finish`. -/
structure Finished (conf : Conf) (files : Nat → List UInt8) (owners : List (Nat × Slot))
    (state : State) (image : Image) : Prop where
  addr : ∀ inum slot, inum < inodeRoom → slot.Valid →
    addrOf image.block conf.sb inum slot = place conf.nmeta owners (inum, slot)
  type : ∀ inum, inum < inodeRoom →
    (typeOf image.block conf.sb inum ≠ 0 ↔ 0 < inum ∧ inum < state.freeinode)
  byte : ∀ inum i, inum < inodeRoom → i < maxFile * bsize →
    byteOf image.block conf.sb inum i = (files inum).getD i 0
  size : ∀ inum, inum < inodeRoom → inum ≠ rootIno →
    sizeOf image.block conf.sb inum = (files inum).length
  rootSize : sizeOf image.block conf.sb rootIno = ((files rootIno).length / bsize + 1) * bsize
  super : image.block 1 = sbBlock conf.sb
  bitmap : ∀ b, Bytes.bit (image.block conf.sb.bmapstart) b = decide (b < state.freeblock)

section Finish

variable {files : Nat → List UInt8} {owners : List (Nat × Slot)} {addrs : Nat → Nat → Nat}
  {state : State} {before count : Nat}

theorem fixRoot_spec (h : Built conf files owners addrs state) :
    ∃ din, fixRoot conf rootIno state.image =
        .ok { state.image with block := storeDinode state.image.block conf.sb rootIno din } ∧
      Bytes.uint 4 din sizeOff = ((files rootIno).length / bsize + 1) * bsize ∧
      ∀ width off, sizeOff + 4 ≤ off ∨ off + width ≤ sizeOff →
        Bytes.uint width din off =
          Bytes.uint width (dinodeAt state.image.block conf.sb rootIno) off := by
  have hroom : rootIno < inodeRoom := by decide
  have hlength := h.length rootIno
  have hsize : xint (Bytes.uint 4 (dinodeAt state.image.block conf.sb rootIno) sizeOff) =
      (files rootIno).length := by
    rw [xint_uint]
    exact h.sizes rootIno hroom
  have hrounded : ((files rootIno).length / bsize + 1) * bsize < 2 ^ 32 := by
    have hmul := Nat.div_mul_le_self (files rootIno).length bsize
    have hlong : maxFile * bsize + bsize < 2 ^ 32 := by decide
    rw [Nat.add_mul, Nat.one_mul]
    omega
  refine ⟨Bytes.setUint 4 (dinodeAt state.image.block conf.sb rootIno) sizeOff
    (((files rootIno).length / bsize + 1) * bsize), ?_, Bytes.uint_setUint_self hrounded,
    fun width off hoff => Bytes.uint_setUint_of_disjoint _ hoff⟩
  simp only [fixRoot, rinode_eq conf state.image rootIno hroom h.size, bind, Except.bind, hsize,
    xint_of_lt hrounded]
  exact winode_eq conf state.image rootIno _ hroom h.size

theorem Built.addrOf_frame {block : Nat → Bytes} {inum : Nat}
    (h : Built conf files owners addrs state) (hinum : inum < inodeRoom)
    (hdata : ∀ b, conf.nmeta ≤ b → block b = state.image.block b)
    (haddrs : ∀ k, k ≤ ndirect →
      addrsOf block conf.sb inum k = addrsOf state.image.block conf.sb inum k)
    (slot : Slot) (hvalid : slot.Valid) :
    addrOf block conf.sb inum slot = place conf.nmeta owners (inum, slot) := by
  rw [← h.addrOf_eq hinum slot hvalid]
  have hindirect := h.addrOf_eq hinum .indirect trivial
  rw [addrOf, slotAddr] at hindirect
  cases slot with
  | indirect => exact haddrs _ (Nat.le_refl _)
  | data bn =>
      rw [addrOf, addrOf, slotAddr, slotAddr, haddrs _ (Nat.le_refl _)]
      by_cases hbn : bn < ndirect
      · rw [if_pos hbn, if_pos hbn]
        exact haddrs _ (Nat.le_of_lt hbn)
      · rw [if_neg hbn, if_neg hbn]
        by_cases hmem : (inum, Slot.indirect) ∈ owners
        · rw [hindirect, hdata _ (le_place conf.nmeta hmem)]
        · rw [place_of_not_mem hmem] at hindirect
          rw [if_pos hindirect, if_pos hindirect]

theorem Built.byteOf_frame {block : Nat → Bytes} {inum i : Nat}
    (h : Built conf files owners addrs state) (hinum : inum < inodeRoom)
    (hdata : ∀ b, conf.nmeta ≤ b → block b = state.image.block b)
    (haddrs : ∀ k, k ≤ ndirect →
      addrsOf block conf.sb inum k = addrsOf state.image.block conf.sb inum k)
    (hi : i < maxFile * bsize) :
    byteOf block conf.sb inum i = (files inum).getD i 0 := by
  have hvalid : i / bsize < maxFile := Nat.div_lt_of_lt_mul (by rwa [Nat.mul_comm])
  rw [← h.byteOf_eq hinum hi, byteOf, byteOf,
    h.addrOf_frame hinum hdata haddrs (.data (i / bsize)) hvalid,
    h.addrOf_eq hinum (.data (i / bsize)) hvalid]
  by_cases hmem : (inum, Slot.data (i / bsize)) ∈ owners
  · rw [hdata _ (le_place conf.nmeta hmem)]
  · rw [place_of_not_mem hmem, if_pos rfl, if_pos rfl]

theorem free_eq {nblocks used : Nat} (hused : used ≤ nblocks) (hlt : nblocks < 2 ^ 32) :
    (nblocks + 2 ^ 32 - used) % 2 ^ 32 = nblocks - used := by
  rw [Nat.sub_add_comm hused, Nat.add_mod_right, Nat.mod_eq_of_lt (by omega)]

theorem finish_spec (h : Built conf files owners addrs state) (hbefore : conf.nmeta ≤ before)
    (count : Nat) :
    ∃ image, Finished conf files owners state image ∧
      finish conf rootIno before count state =
        if conf.sb.nblocks - (state.freeblock - before) < 2 * maxFile then
          .error (.margin (conf.sb.nblocks - (state.freeblock - before)) conf.sb.nblocks
            (state.freeblock - before) count)
        else
          .ok image := by
  have hfree : (conf.sb.nblocks + 2 ^ 32 - (state.freeblock - before)) % 2 ^ 32 =
      conf.sb.nblocks - (state.freeblock - before) := by
    have hle := h.le
    have hfs := conf.fsSize_lt_seek
    have hnblocks : conf.sb.nblocks = conf.fsSize - conf.nmeta := rfl
    exact free_eq (by omega) (by omega)
  obtain ⟨din, hfix, hrounded, hsame⟩ := fixRoot_spec h
  have hsize := h.size
  have hpos := conf.nmeta_pos
  generalize hbits : ((List.range state.freeblock).foldl Bytes.setBit fun _ => 0) = bits
  generalize hblock : Function.update (storeDinode state.image.block conf.sb rootIno din)
    conf.sb.bmapstart bits = block
  have hballoc : balloc conf state.freeblock
      { state.image with block := storeDinode state.image.block conf.sb rootIno din } =
        .ok ⟨state.image.size, block⟩ := by
    rw [← hblock, ← hbits]
    exact @balloc_eq conf { state with image :=
      { state.image with block := storeDinode state.image.block conf.sb rootIno din } } hsize h.le
  have hlt : ∀ inum, inum < inodeRoom → 1 < conf.sb.iblock inum ∧
      conf.sb.iblock inum < conf.sb.bmapstart ∧ conf.sb.bmapstart < conf.nmeta :=
    fun inum hinum => conf.iblock_lt hinum
  have hroot := hlt rootIno (by decide)
  have hrest : ∀ b, b ≠ conf.sb.bmapstart → b ≠ conf.sb.iblock rootIno →
      block b = state.image.block b := by
    intro b hb hb'
    rw [← hblock, Function.update_of_ne hb, storeDinode_of_ne hb']
  have hdata : ∀ b, conf.nmeta ≤ b → block b = state.image.block b :=
    fun b hb => hrest b (by omega) (by omega)
  have hdinode : ∀ inum, inum < inodeRoom → dinodeAt block conf.sb inum =
      dinodeAt (storeDinode state.image.block conf.sb rootIno din) conf.sb inum := by
    intro inum hinum
    have hne := hlt inum hinum
    funext i
    rw [dinodeAt, dinodeAt, ← hblock, Function.update_of_ne (by omega)]
  have hfield : ∀ inum, inum < inodeRoom → ∀ width off, off + width ≤ dinodeSize →
      (inum = rootIno → sizeOff + 4 ≤ off ∨ off + width ≤ sizeOff) →
        Bytes.uint width (dinodeAt block conf.sb inum) off =
          Bytes.uint width (dinodeAt state.image.block conf.sb inum) off := by
    intro inum hinum width off hoff hself
    rw [hdinode inum hinum]
    by_cases heq : inum = rootIno
    · subst heq
      rw [uint_dinode_congr (fun i hi => dinodeAt_storeDinode hi) hoff, hsame _ _ (hself rfl)]
    · exact uint_dinode_congr (fun i hi => dinodeAt_storeDinode_of_ne heq hi) hoff
  have haddrs : ∀ inum, inum < inodeRoom → ∀ k, k ≤ ndirect →
      addrsOf block conf.sb inum k = addrsOf state.image.block conf.sb inum k := by
    intro inum hinum k hk
    refine hfield inum hinum _ _ ?_ fun _ => Or.inl ?_
    · simp only [addrOff, ndirect, dinodeSize] at hk ⊢
      omega
    · simp only [addrOff, sizeOff]
      omega
  refine ⟨⟨state.image.size, block⟩, ?_, ?_⟩
  · exact {
      addr := fun inum slot hinum => h.addrOf_frame hinum hdata (haddrs inum hinum) slot
      type := fun inum hinum => by
        rw [← h.types inum hinum]
        exact not_congr (by
          rw [typeOf, hfield inum hinum _ _ (by decide) fun _ => Or.inr (by decide)]
          rfl)
      byte := fun inum i hinum hi => h.byteOf_frame hinum hdata (haddrs inum hinum) hi
      size := fun inum hinum hne => by
        rw [← h.sizes inum hinum]
        exact hfield inum hinum _ _ (by decide) fun heq => absurd heq hne
      rootSize := by
        rw [← hrounded, sizeOf, hdinode rootIno (by decide)]
        exact uint_dinode_congr (fun i hi => dinodeAt_storeDinode hi) (by decide)
      super := (hrest 1 (by omega) (by omega)).trans h.super
      bitmap := fun b => by
        rw [← bit_foldl_setBit, hbits]
        exact congrArg (fun data => Bytes.bit data b)
          ((congrFun hblock conf.sb.bmapstart).symm.trans (Function.update_self ..)) }
  · simp only [finish, hfree, hfix, bind, Except.bind, hballoc]

end Finish

/-! ### When `main` exits with status 0 -/

/-- Every file can be opened and is not too long, and the image has the blocks the last check of
`main` asks for. The first block of the root directory is not one of those it counts. -/
structure Packs (conf : Conf) (inputs : List Input) : Prop where
  opened : ∀ input ∈ inputs, input.reads ≠ none
  file : ∀ i, (packed inputs i).length ≤ maxFile * bsize
  margin : conf.nmeta + ∑ i ∈ Finset.range (inputs.length + 2), blocksOf (packed inputs i).length +
    2 * maxFile ≤ conf.fsSize + 1

theorem appended_dots (i : Nat) :
    appended dots i = if i = rootIno then dirent rootIno [46] ++ dirent rootIno [46, 46] else [] := by
  simp only [dots, appended]
  split <;> simp

theorem length_appended_dots (i : Nat) :
    (appended dots i).length = if i = rootIno then 32 else 0 := by
  rw [appended_dots]
  split
  · rw [List.length_append, length_dirent, length_dirent]
  · rfl

theorem sum_dots : ∑ i ∈ Finset.range 2, blocksOf (appended dots i).length = 1 := by
  simp only [length_appended_dots]
  decide

theorem dots_spec (conf : Conf) :
    ∃ start, performAll conf dots (blank conf) = .ok start ∧ Builds conf (appended dots) start ∧
      start.freeinode = 2 ∧ start.freeblock = conf.nmeta + 1 := by
  have hmeta : conf.nmeta < conf.fsSize := conf.nmeta_lt
  have hspec := calls_spec (builds_blank conf)
    (show Ordered (blank conf).freeinode dots from
      ⟨Nat.one_pos, Nat.lt_succ_self 1, Nat.one_pos, Nat.lt_succ_self 1, trivial⟩)
    (show 2 ≤ inodeRoom by decide)
  simp only [List.nil_append, show (blank conf).freeinode + allocs dots = 2 from rfl, sum_dots] at hspec
  cases hrun : performAll conf dots (blank conf) with
  | error failure =>
      rw [hrun] at hspec
      rcases hspec with ⟨i, hi⟩ | hfull
      · rw [length_appended_dots] at hi
        have hlong : 32 < maxFile * bsize := by decide
        split at hi <;> omega
      · omega
  | ok start =>
      rw [hrun] at hspec
      obtain ⟨hbuilds, hinodes⟩ := hspec
      refine ⟨start, rfl, hbuilds, hinodes, ?_⟩
      obtain ⟨owners, addrs, hbuilt⟩ := hbuilds
      rw [hbuilt.total, hinodes, sum_dots]

theorem main_spec {inputs : List Input} (hroom : inputs.length + 2 ≤ inodeRoom) :
    match main conf inputs with
    | .error _ => ¬Packs conf inputs
    | .ok image => Packs conf inputs ∧ ∃ owners addrs state,
        Built conf (packed inputs) owners addrs state ∧ state.freeinode = inputs.length + 2 ∧
          Finished conf (packed inputs) owners state image := by
  have hmeta : conf.nmeta < conf.fsSize := conf.nmeta_lt
  have hfs := conf.fsSize_lt_seek
  obtain ⟨start, hdots, hbuilds, hinodes, hblocks⟩ := dots_spec conf
  have hpacked : ∀ i, appended dots i ++ appended (packCalls 2 inputs) i = packed inputs i :=
    fun i => (appended_append _ _ _).symm
  have hcalls := calls_spec hbuilds
    (show Ordered start.freeinode (packCalls 2 inputs) by
      rw [hinodes]
      exact ordered_packCalls (by decide) inputs)
    (by rw [hinodes, allocs_packCalls]; omega)
  simp only [hpacked, hinodes, allocs_packCalls, Nat.add_comm 2] at hcalls
  have hloop : (∀ input ∈ inputs, input.reads ≠ none) →
      inputs.foldlM (addFile conf rootIno) start = performAll conf (packCalls 2 inputs) start := by
    intro hopen
    exact foldlM_addFile hbuilds hinodes (by decide) (by omega) hopen
  have hmain : main conf inputs = (inputs.foldlM (addFile conf rootIno) start).bind fun state =>
      finish conf rootIno start.freeblock inputs.length state := by
    rw [main_eq, hdots, Except.bind]
  rw [hmain]
  cases hrun : inputs.foldlM (addFile conf rootIno) start with
  | error failure =>
      intro hpacks
      rw [← hloop hpacks.opened, hrun] at hcalls
      have hmargin := hpacks.margin
      rcases hcalls with ⟨i, hi⟩ | hfull
      · exact absurd (hpacks.file i) (Nat.not_le_of_lt hi)
      · have hpos : 0 < maxFile := by decide
        omega
  | ok state =>
      have hopen := open_of_foldlM hrun
      rw [← hloop hopen, hrun] at hcalls
      obtain ⟨⟨owners, addrs, hbuilt⟩, hnext⟩ := hcalls
      have htotal := hbuilt.total
      have hle := hbuilt.le
      have hdot : 1 ≤ ∑ i ∈ Finset.range (inputs.length + 2), blocksOf (packed inputs i).length := by
        rw [← sum_dots]
        refine sum_blocksOf_le (Nat.le_add_left _ _) fun i => ?_
        rw [← hpacked i, List.length_append]
        exact Nat.le_add_right _ _
      have hnblocks : conf.sb.nblocks = conf.fsSize - conf.nmeta := rfl
      obtain ⟨image, hfinished, hfinish⟩ := finish_spec hbuilt
        (show conf.nmeta ≤ start.freeblock by omega) inputs.length
      rw [hnext] at htotal
      rw [Except.bind, hfinish]
      split_ifs with hmargin
      · intro hpacks
        have hfits := hpacks.margin
        omega
      · exact ⟨⟨hopen, hbuilt.length, by omega⟩, owners, addrs, state, hbuilt, hnext, hfinished⟩

/-! ### Consistency -/

section Consistency

variable {inputs : List Input} {owners : List (Nat × Slot)} {addrs : Nat → Nat → Nat}
  {state : State} {image : Image}

theorem rootEntries_names (inputs : List Input) :
    (rootEntries inputs).map Prod.snd = [46] :: [46, 46] :: inputs.map Input.name := by
  have hfiles : ∀ next, ((inputs.zipIdx next).map fun (entry : Input × Nat) =>
      (entry.2, entry.1.name)).map Prod.snd = inputs.map Input.name := by
    intro next
    induction inputs generalizing next with
    | nil => rfl
    | cons input rest ih => rw [List.zipIdx_cons, List.map_cons, List.map_cons, ih, List.map_cons]
  rw [rootEntries, List.map_cons, List.map_cons, hfiles]

theorem mem_rootEntries_file {i : Nat} {input : Input} (h : inputs[i]? = some input) :
    (i + 2, input.name) ∈ rootEntries inputs := by
  apply List.mem_cons_of_mem
  apply List.mem_cons_of_mem
  refine List.mem_map.mpr ⟨(input, i + 2), ?_, rfl⟩
  rw [Nat.add_comm i]
  exact List.mk_add_mem_zipIdx_iff_getElem?.mpr h

theorem lt_of_mem_rootEntries {entry : Nat × List UInt8} (h : entry ∈ rootEntries inputs) :
    0 < entry.1 ∧ entry.1 < inputs.length + 2 := by
  rcases List.mem_cons.mp h with rfl | h
  · exact ⟨Nat.one_pos, by simp only [rootIno]; omega⟩
  rcases List.mem_cons.mp h with rfl | h
  · exact ⟨Nat.one_pos, by simp only [rootIno]; omega⟩
  obtain ⟨indexed, hindexed, rfl⟩ := List.mem_map.mp h
  have hle := List.mem_zipIdx hindexed
  dsimp only
  omega

theorem lookup_of_mem {entries : List (Nat × List UInt8)} {entry : Nat × List UInt8}
    (hnodup : (entries.map Prod.snd).Nodup) (h : entry ∈ entries) :
    lookup entries entry.2 = some entry.1 := by
  rw [lookup]
  cases hfind : entries.find? fun other => other.2 = entry.2 with
  | none => exact absurd (decide_eq_true rfl) (List.find?_eq_none.mp hfind entry h)
  | some other =>
      have hname : other.2 = entry.2 := by simpa using List.find?_some hfind
      have heq := List.inj_on_of_nodup_map hnodup (List.mem_of_find?_eq_some hfind) h hname
      rw [heq, Option.map_some]

theorem Finished.root (h : Finished conf (packed inputs) owners state image)
    (hcount : inputs.length + 2 ≤ ninodes) :
    dirents (fileOf image.block conf.sb rootIno) = rootEntries inputs := by
  have hlength := length_packed_root inputs
  have hsize := h.rootSize
  rw [hlength] at hsize
  have hsmall : inputs.length + 2 ≤ 200 := hcount
  have hle : sizeOf image.block conf.sb rootIno ≤ maxFile * bsize := by
    rw [hsize]
    simp only [maxFile, ndirect, nindirect, bsize]
    omega
  generalize hpadding : 64 * (16 * (inputs.length + 2) / 1024 + 1) - (inputs.length + 2) = padding
  have htotal : sizeOf image.block conf.sb rootIno =
      (packed inputs rootIno).length + 16 * padding := by
    rw [hsize, hlength, ← hpadding]
    simp only [bsize]
    omega
  have hfile : fileOf image.block conf.sb rootIno =
      packed inputs rootIno ++ List.replicate (16 * padding) 0 := by
    apply List.ext_getElem
    · rw [fileOf, List.length_map, List.length_range, List.length_append, List.length_replicate,
        htotal]
    · intro i hi hi'
      rw [fileOf, List.length_map, List.length_range] at hi
      simp only [fileOf, List.getElem_map, List.getElem_range]
      rw [h.byte rootIno i (by decide) (by omega), List.getElem_append]
      split
      · next hlt => exact List.getD_eq_getElem _ _ hlt
      · next hge => rw [List.getD_eq_default _ _ (Nat.le_of_not_lt hge), List.getElem_replicate]
  rw [hfile, packed_root, List.append_assoc, List.append_assoc]
  exact dirents_root (by omega) padding

theorem Finished.file (h : Finished conf (packed inputs) owners state image)
    (hbuilt : Built conf (packed inputs) owners addrs state) {inum : Nat} (hinum : inum < inodeRoom)
    (hne : inum ≠ rootIno) : fileOf image.block conf.sb inum = packed inputs inum := by
  have hlength := hbuilt.length inum
  apply List.ext_getElem
  · rw [fileOf, List.length_map, List.length_range, h.size inum hinum hne]
  · intro i hi hi'
    simp only [fileOf, List.getElem_map, List.getElem_range]
    rw [h.byte inum i hinum (by omega), List.getD_eq_getElem _ _ hi']

theorem Finished.inUse_iff (h : Finished conf (packed inputs) owners state image)
    (hnext : state.freeinode = inputs.length + 2) (hcount : inputs.length + 2 ≤ ninodes) {inum : Nat} :
    InUse conf image inum ↔ 0 < inum ∧ inum < inputs.length + 2 := by
  have hroom : ninodes ≤ inodeRoom := by decide
  constructor
  · rintro (⟨hinum, htype⟩ | ⟨name, hname⟩)
    · rw [← hnext]
      exact (h.type inum hinum).mp htype
    · rw [h.root hcount] at hname
      exact lt_of_mem_rootEntries hname
  · intro hinum
    refine Or.inl ⟨by omega, (h.type inum (by omega)).mpr ?_⟩
    rwa [hnext]

theorem Built.owner (h : Built conf (packed inputs) owners addrs state) {who : Nat × Slot}
    (hwho : who ∈ owners) : (0 < who.1 ∧ who.1 < state.freeinode) ∧ who.2.Valid := by
  obtain ⟨inum, slot⟩ := who
  have hused := (h.mem inum slot).mp hwho
  have hlength := h.length inum
  have hpos : 0 < (packed inputs inum).length := by
    cases slot with
    | data bn => exact Nat.lt_of_le_of_lt (Nat.zero_le _) hused
    | indirect => exact Nat.lt_of_le_of_lt (Nat.zero_le _) hused
  constructor
  · by_contra hnot
    have hempty := h.none inum (by dsimp only at hnot; omega)
    rw [hempty] at hpos
    exact Nat.lt_irrefl _ hpos
  · cases slot with
    | data bn =>
        have hlt : bn * bsize < maxFile * bsize := Nat.lt_of_lt_of_le hused hlength
        exact Nat.lt_of_mul_lt_mul_right hlt
    | indirect => trivial

theorem Finished.superblock (h : Finished conf (packed inputs) owners state image) :
    Bytes.uints 4 (image.block 1) 0 8 = [0x10203040, conf.fsSize, conf.sb.nblocks, ninodes,
      conf.nlog, conf.sb.logstart, conf.sb.inodestart, conf.sb.bmapstart] := by
  have hfs := conf.fsSize_lt_seek
  have hmeta : conf.nmeta < conf.fsSize := conf.nmeta_lt
  have hblock := conf.iblock_lt (show 0 < inodeRoom by decide)
  have hlog : conf.sb.inodestart = 2 + conf.nlog := rfl
  have hstart : conf.sb.iblock 0 = conf.sb.inodestart := by
    rw [Superblock.iblock, Nat.zero_div, Nat.zero_add]
  have hnblocks : conf.sb.nblocks ≤ conf.fsSize := Nat.sub_le _ _
  have hvalues : ∀ value ∈ [0x10203040, conf.fsSize, conf.sb.nblocks, ninodes, conf.nlog,
      conf.sb.logstart, conf.sb.inodestart, conf.sb.bmapstart], value < 256 ^ 4 := by
    simp only [List.forall_mem_cons]
    refine ⟨by decide, by omega, by omega, by decide, by omega, ?_, by omega, by omega,
      fun value hvalue => absurd hvalue List.not_mem_nil⟩
    exact show 2 < 256 ^ 4 by decide
  have hxint : sbBlock conf.sb = Bytes.setUints 4 (fun _ => 0) 0 [0x10203040, conf.fsSize,
      conf.sb.nblocks, ninodes, conf.nlog, conf.sb.logstart, conf.sb.inodestart,
      conf.sb.bmapstart] :=
    congrArg (Bytes.setUints 4 (fun _ => 0) 0)
      ((List.map_congr_left fun value hvalue => xint_of_lt (hvalues value hvalue)).trans
        (List.map_id' _))
  rw [h.super, hxint]
  exact Bytes.uints_setUints_self hvalues

theorem Finished.consistent (h : Finished conf (packed inputs) owners state image)
    (hbuilt : Built conf (packed inputs) owners addrs state)
    (hnext : state.freeinode = inputs.length + 2) (hcount : inputs.length + 2 ≤ ninodes)
    (hnames : NamesOk inputs) : Consistent conf image inputs := by
  have hroom : ninodes ≤ inodeRoom := by decide
  have huse : ∀ inum, InUse conf image inum ↔ 0 < inum ∧ inum < inputs.length + 2 :=
    fun inum => h.inUse_iff hnext hcount
  have haddr : ∀ inum slot, InUse conf image inum → slot.Valid →
      addrOf image.block conf.sb inum slot = place conf.nmeta owners (inum, slot) := by
    intro inum slot hinum hvalid
    have hlt := (huse inum).mp hinum
    exact h.addr inum slot (by omega) hvalid
  have hmem : ∀ inum slot, InUse conf image inum → slot.Valid →
      addrOf image.block conf.sb inum slot ≠ 0 → (inum, slot) ∈ owners := by
    intro inum slot hinum hvalid hne
    by_contra hnot
    exact hne ((haddr inum slot hinum hvalid).trans (place_of_not_mem hnot))
  have hroot := h.root hcount
  have hnodup : ((rootEntries inputs).map Prod.snd).Nodup := by
    rw [rootEntries_names]
    exact hnames.1
  exact {
    super := h.superblock
    addr := by
      intro inum slot hinum hvalid hne
      have hplace := hmem inum slot hinum hvalid hne
      have hlt : place conf.nmeta owners (inum, slot) < conf.nmeta + owners.length := place_lt hplace
      have hle := hbuilt.le
      rw [hbuilt.holds.free] at hle
      rw [haddr inum slot hinum hvalid]
      exact ⟨le_place _ hplace, Nat.lt_of_lt_of_le hlt hle⟩
    unique := by
      intro inum slot inum' slot' hinum hinum' hvalid hvalid' hne heq
      have hplace := hmem inum slot hinum hvalid hne
      have hplace' := hmem inum' slot' hinum' hvalid' (heq ▸ hne)
      rw [haddr inum slot hinum hvalid, haddr inum' slot' hinum' hvalid'] at heq
      exact Prod.mk.inj (place_inj hplace hplace' heq)
    bitmap := by
      intro b _
      rw [h.bitmap, decide_eq_true_iff, hbuilt.holds.free]
      constructor
      · intro hb
        rcases Nat.lt_or_ge b conf.nmeta with hlt | hge
        · exact Or.inl hlt
        · obtain ⟨who, hwho, hplace⟩ := exists_place_eq hbuilt.holds.nodup hge hb
          obtain ⟨hinum, hvalid⟩ := hbuilt.owner hwho
          rw [hnext] at hinum
          have hused := (huse who.1).mpr hinum
          exact Or.inr ⟨who.1, who.2, hused, hvalid, (haddr _ _ hused hvalid).trans hplace⟩
      · rintro (hb | ⟨inum, slot, hinum, hvalid, rfl⟩)
        · exact Nat.lt_of_lt_of_le hb (Nat.le_add_right _ _)
        · rw [haddr inum slot hinum hvalid]
          by_cases hplace : (inum, slot) ∈ owners
          · exact place_lt hplace
          · have hpos := conf.nmeta_pos
            rw [place_of_not_mem hplace]
            omega
    inums := by
      intro inum hinum
      exact Nat.lt_of_lt_of_le ((huse inum).mp hinum).2 hcount
    root := hroot
    names := by
      rw [hroot]
      refine ⟨hnodup, ?_⟩
      rw [rootEntries_names]
      simpa using hnames.2
    opened := by
      intro i input hinput
      have hi : i < inputs.length := (List.getElem?_eq_some_iff.mp hinput).1
      have hne : i + 2 ≠ rootIno := by
        simp only [rootIno]
        omega
      refine ⟨i + 2, ?_, ?_, ?_⟩
      · rw [hroot]
        exact lookup_of_mem hnodup (mem_rootEntries_file hinput)
      · exact (h.type _ (by omega)).mpr (by omega)
      · rw [h.file hbuilt (by omega) hne, packed_file hinput] }

end Consistency

/-- **What the tool packs** is consistent exactly where there are fewer files than inode numbers and
their names are distinct and not empty. -/
theorem consistent_iff (conf : Conf) (inputs : List Input) (image : Image)
    (hexit : main conf inputs = .ok image) :
    Consistent conf image inputs ↔ inputs.length + 2 ≤ ninodes ∧ NamesOk inputs := by
  constructor
  · intro h
    refine ⟨?_, ?_⟩
    · -- the last entry of the root directory names the largest inode number
      cases hlast : inputs.length with
      | zero => decide
      | succ count =>
          have hinput : inputs[count]? = some inputs[count] := List.getElem?_eq_getElem _
          have hmem := mem_rootEntries_file hinput
          rw [← h.root] at hmem
          have hlt := h.inums (count + 2) (Or.inr ⟨_, hmem⟩)
          exact hlt
    · have hnames := h.names
      rw [h.root, rootEntries_names] at hnames
      exact ⟨hnames.1, by simpa using hnames.2⟩
  · rintro ⟨hcount, hnames⟩
    have hspec := @main_spec conf inputs (Nat.le_trans hcount (by decide))
    rw [hexit] at hspec
    obtain ⟨-, owners, addrs, state, hbuilt, hnext, hfinished⟩ := hspec
    exact hfinished.consistent hbuilt hnext hcount hnames

def emptyFile (path : List UInt8) (hpath : 0 ∉ path) : Input := ⟨path, hpath, some []⟩

theorem main_of_empty {inputs : List Input} (hmargin : conf.nmeta + 2 * maxFile ≤ conf.fsSize)
    (hcount : inputs.length ≤ 62) (hempty : ∀ input ∈ inputs, input.reads = some []) :
    ∃ image, main conf inputs = .ok image := by
  have hnone : ∀ i, i ≠ rootIno → packed inputs i = [] := by
    intro i hi
    rw [packed, appended_append, appended_dots, if_neg hi, appended_packCalls hi, List.nil_append]
    split
    · cases hget : inputs[i - 2]? with
      | none => rfl
      | some input =>
          have hreads := hempty input (List.mem_of_getElem? hget)
          rw [Option.elim_some, Input.content, hreads]
          rfl
    · rfl
  have hlength : ∀ i, (packed inputs i).length ≤ bsize := by
    intro i
    by_cases hi : i = rootIno
    · subst hi
      rw [length_packed_root]
      simp only [bsize]
      omega
    · rw [hnone i hi]
      exact Nat.zero_le _
  have hblocks : ∀ i, blocksOf (packed inputs i).length ≤ if i = rootIno then 1 else 0 := by
    intro i
    split
    · exact blocksOf_mono (hlength i)
    · next hi =>
        rw [hnone i hi]
        exact Nat.le_refl _
  have hpacks : Packs conf inputs := by
    refine ⟨fun input hinput => ?_, fun i => Nat.le_trans (hlength i) (by decide), ?_⟩
    · rw [hempty input hinput]
      exact Option.some_ne_none _
    · have hsum : ∑ i ∈ Finset.range (inputs.length + 2), blocksOf (packed inputs i).length ≤ 1 :=
        calc ∑ i ∈ Finset.range (inputs.length + 2), blocksOf (packed inputs i).length
            ≤ ∑ i ∈ Finset.range (inputs.length + 2), (if i = rootIno then 1 else 0) :=
              Finset.sum_le_sum fun i _ => hblocks i
          _ ≤ 1 := by
              rw [Finset.sum_ite_eq']
              split <;> omega
      omega
  have hroom : inodeRoom = 204 := rfl
  have hspec := @main_spec conf inputs (by omega)
  cases hrun : main conf inputs with
  | error failure =>
      rw [hrun] at hspec
      exact absurd hpacks hspec
  | ok image => exact ⟨image, rfl⟩

end Main

theorem margin_arm64 : arm64.nmeta + 2 * maxFile ≤ arm64.fsSize := by
  have hmeta : arm64.nmeta = 84 := rfl
  have hsize : arm64.fsSize = 1500 := rfl
  have hmax : maxFile = 314 := rfl
  omega

/-- The shell, in a directory and with an underscore. -/
theorem consistent_iff_shell_arm64 : ∃ input image, main arm64 [input] = .ok image ∧
    input.name = [115, 104] ∧
      (Consistent arm64 image [input] ↔ [input].length + 2 ≤ ninodes ∧ NamesOk [input]) := by
  have hpath : (0 : UInt8) ∉ [117, 47, 95, 115, 104] := by decide
  obtain ⟨image, hexit⟩ := @main_of_empty arm64 [emptyFile _ hpath] margin_arm64 (by simp)
    (fun input hinput => by rw [List.mem_singleton.mp hinput]; rfl)
  exact ⟨emptyFile _ hpath, image, hexit, rfl, consistent_iff arm64 _ image hexit⟩

/-- Two files of one name, in different directories. -/
theorem not_consistent_same_name_arm64 : ∃ inputs image, main arm64 inputs = .ok image ∧
    inputs.map Input.path = [[97, 47, 120], [98, 47, 120]] ∧ ¬Consistent arm64 image inputs := by
  have hfirst : (0 : UInt8) ∉ [97, 47, 120] := by decide
  have hsecond : (0 : UInt8) ∉ [98, 47, 120] := by decide
  obtain ⟨image, hexit⟩ := @main_of_empty arm64 [emptyFile _ hfirst, emptyFile _ hsecond] margin_arm64 (by simp)
    (fun input hinput => by
      rcases List.mem_cons.mp hinput with rfl | hinput
      · rfl
      · rw [List.mem_singleton.mp hinput]
        rfl)
  refine ⟨_, image, hexit, rfl, fun hconsistent => ?_⟩
  -- the names of both are the same
  have hnames := hconsistent.names.1
  rw [hconsistent.root, rootEntries_names] at hnames
  have hsame := (List.nodup_cons.mp (List.nodup_cons.mp (List.nodup_cons.mp hnames).2).2).1
  exact hsame (List.mem_singleton.mpr rfl)

end Xv6.Mkfs
