/-
Module: SotFs.Proofs.TreeReads
Layer: Proofs
Purpose: What a mount answers to the requests that change no file is what the tree of files says, for every graph
  that shows a tree.
Trusted boundary: none
Main exports: Mount.service, FuseQuery.Fits, query_answers
-/
import SotFs.Spec.FileService
import SotFs.Proofs.TreeViews
import SotFs.Proofs.DirectoryReads

namespace SotFs

open Std (ExtTreeMap ExtTreeSet)
open Foundation

/-- What a mount serves. -/
def Mount.service (m : Mount) : FileService := ⟨m.graph.fileTree, fun fh => m.openFiles[fh]?, m.nextFh⟩

/-- What the kernel sends: numbers of inodes that it was told of, and ends of reads within the address space. -/
def FuseQuery.Fits : FuseQuery → Prop
  | .getattr i | .openFile i | .readlink i | .access i _ | .getxattr i .. | .listxattr i _ => i < 2 ^ 32
  | .read i offset size => i < 2 ^ 32 ∧ 0 ≤ offset ∧ offset.toNat + size < 2 ^ 64
  | _ => True

/-! ### Permission bits -/

section Bits

/-- Three bits of a mask are among those of another word. -/
theorem masked_iff {perms mask : Int32} :
    perms &&& (mask &&& 7) = mask &&& 7 ↔
      ∀ b < 3, mask.toBitVec.getLsbD b = true → perms.toBitVec.getLsbD b = true := by
  have hseven : ∀ b, (7#32).getLsbD b = decide (b < 3) := by
    intro b
    rw [BitVec.getLsbD_ofNat, show 7 = 2 ^ 3 - 1 from rfl, Nat.testBit_two_pow_sub_one]
    by_cases hb : b < 3
    · simp [hb, hb.trans (by decide : 3 < 32)]
    · simp [hb]
  rw [← Int32.toBitVec_inj, Int32.toBitVec_and, Int32.toBitVec_and]
  change perms.toBitVec &&& (mask.toBitVec &&& 7#32) = mask.toBitVec &&& 7#32 ↔ _
  constructor
  · intro h b hb hmask
    have hbit := congrArg (fun w => w.getLsbD b) h
    simpa [hseven, hb, hmask] using hbit
  · intro h
    refine BitVec.eq_of_getLsbD_eq fun b _ => ?_
    rw [BitVec.getLsbD_and, BitVec.getLsbD_and, hseven]
    by_cases hb : b < 3
    · cases hmask : mask.toBitVec.getLsbD b with
      | false => simp
      | true => simp [h b hb hmask, hb]
    · simp [hb]

/-- The low bits of a shifted mode, as a word. -/
theorem shifted_bit (mode s : UInt16) (hs : s.toNat < 14) {b : Nat} (hb : b < 3) :
    ((mode >>> s) &&& 7).toUInt32.toInt32.toBitVec.getLsbD b = mode.toBitVec.getLsbD (s.toNat + b) := by
  have hseven : (7 : UInt16).toBitVec.getLsbD b = true := by
    interval_cases b <;> rfl
  have hshift : (mode >>> s).toBitVec.getLsbD b = mode.toBitVec.getLsbD (s.toNat % 16 + b) := by simp
  change (((mode >>> s) &&& 7).toBitVec.setWidth 32).getLsbD b = _
  rw [BitVec.getLsbD_setWidth, UInt16.toBitVec_and, BitVec.getLsbD_and, hshift, hseven,
    Nat.mod_eq_of_lt (hs.trans (by decide)), decide_eq_true (hb.trans (by decide))]
  simp

/-- A shifted mode has the masked bits when the mode has them further up. -/
theorem class_permits {mode s : UInt16} {mask : Int32} (hs : s.toNat < 14) :
    ((mode >>> s) &&& 7).toUInt32.toInt32 &&& (mask &&& 7) = mask &&& 7 ↔
      ∀ b < 3, mask.toBitVec.getLsbD b = true → mode.toBitVec.getLsbD (s.toNat + b) = true := by
  rw [masked_iff]
  constructor
  · intro h b hb hmask
    rw [← shifted_bit mode s hs hb]
    exact h b hb hmask
  · intro h b hb hmask
    rw [shifted_bit mode s hs hb]
    exact h b hb hmask

end Bits

/-! ### Reads of files -/

section Reads

variable {g : TypeGraph} {i parent : InodeId} {name : OsStr}

/-- A read of an inode finds what its node has. -/
theorem getInode_eq_node (hi : i < 2 ^ 32) : g.getInode i = (g.fileTree.node i).map FileNode.inode := by
  rw [TypeGraph.getInode, Arena.get_eq_data, idToArena_of_lt hi]
  change _ = ((g.inodes.data i).map (g.fileNode i)).map FileNode.inode
  cases g.inodes.data i <;> rfl

open Classical in
/-- The bits that access compares with the mask are those of the caller's class. -/
theorem access_eq (req : FuseCaller) (mask : Int32) (hi : i < 2 ^ 32) :
    Fuse.access req i mask g = g.fileTree.access req i mask := by
  unfold Fuse.access FileTree.access
  rw [getInode_eq_node hi]
  cases g.fileTree.node i with
  | none => rfl
  | some v =>
      rw [Option.map_some]
      dsimp only
      by_cases hnone : mask = 0
      · rw [if_pos hnone, if_pos]
        refine .inr fun b _ hb => ?_
        rw [hnone] at hb
        simp at hb
      · rw [if_neg hnone]
        refine if_congr ?_ rfl rfl
        unfold FileTree.Permits FileTree.classShift
        by_cases hroot : req.uid = 0
        · rw [if_pos hroot, masked_iff]
          refine iff_of_true (fun b hb _ => ?_) (.inl hroot)
          interval_cases b <;> rfl
        rw [if_neg hroot, or_iff_right hroot]
        by_cases howner : req.uid = v.inode.uid
        · rw [if_pos howner, if_pos howner]
          exact class_permits (by decide)
        rw [if_neg howner, if_neg howner]
        by_cases hgroup : req.gid = v.inode.gid
        · rw [if_pos hgroup, if_pos hgroup]
          exact class_permits (by decide)
        rw [if_neg hgroup, if_neg hgroup]
        have hshift : v.inode.permissions.mode >>> 0 = v.inode.permissions.mode := by simp
        have hother := @class_permits v.inode.permissions.mode 0 mask (by decide)
        rw [hshift] at hother
        exact hother

/-- A name leads to a live node. -/
theorem lookup_eq (h : g.Presentable) (parent : InodeId) (name : OsStr) :
    Fuse.lookup parent name g = g.fileTree.lookup parent name.toStr := by
  unfold Fuse.lookup FileTree.lookup
  cases hd : g.dirForInode parent with
  | none =>
      have hfile : ¬ g.fileTree.IsDir parent := by
        intro hdir
        obtain ⟨d, hlive⟩ := h.inv.isDir_iff.mp hdir
        rw [h.inv.dirForInode_iff.mpr hlive] at hd
        cases hd
      rw [if_pos hfile]
  | some d =>
      rw [h.inv.dirForInode_iff] at hd
      rw [if_neg (not_not.mpr (h.inv.isDir_iff.mpr ⟨d, hd⟩)), h.inv.entry_eq hd]
      dsimp only
      cases hres : g.resolveName d name.toStr with
      | none => rfl
      | some i =>
          obtain ⟨e, he⟩ := h.inv.resolveName_iff.mp hres
          obtain ⟨inode, hdata, hget⟩ := h.target_live he
          dsimp only
          rw [hget, Option.bind_some, node_eq hdata]
          rfl

theorem getattr_eq (hi : i < 2 ^ 32) : Fuse.getattr i g = g.fileTree.getattr i := by
  unfold Fuse.getattr FileTree.getattr
  rw [getInode_eq_node hi]
  cases g.fileTree.node i <;> rfl

/-- Both ends of a range clamped to the length. -/
theorem extract_clamped {α : Type} (l : List α) (offset size : Nat) :
    l.extract (min offset l.length) (min (offset + size) l.length) = (l.drop offset).take size := by
  rw [List.extract_eq_take_drop]
  rcases le_total offset l.length with hle | hle
  · rw [min_eq_left hle, List.take_eq_take_iff, List.length_drop]
    omega
  · rw [min_eq_right hle, List.drop_length, List.drop_eq_nil_of_le hle, List.take_nil, List.take_nil]

/-- A read is answered with the bytes that are there. -/
theorem read_eq {offset : Int} {size : Nat} (hi : i < 2 ^ 32) (hnonneg : 0 ≤ offset)
    (hend : offset.toNat + size < 2 ^ 64) :
    Fuse.read i offset size g = some (g.fileTree.read i offset.toNat size) := by
  have hoffset : (offset % 2 ^ 64).toNat = offset.toNat := by
    rw [Int.emod_eq_of_lt hnonneg (by omega)]
  have hget := getInode_eq_node (g := g) hi
  unfold Fuse.read FileTree.read
  rw [hoffset]
  cases hv : g.fileTree.node i with
  | none =>
      rw [hv] at hget
      rw [readData, hget]
      rfl
  | some v =>
      rw [hv] at hget
      obtain ⟨_, hview⟩ := of_node hv
      dsimp only
      by_cases hkind : v.inode.vtype = .regular
      · have hbytes : g.content i = v.content := congrArg FileNode.content hview
        rw [if_pos hkind, readData_content hget hkind hend, hbytes, extract_clamped]
      · rw [if_neg hkind, readData, hget]
        dsimp only [Option.map_some]
        rw [if_pos hkind]

theorem readlink_eq (hi : i < 2 ^ 32) : Fuse.readlink i g = some (g.fileTree.readlink i) := by
  have hget := getInode_eq_node (g := g) hi
  unfold Fuse.readlink FileTree.readlink SotFs.readlink
  rw [hget]
  cases hv : g.fileTree.node i with
  | none => rfl
  | some v =>
      obtain ⟨_, hview⟩ := of_node hv
      have htarget : g.symlinkTargets[i]? = v.target := congrArg FileNode.target hview
      dsimp only [Option.map_some]
      rw [htarget]
      by_cases hkind : v.inode.vtype = .symlink
      · rw [if_neg (not_not.mpr hkind), hkind]
        cases v.target <;> rfl
      · rw [if_pos hkind]
        cases hk : v.inode.vtype <;> first | rfl | exact absurd hk hkind

/-! ### Directories -/

/-- A directory is listed by the names that it has. -/
theorem Inv.lists (h : Inv g) {d : DirId} (hd : g.dirInode d = some i) : g.fileTree.Lists i (g.listDir d) := by
  have hids : ((g.dirEntries d).map Prod.fst).Nodup := (g.entryIds_sorted d).imp Nat.ne_of_lt
  constructor
  · refine (List.Nodup.of_map _ hids).map_on ?_
    rintro ⟨e, t, n⟩ hmem ⟨e', t', n'⟩ hmem' heq
    cases heq
    rw [h.names (h.mem_dirEntries.mp hmem) (h.mem_dirEntries.mp hmem')]
  · intro n j
    rw [h.entry_eq hd, h.resolveName_iff, TypeGraph.listDir, List.mem_map]
    constructor
    · rintro ⟨⟨e, t, m⟩, hmem, heq⟩
      cases heq
      exact ⟨e, h.mem_dirEntries.mp hmem⟩
    · rintro ⟨e, he⟩
      exact ⟨(e, j, n), h.mem_dirEntries.mpr he, rfl⟩

/-- Adding entries is filling the reply with what is said of each. -/
theorem addEntries_eq_fill (full : List DirEntry → DirEntry → Bool) (entries : List ((String × InodeId) × Nat))
    (reply : List DirEntry) :
    g.addEntries full entries reply = FileTree.fill full (entries.map g.direntAt) reply := by
  induction entries generalizing reply with
  | nil => rfl
  | cons entry entries ih =>
      rw [TypeGraph.addEntries, List.map_cons, FileTree.fill, ih]

/-- What a reply says of a name that is there. -/
theorem direntAt_eq (h : g.Presentable) {d : DirId} {listed : (String × InodeId) × Nat}
    (hlisted : listed.1 ∈ g.listDir d) : g.direntAt listed = g.fileTree.dirent listed := by
  obtain ⟨⟨e, t, n⟩, hmem, heq⟩ := List.mem_map.mp hlisted
  obtain ⟨inode, hdata, hget⟩ := h.target_live (h.inv.mem_dirEntries.mp hmem)
  obtain ⟨⟨n', t'⟩, k⟩ := listed
  cases heq
  unfold TypeGraph.direntAt FileTree.dirent
  dsimp only
  rw [hget, node_eq hdata]
  rfl

theorem readdir_eq (h : g.Presentable) (full : List DirEntry → DirEntry → Bool) (offset : Nat) {d : DirId}
    (hd : g.dirInode d = some i) : Fuse.readdir full i offset g =
      .ok (FileTree.fill full (((g.listDir d).zipIdx.drop offset).map g.fileTree.dirent) []) := by
  rw [Fuse.readdir, h.inv.dirForInode_iff.mpr hd]
  dsimp only
  rw [addEntries_eq_fill]
  congr 2
  refine List.map_congr_left fun listed hlisted => direntAt_eq h (d := d) ?_
  exact List.fst_mem_of_mem_zipIdx (List.mem_of_mem_drop hlisted)

/-! ### Counts -/

/-- As many values are listed as slots are taken. -/
theorem length_iter_eq_ncard {T : Type} {CAPACITY : Nat} (a : Arena T CAPACITY) :
    a.iter.length = {s | a.data s ≠ none}.ncard := by
  have hall : (a.iter.filter fun _ => true) = a.iter := List.filter_eq_self.mpr fun _ _ => rfl
  have hslots : (a.slotsWhere fun _ => true : Set Nat) = {s | a.data s ≠ none} := by
    ext s
    rw [Finset.mem_coe, Arena.mem_slotsWhere, Set.mem_ofPred_eq, Option.ne_none_iff_exists']
    simp
  rw [← hslots, Set.ncard_coe_finset, ← a.length_filter_iter, hall]

/-- The files and directories that statfs counts are the nodes and those of them that are directories. -/
theorem statfs_eq (h : g.Presentable) : Fuse.statfs g = g.fileTree.statfs := by
  have hnodes : {i | g.fileTree.node i ≠ none} = {i | g.inodes.data i ≠ none} := by
    ext i
    exact not_congr node_eq_none
  have hinode : ∀ {d}, g.dirs.data d ≠ none → ∃ i, g.dirInode d = some i := by
    intro d hd
    obtain ⟨dir, hdata⟩ := Option.ne_none_iff_exists'.mp hd
    exact ⟨dir.inodeId, Arena.view_eq_some.mpr ⟨dir, hdata, rfl⟩⟩
  have hdirs : {i | g.fileTree.IsDir i}.ncard = {d | g.dirs.data d ≠ none}.ncard := by
    refine (Set.ncard_congr (fun d _ => (g.dirInode d).getD 0) ?_ ?_ ?_).symm
    · intro d hd
      obtain ⟨i, hi⟩ := hinode hd
      rw [hi]
      exact h.inv.isDir_iff.mpr ⟨d, hi⟩
    · intro d d' hd hd' heq
      obtain ⟨i, hi⟩ := hinode hd
      obtain ⟨i', hi'⟩ := hinode hd'
      rw [hi, hi'] at heq
      cases heq
      exact h.inv.shape.dir_inj hi hi'
    · intro i hdir
      obtain ⟨d, hd⟩ := h.inv.isDir_iff.mp hdir
      obtain ⟨dir, hdata, _⟩ := Arena.view_eq_some.mp hd
      refine ⟨d, ?_, by rw [hd]; rfl⟩
      rw [Set.mem_ofPred_eq, hdata]
      exact Option.some_ne_none dir
  unfold Fuse.statfs FileTree.statfs
  rw [length_iter_eq_ncard, length_iter_eq_ncard, hnodes, hdirs]

/-! ### Attributes -/

theorem containsInode_eq_node (hi : i < 2 ^ 32) : g.containsInode i = (g.fileTree.node i).isSome := by
  rw [TypeGraph.containsInode, Arena.contains_eq_isSome, idToArena_of_lt hi]
  exact Option.isSome_map.symm

theorem getxattr_eq_tree {m : Mount} (hg : m.graph = g) (name : OsStr) (size : Nat)
    (hi : i < 2 ^ 32) : Fuse.getxattr i name size m = some (g.fileTree.getxattr i name.toStr size) := by
  have hlive := containsInode_eq_node (g := g) hi
  unfold Fuse.getxattr FileTree.getxattr
  rw [hg]
  cases hsplit : Fuse.splitXattr name.toStr with
  | none => rfl
  | some key =>
      dsimp only
      cases hv : g.fileTree.node i with
      | none =>
          rw [hv] at hlive
          rw [SotFs.getxattr, hlive]
          rfl
      | some v =>
          rw [hv] at hlive
          obtain ⟨_, hview⟩ := of_node hv
          have hmap : g.attributes i = v.xattr := congrArg FileNode.xattr hview
          rw [getxattr_eq hlive]
          dsimp only
          rw [← hmap]
          cases g.attributes i key <;> rfl

theorem listxattr_eq_tree (h : g.Presentable) {m : Mount} (hg : m.graph = g) (size : Nat) (hi : i < 2 ^ 32) :
    (g.fileTree.node i = none ∧ Fuse.listxattr i size m = some (.error .ENOENT)) ∨
      ∃ v names, g.fileTree.node i = some v ∧ names.Nodup ∧ (∀ key, key ∈ names ↔ v.xattr key ≠ none) ∧
        Fuse.listxattr i size m = some (Fuse.replyBytes size (Fuse.xattrBuffer names)) := by
  have hlive := containsInode_eq_node (g := g) hi
  unfold Fuse.listxattr
  rw [hg]
  cases hv : g.fileTree.node i with
  | none =>
      rw [hv] at hlive
      rw [SotFs.listxattr, hlive]
      exact .inl ⟨rfl, rfl⟩
  | some v =>
      rw [hv] at hlive
      obtain ⟨_, hview⟩ := of_node hv
      have hmap : g.attributes i = v.xattr := congrArg FileNode.xattr hview
      obtain ⟨names, hok, hnodup, hnames⟩ := (h.inv.attributesFollow h.below h.keys).list i hlive
      rw [hok]
      refine .inr ⟨v, names, rfl, hnodup, fun key => ?_, rfl⟩
      rw [hnames, hmap, Option.isSome_iff_ne_none]

end Reads

/-! ### The requests -/

section Queries

variable {m : Mount} {files : ExtTreeMap Nat InodeId}

theorem opened_insert (fh : Nat) (i : InodeId) :
    (fun x => (files.insert fh i)[x]?) = Function.update (fun x => files[x]?) fh (some i) := by
  funext x
  rw [ExtTreeMap.getElem?_insert, Function.update_apply]
  exact if_congr (compare_eq_iff_eq.trans eq_comm) rfl rfl

theorem opened_erase (fh : Nat) : (fun x => (files.erase fh)[x]?) = Function.update (fun x => files[x]?) fh none := by
  funext x
  rw [ExtTreeMap.getElem?_erase, Function.update_apply]
  exact if_congr (compare_eq_iff_eq.trans eq_comm) rfl rfl

theorem openFile_answers (req : FuseCaller) {i : InodeId} (hi : i < 2 ^ 32) :
    m.service.Answers req (.openFile i) (Fuse.openFile i m).1 (Fuse.openFile i m).2.service := by
  have hlive := containsInode_eq_node (g := m.graph) hi
  unfold Fuse.openFile
  rw [hlive]
  cases hv : m.graph.fileTree.node i with
  | none =>
      rw [if_neg (by simp)]
      exact .openMissing hv
  | some v =>
      have hne : m.service.tree.node i ≠ none := by
        intro hnone
        change m.graph.fileTree.node i = none at hnone
        rw [hv] at hnone
        cases hnone
      have hafter : Mount.service { m with openFiles := m.openFiles.insert m.nextFh i, nextFh := m.nextFh + 1 } =
          m.service.openFile i := FileService.ext rfl (opened_insert m.nextFh i) rfl
      rw [if_pos (by simp), hafter]
      exact .openFile hne

/-- They leave the graph. -/
theorem query_graph (req : FuseCaller) (query : FuseQuery) : (query.handle req m).2.graph = m.graph := by
  cases query with
  | readdir full i offset =>
      rw [FuseQuery.handle]
      split <;> rfl
  | openFile i =>
      rw [FuseQuery.handle, Fuse.openFile]
      split <;> rfl
  | _ => rfl

/-- Every request that changes no file is answered as the tree says. -/
theorem query_answers (h : m.graph.Presentable) (req : FuseCaller) {query : FuseQuery} (hfits : query.Fits) :
    ∃ reply, (query.handle req m).1 = some reply ∧
      m.service.Answers req query reply (query.handle req m).2.service := by
  have hisDir : ∀ {i d}, m.graph.dirForInode i = some d → m.service.tree.IsDir i := by
    intro i d hd
    exact h.inv.isDir_iff.mpr ⟨d, h.inv.dirForInode_iff.mp hd⟩
  have hisFile : ∀ {i}, m.graph.dirForInode i = none → ¬ m.service.tree.IsDir i := by
    intro i hd hdir
    obtain ⟨d, hlive⟩ := h.inv.isDir_iff.mp hdir
    rw [h.inv.dirForInode_iff.mpr hlive] at hd
    cases hd
  cases query with
  | lookup parent name =>
      refine ⟨_, rfl, ?_⟩
      rw [lookup_eq h]
      exact .lookup
  | getattr i =>
      refine ⟨_, rfl, ?_⟩
      rw [getattr_eq hfits]
      exact .getattr
  | readdir full i offset =>
      cases hd : m.graph.dirForInode i with
      | none =>
          have hread : Fuse.readdir full i offset m.graph = .error .ENOTDIR := by rw [Fuse.readdir, hd]
          simp only [FuseQuery.handle, hread]
          exact ⟨_, rfl, .readdirFile (hisFile hd)⟩
      | some d =>
          have hlive := h.inv.dirForInode_iff.mp hd
          simp only [FuseQuery.handle, readdir_eq h full offset hlive]
          exact ⟨_, rfl, .readdir (hisDir hd) (h.inv.lists hlive)⟩
  | openFile i => exact ⟨_, rfl, openFile_answers req hfits⟩
  | read i offset size =>
      obtain ⟨hi, hnonneg, hend⟩ := hfits
      exact ⟨_, read_eq hi hnonneg hend, .read⟩
  | release fh =>
      have hafter : (Fuse.release fh m).2.service = m.service.release fh :=
        FileService.ext rfl (opened_erase fh) rfl
      refine ⟨_, rfl, ?_⟩
      rw [FuseQuery.handle, hafter]
      exact .release
  | opendir i =>
      simp only [FuseQuery.handle, Fuse.opendir]
      cases hd : m.graph.dirForInode i with
      | none => exact ⟨_, rfl, .opendirFile (hisFile hd)⟩
      | some d => exact ⟨_, rfl, .opendir (hisDir hd)⟩
  | releasedir => exact ⟨_, rfl, .releasedir⟩
  | readlink i => exact ⟨_, readlink_eq hfits, .readlink⟩
  | statfs =>
      refine ⟨_, rfl, ?_⟩
      rw [statfs_eq h]
      exact .statfs
  | access i mask =>
      refine ⟨_, rfl, ?_⟩
      rw [access_eq req mask hfits]
      exact .access
  | flush => exact ⟨_, rfl, .flush⟩
  | getxattr i name size =>
      refine ⟨_, ?_, .getxattr⟩
      rw [FuseQuery.handle, getxattr_eq_tree rfl name size hfits]
      rfl
  | listxattr i size =>
      rcases listxattr_eq_tree h rfl size hfits with ⟨hnone, heq⟩ | ⟨v, names, hv, hnodup, hnames, heq⟩
      · rw [FuseQuery.handle, heq]
        exact ⟨_, rfl, .listxattrMissing hnone⟩
      · rw [FuseQuery.handle, heq]
        exact ⟨_, rfl, .listxattr hv hnodup hnames⟩

end Queries

end SotFs
