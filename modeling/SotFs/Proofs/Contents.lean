/-
Module: SotFs.Proofs.Contents
Layer: Proofs
Purpose: Files as byte sequences. The inode pool is read by the low half of an inode id, the side table of
  contents by the whole id, so a write or truncate under an id that only shares its low half with a file's
  own sets the size of that file and the content of another key. As long as every such call names an inode by
  its own id, sizes are the lengths of the stored contents on every run, and the three calls are overwriting,
  resizing and cutting of the content and touch no other content.
Trusted boundary: none
Main exports: TypeGraph.content, Op.OwnContent, SizesStored, ByteFiles, contents_followed
-/
import SotFs.Proofs.InodePool
import SotFs.Foundation.Buffers

namespace SotFs

open Std (ExtTreeMap ExtTreeSet)
open Foundation

/-- The bytes stored under an inode id, none when nothing is stored. -/
def TypeGraph.content (g : TypeGraph) (t : InodeId) : List UInt8 := g.fileData.getD t []

/-- The inode that the id leads to, if any, carries it. -/
def TypeGraph.NamesOwn (g : TypeGraph) (t : InodeId) : Prop := ∀ i, g.getInode t = some i → i.id = t

/-- A regular file that the current context may write. -/
def TypeGraph.CanWrite (g : TypeGraph) (t : InodeId) : Prop :=
  g.requireCap Rights.write = .ok () ∧ ∃ i, g.getInode t = some i ∧ i.vtype = .regular

/-- A write or truncate names the inode by its own id, and a write does not reach past the address space. -/
def Op.OwnContent (g : TypeGraph) : Op → Prop
  | .writeData t offset data => g.NamesOwn t ∧ offset + data.length < 2 ^ 64
  | .truncate t _ => g.NamesOwn t
  | _ => True

/-- The inode whose content a call writes. -/
def Op.Writes : Op → InodeId → Prop
  | .writeData t .., x => x = t
  | .truncate t _, x => x = t
  | _, _ => False

/-- Inodes sit at the slots of their ids, the counter is past every id in use, and a file's size is the
    length of its content. -/
structure SizesStored (g : TypeGraph) : Prop where
  slot : ∀ {s i}, g.inodes.data s = some i → s = idToArena i.id
  fresh : ∀ {s i}, g.inodes.data s = some i → i.id < g.nextInode
  keys : ∀ {t : InodeId}, t ∈ g.fileData → t < g.nextInode
  size : ∀ {s i}, g.inodes.data s = some i → i.vtype = .regular → i.size = (g.content i.id).length

/-- A regular file under its own id. -/
def TypeGraph.RegularFile (g : TypeGraph) (t : InodeId) : Prop :=
  ∃ i, g.getInode t = some i ∧ i.id = t ∧ i.vtype = .regular

/-- The byte-sequence model: what sizes are, and what write_data, truncate and read_data do to a regular file
    named by its own id. -/
structure ByteFiles (g : TypeGraph) : Prop where
  size : ∀ s i, g.inodes.get s = some i → i.vtype = .regular → i.size = (g.content i.id).length
  write : ∀ now t offset data, g.RegularFile t → g.requireCap Rights.write = .ok () →
    offset + data.length ≤ isizeMax →
      (writeData now t offset data g).1 = .ok data.length ∧
        (writeData now t offset data g).2.content t = Buffer.overwrite 0 (g.content t) offset data
  truncate : ∀ now t newSize, g.RegularFile t → g.requireCap Rights.write = .ok () → newSize ≤ isizeMax →
      (SotFs.truncate now t newSize g).1 = .ok () ∧
        (SotFs.truncate now t newSize g).2.content t = Buffer.resize 0 (g.content t) newSize
  read : ∀ t offset size, g.RegularFile t → offset + size < 2 ^ 64 → readData g t offset size =
    .ok ((g.content t).extract (min offset (g.content t).length) (min (offset + size) (g.content t).length))
  other : ∀ now (op : Op) x, ¬ op.Writes x → (op.apply now g).2.content x = g.content x

section Content

variable {now : Nat → Timestamp} {g : TypeGraph} {t : InodeId} {buf : List UInt8}

theorem content_insert (x : InodeId) :
    ({ g with fileData := g.fileData.insert t buf } : TypeGraph).content x =
      if x = t then buf else g.content x := by
  unfold TypeGraph.content
  dsimp only
  rw [ExtTreeMap.getD_insert]
  by_cases hx : t = x
  · rw [if_pos (Std.compare_eq_iff_eq.mpr hx), if_pos hx.symm]
  · rw [if_neg (mt Std.compare_eq_iff_eq.mp hx), if_neg (Ne.symm hx)]

/-- An absent key reads as no bytes, so storing what is read changes no content. -/
theorem content_insert_self (x : InodeId) :
    ({ g with fileData := g.fileData.insert t (g.content t) } : TypeGraph).content x = g.content x := by
  rw [content_insert]
  split
  · rename_i hx
    rw [hx]
  · rfl

/-- The graph after a write or truncate that went through. -/
def TypeGraph.storeContent (g : TypeGraph) (now : Nat → Timestamp) (op : ProvOp) (t : InodeId)
    (buf : List UInt8) : TypeGraph :=
  (({ g with fileData := g.fileData.insert t buf }).modifyInode t fun i =>
    { i with size := buf.length, mtime := now 0 }).recordProv (now 1) op t ""

theorem content_storeContent {op : ProvOp} (x : InodeId) :
    (g.storeContent now op t buf).content x = if x = t then buf else g.content x :=
  content_insert x

/-- write_data within the address space fails its checks, panics with nothing written, or overwrites. -/
theorem writeData_spec (now : Nat → Timestamp) (g : TypeGraph) (t : InodeId) {offset : Nat}
    {data : List UInt8} (hend : offset + data.length < 2 ^ 64) :
    (¬ g.CanWrite t ∧ (writeData now t offset data g).2 = g) ∨
    (g.CanWrite t ∧ isizeMax < offset + data.length ∧ writeData now t offset data g =
      (.panic, { g with fileData := g.fileData.insert t (g.content t) })) ∨
    (g.CanWrite t ∧ writeData now t offset data g = (.ok data.length,
      g.storeContent now .write t (Buffer.overwrite 0 (g.content t) offset data))) := by
  have hstop : (offset + data.length) % 2 ^ 64 = offset + data.length := Nat.mod_eq_of_lt hend
  have hcopied : copyIntoBytes (if (g.content t).length < offset + data.length then
      resizeBytes (g.content t) (offset + data.length) else g.content t) offset
        (offset + data.length) data = Buffer.overwrite 0 (g.content t) offset data :=
    Buffer.overwrite_eq (by rw [resizeBytes, Buffer.resize_eq])
  unfold TypeGraph.content at hcopied
  unfold writeData TypeGraph.CanWrite
  split
  · rename_i hcap
    refine .inl ⟨?_, rfl⟩
    rw [hcap]
    rintro ⟨⟨⟩, _⟩
  · rename_i hcap
    split
    · rename_i hgone
      refine .inl ⟨?_, rfl⟩
      rw [hgone]
      rintro ⟨_, i, ⟨⟩, _⟩
    · rename_i inode hinode
      split
      · rename_i hkind
        refine .inl ⟨?_, rfl⟩
        rintro ⟨_, i, hi, hregular⟩
        exact hkind (Option.some.inj (hinode.symm.trans hi) ▸ hregular)
      · rename_i hkind
        have hcan : g.CanWrite t := ⟨hcap, inode, hinode, not_not.mp hkind⟩
        dsimp only
        rw [hstop]
        split
        · rename_i hlarge
          exact .inr (.inl ⟨hcan, hlarge, rfl⟩)
        · rw [if_neg (by omega), hcopied]
          exact .inr (.inr ⟨hcan, rfl⟩)

/-- truncate fails its checks, panics with nothing written, or resizes. -/
theorem truncate_spec (now : Nat → Timestamp) (t : InodeId) (newSize : Nat) (g : TypeGraph) :
    (¬ g.CanWrite t ∧ (truncate now t newSize g).2 = g) ∨
    (g.CanWrite t ∧ isizeMax < newSize ∧ truncate now t newSize g =
      (.panic, { g with fileData := g.fileData.insert t (g.content t) })) ∨
    (g.CanWrite t ∧ truncate now t newSize g = (.ok (),
      g.storeContent now .truncate t (Buffer.resize 0 (g.content t) newSize))) := by
  unfold truncate TypeGraph.CanWrite
  split
  · rename_i hcap
    refine .inl ⟨?_, rfl⟩
    rw [hcap]
    rintro ⟨⟨⟩, _⟩
  · rename_i hcap
    split
    · rename_i hgone
      refine .inl ⟨?_, rfl⟩
      rw [hgone]
      rintro ⟨_, i, ⟨⟩, _⟩
    · rename_i inode hinode
      split
      · rename_i hkind
        refine .inl ⟨?_, rfl⟩
        rintro ⟨_, i, hi, hregular⟩
        exact hkind (Option.some.inj (hinode.symm.trans hi) ▸ hregular)
      · rename_i hkind
        have hcan : g.CanWrite t := ⟨hcap, inode, hinode, not_not.mp hkind⟩
        dsimp only
        split
        · rename_i hlarge
          exact .inr (.inl ⟨hcan, hlarge, rfl⟩)
        · refine .inr (.inr ⟨hcan, ?_⟩)
          unfold TypeGraph.storeContent
          rw [Buffer.length_resize, ← Buffer.resize_eq]
          rfl

theorem Op.content_eq_of_not_writes {op : Op} {x : InodeId} (hother : ¬ op.Writes x) :
    (op.apply now g).2.content x = g.content x := by
  by_cases hwrite : ∃ t o b, op = .writeData t o b
  · obtain ⟨t, o, b, rfl⟩ := hwrite
    have hx : x ≠ t := hother
    rw [Op.apply, Prod.map_snd]
    rcases writeData_cases now t o b g with
      ⟨e, heq⟩ | ⟨_, _, _, ⟨buf, heq⟩ | ⟨buf, heq⟩⟩
    · rw [heq]
      rfl
    · rw [heq]
      exact (content_insert x).trans (if_neg hx)
    · rw [heq]
      exact (content_insert x).trans (if_neg hx)
  · by_cases htrunc : ∃ t n, op = .truncate t n
    · obtain ⟨t, n, rfl⟩ := htrunc
      have hx : x ≠ t := hother
      rw [Op.apply, Prod.map_snd]
      rcases truncate_cases now t n g with
        ⟨e, heq⟩ | ⟨_, _, _, ⟨buf, heq⟩ | heq⟩
      · rw [heq]
        rfl
      · rw [heq]
        exact (content_insert x).trans (if_neg hx)
      · rw [heq]
        exact (content_insert x).trans (if_neg hx)
    · unfold TypeGraph.content
      rw [Op.fileData_eq (fun t o b heq => hwrite ⟨t, o, b, heq⟩) fun t n heq => htrunc ⟨t, n, heq⟩]

end Content

/-! ### Sizes on runs -/

namespace SizesStored

variable {now : Nat → Timestamp} {g : TypeGraph} {t : InodeId}

theorem new (now : Timestamp) : SizesStored (.new now) := by
  have hborn : ∀ {s i}, (TypeGraph.new now).inodes.data s = some i → i.Born 1 2 s := by
    intro s i hi
    have hstep : PoolStep Inode.Relinked 1 2 .new (TypeGraph.new now).inodes := .insert rfl (by rintro ⟨⟩)
    rcases hstep.old hi with hborn | ⟨_, hnone, _⟩
    · exact hborn
    · cases hnone
  refine ⟨fun hi => (hborn hi).slot, fun hi => (hborn hi).lt, fun ht => ?_, fun hi hkind => ?_⟩
  · exact absurd ht ExtTreeMap.not_mem_empty
  · exact (hborn hi).size hkind

/-- Nothing is stored under an id not yet issued. -/
theorem content_of_le (h : SizesStored g) (ht : g.nextInode ≤ t) : g.content t = [] := by
  unfold TypeGraph.content
  exact ExtTreeMap.getD_eq_fallback fun hmem => absurd (h.keys hmem) (not_lt.mpr ht)

/-- A call that writes no content, whatever its outcome. -/
theorem of_poolStep {g' : TypeGraph} {keeps : Inode → Inode → Prop} (h : SizesStored g)
    (hstep : PoolStep keeps g.nextInode g'.nextInode g.inodes g'.inodes)
    (hkeeps : ∀ {i i'}, keeps i i' → i'.id = i.id ∧ i'.vtype = i.vtype ∧ i'.size = i.size)
    (hdata : g'.fileData = g.fileData) : SizesStored g' where
  slot := by
    intro s i' hi'
    rcases hstep.old hi' with hborn | ⟨i, hi, hkept⟩
    · exact hborn.slot
    · rw [(hkeeps hkept).1]
      exact h.slot hi
  fresh := by
    intro s i' hi'
    rcases hstep.old hi' with hborn | ⟨i, hi, hkept⟩
    · exact hborn.lt
    · rw [(hkeeps hkept).1]
      exact (h.fresh hi).trans_le hstep.le
  keys := by
    intro t ht
    rw [hdata] at ht
    exact (h.keys ht).trans_le hstep.le
  size := by
    intro s i' hi' hkind
    unfold TypeGraph.content
    rw [hdata]
    rcases hstep.old hi' with hborn | ⟨i, hi, hkept⟩
    · -- a new file is under a key that was never written
      rw [hborn.size hkind]
      exact (congrArg List.length (h.content_of_le hborn.le)).symm
    · obtain ⟨hid, hvtype, hsize⟩ := hkeeps hkept
      rw [hid, hsize]
      exact h.size hi (hvtype.symm.trans hkind)

/-- Storing what is read already. -/
theorem insert_self (h : SizesStored g) (ht : t < g.nextInode) :
    SizesStored { g with fileData := g.fileData.insert t (g.content t) } where
  slot := h.slot
  fresh := h.fresh
  keys := by
    intro x hx
    rcases ExtTreeMap.mem_insert.mp hx with htx | hx
    · rw [← Std.compare_eq_iff_eq.mp htx]
      exact ht
    · exact h.keys hx
  size := by
    intro s i hi hkind
    rw [content_insert_self]
    exact h.size hi hkind

/-- A write or truncate of an inode named by its own id. -/
theorem storeContent (h : SizesStored g) {op : ProvOp} {buf : List UInt8} (hcan : g.CanWrite t)
    (hown : g.NamesOwn t) : SizesStored (g.storeContent now op t buf) := by
  obtain ⟨_, i, hi, _⟩ := hcan
  have hid : i.id = t := hown i hi
  rw [TypeGraph.getInode, Arena.get_eq_data] at hi
  have ht : t < g.nextInode := hid ▸ h.fresh hi
  -- the write changes the size of one inode and nothing else of any
  have hold : ∀ {s j'}, (g.storeContent now op t buf).inodes.data s = some j' →
      ∃ j, g.inodes.data s = some j ∧ j'.id = j.id ∧ j'.vtype = j.vtype ∧
        (j.id = t → j'.size = buf.length) ∧ (j.id ≠ t → j'.size = j.size) := by
    intro s j' hj'
    change (g.inodes.modify (idToArena t) _).data s = some j' at hj'
    rw [Arena.data_modify, Function.update_apply] at hj'
    split at hj'
    · rename_i hs
      obtain ⟨j, hj, rfl⟩ := Option.map_eq_some_iff.mp hj'
      rw [hs]
      refine ⟨j, hj, rfl, rfl, fun _ => rfl, fun hne => absurd ?_ hne⟩
      rw [← Option.some.inj (hi.symm.trans hj)]
      exact hid
    · rename_i hs
      refine ⟨j', hj', rfl, rfl, fun heq => absurd ?_ hs, fun _ => rfl⟩
      rw [h.slot hj', heq]
  refine ⟨?_, ?_, ?_, ?_⟩
  · intro s j' hj'
    obtain ⟨j, hj, hjid, _⟩ := hold hj'
    rw [hjid]
    exact h.slot hj
  · intro s j' hj'
    obtain ⟨j, hj, hjid, _⟩ := hold hj'
    rw [hjid]
    exact h.fresh hj
  · intro x hx
    rcases ExtTreeMap.mem_insert.mp hx with htx | hx
    · rw [← Std.compare_eq_iff_eq.mp htx]
      exact ht
    · exact h.keys hx
  · intro s j' hj' hkind
    obtain ⟨j, hj, hjid, hvtype, hwritten, hkept⟩ := hold hj'
    rw [content_storeContent, hjid]
    split
    · rename_i hjt
      exact hwritten hjt
    · rename_i hjt
      rw [hkept hjt]
      exact h.size hj (hvtype.symm.trans hkind)

/-- A call that names inodes to write by their own ids. -/
theorem apply (h : SizesStored g) {op : Op} (hown : op.OwnContent g) : SizesStored (op.apply now g).2 := by
  -- an own id that a check found alive was issued
  have hissued : ∀ {t}, g.CanWrite t → g.NamesOwn t → t < g.nextInode := by
    rintro t ⟨_, i, hi, _⟩ hown
    rw [← hown i hi]
    rw [TypeGraph.getInode, Arena.get_eq_data] at hi
    exact h.fresh hi
  cases op with
  | writeData t o b =>
      rw [Op.apply, Prod.map_snd]
      rcases writeData_spec now g t hown.2 with ⟨_, heq⟩ | ⟨hcan, _, heq⟩ | ⟨hcan, heq⟩
      · rw [heq]
        exact h
      · rw [heq]
        exact h.insert_self (hissued hcan hown.1)
      · rw [heq]
        exact h.storeContent hcan hown.1
  | truncate t n =>
      rw [Op.apply, Prod.map_snd]
      rcases truncate_spec now t n g with ⟨_, heq⟩ | ⟨hcan, _, heq⟩ | ⟨hcan, heq⟩
      · rw [heq]
        exact h
      · rw [heq]
        exact h.insert_self (hissued hcan hown)
      · rw [heq]
        exact h.storeContent hcan hown
  | createFile | mkdir | rmdir | link | unlink | rename | symlink | writeBlock | chmod | chown | setxattr
  | removexattr | setacl | setQuota =>
      refine h.of_poolStep (Op.poolStep _ _ _) ?_ (Op.fileData_eq (by simp) (by simp))
      intro i i' hkept
      exact ⟨hkept.id, hkept.vtype, hkept.size (by simp) (by simp)⟩

end SizesStored

/-- read_data of a regular file cuts the stored content. -/
theorem readData_content {g : TypeGraph} {t : InodeId} {i : Inode} {offset size : Nat}
    (hi : g.getInode t = some i) (hkind : i.vtype = .regular) (hend : offset + size < 2 ^ 64) :
    readData g t offset size = .ok ((g.content t).extract (min offset (g.content t).length)
      (min (offset + size) (g.content t).length)) := by
  unfold readData TypeGraph.content
  rw [hi, ExtTreeMap.getD_eq_getD_getElem?]
  dsimp only
  rw [if_neg (not_not.mpr hkind)]
  cases g.fileData[t]? with
  | none => rw [Option.getD_none, List.extract_eq_take_drop, List.drop_nil, List.take_nil]
  | some buf =>
      have hstop : min (min offset buf.length + size) buf.length = min (offset + size) buf.length := by omega
      dsimp only [Option.getD_some]
      rw [if_neg (by omega), List.extract_eq_take_drop, List.drop_take, hstop]

/-- A state whose sizes are the lengths of its contents follows the byte-sequence model. -/
theorem SizesStored.byteFiles {g : TypeGraph} (h : SizesStored g) : ByteFiles g where
  size := by
    intro s i hi hkind
    rw [Arena.get_eq_data] at hi
    exact h.size hi hkind
  write := by
    rintro now t offset data ⟨i, hi, _, hkind⟩ hcap hend
    have hsmall : isizeMax < 2 ^ 64 := by decide
    rcases writeData_spec now g t (hend.trans_lt hsmall) with
      ⟨hno, _⟩ | ⟨_, hlarge, _⟩ | ⟨_, heq⟩
    · exact absurd ⟨hcap, i, hi, hkind⟩ hno
    · exact absurd hend (not_le.mpr hlarge)
    · rw [heq]
      exact ⟨rfl, (content_storeContent t).trans (if_pos rfl)⟩
  truncate := by
    rintro now t newSize ⟨i, hi, _, hkind⟩ hcap hend
    rcases truncate_spec now t newSize g with
      ⟨hno, _⟩ | ⟨_, hlarge, _⟩ | ⟨_, heq⟩
    · exact absurd ⟨hcap, i, hi, hkind⟩ hno
    · exact absurd hend (not_le.mpr hlarge)
    · rw [heq]
      exact ⟨rfl, (content_storeContent t).trans (if_pos rfl)⟩
  read := by
    rintro t offset size ⟨i, hi, _, hkind⟩ hend
    exact readData_content hi hkind hend
  other := by
    intro now op x hother
    exact Op.content_eq_of_not_writes hother

/-- On every run whose writes and truncates name inodes by their own ids, files are byte sequences. -/
theorem contents_followed {g : TypeGraph} (hrun : Run (fun g op _ => op.OwnContent g) g) : ByteFiles g := by
  suffices h : SizesStored g from h.byteFiles
  induction hrun with
  | new now => exact .new now
  | call now op _ hown ih => exact ih.apply hown
  | setCapCtx ctx _ ih => exact ⟨ih.slot, ih.fresh, ih.keys, ih.size⟩
  | enableProvLog _ ih => exact ⟨ih.slot, ih.fresh, ih.keys, ih.size⟩
  | disableProvLog _ ih => exact ⟨ih.slot, ih.fresh, ih.keys, ih.size⟩

theorem contents_followed_file :
    ByteFiles ((Op.writeData 2 1 [7]).apply (fun _ => 0)
      ((Op.createFile 1 "a" 0 0 .fileDefault).apply (fun _ => 0) (.new 0)).2).2 := by
  refine contents_followed (.call _ _ (.call _ _ (.new 0) trivial) ⟨?_, by decide⟩)
  intro i hi
  have hid : (((Op.createFile 1 "a" 0 0 .fileDefault).apply (fun _ => 0) (.new 0)).2.getInode 2).map
      Inode.id = some 2 := by decide
  rw [hi] at hid
  exact Option.some.inj hid

/-- A write under an id whose low half is that of file 2: the size of the file becomes one, and nothing is
    stored for it. -/
theorem write_by_alias :
    ∃ g : TypeGraph, Run (fun _ op _ => ∀ t o b, op = .writeData t o b → o + b.length < 2 ^ 64) g ∧
      ∃ i, g.getInode 2 = some i ∧ i.id = 2 ∧ i.vtype = .regular ∧ i.size = 1 ∧ g.content 2 = [] := by
  refine ⟨((Op.writeData (2 + 2 ^ 32) 0 [1]).apply (fun _ => 0)
      ((Op.createFile 1 "a" 0 0 .fileDefault).apply (fun _ => 0) (.new 0)).2).2,
    .call _ _ (.call _ _ (.new 0) (by simp)) ?_, ?_⟩
  · rintro t o b heq
    cases heq
    decide
  · have hfile : (((Op.writeData (2 + 2 ^ 32) 0 [1]).apply (fun _ => 0)
        ((Op.createFile 1 "a" 0 0 .fileDefault).apply (fun _ => 0) (.new 0)).2).2.getInode 2).map
          (fun i => (i.id, i.vtype, i.size)) = some (2, .regular, 1) := by decide
    obtain ⟨i, hi, hfields⟩ := Option.map_eq_some_iff.mp hfile
    obtain ⟨hid, hfields⟩ := Prod.mk.inj hfields
    obtain ⟨hkind, hsize⟩ := Prod.mk.inj hfields
    exact ⟨i, hi, hid, hkind, hsize, by decide⟩

end SotFs
