/-
Module: SotFs.Proofs.BlockMap
Layer: Proofs
Purpose: The map from files to blocks. It is well formed when only live regular files own block edges, no two
  at one offset, and the index lists the edges of each inode. write_block asks only that the inode is there,
  and a directory is freed without its blocks, so a run keeps the map well formed under the conditions of the
  WriteBlock action: a regular file, under its own id, and an offset not in use.
Trusted boundary: none
Main exports: TypeGraph.BlockMapOk, Op.KeepsBlockMap, blockMap_ok, blockMap_broken
-/
import SotFs.Proofs.BlockEdges

namespace SotFs

open Std (ExtTreeMap ExtTreeSet)
open Foundation

/-- A regular file lives under this very id. -/
def TypeGraph.LiveFile (g : TypeGraph) (t : InodeId) : Prop :=
  ∃ i, g.getInode t = some i ∧ i.id = t ∧ i.vtype = .regular

instance (g : TypeGraph) (t : InodeId) : Decidable (g.LiveFile t) := decideSome _ _

/-- Block edges come from live regular files, at different offsets, and are listed. -/
structure TypeGraph.BlockMapOk (g : TypeGraph) : Prop where
  files : ∀ {e id t b o}, g.edges.get e = some (.pointsTo id t b o) → g.LiveFile t
  offsets : ∀ {e e' id id' t b b' o}, g.edges.get e = some (.pointsTo id t b o) →
    g.edges.get e' = some (.pointsTo id' t b' o) → e = e'
  listed : ∀ {t e}, e ∈ SetIndex.members g.inodePointsTo t ↔
    ∃ id b o, g.edges.get e = some (.pointsTo id t b o)

/-- The inode at `t` is freed under the id that its block edges have. -/
def TypeGraph.FreesBlocks (g : TypeGraph) (t : InodeId) : Prop :=
  ∀ e id t' b o, g.edges.get e = some (.pointsTo id t' b o) → idToArena t' = idToArena t → t' = t

/-- A block goes to a live regular file at an offset that it has no block at, and an inode is freed under the
    id that its block edges have. -/
structure Op.KeepsBlockMap (g : TypeGraph) (op : Op) : Prop where
  writes : ∀ t o s c, op = .writeBlock t o s c → op.Attaches g →
    g.LiveFile t ∧ ∀ e id b, g.edges.get e ≠ some (.pointsTo id t b o)
  frees : ∀ t, op.Frees g t → g.FreesBlocks t

section Steps

variable {now : Nat → Timestamp} {g : TypeGraph} {op : Op}

/-- A block edge, read by its slot or by what it says. -/
theorem Inv.get_pointsTo_iff (h : Inv g) {e : EdgeId} {t : InodeId} {b : BlockId} {o : Nat} :
    (∃ id, g.edges.get e = some (.pointsTo id t b o)) ↔ g.edges.view Edge.pointer e = some (t, b, o) := by
  rw [h.pointer_iff]
  constructor
  · rintro ⟨id, hget⟩
    rw [Arena.get_eq_data] at hget
    have hid : id = e := h.edgeIds.id_eq hget
    rwa [hid] at hget
  · intro hdata
    exact ⟨e, by rw [Arena.get_eq_data, hdata]⟩

/-- A live file has its kind at the slot of its id, which is the id. -/
theorem Inv.liveFile_iff (h : Inv g) {t : InodeId} :
    g.LiveFile t ↔ idToArena t = t ∧ g.kinds t = some .regular := by
  constructor
  · rintro ⟨i, hi, hid, hkind⟩
    rw [TypeGraph.getInode, Arena.get_eq_data] at hi
    have hslot : idToArena t = t := h.inodeIds.eq_of_id hi hid
    rw [hslot] at hi
    exact ⟨hslot, Arena.view_eq_some.mpr ⟨i, hi, by rw [hkind]⟩⟩
  · rintro ⟨hslot, hkind⟩
    obtain ⟨i, hi, hregular⟩ := Arena.view_eq_some.mp hkind
    refine ⟨i, ?_, h.inodeIds.id_eq hi, Option.some.inj hregular⟩
    rw [TypeGraph.getInode, Arena.get_eq_data, hslot, hi]

/-- The index is exact on every graph with the invariant. -/
theorem Inv.blocks_listed (h : Inv g) {t : InodeId} {e : EdgeId} :
    e ∈ SetIndex.members g.inodePointsTo t ↔ ∃ id b o, g.edges.get e = some (.pointsTo id t b o) := by
  rw [h.pointsTo_iff]
  constructor
  · rintro ⟨b, o, hdata⟩
    exact ⟨e, b, o, by rw [Arena.get_eq_data, hdata]⟩
  · rintro ⟨id, b, o, hget⟩
    exact ⟨b, o, h.pointer_iff.mp (h.get_pointsTo_iff.mp ⟨id, hget⟩)⟩

/-- A file with a block edge after the call is live after it. -/
theorem Op.liveFile_kept (h : Inv g) (hcall : InCapacityCall g op (op.apply now g).2)
    (hop : op.KeepsBlockMap g) {e : EdgeId} {t : InodeId} {b : BlockId} {o : Nat} (ht : g.LiveFile t)
    (hold : g.edges.view Edge.pointer e = some (t, b, o))
    (hnew : (op.apply now g).2.edges.view Edge.pointer e = some (t, b, o)) :
    (op.apply now g).2.LiveFile t := by
  have h' : Inv (op.apply now g).2 := op.apply_inv _ h hcall.1 hcall.2
  obtain ⟨hslot, hkind⟩ := h.liveFile_iff.mp ht
  rcases op.kinds_freed h hcall hkind with hkept | ⟨t', hslot', hfrees, hgone⟩
  · exact h'.liveFile_iff.mpr ⟨hslot, hkept⟩
  · -- the freed file is this one, and its block edges went with it
    obtain ⟨id, hget⟩ := h.get_pointsTo_iff.mpr hold
    have heq : t = t' := hop.frees t' hfrees e id t b o hget (hslot.trans hslot'.symm)
    subst heq
    exact absurd hnew (hgone (by decide) e b o)

/-- write_block frees nothing. -/
theorem Op.liveFile_written (h : Inv g) (hcall : InCapacityCall g op (op.apply now g).2)
    (hwrite : ∃ t o s c, op = .writeBlock t o s c) {t : InodeId} (ht : g.LiveFile t) :
    (op.apply now g).2.LiveFile t := by
  have h' : Inv (op.apply now g).2 := op.apply_inv _ h hcall.1 hcall.2
  obtain ⟨hslot, hkind⟩ := h.liveFile_iff.mp ht
  rcases op.kinds_kept h hcall hkind with hkept | ⟨t', _, hfrees⟩
  · exact h'.liveFile_iff.mpr ⟨hslot, hkept⟩
  · obtain ⟨_, _, _, _, rfl⟩ := hwrite
    exact absurd hfrees id

/-- A call under the conditions of the model keeps the map well formed. -/
theorem Op.blockMapOk (h : Inv g) (hmap : g.BlockMapOk) (hcall : InCapacityCall g op (op.apply now g).2)
    (hop : op.KeepsBlockMap g) : (op.apply now g).2.BlockMapOk := by
  have h' : Inv (op.apply now g).2 := op.apply_inv _ h hcall.1 hcall.2
  have hunused : ∀ {e t b o s c}, op.Attaches g → op = .writeBlock t o s c →
      g.edges.view Edge.pointer e ≠ some (t, b, o) := by
    intro e t b o s c hattaches hwrite hold
    obtain ⟨id, hget⟩ := h.get_pointsTo_iff.mpr hold
    exact (hop.writes t o s c hwrite hattaches).2 e id b hget
  refine ⟨fun {e id t b o} hget => ?_, fun {e e' id id' t b b' o} hget hget' => ?_, h'.blocks_listed⟩
  · have hnew := h'.get_pointsTo_iff.mp ⟨id, hget⟩
    rcases op.pointers h hcall hnew with hold | ⟨_, hattaches, s, c, hwrite⟩
    · obtain ⟨id', hget'⟩ := h.get_pointsTo_iff.mpr hold
      exact op.liveFile_kept h hcall hop (hmap.files hget') hold hnew
    · exact op.liveFile_written h hcall ⟨t, o, s, c, hwrite⟩ (hop.writes t o s c hwrite hattaches).1
  · have hnew := h'.get_pointsTo_iff.mp ⟨id, hget⟩
    have hnew' := h'.get_pointsTo_iff.mp ⟨id', hget'⟩
    rcases op.pointers h hcall hnew with hold | ⟨hb, hattaches, s, c, hwrite⟩ <;>
      rcases op.pointers h hcall hnew' with hold' | ⟨hb', hattaches', s', c', hwrite'⟩
    · obtain ⟨_, hget⟩ := h.get_pointsTo_iff.mpr hold
      obtain ⟨_, hget'⟩ := h.get_pointsTo_iff.mpr hold'
      exact hmap.offsets hget hget'
    · exact absurd hold (hunused hattaches' hwrite')
    · exact absurd hold' (hunused hattaches hwrite)
    · -- both are the edge of the new block
      subst hb hb'
      exact h'.side.blocks.unique hnew hnew'

end Steps

/-! ### Runs -/

/-- A new graph has no block edges. -/
theorem blockMapOk_new (now : Timestamp) : (TypeGraph.new now).BlockMapOk := by
  have hnone : ∀ {e id t b o}, (TypeGraph.new now).edges.get e ≠ some (.pointsTo id t b o) := by
    intro e id t b o hget
    have hview := (Inv.new now).get_pointsTo_iff.mp ⟨id, hget⟩
    rw [new_view now rfl] at hview
    cases hview
  exact ⟨fun hget => absurd hget hnone, fun hget => absurd hget hnone, (Inv.new now).blocks_listed⟩

/-- Along every run whose calls are under the conditions of the model the map is well formed. -/
theorem blockMap_ok {g : TypeGraph}
    (hrun : Run (fun g op g' => InCapacityCall g op g' ∧ op.KeepsBlockMap g) g) : g.BlockMapOk := by
  induction hrun with
  | new now => exact blockMapOk_new now
  | call now op hbefore hallowed ih =>
      have hinv : Inv _ := Reachable.inv (hbefore.mono fun _ _ _ hcall => hcall.1)
      exact op.blockMapOk hinv ih hallowed.1 hallowed.2
  | setCapCtx _ _ ih => exact ⟨ih.files, ih.offsets, ih.listed⟩
  | enableProvLog _ ih => exact ⟨ih.files, ih.offsets, ih.listed⟩
  | disableProvLog _ ih => exact ⟨ih.files, ih.offsets, ih.listed⟩

theorem Op.keepsBlockMap_createFile {g : TypeGraph} {d : DirId} {n : String} {uid gid : UInt32}
    {p : Permissions} : (Op.createFile d n uid gid p).KeepsBlockMap g where
  writes t o s c hwrite := by cases hwrite
  frees t hfrees := absurd hfrees id

/-- A scan of the edges shows that the offset is not in use. -/
theorem Op.keepsBlockMap_writeBlock {g : TypeGraph} {t : InodeId} {o : Nat} (s c : Nat) (hfile : g.LiveFile t)
    (hunused : ∀ p ∈ g.edges.iter, ∀ w ∈ p.2.pointer, ¬ (w.1 = t ∧ w.2.2 = o)) :
    (Op.writeBlock t o s c).KeepsBlockMap g where
  writes t' o' s' c' hwrite _ := by
    cases hwrite
    refine ⟨hfile, fun e id b hget => ?_⟩
    rw [Arena.get_eq_data] at hget
    exact hunused (e, _) (Arena.mem_iter.mpr hget) (t, b, o) rfl ⟨rfl, rfl⟩
  frees t hfrees := absurd hfrees id

/-- A scan of the edges shows that the freed inode owns them under its own id. -/
theorem Op.keepsBlockMap_unlink {g : TypeGraph} {d : DirId} {n : String} {t : InodeId}
    (hname : g.resolveName d n = some t)
    (hsources : ∀ p ∈ g.edges.iter, ∀ w ∈ p.2.pointer, idToArena w.1 = idToArena t → w.1 = t) :
    (Op.unlink d n).KeepsBlockMap g where
  writes t o s c hwrite := by cases hwrite
  frees t' hfrees e id w b o hget hslot := by
    obtain ⟨_, _, hresolve, _⟩ := hfrees
    obtain rfl := Option.some.inj (hname.symm.trans hresolve)
    rw [Arena.get_eq_data] at hget
    exact hsources (e, _) (Arena.mem_iter.mpr hget) (w, b, o) rfl hslot

/-- Two files with a block each, and one of them unlinked. -/
theorem blockMap_ok_unlinked :
    ((TypeGraph.new 0).calls (fun _ => 0)
      [.createFile 1 "a" 0 0 .fileDefault, .writeBlock 2 0 0 8, .createFile 1 "b" 0 0 .fileDefault,
        .writeBlock 3 0 0 8, .unlink 1 "a"]).BlockMapOk :=
  blockMap_ok (Run.calls _ (.new 0)
    ⟨⟨by decide, Op.keepsBlockMap_createFile⟩,
      ⟨by decide, Op.keepsBlockMap_writeBlock _ _ (by decide) (by decide)⟩,
      ⟨by decide, Op.keepsBlockMap_createFile⟩,
      ⟨by decide, Op.keepsBlockMap_writeBlock _ _ (by decide) (by decide)⟩,
      ⟨by decide, Op.keepsBlockMap_unlink (t := 2) (by decide) (by decide)⟩, trivial⟩)

/-- A block on a directory, two blocks at one offset, and a directory that is gone with its block behind. -/
theorem blockMap_broken :
    let g := (TypeGraph.new 0).calls (fun _ => 0) [.writeBlock 1 0 0 8]
    let g' := (TypeGraph.new 0).calls (fun _ => 0)
      [.createFile 1 "a" 0 0 .fileDefault, .writeBlock 2 0 0 8, .writeBlock 2 0 8 8]
    let g'' := (TypeGraph.new 0).calls (fun _ => 0)
      [.mkdir 1 "d" 0 0 .dirDefault, .writeBlock 2 0 0 8, .rmdir 1 "d"]
    (Reachable g ∧ ¬ g.BlockMapOk) ∧ (Reachable g' ∧ ¬ g'.BlockMapOk) ∧
      Reachable g'' ∧ g''.containsInode 2 = false ∧ ¬ g''.BlockMapOk := by
  refine ⟨⟨Run.calls _ (.new 0) (by decide), fun hmap => ?_⟩,
    ⟨Run.calls _ (.new 0) (by decide), fun hmap => ?_⟩, Run.calls _ (.new 0) (by decide), by decide,
    fun hmap => ?_⟩
  · have hedge : ((TypeGraph.new 0).calls (fun _ => 0) [.writeBlock 1 0 0 8]).edges.get 2 =
        some (.pointsTo 2 1 1 0) := by decide
    exact absurd (hmap.files hedge) (by decide)
  · have hedge : ((TypeGraph.new 0).calls (fun _ => 0) [.createFile 1 "a" 0 0 .fileDefault,
        .writeBlock 2 0 0 8, .writeBlock 2 0 8 8]).edges.get 3 = some (.pointsTo 3 2 1 0) := by decide
    have hedge' : ((TypeGraph.new 0).calls (fun _ => 0) [.createFile 1 "a" 0 0 .fileDefault,
        .writeBlock 2 0 0 8, .writeBlock 2 0 8 8]).edges.get 4 = some (.pointsTo 4 2 2 0) := by decide
    exact absurd (hmap.offsets hedge hedge') (by decide)
  · have hedge : ((TypeGraph.new 0).calls (fun _ => 0) [.mkdir 1 "d" 0 0 .dirDefault,
        .writeBlock 2 0 0 8, .rmdir 1 "d"]).edges.get 5 = some (.pointsTo 5 2 1 0) := by decide
    exact absurd (hmap.files hedge) (by decide)

end SotFs
