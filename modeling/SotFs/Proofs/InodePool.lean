/-
Module: SotFs.Proofs.InodePool
Layer: Proofs
Purpose: What one call does to the pool of inodes, on whatever graph and with whatever outcome. An inode that
  is there afterwards was there before under the same id and kind, with the fields kept that the call is not
  about, or it is new: at the slot of its id, which the counter issued during the call, and of size zero if it
  is a regular file.
Trusted boundary: none
Main exports: Inode.Relinked, Inode.KeptBy, PoolStep, Op.poolStep
-/
import SotFs.Proofs.Holdings

namespace SotFs

open Std (ExtTreeMap ExtTreeSet)
open Foundation

/-- The same inode but for its link count. -/
def Inode.Relinked (i i' : Inode) : Prop := i' = { i with linkCount := i'.linkCount }

/-- What a call keeps of an inode that stays. -/
structure Inode.KeptBy (op : Op) (i i' : Inode) : Prop where
  id : i'.id = i.id
  vtype : i'.vtype = i.vtype
  permissions : (∀ t m, op ≠ .chmod t m) → i'.permissions = i.permissions
  owner : (∀ t u gr, op ≠ .chown t u gr) → i'.uid = i.uid ∧ i'.gid = i.gid
  size : (∀ t o b, op ≠ .writeData t o b) → (∀ t n, op ≠ .truncate t n) → i'.size = i.size

namespace Inode.Relinked

theorem refl (i : Inode) : i.Relinked i := rfl

theorem trans {i i' i'' : Inode} (h : i.Relinked i') (h' : i'.Relinked i'') : i.Relinked i'' := by
  unfold Inode.Relinked at h h' ⊢
  rw [h] at h'
  exact h'

theorem keptBy {op : Op} {i i' : Inode} (h : i.Relinked i') : i.KeptBy op i' := by
  unfold Inode.Relinked at h
  rw [h]
  exact ⟨rfl, rfl, fun _ => rfl, fun _ => ⟨rfl, rfl⟩, fun _ _ => rfl⟩

end Inode.Relinked

/-- A new inode at its slot, under an id that the counter issued. -/
structure Inode.Born (next next' s : Nat) (i : Inode) : Prop where
  slot : s = idToArena i.id
  le : next ≤ i.id
  lt : i.id < next'
  size : i.vtype = .regular → i.size = 0

/-- From one inode pool and counter to a later pair: every inode was there before and is kept, or is new. -/
structure PoolStep (keeps : Inode → Inode → Prop) (next next' : Nat) (a a' : Arena Inode NODE_CAPACITY) :
    Prop where
  le : next ≤ next'
  old : ∀ {s i'}, a'.data s = some i' →
    i'.Born next next' s ∨ ∃ i, a.data s = some i ∧ keeps i i'

namespace PoolStep

variable {keeps keeps' : Inode → Inode → Prop} {next next' next'' : Nat}
  {a a' a'' : Arena Inode NODE_CAPACITY}

theorem mono (h : PoolStep keeps next next' a a') (hle : ∀ {i i'}, keeps i i' → keeps' i i') :
    PoolStep keeps' next next' a a' := by
  refine ⟨h.le, fun hi' => (h.old hi').imp_right ?_⟩
  rintro ⟨i, hi, hkeeps⟩
  exact ⟨i, hi, hle hkeeps⟩

theorem refl (next : Nat) (a : Arena Inode NODE_CAPACITY) : PoolStep Inode.Relinked next next a a :=
  ⟨le_rfl, fun hs => .inr ⟨_, hs, .refl _⟩⟩

theorem trans (h₁ : PoolStep Inode.Relinked next next' a a')
    (h₂ : PoolStep Inode.Relinked next' next'' a' a'') : PoolStep Inode.Relinked next next'' a a'' := by
  refine ⟨h₁.le.trans h₂.le, ?_⟩
  intro s i'' hi''
  rcases h₂.old hi'' with hborn | ⟨i', hi', hkeeps'⟩
  · exact .inl ⟨hborn.slot, h₁.le.trans hborn.le, hborn.lt, hborn.size⟩
  · rcases h₁.old hi' with hborn | ⟨i, hi, hkeeps⟩
    · unfold Inode.Relinked at hkeeps'
      rw [hkeeps']
      exact .inl ⟨hborn.slot, hborn.le, hborn.lt.trans_le h₂.le, hborn.size⟩
    · exact .inr ⟨i, hi, hkeeps.trans hkeeps'⟩

/-- A new inode, stored or refused. -/
theorem insert {inode : Inode} (hid : inode.id = next) (hsize : inode.vtype = .regular → inode.size = 0) :
    PoolStep Inode.Relinked next (next + 1) a (a.insertAt (idToArena next) inode).2 := by
  refine ⟨Nat.le_succ _, ?_⟩
  intro s i' hi'
  unfold Arena.insertAt at hi'
  split at hi'
  · exact .inr ⟨i', hi', .refl _⟩
  · split at hi'
    · exact .inr ⟨i', hi', .refl _⟩
    · change Function.update a.data (idToArena next) (some inode) s = some i' at hi'
      rw [Function.update_apply] at hi'
      split at hi'
      · rename_i hs
        cases hi'
        exact .inl ⟨by rw [hs, hid], hid.ge, hid ▸ Nat.lt_succ_self _, hsize⟩
      · exact .inr ⟨i', hi', .refl _⟩

theorem modify (slot : Nat) {f : Inode → Inode} (hkeeps : ∀ i, keeps i (f i)) (hrefl : ∀ i, keeps i i) :
    PoolStep keeps next next a (a.modify slot f) := by
  refine ⟨le_rfl, ?_⟩
  intro s i' hi'
  rw [Arena.data_modify, Function.update_apply] at hi'
  split at hi'
  · rename_i hs
    subst hs
    obtain ⟨i, hi, rfl⟩ := Option.map_eq_some_iff.mp hi'
    exact .inr ⟨i, hi, hkeeps i⟩
  · exact .inr ⟨i', hi', hrefl i'⟩

theorem relink (slot : Nat) (count : Inode → Nat) :
    PoolStep Inode.Relinked next next a (a.modify slot fun i => { i with linkCount := count i }) :=
  .modify slot (fun _ => rfl) .refl

theorem remove (slot : Nat) : PoolStep Inode.Relinked next next a (a.remove slot).2 := by
  refine ⟨le_rfl, ?_⟩
  intro s i' hi'
  rw [Arena.data_remove, Function.update_apply] at hi'
  split at hi'
  · cases hi'
  · exact .inr ⟨i', hi', .refl _⟩

variable {now : Nat → Timestamp} {g g' : TypeGraph}

theorem settle {α : Type} {d : DirId} {delta : Int} {now : Timestamp} {op : ProvOp} {t : InodeId}
    {detail : String} {value : α} (h : PoolStep keeps next g'.nextInode a g'.inodes) :
    PoolStep keeps next (g'.settle d delta now op t detail value).2.nextInode a
      (g'.settle d delta now op t detail value).2.inodes := by
  obtain ⟨_, _, heq⟩ := settle_snd g' d delta now op t detail value
  rw [heq]
  exact h

theorem unlink {d : DirId} {n : String} :
    PoolStep Inode.Relinked g.nextInode (SotFs.unlink now d n g).2.nextInode g.inodes
      (SotFs.unlink now d n g).2.inodes := by
  rcases unlink_cases now d n g with
    ⟨o, _, heq⟩ | ⟨_, _, _, e, t, m, inode, _, _, _, ⟨_, heq⟩ | ⟨_, heq⟩⟩
  · rw [heq]
    exact .refl _ _
  · obtain ⟨_, _, _, _, hdropped⟩ := dropName_frame (g := g) e d t
    rw [heq, hdropped]
    exact .relink _ _
  · obtain ⟨_, _, _, _, _, hdropped⟩ := dropLastName_frame (g := g) e d t
    rw [heq, hdropped]
    exact .settle ((PoolStep.relink (idToArena t) _).trans (.remove _))

theorem rmdir {d : DirId} {n : String} :
    PoolStep Inode.Relinked g.nextInode (SotFs.rmdir now d n g).2.nextInode g.inodes
      (SotFs.rmdir now d n g).2.inodes := by
  rcases rmdir_cases now d n g with
    ⟨o, _, heq⟩ | ⟨_, _, ti, td, inode, _, _, _, _, _, heq⟩
  · rw [heq]
    exact .refl _ _
  · obtain ⟨_, _, _, _, _, _, hdropped⟩ := dropDir_frame (g := g) d n ti td
    rw [heq, hdropped]
    exact .settle (.remove _)

theorem rename {sd dd : DirId} {sn dn : String} :
    PoolStep Inode.Relinked g.nextInode (SotFs.rename now sd sn dd dn g).2.nextInode g.inodes
      (SotFs.rename now sd sn dd dn g).2.inodes := by
  exact rename_keeps_frame
    (P := fun g' => PoolStep Inode.Relinked g.nextInode g'.nextInode g.inodes g'.inodes) (.refl _ _) .rmdir .unlink
    fun _ _ _ _ _ _ h => h

end PoolStep

section Calls

variable {op : Op} {now : Nat → Timestamp} {g : TypeGraph}

/-- The calls that rewrite fields of one inode. -/
def Op.OnInode : Op → Prop
  | .writeData .. | .truncate .. | .chmod .. | .chown .. => True
  | _ => False

/-- The other calls touch link counts only. -/
theorem Op.poolStep_relinked (hother : ¬ op.OnInode) : PoolStep Inode.Relinked g.nextInode
    (op.apply now g).2.nextInode g.inodes (op.apply now g).2.inodes := by
  cases op with
  | createFile d n u gr p =>
      rw [Op.apply, Prod.map_snd]
      rcases createFile_cases now d n u gr p g with
        ⟨o, _, heq⟩ | ⟨_, _, _, _, _, heq⟩
      · rw [heq]
        exact .refl _ _
      · rw [heq]
        exact .settle (.insert rfl fun _ => rfl)
  | mkdir d n u gr p =>
      rw [Op.apply, Prod.map_snd]
      rcases mkdir_cases now d n u gr p g with
        ⟨o, _, heq⟩ | ⟨_, _, _, _, parent, _, heq⟩
      · rw [heq]
        exact .refl _ _
      · rw [heq]
        exact .settle (.insert rfl (by rintro ⟨⟩))
  | rmdir d n =>
      rw [Op.apply, Prod.map_snd]
      exact .rmdir
  | link d n t =>
      rw [Op.apply, Prod.map_snd]
      rcases link_cases now d n t g with
        ⟨o, _, heq⟩ | ⟨_, _, _, i, _, _, _, heq⟩
      · rw [heq]
        exact .refl _ _
      · rw [heq]
        exact .relink _ _
  | unlink d n =>
      rw [Op.apply, Prod.map_snd]
      exact .unlink
  | rename sd sn dd dn =>
      rw [Op.apply, Prod.map_snd]
      exact .rename
  | symlink d n t u gr =>
      rw [Op.apply, Prod.map_snd]
      rcases symlink_cases now d n t u gr g with
        ⟨o, _, heq⟩ | ⟨_, _, _, _, _, heq⟩
      · rw [heq]
        exact .refl _ _
      · rw [heq]
        exact .settle (.insert rfl (by rintro ⟨⟩))
  | writeBlock t o s c =>
      rcases writeBlock_cases t o s c g with
        ⟨o', _, heq⟩ | ⟨_, _, heq⟩
      · rw [Op.apply, heq]
        exact .refl _ _
      · rw [Op.apply, heq]
        exact .refl _ _
  | writeData | truncate | chmod | chown => exact absurd trivial hother
  | setxattr t ns n v =>
      rcases setxattr_cases now t ns n v g with
        ⟨o, _, heq⟩ | ⟨_, _, _, ⟨a, _, heq⟩ | ⟨_, heq⟩⟩
      · rw [Op.apply, heq]
        exact .refl _ _
      · rw [Op.apply, heq]
        exact .refl _ _
      · rw [Op.apply, heq]
        exact .refl _ _
  | removexattr t ns n =>
      rcases removexattr_cases now t ns n g with
        ⟨o, _, heq⟩ | ⟨_, _, a, _, heq⟩
      · rw [Op.apply, heq]
        exact .refl _ _
      · obtain ⟨_, _, hdropped⟩ := dropXattr_frame (g := g) t a
        rw [Op.apply, heq, hdropped]
        exact .refl _ _
  | setacl t entries =>
      rcases setacl_cases now t entries g with
        ⟨o, _, heq⟩ | ⟨_, _, heq⟩
      · rw [Op.apply, heq]
        exact .refl _ _
      · obtain ⟨_, _, _, _, _, _, hgranted⟩ := replaceGrants_frame (g := g) t entries
        rw [Op.apply, heq, hgranted]
        exact .refl _ _
  | setQuota d il bl =>
      rcases setQuota_cases d il bl g with ⟨o, _, heq⟩ | ⟨_, _, heq⟩
      · rw [Op.apply, heq]
        exact .refl _ _
      · rw [Op.apply, heq]
        exact .refl _ _

/-- What a call does to the pool of inodes, whatever the graph and the outcome. -/
theorem Op.poolStep (op : Op) (now : Nat → Timestamp) (g : TypeGraph) : PoolStep (Inode.KeptBy op) g.nextInode (op.apply now g).2.nextInode g.inodes
    (op.apply now g).2.inodes := by
  have hsame : PoolStep (Inode.KeptBy op) g.nextInode g.nextInode g.inodes g.inodes :=
    (PoolStep.refl _ _).mono Inode.Relinked.keptBy
  have hself : ∀ i, Inode.KeptBy op i i := fun i => (Inode.Relinked.refl i).keptBy
  cases op with
  | writeData t o b =>
      rcases writeData_cases now t o b g with
        ⟨e, heq⟩ | ⟨_, _, _, ⟨buf, heq⟩ | ⟨buf, heq⟩⟩
      · rw [Op.apply, heq]
        exact hsame
      · rw [Op.apply, heq]
        exact hsame
      · rw [Op.apply, heq]
        exact .modify _ (fun _ => ⟨rfl, rfl, fun _ => rfl, fun _ => ⟨rfl, rfl⟩,
          fun hno => absurd rfl (hno t o b)⟩) hself
  | truncate t n =>
      rcases truncate_cases now t n g with
        ⟨e, heq⟩ | ⟨_, _, _, ⟨buf, heq⟩ | heq⟩
      · rw [Op.apply, heq]
        exact hsame
      · rw [Op.apply, heq]
        exact hsame
      · rw [Op.apply, heq]
        exact .modify _ (fun _ => ⟨rfl, rfl, fun _ => rfl, fun _ => ⟨rfl, rfl⟩,
          fun _ hno => absurd rfl (hno t n)⟩) hself
  | chmod t m =>
      rcases chmod_cases now t m g with ⟨o, _, heq⟩ | ⟨_, heq⟩
      · rw [Op.apply, heq]
        exact hsame
      · rw [Op.apply, heq]
        exact .modify _ (fun _ => ⟨rfl, rfl, fun hno => absurd rfl (hno t m), fun _ => ⟨rfl, rfl⟩,
          fun _ _ => rfl⟩) hself
  | chown t u gr =>
      rcases chown_cases now t u gr g with ⟨o, _, heq⟩ | ⟨_, heq⟩
      · rw [Op.apply, heq]
        exact hsame
      · rw [Op.apply, heq]
        exact .modify _ (fun _ => ⟨rfl, rfl, fun _ => rfl, fun hno => absurd rfl (hno t u gr),
          fun _ _ => rfl⟩) hself
  | createFile | mkdir | rmdir | link | unlink | rename | symlink | writeBlock | setxattr | removexattr
  | setacl | setQuota => exact (Op.poolStep_relinked id).mono Inode.Relinked.keptBy

end Calls

end SotFs
