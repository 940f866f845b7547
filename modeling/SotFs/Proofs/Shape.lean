/-
Module: SotFs.Proofs.Shape
Layer: Proofs
Purpose: The namespace a type graph stands for, without arenas and indexes: which edge carries which name
  from which directory to which inode, which directory belongs to which inode, and what kind every inode
  is. `Shape.Ok` is the structural invariant: names are unique, every entry has a live source and target,
  the "." and ".." entries say what they should, and the directories form a tree whose downward and upward
  readings agree. Each theorem of the second half is one namespace rewrite that keeps it.
Trusted boundary: none
Main exports: Shape, Shape.Child, Shape.Ok, Shape.Ok.addFile, Shape.Ok.addDir, Shape.Ok.removeDir,
  Shape.Ok.removeFile, Shape.Ok.renameEntry, Shape.Ok.moveDir
-/
import SotFs.Core.Graph
import SotFs.Foundation.RootedTree

namespace SotFs

open Relation Foundation

/-- A name other than "." and "..". -/
def UserName (n : String) : Prop := n ≠ "." ∧ n ≠ ".."

instance (n : String) : Decidable (UserName n) := inferInstanceAs (Decidable (_ ∧ _))

/-- The namespace part of a graph. Edges and directories are given by their slots, kinds by inode slot. -/
structure Shape where
  edge : EdgeId → Option (DirId × InodeId × String)
  dirInode : DirId → Option InodeId
  kind : Nat → Option VnodeType
  rootDir : DirId
  rootInode : InodeId

namespace Shape

/-- Set or clear what edge `e` carries. -/
def setEdge (s : Shape) (e : EdgeId) (entry : Option (DirId × InodeId × String)) : Shape :=
  { s with edge := Function.update s.edge e entry }

/-- Set or clear the inode of directory `d`. -/
def setDir (s : Shape) (d : DirId) (i : Option InodeId) : Shape :=
  { s with dirInode := Function.update s.dirInode d i }

/-- Set or clear the kind of inode slot `j`. -/
def setKind (s : Shape) (j : Nat) (k : Option VnodeType) : Shape :=
  { s with kind := Function.update s.kind j k }

/-- Clear every edge out of directory `d`. -/
def dropEdgesFrom (s : Shape) (d : DirId) : Shape :=
  { s with edge := fun x => (s.edge x).filter fun w => w.1 ≠ d }

@[simp] theorem setEdge_edge (s : Shape) (e entry) :
    (s.setEdge e entry).edge = Function.update s.edge e entry := rfl
@[simp] theorem setEdge_dirInode (s : Shape) (e entry) : (s.setEdge e entry).dirInode = s.dirInode := rfl
@[simp] theorem setEdge_kind (s : Shape) (e entry) : (s.setEdge e entry).kind = s.kind := rfl
@[simp] theorem setEdge_rootDir (s : Shape) (e entry) : (s.setEdge e entry).rootDir = s.rootDir := rfl
@[simp] theorem setEdge_rootInode (s : Shape) (e entry) :
    (s.setEdge e entry).rootInode = s.rootInode := rfl
@[simp] theorem setDir_edge (s : Shape) (d i) : (s.setDir d i).edge = s.edge := rfl
@[simp] theorem setDir_dirInode (s : Shape) (d i) :
    (s.setDir d i).dirInode = Function.update s.dirInode d i := rfl
@[simp] theorem setDir_kind (s : Shape) (d i) : (s.setDir d i).kind = s.kind := rfl
@[simp] theorem setDir_rootDir (s : Shape) (d i) : (s.setDir d i).rootDir = s.rootDir := rfl
@[simp] theorem setDir_rootInode (s : Shape) (d i) : (s.setDir d i).rootInode = s.rootInode := rfl
@[simp] theorem setKind_edge (s : Shape) (j k) : (s.setKind j k).edge = s.edge := rfl
@[simp] theorem setKind_dirInode (s : Shape) (j k) : (s.setKind j k).dirInode = s.dirInode := rfl
@[simp] theorem setKind_kind (s : Shape) (j k) :
    (s.setKind j k).kind = Function.update s.kind j k := rfl
@[simp] theorem setKind_rootDir (s : Shape) (j k) : (s.setKind j k).rootDir = s.rootDir := rfl
@[simp] theorem setKind_rootInode (s : Shape) (j k) : (s.setKind j k).rootInode = s.rootInode := rfl

/-- `c` is entered in `p` under a user name. -/
def Child (s : Shape) (p c : DirId) : Prop :=
  ∃ e n i, s.dirInode c = some i ∧ UserName n ∧ s.edge e = some (p, i, n)

/-- The structural invariant of the namespace. An entry may reach a non-directory through any id whose low
    32 bits are its slot; a directory is always reached through its own id. -/
structure Ok (s : Shape) : Prop where
  names : ∀ {e e' d t t' n}, s.edge e = some (d, t, n) → s.edge e' = some (d, t', n) → e = e'
  dir_kind : ∀ {d i}, s.dirInode d = some i → s.kind i = some .directory
  dir_slot : ∀ {d i}, s.dirInode d = some i → idToArena i = i
  dir_inj : ∀ {d d' i}, s.dirInode d = some i → s.dirInode d' = some i → d = d'
  kind_dir : ∀ {i}, s.kind i = some .directory → ∃ d, s.dirInode d = some i
  src_live : ∀ {e d t n}, s.edge e = some (d, t, n) → ∃ i, s.dirInode d = some i
  tgt_live : ∀ {e d t n}, s.edge e = some (d, t, n) →
    ∃ k, s.kind (idToArena t) = some k ∧ (k = .directory → idToArena t = t)
  root : s.dirInode s.rootDir = some s.rootInode
  dot : ∀ {d i}, s.dirInode d = some i → ∃ e, s.edge e = some (d, i, ".")
  dot_tgt : ∀ {e d t}, s.edge e = some (d, t, ".") → s.dirInode d = some t
  root_dotdot : ∀ {e t}, s.edge e ≠ some (s.rootDir, t, "..")
  root_entry : ∀ {e d n}, UserName n → s.edge e ≠ some (d, s.rootInode, n)
  parent : ∀ {d i}, s.dirInode d = some i → d ≠ s.rootDir → ∃ p pi e n e',
    s.dirInode p = some pi ∧ UserName n ∧ s.edge e = some (p, i, n) ∧ s.edge e' = some (d, pi, "..")
  entry_unique : ∀ {c i p p' n n' e e'}, s.dirInode c = some i → UserName n → UserName n' →
    s.edge e = some (p, i, n) → s.edge e' = some (p', i, n') → e = e'
  rooted : ∀ {d i}, s.dirInode d = some i → ReflTransGen s.Child s.rootDir d

namespace Ok

variable {s : Shape}

/-- The ".." entry of a directory leads to the inode of the directory it is entered in. -/
theorem dotdot (h : s.Ok) {d i p n e e' t} (hd : s.dirInode d = some i) (hn : UserName n)
    (he : s.edge e = some (p, i, n)) (he' : s.edge e' = some (d, t, "..")) :
    s.dirInode p = some t := by
  have hroot : d ≠ s.rootDir := by
    rintro rfl
    exact h.root_dotdot he'
  obtain ⟨q, qi, e₁, n₁, e₂, hq, hn₁, he₁, he₂⟩ := h.parent hd hroot
  have heq : e₁ = e := h.entry_unique hd hn₁ hn he₁ he
  subst heq
  rw [he] at he₁
  cases he₁
  have heq' : e₂ = e' := h.names he₂ he'
  subst heq'
  rw [he'] at he₂
  cases he₂
  exact hq

/-- The ".." entry of a directory leads to the inode of the parent it is entered in. -/
theorem dotdot_parent (h : s.Ok) {d i e t} (hd : s.dirInode d = some i)
    (he : s.edge e = some (d, t, "..")) : ∃ p, s.Child p d ∧ s.dirInode p = some t := by
  have hroot : d ≠ s.rootDir := by
    rintro rfl
    exact h.root_dotdot he
  obtain ⟨p, pi, e₁, n, e₂, hp, hn, he₁, he₂⟩ := h.parent hd hroot
  have heq : e₂ = e := h.names he₂ he
  subst heq
  rw [he] at he₂
  cases he₂
  exact ⟨p, ⟨e₁, n, i, hd, hn, he₁⟩, hp⟩

/-- The directories below the root form a tree. -/
theorem tree (h : s.Ok) : RootedTree s.Child s.rootDir where
  parent_unique := by
    rintro p q c ⟨e, n, i, hc, hn, he⟩ ⟨e', n', i', hc', hn', he'⟩
    rw [hc] at hc'
    cases hc'
    have heq : e = e' := h.entry_unique hc hn hn' he he'
    subst heq
    rw [he] at he'
    cases he'
    rfl
  root_top := by
    rintro p ⟨e, n, i, hc, hn, he⟩
    rw [h.root] at hc
    cases hc
    exact h.root_entry hn he

/-- Entering a non-directory under a free name. The kinds may grow by the new inode. -/
theorem addFile (h : s.Ok) {e d i t n k} (kind' : Nat → Option VnodeType) (he : s.edge e = none)
    (hd : s.dirInode d = some i) (hn : UserName n) (hfree : ∀ e' t', s.edge e' ≠ some (d, t', n))
    (hold : ∀ j k', s.kind j = some k' → kind' j = some k')
    (hdirs : ∀ j, kind' j = some .directory → s.kind j = some .directory)
    (ht : kind' (idToArena t) = some k) (hk : k ≠ .directory) :
    Ok ({ s with kind := kind' }.setEdge e (some (d, t, n))) := by
  have hedge : ∀ {x w}, Function.update s.edge e (some (d, t, n)) x = some w ↔
      (x = e ∧ w = (d, t, n)) ∨ s.edge x = some w := by
    intro x w
    simp only [Function.update_apply]
    grind
  have hnotdir : ∀ {c}, s.dirInode c ≠ some t := by
    intro c hc
    have hkind := hold _ _ (h.dir_kind hc)
    rw [← h.dir_slot hc, ht] at hkind
    exact hk (Option.some.inj hkind)
  constructor <;> simp only [setEdge, hedge]
  case names => grind [h.names]
  case dir_kind => grind [h.dir_kind]
  case dir_slot => grind [h.dir_slot]
  case dir_inj => grind [h.dir_inj]
  case kind_dir => grind [h.kind_dir]
  case src_live => grind [h.src_live]
  case tgt_live => grind [h.tgt_live]
  case root => exact h.root
  case dot => grind [h.dot]
  case dot_tgt => grind [h.dot_tgt, UserName]
  case root_dotdot => grind [h.root_dotdot, UserName]
  case root_entry => grind [h.root_entry, h.root]
  case parent => grind [h.parent]
  case entry_unique => grind [h.entry_unique]
  case rooted =>
    intro c j hc
    refine ReflTransGen.mono ?_ _ _ (h.rooted hc)
    rintro p q ⟨e', n', j', hq, hn', he'⟩
    exact ⟨e', n', j', hq, hn', hedge.mpr (.inr he')⟩

/-- Making a directory: a fresh inode and directory, its entry in `p`, its "." and its "..". -/
theorem addDir (h : s.Ok) {e₁ e₂ e₃ p pi nd ni n} (he₁ : s.edge e₁ = none) (he₂ : s.edge e₂ = none)
    (he₃ : s.edge e₃ = none) (h₁₂ : e₁ ≠ e₂) (h₁₃ : e₁ ≠ e₃) (h₂₃ : e₂ ≠ e₃)
    (hp : s.dirInode p = some pi) (hnd : s.dirInode nd = none) (hni : s.kind ni = none)
    (hslot : idToArena ni = ni) (hn : UserName n) (hfree : ∀ e' t', s.edge e' ≠ some (p, t', n)) :
    Ok (((((s.setKind ni (some .directory)).setDir nd (some ni)).setEdge e₁ (some (p, ni, n))).setEdge
      e₂ (some (nd, ni, "."))).setEdge e₃ (some (nd, pi, ".."))) := by
  have hedge : ∀ {x w}, Function.update (Function.update (Function.update s.edge e₁ (some (p, ni, n)))
        e₂ (some (nd, ni, "."))) e₃ (some (nd, pi, "..")) x = some w ↔
      (x = e₁ ∧ w = (p, ni, n)) ∨ (x = e₂ ∧ w = (nd, ni, ".")) ∨ (x = e₃ ∧ w = (nd, pi, "..")) ∨
        s.edge x = some w := by
    intro x w
    simp only [Function.update_apply]
    grind
  have hdirInode : ∀ {c i}, Function.update s.dirInode nd (some ni) c = some i ↔
      (c = nd ∧ i = ni) ∨ s.dirInode c = some i := by
    intro c i
    simp only [Function.update_apply]
    grind
  have hkind : ∀ {j k}, Function.update s.kind ni (some .directory) j = some k ↔
      (j = ni ∧ k = .directory) ∨ s.kind j = some k := by
    intro j k
    simp only [Function.update_apply]
    grind
  have hnoEdge : ∀ {x t n'}, s.edge x ≠ some (nd, t, n') := by
    intro x t n' hx
    obtain ⟨i, hi⟩ := h.src_live hx
    rw [hnd] at hi
    cases hi
  have hnoTgt : ∀ {x d n'}, s.edge x ≠ some (d, ni, n') := by
    intro x d n' hx
    obtain ⟨k, hk, _⟩ := h.tgt_live hx
    rw [hslot, hni] at hk
    cases hk
  have hpi := h.dir_slot hp
  constructor <;> simp only [setEdge, setDir, setKind, hedge, hdirInode, hkind]
  case names => grind [h.names, UserName]
  case dir_kind => grind [h.dir_kind]
  case dir_slot => grind [h.dir_slot]
  case dir_inj => grind [h.dir_inj, h.dir_kind]
  case kind_dir => grind [h.kind_dir]
  case src_live => grind [h.src_live]
  case tgt_live => grind [h.tgt_live, h.dir_kind]
  case root => exact .inr h.root
  case dot => grind [h.dot]
  case dot_tgt => grind [h.dot_tgt, UserName]
  case root_dotdot => grind [h.root_dotdot, h.root, UserName]
  case root_entry => grind [h.root_entry, h.root, h.dir_kind, UserName]
  case parent =>
    rintro d i (⟨rfl, rfl⟩ | hd) hroot
    · exact ⟨p, pi, e₁, n, e₃, .inr hp, hn, .inl ⟨rfl, rfl⟩, .inr (.inr (.inl ⟨rfl, rfl⟩))⟩
    · obtain ⟨q, qi, e, n', e', hq, hn', he, he'⟩ := h.parent hd hroot
      exact ⟨q, qi, e, n', e', .inr hq, hn', .inr (.inr (.inr he)), .inr (.inr (.inr he'))⟩
  case entry_unique =>
    rintro c i q q' n' n'' e e' (⟨rfl, rfl⟩ | hc) hn' hn'' he he'
    · -- only the new entry leads to the new inode under a user name
      have honly : ∀ {x r m}, UserName m → ((x = e₁ ∧ (r, i, m) = (p, i, n)) ∨
          (x = e₂ ∧ (r, i, m) = (c, i, ".")) ∨ (x = e₃ ∧ (r, i, m) = (c, pi, "..")) ∨
            s.edge x = some (r, i, m)) → x = e₁ := by
        intro x r m hm hx
        rcases hx with ⟨rfl, _⟩ | ⟨_, heq⟩ | ⟨_, heq⟩ | hx
        · rfl
        · cases heq; exact absurd rfl hm.1
        · cases heq; exact absurd rfl hm.2
        · exact absurd hx hnoTgt
      exact (honly hn' he).trans (honly hn'' he').symm
    · have hine : i ≠ ni := by
        rintro rfl
        rw [h.dir_kind hc] at hni
        cases hni
      have hold : ∀ {x r m}, UserName m → ((x = e₁ ∧ (r, i, m) = (p, ni, n)) ∨
          (x = e₂ ∧ (r, i, m) = (nd, ni, ".")) ∨ (x = e₃ ∧ (r, i, m) = (nd, pi, "..")) ∨
            s.edge x = some (r, i, m)) → s.edge x = some (r, i, m) := by
        intro x r m hm hx
        rcases hx with ⟨_, heq⟩ | ⟨_, heq⟩ | ⟨_, heq⟩ | hx
        · cases heq; exact absurd rfl hine
        · cases heq; exact absurd rfl hine
        · cases heq; exact absurd rfl hm.2
        · exact hx
      exact h.entry_unique hc hn' hn'' (hold hn' he) (hold hn'' he')
  case rooted =>
    intro d i hd
    have hmono : ∀ {c}, ReflTransGen s.Child s.rootDir c → ReflTransGen (Shape.Child
        (((((s.setKind ni (some .directory)).setDir nd (some ni)).setEdge e₁ (some (p, ni, n))).setEdge
          e₂ (some (nd, ni, "."))).setEdge e₃ (some (nd, pi, "..")))) s.rootDir c := by
      refine fun hc => ReflTransGen.mono ?_ _ _ hc
      rintro q c ⟨e, n', i, hc, hn', he⟩
      exact ⟨e, n', i, hdirInode.mpr (.inr hc), hn', hedge.mpr (.inr (.inr (.inr he)))⟩
    rcases hd with ⟨rfl, rfl⟩ | hd
    · refine (hmono (h.rooted hp)).tail ⟨e₁, n, i, hdirInode.mpr (.inl ⟨rfl, rfl⟩), hn, ?_⟩
      exact hedge.mpr (.inl ⟨rfl, rfl⟩)
    · exact hmono (h.rooted hd)

/-- Removing a name of a non-directory. -/
theorem removeFile (h : s.Ok) {e d t n k} (he : s.edge e = some (d, t, n))
    (ht : s.kind (idToArena t) = some k) (hk : k ≠ .directory) : Ok (s.setEdge e none) := by
  have hedge : ∀ {x w}, Function.update s.edge e none x = some w ↔ x ≠ e ∧ s.edge x = some w := by
    intro x w
    simp only [Function.update_apply]
    grind
  have hnotdir : ∀ {c i}, s.dirInode c = some i → i ≠ t := by
    rintro c i hc rfl
    have hkind := h.dir_kind hc
    rw [← h.dir_slot hc, ht] at hkind
    exact hk (Option.some.inj hkind)
  constructor <;> simp only [setEdge, hedge]
  case names => grind [h.names]
  case dir_kind => exact h.dir_kind
  case dir_slot => exact h.dir_slot
  case dir_inj => exact h.dir_inj
  case kind_dir => exact h.kind_dir
  case src_live => grind [h.src_live]
  case tgt_live => grind [h.tgt_live]
  case root => exact h.root
  case dot => grind [h.dot]
  case dot_tgt => grind [h.dot_tgt]
  case root_dotdot => grind [h.root_dotdot]
  case root_entry => grind [h.root_entry]
  case parent =>
    intro c i hc hroot
    obtain ⟨p, pi, x, m, x', hp, hm, hx, hx'⟩ := h.parent hc hroot
    have hic := hnotdir hc
    have hpi := hnotdir hp
    grind
  case entry_unique => grind [h.entry_unique]
  case rooted =>
    intro c i hc
    refine ReflTransGen.mono ?_ _ _ (h.rooted hc)
    rintro p q ⟨x, m, j, hq, hm, hx⟩
    refine ⟨x, m, j, hq, hm, hedge.mpr ⟨?_, hx⟩⟩
    rintro rfl
    rw [he] at hx
    cases hx
    exact hnotdir hq rfl

/-- The target of a ".." entry is a directory. -/
theorem dotdot_kind (h : s.Ok) {e d t} (he : s.edge e = some (d, t, "..")) :
    s.kind (idToArena t) = some .directory := by
  obtain ⟨i, hi⟩ := h.src_live he
  have hroot : d ≠ s.rootDir := by
    rintro rfl
    exact h.root_dotdot he
  obtain ⟨p, pi, x, n, x', hp, _, _, hx'⟩ := h.parent hi hroot
  have heq : x' = e := h.names hx' he
  subst heq
  rw [he] at hx'
  cases hx'
  rw [h.dir_slot hp]
  exact h.dir_kind hp

/-- Freeing a non-directory that no name leads to. -/
theorem forgetInode (h : s.Ok) {j k} (hj : s.kind j = some k) (hk : k ≠ .directory)
    (hfree : ∀ x d t n, s.edge x = some (d, t, n) → idToArena t ≠ j) : Ok (s.setKind j none) := by
  have hkind : ∀ {x k'}, Function.update s.kind j none x = some k' ↔ x ≠ j ∧ s.kind x = some k' := by
    intro x k'
    simp only [Function.update_apply]
    grind
  constructor <;> simp only [setKind, hkind]
  case names => exact h.names
  case dir_kind => grind [h.dir_kind]
  case dir_slot => exact h.dir_slot
  case dir_inj => exact h.dir_inj
  case kind_dir => grind [h.kind_dir]
  case src_live => exact h.src_live
  case tgt_live => grind [h.tgt_live]
  case root => exact h.root
  case dot => exact h.dot
  case dot_tgt => exact h.dot_tgt
  case root_dotdot => exact h.root_dotdot
  case root_entry => exact h.root_entry
  case parent => exact h.parent
  case entry_unique => exact h.entry_unique
  case rooted => exact h.rooted

/-- Giving an entry another free user name. -/
theorem renameEntry (h : s.Ok) {e d t n n'} (he : s.edge e = some (d, t, n)) (hn : UserName n)
    (hn' : UserName n') (hfree : ∀ x t', s.edge x ≠ some (d, t', n')) :
    Ok (s.setEdge e (some (d, t, n'))) := by
  have hedge : ∀ {x w}, Function.update s.edge e (some (d, t, n')) x = some w ↔
      (x = e ∧ w = (d, t, n')) ∨ (x ≠ e ∧ s.edge x = some w) := by
    intro x w
    simp only [Function.update_apply]
    grind
  constructor <;> simp only [setEdge, hedge]
  case names => grind [h.names]
  case dir_kind => exact h.dir_kind
  case dir_slot => exact h.dir_slot
  case dir_inj => exact h.dir_inj
  case kind_dir => exact h.kind_dir
  case src_live => grind [h.src_live]
  case tgt_live => grind [h.tgt_live]
  case root => exact h.root
  case dot => grind [h.dot, UserName]
  case dot_tgt => grind [h.dot_tgt, UserName]
  case root_dotdot => grind [h.root_dotdot, UserName]
  case root_entry => grind [h.root_entry]
  case parent =>
    intro c i hc hroot
    obtain ⟨p, pi, x, m, x', hp, hm, hx, hx'⟩ := h.parent hc hroot
    have hx'e : x' ≠ e := by
      rintro rfl
      rw [he] at hx'
      cases hx'
      exact hn.2 rfl
    by_cases hxe : x = e
    · subst hxe
      rw [he] at hx
      cases hx
      exact ⟨_, pi, x, n', x', hp, hn', .inl ⟨rfl, rfl⟩, .inr ⟨hx'e, hx'⟩⟩
    · exact ⟨p, pi, x, m, x', hp, hm, .inr ⟨hxe, hx⟩, .inr ⟨hx'e, hx'⟩⟩
  case entry_unique => grind [h.entry_unique]
  case rooted =>
    intro c i hc
    refine ReflTransGen.mono ?_ _ _ (h.rooted hc)
    rintro p q ⟨x, m, j, hq, hm, hx⟩
    by_cases hxe : x = e
    · subst hxe
      rw [he] at hx
      cases hx
      exact ⟨x, n', _, hq, hn', hedge.mpr (.inl ⟨rfl, rfl⟩)⟩
    · exact ⟨x, m, j, hq, hm, hedge.mpr (.inr ⟨hxe, hx⟩)⟩

/-- Moving a name of a non-directory to a free name elsewhere. -/
theorem moveFile (h : s.Ok) {e e' d t n q qi n' k} (he : s.edge e = some (d, t, n))
    (he' : s.edge e' = none) (ht : s.kind (idToArena t) = some k) (hk : k ≠ .directory)
    (hq : s.dirInode q = some qi) (hn' : UserName n') (hfree : ∀ x t', s.edge x ≠ some (q, t', n')) :
    Ok ((s.setEdge e none).setEdge e' (some (q, t, n'))) := by
  have hremoved : Ok (s.setEdge e none) := h.removeFile he ht hk
  refine hremoved.addFile s.kind ?_ hq hn' ?_ (fun _ _ hj => hj) (fun _ hj => hj) ht hk
  · simp only [setEdge_edge, Function.update_apply]
    split <;> simp [he']
  · intro x t' hx
    simp only [setEdge_edge, Function.update_apply] at hx
    split at hx
    · cases hx
    · exact hfree x t' hx

/-- Removing an empty directory: its entry, the entries of its own, the directory and its inode. -/
theorem removeDir (h : s.Ok) {e p ti n td} (he : s.edge e = some (p, ti, n)) (hn : UserName n)
    (htd : s.dirInode td = some ti)
    (hempty : ∀ x t m, s.edge x = some (td, t, m) → ¬ UserName m) :
    Ok ((((s.setEdge e none).dropEdgesFrom td).setDir td none).setKind ti none) := by
  have hedge : ∀ {x w}, Option.filter (fun w => decide (w.1 ≠ td)) (Function.update s.edge e none x) =
      some w ↔ x ≠ e ∧ w.1 ≠ td ∧ s.edge x = some w := by
    intro x w
    simp only [Function.update_apply, Option.filter_eq_some_iff]
    grind
  have hdirInode : ∀ {c i}, Function.update s.dirInode td none c = some i ↔
      c ≠ td ∧ s.dirInode c = some i := by
    intro c i
    simp only [Function.update_apply]
    grind
  have hkind : ∀ {j k}, Function.update s.kind ti none j = some k ↔ j ≠ ti ∧ s.kind j = some k := by
    intro j k
    simp only [Function.update_apply]
    grind
  have hroot : td ≠ s.rootDir := by
    rintro rfl
    have := h.root
    rw [htd] at this
    cases this
    exact h.root_entry hn he
  have hleaf : ∀ c, ¬ s.Child td c := by
    rintro c ⟨x, m, i, _, hm, hx⟩
    exact hempty _ _ _ hx hm
  -- no surviving edge leads to the removed inode
  have hgone : ∀ {x d m}, s.edge x = some (d, ti, m) → x = e ∨ d = td := by
    intro x d m hx
    by_cases hdot : m = "."
    · subst hdot
      exact .inr (h.dir_inj (h.dot_tgt hx) htd)
    · by_cases hdotdot : m = ".."
      · subst hdotdot
        obtain ⟨di, hdi⟩ := h.src_live hx
        have hdroot : d ≠ s.rootDir := by
          rintro rfl
          exact h.root_dotdot hx
        obtain ⟨q, qi, y, m', y', hq, hm', hy, hy'⟩ := h.parent hdi hdroot
        have heq : y' = x := h.names hy' hx
        subst heq
        rw [hx] at hy'
        cases hy'
        have hqtd : q = td := h.dir_inj hq htd
        subst hqtd
        exact absurd hm' (hempty _ _ _ hy)
      · exact .inl (h.entry_unique htd ⟨hdot, hdotdot⟩ hn hx he)
  constructor <;> simp only [setEdge, dropEdgesFrom, setDir, setKind, hedge, hdirInode, hkind]
  case names => grind [h.names]
  case dir_kind => grind [h.dir_kind, h.dir_inj]
  case dir_slot => grind [h.dir_slot]
  case dir_inj => grind [h.dir_inj]
  case kind_dir => grind [h.kind_dir]
  case src_live => grind [h.src_live]
  case tgt_live =>
    rintro x d t m ⟨hxe, hd, hx⟩
    obtain ⟨k, hk, hdir⟩ := h.tgt_live hx
    refine ⟨k, ⟨?_, hk⟩, hdir⟩
    intro hslot
    have hkd : k = .directory := by
      rw [hslot, h.dir_kind htd] at hk
      exact (Option.some.inj hk).symm
    have htt : t = ti := (hdir hkd).symm.trans hslot
    subst htt
    rcases hgone hx with rfl | rfl
    · exact hxe rfl
    · exact hd rfl
  case root => exact ⟨fun heq => hroot heq.symm, h.root⟩
  case dot =>
    rintro d i ⟨hd, hi⟩
    obtain ⟨x, hx⟩ := h.dot hi
    refine ⟨x, ?_, hd, hx⟩
    rintro rfl
    rw [he] at hx
    cases hx
    exact hn.1 rfl
  case dot_tgt => grind [h.dot_tgt]
  case root_dotdot => grind [h.root_dotdot]
  case root_entry => grind [h.root_entry]
  case parent =>
    rintro d i ⟨hd, hi⟩ hdroot
    obtain ⟨q, qi, x, m, x', hq, hm, hx, hx'⟩ := h.parent hi hdroot
    have hqtd : q ≠ td := by
      rintro rfl
      exact hempty _ _ _ hx hm
    refine ⟨q, qi, x, m, x', ⟨hqtd, hq⟩, hm, ⟨?_, hqtd, hx⟩, ?_, hd, hx'⟩
    · rintro rfl
      rw [he] at hx
      cases hx
      exact hd (h.dir_inj hi htd)
    · rintro rfl
      rw [he] at hx'
      cases hx'
      exact hn.2 rfl
  case entry_unique => grind [h.entry_unique]
  case rooted =>
    rintro d i ⟨hd, hi⟩
    refine RootedTree.reach_of_removeLeaf hleaf ?_ hd (h.rooted hi)
    rintro q c ⟨x, m, j, hc, hm, hx⟩ hctd
    refine ⟨x, m, j, hdirInode.mpr ⟨hctd, hc⟩, hm, hedge.mpr ⟨?_, ?_, hx⟩⟩
    · rintro rfl
      rw [he] at hx
      cases hx
      exact hctd (h.dir_inj hc htd)
    · rintro rfl
      exact hempty _ _ _ hx hm

/-- Moving a directory to a free name in a directory that is not below it: the entry moves and ".." is
    pointed at the new parent. -/
theorem moveDir (h : s.Ok) {e e' e'' p m mi n q qi n' t} (he : s.edge e = some (p, mi, n))
    (hn : UserName n) (hm : s.dirInode m = some mi) (hq : s.dirInode q = some qi)
    (he' : s.edge e' = none) (he'' : s.edge e'' = some (m, t, "..")) (hn' : UserName n')
    (hfree : ∀ x t', s.edge x ≠ some (q, t', n')) (hbelow : ¬ ReflTransGen s.Child m q) :
    Ok (((s.setEdge e none).setEdge e' (some (q, mi, n'))).setEdge e'' (some (m, qi, ".."))) := by
  have hee'' : e ≠ e'' := by
    rintro rfl
    rw [he] at he''
    cases he''
    exact hn.2 rfl
  have he'e'' : e' ≠ e'' := by
    rintro rfl
    rw [he'] at he''
    cases he''
  have hee' : e ≠ e' := by
    rintro rfl
    rw [he] at he'
    cases he'
  have hedge : ∀ {x w}, Function.update (Function.update (Function.update s.edge e none) e'
        (some (q, mi, n'))) e'' (some (m, qi, "..")) x = some w ↔
      (x = e' ∧ w = (q, mi, n')) ∨ (x = e'' ∧ w = (m, qi, "..")) ∨
        (x ≠ e ∧ x ≠ e' ∧ x ≠ e'' ∧ s.edge x = some w) := by
    intro x w
    simp only [Function.update_apply]
    grind
  have hmroot : m ≠ s.rootDir := by
    rintro rfl
    exact h.root_dotdot he''
  -- the entry of the moved directory is the one that went away
  have hentry : ∀ {x r n''}, UserName n'' → s.edge x = some (r, mi, n'') → x = e :=
    fun hn'' hx => h.entry_unique hm hn'' hn hx he
  constructor <;> simp only [setEdge, hedge]
  case names => grind [h.names, UserName]
  case dir_kind => exact h.dir_kind
  case dir_slot => exact h.dir_slot
  case dir_inj => exact h.dir_inj
  case kind_dir => exact h.kind_dir
  case src_live => grind [h.src_live]
  case tgt_live => grind [h.tgt_live, h.dir_kind, h.dir_slot]
  case root => exact h.root
  case dot =>
    intro d i hd
    obtain ⟨x, hx⟩ := h.dot hd
    refine ⟨x, .inr (.inr ⟨?_, ?_, ?_, hx⟩)⟩
    · rintro rfl
      rw [he] at hx
      cases hx
      exact hn.1 rfl
    · rintro rfl
      rw [he'] at hx
      cases hx
    · rintro rfl
      rw [he''] at hx
      simp at hx
  case dot_tgt => grind [h.dot_tgt, UserName]
  case root_dotdot => grind [h.root_dotdot, UserName]
  case root_entry => grind [h.root_entry, h.dir_inj, h.root, UserName]
  case parent =>
    intro d i hd hdroot
    by_cases hdm : d = m
    · subst hdm
      rw [hm] at hd
      cases hd
      exact ⟨q, qi, e', n', e'', hq, hn', .inl ⟨rfl, rfl⟩, .inr (.inl ⟨rfl, rfl⟩)⟩
    · obtain ⟨r, ri, x, n'', x', hr, hn'', hx, hx'⟩ := h.parent hd hdroot
      refine ⟨r, ri, x, n'', x', hr, hn'', .inr (.inr ⟨?_, ?_, ?_, hx⟩), .inr (.inr ⟨?_, ?_, ?_, hx'⟩)⟩
      · rintro rfl
        rw [he] at hx
        cases hx
        exact hdm (h.dir_inj hd hm)
      · rintro rfl
        rw [he'] at hx
        cases hx
      · rintro rfl
        rw [he''] at hx
        cases hx
        exact hn''.2 rfl
      · rintro rfl
        rw [he] at hx'
        cases hx'
        exact hn.2 rfl
      · rintro rfl
        rw [he'] at hx'
        cases hx'
      · rintro rfl
        rw [he''] at hx'
        cases hx'
        exact hdm rfl
  case entry_unique =>
    rintro c i r r' n₁ n₂ x x' hc hn₁ hn₂ (⟨rfl, hw⟩ | ⟨rfl, hw⟩ | ⟨hxe, _, _, hx⟩)
      (⟨rfl, hw'⟩ | ⟨rfl, hw'⟩ | ⟨hxe', _, _, hx'⟩)
    · rfl
    · cases hw'
      exact absurd rfl hn₂.2
    · cases hw
      exact absurd (hentry hn₂ hx') hxe'
    · cases hw
      exact absurd rfl hn₁.2
    · rfl
    · cases hw
      exact absurd rfl hn₁.2
    · cases hw'
      exact absurd (hentry hn₁ hx) hxe
    · cases hw'
      exact absurd rfl hn₂.2
    · exact h.entry_unique hc hn₁ hn₂ hx hx'
  case rooted =>
    intro d i hd
    refine RootedTree.reach_of_reparent hbelow ?_ ?_ (h.rooted hq) (h.rooted hd)
    · rintro r c ⟨x, n'', j, hc, hn'', hx⟩ hcm
      refine ⟨x, n'', j, hc, hn'', hedge.mpr (.inr (.inr ⟨?_, ?_, ?_, hx⟩))⟩
      · rintro rfl
        rw [he] at hx
        cases hx
        exact hcm (h.dir_inj hc hm)
      · rintro rfl
        rw [he'] at hx
        cases hx
      · rintro rfl
        rw [he''] at hx
        cases hx
        exact hn''.2 rfl
    · exact ⟨e', n', mi, hm, hn', hedge.mpr (.inl ⟨rfl, rfl⟩)⟩

end Ok

end Shape

end SotFs
