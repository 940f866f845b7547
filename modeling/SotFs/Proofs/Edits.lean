/-
Module: SotFs.Proofs.Edits
Layer: Proofs
Purpose: What a call can do to the graph, as a chain of edits. There are sixteen kinds of edit, each with the
  facts it was checked under; every call that is not refused room is a chain of them, whatever its outcome.
  A property of the graph that every edit keeps is therefore kept by every call. The two edits that a
  property may fear, naming an inode once more and freeing one, carry a condition of the reader's choice.
Trusted boundary: none
Main exports: TypeGraph.CanLink, TypeGraph.LastName, TypeGraph.EmptyDir, Op.Links, Op.Frees, Edit, Edit.inv, Op.edits
-/
import SotFs.Proofs.OpSpecs

namespace SotFs

open Std (ExtTreeMap ExtTreeSet)
open Relation Foundation

/-! ### Which calls name and free inodes -/

/-- The checks that a call of link passes before it enters the name. -/
def TypeGraph.CanLink (g : TypeGraph) (d : DirId) (n : String) (t : InodeId) : Prop :=
  g.requireCap Rights.write = .ok () ∧ UserName n ∧ g.resolveName d n = none ∧
    ∃ i, g.getInode t = some i ∧ i.vtype ≠ .directory ∧ i.linkCount < LINK_MAX

/-- The name is the last one of a file. -/
def TypeGraph.LastName (g : TypeGraph) (d : DirId) (n : String) (t : InodeId) : Prop :=
  UserName n ∧ g.resolveName d n = some t ∧
    ∃ i, g.getInode t = some i ∧ i.vtype ≠ .directory ∧ i.linkCount = 1

/-- The name leads to an empty directory. -/
def TypeGraph.EmptyDir (g : TypeGraph) (d : DirId) (n : String) (t : InodeId) : Prop :=
  UserName n ∧ g.resolveName d n = some t ∧ (∃ i, g.getInode t = some i ∧ i.vtype = .directory) ∧
    ∃ td, g.dirForInode t = some td ∧ g.dirNotEmpty td = false

/-- The inode that a call names once more. -/
def Op.Links (g : TypeGraph) : Op → InodeId → Prop
  | .link d n target, t => t = target ∧ g.CanLink d n target
  | _, _ => False

/-- The inode that a call frees, by its name or as the replaced destination of a rename. -/
def Op.Frees (g : TypeGraph) : Op → InodeId → Prop
  | .unlink d n, t => g.requireCap Rights.write = .ok () ∧ g.LastName d n t
  | .rmdir d n, t => g.requireCap Rights.write = .ok () ∧ g.EmptyDir d n t
  | .rename sd sn dd dn, t =>
      g.requireCap Rights.write = .ok () ∧ UserName sn ∧ (sd, sn) ≠ (dd, dn) ∧
        (∃ s, g.resolveName sd sn = some s ∧ (sd ≠ dd → g.wouldCycle s dd = false)) ∧
        (g.LastName dd dn t ∨ g.EmptyDir dd dn t)
  | _, _ => False

/-! ### Edits -/

/-- One edit of the graph. `link` and `free` hold of the inodes that are named once more and freed. -/
inductive Edit (link free : TypeGraph → InodeId → Prop) : TypeGraph → TypeGraph → Prop where
  | enterInode {g : TypeGraph} {inode : Inode} {d di n} (hi : g.nextInode < NODE_CAPACITY)
      (he : g.nextEdge < EDGE_CAPACITY) (hd : g.dirInode d = some di) (hn : UserName n)
      (hfree : ∀ x t, g.entries x ≠ some (d, t, n)) (hid : inode.id = g.nextInode)
      (hkind : inode.vtype ≠ .directory) (hlink : inode.linkCount = 1) :
      Edit link free g (g.enterInode inode d n)
  | enterDir {g : TypeGraph} {inode : Inode} {d di n} (hi : g.nextInode < NODE_CAPACITY)
      (hdir : g.nextDir < NODE_CAPACITY) (he : g.nextEdge + 3 ≤ EDGE_CAPACITY)
      (hd : g.dirInode d = some di) (hn : UserName n) (hfree : ∀ x t, g.entries x ≠ some (d, t, n))
      (hid : inode.id = g.nextInode) (hkind : inode.vtype = .directory) (hlink : inode.linkCount = 2) :
      Edit link free g (g.enterDir inode d di n)
  | enterLink {g : TypeGraph} {i : Inode} {d di t n} (he : g.nextEdge < EDGE_CAPACITY)
      (hd : g.dirInode d = some di) (hn : UserName n) (hfree : ∀ x t', g.entries x ≠ some (d, t', n))
      (ht : g.getInode t = some i) (hkind : i.vtype ≠ .directory) (hlink : link g t) :
      Edit link free g (g.enterLink d t n)
  | dropName {g : TypeGraph} {i : Inode} {e d t n} (he : g.entries e = some (d, t, n)) (hn : UserName n)
      (ht : g.getInode t = some i) (hkind : i.vtype ≠ .directory) :
      Edit link free g (g.dropName e d t)
  | dropLastName {g : TypeGraph} {i : Inode} {e d t n} (he : g.entries e = some (d, t, n))
      (hn : UserName n) (ht : g.getInode t = some i) (hkind : i.vtype ≠ .directory)
      (hlast : decrement32 i.linkCount = 0) (hfree : free g t) :
      Edit link free g (g.dropLastName e d t)
  | dropDir {g : TypeGraph} {e p n ti td} (he : g.entries e = some (p, ti, n)) (hn : UserName n)
      (htd : g.dirInode td = some ti) (hempty : ∀ x t m, g.entries x = some (td, t, m) → ¬ UserName m)
      (hfree : free g ti) : Edit link free g (g.dropDir p n ti td)
  | renameEntry {g : TypeGraph} {e d t n n'} (he : g.entries e = some (d, t, n)) (hn : UserName n)
      (hn' : UserName n') (hne : n ≠ n') (hfree : ∀ x t', g.entries x ≠ some (d, t', n')) :
      Edit link free g (g.renameContainsEdge e n').2
  | moveFileEntry {g : TypeGraph} {i : Inode} {e p t n q qi n'} (he : g.entries e = some (p, t, n))
      (hn : UserName n) (hq : g.dirInode q = some qi) (hn' : UserName n')
      (hfree : ∀ x t', g.entries x ≠ some (q, t', n')) (hcap : g.nextEdge < EDGE_CAPACITY)
      (ht : g.getInode t = some i) (hkind : i.vtype ≠ .directory) :
      Edit link free g (g.moveEntry e p t q n')
  | moveDirEntry {g : TypeGraph} {e p t n q qi n' m} (he : g.entries e = some (p, t, n))
      (hn : UserName n) (hq : g.dirInode q = some qi) (hn' : UserName n')
      (hfree : ∀ x t', g.entries x ≠ some (q, t', n')) (hcap : g.nextEdge < EDGE_CAPACITY)
      (hm : g.dirInode m = some t) (hbelow : ¬ ReflTransGen g.shape.Child m q) :
      Edit link free g (g.moveEntry e p t q n')
  | modifyInode {g : TypeGraph} (t : InodeId) {f : Inode → Inode}
      (hf : ∀ i, (f i).id = i.id ∧ (f i).vtype = i.vtype ∧ (f i).linkCount = i.linkCount) :
      Edit link free g (g.modifyInode t f)
  | attachBlock {g : TypeGraph} {t : InodeId} (hb : g.nextBlock < NODE_CAPACITY)
      (he : g.nextEdge < EDGE_CAPACITY) (hlive : g.containsInode t = true)
      (offset sectorStart sectorCount : Nat) :
      Edit link free g (g.attachBlock t offset sectorStart sectorCount)
  | attachXattr {g : TypeGraph} {t : InodeId} (he : g.nextEdge < EDGE_CAPACITY)
      (hlive : g.containsInode t = true) (ns : XAttrNamespace) (name : String) (value : List UInt8) :
      Edit link free g (g.attachXattr t ns name value)
  | modifyXattr {g : TypeGraph} (a : XAttrId) (f : XAttr → XAttr) :
      Edit link free g { g with xattrs := g.xattrs.modify a f }
  | dropXattr {g : TypeGraph} {e t a} (he : g.edges.view Edge.attachment e = some (t, a)) :
      Edit link free g (g.dropXattr t a)
  | dropGrants {g : TypeGraph} (t : InodeId) : Edit link free g (g.dropGrants t)
  | attachGrant {g : TypeGraph} {t : InodeId} (hc : g.nextCap < NODE_CAPACITY)
      (he : g.nextEdge < EDGE_CAPACITY) (hlive : g.containsInode t = true) (rights : Rights) :
      Edit link free g (g.attachGrant t rights)
  | sides {g : TypeGraph} (fileData symlinkTargets acls quotas provLog capCtx) :
      Edit link free g { g with fileData := fileData, symlinkTargets := symlinkTargets, acls := acls,
                                quotas := quotas, provLog := provLog, capCtx := capCtx }

/-- A chain of edits. -/
abbrev Edits (link free : TypeGraph → InodeId → Prop) : TypeGraph → TypeGraph → Prop :=
  ReflTransGen (Edit link free)

section Edits

variable {link free : TypeGraph → InodeId → Prop} {g g' : TypeGraph}

/-- Every edit keeps the invariant. -/
theorem Edit.inv (h : Inv g) (hedit : Edit link free g g') : Inv g' := by
  cases hedit with
  | enterInode hi he hd hn hfree hid hkind hlink =>
      exact h.enterInode hi he hd hn hfree hid hkind hlink
  | enterDir hi hdir he hd hn hfree hid hkind hlink =>
      exact h.enterDir hi hdir he hd hn hfree hid hkind hlink
  | enterLink he hd hn hfree ht hkind => exact h.enterLink he hd hn hfree ht hkind
  | dropName he hn ht hkind => exact h.dropName he hn ht hkind
  | dropLastName he hn ht hkind hlast => exact h.dropLastName he hn ht hkind hlast
  | dropDir he hn htd hempty => exact h.dropDir he hn htd hempty
  | renameEntry he hn hn' hne hfree => exact h.renameEntry he hn hn' hne hfree
  | moveFileEntry he hn hq hn' hfree hcap ht hkind =>
      exact h.moveFileEntry he hn hq hn' hfree hcap ht hkind
  | moveDirEntry he hn hq hn' hfree hcap hm hbelow =>
      exact h.moveDirEntry he hn hq hn' hfree hcap hm hbelow
  | modifyInode t hf => exact h.modifyInode t hf
  | attachBlock hb he _ offset sectorStart sectorCount =>
      exact h.attachBlock hb he _ offset sectorStart sectorCount
  | attachXattr he _ ns name value => exact h.attachXattr he _ ns name value
  | modifyXattr a f => exact h.modifyXattr a f
  | dropXattr he => exact h.dropXattr he
  | dropGrants t => exact h.dropGrants t
  | attachGrant hc he _ rights => exact h.attachGrant hc he _ rights
  | sides => exact h.withSides _ _ _ _ _ _

/-- A property that every edit of a graph with the invariant keeps is kept by a chain. -/
theorem Edits.keep {P : TypeGraph → Prop}
    (hstep : ∀ {g g'}, Inv g → P g → Edit link free g g' → P g') (h : Inv g) (hp : P g)
    (hedits : Edits link free g g') : Inv g' ∧ P g' := by
  induction hedits with
  | refl => exact ⟨h, hp⟩
  | tail _ hedit ih => exact ⟨hedit.inv ih.1, hstep ih.1 ih.2 hedit⟩

theorem Edits.inv (h : Inv g) (hedits : Edits link free g g') : Inv g' :=
  (hedits.keep (P := fun _ => True) (fun _ _ _ => trivial) h trivial).1

/-- A new quota table and a new log are an edit. -/
theorem Edits.settled (quotas : ExtTreeMap DirId Quota) (provLog : Option ProvenanceLog)
    (hedits : Edits link free g g') :
    Edits link free g { g' with quotas := quotas, provLog := provLog } :=
  hedits.tail (.sides g'.fileData g'.symlinkTargets g'.acls quotas provLog g'.capCtx)

theorem Edits.recordProv (ts : Timestamp) (op : ProvOp) (inodeId : InodeId) (detail : String)
    (hedits : Edits link free g g') : Edits link free g (g'.recordProv ts op inodeId detail) :=
  hedits.settled _ _

end Edits

/-! ### The removal of a name -/

section Removal

variable {link free : TypeGraph → InodeId → Prop} {now : Nat → Timestamp} {d : DirId} {n : String}
  {g : TypeGraph}

/-- The last name of a file is its only one. -/
theorem Inv.linkCount_eq_one (h : Inv g) {e t i} (he : g.entries e = some (d, t, n)) (hn : UserName n)
    (ht : g.getInode t = some i) (hlast : decrement32 i.linkCount = 0) : i.linkCount = 1 := by
  have hcard := h.decrement_link he hn ht
  have hlinks : i.linkCount = (linksTo g.entries (idToArena t)).card := by
    rw [TypeGraph.getInode, Arena.get_eq_data] at ht
    exact h.links ht
  have hremove := linksTo_remove_card (s := idToArena t) (h.entry_lt he) he
  rw [if_pos (show CountsFor (idToArena t) (d, t, n) from ⟨rfl, hn.2⟩)] at hremove
  omega

theorem Inv.lastName (h : Inv g) {e t i} (he : g.entries e = some (d, t, n)) (hn : UserName n)
    (ht : g.getInode t = some i) (hkind : i.vtype ≠ .directory) (hlast : decrement32 i.linkCount = 0) :
    g.LastName d n t :=
  ⟨hn, h.resolveName_iff.mpr ⟨e, he⟩, i, ht, hkind, h.linkCount_eq_one he hn ht hlast⟩

theorem Inv.emptyDir (h : Inv g) {e ti td} (he : g.entries e = some (d, ti, n)) (hn : UserName n)
    (htd : g.dirInode td = some ti) (hempty : ∀ x t m, g.entries x = some (td, t, m) → ¬ UserName m) :
    g.EmptyDir d n ti := by
  refine ⟨hn, h.resolveName_iff.mpr ⟨e, he⟩, h.getInode_of_dir htd, td, h.dirForInode_iff.mpr htd, ?_⟩
  unfold TypeGraph.dirNotEmpty
  rw [List.any_eq_false]
  rintro ⟨x, t, m⟩ hx
  simpa [UserName] using hempty x t m (h.mem_dirEntries.mp hx)

theorem Inv.unlink_edits (h : Inv g) (hfrees : ∀ t, g.LastName d n t → free g t) :
    Edits link free g (unlink now d n g).2 := by
  rcases unlink_spec now d n h with
    ⟨o, _, heq⟩ | ⟨e, t, i, hn, he, hi, hkind, ⟨_, _, l, heq⟩ | ⟨hlast, _, q, l, heq⟩⟩
  · rw [heq]
  · rw [heq]
    exact Edits.settled _ l (.single (.dropName he hn hi hkind))
  · rw [heq]
    have hfree := hfrees t (h.lastName he hn hi hkind hlast)
    exact Edits.settled q l (.single (.dropLastName he hn hi hkind hlast hfree))

theorem Inv.rmdir_edits (h : Inv g) (hfrees : ∀ t, g.EmptyDir d n t → free g t) :
    Edits link free g (rmdir now d n g).2 := by
  rcases rmdir_spec now d n h with
    ⟨o, _, heq⟩ | ⟨e, ti, td, hn, he, htd, hempty, _, q, l, heq⟩
  · rw [heq]
  · rw [heq]
    have hfree := hfrees ti (h.emptyDir he hn htd hempty)
    exact Edits.settled q l (.single (.dropDir he hn htd hempty hfree))

theorem Inv.removeDestination_edits (h : Inv g) (now : Nat → Timestamp) (d : DirId) (n : String)
    (hfrees : ∀ t, g.LastName d n t ∨ g.EmptyDir d n t → free g t) :
    Edits link free g (g.removeDestination now d n (g.resolveName d n)).2 := by
  unfold TypeGraph.removeDestination
  split
  · exact .refl
  · split
    · exact .refl
    · split
      · exact h.rmdir_edits fun t ht => hfrees t (.inr ht)
      · exact h.unlink_edits fun t ht => hfrees t (.inl ht)

end Removal

/-! ### A call -/

section Call

variable {link free : TypeGraph → InodeId → Prop} {now : Nat → Timestamp} {g : TypeGraph}

theorem followParent_nextEdge (g : TypeGraph) (t : InodeId) (q : DirId) :
    (g.followParent t q).nextEdge = g.nextEdge := by
  unfold TypeGraph.followParent TypeGraph.retargetDotdot
  split
  · split
    · split
      · split <;> rfl
      · rfl
    · rfl
  · rfl

/-- The move of an entry issues one edge id. -/
theorem Inv.moveEntry_nextEdge (h : Inv g) {e p t n q n'} (he : g.entries e = some (p, t, n)) :
    (g.moveEntry e p t q n').nextEdge = g.nextEdge + 1 := by
  rw [h.moveEntry_eq he, followParent_nextEdge]
  rfl

/-- The directories below one another after clearing were so before. -/
theorem Cleared.child {g' : TypeGraph} {d : DirId} {n : String} (hc : Cleared g g' d n) {a b : DirId}
    (hchild : g'.shape.Child a b) : g.shape.Child a b := by
  obtain ⟨e, m, i, hi, hm, he⟩ := hchild
  exact ⟨e, m, i, hc.dirs hi, hm, hc.sub he⟩

/-- What the cycle check rules out. -/
theorem Inv.not_below (h : Inv g) {t : InodeId} {m q : DirId} (hm : g.dirInode m = some t)
    (hcycle : g.wouldCycle t q = false) : ¬ ReflTransGen g.shape.Child m q := by
  obtain ⟨inode, hinode, hkind⟩ := h.getInode_of_dir hm
  have hdir : g.dirForInode t = some m := h.dirForInode_iff.mpr hm
  unfold TypeGraph.wouldCycle at hcycle
  simp only [hinode, if_pos hkind, hdir] at hcycle
  rw [← h.isAncestor_iff, hcycle]
  exact Bool.false_ne_true

/-- The edits of a successful rename: its destination goes, its entry takes the new place. -/
theorem Renamed.edits (h : Inv g) {sd dd : DirId} {sn dn : String} {g' : TypeGraph} (hsrc : UserName sn)
    (hdst : UserName dn) (hd : g.LiveDir dd) (hren : Renamed now g sd sn dd dn g')
    (hcap : g'.nextEdge ≤ EDGE_CAPACITY)
    (hfrees : ∀ s t, (sd, sn) ≠ (dd, dn) → g.resolveName sd sn = some s →
      (sd ≠ dd → g.wouldCycle s dd = false) → g.LastName dd dn t ∨ g.EmptyDir dd dn t → free g t) :
    Edits link free g g' := by
  obtain ⟨di, hdi⟩ := h.liveDir_iff.mp hd
  cases hren with
  | same => exact .refl
  | @inPlace e t g₁ hdir hne he hremove hcleared =>
      subst hdir
      have hpair : (sd, sn) ≠ (sd, dn) := fun hpair => hne (congrArg Prod.snd hpair)
      have he' : g₁.entries e = some (sd, t, sn) := hcleared.keep hsrc hpair he
      have hsrc' : g.resolveName sd sn = some t := h.resolveName_iff.mpr ⟨e, he⟩
      have hremoved : Edits link free g g₁ := by
        have hedits : Edits link free g (g.removeDestination now sd dn (g.resolveName sd dn)).2 :=
          h.removeDestination_edits now sd dn fun t' ht' => hfrees t t' hpair hsrc' (fun hdiff => absurd rfl hdiff) ht'
        rwa [hremove] at hedits
      exact hremoved.tail (.renameEntry he' hsrc hdst hne hcleared.free)
  | @moved e t g₁ hne he hcycle hremove hcleared he' =>
      have hinv := hcleared.inv
      have hpair : (sd, sn) ≠ (dd, dn) := fun hpair => hne (congrArg Prod.fst hpair)
      have hsrc' : g.resolveName sd sn = some t := h.resolveName_iff.mpr ⟨e, he⟩
      have hremoved : Edits link free g g₁ := by
        have hedits : Edits link free g (g.removeDestination now dd dn (g.resolveName dd dn)).2 :=
          h.removeDestination_edits now dd dn fun t' ht' => hfrees t t' hpair hsrc' (fun _ => hcycle) ht'
        rwa [hremove] at hedits
      rw [hinv.moveEntry_nextEdge he'] at hcap
      have hq := hcleared.keepDir hdi
      obtain ⟨i, hi⟩ := hinv.getInode_of_entry he'
      by_cases hkind : i.vtype = .directory
      · obtain ⟨m, hm⟩ := hinv.dir_of_entry he' hi hkind
        refine hremoved.tail (.moveDirEntry he' hsrc hq hdst hcleared.free hcap hm ?_)
        intro hreach
        refine h.not_below (hcleared.dirs hm) hcycle (ReflTransGen.mono ?_ _ _ hreach)
        exact fun _ _ hchild => hcleared.child hchild
      · exact hremoved.tail (.moveFileEntry he' hsrc hq hdst hcleared.free hcap hi hkind)

/-! A refused call does nothing. -/

theorem rmdir_of_refused {d : DirId} {n : String} {e : GraphError}
    (hcap : g.requireCap Rights.write = .error e) : rmdir now d n g = (.err e, g) := by
  rw [rmdir, hcap]

theorem unlink_of_refused {d : DirId} {n : String} {e : GraphError}
    (hcap : g.requireCap Rights.write = .error e) : unlink now d n g = (.err e, g) := by
  rw [unlink, hcap]

theorem rename_of_refused {sd dd : DirId} {sn dn : String} {e : GraphError}
    (hcap : g.requireCap Rights.write = .error e) : rename now sd sn dd dn g = (.err e, g) := by
  rw [rename, hcap]

/-- One grant after another. -/
theorem Inv.foldl_grantEntry_edits (t : InodeId) (mask : Option Rights) (entries : List AclEntry) :
    ∀ {g : TypeGraph}, Inv g → g.containsInode t = true →
      (entries.foldl (TypeGraph.grantEntry t mask) g).nextCap ≤ NODE_CAPACITY →
      (entries.foldl (TypeGraph.grantEntry t mask) g).nextEdge ≤ EDGE_CAPACITY →
      Edits link free g (entries.foldl (TypeGraph.grantEntry t mask) g) := by
  induction entries with
  | nil =>
      intro g _ _ _ _
      exact .refl
  | cons entry entries ih =>
      intro g h hlive hc he
      rw [List.foldl_cons] at hc he ⊢
      obtain ⟨hc', he'⟩ := foldl_grantEntry_le t mask entries (TypeGraph.grantEntry t mask g entry)
      have hcap := hc'.trans hc
      have hedge := he'.trans he
      rw [grantEntry_eq] at hcap hedge hc he ⊢
      split at hcap
      · rename_i hskip
        rw [if_pos hskip] at hc he ⊢
        exact ih h hlive hc he
      · rename_i hgrant
        rw [if_neg hgrant] at hc he hedge ⊢
        exact .head (.attachGrant hcap hedge hlive _) (ih (h.attachGrant hcap hedge t _) hlive hc he)

/-- Every call that leaves a graph that fits is a chain of edits, whatever its outcome. -/
theorem Op.edits (now : Nat → Timestamp) (link free : TypeGraph → InodeId → Prop) (h : Inv g) {op : Op}
    (hdirs : op.LiveDirs g) (hfits : (op.apply now g).2.Fits)
    (hlinks : ∀ t, op.Links g t → link g t) (hfrees : ∀ t, op.Frees g t → free g t) :
    Edits link free g (op.apply now g).2 := by
  cases op with
  | createFile d n u gr p =>
      obtain ⟨di, hdi⟩ := h.liveDir_iff.mp (hdirs d (by simp [Op.dirs]))
      rcases createFile_spec h (hdirs d (by simp [Op.dirs])) hfits with
        ⟨o, _, heq⟩ | ⟨hn, hfree, hi, he, _, q, l, heq⟩
      · rw [Op.apply, heq]
        exact .refl
      · rw [Op.apply, heq]
        exact Edits.settled q l
          (.single (.enterInode hi he hdi hn hfree rfl (by intro hk; cases hk) rfl))
  | mkdir d n u gr p =>
      rcases mkdir_spec h (hdirs d (by simp [Op.dirs])) hfits with
        ⟨o, _, heq⟩ | ⟨hn, hfree, hi, hdir, he, di, hdi, _, q, l, heq⟩
      · rw [Op.apply, heq]
        exact .refl
      · rw [Op.apply, heq]
        exact Edits.settled q l (.single (.enterDir hi hdir he hdi hn hfree rfl rfl rfl))
  | rmdir d n =>
      rw [Op.apply, Prod.map_snd]
      cases hcap : g.requireCap Rights.write with
      | error e =>
          rw [rmdir_of_refused hcap]
          exact .refl
      | ok _ => exact h.rmdir_edits fun t ht => hfrees t ⟨hcap, ht⟩
  | link d n t =>
      obtain ⟨di, hdi⟩ := h.liveDir_iff.mp (hdirs d (by simp [Op.dirs]))
      rcases link_spec h (hdirs d (by simp [Op.dirs])) hfits with
        ⟨o, _, heq⟩ | ⟨hn, hfree, he, i, hi, hkind, _, l, heq⟩
      · rw [Op.apply, heq]
        exact .refl
      · rcases link_cases now d n t g with
          ⟨o, hfail, hfailed⟩ | ⟨hcap, _, hfree', j, hj, hjkind, hmax, _⟩
        · rw [hfailed] at heq
          exact absurd (congrArg Prod.fst heq) (hfail ())
        · rw [Op.apply, heq]
          have hlink := hlinks t ⟨rfl, hcap, hn, hfree', j, hj, hjkind, hmax⟩
          exact Edits.settled _ l (.single (.enterLink he hdi hn hfree hi hkind hlink))
  | unlink d n =>
      rw [Op.apply, Prod.map_snd]
      cases hcap : g.requireCap Rights.write with
      | error e =>
          rw [unlink_of_refused hcap]
          exact .refl
      | ok _ => exact h.unlink_edits fun t ht => hfrees t ⟨hcap, ht⟩
  | rename sd sn dd dn =>
      rcases rename_spec now sd sn dd dn h with
        ⟨o, _, heq⟩ | ⟨hsrc, hdst, g', hren, heq⟩
      · rw [Op.apply, heq]
        exact .refl
      · cases hcap : g.requireCap Rights.write with
        | error e =>
            rw [rename_of_refused hcap] at heq
            cases heq
        | ok _ =>
            rw [Op.apply, heq] at hfits ⊢
            refine Edits.recordProv _ _ _ _ (hren.edits h hsrc hdst (hdirs dd (by simp [Op.dirs]))
              hfits.nextEdge_le ?_)
            intro s t hpair hs hcycle ht
            exact hfrees t ⟨hcap, hsrc, hpair, ⟨s, hs, hcycle⟩, ht⟩
  | symlink d n t u gr =>
      obtain ⟨di, hdi⟩ := h.liveDir_iff.mp (hdirs d (by simp [Op.dirs]))
      rcases symlink_spec h (hdirs d (by simp [Op.dirs])) hfits with
        ⟨o, _, heq⟩ | ⟨hn, hfree, hi, he, _, q, l, heq⟩
      · rw [Op.apply, heq]
        exact .refl
      · rw [Op.apply, heq]
        have hentered : Edit link free g (g.enterInode (symlinkInode now g t u gr) d n) :=
          .enterInode hi he hdi hn hfree rfl (by intro hk; cases hk) rfl
        refine .head hentered (.single ?_)
        exact .sides _ (g.symlinkTargets.insert g.nextInode ⟨t⟩) _ q l _
  | writeBlock t o s c =>
      rcases writeBlock_cases t o s c g with
        ⟨o', _, heq⟩ | ⟨_, hlive, heq⟩
      · rw [Op.apply, heq]
        exact .refl
      · rw [Op.apply, heq] at hfits ⊢
        exact .single (.attachBlock hfits.nextBlock_le
          hfits.nextEdge_le hlive o s c)
  | writeData t o b =>
      rcases writeData_cases now t o b g with
        ⟨e, heq⟩ | ⟨_, _, _, ⟨buf, heq⟩ | ⟨buf, heq⟩⟩
      · rw [Op.apply, heq]
        exact .refl
      · rw [Op.apply, heq]
        exact .single (.sides (g.fileData.insert t buf) _ _ _ _ _)
      · rw [Op.apply, heq]
        refine Edits.recordProv _ _ _ _ (.head (.sides (g.fileData.insert t buf) _ _ _ _ _)
          (.single (.modifyInode t ?_)))
        exact fun _ => ⟨rfl, rfl, rfl⟩
  | truncate t s =>
      rcases truncate_cases now t s g with
        ⟨e, heq⟩ | ⟨_, _, _, ⟨buf, heq⟩ | heq⟩
      · rw [Op.apply, heq]
        exact .refl
      · rw [Op.apply, heq]
        exact .single (.sides (g.fileData.insert t buf) _ _ _ _ _)
      · rw [Op.apply, heq]
        refine Edits.recordProv _ _ _ _ (.head
          (.sides (g.fileData.insert t (resizeBytes (g.fileData.getD t []) s)) _ _ _ _ _)
          (.single (.modifyInode t ?_)))
        exact fun _ => ⟨rfl, rfl, rfl⟩
  | chmod t m =>
      rcases chmod_cases now t m g with ⟨o, _, heq⟩ | ⟨_, heq⟩
      · rw [Op.apply, heq]
        exact .refl
      · rw [Op.apply, heq]
        refine Edits.recordProv _ _ _ _ (.single (.modifyInode t ?_))
        exact fun _ => ⟨rfl, rfl, rfl⟩
  | chown t u gr =>
      rcases chown_cases now t u gr g with ⟨o, _, heq⟩ | ⟨_, heq⟩
      · rw [Op.apply, heq]
        exact .refl
      · rw [Op.apply, heq]
        refine Edits.recordProv _ _ _ _ (.single (.modifyInode t ?_))
        exact fun _ => ⟨rfl, rfl, rfl⟩
  | setxattr t ns n v =>
      rcases setxattr_cases now t ns n v g with
        ⟨o, _, heq⟩ | ⟨_, hlive, _, ⟨a, _, heq⟩ | ⟨_, heq⟩⟩
      · rw [Op.apply, heq]
        exact .refl
      · rw [Op.apply, heq]
        exact .single (.modifyXattr a _)
      · rw [Op.apply, heq] at hfits ⊢
        exact Edits.recordProv _ _ _ _
          (.single (.attachXattr hfits.nextEdge_le hlive ns n v))
  | removexattr t ns n =>
      rcases removexattr_cases now t ns n g with
        ⟨o, _, heq⟩ | ⟨_, _, a, ha, heq⟩
      · rw [Op.apply, heq]
        exact .refl
      · obtain ⟨e, he⟩ := h.attached_of_findXattr ha
        rw [Op.apply, heq]
        exact Edits.recordProv _ _ _ _ (.single (.dropXattr he))
  | setacl t es =>
      rcases setacl_cases now t es g with
        ⟨o, _, heq⟩ | ⟨_, hlive, heq⟩
      · rw [Op.apply, heq]
        exact .refl
      · rw [Op.apply, heq] at hfits ⊢
        have hinv : Inv { g.dropGrants t with acls := (g.dropGrants t).acls.insert t es } :=
          (h.dropGrants t).withSides _ _ _ _ _ _
        obtain ⟨_, _, _, hdrop, _⟩ := h.dropGrants_eq t
        have hlive' : (g.dropGrants t).containsInode t = true := by
          rw [hdrop]
          exact hlive
        have hcleared : Edits link free g { g.dropGrants t with acls := (g.dropGrants t).acls.insert t es } :=
          .tail (.single (.dropGrants t)) (.sides _ _ ((g.dropGrants t).acls.insert t es) _ _ _)
        exact Edits.recordProv _ _ _ _ (hcleared.trans (Inv.foldl_grantEntry_edits t _ es hinv hlive'
          hfits.nextCap_le hfits.nextEdge_le))
  | setQuota d il bl =>
      rcases setQuota_cases d il bl g with ⟨o, _, heq⟩ | ⟨_, _, heq⟩
      · rw [Op.apply, heq]
        exact .refl
      · rw [Op.apply, heq]
        exact .single (.sides _ _ _ (g.quotas.insert d (.new il bl)) _ _)

end Call

end SotFs
