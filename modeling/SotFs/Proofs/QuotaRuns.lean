/-
Module: SotFs.Proofs.QuotaRuns
Layer: Proofs
Purpose: What the quota of a directory says of its subtree along a run. The inode counter is kept by charges
  at creation and deletion, so it counts the subtree as long as no name carries an inode across its border;
  the byte counter is never charged, so it is right as long as nothing below the directory has content.
Trusted boundary: none
Main exports: TypeGraph.below, Op.Crosses, Accounted, Op.accounted, RunFrom, inode_usage_exact,
  link_uncounted, Op.BringsBytes, byte_usage_exact, write_uncounted
-/
import SotFs.Proofs.QuotaCharges
import SotFs.Proofs.Freshness

namespace SotFs

open Std (ExtTreeMap ExtTreeSet)
open Relation Foundation

/-! ### Crossing the border of a subtree -/

/-- The name leads to a file that has other names. -/
def TypeGraph.SharedName (g : TypeGraph) (p : DirId) (n : String) (t : InodeId) : Prop :=
  UserName n ∧ g.resolveName p n = some t ∧
    ∃ i, g.getInode t = some i ∧ i.vtype ≠ .directory ∧ i.linkCount ≠ 1

/-- A name in `p` would be the first one below `d` of the inode in slot `j`. -/
def TypeGraph.Gains (g : TypeGraph) (d p : DirId) (j : Nat) : Prop := g.Within d p ∧ ¬ g.Under d j

/-- The name `n` of `p` lies below `d` and is the only one there of the inode in slot `j`. -/
def TypeGraph.Loses (g : TypeGraph) (d p : DirId) (n : String) (j : Nat) : Prop :=
  g.Within d p ∧ ¬ ∃ c n', g.Within d c ∧ g.Leads c n' j ∧ (c, n') ≠ (p, n)

/-- The call passes its checks and gives an inode that is there already its first name below `d`, or takes
    the last name below `d` of an inode that lives on. -/
def Op.Crosses (g : TypeGraph) (d : DirId) : Op → Prop
  | .link p n t => g.CanLink p n t ∧ g.Gains d p (idToArena t)
  | .unlink p n =>
      g.requireCap Rights.write = .ok () ∧ ∃ t, g.SharedName p n t ∧ g.Loses d p n (idToArena t)
  | .rename sd sn dd dn => ∃ s, g.CanRename sd sn dd dn s ∧
      (g.Gains d dd (idToArena s) ∨ (¬ g.Within d dd ∧ g.Loses d sd sn (idToArena s)) ∨
        ∃ t, g.SharedName dd dn t ∧ idToArena t ≠ idToArena s ∧ g.Loses d dd dn (idToArena t))
  | _ => False

/-- How a call may treat the subtree and the quota of `d`: both stay, one inode comes and is charged, or one
    goes and is credited. -/
inductive Accounted (d : DirId) (g g' : TypeGraph) : Prop where
  | kept (quota : g'.quotas[d]? = g.quotas[d]?) (under : ∀ x, g'.Under d x ↔ g.Under d x)
  | entered (j : Nat) (new : ¬ g.Under d j) (room : ∀ q, g.quotas[d]? = some q → q.checkInode = true)
      (quota : g'.quotas[d]? = g.quotas[d]?.map fun q => q.update 1 0)
      (under : ∀ x, g'.Under d x ↔ g.Under d x ∨ x = j)
  | left (j : Nat) (old : g.Under d j)
      (quota : g'.quotas[d]? = g.quotas[d]?.map fun q => q.update (-1) 0)
      (under : ∀ x, g'.Under d x ↔ g.Under d x ∧ x ≠ j)

section Accounts

variable {now : Nat → Timestamp} {g g' g₁ : TypeGraph} {d p sd dd : DirId} {n sn dn : String} {j : Nat}
  {t s : InodeId}

/-- An inode check that passes passes at every directory above. -/
theorem Inv.checkInode_of_ok (h : Inv g) {i : InodeId} (hp : g.dirInode p = some i)
    (hok : g.checkQuotaInode p = .ok ()) (hd : g.Within d p) {q : Quota} (hq : g.quotas[d]? = some q) :
    q.checkInode = true := by
  obtain ⟨path, hup⟩ := h.exists_upPath hp
  rw [h.checkQuotaInode_eq hp hup] at hok
  exact checkAlong_ok hok ((hup.mem_iff h.shape.tree d).mpr hd) hq

/-- A full quota above refuses a new inode. -/
theorem Inv.checkInode_full (h : Inv g) {i : InodeId} (hp : g.dirInode p = some i) (hd : g.Within d p)
    {q : Quota} (hq : g.quotas[d]? = some q) (hfull : q.checkInode = false) :
    ∃ a, g.checkQuotaInode p = .err (.quotaExceeded a .inode) := by
  obtain ⟨path, hup⟩ := h.exists_upPath hp
  rw [h.checkQuotaInode_eq hp hup]
  exact checkAlong_err ((hup.mem_iff h.shape.tree d).mpr hd) hq hfull

/-- A new inode is counted and charged. -/
theorem NameMade.accounted (hm : NameMade g g' p n g.nextInode) (hcharged : Charged g g' p 1) (h : Inv g)
    (h' : Inv g') {i : InodeId} (hp : g.dirInode p = some i) (hok : g.checkQuotaInode p = .ok ()) :
    Accounted d g g' := by
  have hunder : ∀ x, g'.Under d x ↔ g.Under d x ∨ g.Within d p ∧ x = g.nextInode :=
    fun x => hm.under_iff h h' hp
  by_cases hd : g.Within d p
  · refine .entered g.nextInode ?_ (fun q hq => h.checkInode_of_ok hp hok hd hq) (hcharged.above hd) ?_
    · intro hold
      obtain ⟨k, hk⟩ := h.under_live hold
      rw [h.kinds_fresh le_rfl] at hk
      cases hk
    · intro x
      rw [hunder, and_iff_right hd]
  · refine .kept (hcharged.aside hd) ?_
    intro x
    rw [hunder]
    exact ⟨fun hx => hx.resolve_right fun hx => hd hx.1, .inl⟩

/-- One more name of an inode that is not new to the subtree changes nothing. -/
theorem NameMade.accounted_link (hm : NameMade g g' p n j) (hquotas : g'.quotas = g.quotas) (h : Inv g)
    (h' : Inv g') {i : InodeId} (hp : g.dirInode p = some i) (hgains : ¬ g.Gains d p j) :
    Accounted d g g' := by
  refine .kept (by rw [hquotas]) ?_
  intro x
  rw [hm.under_iff h h' hp]
  constructor
  · rintro (hold | ⟨hd, rfl⟩)
    · exact hold
    · by_contra hx
      exact hgains ⟨hd, hx⟩
  · exact .inl

/-- The last name of a file is its only one, and a directory has one name. -/
theorem Inv.only_name (h : Inv g) (hfreed : g.FreedBy p n t) {c : DirId} {n' : String}
    (hlead : g.Leads c n' (idToArena t)) : (c, n') = (p, n) := by
  rcases hfreed with ⟨hn, hres, i, hi, _, hone⟩ | ⟨hn, hres, ⟨i, hi, hkind⟩, _⟩
  · obtain ⟨e, he⟩ := h.resolveName_iff.mp hres
    obtain ⟨hn', e', t', he', hslot⟩ := hlead
    have hcard : (linksTo g.entries (idToArena t)).card ≤ 1 := by
      rw [TypeGraph.getInode, Arena.get_eq_data] at hi
      rw [← h.links hi, hone]
    have hmem : ∀ {x c t' m}, g.entries x = some (c, t', m) → UserName m → idToArena t' = idToArena t →
        x ∈ linksTo g.entries (idToArena t) := by
      intro x c t' m hx hm ht'
      exact mem_linksTo.mpr ⟨h.entry_lt hx, (c, t', m), hx, ht', hm.2⟩
    have heq : e = e' := Finset.card_le_one.mp hcard e (hmem he hn rfl) e' (hmem he' hn' hslot)
    subst heq
    rw [he] at he'
    cases he'
    rfl
  · obtain ⟨e, he⟩ := h.resolveName_iff.mp hres
    obtain ⟨m, hm⟩ := h.dir_of_entry he hi hkind
    have hslot := h.shape.dir_slot hm
    rw [hslot] at hlead
    have hlead' : g.Leads p n t := ⟨hn, e, t, he, hslot⟩
    obtain ⟨rfl, rfl⟩ := h.leads_dir_unique hm hlead hlead'
    rfl

/-- A name that can be removed without freeing its inode is one of several. -/
theorem TypeGraph.CanReplace.shared (hcan : g.CanReplace p n) (hn : UserName n)
    (hres : g.resolveName p n = some t) (hnone : ¬ g.FreedBy p n t) : g.SharedName p n t := by
  obtain ⟨i, hi, hdir⟩ := hcan t hres
  by_cases hkind : i.vtype = .directory
  · exact absurd (.inr ⟨hn, hres, ⟨i, hi, hkind⟩, hdir hkind⟩) hnone
  · refine ⟨hn, hres, i, hi, hkind, ?_⟩
    intro hone
    exact hnone (.inl ⟨hn, hres, i, hi, hkind, hone⟩)

/-- The name leads to the inode in slot `x`, which goes with it. -/
def TypeGraph.Frees (g : TypeGraph) (p : DirId) (n : String) (x : Nat) : Prop :=
  ∃ t, g.FreedBy p n t ∧ x = idToArena t

/-- A freed inode has no other name. -/
theorem Inv.frees_iff (h : Inv g) {x : Nat} (hfrees : g.Frees p n x) {c : DirId} {n' : String} :
    g.Leads c n' x ↔ (c, n') = (p, n) := by
  obtain ⟨t, hfreed, rfl⟩ := hfrees
  refine ⟨h.only_name hfreed, ?_⟩
  intro heq
  cases heq
  have hres : UserName n ∧ g.resolveName p n = some t :=
    hfreed.elim (fun hl => ⟨hl.1, hl.2.1⟩) fun hl => ⟨hl.1, hl.2.1⟩
  exact h.leads_iff_resolve.mpr ⟨hres.1, t, hres.2, rfl⟩

/-- If the freed inode is all that leaves the subtree, the quota agrees. -/
theorem NameReleased.accounted_of_frees (hr : NameReleased g g₁ p n) (hquotas : g'.quotas = g₁.quotas)
    (h : Inv g) (hunder : ∀ x, g'.Under d x ↔ g.Under d x ∧ ¬ g.Frees p n x) : Accounted d g g' := by
  by_cases hfreed : ∃ t, g.FreedBy p n t
  · obtain ⟨t, hfreed⟩ := hfreed
    have hfrees : g.Frees p n (idToArena t) := ⟨t, hfreed, rfl⟩
    have hunder' : ∀ x, g'.Under d x ↔ g.Under d x ∧ x ≠ idToArena t := by
      intro x
      rw [hunder]
      refine and_congr_right fun _ => not_congr ⟨?_, ?_⟩
      · intro hx
        have hlead : g.Leads p n (idToArena t) := (h.frees_iff hfrees).mpr rfl
        exact h.leads_unique ((h.frees_iff hx).mpr rfl) hlead
      · rintro rfl
        exact hfrees
    by_cases hd : g.Under d (idToArena t)
    · refine .left _ hd ?_ hunder'
      obtain ⟨c, n', hwithin, hlead⟩ := hd
      cases (h.frees_iff hfrees).mp hlead
      rw [hquotas, (hr.freed hfreed).above hwithin]
    · refine .kept ?_ ?_
      · rw [hquotas, (hr.freed hfreed).aside]
        exact fun hwithin => hd ⟨p, n, hwithin, (h.frees_iff hfrees).mpr rfl⟩
      · intro x
        rw [hunder']
        refine ⟨And.left, fun hx => ⟨hx, ?_⟩⟩
        rintro rfl
        exact hd hx
  · refine .kept (by rw [hquotas, hr.shared fun t ht => hfreed ⟨t, ht⟩]) ?_
    intro x
    rw [hunder]
    refine ⟨And.left, fun hx => ⟨hx, ?_⟩⟩
    rintro ⟨t, ht, _⟩
    exact hfreed ⟨t, ht⟩

/-- An inode that goes with its name is credited; one that has another name below `d` stays there. -/
theorem NameReleased.accounted (hr : NameReleased g g' p n) (h : Inv g) (h' : Inv g')
    (hloses : ∀ t, g.SharedName p n t → ¬ g.Loses d p n (idToArena t)) : Accounted d g g' := by
  refine hr.accounted_of_frees rfl h ?_
  intro x
  rw [hr.taken.under_iff h h']
  constructor
  · rintro ⟨c, n', hwithin, hlead, hne⟩
    exact ⟨⟨c, n', hwithin, hlead⟩, fun hfrees => hne ((h.frees_iff hfrees).mp hlead)⟩
  · rintro ⟨⟨c, n', hwithin, hlead⟩, hkept⟩
    by_cases heq : (c, n') = (p, n)
    · cases heq
      obtain ⟨hn, t, hres, rfl⟩ := h.leads_iff_resolve.mp hlead
      have hshared := hr.can.shared hn hres fun hfreed => hkept ⟨t, hfreed, rfl⟩
      by_contra hno
      exact hloses t hshared ⟨hwithin, hno⟩
    · exact ⟨c, n', hwithin, hlead, heq⟩

/-- A rename that crosses no border moves nothing in or out but the destination it frees. -/
theorem RenameSteps.accounted (hs : RenameSteps g g₁ g' sd sn dd dn s) (h : Inv g) (h' : Inv g')
    {di : InodeId} (hdd : g.dirInode dd = some di) (hcross : ¬ (Op.rename sd sn dd dn).Crosses g d) :
    Accounted d g g' := by
  obtain ⟨_, hsn, hdn, hne, hres, _, _⟩ := hs.can
  have hsrc : ∀ {x}, g.Leads sd sn x ↔ x = idToArena s := by
    obtain ⟨e, he⟩ := h.resolveName_iff.mp hres
    exact h.leads_iff_of_entry he hsn
  have hgains : ¬ g.Gains d dd (idToArena s) := fun hg => hcross ⟨s, hs.can, .inl hg⟩
  have hleaves : ¬ g.Within d dd → ¬ g.Loses d sd sn (idToArena s) :=
    fun hout hl => hcross ⟨s, hs.can, .inr (.inl ⟨hout, hl⟩)⟩
  have hreplaced : ∀ t, g.SharedName dd dn t → idToArena t ≠ idToArena s →
      ¬ g.Loses d dd dn (idToArena t) :=
    fun t hshared hts hl => hcross ⟨s, hs.can, .inr (.inr ⟨t, hshared, hts, hl⟩)⟩
  -- a directory has no other name, so it would cross with either end
  have hstay : ∀ m i, g.dirInode m = some i → g.Leads sd sn i → (g.Within d sd ↔ g.Within d dd) := by
    intro m i hm hlead
    have hi := hsrc.mp hlead
    constructor
    · intro hin
      by_contra hout
      refine hleaves hout ⟨hin, ?_⟩
      rintro ⟨c, n', _, hlead', hdiff⟩
      rw [← hi] at hlead'
      obtain ⟨rfl, rfl⟩ := h.leads_dir_unique hm hlead' hlead
      exact hdiff rfl
    · intro hin
      by_contra hout
      refine hgains ⟨hin, ?_⟩
      rintro ⟨c, n', hwithin, hlead'⟩
      rw [← hi] at hlead'
      obtain ⟨rfl, rfl⟩ := h.leads_dir_unique hm hlead' hlead
      exact hout hwithin
  refine hs.released.accounted_of_frees hs.quotas h ?_
  intro x
  rw [rename_under_iff hs.released.taken hs.moved h hs.inv₁ h' hne (hs.dst hdd) hstay]
  constructor
  · rintro (⟨c, n, hwithin, hlead, _, hdiff⟩ | ⟨hwithin, hlead⟩)
    · exact ⟨⟨c, n, hwithin, hlead⟩, fun hfrees => hdiff ((h.frees_iff hfrees).mp hlead)⟩
    · refine ⟨?_, fun hfrees => hne ((h.frees_iff hfrees).mp hlead)⟩
      by_contra hno
      rw [hsrc.mp hlead] at hno
      exact hgains ⟨hwithin, hno⟩
  · rintro ⟨⟨c, n, hwithin, hlead⟩, hkept⟩
    by_cases hcsrc : (c, n) = (sd, sn)
    · cases hcsrc
      by_cases hin : g.Within d dd
      · exact .inr ⟨hin, hlead⟩
      · have hstays := hleaves hin
        rw [← hsrc.mp hlead] at hstays
        obtain ⟨c', n', hwithin', hlead', hdiff⟩ := not_and_not_right.mp hstays hwithin
        refine .inl ⟨c', n', hwithin', hlead', hdiff, ?_⟩
        intro heq
        cases heq
        exact hin hwithin'
    · by_cases hcdst : (c, n) = (dd, dn)
      · cases hcdst
        obtain ⟨_, t, hrest, rfl⟩ := h.leads_iff_resolve.mp hlead
        have hshared := hs.released.can.shared hdn hrest fun hfreed => hkept ⟨t, hfreed, rfl⟩
        by_cases hts : idToArena t = idToArena s
        · exact .inr ⟨hwithin, hsrc.mpr hts⟩
        · obtain ⟨c', n', hwithin', hlead', hdiff⟩ :=
            not_and_not_right.mp (hreplaced t hshared hts) hwithin
          refine .inl ⟨c', n', hwithin', hlead', ?_, hdiff⟩
          intro heq
          cases heq
          exact hts (hsrc.mp hlead')
      · exact .inl ⟨c, n, hwithin, hlead, hcsrc, hcdst⟩

/-- Every call that crosses no border and does not set the quota of `d` is accounted for. -/
theorem Op.accounted {op : Op} (h : Inv g) (hcall : InCapacityCall g op (op.apply now g).2)
    (hset : ∀ il bl, op ≠ .setQuota d il bl) (hcross : ¬ op.Crosses g d) :
    Accounted d g (op.apply now g).2 := by
  have h' : Inv (op.apply now g).2 := op.apply_inv _ h hcall.1 hcall.2
  have hacc := hcall.2
  have hsame : Accounted d g g := .kept rfl fun _ => Iff.rfl
  have haside : ∀ {g'}, Aside g g' → Accounted d g g' :=
    fun ha => .kept (by rw [ha.quotas]) fun _ => ha.under_iff
  cases op with
  | createFile p n u gr perm =>
      have hp := hcall.1 p (by simp [Op.dirs])
      obtain ⟨i, hi⟩ := h.liveDir_iff.mp hp
      rw [Op.apply, Prod.map_snd] at h' hacc ⊢
      rcases createFile_made h hp hacc with ⟨o, _, heq⟩ | ⟨hok, hm, hcharged⟩
      · rw [heq]
        exact hsame
      · exact hm.accounted hcharged h h' hi hok
  | mkdir p n u gr perm =>
      have hp := hcall.1 p (by simp [Op.dirs])
      obtain ⟨i, hi⟩ := h.liveDir_iff.mp hp
      rw [Op.apply, Prod.map_snd] at h' hacc ⊢
      rcases mkdir_made h hp hacc with ⟨o, _, heq⟩ | ⟨hok, hm, hcharged⟩
      · rw [heq]
        exact hsame
      · exact hm.accounted hcharged h h' hi hok
  | symlink p n target u gr =>
      have hp := hcall.1 p (by simp [Op.dirs])
      obtain ⟨i, hi⟩ := h.liveDir_iff.mp hp
      rw [Op.apply, Prod.map_snd] at h' hacc ⊢
      rcases symlink_made h hp hacc with ⟨o, _, heq⟩ | ⟨hok, hm, hcharged⟩
      · rw [heq]
        exact hsame
      · exact hm.accounted hcharged h h' hi hok
  | link p n t =>
      have hp := hcall.1 p (by simp [Op.dirs])
      obtain ⟨i, hi⟩ := h.liveDir_iff.mp hp
      rw [Op.apply, Prod.map_snd] at h' hacc ⊢
      rcases link_made h hp hacc with ⟨o, _, heq⟩ | ⟨hcan, hm, hquotas⟩
      · rw [heq]
        exact hsame
      · exact hm.accounted_link hquotas h h' hi fun hg => hcross ⟨hcan, hg⟩
  | unlink p n =>
      rw [Op.apply, Prod.map_snd] at h' ⊢
      cases hcap : g.requireCap Rights.write with
      | error e =>
          rw [unlink_of_refused hcap]
          exact hsame
      | ok _ =>
          rcases unlink_spec now p n h with
            ⟨o, _, heq⟩ | ⟨_, _, _, _, _, _, _, ⟨_, _, _, heq⟩ | ⟨_, _, _, _, heq⟩⟩
          · rw [heq]
            exact hsame
          · have hr := unlink_released h heq
            rw [heq] at h' ⊢
            exact hr.accounted h h' fun t hshared hl => hcross ⟨hcap, t, hshared, hl⟩
          · have hr := unlink_released h heq
            rw [heq] at h' ⊢
            exact hr.accounted h h' fun t hshared hl => hcross ⟨hcap, t, hshared, hl⟩
  | rmdir p n =>
      rw [Op.apply, Prod.map_snd] at h' ⊢
      rcases rmdir_spec now p n h with
        ⟨o, _, heq⟩ | ⟨e, ti, td, hn, he, htd, _, _, _, _, heq⟩
      · rw [heq]
        exact hsame
      · have hr := rmdir_released h heq
        rw [heq] at h' ⊢
        refine hr.accounted h h' ?_
        rintro t ⟨_, hres, i, hi, hkind, _⟩
        rw [h.resolveName_iff.mpr ⟨e, he⟩] at hres
        cases hres
        obtain ⟨i', hi', hdir⟩ := h.getInode_of_dir htd
        rw [hi] at hi'
        cases hi'
        exact absurd hdir hkind
  | rename sd sn dd dn =>
      have hdd := hcall.1 dd (by simp [Op.dirs])
      obtain ⟨di, hdi⟩ := h.liveDir_iff.mp hdd
      rw [Op.apply, Prod.map_snd] at h' hacc ⊢
      rcases rename_moved h hdd hacc with ⟨o, _, heq⟩ | ⟨l, heq⟩ | ⟨g₁, s, hs⟩
      · rw [heq]
        exact hsame
      · refine haside ?_
        rw [id, heq]
        exact ⟨rfl, rfl, rfl⟩
      · exact hs.accounted h h' hdi hcross
  | setQuota d' il bl =>
      have hne : d' ≠ d := by
        rintro rfl
        exact hset il bl rfl
      rcases setQuota_cases d' il bl g with ⟨o, _, heq⟩ | ⟨_, _, heq⟩
      · rw [Op.apply, heq]
        exact hsame
      · rw [Op.apply, heq]
        refine .kept ?_ fun _ => Iff.rfl
        change (g.quotas.insert d' _)[d]? = _
        rw [ExtTreeMap.getElem?_insert, if_neg]
        rw [Std.compare_eq_iff_eq]
        exact hne
  | writeBlock | writeData | truncate | chmod | chown | setxattr | removexattr | setacl =>
      exact haside (Op.aside h trivial hcall.2)

end Accounts

/-! ### Counting -/

open Classical in
/-- The inodes, by slot, that names below `d` lead to. -/
noncomputable def TypeGraph.below (g : TypeGraph) (d : DirId) : Finset Nat :=
  (Finset.range NODE_CAPACITY).filter fun j => g.Under d j

section Counting

variable {now : Nat → Timestamp} {g g' : TypeGraph} {d p : DirId} {il bl : Nat}

/-- No inode below a directory is missed by the count: they all have slots. -/
theorem Inv.mem_below (h : Inv g) {j : Nat} : j ∈ g.below d ↔ g.Under d j := by
  simp only [TypeGraph.below, Finset.mem_filter, Finset.mem_range, and_iff_right_iff_imp]
  intro hunder
  obtain ⟨k, hk⟩ := h.under_live hunder
  obtain ⟨i, hi, _⟩ := Arena.view_eq_some.mp hk
  by_contra hlt
  rw [Arena.data_eq_none_of_le _ (not_lt.mp hlt)] at hi
  cases hi

/-- There are no more inodes than slots. -/
theorem TypeGraph.below_card_le (g : TypeGraph) (d : DirId) : (g.below d).card ≤ NODE_CAPACITY := by
  classical exact (Finset.card_filter_le _ _).trans_eq (Finset.card_range _)

/-- Nothing lies below an empty directory. -/
theorem Inv.below_empty (h : Inv g) (hempty : g.dirNotEmpty d = false) : g.below d = ∅ := by
  have hnone : ∀ {n j}, ¬ g.Leads d n j := by
    rintro n j ⟨hn, e, t, he, _⟩
    have hany : g.dirNotEmpty d = true := by
      unfold TypeGraph.dirNotEmpty
      rw [List.any_eq_true]
      exact ⟨(e, t, n), h.mem_dirEntries.mpr he, decide_eq_true hn⟩
    rw [hempty] at hany
    cases hany
  rw [Finset.eq_empty_iff_forall_notMem]
  intro j hj
  obtain ⟨c, n, hwithin, hlead⟩ := h.mem_below.mp hj
  rcases ReflTransGen.cases_head hwithin with rfl | ⟨b, hchild, _⟩
  · exact hnone hlead
  · obtain ⟨n', i, _, hlead'⟩ := h.child_iff.mp hchild
    exact hnone hlead'

/-- The quota of `d` says how many inodes lie below `d`, and they are no more than it allows. -/
structure TypeGraph.CountedBy (g : TypeGraph) (d : DirId) (il bl : Nat) : Prop where
  quota : g.quotas[d]? = some ⟨il, (g.below d).card, bl, 0⟩
  limit : il ≠ 0 → (g.below d).card ≤ il

/-- A call that is accounted for keeps the count. -/
theorem Accounted.counted (ha : Accounted d g g') (hc : g.CountedBy d il bl) (h : Inv g) (h' : Inv g') :
    g'.CountedBy d il bl := by
  cases ha with
  | kept hq hu =>
      have hbelow : g'.below d = g.below d := by
        ext j
        rw [h.mem_below, h'.mem_below, hu]
      refine ⟨?_, ?_⟩
      · rw [hq, hbelow]
        exact hc.quota
      · rw [hbelow]
        exact hc.limit
  | entered j hnew hroom hq hu =>
      have hbelow : g'.below d = insert j (g.below d) := by
        ext x
        rw [Finset.mem_insert, h.mem_below, h'.mem_below, hu, or_comm]
      have hcard : (g'.below d).card = (g.below d).card + 1 := by
        rw [hbelow, Finset.card_insert_of_notMem]
        rwa [h.mem_below]
      have hle : (g.below d).card + 1 ≤ u64Max := by
        rw [← hcard]
        exact (g'.below_card_le d).trans (by decide)
      refine ⟨?_, ?_⟩
      · have hcharge : Quota.charge (g.below d).card 1 = (g.below d).card + 1 := by
          rw [Quota.charge, if_pos Int.one_pos, Int.toNat_one]
          exact min_eq_left hle
        simp only [hq, hc.quota, hcard, Option.map_some, Quota.update, hcharge]
        rfl
      · intro hil
        have hpass := hroom _ hc.quota
        simp only [Quota.checkInode, Bool.or_eq_true, beq_iff_eq, decide_eq_true_eq] at hpass
        rw [hcard]
        exact hpass.resolve_left hil
  | left j hold hq hu =>
      have hbelow : g'.below d = (g.below d).erase j := by
        ext x
        rw [Finset.mem_erase, h.mem_below, h'.mem_below, hu, and_comm]
      have hcard : (g'.below d).card = (g.below d).card - 1 := by
        rw [hbelow, Finset.card_erase_of_mem (h.mem_below.mpr hold)]
      refine ⟨?_, ?_⟩
      · have hcredit : Quota.charge (g.below d).card (-1) = (g.below d).card - 1 := by
          rw [Quota.charge, if_neg (by decide)]
          rfl
        simp only [hq, hc.quota, hcard, Option.map_some, Quota.update, hcredit]
        rfl
      · intro hil
        have hlimit := hc.limit hil
        omega

/-- What a run may go through after the graph `g₀`. -/
inductive RunFrom (allowed : TypeGraph → Op → TypeGraph → Prop) (g₀ : TypeGraph) : TypeGraph → Prop where
  | start : RunFrom allowed g₀ g₀
  | call {g : TypeGraph} (now : Nat → Timestamp) (op : Op) :
      RunFrom allowed g₀ g → allowed g op (op.apply now g).2 → RunFrom allowed g₀ (op.apply now g).2
  | setCapCtx {g : TypeGraph} (ctx : CapContext) : RunFrom allowed g₀ g → RunFrom allowed g₀ (g.setCapCtx ctx)
  | enableProvLog {g : TypeGraph} : RunFrom allowed g₀ g → RunFrom allowed g₀ g.enableProvLog
  | disableProvLog {g : TypeGraph} : RunFrom allowed g₀ g → RunFrom allowed g₀ g.disableProvLog

/-- A list of allowed calls goes on with a run. -/
theorem RunFrom.calls {allowed : TypeGraph → Op → TypeGraph → Prop} (ops : List Op) :
    ∀ {g₀ g : TypeGraph}, RunFrom allowed g₀ g → AllAllowed allowed now g ops →
      RunFrom allowed g₀ (g.calls now ops) := by
  induction ops with
  | nil =>
      intro g₀ g hrun _
      exact hrun
  | cons op ops ih =>
      intro g₀ g hrun hall
      exact ih (.call now op hrun hall.1) hall.2

/-- A call of create_file, mkdir or symlink in the subtree of `d` that passes every check but the quota. -/
def Op.Adds (g : TypeGraph) (d : DirId) : Op → Prop
  | .createFile p n .. | .mkdir p n .. | .symlink p n .. =>
      g.requireCap Rights.write = .ok () ∧ invalidName n = false ∧ g.resolveName p n = none ∧
        g.LiveDir p ∧ g.Within d p
  | _ => False

/-- A quota that is used up refuses every new inode below it, and the graph stays as it is. -/
theorem Inv.adds_refused (h : Inv g) {op : Op} (hadds : op.Adds g d) {q : Quota} (hq : g.quotas[d]? = some q)
    (hfull : q.checkInode = false) :
    ∃ a, op.apply now g = (.err (.quotaExceeded a .inode), g) := by
  have hrefused : ∀ {p}, g.LiveDir p → g.Within d p →
      ∃ i, g.getDir p = some ⟨p, i⟩ ∧ g.containsDir p = true ∧
        ∃ a, g.checkQuotaInode p = .err (.quotaExceeded a .inode) := by
    intro p hp hwithin
    obtain ⟨i, hi⟩ := h.liveDir_iff.mp hp
    have hget := h.getDir_eq hi
    refine ⟨i, hget, ?_, h.checkInode_full hi hwithin hq hfull⟩
    rw [TypeGraph.containsDir, Arena.contains_eq_isSome, ← Arena.get_eq_data]
    rw [TypeGraph.getDir] at hget
    rw [hget]
    rfl
  cases op with
  | createFile p n u gr perm =>
      obtain ⟨hcap, hname, hfree, hp, hwithin⟩ := hadds
      obtain ⟨i, _, hlive, a, hcheck⟩ := hrefused hp hwithin
      refine ⟨a, ?_⟩
      rw [Op.apply, createFile, hcap]
      simp only [hname, hfree, hlive, hcheck, Option.isSome_none, Bool.not_true, Bool.false_eq_true,
        if_false]
      rfl
  | mkdir p n u gr perm =>
      obtain ⟨hcap, hname, hfree, hp, hwithin⟩ := hadds
      obtain ⟨i, hget, _, a, hcheck⟩ := hrefused hp hwithin
      refine ⟨a, ?_⟩
      rw [Op.apply, mkdir, hcap]
      simp only [hname, hfree, hget, hcheck, Option.isSome_none, Bool.false_eq_true, if_false]
      rfl
  | symlink p n target u gr =>
      obtain ⟨hcap, hname, hfree, hp, hwithin⟩ := hadds
      obtain ⟨i, _, hlive, a, hcheck⟩ := hrefused hp hwithin
      refine ⟨a, ?_⟩
      rw [Op.apply, symlink, hcap]
      simp only [hname, hfree, hlive, hcheck, Option.isSome_none, Bool.not_true, Bool.false_eq_true,
        if_false]
      rfl
  | rmdir | link | unlink | rename | writeBlock | writeData | truncate | chmod | chown | setxattr
  | removexattr | setacl | setQuota => exact absurd hadds id

/-- From the moment the quota of an empty directory is set, as long as it is not set again and no call
    crosses the border of the subtree: the counter is the number of inodes below the directory, never above
    the limit, and a call that would make one more than the limit is refused and changes nothing. -/
theorem inode_usage_exact {g₀ : TypeGraph} (hrun : Reachable g₀)
    (hempty : g₀.dirNotEmpty d = false) (hset : (setQuota d il bl g₀).1 = .ok ())
    (hafter : RunFrom (fun g op g' => InCapacityCall g op g' ∧ (∀ il bl, op ≠ .setQuota d il bl) ∧
      ¬ op.Crosses g d) (setQuota d il bl g₀).2 g) :
    g.quotas[d]?.map Quota.inodeUsage = some (g.below d).card ∧
      (il ≠ 0 → (g.below d).card ≤ il ∧ ∀ (now : Nat → Timestamp) (op : Op), op.Adds g d → il < (g.below d).card + 1 →
        ∃ a, op.apply now g = (.err (.quotaExceeded a .inode), g)) := by
  have h₀ := Reachable.inv hrun
  have hcounted : Inv g ∧ g.CountedBy d il bl := by
    have hside : ∀ {g : TypeGraph} (provLog capCtx), Inv g ∧ g.CountedBy d il bl →
        Inv { g with provLog := provLog, capCtx := capCtx } ∧
          TypeGraph.CountedBy { g with provLog := provLog, capCtx := capCtx } d il bl := by
      rintro g provLog capCtx ⟨h, hc⟩
      have h' : Inv { g with provLog := provLog, capCtx := capCtx } := h.withSides _ _ _ _ _ _
      have ha : Accounted d g { g with provLog := provLog, capCtx := capCtx } :=
        .kept rfl fun _ => Iff.rfl
      exact ⟨h', ha.counted hc h h'⟩
    induction hafter with
    | start =>
        rcases setQuota_cases d il bl g₀ with ⟨o, hfail, heq⟩ | ⟨_, _, heq⟩
        · rw [heq] at hset
          exact absurd hset (hfail ())
        · rw [heq]
          have h₁ : Inv { g₀ with quotas := g₀.quotas.insert d (.new il bl) } := h₀.withSides _ _ _ _ _ _
          have hbelow : TypeGraph.below { g₀ with quotas := g₀.quotas.insert d (.new il bl) } d = ∅ :=
            h₀.below_empty hempty
          refine ⟨h₁, ?_, ?_⟩
          · rw [hbelow]
            exact ExtTreeMap.getElem?_insert_self
          · rw [hbelow]
            exact fun _ => Nat.zero_le _
    | call now op _ hcall ih =>
        obtain ⟨hcapacity, hnotset, hcross⟩ := hcall
        have h' := op.apply_inv _ ih.1 hcapacity.1 hcapacity.2
        exact ⟨h', (Op.accounted ih.1 hcapacity hnotset hcross).counted ih.2 ih.1 h'⟩
    | setCapCtx ctx _ ih => exact hside _ ctx ih
    | enableProvLog _ ih => exact hside (some []) _ ih
    | disableProvLog _ ih => exact hside none _ ih
  obtain ⟨h, hc⟩ := hcounted
  refine ⟨by simp only [hc.quota, Option.map_some], fun hil => ⟨hc.limit hil, ?_⟩⟩
  intro now op hadds hover
  refine h.adds_refused hadds hc.quota ?_
  simp only [Quota.checkInode, Bool.or_eq_false_iff, beq_eq_false_iff_ne, decide_eq_false_iff_not]
  exact ⟨hil, by omega⟩

/-- A file made in a directory with a quota. -/
theorem inode_usage_exact_created :
    let g₀ := (TypeGraph.new 0).calls (fun _ => 0) [.mkdir 1 "d" 0 0 .dirDefault]
    let g := (setQuota 2 1 0 g₀).2.calls (fun _ => 0) [.createFile 2 "a" 0 0 .fileDefault]
    g.quotas[2]?.map Quota.inodeUsage = some (g.below 2).card ∧
      (1 ≠ 0 → (g.below 2).card ≤ 1 ∧ ∀ (now : Nat → Timestamp) (op : Op), op.Adds g 2 →
        1 < (g.below 2).card + 1 → ∃ a, op.apply now g = (.err (.quotaExceeded a .inode), g)) := by
  intro g₀ g
  have hset : (setQuota 2 1 0 g₀).1 = .ok () := by decide
  refine inode_usage_exact (Run.calls _ (.new 0) (by decide)) (by decide) hset
    (RunFrom.calls _ .start ⟨⟨by decide, ?_, id⟩, trivial⟩)
  intro il bl heq
  cases heq

/-- A hard link brings a file below a directory with a quota, and the counter stays at zero. -/
theorem link_uncounted :
    let g₀ := (TypeGraph.new 0).calls (fun _ => 0)
      [.mkdir 1 "d" 0 0 .dirDefault, .createFile 1 "f" 0 0 .fileDefault]
    let g := (setQuota 2 1 0 g₀).2.calls (fun _ => 0) [.link 2 "f" 3]
    Reachable g₀ ∧ g₀.LiveDir 2 ∧ g₀.dirNotEmpty 2 = false ∧ (setQuota 2 1 0 g₀).1 = .ok () ∧
      RunFrom (fun g op g' => InCapacityCall g op g' ∧ ∀ il bl, op ≠ .setQuota 2 il bl)
        (setQuota 2 1 0 g₀).2 g ∧ g.LiveDir 2 ∧
      g.quotas[2]?.map Quota.inodeUsage = some 0 ∧ 3 ∈ g.below 2 ∧
      g.quotas[2]?.map Quota.inodeUsage ≠ some (g.below 2).card := by
  intro g₀ g
  have hnotset : ∀ il bl, Op.link 2 "f" 3 ≠ .setQuota 2 il bl := by
    intro il bl heq
    cases heq
  have hrun₀ : Reachable g₀ := Run.calls _ (.new 0) (by decide)
  have hafter : RunFrom (fun g op g' => InCapacityCall g op g' ∧ ∀ il bl, op ≠ .setQuota 2 il bl)
      (setQuota 2 1 0 g₀).2 g := RunFrom.calls _ .start ⟨⟨by decide, hnotset⟩, trivial⟩
  have hinv : Inv g := by
    have h₁ : Inv (setQuota 2 1 0 g₀).2 := (Reachable.inv hrun₀).withSides _ _ _ _ _ _
    exact Op.apply_inv _ (.link 2 "f" 3) h₁ (by decide) (by decide)
  have hbelow : 3 ∈ g.below 2 := by
    refine hinv.mem_below.mpr ⟨2, "f", .refl, by decide, 6, 3, ?_, rfl⟩
    decide
  have husage : g.quotas[2]?.map Quota.inodeUsage = some 0 := by decide
  refine ⟨hrun₀, by decide, by decide, by decide, hafter, by decide, husage, hbelow, ?_⟩
  rw [husage]
  intro heq
  rw [eq_comm, Option.some.injEq, Finset.card_eq_zero] at heq
  rw [heq] at hbelow
  exact absurd hbelow (Finset.notMem_empty _)

end Counting

end SotFs
