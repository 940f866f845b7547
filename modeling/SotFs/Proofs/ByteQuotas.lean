/-
Module: SotFs.Proofs.ByteQuotas
Layer: Proofs
Purpose: The byte counter of a quota. No call charges it, so it says 0 along every run: it is the number of
  content bytes below its directory exactly as long as nothing below the directory has content, and no
  content is brought there by a write, a link or a rename.
Trusted boundary: none
Main exports: TypeGraph.bytesBelow, Op.BringsBytes, Op.under_before, byte_usage_exact,
  write_uncounted
-/
import SotFs.Proofs.QuotaRuns
import SotFs.Proofs.Contents

namespace SotFs

open Std (ExtTreeMap ExtTreeSet)
open Relation Foundation

/-- The content bytes of the inode in slot `j`, held under its own id. -/
def TypeGraph.contentSize (g : TypeGraph) (j : Nat) : Nat := (g.fileData.getD j []).length

/-- The content bytes of the distinct inodes below `d`. -/
noncomputable def TypeGraph.bytesBelow (g : TypeGraph) (d : DirId) : Nat :=
  ∑ j ∈ g.below d, g.contentSize j

/-- The call passes its checks and leaves content below `d`: it writes to a file there or lengthens one, or
    gives something with content a name there. -/
def Op.BringsBytes (g : TypeGraph) (d : DirId) : Op → Prop
  | .writeData t offset data => g.CanWrite t ∧ g.Under d t ∧
      ((offset + data.length) % 2 ^ 64 ≠ 0 ∨ offset = 0 ∧ data ≠ []) ∧
      (offset + data.length) % 2 ^ 64 ≤ isizeMax
  | .truncate t size => g.CanWrite t ∧ g.Under d t ∧ size ≠ 0 ∧ size ≤ isizeMax
  | .link p n t => g.CanLink p n t ∧ g.Within d p ∧ g.contentSize (idToArena t) ≠ 0
  | .rename sd sn dd dn => ∃ s, g.CanRename sd sn dd dn s ∧ g.Within d dd ∧
      ∃ x, g.LeadsUnder sd sn x ∧ g.contentSize x ≠ 0
  | _ => False

section Steps

variable {now : Nat → Timestamp} {g : TypeGraph} {op : Op} {d : DirId} {x : Nat}

/-- The inode gets a name below `d` by the call: by link, or by a rename of it or of a directory above. -/
def Op.Brings (g : TypeGraph) (d : DirId) (x : Nat) : Op → Prop
  | .link p n t => g.CanLink p n t ∧ g.Within d p ∧ x = idToArena t
  | .rename sd sn dd dn => ∃ s, g.CanRename sd sn dd dn s ∧ g.Within d dd ∧ g.LeadsUnder sd sn x
  | _ => False

/-- What lies below a directory after a call lay there before, is new, or was brought. -/
theorem Op.under_before (h : Inv g) (hcall : InCapacityCall g op (op.apply now g).2)
    (hunder : (op.apply now g).2.Under d x) :
    g.Under d x ∨ x = g.nextInode ∨ op.Brings g d x := by
  have h' : Inv (op.apply now g).2 := op.apply_inv _ h hcall.1 hcall.2
  have hacc := hcall.2
  cases op with
  | createFile p n u gr perm =>
      have hp := hcall.1 p (by simp [Op.dirs])
      obtain ⟨i, hi⟩ := h.liveDir_iff.mp hp
      rw [Op.apply, Prod.map_snd] at h' hacc hunder
      rcases createFile_made h hp hacc with ⟨o, _, heq⟩ | ⟨_, hm, _⟩
      · rw [heq] at hunder
        exact .inl hunder
      · exact ((hm.under_iff h h' hi).mp hunder).imp_right fun hx => .inl hx.2
  | mkdir p n u gr perm =>
      have hp := hcall.1 p (by simp [Op.dirs])
      obtain ⟨i, hi⟩ := h.liveDir_iff.mp hp
      rw [Op.apply, Prod.map_snd] at h' hacc hunder
      rcases mkdir_made h hp hacc with ⟨o, _, heq⟩ | ⟨_, hm, _⟩
      · rw [heq] at hunder
        exact .inl hunder
      · exact ((hm.under_iff h h' hi).mp hunder).imp_right fun hx => .inl hx.2
  | symlink p n t u gr =>
      have hp := hcall.1 p (by simp [Op.dirs])
      obtain ⟨i, hi⟩ := h.liveDir_iff.mp hp
      rw [Op.apply, Prod.map_snd] at h' hacc hunder
      rcases symlink_made h hp hacc with ⟨o, _, heq⟩ | ⟨_, hm, _⟩
      · rw [heq] at hunder
        exact .inl hunder
      · exact ((hm.under_iff h h' hi).mp hunder).imp_right fun hx => .inl hx.2
  | link p n t =>
      have hp := hcall.1 p (by simp [Op.dirs])
      obtain ⟨i, hi⟩ := h.liveDir_iff.mp hp
      rw [Op.apply, Prod.map_snd] at h' hacc hunder
      rcases link_made h hp hacc with ⟨o, _, heq⟩ | ⟨hcan, hm, _⟩
      · rw [heq] at hunder
        exact .inl hunder
      · exact ((hm.under_iff h h' hi).mp hunder).imp_right fun hx => .inr ⟨hcan, hx⟩
  | unlink p n =>
      rw [Op.apply, Prod.map_snd] at h' hunder
      rcases unlink_spec now p n h with
        ⟨o, _, heq⟩ | ⟨_, _, _, _, _, _, _, ⟨_, _, _, heq⟩ | ⟨_, _, _, _, heq⟩⟩
      · rw [heq] at hunder
        exact .inl hunder
      · have hr := unlink_released h heq
        rw [heq] at h' hunder
        obtain ⟨c, n', hwithin, hlead, _⟩ := (hr.taken.under_iff h h').mp hunder
        exact .inl ⟨c, n', hwithin, hlead⟩
      · have hr := unlink_released h heq
        rw [heq] at h' hunder
        obtain ⟨c, n', hwithin, hlead, _⟩ := (hr.taken.under_iff h h').mp hunder
        exact .inl ⟨c, n', hwithin, hlead⟩
  | rmdir p n =>
      rw [Op.apply, Prod.map_snd] at h' hunder
      rcases rmdir_spec now p n h with
        ⟨o, _, heq⟩ | ⟨_, _, _, _, _, _, _, _, _, _, heq⟩
      · rw [heq] at hunder
        exact .inl hunder
      · have hr := rmdir_released h heq
        rw [heq] at h' hunder
        obtain ⟨c, n', hwithin, hlead, _⟩ := (hr.taken.under_iff h h').mp hunder
        exact .inl ⟨c, n', hwithin, hlead⟩
  | rename sd sn dd dn =>
      have hdd := hcall.1 dd (by simp [Op.dirs])
      rw [Op.apply, Prod.map_snd] at h' hacc hunder
      rcases rename_moved h hdd hacc with ⟨o, _, heq⟩ | ⟨l, heq⟩ | ⟨g₁, s, hs⟩
      · rw [heq] at hunder
        exact .inl hunder
      · rw [id, heq] at hunder
        exact .inl hunder
      · refine (rename_under_before hs.released.taken hs.moved h hs.inv₁ h' hunder).imp_right ?_
        exact fun hx => .inr ⟨s, hs.can, hx⟩
  | setQuota d' il bl =>
      rcases setQuota_cases d' il bl g with ⟨o, _, heq⟩ | ⟨_, _, heq⟩
      · rw [Op.apply, heq] at hunder
        exact .inl hunder
      · rw [Op.apply, heq] at hunder
        exact .inl hunder
  | writeBlock | writeData | truncate | chmod | chown | setxattr | removexattr | setacl =>
      exact .inl ((Op.aside h (by exact trivial) hcall.2).under_iff.mp hunder)

/-- An empty buffer put in place of an empty one. -/
theorem contentSize_insert_nil {t : InodeId} (hempty : g.contentSize t = 0) (x : Nat) :
    TypeGraph.contentSize { g with fileData := g.fileData.insert t [] } x = g.contentSize x := by
  unfold TypeGraph.contentSize at hempty ⊢
  by_cases hx : x = t
  · subst hx
    rw [hempty, ExtTreeMap.getD_insert_self]
    rfl
  · rw [ExtTreeMap.getD_insert, if_neg]
    rw [Std.compare_eq_iff_eq]
    exact fun heq => hx heq.symm

/-- A write that stores no byte leaves an empty file empty. -/
theorem writeData_contentSize {t : InodeId} {offset : Nat} {data : List UInt8} (hempty : g.contentSize t = 0)
    (hno : ¬ (g.CanWrite t ∧ ((offset + data.length) % 2 ^ 64 ≠ 0 ∨ offset = 0 ∧ data ≠ []) ∧
      (offset + data.length) % 2 ^ 64 ≤ isizeMax)) (x : Nat) :
    (writeData now t offset data g).2.contentSize x = g.contentSize x := by
  have hbuf : g.fileData.getD t [] = [] := List.length_eq_zero_iff.mp hempty
  have hkept := contentSize_insert_nil hempty x
  unfold writeData
  split
  · rfl
  · rename_i hcap
    split
    · rfl
    · rename_i i hi
      split
      · rfl
      · rename_i hkind
        rw [hbuf]
        dsimp only
        split
        · exact hkept
        · rename_i hsize
          obtain ⟨hstop, hnil⟩ : (offset + data.length) % 2 ^ 64 = 0 ∧ (offset = 0 → data = []) := by
            by_contra hcontra
            refine hno ⟨⟨hcap, i, hi, not_not.mp hkind⟩, ?_, not_lt.mp hsize⟩
            by_cases hzero : (offset + data.length) % 2 ^ 64 = 0
            · have hdata := not_forall.mp fun hall => hcontra ⟨hzero, hall⟩
              obtain ⟨hoffset, hdata⟩ := hdata
              exact .inr ⟨hoffset, hdata⟩
            · exact .inl hzero
          rw [hstop]
          simp only [List.length_nil, lt_irrefl, if_false]
          split
          · exact hkept
          · rename_i hoffset
            have hoff : offset = 0 := by omega
            rw [hnil hoff, hoff]
            exact hkept

/-- truncate to nothing leaves an empty file empty. -/
theorem truncate_contentSize {t : InodeId} {size : Nat} (hempty : g.contentSize t = 0)
    (hno : ¬ (g.CanWrite t ∧ size ≠ 0 ∧ size ≤ isizeMax)) (x : Nat) :
    (truncate now t size g).2.contentSize x = g.contentSize x := by
  have hbuf : g.fileData.getD t [] = [] := List.length_eq_zero_iff.mp hempty
  have hkept := contentSize_insert_nil hempty x
  unfold truncate
  split
  · rfl
  · rename_i hcap
    split
    · rfl
    · rename_i i hi
      split
      · rfl
      · rename_i hkind
        rw [hbuf]
        dsimp only
        split
        · exact hkept
        · rename_i hsize
          have hzero : size = 0 := by
            by_contra hne
            exact hno ⟨⟨hcap, i, hi, not_not.mp hkind⟩, hne, not_lt.mp hsize⟩
          rw [hzero]
          exact hkept

/-- Content of files elsewhere is not touched by a write. -/
theorem writeData_other {t : InodeId} {offset : Nat} {data : List UInt8} (hx : x ≠ t) :
    (writeData now t offset data g).2.contentSize x = g.contentSize x := by
  have hother : ∀ buf : List UInt8, (g.fileData.insert t buf).getD x [] = g.fileData.getD x [] := by
    intro buf
    rw [ExtTreeMap.getD_insert, if_neg]
    rw [Std.compare_eq_iff_eq]
    exact fun heq => hx heq.symm
  rcases writeData_cases now t offset data g with
    ⟨e, heq⟩ | ⟨_, _, _, ⟨buf, heq⟩ | ⟨buf, heq⟩⟩
  · rw [heq]
  · rw [heq]
    exact congrArg List.length (hother buf)
  · rw [heq]
    exact congrArg List.length (hother buf)

theorem truncate_other {t : InodeId} {size : Nat} (hx : x ≠ t) :
    (truncate now t size g).2.contentSize x = g.contentSize x := by
  have hother : ∀ buf : List UInt8, (g.fileData.insert t buf).getD x [] = g.fileData.getD x [] := by
    intro buf
    rw [ExtTreeMap.getD_insert, if_neg]
    rw [Std.compare_eq_iff_eq]
    exact fun heq => hx heq.symm
  rcases truncate_cases now t size g with
    ⟨e, heq⟩ | ⟨_, _, _, ⟨buf, heq⟩ | heq⟩
  · rw [heq]
  · rw [heq]
    exact congrArg List.length (hother buf)
  · rw [heq]
    exact congrArg List.length (hother _)

/-- A call that brings no bytes leaves everything below `d` empty. -/
theorem Op.content_step (h : Inv g) (hbelow : g.Below) (hcall : InCapacityCall g op (op.apply now g).2)
    (hempty : ∀ x, g.Under d x → g.contentSize x = 0) (hbrings : ¬ op.BringsBytes g d) :
    ∀ x, (op.apply now g).2.Under d x → (op.apply now g).2.contentSize x = 0 := by
  intro x hunder
  have hbefore : g.contentSize x = 0 := by
    rcases Op.under_before h hcall hunder with hold | rfl | hnew
    · exact hempty x hold
    · have hnone : g.nextInode ∉ g.fileData := by
        intro hmem
        have hlt := hbelow.fileData _ hmem
        rw [h.inodeIds.slot_next] at hlt
        exact lt_irrefl _ hlt
      rw [TypeGraph.contentSize, ExtTreeMap.getD_eq_fallback hnone]
      rfl
    · by_contra hsize
      cases op with
      | link p n t =>
          obtain ⟨hcan, hwithin, rfl⟩ := hnew
          exact hbrings ⟨hcan, hwithin, hsize⟩
      | rename sd sn dd dn =>
          obtain ⟨s, hcan, hwithin, hlead⟩ := hnew
          exact hbrings ⟨s, hcan, hwithin, x, hlead, hsize⟩
      | createFile | mkdir | symlink | unlink | rmdir | writeBlock | writeData | truncate | chmod | chown
      | setxattr | removexattr | setacl | setQuota => exact hnew
  by_cases hwrite : ∃ t o b, op = .writeData t o b
  · obtain ⟨t, o, b, rfl⟩ := hwrite
    have hold : g.Under d x := (Op.aside h (by exact trivial) hcall.2).under_iff.mp hunder
    rw [Op.apply, Prod.map_snd]
    by_cases hx : x = t
    · subst hx
      exact (writeData_contentSize hbefore
        (fun hall => hbrings ⟨hall.1, hold, hall.2.1, hall.2.2⟩) x).trans hbefore
    · exact (writeData_other hx).trans hbefore
  · by_cases htrunc : ∃ t s, op = .truncate t s
    · obtain ⟨t, s, rfl⟩ := htrunc
      have hold : g.Under d x := (Op.aside h (by exact trivial) hcall.2).under_iff.mp hunder
      rw [Op.apply, Prod.map_snd]
      by_cases hx : x = t
      · subst hx
        exact (truncate_contentSize hbefore
          (fun hall => hbrings ⟨hall.1, hold, hall.2.1, hall.2.2⟩) x).trans hbefore
      · exact (truncate_other hx).trans hbefore
    · rw [TypeGraph.contentSize, Op.fileData_eq (fun t o b heq => hwrite ⟨t, o, b, heq⟩)
        fun t s heq => htrunc ⟨t, s, heq⟩]
      exact hbefore

end Steps

/-! ### Along runs -/

section Runs

variable {g g₀ : TypeGraph} {d : DirId} {il bl : Nat}

/-- Content counts to nothing exactly when every file below is empty. -/
theorem Inv.bytesBelow_eq_zero (h : Inv g) :
    g.bytesBelow d = 0 ↔ ∀ x, g.Under d x → g.contentSize x = 0 := by
  unfold TypeGraph.bytesBelow
  rw [Finset.sum_eq_zero_iff]
  exact forall_congr' fun x => by rw [h.mem_below]

/-- Whatever is written, the byte counter of a quota stays at zero until it is set again. -/
theorem byte_usage_never_charged (hrun : Reachable g₀) (hset : (setQuota d il bl g₀).1 = .ok ())
    (hafter : RunFrom (fun g op g' => InCapacityCall g op g' ∧ ∀ il bl, op ≠ .setQuota d il bl)
      (setQuota d il bl g₀).2 g) :
    Inv g ∧ g.quotas[d]?.map Quota.terms = some (il, bl, 0) := by
  induction hafter with
  | start =>
      rcases setQuota_cases d il bl g₀ with ⟨o, hfail, heq⟩ | ⟨_, _, heq⟩
      · rw [heq] at hset
        exact absurd hset (hfail ())
      · rw [heq]
        refine ⟨(Reachable.inv hrun).withSides _ _ _ _ _ _, ?_⟩
        change (g₀.quotas.insert d _)[d]?.map _ = _
        rw [ExtTreeMap.getElem?_insert_self]
        rfl
  | call now op _ hcall ih =>
      exact ⟨op.apply_inv _ ih.1 hcall.1.1 hcall.1.2, ((op.holdings_kept _ _).quotaTerms d hcall.2).trans ih.2⟩
  | setCapCtx ctx _ ih => exact ⟨ih.1.withSides _ _ _ _ _ _, ih.2⟩
  | enableProvLog _ ih => exact ⟨ih.1.withSides _ _ _ _ _ _, ih.2⟩
  | disableProvLog _ ih => exact ⟨ih.1.withSides _ _ _ _ _ _, ih.2⟩

/-- From the moment the quota of an empty directory is set, as long as it is not set again and no call
    brings content below the directory: the byte counter is the content below it, and no call pushes that
    over a limit. -/
theorem byte_usage_exact (hrun : Reachable g₀) (hempty : g₀.dirNotEmpty d = false)
    (hset : (setQuota d il bl g₀).1 = .ok ())
    (hafter : RunFrom (fun g op g' => InCapacityCall g op g' ∧ (∀ il bl, op ≠ .setQuota d il bl) ∧
      ¬ op.BringsBytes g d) (setQuota d il bl g₀).2 g) :
    g.quotas[d]?.map Quota.byteUsage = some (g.bytesBelow d) ∧
      ∀ (now : Nat → Timestamp) (op : Op), InCapacityCall g op (op.apply now g).2 →
        ¬ op.BringsBytes g d → (op.apply now g).2.bytesBelow d ≤ bl := by
  have hterms : Inv g ∧ g.quotas[d]?.map Quota.terms = some (il, bl, 0) := by
    refine byte_usage_never_charged hrun hset ?_
    clear hempty
    induction hafter with
    | start => exact .start
    | call now op _ hcall ih => exact .call now op ih ⟨hcall.1, hcall.2.1⟩
    | setCapCtx ctx _ ih => exact .setCapCtx ctx ih
    | enableProvLog _ ih => exact .enableProvLog ih
    | disableProvLog _ ih => exact .disableProvLog ih
  have hside : ∀ {g : TypeGraph} (provLog capCtx), Inv g ∧ g.Below ∧ (∀ x, g.Under d x → g.contentSize x = 0) →
      Inv { g with provLog := provLog, capCtx := capCtx } ∧
        TypeGraph.Below { g with provLog := provLog, capCtx := capCtx } ∧
        ∀ x, g.Under d x → g.contentSize x = 0 := by
    rintro g provLog capCtx ⟨h, hbelow, hnone⟩
    exact ⟨h.withSides _ _ _ _ _ _, ⟨hbelow.fileData, hbelow.symlinkTargets, hbelow.acls,
      hbelow.inodeXattrs, hbelow.edges⟩, hnone⟩
  have hcontent : Inv g ∧ g.Below ∧ ∀ x, g.Under d x → g.contentSize x = 0 := by
    clear hterms
    induction hafter with
    | start =>
        have h₀ := Reachable.inv hrun
        have hbelow := Reachable.below hrun
        rcases setQuota_cases d il bl g₀ with ⟨o, hfail, heq⟩ | ⟨_, _, heq⟩
        · rw [heq] at hset
          exact absurd hset (hfail ())
        · rw [heq]
          refine ⟨h₀.withSides _ _ _ _ _ _, ⟨hbelow.fileData, hbelow.symlinkTargets, hbelow.acls,
            hbelow.inodeXattrs, hbelow.edges⟩, ?_⟩
          intro x hunder
          have hmem : x ∈ g₀.below d := h₀.mem_below.mpr hunder
          rw [h₀.below_empty hempty] at hmem
          exact absurd hmem (Finset.notMem_empty x)
    | call now op _ hcall ih =>
        obtain ⟨h, hbelow, hnone⟩ := ih
        exact ⟨op.apply_inv _ h hcall.1.1 hcall.1.2, op.below h hbelow hcall.1,
          Op.content_step h hbelow hcall.1 hnone hcall.2.2⟩
    | setCapCtx ctx _ ih => exact hside _ ctx ih
    | enableProvLog _ ih => exact hside (some []) _ ih
    | disableProvLog _ ih => exact hside none _ ih
  obtain ⟨h, hbelow, hnone⟩ := hcontent
  refine ⟨?_, ?_⟩
  · rw [h.bytesBelow_eq_zero.mpr hnone]
    obtain ⟨q, hq, heq⟩ := Option.map_eq_some_iff.mp hterms.2
    rw [hq]
    exact congrArg (fun terms : Nat × Nat × Nat => some terms.2.2) heq
  · intro now op hcall hbrings
    have h' : Inv (op.apply now g).2 := op.apply_inv _ h hcall.1 hcall.2
    rw [h'.bytesBelow_eq_zero.mpr (Op.content_step h hbelow hcall hnone hbrings)]
    exact Nat.zero_le bl

/-- A file made and left empty. -/
theorem byte_usage_exact_created :
    let g₀ := (TypeGraph.new 0).calls (fun _ => 0) [.mkdir 1 "d" 0 0 .dirDefault]
    let g := (setQuota 2 0 4 g₀).2.calls (fun _ => 0) [.createFile 2 "a" 0 0 .fileDefault]
    g.quotas[2]?.map Quota.byteUsage = some (g.bytesBelow 2) ∧
      ∀ (now : Nat → Timestamp) (op : Op), InCapacityCall g op (op.apply now g).2 →
        ¬ op.BringsBytes g 2 → (op.apply now g).2.bytesBelow 2 ≤ 4 := by
  intro g₀ g
  have hset : (setQuota 2 0 4 g₀).1 = .ok () := by decide
  refine byte_usage_exact (Run.calls _ (.new 0) (by decide)) (by decide) hset
    (RunFrom.calls _ .start ⟨⟨by decide, ?_, id⟩, trivial⟩)
  intro il bl heq
  cases heq

/-- A write below a directory with a byte limit succeeds, past the limit, and is not charged. -/
theorem write_uncounted :
    let g₀ := (TypeGraph.new 0).calls (fun _ => 0) [.mkdir 1 "d" 0 0 .dirDefault]
    let g := (setQuota 2 0 1 g₀).2.calls (fun _ => 0)
      [.createFile 2 "a" 0 0 .fileDefault, .writeData 3 0 [7, 7]]
    Reachable g₀ ∧ g₀.LiveDir 2 ∧ g₀.dirNotEmpty 2 = false ∧ (setQuota 2 0 1 g₀).1 = .ok () ∧
      RunFrom (fun g op g' => InCapacityCall g op g' ∧ ∀ il bl, op ≠ .setQuota 2 il bl)
        (setQuota 2 0 1 g₀).2 g ∧ g.LiveDir 2 ∧
      g.quotas[2]?.map Quota.byteUsage = some 0 ∧ 1 < g.bytesBelow 2 ∧
      g.quotas[2]?.map Quota.byteUsage ≠ some (g.bytesBelow 2) := by
  intro g₀ g
  have hnotset : ∀ {op : Op}, op ∈ [Op.createFile 2 "a" 0 0 .fileDefault, .writeData 3 0 [7, 7]] →
      ∀ il bl, op ≠ .setQuota 2 il bl := by
    rintro op hop il bl rfl
    simp only [List.mem_cons, reduceCtorEq, List.not_mem_nil, or_self] at hop
  have hrun₀ : Reachable g₀ := Run.calls _ (.new 0) (by decide)
  have hafter : RunFrom (fun g op g' => InCapacityCall g op g' ∧ ∀ il bl, op ≠ .setQuota 2 il bl)
      (setQuota 2 0 1 g₀).2 g :=
    RunFrom.calls _ .start ⟨⟨by decide, hnotset List.mem_cons_self⟩,
      ⟨by decide, hnotset (List.mem_cons_of_mem _ List.mem_cons_self)⟩, trivial⟩
  have hinv : Inv g := by
    have h₁ : Inv (setQuota 2 0 1 g₀).2 := (Reachable.inv hrun₀).withSides _ _ _ _ _ _
    have h₂ := Op.apply_inv (fun _ => 0) (.createFile 2 "a" 0 0 .fileDefault) h₁
      (by decide) (by decide)
    exact Op.apply_inv (fun _ => 0) (.writeData 3 0 [7, 7]) h₂ (by decide) (by decide)
  have hmem : 3 ∈ g.below 2 := by
    refine hinv.mem_below.mpr ⟨2, "a", .refl, by decide, 5, 3, ?_, rfl⟩
    decide
  have hsize : g.contentSize 3 = 2 := by decide
  have hcontent : 1 < g.bytesBelow 2 := by
    have hle : g.contentSize 3 ≤ g.bytesBelow 2 :=
      Finset.single_le_sum (fun j _ => Nat.zero_le (g.contentSize j)) hmem
    omega
  have husage : g.quotas[2]?.map Quota.byteUsage = some 0 := by decide
  refine ⟨hrun₀, by decide, by decide, by decide, hafter, by decide, husage, hcontent, ?_⟩
  rw [husage]
  intro heq
  rw [Option.some.injEq] at heq
  omega

end Runs

end SotFs
