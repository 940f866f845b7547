/-
Module: SotFs.Proofs.Redirects
Layer: Proofs
Purpose: The Redirect projection, read back. A redirect is given for a name, and lookup follows it by name; the
  projection records it a second time for the inode that the name led to, and reading follows that record. So
  what a lookup yields is read from where it should be just if no redirected name leads to that very inode, or
  the record that the last of these left names an inode with the same bytes.
Trusted boundary: none
Main exports: TypeGraph.lastRedirect, RedirectHonoured, Op.SliceArg, redirects_honoured_iff
-/
import SotFs.Proofs.Projections
import SotFs.Proofs.Holdings

namespace SotFs

open Std (ExtTreeMap ExtTreeSet)
open Foundation

/-- The redirect of the last of the names that lead to an inode, directory by directory, and in each in the
    order of the edges. -/
def TypeGraph.lastRedirect (g : TypeGraph) (redirects : Redirects) (t : InodeId) : Option InodeId :=
  ((g.dirContains.keys.flatMap g.listDir).filterMap fun entry =>
    if entry.2 = t then redirects[entry.1]? else none).getLast?

/-- Name `n` of directory `d`, which leads to inode `t`, is looked up in the projection, and what the lookup
    yields reads as the inode that `redirects` has for `n`, or as `t` if it has none. -/
def RedirectHonoured (g : TypeGraph) (redirects : Redirects) (d : DirId) (n : String) (t : InodeId) : Prop :=
  ∃ id, projectedLookup (projectRedirect g redirects) d n = some id ∧
    ∀ offset len, offset + len < 2 ^ 64 → projectedRead (projectRedirect g redirects) g id offset len =
      .ok ((g.fileData[redirects.getD n t]?).map fun data =>
        data.extract (min offset data.length) (min (offset + len) data.length))

/-- The bytes of a write are a slice in memory. -/
def Op.SliceArg : Op → Prop
  | .writeData _ _ data => data.length ≤ isizeMax
  | _ => True

instance : (op : Op) → Decidable op.SliceArg
  | .writeData .. => Nat.decLe _ _
  | .createFile .. | .mkdir .. | .rmdir .. | .link .. | .unlink .. | .rename .. | .symlink .. => .isTrue trivial
  | .writeBlock .. | .truncate .. | .chmod .. | .chown .. | .setxattr .. | .removexattr .. => .isTrue trivial
  | .setacl .. | .setQuota .. => .isTrue trivial

/-- Every file's bytes fit in memory. -/
def TypeGraph.BytesFit (g : TypeGraph) : Prop :=
  ∀ (t : InodeId) (buf : List UInt8), g.fileData[t]? = some buf → buf.length ≤ isizeMax

/-! ### The projection -/

section View

variable {g : TypeGraph} {redirects : Redirects} {d : DirId} {n : String} {t : InodeId}

/-- What the records of a list of entries say of an inode: the last one counts. -/
theorem Redirects.getElem?_foldl_record (entries : List (String × InodeId)) :
    ∀ recorded : ExtTreeMap InodeId InodeId, (entries.foldl redirects.record recorded)[t]? =
      ((entries.filterMap fun entry => if entry.2 = t then redirects[entry.1]? else none).getLast?).or
        recorded[t]? := by
  induction entries with
  | nil => exact fun _ => rfl
  | cons entry entries ih =>
      intro recorded
      rw [List.foldl_cons, ih, List.filterMap_cons]
      by_cases ht : entry.2 = t
      · rw [if_pos ht]
        unfold Redirects.record
        cases redirects[entry.1]? with
        | none => rfl
        | some redirectTo =>
            simp only [List.getLast?_cons, ht, ExtTreeMap.getElem?_insert_self]
            cases (entries.filterMap fun entry => if entry.2 = t then redirects[entry.1]? else none).getLast? <;>
              rfl
      · rw [if_neg ht]
        unfold Redirects.record
        cases redirects[entry.1]? with
        | none => rfl
        | some redirectTo =>
            simp only [ExtTreeMap.getElem?_insert, compare_eq_iff_eq, if_neg ht]

/-- The redirect that the projection records for an inode. -/
theorem projectRedirect_redirects : (projectRedirect g redirects).redirects[t]? = g.lastRedirect redirects t := by
  have hlisted : (projectPassthrough g).visibleEntries.toList.flatMap Prod.snd =
      g.dirContains.keys.flatMap g.listDir := by
    unfold projectPassthrough
    rw [ExtTreeMap.toList_map, List.flatMap_map, ← ExtTreeMap.map_fst_toList_eq_keys, List.flatMap_map]
  unfold projectRedirect TypeGraph.lastRedirect
  dsimp only
  rw [hlisted, Redirects.getElem?_foldl_record]
  exact Option.or_none

/-- A name is looked up where its redirect leads, or where the name does. -/
theorem Inv.projectedLookup_eq (h : Inv g) (redirects : Redirects) (hname : g.resolveName d n = some t) :
    projectedLookup (projectRedirect g redirects) d n = some (redirects.getD n t) := by
  obtain ⟨e, he⟩ := h.resolveName_iff.mp hname
  have hmem : (n, t) ∈ g.listDir d := List.mem_map.mpr ⟨(e, t, n), h.mem_dirEntries.mpr he, rfl⟩
  have hcontains : g.dirContains.contains d = true := by
    by_contra hnot
    rw [TypeGraph.listDir_of_not_contains hnot] at hmem
    cases hmem
  have hfind : (g.listDir d).find? (fun entry => entry.1 = n) = some (n, t) := by
    cases hfirst : (g.listDir d).find? fun entry => entry.1 = n with
    | none =>
        have hnone := List.find?_eq_none.mp hfirst (n, t) hmem
        simp at hnone
    | some entry =>
        obtain ⟨n', t'⟩ := entry
        have hn : n' = n := by simpa using List.find?_some hfirst
        obtain ⟨⟨e', t'', n''⟩, hentry, heq⟩ := List.mem_map.mp (List.mem_of_find?_eq_some hfirst)
        cases heq
        subst hn
        cases h.dirEntries_unique _ hentry _ (h.mem_dirEntries.mpr he) rfl
        rfl
  have hlisted : (projectRedirect g redirects).visibleEntries[d]? =
      some ((g.listDir d).map redirects.shown) := by
    unfold projectRedirect projectPassthrough
    dsimp only
    rw [ExtTreeMap.getElem?_map, ExtTreeMap.getElem?_map, ExtTreeMap.getElem?_eq_some_getElem hcontains]
    rfl
  have hshown : ((fun entry : String × InodeId => decide (entry.1 = n)) ∘ redirects.shown) =
      fun entry => decide (entry.1 = n) := rfl
  unfold projectedLookup
  rw [hlisted]
  dsimp only
  rw [List.find?_map, hshown, hfind]
  rfl

/-- What the projection reads is the data of the inode's redirect, or of the inode itself. -/
theorem projectedRead_eq {id : InodeId} {offset len : Nat} (hend : offset + len < 2 ^ 64) :
    projectedRead (projectRedirect g redirects) g id offset len =
      .ok ((g.fileData[(g.lastRedirect redirects id).getD id]?).map fun data =>
        data.extract (min offset data.length) (min (offset + len) data.length)) := by
  have hactual : (projectRedirect g redirects).redirects.getD id id = (g.lastRedirect redirects id).getD id := by
    rw [ExtTreeMap.getD_eq_getD_getElem?, projectRedirect_redirects]
  have hfabricated : (projectRedirect g redirects).fabricatedData[id]? = none := ExtTreeMap.getElem?_empty
  unfold projectedRead
  rw [hfabricated]
  dsimp only
  rw [hactual]
  cases g.fileData[(g.lastRedirect redirects id).getD id]? with
  | none => rfl
  | some data =>
      have hstop : min (min offset data.length + len) data.length = min (offset + len) data.length := by omega
      dsimp only [Option.map_some]
      unfold sliceBytes
      dsimp only
      rw [if_neg (by omega), hstop, List.extract_eq_take_drop, List.drop_take]

end View

/-! ### Bytes in memory -/

section Memory

variable {now : Nat → Timestamp} {g : TypeGraph} {t : InodeId}

theorem TypeGraph.BytesFit.insert (h : g.BytesFit) {buf : List UInt8} (hbuf : buf.length ≤ isizeMax)
    {g' : TypeGraph} (hdata : g'.fileData = g.fileData.insert t buf) : g'.BytesFit := by
  intro x data hx
  rw [hdata, ExtTreeMap.getElem?_insert] at hx
  split at hx
  · cases hx
    exact hbuf
  · exact h x data hx

theorem TypeGraph.BytesFit.getD (h : g.BytesFit) : (g.fileData.getD t []).length ≤ isizeMax := by
  rw [ExtTreeMap.getD_eq_getD_getElem?]
  cases hdata : g.fileData[t]? with
  | none => exact Nat.zero_le _
  | some data => exact h t data hdata

theorem length_resizeBytes {buf : List UInt8} {len : Nat} (hgrow : buf.length ≤ len) :
    (resizeBytes buf len).length = len := by
  rw [resizeBytes, List.length_append, List.length_take, List.length_replicate]
  omega

/-- A write of a slice grows the buffer to at most the largest vector. -/
theorem TypeGraph.BytesFit.writeData (h : g.BytesFit) {offset : Nat} {data : List UInt8}
    (hslice : data.length ≤ isizeMax) : (SotFs.writeData now t offset data g).2.BytesFit := by
  have hsmall : isizeMax < 2 ^ 64 := by decide
  unfold SotFs.writeData
  split
  · exact h
  · split
    · exact h
    · split
      · exact h
      · dsimp only
        split
        · exact h.insert h.getD rfl
        · rename_i hstop
          have hgrown : (if (g.fileData.getD t []).length < (offset + data.length) % 2 ^ 64 then
              resizeBytes (g.fileData.getD t []) ((offset + data.length) % 2 ^ 64)
              else g.fileData.getD t []).length ≤ isizeMax := by
            split
            · rename_i hlt
              rw [length_resizeBytes hlt.le]
              exact not_lt.mp hstop
            · exact h.getD
          split
          · exact h.insert hgrown rfl
          · -- the end is not wrapped, so the copy stays inside
            rename_i hnowrap
            refine h.insert ?_ rfl
            rw [copyIntoBytes, List.length_append, List.length_append, List.length_take, List.length_drop]
            omega

theorem TypeGraph.BytesFit.truncate (h : g.BytesFit) {newSize : Nat} :
    (SotFs.truncate now t newSize g).2.BytesFit := by
  unfold SotFs.truncate
  split
  · exact h
  · split
    · exact h
    · split
      · exact h
      · dsimp only
        split
        · exact h.insert h.getD rfl
        · rename_i hsize
          refine h.insert ?_ rfl
          rw [resizeBytes, List.length_append, List.length_take, List.length_replicate]
          have hfit : (g.fileData.getD t []).length ≤ isizeMax := h.getD
          omega

/-- Along a run whose writes are given slices every file's bytes fit. -/
theorem Run.bytesFit {g : TypeGraph} (hrun : Run (fun _ op _ => op.SliceArg) g) : g.BytesFit := by
  induction hrun with
  | new now =>
      intro t buf hbuf
      rw [show (TypeGraph.new now).fileData = ∅ from rfl, ExtTreeMap.getElem?_empty] at hbuf
      cases hbuf
  | call now op _ hslice ih =>
      cases op with
      | writeData t o b =>
          rw [Op.apply, Prod.map_snd]
          exact ih.writeData hslice
      | truncate t n =>
          rw [Op.apply, Prod.map_snd]
          exact ih.truncate
      | createFile | mkdir | rmdir | link | unlink | rename | symlink | writeBlock | chmod | chown | setxattr
      | removexattr | setacl | setQuota =>
          intro t buf hbuf
          rw [Op.fileData_eq (by simp) (by simp)] at hbuf
          exact ih t buf hbuf
  | setCapCtx ctx _ ih => exact ih
  | enableProvLog _ ih => exact ih
  | disableProvLog _ ih => exact ih

end Memory

/-! ### Redirects by name, records by inode -/

/-- Files read alike at every offset and length only if they have the same bytes. -/
theorem eq_of_extract_eq {data data' : Option (List UInt8)} (hfit : ∀ buf ∈ data, buf.length ≤ isizeMax)
    (hfit' : ∀ buf ∈ data', buf.length ≤ isizeMax)
    (hread : ∀ offset len, offset + len < 2 ^ 64 →
      (data.map fun buf => buf.extract (min offset buf.length) (min (offset + len) buf.length)) =
        data'.map fun buf => buf.extract (min offset buf.length) (min (offset + len) buf.length)) :
    data = data' := by
  have hall : ∀ {data : Option (List UInt8)}, (∀ buf ∈ data, buf.length ≤ isizeMax) →
      (data.map fun buf => buf.extract (min 0 buf.length) (min (0 + isizeMax) buf.length)) = data := by
    intro data hfit
    cases data with
    | none => rfl
    | some buf =>
        rw [Option.map_some, Nat.zero_min, Nat.zero_add, min_eq_right (hfit buf rfl), List.extract_eq_take_drop,
          List.drop_zero, Nat.sub_zero, List.take_length]
  have hsame := hread 0 isizeMax (by decide)
  rwa [hall hfit, hall hfit'] at hsame

/-- A redirect is followed twice: what is looked up under a name reads as its redirect, or as the file
    itself, just if the record for the inode that the lookup yields, if there is one, names an inode with the
    same bytes. -/
theorem redirects_honoured_iff {g : TypeGraph}
    (hrun : Run (fun g op g' => InCapacityCall g op g' ∧ op.SliceArg) g) (redirects : Redirects) {d : DirId}
    {n : String} {t : InodeId} (hname : g.resolveName d n = some t) :
    RedirectHonoured g redirects d n t ↔
      ∀ r, g.lastRedirect redirects (redirects.getD n t) = some r →
        g.fileData[r]? = g.fileData[redirects.getD n t]? := by
  have hfit : g.BytesFit := (hrun.mono fun _ _ _ hcall => hcall.2).bytesFit
  have hlookup := (Reachable.inv (hrun.mono fun _ _ _ hcall => hcall.1)).projectedLookup_eq
    redirects hname
  constructor
  · rintro ⟨id, hid, hread⟩ r hr
    cases hlookup.symm.trans hid
    refine eq_of_extract_eq (hfit _) (hfit _) fun offset len hend => ?_
    have hdata := (projectedRead_eq hend).symm.trans (hread offset len hend)
    rw [hr, Option.getD_some] at hdata
    exact Outcome.ok.inj hdata
  · intro hsame
    refine ⟨_, hlookup, fun offset len hend => ?_⟩
    rw [projectedRead_eq hend]
    cases hr : g.lastRedirect redirects (redirects.getD n t) with
    | none => rfl
    | some r => rw [Option.getD_some, hsame r hr]

theorem redirects_honoured_iff_decoy :
    let g := (TypeGraph.new 0).calls (fun _ => 0)
      [.createFile 1 "secret" 0 0 .fileDefault, .createFile 1 "decoy" 0 0 .fileDefault,
        .writeData 2 0 [1], .writeData 3 0 [2]]
    let redirects := (∅ : Redirects).insert "secret" 3
    RedirectHonoured g redirects 1 "secret" 2 ↔
      ∀ r, g.lastRedirect redirects (redirects.getD "secret" 2) = some r →
        g.fileData[r]? = g.fileData[redirects.getD "secret" 2]? :=
  redirects_honoured_iff (Run.calls _ (.new 0) (by decide)) _ (by decide +kernel)

/-- A file with two names, one of them redirected: the other reads as the decoy too. -/
theorem redirect_of_other_name :
    let g := (TypeGraph.new 0).calls (fun _ => 0)
      [.createFile 1 "kept" 0 0 .fileDefault, .createFile 1 "decoy" 0 0 .fileDefault,
        .link 1 "secret" 2, .writeData 2 0 [1], .writeData 3 0 [2]]
    let redirects := (∅ : Redirects).insert "secret" 3
    Run (fun g op g' => InCapacityCall g op g' ∧ op.SliceArg) g ∧
      (∀ (n : String) (r : InodeId), redirects[n]? = some r → r = 3) ∧ (g.getInode 3).map Inode.vtype = some .regular ∧
      g.resolveName 1 "kept" = some 2 ∧ (g.getInode 2).map Inode.vtype = some .regular ∧
      redirects["kept"]? = none ∧ ¬ RedirectHonoured g redirects 1 "kept" 2 := by
  intro g redirects
  refine ⟨Run.calls _ (.new 0) (by decide), ?_, by decide +kernel, by decide +kernel, by decide +kernel,
    by decide +kernel, ?_⟩
  · intro n r hr
    rw [ExtTreeMap.getElem?_insert, ExtTreeMap.getElem?_empty] at hr
    split at hr
    · exact (Option.some.inj hr).symm
    · cases hr
  · rintro ⟨id, hid, hread⟩
    have hlookup : projectedLookup (projectRedirect g redirects) 1 "kept" = some 2 := by decide +kernel
    cases hlookup.symm.trans hid
    exact absurd (hread 0 1 (by decide)) (by decide +kernel)

end SotFs
