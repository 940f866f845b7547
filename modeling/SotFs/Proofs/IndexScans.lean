/-
Module: SotFs.Proofs.IndexScans
Layer: Proofs
Purpose: Lookups through the name index and lookups by the scan. The index of a run leads to names only, so both
  ways find the same edge, and with the index empty the lookups still answer. The walks along ".." do not
  depend on their bound beyond the number of directories, so the quota checks and updates come out alike.
Trusted boundary: none
Main exports: TypeGraph.cold, IndexTyped, Run.indexTyped, Filed.lookupName_eq_scanName, Filed.lookupName_cold,
  Filed.checkQuotaInode_cold, Filed.updateQuota_cold
-/
import SotFs.Foundation.Climb
import SotFs.Proofs.EntryLabels
import SotFs.Proofs.FiledRuns
import SotFs.Proofs.QuotaWalks
import SotFs.Proofs.Slots

namespace SotFs

open Std (ExtTreeMap ExtTreeSet)
open Foundation

/-- The graph with an empty name index. -/
def TypeGraph.cold (g : TypeGraph) : TypeGraph := { g with dirNameIdx := ∅ }

/-! ### What the index leads to -/

/-- The edges of the index are names, and with all stored ones they come before the next id. -/
structure IndexTyped (g : TypeGraph) : Prop where
  stored : ∀ {s v}, g.edges.data s = some v → s < g.nextEdge
  before : ∀ {k : DirId × String} {e}, g.dirNameIdx[k]? = some e → idToArena e < g.nextEdge
  typed : ∀ {k : DirId × String} {e v}, g.dirNameIdx[k]? = some e → g.getEdge e = some v → v.entry ≠ none

namespace IndexTyped

variable {g g' : TypeGraph}

theorem new (now : Timestamp) : IndexTyped (.new now) where
  stored hs := (Inv.new now).edgeIds.lt_next hs
  before := by
    intro k e hk
    change (TypeGraph.empty.dirNameIdx.insert (1, ".") 1)[k]? = some e at hk
    rw [ExtTreeMap.getElem?_insert] at hk
    split at hk
    · cases hk
      exact Nat.lt_succ_self 1
    · simp [TypeGraph.empty] at hk
  typed := by
    intro k e v _ hget
    rw [TypeGraph.getEdge, Arena.get_eq_data] at hget
    rcases Arena.data_insertAt_or (a := TypeGraph.empty.edges) hget with rfl | hold
    · simp [Edge.entry]
    · cases hold

/-- A stored edge keeps its slot when one is added at the next id. -/
theorem data_insertAt (hlt : g.nextEdge < 2 ^ 32) (v : Edge) {s : Nat} (hs : s < g.nextEdge) :
    (g.edges.insertAt (idToArena g.nextEdge) v).2.data s = g.edges.data s := by
  rcases g.edges.insertAt_cases (idToArena g.nextEdge) v with ⟨_, _, hdata, _⟩ | ⟨_, hsame⟩
  · rw [hdata, Function.update_of_ne]
    rw [idToArena_of_lt hlt]
    exact hs.ne
  · rw [hsame]

theorem stored_insertAt (h : IndexTyped g) (hlt : g.nextEdge < 2 ^ 32) {v w : Edge} {s : Nat}
    (hs : (g.edges.insertAt (idToArena g.nextEdge) v).2.data s = some w) : s < g.nextEdge + 1 := by
  rcases g.edges.insertAt_cases (idToArena g.nextEdge) v with ⟨_, _, hdata, _⟩ | ⟨_, hsame⟩
  · rw [hdata, Function.update_apply, idToArena_of_lt hlt] at hs
    split at hs
    · rename_i hnext
      exact hnext ▸ Nat.lt_succ_self _
    · exact lt_trans (h.stored hs) (Nat.lt_succ_self _)
  · rw [hsame] at hs
    exact lt_trans (h.stored hs) (Nat.lt_succ_self _)

/-- Fewer edges and fewer keys. -/
theorem shrink (h : IndexTyped g) (hedges : ∀ {s v}, g'.edges.data s = some v → g.edges.data s = some v)
    (hindex : ∀ {k : DirId × String} {e}, g'.dirNameIdx[k]? = some e → g.dirNameIdx[k]? = some e)
    (hnext : g'.nextEdge = g.nextEdge) : IndexTyped g' where
  stored hs := by
    rw [hnext]
    exact h.stored (hedges hs)
  before hk := by
    rw [hnext]
    exact h.before (hindex hk)
  typed hk hget := by
    rw [TypeGraph.getEdge, Arena.get_eq_data] at hget
    exact h.typed (hindex hk) (by rw [TypeGraph.getEdge, Arena.get_eq_data]; exact hedges hget)

theorem getElem?_of_erase {m : NameIndex} {k k' : DirId × String} {e : EdgeId}
    (h : (m.erase k')[k]? = some e) : m[k]? = some e := by
  rw [ExtTreeMap.getElem?_erase] at h
  split at h
  · cases h
  · exact h

theorem removeEdge (h : IndexTyped g) (e : EdgeId) : IndexTyped (g.removeEdge e).2 := by
  unfold TypeGraph.removeEdge
  dsimp only
  split
  · exact h
  · exact h.shrink (fun hs => Arena.data_of_remove hs) (fun hk => getElem?_of_erase hk) rfl
  · exact h.shrink (fun hs => Arena.data_of_remove hs) (fun hk => hk) rfl

/-- A write in place that makes no other kind of a name. -/
theorem modifyEdge (h : IndexTyped g) (e : EdgeId) {f : Edge → Edge}
    (hf : ∀ v, v.entry ≠ none → (f v).entry ≠ none) :
    IndexTyped (g.modifyEdge e f) where
  stored hs := by
    obtain ⟨v, hv, _⟩ := Arena.data_of_modify (a := g.edges) hs
    exact h.stored hv
  before hk := h.before hk
  typed hk hget := by
    rw [TypeGraph.getEdge, Arena.get_eq_data] at hget
    obtain ⟨v, hv, hw⟩ := Arena.data_of_modify (a := g.edges) hget
    have hentry := h.typed hk (by rw [TypeGraph.getEdge, Arena.get_eq_data]; exact hv)
    rcases hw with rfl | rfl
    · exact hentry
    · exact hf v hentry

theorem relabel (h : IndexTyped g) (e : EdgeId) (n : String) : IndexTyped (g.renameContainsEdge e n).2 := by
  unfold TypeGraph.renameContainsEdge
  split
  · rename_i id src tgt old hget
    split
    · exact h
    · have hmoved : IndexTyped { g with dirNameIdx := (g.dirNameIdx.erase (src, old)).insert (src, n) e } := by
        refine ⟨h.stored, fun {k x} hk => ?_, fun {k x v} hk hx => ?_⟩
        · change ((g.dirNameIdx.erase (src, old)).insert (src, n) e)[k]? = some x at hk
          rw [ExtTreeMap.getElem?_insert] at hk
          split at hk
          · cases hk
            rw [TypeGraph.getEdge, Arena.get_eq_data] at hget
            exact h.stored hget
          · exact h.before (getElem?_of_erase hk)
        · change ((g.dirNameIdx.erase (src, old)).insert (src, n) e)[k]? = some x at hk
          rw [ExtTreeMap.getElem?_insert] at hk
          split at hk
          · cases hk
            change g.getEdge e = some v at hx
            rw [hget] at hx
            cases hx
            simp [Edge.entry]
          · exact h.typed (getElem?_of_erase hk) hx
      refine hmoved.modifyEdge e fun v hv => ?_
      cases v with
      | contains => simp [Edge.entry]
      | _ => exact hv
  · exact h

end IndexTyped

/-- Writes of edges issue ids in order. -/
theorem EdgeWrites.nextEdge_le {Put : DirId → String → Prop} {Moved : String → String → Prop} {g₀ g : TypeGraph}
    (hwrites : EdgeWrites Put Moved g₀ g) : g₀.nextEdge ≤ g.nextEdge := by
  induction hwrites with
  | start => exact le_rfl
  | other _ _ _ hnext ih => exact ih.trans hnext.ge
  | add _ _ _ _ hnext ih => exact (ih.trans (Nat.le_succ _)).trans hnext.ge
  | enter _ _ _ _ hnext ih => exact (ih.trans (Nat.le_succ _)).trans hnext.ge
  | @remove g e _ ih =>
      obtain ⟨_, _, hframe⟩ := removeEdge_frame (g := g) e
      rw [hframe]
      exact ih
  | retarget => assumption
  | @relabel g e n _ _ ih =>
      obtain ⟨_, _, hframe⟩ := renameContainsEdge_frame (g := g) e n
      rw [hframe]
      exact ih

/-- Writes of edges keep the index to names. -/
theorem EdgeWrites.indexTyped {Put : DirId → String → Prop} {Moved : String → String → Prop} {g₀ g : TypeGraph}
    (hwrites : EdgeWrites Put Moved g₀ g) (h : IndexTyped g₀) (hle : g.nextEdge ≤ 2 ^ 32) : IndexTyped g := by
  induction hwrites with
  | start => exact h
  | @other g g' _ hedges hindex hnext ih =>
      have h := ih (hnext ▸ hle)
      refine ⟨fun hs => ?_, fun hk => ?_, fun hk hget => ?_⟩
      · rw [hnext]
        exact h.stored (hedges ▸ hs)
      · rw [hnext]
        exact h.before (hindex ▸ hk)
      · rw [TypeGraph.getEdge, hedges] at hget
        exact h.typed (hindex ▸ hk) hget
  | @add g g' v _ hv hedges hindex hnext ih =>
      have hlt : g.nextEdge < 2 ^ 32 := by
        rw [hnext] at hle
        exact hle
      have h := ih hlt.le
      have hadded : (g.insertEdge g.nextEdge v).edges = (g.edges.insertAt (idToArena g.nextEdge) v).2 := by
        cases v with
        | contains => cases hv
        | _ => rfl
      rw [hadded] at hedges
      refine ⟨fun hs => ?_, fun hk => ?_, fun {k e w} hk hget => ?_⟩
      · rw [hnext]
        rw [hedges] at hs
        exact h.stored_insertAt hlt hs
      · rw [hnext]
        exact lt_trans (h.before (hindex ▸ hk)) (Nat.lt_succ_self _)
      · rw [hindex] at hk
        rw [TypeGraph.getEdge, Arena.get_eq_data, hedges, IndexTyped.data_insertAt hlt v (h.before hk)] at hget
        exact h.typed hk (by rwa [TypeGraph.getEdge, Arena.get_eq_data])
  | @enter g g' d t n _ _ hedges hindex hnext ih =>
      have hlt : g.nextEdge < 2 ^ 32 := by
        rw [hnext] at hle
        exact hle
      have h := ih hlt.le
      change g'.edges = (g.edges.insertAt (idToArena g.nextEdge) (.contains g.nextEdge d t n)).2 at hedges
      change g'.dirNameIdx = g.dirNameIdx.insert (d, n) g.nextEdge at hindex
      refine ⟨fun hs => ?_, fun {k e} hk => ?_, fun {k e w} hk hget => ?_⟩
      · rw [hnext]
        rw [hedges] at hs
        exact h.stored_insertAt hlt hs
      · rw [hindex, ExtTreeMap.getElem?_insert] at hk
        rw [hnext]
        split at hk
        · cases hk
          rw [idToArena_of_lt hlt]
          exact Nat.lt_succ_self _
        · exact lt_trans (h.before hk) (Nat.lt_succ_self _)
      · rw [TypeGraph.getEdge, Arena.get_eq_data, hedges] at hget
        rw [hindex, ExtTreeMap.getElem?_insert] at hk
        split at hk
        · cases hk
          rcases Arena.data_insertAt_or hget with rfl | hold
          · simp [Edge.entry]
          · exact absurd (h.stored hold) (by rw [idToArena_of_lt hlt]; exact lt_irrefl _)
        · rw [IndexTyped.data_insertAt hlt _ (h.before hk)] at hget
          exact h.typed hk (by rwa [TypeGraph.getEdge, Arena.get_eq_data])
  | @remove g e _ ih =>
      obtain ⟨_, _, hframe⟩ := removeEdge_frame (g := g) e
      exact (ih (by rwa [hframe] at hle)).removeEdge e
  | @retarget g e i _ ih =>
      refine (ih hle).modifyEdge e fun v hv => ?_
      cases v with
      | contains => simp [Edge.entry]
      | _ => exact hv
  | @relabel g e n _ _ ih =>
      obtain ⟨_, _, hframe⟩ := renameContainsEdge_frame (g := g) e n
      exact (ih (by rwa [hframe] at hle)).relabel e n

theorem Run.indexTyped {allowed : TypeGraph → Op → TypeGraph → Prop} {g : TypeGraph} (hrun : Run allowed g)
    (hle : g.nextEdge ≤ 2 ^ 32) : IndexTyped g := by
  induction hrun with
  | new now => exact .new now
  | @call g now op _ _ ih =>
      have hwrites : EdgeWrites (fun _ _ => True) (fun _ _ => True) g (op.apply now g).2 :=
        op.edgeWrites (fun _ _ _ => trivial) fun _ _ _ _ _ => trivial
      exact hwrites.indexTyped (ih (hwrites.nextEdge_le.trans hle)) hle
  | setCapCtx _ _ ih => exact (ih hle).shrink id id rfl
  | enableProvLog _ ih => exact (ih hle).shrink id id rfl
  | disableProvLog _ ih => exact (ih hle).shrink id id rfl

/-! ### Lookups -/

namespace Filed

variable {next : Nat} {g : TypeGraph}

/-- The scan finds the edge of a stored name. -/
theorem scanName_eq (h : Filed next g) {d : DirId} {n : String} {e : EdgeId} (he : g.labels e = some (d, n)) :
    g.scanName d n = g.getEdge e := by
  obtain ⟨t, hentry⟩ := TypeGraph.labels_eq_some.mp he
  unfold TypeGraph.scanName
  cases hf : (g.dirEntries d).find? fun entry => entry.2.2 = n with
  | none =>
      exact absurd (h.mem_dirEntries.mpr hentry) fun hmem => by simpa using List.find?_eq_none.mp hf _ hmem
  | some entry =>
      obtain ⟨e', t', n'⟩ := entry
      obtain rfl : n' = n := by simpa using List.find?_some hf
      have heq := h.names (h.mem_dirEntries.mp (List.mem_of_find?_eq_some hf)) hentry
      rw [Option.bind_some, heq]

/-- The scan finds nothing where no name is stored. -/
theorem scanName_eq_none (h : Filed next g) {d : DirId} {n : String} (hfree : ∀ e, g.labels e ≠ some (d, n)) :
    g.scanName d n = none := by
  unfold TypeGraph.scanName
  cases hf : (g.dirEntries d).find? fun entry => entry.2.2 = n with
  | none => rfl
  | some entry =>
      obtain ⟨e', t', n'⟩ := entry
      obtain rfl : n' = n := by simpa using List.find?_some hf
      have hentry := h.mem_dirEntries.mp (List.mem_of_find?_eq_some hf)
      exact absurd (TypeGraph.labels_eq_some.mpr ⟨t', hentry⟩) (hfree e')

/-- A lookup through the index answers as the scan. -/
theorem lookupName_eq_scanName (h : Filed next g) (htyped : IndexTyped g) (d : DirId) (n : String) :
    g.lookupName d n = g.scanName d n := by
  unfold TypeGraph.lookupName
  split
  · split
    · rename_i e hidx
      obtain ⟨hlt, hlabel⟩ := h.index hidx
      cases hget : g.getEdge e with
      | none =>
          refine (h.scanName_eq_none fun e' he' => ?_).symm
          have hnamed := h.named he'
          rw [hidx] at hnamed
          cases hnamed
          obtain ⟨t, hentry⟩ := TypeGraph.labels_eq_some.mp he'
          obtain ⟨_, hdata⟩ := TypeGraph.entries_data.mp hentry
          rw [h.getEdge_eq hlt, hdata] at hget
          cases hget
      | some v =>
          cases v with
          | contains id d' t n' =>
              have hdata := hget
              rw [h.getEdge_eq hlt] at hdata
              have hlabels : g.labels e = some (d', n') :=
                TypeGraph.labels_eq_some.mpr ⟨t, TypeGraph.entries_data.mpr ⟨id, hdata⟩⟩
              cases hlabel _ hlabels
              rw [h.scanName_eq hlabels, hget]
          | _ => exact absurd rfl (htyped.typed hidx hget)
    · rename_i hidx
      refine (h.scanName_eq_none fun e he => ?_).symm
      rw [h.named he] at hidx
      cases hidx
  · rfl

/-- Without the index the scan answers. -/
theorem lookupName_cold (h : Filed next g) (htyped : IndexTyped g) (d : DirId) (n : String) :
    g.cold.lookupName d n = g.lookupName d n := (h.lookupName_eq_scanName htyped d n).symm

/-- What the scan finds, as the lookup reads it. -/
theorem resolveName_scan (g : TypeGraph) (d : DirId) (n : String) :
    g.cold.resolveName d n = match g.scanName d n with
      | some (.contains _ _ tgt _) => some tgt
      | _ => none := rfl

theorem resolveName_cold (h : Filed next g) (d : DirId) (n : String) :
    g.cold.resolveName d n = g.resolveName d n := by
  rw [resolveName_scan]
  cases hres : g.resolveName d n with
  | none => rw [h.scanName_eq_none (h.resolveName_eq_none_iff.mp hres)]
  | some t =>
      obtain ⟨e, hentry⟩ := h.resolveName_iff.mp hres
      obtain ⟨id, hdata⟩ := TypeGraph.entries_data.mp hentry
      rw [h.scanName_eq (TypeGraph.labels_eq_some.mpr ⟨t, hentry⟩), h.getEdge_eq (h.stored hdata), hdata]

theorem parentDir_cold (h : Filed next g) (d : DirId) : g.cold.parentDir d = g.parentDir d := by
  unfold TypeGraph.parentDir
  rw [h.resolveName_cold]
  rfl

end Filed

/-! ### The walks along ".." -/

namespace TypeGraph

variable {g : TypeGraph}

/-- Where a walk goes on to. -/
def walkNext (g : TypeGraph) (d : DirId) : Option DirId :=
  if g.parentDir d = some d then none else g.parentDir d

/-- Where a quota check goes on to. -/
def checkNext (g : TypeGraph) (check : Quota → Bool) (d : DirId) : Option DirId :=
  if (g.quotas[d]?.map check).getD true then g.walkNext d else none

/-- A quota check looks at the directories of its walk. -/
theorem checkQuotaFrom_eq_climb (check : Quota → Bool) (resource : Resource) (fuel : Nat) : ∀ d,
    g.checkQuotaFrom check resource fuel (some d) =
      match climb (g.checkNext check) fuel d with
      | none => .diverges
      | some path => checkAlong g.quotas check resource path := by
  induction fuel with
  | zero => exact fun _ => rfl
  | succ fuel ih =>
      intro d
      rw [checkQuotaFrom, climb, checkNext, walkNext]
      by_cases hcheck : (g.quotas[d]?.map check).getD true = true
      · rw [if_pos hcheck, if_pos hcheck]
        by_cases hself : g.parentDir d = some d
        · rw [if_pos hself, if_pos hself]
          dsimp only
          rw [checkAlong, if_pos hcheck]
          rfl
        · rw [if_neg hself, if_neg hself]
          cases hparent : g.parentDir d with
          | none =>
              dsimp only
              rw [checkAlong, if_pos hcheck]
              cases fuel <;> rfl
          | some p =>
              dsimp only
              rw [ih p]
              cases climb (g.checkNext check) fuel p with
              | none => rfl
              | some path =>
                  rw [Option.map_some]
                  dsimp only
                  rw [checkAlong, if_pos hcheck]
      · rw [if_neg hcheck, if_neg hcheck]
        dsimp only
        rw [checkAlong, if_neg hcheck]

/-- A quota update charges the directories of its walk. -/
theorem updateQuotaFrom_eq_climb (di db : Int) (fuel : Nat) : ∀ quotas d,
    g.updateQuotaFrom di db fuel quotas (some d) =
      (climb g.walkNext fuel d).map (chargeAlong quotas di db) := by
  induction fuel with
  | zero => exact fun _ _ => rfl
  | succ fuel ih =>
      intro quotas d
      rw [updateQuotaFrom, climb, walkNext]
      by_cases hself : g.parentDir d = some d
      · rw [if_pos hself, if_pos hself]
        rfl
      · rw [if_neg hself, if_neg hself]
        cases hparent : g.parentDir d with
        | none =>
            dsimp only
            cases fuel <;> rfl
        | some p =>
            dsimp only
            rw [ih _ p]
            cases climb g.walkNext fuel p <;> rfl

end TypeGraph

namespace Filed

variable {next : Nat} {g : TypeGraph}

/-- A directory with a parent has a set of entries. -/
theorem mem_of_parentDir (h : Filed next g) {d p : DirId} (hp : g.parentDir d = some p) :
    d ∈ g.dirContains := by
  unfold TypeGraph.parentDir at hp
  cases hres : g.resolveName d ".." with
  | none =>
      rw [hres] at hp
      cases hp
  | some t =>
      obtain ⟨e, he⟩ := h.resolveName_iff.mp hres
      have hmem := h.listed (TypeGraph.labels_eq_some.mpr ⟨t, he⟩)
      by_contra hnone
      exact SetIndex.not_mem_members_of_none (ExtTreeMap.getElem?_eq_none hnone) e hmem

theorem walkNext_cold (h : Filed next g) : g.cold.walkNext = g.walkNext := by
  funext d
  unfold TypeGraph.walkNext
  rw [h.parentDir_cold]

/-- Walks along ".." do not depend on their bounds. -/
theorem climb_eq (h : Filed next g) {up : DirId → Option DirId} (hup : ∀ x, up x ≠ none → g.walkNext x ≠ none)
    {n m : Nat} (hn : g.dirContains.size < n) (hm : g.dirContains.size < m) (d : DirId) :
    climb up n d = climb up m d := by
  have hcard : g.dirContains.keys.toFinset.card ≤ g.dirContains.size := by
    rw [← ExtTreeMap.length_keys]
    exact List.toFinset_card_le _
  refine climb_eq_of_card_lt (S := g.dirContains.keys.toFinset) (fun x hx => ?_) (lt_of_le_of_lt hcard hn)
    (lt_of_le_of_lt hcard hm) d
  rw [List.mem_toFinset, ExtTreeMap.mem_keys]
  cases hp : g.parentDir x with
  | none => exact absurd (by rw [TypeGraph.walkNext, hp]; simp) (hup x hx)
  | some p => exact h.mem_of_parentDir hp

theorem checkQuotaInode_cold (h : Filed next g) (d : DirId) :
    g.cold.checkQuotaInode d = g.checkQuotaInode d := by
  have hnext : ∀ check, g.cold.checkNext check = g.checkNext check := by
    intro check
    funext d
    unfold TypeGraph.checkNext
    rw [h.walkNext_cold]
    rfl
  unfold TypeGraph.checkQuotaInode
  rw [TypeGraph.checkQuotaFrom_eq_climb, TypeGraph.checkQuotaFrom_eq_climb, hnext,
    h.climb_eq (n := g.cold.walkFuel) (m := g.walkFuel)]
  · rfl
  · intro x hx
    unfold TypeGraph.checkNext at hx
    split at hx
    · exact hx
    · exact absurd rfl hx
  · exact Nat.lt_succ_of_le (Nat.le_add_left _ _)
  · exact Nat.lt_succ_of_le (Nat.le_add_left _ _)

theorem updateQuota_cold (h : Filed next g) (d : DirId) (di db : Int) :
    g.cold.updateQuota d di db = (g.updateQuota d di db).map TypeGraph.cold := by
  unfold TypeGraph.updateQuota
  rw [TypeGraph.updateQuotaFrom_eq_climb, TypeGraph.updateQuotaFrom_eq_climb, h.walkNext_cold,
    h.climb_eq (n := g.cold.walkFuel) (m := g.walkFuel) (fun _ hx => hx)]
  · cases climb g.walkNext g.walkFuel d <;> rfl
  · exact Nat.lt_succ_of_le (Nat.le_add_left _ _)
  · exact Nat.lt_succ_of_le (Nat.le_add_left _ _)

end Filed

end SotFs
