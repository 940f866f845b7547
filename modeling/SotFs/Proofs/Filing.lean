/-
Module: SotFs.Proofs.Filing
Layer: Proofs
Purpose: What holds of the names even when a pool is full. An edge that the pool refuses is entered in the
  entry sets and in the name index all the same, so these may list ids that lead nowhere; but whatever they
  do lead to is what they say, and every stored name is found through both. This holds along every run,
  whatever its arguments and whether or not insertions are refused, while ids do not alias slots.
Trusted boundary: none
Main exports: TypeGraph.labels, Filed, Filed.resolveName_iff, Filed.findEntry_eq, Filed.rename_spec, Run.filed
-/
import SotFs.Proofs.Holdings

namespace SotFs

open Std (ExtTreeMap ExtTreeSet)
open Foundation

/-- The directory and the name of every stored name. -/
def TypeGraph.labels (g : TypeGraph) (e : EdgeId) : Option (DirId × String) :=
  (g.entries e).map fun w => (w.1, w.2.2)

/-- The entry sets, the block edge sets and the name index list ids below `next` only, and are right about
    those that lead somewhere; every stored name is listed. -/
structure Filed (next : Nat) (g : TypeGraph) : Prop where
  le : next ≤ 2 ^ 32
  stored : ∀ {s v}, g.edges.data s = some v → s < next
  listed : ∀ {e d n}, g.labels e = some (d, n) → e ∈ SetIndex.members g.dirContains d
  named : ∀ {e d n}, g.labels e = some (d, n) → g.dirNameIdx[(d, n)]? = some e
  members : ∀ {d e}, e ∈ SetIndex.members g.dirContains d →
    e < next ∧ ∀ d' n, g.labels e = some (d', n) → d' = d
  index : ∀ {k : DirId × String} {e}, g.dirNameIdx[k]? = some e → e < next ∧ ∀ k', g.labels e = some k' → k' = k
  pointers : ∀ {t e}, e ∈ SetIndex.members g.inodePointsTo t → e < next ∧ g.labels e = none
  dots : ∀ {e d n}, g.labels e = some (d, n) → ¬ UserName n → d < g.nextDir

theorem TypeGraph.labels_eq_some {g : TypeGraph} {e : EdgeId} {d : DirId} {n : String} :
    g.labels e = some (d, n) ↔ ∃ t, g.entries e = some (d, t, n) := by
  rw [TypeGraph.labels, Option.map_eq_some_iff]
  constructor
  · rintro ⟨⟨d', t, n'⟩, he, heq⟩
    cases heq
    exact ⟨t, he⟩
  · rintro ⟨t, he⟩
    exact ⟨(d, t, n), he, rfl⟩

theorem TypeGraph.labels_eq_none {g : TypeGraph} {e : EdgeId} : g.labels e = none ↔ g.entries e = none :=
  Option.map_eq_none_iff

/-- A stored name is a `contains` edge. -/
theorem TypeGraph.entries_data {g : TypeGraph} {e : EdgeId} {d : DirId} {t : InodeId} {n : String} :
    g.entries e = some (d, t, n) ↔ ∃ id, g.edges.data e = some (.contains id d t n) := by
  rw [TypeGraph.entries, Arena.view_eq_some]
  constructor
  · rintro ⟨v, hv, hentry⟩
    cases v with
    | contains id d' t' n' =>
        cases hentry
        exact ⟨id, hv⟩
    | _ => cases hentry
  · rintro ⟨id, hv⟩
    exact ⟨_, hv, rfl⟩

namespace Filed

variable {next : Nat} {g g' : TypeGraph}

/-! ### Reads -/

/-- An id below `next` is its own slot. -/
theorem slot (h : Filed next g) {e : EdgeId} (he : e < next) : idToArena e = e :=
  idToArena_of_lt (lt_of_lt_of_le he h.le)

theorem getEdge_eq (h : Filed next g) {e : EdgeId} (he : e < next) : g.getEdge e = g.edges.data e := by
  rw [TypeGraph.getEdge, Arena.get_eq_data, h.slot he]

theorem entry_lt (h : Filed next g) {e : EdgeId} {w} (he : g.entries e = some w) : e < next := by
  obtain ⟨v, hv, _⟩ := Arena.view_eq_some.mp he
  exact h.stored hv

/-- The ids from `next` on are vacant. -/
theorem vacant (h : Filed next g) {e : EdgeId} (he : next ≤ e) : g.edges.data e = none := by
  cases hd : g.edges.data e with
  | none => rfl
  | some v => exact absurd (h.stored hd) (not_lt.mpr he)

/-- Two stored names of one directory with one name are the same. -/
theorem names (h : Filed next g) {e e' : EdgeId} {d t t' n} (he : g.entries e = some (d, t, n))
    (he' : g.entries e' = some (d, t', n)) : e = e' := by
  have hidx := h.named (TypeGraph.labels_eq_some.mpr ⟨t, he⟩)
  rw [h.named (TypeGraph.labels_eq_some.mpr ⟨t', he'⟩)] at hidx
  exact (Option.some.inj hidx).symm

/-- The recorded entries of a directory are its stored names. -/
theorem mem_dirEntries (h : Filed next g) {d : DirId} {e t n} :
    (e, t, n) ∈ g.dirEntries d ↔ g.entries e = some (d, t, n) := by
  unfold TypeGraph.dirEntries
  rw [List.mem_filterMap]
  constructor
  · rintro ⟨x, hx, hsome⟩
    obtain ⟨hlt, hdir⟩ := h.members (ExtTreeSet.mem_toList.mp hx)
    rw [h.getEdge_eq hlt] at hsome
    split at hsome
    · rename_i id d' t' n' hdata
      cases hsome
      have hentry : g.entries e = some (d', t, n) := TypeGraph.entries_data.mpr ⟨id, hdata⟩
      rw [hentry, hdir d' n (TypeGraph.labels_eq_some.mpr ⟨t, hentry⟩)]
    · cases hsome
  · intro he
    obtain ⟨id, hdata⟩ := TypeGraph.entries_data.mp he
    have hmem := h.listed (TypeGraph.labels_eq_some.mpr ⟨t, he⟩)
    refine ⟨e, ExtTreeSet.mem_toList.mpr hmem, ?_⟩
    rw [h.getEdge_eq (h.stored hdata), hdata]

/-- A name resolves to the target of its stored edge. -/
theorem resolveName_iff (h : Filed next g) {d : DirId} {n : String} {t : InodeId} :
    g.resolveName d n = some t ↔ ∃ e, g.entries e = some (d, t, n) := by
  unfold TypeGraph.resolveName TypeGraph.lookupName
  constructor
  · intro hres
    split at hres
    · rename_i id d' t' n' hlookup
      cases hres
      split at hlookup
      · split at hlookup
        · rename_i e hidx
          obtain ⟨hlt, hlabel⟩ := h.index hidx
          rw [h.getEdge_eq hlt] at hlookup
          have hentry : g.entries e = some (d', t, n') := TypeGraph.entries_data.mpr ⟨id, hlookup⟩
          cases hlabel _ (TypeGraph.labels_eq_some.mpr ⟨t, hentry⟩)
          exact ⟨e, hentry⟩
        · cases hlookup
      · obtain ⟨⟨e, t', m⟩, hfind, hget⟩ := Option.bind_eq_some_iff.mp hlookup
        have hname : m = n := by simpa using List.find?_some hfind
        have hentry := h.mem_dirEntries.mp (List.mem_of_find?_eq_some hfind)
        dsimp only at hget
        rw [h.getEdge_eq (h.entry_lt hentry)] at hget
        have hentry' : g.entries e = some (d', t, n') := TypeGraph.entries_data.mpr ⟨id, hget⟩
        rw [hentry] at hentry'
        cases hentry'
        exact ⟨e, hname ▸ hentry⟩
    · cases hres
  · rintro ⟨e, he⟩
    obtain ⟨id, hdata⟩ := TypeGraph.entries_data.mp he
    have hidx := h.named (TypeGraph.labels_eq_some.mpr ⟨t, he⟩)
    have hfilled : g.dirNameIdx.isEmpty = false := by
      by_contra hempty
      rw [Bool.not_eq_false, ExtTreeMap.isEmpty_iff] at hempty
      rw [hempty] at hidx
      simp at hidx
    rw [hfilled, hidx]
    simp only [Bool.not_false, if_true, h.getEdge_eq (h.stored hdata), hdata]

theorem resolveName_eq_none_iff (h : Filed next g) {d : DirId} {n : String} :
    g.resolveName d n = none ↔ ∀ e, g.labels e ≠ some (d, n) := by
  rw [Option.eq_none_iff_forall_ne_some]
  constructor
  · intro hnone e he
    obtain ⟨t, he⟩ := TypeGraph.labels_eq_some.mp he
    exact hnone t (h.resolveName_iff.mpr ⟨e, he⟩)
  · intro hfree t ht
    obtain ⟨e, he⟩ := h.resolveName_iff.mp ht
    exact hfree e (TypeGraph.labels_eq_some.mpr ⟨t, he⟩)

/-- The search for a name and its target finds the edge. -/
theorem findEntry_eq (h : Filed next g) {d : DirId} {t : InodeId} {n : String} {e : EdgeId}
    (he : g.entries e = some (d, t, n)) : g.findEntry d t n = some e := by
  unfold TypeGraph.findEntry
  cases hf : (g.dirEntries d).find? fun entry => entry.2.1 = t ∧ entry.2.2 = n with
  | none => exact absurd (h.mem_dirEntries.mpr he) fun hmem => by simpa using List.find?_eq_none.mp hf _ hmem
  | some entry =>
      obtain ⟨e', t', n'⟩ := entry
      obtain ⟨rfl, rfl⟩ : t' = t ∧ n' = n := by simpa using List.find?_some hf
      rw [h.names (h.mem_dirEntries.mp (List.mem_of_find?_eq_some hf)) he]
      rfl

/-! ### The low-level writes -/

/-- Nothing but the edge pool, the name index and the edge sets matters. -/
theorem congr (h : Filed next g) (hedges : g'.edges = g.edges) (hsets : g'.dirContains = g.dirContains)
    (hidx : g'.dirNameIdx = g.dirNameIdx) (hpoints : g'.inodePointsTo = g.inodePointsTo)
    (hdirs : g.nextDir ≤ g'.nextDir) : Filed next g' where
  le := h.le
  stored hs := h.stored (hedges ▸ hs)
  listed := by
    unfold TypeGraph.labels TypeGraph.entries
    rw [hedges, hsets]
    exact h.listed
  named := by
    unfold TypeGraph.labels TypeGraph.entries
    rw [hedges, hidx]
    exact h.named
  members := by
    unfold TypeGraph.labels TypeGraph.entries
    rw [hedges, hsets]
    exact h.members
  index := by
    unfold TypeGraph.labels TypeGraph.entries
    rw [hedges, hidx]
    exact h.index
  pointers := by
    unfold TypeGraph.labels TypeGraph.entries
    rw [hedges, hpoints]
    exact h.pointers
  dots := by
    unfold TypeGraph.labels TypeGraph.entries
    rw [hedges]
    exact fun he hn => lt_of_lt_of_le (h.dots he hn) hdirs

/-- An insertion at the next id fills its slot or is refused. -/
theorem insertAt_or (h : Filed next g) (hlt : next < 2 ^ 32) (v : Edge) :
    (g.edges.insertAt (idToArena next) v).2.data = g.edges.data ∨
      (g.edges.insertAt (idToArena next) v).2.data = Function.update g.edges.data next (some v) := by
  rw [idToArena_of_lt hlt]
  by_cases hcap : next < EDGE_CAPACITY
  · exact .inr (Arena.data_insertAt _ hcap (h.vacant le_rfl))
  · rw [Arena.insertAt_of_le (not_lt.mp hcap)]
    exact .inl rfl

/-- An insertion stores nothing past the next id. -/
theorem insertAt_lt (h : Filed next g) (hlt : next < 2 ^ 32) {v w : Edge} {s : Nat}
    (hs : (g.edges.insertAt (idToArena next) v).2.data s = some w) : s < next + 1 := by
  rcases h.insertAt_or hlt v with heq | heq
  · rw [heq] at hs
    exact lt_trans (h.stored hs) (Nat.lt_succ_self _)
  · rw [heq, Function.update_apply] at hs
    split at hs
    · rename_i hnext
      rw [hnext]
      exact Nat.lt_succ_self _
    · exact lt_trans (h.stored hs) (Nat.lt_succ_self _)

/-- The names after one was entered under the next id: that one, unless it was refused, and the others. -/
theorem labels_addContains (h : Filed next g) (hlt : next < 2 ^ 32) {d : DirId} {t : InodeId} {n : String}
    {e : EdgeId} {k : DirId × String} (he : (g.addContains next d t n).labels e = some k) :
    (e = next ∧ k = (d, n)) ∨ (e ≠ next ∧ g.labels e = some k) := by
  have hvacant : g.labels next = none := by
    rw [TypeGraph.labels_eq_none, TypeGraph.entries, Arena.view, h.vacant le_rfl]
    rfl
  unfold TypeGraph.labels TypeGraph.entries at he
  rcases h.insertAt_or hlt (.contains next d t n) with heq | heq
  · have hview : (g.addContains next d t n).edges.view Edge.entry = g.edges.view Edge.entry := by
      funext s
      exact congrArg (fun a => (a s).bind Edge.entry) heq
    rw [hview] at he
    refine .inr ⟨?_, he⟩
    rintro rfl
    exact absurd (he.symm.trans hvacant) (Option.some_ne_none k)
  · have hview : (g.addContains next d t n).edges.view Edge.entry = _ := Arena.view_update heq
    rw [hview, Function.update_apply] at he
    split at he
    · rename_i hnext
      cases he
      exact .inl ⟨hnext, rfl⟩
    · rename_i hnext
      exact .inr ⟨hnext, he⟩

/-- A name entered under the next id, accepted or refused. -/
theorem addContains (h : Filed next g) (hlt : next < 2 ^ 32) {d : DirId} {n : String}
    (hfree : ∀ e, g.labels e ≠ some (d, n)) (hdot : ¬ UserName n → d < g.nextDir) (t : InodeId) :
    Filed (next + 1) (g.addContains next d t n) := by
  have hlabels : ∀ {e k}, (g.addContains next d t n).labels e = some k →
      (e = next ∧ k = (d, n)) ∨ (e ≠ next ∧ g.labels e = some k) := h.labels_addContains hlt
  have hsets : ∀ {k e}, e ∈ SetIndex.members (g.addContains next d t n).dirContains k ↔
      (k = d ∧ e = next) ∨ e ∈ SetIndex.members g.dirContains k := SetIndex.mem_members_add
  have hidx : ∀ k, (g.addContains next d t n).dirNameIdx[k]? =
      if k = (d, n) then some next else g.dirNameIdx[k]? := by
    intro k
    change (g.dirNameIdx.insert (d, n) next)[k]? = _
    rw [ExtTreeMap.getElem?_insert]
    by_cases hk : k = (d, n)
    · rw [if_pos hk, if_pos (by rw [hk]; exact Std.ReflCmp.compare_self)]
    · rw [if_neg hk, if_neg fun hcmp => hk (Std.LawfulEqCmp.eq_of_compare hcmp).symm]
  refine
    { le := hlt
      stored := h.insertAt_lt hlt
      listed := ?_
      named := ?_
      members := ?_
      index := ?_
      pointers := ?_
      dots := ?_ }
  · intro e k m he
    rcases hlabels he with ⟨rfl, heq⟩ | ⟨_, he⟩
    · cases heq
      exact hsets.mpr (.inl ⟨rfl, rfl⟩)
    · exact hsets.mpr (.inr (h.listed he))
  · intro e k m he
    rw [hidx]
    rcases hlabels he with ⟨rfl, heq⟩ | ⟨_, he⟩
    · rw [if_pos heq]
    · have hne : (k, m) ≠ (d, n) := by
        intro heq
        rw [heq] at he
        exact hfree e he
      rw [if_neg hne, h.named he]
  · intro k e he
    rcases hsets.mp he with ⟨rfl, rfl⟩ | he
    · refine ⟨Nat.lt_succ_self _, ?_⟩
      intro d' m hlabel
      rcases hlabels hlabel with ⟨_, heq⟩ | ⟨hne, _⟩
      · cases heq
        rfl
      · exact absurd rfl hne
    · obtain ⟨hold, hdir⟩ := h.members he
      refine ⟨lt_trans hold (Nat.lt_succ_self _), ?_⟩
      intro d' m hlabel
      rcases hlabels hlabel with ⟨rfl, _⟩ | ⟨_, hlabel⟩
      · exact absurd hold (lt_irrefl _)
      · exact hdir d' m hlabel
  · intro k e he
    rw [hidx] at he
    split at he
    · rename_i hk
      cases he
      refine ⟨Nat.lt_succ_self _, ?_⟩
      intro k' hlabel
      rcases hlabels hlabel with ⟨_, heq⟩ | ⟨hne, _⟩
      · rw [heq, hk]
      · exact absurd rfl hne
    · obtain ⟨hold, hlabel⟩ := h.index he
      refine ⟨lt_trans hold (Nat.lt_succ_self _), ?_⟩
      intro k' hlabel'
      rcases hlabels hlabel' with ⟨rfl, _⟩ | ⟨_, hlabel'⟩
      · exact absurd hold (lt_irrefl _)
      · exact hlabel k' hlabel'
  · intro i e he
    obtain ⟨hold, hnone⟩ := h.pointers he
    refine ⟨lt_trans hold (Nat.lt_succ_self _), ?_⟩
    cases hlabel : (g.addContains next d t n).labels e with
    | none => rfl
    | some k =>
        rcases hlabels hlabel with ⟨rfl, _⟩ | ⟨_, hlabel⟩
        · exact absurd hold (lt_irrefl _)
        · exact absurd (hlabel.symm.trans hnone) (Option.some_ne_none k)
  · intro e k m he hm
    rcases hlabels he with ⟨_, heq⟩ | ⟨_, he⟩
    · cases heq
      exact hdot hm
    · exact h.dots he hm

/-- Names, members and index entries may go as long as the names that stay are still listed. -/
theorem shrink (h : Filed next g) (hstored : ∀ {s v}, g'.edges.data s = some v → s < next)
    (hlabels : ∀ {e k}, g'.labels e = some k → g.labels e = some k)
    (hlisted : ∀ {e d n}, g'.labels e = some (d, n) → e ∈ SetIndex.members g'.dirContains d)
    (hnamed : ∀ {e k}, g'.labels e = some k → g'.dirNameIdx[(k : DirId × String)]? = some e)
    (hmembers : ∀ {d e}, e ∈ SetIndex.members g'.dirContains d → e ∈ SetIndex.members g.dirContains d)
    (hindex : ∀ {k : DirId × String} {e}, g'.dirNameIdx[k]? = some e → g.dirNameIdx[k]? = some e)
    (hpoints : ∀ {t e}, e ∈ SetIndex.members g'.inodePointsTo t → e ∈ SetIndex.members g.inodePointsTo t)
    (hdirs : g.nextDir ≤ g'.nextDir) : Filed next g' where
  le := h.le
  stored := hstored
  listed := hlisted
  named := hnamed
  members := by
    intro d e he
    obtain ⟨hlt, hdir⟩ := h.members (hmembers he)
    exact ⟨hlt, fun d' n hlabel => hdir d' n (hlabels hlabel)⟩
  index := by
    intro k e he
    obtain ⟨hlt, hlabel⟩ := h.index (hindex he)
    exact ⟨hlt, fun k' hlabel' => hlabel k' (hlabels hlabel')⟩
  pointers := by
    intro t e he
    obtain ⟨hlt, hnone⟩ := h.pointers (hpoints he)
    refine ⟨hlt, ?_⟩
    cases hlabel : g'.labels e with
    | none => rfl
    | some k => exact absurd ((hlabels hlabel).symm.trans hnone) (Option.some_ne_none k)
  dots he hn := lt_of_lt_of_le (h.dots (hlabels he) hn) hdirs

end Filed

/-- Removing an edge empties its slot. -/
theorem removeEdge_data (g : TypeGraph) (e : EdgeId) :
    (g.removeEdge e).2.edges.data = Function.update g.edges.data (idToArena e) none := by
  have hremoved := Arena.remove_fst g.edges (idToArena e)
  have hdata := Arena.data_remove g.edges (idToArena e)
  unfold TypeGraph.removeEdge
  generalize g.edges.remove (idToArena e) = r at hremoved hdata ⊢
  obtain ⟨removed, edges⟩ := r
  dsimp only at hremoved hdata ⊢
  split
  · exact (Function.update_eq_self_iff.mpr hremoved).symm
  · exact hdata
  · exact hdata

theorem removeEdge_entries {g : TypeGraph} {e : EdgeId} (hslot : idToArena e = e) :
    (g.removeEdge e).2.entries = Function.update g.entries e none := by
  have hdata := removeEdge_data g e
  rw [hslot] at hdata
  exact Arena.view_update hdata

/-- The names that removing an edge leaves. -/
theorem labels_update {g g' : TypeGraph} {e : EdgeId} {w : Option (DirId × InodeId × String)}
    (h : g'.entries = Function.update g.entries e w) :
    g'.labels = Function.update g.labels e (w.map fun w => (w.1, w.2.2)) := by
  funext x
  rw [TypeGraph.labels, h]
  by_cases hx : x = e
  · subst hx
    rw [Function.update_self, Function.update_self]
  · rw [Function.update_of_ne hx, Function.update_of_ne hx]
    rfl

namespace Filed

variable {next : Nat} {g g' : TypeGraph}

/-- A removed edge takes its name out of the index. -/
theorem removeEdge (h : Filed next g) {e : EdgeId} (he : e < next) : Filed next (g.removeEdge e).2 := by
  have hslot := h.slot he
  have hlabels : (g.removeEdge e).2.labels = Function.update g.labels e none :=
    labels_update (removeEdge_entries hslot)
  have hsub : ∀ {x k}, (g.removeEdge e).2.labels x = some k → x ≠ e ∧ g.labels x = some k := by
    intro x k hx
    rw [hlabels, Function.update_apply] at hx
    split at hx
    · cases hx
    · exact ⟨‹_›, hx⟩
  have hidx : ∀ {x k}, (g.removeEdge e).2.labels x = some k → (g.removeEdge e).2.dirNameIdx[k]? = some x := by
    intro x k hx
    obtain ⟨hne, hx⟩ := hsub hx
    have hkept := h.named (d := k.1) (n := k.2) hx
    unfold TypeGraph.removeEdge
    have hremoved := Arena.remove_fst g.edges (idToArena e)
    generalize g.edges.remove (idToArena e) = r at hremoved ⊢
    obtain ⟨removed, edges⟩ := r
    dsimp only at hremoved ⊢
    split
    · exact hkept
    · rename_i id d t n
      -- the removed name has a key of its own
      have hlabel : g.labels e = some (d, n) := by
        rw [hslot] at hremoved
        exact TypeGraph.labels_eq_some.mpr ⟨t, TypeGraph.entries_data.mpr ⟨id, hremoved.symm⟩⟩
      have hkey : (d, n) ≠ k := by
        rintro rfl
        exact hne (Option.some.inj (hkept.symm.trans (h.named hlabel)))
      change (g.dirNameIdx.erase (d, n))[k]? = some x
      rw [ExtTreeMap.getElem?_erase, if_neg fun hcmp => hkey (Std.LawfulEqCmp.eq_of_compare hcmp)]
      exact hkept
    · exact hkept
  have hindex : ∀ {k : DirId × String} {x}, (g.removeEdge e).2.dirNameIdx[k]? = some x → g.dirNameIdx[k]? = some x := by
    intro k x hx
    unfold TypeGraph.removeEdge at hx
    dsimp only at hx
    split at hx
    · exact hx
    · change (g.dirNameIdx.erase _)[k]? = some x at hx
      rw [ExtTreeMap.getElem?_erase] at hx
      split at hx
      · cases hx
      · exact hx
    · exact hx
  obtain ⟨edges, idx, hframe⟩ := removeEdge_frame (g := g) e
  refine h.shrink ?_ (fun hx => (hsub hx).2) ?_ hidx ?_ hindex ?_ ?_
  · intro s v hs
    rw [removeEdge_data, Function.update_apply] at hs
    split at hs
    · cases hs
    · exact h.stored hs
  · intro x d n hx
    rw [hframe]
    exact h.listed (hsub hx).2
  · intro d x hx
    rw [hframe] at hx
    exact hx
  · intro t x hx
    rw [hframe] at hx
    exact hx
  · rw [hframe]

/-- An id that leads to no name may leave an entry set. -/
theorem dropMember (h : Filed next g) {e : EdgeId} (he : g.labels e = none) (d : DirId) :
    Filed next { g with dirContains := SetIndex.drop g.dirContains d e } := by
  refine h.shrink h.stored id ?_ h.named ?_ id id le_rfl
  · intro x d' n hx
    refine SetIndex.mem_members_drop.mpr ⟨h.listed hx, ?_⟩
    rintro ⟨_, rfl⟩
    exact absurd (hx.symm.trans he) (Option.some_ne_none _)
  · intro d' x hx
    exact (SetIndex.mem_members_drop.mp hx).1

/-- A directory without names may lose its entry set. -/
theorem eraseSet (h : Filed next g) {d : DirId} (hd : ∀ e n, g.labels e ≠ some (d, n)) :
    Filed next { g with dirContains := g.dirContains.erase d } := by
  refine h.shrink h.stored id ?_ h.named ?_ id id le_rfl
  · intro x d' n hx
    refine SetIndex.mem_members_erase.mpr ⟨?_, h.listed hx⟩
    rintro rfl
    exact hd x n hx
  · intro d' x hx
    exact (SetIndex.mem_members_erase.mp hx).2

/-- An edge that is no name, under the next id. -/
theorem insertEdge (h : Filed next g) (hlt : next < 2 ^ 32) {v : Edge} (hv : v.entry = none) :
    Filed (next + 1) (g.insertEdge next v) := by
  have heq : g.insertEdge next v = { g with edges := (g.edges.insertAt (idToArena next) v).2 } := by
    cases v with
    | contains => cases hv
    | _ => rfl
  have hentries : (g.insertEdge next v).entries = g.entries := by
    rw [heq]
    rcases h.insertAt_or hlt v with hdata | hdata
    · funext s
      exact congrArg (fun a => (a s).bind Edge.entry) hdata
    · refine Arena.view_update_eq hdata ?_
      rw [h.vacant le_rfl]
      exact hv
  have hlabels : (g.insertEdge next v).labels = g.labels := by
    funext e
    rw [TypeGraph.labels, hentries]
    rfl
  rw [heq] at hlabels ⊢
  exact
    { le := hlt
      stored := h.insertAt_lt hlt
      listed := fun he => h.listed (hlabels ▸ he)
      named := fun he => h.named (hlabels ▸ he)
      members := fun he => ⟨lt_trans (h.members he).1 (Nat.lt_succ_self _), hlabels ▸ (h.members he).2⟩
      index := fun he => ⟨lt_trans (h.index he).1 (Nat.lt_succ_self _), hlabels ▸ (h.index he).2⟩
      pointers := fun he => ⟨lt_trans (h.pointers he).1 (Nat.lt_succ_self _), hlabels ▸ (h.pointers he).2⟩
      dots := fun he => h.dots (hlabels ▸ he) }

/-! ### Taking names out -/

theorem detachContains (h : Filed next g) {e : EdgeId} (he : e < next) :
    Filed next (g.detachContains e) ∧
      (g.detachContains e).entries = Function.update g.entries e none := by
  have hremoved := h.removeEdge he
  have hentries : (g.removeEdge e).2.entries = Function.update g.entries e none :=
    removeEdge_entries (h.slot he)
  have hgone : (g.removeEdge e).2.labels e = none := by
    rw [TypeGraph.labels_eq_none, hentries, Function.update_self]
  unfold TypeGraph.detachContains
  split
  · rename_i heq
    rw [heq] at hremoved hentries hgone
    exact ⟨(hremoved.dropMember hgone _).congr rfl rfl rfl rfl le_rfl, hentries⟩
  · rename_i heq
    rw [heq] at hremoved hentries
    exact ⟨hremoved, hentries⟩

theorem foldl_detachContains (es : List EdgeId) : ∀ {g : TypeGraph}, Filed next g →
    (∀ e ∈ es, e < next) → Filed next (es.foldl TypeGraph.detachContains g) ∧
      ∀ x, (es.foldl TypeGraph.detachContains g).entries x = if x ∈ es then none else g.entries x := by
  induction es with
  | nil =>
      intro g h _
      exact ⟨h, fun x => (if_neg List.not_mem_nil).symm⟩
  | cons e es ih =>
      intro g h hes
      obtain ⟨hstep, hentries⟩ := h.detachContains (hes e List.mem_cons_self)
      obtain ⟨hrest, hrest'⟩ := ih hstep fun x hx => hes x (List.mem_cons_of_mem e hx)
      refine ⟨hrest, ?_⟩
      intro x
      rw [List.foldl_cons, hrest', hentries, Function.update_apply]
      by_cases hx : x = e
      · rw [if_pos hx, ite_self, if_pos (hx ▸ List.mem_cons_self)]
      · rw [if_neg hx]
        simp only [List.mem_cons, hx, false_or]

/-- A name and its member leave together. -/
theorem dropName (h : Filed next g) {e : EdgeId} (he : e < next) (d : DirId) (t : InodeId) :
    Filed next (g.dropName e d t) ∧ (g.dropName e d t).entries = Function.update g.entries e none := by
  have hentries : (g.removeEdge e).2.entries = Function.update g.entries e none :=
    removeEdge_entries (h.slot he)
  have hgone : (g.removeEdge e).2.labels e = none := by
    rw [TypeGraph.labels_eq_none, hentries, Function.update_self]
  exact ⟨((h.removeEdge he).dropMember hgone d).congr rfl rfl rfl rfl le_rfl, hentries⟩

theorem releaseBlockEdge (h : Filed next g) {e : EdgeId} (he : e < next) (hnone : g.labels e = none) :
    Filed next (g.releaseBlockEdge e) ∧ (g.releaseBlockEdge e).entries = g.entries := by
  have hremoved := h.removeEdge he
  have hentries : (g.removeEdge e).2.entries = g.entries := by
    rw [removeEdge_entries (h.slot he)]
    exact Function.update_eq_self_iff.mpr (TypeGraph.labels_eq_none.mp hnone).symm
  unfold TypeGraph.releaseBlockEdge
  split
  · rename_i heq
    rw [heq] at hremoved hentries
    split
    · dsimp only
      split
      · exact ⟨hremoved.congr rfl rfl rfl rfl le_rfl, hentries⟩
      · exact ⟨hremoved.congr rfl rfl rfl rfl le_rfl, hentries⟩
    · exact ⟨hremoved, hentries⟩
  · rename_i heq
    rw [heq] at hremoved hentries
    exact ⟨hremoved, hentries⟩

theorem foldl_releaseBlockEdge (es : List EdgeId) : ∀ {g : TypeGraph}, Filed next g →
    (∀ e ∈ es, e < next ∧ g.labels e = none) →
      Filed next (es.foldl TypeGraph.releaseBlockEdge g) ∧
        (es.foldl TypeGraph.releaseBlockEdge g).entries = g.entries := by
  induction es with
  | nil =>
      intro g h _
      exact ⟨h, rfl⟩
  | cons e es ih =>
      intro g h hes
      obtain ⟨hlt, hnone⟩ := hes e List.mem_cons_self
      obtain ⟨hstep, hentries⟩ := h.releaseBlockEdge hlt hnone
      obtain ⟨hrest, hrest'⟩ := ih hstep fun x hx => by
        rw [TypeGraph.labels, hentries]
        exact hes x (List.mem_cons_of_mem e hx)
      exact ⟨hrest, hrest'.trans hentries⟩

/-- Deleting an inode takes no further name. -/
theorem collectInode (h : Filed next g) (t : InodeId) :
    Filed next (g.collectInode t) ∧ (g.collectInode t).entries = g.entries := by
  have hpoints : Filed next { g with inodePointsTo := g.inodePointsTo.erase t } := by
    refine h.shrink h.stored id h.listed h.named id id ?_ le_rfl
    intro t' e he
    exact (SetIndex.mem_members_erase.mp he).2
  obtain ⟨hreleased, hentries⟩ := foldl_releaseBlockEdge (SetIndex.members g.inodePointsTo t).toList
    hpoints fun e he => h.pointers (ExtTreeSet.mem_toList.mp he)
  exact ⟨hreleased.congr rfl rfl rfl rfl le_rfl, hentries⟩

theorem dropLastName (h : Filed next g) {e : EdgeId} (he : e < next) (d : DirId) (t : InodeId) :
    Filed next (g.dropLastName e d t) ∧
      (g.dropLastName e d t).entries = Function.update g.entries e none := by
  obtain ⟨hdropped, hentries⟩ := h.dropName he d t
  obtain ⟨hcollected, hentries'⟩ := hdropped.collectInode t
  exact ⟨hcollected, hentries'.trans hentries⟩

theorem removeDir (h : Filed next g) (d : DirId) : Filed next (g.removeDir d) := by
  unfold TypeGraph.removeDir
  dsimp only
  split <;> exact h.congr rfl rfl rfl rfl le_rfl

/-- The edges that rmdir removes: the stored names of the entry and of the directory, and perhaps more of
    its members. -/
theorem mem_rmdirEdges (h : Filed next g) {p : DirId} {n : String} {ti : InodeId} {td : DirId} {x : EdgeId} :
    x ∈ g.rmdirEdges p n ti td ↔
      g.entries x = some (p, ti, n) ∨ x ∈ SetIndex.members g.dirContains td := by
  unfold TypeGraph.rmdirEdges
  rw [List.mem_append, ExtTreeSet.mem_toList, List.mem_map]
  refine or_congr_left ⟨?_, ?_⟩
  · rintro ⟨⟨e, t, m⟩, hfiltered, rfl⟩
    obtain ⟨hmem, hp⟩ := List.mem_filter.mp hfiltered
    obtain ⟨rfl, rfl⟩ : t = ti ∧ m = n := by simpa using hp
    exact h.mem_dirEntries.mp hmem
  · intro hx
    exact ⟨(x, ti, n), List.mem_filter.mpr ⟨h.mem_dirEntries.mpr hx, by simp⟩, rfl⟩

theorem dropDir (h : Filed next g) (p : DirId) (n : String) (ti : InodeId) (td : DirId) :
    Filed next (g.dropDir p n ti td) ∧
      ∀ x, (g.dropDir p n ti td).entries x = if x ∈ g.rmdirEdges p n ti td then none else g.entries x := by
  obtain ⟨hdetached, hentries⟩ := foldl_detachContains (g.rmdirEdges p n ti td) h (by
    intro e he
    rcases h.mem_rmdirEdges.mp he with he | he
    · exact h.entry_lt he
    · exact (h.members he).1)
  have hfreed : Filed next (((g.rmdirEdges p n ti td).foldl TypeGraph.detachContains g).removeInode ti) :=
    hdetached.congr rfl rfl rfl rfl le_rfl
  have hentries' : (g.dropDir p n ti td).entries =
      ((g.rmdirEdges p n ti td).foldl TypeGraph.detachContains g).entries := by
    unfold TypeGraph.dropDir TypeGraph.removeDir
    dsimp only
    split <;> rfl
  have hempty : ∀ e m, ((((g.rmdirEdges p n ti td).foldl TypeGraph.detachContains g).removeInode
      ti).removeDir td).labels e ≠ some (td, m) := by
    intro e m he
    obtain ⟨t, he⟩ := TypeGraph.labels_eq_some.mp he
    have he' : (g.dropDir p n ti td).entries e = some (td, t, m) := he
    rw [hentries', hentries] at he'
    split at he'
    · cases he'
    · rename_i hkept
      exact hkept (h.mem_rmdirEdges.mpr (.inr (h.listed (TypeGraph.labels_eq_some.mpr ⟨t, he'⟩))))
  refine ⟨((hfreed.removeDir td).eraseSet hempty).congr rfl rfl rfl rfl le_rfl, ?_⟩
  intro x
  rw [hentries', hentries]

/-! ### Moving names -/

/-- A rename in place writes the name into the edge and moves its key. -/
theorem renameContainsEdge_eq (h : Filed next g) {e id : EdgeId} {d : DirId} {t : InodeId} {n n' : String}
    (hdata : g.edges.data e = some (.contains id d t n)) (hne : n ≠ n') :
    (g.renameContainsEdge e n').2 =
      { g with
        dirNameIdx := (g.dirNameIdx.erase (d, n)).insert (d, n') e
        edges := g.edges.modify (idToArena e) fun
          | .contains id src tgt _ => .contains id src tgt n'
          | edge => edge } := by
  unfold TypeGraph.renameContainsEdge
  rw [h.getEdge_eq (h.stored hdata), hdata]
  dsimp only
  rw [if_neg hne]
  rfl

/-- A stored name that takes another free name in place. -/
theorem renameContainsEdge (h : Filed next g) {e : EdgeId} {d : DirId} {t : InodeId} {n n' : String}
    (he : g.entries e = some (d, t, n)) (hne : n ≠ n') (hn' : UserName n')
    (hfree : ∀ x, g.labels x ≠ some (d, n')) :
    Filed next (g.renameContainsEdge e n').2 ∧
      (g.renameContainsEdge e n').2.entries = Function.update g.entries e (some (d, t, n')) := by
  obtain ⟨id, hdata⟩ := TypeGraph.entries_data.mp he
  have hlt := h.stored hdata
  have hlabel : g.labels e = some (d, n) := TypeGraph.labels_eq_some.mpr ⟨t, he⟩
  have heq := h.renameContainsEdge_eq hdata hne
  have hdata' : (g.renameContainsEdge e n').2.edges.data =
      Function.update g.edges.data e (some (.contains id d t n')) := by
    rw [heq]
    change Function.update g.edges.data (idToArena e) _ = _
    rw [h.slot hlt, hdata]
    rfl
  have hentries : (g.renameContainsEdge e n').2.entries =
      Function.update g.entries e (some (d, t, n')) := Arena.view_update hdata'
  have hlabels : (g.renameContainsEdge e n').2.labels = Function.update g.labels e (some (d, n')) :=
    labels_update hentries
  have hother : ∀ {x k}, (g.renameContainsEdge e n').2.labels x = some k →
      (x = e ∧ k = (d, n')) ∨ (x ≠ e ∧ g.labels x = some k) := by
    intro x k hx
    rw [hlabels, Function.update_apply] at hx
    split at hx
    · exact .inl ⟨‹_›, (Option.some.inj hx).symm⟩
    · exact .inr ⟨‹_›, hx⟩
  have hidx : ∀ k, (g.renameContainsEdge e n').2.dirNameIdx[k]? =
      if k = (d, n') then some e else if k = (d, n) then none else g.dirNameIdx[k]? := by
    intro k
    rw [heq]
    change ((g.dirNameIdx.erase (d, n)).insert (d, n') e)[k]? = _
    rw [ExtTreeMap.getElem?_insert, ExtTreeMap.getElem?_erase]
    have hcmp : ∀ k', nameKeyCmp k' k = .eq ↔ k = k' := fun k' =>
      ⟨fun h => (Std.LawfulEqCmp.eq_of_compare h).symm, fun h => h ▸ Std.ReflCmp.compare_self⟩
    simp only [hcmp]
  have hsets : (g.renameContainsEdge e n').2.dirContains = g.dirContains := by rw [heq]
  have hpoints : (g.renameContainsEdge e n').2.inodePointsTo = g.inodePointsTo := by rw [heq]
  have hdirs : (g.renameContainsEdge e n').2.nextDir = g.nextDir := by rw [heq]
  refine ⟨
    { le := h.le
      stored := ?_
      listed := ?_
      named := ?_
      members := ?_
      index := ?_
      pointers := ?_
      dots := ?_ }, hentries⟩
  · intro s v hs
    rw [hdata', Function.update_apply] at hs
    split at hs
    · rename_i hse
      exact hse ▸ hlt
    · exact h.stored hs
  · intro x d' m hx
    rw [hsets]
    rcases hother hx with ⟨rfl, hk⟩ | ⟨_, hx⟩
    · cases hk
      exact h.listed hlabel
    · exact h.listed hx
  · intro x d' m hx
    rw [hidx]
    rcases hother hx with ⟨rfl, hk⟩ | ⟨hxe, hx⟩
    · rw [if_pos hk]
    · rw [if_neg, if_neg, h.named hx]
      · intro hk
        rw [hk] at hx
        exact hxe (Option.some.inj ((h.named hx).symm.trans (h.named hlabel)))
      · intro hk
        rw [hk] at hx
        exact hfree x hx
  · intro k x hx
    rw [hsets] at hx
    obtain ⟨hlt', hdir⟩ := h.members hx
    refine ⟨hlt', ?_⟩
    intro d' m hm
    rcases hother hm with ⟨rfl, hk⟩ | ⟨_, hm⟩
    · cases hk
      exact hdir d n hlabel
    · exact hdir d' m hm
  · intro k x hx
    rw [hidx] at hx
    split at hx
    · rename_i hk
      cases hx
      refine ⟨hlt, ?_⟩
      intro k' hk'
      rcases hother hk' with ⟨_, hk'⟩ | ⟨hee, _⟩
      · rw [hk', hk]
      · exact absurd rfl hee
    · split at hx
      · cases hx
      · rename_i hkn
        obtain ⟨hlt', hkey⟩ := h.index hx
        refine ⟨hlt', ?_⟩
        intro k' hk'
        rcases hother hk' with ⟨rfl, _⟩ | ⟨_, hk'⟩
        · exact absurd (hkey _ hlabel).symm hkn
        · exact hkey k' hk'
  · intro i x hx
    rw [hpoints] at hx
    obtain ⟨hlt', hnone⟩ := h.pointers hx
    refine ⟨hlt', ?_⟩
    cases hl : (g.renameContainsEdge e n').2.labels x with
    | none => rfl
    | some k =>
        rcases hother hl with ⟨rfl, _⟩ | ⟨_, hl⟩
        · exact absurd (hlabel.symm.trans hnone) (Option.some_ne_none _)
        · exact absurd (hl.symm.trans hnone) (Option.some_ne_none _)
  · intro x d' m hx hm
    rw [hdirs]
    rcases hother hx with ⟨_, hk⟩ | ⟨_, hx⟩
    · cases hk
      exact absurd hn' hm
    · exact h.dots hx hm

/-- Edges that change what they lead to and no more. -/
theorem relabel (h : Filed next g) (hstored : ∀ {s v}, g'.edges.data s = some v → s < next)
    (hlabels : g'.labels = g.labels) (hsets : g'.dirContains = g.dirContains)
    (hidx : g'.dirNameIdx = g.dirNameIdx) (hpoints : g'.inodePointsTo = g.inodePointsTo)
    (hdirs : g.nextDir ≤ g'.nextDir) : Filed next g' := by
  refine h.shrink hstored (fun hx => hlabels ▸ hx) ?_ ?_ (fun hx => hsets ▸ hx) (fun hx => hidx ▸ hx)
    (fun hx => hpoints ▸ hx) hdirs
  · rw [hlabels, hsets]
    exact h.listed
  · rw [hlabels, hidx]
    exact h.named

/-- The ".." of a moved directory is pointed at its new parent; no other name changes, and no label. -/
theorem followParent (h : Filed next g) (t : InodeId) (q : DirId) :
    Filed next (g.followParent t q) ∧ (g.followParent t q).labels = g.labels ∧
      ∀ {x d i n}, n ≠ ".." → g.entries x = some (d, i, n) →
        (g.followParent t q).entries x = some (d, i, n) := by
  have hsame : Filed next g ∧ g.labels = g.labels ∧ ∀ {x d i n}, n ≠ ".." →
      g.entries x = some (d, i, n) → g.entries x = some (d, i, n) := ⟨h, rfl, fun _ hx => hx⟩
  unfold TypeGraph.followParent TypeGraph.retargetDotdot
  split
  · split
    · split
      · split
        · exact hsame
        · rename_i child dst _ _ _ e old m hfind
          have hm : m = ".." := by simpa using List.find?_some hfind
          have he : g.entries e = some (child, old, "..") :=
            hm ▸ h.mem_dirEntries.mp (List.mem_of_find?_eq_some hfind)
          obtain ⟨id, hdata⟩ := TypeGraph.entries_data.mp he
          dsimp only
          generalize hpool : (TypeGraph.modifyEdge _ e _) = changed
          have hdata' : changed.edges.data =
              Function.update g.edges.data e (some (.contains id child dst.inodeId "..")) := by
            rw [← hpool]
            change Function.update g.edges.data (idToArena e) _ = _
            rw [h.slot (h.stored hdata), hdata]
            rfl
          have hentries : changed.entries = Function.update g.entries e (some (child, dst.inodeId, "..")) :=
            Arena.view_update hdata'
          have hlabels : changed.labels = g.labels := by
            rw [labels_update hentries]
            exact Function.update_eq_self_iff.mpr (TypeGraph.labels_eq_some.mpr ⟨old, he⟩).symm
          have hchanged : Filed next changed := by
            refine h.relabel ?_ hlabels (by rw [← hpool]; rfl) (by rw [← hpool]; rfl)
              (by rw [← hpool]; rfl) (by rw [← hpool]; exact le_rfl)
            intro s v hs
            rw [hdata', Function.update_apply] at hs
            split at hs
            · rename_i hse
              exact hse ▸ h.stored hdata
            · exact h.stored hs
          refine ⟨hchanged.congr rfl rfl rfl rfl le_rfl, hlabels, ?_⟩
          intro x d i n hn hx
          change changed.entries x = some (d, i, n)
          rw [hentries, Function.update_of_ne]
          · exact hx
          · rintro rfl
            rw [he] at hx
            cases hx
            exact hn rfl
      · exact hsame
    · exact hsame
  · exact hsame

/-- A name moved to another directory, under a new id that the pool may refuse. -/
theorem moveEntry (h : Filed g.nextEdge g) (hlt : g.nextEdge < 2 ^ 32) {e : EdgeId} {p q : DirId}
    {t : InodeId} {n n' : String} (he : g.entries e = some (p, t, n)) (hn' : UserName n')
    (hfree : ∀ x, g.labels x ≠ some (q, n')) :
    Filed (g.nextEdge + 1) (g.moveEntry e p t q n') ∧
      (∀ {x k}, (g.moveEntry e p t q n').labels x = some k →
        k = (q, n') ∨ x ≠ e ∧ g.labels x = some k) ∧
      (g.nextEdge < EDGE_CAPACITY → (g.moveEntry e p t q n').entries g.nextEdge = some (q, t, n')) := by
  have hentries : (g.removeEdge e).2.entries = Function.update g.entries e none :=
    removeEdge_entries (h.slot (h.entry_lt he))
  have hgone : (g.removeEdge e).2.labels e = none := by
    rw [TypeGraph.labels_eq_none, hentries, Function.update_self]
  have htaken := (h.removeEdge (h.entry_lt he)).dropMember hgone p
  have hfree' : ∀ x, (g.removeEdge e).2.labels x ≠ some (q, n') := by
    intro x hx
    rw [labels_update hentries, Function.update_apply] at hx
    split at hx
    · cases hx
    · exact hfree x hx
  obtain ⟨edges, idx, hframe⟩ := removeEdge_frame (g := g) e
  have hnext : (g.removeEdge e).2.nextEdge = g.nextEdge := by rw [hframe]
  unfold TypeGraph.moveEntry TypeGraph.allocEdgeId
  dsimp only
  rw [hnext]
  have hnumbered : Filed g.nextEdge { (g.removeEdge e).2 with
      dirContains := SetIndex.drop (g.removeEdge e).2.dirContains p e
      inodeIncomingContains := SetIndex.drop (g.removeEdge e).2.inodeIncomingContains t e
      nextEdge := g.nextEdge + 1 } := htaken.congr rfl rfl rfl rfl le_rfl
  have hadded := fun {x k} => hnumbered.labels_addContains (t := t) (d := q) (n := n') (e := x) (k := k) hlt
  generalize hentered : TypeGraph.addContains _ g.nextEdge q t n' = entered at hadded ⊢
  have hfiled : Filed (g.nextEdge + 1) entered := by
    rw [← hentered]
    exact hnumbered.addContains hlt hfree' (fun hm => absurd hn' hm) t
  obtain ⟨hfollowed, hlabels, hkept⟩ := hfiled.followParent t q
  refine ⟨hfollowed, fun {x k} hx => ?_, ?_⟩
  · rw [hlabels] at hx
    rcases hadded hx with ⟨_, hk⟩ | ⟨_, hx⟩
    · exact .inl hk
    · change (g.removeEdge e).2.labels x = some k at hx
      rw [labels_update hentries, Function.update_apply] at hx
      split at hx
      · cases hx
      · rename_i hxe
        exact .inr ⟨hxe, hx⟩
  intro hroom
  refine hkept hn'.2 (TypeGraph.entries_data.mpr ⟨g.nextEdge, ?_⟩)
  rw [← hentered]
  change ((g.removeEdge e).2.edges.insertAt (idToArena g.nextEdge) _).2.data _ = _
  rw [idToArena_of_lt hlt, Arena.data_insertAt _ hroom, Function.update_self]
  rw [removeEdge_data, Function.update_apply]
  split
  · rfl
  · exact h.vacant le_rfl

/-! ### New names and other edges -/

theorem enterInode (h : Filed g.nextEdge g) (hlt : g.nextEdge < 2 ^ 32) {inode : Inode} {d : DirId}
    {n : String} (hn : UserName n) (hfree : ∀ e, g.labels e ≠ some (d, n)) :
    Filed (g.nextEdge + 1) (g.enterInode inode d n) := by
  have hstored : Filed g.nextEdge ({ g with nextInode := g.nextInode + 1, nextEdge := g.nextEdge + 1
      }.insertInode g.nextInode inode) := h.congr rfl rfl rfl rfl le_rfl
  exact hstored.addContains hlt hfree (fun hm => absurd hn hm) _

theorem enterLink (h : Filed g.nextEdge g) (hlt : g.nextEdge < 2 ^ 32) {d : DirId} {t : InodeId} {n : String}
    (hn : UserName n) (hfree : ∀ e, g.labels e ≠ some (d, n)) :
    Filed (g.nextEdge + 1) (g.enterLink d t n) := by
  have hnumbered : Filed g.nextEdge { g with nextEdge := g.nextEdge + 1 } := h.congr rfl rfl rfl rfl le_rfl
  exact (hnumbered.addContains hlt hfree (fun hm => absurd hn hm) t).congr rfl rfl rfl rfl le_rfl

/-- The new directory carries no "." and no ".." before it is entered. -/
theorem enterDir (h : Filed g.nextEdge g) (hle : g.nextEdge + 3 ≤ 2 ^ 32) {inode : Inode} {d : DirId}
    {di : InodeId} {n : String} (hn : UserName n) (hfree : ∀ e, g.labels e ≠ some (d, n)) :
    Filed (g.nextEdge + 1 + 1 + 1) (g.enterDir inode d di n) := by
  have hstored : Filed g.nextEdge (({ g with
      nextInode := g.nextInode + 1
      nextDir := g.nextDir + 1
      nextEdge := g.nextEdge + 1 + 1 + 1 }.insertInode g.nextInode inode).insertDir g.nextDir
        ⟨g.nextDir, g.nextInode⟩) := h.congr rfl rfl rfl rfl (Nat.le_succ _)
  have hentry := hstored.addContains (by omega) hfree (fun hm => absurd hn hm) g.nextInode
  -- the names of the dots are new, for the directory is
  have hfresh : ∀ {m : String}, ¬ UserName m → ∀ e, g.labels e ≠ some (g.nextDir, m) :=
    fun hm e he => absurd (h.dots he hm) (lt_irrefl _)
  have hdotName : ¬ UserName "." := fun hm => hm.1 rfl
  have hdotdotName : ¬ UserName ".." := fun hm => hm.2 rfl
  have hdots : ".." ≠ "." := by decide
  have hdot := hentry.addContains (d := g.nextDir) (n := ".") (by omega) (by
    intro e he
    rcases hstored.labels_addContains (by omega) he with ⟨_, heq⟩ | ⟨_, he⟩
    · cases heq
      exact hdotName hn
    · exact hfresh hdotName e he) (fun _ => Nat.lt_succ_self _) g.nextInode
  exact hdot.addContains (d := g.nextDir) (n := "..") (by omega) (by
    intro e he
    rcases hentry.labels_addContains (by omega) he with ⟨_, heq⟩ | ⟨_, he⟩
    · exact absurd (congrArg Prod.snd heq) hdots
    · rcases hstored.labels_addContains (by omega) he with ⟨_, heq⟩ | ⟨_, he⟩
      · cases heq
        exact hdotdotName hn
      · exact hfresh hdotdotName e he) (fun _ => Nat.lt_succ_self _) di

end Filed

end SotFs
