/-
Module: SotFs.Proofs.DirectoryReads
Layer: Proofs
Purpose: What a series of readdir calls returns. A directory is listed by edge id, entries keep their id and
  new ones come last, so a position stays where it is as long as no entry before it leaves. Then the series
  has returned the entries before its offset, each once; when an entry that was returned is removed, all
  later ones move up and the next call skips one of them.
Trusted boundary: none
Main exports: TypeGraph.entryIds, ReaddirSeries.Resumes, readdir_returns_once
-/
import SotFs.Foundation.Resume
import SotFs.Core.Readdir
import SotFs.Proofs.EntryOrder

namespace SotFs

open Std (ExtTreeMap ExtTreeSet)
open Foundation

/-! ### The order of a directory -/

/-- The edge ids of the entries of a directory, in the order they are listed. -/
def TypeGraph.entryIds (g : TypeGraph) (d : DirId) : List EdgeId := (g.dirEntries d).map Prod.fst

section Order

variable {g g' : TypeGraph} {d : DirId}

theorem TypeGraph.entryIds_sublist (g : TypeGraph) (d : DirId) :
    (g.entryIds d).Sublist (SetIndex.members g.dirContains d).toList := by
  unfold TypeGraph.entryIds TypeGraph.dirEntries
  induction (SetIndex.members g.dirContains d).toList with
  | nil => exact List.Sublist.refl _
  | cons e es ih =>
      rw [List.filterMap_cons]
      split
      · exact ih.cons e
      · rename_i heq
        split at heq
        · cases heq
          exact ih.cons_cons e
        · cases heq

theorem TypeGraph.entryIds_sorted (g : TypeGraph) (d : DirId) : (g.entryIds d).Pairwise (· < ·) := by
  refine List.Pairwise.sublist (g.entryIds_sublist d) ?_
  exact (ExtTreeSet.ordered_toList).imp fun h => Nat.compare_eq_lt.mp h

theorem TypeGraph.entryIds_length (g : TypeGraph) (d : DirId) :
    (g.entryIds d).length = (g.listDir d).length := by
  rw [TypeGraph.entryIds, TypeGraph.listDir, List.length_map, List.length_map]

theorem Filed.mem_entryIds {next : Nat} (h : Filed next g) {e : EdgeId} :
    e ∈ g.entryIds d ↔ ∃ t n, g.entries e = some (d, t, n) := by
  rw [TypeGraph.entryIds, List.mem_map]
  constructor
  · rintro ⟨⟨e', t, n⟩, hmem, rfl⟩
    exact ⟨t, n, h.mem_dirEntries.mp hmem⟩
  · rintro ⟨t, n, he⟩
    exact ⟨(e, t, n), h.mem_dirEntries.mpr he, rfl⟩

/-- Entries leave a directory, or are added at its end. -/
theorem TypeGraph.Since.appends (h : g.Since g') (hf : Filed g.nextEdge g) (hf' : Filed g'.nextEdge g')
    (d : DirId) : Appends (g.entryIds d) (g'.entryIds d) := by
  intro y hy
  obtain ⟨t, n, hentry⟩ := hf'.mem_entryIds.mp hy
  by_cases hlt : y < g.nextEdge
  · exact .inl (hf.mem_entryIds.mpr (h.entries hlt hentry))
  · refine .inr fun x hx => ?_
    obtain ⟨_, _, hx⟩ := hf.mem_entryIds.mp hx
    exact lt_of_lt_of_le (hf.entry_lt hx) (Nat.le_of_not_lt hlt)

end Order

/-! ### One call -/

section Call

variable {g : TypeGraph} {full : List DirEntry → DirEntry → Bool}

/-- A call adds the first entries from its offset on. -/
theorem TypeGraph.addEntries_eq (full : List DirEntry → DirEntry → Bool)
    (entries : List ((String × InodeId) × Nat)) :
    ∀ reply, ∃ k ≤ entries.length, g.addEntries full entries reply = reply ++ (entries.take k).map g.direntAt := by
  induction entries with
  | nil => exact fun reply => ⟨0, le_rfl, by simp [TypeGraph.addEntries]⟩
  | cons entry entries ih =>
      intro reply
      rw [TypeGraph.addEntries]
      split
      · exact ⟨0, Nat.zero_le _, by simp⟩
      · obtain ⟨k, hk, heq⟩ := ih (reply ++ [g.direntAt entry])
        exact ⟨k + 1, Nat.succ_le_succ hk, by rw [heq]; simp⟩

/-- What the replies say under one name. -/
def shownAs (n : String) (entries : List DirEntry) : List InodeId :=
  (entries.filter fun entry => entry.name = n).map DirEntry.ino

theorem shownAs_append (n : String) (xs ys : List DirEntry) :
    shownAs n (xs ++ ys) = shownAs n xs ++ shownAs n ys := by
  rw [shownAs, List.filter_append, List.map_append, shownAs, shownAs]

/-- A part of the list shows a name that is there once if its entry is in the part. -/
theorem Filed.shownAs_part {next : Nat} (h : Filed next g) {d : DirId} {e : EdgeId} {t : InodeId} {n : String}
    (he : (e, t, n) ∈ g.dirEntries d) (part : List (EdgeId × InodeId × String))
    (hpart : ∀ x ∈ part, x ∈ g.dirEntries d) (hnodup : (part.map Prod.fst).Nodup) :
    (part.filter fun x => x.2.2 = n).map (fun x => x.2.1) = if e ∈ part.map Prod.fst then [t] else [] := by
  have he' := h.mem_dirEntries.mp he
  induction part with
  | nil => simp
  | cons x part ih =>
      obtain ⟨e', t', n'⟩ := x
      rw [List.map_cons, List.nodup_cons] at hnodup
      have hx := h.mem_dirEntries.mp (hpart (e', t', n') List.mem_cons_self)
      have hrest := ih (fun x hx => hpart x (List.mem_cons_of_mem _ hx)) hnodup.2
      by_cases hn : n' = n
      · -- the name belongs to one entry only
        subst hn
        have heq : e' = e := h.names hx he'
        subst heq
        rw [hx] at he'
        cases he'
        have hgone : ¬ e' ∈ part.map Prod.fst := hnodup.1
        rw [if_neg hgone] at hrest
        rw [List.filter_cons_of_pos (by simp), List.map_cons, hrest]
        simp
      · have hne : e ≠ e' := by
          rintro rfl
          rw [hx] at he'
          cases he'
          exact hn rfl
        rw [List.filter_cons_of_neg (by simpa using hn), hrest]
        simp only [List.map_cons, List.mem_cons, hne, false_or]

/-- The part of the list that a reply shows. -/
theorem TypeGraph.shownAs_reply (g : TypeGraph) (d : DirId) (n : String) (offset k : Nat) :
    shownAs n ((((g.listDir d).zipIdx.drop offset).take k).map g.direntAt) =
      ((((g.dirEntries d).drop offset).take k).filter fun x => x.2.2 = n).map fun x => x.2.1 := by
  have hzip : (((g.listDir d).zipIdx.drop offset).take k).map Prod.fst =
      (((g.dirEntries d).drop offset).take k).map fun x => (x.2.2, x.2.1) := by
    rw [List.map_take, List.map_drop, List.zipIdx_map_fst, TypeGraph.listDir, List.map_take, List.map_drop]
  have hshown : ∀ zs : List ((String × InodeId) × Nat), shownAs n (zs.map g.direntAt) =
      ((zs.map Prod.fst).filter fun x => x.1 = n).map Prod.snd := by
    intro zs
    rw [shownAs, List.filter_map, List.map_map, List.filter_map, List.map_map]
    rfl
  rw [hshown, hzip, List.filter_map, List.map_map]
  rfl

/-- The next call resumes after the entries of the reply. -/
theorem TypeGraph.offset_reply (g : TypeGraph) (d : DirId) {offset k : Nat}
    (hk : k ≤ (g.listDir d).length - offset) :
    ((((((g.listDir d).zipIdx.drop offset).take k).map g.direntAt).getLast?).map DirEntry.offset).getD offset =
      offset + k := by
  cases k with
  | zero => simp
  | succ k =>
      have hlt : offset + k < (g.listDir d).length := by omega
      have hmin : min (k + 1) ((g.listDir d).length - offset) - 1 = k := by omega
      rw [List.getLast?_eq_getElem?]
      simp [hmin, List.getElem?_drop, List.getElem?_eq_getElem hlt, TypeGraph.direntAt]
      omega

end Call

/-! ### One step of a series -/

namespace ReaddirSeries

/-- The series has returned the entries before its offset: the entry under `e` is among the returned ones,
    once, exactly if it is one of these. -/
structure Resumes (ino : InodeId) (d : DirId) (e : EdgeId) (t : InodeId) (n : String) (s : ReaddirSeries) :
    Prop where
  filed : Filed s.graph.nextEdge s.graph
  issued : ino < s.graph.nextInode
  home : ∀ d', s.graph.dirForInodeIdx[ino]? = some d' → d' = d
  offset_le : s.offset ≤ (s.graph.entryIds d).length
  returned : shownAs n s.returned = if e ∈ (s.graph.entryIds d).take s.offset then [t] else []
  ended : s.ended = true → e ∈ (s.graph.entryIds d).take s.offset

variable {ino : InodeId} {d : DirId} {e : EdgeId} {t : InodeId} {n : String} {s : ReaddirSeries}

theorem Resumes.start {g : TypeGraph} (hf : Filed g.nextEdge g) (hino : ino < g.nextInode)
    (hdir : g.dirForInode ino = some d) : (start g).Resumes ino d e t n where
  filed := hf
  issued := hino
  home d' hd' := Option.some.inj (hd'.symm.trans hdir)
  offset_le := Nat.zero_le _
  returned := rfl
  ended h := by cases h

/-- A call returns the entries behind its offset, as far as the buffer takes them. -/
theorem Resumes.read (h : s.Resumes ino d e t n) (he : (e, t, n) ∈ s.graph.dirEntries d)
    (full : List DirEntry → DirEntry → Bool) : (s.read ino full).Resumes ino d e t n := by
  unfold ReaddirSeries.read Fuse.readdir
  cases hdir : s.graph.dirForInode ino with
  | none => exact h
  | some d' =>
      have hd : d' = d := h.home d' hdir
      subst hd
      obtain ⟨k, hk, hreply⟩ := s.graph.addEntries_eq full
        ((s.graph.listDir d').zipIdx.drop s.offset) []
      rw [List.length_drop, List.length_zipIdx] at hk
      have hoffset := s.graph.offset_reply d' hk
      have hlength := s.graph.entryIds_length d'
      dsimp only
      rw [hreply, List.nil_append, hoffset]
      have hids : (s.graph.entryIds d').take (s.offset + k) =
          (s.graph.entryIds d').take s.offset ++ ((s.graph.entryIds d').drop s.offset).take k := List.take_add
      have hnodup : (s.graph.entryIds d').Nodup := (s.graph.entryIds_sorted d').imp fun h => ne_of_lt h
      have hpart : (((s.graph.dirEntries d').drop s.offset).take k).map Prod.fst =
          ((s.graph.entryIds d').drop s.offset).take k := by
        rw [List.map_take, List.map_drop, TypeGraph.entryIds]
      refine
        { filed := h.filed
          issued := h.issued
          home := h.home
          offset_le := by have := h.offset_le; dsimp only; omega
          returned := ?_
          ended := ?_ }
      · -- the entry is in what was returned before, in the new part, or in neither
        have hshown := h.filed.shownAs_part he (((s.graph.dirEntries d').drop s.offset).take k)
          (fun x hx => List.mem_of_mem_drop (List.mem_of_mem_take hx))
          (hpart ▸ hnodup.sublist ((List.take_sublist _ _).trans (List.drop_sublist _ _)))
        rw [shownAs_append, h.returned, s.graph.shownAs_reply, hshown, hpart, hids]
        have hapart := List.disjoint_of_nodup_append (hids ▸ hnodup.sublist (List.take_sublist _ _))
        by_cases hbefore : e ∈ (s.graph.entryIds d').take s.offset
        · have hnew : e ∉ ((s.graph.entryIds d').drop s.offset).take k := hapart hbefore
          rw [if_pos hbefore, if_neg hnew, if_pos (List.mem_append_left _ hbefore), List.append_nil]
        · simp [hbefore]
      · intro hended
        rw [hids, List.mem_append]
        rcases Bool.or_eq_true_iff.mp hended with hold | hnow
        · exact .inl (h.ended hold)
        · -- nothing is left behind the offset
          left
          have hall : (s.graph.entryIds d').length ≤ s.offset := by
            rw [hlength]
            simpa [exhausted, hdir] using hnow
          rw [List.take_of_length_le hall]
          exact List.mem_map.mpr ⟨_, he, rfl⟩

/-- A change of the graph keeps what was returned, if no entry before the offset leaves. -/
theorem Resumes.mutate (h : s.Resumes ino d e t n) {g' : TypeGraph} (hsince : s.graph.Since g')
    (hf' : Filed g'.nextEdge g') (hstay : ∀ x ∈ (s.graph.entryIds d).take s.offset, x ∈ g'.entryIds d) :
    ReaddirSeries.Resumes ino d e t n { s with graph := g' } := by
  have hsorted := s.graph.entryIds_sorted d
  have htake : (g'.entryIds d).take s.offset = (s.graph.entryIds d).take s.offset :=
    (hsince.appends h.filed hf' d).take_eq hsorted (g'.entryIds_sorted d) h.offset_le hstay
  refine
    { filed := hf'
      issued := lt_of_lt_of_le h.issued hsince.nextInode
      home := ?_
      offset_le := ?_
      returned := by rw [htake]; exact h.returned
      ended := by rw [htake]; exact h.ended }
  · intro d' hd'
    rcases hsince.dirs hd' with hold | ⟨hle, _⟩
    · exact h.home d' hold
    · exact absurd h.issued (Nat.not_lt.mpr hle)
  · have hlength := congrArg List.length htake
    rw [List.length_take, List.length_take, Nat.min_eq_left h.offset_le] at hlength
    dsimp only
    omega

/-! ### Runs -/

theorem replay_take_succ {steps : List SeriesStep} {k : Nat} (hk : k < steps.length) :
    s.replay ino (steps.take (k + 1)) = (s.replay ino (steps.take k)).step ino steps[k] := by
  rw [replay, replay, List.take_succ_eq_append_getElem hk, List.foldl_append]
  rfl

/-- No step takes an edge id back. -/
theorem step_nextEdge {step : SeriesStep} (hle : (s.step ino step).graph.nextEdge ≤ 2 ^ 32) :
    s.graph.nextEdge ≤ (s.step ino step).graph.nextEdge := by
  cases step with
  | read full =>
      change s.graph.nextEdge ≤ (s.read ino full).graph.nextEdge
      unfold ReaddirSeries.read
      split <;> exact le_rfl
  | setCapCtx ctx => exact le_rfl
  | mutate now op => exact (op.grown now s.graph hle).nextEdge

end ReaddirSeries

/-- Only inodes that were issued have a directory. -/
theorem Run.dirForInode_lt {allowed : TypeGraph → Op → TypeGraph → Prop} {g : TypeGraph} (hrun : Run allowed g)
    (hle : g.nextEdge ≤ 2 ^ 32) {ino : InodeId} {d : DirId} (hdir : g.dirForInodeIdx[ino]? = some d) :
    ino < g.nextInode := by
  induction hrun with
  | new now =>
      change ((∅ : ExtTreeMap InodeId DirId).insert 1 1)[ino]? = some d at hdir
      rw [ExtTreeMap.getElem?_insert] at hdir
      split at hdir
      · rename_i hcmp
        have hone : 1 = ino := by simpa using hcmp
        exact hone ▸ Nat.lt_succ_self 1
      · simp at hdir
  | call now op _ _ ih =>
      have hsince := op.grown now _ hle
      rcases hsince.dirs hdir with hold | ⟨_, hlt⟩
      · exact lt_of_lt_of_le (ih (hsince.nextEdge.trans hle) hold) hsince.nextInode
      · exact hlt
  | setCapCtx ctx _ ih => exact ih hle hdir
  | enableProvLog _ ih => exact ih hle hdir
  | disableProvLog _ ih => exact ih hle hdir

/-- Every entry that is there from the first call to the last is returned exactly once, whatever the
    buffers and whatever else is created, removed and renamed between the calls, as long as no call removes an
    entry that the series has been given already (an entry before the offset) and edge ids do not alias
    slots: none is returned twice, and a series that has ended has returned each. -/
theorem readdir_returns_once {allowed : TypeGraph → Op → TypeGraph → Prop} {g : TypeGraph}
    (hg : Run allowed g) {ino : InodeId} {d : DirId} (hdir : g.dirForInode ino = some d)
    (steps : List SeriesStep)
    (hids : ((ReaddirSeries.start g).replay ino steps).graph.nextEdge ≤ 2 ^ 32)
    (hstay : ∀ k now op, steps[k]? = some (.mutate now op) →
      ∀ x ∈ (((ReaddirSeries.start g).replay ino (steps.take k)).graph.entryIds d).take
          ((ReaddirSeries.start g).replay ino (steps.take k)).offset,
        x ∈ ((ReaddirSeries.start g).replay ino (steps.take (k + 1))).graph.entryIds d)
    {e : EdgeId} {t : InodeId} {n : String}
    (hpresent : ∀ k ≤ steps.length,
      (e, t, n) ∈ ((ReaddirSeries.start g).replay ino (steps.take k)).graph.dirEntries d) :
    (shownAs n ((ReaddirSeries.start g).replay ino steps).returned).length ≤ 1 ∧
      (((ReaddirSeries.start g).replay ino steps).ended = true →
        shownAs n ((ReaddirSeries.start g).replay ino steps).returned = [t]) := by
  have hresumes : ∀ k ≤ steps.length,
      ((ReaddirSeries.start g).replay ino (steps.take k)).graph.nextEdge ≤ 2 ^ 32 →
        ((ReaddirSeries.start g).replay ino (steps.take k)).Resumes ino d e t n := by
    intro k hk hle
    induction k with
    | zero => exact .start (hg.namesFiled hle) (hg.dirForInode_lt hle hdir) hdir
    | succ k ih =>
        have hlt : k < steps.length := hk
        rw [ReaddirSeries.replay_take_succ hlt] at hle ⊢
        have hold := ih (Nat.le_of_lt hlt) ((ReaddirSeries.step_nextEdge hle).trans hle)
        have hentry := hpresent k (Nat.le_of_lt hlt)
        cases hstep : steps[k] with
        | read full => exact hold.read hentry full
        | setCapCtx ctx =>
            exact
              { filed := hold.filed.congr rfl rfl rfl rfl le_rfl
                issued := hold.issued
                home := hold.home
                offset_le := hold.offset_le
                returned := hold.returned
                ended := hold.ended }
        | mutate now op =>
            rw [hstep] at hle
            have hthere := hstay k now op (by rw [List.getElem?_eq_getElem hlt, hstep])
            rw [ReaddirSeries.replay_take_succ hlt, hstep] at hthere
            exact hold.mutate (op.grown now _ hle)
              (TypeGraph.NamesFiled.apply (fun _ => hold.filed) op hle) hthere
  have hlast := hresumes steps.length le_rfl (by rwa [List.take_length])
  rw [List.take_length] at hlast
  constructor
  · rw [hlast.returned]
    split <;> simp
  · intro hended
    rw [hlast.returned, if_pos (hlast.ended hended)]

/-- A root directory with two files. -/
def twoFiles : TypeGraph :=
  (TypeGraph.new 0).calls (fun _ => 0) [.createFile 1 "a" 0 0 ⟨0o644⟩, .createFile 1 "b" 0 0 ⟨0o644⟩]

/-- One entry is returned, then a file is created and an entry that was not returned yet is removed. -/
def quietSeries : List SeriesStep :=
  [.read fun reply _ => decide (1 ≤ reply.length), .mutate (fun _ => 0) (.createFile 1 "c" 0 0 ⟨0o644⟩),
    .mutate (fun _ => 0) (.unlink 1 "a"), .read fun _ _ => false, .read fun _ _ => false]

theorem twoFiles_reachable : Reachable twoFiles :=
  Run.calls _ (.new 0) (by decide)

theorem readdir_returns_once_sample :
    shownAs "b" ((ReaddirSeries.start twoFiles).replay 1 quietSeries).returned = [3] := by
  refine (readdir_returns_once twoFiles_reachable (d := 1) (by decide) quietSeries (by decide) ?_ (e := 3) (t := 3)
    (n := "b") (by decide)).2 (by decide)
  intro k now op hstep
  have hk : k < 5 := (List.getElem?_eq_some_iff.mp hstep).1
  interval_cases k
  · cases hstep
  · decide
  · decide
  · cases hstep
  · cases hstep

/-- Two entries are returned, the second one is removed, and the series goes on to its end: the third entry
    was there all the time and is never returned. -/
theorem readdir_skips_entry :
    Reachable twoFiles ∧
    (∀ k ≤ 3, (3, 3, "b") ∈ ((ReaddirSeries.start twoFiles).replay 1
      ([SeriesStep.read fun reply _ => decide (2 ≤ reply.length), .mutate (fun _ => 0) (.unlink 1 "a"),
        .read fun _ _ => false].take k)).graph.dirEntries 1) ∧
    ((ReaddirSeries.start twoFiles).replay 1
      [SeriesStep.read fun reply _ => decide (2 ≤ reply.length), .mutate (fun _ => 0) (.unlink 1 "a"),
        .read fun _ _ => false]).ended = true ∧
    shownAs "b" ((ReaddirSeries.start twoFiles).replay 1
      [SeriesStep.read fun reply _ => decide (2 ≤ reply.length), .mutate (fun _ => 0) (.unlink 1 "a"),
        .read fun _ _ => false]).returned = [] :=
  ⟨twoFiles_reachable, by decide, by decide, by decide⟩

end SotFs
