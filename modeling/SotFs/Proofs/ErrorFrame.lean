/-
Module: SotFs.Proofs.ErrorFrame
Layer: Proofs
Purpose: A call that returns an error leaves the whole graph as it was: every error exit lies before the
  first mutation or cannot be reached after it. For rename the invariant is needed, since its later searches
  only succeed because its first ones did.
Trusted boundary: none
Main exports: KeptOnErr, Op.err_unchanged
-/
import SotFs.Proofs.Preservation

namespace SotFs

/-- If the call returned an error, the graph is `g`. -/
def KeptOnErr {α : Type} (g : TypeGraph) (r : Outcome α × TypeGraph) : Prop :=
  ∀ e, r.1 = .err e → r.2 = g

section KeptOnErr

variable {α β : Type} {g : TypeGraph}

/-- A failed call that never touched the graph. -/
theorem KeptOnErr.untouched {r : Outcome α × TypeGraph}
    (h : ∃ o, o.Failed ∧ r = (o, g)) : KeptOnErr g r := by
  obtain ⟨o, _, rfl⟩ := h
  exact fun _ _ => rfl

/-- A call that succeeds returns no error. -/
theorem KeptOnErr.ok (a : α) (g' : TypeGraph) : KeptOnErr g (.ok a, g') := by
  intro e herr
  cases herr

theorem KeptOnErr.panic (g' : TypeGraph) : KeptOnErr g ((.panic : Outcome α), g') := by
  intro e herr
  cases herr

/-- Charging quotas and logging returns no error. -/
theorem KeptOnErr.settle (g' : TypeGraph) (d : DirId) (deltaInodes : Int) (now : Timestamp) (op : ProvOp)
    (inodeId : InodeId) (detail : String) (value : α) :
    KeptOnErr g (g'.settle d deltaInodes now op inodeId detail value) := by
  intro e herr
  unfold TypeGraph.settle at herr
  split at herr <;> cases herr

/-- Renaming the value does not turn a success into an error. -/
theorem KeptOnErr.map {f : α → β} {r : Outcome α × TypeGraph} (h : KeptOnErr g r) :
    KeptOnErr g (r.map (Outcome.map f) id) := by
  obtain ⟨o, g'⟩ := r
  intro e herr
  cases o with
  | err e' => exact h e' rfl
  | _ => cases herr

end KeptOnErr

section Calls

variable {g : TypeGraph} {now : Nat → Timestamp}

/-- The namespace calls keep the graph on an error. -/
theorem Inv.keptOnErr_rename (h : Inv g) (sd : DirId) (sn : String) (dd : DirId) (dn : String) :
    KeptOnErr g (rename now sd sn dd dn g) := by
  rcases rename_spec now sd sn dd dn h with
    hfail | ⟨_, _, g', _, heq⟩
  · exact .untouched hfail
  · rw [heq]
    exact .ok _ _

/-- Every call on a graph with the invariant keeps it on an error, whatever its arguments. -/
theorem Inv.keptOnErr (h : Inv g) (op : Op) : KeptOnErr g (op.apply now g) := by
  cases op with
  | createFile d n u gr p =>
      rw [Op.apply]
      refine KeptOnErr.map ?_
      rcases createFile_cases now d n u gr p g with
        hfail | ⟨_, _, _, _, _, heq⟩
      · exact .untouched hfail
      · rw [heq]
        exact .settle _ _ _ _ _ _ _ _
  | mkdir d n u gr p =>
      rw [Op.apply]
      refine KeptOnErr.map ?_
      rcases mkdir_cases now d n u gr p g with
        hfail | ⟨_, _, _, _, _, _, heq⟩
      · exact .untouched hfail
      · rw [heq]
        exact .settle _ _ _ _ _ _ _ _
  | rmdir d n =>
      rw [Op.apply]
      refine KeptOnErr.map ?_
      rcases rmdir_cases now d n g with
        hfail | ⟨_, _, _, _, _, _, _, _, _, _, heq⟩
      · exact .untouched hfail
      · rw [heq]
        exact .settle _ _ _ _ _ _ _ _
  | link d n t =>
      rw [Op.apply]
      refine KeptOnErr.map ?_
      rcases link_cases now d n t g with
        hfail | ⟨_, _, _, _, _, _, _, heq⟩
      · exact .untouched hfail
      · rw [heq]
        exact .ok _ _
  | unlink d n =>
      rw [Op.apply]
      refine KeptOnErr.map ?_
      rcases unlink_cases now d n g with
        hfail | ⟨_, _, _, _, _, _, _, _, _, _, ⟨_, heq⟩ | ⟨_, heq⟩⟩
      · exact .untouched hfail
      · rw [heq]
        exact .ok _ _
      · rw [heq]
        exact .settle _ _ _ _ _ _ _ _
  | rename sd sn dd dn => exact (h.keptOnErr_rename sd sn dd dn).map
  | symlink d n t u gr =>
      rw [Op.apply]
      refine KeptOnErr.map ?_
      rcases symlink_cases now d n t u gr g with
        hfail | ⟨_, _, _, _, _, heq⟩
      · exact .untouched hfail
      · rw [heq]
        exact .settle _ _ _ _ _ _ _ _
  | writeBlock t o s c =>
      rw [Op.apply]
      refine KeptOnErr.map ?_
      rcases writeBlock_cases t o s c g with
        hfail | ⟨_, _, heq⟩
      · exact .untouched hfail
      · rw [heq]
        exact .ok _ _
  | writeData t o b =>
      rw [Op.apply]
      refine KeptOnErr.map ?_
      rcases writeData_cases now t o b g with
        ⟨e, heq⟩ | ⟨_, _, _, ⟨buf, heq⟩ | ⟨buf, heq⟩⟩
      · exact .untouched ⟨_, Outcome.failed_err e, heq⟩
      · rw [heq]
        exact .panic _
      · rw [heq]
        exact .ok _ _
  | truncate t s =>
      rw [Op.apply]
      refine KeptOnErr.map ?_
      rcases truncate_cases now t s g with
        ⟨e, heq⟩ | ⟨_, _, _, ⟨buf, heq⟩ | heq⟩
      · exact .untouched ⟨_, Outcome.failed_err e, heq⟩
      · rw [heq]
        exact .panic _
      · rw [heq]
        exact .ok _ _
  | chmod t m =>
      rw [Op.apply]
      refine KeptOnErr.map ?_
      rcases chmod_cases now t m g with hfail | ⟨_, heq⟩
      · exact .untouched hfail
      · rw [heq]
        exact .ok _ _
  | chown t u gr =>
      rw [Op.apply]
      refine KeptOnErr.map ?_
      rcases chown_cases now t u gr g with hfail | ⟨_, heq⟩
      · exact .untouched hfail
      · rw [heq]
        exact .ok _ _
  | setxattr t ns n v =>
      rw [Op.apply]
      refine KeptOnErr.map ?_
      rcases setxattr_cases now t ns n v g with
        hfail | ⟨_, _, _, ⟨_, _, heq⟩ | ⟨_, heq⟩⟩
      · exact .untouched hfail
      · rw [heq]
        exact .ok _ _
      · rw [heq]
        exact .ok _ _
  | removexattr t ns n =>
      rw [Op.apply]
      refine KeptOnErr.map ?_
      rcases removexattr_cases now t ns n g with
        hfail | ⟨_, _, _, _, heq⟩
      · exact .untouched hfail
      · rw [heq]
        exact .ok _ _
  | setacl t es =>
      rw [Op.apply]
      refine KeptOnErr.map ?_
      rcases setacl_cases now t es g with hfail | ⟨_, _, heq⟩
      · exact .untouched hfail
      · rw [heq]
        exact .ok _ _
  | setQuota d il bl =>
      rw [Op.apply]
      refine KeptOnErr.map ?_
      rcases setQuota_cases d il bl g with hfail | ⟨_, _, heq⟩
      · exact .untouched hfail
      · rw [heq]
        exact .ok _ _

end Calls

/-- A call on a reachable graph that returns an error leaves every field of the graph as it was. -/
theorem Op.err_unchanged {g : TypeGraph} (hg : Reachable g) (now : Nat → Timestamp) (op : Op)
    {e : GraphError} (herr : (op.apply now g).1 = .err e) : (op.apply now g).2 = g :=
  hg.inv.keptOnErr op e herr

/-- A directory renamed onto one that is not empty: both stay. -/
theorem Op.err_unchanged_occupied :
    let now := fun _ => 0
    let g := (TypeGraph.new 0).calls now
      [.mkdir 1 "a" 0 0 .dirDefault, .mkdir 1 "b" 0 0 .dirDefault, .createFile 3 "c" 0 0 .fileDefault]
    ((Op.rename 1 "a" 1 "b").apply now g).2 = g :=
  Op.err_unchanged (e := .dirNotEmpty 3) (Run.calls _ (.new 0) (by decide)) _ _ (by decide)

end SotFs
