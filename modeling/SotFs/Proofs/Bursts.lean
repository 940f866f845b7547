/-
Module: SotFs.Proofs.Bursts
Layer: Proofs
Purpose: What the burst detector covers. The loop makes the windows from its start up to the end of the window
  that the last timestamp falls in, so it counts every timestamp in that range once, and ends if that range
  fits in 64 bits. The log need not be in order: the range starts at its first entry and not at its earliest.
Trusted boundary: none
Main exports: sweepStop, BurstsComplete, BurstsInRange, burstDetect_complete_iff
-/
import SotFs.Core.Provenance

namespace SotFs

section Sweep

variable {relevant : List Timestamp} {tMax windowSize t : Nat}

/-- Where the windows from `t` on end: after the window with `tMax` in it, or at once if `t` is past it. -/
def sweepStop (tMax windowSize t : Nat) : Nat :=
  if tMax < t then t else t + ((tMax - t) / windowSize + 1) * windowSize

theorem sweepStop_of_lt (hpast : tMax < t) : sweepStop tMax windowSize t = t := if_pos hpast

/-- The first window and those after it end where all of them do. -/
theorem sweepStop_step (hsize : 0 < windowSize) (hle : t ≤ tMax) :
    sweepStop tMax windowSize (t + windowSize) = sweepStop tMax windowSize t := by
  rw [sweepStop, sweepStop, if_neg (Nat.not_lt.mpr hle)]
  split
  · rename_i hpast
    rw [Nat.div_eq_of_lt (by omega)]
    omega
  · rename_i hnot
    have hsplit : tMax - t = tMax - (t + windowSize) + windowSize := by omega
    rw [hsplit, Nat.add_div_right _ hsize]
    ring

theorem le_sweepStop (tMax windowSize t : Nat) : t ≤ sweepStop tMax windowSize t := by
  unfold sweepStop
  split <;> omega

/-- Counting over two ranges that meet. -/
theorem countP_ranges (relevant : List Timestamp) {s m e : Nat} (hsm : s ≤ m) (hme : m ≤ e) :
    relevant.countP (fun ts => s ≤ ts && ts < e) =
      relevant.countP (fun ts => s ≤ ts && ts < m) + relevant.countP (fun ts => m ≤ ts && ts < e) := by
  induction relevant with
  | nil => rfl
  | cons ts rest ih =>
      simp only [List.countP_cons, ih, Bool.and_eq_true, decide_eq_true_eq]
      -- the element is in one of the two ranges or in none
      split_ifs <;> omega

/-- The windows are those of a sweep from `t`: in order, apart, and each with the count of what is in it. -/
structure Sweeps (relevant : List Timestamp) (tMax windowSize t : Nat) (windows : List (Nat × Nat)) :
    Prop where
  start_le : ∀ w ∈ windows, t ≤ w.1
  apart : windows.Pairwise fun w w' => w.1 + windowSize ≤ w'.1
  counted : ∀ w ∈ windows, w.2 = relevant.countP fun ts => w.1 ≤ ts && ts < w.1 + windowSize
  total : (windows.map Prod.snd).sum =
    relevant.countP fun ts => t ≤ ts && ts < sweepStop tMax windowSize t

/-- Past the last timestamp there is nothing to sweep. -/
theorem Sweeps.nil (hpast : tMax < t) : Sweeps relevant tMax windowSize t [] where
  start_le w hw := absurd hw List.not_mem_nil
  apart := .nil
  counted w hw := absurd hw List.not_mem_nil
  total := by
    rw [sweepStop_of_lt hpast, List.map_nil, List.sum_nil, eq_comm, List.countP_eq_zero]
    intro ts _ hin
    rw [Bool.and_eq_true, decide_eq_true_eq, decide_eq_true_eq] at hin
    omega

/-- One more window in front, kept if anything is in it. -/
theorem Sweeps.cons (hsize : 0 < windowSize) (hle : t ≤ tMax) {windows : List (Nat × Nat)}
    (h : Sweeps relevant tMax windowSize (t + windowSize) windows) :
    Sweeps relevant tMax windowSize t
      (if 0 < relevant.countP (fun ts => t ≤ ts && ts < t + windowSize) then
        (t, relevant.countP fun ts => t ≤ ts && ts < t + windowSize) :: windows else windows) := by
  have htotal := countP_ranges relevant (Nat.le_add_right t windowSize)
    (le_sweepStop tMax windowSize (t + windowSize))
  rw [sweepStop_step hsize hle] at htotal
  split
  · refine ⟨?_, ?_, ?_, ?_⟩
    · intro w hw
      rcases List.mem_cons.mp hw with rfl | hw
      · exact le_rfl
      · exact (Nat.le_add_right _ _).trans (h.start_le w hw)
    · exact List.pairwise_cons.mpr ⟨h.start_le, h.apart⟩
    · intro w hw
      rcases List.mem_cons.mp hw with rfl | hw
      · rfl
      · exact h.counted w hw
    · rw [List.map_cons, List.sum_cons, h.total, htotal, sweepStop_step hsize hle]
  · rename_i hempty
    refine ⟨fun w hw => (Nat.le_add_right _ _).trans (h.start_le w hw), h.apart, h.counted, ?_⟩
    rw [h.total, htotal, sweepStop_step hsize hle]
    omega

/-- The loop ends with its sweep if the end of its last window fits in 64 bits. -/
theorem burstFrom_sweeps (relevant : List Timestamp) (hsize : 0 < windowSize) (hfits : sweepStop tMax windowSize t < 2 ^ 64) :
    ∃ windows, burstFrom relevant tMax windowSize t = some windows ∧
      Sweeps relevant tMax windowSize t windows := by
  fun_induction burstFrom relevant tMax windowSize t with
  | case1 t hpast => exact ⟨[], rfl, .nil hpast⟩
  | case2 t _ hzero => exact absurd hzero hsize.ne'
  | case3 t hle _ hover =>
      have hstop := sweepStop_step hsize (Nat.not_lt.mp hle) ▸
        le_sweepStop tMax windowSize (t + windowSize)
      omega
  | case4 t hle _ hnot count ih =>
      obtain ⟨windows, heq, hsweeps⟩ := ih (by rwa [sweepStop_step hsize (Nat.not_lt.mp hle)])
      exact ⟨_, by rw [heq, Option.map_some], hsweeps.cons hsize (Nat.not_lt.mp hle)⟩

/-- Otherwise it runs into a sum that does not fit. -/
theorem burstFrom_overflows (hsize : 0 < windowSize) (hle : t ≤ tMax)
    (hover : 2 ^ 64 ≤ sweepStop tMax windowSize t) : burstFrom relevant tMax windowSize t = none := by
  fun_induction burstFrom relevant tMax windowSize t with
  | case1 t hpast => omega
  | case2 t _ hzero => rfl
  | case3 t _ _ _ => rfl
  | case4 t _ _ hnot count ih =>
      rw [ih ?_ (by rwa [sweepStop_step hsize hle]), Option.map_none]
      by_contra hpast
      rw [← sweepStop_step hsize hle, sweepStop_of_lt (by omega)] at hover
      exact hnot hover

end Sweep

section Detector

variable {log : ProvenanceLog} {inodeId : InodeId} {windowSize : Nat}

/-- The detector ends without an overflow, its windows are apart and in order, and its counts add up to the
    number of entries of the inode. -/
def BurstsComplete (log : ProvenanceLog) (inodeId : InodeId) (windowSize : Nat) : Prop :=
  ∃ windows, burstDetect log inodeId windowSize = some windows ∧
    windows.Pairwise (fun w w' => w.1 + windowSize ≤ w'.1) ∧
      (windows.map Prod.snd).sum = (log.filter fun e => e.inodeId = inodeId).length

/-- No entry of the inode is earlier than the first one in the log, or later than the window that the last one
    in the log falls in; and that window ends below 2^64. -/
def BurstsInRange (log : ProvenanceLog) (inodeId : InodeId) (windowSize : Nat) : Prop :=
  ∀ first last, (burstTimes log inodeId).head? = some first → (burstTimes log inodeId).getLast? = some last →
    (∀ ts ∈ burstTimes log inodeId, first ≤ ts ∧ ts < sweepStop last windowSize first) ∧
      sweepStop last windowSize first < 2 ^ 64

theorem length_burstTimes :
    (burstTimes log inodeId).length = (log.filter fun e => e.inodeId = inodeId).length :=
  List.length_map _

/-- The detector is complete exactly on the logs in range. -/
theorem burstDetect_complete_iff (log : ProvenanceLog) (inodeId : InodeId) (hsize : 1 ≤ windowSize) :
    BurstsComplete log inodeId windowSize ↔ BurstsInRange log inodeId windowSize := by
  unfold BurstsComplete BurstsInRange burstDetect
  rw [← length_burstTimes]
  cases htimes : burstTimes log inodeId with
  | nil => exact iff_of_true ⟨[], rfl, .nil, rfl⟩ fun _ _ hfirst => absurd hfirst (by simp)
  | cons first rest =>
      dsimp only
      have hne := List.cons_ne_nil first rest
      have hlast := List.getLast?_eq_some_getLast hne
      generalize (first :: rest).getLast hne = last at hlast
      rw [hlast, List.head?_cons]
      constructor
      · rintro ⟨windows, heq, _, hsum⟩ _ _ ⟨⟩ ⟨⟩
        have hle : first ≤ last := by
          by_contra hpast
          rw [burstFrom, if_pos (Nat.not_le.mp hpast)] at heq
          cases heq
          cases hsum
        have hfits : sweepStop last windowSize first < 2 ^ 64 := by
          by_contra hover
          rw [burstFrom_overflows hsize hle (Nat.not_lt.mp hover)] at heq
          cases heq
        obtain ⟨windows', heq', hsweeps⟩ := burstFrom_sweeps (first :: rest) hsize hfits
        rw [heq] at heq'
        cases heq'
        rw [hsweeps.total, List.countP_eq_length] at hsum
        exact ⟨fun ts hts => by simpa using hsum ts hts, hfits⟩
      · intro h
        obtain ⟨hall, hfits⟩ := h first last rfl rfl
        obtain ⟨windows, heq, hsweeps⟩ := burstFrom_sweeps (first :: rest) hsize hfits
        refine ⟨windows, heq, hsweeps.apart, ?_⟩
        rw [hsweeps.total, List.countP_eq_length]
        intro ts hts
        simpa using hall ts hts

/-- One entry for each timestamp, all of one inode. -/
def entriesAt (times : List Timestamp) : ProvenanceLog :=
  times.map fun t => ⟨t, .write, 2, none, 0, ""⟩

/-- Two entries in one window. -/
theorem burstDetect_complete_pair :
    BurstsComplete (entriesAt [10, 12]) 2 5 ↔ BurstsInRange (entriesAt [10, 12]) 2 5 :=
  burstDetect_complete_iff _ 2 (by decide)

/-- After the clock has stepped back, the entry before the step is in no window. -/
theorem burst_escapes : ¬ BurstsComplete (entriesAt [10, 3]) 2 5 := by
  rintro ⟨windows, heq, _, hsum⟩
  rw [show burstDetect (entriesAt [10, 3]) 2 5 = burstFrom [10, 3] 3 5 10 from rfl, burstFrom,
    if_pos (by decide)] at heq
  cases heq
  exact absurd hsum (by decide)

end Detector

end SotFs
