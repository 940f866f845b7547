/-
Module: SotFs.Proofs.AuditFlush
Layer: Proofs
Purpose: What becomes of recorded audit entries. A flush whose writes all succeed moves the log to the end of
  the sidecar, entry by entry and in order; any other flush of a nonempty log drops entries that are in neither
  place. The two step lemmas give the condition under which no run of records and flushes loses an entry.
Trusted boundary: none
Main exports: AllWritten, Flushes, Recorder.Kept, kept_iff
-/
import SotFs.Core.Sidecar

namespace SotFs

variable {toJson : ProvenanceEntry → Option (List UInt8)}

/-- Every entry is encoded, and the write of every line succeeds. -/
def AllWritten (toJson : ProvenanceEntry → Option (List UInt8)) (entries : List ProvenanceEntry)
    (writes : Nat → Option Nat) : Prop :=
  (∀ e ∈ entries, (toJson e).isSome = true) ∧ ∀ k < entries.length, writes k = none

/-- If the flush finds anything to write, the file opens and all of it is written. -/
def Flushes (toJson : ProvenanceEntry → Option (List UInt8)) (env : FlushEnv) (g : TypeGraph) : Prop :=
  env.configured = true → ∀ log : ProvenanceLog, g.provLog = some log → log ≠ [] →
    env.opened = true ∧ AllWritten toJson log env.writes

/-- The lines of a list of entries. -/
def linesOf (toJson : ProvenanceEntry → Option (List UInt8)) (entries : List ProvenanceEntry) : List UInt8 :=
  entries.flatMap fun e => ((toJson e).map jsonLine).getD []

/-! ### The loop over the entries -/

theorem AllWritten.tail {e : ProvenanceEntry} {entries : List ProvenanceEntry} {writes : Nat → Option Nat}
    (h : AllWritten toJson (e :: entries) writes) : AllWritten toJson entries fun k => writes (k + 1) := by
  refine ⟨fun e' he' => h.1 e' (List.mem_cons_of_mem e he'), fun k hk => h.2 (k + 1) ?_⟩
  simpa using hk

theorem writeLines_all {entries : List ProvenanceEntry} {writes : Nat → Option Nat}
    (h : AllWritten toJson entries writes) (f : Sidecar) :
    writeLines toJson entries writes f =
      ⟨f.bytes ++ linesOf toJson entries, f.written ++ entries⟩ := by
  induction entries generalizing writes f with
  | nil => simp [writeLines, linesOf]
  | cons e entries ih =>
      have hfirst : writes 0 = none := h.2 0 (by simp)
      cases hjson : toJson e with
      | none => simpa [hjson] using h.1 e List.mem_cons_self
      | some json =>
          simp only [writeLines, hjson, hfirst]
          rw [ih h.tail]
          simp [linesOf, hjson]

/-- A loop that fails leaves at least the entry it failed at unwritten. -/
theorem writeLines_cut {entries : List ProvenanceEntry} {writes : Nat → Option Nat}
    (h : ¬ AllWritten toJson entries writes) (f : Sidecar) :
    ∃ k < entries.length, (writeLines toJson entries writes f).written = f.written ++ entries.take k := by
  induction entries generalizing writes f with
  | nil => exact absurd ⟨by simp, by simp⟩ h
  | cons e entries ih =>
      cases hjson : toJson e with
      | none => exact ⟨0, by simp, by simp [writeLines, hjson]⟩
      | some json =>
          cases hfirst : writes 0 with
          | some n => exact ⟨0, by simp, by simp [writeLines, hjson, hfirst]⟩
          | none =>
              have hrest : ¬ AllWritten toJson entries fun k => writes (k + 1) := by
                rintro ⟨hencoded, hwritten⟩
                refine h ⟨?_, ?_⟩
                · intro e' he'
                  rcases List.mem_cons.1 he' with rfl | he'
                  · simp [hjson]
                  · exact hencoded e' he'
                · intro k hk
                  cases k with
                  | zero => exact hfirst
                  | succ k => exact hwritten k (by simpa using hk)
              obtain ⟨k, hk, hwritten⟩ := ih hrest ⟨f.bytes ++ jsonLine json, f.written ++ [e]⟩
              refine ⟨k + 1, by simpa using hk, ?_⟩
              simp only [writeLines, hjson, hfirst]
              rw [hwritten]
              simp

/-! ### One step -/

namespace Recorder

/-- The entries in the log of the graph. -/
def log (s : Recorder) : ProvenanceLog := s.graph.provLog.getD []

/-- Every entry recorded is in the log or in the sidecar, in one of the two and once, and the sidecar is
    made of whole lines. -/
structure Kept (toJson : ProvenanceEntry → Option (List UInt8)) (s : Recorder) : Prop where
  entries : s.recorded.Perm (s.sidecar.written ++ s.log)
  lines : s.sidecar.bytes = linesOf toJson s.sidecar.written

/-- What holds as long as no flush fails: the recorded entries are those of the sidecar followed by those of
    the log, oldest first. -/
structure InOrder (toJson : ProvenanceEntry → Option (List UInt8)) (s : Recorder) : Prop where
  enabled : s.graph.provLog.isSome = true
  entries : s.recorded = s.sidecar.written ++ s.log
  lines : s.sidecar.bytes = linesOf toJson s.sidecar.written

theorem InOrder.kept {s : Recorder} (h : s.InOrder toJson) : s.Kept toJson :=
  ⟨h.entries ▸ List.Perm.refl _, h.lines⟩

theorem inOrder_start (g : TypeGraph) : (start g).InOrder toJson := ⟨rfl, rfl, rfl⟩

/-- A flush that is not configured, or finds nothing to write, changes nothing; one that writes everything
    moves the log to the sidecar. -/
theorem InOrder.persist {s : Recorder} {env : FlushEnv} (h : s.InOrder toJson)
    (hflushes : Flushes toJson env s.graph) : (s.step toJson (.persist env)).InOrder toJson := by
  by_cases hconfigured : env.configured = true
  · obtain ⟨log, hlog⟩ := Option.isSome_iff_exists.1 h.enabled
    by_cases hempty : log = []
    · have hsame : s.step toJson (.persist env) = s := by simp [step, flushProvLog, hlog, hempty]
      rw [hsame]
      exact h
    · obtain ⟨hopened, hall⟩ := hflushes hconfigured log hlog hempty
      have hentries : s.recorded = s.sidecar.written ++ log := by
        have := h.entries
        rwa [Recorder.log, hlog] at this
      have hdone : s.step toJson (.persist env) =
          { s with
            graph := { s.graph with provLog := some [] }
            sidecar := ⟨s.sidecar.bytes ++ linesOf toJson log, s.sidecar.written ++ log⟩ } := by
        simp [step, flushProvLog, hconfigured, hlog, hempty, ProvenanceLog.drain, hopened, writeLines_all hall]
      rw [hdone]
      refine ⟨rfl, ?_, ?_⟩
      · simpa [Recorder.log] using hentries
      · simp [h.lines, linesOf]
  · have hsame : s.step toJson (.persist env) = s := by simp [step, flushProvLog, hconfigured]
    rw [hsame]
    exact h

theorem InOrder.record {s : Recorder} (h : s.InOrder toJson) (now : Timestamp) (op : ProvOp)
    (inodeId : InodeId) (detail : String) :
    (s.step toJson (.record now op inodeId detail)).InOrder toJson := by
  obtain ⟨log, hlog⟩ := Option.isSome_iff_exists.1 h.enabled
  have hentries := h.entries
  rw [Recorder.log, hlog] at hentries
  refine ⟨by simp [step, TypeGraph.recordProv, hlog], ?_, h.lines⟩
  simp [step, TypeGraph.recordProv, Recorder.log, hlog, hentries]

/-- A flush that does not write everything loses entries for good: fewer are left than were. -/
theorem persist_loses {s : Recorder} {env : FlushEnv} (hfails : ¬ Flushes toJson env s.graph) :
    (s.step toJson (.persist env)).sidecar.written.length + (s.step toJson (.persist env)).log.length <
      s.sidecar.written.length + s.log.length := by
  simp only [Flushes, not_forall] at hfails
  obtain ⟨hconfigured, log, hlog, hne, hnot⟩ := hfails
  have hpos : 0 < log.length := List.length_pos_of_ne_nil hne
  cases hopened : env.opened with
  | false => simpa [step, flushProvLog, Recorder.log, hconfigured, hlog, hne, ProvenanceLog.drain, hopened] using hpos
  | true =>
      have hcut : ¬ AllWritten toJson log env.writes := fun hall => hnot ⟨hopened, hall⟩
      obtain ⟨k, hk, hwritten⟩ := writeLines_cut hcut s.sidecar
      simp [step, flushProvLog, Recorder.log, hconfigured, hlog, hne, ProvenanceLog.drain, hopened, hwritten]
      omega

/-- The step keeps the order of the entries unless it is a flush that fails. -/
theorem InOrder.step {s : Recorder} (h : s.InOrder toJson) (step : RecorderStep)
    (hflushes : ∀ env, step = .persist env → Flushes toJson env s.graph) :
    (s.step toJson step).InOrder toJson := by
  cases step with
  | setCapCtx ctx => exact ⟨h.enabled, h.entries, h.lines⟩
  | record now op inodeId detail => exact h.record now op inodeId detail
  | persist env => exact h.persist (hflushes env rfl)

/-! ### Runs -/

theorem replay_take_succ {s : Recorder} {steps : List RecorderStep} {n : Nat} (hn : n < steps.length) :
    s.replay toJson (steps.take (n + 1)) = (s.replay toJson (steps.take n)).step toJson steps[n] := by
  rw [replay, replay, List.take_succ_eq_append_getElem hn, List.foldl_append]
  rfl

theorem inOrder_replay {g : TypeGraph} {steps : List RecorderStep}
    (hflushes : ∀ n env, steps[n]? = some (.persist env) →
      Flushes toJson env ((start g).replay toJson (steps.take n)).graph) (n : Nat) :
    ((start g).replay toJson (steps.take n)).InOrder toJson := by
  induction n with
  | zero => exact inOrder_start g
  | succ n ih =>
      by_cases hn : n < steps.length
      · rw [replay_take_succ hn]
        refine ih.step _ fun env heq => hflushes n env ?_
        rw [List.getElem?_eq_getElem hn, heq]
      · rwa [List.take_of_length_le (by omega), ← List.take_of_length_le (Nat.le_of_not_lt hn)]

end Recorder

/-- In a run of records and flushes every entry ever recorded is in the log or whole in the sidecar after
    each step, and none is written twice, exactly if every flush that finds entries opens the file and writes
    all of them. -/
theorem kept_iff (toJson : ProvenanceEntry → Option (List UInt8)) (g : TypeGraph)
    (steps : List RecorderStep) :
    (∀ n, ((Recorder.start g).replay toJson (steps.take n)).Kept toJson) ↔
      ∀ n env, steps[n]? = some (.persist env) →
        Flushes toJson env ((Recorder.start g).replay toJson (steps.take n)).graph := by
  constructor
  · intro hkept n env hstep
    by_contra hfails
    obtain ⟨hn, heq⟩ := List.getElem?_eq_some_iff.1 hstep
    have hbefore := (hkept n).entries.length_eq
    have hafter := (hkept (n + 1)).entries.length_eq
    have hloses := Recorder.persist_loses hfails
    rw [Recorder.replay_take_succ hn, heq] at hafter
    -- a flush records nothing, so the entries it loses stay recorded
    have hrecorded : (((Recorder.start g).replay toJson (steps.take n)).step toJson (.persist env)).recorded =
        ((Recorder.start g).replay toJson (steps.take n)).recorded := rfl
    rw [hrecorded] at hafter
    simp only [List.length_append] at hbefore hafter
    omega
  · intro hflushes n
    exact (Recorder.inOrder_replay hflushes n).kept

/-- One entry is recorded, and the sidecar does not open: the entry is in neither place. -/
theorem failed_open_loses_entry :
    ¬ ∀ (toJson : ProvenanceEntry → Option (List UInt8)) (g : TypeGraph) (steps : List RecorderStep) (n : Nat),
      ((Recorder.start g).replay toJson (steps.take n)).Kept toJson := by
  intro h
  have hkept := (h (fun e => some e.detail.toUTF8.data.toList) (.new 0)
    [.record 1 .create 2 "a", .persist ⟨true, false, fun _ => none⟩] 2).entries
  have hlost := hkept.length_eq
  simp [Recorder.replay, Recorder.step, Recorder.start, flushProvLog, ProvenanceLog.drain, Recorder.log,
    TypeGraph.recordProv, TypeGraph.enableProvLog] at hlost

end SotFs
