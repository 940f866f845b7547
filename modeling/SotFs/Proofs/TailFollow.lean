/-
Module: SotFs.Proofs.TailFollow
Layer: Proofs
Purpose: What the follower of the sidecar emits. As long as it meets the end of the file only at the end of a
  line, the bytes it has taken are whole lines and a piece without a newline, and its events are those of the
  whole lines; so every valid line is emitted once, in order, and none is lost. A piece of a line at the end
  of the file breaks this: it is taken for a line, or the next probe takes the file for a rewritten one and
  everything is emitted again.
Trusted boundary: none
Main exports: validEvents, Tail.AtEof, Tail.Delivers, tail_delivers
-/
import SotFs.Foundation.Lines
import SotFs.Core.Tail

namespace SotFs

open Foundation

variable {fromJson : String → Option ProvenanceEntry}

/-- The event of a line, if the line is valid. -/
def lineEvent (fromJson : String → Option ProvenanceEntry) (line : List UInt8) : Option HunterEvent :=
  (String.fromUTF8? ⟨line.toArray⟩).bind (emitLine fromJson)

/-- The events of the complete valid lines of a file, in file order. -/
def validEvents (fromJson : String → Option ProvenanceEntry) (file : List UInt8) : List HunterEvent :=
  (lines newline file).filterMap (lineEvent fromJson)

/-- Every complete line is UTF-8. -/
def Utf8Lines (file : List UInt8) : Prop :=
  ∀ line ∈ lines newline file, (String.fromUTF8? ⟨line.toArray⟩).isSome = true

theorem validEvents_isPrefix (fromJson : String → Option ProvenanceEntry) (file bytes : List UInt8) :
    validEvents fromJson file <+: validEvents fromJson (file ++ bytes) :=
  (lines_isPrefix file bytes).filterMap (lineEvent fromJson)

theorem validEvents_take_isPrefix (file : List UInt8) (n : Nat) :
    validEvents fromJson (file.take n) <+: validEvents fromJson file := by
  have := validEvents_isPrefix fromJson (file.take n) (file.drop n)
  rwa [List.take_append_drop] at this

/-- A piece without a newline adds no event. -/
theorem validEvents_piece {whole piece : List UInt8} (hwhole : EndsLine newline whole)
    (hpiece : newline ∉ piece) : validEvents fromJson (whole ++ piece) = validEvents fromJson whole := by
  rw [validEvents, lines_append hwhole, lines_eq_nil hpiece, List.append_nil, validEvents]

theorem validEvents_snoc {whole piece : List UInt8} (hwhole : EndsLine newline whole)
    (hpiece : newline ∉ piece) :
    validEvents fromJson (whole ++ (piece ++ [newline])) =
      validEvents fromJson whole ++ (lineEvent fromJson (piece ++ [newline])).toList := by
  rw [validEvents, lines_snoc hwhole hpiece, List.filterMap_append, validEvents]
  cases hevent : lineEvent fromJson (piece ++ [newline]) <;> simp [hevent]

theorem Utf8Lines.of_append {file bytes : List UInt8} (h : Utf8Lines (file ++ bytes)) : Utf8Lines file :=
  fun line hline => h line ((lines_isPrefix file bytes).subset hline)

namespace Tail

/-- The next read finds the end of the file. -/
def AtEof (s : Tail) : Prop :=
  ∃ first r, s.phase = .reading first r ∧ r.buffer = [] ∧ s.file.length ≤ r.pos

/-- The follower has taken whole lines and a piece without a newline, and has emitted the events of the whole
    lines; when it does not read, it has taken whole lines only. -/
def Taken (fromJson : String → Option ProvenanceEntry) (s : Tail) : Prop :=
  match s.phase with
  | .reading _ r => ∃ whole, s.file.take r.pos = whole ++ r.line ++ r.buffer ∧ r.pos ≤ s.file.length ∧
      EndsLine newline whole ∧ newline ∉ r.line ∧ s.emitted = validEvents fromJson whole
  | .asleep lastPos => lastPos ≤ s.file.length ∧ EndsLine newline (s.file.take lastPos) ∧
      s.emitted = validEvents fromJson (s.file.take lastPos)
  | .opened lastPos curLen => lastPos ≤ curLen ∧ curLen ≤ s.file.length ∧
      EndsLine newline (s.file.take lastPos) ∧ s.emitted = validEvents fromJson (s.file.take lastPos)
  | .exited => False

theorem taken_start (file : List UInt8) : (start file).Taken fromJson :=
  ⟨[], rfl, by simp, endsLine_nil, by simp, rfl⟩

section Phases

variable {s : Tail}

theorem Taken.of_reading {first : Bool} {r : Reader} (h : s.Taken fromJson)
    (hphase : s.phase = .reading first r) :
    ∃ whole, s.file.take r.pos = whole ++ r.line ++ r.buffer ∧ r.pos ≤ s.file.length ∧
      EndsLine newline whole ∧ newline ∉ r.line ∧ s.emitted = validEvents fromJson whole := by
  rwa [Taken, hphase] at h

theorem Taken.of_asleep {lastPos : Nat} (h : s.Taken fromJson) (hphase : s.phase = .asleep lastPos) :
    lastPos ≤ s.file.length ∧ EndsLine newline (s.file.take lastPos) ∧
      s.emitted = validEvents fromJson (s.file.take lastPos) := by
  rwa [Taken, hphase] at h

theorem Taken.of_opened {lastPos curLen : Nat} (h : s.Taken fromJson)
    (hphase : s.phase = .opened lastPos curLen) :
    lastPos ≤ curLen ∧ curLen ≤ s.file.length ∧ EndsLine newline (s.file.take lastPos) ∧
      s.emitted = validEvents fromJson (s.file.take lastPos) := by
  rwa [Taken, hphase] at h

theorem Taken.not_exited (h : s.Taken fromJson) : s.phase ≠ .exited := by
  intro hphase
  rwa [Taken, hphase] at h

end Phases

/-! ### One step -/

/-- Appended bytes come after everything that was taken. -/
theorem Taken.append {s : Tail} (h : s.Taken fromJson) (bytes : List UInt8) :
    (s.step fromJson (.append bytes)).Taken fromJson := by
  have htake : ∀ {n}, n ≤ s.file.length → (s.file ++ bytes).take n = s.file.take n := fun hn =>
    List.take_append_of_le_length hn
  unfold Taken
  simp only [step]
  cases hphase : s.phase with
  | reading first r =>
      obtain ⟨whole, htaken, hpos, hends, hpiece, hemitted⟩ := h.of_reading hphase
      exact ⟨whole, by rw [htake hpos, htaken], by simp; omega, hends, hpiece, hemitted⟩
  | asleep lastPos =>
      obtain ⟨hpos, hends, hemitted⟩ := h.of_asleep hphase
      exact ⟨by simp; omega, by rwa [htake hpos], by rw [htake hpos, hemitted]⟩
  | opened lastPos curLen =>
      obtain ⟨hpos, hlen, hends, hemitted⟩ := h.of_opened hphase
      have hle : lastPos ≤ s.file.length := by omega
      exact ⟨hpos, by simp; omega, by rwa [htake hle], by rw [htake hle, hemitted]⟩
  | exited => exact absurd hphase h.not_exited

/-- What one turn of `read_until` does: it meets the end of the file, takes a piece without a newline, or
    takes the rest of a line. -/
theorem readTurn_cases (fromJson : String → Option ProvenanceEntry) {s : Tail} {r : Reader}
    {before : List UInt8} (k : Nat) (first : Bool)
    (htaken : s.file.take r.pos = before ++ r.buffer) (hpos : r.pos ≤ s.file.length) :
    (r.buffer = [] ∧ s.file.length ≤ r.pos ∧
      s.readTurn fromJson k first r = s.lineRead fromJson first r) ∨
    ∃ pos piece, pos ≤ s.file.length ∧ newline ∉ piece ∧
      ((piece ≠ [] ∧ s.file.take pos = before ++ piece ∧
        s.file.length - pos < s.file.length - r.pos + r.buffer.length ∧
        s.readTurn fromJson k first r = { s with phase := .reading first ⟨pos, [], r.line ++ piece⟩ }) ∨
      ∃ rest, s.file.take pos = before ++ (piece ++ [newline]) ++ rest ∧
        s.file.length - pos + rest.length < s.file.length - r.pos + r.buffer.length ∧
        s.readTurn fromJson k first r =
          s.lineRead fromJson first ⟨pos, rest, r.line ++ piece ++ [newline]⟩) := by
  -- the bytes at hand and the position behind them
  obtain ⟨available, pos, havailable, hposeq, htake, hle, hcount⟩ : ∃ available pos,
      (if r.buffer.isEmpty then (s.file.drop r.pos).take (k + 1) else r.buffer) = available ∧
      (if r.buffer.isEmpty then r.pos + available.length else r.pos) = pos ∧
      s.file.take pos = before ++ available ∧ pos ≤ s.file.length ∧
      s.file.length - pos + available.length = s.file.length - r.pos + r.buffer.length := by
    by_cases hempty : r.buffer = []
    · refine ⟨(s.file.drop r.pos).take (k + 1), r.pos + ((s.file.drop r.pos).take (k + 1)).length,
        by simp [hempty], by simp [hempty], ?_, by simp; omega, by simp [hempty]; omega⟩
      rw [List.take_add, htaken, hempty, List.append_nil]
      congr 1
      rw [List.length_take, List.length_drop, ← List.take_take, List.take_take]
      apply List.take_eq_take_iff.2
      simp
    · exact ⟨r.buffer, r.pos, by simp [hempty], by simp [hempty], htaken, hpos, rfl⟩
  unfold readTurn
  simp only [havailable, hposeq]
  by_cases hnone : available = []
  · left
    have hbuffer : r.buffer = [] := by
      by_contra hne
      simp [hne] at havailable
      exact hne (havailable.trans hnone)
    refine ⟨hbuffer, ?_, by simp [hnone]⟩
    rw [hnone] at havailable
    have hdrop : s.file.drop r.pos = [] := by simpa [hbuffer] using havailable
    exact List.drop_eq_nil_iff.1 hdrop
  · right
    have hpos' : 0 < available.length := List.length_pos_of_ne_nil hnone
    obtain ⟨hpiece, hcases⟩ := takeWhile_ne_cases newline available
    refine ⟨pos, available.takeWhile (· ≠ newline), hle, hpiece, ?_⟩
    simp only [List.isEmpty_iff, hnone, if_false]
    rcases hcases with ⟨hall, hdrop⟩ | ⟨rest, hsplit, hdrop⟩
    · left
      rw [hdrop, hall]
      exact ⟨hnone, htake, by omega, rfl⟩
    · right
      rw [hdrop]
      have hlength := congrArg List.length hsplit
      refine ⟨rest, ?_, ?_, rfl⟩
      · rw [htake, List.append_assoc, List.append_assoc, List.singleton_append, ← hsplit]
      · simp at hlength
        omega

/-- A line that was taken from the file is one of its complete lines. -/
theorem mem_lines_of_take {file whole piece rest : List UInt8} {pos : Nat} (hends : EndsLine newline whole)
    (hpiece : newline ∉ piece) (htake : file.take pos = whole ++ (piece ++ [newline]) ++ rest) :
    piece ++ [newline] ∈ lines newline file := by
  rw [← List.take_append_drop pos file, htake, List.append_assoc]
  refine (lines_isPrefix _ _).subset ?_
  rw [lines_snoc hends hpiece]
  simp

/-- A whole line is read: its event is emitted, if it has one, and the next line begins. -/
theorem lineRead_whole {s : Tail} {r : Reader} {first : Bool} (piece : List UInt8) {buf : String}
    (hline : r.line = piece ++ [newline]) (hutf : String.fromUTF8? ⟨r.line.toArray⟩ = some buf) :
    s.lineRead fromJson first r =
      { s with
        phase := .reading first { r with line := [] }
        emitted := s.emitted ++ (lineEvent fromJson (piece ++ [newline])).toList } := by
  unfold lineRead
  have hne : r.line.isEmpty = false := by simp [hline]
  have hlast : r.line.getLast? = some newline := by simp [hline]
  simp only [hne, hutf, hlast, Bool.false_eq_true, if_false, ne_eq, not_true_eq_false, and_false]
  rw [lineEvent, ← hline, hutf]
  rfl

theorem Taken.readTurn {s : Tail} {first : Bool} {r : Reader} (h : s.Taken fromJson)
    (hphase : s.phase = .reading first r) (heof : s.AtEof → EndsLine newline s.file)
    (hutf : Utf8Lines s.file) (k : Nat) : (s.readTurn fromJson k first r).Taken fromJson := by
  obtain ⟨whole, htaken, hpos, hends, hpiece, hemitted⟩ := h.of_reading hphase
  rcases readTurn_cases fromJson k first htaken hpos with ⟨hbuffer, hlen, heq⟩ |
    ⟨pos, piece, hle, hno, ⟨-, htake, -, heq⟩ | ⟨rest, htake, -, heq⟩⟩
  · -- at the end of the file, which is the end of a line
    rw [hbuffer, List.append_nil] at htaken
    have hfile : s.file = whole ++ r.line := by rw [← htaken, List.take_of_length_le hlen]
    have hempty : r.line = [] := by
      by_contra hne
      have hlast := List.getLast?_eq_some_getLast hne
      have hend := heof ⟨first, r, hphase, hbuffer, hlen⟩ (r.line.getLast hne) (by
        rw [hfile, List.getLast?_append, hlast]
        rfl)
      exact hpiece (hend ▸ List.getLast_mem hne)
    rw [hempty, List.append_nil] at htaken
    have hasleep : s.readTurn fromJson k first r = { s with phase := .asleep r.pos } := by
      rw [heq, lineRead, hempty]
      rfl
    rw [hasleep]
    exact ⟨hpos, by rwa [htaken], by rw [htaken]; exact hemitted⟩
  · rw [heq]
    refine ⟨whole, by simpa using htake, hle, hends, ?_, hemitted⟩
    simp [hpiece, hno]
  · have hwhole : newline ∉ r.line ++ piece := by simp [hpiece, hno]
    have htaken' : s.file.take pos = whole ++ (r.line ++ piece ++ [newline]) ++ rest := by
      simpa using htake
    have hmem := mem_lines_of_take hends hwhole htaken'
    obtain ⟨buf, hbuf⟩ := Option.isSome_iff_exists.1 (hutf _ hmem)
    rw [heq, lineRead_whole (r.line ++ piece) rfl hbuf]
    refine ⟨whole ++ (r.line ++ piece ++ [newline]), by simpa using htaken', hle, ?_, by simp, ?_⟩
    · rw [← List.append_assoc]
      exact endsLine_snoc
    · rw [validEvents_snoc hends hwhole, ← hemitted]

/-- At the end of a line the probe finds a newline, so the position is kept. -/
theorem probe_keeps {s : Tail} {lastPos curLen : Nat} (hle : lastPos ≤ curLen)
    (hlen : curLen ≤ s.file.length) (hends : EndsLine newline (s.file.take lastPos)) :
    s.probe lastPos curLen =
      if curLen = lastPos then { s with phase := .asleep lastPos }
      else { s with phase := .reading false ⟨lastPos, [], []⟩ } := by
  unfold probe
  rw [if_neg (Nat.not_lt.2 hle)]
  by_cases hzero : 0 < lastPos
  · have hlast : (s.file.take lastPos).getLast? = s.file[lastPos - 1]? := by
      rw [List.getLast?_eq_getElem?, List.length_take, Nat.min_eq_left (by omega)]
      rw [List.getElem?_take, if_pos (by omega)]
    cases hbyte : s.file[lastPos - 1]? with
    | none => simp [hzero]
    | some b =>
        have hnl : b = newline := hends b (hlast.trans hbyte)
        simp [hzero, hnl]
  · simp [hzero]

theorem Taken.advance {s : Tail} (h : s.Taken fromJson) (heof : s.AtEof → EndsLine newline s.file)
    (hutf : Utf8Lines s.file) (k : Nat) : (s.advance fromJson k).Taken fromJson := by
  unfold Tail.advance
  cases hphase : s.phase with
  | reading first r => exact h.readTurn hphase heof hutf k
  | asleep lastPos =>
      obtain ⟨hle, hends, hemitted⟩ := h.of_asleep hphase
      exact ⟨hle, Nat.le_refl _, hends, hemitted⟩
  | opened lastPos curLen =>
      obtain ⟨hle, hlen, hends, hemitted⟩ := h.of_opened hphase
      simp only [probe_keeps hle hlen hends]
      split
      · exact ⟨by simp; omega, hends, hemitted⟩
      · exact ⟨s.file.take lastPos, by simp, by simp; omega, hends, by simp, hemitted⟩
  | exited => exact absurd hphase h.not_exited

/-- The follower alone: its first `n` steps, the `i`-th with a read of up to `ks i + 1` bytes. -/
def follow (fromJson : String → Option ProvenanceEntry) : (Nat → Nat) → Nat → Tail → Tail
  | _, 0, s => s
  | ks, n + 1, s => follow fromJson (fun i => ks (i + 1)) n (s.advance fromJson (ks 0))

/-- A turn of a reading loop leaves fewer bytes to be taken, unless all events are already out. -/
theorem Taken.readTurn_decreases {s : Tail} {first : Bool} {r : Reader} (h : s.Taken fromJson)
    (hphase : s.phase = .reading first r) (hutf : Utf8Lines s.file) (k : Nat) :
    (s.AtEof ∧ s.emitted = validEvents fromJson s.file) ∨
      ∃ r', (s.readTurn fromJson k first r).phase = .reading first r' ∧
        (s.readTurn fromJson k first r).file = s.file ∧
        s.file.length - r'.pos + r'.buffer.length < s.file.length - r.pos + r.buffer.length := by
  obtain ⟨whole, htaken, hpos, hends, hpiece, hemitted⟩ := h.of_reading hphase
  rcases readTurn_cases fromJson k first htaken hpos with ⟨hbuffer, hlen, -⟩ |
    ⟨pos, piece, hle, hno, ⟨-, -, hless, heq⟩ | ⟨rest, htake, hless, heq⟩⟩
  · left
    rw [hbuffer, List.append_nil] at htaken
    have hfile : s.file = whole ++ r.line := by rw [← htaken, List.take_of_length_le hlen]
    exact ⟨⟨first, r, hphase, hbuffer, hlen⟩, by rw [hemitted, hfile, validEvents_piece hends hpiece]⟩
  · right
    rw [heq]
    exact ⟨_, rfl, rfl, by simpa using hless⟩
  · right
    have hwhole : newline ∉ r.line ++ piece := by simp [hpiece, hno]
    have hmem := mem_lines_of_take hends hwhole (by simpa using htake)
    obtain ⟨buf, hbuf⟩ := Option.isSome_iff_exists.1 (hutf _ hmem)
    rw [heq, lineRead_whole (r.line ++ piece) rfl hbuf]
    exact ⟨_, rfl, rfl, hless⟩

theorem Taken.follow_reading {s : Tail} {first : Bool} {r : Reader} (h : s.Taken fromJson)
    (hphase : s.phase = .reading first r) (hends : EndsLine newline s.file) (hutf : Utf8Lines s.file)
    (ks : Nat → Nat) : ∃ n, (s.follow fromJson ks n).emitted = validEvents fromJson s.file := by
  -- the bytes that are left to be taken decrease with every turn
  induction hleft : s.file.length - r.pos + r.buffer.length using Nat.strong_induction_on
    generalizing s r ks with
  | _ left ih =>
      rcases h.readTurn_decreases hphase hutf (ks 0) with ⟨-, hdone⟩ | ⟨r', hphase', hfile, hless⟩
      · exact ⟨0, hdone⟩
      · have hadvance : s.advance fromJson (ks 0) = s.readTurn fromJson (ks 0) first r := by
          rw [Tail.advance, hphase]
        have htaken := h.readTurn hphase (fun _ => hends) hutf (ks 0)
        obtain ⟨n, hn⟩ := ih _ (hleft ▸ hless) htaken hphase' (hfile ▸ hends) (hfile ▸ hutf)
          (fun i => ks (i + 1)) (by rw [hfile])
        exact ⟨n + 1, by rw [follow, hadvance, hn, hfile]⟩

/-- After a probe that finds something to read. -/
theorem Taken.follow_opened {s : Tail} {lastPos curLen : Nat} (h : s.Taken fromJson)
    (hphase : s.phase = .opened lastPos curLen) (hmore : curLen ≠ lastPos)
    (hends : EndsLine newline s.file) (hutf : Utf8Lines s.file) (ks : Nat → Nat) :
    ∃ n, (s.follow fromJson ks n).emitted = validEvents fromJson s.file := by
  have htaken := h.advance (fun _ => hends) hutf (ks 0)
  obtain ⟨hle, hlen, hends', -⟩ := h.of_opened hphase
  have hadvance : s.advance fromJson (ks 0) = { s with phase := .reading false ⟨lastPos, [], []⟩ } := by
    rw [Tail.advance, hphase]
    exact (probe_keeps hle hlen hends').trans (if_neg hmore)
  rw [hadvance] at htaken
  obtain ⟨n, hn⟩ := htaken.follow_reading rfl hends hutf fun i => ks (i + 1)
  exact ⟨n + 1, by rw [follow, hadvance, hn]⟩

theorem Taken.follow_asleep {s : Tail} {lastPos : Nat} (h : s.Taken fromJson)
    (hphase : s.phase = .asleep lastPos) (hends : EndsLine newline s.file) (hutf : Utf8Lines s.file)
    (ks : Nat → Nat) : ∃ n, (s.follow fromJson ks n).emitted = validEvents fromJson s.file := by
  by_cases hall : s.file.length = lastPos
  · refine ⟨0, ?_⟩
    rw [follow, (h.of_asleep hphase).2.2, ← hall, List.take_length]
  · have hadvance : s.advance fromJson (ks 0) = { s with phase := .opened lastPos s.file.length } := by
      rw [Tail.advance, hphase]
    have htaken := h.advance (fun _ => hends) hutf (ks 0)
    rw [hadvance] at htaken
    obtain ⟨n, hn⟩ := htaken.follow_opened rfl hall hends hutf fun i => ks (i + 1)
    exact ⟨n + 1, by rw [follow, hadvance, hn]⟩

/-- Left alone with whole lines, the follower emits the events of all of them. -/
theorem Taken.catchesUp {s : Tail} (h : s.Taken fromJson) (hends : EndsLine newline s.file)
    (hutf : Utf8Lines s.file) (ks : Nat → Nat) :
    ∃ n, (s.follow fromJson ks n).emitted = validEvents fromJson s.file := by
  cases hphase : s.phase with
  | reading first r => exact h.follow_reading hphase hends hutf ks
  | asleep lastPos => exact h.follow_asleep hphase hends hutf ks
  | opened lastPos curLen =>
      by_cases hmore : curLen = lastPos
      · have htaken := h.advance (fun _ => hends) hutf (ks 0)
        obtain ⟨hle, hlen, hends', -⟩ := h.of_opened hphase
        have hadvance : s.advance fromJson (ks 0) = { s with phase := .asleep lastPos } := by
          rw [Tail.advance, hphase]
          exact (probe_keeps hle hlen hends').trans (if_pos hmore)
        rw [hadvance] at htaken
        obtain ⟨n, hn⟩ := htaken.follow_asleep rfl hends hutf fun i => ks (i + 1)
        exact ⟨n + 1, by rw [follow, hadvance, hn]⟩
      · exact h.follow_opened hphase hmore hends hutf ks
  | exited => exact absurd hphase h.not_exited

/-! ### Runs -/

/-- Every complete valid line is emitted once, in file order: what is out is a beginning of what the file
    has, it is everything up to the position the follower sleeps at and everything in the file when its end
    is met, and a follower that is left alone with whole lines gets to the last of them. -/
structure Delivers (fromJson : String → Option ProvenanceEntry) (s : Tail) : Prop where
  once : s.emitted <+: validEvents fromJson s.file
  asleep : ∀ lastPos, s.phase = .asleep lastPos →
    s.emitted = validEvents fromJson (s.file.take lastPos)
  atEof : s.AtEof → s.emitted = validEvents fromJson s.file
  running : s.phase ≠ .exited
  catchesUp : EndsLine newline s.file → ∀ ks : Nat → Nat,
    ∃ n, (s.follow fromJson ks n).emitted = validEvents fromJson s.file

theorem Taken.delivers {s : Tail} (h : s.Taken fromJson) (hutf : Utf8Lines s.file) :
    s.Delivers fromJson where
  once := by
    cases hphase : s.phase with
    | reading first r =>
        obtain ⟨whole, htaken, -, -, -, hemitted⟩ := h.of_reading hphase
        rw [hemitted]
        refine List.IsPrefix.trans ?_ (validEvents_take_isPrefix s.file r.pos)
        rw [htaken, List.append_assoc]
        exact validEvents_isPrefix _ _ _
    | asleep lastPos =>
        rw [(h.of_asleep hphase).2.2]
        exact validEvents_take_isPrefix s.file lastPos
    | opened lastPos curLen =>
        rw [(h.of_opened hphase).2.2.2]
        exact validEvents_take_isPrefix s.file lastPos
    | exited => exact absurd hphase h.not_exited
  asleep lastPos hphase := (h.of_asleep hphase).2.2
  atEof := by
    rintro ⟨first, r, hphase, hbuffer, hlen⟩
    obtain ⟨whole, htaken, -, hends, hpiece, hemitted⟩ := h.of_reading hphase
    rw [hbuffer, List.append_nil, List.take_of_length_le hlen] at htaken
    rw [hemitted, htaken, validEvents_piece hends hpiece]
  running := h.not_exited
  catchesUp hends := h.catchesUp hends hutf

theorem lineRead_file (s : Tail) (first : Bool) (r : Reader) :
    (s.lineRead fromJson first r).file = s.file := by
  unfold lineRead
  repeat' split
  all_goals rfl

/-- The follower does not write to the file. -/
theorem advance_file (s : Tail) (k : Nat) : (s.advance fromJson k).file = s.file := by
  unfold Tail.advance
  cases s.phase with
  | reading first r =>
      simp only [Tail.readTurn]
      repeat' split
      all_goals first | rfl | exact lineRead_file _ _ _
  | asleep lastPos => rfl
  | opened lastPos curLen =>
      simp only [probe]
      repeat' split
      all_goals rfl
  | exited => rfl

theorem replay_snoc (s : Tail) (events : List TailEvent) (event : TailEvent) :
    s.replay fromJson (events ++ [event]) = (s.replay fromJson events).step fromJson event := by
  simp [replay]

theorem Utf8Lines.before {s : Tail} {event : TailEvent} (h : Utf8Lines (s.step fromJson event).file) :
    Utf8Lines s.file := by
  cases event with
  | append bytes => exact Utf8Lines.of_append h
  | advance k => rwa [step, advance_file] at h

theorem taken_replay {file : List UInt8} {events : List TailEvent}
    (hutf : Utf8Lines ((start file).replay fromJson events).file)
    (hwhole : ∀ n k, events[n]? = some (.advance k) → ((start file).replay fromJson (events.take n)).AtEof →
      EndsLine newline ((start file).replay fromJson (events.take n)).file) :
    ((start file).replay fromJson events).Taken fromJson := by
  induction events using List.reverseRecOn with
  | nil => exact taken_start file
  | append_singleton events event ih =>
      rw [replay_snoc] at hutf ⊢
      have hutf' := Utf8Lines.before hutf
      have htaken := ih hutf' fun n k hevent => by
        have hn : n < events.length := (List.getElem?_eq_some_iff.1 hevent).1
        have := hwhole n k (by rwa [List.getElem?_append_left hn])
        rwa [List.take_append_of_le_length (Nat.le_of_lt hn)] at this
      cases event with
      | append bytes => exact htaken.append bytes
      | advance k =>
          have := hwhole events.length k (by simp)
          rw [List.take_left] at this
          exact htaken.advance this hutf' k

end Tail

/-- In a run of appends and steps of the follower whose complete lines are UTF-8, and in which the follower
    meets the end of the file only at the end of a line, every complete valid line is emitted exactly once and
    in file order. -/
theorem tail_delivers (fromJson : String → Option ProvenanceEntry) (file : List UInt8)
    (events : List TailEvent) (hutf : Utf8Lines ((Tail.start file).replay fromJson events).file)
    (hwhole : ∀ n k, events[n]? = some (.advance k) →
      ((Tail.start file).replay fromJson (events.take n)).AtEof →
      EndsLine newline ((Tail.start file).replay fromJson (events.take n)).file) :
    ((Tail.start file).replay fromJson events).Delivers fromJson :=
  (Tail.taken_replay hutf hwhole).delivers hutf

/-- The sidecar line of an entry, as it is encoded. -/
def createLine : String :=
  "\x7b\"t\":1,\"op\":\"Create\",\"inode\":7,\"cap\":null,\"domain\":0,\"detail\":\"a\"\x7d"

def createEntry : ProvenanceEntry := ⟨1, .create, 7, none, 0, "a"⟩

/-- A parser that knows this line. -/
def createParser (line : String) : Option ProvenanceEntry :=
  if line = createLine then some createEntry else none

/-- The file has the line when the follower starts, and gets it once more while the follower sleeps. -/
theorem tail_delivers_appended :
    ((Tail.start (createLine ++ "\n").toUTF8.toList).replay createParser
      [.advance 99, .advance 0, .append (createLine ++ "\n").toUTF8.toList, .advance 0, .advance 0,
        .advance 99, .advance 0]).Delivers createParser ∧
    ((Tail.start (createLine ++ "\n").toUTF8.toList).replay createParser
      [.advance 99, .advance 0, .append (createLine ++ "\n").toUTF8.toList, .advance 0, .advance 0,
        .advance 99, .advance 0]).emitted =
      [entryToHunterEvent createEntry, entryToHunterEvent createEntry] := by
  refine ⟨tail_delivers createParser _ _ (by unfold Utf8Lines; decide +kernel) ?_, by decide +kernel⟩
  intro n k hevent _
  have hn : n < 7 := (List.getElem?_eq_some_iff.1 hevent).1
  interval_cases n <;> decide +kernel

/-- The line is in the file when the follower starts, but its newline comes later: the event of the line is
    emitted before the line is complete, and again after the rewind. -/
theorem split_line_emitted_twice :
    ((Tail.start createLine.toUTF8.toList).replay createParser
      [.advance 99, .advance 0, .advance 0, .append [newline], .advance 0, .advance 0,
        .advance 99]).emitted = [entryToHunterEvent createEntry, entryToHunterEvent createEntry] ∧
    ¬ ((Tail.start createLine.toUTF8.toList).replay createParser
      [.advance 99, .advance 0, .advance 0, .append [newline], .advance 0, .advance 0,
        .advance 99]).Delivers createParser := by
  refine ⟨by decide +kernel, fun h => ?_⟩
  have hlength := h.once.length_le
  revert hlength
  decide +kernel

end SotFs
