/-
Module: SotFs.Proofs.GracePeriod
Layer: Proofs
Purpose: The copy a write call clones into and mutates is never one that a reader holds, and a reader holds one
  fixed graph, as long as no write call clones over the pointer of a reader that has loaded its index, has not
  followed it, and drew its epoch after the last swapping call sampled `global_epoch`, and the epochs do not run
  out of 64 bits. That swapping call has not waited for such a reader, so the reader follows the pointer to the
  new box, which the write call goes on to mutate.
Trusted boundary: none
Main exports: RcuState.Apart, RcuState.Timely, replay, rcu_isolates
-/
import SotFs.Core.Rcu
import SotFs.Core.Graph

namespace SotFs

variable {G : Type}

/-! ### What the calls hold -/

/-- The slot a reader has taken and not given back. -/
def ReadPhase.slot : ReadPhase → Option Nat
  | .registered slot | .loaded slot _ | .reading slot _ | .finished slot _ => some slot
  | .entering | .probing .. | .panicked | .returned => none

/-- The box of a reader that has loaded its index and not yet unlocked: until its closure starts, the one its
    pointer leads to. -/
def ReadPhase.copy (graphs : Fin 2 → Nat) : ReadPhase → Option Nat
  | .loaded _ idx => some (graphs idx)
  | .reading _ box | .finished _ box => some box
  | .entering | .probing .. | .panicked | .registered _ | .returned => none

/-- The write lock is held. -/
def WritePhase.Holds : WritePhase → Prop
  | .acquiring | .returned => False
  | _ => True

/-- The index a write call loaded, until it swaps. -/
def WritePhase.current : WritePhase → Option (Fin 2)
  | .loaded current | .sampled current _ | .cloned current _ | .mutating current _ | .mutated current _ => some current
  | .acquiring | .locked | .scanning .. | .returned => none

/-- The index of the copy a write call has cloned into, until it swaps. -/
def WritePhase.shadow : WritePhase → Option (Fin 2)
  | .cloned current _ | .mutating current _ | .mutated current _ => some (inactive current)
  | .acquiring | .locked | .loaded _ | .sampled .. | .scanning .. | .returned => none

theorem WritePhase.holds_of_current {p : WritePhase} {c : Fin 2} (h : p.current = some c) : p.Holds := by
  cases p with
  | acquiring | returned => cases h
  | _ => trivial

theorem WritePhase.exists_current {p : WritePhase} {c : Fin 2} (h : p.shadow = some c) :
    ∃ current, p.current = some current ∧ c = inactive current := by
  cases p with
  | cloned current | mutating current | mutated current =>
      cases h
      exact ⟨current, rfl, rfl⟩
  | _ => cases h

theorem inactive_inactive (c : Fin 2) : inactive (inactive c) = c := sub_sub_cancel 1 c

theorem inactive_ne (c : Fin 2) : inactive c ≠ c := by
  revert c
  decide

theorem eq_of_ne_inactive {c d : Fin 2} (h : c ≠ inactive d) : c = d := by
  revert c d
  decide

/-- The closures of some write calls, one after another. -/
def replay (f : Nat → G → G) (g₀ : G) (swaps : List Nat) : G :=
  swaps.foldl (fun g w => f w g) g₀

theorem replay_snoc (f : Nat → G → G) (g₀ : G) (swaps : List Nat) (w : Nat) :
    replay f g₀ (swaps ++ [w]) = f w (replay f g₀ swaps) := by
  rw [replay, List.foldl_append]
  rfl

namespace RcuState

variable {f : Nat → G → G} {g₀ : G} {s s' : RcuState G} {a : RcuAction}

/-! ### The condition and the property -/

/-- The copy a read call reads, from the load of its index until it unlocks. -/
def readCopy (s : RcuState G) (r : Nat) : Option Nat := (s.reads r).copy s.graphs

/-- The copy a write call has cloned into, from the clone until the swap. -/
def writeCopy (s : RcuState G) (w : Nat) : Option Nat := (s.writes w).shadow.map s.graphs

/-- No write call has as its copy one that a reader has loaded and not yet unlocked. -/
def Apart (s : RcuState G) : Prop :=
  ∀ w r box, s.writeCopy w = some box → s.readCopy r ≠ some box

/-- The next epoch fits in 64 bits; and a write call clones only if every reader that has loaded the other index,
    and has not yet followed its pointer, drew its epoch before the last swapping call sampled. -/
def Timely (s : RcuState G) : RcuAction → Prop
  | .read r => s.reads r = .entering → s.globalEpoch + 1 < 2 ^ 64
  | .write w => ∀ current pre, s.writes w = .sampled current pre →
      ∀ r slot, s.reads r = .loaded slot (inactive current) → s.readerEpochs slot ≤ s.waited
  | .spuriousFailure _ => True

/-! ### What one step can do -/

/-- The steps of a read call. -/
inductive ReadMove (s : RcuState G) (r : Nat) : RcuState G → Prop where
  | draw (h : s.reads r = .entering) :
      ReadMove s r ({ s with globalEpoch := (s.globalEpoch + 1) % 2 ^ 64 }.advanceRead r
        (.probing ((s.globalEpoch + 1) % 2 ^ 64) 0))
  | miss {epoch i : Nat} {p : ReadPhase} (h : s.reads r = .probing epoch i)
      (hp : p = .probing epoch (i + 1) ∨ p = .panicked) : ReadMove s r (s.advanceRead r p)
  | register {epoch i : Nat} (h : s.reads r = .probing epoch i) (hi : i < MAX_READERS)
      (hfree : s.readerEpochs i = EPOCH_INACTIVE) :
      ReadMove s r ({ s with readerEpochs := Function.update s.readerEpochs i epoch }.advanceRead r (.registered i))
  | load {i : Nat} (h : s.reads r = .registered i) : ReadMove s r (s.advanceRead r (.loaded i s.active))
  | run {i box : Nat} {p : ReadPhase} (hslot : (s.reads r).slot = some i) (hcopy : s.readCopy r = some box)
      (hafter : p = .reading i box ∨ p = .finished i box) : ReadMove s r (s.advanceRead r p)
  | unlock {i box : Nat} (h : s.reads r = .finished i box) :
      ReadMove s r ({ s with readerEpochs := Function.update s.readerEpochs i EPOCH_INACTIVE }.advanceRead r
        .returned)

theorem readStep_cases {r : Nat} (hstep : s.readStep r = some s') : ReadMove s r s' := by
  unfold readStep at hstep
  split at hstep
  · rename_i h
    cases hstep
    exact .draw h
  · rename_i h
    split at hstep
    · rename_i hi
      split at hstep
      · rename_i hfree
        cases hstep
        exact .register h hi hfree
      · cases hstep
        exact .miss h (.inl rfl)
    · cases hstep
      exact .miss h (.inr rfl)
  · rename_i h
    cases hstep
    exact .load h
  · rename_i h
    cases hstep
    exact .run (congrArg ReadPhase.slot h) (congrArg (ReadPhase.copy s.graphs) h) (.inl rfl)
  · rename_i h
    cases hstep
    exact .run (congrArg ReadPhase.slot h) (congrArg (ReadPhase.copy s.graphs) h) (.inr rfl)
  · rename_i h
    cases hstep
    exact .unlock h
  · cases hstep
  · cases hstep

/-- The steps of a write call. -/
inductive WriteMove (f : Nat → G → G) (s : RcuState G) (w : Nat) : RcuState G → Prop where
  | spin : WriteMove f s w s
  | lock (h : s.writes w = .acquiring) (hfree : s.writeLocked = false) :
      WriteMove f s w ({ s with writeLocked := true }.advanceWrite w .locked)
  | load (h : s.writes w = .locked) : WriteMove f s w (s.advanceWrite w (.loaded s.active))
  | sample {c : Fin 2} (h : s.writes w = .loaded c) :
      WriteMove f s w (s.advanceWrite w (.sampled c s.globalEpoch))
  | clone {c : Fin 2} {pre : Nat} (h : s.writes w = .sampled c pre) :
      WriteMove f s w ({ s with
        heap := Function.update s.heap s.boxes (s.heap (s.graphs c))
        boxes := s.boxes + 1
        graphs := Function.update s.graphs (inactive c) s.boxes }.advanceWrite w (.cloned c pre))
  | start {c : Fin 2} {pre : Nat} (h : s.writes w = .cloned c pre) :
      WriteMove f s w (s.advanceWrite w (.mutating c pre))
  | mutate {c : Fin 2} {pre : Nat} (h : s.writes w = .mutating c pre) :
      WriteMove f s w ({ s with
        heap := Function.update s.heap (s.graphs (inactive c)) (f w (s.heap (s.graphs (inactive c)))) }.advanceWrite w
          (.mutated c pre))
  | swap {c : Fin 2} {pre : Nat} (h : s.writes w = .mutated c pre) :
      WriteMove f s w ({ s with
        active := inactive c
        swaps := s.swaps ++ [w]
        waited := pre }.advanceWrite w (.scanning pre 0))
  | rescan {pre i : Nat} (h : s.writes w = .scanning pre i) :
      WriteMove f s w (s.advanceWrite w (.scanning pre 0))
  | pass {pre i : Nat} (h : s.writes w = .scanning pre i)
      (hclear : s.readerEpochs i = EPOCH_INACTIVE ∨ pre < s.readerEpochs i) :
      WriteMove f s w (s.advanceWrite w (.scanning pre (i + 1)))
  | unlock {pre i : Nat} (h : s.writes w = .scanning pre i) (hi : MAX_READERS ≤ i) :
      WriteMove f s w ({ s with writeLocked := false }.advanceWrite w .returned)

theorem writeStep_cases {w : Nat} (hstep : s.writeStep (f w) w = some s') : WriteMove f s w s' := by
  unfold writeStep at hstep
  split at hstep
  · rename_i h
    split at hstep
    · cases hstep
      exact .spin
    · rename_i hfree
      cases hstep
      exact .lock h (Bool.eq_false_iff.mpr hfree)
  · rename_i h
    cases hstep
    exact .load h
  · rename_i h
    cases hstep
    exact .sample h
  · rename_i h
    cases hstep
    exact .clone h
  · rename_i h
    cases hstep
    exact .start h
  · rename_i h
    cases hstep
    exact .mutate h
  · rename_i h
    cases hstep
    exact .swap h
  · rename_i pre i h
    split at hstep
    · dsimp only at hstep
      split at hstep
      · cases hstep
        exact .rescan h
      · rename_i hclear
        cases hstep
        refine .pass h ?_
        by_cases he : s.readerEpochs i = EPOCH_INACTIVE
        · exact .inl he
        · exact .inr (not_le.mp fun hle => hclear ⟨he, hle⟩)
    · rename_i hi
      cases hstep
      exact .unlock h (not_lt.mp hi)
  · cases hstep

/-- A read call steps, or a write call does. -/
theorem step_cases (hstep : s.step f a = some s') :
    (∃ r, a = .read r ∧ ReadMove s r s') ∨ s' = s ∨ ∃ w, a = .write w ∧ WriteMove f s w s' := by
  cases a with
  | read r => exact .inl ⟨r, rfl, readStep_cases hstep⟩
  | write w => exact .inr (.inr ⟨w, rfl, writeStep_cases hstep⟩)
  | spuriousFailure w =>
      rw [step] at hstep
      split at hstep
      · cases hstep
        exact .inr (.inl rfl)
      · cases hstep

/-- A read call changes nothing of the write calls and the graphs. -/
theorem ReadMove.keeps {r : Nat} (hmove : ReadMove s r s') : ∃ reads epochs epoch,
    s' = { s with reads := reads, readerEpochs := epochs, globalEpoch := epoch } := by
  cases hmove with
  | draw | miss | register | load | run | unlock => exact ⟨_, _, _, rfl⟩

/-- A write call changes nothing of the read calls, the slots and the epoch counter. -/
theorem WriteMove.keeps {w : Nat} (hmove : WriteMove f s w s') :
    s'.reads = s.reads ∧ s'.readerEpochs = s.readerEpochs ∧ s'.globalEpoch = s.globalEpoch := by
  cases hmove with
  | spin | lock | load | sample | clone | start | mutate | swap | rescan | pass | unlock => exact ⟨rfl, rfl, rfl⟩

/-! ### The write lock -/

/-- One write call holds the lock, and the index it loaded is the active one until it swaps. -/
structure Locks (s : RcuState G) : Prop where
  locked : ∀ w, (s.writes w).Holds → s.writeLocked = true
  alone : ∀ w w', (s.writes w).Holds → (s.writes w').Holds → w = w'
  current : ∀ w c, (s.writes w).current = some c → c = s.active

namespace Locks

theorem fromGraph (g : G) : (fromGraph g).Locks where
  locked _ h := h.elim
  alone _ _ h := h.elim
  current _ _ h := by cases h

/-- The holder goes on: no other call holds the lock. -/
theorem advance (h : s.Locks) {w : Nat} {p : WritePhase} (hholds : (s.writes w).Holds)
    (hwrites : s'.writes = Function.update s.writes w p) (hlocked : p.Holds → s'.writeLocked = true)
    (hcurrent : ∀ c, p.current = some c → c = s'.active) : s'.Locks := by
  have hself : ∀ v, (s'.writes v).Holds → v = w ∧ p.Holds := by
    intro v hv
    rw [hwrites, Function.update_apply] at hv
    split at hv
    · rename_i hvw
      exact ⟨hvw, hv⟩
    · rename_i hvw
      exact absurd (h.alone v w hv hholds) hvw
  refine ⟨?_, ?_, ?_⟩
  · intro v hv
    exact hlocked (hself v hv).2
  · intro v v' hv hv'
    rw [(hself v hv).1, (hself v' hv').1]
  · intro v c hv
    rw [(hself v (WritePhase.holds_of_current hv)).1, hwrites, Function.update_self] at hv
    exact hcurrent c hv

/-- The lock is taken when no call holds it. -/
theorem lock (h : s.Locks) {w : Nat} (hfree : s.writeLocked = false)
    (hwrites : s'.writes = Function.update s.writes w .locked) (hlocked : s'.writeLocked = true) : s'.Locks := by
  have hself : ∀ v, (s'.writes v).Holds → v = w := by
    intro v hv
    by_contra hvw
    rw [hwrites, Function.update_of_ne hvw] at hv
    rw [h.locked v hv] at hfree
    cases hfree
  refine ⟨fun _ _ => hlocked, ?_, ?_⟩
  · intro v v' hv hv'
    rw [hself v hv, hself v' hv']
  · intro v c hv
    rw [hself v (WritePhase.holds_of_current hv), hwrites, Function.update_self] at hv
    cases hv

theorem step (h : s.Locks) (hstep : s.step f a = some s') : s'.Locks := by
  rcases step_cases hstep with ⟨r, _, hmove⟩ | rfl | ⟨w, _, hmove⟩
  · obtain ⟨_, _, _, rfl⟩ := hmove.keeps
    exact ⟨h.locked, h.alone, h.current⟩
  · exact h
  · have hholds : ∀ {p : WritePhase}, s.writes w = p → p.Holds → (s.writes w).Holds := by
      rintro p rfl hp
      exact hp
    have hkept : ∀ {p : WritePhase}, s.writes w = p → p.Holds → s.writeLocked = true :=
      fun hw hp => h.locked w (hholds hw hp)
    have hcurrent : ∀ {p : WritePhase} {c : Fin 2}, s.writes w = p → p.current = some c → c = s.active := by
      rintro p c rfl hc
      exact h.current w c hc
    cases hmove with
    | spin => exact h
    | lock _ hfree => exact h.lock hfree rfl rfl
    | load hw =>
        exact h.advance (hholds hw trivial) rfl (fun _ => hkept hw trivial)
          (fun _ hc => (Option.some.inj hc).symm)
    | sample hw | clone hw | start hw | mutate hw =>
        exact h.advance (hholds hw trivial) rfl (fun _ => hkept hw trivial) (fun _ hc => hcurrent hw hc)
    | swap hw | rescan hw | pass hw _ =>
        exact h.advance (hholds hw trivial) rfl (fun _ => hkept hw trivial) (fun _ hc => by cases hc)
    | unlock hw _ => exact h.advance (hholds hw trivial) rfl False.elim (fun _ hc => by cases hc)

end Locks

/-! ### The slots of the readers -/

/-- Every slot of a reader is its own and holds an epoch that was drawn. -/
structure Slots (s : RcuState G) : Prop where
  epochs : ∀ i, s.readerEpochs i ≤ s.globalEpoch
  drawn : ∀ {r epoch i}, s.reads r = .probing epoch i → epoch ≠ EPOCH_INACTIVE ∧ epoch ≤ s.globalEpoch
  taken : ∀ {r i}, (s.reads r).slot = some i → i < MAX_READERS ∧ s.readerEpochs i ≠ EPOCH_INACTIVE
  distinct : ∀ {r r' i}, (s.reads r).slot = some i → (s.reads r').slot = some i → r = r'

namespace Slots

theorem fromGraph (g : G) : (fromGraph g).Slots where
  epochs _ := Nat.zero_le 1
  drawn h := by cases h
  taken h := by cases h
  distinct h := by cases h

/-- A read call goes on: its slot is its own, and the slots of the others keep their epochs. -/
theorem advance (h : s.Slots) {r : Nat} {p : ReadPhase} (hreads : s'.reads = Function.update s.reads r p)
    (hepochs : ∀ i, s'.readerEpochs i ≤ s'.globalEpoch) (hle : s.globalEpoch ≤ s'.globalEpoch)
    (hdrawn : ∀ epoch i, p = .probing epoch i → epoch ≠ EPOCH_INACTIVE ∧ epoch ≤ s'.globalEpoch)
    (htaken : ∀ i, p.slot = some i → i < MAX_READERS ∧ s'.readerEpochs i ≠ EPOCH_INACTIVE ∧
      ∀ q, (s.reads q).slot = some i → q = r)
    (hkept : ∀ q i, q ≠ r → (s.reads q).slot = some i → s'.readerEpochs i = s.readerEpochs i) : s'.Slots := by
  have hcases : ∀ q, (q = r ∧ s'.reads q = p) ∨ (q ≠ r ∧ s'.reads q = s.reads q) := by
    intro q
    rw [hreads, Function.update_apply]
    split
    · exact .inl ⟨‹_›, rfl⟩
    · exact .inr ⟨‹_›, rfl⟩
  refine ⟨hepochs, ?_, ?_, ?_⟩
  · intro q epoch i hq
    rcases hcases q with ⟨_, hphase⟩ | ⟨_, hphase⟩
    · exact hdrawn epoch i (hphase.symm.trans hq)
    · rw [hphase] at hq
      exact ⟨(h.drawn hq).1, (h.drawn hq).2.trans hle⟩
  · intro q i hq
    rcases hcases q with ⟨_, hphase⟩ | ⟨hqr, hphase⟩
    · rw [hphase] at hq
      exact ⟨(htaken i hq).1, (htaken i hq).2.1⟩
    · rw [hphase] at hq
      rw [hkept q i hqr hq]
      exact h.taken hq
  · intro q q' i hq hq'
    rcases hcases q with ⟨hqr, hphase⟩ | ⟨_, hphase⟩
    · rw [hphase] at hq
      rcases hcases q' with ⟨hqr', _⟩ | ⟨_, hphase'⟩
      · exact hqr.trans hqr'.symm
      · rw [hphase'] at hq'
        exact hqr.trans ((htaken i hq).2.2 q' hq').symm
    · rw [hphase] at hq
      rcases hcases q' with ⟨hqr', hphase'⟩ | ⟨_, hphase'⟩
      · rw [hphase'] at hq'
        exact ((htaken i hq').2.2 q hq).trans hqr'.symm
      · rw [hphase'] at hq'
        exact h.distinct hq hq'

/-- A read call goes on with the slot it had. -/
theorem keep (h : s.Slots) {r : Nat} {p : ReadPhase} (hslot : (s.reads r).slot = p.slot)
    (hdrawn : ∀ epoch i, p = .probing epoch i → epoch ≠ EPOCH_INACTIVE ∧ epoch ≤ s.globalEpoch) :
    (s.advanceRead r p).Slots := by
  refine h.advance rfl h.epochs le_rfl hdrawn ?_ fun _ _ _ _ => rfl
  intro i hi
  rw [← hslot] at hi
  exact ⟨(h.taken hi).1, (h.taken hi).2, fun q hq => h.distinct hq hi⟩

theorem step (h : s.Slots) (htimely : s.Timely a) (hstep : s.step f a = some s') : s'.Slots := by
  rcases step_cases hstep with ⟨r, rfl, hmove⟩ | rfl | ⟨w, _, hmove⟩
  · cases hmove with
    | draw hr =>
        have hfits : s.globalEpoch + 1 < 2 ^ 64 := htimely hr
        have hnext : (s.globalEpoch + 1) % 2 ^ 64 = s.globalEpoch + 1 := Nat.mod_eq_of_lt hfits
        rw [hnext]
        refine h.advance rfl (fun i => (h.epochs i).trans (Nat.le_succ _)) (Nat.le_succ _) ?_ ?_ fun _ _ _ _ => rfl
        · intro epoch i hp
          cases hp
          exact ⟨Nat.succ_ne_zero _, le_rfl⟩
        · intro i hi
          cases hi
    | @miss epoch i p hr hp =>
        refine h.keep ?_ ?_
        · rcases hp with rfl | rfl
          · rw [hr]
            rfl
          · rw [hr]
            rfl
        · intro epoch' i' hphase
          rcases hp with rfl | rfl
          · cases hphase
            exact h.drawn hr
          · cases hphase
    | @register epoch i hr hi hfree =>
        obtain ⟨hne, hle⟩ := h.drawn hr
        refine h.advance rfl ?_ le_rfl ?_ ?_ ?_
        · intro j
          change Function.update s.readerEpochs i epoch j ≤ s.globalEpoch
          rw [Function.update_apply]
          split
          · exact hle
          · exact h.epochs j
        · intro _ _ hp
          cases hp
        · intro j hj
          cases hj
          refine ⟨hi, ?_, ?_⟩
          · change Function.update s.readerEpochs i epoch i ≠ EPOCH_INACTIVE
            rw [Function.update_self]
            exact hne
          · intro q hq
            exact absurd hfree (h.taken hq).2
        · intro q j _ hq
          refine Function.update_of_ne ?_ _ _
          rintro rfl
          exact (h.taken hq).2 hfree
    | load hr =>
        refine h.keep ?_ ?_
        · rw [hr]
          rfl
        · intro _ _ hp
          cases hp
    | @run i box p hslot _ hafter =>
        refine h.keep ?_ ?_
        · rw [hslot]
          rcases hafter with rfl | rfl
          · rfl
          · rfl
        · rintro _ _ rfl
          rcases hafter with hp | hp
          · cases hp
          · cases hp
    | @unlock i box hr =>
        refine h.advance rfl ?_ le_rfl ?_ ?_ ?_
        · intro j
          change Function.update s.readerEpochs i EPOCH_INACTIVE j ≤ s.globalEpoch
          rw [Function.update_apply]
          split
          · exact Nat.zero_le _
          · exact h.epochs j
        · intro _ _ hp
          cases hp
        · intro j hj
          cases hj
        · intro q j hqr hq
          refine Function.update_of_ne ?_ _ _
          rintro rfl
          exact hqr (h.distinct hq (by rw [hr]; rfl))
  · exact h
  · obtain ⟨hreads, hepochs, hglobal⟩ := hmove.keeps
    refine ⟨?_, ?_, ?_, ?_⟩
    · rw [hepochs, hglobal]
      exact h.epochs
    · rw [hreads, hglobal]
      exact h.drawn
    · rw [hreads, hepochs]
      exact h.taken
    · rw [hreads]
      exact h.distinct

end Slots

/-- The slot of a reader that has loaded its index keeps its epoch; the index is the active one when it is
    loaded. -/
theorem ReadMove.loaded (h : s.Slots) {r : Nat} (hmove : ReadMove s r s') {q i : Nat} {c : Fin 2}
    (hq : s'.reads q = .loaded i c) : s'.readerEpochs i = s.readerEpochs i ∧
      (s.reads q = .loaded i c ∨ c = s.active) := by
  have hcases : ∀ {p : ReadPhase}, s'.reads = Function.update s.reads r p →
      (q = r ∧ p = .loaded i c) ∨ (q ≠ r ∧ s.reads q = .loaded i c) := by
    intro p hreads
    rw [hreads, Function.update_apply] at hq
    split at hq
    · exact .inl ⟨‹_›, hq⟩
    · exact .inr ⟨‹_›, hq⟩
  cases hmove with
  | draw hr =>
      rcases hcases rfl with ⟨_, hp⟩ | ⟨_, hold⟩
      · cases hp
      · exact ⟨rfl, .inl hold⟩
  | miss hr hp =>
      rcases hcases rfl with ⟨_, rfl⟩ | ⟨_, hold⟩
      · rcases hp with hp | hp
        · cases hp
        · cases hp
      · exact ⟨rfl, .inl hold⟩
  | register hr hi hfree =>
      rcases hcases rfl with ⟨_, hp⟩ | ⟨_, hold⟩
      · cases hp
      · refine ⟨Function.update_of_ne ?_ _ _, .inl hold⟩
        rintro rfl
        exact (h.taken (congrArg ReadPhase.slot hold)).2 hfree
  | load hr =>
      rcases hcases rfl with ⟨_, hp⟩ | ⟨_, hold⟩
      · cases hp
        exact ⟨rfl, .inr rfl⟩
      · exact ⟨rfl, .inl hold⟩
  | run hslot hcopy hafter =>
      rcases hcases rfl with ⟨_, rfl⟩ | ⟨_, hold⟩
      · rcases hafter with hp | hp
        · cases hp
        · cases hp
      · exact ⟨rfl, .inl hold⟩
  | unlock hr =>
      rcases hcases rfl with ⟨_, hp⟩ | ⟨hqr, hold⟩
      · cases hp
      · refine ⟨Function.update_of_ne ?_ _ _, .inl hold⟩
        rintro rfl
        exact hqr (h.distinct (congrArg ReadPhase.slot hold) (by rw [hr]; rfl))

/-- A copy is one the reader had, or the active one when the index is loaded. -/
theorem ReadMove.copy {r : Nat} (hmove : ReadMove s r s') {q box : Nat} (hq : s'.readCopy q = some box) :
    s.readCopy q = some box ∨ (s.readCopy q = none ∧ box = s.graphs s.active) := by
  have hcases : ∀ {p : ReadPhase}, s'.reads = Function.update s.reads r p → s'.graphs = s.graphs →
      (q = r ∧ p.copy s.graphs = some box) ∨ s.readCopy q = some box := by
    intro p hreads hgraphs
    rw [readCopy, hreads, hgraphs, Function.update_apply] at hq
    split at hq
    · exact .inl ⟨‹_›, hq⟩
    · exact .inr hq
  cases hmove with
  | draw | register | unlock =>
      rcases hcases rfl rfl with ⟨_, hp⟩ | hold
      · cases hp
      · exact .inl hold
  | miss hr hp =>
      rcases hcases rfl rfl with ⟨_, hp'⟩ | hold
      · rcases hp with rfl | rfl
        · cases hp'
        · cases hp'
      · exact .inl hold
  | load hr =>
      rcases hcases rfl rfl with ⟨rfl, hp⟩ | hold
      · refine .inr ⟨?_, (Option.some.inj hp).symm⟩
        rw [readCopy, hr]
        rfl
      · exact .inl hold
  | run hslot hcopy hafter =>
      rcases hcases rfl rfl with ⟨rfl, hp⟩ | hold
      · rcases hafter with rfl | rfl
        · exact .inl (hcopy.trans hp)
        · exact .inl (hcopy.trans hp)
      · exact .inl hold

/-! ### The grace period -/

/-- The readers that have loaded an index which is not active any more, and whose epoch is not later than the
    sample of the last swapping call, are waited for: that call scans and has not passed their slots. -/
def Grace (s : RcuState G) : Prop :=
  ∀ r i c, s.reads r = .loaded i c → c ≠ s.active → s.readerEpochs i ≤ s.waited →
    ∃ w j, s.writes w = .scanning s.waited j ∧ j ≤ i

namespace Grace

theorem fromGraph (g : G) : (fromGraph g).Grace := by
  intro _ _ _ h
  cases h

/-- A step of a reader: the index it loads is the active one. -/
theorem read (h : s.Grace) (hslots : s.Slots) {r : Nat} (hmove : ReadMove s r s') : s'.Grace := by
  intro q i c hq hc hepoch
  obtain ⟨hkept, hloaded⟩ := hmove.loaded hslots hq
  obtain ⟨_, _, _, rfl⟩ := hmove.keeps
  rcases hloaded with hold | hactive
  · exact h q i c hold hc (hkept ▸ hepoch)
  · exact absurd hactive hc

/-- A write call goes on without a swap, and its scan passes no slot of a reader it waits for. -/
theorem advance (h : s.Grace) {w : Nat} {p : WritePhase} (hreads : s'.reads = s.reads)
    (hepochs : s'.readerEpochs = s.readerEpochs) (hwrites : s'.writes = Function.update s.writes w p)
    (hactive : s'.active = s.active) (hwaited : s'.waited = s.waited)
    (hscan : ∀ r i c j, s.reads r = .loaded i c → s.readerEpochs i ≤ s.waited → s.writes w = .scanning s.waited j →
      j ≤ i → ∃ j', p = .scanning s.waited j' ∧ j' ≤ i) : s'.Grace := by
  intro r i c hr hc hepoch
  rw [hreads] at hr
  rw [hactive] at hc
  rw [hepochs, hwaited] at hepoch
  rw [hwaited, hwrites]
  obtain ⟨v, j, hv, hj⟩ := h r i c hr hc hepoch
  by_cases hvw : v = w
  · subst hvw
    obtain ⟨j', hp, hj'⟩ := hscan r i c j hr hepoch hv hj
    exact ⟨v, j', by rw [Function.update_self, hp], hj'⟩
  · exact ⟨v, j, by rw [Function.update_of_ne hvw, hv], hj⟩

theorem write (h : s.Grace) (hslots : s.Slots) {w : Nat} (hmove : WriteMove f s w s') : s'.Grace := by
  cases hmove with
  | spin => exact h
  | lock hw | load hw | sample hw | clone hw | start hw | mutate hw =>
      refine h.advance rfl rfl rfl rfl rfl ?_
      intro _ _ _ _ _ _ hscan
      cases hw.symm.trans hscan
  | @swap c pre hw =>
      intro r i c' _ _ _
      exact ⟨w, 0, Function.update_self w _ _, Nat.zero_le i⟩
  | @rescan pre i hw =>
      refine h.advance rfl rfl rfl rfl rfl ?_
      intro r k c j _ _ hscan _
      cases hw.symm.trans hscan
      exact ⟨0, rfl, Nat.zero_le k⟩
  | @pass pre i hw hclear =>
      refine h.advance rfl rfl rfl rfl rfl ?_
      intro r k c j hr hepoch hscan hj
      cases hw.symm.trans hscan
      refine ⟨i + 1, rfl, Nat.lt_of_le_of_ne hj ?_⟩
      -- the slot that is passed holds no reader that is waited for
      rintro rfl
      rcases hclear with hfree | hlate
      · exact (hslots.taken (congrArg ReadPhase.slot hr)).2 hfree
      · exact absurd hepoch (not_le.mpr hlate)
  | @unlock pre i hw hi =>
      refine h.advance rfl rfl rfl rfl rfl ?_
      intro r k c j hr _ hscan hj
      cases hw.symm.trans hscan
      exact absurd (hslots.taken (congrArg ReadPhase.slot hr)).1 (not_lt.mpr (hi.trans hj))

theorem step (h : s.Grace) (hslots : s.Slots) (hstep : s.step f a = some s') : s'.Grace := by
  rcases step_cases hstep with ⟨r, _, hmove⟩ | rfl | ⟨w, _, hmove⟩
  · exact h.read hslots hmove
  · exact h
  · exact h.write hslots hmove

/-- When a write call clones in time, no reader has loaded the index it clones into: the call that swapped last
    has waited for the early ones, and the condition rules out the late ones. -/
theorem clear (h : s.Grace) (hlocks : s.Locks) {w : Nat} (htimely : s.Timely (.write w)) {c : Fin 2} {pre : Nat}
    (hw : s.writes w = .sampled c pre) {r i : Nat} {idx : Fin 2} (hr : s.reads r = .loaded i idx) : idx = c := by
  by_contra hne
  have hactive : c = s.active := hlocks.current w c (by rw [hw]; rfl)
  have hother : idx = inactive c := by
    by_contra hidx
    exact hne (eq_of_ne_inactive hidx)
  subst hother
  obtain ⟨v, j, hv, _⟩ := h r i _ hr (hactive ▸ hne) (htimely c pre hw r i hr)
  -- the call that scans for the reader cannot be inside the lock as well
  have hvw : v = w := hlocks.alone v w (by rw [hv]; trivial) (by rw [hw]; trivial)
  rw [hvw, hw] at hv
  cases hv

end Grace

/-! ### The boxes -/

/-- The two pointers differ, the boxes in use are allocated, and no reader's copy is a write call's. -/
structure Boxes (s : RcuState G) : Prop where
  distinct : ∀ c, s.graphs (inactive c) ≠ s.graphs c
  graphs : ∀ c, s.graphs c < s.boxes
  copies : ∀ {r box}, s.readCopy r = some box → box < s.boxes
  apart : s.Apart

theorem exists_shadow {w box : Nat} (h : s.writeCopy w = some box) :
    ∃ c, (s.writes w).current = some c ∧ box = s.graphs (inactive c) := by
  obtain ⟨c, hshadow, hbox⟩ := Option.map_eq_some_iff.mp h
  obtain ⟨current, hcurrent, rfl⟩ := WritePhase.exists_current hshadow
  exact ⟨current, hcurrent, hbox.symm⟩

/-- A reader's copy stays when a write call clones in time, and the new box is another one. -/
theorem copy_cloned (hlocks : s.Locks) (hgrace : s.Grace) {w : Nat} (htimely : s.Timely (.write w)) {c : Fin 2}
    {pre : Nat} (hw : s.writes w = .sampled c pre) (r : Nat) :
    (s.reads r).copy (Function.update s.graphs (inactive c) s.boxes) = s.readCopy r := by
  unfold readCopy
  cases hr : s.reads r with
  | loaded i idx =>
      have hidx : idx = c := hgrace.clear hlocks htimely hw hr
      subst hidx
      change some (Function.update s.graphs (inactive idx) s.boxes idx) = some (s.graphs idx)
      rw [Function.update_of_ne (inactive_ne idx).symm]
  | _ => rfl

namespace Boxes

theorem fromGraph (g : G) : (fromGraph g).Boxes where
  distinct c h := inactive_ne c (Fin.val_injective h)
  graphs c := c.isLt
  copies h := by cases h
  apart _ _ _ h := by cases h

theorem read (h : s.Boxes) (hlocks : s.Locks) {r : Nat} (hmove : ReadMove s r s') : s'.Boxes := by
  have hcopy : ∀ {q box}, s'.readCopy q = some box → s.readCopy q = some box ∨
      (s.readCopy q = none ∧ box = s.graphs s.active) := fun hq => hmove.copy hq
  obtain ⟨_, _, _, rfl⟩ := hmove.keeps
  refine ⟨h.distinct, h.graphs, ?_, ?_⟩
  · intro q box hq
    rcases hcopy hq with hold | ⟨_, rfl⟩
    · exact h.copies hold
    · exact h.graphs _
  · intro w q box hw hq
    rcases hcopy hq with hold | ⟨_, rfl⟩
    · exact h.apart w q box hw hold
    · obtain ⟨c, hc, hbox⟩ := exists_shadow hw
      have hactive : c = s.active := hlocks.current w c hc
      exact h.distinct c (hbox.symm.trans (congrArg s.graphs hactive.symm))

/-- A write call goes on and keeps its copy, or has it no more. -/
theorem advance (h : s.Boxes) {w : Nat} {p : WritePhase} (hreads : s'.reads = s.reads)
    (hboxes : s'.boxes = s.boxes) (hgraphs : s'.graphs = s.graphs)
    (hwrites : s'.writes = Function.update s.writes w p)
    (hshadow : p.shadow = none ∨ p.shadow = (s.writes w).shadow) : s'.Boxes := by
  refine ⟨hgraphs ▸ h.distinct, ?_, ?_, ?_⟩
  · rw [hgraphs, hboxes]
    exact h.graphs
  · intro r box hr
    rw [readCopy, hreads, hgraphs] at hr
    rw [hboxes]
    exact h.copies hr
  · intro v r box hv hr
    rw [readCopy, hreads, hgraphs] at hr
    rw [writeCopy, hgraphs, hwrites, Function.update_apply] at hv
    split at hv
    · rcases hshadow with hnone | hsame
      · rw [hnone] at hv
        cases hv
      · rw [hsame] at hv
        exact h.apart w r box hv hr
    · exact h.apart v r box hv hr

theorem write (h : s.Boxes) (hlocks : s.Locks) (hgrace : s.Grace) {w : Nat} (htimely : s.Timely (.write w))
    (hmove : WriteMove f s w s') : s'.Boxes := by
  cases hmove with
  | spin => exact h
  | lock | load | sample | swap | rescan | pass | unlock => exact h.advance rfl rfl rfl rfl (.inl rfl)
  | start hw | mutate hw => exact h.advance rfl rfl rfl rfl (.inr (by rw [hw]; rfl))
  | @clone c pre hw =>
      have hother : Function.update s.graphs (inactive c) s.boxes c = s.graphs c :=
        Function.update_of_ne (inactive_ne c).symm _ _
      have hnew : Function.update s.graphs (inactive c) s.boxes (inactive c) = s.boxes := Function.update_self _ _ _
      have hcopy : ∀ r, (s.reads r).copy (Function.update s.graphs (inactive c) s.boxes) = s.readCopy r :=
        copy_cloned hlocks hgrace htimely hw
      refine ⟨?_, ?_, ?_, ?_⟩
      · intro d
        change Function.update s.graphs (inactive c) s.boxes (inactive d) ≠
          Function.update s.graphs (inactive c) s.boxes d
        by_cases hd : d = c
        · subst hd
          rw [hnew, hother]
          exact (h.graphs d).ne'
        · have hd' : d = inactive c := by
            by_contra hne
            exact hd (eq_of_ne_inactive hne)
          subst hd'
          rw [hnew, inactive_inactive, hother]
          exact (h.graphs c).ne
      · intro d
        change Function.update s.graphs (inactive c) s.boxes d < s.boxes + 1
        rw [Function.update_apply]
        split
        · exact Nat.lt_succ_self _
        · exact Nat.lt_succ_of_lt (h.graphs d)
      · intro r box hr
        exact Nat.lt_succ_of_lt (h.copies ((hcopy r).symm.trans hr))
      · intro v r box hv hr
        have hr' : s.readCopy r = some box := (hcopy r).symm.trans hr
        obtain ⟨current, hcurrent, hbox⟩ := exists_shadow hv
        -- only the cloning call has a shadow
        have hcur : current = c := by
          change (Function.update s.writes w (.cloned c pre) v).current = some current at hcurrent
          rw [Function.update_apply] at hcurrent
          split at hcurrent
          · exact (Option.some.inj hcurrent).symm
          · exact (hlocks.current v current hcurrent).trans (hlocks.current w c (by rw [hw]; rfl)).symm
        subst hcur
        change box = Function.update s.graphs (inactive current) s.boxes (inactive current) at hbox
        rw [hnew] at hbox
        exact (h.copies hr').ne hbox

theorem step (h : s.Boxes) (hlocks : s.Locks) (hgrace : s.Grace) (htimely : s.Timely a)
    (hstep : s.step f a = some s') : s'.Boxes := by
  rcases step_cases hstep with ⟨r, _, hmove⟩ | rfl | ⟨w, rfl, hmove⟩
  · exact h.read hlocks hmove
  · exact h
  · exact h.write hlocks hgrace htimely hmove

end Boxes

/-! ### What the copies hold -/

/-- The active copy is the result of the swapped writes in their order, and so is the shadow until the closure
    is through with it. -/
structure Contents (f : Nat → G → G) (g₀ : G) (s : RcuState G) : Prop where
  active : s.heap (s.graphs s.active) = replay f g₀ s.swaps
  shadow : ∀ {w c pre}, s.writes w = .cloned c pre ∨ s.writes w = .mutating c pre →
    s.heap (s.graphs (inactive c)) = replay f g₀ s.swaps
  mutated : ∀ {w c pre}, s.writes w = .mutated c pre →
    s.heap (s.graphs (inactive c)) = f w (replay f g₀ s.swaps)
  scanning : ∀ {w pre i}, s.writes w = .scanning pre i → w ∈ s.swaps
  returned : ∀ {w}, s.writes w = .returned → w ∈ s.swaps

namespace Contents

theorem fromGraph (f : Nat → G → G) (g : G) : (fromGraph g).Contents f g where
  active := rfl
  shadow h := by rcases h with h | h <;> cases h
  mutated h := by cases h
  scanning h := by cases h
  returned h := by cases h

theorem read (h : s.Contents f g₀) {r : Nat} (hmove : ReadMove s r s') : s'.Contents f g₀ := by
  obtain ⟨_, _, _, rfl⟩ := hmove.keeps
  exact ⟨h.active, h.shadow, h.mutated, h.scanning, h.returned⟩

/-- The holder of the lock goes on: the others are outside. -/
theorem advance (h : s.Contents f g₀) (hlocks : s.Locks) {w : Nat} {p : WritePhase} (hholds : (s.writes w).Holds)
    (hwrites : s'.writes = Function.update s.writes w p)
    (hactive : s'.heap (s'.graphs s'.active) = replay f g₀ s'.swaps)
    (hshadow : ∀ c pre, p = .cloned c pre ∨ p = .mutating c pre →
      s'.heap (s'.graphs (inactive c)) = replay f g₀ s'.swaps)
    (hmutated : ∀ c pre, p = .mutated c pre → s'.heap (s'.graphs (inactive c)) = f w (replay f g₀ s'.swaps))
    (hnoted : ∀ pre i, p = .scanning pre i ∨ p = .returned → w ∈ s'.swaps)
    (hswaps : ∀ v, v ∈ s.swaps → v ∈ s'.swaps) : s'.Contents f g₀ := by
  have hself : ∀ {v q}, s'.writes v = q → q.Holds → v = w ∧ p = q := by
    rintro v q rfl hq
    rw [hwrites, Function.update_apply] at hq ⊢
    split at hq
    · rename_i hvw
      rw [if_pos hvw]
      exact ⟨hvw, rfl⟩
    · rename_i hvw
      exact absurd (hlocks.alone v w hq hholds) hvw
  refine ⟨hactive, ?_, ?_, ?_, ?_⟩
  · rintro v c pre (hv | hv)
    · exact hshadow c pre (.inl (hself hv trivial).2)
    · exact hshadow c pre (.inr (hself hv trivial).2)
  · intro v c pre hv
    obtain ⟨rfl, hp⟩ := hself hv trivial
    exact hmutated c pre hp
  · intro v pre i hv
    obtain ⟨rfl, hp⟩ := hself hv trivial
    exact hnoted pre i (.inl hp)
  · intro v hv
    rw [hwrites, Function.update_apply] at hv
    split at hv
    · rename_i hvw
      rw [hvw]
      exact hnoted 0 0 (.inr hv)
    · exact hswaps v (h.returned hv)

theorem write (h : s.Contents f g₀) (hlocks : s.Locks) (hboxes : s.Boxes) {w : Nat} (hmove : WriteMove f s w s') :
    s'.Contents f g₀ := by
  have hholds : ∀ {p : WritePhase}, s.writes w = p → p.Holds → (s.writes w).Holds := by
    rintro p rfl hp
    exact hp
  have hcurrent : ∀ {p : WritePhase} {c : Fin 2}, s.writes w = p → p.current = some c → c = s.active := by
    rintro p c rfl hc
    exact hlocks.current w c hc
  cases hmove with
  | spin => exact h
  | lock hw hfree =>
      have hother : ∀ {v q}, Function.update s.writes w .locked v = q → q ≠ .locked → s.writes v = q := by
        intro v q hv hq
        rw [Function.update_apply] at hv
        split at hv
        · exact absurd hv.symm hq
        · exact hv
      refine ⟨h.active, ?_, ?_, ?_, ?_⟩
      · rintro v c pre (hv | hv)
        · exact h.shadow (.inl (hother hv (by rintro ⟨⟩)))
        · exact h.shadow (.inr (hother hv (by rintro ⟨⟩)))
      · intro v c pre hv
        exact h.mutated (hother hv (by rintro ⟨⟩))
      · intro v pre i hv
        exact h.scanning (hother hv (by rintro ⟨⟩))
      · intro v hv
        exact h.returned (hother hv (by rintro ⟨⟩))
  | load hw | sample hw =>
      refine h.advance hlocks (hholds hw trivial) rfl h.active ?_ ?_ ?_ fun _ hv => hv
      · rintro _ _ (hp | hp) <;> cases hp
      · rintro _ _ ⟨⟩
      · rintro _ _ (hp | hp) <;> cases hp
  | @clone c pre hw =>
      have hc : c = s.active := hcurrent hw rfl
      have hold : Function.update s.heap s.boxes (s.heap (s.graphs c)) (s.graphs c) = s.heap (s.graphs c) :=
        Function.update_of_ne (hboxes.graphs c).ne _ _
      refine h.advance hlocks (hholds hw trivial) rfl ?_ ?_ ?_ ?_ fun _ hv => hv
      · change Function.update s.heap s.boxes (s.heap (s.graphs c))
          (Function.update s.graphs (inactive c) s.boxes s.active) = replay f g₀ s.swaps
        rw [← hc, Function.update_of_ne (inactive_ne c).symm, hold, hc]
        exact h.active
      · rintro c' pre' (hp | hp)
        · cases hp
          change Function.update s.heap s.boxes (s.heap (s.graphs c))
            (Function.update s.graphs (inactive c) s.boxes (inactive c)) = replay f g₀ s.swaps
          rw [Function.update_self, Function.update_self, hc]
          exact h.active
        · cases hp
      · rintro _ _ ⟨⟩
      · rintro _ _ (hp | hp) <;> cases hp
  | @start c pre hw =>
      refine h.advance hlocks (hholds hw trivial) rfl h.active ?_ ?_ ?_ fun _ hv => hv
      · rintro c' pre' (hp | hp)
        · cases hp
        · cases hp
          exact h.shadow (.inl hw)
      · rintro _ _ ⟨⟩
      · rintro _ _ (hp | hp) <;> cases hp
  | @mutate c pre hw =>
      have hc : c = s.active := hcurrent hw rfl
      refine h.advance hlocks (hholds hw trivial) rfl ?_ ?_ ?_ ?_ fun _ hv => hv
      · change Function.update s.heap (s.graphs (inactive c)) _ (s.graphs s.active) = replay f g₀ s.swaps
        rw [← hc, Function.update_of_ne (hboxes.distinct c).symm, hc]
        exact h.active
      · rintro _ _ (hp | hp) <;> cases hp
      · intro c' pre' hp
        cases hp
        change Function.update s.heap (s.graphs (inactive c)) (f w (s.heap (s.graphs (inactive c))))
          (s.graphs (inactive c)) = f w (replay f g₀ s.swaps)
        rw [Function.update_self, h.shadow (.inr hw)]
      · rintro _ _ (hp | hp) <;> cases hp
  | @swap c pre hw =>
      refine h.advance hlocks (hholds hw trivial) rfl ?_ ?_ ?_ ?_ fun v hv => List.mem_append_left [w] hv
      · change s.heap (s.graphs (inactive c)) = replay f g₀ (s.swaps ++ [w])
        rw [replay_snoc]
        exact h.mutated hw
      · rintro _ _ (hp | hp) <;> cases hp
      · rintro _ _ ⟨⟩
      · intro _ _ _
        exact List.mem_append_right s.swaps (List.mem_singleton.mpr rfl)
  | rescan hw | pass hw _ | unlock hw _ =>
      refine h.advance hlocks (hholds hw trivial) rfl h.active ?_ ?_ ?_ fun _ hv => hv
      · rintro _ _ (hp | hp) <;> cases hp
      · rintro _ _ ⟨⟩
      · intro _ _ _
        exact h.scanning hw

theorem step (h : s.Contents f g₀) (hlocks : s.Locks) (hboxes : s.Boxes) (hstep : s.step f a = some s') :
    s'.Contents f g₀ := by
  rcases step_cases hstep with ⟨r, _, hmove⟩ | rfl | ⟨w, _, hmove⟩
  · exact h.read hmove
  · exact h
  · exact h.write hlocks hboxes hmove

end Contents

/-! ### Runs -/

/-- What every run in time keeps. -/
structure Inv (f : Nat → G → G) (g₀ : G) (s : RcuState G) : Prop where
  locks : s.Locks
  slots : s.Slots
  grace : s.Grace
  boxes : s.Boxes
  contents : s.Contents f g₀

namespace Inv

theorem fromGraph (f : Nat → G → G) (g : G) : (fromGraph g).Inv f g :=
  ⟨.fromGraph g, .fromGraph g, .fromGraph g, .fromGraph g, .fromGraph f g⟩

theorem step (h : s.Inv f g₀) (htimely : s.Timely a) (hstep : s.step f a = some s') : s'.Inv f g₀ :=
  ⟨h.locks.step hstep, h.slots.step htimely hstep, h.grace.step h.slots hstep,
    h.boxes.step h.locks h.grace htimely hstep, h.contents.step h.locks h.boxes hstep⟩

theorem run (h : s.Inv f g₀) (hrun : RcuRun f Timely s s') : s'.Inv f g₀ := by
  induction hrun with
  | start => exact h
  | step a _ htimely hstep ih => exact ih.step htimely hstep

end Inv

/-- A step in time writes no box that is the copy of a reader. -/
theorem heap_kept (h : s.Inv f g₀) (hstep : s.step f a = some s') {r box : Nat} (hcopy : s.readCopy r = some box) :
    s'.heap box = s.heap box := by
  rcases step_cases hstep with ⟨_, _, hmove⟩ | rfl | ⟨w, _, hmove⟩
  · obtain ⟨_, _, _, rfl⟩ := hmove.keeps
    rfl
  · rfl
  · cases hmove with
    | clone => exact Function.update_of_ne (h.boxes.copies hcopy).ne _ _
    | @mutate c pre hw =>
        refine Function.update_of_ne ?_ _ _
        rintro rfl
        exact h.boxes.apart w r _ (by rw [writeCopy, hw]; rfl) hcopy
    | spin | lock | load | sample | start | swap | rescan | pass | unlock => rfl

/-- The swaps only grow. -/
theorem swaps_prefix (hstep : s.step f a = some s') : ∃ l, s'.swaps = s.swaps ++ l := by
  rcases step_cases hstep with ⟨_, _, hmove⟩ | rfl | ⟨w, _, hmove⟩
  · obtain ⟨_, _, _, rfl⟩ := hmove.keeps
    exact ⟨[], (List.append_nil s.swaps).symm⟩
  · exact ⟨[], (List.append_nil _).symm⟩
  · cases hmove with
    | swap => exact ⟨[w], rfl⟩
    | spin | lock | load | sample | clone | start | mutate | rescan | pass | unlock =>
        exact ⟨[], (List.append_nil s.swaps).symm⟩

/-- A step of a write call in time changes no reader's copy. -/
theorem WriteMove.copy (h : s.Inv f g₀) {w : Nat} (htimely : s.Timely (.write w)) (hmove : WriteMove f s w s')
    (r : Nat) : s'.readCopy r = s.readCopy r := by
  cases hmove with
  | clone hw => exact copy_cloned h.locks h.grace htimely hw r
  | spin | lock | load | sample | start | mutate | swap | rescan | pass | unlock => rfl

/-! ### What a reader sees -/

/-- The reader holds the result of some of the first swaps, with the given write calls among them. -/
structure Sees (f : Nat → G → G) (g₀ : G) (among : Nat → Prop) (r : Nat) (s : RcuState G) : Prop where
  noted : ∀ w, among w → w ∈ s.swaps
  copy : ∀ box, s.readCopy r = some box → ∃ k, k ≤ s.swaps.length ∧
    s.heap box = replay f g₀ (s.swaps.take k) ∧ ∀ w, among w → w ∈ s.swaps.take k

theorem Sees.step {among : Nat → Prop} {r : Nat} (h : s.Sees f g₀ among r) (hinv : s.Inv f g₀)
    (htimely : s.Timely a) (hstep : s.step f a = some s') : s'.Sees f g₀ among r := by
  obtain ⟨l, hswaps⟩ := swaps_prefix hstep
  refine ⟨?_, ?_⟩
  · intro w hw
    rw [hswaps]
    exact List.mem_append_left l (h.noted w hw)
  · intro box hbox
    have hkept : s.readCopy r = some box → ∃ k, k ≤ s'.swaps.length ∧
        s'.heap box = replay f g₀ (s'.swaps.take k) ∧ ∀ w, among w → w ∈ s'.swaps.take k := by
      intro hold
      obtain ⟨k, hk, hgraph, hamong⟩ := h.copy box hold
      have htake : s'.swaps.take k = s.swaps.take k := by rw [hswaps, List.take_append_of_le_length hk]
      refine ⟨k, ?_, ?_, ?_⟩
      · rw [hswaps, List.length_append]
        exact hk.trans (Nat.le_add_right _ _)
      · rw [heap_kept hinv hstep hold, htake]
        exact hgraph
      · rw [htake]
        exact hamong
    rcases step_cases hstep with ⟨q, _, hmove⟩ | rfl | ⟨w, rfl, hmove⟩
    · rcases hmove.copy hbox with hold | ⟨_, rfl⟩
      · exact hkept hold
      · -- the index is loaded now: the copy carries every swap there was
        obtain ⟨_, _, _, rfl⟩ := hmove.keeps
        refine ⟨s.swaps.length, le_rfl, ?_, ?_⟩
        · rw [List.take_length]
          exact hinv.contents.active
        · rw [List.take_length]
          exact h.noted
    · exact h.copy box hbox
    · exact hkept ((hmove.copy hinv htimely r).symm.trans hbox)

theorem advanceRead_self (s : RcuState G) (r : Nat) (p : ReadPhase) : (s.advanceRead r p).reads r = p := by
  change Function.update s.reads r p r = p
  rw [Function.update_self]

/-- A step of one read call leaves the others where they are. -/
theorem ReadMove.other {q r : Nat} (hmove : ReadMove s q s') (hne : r ≠ q) : s'.reads r = s.reads r := by
  cases hmove with
  | draw | miss | register | load | run | unlock => exact Function.update_of_ne hne _ _

/-- A read call that returned stays so. -/
theorem returned_kept {r : Nat} (h : s.reads r = .returned) (hstep : s.step f a = some s') :
    s'.reads r = .returned := by
  rcases step_cases hstep with ⟨q, _, hmove⟩ | rfl | ⟨w, _, hmove⟩
  · by_cases hrq : r = q
    · subst hrq
      cases hmove with
      | draw hr | miss hr _ | register hr _ _ | load hr | unlock hr => cases h.symm.trans hr
      | run hslot _ _ =>
          rw [h] at hslot
          cases hslot
    · rw [hmove.other hrq]
      exact h
  · exact h
  · rw [hmove.keeps.1]
    exact h

/-- A reader keeps its copy until it returns. -/
theorem copy_kept (hinv : s.Inv f g₀) (htimely : s.Timely a) {r box : Nat} (h : s.readCopy r = some box)
    (hstep : s.step f a = some s') : s'.reads r = .returned ∨ s'.readCopy r = some box := by
  rcases step_cases hstep with ⟨q, _, hmove⟩ | rfl | ⟨w, rfl, hmove⟩
  · by_cases hrq : r = q
    · subst hrq
      cases hmove with
      | draw hr | miss hr _ | register hr _ _ | load hr =>
          rw [readCopy, hr] at h
          cases h
      | run _ hcopy hafter =>
          right
          rw [readCopy, advanceRead_self]
          rcases hafter with rfl | rfl
          · exact hcopy.symm.trans h
          · exact hcopy.symm.trans h
      | unlock => exact .inl (advanceRead_self _ _ _)
    · have hother := hmove.other hrq
      obtain ⟨_, _, _, rfl⟩ := hmove.keeps
      right
      rw [readCopy, hother]
      exact h
  · exact .inr h
  · exact .inr ((hmove.copy hinv htimely r).trans h)

/-- Along a run in time a reader keeps its copy, and the graph in it stays the same, until the reader returns. -/
theorem copy_kept_run (hinv : s.Inv f g₀) (hrun : RcuRun f Timely s s') {r box : Nat}
    (hcopy : s.readCopy r = some box) : s'.reads r = .returned ∨
      (s'.readCopy r = some box ∧ s'.heap box = s.heap box) := by
  induction hrun with
  | start => exact .inr ⟨hcopy, rfl⟩
  | step a hrun htimely hstep ih =>
      rcases ih with hreturned | ⟨hholds, hgraph⟩
      · exact .inl (returned_kept hreturned hstep)
      · rcases copy_kept (hinv.run hrun) htimely hholds hstep with hreturned' | hholds'
        · exact .inl hreturned'
        · exact .inr ⟨hholds', (heap_kept (hinv.run hrun) hstep hholds).trans hgraph⟩

/-- A read call that enters after some write calls returned holds a result with their swaps. -/
theorem sees_run (hinv : s.Inv f g₀) (hrun : RcuRun f Timely s s') {r : Nat} (henters : s.reads r = .entering) :
    s'.Sees f g₀ (fun w => s.writes w = .returned) r := by
  induction hrun with
  | start =>
      refine ⟨fun w hw => hinv.contents.returned hw, ?_⟩
      intro box hcopy
      rw [readCopy, henters] at hcopy
      cases hcopy
  | step a hrun htimely hstep ih => exact ih.step (hinv.run hrun) htimely hstep

/-- A clone that is not in time gives the write call the copy of a reader. -/
theorem clone_untimely {w : Nat} (hlate : ¬ s.Timely (.write w)) (hstep : s.step f (.write w) = some s') :
    ¬ s'.Apart := by
  intro hapart
  refine hlate ?_
  intro c pre hw r slot hr
  have hcloned : s' = { s with
      heap := Function.update s.heap s.boxes (s.heap (s.graphs c))
      boxes := s.boxes + 1
      graphs := Function.update s.graphs (inactive c) s.boxes }.advanceWrite w (.cloned c pre) := by
    rw [step, writeStep, hw] at hstep
    exact (Option.some.inj hstep).symm
  subst hcloned
  exfalso
  refine hapart w r s.boxes ?_ ?_
  · change ((Function.update s.writes w (.cloned c pre) w).shadow).map
      (Function.update s.graphs (inactive c) s.boxes) = _
    rw [Function.update_self]
    exact congrArg some (Function.update_self _ _ _)
  · change (s.reads r).copy (Function.update s.graphs (inactive c) s.boxes) = some s.boxes
    rw [hr]
    exact congrArg some (Function.update_self _ _ _)

end RcuState

/-- In every run in time no write call clones into or mutates the copy of a reader that has loaded its index and
    not yet unlocked, which the first clone out of time would do; and such a reader keeps its copy and sees one
    fixed graph, the result of some first swaps with all the write calls among them that had returned before it
    entered. -/
theorem rcu_isolates {f : Nat → G → G} {g₀ : G} {s s' : RcuState G}
    (hrun : RcuRun f RcuState.Timely (.fromGraph g₀) s) (hlater : RcuRun f RcuState.Timely s s') :
    s'.Apart ∧ (∀ w t, ¬ s'.Timely (.write w) → s'.step f (.write w) = some t → ¬ t.Apart) ∧
      ∀ r box, s'.readCopy r = some box →
        (s.reads r = .entering → ∃ k, s'.heap box = replay f g₀ (s'.swaps.take k) ∧
          ∀ w, s.writes w = .returned → w ∈ s'.swaps.take k) ∧
        ∀ box', s.readCopy r = some box' → box' = box ∧ s'.heap box = s.heap box := by
  have hinv : s.Inv f g₀ := (RcuState.Inv.fromGraph f g₀).run hrun
  have hinv' : s'.Inv f g₀ := hinv.run hlater
  refine ⟨hinv'.boxes.apart, fun w t hlate hstep => RcuState.clone_untimely hlate hstep, ?_⟩
  intro r box hcopy
  refine ⟨?_, ?_⟩
  · intro henters
    obtain ⟨k, _, hgraph, hamong⟩ := (RcuState.sees_run hinv hlater henters).copy box hcopy
    exact ⟨k, hgraph, hamong⟩
  · intro box' hheld
    rcases RcuState.copy_kept_run hinv hlater hheld with hreturned | ⟨hholds, hgraph⟩
    · rw [RcuState.readCopy, hreturned] at hcopy
      cases hcopy
    · cases hholds.symm.trans hcopy
      exact ⟨rfl, hgraph⟩

/-- A schedule that goes through is a run. -/
theorem RcuRun.of_exec {f : Nat → G → G} {allowed : RcuState G → RcuAction → Prop} {s₀ s s' : RcuState G}
    (hrun : RcuRun f allowed s₀ s) {schedule : List RcuAction} (hall : ∀ s, ∀ a ∈ schedule, allowed s a)
    (hexec : s.exec f schedule = some s') : RcuRun f allowed s₀ s' := by
  induction schedule generalizing s with
  | nil =>
      cases hexec
      exact hrun
  | cons a schedule ih =>
      obtain ⟨s₁, hstep, hrest⟩ := Option.bind_eq_some_iff.mp hexec
      exact ih (.step a hrun (hall s a List.mem_cons_self) hstep)
        (fun s' b hb => hall s' b (List.mem_cons_of_mem a hb)) hrest

/-- Every write call issues an inode id. -/
def issueInodes (_ : Nat) (g : TypeGraph) : TypeGraph := g.allocInodeId.2

/-- A reader enters after a write call sampled the epoch and loads the index before the swap; that call returns
    without waiting for it, and the next one clones into the copy behind the index. Then the closure starts. -/
def enterInWindow : List RcuAction :=
  List.replicate 3 (.write 0) ++ List.replicate 3 (.read 0) ++ List.replicate 69 (.write 0) ++
    List.replicate 5 (.write 1) ++ [.read 0]

/-- The reader follows its pointer to the new box while the next write call runs its closure on it, and the graph
    changes under the reader. -/
theorem rcu_overwrites_reader : ∃ s s' : RcuState TypeGraph,
    RcuRun issueInodes (fun _ _ => True) (.fromGraph (.new 0)) s ∧ RcuRun issueInodes (fun _ _ => True) s s' ∧
      s.reads 0 = .reading 0 3 ∧ s.writes 1 = .mutating 1 2 ∧ ¬ s.Apart ∧ s'.reads 0 = .reading 0 3 ∧
      (s.heap 3).nextInode = 3 ∧ (s'.heap 3).nextInode = 4 := by
  have hfirst : ((RcuState.fromGraph (TypeGraph.new 0)).exec issueInodes enterInWindow).map
      (fun s => (s.reads 0, s.writes 1, s.graphs 0, (s.heap 3).nextInode)) =
        some (.reading 0 3, .mutating 1 2, 3, 3) := by decide
  obtain ⟨s, hs, hseen⟩ := Option.map_eq_some_iff.mp hfirst
  have hsecond : (((RcuState.fromGraph (TypeGraph.new 0)).exec issueInodes enterInWindow).bind
      (·.exec issueInodes [.write 1])).map (fun s => (s.reads 0, (s.heap 3).nextInode)) =
        some (.reading 0 3, 4) := by decide
  obtain ⟨s', hs', hseen'⟩ := Option.map_eq_some_iff.mp hsecond
  rw [hs, Option.bind_some] at hs'
  obtain ⟨hreads, hrest⟩ := Prod.mk.inj hseen
  obtain ⟨hwrites, hrest⟩ := Prod.mk.inj hrest
  obtain ⟨hgraphs, hgraph⟩ := Prod.mk.inj hrest
  obtain ⟨hreads', hgraph'⟩ := Prod.mk.inj hseen'
  refine ⟨s, s', .of_exec .start (fun _ _ _ => trivial) hs, .of_exec .start (fun _ _ _ => trivial) hs', hreads,
    hwrites, ?_, hreads', hgraph, hgraph'⟩
  intro hapart
  refine hapart 1 0 3 ?_ ?_
  · rw [RcuState.writeCopy, hwrites]
    exact congrArg some hgraphs
  · rw [RcuState.readCopy, hreads]
    rfl

/-- A schedule of write calls is in time if no reader has loaded its index without following its pointer. -/
theorem RcuRun.of_writes {f : Nat → G → G} {s₀ s s' : RcuState G} (hrun : RcuRun f RcuState.Timely s₀ s)
    (hreads : ∀ r slot c, s.reads r ≠ .loaded slot c) {schedule : List Nat}
    (hexec : s.exec f (schedule.map .write) = some s') : RcuRun f RcuState.Timely s₀ s' := by
  induction schedule generalizing s with
  | nil =>
      cases hexec
      exact hrun
  | cons w schedule ih =>
      obtain ⟨s₁, hstep, hrest⟩ := Option.bind_eq_some_iff.mp hexec
      have hkept : s₁.reads = s.reads := (RcuState.writeStep_cases hstep).keeps.1
      refine ih (.step (.write w) hrun ?_ hstep) (hkept ▸ hreads) hrest
      intro _ _ _ r slot hr
      exact absurd hr (hreads r slot _)

/-- A reader that enters after the sample and loads the index before the swap, and follows its pointer before the
    next clone, keeps its graph over two swaps. -/
theorem rcu_isolates_in_window : ∃ s : RcuState TypeGraph,
    RcuRun issueInodes RcuState.Timely (.fromGraph (.new 0)) s ∧ s.reads 0 = .reading 0 0 ∧ s.swaps = [0, 1] ∧
      s.Apart ∧ ∃ k, s.heap 0 = replay issueInodes (.new 0) (s.swaps.take k) := by
  have hlocked : RcuRun issueInodes RcuState.Timely (.fromGraph (TypeGraph.new 0)) _ :=
    .step (.write 0) .start (fun _ _ hw => by cases hw) rfl
  have hcurrent : RcuRun issueInodes RcuState.Timely (.fromGraph (TypeGraph.new 0)) _ :=
    .step (.write 0) hlocked (fun _ _ hw => by cases hw) rfl
  have hsampled : RcuRun issueInodes RcuState.Timely (.fromGraph (TypeGraph.new 0)) _ :=
    .step (.write 0) hcurrent (fun _ _ hw => by cases hw) rfl
  have hdrawn : RcuRun issueInodes RcuState.Timely (.fromGraph (TypeGraph.new 0)) _ :=
    .step (.read 0) hsampled (fun _ => (by decide : 1 + 1 < 2 ^ 64)) rfl
  have hregistered : RcuRun issueInodes RcuState.Timely (.fromGraph (TypeGraph.new 0)) _ :=
    .step (.read 0) hdrawn (fun hr => by cases hr) rfl
  have hloaded : RcuRun issueInodes RcuState.Timely (.fromGraph (TypeGraph.new 0)) _ :=
    .step (.read 0) hregistered (fun hr => by cases hr) rfl
  have hreading : RcuRun issueInodes RcuState.Timely (.fromGraph (TypeGraph.new 0)) _ :=
    .step (.read 0) hloaded (fun hr => by cases hr) rfl
  have hexec : ((((RcuState.fromGraph (TypeGraph.new 0)).exec issueInodes
      (List.replicate 3 (.write 0) ++ List.replicate 4 (.read 0))).bind
        (·.exec issueInodes ((List.replicate 69 0 ++ List.replicate 7 1).map .write)))).map
          (fun s => (s.reads 0, s.swaps)) = some (.reading 0 0, [0, 1]) := by decide
  obtain ⟨s, hs, hseen⟩ := Option.map_eq_some_iff.mp hexec
  obtain ⟨hreads, hswaps⟩ := Prod.mk.inj hseen
  obtain ⟨s₁, hs₁, hs⟩ := Option.bind_eq_some_iff.mp hs
  have hrun : RcuRun issueInodes RcuState.Timely (.fromGraph (TypeGraph.new 0)) s := by
    cases (hs₁ : some _ = some s₁)
    refine .of_writes hreading ?_ hs
    intro r slot c
    cases r with
    | zero => rintro ⟨⟩
    | succ r => rintro ⟨⟩
  obtain ⟨hapart, _, hcopies⟩ := rcu_isolates .start hrun
  have hcopy : s.readCopy 0 = some 0 := by
    rw [RcuState.readCopy, hreads]
    rfl
  obtain ⟨k, hgraph, _⟩ := (hcopies 0 0 hcopy).1 rfl
  exact ⟨s, hrun, hreads, hswaps, hapart, k, hgraph⟩

end SotFs
