/-
Module: SotFs.Core.Rcu
Layer: Core
Purpose: Epoch-based read-copy-update (sotfs-graph/src/rcu.rs), as threads that interleave: every atomic load,
  store, `fetch_add` and `compare_exchange`, the shadow clone, and the start and the end of each closure is one
  step, sequentially consistent. The graphs are in boxes on a heap and `graphs` holds two pointers: a clone goes
  to a new box and replaces one pointer, and a read call follows its pointer when its closure starts. Any number
  of `read` and `write` calls may be under way; a call is known by its number, and `f w` is the closure of the
  write call `w`. The type of the graphs is a parameter. The order of the swaps and the epoch up to which the
  last of them waits for readers are noted, and no step depends on these notes.
Trusted boundary: human-reviewed model
Main exports: RcuGraph, ReadPhase, WritePhase, RcuState, RcuState.step, RcuRun, RcuState.exec
-/
import Mathlib

namespace SotFs

/-- Maximum concurrent readers. -/
def MAX_READERS : Nat := 64

/-- A reader slot that is not active. -/
def EPOCH_INACTIVE : Nat := 0

/-- The index of the copy that is not the current one. -/
def inactive (current : Fin 2) : Fin 2 := 1 - current

/-- The fields the calls share, and the heap: `graphs` points to boxes, and box `boxes` is the next to be
    allocated. The slots of `reader_epochs` past `MAX_READERS` are not used. -/
structure RcuGraph (G : Type) where
  heap : Nat → G
  boxes : Nat
  graphs : Fin 2 → Nat
  active : Fin 2
  globalEpoch : Nat
  readerEpochs : Nat → Nat
  writeLocked : Bool

/-- Where a `read` call is: each phase is named by what was done last. -/
inductive ReadPhase where
  /-- Before the `fetch_add` of `rcu_read_lock`. -/
  | entering
  /-- In the loop of `rcu_read_lock`, before the `compare_exchange` on slot `i`. -/
  | probing (epoch i : Nat)
  /-- All slots were occupied. -/
  | panicked
  /-- The slot is taken; `active` is not loaded yet. -/
  | registered (slot : Nat)
  /-- The index is loaded; the pointer behind it is not followed yet. -/
  | loaded (slot : Nat) (idx : Fin 2)
  /-- The closure runs on the graph in a box. -/
  | reading (slot box : Nat)
  | finished (slot box : Nat)
  | returned
deriving DecidableEq, Repr

/-- Where a `write` call is. -/
inductive WritePhase where
  /-- In the loop of `acquire_write_lock`. -/
  | acquiring
  | locked
  | loaded (current : Fin 2)
  /-- `pre_swap_epoch` is loaded; the clone is next. -/
  | sampled (current : Fin 2) (preSwapEpoch : Nat)
  | cloned (current : Fin 2) (preSwapEpoch : Nat)
  /-- The closure runs. -/
  | mutating (current : Fin 2) (preSwapEpoch : Nat)
  | mutated (current : Fin 2) (preSwapEpoch : Nat)
  /-- In `rcu_synchronize`, before the load of slot `i`; all slots before it were clear. -/
  | scanning (preSwapEpoch i : Nat)
  | returned
deriving DecidableEq, Repr

/-- The shared fields, the calls, the write calls in the order of their swaps, and the `pre_swap_epoch` of the
    last of them. -/
structure RcuState (G : Type) extends RcuGraph G where
  reads : Nat → ReadPhase
  writes : Nat → WritePhase
  swaps : List Nat
  waited : Nat

/-- What the scheduler may let run: the next step of a call, or a `compare_exchange_weak` of a write call that
    fails though the lock may be free. -/
inductive RcuAction where
  | read (r : Nat)
  | write (w : Nat)
  | spuriousFailure (w : Nat)
deriving DecidableEq, Repr

namespace RcuState

variable {G : Type}

/-- `from_graph`, before any call: the graph in one box and its clone in another. -/
def fromGraph (g : G) : RcuState G where
  heap := fun _ => g
  boxes := 2
  graphs := fun i => i.val
  active := 0
  globalEpoch := 1
  readerEpochs := fun _ => EPOCH_INACTIVE
  writeLocked := false
  reads := fun _ => .entering
  writes := fun _ => .acquiring
  swaps := []
  waited := 0

/-- The read call `r` goes on to a phase. -/
def advanceRead (s : RcuState G) (r : Nat) (phase : ReadPhase) : RcuState G :=
  { s with reads := Function.update s.reads r phase }

/-- The write call `w` goes on to a phase. -/
def advanceWrite (s : RcuState G) (w : Nat) (phase : WritePhase) : RcuState G :=
  { s with writes := Function.update s.writes w phase }

/-- The next step of a `read` call. -/
def readStep (s : RcuState G) (r : Nat) : Option (RcuState G) :=
  match s.reads r with
  | .entering =>
      -- the counter of 64 bits wraps around, and so does the epoch
      let epoch := (s.globalEpoch + 1) % 2 ^ 64
      some ({ s with globalEpoch := epoch }.advanceRead r (.probing epoch 0))
  | .probing epoch i =>
      if i < MAX_READERS then
        if s.readerEpochs i = EPOCH_INACTIVE then
          some ({ s with readerEpochs := Function.update s.readerEpochs i epoch }.advanceRead r (.registered i))
        else some (s.advanceRead r (.probing epoch (i + 1)))
      else some (s.advanceRead r .panicked)
  | .registered slot => some (s.advanceRead r (.loaded slot s.active))
  | .loaded slot idx => some (s.advanceRead r (.reading slot (s.graphs idx)))
  | .reading slot box => some (s.advanceRead r (.finished slot box))
  | .finished slot _ =>
      some ({ s with readerEpochs := Function.update s.readerEpochs slot EPOCH_INACTIVE }.advanceRead r .returned)
  | .panicked | .returned => none

/-- The next step of a `write` call with its closure. -/
def writeStep (f : G → G) (s : RcuState G) (w : Nat) : Option (RcuState G) :=
  match s.writes w with
  | .acquiring =>
      if s.writeLocked then some s
      else some ({ s with writeLocked := true }.advanceWrite w .locked)
  | .locked => some (s.advanceWrite w (.loaded s.active))
  | .loaded current => some (s.advanceWrite w (.sampled current s.globalEpoch))
  | .sampled current preSwapEpoch =>
      -- `ptr::write` leaves the old box on the heap
      some ({ s with
        heap := Function.update s.heap s.boxes (s.heap (s.graphs current))
        boxes := s.boxes + 1
        graphs := Function.update s.graphs (inactive current) s.boxes }.advanceWrite w (.cloned current preSwapEpoch))
  | .cloned current preSwapEpoch => some (s.advanceWrite w (.mutating current preSwapEpoch))
  | .mutating current preSwapEpoch =>
      let box := s.graphs (inactive current)
      some ({ s with heap := Function.update s.heap box (f (s.heap box)) }.advanceWrite w
        (.mutated current preSwapEpoch))
  | .mutated current preSwapEpoch =>
      some ({ s with
        active := inactive current
        swaps := s.swaps ++ [w]
        waited := preSwapEpoch }.advanceWrite w (.scanning preSwapEpoch 0))
  | .scanning preSwapEpoch i =>
      if i < MAX_READERS then
        let e := s.readerEpochs i
        if e ≠ EPOCH_INACTIVE ∧ e ≤ preSwapEpoch then some (s.advanceWrite w (.scanning preSwapEpoch 0))
        else some (s.advanceWrite w (.scanning preSwapEpoch (i + 1)))
      else some ({ s with writeLocked := false }.advanceWrite w .returned)
  | .returned => none

/-- One step of the calls. -/
def step (f : Nat → G → G) (s : RcuState G) : RcuAction → Option (RcuState G)
  | .read r => s.readStep r
  | .write w => s.writeStep (f w) w
  | .spuriousFailure w => if s.writes w = .acquiring then some s else none

/-- A schedule. -/
def exec (f : Nat → G → G) (s : RcuState G) : List RcuAction → Option (RcuState G)
  | [] => some s
  | a :: schedule => (s.step f a).bind fun s' => s'.exec f schedule

end RcuState

/-- Any interleaving of steps that a condition on the state before the step allows. -/
inductive RcuRun {G : Type} (f : Nat → G → G) (allowed : RcuState G → RcuAction → Prop) (s₀ : RcuState G) :
    RcuState G → Prop where
  | start : RcuRun f allowed s₀ s₀
  | step {s s' : RcuState G} (a : RcuAction) (hrun : RcuRun f allowed s₀ s) (hallowed : allowed s a)
      (hstep : s.step f a = some s') : RcuRun f allowed s₀ s'

end SotFs
