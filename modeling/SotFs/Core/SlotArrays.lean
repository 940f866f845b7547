/-
Module: SotFs.Core.SlotArrays
Layer: Core
Purpose: The arena as its source keeps it (sotfs-graph/src/arena.rs): an array of values, an array of slot states,
  a count, a stack of freed slots with its height, and a bump pointer, each updated on its own. What an
  operation of the source takes for granted is checked here: the result is `none` where the source would read
  uninitialised memory, index past an array or count below zero. The clone of a value is the value.
Trusted boundary: human-reviewed model
Main exports: ArenaId, SlotState, SlotArrays, SlotArrays.insertAt, SlotArrays.remove, SlotArrays.getMut,
  SlotArrays.get, SlotArrays.iter, SlotArrays.clone, SlotCall, SlotCall.serve, SlotCall.onMap
-/
import SotFs.Core.Arena

namespace SotFs

open Std (ExtTreeMap)

/-- Slot index into an arena. -/
abbrev ArenaId := UInt32

inductive SlotState where
  | vacant
  | occupied
deriving DecidableEq, Repr

/-- The fields of an arena. A value that is not initialised is `none`. -/
structure SlotArrays (T : Type) (CAPACITY : Nat) where
  data : Vector (Option T) CAPACITY
  state : Vector SlotState CAPACITY
  len : Nat
  freeList : Vector UInt32 CAPACITY
  freeCount : Nat
  nextBump : Nat

namespace SlotArrays

variable {T : Type} {CAPACITY : Nat}

def new : SlotArrays T CAPACITY where
  data := Vector.replicate CAPACITY none
  state := Vector.replicate CAPACITY .vacant
  len := 0
  freeList := Vector.replicate CAPACITY 0
  freeCount := 0
  nextBump := 0

/-- `insert_at`. -/
def insertAt (a : SlotArrays T CAPACITY) (id : ArenaId) (value : T) : Bool × SlotArrays T CAPACITY :=
  if h : id.toNat < CAPACITY then
    match a.state[id.toNat] with
    | .occupied => (false, a)
    | .vacant =>
        (true,
          { a with
            nextBump := if a.nextBump ≤ id.toNat then id.toNat + 1 else a.nextBump
            data := a.data.set id.toNat (some value)
            state := a.state.set id.toNat .occupied
            len := a.len + 1 })
  else (false, a)

/-- `remove`: the value is moved out of its slot. -/
def remove (a : SlotArrays T CAPACITY) (id : ArenaId) : Option (Option T × SlotArrays T CAPACITY) :=
  if h : id.toNat < CAPACITY then
    match a.state[id.toNat] with
    | .vacant => some (none, a)
    | .occupied =>
        match a.data[id.toNat], a.len with
        | some value, len + 1 =>
            some (some value,
              { a with
                data := a.data.set id.toNat none
                state := a.state.set id.toNat .vacant
                len := len
                freeList := if hfree : a.freeCount < CAPACITY then a.freeList.set a.freeCount id else a.freeList
                freeCount := if a.freeCount < CAPACITY then a.freeCount + 1 else a.freeCount })
        | _, _ => none
  else some (none, a)

/-- `get`. -/
def get (a : SlotArrays T CAPACITY) (id : ArenaId) : Option (Option T) :=
  if h : id.toNat < CAPACITY then
    match a.state[id.toNat] with
    | .vacant => some none
    | .occupied => a.data[id.toNat].map some
  else some none

/-- A write through `get_mut`, and whether there was anything to write to. -/
def getMut (a : SlotArrays T CAPACITY) (id : ArenaId) (f : T → T) : Option (Bool × SlotArrays T CAPACITY) :=
  if h : id.toNat < CAPACITY then
    match a.state[id.toNat] with
    | .vacant => some (false, a)
    | .occupied => a.data[id.toNat].map fun value => (true, { a with data := a.data.set id.toNat (some (f value)) })
  else some (false, a)

/-- `contains`. -/
def contains (a : SlotArrays T CAPACITY) (id : ArenaId) : Bool :=
  if h : id.toNat < CAPACITY then a.state[id.toNat] == .occupied else false

/-- What an iterator yields in `n` slots from `pos` on: an item for each occupied slot. -/
def walk {β : Type} (a : SlotArrays T CAPACITY) (item : Nat → Option β) : Nat → Nat → Option (List β)
  | 0, _ => some []
  | n + 1, pos =>
      match a.state[pos]? with
      | none => none
      | some .vacant => a.walk item n (pos + 1)
      | some .occupied =>
          match item pos with
          | none => none
          | some x => (a.walk item n (pos + 1)).map (x :: ·)

/-- `iter`, from its start to its end. -/
def iter (a : SlotArrays T CAPACITY) : Option (List (ArenaId × T)) :=
  a.walk (fun i => a.data[i]?.join.map fun value => (UInt32.ofNat i, value)) a.nextBump 0

/-- `keys`. -/
def keys (a : SlotArrays T CAPACITY) : Option (List ArenaId) :=
  a.walk (fun i => some (UInt32.ofNat i)) a.nextBump 0

/-- `values`. -/
def values (a : SlotArrays T CAPACITY) : Option (List T) := a.walk (fun i => a.data[i]?.join) a.nextBump 0

/-- The values of the first `n` slots, copied to a fresh array. -/
def copyData (a : SlotArrays T CAPACITY) : Nat → Option (Vector (Option T) CAPACITY)
  | 0 => some (Vector.replicate CAPACITY none)
  | i + 1 =>
      match a.copyData i with
      | none => none
      | some data =>
          if h : i < CAPACITY then
            match a.state[i] with
            | .vacant => some data
            | .occupied => a.data[i].map fun value => data.set i (some value)
          else none

/-- `clone`. -/
def clone (a : SlotArrays T CAPACITY) : Option (SlotArrays T CAPACITY) :=
  (a.copyData a.nextBump).map fun data => { a with data := data }

end SlotArrays

/-- A call as the graph makes it: ids are given, never asked for. -/
inductive SlotCall (T : Type) where
  | insertAt (id : ArenaId) (value : T)
  | remove (id : ArenaId)
  | write (id : ArenaId) (f : T → T)

inductive SlotReply (T : Type) where
  | done (success : Bool)
  | removed (value : Option T)
deriving DecidableEq, Repr

/-- What a call answers and what it makes of the arrays. -/
def SlotCall.serve {T : Type} {CAPACITY : Nat} (call : SlotCall T) (a : SlotArrays T CAPACITY) :
    Option (SlotReply T × SlotArrays T CAPACITY) :=
  match call with
  | .insertAt id value => some (.done (a.insertAt id value).1, (a.insertAt id value).2)
  | .remove id => (a.remove id).map fun r => (.removed r.1, r.2)
  | .write id f => (a.getMut id f).map fun r => (.done r.1, r.2)

/-- What a call should answer and make of a map: an id is entered if it is below the capacity and new. -/
def SlotCall.onMap {T : Type} (CAPACITY : Nat) (call : SlotCall T) (m : ExtTreeMap ArenaId T) :
    SlotReply T × ExtTreeMap ArenaId T :=
  match call with
  | .insertAt id value =>
      if id.toNat < CAPACITY ∧ id ∉ m then (.done true, m.insert id value) else (.done false, m)
  | .remove id => (.removed m[id]?, m.erase id)
  | .write id f => (.done (m.contains id), m.modify id f)

end SotFs
