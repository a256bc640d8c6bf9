import Talpf.MemoryRegister
import Talpf.SparseSet
import Mathlib.Algebra.Group.Nat.Defs

/-!
# Sorting messages by their destination

`MessageSort` resolves conflicting writes.  Registered slots that overlap or
touch share a region, and every region has an array with one entry for each
grain of its memory.  Pushing a write marks the grains that it covers with its
message number unless they are marked with a larger one; popping cuts maximal
runs of equally marked grains off, region by region.

Indices and sizes are of type `size_t`.  Only differences can leave its range
here, and message numbers wrap at 32 bits.
-/

namespace Talpf

/-- `size_t(-1)` -/
def sizeMax : ℕ := 2 ^ 64 - 1

/-- A difference of type `size_t`. -/
def subSize (a b : ℕ) : ℕ := (a + 2 ^ 64 - b) % 2 ^ 64

/-- `std::vector::resize` -/
def resizeVector {α : Type} (fill : α) (newSize : ℕ) (entries : List α) : List α :=
  entries.take newSize ++ List.replicate (newSize - entries.length) fill

/-- The marks of the grains of a region; zero is no mark, and otherwise the mark is the message
number plus one. -/
structure Writes where
  /-- All marks lie between `min` and `max`. -/
  min : ℕ
  max : ℕ
  memory : List ℕ
deriving DecidableEq, Repr

namespace Writes

def create (size : ℕ) : Writes := ⟨sizeMax, 0, List.replicate size 0⟩

/-- Grow the array.  `none` is a failed assertion. -/
def resize (writes : Writes) (newSize : ℕ) : Option Writes :=
  if writes.memory.length ≤ newSize then
    some { writes with memory := resizeVector 0 newSize writes.memory }
  else none

/-- Mark a number of entries from `start` on, except where there is a larger mark. -/
def mark (id : ℕ) : (start size : ℕ) → List ℕ → List ℕ
  | _, 0, memory => memory
  | start, size + 1, memory =>
      mark id (start + 1) size
        (memory.modify start fun stored => if id ≥ stored then (id + 1) % 2 ^ 32 else stored)

/-- Push a write.  `none` is a failed assertion. -/
def push (writes : Writes) (id start size : ℕ) : Option Writes :=
  if start + size ≤ writes.memory.length then
    some
      { min := Nat.min writes.min start
        max := Nat.max writes.max (subSize (start + size) 1)
        memory := mark id start size writes.memory }
  else none

/-- Whether a message may write a grain.  `none` is a failed assertion. -/
def test (writes : Writes) (id start : ℕ) : Option Bool :=
  if start ≤ writes.memory.length then
    some (start == writes.memory.length || decide (id ≥ writes.memory.getD start 0))
  else none

/-- Clear entry `i` and the entries after it that have the same mark, but at most `left` more. -/
def clearRun (id : ℕ) : (left i : ℕ) → List ℕ → ℕ × List ℕ
  | 0, i, memory => (i + 1, memory.set i 0)
  | left + 1, i, memory =>
      let memory := memory.set i 0
      if memory.getD (i + 1) 0 = (id + 1) % 2 ^ 32 then clearRun id left (i + 1) memory
      else (i + 1, memory)

/-- Skip at most `left` entries without a mark. -/
def skipGap : (left i : ℕ) → List ℕ → ℕ
  | 0, i, _ => i
  | left + 1, i, memory => if memory.getD i 0 = 0 then skipGap left (i + 1) memory else i

/-- Pop a run of equal marks: its message number, its start and its size.  The outer `none` is a
failed assertion or an access beyond the array. -/
def pop (writes : Writes) : Option (Option (ℕ × ℕ × ℕ) × Writes) :=
  if writes.max < writes.min then some (none, writes)
  else if writes.max < writes.memory.length then
    let id := (writes.memory.getD writes.min 0 + 2 ^ 32 - 1) % 2 ^ 32
    let (i, memory) := clearRun id (writes.max - writes.min) writes.min writes.memory
    let size := i - writes.min
    let min := skipGap (writes.max + 1 - i) i memory
    if min > writes.max then
      if writes.max = min - 1 then some (some (id, writes.min, size), ⟨sizeMax, 0, memory⟩)
      else none
    else some (some (id, writes.min, size), ⟨min, writes.max, memory⟩)
  else none

/-- Drop all marks.  `none` is a failed assertion. -/
def clear (writes : Writes) : Option Writes :=
  if writes.min < writes.max then
    if writes.max + 1 ≤ writes.memory.length then
      some ⟨sizeMax, 0, writes.memory.mapIdx fun i mark =>
        if writes.min ≤ i ∧ i ≤ writes.max then 0 else mark⟩
    else none
  else some ⟨sizeMax, 0, writes.memory⟩

end Writes

structure MessageSort.Slot where
  slot : ℕ
  base : ℕ
  size : ℕ
deriving DecidableEq, Repr

structure MessageSort.Region where
  region : ℕ
  base : ℕ
  size : ℕ
deriving DecidableEq, Repr

structure MessageSort.SlotToRegion where
  region : ℕ
  offset : ℕ
deriving DecidableEq, Repr

structure MessageSort where
  memslots : List MessageSort.Slot
  regions : List MessageSort.Region
  /-- The multiset of regions, in its order. -/
  sortedRegions : List MessageSort.Region
  slotToRegion : List MessageSort.SlotToRegion
  writes : List Writes
  /-- The regions with marks. -/
  dirty : SparseSet
  msgGrainPower : ℕ
deriving DecidableEq, Repr

namespace MessageSort

/-- What the constructor leaves behind. -/
def initial (msgGrainPower : ℕ) : MessageSort where
  memslots := []
  regions := []
  sortedRegions := []
  slotToRegion := []
  writes := []
  dirty := .reset 0 0
  msgGrainPower := msgGrainPower

/-- What a vector throws that cannot grow. -/
inductive VectorExn where
  | badAlloc
  | lengthError
deriving DecidableEq, Repr

def VectorExn.toExn : VectorExn → Exn
  | .badAlloc => .badAlloc
  | .lengthError => .lengthError

/-- The exceptions that the allocations of `setSlotRange` throw. -/
structure SlotRangeFaults where
  memslots : Option VectorExn
  regions : Option VectorExn
  slotToRegion : Option VectorExn
deriving DecidableEq, Repr

namespace SlotRangeFaults

def none : SlotRangeFaults := ⟨.none, .none, .none⟩

end SlotRangeFaults

/-- Set the number of slots. -/
def setSlotRange (faults : SlotRangeFaults) (sort : MessageSort) (range : ℕ) :
    MessageSort × Option Exn :=
  match faults.memslots with
  | some exn => (sort, some exn.toExn)
  | none =>
      let sort := { sort with memslots := resizeVector ⟨0, 0, 0⟩ range sort.memslots }
      match faults.regions with
      | some exn => (sort, some exn.toExn)
      | none =>
          match faults.slotToRegion with
          | some exn => (sort, some exn.toExn)
          | none =>
              ({ sort with slotToRegion := resizeVector ⟨0, 0⟩ range sort.slotToRegion }, none)

/-- The order of the multiset: `a` lies before `b` and does not touch it. -/
def precedes (a b : Region) : Bool := decide (a.base + a.size < b.base)

/-- The regions before those that overlap or touch a new one, these, and the regions after. -/
def equalRange (sorted : List Region) (newRegion : Region) :
    List Region × List Region × List Region :=
  let rest := sorted.dropWhile (precedes · newRegion)
  (sorted.takeWhile (precedes · newRegion), rest.takeWhile (!precedes newRegion ·),
    rest.dropWhile (!precedes newRegion ·))

/-- Insert into the multiset, after all equivalent regions. -/
def insertRegion (sorted : List Region) (newRegion : Region) : List Region :=
  sorted.takeWhile (!precedes newRegion ·) ++ newRegion ::
    sorted.dropWhile (!precedes newRegion ·)

/-- The extent of a region together with those that it overlaps, under the smallest of their
numbers. -/
def extent (newRegion : Region) (range : List Region) : Region :=
  let minBase := range.foldl (fun least i => if i.base < least then i.base else least)
    newRegion.base
  let maxAddr := range.foldl
    (fun largest i => if i.base + i.size > largest then i.base + i.size else largest)
    (newRegion.base + newRegion.size)
  let minRegion := range.foldl (fun least i => if i.region < least then i.region else least)
    newRegion.region
  ⟨minRegion, minBase, maxAddr - minBase⟩

/-- Extend the set of dirty regions until it has room for a number of regions. -/
def growDirty (count : ℕ) : (fuel : ℕ) → SparseSet → SparseSet
  | 0, dirty => dirty
  | fuel + 1, dirty =>
      if count > dirty.max then growDirty count fuel (dirty.resize (Nat.max 1 (2 * dirty.max)))
      else dirty

/-- Add a new region, or extend the oldest of the regions that it overlaps.  `none` is a failed
assertion or an access beyond an array. -/
def storeRegion (sort : MessageSort) (newRegion : Region) (range : List Region) :
    Option MessageSort :=
  if range.isEmpty then
    some { sort with
      writes := sort.writes ++ [.create (newRegion.size >>> sort.msgGrainPower)]
      regions := sort.regions ++ [newRegion] }
  else
    match sort.writes[newRegion.region]? with
    | none => none
    | some array =>
        (array.resize (newRegion.size >>> sort.msgGrainPower)).map fun array =>
          { sort with
            writes := sort.writes.set newRegion.region array
            regions := sort.regions.set newRegion.region newRegion }

/-- Return the arrays of the regions that are discarded. -/
def discardWrites (range : List Region) (newRegion : Region) (writes : List Writes) :
    List Writes :=
  range.foldl
    (fun writes i =>
      if i.region ≠ newRegion.region then writes.set i.region (.create 0) else writes)
    writes

/-- Let a slot with the given base refer to the new region if it refers to a discarded one. -/
def redirect (range : List Region) (newRegion : Region) (base : ℕ) (entry : SlotToRegion) :
    SlotToRegion :=
  range.foldl
    (fun entry i => if entry.region = i.region then ⟨newRegion.region, subSize base newRegion.base⟩
      else entry)
    entry

/-- Register a slot.  `none` is a failed assertion or an access beyond an array. -/
def addRegister (sort : MessageSort) (id base size : ℕ) : Option MessageSort :=
  let dirty := growDirty sort.regions.length sort.regions.length sort.dirty
  let (before, range, after) := equalRange sort.sortedRegions ⟨sort.regions.length, base, size⟩
  let newRegion := extent ⟨sort.regions.length, base, size⟩ range
  (storeRegion { sort with dirty := dirty } newRegion range).bind fun sort =>
    if id < sort.memslots.length ∧ id < sort.slotToRegion.length then
      let memslots := sort.memslots.set id ⟨id, base, size⟩
      let slotToRegion := sort.slotToRegion.mapIdx fun s entry =>
        redirect range newRegion ((memslots[s]?.map Slot.base).getD 0) entry
      some { sort with
        memslots := memslots
        writes := discardWrites range newRegion sort.writes
        sortedRegions := insertRegion (before ++ after) newRegion
        slotToRegion := slotToRegion.set id ⟨newRegion.region, subSize base newRegion.base⟩ }
    else none

/-- Forget a slot.  `none` is an access beyond an array. -/
def delRegister (sort : MessageSort) (id : ℕ) : Option MessageSort :=
  if id < sort.memslots.length ∧ id < sort.slotToRegion.length then
    some { sort with
      memslots := sort.memslots.set id ⟨sizeMax, 0, 0⟩
      slotToRegion := sort.slotToRegion.set id ⟨sizeMax, sizeMax⟩ }
  else none

/-- Push a write.  The offset and the size that it returns are those of the part of the write that
consists of whole grains.  `none` is a failed assertion or an access beyond an array. -/
def pushWrite (sort : MessageSort) (msgId slot offset size : ℕ) :
    Option (MessageSort × ℕ × ℕ) :=
  if size = 0 then some (sort, offset, size)
  else
    match sort.slotToRegion[slot]? with
    | none => none
    | some entry =>
        let start := entry.offset + offset
        let msgGrainSize := 1 <<< sort.msgGrainPower
        -- a conjunction with `msgGrainSize - 1` is a remainder
        let diff := msgGrainSize - 1 - (start + (msgGrainSize - 1)) % msgGrainSize
        match sort.writes[entry.region]? with
        | none => none
        | some array =>
            (array.push msgId ((start + diff) >>> sort.msgGrainPower)
              (subSize size diff >>> sort.msgGrainPower)).map fun array =>
                ({ sort with
                    writes := sort.writes.set entry.region array
                    dirty := sort.dirty.insert entry.region },
                  offset + diff, subSize size diff - subSize size diff % msgGrainSize)

/-- A write that was popped. -/
structure Popped where
  msgId : ℕ
  base : ℕ
  size : ℕ
deriving DecidableEq, Repr

/-- Pop from the first dirty region that has marks, and forget those before it. -/
def popDirty : (left : ℕ) → MessageSort → Option (Option Popped × MessageSort)
  | 0, sort => some (none, sort)
  | left + 1, sort =>
      match sort.dirty.elements with
      | [] => some (none, sort)
      | region :: _ =>
          match sort.writes[region]? with
          | none => none
          | some array =>
              array.pop.bind fun (popped, array) =>
                let sort := { sort with writes := sort.writes.set region array }
                match popped with
                | none => popDirty left { sort with dirty := sort.dirty.erase region }
                | some (msgId, start, size) =>
                    sort.regions[region]?.map fun found =>
                      (some ⟨msgId, found.base + (start <<< sort.msgGrainPower),
                        size <<< sort.msgGrainPower⟩, sort)

/-- Pop a write, if there is one.  The outer `none` is a failed assertion or an access beyond an
array. -/
def popWrite (sort : MessageSort) : Option (Option Popped × MessageSort) :=
  popDirty sort.dirty.size sort

/-- Whether a message may write the grain of an address.  `none` is a failed assertion or an access
beyond an array. -/
def canWrite (sort : MessageSort) (msgId slot offset : ℕ) : Option Bool :=
  match sort.slotToRegion[slot]? with
  | none => none
  | some entry =>
      sort.writes[entry.region]?.bind fun array =>
        array.test msgId ((entry.offset + offset) >>> sort.msgGrainPower)

/-- Clear the arrays one after the other. -/
def clearAll : List Writes → Option (List Writes)
  | [] => some []
  | writes :: rest => writes.clear.bind fun writes => (clearAll rest).map (writes :: ·)

/-- Drop all writes.  `none` is a failed assertion. -/
def clear (sort : MessageSort) : Option MessageSort :=
  (clearAll sort.writes).map fun writes =>
    { sort with dirty := sort.dirty.clear, writes := writes }

def empty (sort : MessageSort) : Bool := sort.dirty.empty

end MessageSort

end Talpf
