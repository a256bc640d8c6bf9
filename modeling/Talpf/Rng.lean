import Talpf.Library.Search
import Mathlib.Algebra.Group.Nat.Defs

/-!
# The random number generator

The generator of the benchmarks is a linear congruential one modulo `2 ^ 64`,
and can be split into the streams of several processes.  Splitting it needs the
product of two words and the quotient of two words by one, which are computed in
words.  The quotient begins with an estimate in floating-point arithmetic, which
may be any word, and is corrected by two loops that run with fuel.
-/

namespace Talpf

open Search

structure Rng where
  multiplier : UInt64
  increment : UInt64
  value : UInt64
deriving DecidableEq, Repr

namespace Rng

/-- The loop of `int_pow`. -/
def multiplyPowers : ℕ → UInt64 → UInt64 → UInt64 → UInt64
  | 0, y, _, _ => y
  | i + 1, y, power, m =>
      multiplyPowers i (if m % 2 = 1 then y * power else y) (power * power) (m / 2)

/-- `int_pow` goes through its loop as often as the exponent says. -/
def intPow (x n : UInt64) : UInt64 := multiplyPowers n.toNat 1 x n

def create (seed : UInt64) : Rng where
  multiplier := 6364136223846793005
  increment := 1442695040888963407
  value := seed

/-- `rng_next`, which returns the new value. -/
def next (state : Rng) : Rng :=
  { state with value := state.multiplier * state.value + state.increment }

/-- The high and the low word that `mult64` stores. -/
def mult64 (a b : UInt64) : UInt64 × UInt64 :=
  let aHigh := a >>> 32
  let bHigh := b >>> 32
  let aLow := a &&& 0xffffffff
  let bLow := b &&& 0xffffffff
  let xMiddle := aLow * bHigh + aHigh * bLow
  (aHigh * bHigh + (xMiddle >>> 32), aLow * bLow + (xMiddle &&& 0xffffffff))

/-- The negated condition of the first loop of `div64`. -/
def lowEnough (xHigh xLow nom estimate : UInt64) : Bool :=
  let (yHigh, yLow) := mult64 nom estimate
  !(yHigh ≥ xHigh || (yHigh == xHigh && yLow > xLow))

/-- The negated condition of the second loop of `div64`. -/
def tooHigh (xHigh xLow nom estimate : UInt64) : Bool :=
  let (yHigh, yLow) := mult64 nom estimate
  !(yHigh < xHigh || (yHigh == xHigh && yLow ≤ xLow))

/-- `div64`; the assertion between its loops repeats what the first of them has tested.  `none` is
a division by zero, or more steps of a loop than there is fuel. -/
def div64 (fuel : ℕ) (estimate xHigh xLow nom : UInt64) : Option UInt64 :=
  if xHigh = 0 then if nom = 0 then none else some (xLow / nom)
  else
    (search (lowEnough xHigh xLow nom) (· - 1) fuel estimate).bind fun estimate =>
      (search (tooHigh xHigh xLow nom) (· + 1) fuel estimate).map fun estimate => estimate - 1

/-- `rng_parallelize`, with the estimates of its two divisions. -/
def parallelize (fuel : ℕ) (estimate estimate' : UInt64) (state : Rng) (pid nprocs : UInt64) :
    Option Rng :=
  let a := state.multiplier
  let b := a - 1
  let c := state.increment
  let aNprocs := intPow a nprocs
  let aPid := intPow a pid
  let (xHigh, xLow) := mult64 (aPid - 1) c
  (div64 fuel estimate xHigh xLow b).bind fun quotient =>
    let value := aPid * state.value + quotient
    let (xHigh, xLow) := mult64 (aNprocs - 1) c
    (div64 fuel estimate' xHigh xLow b).map fun increment => ⟨aNprocs, increment, value⟩

end Rng

end Talpf
