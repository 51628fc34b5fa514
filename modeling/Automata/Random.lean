import Automata.DFA.Basic

/-!
# Random automata

Automata are drawn from a source of numbers.  The source of this library is a reproducible one, so
that the same seed gives the same automata.

## What is here

* `Source` — whatever numbers can be drawn from, and `Drawing` — what is computed from them.
* `Source.fraction`, `Source.coin`, `Source.below` — a number below one, a fair choice, and a number
  below a bound.
* `randomNFA`, `randomDFA` — automata with states `0`, `1`, … over the first letters.
* `Generator` — a counter of 64 bits as a source; `Generator.next` advances it and mixes its bits.
-/

set_option autoImplicit false

namespace Automata

/-! ## Numbers -/

/-- What numbers can be drawn from. -/
class Source (σ : Type) where
  /-- The next number, and the source after it. -/
  next : σ → UInt64 × σ
  /-- How many numbers are tried when not every number will do. -/
  patience : Nat

/-- Computations that draw numbers, from whatever source. -/
abbrev Drawing (α : Type) : Type 1 := ∀ {σ : Type} [Source σ], StateM σ α

namespace Source

/-- The next number. -/
def draw : Drawing UInt64 := fun s => next s

/-- Draws until a number passes a test, at most `draws` times. -/
def firstPassing {α : Type} (test : UInt64 → Option α) (fallback : α) : Nat → Drawing α
  | 0 => return fallback
  | draws + 1 => do
    match test (← draw) with
    | some a => return a
    | none => firstPassing test fallback draws

/-- A number that is at least zero and below one. -/
def fraction : Drawing Float := fun {σ} _ =>
  firstPassing (fun n =>
    let x := (n >>> 1).toFloat / 9223372036854775808.0
    if x < 1.0 then some x else none) 0.0 (patience σ)

/-- A fair choice. -/
def coin : Drawing Bool := do
  return (← draw) % 2 == 0

/-- The two halves of the product of two numbers, the upper one first. -/
def mulHalves (a b : UInt64) : UInt64 × UInt64 :=
  let product := a.toNat * b.toNat
  (UInt64.ofNat (product / UInt64.size), UInt64.ofNat product)

/-- A number below `bound`.  It is the upper half of a product; products whose lower half is too
small are drawn again, so that all numbers are equally likely. -/
def below (bound : UInt64) : Drawing Nat := fun {σ} _ =>
  let least := (0 - bound) % bound
  firstPassing (fun n =>
    let (high, low) := mulHalves n bound
    if least ≤ low then some high.toNat else none) 0 (patience σ)

end Source

/-! ## Automata -/

open Source

/-- The states `0`, `1`, …; there is at least one. -/
def randomStates (size : Nat) : List State := (List.range (max size 1)).map toString

/-- The first letters; there is at least one and there are at most twenty-six. -/
def randomAlphabet (symbols : Nat) : FinSet Char :=
  FinSet.ofList ("abcdefghijklmnopqrstuvwxyz".toList.take (max symbols 1))

/-- Keeps each edge of a list with the given probability. -/
def keepEdges (density : Float) : List Edge → Drawing (List Edge)
  | [] => return []
  | e :: edges => do
    let kept := (← fraction) < density
    let rest ← keepEdges density edges
    return if kept then e :: rest else rest

/-- Gives each pair of a state and a symbol a random target with the given probability. -/
def chooseTargets (density : Float) (states : List State) :
    List (State × Char) → Drawing (List Edge)
  | [] => return []
  | (q, a) :: pairs => do
    let chosen ←
      if (← fraction) < density then do
        let i ← below (UInt64.ofNat states.length)
        pure (states[i]?.map fun p => (⟨q, a, p⟩ : Edge))
      else pure none
    let rest ← chooseTargets density states pairs
    return chosen.toList ++ rest

/-- Keeps each state of a list with probability one half. -/
def keepStates : List State → Drawing (List State)
  | [] => return []
  | q :: states => do
    let kept ← coin
    let rest ← keepStates states
    return if kept then q :: rest else rest

/-- A random automaton.  Every possible edge is there with the given probability, and every state
is final with probability one half. -/
def randomNFA (size symbols : Nat) (density : Float) : Drawing NFA := do
  let states := randomStates size
  let alphabet := randomAlphabet symbols
  let edges ← keepEdges density
    (states.flatMap fun q => alphabet.toList.flatMap fun a => states.map fun p => ⟨q, a, p⟩)
  let finals ← keepStates states
  return {
    states := FinSet.ofList states
    alphabet := alphabet
    start := "0"
    finals := FinSet.ofList finals
    edges := FinSet.ofList edges }

/-- A random deterministic automaton.  Every state has a move for every symbol with the given
probability, and every state is final with probability one half. -/
def randomDFA (size symbols : Nat) (density : Float) : Drawing DFA := do
  let states := randomStates size
  let alphabet := randomAlphabet symbols
  let edges ← chooseTargets density states
    (states.flatMap fun q => alphabet.toList.map fun a => (q, a))
  let finals ← keepStates states
  let moves := FunctionalRelation.ofList edges
  return {
    states := FinSet.ofList states
    alphabet := alphabet
    start := "0"
    finals := FinSet.ofList finals
    edges := moves.edges
    functional := moves.functional }

/-! ## The source of this library -/

/-- A source of numbers. -/
structure Generator where
  /-- The counter. -/
  state : UInt64
deriving DecidableEq, Repr

namespace Generator

/-- What the counter is advanced by.  It is odd, so the counter takes every value. -/
def increment : UInt64 := 0x2d358dccaa6c78a5

/-- What the counter is mixed with. -/
def mixer : UInt64 := 0x8bb84b93962eacc9

/-- The number of draws after which a generator repeats itself. -/
def period : Nat := UInt64.size

/-- The number of the current counter. -/
def output (counter : UInt64) : UInt64 :=
  let (high, low) := mulHalves counter (counter ^^^ mixer)
  low ^^^ high

/-- The next number, and the generator after it. -/
def next (g : Generator) : UInt64 × Generator :=
  let counter := g.state + increment
  (output counter, ⟨counter⟩)

instance : Source Generator := ⟨next, period⟩

end Generator

end Automata
