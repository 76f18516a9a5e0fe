import Disguise.Word

/-!
Random choices. A source is either a generator with a 64-bit state or a script that is read round
and round; a script can make any sequence of choices, so a statement about all sources covers all
of them. Which source a program gets is up to its host. `Rand` keeps a record of the choices made.
-/
namespace Disguise

inductive Source where
  | seeded (state : UInt64)
  | scripted (draws : List UInt64) (taken : Nat)
  deriving DecidableEq, Repr

namespace Source

/-- The finishing function of the generator: a bijection that spreads the bits of its state. -/
def mix (s : UInt64) : UInt64 :=
  let z := (s ^^^ (s >>> 30)) * 0xBF58476D1CE4E5B9
  let z := (z ^^^ (z >>> 27)) * 0x94D049BB133111EB
  z ^^^ (z >>> 31)

def advance (s : UInt64) : UInt64 := s + 0x9E3779B97F4A7C15

/-- A word of 64 random bits. -/
def word : Source → UInt64 × Source
  | seeded s => (mix (advance s), seeded (advance s))
  | scripted draws k => (draws.getD (k % draws.length) 0, scripted draws (k + 1))

/-- Draws until the word without its low `shift` bits is at most `most`. The state has `2 ^ 64`
values, so drawing longer than that would never end. -/
def draw (shift : UInt64) (most : Nat) : (fuel : Nat) → UInt64 → Nat × UInt64
  | 0, s => (0, s)
  | fuel + 1, s =>
    let s := advance s
    let v := (mix s >>> shift).toNat
    if v ≤ most then (v, s) else draw shift most fuel s

/-- A number that spreads evenly over the remainders modulo `n`. A seeded source takes 31 bits for
small `n` and 63 otherwise, and draws again when a word falls into the last, incomplete run of `n`
values. -/
def even (n : Nat) : Source → Nat × Source
  | seeded s =>
    let bits := if n < 0x80000000 then 31 else 63
    let (v, s) := draw (64 - bits).toUInt64 (Nat.pow 2 bits - 1 - Nat.pow 2 bits % n) UInt64.size s
    (v, seeded s)
  | scripted draws k =>
    let (d, src) := word (scripted draws k)
    (d.toNat, src)

/-- A number below `n`. -/
def below (n : Nat) (s : Source) : Nat × Source :=
  let (v, s) := s.even n
  (v % n, s)

theorem below_lt (s : Source) {n : Nat} (hn : 0 < n) : (s.below n).1 < n := by
  unfold below
  rcases s.even n with ⟨v, s'⟩
  exact Nat.mod_lt v hn

end Source

/-- A choice that was made. -/
inductive Draw where
  | below (n v : Nat)
  | value (bits : Int) (v : UInt64)
  | word (v : UInt64)
  deriving DecidableEq, Repr

/-- A source with the choices made so far, the last one first. -/
structure Rand where
  source : Source
  trace : List Draw := []
  deriving DecidableEq, Repr

/-- Computations that choose at random and stop at a violation; the choices made until then stay
made. -/
abbrev Choice := ExceptT Violation (StateM Rand)

namespace Choice

def run {α : Type} (c : Choice α) (r : Rand) : Except Violation α × Rand := (ExceptT.run c).run r

def word : Choice UInt64 := do
  let r ← get
  let (v, source) := r.source.word
  set { r with source, trace := .word v :: r.trace : Rand }
  pure v

/-- A number from zero up to, but not, `n`. -/
def below (n : Int) : Choice Nat := do
  if n ≤ 0 then throw .badChoice
  let r ← get
  let (v, source) := r.source.below n.toNat
  set { source, trace := .below n.toNat v :: r.trace : Rand }
  pure v

/-- A word of the given width. -/
def value (bits : Int) : Choice UInt64 := do
  let r ← get
  let (w, source) := r.source.word
  set { r with source : Rand }
  let v ← Word.truncate w bits
  set { source, trace := .value bits v :: r.trace : Rand }
  pure v

def coin : Choice Bool := do pure ((← below 2) = 0)

/-- True once in `n` times. -/
def oneIn (n : Int) : Choice Bool := do pure ((← below n) = 0)

/-- True `n` times out of `total`. -/
def outOf (n total : Int) : Choice Bool := do
  if n ≤ 0 ∨ total ≤ n then throw .badProbability
  pure ((← below total) < n)

end Choice

namespace Special

/-- Small numbers and the neighbours of powers of two, in increasing order. -/
def numbers : List UInt64 :=
  [0, 1, 2, 3, 4, 5, 6, 7, 8, 9, 10, 11, 12, 13, 14, 15, 16,
    64, 127, 128, 129, 255, 256, 257, 511, 512,
    1023, 1024, 1025, 2047, 2048, 4095, 4096,
    0x7FFF, 0x8000, 0x8001, 0xFFFF, 0x10000, 0x10001,
    0x7FFFFFFF, 0x80000000, 0x80000001, 0xFFFFFFFF, 0x100000000, 0x100000001,
    0x7FFFFFFFFFFFFFFF, 0x8000000000000000, 0x8000000000000001, 0xFFFFFFFFFFFFFFFF]

/-- How many of the numbers fit into `bytes` bytes. -/
def countOf (bytes : Nat) : Nat := numbers.countP fun v => v.toNat < Nat.pow 2 (8 * bytes)

/-- The counts for zero to eight bytes. -/
def counts : List Nat := (List.range 9).map countOf

end Special

namespace Choice

/-- One of the special numbers that fit into the whole bytes of a width. -/
def special (bits : Int) : Choice UInt64 :=
  match Special.counts[(bits / 8).toNat]? with
  | none => throw .absent
  | some n => do pure (Special.numbers.getD (← below n) 0)

/-- A word that is sometimes cut to eight or twelve bits. -/
def shortened (v : UInt64) : Choice UInt64 := do
  if ← outOf 10 32 then pure (v % 256)
  else if ← outOf 10 22 then pure (v % 4096)
  else pure v

/-- A word that is often small or, at a width of a byte or more, special. -/
def likely (v : UInt64) (bits : Int) : Choice UInt64 := do
  if ← outOf 100 182 then pure (v % 10)
  else if bits < 8 then shortened v
  else if ← outOf 50 82 then special bits
  else shortened v

/-- A word of the given width that is often small, special or the negative of such a word. -/
def biased (bits : Int) : Choice UInt64 := do
  let w ← word
  let v ← likely w bits
  let negate ← oneIn 7
  Word.truncate (if negate then 0 - v else v) bits

end Choice
end Disguise
