/-!
# Random words

Randomness is an endless sequence of words, of which a run uses up a prefix. A coin takes one word:
its upper 53 bits, read as a fraction below one, are compared with the probability.
-/

namespace ChanceProof

/-- An endless sequence of random words, and how many of them are used up. -/
structure Randomness where
  word : Nat → UInt64
  used : Nat

namespace Randomness

/-- Words that repeat for ever. No words at all stand for zeros. -/
def cycle (words : List UInt64) : Randomness :=
  let words := words.toArray
  ⟨fun n => words[n % words.size]?.getD 0, 0⟩

/-- Scatter the bits of a word. -/
def scatter (w : UInt64) : UInt64 :=
  let w := (w ^^^ (w >>> 30)) * 0xbf58476d1ce4e5b9
  let w := (w ^^^ (w >>> 27)) * 0x94d049bb133111eb
  w ^^^ (w >>> 31)

def ofSeed (seed : UInt64) : Randomness :=
  ⟨fun n => scatter (seed + (n + 1).toUInt64 * 0x9e3779b97f4a7c15), 0⟩

/-- The fraction that a word stands for, a multiple of `2 ^ -53` from zero to below one. -/
def fraction (word : UInt64) : Float := (word >>> 11).toFloat / 9007199254740992

/-- Does a coin of this probability land true on a word? -/
def lands (probability : Float) (word : UInt64) : Bool := fraction word < probability

def flip (probability : Float) (r : Randomness) : Bool × Randomness :=
  (lands probability (r.word r.used), { r with used := r.used + 1 })

@[simp] theorem used_flip (probability : Float) (r : Randomness) :
    (r.flip probability).2.used = r.used + 1 := rfl

@[simp] theorem word_flip (probability : Float) (r : Randomness) :
    (r.flip probability).2.word = r.word := rfl

end Randomness

end ChanceProof
