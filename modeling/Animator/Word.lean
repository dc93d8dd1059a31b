/-!
# Machine words

The sizes of the words that clocks, counters and integers are kept in.
-/

namespace Animator

namespace Word

def size32 : Nat := 0x100000000

def size64 : Nat := 0x10000000000000000

def minInt : Int := -0x8000000000000000

def maxInt : Int := 0x7FFFFFFFFFFFFFFF

/-- A natural modulo the number of 64-bit words. -/
def wrap (n : Nat) : Nat :=
  n % size64

end Word

end Animator
