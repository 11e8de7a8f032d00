/-
What a run starts from: a private key and a seed for each shareholder, drawn from one stream.

All keys are drawn first, then 32 bytes a shareholder. The group is that of the public keys, and shareholder `i` is
made from key `i` and seed `i`. No roster is drawn whose keys could not be addressed.
-/
import DistributedKey.Shareholder.State

namespace DistributedKey

structure Roster (F : Type) where
  keys : List F
  seeds : List Bytes

namespace Roster

variable {F G : Type}

def drawSeeds : (count : Nat) → Random → List Bytes × Random
  | 0, rng => ([], rng)
  | count + 1, rng =>
    let (seed, rng) := rng.bytes 32
    let (seeds, rng) := drawSeeds count rng
    (seed :: seeds, rng)

/-- bytes that a private key takes -/
def keyWidth : Nat := 32

def draw [Sampled F] (n : Nat) (rng : Random) : Except Failure (Roster F) := do
  checkLength n keyWidth
  let (keys, rng) := drawMany n rng
  return ⟨keys, (drawSeeds n rng).1⟩

variable [Suite F G] [SMul F G]

/-- the group of the public keys -/
def group (r : Roster F) (c : Config) : Except Failure (Group G) :=
  Group.create (r.keys.map (· • (generator : G))) c

variable [DecidableEq G] [Sampled F] [Zero F]

/-- the shareholder at position `i` -/
def shareholder (r : Roster F) (group : Group G) (behavior : Behavior) (i : Nat) :
    Except Failure (Shareholder F G) :=
  Shareholder.create (UInt32.ofNat i) (r.keys.getD i 0) group behavior (.ofSeed (r.seeds.getD i []))

end Roster

end DistributedKey
