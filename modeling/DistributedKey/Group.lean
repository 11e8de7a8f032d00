/-
The shareholders of a run: their encryption keys by position, the threshold and the number of tolerated faults.

`Group.create` numbers the participants by position. A group that was read from bytes may carry any numbers, so an
index is looked up by position and never by the number a participant carries.
-/
import DistributedKey.Config

namespace DistributedKey

structure Participant (G : Type) where
  id : Index
  /-- the public key that shares are sealed to -/
  key : G
deriving DecidableEq

structure Group (G : Type) where
  participants : List (Participant G)
  threshold : UInt64
  faults : UInt64
deriving DecidableEq

/-- number of shareholders, shares to reconstruct, and tolerated faults -/
structure Params where
  n : Nat
  k : Nat
  f : Nat
deriving DecidableEq

variable {G : Type}

instance [Wire G] : Wire (Participant G) := .via (fun p => (p.id, p.key)) fun (i, k) => ⟨i, k⟩

instance [Wire G] : Wire (Group G) :=
  .via (fun g => (g.participants, g.threshold, g.faults)) fun (p, t, f) => ⟨p, t, f⟩

namespace Group

/-- the keys of all shareholders, by index -/
def create (keys : List G) (c : Config) : Except Failure (Group G) := do
  c.validate
  if keys.length ≠ c.n.toNat then throw (.keyCountMismatch keys.length c.n.toNat)
  return ⟨keys.mapIdx fun i key => ⟨UInt32.ofNat i, key⟩, c.k, c.f⟩

def size (g : Group G) : Nat := g.participants.length

def contains (g : Group G) (i : Index) : Bool := i.toNat < g.size

def key? (g : Group G) (i : Index) : Option G := (g.participants[i.toNat]?).map (·.key)

def params (g : Group G) : Params := ⟨g.size, g.threshold.toNat, g.faults.toNat⟩

/-- the parameters that a group stands for -/
def config (g : Group G) : Config := { n := UInt64.ofNat g.size, k := g.threshold, f := g.faults }

end Group

end DistributedKey
