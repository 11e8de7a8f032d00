/-
The broadcast channel: one log of envelopes that every shareholder reads in the same order, and that only grows.
-/
import DistributedKey.Message

namespace DistributedKey

/-- entries in the order they were broadcast -/
structure Board where
  entries : List Envelope
deriving DecidableEq

namespace Board

def empty : Board := ⟨[]⟩

def broadcast (b : Board) (e : Envelope) : Board := ⟨b.entries ++ [e]⟩

def length (b : Board) : Nat := b.entries.length

def get? (b : Board) (i : Nat) : Option Envelope := b.entries[i]?

@[simp] theorem length_broadcast (b : Board) (e : Envelope) : (b.broadcast e).length = b.length + 1 := by
  simp [broadcast, length]

end Board

end DistributedKey
