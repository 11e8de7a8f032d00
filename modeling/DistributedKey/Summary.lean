/-
What a ceremony reports: its parameters, the agreed result, and what each shareholder ended up with.

Keys are written as the hexadecimal form of their bytes.
-/
import DistributedKey.Shareholder.State
import DistributedKey.Json.Document

namespace DistributedKey

/-- what a single shareholder ended up with; results are absent where it never reached them -/
structure Record (G : Type) where
  index : Index
  behavior : Behavior
  qual : Option IndexSet
  publicKey : Option G
  sharePublicKey : Option G
  alerts : AlertLog
deriving DecidableEq

structure Summary (G : Type) where
  n : UInt64
  k : UInt64
  f : UInt64
  qual : IndexSet
  publicKey : G
  /-- by index -/
  nodes : List (Record G)
deriving DecidableEq

variable {F G : Type}

def Record.ofShareholder [Suite F G] [SMul F G] (s : Shareholder F G) : Record G :=
  ⟨s.index, s.behavior, s.view.qual, s.view.publicKey, s.sharePublicKey?, s.alerts⟩

/-! ## documents -/

open Json (Document)

def Index.document (i : Index) : Document := .number i.toNat

def IndexSet.document (s : IndexSet) : Document := .array (s.elems.map Index.document)

/-- the bytes of an element, in hexadecimal -/
def keyText [Wire G] (g : G) : String := Bytes.toHex (Wire.encode g)

def Alert.document (a : Alert) : Document :=
  .object [("reporter", Index.document a.reporter), ("accused", Index.document a.accused),
    ("condition", .text a.condition.name)]

variable [Wire G]

def Record.document (r : Record G) : Document :=
  .object [("index", Index.document r.index), ("behavior", .text r.behavior.name),
    ("qual", .ofOption (r.qual.map IndexSet.document)),
    ("public_key", .ofOption (r.publicKey.map (.text ∘ keyText))),
    ("share_public_key", .ofOption (r.sharePublicKey.map (.text ∘ keyText))),
    ("alerts", .array (r.alerts.map Alert.document))]

def Summary.document (s : Summary G) : Document :=
  .object [("n", .number s.n.toNat), ("k", .number s.k.toNat), ("f", .number s.f.toNat), ("qual", s.qual.document),
    ("public_key", .text (keyText s.publicKey)), ("nodes", .array (s.nodes.map Record.document))]

end DistributedKey
