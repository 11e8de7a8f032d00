/-
Judgments of dealers, and the matrix of the verdicts that shareholders announced.

Row `i` of the matrix is absent until shareholder `i` announces its vector; the cell `(i, j)` is then `i`'s judgment
of dealer `j`. `get` reads an absent row or cell as unknown and `set` ignores it; only the two operations that name a
row to look for or to store are undefined outside of the matrix, and a matrix of more rows than can be addressed.
-/
import DistributedKey.Wire

namespace DistributedKey

/-- a judgment of a dealer's contribution -/
inductive Status where
  | success
  | complaint
deriving DecidableEq

namespace Status

def number : Status → Nat
  | .success => 0
  | .complaint => 1

def ofNumber? : Nat → Option Status
  | 0 => some .success
  | 1 => some .complaint
  | _ => none

instance : Wire Status := ⟨fun s => Wire.encodeCase s.number, Wire.case 2 ofNumber?⟩

/-- one character for a judgment that may be unknown -/
def mark : Option Status → Char
  | some .success => '1'
  | some .complaint => '0'
  | none => '?'

def marks (row : List (Option Status)) : String := String.ofList (row.map mark)

/-- reads a mark, if it is one -/
def ofMark? : Char → Option (Option Status)
  | '1' => some (some .success)
  | '0' => some (some .complaint)
  | '?' => some none
  | _ => none

def ofMarks? (row : String) : Option (List (Option Status)) := row.toList.mapM ofMark?

end Status

structure StatusMatrix where
  rows : List (Option (List (Option Status)))
deriving DecidableEq

namespace StatusMatrix

/-- `n` absent rows -/
def empty (n : Nat) : StatusMatrix := ⟨List.replicate n none⟩

/-- bytes that a row takes, its cells apart -/
def rowWidth : Nat := 24

/-- `n` absent rows; undefined if they cannot be addressed -/
def ofSize? (n : Nat) : Option StatusMatrix := if Bytes.addressable n rowWidth then some (empty n) else none

/-- whether the reporter announced a vector; undefined for a reporter outside of the matrix -/
def hasRow? (m : StatusMatrix) (reporter : Index) : Option Bool := (m.rows[reporter.toNat]?).map Option.isSome

/-- stores the reporter's vector; undefined for a reporter outside of the matrix -/
def setRow? (m : StatusMatrix) (reporter : Index) (row : List (Option Status)) : Option StatusMatrix :=
  if reporter.toNat < m.rows.length then some ⟨m.rows.set reporter.toNat (some row)⟩ else none

/-- the reporter's judgment of a dealer -/
def get (m : StatusMatrix) (reporter dealer : Index) : Option Status :=
  (m.rows[reporter.toNat]?).join.bind fun row => (row[dealer.toNat]?).join

/-- overwrites a cell of a row that is there -/
def set (m : StatusMatrix) (reporter dealer : Index) (s : Status) : StatusMatrix :=
  ⟨m.rows.modify reporter.toNat fun row => row.map fun cells => cells.set dealer.toNat (some s)⟩

/-- how many vectors mark the dealer as a success, of those that the indices up to the number of rows announced -/
def successesFor (m : StatusMatrix) (dealer : Index) : Nat :=
  (Index.upTo m.rows.length).countP fun reporter => m.get reporter dealer = some .success

/-- a line for each row -/
def text (m : StatusMatrix) : String :=
  String.join <| m.rows.mapIdx fun reporter row =>
    s!"-> shareholder {reporter}: [" ++ (match row with | some cells => Status.marks cells | none => "-") ++ "]\n"

instance : Wire StatusMatrix := .via StatusMatrix.rows StatusMatrix.mk

end StatusMatrix

end DistributedKey
