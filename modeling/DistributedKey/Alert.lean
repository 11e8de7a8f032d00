/-
Alerts against shareholders, in the order they were raised.

A log only grows. `AlertLogs` keeps several logs under numbered handles; handles made by `share` stand for one log,
so what is recorded under one is read under the other.
-/
import DistributedKey.Opcode

namespace DistributedKey

/-- a violation that `reporter` saw `accused` commit -/
structure Alert where
  reporter : Index
  accused : Index
  condition : Condition
deriving DecidableEq

instance : Wire Alert := .via (fun a => (a.reporter, a.accused, a.condition)) fun (r, a, c) => ⟨r, a, c⟩

/-- alerts, oldest first -/
abbrev AlertLog := List Alert

namespace AlertLog

def record (log : AlertLog) (a : Alert) : AlertLog := log ++ [a]

def against (log : AlertLog) (accused : Index) : AlertLog := log.filter (·.accused = accused)

end AlertLog

/-- logs and the handles that stand for them -/
structure AlertLogs where
  logs : List AlertLog
  /-- the position of the log of each handle -/
  handles : List Nat

namespace AlertLogs

/-- one empty log under handle 0 -/
def initial : AlertLogs := ⟨[[]], [0]⟩

def log? (s : AlertLogs) (handle : Nat) : Option AlertLog := do s.logs[← s.handles[handle]?]?

/-- a handle of a new log -/
def fresh (s : AlertLogs) : AlertLogs := ⟨s.logs ++ [[]], s.handles ++ [s.logs.length]⟩

/-- one more handle of a log -/
def share? (s : AlertLogs) (handle : Nat) : Option AlertLogs := do
  return { s with handles := s.handles ++ [← s.handles[handle]?] }

def record? (s : AlertLogs) (handle : Nat) (a : Alert) : Option AlertLogs := do
  return { s with logs := s.logs.modify (← s.handles[handle]?) (·.record a) }

end AlertLogs

end DistributedKey
