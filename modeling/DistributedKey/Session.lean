/-
Shareholders that share one log, each reading it in order at its own pace.

A session is the log and, for each shareholder that takes part, how far it has read. The moves are: a shareholder
deals; a shareholder reads its next unread entry; somebody posts an envelope. What a shareholder answers is sealed
under its own index and appended at once. `moves` runs any interleaving of them.

`run` is one of them: in order of index every reader reads all that is unread, over and over, until nothing is left.
It stops after `limit` rounds, which is more than a session can need: a shareholder broadcasts at most `n + 4`
messages.
-/
import DistributedKey.Shareholder.Dealing
import DistributedKey.Shareholder.Delivery

namespace DistributedKey

/-- a shareholder and the number of entries it has read -/
structure Reader (F G : Type) where
  shareholder : Shareholder F G
  cursor : Nat := 0
deriving DecidableEq

structure Session (F G : Type) where
  board : Board := .empty
  readers : List (Reader F G)
deriving DecidableEq

/-- what one delivery showed -/
structure Outcome where
  /-- the answers, sealed -/
  envelopes : List Envelope
  /-- the alerts it raised -/
  alerts : AlertLog
  notices : List Notice

/-- a step of a session -/
inductive Move where
  /-- the shareholder deals, and its contribution is broadcast -/
  | deal (i : Index)
  /-- the shareholder reads its next unread entry, and its answers are broadcast -/
  | read (i : Index)
  /-- an envelope of any content is broadcast -/
  | post (e : Envelope)
deriving DecidableEq

namespace Session

variable {F G : Type}

def index (r : Reader F G) : Index := r.shareholder.index

def reader? (s : Session F G) (i : Index) : Option (Reader F G) := s.readers.find? (index · = i)

/-- puts a reader in the place of the one with its index -/
def update (s : Session F G) (r : Reader F G) : Session F G :=
  { s with readers := s.readers.map fun r' => if index r' = index r then r else r' }

def post (s : Session F G) (e : Envelope) : Session F G := { s with board := s.board.broadcast e }

def postAll (s : Session F G) (es : List Envelope) : Session F G := es.foldl post s

/-- how far each reader has read -/
def cursors (s : Session F G) : List Nat := s.readers.map (·.cursor)

/-- more rounds than a session can take -/
def limit (s : Session F G) : Nat :=
  s.readers.foldl (fun total r => total + r.shareholder.group.size + 4) (s.board.length + 1)

section

variable [Suite F G] [NatCast F] [Zero F] [One F] [Add F] [Sub F] [Mul F] [Inv F] [SMul F F] [Zero G] [Add G]
  [SMul F G] [Wire F] [Wire G] [Sampled F] [DecidableEq F] [DecidableEq G]

/-- the shareholder deals; broadcasts its contribution if asked to. None if it does not take part -/
def deal (s : Session F G) (i : Index) (broadcast : Bool) : Option (Option Envelope × Session F G) := do
  let r ← s.reader? i
  let (payload, shareholder) := r.shareholder.contribute
  let envelope := payload.map (·.toEnvelope i)
  let s := s.update { r with shareholder }
  return (envelope, if broadcast then s.postAll envelope.toList else s)

/-- delivers an envelope to a reader, which need not be on the log -/
def deliver (s : Session F G) (r : Reader F G) (e : Envelope) (broadcast : Bool) :
    Option (Outcome × Session F G) := do
  let response ← r.shareholder.deliver e
  let envelopes := response.outgoing.map (·.toEnvelope (index r))
  let s := s.update { r with shareholder := response.shareholder }
  return (⟨envelopes, response.shareholder.alerts.drop r.shareholder.alerts.length, response.notices⟩,
    if broadcast then s.postAll envelopes else s)

/-- the reader's next unread entry; the inner option is empty when it has read all -/
def readNext (s : Session F G) (i : Index) (broadcast : Bool) :
    Option (Option (Envelope × Outcome) × Session F G) := do
  let r ← s.reader? i
  match s.board.get? r.cursor with
  | none => return (none, s)
  | some e =>
    let (outcome, s) ← s.deliver { r with cursor := r.cursor + 1 } e broadcast
    return (some (e, outcome), s)

/-- one move; none only if a handler fails or there is no such shareholder -/
def move (s : Session F G) : Move → Option (Session F G)
  | .deal i => (s.deal i true).map (·.2)
  | .read i => (s.readNext i true).map (·.2)
  | .post e => some (s.post e)

/-- any interleaving of moves -/
def moves (s : Session F G) (ms : List Move) : Option (Session F G) := ms.foldlM move s

/-- a line of the operator's log: who read, whose message it was, and what there was to say -/
abbrev LogLine := Index × Index × Notice

/-- one reader reads at most `fuel` entries, as long as there are any -/
def readAll (i : Index) : (fuel : Nat) → Session F G → Option (List LogLine × Session F G)
  | 0, s => some ([], s)
  | fuel + 1, s => do
    match ← s.readNext i true with
    | (none, s) => return ([], s)
    | (some (e, outcome), s) =>
      let (log, s) ← readAll i fuel s
      return (outcome.notices.map (i, e.sender, ·) ++ log, s)

/-- each of the readers reads all it has not read -/
def round : List Index → Session F G → Option (List LogLine × Session F G)
  | [], s => some ([], s)
  | i :: rest, s => do
    let (log, s) ← readAll i s.limit s
    let (others, s) ← round rest s
    return (log ++ others, s)

/-- rounds until nobody has read anything -/
def rounds (indices : List Index) : (fuel : Nat) → Session F G → Option (List LogLine × Session F G)
  | 0, s => some ([], s)
  | fuel + 1, s => do
    let (log, s') ← round indices s
    if s'.cursors = s.cursors then return (log, s')
    let (others, s) ← rounds indices fuel s'
    return (log ++ others, s)

/-- everybody reads, by increasing index, until nobody has anything left to read -/
def run (s : Session F G) (except : List Index) : Option (List LogLine × Session F G) :=
  s.rounds ((s.readers.map index).filter (· ∉ except)) s.limit

end

end Session

end DistributedKey
