/-
Nodes: shareholders with a worker each, on one board, with every atomic step of every thread a step of the model.

A worker looks at the stop flag, then waits for the log and looks at its length, then reads up to that length, one entry
after the other: it fetches an entry, delivers it under the node's lock, and broadcasts the answers one by one. Callers
deal (under the lock), broadcast what was dealt, wait for a result, and stop the node; a stopped worker exits the next
time it looks at the flag. `act` is one step of one of them and `run` any interleaving. Nothing else touches the board, so
the log only grows.

A wait for the log may end at any time, for whatever reason, and whether the log has grown or not: nothing is needed to
wake a worker. It may also see less of the log than there is: `look` names the length that it is shown. On this board it
is the whole length, and a shorter one only makes it look again sooner. Callers that read a result change nothing.

- `readOne` is a worker's way from one idle state to the next, with one entry read.
- `drain` reads everything at every node until nothing is left.
-/
import DistributedKey.Shareholder.Dealing
import DistributedKey.Shareholder.Delivery

namespace DistributedKey

/-- where a worker stands -/
inductive Phase (F G : Type) where
  /-- about to look at the stop flag -/
  | idle
  /-- has found the flag down and waits for the log -/
  | waiting
  /-- reads entries below `upto` -/
  | reading (upto : Nat)
  /-- has fetched the entry at its cursor -/
  | holding (upto : Nat) (e : Envelope)
  /-- broadcasts the answers to the entry it has delivered -/
  | publishing (upto : Nat) (answers : List (Payload F G))
  | exited
  /-- a handler failed -/
  | failed
deriving DecidableEq

/-- nothing begun: about to look, or gone -/
def Phase.resting {F G : Type} : Phase F G → Bool
  | .idle | .waiting | .exited | .failed => true
  | _ => false

structure Node (F G : Type) where
  machine : Shareholder F G
  /-- entries delivered so far -/
  cursor : Nat := 0
  phase : Phase F G := .idle
  stopped : Bool := false
  /-- dealt under the lock and not yet broadcast -/
  dealt : Option Envelope := none
deriving DecidableEq

structure Network (F G : Type) where
  board : Board := .empty
  /-- node `i` runs shareholder `i` -/
  nodes : List (Node F G)
  /-- what the workers told the operator, oldest first -/
  log : List (Index × Notice) := []
deriving DecidableEq

/-- an atomic step -/
inductive Action where
  /-- worker `i` looks at the stop flag if it is idle, and if it waits is shown at most `upto` entries -/
  | look (i upto : Nat)
  /-- worker `i` goes on with what it has begun -/
  | work (i : Nat)
  /-- a caller has node `i` deal -/
  | deal (i : Nat)
  /-- that caller broadcasts what was dealt -/
  | announce (i : Nat)
  /-- somebody broadcasts an envelope -/
  | post (e : Envelope)
  /-- a caller raises the stop flag of node `i` -/
  | stop (i : Nat)
deriving DecidableEq

namespace Network

variable {F G : Type}

def setNode (net : Network F G) (i : Nat) (node : Node F G) : Network F G :=
  { net with nodes := net.nodes.set i node }

section

variable [Suite F G] [NatCast F] [Zero F] [One F] [Add F] [Sub F] [Mul F] [Inv F] [SMul F F] [Zero G] [Add G]
  [SMul F G] [Wire F] [Wire G] [Sampled F] [DecidableEq F] [DecidableEq G]

/-- the next step of a worker that has begun something -/
def work (net : Network F G) (i : Nat) (node : Node F G) : Network F G :=
  match node.phase with
  | .idle | .waiting | .exited | .failed => net
  | .reading upto =>
    match if node.cursor < upto then net.board.get? node.cursor else none with
    | some e => net.setNode i { node with phase := .holding upto e }
    | none => net.setNode i { node with phase := .idle }
  | .holding upto e =>
    match node.machine.deliver e with
    | none => net.setNode i { node with phase := .failed }
    | some r =>
      { net.setNode i { node with
          machine := r.shareholder, cursor := node.cursor + 1, phase := .publishing upto r.outgoing } with
        log := net.log ++ r.notices.map (node.machine.index, ·) }
  | .publishing upto [] => net.setNode i { node with phase := .reading upto }
  | .publishing upto (p :: rest) =>
    { net.setNode i { node with phase := .publishing upto rest } with
      board := net.board.broadcast (p.toEnvelope node.machine.index) }

/-- one atomic step; a step of a node that is not there changes nothing -/
def act (net : Network F G) (a : Action) : Network F G :=
  match a with
  | .post e => { net with board := net.board.broadcast e }
  | .look i upto =>
    match net.nodes[i]? with
    | none => net
    | some node =>
      match node.phase with
      | .idle => net.setNode i { node with phase := if node.stopped then .exited else .waiting }
      | .waiting => net.setNode i { node with phase := .reading (min upto net.board.length) }
      | _ => net
  | .work i =>
    match net.nodes[i]? with
    | none => net
    | some node => net.work i node
  | .deal i =>
    match net.nodes[i]? with
    | none => net
    | some node =>
      let (payload, machine) := node.machine.contribute
      net.setNode i { node with machine, dealt := (payload.map (·.toEnvelope machine.index)).or node.dealt }
  | .announce i =>
    match net.nodes[i]? with
    | none => net
    | some node =>
      match node.dealt with
      | none => net
      | some e => { net.setNode i { node with dealt := none } with board := net.board.broadcast e }
  | .stop i =>
    match net.nodes[i]? with
    | none => net
    | some node => net.setNode i { node with stopped := true }

/-- any interleaving of atomic steps -/
def run (net : Network F G) (actions : List Action) : Network F G := actions.foldl act net

/-! ## whole turns of a worker -/

/-- worker `i` goes on until it is idle, has exited or failed, or after `fuel` steps -/
def settle (i : Nat) : (fuel : Nat) → Network F G → Network F G
  | 0, net => net
  | fuel + 1, net =>
    match net.nodes[i]? with
    | none => net
    | some node => if node.phase.resting then net else settle i fuel (net.act (.work i))

/-- steps of a worker for one entry; an entry has at most two answers -/
def stepsPerEntry : Nat := 8

/-- worker `i` looks, reads one more entry if it is not stopped, and broadcasts the answers -/
def readOne (net : Network F G) (i : Nat) : Network F G :=
  match net.nodes[i]? with
  | none => net
  | some node => settle i stepsPerEntry (net.run [.look i 0, .look i (node.cursor + 1)])

/-- worker `i` reads at most `fuel` entries, as long as there are any -/
def readAll (i : Nat) : (fuel : Nat) → Network F G → Network F G
  | 0, net => net
  | fuel + 1, net =>
    match net.nodes[i]? with
    | none => net
    | some node => if node.cursor < net.board.length then readAll i fuel (net.readOne i) else net

/-- more entries than the log can come to have: a shareholder broadcasts at most `n + 4` messages -/
def limit (net : Network F G) : Nat :=
  net.nodes.foldl (fun total node => total + node.machine.group.size + 4) (net.board.length + 1)

def cursors (net : Network F G) : List Nat := net.nodes.map (·.cursor)

/-- by increasing index, each worker reads all there is, until nobody has read anything -/
def drainWithin : (fuel : Nat) → Network F G → Network F G
  | 0, net => net
  | fuel + 1, net =>
    let next := (List.range net.nodes.length).foldl (fun net i => readAll i net.limit net) net
    if next.cursors = net.cursors then next else drainWithin fuel next

def drain (net : Network F G) : Network F G := drainWithin net.limit net

end

/-! ## callers -/

/-- the answer to a wait that is over: the result if there is one, else that the node was stopped, else that the
time is up -/
def awaited {α : Type} (node : Node F G) (what : String) (ms : Nat) (get : Shareholder F G → Option α) :
    Except Failure α :=
  match get node.machine with
  | some a => .ok a
  | none => .error (if node.stopped then .stopped else .waitTimeout what ms)

def awaitQual (node : Node F G) (ms : Nat) : Except Failure IndexSet :=
  awaited node "QUAL" ms fun s => s.view.qual

def awaitPublicKey (node : Node F G) (ms : Nat) : Except Failure G :=
  awaited node "the public key" ms fun s => s.view.publicKey

end Network

end DistributedKey
