/-
A ceremony: all shareholders of a run as nodes on one board, and the thread that leads them to a summary.

The leading thread has every node deal, in order of index. It then goes from one honest node to the next, waits there
for the public key and for QUAL, and fails if they differ from those of the nodes before. Without an honest node
there is nothing to report. At last it stops the nodes one after the other, and notes what each shareholder holds
once its worker has exited.

`step` is one atomic step of a worker or of the leading thread. That the time of a wait is up is a step of its own,
so `run` takes every schedule, and a wait may be given up at any moment. `hold` is a ceremony under one fair schedule,
where a wait is given up when every worker has read all there is, or at once if it has no time at all.
-/
import DistributedKey.Network
import DistributedKey.Roster
import DistributedKey.Summary

namespace DistributedKey

/-- the result that honest shareholders share -/
structure Agreement (G : Type) where
  publicKey : G
  qual : IndexSet
deriving DecidableEq

/-- what the leading thread does next -/
inductive Stage (G : Type) where
  /-- has node `i` deal -/
  | dealing (i : Nat)
  /-- broadcasts what node `i` has dealt -/
  | announcing (i : Nat)
  /-- waits at node `i` for the public key, if the node is honest; `agreed` is the result of the honest nodes before -/
  | awaitingKey (i : Nat) (agreed : Option (Agreement G))
  /-- waits at node `i`, which holds `key`, for QUAL -/
  | awaitingQual (i : Nat) (agreed : Option (Agreement G)) (key : G)
  /-- raises the stop flag of node `i`; `done` are the shareholders before it -/
  | stopping (i : Nat) (agreed : Agreement G) (done : List (Record G))
  /-- waits for the worker of node `i` to exit -/
  | joining (i : Nat) (agreed : Agreement G) (done : List (Record G))
  | finished (outcome : Except Failure (Summary G))

structure Ceremony (F G : Type) where
  config : Config
  net : Network F G
  stage : Stage G := .dealing 0

/-- a step of some thread -/
inductive Event where
  /-- worker `i` looks at its stop flag if it is idle, and if it waits is shown at most `upto` entries -/
  | look (i upto : Nat)
  /-- worker `i` goes on with what it has begun -/
  | work (i : Nat)
  /-- the leading thread goes on, unless it waits for something that is not there -/
  | lead
  /-- the time of the wait that the leading thread is in is up -/
  | expire
deriving DecidableEq

/-- the result of one more honest node beside that of the nodes before it -/
def Agreement.join {G : Type} [DecidableEq G] (agreed : Option (Agreement G)) (a : Agreement G) :
    Except Failure (Agreement G) :=
  match agreed with
  | none => .ok a
  | some b =>
    if b.publicKey ≠ a.publicKey then .error (.disagreement "public key")
    else if b.qual ≠ a.qual then .error (.disagreement "QUAL")
    else .ok b

namespace Ceremony

variable {F G : Type}

def outcome? (c : Ceremony F G) : Option (Except Failure (Summary G)) :=
  match c.stage with
  | .finished o => some o
  | _ => none

def finish (c : Ceremony F G) (o : Except Failure (Summary G)) : Ceremony F G := { c with stage := .finished o }

def waitMs (c : Ceremony F G) : Nat := c.config.waitTimeoutMs.toNat

/-- how the wait ends that the leading thread is blocked in, if its time is up -/
def blocked? (c : Ceremony F G) : Option Failure :=
  match c.stage with
  | .awaitingKey i _ => (c.net.nodes[i]?).bind fun node =>
    if node.machine.behavior ≠ .honest then none
    else match Network.awaitPublicKey node c.waitMs with
      | .ok _ => none
      | .error e => some e
  | .awaitingQual i _ _ => (c.net.nodes[i]?).bind fun node =>
    match Network.awaitQual node c.waitMs with
    | .ok _ => none
    | .error e => some e
  | _ => none

section

variable [Suite F G] [NatCast F] [Zero F] [One F] [Add F] [Sub F] [Mul F] [Inv F] [SMul F F] [Zero G] [Add G]
  [SMul F G] [Wire F] [Wire G] [Sampled F] [DecidableEq F] [DecidableEq G]

/-- a step of the leading thread -/
def lead (c : Ceremony F G) : Ceremony F G :=
  match c.stage with
  | .dealing i =>
    if i < c.net.nodes.length then { c with net := c.net.act (.deal i), stage := .announcing i }
    else { c with stage := .awaitingKey 0 none }
  | .announcing i => { c with net := c.net.act (.announce i), stage := .dealing (i + 1) }
  | .awaitingKey i agreed =>
    match c.net.nodes[i]?, agreed with
    | none, none => c.finish (.error (.disagreement "absence of honest shareholders"))
    | none, some a => { c with stage := .stopping 0 a [] }
    | some node, _ =>
      if node.machine.behavior ≠ .honest then { c with stage := .awaitingKey (i + 1) agreed }
      else match Network.awaitPublicKey node c.waitMs with
        | .ok key => { c with stage := .awaitingQual i agreed key }
        | .error _ => c
  | .awaitingQual i agreed key =>
    match c.net.nodes[i]? with
    | none => c
    | some node =>
      match Network.awaitQual node c.waitMs with
      | .ok qual =>
        match Agreement.join agreed ⟨key, qual⟩ with
        | .ok a => { c with stage := .awaitingKey (i + 1) (some a) }
        | .error e => c.finish (.error e)
      | .error _ => c
  | .stopping i a done =>
    if i < c.net.nodes.length then { c with net := c.net.act (.stop i), stage := .joining i a done }
    else c.finish (.ok ⟨c.config.n, c.config.k, c.config.f, a.qual, a.publicKey, done⟩)
  | .joining i a done =>
    match c.net.nodes[i]? with
    | none => c
    | some node =>
      match node.phase with
      | .exited => { c with stage := .stopping (i + 1) a (done ++ [.ofShareholder node.machine]) }
      | .failed => c.finish (.error .workerPanicked)
      | _ => c
  | .finished _ => c

def step (c : Ceremony F G) : Event → Ceremony F G
  | .look i upto => { c with net := c.net.act (.look i upto) }
  | .work i => { c with net := c.net.act (.work i) }
  | .lead => c.lead
  | .expire =>
    match c.blocked? with
    | some e => c.finish (.error e)
    | none => c

/-- any schedule -/
def run (c : Ceremony F G) (schedule : List Event) : Ceremony F G := schedule.foldl step c

/-- fresh keys and shareholders, each with its behavior, or honest if the list is shorter -/
def start (config : Config) (behaviors : List Behavior) (rng : Random) : Except Failure (Ceremony F G) := do
  config.validate
  if config.n.toNat < behaviors.length then
    throw (.indexOutOfRange (UInt32.ofNat (behaviors.length - 1)) config.n.toNat)
  let roster ← Roster.draw (F := F) config.n.toNat rng
  let group ← roster.group config
  let shareholders ← (List.range config.n.toNat).mapM fun i => roster.shareholder group (behaviors.getD i .honest) i
  return { config, net := { nodes := shareholders.map fun machine => { machine } } }

/-! ## a fair schedule -/

/-- every worker is gone, or about to look and has read all there is -/
def still (c : Ceremony F G) : Bool :=
  c.net.nodes.all fun node =>
    match node.phase with
    | .idle | .waiting => node.cursor = c.net.board.length
    | phase => phase.resting

/-- the leading thread, then by increasing index each worker for the time of an entry -/
def turn (c : Ceremony F G) : List Event :=
  .lead :: (List.range c.net.nodes.length).flatMap fun i =>
    .look i 0 :: .look i c.net.board.length :: List.replicate Network.stepsPerEntry (.work i)

/-- the leading thread is in a wait that cannot end well, or that has no time -/
def hopeless (c : Ceremony F G) : Bool := c.blocked?.isSome && (c.still || c.waitMs = 0)

/-- at most `fuel` turns -/
def conduct : (fuel : Nat) → Ceremony F G → Ceremony F G
  | 0, c => c
  | fuel + 1, c =>
    if c.outcome?.isSome then c
    else conduct fuel (if c.hopeless then c.step .expire else c.run c.turn)

/-- more turns than a ceremony takes: one for each entry of the log, and the steps of the leading thread -/
def patience (c : Ceremony F G) : Nat := c.net.limit + 8 * c.net.nodes.length + 8

/-- all nodes deal, and then everybody has turns until the ceremony is over -/
def hold (config : Config) (behaviors : List Behavior) (rng : Random) : Except Failure (Summary G) := do
  let c : Ceremony F G ← start config behaviors rng
  let c := c.run (List.replicate (2 * c.net.nodes.length + 1) .lead)
  match (conduct c.patience c).outcome? with
  | some o => o
  | none => throw .stopped

end

end Ceremony

end DistributedKey
