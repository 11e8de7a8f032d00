/-
What the command `run` does with its options.

The parameters come from a file, the flags, or both, and then the flags take precedence; they are validated last.
Every shareholder that no flag names is honest, and one that flags of two kinds name is refused. `perform` runs the
ceremony of these shareholders, and only then finds out whether its summary can be written.

Files are left to the caller, who says what can be read at a path and whether one can be created there.
-/
import DistributedKey.Ceremony
import DistributedKey.Config.Document
import DistributedKey.Files
import DistributedKey.Options

namespace DistributedKey

inductive CommandError where
  /-- neither a file nor all three parameters -/
  | incomplete
  /-- the file of parameters cannot be opened -/
  | unopened (path : String)
  /-- the file of parameters is open but cannot be read -/
  | unreadable (path : String)
  | document (path : String) (cause : Json.Defect)
  | noSuchShareholder (index : Index) (n : Nat)
  /-- a shareholder cannot be faulty in two ways -/
  | conflict (index : Index) (first second : Behavior)
  | failed (cause : Failure)
  /-- there is no place for the summary -/
  | unwritable (cause : PathError)
deriving DecidableEq

def CommandError.message : CommandError → String
  | .incomplete => "either --config or all of -n, -k and -f must be provided"
  | .unopened path => "could not open " ++ path
  | .unreadable path => "invalid config in " ++ path ++ " (io)"
  | .document path cause => "invalid config in " ++ path ++ " (" ++ cause.name ++ ")"
  | .noSuchShareholder index n => s!"shareholder {index} does not exist, n = {n}"
  | .conflict index first second => s!"shareholder {index} cannot be both " ++ first.name ++ " and " ++ second.name
  | .failed cause => cause.message
  | .unwritable cause => cause.message

namespace RunOptions

/-- the parameters before the flags are applied -/
def baseConfig (o : RunOptions) (files : Files) : Except CommandError Config :=
  match o.config with
  | some path =>
    match files.read path with
    | .unopened => .error (.unopened path)
    | .unreadable => .error (.unreadable path)
    | .content text => (Config.ofDocument text).mapError (.document path)
  | none =>
    match o.n, o.k, o.f with
    | some n, some k, some f => .ok { n, k, f }
    | _, _, _ => .error .incomplete

/-- the flags take precedence -/
def override (o : RunOptions) (c : Config) : Config :=
  { c with n := o.n.getD c.n, k := o.k.getD c.k, f := o.f.getD c.f,
           waitTimeoutMs := o.timeoutMs.getD c.waitTimeoutMs }

/-- the parameters of the run -/
def toConfig (o : RunOptions) (files : Files) : Except CommandError Config := do
  let c := o.override (← o.baseConfig files)
  c.validate.mapError .failed
  return c

/-- the shareholders that flags name, and as what -/
def faults (o : RunOptions) : List (Index × Behavior) :=
  o.silent.map (·, .silent) ++ o.omitBlinding.map (·, .omitBlinding) ++ o.withhold.map (·, .withholdContribution)

/-- gives a shareholder a behavior, if it is there and has no other -/
def assign (behaviors : List Behavior) (fault : Index × Behavior) : Except CommandError (List Behavior) :=
  let (index, behavior) := fault
  match behaviors[index.toNat]? with
  | none => .error (.noSuchShareholder index behaviors.length)
  | some old =>
    if old ≠ .honest ∧ old ≠ behavior then .error (.conflict index old behavior)
    else .ok (behaviors.set index.toNat behavior)

/-- the behavior of each of `n` shareholders, a byte each -/
def behaviors (o : RunOptions) (n : Nat) : Except CommandError (List Behavior) := do
  (checkLength n 1).mapError .failed
  o.faults.foldlM assign (List.replicate n .honest)

/-- the ceremony that the options describe; its summary is written if there is a path for it -/
def perform {F G : Type} [Suite F G] [NatCast F] [Zero F] [One F] [Add F] [Sub F] [Mul F] [Inv F] [SMul F F] [Zero G]
    [Add G] [SMul F G] [Wire F] [Wire G] [Sampled F] [DecidableEq F] [DecidableEq G] (o : RunOptions)
    (files : Files) (rng : Random) : Except CommandError (Summary G) := do
  let config ← o.toConfig files
  let behaviors ← o.behaviors config.n.toNat
  let summary ← (Ceremony.hold config behaviors rng).mapError .failed
  match o.output with
  | some path => (files.create path).mapError .unwritable
  | none => pure ()
  return summary

end RunOptions

end DistributedKey
