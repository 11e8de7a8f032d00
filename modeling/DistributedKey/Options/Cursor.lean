/-
Walking over the arguments of a command line.

`--name` and `--name=value` are long options. An argument of one dash and letters is a cluster of short options; the
rest of a cluster, if there is any, is the value of an option that takes one, and else the next argument is. A lone
dash stands for itself, and after `--` everything does.
-/

namespace DistributedKey

/-- an option or argument as it was written -/
inductive Token where
  | short (c : Char)
  | long (name : String)
  | longWith (name value : String)
  | free (text : String)
deriving DecidableEq

/-- an option without its value -/
def Token.text : Token → String
  | .short c => "-" ++ String.singleton c
  | .long name | .longWith name _ => "--" ++ name
  | .free text => text

/-- what has not been read -/
structure Cursor where
  args : List String
  /-- short options of the last argument -/
  cluster : List Char := []
  /-- everything stands for itself -/
  terminated : Bool := false

namespace Cursor

/-- an argument that starts with two dashes, without them -/
def long (cs : List Char) : Token :=
  match cs.dropWhile (· ≠ '=') with
  | [] => .long (String.ofList cs)
  | _ :: value => .longWith (String.ofList (cs.takeWhile (· ≠ '='))) (String.ofList value)

def next? (c : Cursor) : Option (Token × Cursor) :=
  match c.cluster, c.args with
  | letter :: cluster, _ => some (.short letter, { c with cluster })
  | [], [] => none
  | [], arg :: args =>
    let c := { c with args }
    if c.terminated then some (.free arg, c)
    else match arg.toList with
      | ['-', '-'] =>
        match args with
        | [] => none
        | arg :: args => some (.free arg, { c with args, terminated := true })
      | '-' :: '-' :: cs => some (long cs, c)
      | '-' :: letter :: cluster => some (.short letter, { c with cluster })
      | _ => some (.free arg, c)

/-- the value of the option just read -/
def value? (c : Cursor) : Option (String × Cursor) :=
  match c.cluster, c.args with
  | [], [] => none
  | [], arg :: args => some (arg, { c with args })
  | cluster, _ => some (String.ofList cluster, { c with cluster := [] })

/-- more tokens than there are -/
def limit (c : Cursor) : Nat := c.args.foldl (fun total arg => total + arg.length + 1) (c.cluster.length + 1)

end Cursor

end DistributedKey
