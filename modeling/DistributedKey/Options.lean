/-
The command line: one command, `run`, and its options.

`Options.read` goes through the arguments from left to right and stops at the first one that is wrong. Of an option
that is given more than once the last value counts, but the lists of faulty shareholders grow with each.
-/
import DistributedKey.Index
import DistributedKey.Options.Cursor
import DistributedKey.Options.Numeral

namespace DistributedKey

/-- the options of `run` -/
inductive Flag where
  | help
  | config
  | n
  | k
  | f
  | timeoutMs
  | silent
  | omitBlinding
  | withhold
  | output
deriving DecidableEq

namespace Flag

def all : List Flag := [.help, .config, .n, .k, .f, .timeoutMs, .silent, .omitBlinding, .withhold, .output]

def long : Flag → String
  | .help => "help"
  | .config => "config"
  | .n => "n"
  | .k => "k"
  | .f => "f"
  | .timeoutMs => "timeout-ms"
  | .silent => "silent"
  | .omitBlinding => "omit-blinding"
  | .withhold => "withhold"
  | .output => "output"

/-- the first letter, but for the output -/
def short? (flag : Flag) : Option Char := if flag = .output then none else flag.long.toList.head?

/-- all but the call for help take a value -/
def takesValue (flag : Flag) : Bool := flag ≠ .help

/-- the flag, of these, that a token names -/
def ofToken? (flags : List Flag) : Token → Option Flag
  | .short c => flags.find? (·.short? = some c)
  | .long name | .longWith name _ => flags.find? (·.long = name)
  | .free _ => none

end Flag

structure RunOptions where
  help : Bool := false
  config : Option String := none
  n : Option UInt64 := none
  k : Option UInt64 := none
  f : Option UInt64 := none
  timeoutMs : Option UInt64 := none
  silent : List Index := []
  omitBlinding : List Index := []
  withhold : List Index := []
  output : Option String := none
deriving DecidableEq

structure Options where
  help : Bool := false
  /-- the command, if one was given -/
  run : Option RunOptions := none
deriving DecidableEq

inductive UsageError where
  | unrecognizedOption (option : String)
  | missingArgument (option : String)
  | invalidArgument (option : String) (cause : NumeralError)
  | unexpectedArgument (option : String)
  | unexpectedFree (text : String)
  | unrecognizedCommand (name : String)
deriving DecidableEq

def UsageError.message : UsageError → String
  | .unrecognizedOption option => "unrecognized option `" ++ option ++ "`"
  | .missingArgument option => "missing argument to option `" ++ option ++ "`"
  | .invalidArgument option cause => "invalid argument to option `" ++ option ++ "`: " ++ cause.message
  | .unexpectedArgument option => "option `" ++ option ++ "` does not accept an argument"
  | .unexpectedFree text => "unexpected free argument `" ++ text ++ "`"
  | .unrecognizedCommand name => "unrecognized command `" ++ name ++ "`"

/-- a flag that takes no value -/
def RunOptions.raise (o : RunOptions) : Flag → RunOptions
  | .help => { o with help := true }
  | _ => o

/-- a flag and its value -/
def RunOptions.set (o : RunOptions) (flag : Flag) (value : String) : Except NumeralError RunOptions := do
  match flag with
  | .help => return o
  | .config => return { o with config := value }
  | .n => return { o with n := ← Numeral.word64 value }
  | .k => return { o with k := ← Numeral.word64 value }
  | .f => return { o with f := ← Numeral.word64 value }
  | .timeoutMs => return { o with timeoutMs := ← Numeral.word64 value }
  | .silent => return { o with silent := o.silent ++ [← Numeral.word32 value] }
  | .omitBlinding => return { o with omitBlinding := o.omitBlinding ++ [← Numeral.word32 value] }
  | .withhold => return { o with withhold := o.withhold ++ [← Numeral.word32 value] }
  | .output => return { o with output := value }

/-- an option of `run` that was just read, and its value -/
def RunOptions.take (o : RunOptions) (token : Token) (c : Cursor) : Except UsageError (RunOptions × Cursor) := do
  let some flag := Flag.ofToken? Flag.all token | throw (.unrecognizedOption token.text)
  let set (value : String) : Except UsageError RunOptions :=
    (o.set flag value).mapError (.invalidArgument token.text)
  match flag.takesValue, token with
  | false, .longWith .. => throw (.unexpectedArgument token.text)
  | false, _ => return (o.raise flag, c)
  | true, .longWith _ value => return (← set value, c)
  | true, _ =>
    let some (value, c) := c.value? | throw (.missingArgument token.text)
    return (← set value, c)

/-- the options of `run`, at most `fuel` of them -/
def RunOptions.readWithin : (fuel : Nat) → RunOptions → Cursor → Except UsageError RunOptions
  | 0, o, _ => .ok o
  | fuel + 1, o, c => do
    match c.next? with
    | none => return o
    | some (.free text, _) => throw (.unexpectedFree text)
    | some (token, c) =>
      let (o, c) ← o.take token c
      readWithin fuel o c

namespace Options

/-- whether help was called for, before or after the command -/
def helpRequested (o : Options) : Bool := o.help || o.run.any (·.help)

/-- what comes before the command, at most `fuel` tokens, and the command -/
def readWithin : (fuel : Nat) → (help : Bool) → Cursor → Except UsageError Options
  | 0, help, _ => .ok { help }
  | fuel + 1, help, c => do
    match c.next? with
    | none => return { help }
    | some (.free name, c) =>
      if name ≠ "run" then throw (.unrecognizedCommand name)
      return { help, run := ← RunOptions.readWithin c.limit {} c }
    | some (token, c) =>
      if Flag.ofToken? [.help] token = none then throw (.unrecognizedOption token.text)
      if let .longWith .. := token then throw (.unexpectedArgument token.text)
      readWithin fuel true c

/-- the options that the arguments give -/
def read (args : List String) : Except UsageError Options :=
  let c : Cursor := { args }
  readWithin c.limit false c

end Options

end DistributedKey
