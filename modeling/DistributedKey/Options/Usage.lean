/-
The usage texts: a line for each option, what it is for in a column of its own.

The column starts two blanks after the longest option that ends within thirty characters; what a longer one is for
stands in the line below it.
-/
import DistributedKey.Options

namespace DistributedKey

namespace Flag

/-- what an option is for -/
def purpose : Flag → Option String
  | .help => none
  | .config => "path to a JSON file with the DKG configuration (flags take precedence)"
  | .n => "the number of shareholders"
  | .k => "the number of shares needed to reconstruct the secret"
  | .f => "the maximum number of faulty shareholders"
  | .timeoutMs => "milliseconds to wait for each shareholder to finish"
  | .silent => "index of a shareholder which never broadcasts (repeatable)"
  | .omitBlinding => "index of a dealer which commits without blinding (repeatable)"
  | .withhold => "index of a shareholder which never deals a contribution (repeatable)"
  | .output => "the path where the summary of the DKG will be stored (stdout if none provided)"

/-- an option as it is written, its value in capitals -/
def form (flag : Flag) : String :=
  let short := match flag.short? with
    | some c => "-" ++ String.singleton c ++ ", "
    | none => ""
  "  " ++ short ++ "--" ++ flag.long ++ (if flag.takesValue then " " ++ flag.long.toUpper else "")

end Flag

namespace Usage

/-- where the column starts -/
def column (flags : List Flag) : Nat :=
  ((flags.map fun flag => flag.form.length + 2).filter (· ≤ 30)).foldl max 0

def blanks (count : Nat) : String := String.ofList (List.replicate count ' ')

def line (column : Nat) (flag : Flag) : String :=
  match flag.purpose with
  | none => flag.form
  | some purpose =>
    if flag.form.length < column then flag.form ++ blanks (column - flag.form.length) ++ purpose
    else flag.form ++ "\n" ++ blanks column ++ purpose

def text (flags : List Flag) : String :=
  "\n".intercalate ("Optional arguments:" :: flags.map (line (column flags)))

/-- without a command -/
def general : String := text [.help]

/-- of the command `run` -/
def run : String := text Flag.all

/-- the commands and what they do -/
def commands : String := "  run  runs a DKG between local shareholders and prints the outcome as JSON"

end Usage

end DistributedKey
