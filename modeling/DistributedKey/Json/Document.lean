/-
JSON documents and their indented text.

Two blanks a level, every entry on its own line, an empty array or object closed at once. In a string the quote, the
backslash and the control characters are escaped and all else stands for itself.
-/

namespace DistributedKey.Json

inductive Document where
  | null
  | number (n : Nat)
  | text (s : String)
  | array (items : List Document)
  /-- fields in the order they are written -/
  | object (fields : List (String × Document))

namespace Document

def ofOption (d : Option Document) : Document := d.getD .null

/-- a character inside of quotes -/
def escape (c : Char) : String :=
  match c with
  | '"' => "\\\""
  | '\\' => "\\\\"
  | '\n' => "\\n"
  | '\r' => "\\r"
  | '\t' => "\\t"
  | _ =>
    if c.toNat = 8 then "\\b"
    else if c.toNat = 12 then "\\f"
    else if c.toNat < 32 then "\\u00" ++ String.ofList ((Nat.toDigits 16 (256 + c.toNat)).drop 1)
    else String.singleton c

def quoted (s : String) : String := "\"" ++ String.join (s.toList.map escape) ++ "\""

def newline (level : Nat) : String := "\n" ++ String.ofList (List.replicate (2 * level) ' ')

/-- entries between brackets, one a line at `level` -/
def block (level : Nat) (opening closing : String) (entries : List String) : String :=
  if entries.isEmpty then opening ++ closing
  else opening ++ newline (level + 1) ++ ("," ++ newline (level + 1)).intercalate entries ++ newline level ++ closing

mutual

/-- the text of a document that starts at `level` -/
def pretty (level : Nat) : Document → String
  | .null => "null"
  | .number n => toString n
  | .text s => quoted s
  | .array items => block level "[" "]" (prettyItems (level + 1) items)
  | .object fields => block level "\x7b" "\x7d" (prettyFields (level + 1) fields)

def prettyItems (level : Nat) : List Document → List String
  | [] => []
  | d :: rest => d.pretty level :: prettyItems level rest

def prettyFields (level : Nat) : List (String × Document) → List String
  | [] => []
  | (key, d) :: rest => (quoted key ++ ": " ++ d.pretty level) :: prettyFields level rest

end

end Document

end DistributedKey.Json
