/-!
# JSON output

JSON values and their compact text. The fields of an object are written in the order of their names,
and characters beyond ASCII are written as they are.
-/

namespace HornSaturation

/-- A JSON value; all numbers are integers. -/
inductive JsonValue where
  | null
  | bool (b : Bool)
  | int (n : Int)
  | string (s : String)
  | array (items : List JsonValue)
  | object (fields : List (String × JsonValue))

namespace JsonValue

/-- A hexadecimal digit. -/
def hexDigit (n : Nat) : Char := if n < 10 then Char.ofNat (48 + n) else Char.ofNat (87 + n)

/-- A character as it is written inside a string. -/
def escape (c : Char) : List Char :=
  if c = '"' then ['\\', '"']
  else if c = '\\' then ['\\', '\\']
  else if c = '\n' then ['\\', 'n']
  else if c = '\r' then ['\\', 'r']
  else if c = '\t' then ['\\', 't']
  else if c.toNat = 8 then ['\\', 'b']
  else if c.toNat = 12 then ['\\', 'f']
  else if c.toNat < 32 then ['\\', 'u', '0', '0', hexDigit (c.toNat / 16), hexDigit (c.toNat % 16)]
  else [c]

/-- A string in quotes. -/
def quote (s : String) : String := "\"" ++ String.ofList (s.toList.flatMap escape) ++ "\""

/-- An object with its fields in the order of their names; of several fields with one name the last
one is kept. -/
def ofFields (fields : List (String × JsonValue)) : JsonValue :=
  .object (fields.foldl insert [])
where
  /-- Puts a field into its place among sorted fields. -/
  insert (sorted : List (String × JsonValue)) (field : String × JsonValue) :
      List (String × JsonValue) :=
    match sorted with
    | [] => [field]
    | other :: rest =>
      if field.1 < other.1 then field :: other :: rest
      else if field.1 = other.1 then field :: rest
      else other :: insert rest field

mutual
/-- The compact text of a value. -/
def render : JsonValue → String
  | .null => "null"
  | .bool true => "true"
  | .bool false => "false"
  | .int n => toString n
  | .string s => quote s
  | .array items => "[" ++ renderItems items ++ "]"
  | .object fields => "\x7b" ++ renderFields fields ++ "\x7d"
/-- The texts of values, with commas between them. -/
def renderItems : List JsonValue → String
  | [] => ""
  | [v] => render v
  | v :: vs => render v ++ "," ++ renderItems vs
/-- The texts of fields, with commas between them. -/
def renderFields : List (String × JsonValue) → String
  | [] => ""
  | [(name, v)] => quote name ++ ":" ++ render v
  | (name, v) :: rest => quote name ++ ":" ++ render v ++ "," ++ renderFields rest
end

end JsonValue

end HornSaturation
