/-
# Solutions as JSON

A solution is one compact JSON object with its keys in alphabetical order; a
row puts the path of its knowledge base beside it.

Key definitions: `Json.string`, `Solution.json`, `Solution.jsonRow`.
-/
import LeastGlut.Solution

namespace LeastGlut
namespace Json

/-- One character inside a JSON string. -/
def escape (c : Char) : String :=
  if c = '"' then "\\\""
  else if c = '\\' then "\\\\"
  else if c = '\n' then "\\n"
  else if c = '\r' then "\\r"
  else if c = '\t' then "\\t"
  else if c = '\x08' then "\\b"
  else if c = '\x0c' then "\\f"
  else if c.toNat < 0x20 then
    "\\u00" ++ (if c.toNat < 0x10 then "0" else "") ++ String.ofList (Nat.toDigits 16 c.toNat)
  else c.toString

def string (s : String) : String := "\"" ++ String.join (s.toList.map escape) ++ "\""

def array (items : List String) : String := "[" ++ ",".intercalate items ++ "]"

/-- An object, from its keys and the texts of their values. -/
def object (fields : List (String × String)) : String :=
  "\x7b" ++ ",".intercalate (fields.map fun (key, value) => string key ++ ":" ++ value) ++ "\x7d"

end Json

def Solution.Entry.json (e : Solution.Entry) : String :=
  Json.object [("atom", Json.string e.atom), ("value", Json.string e.value.name)]

namespace Solution

def json (s : Solution) : String :=
  Json.object [("cost", toString s.cost),
    ("inconsistent", Json.array (s.inconsistent.map fun id => toString id)),
    ("strategy", Json.string s.strategy.name),
    ("valuation", Json.array (s.valuation.map Solution.Entry.json))]

def jsonRow (path : String) (s : Solution) : String :=
  Json.object [("path", Json.string path), ("solution", s.json)]

end Solution
end LeastGlut
