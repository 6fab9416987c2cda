import PullQuery.Item
import PullQuery.Json.Basic

namespace PullQuery.Item

def ofNumber : Json.Number → Item
  | .integer n => ofInt n
  | .double x =>
    match Binary.ofDouble x with
    | .finite negative m e =>
      let l := Json.Literal.ofFinite negative m e
      if l.exponent.isSome then .double x else .decimal l.toDecimal
    | _ => .double x

mutual

def ofJson : Json → Item
  | .null => .null
  | .boolean b => .boolean b
  | .number l =>
    match l.number? with
    | some n => ofNumber n
    | none => .decimal l.toDecimal
  | .string s => .string s
  | .array elements => ofMembers (ofElements elements)
  | .object fields => .object (ofFieldValues fields)

def ofElements : List Json → List Item
  | [] => []
  | v :: vs => ofJson v :: ofElements vs

def ofFieldValues : List (String × Json) → List (String × Item)
  | [] => []
  | (k, v) :: fs => (k, ofJson v) :: ofFieldValues fs

end

end PullQuery.Item
