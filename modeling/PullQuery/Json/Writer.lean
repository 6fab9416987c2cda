import PullQuery.Json.Basic
import PullQuery.Json.Quoted

namespace PullQuery.Json

def Literal.text (l : Literal) : List Char :=
  (if l.negative then ['-'] else [])
    ++ l.whole
    ++ (match l.fraction with
      | none => []
      | some ds => '.' :: ds)
    ++ (match l.exponent with
      | none => []
      | some (negative, ds) => 'e' :: (if negative then '-' else '+') :: ds)

mutual

def write : Json → List Char
  | .null => "null".toList
  | .boolean b => if b then "true".toList else "false".toList
  | .number l => l.text
  | .string s => Quoted.encode s.toList
  | .array elements => '[' :: (writeElements elements ++ [']'])
  | .object fields => '{' :: (writeFields fields ++ ['}'])

def writeElements : List Json → List Char
  | [] => []
  | [v] => write v
  | v :: vs => write v ++ ',' :: writeElements vs

def writeFields : List (String × Json) → List Char
  | [] => []
  | [(k, v)] => Quoted.encode k.toList ++ ':' :: write v
  | (k, v) :: fs => Quoted.encode k.toList ++ ':' :: write v ++ ',' :: writeFields fs

end

theorem write_number (l : Literal) : write (.number l) = l.text := rfl

theorem write_string (s : String) : write (.string s) = Quoted.encode s.toList := rfl

theorem write_array (elements : List Json) :
    write (.array elements) = '[' :: (writeElements elements ++ [']']) := rfl

theorem write_object (fields : List (String × Json)) :
    write (.object fields) = '{' :: (writeFields fields ++ ['}']) := rfl

def text (v : Json) : String := String.ofList v.write

end PullQuery.Json
