import PullQuery.Item
import PullQuery.Calendar.Lexical
import PullQuery.Duration.Lexical
import PullQuery.Json.Quoted
import PullQuery.Number.Shortest

namespace PullQuery.Item

def isLiteral : Item → Bool
  | .null | .boolean _ | .int _ | .integer _ | .decimal _ | .object _ | .array _ => true
  | .double x => (Binary.ofDouble x).isFinite
  | .float x => (Binary.ofSingle x).isFinite
  | _ => false

def asMember (a : Item) (text : List Char) : List Char :=
  if a.isLiteral then text else Json.Quoted.encode text

def enclose (first last : Char) : List (List Char) → List Char
  | [] => [first, ' ', last]
  | parts => first :: ' ' :: (", ".toList.intercalate parts ++ [' ', last])

mutual

def lexical : Item → List Char
  | .null => "null".toList
  | .boolean b => if b then "true".toList else "false".toList
  | .string s => s.toList
  | .int i => Numeral.signed i.toInt
  | .integer n => Numeral.signed n
  | .decimal d => d.plain
  | .double x => Shortest.display .double (.ofDouble x)
  | .float x => Shortest.display .single (.ofSingle x)
  | .date d zone => d.lexical ++ Zone.lexical? zone
  | .time t zone => t.lexical ++ Zone.lexical? zone
  | .dateTime p zone => p.lexical ++ Zone.lexical? zone
  | .duration d => d.fullLexical
  | .yearMonthDuration m => Duration.monthsLexical m
  | .dayTimeDuration d => Duration.deltaLexical d
  | .object fields => enclose '{' '}' (lexicalFields fields)
  | .array ⟨members⟩ => enclose '[' ']' (lexicalMembers members)

def lexicalFields : List (String × Item) → List (List Char)
  | [] => []
  | (k, a) :: fs =>
    (Json.Quoted.encode k.toList ++ " : ".toList ++ asMember a (lexical a)) :: lexicalFields fs

def lexicalMembers : List Item → List (List Char)
  | [] => []
  | a :: as => asMember a (lexical a) :: lexicalMembers as

end

def text (a : Item) : String := String.ofList a.lexical

def stringValue (a : Item) : Except Error String :=
  if a.isAtomic then .ok a.text else .error (.of (.noStringValue a.type))

example : (ofMembers [null, string "a"]).lexical = "[ null, \"a\" ]".toList := rfl

end PullQuery.Item
