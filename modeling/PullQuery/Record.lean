import PullQuery.Duration.Lexical
import PullQuery.Item.Text
import PullQuery.Json.Reader
import PullQuery.Json.Writer

namespace PullQuery

namespace Record

def ofBinary : Binary → Json
  | .nan => .string "NaN"
  | .infinite negative => .string (if negative then "-INF" else "INF")
  | .finite negative m e => .number (Json.Literal.ofFinite negative m e)

def tagged (type : ItemType) (value : Json) : Json :=
  .object [("type", .string type.name), ("value", value)]

mutual

def ofItem : Item → Json
  | .null => tagged .null .null
  | .boolean b => tagged .boolean (.boolean b)
  | .string s => tagged .string (.string s)
  | .int i => tagged .int (.number (.ofInt i.toInt))
  | .integer n => tagged .integer (.string (String.ofList (Numeral.signed n)))
  | .decimal d => tagged .decimal (.string (String.ofList d.lexical))
  | .double x => tagged .double (ofBinary (.ofDouble x))
  | .float x => tagged .float (ofBinary (.ofDouble (Binary.widen x)))
  | .date d zone => tagged .date (.string (d.text zone))
  | .time t zone => tagged .time (.string (t.text zone))
  | .dateTime p zone => tagged .dateTime (.string (p.text zone))
  | .duration d => tagged .duration (.string (d.text .full))
  | .yearMonthDuration m =>
    tagged .yearMonthDuration (.string (String.ofList (Duration.monthsLexical m)))
  | .dayTimeDuration d =>
    tagged .dayTimeDuration (.string (String.ofList (Duration.deltaLexical d)))
  | .object fields => tagged .object (.object (ofFields fields))
  | .array ⟨members⟩ => tagged .array (.array (ofItems members))

def ofItems : List Item → List Json
  | [] => []
  | a :: as => ofItem a :: ofItems as

def ofFields : List (String × Item) → List (String × Json)
  | [] => []
  | (k, a) :: fs => (k, ofItem a) :: ofFields fs

end

def malformed {α : Type} (what : Error.Malformed) : Except Error α :=
  .error (.of (.malformedItem what))

def lexical? : Json → Except Error String
  | .string s => .ok s
  | _ => malformed .notLexical

def floating? : Json → Except Error Float
  | .number l =>
    match l.number? with
    | some (.integer n) => .ok (Binary.ofInt .double n).toDouble
    | some (.double x) => .ok x
    | none => malformed .notFloating
  | .string "NaN" => .ok Binary.nan.toDouble
  | .string "INF" => .ok (Binary.infinite false).toDouble
  | .string "-INF" => .ok (Binary.infinite true).toDouble
  | .string s => malformed (.floating s)
  | _ => malformed .notFloating

def word? : Json → Option Int32
  | .number l =>
    match l.number? with
    | some (.integer n) => Word.ofInt? n
    | _ => none
  | _ => none

def parsed (type : ItemType) (parse? : String → Option Item) (value : Json) : Except Error Item :=
  (lexical? value).bind fun s =>
    match parse? s with
    | some a => .ok a
    | none => malformed (.invalid type)

def parsedDuration (type : ItemType) (kind : Duration.Kind) (value : Json) : Except Error Item :=
  parsed type (fun s => (Duration.parse? kind s).map (.ofDuration kind)) value

def atomic (type : ItemType) (value : Json) : Except Error Item :=
  match type with
  | .null => .ok .null
  | .boolean =>
    match value with
    | .boolean b => .ok (.boolean b)
    | _ => malformed (.invalid .boolean)
  | .string => (lexical? value).map .string
  | .int =>
    match word? value with
    | some i => .ok (.int i)
    | none => malformed (.invalid .int)
  | .integer => parsed type (fun s => (Numeral.integer? s.toList).map .integer) value
  | .decimal => parsed type (fun s => (Decimal.parse? s.toList).map .decimal) value
  | .double => (floating? value).map .double
  | .float => (floating? value).map fun x => .float (Binary.narrow x)
  | .date => parsed type (fun s => (Date.parse? s).map fun (d, zone) => .date d zone) value
  | .time => parsed type (fun s => (Clock.parse? s).map fun (t, zone) => .time t zone) value
  | .dateTime =>
    parsed type (fun s => (DateTime.parse? s).map fun (p, zone) => .dateTime p zone) value
  | .duration => parsedDuration type .full value
  | .yearMonthDuration => parsedDuration type .yearMonth value
  | .dayTimeDuration => parsedDuration type .dayTime value
  | .object => malformed (.invalid .object)
  | .array => malformed (.invalid .array)

mutual

def toItem : Json → Except Error Item
  | .object fields =>
    match (Fields.find? "type" fields).bind Json.string? with
    | none => malformed .noType
    | some type => valueOf type fields
  | _ => malformed .noType

def valueOf (type : String) : List (String × Json) → Except Error Item
  | [] => malformed .noValue
  | (k, v) :: fs => if k = "value" then ofValue type v else valueOf type fs

def ofValue (type : String) (value : Json) : Except Error Item :=
  match ItemType.ofName? type with
  | none => malformed (.unknownType type)
  | some type =>
    match value with
    | .object fields =>
      if type = .object then (toFields fields).map .object else atomic type (.object fields)
    | .array elements =>
      if type = .array then (toItems elements).map .ofMembers else atomic type (.array elements)
    | value => atomic type value

def toItems : List Json → Except Error (List Item)
  | [] => .ok []
  | v :: vs => do
    let a ← toItem v
    let as ← toItems vs
    .ok (a :: as)

def toFields : List (String × Json) → Except Error (List (String × Item))
  | [] => .ok []
  | (k, v) :: fs => do
    let a ← toItem v
    let fs ← toFields fs
    .ok ((k, a) :: fs)

end

def encode (items : Items) : ByteArray := (Json.array (ofItems items)).text.toUTF8

def decode (bytes : ByteArray) : Except Error Items :=
  match (String.fromUTF8? bytes).bind Json.read? with
  | some (.array elements) => toItems elements
  | _ => .error (.of .unreadable)

end Record

end PullQuery
