import PullQuery.Function
import PullQuery.Item.Text
import PullQuery.Item

namespace PullQuery.Builtin

def zeroOrOne (items : Items) : Except Error Items :=
  if 1 < items.length then .error (.of (.notZeroOrOne items.length)) else .ok items

def exactlyOne (items : Items) : Except Error Items :=
  if items.length = 1 then .ok items else .error (.of (.notExactlyOne items.length))

def keys (items : Items) : Items := (Fields.addNames (items.flatMap Item.keys) []).map .string

def values (items : Items) : Items :=
  items.flatMap fun a => (a.fields?.getD []).map Prod.snd

def size (a : Item) : Except Error Item :=
  match a.members? with
  | some ms => .ok (.ofNat ms.size)
  | none => .error (.of (.sizeArgument a.type))

def string (site : CallSite) : List Items → Except Error Items
  | [] =>
    match site.focus with
    | none => .error (.of .noFocusForString)
    | some focus => focus.item.stringValue.map fun s => [.string s]
  | items :: _ => do
    let a ← optional "string" 1 items
    match a with
    | none => .ok [.string ""]
    | some a => a.stringValue.map fun s => [.string s]

def sequences : List Function :=
  [onItems "keys" fun items => .ok (keys items),
    onItems "values" fun items => .ok (values items),
    onOptional "size" size,
    onItems "members" fun items => .ok (items.flatMap fun a => a.members.toList),
    onItems "count" fun items => .ok [.ofNat items.length],
    onItems "exists" fun items => .ok [.boolean !items.isEmpty],
    onItems "empty" fun items => .ok [.boolean items.isEmpty],
    onItems "zero-or-one" zeroOrOne,
    onItems "exactly-one" exactlyOne,
    onItems "head" fun items => .ok (items.take 1),
    onItems "tail" fun items => .ok (items.drop 1),
    onItems "boolean" fun items => items.truth.map fun b => [.boolean b],
    onItems "not" fun items => items.truth.map fun b => [.boolean !b]]

end PullQuery.Builtin
