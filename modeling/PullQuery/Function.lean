import PullQuery.Item
import PullQuery.Calendar.DateTime

namespace PullQuery

structure Focus where
  item : Item
  position : Nat

structure Moment where
  value : DateTime
  zone : Zone

structure CallSite where
  position : Position
  focus : Option Focus
  implicitTimezone : Zone
  now : Moment

structure Function where
  name : String
  apply : CallSite → List Items → Except Error Items

namespace Builtin

def optional (function : String) (index : Nat) : Items → Except Error (Option Item)
  | [] => .ok none
  | [a] => .ok (some a)
  | items => .error (.of (.severalArgumentItems function index items.length))

def onOptional (name : String) (f : Item → Except Error Item) : Function where
  name := name
  apply _ arguments := do
    let a ← optional name 1 (arguments.headD [])
    match a with
    | none => .ok []
    | some a => (f a).map fun b => [b]

def onItems (name : String) (f : Items → Except Error Items) : Function where
  name := name
  apply _ arguments := f (arguments.headD [])

end Builtin

end PullQuery
