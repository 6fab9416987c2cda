import PullQuery.Expr
import PullQuery.Registry

namespace PullQuery

inductive Body
  | eager (function : Function)
  | streaming (build : Position → List Expr → Expr)

namespace Body

def call (b : Body) (p : Position) (arguments : List Expr) : Expr :=
  match b with
  | .eager function => .call p function arguments
  | .streaming build => build p arguments

end Body

def Registry.call (r : Registry Body) (p : Position) (name : String) (arguments : List Expr) :
    Except Error Expr :=
  match r.resolve name arguments.length with
  | .ok b => .ok (b.call p arguments)
  | .error cause => .error ((Error.of cause).locate p)

structure Settings where
  implicitTimezone : Zone
  now : Moment
  functions : Registry Body

structure Frame where
  bindings : Fields Items
  focus : Option Focus

def Frame.empty : Frame := ⟨[], none⟩

namespace Frame

def bind (f : Frame) (name : String) (value : Items) : Frame :=
  { f with bindings := Fields.insert name value f.bindings }

def withFocus (f : Frame) (item : Item) (position : Nat) : Frame :=
  { f with focus := some ⟨item, position⟩ }

/-- Binds a name anew, at the end of the frame. -/
def rebind (f : Frame) (name : String) (value : Items) : Frame :=
  { f with bindings := Fields.erase name f.bindings ++ [(name, value)] }

def lookup (name : String) : List Frame → Option Items
  | [] => none
  | f :: fs => (Fields.find? name f.bindings).or (lookup name fs)

def lookupFocus : List Frame → Option Focus
  | [] => none
  | f :: fs => f.focus.or (lookupFocus fs)

end Frame

structure Context where
  settings : Settings
  frame : Frame
  outer : List Frame

namespace Context

def frames (c : Context) : List Frame := c.frame :: c.outer

def root (settings : Settings) (frame : Frame) : Context := ⟨settings, frame, []⟩

def child (c : Context) : Context := ⟨c.settings, .empty, c.frames⟩

def bind (c : Context) (name : String) (value : Items) : Context :=
  { c with frame := c.frame.bind name value }

def withFocus (c : Context) (item : Item) (position : Nat) : Context :=
  { c with frame := c.frame.withFocus item position }

def value? (c : Context) (name : String) : Option Items := Frame.lookup name c.frames

def isBound (c : Context) (name : String) : Bool := (c.value? name).isSome

def focus? (c : Context) : Option Focus := Frame.lookupFocus c.frames

def implicitTimezone (c : Context) : Zone := c.settings.implicitTimezone

def now (c : Context) : Moment := c.settings.now

def localNames (c : Context) : List String := Fields.names c.frame.bindings

def callSite (c : Context) (p : Position) : CallSite := ⟨p, c.focus?, c.implicitTimezone, c.now⟩

end Context

end PullQuery
