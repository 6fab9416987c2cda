import PullQuery.Context
import PullQuery.Scan.Step

/-!
The pull protocol. An operator says how a scan starts, how it produces its next value and how it
stops; a scan drives it with one value of look-ahead. An error met while looking ahead is held back
until it is asked for, so that the values before it stay visible.
-/

namespace PullQuery

structure Operator (ω : Type) where
  name : String
  position : Position
  State : Type
  initial : State
  start : Context → State → Step (Except Error Unit) State
  produce : State → Step (Except Error (Option ω)) State
  stop : State → Step Unit State

inductive Phase
  | created
  | opened
  | exhausted
  | closed
deriving DecidableEq, Repr

def Phase.name : Phase → String
  | .created => "Created"
  | .opened => "Open"
  | .exhausted => "Exhausted"
  | .closed => "Closed"

def Phase.isStarted : Phase → Bool
  | .opened | .exhausted => true
  | .created | .closed => false

structure Scan {ω : Type} (op : Operator ω) where
  phase : Phase
  ahead : Option (Except Error ω)
  inner : op.State

namespace Scan

variable {ω : Type} {op : Operator ω}

def fresh (op : Operator ω) : Scan op := ⟨.created, none, op.initial⟩

def halt (s : Scan op) : Step Unit op.State :=
  if s.phase.isStarted then op.stop s.inner else .done () s.inner

def advance (inner : op.State) : Step Unit (Scan op) :=
  (op.produce inner).andThen fun r i =>
    match r with
    | .ok (some v) => .done () ⟨.opened, some (.ok v), i⟩
    | .ok none => .done () ⟨.exhausted, none, i⟩
    | .error e => .done () ⟨.opened, some (.error (e.locate op.position)), i⟩

def start (c : Context) (s : Scan op) : Step (Except Error Unit) (Scan op) :=
  s.halt.andThen fun _ i =>
    (op.start c i).andThen fun r i =>
      match r with
      | .error e => (op.stop i).within (⟨.exhausted, none, ·⟩) |>.mapValue fun _ =>
          .error (e.locate op.position)
      | .ok _ => (advance i).mapValue .ok

def hasNext (s : Scan op) : Bool := s.phase == .opened && s.ahead.isSome

def misused (op : Operator ω) (cause : String → Error.Cause) : Error :=
  (Error.of (cause op.name)).locate op.position

def next (s : Scan op) : Step (Except Error ω) (Scan op) :=
  match s.phase with
  | .created => .done (.error (misused op .notOpened)) s
  | .closed => .done (.error (misused op .closed)) s
  | .opened | .exhausted =>
    match s.ahead with
    | some (.ok v) => (advance s.inner).mapValue fun _ => .ok v
    | some (.error e) => .done (.error e) ⟨.exhausted, none, s.inner⟩
    | none => .done (.error (misused op .exhausted)) s

def close (s : Scan op) : Step Unit (Scan op) := s.halt.within (⟨.closed, none, ·⟩)

def atMostOne (c : Context) (s : Scan op) : Step (Except Error (Option ω)) (Scan op) :=
  (s.start c).thenOk id fun _ s =>
    if s.hasNext then
      s.next.andThen fun r s =>
        match r with
        | .error e => s.close.mapValue fun _ => .error e
        | .ok v =>
          let several := s.hasNext
          s.close.mapValue fun _ =>
            if several then .error ((Error.of .severalItems).locate op.position) else .ok (some v)
    else s.close.mapValue fun _ => .ok none

def first (c : Context) (s : Scan op) : Step (Except Error (Option ω)) (Scan op) :=
  (s.start c).thenOk id fun _ s =>
    if s.hasNext then
      s.next.andThen fun r s => s.close.mapValue fun _ => r.map some
    else s.close.mapValue fun _ => .ok none

end Scan

end PullQuery
