import PullQuery.Item

namespace PullQuery

inductive Access
  | opening
  | pull
  | closing
deriving DecidableEq, Repr

def Access.name : Access → String
  | .opening => "open"
  | .pull => "next"
  | .closing => "close"

structure Event where
  label : String
  access : Access
deriving DecidableEq, Repr

def Event.text (e : Event) : String := s!"{e.label}:{e.access.name}"

abbrev Log := List Event

/-- A store with the entries it hands out after every opening, or its reason not to open. Accesses
to a store without a label are not logged. -/
structure Source where
  label : Option String
  entries : List (Except Error Item)
  refusal : Option Error

namespace Source

def ofItems (items : Items) : Source := ⟨none, items.map .ok, none⟩

def log (s : Source) (access : Access) : Log :=
  match s.label with
  | none => []
  | some label => [⟨label, access⟩]

end Source

end PullQuery
