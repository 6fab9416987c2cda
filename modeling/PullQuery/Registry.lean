import PullQuery.Error
import PullQuery.Fields

namespace PullQuery

structure Overload (β : Type) where
  least : Nat
  most : Option Nat
  body : β

namespace Overload

variable {β : Type}

def admits (o : Overload β) (arity : Nat) : Bool :=
  o.least ≤ arity && match o.most with
    | none => true
    | some n => arity ≤ n

def precedes (o q : Overload β) : Bool :=
  q.least < o.least || (o.least == q.least && match o.most, q.most with
    | some m, some n => m < n
    | some _, none => true
    | none, _ => false)

def insert (o : Overload β) : List (Overload β) → List (Overload β)
  | [] => [o]
  | q :: qs => if o.precedes q then o :: q :: qs else q :: insert o qs

def arities (o : Overload β) : List Nat :=
  match o.most with
  | none => []
  | some n => (List.range (n + 1)).filter (o.least ≤ ·)

end Overload

structure Registry (β : Type) where
  overloads : Fields (List (Overload β))

namespace Registry

variable {β : Type}

def empty : Registry β := ⟨[]⟩

def register (r : Registry β) (name : String) (o : Overload β) : Registry β :=
  ⟨Fields.insert name (o.insert ((Fields.find? name r.overloads).getD [])) r.overloads⟩

def contains (r : Registry β) (name : String) : Bool := Fields.contains name r.overloads

def knownArities (os : List (Overload β)) : List Nat :=
  ((os.flatMap Overload.arities).mergeSort (· ≤ ·)).eraseDups

def resolve (r : Registry β) (name : String) (arity : Nat) : Except Error.Cause β :=
  match Fields.find? name r.overloads with
  | none => .error (.unknownFunction name)
  | some os =>
    match os.find? (·.admits arity) with
    | some o => .ok o.body
    | none => .error (.wrongArity name (knownArities os))

end Registry

end PullQuery
