import PullQuery.Context

namespace PullQuery

structure Tuple where
  bindings : Fields Items

namespace Tuple

def empty : Tuple := ⟨[]⟩

def bind (t : Tuple) (name : String) (value : Items) : Tuple :=
  ⟨Fields.insert name value t.bindings⟩

def get? (t : Tuple) (name : String) : Option Items := Fields.find? name t.bindings

def names (t : Tuple) : List String := Fields.names t.bindings

def toContext (t : Tuple) (c : Context) : Context :=
  t.bindings.foldl (fun c b => c.bind b.1 b.2) c.child

theorem bindings_foldl_bind (bs : Fields Items) (t : Tuple) :
    (bs.foldl (fun t b => t.bind b.1 b.2) t).bindings =
      bs.foldl (fun fs b => Fields.insert b.1 b.2 fs) t.bindings := by
  induction bs generalizing t with
  | nil => rfl
  | cons b bs ih => exact ih (t.bind b.1 b.2)

end Tuple

namespace Items

/-- A sorting or grouping key: nothing or one atomic item. -/
def atomicKey (clause : String) : Items → Except Error (Option Item)
  | [] => .ok none
  | [a] => if a.isAtomic then .ok (some a) else .error (.of (.structuredKey clause a.type))
  | items => .error (.of (.severalKeyItems clause items.length))

end Items

end PullQuery
