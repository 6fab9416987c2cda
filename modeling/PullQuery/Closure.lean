import PullQuery.Evaluation
import PullQuery.Expr.Dependencies
import PullQuery.Record.Codec

namespace PullQuery

structure Closure where
  expression : Expr
  columns : List String
  base : Context

namespace Closure

structure State (f : Closure) where
  scan : Scan f.expression.machine.toOperator
  codec : Codec

def fresh (f : Closure) : f.State := ⟨f.expression.scan, .fresh⟩

def dependencies (f : Closure) : List String := f.expression.dependencies

/-- Binds the columns that are read, up to the first one that does not decode. -/
def bindColumns (reads : List String) (c : Context) :
    List (String × ByteArray) → Codec → Step (Except Error Context) Codec
  | [], codec => .done (.ok c) codec
  | (name, bytes) :: rest, codec =>
    if reads.contains name then
      (codec.decode bytes).thenOk id fun items codec =>
        bindColumns reads (c.bind name items) rest codec
    else bindColumns reads c rest codec

def call (f : Closure) (row : List ByteArray) (s : f.State) :
    Step (Except Error ByteArray) f.State :=
  if row.length = f.columns.length then
    ((bindColumns f.dependencies f.base.child (f.columns.zip row) s.codec).within
      (⟨s.scan, ·⟩ : Codec → f.State)).thenOk id fun c s =>
        ((s.scan.materialize c).within (⟨·, s.codec⟩ : _ → f.State)).thenOk id fun items s =>
          (s.codec.encode items).within (⟨s.scan, ·⟩ : Codec → f.State) |>.mapValue .ok
  else .done (.error (.of (.columnCount f.columns.length row.length))) s

def rehydrate (f : Closure) (s : f.State) : f.State := { s with codec := s.codec.rehydrate }

end Closure

end PullQuery
