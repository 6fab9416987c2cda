import PullQuery.Builtin.Durations
import PullQuery.Builtin.Points
import PullQuery.Builtin.Sequences
import PullQuery.Context

namespace PullQuery

namespace Builtin

def constructDuration (kind : Duration.Kind) : Body :=
  .streaming fun p arguments =>
    match arguments with
    | [] => .empty p
    | e :: _ => .duration p kind e

def projectFields : Body :=
  .streaming fun p arguments =>
    match arguments with
    | input :: keys :: _ => .project p input keys
    | _ => .empty p

def unary : List Function :=
  Duration.Component.all.map componentFunction ++ points ++ sequences

end Builtin

open Builtin

def Registry.exactly (name : String) (arity : Nat) (body : Body) (r : Registry Body) :
    Registry Body :=
  r.register name ⟨arity, some arity, body⟩

def Registry.builtin : Registry Body :=
  let constructors := [Duration.Kind.full, .yearMonth, .dayTime].foldl
    (fun r kind => r.exactly kind.name 1 (constructDuration kind)) Registry.empty
  let ones := unary.foldl (fun r f => r.exactly f.name 1 (.eager f)) constructors
  let nones := present.foldl (fun r f => r.exactly f.name 0 (.eager f)) ones
  (nones.exactly "project" 2 projectFields).register "string" ⟨0, some 1, .eager ⟨"string", string⟩⟩

end PullQuery
