import PullQuery.Proofs.Arithmetic
import PullQuery.Record

namespace PullQuery.Record

theorem malformed_raises {α : Type} (what : Error.Malformed) :
    Raises [.dynamic] (malformed what : Except Error α) := .error List.mem_cons_self

theorem lexical?_raises (value : Json) : Raises [.dynamic] (lexical? value) := by
  unfold lexical?
  split
  · exact .ok _
  · exact malformed_raises _

theorem floating?_raises (value : Json) : Raises [.dynamic] (floating? value) := by
  unfold floating?
  split
  · split
    · exact .ok _
    · exact .ok _
    · exact malformed_raises _
  · exact .ok _
  · exact .ok _
  · exact .ok _
  · exact malformed_raises _
  · exact malformed_raises _

theorem parsed_raises (type : ItemType) (parse? : String → Option Item) (value : Json) :
    Raises [.dynamic] (parsed type parse? value) := by
  refine (lexical?_raises value).bind fun s => ?_
  cases parse? s with
  | some a => exact .ok a
  | none => exact malformed_raises _

theorem atomic_raises (type : ItemType) (value : Json) : Raises [.dynamic] (atomic type value) := by
  cases type with
  | null => exact .ok _
  | boolean =>
    cases value with
    | boolean b => exact .ok _
    | _ => exact malformed_raises _
  | string => exact (lexical?_raises value).map _
  | int =>
    rw [atomic]
    cases word? value with
    | some i => exact .ok _
    | none => exact malformed_raises _
  | double => exact (floating?_raises value).map _
  | float => exact (floating?_raises value).map _
  | object => exact malformed_raises _
  | array => exact malformed_raises _
  | _ => exact parsed_raises _ _ value

mutual

theorem toItem_raises : ∀ value : Json, Raises [.dynamic] (toItem value)
  | .object fields => by
    rw [toItem]
    split
    · exact malformed_raises _
    · exact valueOf_raises _ fields
  | .null | .boolean _ | .number _ | .string _ | .array _ => by
    rw [toItem]
    · exact malformed_raises _
    · exact fun _ h => nomatch h

theorem valueOf_raises (type : String) : ∀ fields : List (String × Json),
    Raises [.dynamic] (valueOf type fields)
  | [] => malformed_raises _
  | (k, v) :: fs => by
    rw [valueOf]
    split
    · exact ofValue_raises type v
    · exact valueOf_raises type fs

theorem ofValue_raises (type : String) : ∀ value : Json, Raises [.dynamic] (ofValue type value)
  | .object fields => by
    rw [ofValue]
    split
    · exact malformed_raises _
    · dsimp only
      split
      · exact (toFields_raises fields).map _
      · exact atomic_raises _ _
  | .array elements => by
    rw [ofValue]
    split
    · exact malformed_raises _
    · dsimp only
      split
      · exact (toItems_raises elements).map _
      · exact atomic_raises _ _
  | .null | .boolean _ | .number _ | .string _ => by
    rw [ofValue]
    split
    · exact malformed_raises _
    · exact atomic_raises _ _

theorem toItems_raises : ∀ values : List Json, Raises [.dynamic] (toItems values)
  | [] => .ok _
  | v :: vs => (toItem_raises v).bind fun _ => (toItems_raises vs).bind fun _ => .ok _

theorem toFields_raises : ∀ fields : List (String × Json), Raises [.dynamic] (toFields fields)
  | [] => .ok _
  | (_, v) :: fs => (toItem_raises v).bind fun _ => (toFields_raises fs).bind fun _ => .ok _

end

end PullQuery.Record
