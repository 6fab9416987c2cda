import PullQuery.Item
import PullQuery.Item.Text
import PullQuery.Scan.Children
import PullQuery.Scan.Choice
import PullQuery.Scan.Each
import PullQuery.Scan.Leaf
import PullQuery.Scan.Nested

namespace PullQuery

namespace Machine

def truthOf {m : Machine Item} (c : Context) (s : Scan m.toOperator) :
    Step (Except Error Bool) (Scan m.toOperator) :=
  (s.materialize c).mapValue fun r => r.bind Items.truth

def decided : Connective → Bool → Option Bool
  | .and, false => some false
  | .or, true => some true
  | _, _ => none

def logical (p : Position) (connective : Connective) (l r : Machine Item) : Machine Item :=
  defer connective.name p (Scan.fresh l.toOperator, Scan.fresh r.toOperator)
    (fun c s => .done (.ok (some c)) s)
    fun c s =>
      (truthOf c s.1).thenOk (·, s.2) fun b s₁ =>
        match decided connective b with
        | some b => .done (.ok (.boolean b)) (s₁, s.2)
        | none => ((truthOf c s.2).within (s₁, ·)).mapValue fun r => r.map .boolean

def not (p : Position) (e : Machine Item) : Machine Item :=
  defer "not" p (Scan.fresh e.toOperator) (fun c s => .done (.ok (some c)) s)
    fun c s => (truthOf c s).mapValue fun r => r.map fun b => .boolean !b

def conditional (p : Position) (condition yes no : Machine Item) : Machine Item :=
  choice "if-then-else" p (Scan.fresh condition.toOperator) truthOf yes no

structure Building where
  fields : Fields Item
  key : Option String

namespace Building

def key? : Items → Except Error String
  | [.string s] => .ok s
  | [a] => .error (.of (.keyType a.type))
  | items => .error (.of (.keyCount items.length))

/-- No item makes null, and several items make an array. -/
def value : Items → Item
  | [] => .null
  | [a] => a
  | items => .ofMembers items

def take (b : Building) (items : Items) : Except Error Building :=
  match b.key with
  | none => (key? items).map fun k => { b with key := some k }
  | some k =>
    if Fields.contains k b.fields then .error (.of (.duplicateKey k))
    else .ok ⟨b.fields ++ [(k, value items)], none⟩

end Building

def object (p : Position) (fields : List (Machine Item)) : Machine Item :=
  defer "object-constructor" p (Scans.fresh fields) (fun c s => .done (.ok (some c)) s)
    fun c s => (Scans.fold c Building.take fields ⟨[], none⟩ s).mapValue fun r =>
      r.map fun b => .object b.fields

def array (p : Position) (contents : List (Machine Item)) : Machine Item :=
  defer "array-constructor" p (Scans.fresh contents) (fun c s => .done (.ok (some c)) s)
    fun c s => (Scans.materialize c contents s).mapValue fun r =>
      r.map fun vs => .ofMembers vs.flatten

def lookupKey : Items → Except Error String
  | [a] => if a.isAtomic then .ok a.text else .error (.of .lookupKey)
  | _ => .error (.of .lookupKey)

def lookupPosition : Items → Except Error Int
  | [a] =>
    match a.integer? with
    | some n => .ok n
    | none => .error (.of .lookupPosition)
  | _ => .error (.of .lookupPosition)

def navigate {ρ : Type} (name : String) (p : Position) (key : Machine Item)
    (resolve : Items → Except Error ρ) (select : ρ → Item → Items) (input : Machine Item) :
    Machine Item :=
  each name p (Scan.fresh key.toOperator)
    (fun c s => (s.materialize c).mapValue fun r => r.bind resolve)
    (fun k a s => .done (.ok (select k a)) s) input

def field (p : Position) (input key : Machine Item) : Machine Item :=
  navigate "object-lookup" p key lookupKey (fun k a => (a.field? k).toList) input

def member (p : Position) (input position : Machine Item) : Machine Item :=
  navigate "array-lookup" p position lookupPosition
    (fun n a => if n < 0 then [] else (a.member? n.toNat).toList) input

def unbox (p : Position) (input : Machine Item) : Machine Item :=
  each "array-unboxing" p () (fun _ s => .done (.ok ()) s)
    (fun _ a s => .done (.ok a.members.toList) s) input

def projection : Items → Except Error Projection
  | [] => .ok ⟨[]⟩
  | .string s :: rest => (projection rest).map fun p => ⟨s :: p.names⟩
  | a :: _ => .error (.of (.projectionKey a.type))

def project (p : Position) (input keys : Machine Item) : Machine Item :=
  navigate "project" p keys projection (fun keep a => [keep.apply a]) input

def map (p : Position) (input result : Machine Item) : Machine Item :=
  nested "simple-map" p ⟨fun c a place => c.child.withFocus a place, fun _ _ b => b, fun _ => none⟩
    input result

end Machine

end PullQuery
