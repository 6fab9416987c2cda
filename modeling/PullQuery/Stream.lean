import PullQuery.Evaluation

namespace PullQuery

structure ItemStream (op : Operator Item) where
  scan : Scan op
  ended : Bool

namespace ItemStream

variable {op : Operator Item}

def ofScan (s : Scan op) : ItemStream op := ⟨s, false⟩

def next (s : ItemStream op) : Step (Option (Except Error Item)) (ItemStream op) :=
  if s.ended then .done none s
  else if s.scan.hasNext then
    s.scan.next.andThen fun r scan =>
      match r with
      | .ok a => .done (some (.ok a)) ⟨scan, false⟩
      | .error e => (scan.close.within (⟨·, true⟩)).mapValue fun _ => some (.error e)
  else (s.scan.close.within (⟨·, true⟩)).mapValue fun _ => none

def take : Nat → ItemStream op → Step (List (Option (Except Error Item))) (ItemStream op)
  | 0, s => .done [] s
  | n + 1, s =>
    s.next.andThen fun a s => (take n s).mapValue fun as => a :: as

def drop (s : ItemStream op) : Step Unit (ItemStream op) := s.scan.close.within (⟨·, true⟩)

end ItemStream

end PullQuery
