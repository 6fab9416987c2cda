import PullQuery.Proofs.Scan.Session
import PullQuery.Proofs.Usage.Expr
import PullQuery.Stream

namespace PullQuery

namespace Scan

variable {ω : Type} {m : Machine ω} {us : Usages}

end Scan

namespace ItemStream

variable {m : Machine Item} {us : Usages}

theorem next_leaves {s : ItemStream m.toOperator} (h : s.scan.Sound us) :
    s.next.Leaves us fun s us => s.scan.Sound us := by
  have close {s : Scan m.toOperator} {us : Usages} (h : s.Sound us) :
      (s.close.within (⟨·, true⟩) : Step Unit (ItemStream m.toOperator)).Leaves us
        fun s us => s.scan.Sound us :=
    .within ((Scan.close_leaves h).mono fun _ h => h.1)
  rw [next]
  split
  · exact .done h
  · split
    · refine (Scan.next_leaves h).andThen fun us h => ?_
      split
      · exact .done h
      · exact .mapValue (close h)
    · exact .mapValue (close h)

end ItemStream

inductive Run
  | evaluate (c : Context)
  | first (c : Context)
  | atMostOne (c : Context)
  | stream (c : Context) (pulls : Nat)
  | calls (ks : List Call)

namespace Expr

def streamed (e : Expr) (c : Context) (pulls : Nat) :
    Step (Except Error (List (Option (Except Error Item)))) (Scan e.machine.toOperator) :=
  (e.scan.start c).thenOk id fun _ s =>
    ((ItemStream.ofScan s).take pulls).andThen fun answers s =>
      (s.drop.within (·.scan)).mapValue fun _ => .ok answers

end Expr

def Run.log (e : Expr) : Run → Log
  | .evaluate c => (e.scan.materialize c).log
  | .first c => (e.scan.first c).log
  | .atMostOne c => (e.scan.atMostOne c).log
  | .stream c pulls => (e.streamed c pulls).log
  | .calls ks => (e.scan.calls (ks ++ [.close])).log

end PullQuery
