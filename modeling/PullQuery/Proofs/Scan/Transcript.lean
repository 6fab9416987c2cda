import PullQuery.Proofs.Scan.Alike
import PullQuery.Proofs.Scan.Session

namespace PullQuery

variable {ω : Type}

inductive Request
  | start (c : Context)
  | hasNext
  | next
  | close

inductive Signal (ω : Type)
  | started (r : Except Error Unit)
  | produced (r : Except Error (Option ω))
  | stopped
  | answered (a : Answer ω)

namespace Signal

def isStart : Signal ω → Bool
  | .started _ => true
  | _ => false

def isStop : Signal ω → Bool
  | .stopped => true
  | _ => false

def isProduced : Signal ω → Bool
  | .produced _ => true
  | _ => false

def goesOn : Signal ω → Bool
  | .answered _ | .produced (.ok (some _)) => true
  | _ => false

def answer? : Signal ω → Option (Answer ω)
  | .answered a => some a
  | _ => none

def result? : Signal ω → Option (Except Error ω)
  | .answered (.next r) => some r
  | _ => none

def isHandedOut (x : Signal ω) : Bool := x.result?.any Except.isOk

def outcome? (p : Position) : Signal ω → Option (Except Error ω)
  | .produced (.ok v) => v.map .ok
  | .produced (.error e) => some (.error (e.locate p))
  | _ => none

def results (ts : List (Signal ω)) : List (Except Error ω) := ts.filterMap result?

def outcomes (p : Position) (ts : List (Signal ω)) : List (Except Error ω) :=
  ts.filterMap (outcome? p)

@[simp] theorem outcome?_answered (p : Position) (a : Answer ω) :
    (answered a).outcome? p = none := rfl

@[simp] theorem result?_produced (r : Except Error (Option ω)) : (produced r).result? = none := rfl

@[simp] theorem result?_next (r : Except Error ω) : (answered (.next r)).result? = some r := rfl

@[simp] theorem isProduced_produced (r : Except Error (Option ω)) :
    (produced r).isProduced = true := rfl

@[simp] theorem isProduced_answered (a : Answer ω) : (answered a).isProduced = false := rfl

@[simp] theorem goesOn_answered (a : Answer ω) : (answered a).goesOn = true := rfl

theorem results_snoc (ts : List (Signal ω)) (x : Signal ω) :
    results (ts ++ [x]) = results ts ++ x.result?.toList := by
  cases h : x.result? <;> simp [results, h]

theorem outcomes_snoc (p : Position) (ts : List (Signal ω)) (x : Signal ω) :
    outcomes p (ts ++ [x]) = outcomes p ts ++ (x.outcome? p).toList := by
  cases h : x.outcome? p <;> simp [outcomes, h]

theorem goesOn_of_outcome {p : Position} {r : Except Error (Option ω)} {v : ω}
    (h : (produced r).outcome? p = some (.ok v)) : (produced r).goesOn = true := by
  rcases r with e | (_ | w)
  · cases h
  · cases h
  · rfl

theorem all_goesOn_snoc {ts : List (Signal ω)} {x : Signal ω} (h : ∀ y ∈ ts, y.goesOn = true)
    (hx : x.goesOn = true) : ∀ y ∈ ts ++ [x], y.goesOn = true := by
  intro y hy
  obtain hy | hy := List.mem_append.1 hy
  · exact h y hy
  · rwa [List.mem_singleton.1 hy]

def Current (ts scan : List (Signal ω)) : Prop :=
  ∃ before, ts = before ++ .started (.ok ()) :: scan ∧
    ∀ x ∈ scan, x.isStart = false ∧ x.isStop = false

end Signal

def Operator.recorded (op : Operator ω) : Operator ω where
  name := op.name
  position := op.position
  State := op.State × List (Signal ω)
  initial := (op.initial, [])
  start c i := (op.start c i.1).within (·, i.2 ++ [.started (op.start c i.1).value])
  produce i := (op.produce i.1).within (·, i.2 ++ [.produced (op.produce i.1).value])
  stop i := (op.stop i.1).within (·, i.2 ++ [.stopped])

namespace Scan

section

variable {op : Operator ω}

def ask (s : Scan op) : Request → Step (Answer ω) (Scan op)
  | .start c => (s.start c).mapValue .started
  | .hasNext => .done (.hasNext s.hasNext) s
  | .next => s.next.mapValue .next
  | .close => s.close.mapValue fun _ => .closed

def asks (s : Scan op) : List Request → Step (List (Answer ω)) (Scan op)
  | [] => .done [] s
  | q :: qs => (s.ask q).andThen fun a s => (s.asks qs).mapValue (a :: ·)

def transcript (s : Scan op.recorded) : List (Signal ω) := s.inner.2

def note (s : Scan op.recorded) (x : Signal ω) : Scan op.recorded :=
  ⟨s.phase, s.ahead, s.inner.1, s.transcript ++ [x]⟩

def serve (s : Scan op.recorded) (q : Request) : Scan op.recorded :=
  (s.ask q).state.note (.answered (s.ask q).value)

end

variable {op op' : Operator ω} {c : Context} {R : op.State → op'.State → Prop}

theorem ask_alike (h : ∀ c, op.Alike op' c R) {s : Scan op} {t : Scan op'} (hs : s.Alike R t)
    (c : Context) (q : Request) : (s.ask q).Alike (t.ask q) fun s t => s.Alike R t := by
  cases q with
  | start d => exact .mapValue (start_alike (h d) hs)
  | hasNext => exact ⟨congrArg Answer.hasNext (hasNext_alike hs), rfl, hs⟩
  | next => exact .mapValue (next_alike (h c) hs)
  | close => exact .mapValue (f := fun _ => Answer.closed) (close_alike (h c) hs)

end Scan

theorem Context.nonempty : Nonempty Context :=
  let now : DateTime := ⟨⟨1970, 1, 1, by decide, by decide, by decide⟩, .midnight⟩
  ⟨.root ⟨.utc, ⟨now, .utc⟩, .empty⟩ ⟨[], none⟩⟩

namespace Operator

variable (op : Operator ω)

def Mirrors (as : List (Answer ω)) (i : op.recorded.State) (j : op.State) : Prop :=
  i.1 = j ∧ i.2.filterMap Signal.answer? = as

theorem recorded_alike (as : List (Answer ω)) (c : Context) :
    op.recorded.Alike op c (op.Mirrors as) where
  name := rfl
  position := rfl
  start := by
    rintro ⟨i, l⟩ _ ⟨rfl, rfl⟩
    exact ⟨rfl, rfl, rfl, by simp [recorded, Signal.answer?]⟩
  produce := by
    rintro ⟨i, l⟩ _ ⟨rfl, rfl⟩
    exact ⟨rfl, rfl, rfl, by simp [recorded, Signal.answer?]⟩
  stop := by
    rintro ⟨i, l⟩ _ ⟨rfl, rfl⟩
    exact ⟨rfl, rfl, rfl, by simp [recorded, Signal.answer?]⟩

def served (qs : List Request) : Scan op.recorded := qs.foldl Scan.serve (.fresh _)

def transcript (qs : List Request) : List (Signal ω) := (op.served qs).transcript

variable {op}

theorem serve_mirrors {as : List (Answer ω)} {s : Scan op.recorded} {t : Scan op}
    (hs : s.Alike (op.Mirrors as) t) (c : Context) (q : Request) :
    (s.serve q).Alike (op.Mirrors (as ++ [(t.ask q).value])) (t.ask q).state := by
  obtain ⟨hv, -, hp, ha, hi, hl⟩ := Scan.ask_alike (op.recorded_alike as) hs c q
  refine ⟨hp, ha, hi, ?_⟩
  simp only [Scan.serve, Scan.note, Scan.transcript, List.filterMap_append, hl, hv]
  rfl

theorem serves_mirrors {as : List (Answer ω)} {s : Scan op.recorded} {t : Scan op}
    (hs : s.Alike (op.Mirrors as) t) (c : Context) (qs : List Request) :
    (qs.foldl Scan.serve s).Alike (op.Mirrors (as ++ (t.asks qs).value)) (t.asks qs).state := by
  induction qs generalizing s t as with
  | nil => simpa [Scan.asks] using hs
  | cons q qs ih =>
    have h := ih (serve_mirrors hs c q)
    rw [List.append_assoc] at h
    exact h

variable (op)

theorem served_mirrors (qs : List Request) :
    (op.served qs).Alike (op.Mirrors ((Scan.fresh op).asks qs).value)
      ((Scan.fresh op).asks qs).state := by
  obtain ⟨c⟩ := Context.nonempty
  have hs : (Scan.fresh op.recorded).Alike (op.Mirrors []) (.fresh op) := ⟨rfl, rfl, rfl, rfl⟩
  exact serves_mirrors hs c qs

theorem transcript_answers (qs : List Request) :
    (op.transcript qs).filterMap Signal.answer? = ((Scan.fresh op).asks qs).value :=
  (op.served_mirrors qs).2.2.2

end Operator

end PullQuery
