import PullQuery.Proofs.Expr.Output
import PullQuery.Proofs.Scan.Session
import PullQuery.Stream

namespace PullQuery

theorem Expr.opening_eq (e : Expr) (c : Context) (s t : Scan e.machine.toOperator) :
    s.opening c = t.opening c := (e.gives c).opening_eq s t

theorem Clause.opening_eq (p : Position) (clauses : List Clause) (c : Context)
    (s t : Scan (pipelineMachine p clauses).toOperator) : s.opening c = t.opening c :=
  (pipeline_gives clauses c Machine.seed_gives).opening_eq s t

theorem opening_resets :
    (∀ (e : Expr) (history later : List Call) (c : Context),
      ((e.scan.calls history).state.calls (.start c :: later)).value =
        (e.scan.calls (.start c :: later)).value) ∧
    ∀ (p : Position) (clauses : List Clause) (history later : List Call) (c : Context),
      let s := Scan.fresh (Clause.pipelineMachine p clauses).toOperator
      ((s.calls history).state.calls (.start c :: later)).value =
        (s.calls (.start c :: later)).value := by
  refine ⟨fun e history later c => ?_, fun p clauses history later c => ?_⟩
  · exact Scan.calls_start_value e.opening_eq history later c e.scan rfl
  · exact Scan.calls_start_value (Clause.opening_eq p clauses) history later c (.fresh _) rfl

namespace Output

variable {ω : Type}

def entries (o : Output ω) : List (Except Error ω) :=
  o.values.map .ok ++ o.failure.toList.map .error

@[simp] theorem entries_cons (v : ω) (o : Output ω) : (o.cons v).entries = .ok v :: o.entries := rfl

@[simp] theorem entries_fail (e : Error) : (fail e : Output ω).entries = [.error e] := rfl

@[simp] theorem entries_nil : (ofList [] : Output ω).entries = [] := rfl

end Output

namespace ItemStream

variable {op : Operator Item} {m : Machine Item}

theorem take_succ_value (n : Nat) (s : ItemStream op) :
    (s.take (n + 1)).value = s.next.value :: (s.next.state.take n).value := rfl

theorem next_of_ended {s : ItemStream op} (h : s.ended = true) : s.next = .done none s := by
  rw [next, if_pos h]

theorem take_of_ended {s : ItemStream op} (h : s.ended = true) (n : Nat) :
    (s.take n).value = List.replicate n none := by
  induction n with
  | zero => rfl
  | succ n ih =>
    rw [take_succ_value, next_of_ended h, List.replicate_succ]
    exact congrArg _ ih

theorem next_of_not_hasNext {s : Scan op} (h : s.hasNext = false) :
    (ofScan s).next.value = none ∧ (ofScan s).next.state.ended = true := by
  simp [next, ofScan, h]

theorem next_of_ok {s : Scan op} {a : Item} (h : s.hasNext = true) (hv : s.next.value = .ok a) :
    (ofScan s).next.value = some (.ok a) ∧ (ofScan s).next.state = ofScan s.next.state := by
  simp [next, ofScan, h, hv]

theorem next_of_error {s : Scan op} {e : Error} (h : s.hasNext = true)
    (hv : s.next.value = .error e) :
    (ofScan s).next.value = some (.error e) ∧ (ofScan s).next.state.ended = true := by
  simp [next, ofScan, h, hv]

theorem map_range_nil (n : Nat) :
    (List.range n).map (fun i => ([] : List (Except Error Item))[i]?) = List.replicate n none := by
  simp [List.map_const']

theorem map_range_cons (n : Nat) (x : Except Error Item) (xs : List (Except Error Item)) :
    (List.range (n + 1)).map (fun i => (x :: xs)[i]?) =
      some x :: (List.range n).map fun i => xs[i]? := by
  simp [List.range_succ_eq_map, Function.comp_def]

theorem take_value (n : Nat) (s : Scan m.toOperator) :
    ((ofScan s).take n).value = (List.range n).map fun i => s.remaining.entries[i]? := by
  induction n generalizing s with
  | zero => rfl
  | succ n ih =>
    rw [take_succ_value]
    cases hn : s.hasNext with
    | false =>
      obtain ⟨hv, hs⟩ := next_of_not_hasNext hn
      rw [hv, take_of_ended hs, Scan.remaining_of_not_hasNext hn, Output.entries_nil, map_range_nil,
        List.replicate_succ]
    | true =>
      obtain ⟨a, ha, hr⟩ | ⟨e, he, hr⟩ := Scan.remaining_eq_of_hasNext hn
      · obtain ⟨hv, hs⟩ := next_of_ok hn ha
        rw [hv, hs, ih, hr, Output.entries_cons, map_range_cons]
      · obtain ⟨hv, hs⟩ := next_of_error hn he
        rw [hv, take_of_ended hs, hr, Output.entries_fail, map_range_cons, map_range_nil]

end ItemStream

/-- Whatever its scans were used for before, an expression fails to open for every way to read it, or
for none, and these then read the values and the failure of one output. -/
theorem Expr.entry_points_agree (e : Expr) (c : Context) (s t u : Scan e.machine.toOperator) :
    (∃ err, e.scan.opening c = .error err ∧ (s.materialize c).value = .error err ∧
      (t.first c).value = .error err ∧ (u.start c).value = .error err) ∨
    ∃ o, e.scan.opening c = .ok o ∧ (s.materialize c).value = o.collect ∧
      (t.first c).value = o.first ∧ (u.start c).value = .ok () ∧
      ∀ n, ((ItemStream.ofScan (u.start c).state).take n).value =
        (List.range n).map fun i => o.entries[i]? := by
  rw [Scan.materialize_value, Scan.first_value, Scan.start_value, Scan.run, Scan.run,
    e.opening_eq c s e.scan, e.opening_eq c t e.scan, e.opening_eq c u e.scan]
  rcases ho : e.scan.opening c with err | o
  · exact .inl ⟨err, rfl, rfl, rfl, rfl⟩
  · refine .inr ⟨o, rfl, rfl, rfl, rfl, fun n => ?_⟩
    rw [ItemStream.take_value, Scan.remaining_start ((e.opening_eq c u e.scan).trans ho)]

end PullQuery
