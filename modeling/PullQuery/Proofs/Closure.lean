import PullQuery.Closure
import PullQuery.Proofs.Expr.Dependencies
import PullQuery.Proofs.Record

namespace PullQuery

namespace Context

def bindAll (c : Context) (bindings : List (String × Items)) : Context :=
  bindings.foldl (fun c b => c.bind b.1 b.2) c

theorem value?_bind (c : Context) (name other : String) (items : Items) :
    (c.bind name items).value? other = if name = other then some items else c.value? other := by
  unfold value? frames bind Frame.bind Frame.lookup
  rw [Fields.find?_insert]
  split <;> rfl

namespace AgreesOn

variable {names : List String} {c c' : Context}

theorem bind (h : AgreesOn names c c') (name : String) (items : Items) :
    AgreesOn names (c.bind name items) (c'.bind name items) where
  focus := h.focus
  implicitTimezone := h.implicitTimezone
  now := h.now
  value n hn := by rw [value?_bind, value?_bind, h.value n hn]

theorem bind_right (h : AgreesOn names c c') {name : String} (hn : name ∉ names) (items : Items) :
    AgreesOn names c (c'.bind name items) where
  focus := h.focus
  implicitTimezone := h.implicitTimezone
  now := h.now
  value n hm := by
    have hne : name ≠ n := fun he => hn (he ▸ hm)
    rw [value?_bind, if_neg hne, h.value n hm]

end AgreesOn
end Context

namespace Closure

theorem bindColumns_agrees (reads columns : List String) {row : List ByteArray}
    {values : List Items} (hv : row.mapM Record.decode = .ok values) {c c' : Context}
    (h : c.AgreesOn reads c') (codec : Codec) :
    ∃ d, (bindColumns reads c (columns.zip row) codec).value = .ok d ∧
      d.AgreesOn reads (c'.bindAll (columns.zip values)) := by
  induction columns generalizing row values c c' codec with
  | nil => exact ⟨c, rfl, h⟩
  | cons name columns ih =>
    cases row with
    | nil =>
      cases hv
      exact ⟨c, rfl, h⟩
    | cons bytes row =>
      rw [List.mapM_cons] at hv
      obtain ⟨items, hi, hv⟩ := ok_of_bind hv
      obtain ⟨values, hr, hv⟩ := ok_of_bind hv
      cases hv
      rw [List.zip_cons_cons, List.zip_cons_cons, bindColumns]
      by_cases hn : reads.contains name = true
      · rw [if_pos hn, Step.thenOk_value]
        have hd : (codec.decode bytes).value = .ok items := hi
        rw [hd]
        exact ih hr (h.bind name items) _
      · rw [if_neg hn]
        have hm : name ∉ reads := fun hm => hn (List.contains_iff_mem.2 hm)
        exact ih hr (h.bind_right hm items) _

theorem call_value (f : Closure) {row : List ByteArray} {values : List Items}
    (hl : row.length = f.columns.length) (hv : row.mapM Record.decode = .ok values) (s : f.State) :
    (f.call row s).value =
      (f.expression.evaluate (f.base.child.bindAll (f.columns.zip values))).map Record.encode := by
  have hb : f.base.child.AgreesOn f.dependencies f.base.child := ⟨rfl, rfl, rfl, fun _ _ => rfl⟩
  obtain ⟨d, hd, ha⟩ := bindColumns_agrees f.dependencies f.columns hv hb s.codec
  have hm : ∀ t : f.State, (t.scan.materialize d).value = (f.expression.output d).collect :=
    fun t => (f.expression.gives d).materialize t.scan
  rw [call, if_pos hl, Step.thenOk_value, Step.within_value, hd, Expr.evaluate_eq,
    ← f.expression.output_agrees ha]
  change ((Step.thenOk _ _ _).value : Except Error ByteArray) = _
  rw [Step.thenOk_value, Step.within_value, hm]
  cases (f.expression.output d).collect with
  | error e => rfl
  | ok items => rfl

inductive Use
  | call (row : List ByteArray)
  | rehydrate

def use (f : Closure) (s : f.State) : Use → f.State
  | .call row => (f.call row s).state
  | .rehydrate => f.rehydrate s

def after (f : Closure) (history : List Use) : f.State := history.foldl f.use f.fresh

/-- Whatever a closure did before, a row gives the encoding of what its expression evaluates to with
every column bound, and the same error; a row of another length is refused and leaves no trace. -/
theorem call_computes_let (f : Closure) (history : List Use) :
    (∀ (row : List ByteArray) (values : List Items), row.length = f.columns.length →
      row.mapM Record.decode = .ok values →
      (f.call row (f.after history)).value =
        (f.expression.evaluate (f.base.child.bindAll (f.columns.zip values))).map Record.encode) ∧
    ∀ row : List ByteArray, row.length ≠ f.columns.length →
      (∃ e, (f.call row (f.after history)).value = .error e ∧ e.code = .foer0000) ∧
        (f.call row (f.after history)).state = f.after history := by
  refine ⟨fun row values hl hv => f.call_value hl hv _, fun row hl => ?_⟩
  have hc : f.call row (f.after history) =
      .done (.error (.of (.columnCount f.columns.length row.length))) (f.after history) := if_neg hl
  rw [hc]
  exact ⟨⟨_, rfl, rfl⟩, rfl⟩

theorem call_computes_let_of_repeated_column :
    let p : Position := ⟨1, 1⟩
    let now : DateTime := ⟨⟨2024, 1, 2, by decide, by decide, by decide⟩, .midnight⟩
    let base : Context := .root ⟨.utc, ⟨now, .utc⟩, .empty⟩ ⟨[("x", [.null])], none⟩
    let f : Closure := ⟨.variable p "x", ["x", "x"], base⟩
    let row : List ByteArray := [Record.encode [.int 1], Record.encode [.int 2]]
    row.mapM Record.decode = .ok [[.int 1], [.int 2]] ∧
      (f.call row (f.after [.call [], .rehydrate])).value = .ok (Record.encode [.int 2]) ∧
      ∃ e, (f.call [] (f.after [.call [], .rehydrate])).value = .error e ∧ e.code = .foer0000 := by
  intro p now base f row
  have hd (i : Int32) : Record.decode (Record.encode [.int i]) = .ok [.int i] := by
    have hk : Item.KeptMembers [.int i] := ⟨trivial, trivial⟩
    have hdepth : (Json.array (Record.ofItems [.int i])).depth = 2 := rfl
    rw [Record.decode_encode_eq hk, hdepth, if_pos (by decide), Record.ofItems, Record.toItems,
      Record.toItem_int]
    rfl
  have hr : row.mapM Record.decode = .ok [[.int 1], [.int 2]] := by
    rw [List.mapM_cons, List.mapM_cons, hd, hd]
    rfl
  refine ⟨hr, ?_, ?_⟩
  · rw [(f.call_computes_let [.call [], .rehydrate]).1 row _ rfl hr, Expr.evaluate_eq]
    rfl
  · exact ((f.call_computes_let [.call [], .rehydrate]).2 [] (by decide)).1

end Closure
end PullQuery
