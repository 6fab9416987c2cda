import PullQuery.Machine.Primary
import PullQuery.Proofs.Arithmetic.Points
import PullQuery.Proofs.Arithmetic.Table
import PullQuery.Proofs.Duration.Printing

namespace PullQuery

namespace Duration

open Lexical

theorem sameSign_of_parse? {kind : Kind} {text : String} {d : Duration}
    (h : parse? kind text = some d) : d.SameSign := by
  obtain ⟨w, -, -, hm, hn⟩ := ofLexical?_eq_some_iff.1 h
  unfold Spelling.sign at hm hn
  unfold SameSign
  by_cases hw : w.negative = true
  · rw [if_pos hw] at hm hn
    omega
  · rw [if_neg hw] at hm hn
    omega

theorem parse?_of_months_gt {kind : Kind} {w : Spelling} (hb : w.Bounded)
    (hc : w.hasMonths = true ∨ w.hasSpan = true) (hm : 2_147_483_647 < w.totalMonths) :
    parse? kind (String.ofList w.chars) = none := by
  have hbody : body? w.body = some (.ofSlots w.date, .ofSlots w.time) :=
    body?_eq_some_iff.2 ⟨{ w with negative := false }, rfl, rfl, hc, hb, rfl, rfl⟩
  have hmonths : months? (.ofSlots w.date) = none := by
    apply Option.eq_none_iff_forall_ne_some.2
    intro m h
    have := (months?_date_iff.1 h).1
    omega
  unfold parse?
  rw [String.toList_ofList, Text.trim_eq_self fun _ => Spelling.not_isBlank_of_mem_chars,
    Spelling.chars, ofLexical?_eq_bind rfl, hbody, Option.bind_some]
  dsimp only
  rw [hmonths]
  split <;> rfl

theorem Spelling.bounded_ofTotals (negative : Bool) {months nanos : Nat}
    (hm : months ≤ 2_147_483_648) (hn : (nanos : Int) ≤ Delta.limit) :
    (ofTotals negative months nanos).Bounded := by
  obtain ⟨hs, -⟩ := printedSeconds_totals (nanos / 1_000_000_000 % 86400 % 60)
    (Nat.mod_lt nanos (show 0 < 1_000_000_000 by decide))
  unfold Delta.limit at hn
  unfold Bounded ofTotals Long.greatest
  simp only [count_printed, hs]
  omega

theorem parse?_printed_least {kind : Kind} {d : Duration} (h : d.months = Int32.minValue) :
    parse? kind (String.ofList (withSign d.isNegative ('P' ::
      (yearMonth d.months.toInt.natAbs ++ dayTime d.delta.nanos.natAbs)))) = none := by
  have hmonths : d.months.toInt.natAbs = 2_147_483_648 := by
    rw [h]
    decide
  have hnanos : (d.delta.nanos.natAbs : Int) ≤ Delta.limit := by
    have := d.delta.bounded
    omega
  rw [hmonths, ← Spelling.body_ofTotals d.isNegative]
  apply parse?_of_months_gt (Spelling.bounded_ofTotals d.isNegative (Nat.le_refl _) hnanos)
  · left
    rw [Spelling.hasMonths_ofTotals]
    decide
  · rw [Spelling.totalMonths_ofTotals]
    decide

theorem toInt_of_least {m : Int32} (h : m = Int32.minValue) : m.toInt ≠ 0 := by
  rw [h]
  decide

theorem reread_months (m : Int32) : parse? .yearMonth (String.ofList (monthsLexical m)) =
    if m = Int32.minValue then none else some (.ofMonths m) := by
  by_cases h : m = Int32.minValue
  · rw [if_pos h, monthsLexical_eq (toInt_of_least h)]
    exact parse?_printed_least h
  · rw [if_neg h]
    exact parse?_monthsLexical h

theorem reread_full (d : Duration) : parse? .full (String.ofList d.fullLexical) = some d ↔
    d.SameSign ∧ d.months ≠ Int32.minValue := by
  constructor
  · intro h
    refine ⟨sameSign_of_parse? h, fun hmin => ?_⟩
    rw [fullLexical_eq (.inl (toInt_of_least hmin)), parse?_printed_least hmin] at h
    cases h
  · rintro ⟨hs, hm⟩
    exact parse?_fullLexical hm hs

end Duration

namespace ItemType

theorem duration_notMem_promoted (l r : ItemType) : .duration ∉ l.promoted r := by
  unfold promoted
  split
  · decide
  · rw [List.mem_singleton]
    intro h
    have hmem := l.ladder_mem r
    rw [← h] at hmem
    revert hmem
    decide

theorem duration_notMem_of_isOffset {t : ItemType} (h : t.isOffset = true) : .duration ∉ [t] := by
  rw [List.mem_singleton]
  rintro rfl
  cases h

theorem duration_notMem_of_isMovedBy {t u : ItemType} (h : t.isMovedBy u = true) :
    .duration ∉ [t] := by
  rw [List.mem_singleton]
  rintro rfl
  cases h

end ItemType

theorem AdditiveOp.duration_notMem_row (op : AdditiveOp) (l r : ItemType) :
    .duration ∉ op.row l r := by
  unfold AdditiveOp.row
  split
  · exact ItemType.duration_notMem_promoted l r
  split
  case isTrue h => exact ItemType.duration_notMem_of_isOffset h.1
  split
  case isTrue h => exact ItemType.duration_notMem_of_isMovedBy h
  split
  case isTrue h => exact ItemType.duration_notMem_of_isMovedBy h.2
  split
  · decide
  · decide

theorem MultiplicativeOp.duration_notMem_row (op : MultiplicativeOp) (l r : ItemType) :
    .duration ∉ op.row l r := by
  unfold MultiplicativeOp.row
  split
  · cases op with
    | multiply => exact ItemType.duration_notMem_promoted l r
    | modulo => exact ItemType.duration_notMem_promoted l r
    | integerDivide =>
      dsimp only
      decide
    | divide =>
      dsimp only
      split
      · decide
      · exact ItemType.duration_notMem_promoted l r
  split
  case isTrue h => exact ItemType.duration_notMem_of_isOffset h.1
  split
  case isTrue h => exact ItemType.duration_notMem_of_isOffset h.2.1
  split
  · decide
  · decide

open Arithmetic

theorem AdditiveOp.type_ne_duration {op : AdditiveOp} {implicit : Zone} {l r a : Item}
    (h : op.apply implicit l r = .ok (some a)) : a.type ≠ .duration := by
  intro ha
  cases hs : op.negatesFirst l r with
  | true => cases (additive_negatesFirst implicit hs).symm.trans h
  | false =>
    have hf := additive_follows op implicit l r hs
    rw [h] at hf
    exact op.duration_notMem_row l.type r.type (ha ▸ hf.1)

theorem MultiplicativeOp.type_ne_duration {op : MultiplicativeOp} {l r a : Item}
    (h : op.apply l r = .ok (some a)) : a.type ≠ .duration := by
  intro ha
  have hf := multiplicative_follows op l r
  rw [h] at hf
  exact op.duration_notMem_row l.type r.type (ha ▸ hf.1)

theorem UnaryOp.eq_or_negate_of_apply {op : UnaryOp} {a b : Item} (h : op.apply a = .ok b) :
    b = a ∨ negate a = .ok (some b) := by
  unfold UnaryOp.apply at h
  cases op with
  | plus =>
    left
    by_cases hn : (a.isNumeric || a.type.isDuration) = true
    · rw [if_pos hn] at h
      exact (Except.ok.inj h).symm
    · rw [if_neg hn] at h
      cases h
  | minus =>
    right
    cases hr : negate a with
    | error e =>
      rw [hr] at h
      cases h
    | ok r =>
      rw [hr] at h
      cases r with
      | none => cases h
      | some c =>
        cases h
        rfl

inductive Arises : Item → Prop
  | plain {a : Item} (h : a.type ≠ .duration) : Arises a
  | construct {kind : Duration.Kind} {a b : Item} (ha : Arises a) (h : kind.construct a = .ok b) :
      Arises b
  | sum {op : AdditiveOp} {implicit : Zone} {l r a : Item} (hl : Arises l) (hr : Arises r)
      (h : op.apply implicit l r = .ok (some a)) : Arises a
  | product {op : MultiplicativeOp} {l r a : Item} (hl : Arises l) (hr : Arises r)
      (h : op.apply l r = .ok (some a)) : Arises a
  | sign {op : UnaryOp} {a b : Item} (ha : Arises a) (h : op.apply a = .ok b) : Arises b

def Item.SameSign (a : Item) : Prop := ∀ d, a = .duration d → d.SameSign

namespace Item.SameSign

theorem of_type {a : Item} (h : a.type ≠ .duration) : a.SameSign := by
  rintro d rfl
  exact absurd rfl h

theorem of_duration? {a : Item} (ha : a.SameSign) {d : Duration} (h : a.duration? = some d) :
    d.SameSign := by
  cases a with
  | duration e =>
    obtain rfl := Option.some.inj h
    exact ha e rfl
  | yearMonthDuration m =>
    obtain rfl := Option.some.inj h
    have : (Duration.ofMonths m).delta.nanos = 0 := rfl
    unfold Duration.SameSign
    omega
  | dayTimeDuration e =>
    obtain rfl := Option.some.inj h
    have : (Duration.ofDelta e).months.toInt = 0 := rfl
    unfold Duration.SameSign
    omega
  | _ => cases h

theorem ofDuration (kind : Duration.Kind) {d : Duration} (h : d.SameSign) :
    (Item.ofDuration kind d).SameSign := by
  cases kind with
  | full =>
    rintro e he
    obtain rfl : d = e := Item.duration.inj he
    exact h
  | yearMonth => exact of_type (by simp [Item.ofDuration, Item.type])
  | dayTime => exact of_type (by simp [Item.ofDuration, Item.type])

theorem construct {kind : Duration.Kind} {a b : Item} (ha : a.SameSign)
    (h : kind.construct a = .ok b) : b.SameSign := by
  unfold Duration.Kind.construct at h
  split at h
  · split at h
    · cases h
      exact ofDuration kind (Duration.sameSign_of_parse? ‹_›)
    · cases h
  · split at h
    · cases h
      exact ofDuration kind (ha.of_duration? ‹_›)
    · cases h

theorem negate {a b : Item} (ha : a.SameSign) (h : Arithmetic.negate a = .ok (some b)) :
    b.SameSign := by
  rintro e rfl
  cases a with
  | duration d =>
    obtain ⟨m, hm, he⟩ := overflowing_map_eq_ok_iff.1 h
    obtain rfl := Item.duration.inj (Option.some.inj he)
    have hd := ha d rfl
    have hmonths := Word.ofInt?_eq_some_iff.1 hm
    have hnanos : d.delta.neg.nanos = -d.delta.nanos := rfl
    unfold Duration.SameSign at hd ⊢
    dsimp only
    omega
  | yearMonthDuration m =>
    obtain ⟨n, -, he⟩ := overflowing_map_eq_ok_iff.1 h
    cases he
  | int i =>
    have ht := ofInt_type (-i.toInt)
    rw [Option.some.inj (Except.ok.inj h)] at ht
    simp [Item.type] at ht
  | _ => cases h

theorem sign {op : UnaryOp} {a b : Item} (ha : a.SameSign) (h : op.apply a = .ok b) :
    b.SameSign := by
  obtain rfl | hn := UnaryOp.eq_or_negate_of_apply h
  · exact ha
  · exact ha.negate hn

end Item.SameSign

theorem Arises.sameSign {a : Item} (h : Arises a) : a.SameSign := by
  induction h with
  | plain h => exact .of_type h
  | construct _ h ih => exact ih.construct h
  | sum _ _ h => exact .of_type (AdditiveOp.type_ne_duration h)
  | product _ _ h => exact .of_type (MultiplicativeOp.type_ne_duration h)
  | sign _ h ih => exact ih.sign h

namespace Duration

/-- A count of months is read back unless it is the least one, and a span always. A full duration
is when its parts have no opposite signs either, which holds of all that evaluation makes. -/
theorem durations_reread (d : Duration) :
    parse? .yearMonth (text .yearMonth d) =
      (if d.months = Int32.minValue then none else some (.ofMonths d.months)) ∧
    parse? .dayTime (text .dayTime d) = some (.ofDelta d.delta) ∧
    (parse? .full (text .full d) = some d ↔ d.SameSign ∧ d.months ≠ Int32.minValue) ∧
    (Arises (.duration d) → d.months ≠ Int32.minValue → parse? .full (text .full d) = some d) := by
  refine ⟨reread_months d.months, parse?_deltaLexical d.delta, reread_full d, ?_⟩
  intro h hm
  exact (reread_full d).2 ⟨h.sameSign d rfl, hm⟩

theorem least_months_not_reread :
    AdditiveOp.apply .subtract .utc (.yearMonthDuration (-2147483647)) (.yearMonthDuration 1) =
        .ok (some (.yearMonthDuration Int32.minValue)) ∧
      parse? .yearMonth (text .yearMonth (.ofMonths Int32.minValue)) = none := by
  refine ⟨by rfl, ?_⟩
  exact reread_months Int32.minValue

end Duration

end PullQuery
