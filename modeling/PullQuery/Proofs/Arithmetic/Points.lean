import PullQuery.Comparison
import PullQuery.Arithmetic
import PullQuery.Proofs.Calendar.Timeline

namespace PullQuery

open Arithmetic

namespace Arithmetic

theorem overflowing_map_eq_ok_iff {α β : Type} {o : Option α} {f : α → β} {b : β} :
    (overflowing o).map f = .ok b ↔ ∃ a, o = some a ∧ f a = b := by
  cases o with
  | none =>
    constructor
    · nofun
    · rintro ⟨a, h, -⟩
      cases h
  | some a =>
    constructor
    · intro h
      exact ⟨a, rfl, Except.ok.inj h⟩
    · rintro ⟨_, h, rfl⟩
      cases h
      rfl

/-- The local date of a point, for a time the reference date. -/
def localDate? : Item → Option Date
  | .date d _ => some d
  | .time _ _ => some DateTime.referenceDate
  | .dateTime p _ => some p.date
  | _ => none

theorem isPlaced_of_localDate? (z : Zone) {a : Item}
    (h : ∀ d ∈ localDate? a, Calendar.leastYear < d.year ∧ d.year < Calendar.greatestYear) :
    isPlaced z a = true := by
  have placed (p : DateTime) (zone : Option Zone) (hp : localDate? a = some p.date) :
      (p.toInstant zone z).toDateTime?.isSome = true := by
    obtain ⟨hl, hg⟩ := h p.date hp
    obtain ⟨q, hq⟩ := DateTime.exists_toInstant hl hg zone z
    rw [hq]
    rfl
  cases a with
  | date d zone => exact placed (DateTime.startOf d) zone rfl
  | time t zone => exact placed (DateTime.onReferenceDate t) zone rfl
  | dateTime p zone => exact placed p zone rfl
  | _ => rfl

end Arithmetic

def Date.Moved (d : Date) (zone : Option Zone) (days : Int) (result : Except Error (Option Item)) :
    Prop :=
  (∃ e : Date, e.toDays = d.toDays + days ∧ result = .ok (some (.date e zone))) ∨
    ((∀ e : Date, e.toDays ≠ d.toDays + days) ∧ result = .error (.of .pointOverflow))

namespace AdditiveOp

variable {op : AdditiveOp} {implicit : Zone} {zone : Option Zone}

def span : AdditiveOp → Delta → Delta
  | .add, d => d
  | .subtract, d => d.neg

theorem nanos_of_sum {a b s : Delta}
    (h : AdditiveOp.apply .add implicit (.dayTimeDuration a) (.dayTimeDuration b) =
      .ok (some (.dayTimeDuration s))) : s.nanos = a.nanos + b.nanos := by
  change (overflowing (Delta.ofNanos? (a.nanos + b.nanos))).map _ = _ at h
  obtain ⟨c, hc, he⟩ := overflowing_map_eq_ok_iff.1 h
  cases he
  exact Delta.ofNanos?_eq_some_iff.1 hc

theorem apply_dateTime (op : AdditiveOp) (implicit : Zone) (p : DateTime) (zone : Option Zone)
    (d : Delta) : op.apply implicit (.dateTime p zone) (.dayTimeDuration d) =
      (overflowing (p.wall.add (op.span d)).toDateTime?).map fun q => some (.dateTime q zone) := by
  rw [← DateTime.shift?_zero]
  cases op <;> rfl

theorem apply_dateTime_eq_ok_iff {p : DateTime} {d : Delta} {q : Item} :
    op.apply implicit (.dateTime p zone) (.dayTimeDuration d) = .ok (some q) ↔
      ∃ r : DateTime, r.wall = p.wall.add (op.span d) ∧ q = .dateTime r zone := by
  rw [apply_dateTime, overflowing_map_eq_ok_iff]
  constructor
  · rintro ⟨r, hr, h⟩
    exact ⟨r, DateTime.toDateTime?_eq_some_iff.1 hr, (Option.some.inj h).symm⟩
  · rintro ⟨r, hr, rfl⟩
    exact ⟨r, DateTime.toDateTime?_eq_some_iff.2 hr, rfl⟩

theorem apply_dateTime_cases (op : AdditiveOp) (implicit : Zone) (p : DateTime)
    (zone : Option Zone) (d : Delta) :
    (∃ r : DateTime, op.apply implicit (.dateTime p zone) (.dayTimeDuration d) =
      .ok (some (.dateTime r zone))) ∨
    op.apply implicit (.dateTime p zone) (.dayTimeDuration d) = .error (.of .pointOverflow) := by
  rw [apply_dateTime]
  cases (p.wall.add (op.span d)).toDateTime? with
  | none => exact .inr rfl
  | some r => exact .inl ⟨r, rfl⟩

theorem apply_time (op : AdditiveOp) (implicit : Zone) (t : Clock) (zone : Option Zone)
    (d : Delta) : op.apply implicit (.time t zone) (.dayTimeDuration d) =
      .ok (some (.time (t.add (op.span d)).1 zone)) := by
  cases op <;> rfl

theorem apply_date (op : AdditiveOp) (implicit : Zone) (d : Date) (zone : Option Zone) (a : Delta) :
    op.apply implicit (.date d zone) (.dayTimeDuration a) =
      (overflowing ((DateTime.startOf d).wall.add (op.span a)).toDateTime?).map
        fun p => some (.date p.date zone) := by
  rw [← DateTime.shift?_zero]
  cases op <;> rfl

theorem apply_points {l r : Item} (hr : r.type.isPoint = true) (implicit : Zone) :
    AdditiveOp.apply .subtract implicit l r = difference implicit l r := by
  cases r with
  | date d zone => cases l <;> rfl
  | time t zone => cases l <;> rfl
  | dateTime p zone => cases l <;> rfl
  | _ => cases hr

theorem apply_date_moved (op : AdditiveOp) (implicit : Zone) (d : Date) (zone : Option Zone)
    (a : Delta) : d.Moved zone ((op.span a).nanos / Clock.perDay)
      (op.apply implicit (.date d zone) (.dayTimeDuration a)) := by
  -- Midnight is in no leap second, so the day follows from the count of nanoseconds.
  have midnight : (DateTime.startOf d).wall.time.inLeapSecond = false := rfl
  have hsum := Instant.add_total midnight (op.span a)
  have hb := Clock.total_bounds (Instant.add_steady midnight (op.span a))
  have hzero : Clock.midnight.total = 0 := rfl
  have hstart : (DateTime.startOf d).wall.total = d.toDays * Clock.perDay := by
    change d.toDays * Clock.perDay + Clock.midnight.total = _
    rw [hzero, Int.add_zero]
  rw [apply_date]
  generalize (DateTime.startOf d).wall.add (op.span a) = i at hsum hb ⊢
  have hday : i.day = d.toDays + (op.span a).nanos / Clock.perDay := by
    rw [hstart] at hsum
    unfold Instant.total Clock.perDay at *
    omega
  unfold Date.Moved
  rw [← hday]
  cases hi : i.toDateTime? with
  | some p =>
    have hw := DateTime.toDateTime?_eq_some_iff.1 hi
    exact .inl ⟨p.date, congrArg Instant.day hw, rfl⟩
  | none =>
    refine .inr ⟨fun e he => ?_, rfl⟩
    have hw : DateTime.wall ⟨e, i.time⟩ = i := congrArg (Instant.mk · i.time) he
    rw [DateTime.toDateTime?_eq_some_iff.2 hw] at hi
    cases hi

theorem plus_plus {p q : DateTime} (hp : p.time.inLeapSecond = false) {a b s : Delta}
    (hs : s.nanos = a.nanos + b.nanos) (hq : q.wall = p.wall.add a) :
    AdditiveOp.apply .add implicit (.dateTime q zone) (.dayTimeDuration b) =
      AdditiveOp.apply .add implicit (.dateTime p zone) (.dayTimeDuration s) := by
  have hw : p.wall.time.inLeapSecond = false := hp
  have hadd : q.wall.add b = p.wall.add s := by
    rw [hq]
    exact Instant.add_add hw hs
  rw [apply_dateTime, apply_dateTime]
  unfold span
  rw [hadd]

theorem plus_minus {p q : DateTime} (hp : p.time.inLeapSecond = false) {a : Delta}
    (hq : q.wall = p.wall.add a) :
    AdditiveOp.apply .subtract implicit (.dateTime q zone) (.dayTimeDuration a) =
      .ok (some (.dateTime p zone)) := by
  have hw : p.wall.time.inLeapSecond = false := hp
  refine apply_dateTime_eq_ok_iff.2 ⟨p, ?_, rfl⟩
  rw [hq]
  exact (Instant.add_neg hw a).symm

end AdditiveOp

section Instants

variable {implicit : Zone} {l r : Item} {i j : Instant}

theorem instant?_range (h : instant? implicit l = some i) :
    -100_000_002 ≤ i.day ∧ i.day ≤ 100_000_002 := by
  cases l with
  | date d zone =>
    cases h
    exact DateTime.toInstant_range _ _ _
  | time t zone =>
    cases h
    exact DateTime.toInstant_range _ _ _
  | dateTime p zone =>
    cases h
    exact DateTime.toInstant_range _ _ _
  | _ => cases h

theorem isPoint_of_instant? (h : instant? implicit l = some i) : l.type.isPoint = true := by
  cases l <;> first | rfl | cases h

theorem subtract_points (hl : instant? implicit l = some i) (hr : instant? implicit r = some j)
    (ht : l.type = r.type) : ∃ d : Delta, d.nanos = i.since j ∧
      AdditiveOp.apply .subtract implicit l r = .ok (some (.dayTimeDuration d)) := by
  have hb := Instant.since_bounded (instant?_range hl) (instant?_range hr)
  have hd : Delta.ofNanos? (i.since j) = some ⟨i.since j, hb⟩ := dif_pos hb
  refine ⟨⟨i.since j, hb⟩, rfl, ?_⟩
  rw [AdditiveOp.apply_points (isPoint_of_instant? hr), difference, hl, hr]
  dsimp only
  rw [if_pos ht, hd]
  rfl

theorem relate_points (hl : instant? implicit l = some i) (hr : instant? implicit r = some j)
    (ht : l.type = r.type) : Comparison.relate implicit l r = some (.ordered (i.compare j)) := by
  have hc : Comparison.compareInstants? implicit l r = some (.ordered (i.compare j)) := by
    unfold Comparison.compareInstants?
    rw [hl, hr]
    exact if_pos ht
  cases l with
  | date d zone => cases r with
    | date e zone => exact hc
    | _ => cases ht
  | time t zone => cases r with
    | time u zone => exact hc
    | _ => cases ht
  | dateTime p zone => cases r with
    | dateTime q zone => exact hc
    | _ => cases ht
  | _ => cases hl

theorem compare_points (hl : instant? implicit l = some i) (hr : instant? implicit r = some j)
    (ht : l.type = r.type) (op : ComparisonOp) :
    op.apply implicit l r = .ok (op.holds (i.compare j)) := by
  unfold ComparisonOp.apply
  rw [relate_points hl hr ht]

end Instants

theorem plus_difference {implicit : Zone} {p q r : DateTime} {pz qz : Option Zone} {d : Delta}
    (hp : p.time.inLeapSecond = false) (hq : q.time.inLeapSecond = false)
    (hd : d.nanos = (q.toInstant qz implicit).since (p.toInstant pz implicit))
    (hr : r.wall = p.wall.add d) : r.toInstant pz implicit = q.toInstant qz implicit := by
  have hw : p.wall.time.inLeapSecond = false := hp
  have hrs : r.time.inLeapSecond = false := by
    have ht : r.time = (p.wall.add d).time := congrArg Instant.time hr
    rw [ht]
    exact Instant.add_steady hw d
  have ip := DateTime.toInstant_steady hp pz implicit
  have iq := DateTime.toInstant_steady hq qz implicit
  rw [Instant.since_of_steady iq ip, DateTime.toInstant_total hp] at hd
  apply Instant.eq_of_total (DateTime.toInstant_steady hrs pz implicit) iq
  rw [DateTime.toInstant_total hrs, hr, Instant.add_total hw]
  omega

/-- Spans of days and time act on points as a group, outside leap seconds: adding one span and then
another adds their sum, subtracting takes back what was added, and the zone is kept. Times of day
are counted modulo 24 hours, and dates by whole days. -/
theorem spans_act_on_points {implicit : Zone} {a b s : Delta}
    (hs : AdditiveOp.apply .add implicit (.dayTimeDuration a) (.dayTimeDuration b) =
      .ok (some (.dayTimeDuration s))) :
    let plus (x : Item) (d : Delta) := AdditiveOp.apply .add implicit x (.dayTimeDuration d)
    let minus (x : Item) (d : Delta) := AdditiveOp.apply .subtract implicit x (.dayTimeDuration d)
    (∀ (p : DateTime) (zone : Option Zone) (q : Item), p.time.inLeapSecond = false →
      plus (.dateTime p zone) a = .ok (some q) →
        (∃ r : DateTime, q = .dateTime r zone) ∧
        plus q b = plus (.dateTime p zone) s ∧
        ((∃ r : DateTime, plus q b = .ok (some (.dateTime r zone))) ∨
          plus q b = .error (.of .pointOverflow)) ∧
        minus q a = .ok (some (.dateTime p zone))) ∧
    (∀ (t : Clock) (zone : Option Zone), t.inLeapSecond = false → ∃ u v : Clock,
      plus (.time t zone) a = .ok (some (.time u zone)) ∧
      u.total = (t.total + a.nanos) % Clock.perDay ∧
      plus (.time u zone) b = .ok (some (.time v zone)) ∧
      plus (.time t zone) s = .ok (some (.time v zone)) ∧
      minus (.time u zone) a = .ok (some (.time t zone))) ∧
    (∀ (d : Date) (zone : Option Zone),
      d.Moved zone (a.nanos / Clock.perDay) (plus (.date d zone) a) ∧
      d.Moved zone (-a.nanos / Clock.perDay) (minus (.date d zone) a)) ∧
    ∀ (p q : DateTime) (pz qz : Option Zone), p.time.inLeapSecond = false →
      q.time.inLeapSecond = false → ∃ d : Delta,
        AdditiveOp.apply .subtract implicit (.dateTime q qz) (.dateTime p pz) =
          .ok (some (.dayTimeDuration d)) ∧
        ∀ r, plus (.dateTime p pz) d = .ok (some r) →
          (∃ r' : DateTime, r = .dateTime r' pz) ∧
          ComparisonOp.apply .eq implicit r (.dateTime q qz) = .ok true := by
  have hs := AdditiveOp.nanos_of_sum hs
  intro plus minus
  refine ⟨fun p zone q hp hq => ?_, fun t zone ht => ?_, fun d zone => ?_,
    fun p q pz qz hp hq => ?_⟩
  · obtain ⟨r, hr, rfl⟩ := AdditiveOp.apply_dateTime_eq_ok_iff.1 hq
    exact ⟨⟨r, rfl⟩, AdditiveOp.plus_plus hp hs hr,
      AdditiveOp.apply_dateTime_cases .add implicit r zone b, AdditiveOp.plus_minus hp hr⟩
  · have hb : plus (.time (t.add a).1 zone) b = .ok (some (.time (t.add s).1 zone)) := by
      rw [← Clock.add_add ht hs]
      exact AdditiveOp.apply_time .add implicit (t.add a).1 zone b
    have hback : minus (.time (t.add a).1 zone) a = .ok (some (.time t zone)) := by
      have h := AdditiveOp.apply_time .subtract implicit (t.add a).1 zone a
      unfold AdditiveOp.span at h
      rwa [Clock.add_neg ht] at h
    exact ⟨(t.add a).1, (t.add s).1, AdditiveOp.apply_time .add implicit t zone a,
      Clock.add_total_emod ht a, hb, AdditiveOp.apply_time .add implicit t zone s, hback⟩
  · exact ⟨AdditiveOp.apply_date_moved .add implicit d zone a,
      AdditiveOp.apply_date_moved .subtract implicit d zone a⟩
  · have hiq : instant? implicit (.dateTime q qz) = some (q.toInstant qz implicit) := rfl
    have hip : instant? implicit (.dateTime p pz) = some (p.toInstant pz implicit) := rfl
    obtain ⟨d, hd, hsub⟩ := subtract_points hiq hip rfl
    refine ⟨d, hsub, fun r hr => ?_⟩
    obtain ⟨r, hw, rfl⟩ := AdditiveOp.apply_dateTime_eq_ok_iff.1 hr
    have hir : instant? implicit (.dateTime r pz) = some (q.toInstant qz implicit) :=
      congrArg some (plus_difference hp hq hd hw)
    refine ⟨⟨r, rfl⟩, ?_⟩
    rw [compare_points hir hiq rfl, Instant.compare_eq_eq_iff.2 rfl]
    rfl

theorem spans_act_around_midnight :
    let plus (x : Item) (d : Delta) := AdditiveOp.apply .add .utc x (.dayTimeDuration d)
    let minus (x : Item) (d : Delta) := AdditiveOp.apply .subtract .utc x (.dayTimeDuration d)
    let a : Delta := ⟨1_500_000_000, by decide⟩
    let b : Delta := ⟨-2_000_000_000, by decide⟩
    let s : Delta := ⟨-500_000_000, by decide⟩
    let t : Clock := ⟨86399, 500_000_000, by decide, by decide⟩
    let u : Clock := ⟨1, 0, by decide, by decide⟩
    let p : DateTime := ⟨⟨2024, 2, 28, by decide, by decide, by decide⟩, t⟩
    let q : DateTime := ⟨⟨2024, 2, 29, by decide, by decide, by decide⟩, u⟩
    (plus (.dayTimeDuration a) b = .ok (some (.dayTimeDuration s)) ∧
      t.inLeapSecond = false ∧ u.inLeapSecond = false ∧
      plus (.dateTime p none) a = .ok (some (.dateTime q none))) ∧
    plus (.dateTime q none) b = plus (.dateTime p none) s ∧
    minus (.dateTime q none) a = .ok (some (.dateTime p none)) ∧
    (∃ v, plus (.time t none) a = .ok (some (.time v none)) ∧
      plus (.time v none) b = plus (.time t none) s) ∧
    p.date.Moved none (-1) (minus (.date p.date none) a) ∧
    ∃ d, AdditiveOp.apply .subtract .utc (.dateTime q none) (.dateTime p none) =
        .ok (some (.dayTimeDuration d)) ∧
      ∀ r, plus (.dateTime p none) d = .ok (some r) →
        ComparisonOp.apply .eq .utc r (.dateTime q none) = .ok true := by
  intro plus minus a b s t u p q
  have hs : plus (.dayTimeDuration a) b = .ok (some (.dayTimeDuration s)) := rfl
  have hw : q.wall = p.wall.add a := by decide
  have hq : plus (.dateTime p none) a = .ok (some (.dateTime q none)) :=
    AdditiveOp.apply_dateTime_eq_ok_iff.2 ⟨q, hw, rfl⟩
  obtain ⟨points, times, dates, differences⟩ := spans_act_on_points hs
  obtain ⟨-, hsum, -, hback⟩ := points p none (.dateTime q none) rfl hq
  obtain ⟨v, w, hv, -, hw, hvw, -⟩ := times t none rfl
  obtain ⟨d, hd, hr⟩ := differences p q none none rfl rfl
  exact ⟨⟨hs, rfl, rfl, hq⟩, hsum, hback, ⟨v, hv, hw.trans hvw.symm⟩, (dates p.date none).2, d, hd,
    fun r h => (hr r h).2⟩

/-- The difference of two points has the sign of their order, and swapping them negates it; only
across a leap second that ends a day can a later point be at no positive distance. -/
theorem difference_agrees_with_order {implicit : Zone} {l r : Item} {i j : Instant}
    (hl : instant? implicit l = some i) (hr : instant? implicit r = some j)
    (ht : l.type = r.type) : ∃ d e : Delta,
      AdditiveOp.apply .subtract implicit l r = .ok (some (.dayTimeDuration d)) ∧
      AdditiveOp.apply .subtract implicit r l = .ok (some (.dayTimeDuration e)) ∧
      e.nanos = -d.nanos ∧
      (¬i.AcrossLeapSecond j ∧ ¬j.AcrossLeapSecond i →
        ComparisonOp.apply .gt implicit l r = .ok (decide (0 < d.nanos)) ∧
        ComparisonOp.apply .eq implicit l r = .ok (decide (d.nanos = 0)) ∧
        ComparisonOp.apply .lt implicit l r = .ok (decide (d.nanos < 0))) ∧
      (i.AcrossLeapSecond j → ComparisonOp.apply .gt implicit l r = .ok true ∧ d.nanos ≤ 0) := by
  obtain ⟨d, hd, hlr⟩ := subtract_points hl hr ht
  obtain ⟨e, he, hrl⟩ := subtract_points hr hl ht.symm
  have hswap := Instant.since_swap i j
  refine ⟨d, e, hlr, hrl, by omega, fun h => ?_, fun h => ?_⟩
  · have yes {a : Prop} [Decidable a] (ha : a) :
        Except.ok true = (.ok (decide a) : Except Error Bool) :=
      congrArg Except.ok (decide_eq_true ha).symm
    have no {a : Prop} [Decidable a] (ha : ¬a) :
        Except.ok false = (.ok (decide a) : Except Error Bool) :=
      congrArg Except.ok (decide_eq_false ha).symm
    rw [compare_points hl hr ht, compare_points hl hr ht, compare_points hl hr ht]
    cases hc : i.compare j with
    | lt =>
      have hpos := Instant.since_pos (Instant.compare_eq_lt_iff.1 hc) h.2
      exact ⟨no (by omega), no (by omega), yes (by omega)⟩
    | eq =>
      obtain rfl := Instant.compare_eq_eq_iff.1 hc
      exact ⟨no (by omega), yes (by omega), no (by omega)⟩
    | gt =>
      have hpos := Instant.since_pos (Instant.compare_eq_gt_iff.1 hc) h.1
      exact ⟨yes (by omega), no (by omega), no (by omega)⟩
  · rw [compare_points hl hr ht, Instant.compare_eq_gt_iff.2 (Instant.before_of_across h), hd]
    exact ⟨rfl, Instant.since_nonpos h⟩

theorem difference_agrees_after_leap_second :
    let l : Item := .dateTime ⟨⟨2016, 12, 31, by decide, by decide, by decide⟩,
      ⟨86399, 1_500_000_000, by decide, by decide⟩⟩ none
    let r : Item := .dateTime ⟨⟨2017, 1, 1, by decide, by decide, by decide⟩,
      ⟨0, 750_000_000, by decide, by decide⟩⟩ none
    let i : Instant := ⟨736694, ⟨86399, 1_500_000_000, by decide, by decide⟩⟩
    let j : Instant := ⟨736695, ⟨0, 750_000_000, by decide, by decide⟩⟩
    (instant? .utc l = some i ∧ instant? .utc r = some j ∧ l.type = r.type ∧
      ¬i.AcrossLeapSecond j ∧ ¬j.AcrossLeapSecond i) ∧
    ∃ d : Delta, AdditiveOp.apply .subtract .utc l r = .ok (some (.dayTimeDuration d)) ∧
      ComparisonOp.apply .lt .utc l r = .ok (decide (d.nanos < 0)) := by
  intro l r i j
  have hl : instant? .utc l = some i := rfl
  have hr : instant? .utc r = some j := rfl
  have hi : ¬i.AcrossLeapSecond j := fun h => absurd h.1 (by decide)
  have hj : ¬j.AcrossLeapSecond i := fun h => absurd h.2.2.2 (by decide)
  obtain ⟨d, e, hlr, -, -, h, -⟩ := difference_agrees_with_order hl hr rfl
  obtain ⟨-, -, hlt⟩ := h ⟨hi, hj⟩
  exact ⟨⟨hl, hr, rfl, hi, hj⟩, d, hlr, hlt⟩

theorem zero_difference_across_leap_second :
    let l : Item := .dateTime ⟨⟨2017, 1, 1, by decide, by decide, by decide⟩, .midnight⟩ (some .utc)
    let r : Item := .dateTime ⟨⟨2016, 12, 31, by decide, by decide, by decide⟩,
      ⟨86399, 1_000_000_000, by decide, by decide⟩⟩ (some .utc)
    AdditiveOp.apply .subtract .utc l r = .ok (some (.dayTimeDuration .zero)) ∧
      ComparisonOp.apply .eq .utc l r = .ok false ∧
      ComparisonOp.apply .gt .utc l r = .ok true := by
  intro l r
  let i : Instant := ⟨736695, .midnight⟩
  let j : Instant := ⟨736694, ⟨86399, 1_000_000_000, by decide, by decide⟩⟩
  have hl : instant? .utc l = some i := rfl
  have hr : instant? .utc r = some j := rfl
  obtain ⟨⟨n, hn⟩, hd, hlr⟩ := subtract_points hl hr rfl
  obtain rfl : n = 0 := hd
  have hc : i.compare j = .gt := by decide
  rw [compare_points hl hr rfl, compare_points hl hr rfl, hc]
  exact ⟨hlr, rfl, rfl⟩

end PullQuery
