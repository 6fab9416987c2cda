import PullQuery.Calendar.DateTime
import PullQuery.Proofs.Calendar.Days

namespace PullQuery

namespace Delta

theorem subsecond_bounds (d : Delta) :
    -1_000_000_000 < d.subsecond ∧ d.subsecond < 1_000_000_000 := by
  have hp : (0 : Int) < perSecond := by decide
  have hl := Int.lt_tmod_of_pos d.nanos hp
  have hu := Int.tmod_lt_of_pos d.nanos hp
  exact ⟨hl, hu⟩

end Delta

namespace Clock

def perDay : Int := 86_400_000_000_000

def total (t : Clock) : Int := t.second * 1_000_000_000 + t.nanos

theorem nanos_lt_of_steady {t : Clock} (h : t.inLeapSecond = false) : t.nanos < 1_000_000_000 := by
  have := of_decide_eq_false h
  omega

theorem total_bounds {t : Clock} (h : t.inLeapSecond = false) : 0 ≤ t.total ∧ t.total < perDay := by
  have hs := t.second_lt
  have hn := nanos_lt_of_steady h
  unfold total perDay
  omega

theorem eq_of_total {t u : Clock} (ht : t.inLeapSecond = false) (hu : u.inLeapSecond = false)
    (h : t.total = u.total) : t = u := by
  have htn := nanos_lt_of_steady ht
  have hun := nanos_lt_of_steady hu
  unfold total at h
  have hs : t.second = u.second := by omega
  have hn : t.nanos = u.nanos := by omega
  cases t
  cases u
  cases hs
  cases hn
  rfl

theorem ofTotal_steady (second nanos : Int) : (ofTotal second nanos).1.inLeapSecond = false := by
  unfold ofTotal inLeapSecond
  apply decide_eq_false
  dsimp only
  omega

theorem ofTotal_total (second nanos : Int) :
    (ofTotal second nanos).2 * perDay + (ofTotal second nanos).1.total =
      second * 1_000_000_000 + nanos := by
  unfold ofTotal total perDay
  dsimp only
  omega

theorem add_of_steady {t : Clock} (h : t.inLeapSecond = false) (d : Delta) :
    t.add d = ofTotal (t.second + d.seconds) (t.nanos + d.subsecond) := by
  unfold add
  rw [dif_neg (by rw [h]; exact Bool.false_ne_true)]

theorem add_steady {t : Clock} (h : t.inLeapSecond = false) (d : Delta) :
    (t.add d).1.inLeapSecond = false := by
  rw [add_of_steady h]
  exact ofTotal_steady _ _

theorem add_total {t : Clock} (h : t.inLeapSecond = false) (d : Delta) :
    (t.add d).2 * perDay + (t.add d).1.total = t.total + d.nanos := by
  have hd := d.seconds_subsecond
  rw [add_of_steady h, ofTotal_total]
  unfold total
  unfold Delta.perSecond at hd
  omega

theorem nanos_cases (t : Clock) :
    t.nanos < 1_000_000_000 ∨ t.second % 60 = 59 ∧ t.nanos < 2_000_000_000 := by
  have hn := t.nanos_lt
  unfold span at hn
  split at hn
  case isTrue h59 => exact .inr ⟨h59, hn⟩
  case isFalse => exact .inl hn

theorem add_days (t : Clock) {d : Delta} (h : -86400 ≤ d.seconds ∧ d.seconds ≤ 86400) :
    -2 ≤ (t.add d).2 ∧ (t.add d).2 ≤ 2 := by
  have hb := d.subsecond_bounds
  have hs := t.second_lt
  have hn := t.nanos_cases
  unfold add ofTotal
  split
  · split
    · dsimp only
      omega
    · split
      · dsimp only
        omega
      · dsimp only
        omega
  · dsimp only
    omega

theorem since_swap (t u : Clock) : t.since u = -u.since t := by
  unfold since
  dsimp only
  split
  case isTrue h =>
    rw [if_neg (by omega)]
    omega
  case isFalse h => split <;> omega

theorem since_of_steady {t u : Clock} (ht : t.inLeapSecond = false) (hu : u.inLeapSecond = false) :
    t.since u = t.total - u.total := by
  unfold since total
  dsimp only
  rw [if_neg (by rw [hu]; simp), if_neg (by rw [ht]; simp)]
  omega

end Clock

namespace Instant

def total (i : Instant) : Int := i.day * Clock.perDay + i.time.total

theorem eq_of_total {i j : Instant} (hi : i.time.inLeapSecond = false)
    (hj : j.time.inLeapSecond = false) (h : i.total = j.total) : i = j := by
  have bi := Clock.total_bounds hi
  have bj := Clock.total_bounds hj
  unfold total Clock.perDay at *
  have hd : i.day = j.day := by omega
  have ht : i.time = j.time := Clock.eq_of_total hi hj (by omega)
  cases i
  cases j
  cases hd
  cases ht
  rfl

theorem add_steady {i : Instant} (h : i.time.inLeapSecond = false) (d : Delta) :
    (i.add d).time.inLeapSecond = false := Clock.add_steady h d

theorem add_total {i : Instant} (h : i.time.inLeapSecond = false) (d : Delta) :
    (i.add d).total = i.total + d.nanos := by
  have ht := Clock.add_total h d
  change (i.day + (i.time.add d).2) * Clock.perDay + (i.time.add d).1.total = _
  unfold total Clock.perDay at *
  omega

theorem add_add {i : Instant} (h : i.time.inLeapSecond = false) {a b s : Delta}
    (hs : s.nanos = a.nanos + b.nanos) : (i.add a).add b = i.add s := by
  have ha := add_steady h a
  apply eq_of_total (add_steady ha b) (add_steady h s)
  rw [add_total ha, add_total h, add_total h, hs]
  omega

theorem add_neg {i : Instant} (h : i.time.inLeapSecond = false) (a : Delta) :
    (i.add a).add a.neg = i := by
  have ha := add_steady h a
  have hn : a.neg.nanos = -a.nanos := rfl
  apply eq_of_total (add_steady ha _) h
  rw [add_total ha, add_total h, hn]
  omega

end Instant

namespace Clock

theorem add_add {t : Clock} (h : t.inLeapSecond = false) {a b s : Delta}
    (hs : s.nanos = a.nanos + b.nanos) : ((t.add a).1.add b).1 = (t.add s).1 := by
  have hi : (Instant.mk 0 t).time.inLeapSecond = false := h
  exact congrArg Instant.time (Instant.add_add hi hs)

theorem add_neg {t : Clock} (h : t.inLeapSecond = false) (a : Delta) :
    ((t.add a).1.add a.neg).1 = t := by
  have hi : (Instant.mk 0 t).time.inLeapSecond = false := h
  exact congrArg Instant.time (Instant.add_neg hi a)

theorem add_total_emod {t : Clock} (h : t.inLeapSecond = false) (a : Delta) :
    (t.add a).1.total = (t.total + a.nanos) % perDay := by
  have hsum := add_total h a
  have hb := total_bounds (add_steady h a)
  unfold perDay at *
  omega

end Clock

namespace Instant

theorem since_of_steady {i j : Instant} (hi : i.time.inLeapSecond = false)
    (hj : j.time.inLeapSecond = false) : i.since j = i.total - j.total := by
  have ht := Clock.since_of_steady hi hj
  unfold since total Clock.perDay Delta.perSecond
  omega

theorem since_swap (i j : Instant) : i.since j = -j.since i := by
  have ht := Clock.since_swap i.time j.time
  unfold since Delta.perSecond
  omega

def Before (i j : Instant) : Prop :=
  i.day < j.day ∨ i.day = j.day ∧ (i.time.second < j.time.second ∨
    i.time.second = j.time.second ∧ i.time.nanos < j.time.nanos)

theorem compare_eq_lt_iff {i j : Instant} : i.compare j = .lt ↔ i.Before j := by
  unfold compare Before
  rw [Ordering.then_eq_lt, Ordering.then_eq_lt, Int.compare_eq_lt, Int.compare_eq_eq,
    Nat.compare_eq_lt, Nat.compare_eq_eq, Nat.compare_eq_lt]

theorem compare_eq_gt_iff {i j : Instant} : i.compare j = .gt ↔ j.Before i := by
  unfold compare Before
  rw [Ordering.then_eq_gt, Ordering.then_eq_gt, Int.compare_eq_gt, Int.compare_eq_eq,
    Nat.compare_eq_gt, Nat.compare_eq_eq, Nat.compare_eq_gt]
  omega

theorem compare_eq_eq_iff {i j : Instant} : i.compare j = .eq ↔ i = j := by
  unfold compare
  rw [Ordering.then_eq_eq, Ordering.then_eq_eq, Int.compare_eq_eq, Nat.compare_eq_eq,
    Nat.compare_eq_eq]
  constructor
  · rintro ⟨hd, hs, hn⟩
    obtain ⟨d, ⟨s, n, _, _⟩⟩ := i
    obtain ⟨e, ⟨u, m, _, _⟩⟩ := j
    cases hd
    cases hs
    cases hn
    rfl
  · rintro rfl
    exact ⟨rfl, rfl, rfl⟩

/-- The first instant is in the first second of a day, and the second at least as far into the leap
second before it. Their distance skips that leap second. -/
def AcrossLeapSecond (i j : Instant) : Prop :=
  i.day = j.day + 1 ∧ i.time.second = 0 ∧ j.time.second = 86399 ∧
    i.time.nanos + 1_000_000_000 ≤ j.time.nanos

theorem since_pos {i j : Instant} (h : j.Before i) (hx : ¬i.AcrossLeapSecond j) :
    0 < i.since j := by
  have hi := i.time.nanos_cases
  have hj := j.time.nanos_cases
  have si := i.time.second_lt
  have sj := j.time.second_lt
  unfold Before at h
  unfold AcrossLeapSecond at hx
  -- Within a day `Clock.since` counts a leap second, so only one that ends the day can be lost.
  unfold since Clock.since Delta.perSecond Clock.inLeapSecond
  simp only [decide_eq_true_eq]
  split
  · omega
  · split <;> omega

theorem since_nonpos {i j : Instant} (hx : i.AcrossLeapSecond j) : i.since j ≤ 0 := by
  have hi := i.time.nanos_cases
  unfold AcrossLeapSecond at hx
  unfold since Clock.since Delta.perSecond Clock.inLeapSecond
  simp only [decide_eq_true_eq]
  split
  · omega
  · split <;> omega

theorem before_of_across {i j : Instant} (hx : i.AcrossLeapSecond j) : j.Before i := by
  have := hx.1
  exact .inl (by omega)

end Instant

namespace DateTime

def wall (p : DateTime) : Instant := ⟨p.date.toDays, p.time⟩

theorem toDateTime?_eq_some_iff {i : Instant} {p : DateTime} :
    i.toDateTime? = some p ↔ p.wall = i := by
  unfold Instant.toDateTime?
  rw [Option.map_eq_some_iff]
  constructor
  · rintro ⟨d, hd, rfl⟩
    obtain ⟨day, time⟩ := i
    exact congrArg (Instant.mk · time) (Date.ofDays?_eq_some_iff.1 hd)
  · rintro rfl
    exact ⟨p.date, Date.ofDays?_eq_some_iff.2 rfl, rfl⟩

theorem shift?_zero (p : DateTime) (d : Delta) : p.shift? 0 d = (p.wall.add d).toDateTime? := by
  unfold shift?
  rw [Date.addMonths?_zero]
  rfl

theorem toInstant_total {p : DateTime} (h : p.time.inLeapSecond = false) (zone : Option Zone)
    (implicit : Zone) : (p.toInstant zone implicit).total =
      p.wall.total - (zone.getD implicit).seconds * 1_000_000_000 := by
  have ht : p.wall.time.inLeapSecond = false := h
  have hn : (zone.getD implicit).toDelta.neg.nanos =
      -((zone.getD implicit).seconds * 1_000_000_000) := rfl
  change (p.wall.add (zone.getD implicit).toDelta.neg).total = _
  rw [Instant.add_total ht, hn]
  omega

theorem toInstant_steady {p : DateTime} (h : p.time.inLeapSecond = false) (zone : Option Zone)
    (implicit : Zone) : (p.toInstant zone implicit).time.inLeapSecond = false :=
  Clock.add_steady h _

theorem toInstant_day (p : DateTime) (zone : Option Zone) (implicit : Zone) :
    p.date.toDays - 2 ≤ (p.toInstant zone implicit).day ∧
      (p.toInstant zone implicit).day ≤ p.date.toDays + 2 := by
  have hz := (zone.getD implicit).bounded
  have hs := (zone.getD implicit).toDelta.neg.seconds_subsecond
  have hb := (zone.getD implicit).toDelta.neg.subsecond_bounds
  have hn : (zone.getD implicit).toDelta.neg.nanos =
      -((zone.getD implicit).seconds * 1_000_000_000) := rfl
  unfold Delta.perSecond at hs
  have hd := p.time.add_days (d := (zone.getD implicit).toDelta.neg) (by omega)
  change p.date.toDays - 2 ≤ p.date.toDays + (p.time.add (zone.getD implicit).toDelta.neg).2 ∧
    p.date.toDays + (p.time.add (zone.getD implicit).toDelta.neg).2 ≤ p.date.toDays + 2
  omega

/-- Only from the first and the last year can an instant leave the calendar. -/
theorem exists_toInstant {p : DateTime} (hl : Calendar.leastYear < p.date.year)
    (hg : p.date.year < Calendar.greatestYear) (zone : Option Zone) (implicit : Zone) :
    ∃ q, (p.toInstant zone implicit).toDateTime? = some q := by
  have hi := p.toInstant_day zone implicit
  have hb := p.date.toDays_bounds
  have hs := Calendar.yearStart_le (show Calendar.leastYear + 1 ≤ p.date.year by omega)
  have ht := Calendar.yearStart_le (show p.date.year + 1 ≤ Calendar.greatestYear by omega)
  have hfirst := Calendar.yearStart_succ Calendar.leastYear
  have hlast := Calendar.yearStart_succ Calendar.greatestYear
  have length (year : Int) : 365 ≤ Calendar.yearLength year := by
    unfold Calendar.yearLength
    split <;> omega
  have hf := length Calendar.leastYear
  have hh := length Calendar.greatestYear
  obtain ⟨d, hd⟩ := Date.exists_ofDays? (n := (p.toInstant zone implicit).day) (by omega) (by omega)
  exact ⟨⟨d, (p.toInstant zone implicit).time⟩, by rw [Instant.toDateTime?, hd]; rfl⟩

theorem toInstant_range (p : DateTime) (zone : Option Zone) (implicit : Zone) :
    -100_000_002 ≤ (p.toInstant zone implicit).day ∧
      (p.toInstant zone implicit).day ≤ 100_000_002 := by
  have hd := p.date.toDays_range
  have hi := p.toInstant_day zone implicit
  omega

end DateTime

namespace Instant

theorem since_bounded {i j : Instant} (hi : -100_000_002 ≤ i.day ∧ i.day ≤ 100_000_002)
    (hj : -100_000_002 ≤ j.day ∧ j.day ≤ 100_000_002) :
    -Delta.limit ≤ i.since j ∧ i.since j ≤ Delta.limit := by
  have ti := i.time.second_lt
  have tj := j.time.second_lt
  have ni := i.time.nanos_cases
  have nj := j.time.nanos_cases
  unfold since Clock.since Delta.limit Delta.perSecond
  dsimp only
  split
  · omega
  · split <;> omega

end Instant

end PullQuery
