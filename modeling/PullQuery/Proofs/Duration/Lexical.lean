import Mathlib.Data.List.TakeWhile
import PullQuery.Proofs.Duration.Scanner

namespace PullQuery.Duration

structure Spelling where
  negative : Bool
  years : Option Digits
  months : Option Digits
  days : Option Digits
  hours : Option Digits
  minutes : Option Digits
  seconds : Option Amount

def dateSlots (years months days : Option Digits) : List Slot :=
  [⟨'Y', years.map .plain⟩, ⟨'M', months.map .plain⟩, ⟨'D', days.map .plain⟩]

def timeSlots (hours minutes : Option Digits) (seconds : Option Amount) : List Slot :=
  [⟨'H', hours.map .plain⟩, ⟨'M', minutes.map .plain⟩, ⟨'S', seconds⟩]

def count (n : Option Digits) : Nat := n.elim 0 Digits.value

def wholeCount (n : Option Amount) : Nat := n.elim 0 fun a => a.whole.value

namespace Spelling

def date (w : Spelling) : List Slot := dateSlots w.years w.months w.days

def time (w : Spelling) : List Slot := timeSlots w.hours w.minutes w.seconds

def hasMonths (w : Spelling) : Bool := w.years.isSome || w.months.isSome

def hasTime (w : Spelling) : Bool := w.hours.isSome || w.minutes.isSome || w.seconds.isSome

def hasSpan (w : Spelling) : Bool := w.days.isSome || w.hasTime

def body (w : Spelling) : List Char :=
  Lexical.spelled w.date ++ if w.hasTime then 'T' :: Lexical.spelled w.time else []

def chars (w : Spelling) : List Char := Lexical.withSign w.negative ('P' :: w.body)

def sign (w : Spelling) : Int := if w.negative then -1 else 1

def totalMonths (w : Spelling) : Nat := 12 * count w.years + count w.months

def totalSeconds (w : Spelling) : Nat :=
  86400 * count w.days + 3600 * count w.hours + 60 * count w.minutes +
    wholeCount w.seconds

def totalNanos (w : Spelling) : Nat :=
  w.totalSeconds * 1_000_000_000 + w.seconds.elim 0 Amount.nanos

structure Admitted (kind : Kind) (w : Spelling) : Prop where
  component : w.hasMonths = true ∨ w.hasSpan = true
  months_only : kind = .yearMonth → w.hasSpan = false
  span_only : kind = .dayTime → w.hasMonths = false
  months_le : w.totalMonths ≤ 2_147_483_647
  nanos_le : (w.totalNanos : Int) ≤ Delta.limit

def Bounded (w : Spelling) : Prop :=
  count w.years ≤ Long.greatest ∧ count w.months ≤ Long.greatest ∧ count w.days ≤ Long.greatest ∧
    count w.hours ≤ Long.greatest ∧ count w.minutes ≤ Long.greatest ∧
    wholeCount w.seconds ≤ Long.greatest

theorem Admitted.bounded {kind : Kind} {w : Spelling} (h : w.Admitted kind) : w.Bounded := by
  have hm := h.months_le
  have hn := h.nanos_le
  unfold totalMonths at hm
  unfold totalNanos totalSeconds at hn
  unfold Bounded Long.greatest
  unfold Delta.limit at hn
  omega

end Spelling

namespace Lexical

theorem date_values (w : Spelling) :
    (Components.ofSlots w.date).value 'Y' = count w.years ∧
      (Components.ofSlots w.date).value 'M' = count w.months ∧
      (Components.ofSlots w.date).value 'D' = count w.days := by
  obtain ⟨-, years, months, days, -, -, -⟩ := w
  cases years <;> cases months <;> cases days <;> exact ⟨rfl, rfl, rfl⟩

theorem time_values (w : Spelling) :
    (Components.ofSlots w.time).value 'H' = count w.hours ∧
      (Components.ofSlots w.time).value 'M' = count w.minutes ∧
      (Components.ofSlots w.time).value 'S' = wholeCount w.seconds ∧
      (Components.ofSlots w.time).nanos = w.seconds.elim 0 Amount.nanos := by
  obtain ⟨-, -, -, -, hours, minutes, seconds⟩ := w
  refine ⟨?_, ?_, ?_, ?_⟩
  · cases hours <;> cases minutes <;> cases seconds <;> rfl
  · cases hours <;> cases minutes <;> cases seconds <;> rfl
  · cases hours <;> cases minutes <;> cases seconds <;> rfl
  · cases hours <;> cases minutes <;>
      simp [Components.ofSlots, Spelling.time, timeSlots, Slot.nanos, Amount.plain, Amount.nanos]

theorem months?_eq_some_iff {date : Components} {m : Int32} :
    months? date = some m ↔ 12 * date.value 'Y' + date.value 'M' ≤ 2_147_483_647 ∧
      m.toInt = (12 * date.value 'Y' + date.value 'M' : Nat) := by
  have hl := m.toInt_lt
  simp only [months?, Long.mul?, Long.add?, Option.bind_eq_bind, Option.bind_eq_some_iff,
    Long.ofNat?_eq_some_iff, Word.ofInt?_eq_some_iff]
  constructor
  · rintro ⟨_, ⟨-, rfl⟩, _, ⟨-, rfl⟩, h⟩
    omega
  · rintro ⟨hle, h⟩
    refine ⟨_, ⟨?_, rfl⟩, _, ⟨?_, rfl⟩, ?_⟩ <;> unfold Long.greatest at * <;> omega

theorem delta?_eq_some_iff {date time : Components} {d : Delta} :
    delta? date time = some d ↔
      d.nanos = ((86400 * date.value 'D' + 3600 * time.value 'H' + 60 * time.value 'M' +
        time.value 'S') * 1_000_000_000 + time.nanos : Nat) := by
  have hb := d.bounded
  simp only [delta?, Long.mul?, Long.add?, Option.bind_eq_bind, Option.bind_eq_some_iff,
    Long.ofNat?_eq_some_iff, Delta.ofParts?, Delta.ofNanos?_eq_some_iff]
  unfold Delta.limit at hb
  unfold Delta.perSecond
  constructor
  · rintro ⟨_, ⟨-, rfl⟩, _, ⟨-, rfl⟩, _, ⟨-, rfl⟩, _, ⟨-, rfl⟩, _, ⟨-, rfl⟩, _, ⟨-, rfl⟩, h⟩
    omega
  · intro h
    refine ⟨_, ⟨?_, rfl⟩, _, ⟨?_, rfl⟩, _, ⟨?_, rfl⟩, _, ⟨?_, rfl⟩, _, ⟨?_, rfl⟩, _, ⟨?_, rfl⟩,
      ?_⟩ <;>
      unfold Long.greatest at * <;> omega

theorem isDigit_of_mem_spelled {slots : List Slot} {c : Char} (h : c ∈ spelled slots) :
    c.isDigit = true ∨ c = '.' ∨ c ∈ slots.map Slot.designator := by
  obtain ⟨⟨d, amount⟩, hs, hc⟩ := List.mem_flatMap.1 h
  cases amount with
  | none => cases hc
  | some a =>
    obtain hc | hc := List.mem_append.1 hc
    · obtain hc | hc := List.mem_append.1 hc
      · exact .inl (a.whole.isDigit c hc)
      · cases hf : a.fraction with
        | none => rw [hf] at hc; cases hc
        | some ds =>
          rw [hf] at hc
          obtain rfl | hc := List.mem_cons.1 hc
          · exact .inr (.inl rfl)
          · exact .inl (ds.isDigit c hc)
    · obtain rfl := List.mem_singleton.1 hc
      exact .inr (.inr (List.mem_map_of_mem hs))

theorem notMem_spelled_date (w : Spelling) : 'T' ∉ spelled w.date := by
  intro h
  obtain h | h | h := isDigit_of_mem_spelled h
  · cases h
  · cases h
  · simp [Spelling.date, dateSlots] at h

theorem halves_of_notMem {cs : List Char} (h : 'T' ∉ cs) : halves cs = (cs, none) := by
  have hd : cs.dropWhile (· != 'T') = [] :=
    List.dropWhile_eq_nil_iff.2 fun c hc => by simpa using ne_of_mem_of_not_mem hc h
  unfold halves
  rw [hd]

theorem halves_append {cs : List Char} (h : 'T' ∉ cs) (time : List Char) :
    halves (cs ++ 'T' :: time) = (cs, some time) := by
  have hp : ∀ c ∈ cs, (c != 'T') = true := fun c hc => by simpa using ne_of_mem_of_not_mem hc h
  have hd : (cs ++ 'T' :: time).dropWhile (· != 'T') = 'T' :: time := by
    rw [List.dropWhile_append_of_pos hp]
    simp
  have ht : (cs ++ 'T' :: time).takeWhile (· != 'T') = cs := by
    rw [List.takeWhile_append_of_pos hp]
    simp
  unfold halves
  rw [hd, ht]

theorem halves_cases (cs : List Char) :
    halves cs = (cs, none) ∨
      ∃ date time, cs = date ++ 'T' :: time ∧ halves cs = (date, some time) := by
  unfold halves
  split
  · exact .inl rfl
  · rename_i c time hd
    obtain rfl : c = 'T' := by simpa [hd] using List.head?_dropWhile_not (· != 'T') cs
    exact .inr ⟨_, time, by rw [← hd, List.takeWhile_append_dropWhile], rfl⟩

theorem count_le {takesFraction : Bool} {slots : List Slot} (h : Proper takesFraction slots)
    (c : Char) {n : Option Digits} (hs : ⟨c, n.map .plain⟩ ∈ slots) : count n ≤ Long.greatest := by
  cases n with
  | none => exact Nat.zero_le _
  | some ds => exact h.bounded _ hs _ rfl

theorem whole_le {takesFraction : Bool} {slots : List Slot} (h : Proper takesFraction slots)
    (c : Char) {n : Option Amount} (hs : ⟨c, n⟩ ∈ slots) :
    wholeCount n ≤ Long.greatest := by
  cases n with
  | none => exact Nat.zero_le _
  | some a => exact h.bounded _ hs _ rfl

theorem eq_of_map_designator {slots : List Slot} {a b c : Char}
    (h : slots.map Slot.designator = [a, b, c]) :
    ∃ l m n : Option Amount, slots = [⟨a, l⟩, ⟨b, m⟩, ⟨c, n⟩] := by
  obtain ⟨⟨_, l⟩, _, rfl, rfl, hbc⟩ := List.map_eq_cons_iff.1 h
  obtain ⟨⟨_, m⟩, _, rfl, rfl, hc⟩ := List.map_eq_cons_iff.1 hbc
  obtain ⟨⟨_, n⟩, _, rfl, rfl, hnil⟩ := List.map_eq_cons_iff.1 hc
  obtain rfl := List.map_eq_nil_iff.1 hnil
  exact ⟨l, m, n, rfl⟩

theorem exists_plain {n : Option Amount} (c : Char) (h : Slot.isFractional ⟨c, n⟩ = false) :
    ∃ m : Option Digits, n = m.map .plain := by
  cases n with
  | none => exact ⟨none, rfl⟩
  | some a =>
    obtain ⟨whole, fraction⟩ := a
    cases fraction with
    | none => exact ⟨some whole, rfl⟩
    | some ds => cases h

theorem isFractional_plain (c : Char) (n : Option Digits) :
    Slot.isFractional ⟨c, n.map .plain⟩ = false := by
  cases n <;> rfl

theorem bounded_plain {n : Option Digits} (h : count n ≤ Long.greatest) {a : Amount}
    (ha : n.map .plain = some a) : a.whole.value ≤ Long.greatest := by
  cases n with
  | none => cases ha
  | some ds => cases ha; exact h

theorem date_iff {cs : List Char} {read : Components} :
    components? ['Y', 'M', 'D'] false cs = some read ↔ ∃ y m d : Option Digits,
      (count y ≤ Long.greatest ∧ count m ≤ Long.greatest ∧ count d ≤ Long.greatest) ∧
        cs = spelled (dateSlots y m d) ∧ read = .ofSlots (dateSlots y m d) := by
  have hm : ∀ c ∈ ['Y', 'M', 'D'], c.isDigit = false ∧ c ≠ '.' := by
    rw [List.forall_mem_cons, List.forall_mem_cons, List.forall_mem_singleton]
    decide
  rw [components?_eq_some_iff (by decide) hm]
  constructor
  · rintro ⟨slots, hs, hp, rfl, rfl⟩
    obtain ⟨l, m, n, rfl⟩ := eq_of_map_designator hs
    have plain : ∀ s ∈ [(⟨'Y', l⟩ : Slot), ⟨'M', m⟩, ⟨'D', n⟩], s.isFractional = false :=
      fun s h => Bool.eq_false_iff.2 fun hf => Bool.false_ne_true (hp.taken s h hf)
    obtain ⟨y, rfl⟩ := exists_plain 'Y' (plain ⟨'Y', l⟩ (by simp))
    obtain ⟨m, rfl⟩ := exists_plain 'M' (plain ⟨'M', m⟩ (by simp))
    obtain ⟨d, rfl⟩ := exists_plain 'D' (plain ⟨'D', n⟩ (by simp))
    exact ⟨y, m, d, ⟨count_le hp 'Y' (by simp), count_le hp 'M' (by simp),
      count_le hp 'D' (by simp)⟩, rfl, rfl⟩
  · rintro ⟨y, m, d, ⟨hy, hm, hd⟩, rfl, rfl⟩
    refine ⟨dateSlots y m d, rfl, ⟨?_, ?_, ?_⟩, rfl, rfl⟩
    · simp [dateSlots, isFractional_plain]
    · simp [dateSlots, isFractional_plain]
    · simp only [dateSlots, List.forall_mem_cons]
      exact ⟨fun _ => bounded_plain hy, fun _ => bounded_plain hm, fun _ => bounded_plain hd, nofun⟩

theorem time_iff {cs : List Char} {read : Components} :
    components? ['H', 'M', 'S'] true cs = some read ↔ ∃ (h m : Option Digits) (s : Option Amount),
      (count h ≤ Long.greatest ∧ count m ≤ Long.greatest ∧ wholeCount s ≤ Long.greatest) ∧
        cs = spelled (timeSlots h m s) ∧ read = .ofSlots (timeSlots h m s) := by
  have hm : ∀ c ∈ ['H', 'M', 'S'], c.isDigit = false ∧ c ≠ '.' := by
    rw [List.forall_mem_cons, List.forall_mem_cons, List.forall_mem_singleton]
    decide
  rw [components?_eq_some_iff (by decide) hm]
  constructor
  · rintro ⟨slots, hs, hp, rfl, rfl⟩
    obtain ⟨l, m, n, rfl⟩ := eq_of_map_designator hs
    obtain ⟨h, rfl⟩ := exists_plain 'H' (List.rel_of_pairwise_cons hp.last List.mem_cons_self)
    obtain ⟨m, rfl⟩ :=
      exists_plain 'M' (List.rel_of_pairwise_cons hp.last.of_cons List.mem_cons_self)
    exact ⟨h, m, n, ⟨count_le hp 'H' (by simp), count_le hp 'M' (by simp),
      whole_le hp 'S' (by simp)⟩, rfl, rfl⟩
  · rintro ⟨h, m, s, ⟨hh, hm, hs⟩, rfl, rfl⟩
    refine ⟨timeSlots h m s, rfl, ⟨?_, fun _ _ _ => rfl, ?_⟩, rfl, rfl⟩
    · simp [timeSlots, isFractional_plain]
    · simp only [timeSlots, List.forall_mem_cons]
      refine ⟨fun _ => bounded_plain hh, fun _ => bounded_plain hm, ?_, nofun⟩
      rintro a rfl
      exact hs

theorem hasTime_eq_false_iff {w : Spelling} :
    w.hasTime = false ↔ w.hours = none ∧ w.minutes = none ∧ w.seconds = none := by
  simp [Spelling.hasTime, and_assoc]

theorem spelled_time_eq_nil_iff {w : Spelling} : spelled w.time = [] ↔ w.hasTime = false := by
  rw [hasTime_eq_false_iff]
  unfold spelled Spelling.time timeSlots
  constructor
  · intro hn
    simp only [List.flatMap_cons, List.flatMap_nil, List.append_eq_nil_iff] at hn
    have empty (c : Char) (n : Option Amount) (h : Slot.chars ⟨c, n⟩ = []) : n = none := by
      cases n with
      | none => rfl
      | some a => exact absurd h (by simp [Slot.chars])
    have hm := empty 'M' _ hn.2.1
    exact ⟨Option.map_eq_none_iff.1 (empty 'H' _ hn.1), Option.map_eq_none_iff.1 hm,
      empty 'S' _ hn.2.2.1⟩
  · rintro ⟨hh, hm, hs⟩
    rw [hh, hm, hs]
    rfl

theorem ofSlots_time_of_hasTime {w : Spelling} (h : w.hasTime = false) :
    Components.ofSlots w.time = .nothing := by
  obtain ⟨hours, minutes, seconds⟩ := hasTime_eq_false_iff.1 h
  unfold Spelling.time
  rw [hours, minutes, seconds]
  rfl

theorem values_time_iff {w : Spelling} :
    (Components.ofSlots w.time).values = [] ↔ w.hasTime = false := by
  obtain ⟨-, -, -, -, hours, minutes, seconds⟩ := w
  cases hours <;> cases minutes <;> cases seconds <;>
    simp [Components.ofSlots, Spelling.time, timeSlots, Spelling.hasTime, Slot.value?]

theorem values_date_iff {w : Spelling} :
    (Components.ofSlots w.date).values = [] ↔ w.hasMonths = false ∧ w.days = none := by
  obtain ⟨-, years, months, days, -, -, -⟩ := w
  cases years <;> cases months <;> cases days <;>
    simp [Components.ofSlots, Spelling.date, dateSlots, Spelling.hasMonths, Slot.value?]

theorem component_iff {w : Spelling} :
    ¬((Components.ofSlots w.date).values = [] ∧ (Components.ofSlots w.time).values = []) ↔
      w.hasMonths = true ∨ w.hasSpan = true := by
  rw [values_date_iff, values_time_iff]
  cases hm : w.hasMonths <;> cases hd : w.days <;> cases ht : w.hasTime <;>
    simp [Spelling.hasSpan, hd, ht]

theorem timeComponents?_some {cs : List Char} (h : cs ≠ []) :
    timeComponents? (some cs) = components? ['H', 'M', 'S'] true cs := by
  cases cs with
  | nil => exact absurd rfl h
  | cons c cs => rfl

theorem halves_iff {cs : List Char} {date time : Components} :
    (components? ['Y', 'M', 'D'] false (halves cs).1 = some date ∧
      timeComponents? (halves cs).2 = some time) ↔
    ∃ w : Spelling, w.negative = false ∧ cs = w.body ∧ w.Bounded ∧ date = .ofSlots w.date ∧
      time = .ofSlots w.time := by
  constructor
  · rintro ⟨hd, ht⟩
    obtain ⟨y, m, d, ⟨hy, hm, hdd⟩, hcs, rfl⟩ := date_iff.1 hd
    obtain h | ⟨pre, post, rfl, h⟩ := halves_cases cs
    · rw [h] at hcs ht
      obtain rfl := Option.some.inj ht
      let w : Spelling := ⟨false, y, m, d, none, none, none⟩
      refine ⟨w, rfl, ?_, ⟨hy, hm, hdd, Nat.zero_le _, Nat.zero_le _, Nat.zero_le _⟩, rfl, rfl⟩
      exact hcs.trans (List.append_nil _).symm
    · rw [h] at hcs ht
      cases post with
      | nil => cases ht
      | cons c post =>
        obtain ⟨h', m', s, ⟨hh, hm', hs⟩, hpost, rfl⟩ := time_iff.1 ht
        let w : Spelling := ⟨false, y, m, d, h', m', s⟩
        have hw : w.hasTime = true := by
          rw [← Bool.not_eq_false, ← spelled_time_eq_nil_iff]
          exact fun hn => absurd (hpost.trans hn) (List.cons_ne_nil c post)
        refine ⟨w, rfl, ?_, ⟨hy, hm, hdd, hh, hm', hs⟩, rfl, rfl⟩
        unfold Spelling.body
        rw [if_pos hw, hpost]
        exact congrArg (· ++ _) hcs
  · rintro ⟨w, -, rfl, ⟨hy, hm, hd, hh, hm', hs⟩, rfl, rfl⟩
    have hdate := date_iff.2 ⟨w.years, w.months, w.days, ⟨hy, hm, hd⟩, rfl, rfl⟩
    have htime := time_iff.2 ⟨w.hours, w.minutes, w.seconds, ⟨hh, hm', hs⟩, rfl, rfl⟩
    unfold Spelling.body
    cases ht : w.hasTime with
    | true =>
      rw [if_pos rfl, halves_append (notMem_spelled_date w)]
      have hne : spelled w.time ≠ [] := by
        rw [Ne, spelled_time_eq_nil_iff, ht]
        exact nofun
      exact ⟨hdate, (timeComponents?_some hne).trans htime⟩
    | false =>
      rw [if_neg Bool.false_ne_true, List.append_nil, halves_of_notMem (notMem_spelled_date w)]
      exact ⟨hdate, congrArg some (ofSlots_time_of_hasTime ht).symm⟩

theorem body?_eq_some_iff {cs : List Char} {date time : Components} :
    body? cs = some (date, time) ↔ ∃ w : Spelling, w.negative = false ∧ cs = w.body ∧
      (w.hasMonths = true ∨ w.hasSpan = true) ∧ w.Bounded ∧ date = .ofSlots w.date ∧
      time = .ofSlots w.time := by
  simp only [body?, Option.bind_eq_bind, Option.bind_eq_some_iff]
  constructor
  · rintro ⟨d, hd, t, ht, h⟩
    obtain ⟨w, hw, hcs, hb, rfl, rfl⟩ := halves_iff.1 ⟨hd, ht⟩
    split at h
    case isTrue => cases h
    case isFalse hc =>
      cases h
      exact ⟨w, hw, hcs, component_iff.1 hc, hb, rfl, rfl⟩
  · rintro ⟨w, hw, hcs, hc, hb, rfl, rfl⟩
    obtain ⟨hd, ht⟩ := halves_iff.2 ⟨w, hw, hcs, hb, rfl, rfl⟩
    exact ⟨_, hd, _, ht, if_neg (component_iff.2 hc)⟩

theorem date_has (w : Spelling) :
    (Components.ofSlots w.date).has 'Y' = w.years.isSome ∧
      (Components.ofSlots w.date).has 'M' = w.months.isSome ∧
      (Components.ofSlots w.date).has 'D' = w.days.isSome := by
  obtain ⟨-, years, months, days, -, -, -⟩ := w
  cases years <;> cases months <;> cases days <;> exact ⟨rfl, rfl, rfl⟩

theorem admits_iff {kind : Kind} {w : Spelling} :
    admits kind (.ofSlots w.date) (.ofSlots w.time) = true ↔
      (kind = .yearMonth → w.hasSpan = false) ∧ (kind = .dayTime → w.hasMonths = false) := by
  obtain ⟨hy, hm, hd⟩ := date_has w
  cases kind with
  | full => simp [admits]
  | yearMonth =>
    have ht : ((Components.ofSlots w.time).values != []) = w.hasTime := by
      rw [Bool.eq_iff_iff, bne_iff_ne, ne_eq, values_time_iff, Bool.not_eq_false]
    simp [admits, hd, ht, Spelling.hasSpan]
  | dayTime => simp [admits, hy, hm, Spelling.hasMonths]

theorem strip_eq_iff {cs body : List Char} {negative : Bool} :
    ((cs.head? == some '-') = negative ∧ (if negative then cs.tail else cs) = 'P' :: body) ↔
      cs = withSign negative ('P' :: body) := by
  cases negative with
  | true =>
    cases cs with
    | nil => simp [withSign]
    | cons c cs => simp [withSign]
  | false =>
    constructor
    · exact fun h => h.2
    · rintro rfl
      exact ⟨rfl, rfl⟩

theorem toInt_neg_of_nonneg {m : Int32} (h : 0 ≤ m.toInt) : (-m).toInt = -m.toInt := by
  have hl := m.toInt_lt
  rw [Int32.toInt_neg]
  exact Int.bmod_eq_of_le (by omega) (by omega)

theorem months?_date_iff {w : Spelling} {m : Int32} :
    months? (.ofSlots w.date) = some m ↔
      w.totalMonths ≤ 2_147_483_647 ∧ m.toInt = (w.totalMonths : Int) := by
  obtain ⟨hy, hm, -⟩ := date_values w
  rw [months?_eq_some_iff, hy, hm]
  rfl

theorem delta?_time_iff {w : Spelling} {d : Delta} :
    delta? (.ofSlots w.date) (.ofSlots w.time) = some d ↔ d.nanos = (w.totalNanos : Int) := by
  obtain ⟨-, -, hd⟩ := date_values w
  obtain ⟨hh, hm, hs, hn⟩ := time_values w
  rw [delta?_eq_some_iff, hd, hh, hm, hs, hn]
  rfl

def signed (negative : Bool) (d : Duration) : Duration :=
  if negative then ⟨-d.months, d.delta.neg⟩ else d

theorem ofLexical?_eq_bind {kind : Kind} {cs body : List Char} {negative : Bool}
    (h : cs = withSign negative ('P' :: body)) :
    ofLexical? kind cs = (body? body).bind fun halves =>
      if admits kind halves.1 halves.2 then
        (months? halves.1).bind fun m => (delta? halves.1 halves.2).bind fun d =>
          some (signed negative ⟨m, d⟩)
      else none := by
  obtain ⟨hn, hb⟩ := strip_eq_iff.2 h
  unfold ofLexical?
  rw [hn]
  dsimp only
  rw [hb]
  rfl

theorem exists_sign_of_ofLexical? {kind : Kind} {cs : List Char} {d : Duration}
    (h : ofLexical? kind cs = some d) : ∃ negative body, cs = withSign negative ('P' :: body) := by
  unfold ofLexical? at h
  dsimp only at h
  split at h
  case h_1 body hb => exact ⟨_, body, strip_eq_iff.1 ⟨rfl, hb⟩⟩
  case h_2 => cases h

theorem signed_toInt (negative : Bool) {m : Int32} (e : Delta) (h : 0 ≤ m.toInt) :
    let sign : Int := if negative then -1 else 1
    (signed negative ⟨m, e⟩).months.toInt = sign * m.toInt ∧
      (signed negative ⟨m, e⟩).delta.nanos = sign * e.nanos := by
  cases negative with
  | true =>
    have hm : (signed true ⟨m, e⟩).months.toInt = -m.toInt := toInt_neg_of_nonneg h
    have he : (signed true ⟨m, e⟩).delta.nanos = -e.nanos := rfl
    simp [hm, he]
  | false => simp [signed]

theorem eq_of_toInt_eq {d e : Duration} (hm : d.months.toInt = e.months.toInt)
    (hn : d.delta.nanos = e.delta.nanos) : d = e := by
  obtain ⟨m, ⟨n, hb⟩⟩ := d
  obtain ⟨m', ⟨n', hb'⟩⟩ := e
  obtain rfl := Int32.toInt_inj.1 hm
  obtain rfl : n = n' := hn
  rfl

theorem exists_parts {w : Spelling} {kind : Kind} (h : w.Admitted kind) :
    ∃ m : Int32, ∃ e : Delta, m.toInt = (w.totalMonths : Int) ∧ e.nanos = (w.totalNanos : Int) := by
  have hm := h.months_le
  have hn := h.nanos_le
  have hf : Word.Fits w.totalMonths := ⟨by omega, by omega⟩
  have hb : -Delta.limit ≤ w.totalNanos ∧ (w.totalNanos : Int) ≤ Delta.limit := by
    unfold Delta.limit at *
    omega
  exact ⟨_, ⟨w.totalNanos, hb⟩, Word.toInt_ofInt hf, rfl⟩

theorem signed_iff {w : Spelling} {kind : Kind} (h : w.Admitted kind) {d : Duration} :
    (∃ m : Int32, ∃ e : Delta, m.toInt = (w.totalMonths : Int) ∧ e.nanos = (w.totalNanos : Int) ∧
      signed w.negative ⟨m, e⟩ = d) ↔
    d.months.toInt = w.sign * w.totalMonths ∧ d.delta.nanos = w.sign * w.totalNanos := by
  have parts (m : Int32) (e : Delta) (hm : m.toInt = (w.totalMonths : Int))
      (he : e.nanos = (w.totalNanos : Int)) :
      (signed w.negative ⟨m, e⟩).months.toInt = w.sign * w.totalMonths ∧
        (signed w.negative ⟨m, e⟩).delta.nanos = w.sign * w.totalNanos := by
    rw [← hm, ← he]
    exact signed_toInt w.negative e (by omega)
  constructor
  · rintro ⟨m, e, hm, he, rfl⟩
    exact parts m e hm he
  · rintro ⟨hdm, hdn⟩
    obtain ⟨m, e, hm, he⟩ := exists_parts h
    obtain ⟨hsm, hsn⟩ := parts m e hm he
    exact ⟨m, e, hm, he, eq_of_toInt_eq (hsm.trans hdm.symm) (hsn.trans hdn.symm)⟩

end Lexical

open Lexical

theorem ofLexical?_eq_some_iff {kind : Kind} {cs : List Char} {d : Duration} :
    ofLexical? kind cs = some d ↔ ∃ w : Spelling, cs = w.chars ∧ w.Admitted kind ∧
      d.months.toInt = w.sign * w.totalMonths ∧ d.delta.nanos = w.sign * w.totalNanos := by
  constructor
  · intro h
    obtain ⟨negative, body, rfl⟩ := exists_sign_of_ofLexical? h
    rw [ofLexical?_eq_bind rfl, Option.bind_eq_some_iff] at h
    obtain ⟨⟨date, time⟩, hb, h⟩ := h
    obtain ⟨w, -, rfl, hc, -, rfl, rfl⟩ := body?_eq_some_iff.1 hb
    dsimp only at h
    split at h
    case isFalse => cases h
    case isTrue ha =>
      obtain ⟨m, hm, h⟩ := Option.bind_eq_some_iff.1 h
      obtain ⟨e, he, h⟩ := Option.bind_eq_some_iff.1 h
      obtain ⟨hle, hm⟩ := months?_date_iff.1 hm
      have he := delta?_time_iff.1 he
      obtain ⟨hmo, hso⟩ := admits_iff.1 ha
      let v : Spelling := { w with negative := negative }
      have hv : v.Admitted kind := ⟨hc, hmo, hso, hle, he ▸ e.bounded.2⟩
      exact ⟨v, rfl, hv, (signed_iff hv).1 ⟨m, e, hm, he, Option.some.inj h⟩⟩
  · rintro ⟨w, rfl, hw, hd⟩
    obtain ⟨m, e, hm, he, rfl⟩ := (signed_iff hw).2 hd
    have hb : body? w.body = some (.ofSlots w.date, .ofSlots w.time) :=
      body?_eq_some_iff.2
        ⟨{ w with negative := false }, rfl, rfl, hw.component, hw.bounded, rfl, rfl⟩
    rw [Spelling.chars, ofLexical?_eq_bind rfl, hb, Option.bind_some]
    dsimp only
    rw [if_pos (admits_iff.2 ⟨hw.months_only, hw.span_only⟩),
      months?_date_iff.2 ⟨hw.months_le, hm⟩, Option.bind_some, delta?_time_iff.2 he,
      Option.bind_some]

/-- A text is read exactly when it is of the grammar between its blanks and its totals are in range,
and then as these totals. -/
theorem parse?_accepts_grammar (kind : Kind) (text : String) :
    ((parse? kind text).isSome = true ↔
      ∃ w : Spelling, Text.trim text.toList = w.chars ∧ w.Admitted kind) ∧
    ∀ d, parse? kind text = some d ↔
      ∃ w : Spelling, Text.trim text.toList = w.chars ∧ w.Admitted kind ∧
        d.months.toInt = w.sign * w.totalMonths ∧ d.delta.nanos = w.sign * w.totalNanos := by
  refine ⟨?_, fun d => ofLexical?_eq_some_iff⟩
  rw [Option.isSome_iff_exists]
  constructor
  · rintro ⟨d, hd⟩
    obtain ⟨w, hw, ha, -⟩ := ofLexical?_eq_some_iff.1 hd
    exact ⟨w, hw, ha⟩
  · rintro ⟨w, hw, ha⟩
    obtain ⟨m, e, hm, he⟩ := exists_parts ha
    exact ⟨_, ofLexical?_eq_some_iff.2 ⟨w, hw, ha, (signed_iff ha).1 ⟨m, e, hm, he, rfl⟩⟩⟩

end PullQuery.Duration
