import PullQuery.Proofs.Calendar.Days
import PullQuery.Proofs.Duration.Scanner

namespace PullQuery

open Duration (Digits Amount)

namespace Zone

structure Field where
  sign : Option Bool
  digits : Digits

namespace Field

def chars (f : Field) : List Char :=
  f.sign.elim [] (fun negative => [if negative then '-' else '+']) ++ f.digits.chars

def value (f : Field) : Int := if f.sign = some true then -f.digits.value else f.digits.value

end Field

inductive Spelling
  | absent
  | utc
  | offset (west : Bool) (hours minutes : Field)

structure IsOffset (west : Bool) (hours minutes : Field) (z : Zone) : Prop where
  hours_length : hours.chars.length = 2
  minutes_length : minutes.chars.length = 2
  hours_le : hours.value ≤ 14
  minutes_le : minutes.value ≤ 59
  greatest : hours.value = 14 → minutes.value = 0
  seconds : z.seconds = (if west then -1 else 1) * (3600 * hours.value + 60 * minutes.value)

namespace Spelling

def chars : Spelling → List Char
  | .absent => []
  | .utc => ['Z']
  | .offset west hours minutes =>
    (if west then '-' else '+') :: (hours.chars ++ ':' :: minutes.chars)

@[simp] theorem chars_absent : absent.chars = [] := rfl

@[simp] theorem chars_utc : utc.chars = ['Z'] := rfl

theorem chars_offset (west : Bool) (hours minutes : Field) : (offset west hours minutes).chars =
    (if west then '-' else '+') :: (hours.chars ++ ':' :: minutes.chars) := rfl

def Spells : Spelling → Option Zone → Prop
  | .absent, zone => zone = none
  | .utc, zone => zone = some .utc
  | .offset west hours minutes, zone => ∃ z, zone = some z ∧ IsOffset west hours minutes z

def Plain : Spelling → Prop
  | .offset _ hours minutes => hours.sign = none ∧ minutes.sign = none
  | _ => True

end Spelling

end Zone

namespace Date

structure Spelling where
  negative : Bool
  year : Digits
  month : Digits
  day : Digits

namespace Spelling

def chars (w : Spelling) : List Char :=
  (if w.negative then '-' :: w.year.chars else w.year.chars) ++
    '-' :: (w.month.chars ++ '-' :: w.day.chars)

def yearNumber (w : Spelling) : Int := if w.negative then -w.year.value else w.year.value

structure Spells (w : Spelling) (d : Date) : Prop where
  year_length : 4 ≤ w.year.chars.length
  month_length : w.month.chars.length = 2
  day_length : w.day.chars.length = 2
  year : d.year = w.yearNumber
  month : d.month = w.month.value
  day : d.day = w.day.value

/-- Without a minus, the reader takes no year of more than four digits. -/
def ShortYear (w : Spelling) : Prop := w.negative = true ∨ w.year.chars.length = 4

theorem year_lengths {w : Spelling} :
    (w.year.chars.length = 4 ∨ (w.negative = true ∧ 4 ≤ w.year.chars.length)) ↔
      4 ≤ w.year.chars.length ∧ w.ShortYear := by
  constructor
  · rintro (h4 | ⟨hn, hl⟩)
    · exact ⟨Nat.le_of_eq h4.symm, .inr h4⟩
    · exact ⟨hl, .inl hn⟩
  · rintro ⟨hl, hn | h4⟩
    · exact .inr ⟨hn, hl⟩
    · exact .inl h4

end Spelling

end Date

namespace Clock

structure Spelling where
  hour : Digits
  minute : Digits
  seconds : Amount

namespace Spelling

def chars (w : Spelling) : List Char :=
  w.hour.chars ++ ':' :: (w.minute.chars ++ ':' :: w.seconds.chars)

structure Spells (w : Spelling) (t : Clock) : Prop where
  hour_length : w.hour.chars.length = 2
  minute_length : w.minute.chars.length = 2
  second_length : w.seconds.whole.chars.length = 2
  hour_le : w.hour.value ≤ 23
  minute_le : w.minute.value ≤ 59
  second_le : w.seconds.whole.value ≤ 60
  second : t.second = 3600 * w.hour.value + 60 * w.minute.value + min w.seconds.whole.value 59
  nanos : t.nanos = (if w.seconds.whole.value = 60 then 1_000_000_000 else 0) + w.seconds.nanos

end Spelling

end Clock

namespace DateTime

structure Spelling where
  date : Date.Spelling
  time : Clock.Spelling

namespace Spelling

def chars (w : Spelling) : List Char := w.date.chars ++ 'T' :: w.time.chars

def Spells (w : Spelling) (p : DateTime) : Prop := w.date.Spells p.date ∧ w.time.Spells p.time

end Spelling

end DateTime

namespace Numeral

theorem digits?_eq_some_iff {cs : List Char} {n : Nat} :
    digits? cs = some n ↔ ∃ ds : Digits, cs = ds.chars ∧ n = ds.value := by
  constructor
  · intro h
    unfold digits? at h
    split at h
    case isTrue hd =>
      have hall : ∀ c ∈ cs, c.isDigit = true := List.all_eq_true.1 hd.2
      exact ⟨⟨cs, hd.1, hall⟩, rfl, (Option.some.inj h).symm⟩
    case isFalse => cases h
  · rintro ⟨ds, rfl, rfl⟩
    exact digits?_eq ds.nonempty ds.isDigit

theorem digits?_chars (ds : Digits) : digits? ds.chars = some ds.value :=
  digits?_eq_some_iff.2 ⟨ds, rfl, rfl⟩

theorem signed?_eq_some_iff {cs : List Char} {n : Int} :
    signed? cs = some n ↔ ∃ f : Zone.Field, cs = f.chars ∧ n = f.value := by
  constructor
  · intro h
    unfold signed? at h
    split at h
    case h_1 cs =>
      obtain ⟨m, hm, rfl⟩ := Option.map_eq_some_iff.1 h
      obtain ⟨ds, rfl, rfl⟩ := digits?_eq_some_iff.1 hm
      exact ⟨⟨some true, ds⟩, rfl, rfl⟩
    case h_2 cs =>
      obtain ⟨m, hm, rfl⟩ := Option.map_eq_some_iff.1 h
      obtain ⟨ds, rfl, rfl⟩ := digits?_eq_some_iff.1 hm
      exact ⟨⟨some false, ds⟩, rfl, rfl⟩
    case h_3 =>
      obtain ⟨m, hm, rfl⟩ := Option.map_eq_some_iff.1 h
      obtain ⟨ds, rfl, rfl⟩ := digits?_eq_some_iff.1 hm
      exact ⟨⟨none, ds⟩, rfl, rfl⟩
  · rintro ⟨⟨sign, ds⟩, rfl, rfl⟩
    have hds := digits?_chars ds
    cases sign with
    | some negative =>
      cases negative with
      | true =>
        change (digits? ds.chars).map (fun n : Nat => -(n : Int)) = _
        rw [hds]
        rfl
      | false =>
        change (digits? ds.chars).map (fun n : Nat => (n : Int)) = _
        rw [hds]
        rfl
    | none =>
      change signed? ds.chars = some (ds.value : Int)
      have hne := ds.nonempty
      have hd := ds.isDigit
      cases hc : ds.chars with
      | nil => exact absurd hc hne
      | cons c cs =>
        rw [signed?_of_isDigit (hd c (hc ▸ List.mem_cons_self)), ← hc, hds]
        rfl

end Numeral

theorem Calendar.Lexical.fraction?_eq_some_iff {cs : List Char} {n : Nat} :
    fraction? cs = some n ↔ ∃ f : Option Digits, cs = f.elim [] (fun ds => '.' :: ds.chars) ∧
      n = f.elim 0 fun ds => ds.value * Nat.pow 10 9 / Nat.pow 10 ds.chars.length := by
  constructor
  · intro h
    unfold fraction? at h
    split at h
    case h_1 => exact ⟨none, rfl, (Option.some.inj h).symm⟩
    case h_2 cs =>
      obtain ⟨m, hm, rfl⟩ := Option.map_eq_some_iff.1 h
      obtain ⟨ds, rfl, rfl⟩ := Numeral.digits?_eq_some_iff.1 hm
      exact ⟨some ds, rfl, nanos_eq ds.isDigit⟩
    case h_3 => cases h
  · rintro ⟨f, rfl, rfl⟩
    cases f with
    | none => rfl
    | some ds =>
      change (Numeral.digits? ds.chars).map (fun _ => nanos ds.chars) = _
      rw [Numeral.digits?_chars, nanos_eq ds.isDigit]
      rfl

theorem ne_of_isDigit {c x : Char} (hc : c.isDigit = true) (hx : x.isDigit = false) : c ≠ x := by
  rintro rfl
  rw [hc] at hx
  cases hx

namespace Zone

theorem ofSeconds?_eq_some_iff {n : Int} {z : Zone} : ofSeconds? n = some z ↔ z.seconds = n := by
  constructor
  · intro h
    unfold ofSeconds? at h
    split at h
    case isTrue => cases h; rfl
    case isFalse => cases h
  · rintro rfl
    exact z.ofSeconds?_self

theorem ofFields?_eq_some_iff {west : Bool} {hours minutes : Int} {z : Zone} :
    ofFields? west hours minutes = some z ↔ hours ≤ 14 ∧ minutes ≤ 59 ∧
      (hours = 14 → minutes = 0) ∧
      z.seconds = (if west then -1 else 1) * (3600 * hours + 60 * minutes) := by
  unfold ofFields? mostHours
  have hsign : (if west then -(3600 * hours + 60 * minutes) else 3600 * hours + 60 * minutes) =
      (if west then -1 else 1) * (3600 * hours + 60 * minutes) := by
    cases west <;> simp
  split
  case isTrue h =>
    constructor
    · nofun
    · omega
  case isFalse h =>
    dsimp only
    rw [hsign, ofSeconds?_eq_some_iff]
    constructor
    · intro hz
      exact ⟨by omega, by omega, by omega, hz⟩
    · rintro ⟨-, -, -, hz⟩
      exact hz

theorem exists_field {f : Field} (h : f.chars.length = 2) :
    ∃ a b, f.chars = [a, b] ∧ b.isDigit = true ∧ field? a b = some f.value := by
  obtain ⟨a, b, hab⟩ := List.length_eq_two.1 h
  have hv : field? a b = some f.value := Numeral.signed?_eq_some_iff.2 ⟨f, hab.symm, rfl⟩
  have hb : b ∈ f.digits.chars := by
    obtain ⟨sign, ds⟩ := f
    cases sign with
    | none =>
      have hds : ds.chars = [a, b] := hab
      rw [hds]
      simp
    | some negative =>
      have hds : ds.chars = [b] := (List.cons.inj hab).2
      rw [hds]
      simp
  exact ⟨a, b, hab, f.digits.isDigit b hb, hv⟩

theorem value_ge {f : Field} (h : f.chars.length = 2) : -9 ≤ f.value := by
  obtain ⟨sign, ds⟩ := f
  have hlt : ds.value < Nat.pow 10 ds.chars.length := Numeral.read_lt ds.isDigit
  cases sign with
  | none => exact Int.le_trans (by decide) (Int.natCast_nonneg ds.value)
  | some negative =>
    cases negative with
    | false => exact Int.le_trans (by decide) (Int.natCast_nonneg ds.value)
    | true =>
      have hone : ds.chars.length = 1 := Nat.succ.inj h
      rw [hone, show Nat.pow 10 1 = 10 from rfl] at hlt
      change -9 ≤ -(ds.value : Int)
      omega

theorem isWritten_of_spells {w : Spelling} {z : Zone} (h : w.Spells (some z)) : z.IsWritten := by
  cases w with
  | absent => cases h
  | utc =>
    cases h
    decide
  | offset west hours minutes =>
    obtain ⟨z, hz, ho⟩ := h
    cases hz
    have hh := value_ge ho.hours_length
    have hm := value_ge ho.minutes_length
    have hle := ho.hours_le
    have mle := ho.minutes_le
    have hg := ho.greatest
    have hs := ho.seconds
    unfold IsWritten
    cases west with
    | true =>
      rw [if_pos rfl] at hs
      omega
    | false =>
      rw [if_neg Bool.false_ne_true] at hs
      omega

theorem split?_spelled {cs body : List Char} {zone : Option Zone}
    (h : split? cs = some (body, zone)) :
    ∃ w : Spelling, cs = body ++ w.chars ∧ w.Spells zone := by
  have hr := cs.reverse_reverse
  unfold split? at h
  split at h
  case h_1 rest he =>
    rw [he] at hr
    cases h
    exact ⟨.utc, by simpa using hr.symm, rfl⟩
  case h_2 d c b a sign rest _ he =>
    rw [he] at hr
    split at h
    case isTrue hsign =>
      obtain ⟨hours, hh, h⟩ := Option.bind_eq_some_iff.1 h
      obtain ⟨minutes, hm, h⟩ := Option.bind_eq_some_iff.1 h
      obtain ⟨z, hz, h⟩ := Option.bind_eq_some_iff.1 h
      cases h
      obtain ⟨f, hf, rfl⟩ := Numeral.signed?_eq_some_iff.1 hh
      obtain ⟨g, hg, rfl⟩ := Numeral.signed?_eq_some_iff.1 hm
      obtain ⟨hle, mle, hmost, hs⟩ := ofFields?_eq_some_iff.1 hz
      have hc : (if sign == '-' then '-' else '+') = sign := by
        simp only [Bool.or_eq_true, beq_iff_eq] at hsign
        obtain rfl | rfl := hsign <;> rfl
      refine ⟨.offset (sign == '-') f g, ?_, z, rfl, by rw [← hf]; rfl, by rw [← hg]; rfl, hle, mle,
        hmost, hs⟩
      rw [Spelling.chars_offset, hc, ← hf, ← hg, ← hr]
      simp
    case isFalse =>
      cases h
      exact ⟨.absent, by simp, rfl⟩
  case h_3 =>
    cases h
    exact ⟨.absent, by simp, rfl⟩

theorem split?_chars {body : List Char} {w : Spelling} {zone : Option Zone}
    (hb : split? body = some (body, none)) (hw : w.Spells zone) :
    split? (body ++ w.chars) = some (body, zone) := by
  cases w with
  | absent =>
    obtain rfl : zone = none := hw
    rw [Spelling.chars_absent, List.append_nil]
    exact hb
  | utc =>
    obtain rfl : zone = some utc := hw
    rw [split?, Spelling.chars_utc, List.reverse_append]
    simp
  | offset west hours minutes =>
    obtain ⟨z, rfl, ho⟩ := hw
    obtain ⟨a, b, hab, -, hh⟩ := exists_field ho.hours_length
    obtain ⟨c, d, hcd, hd, hm⟩ := exists_field ho.minutes_length
    have hz := ofFields?_eq_some_iff.2 ⟨ho.hours_le, ho.minutes_le, ho.greatest, ho.seconds⟩
    rw [Spelling.chars_offset, hab, hcd]
    cases west with
    | true =>
      have hs := split?_fields body (.inr rfl) hd hh hm
      exact hs.trans (congrArg (Option.map _) hz)
    | false =>
      have hs := split?_fields body (.inl rfl) hd hh hm
      exact hs.trans (congrArg (Option.map _) hz)

theorem split?_of_tail (cs : List Char) {tail : List Char} (hl : 3 ≤ tail.length)
    (ht : ∀ c ∈ tail, c ≠ ':' ∧ c ≠ 'Z') : split? (cs ++ tail) = some (cs ++ tail, none) := by
  have hlen : (tail.drop (tail.length - 3)).length = 3 := by
    rw [List.length_drop]
    omega
  obtain ⟨x, y, z, hxyz⟩ := List.length_eq_three.1 hlen
  have hmem : ∀ c ∈ [x, y, z], c ≠ ':' ∧ c ≠ 'Z' := fun c hc =>
    ht c (List.mem_of_mem_drop (hxyz ▸ hc))
  have hx := (hmem x (by simp)).1
  have hz := (hmem z (by simp)).2
  have heq : cs ++ tail = (cs ++ tail.take (tail.length - 3)) ++ [x, y, z] := by
    rw [← hxyz, List.append_assoc, List.take_append_drop]
  rw [heq]
  exact split?_of_last_three _ hx hz

end Zone

namespace Date

theorem eq_of_sign {cs body : List Char} {negative : Bool}
    (hn : (cs.head? == some '-') = negative) (hb : (if negative then cs.tail else cs) = body) :
    cs = if negative then '-' :: body else body := by
  cases negative with
  | false => exact hb
  | true =>
    cases cs with
    | nil => cases hn
    | cons c cs =>
      obtain rfl : c = '-' := by simpa using hn
      obtain rfl : cs = body := hb
      rfl

theorem ofLexical?_eq_some_iff {cs : List Char} {d : Date} :
    ofLexical? cs = some d ↔ ∃ w : Spelling, cs = w.chars ∧ w.Spells d ∧ w.ShortYear := by
  constructor
  · intro h
    unfold ofLexical? at h
    dsimp only at h
    -- The sign and what is left without it are named, to put them together again at the end.
    generalize hn : (cs.head? == some '-') = negative at h
    generalize hb : (if negative = true then cs.tail else cs) = body at h
    split at h
    case h_1 a b c e hdrop =>
      split at h
      case isTrue hl =>
        have hyear : ∀ x ∈ body.takeWhile Char.isDigit, x.isDigit = true := fun x hx =>
          List.all_eq_true.1 List.all_takeWhile x hx
        have hsplit := List.takeWhile_append_dropWhile (p := Char.isDigit) (l := body)
        rw [hdrop] at hsplit
        generalize body.takeWhile Char.isDigit = year at hl h hyear hsplit
        have hne : year ≠ [] := by
          rintro rfl
          rw [List.length_nil] at hl
          omega
        obtain ⟨month, hm, h⟩ := Option.bind_eq_some_iff.1 h
        obtain ⟨day, hday, h⟩ := Option.bind_eq_some_iff.1 h
        obtain ⟨m, hmc, rfl⟩ := Numeral.digits?_eq_some_iff.1 hm
        obtain ⟨n, hnc, rfl⟩ := Numeral.digits?_eq_some_iff.1 hday
        obtain ⟨hy, hmonth, hd⟩ := ofCivil?_eq_some_iff.1 h
        let w : Spelling := ⟨negative, ⟨year, hne, hyear⟩, m, n⟩
        obtain ⟨hlong, hshort⟩ := (Spelling.year_lengths (w := w)).1 hl
        refine ⟨w, ?_, ⟨hlong, by rw [← hmc]; rfl, by rw [← hnc]; rfl, hy, hmonth, hd⟩, hshort⟩
        rw [eq_of_sign hn hb, ← hsplit]
        change _ = (if negative then '-' :: year else year) ++ '-' :: (m.chars ++ '-' :: n.chars)
        rw [← hmc, ← hnc]
        cases negative <;> rfl
      case isFalse => cases h
    case h_2 => cases h
  · rintro ⟨w, rfl, hw, hshort⟩
    obtain ⟨a, b, hab⟩ := List.length_eq_two.1 hw.month_length
    obtain ⟨c, e, hce⟩ := List.length_eq_two.1 hw.day_length
    have hm : Numeral.digits? [a, b] = some d.month := by
      rw [← hab, hw.month]
      exact Numeral.digits?_chars w.month
    have hd : Numeral.digits? [c, e] = some d.day := by
      rw [← hce, hw.day]
      exact Numeral.digits?_chars w.day
    have hl := Spelling.year_lengths.2 ⟨hw.year_length, hshort⟩
    have hread := ofLexical?_fields w.year.isDigit hl hm hd
    unfold Spelling.chars
    rw [hab, hce]
    exact hread.trans (ofCivil?_eq_some_iff.2 ⟨hw.year, rfl, rfl⟩)

theorem Spelling.isDigit_of_mem_chars {w : Spelling} {c : Char} (h : c ∈ w.chars) :
    c.isDigit = true ∨ c = '-' := by
  have year : c ∈ w.year.chars → c.isDigit = true := w.year.isDigit c
  have month : c ∈ w.month.chars → c.isDigit = true := w.month.isDigit c
  have day : c ∈ w.day.chars → c.isDigit = true := w.day.isDigit c
  unfold Spelling.chars at h
  rw [List.mem_append, List.mem_cons, List.mem_append, List.mem_cons] at h
  obtain h | h | h | h | h := h
  · split at h
    · obtain h | h := List.mem_cons.1 h
      · exact .inr h
      · exact .inl (year h)
    · exact .inl (year h)
  · exact .inr h
  · exact .inl (month h)
  · exact .inr h
  · exact .inl (day h)

theorem split?_spelled {w : Spelling} {d : Date} (hw : w.Spells d) :
    Zone.split? w.chars = some (w.chars, none) := by
  have hl := hw.day_length
  have htail : ∀ c ∈ '-' :: w.day.chars, c ≠ ':' ∧ c ≠ 'Z' := by
    intro c hc
    obtain rfl | hc := List.mem_cons.1 hc
    · decide
    · have hd := w.day.isDigit c hc
      exact ⟨ne_of_isDigit hd rfl, ne_of_isDigit hd rfl⟩
  have hs := Zone.split?_of_tail
    ((if w.negative then '-' :: w.year.chars else w.year.chars) ++ '-' :: w.month.chars)
    (show 3 ≤ ('-' :: w.day.chars).length by rw [List.length_cons]; omega) htail
  unfold Spelling.chars
  simpa using hs

end Date

namespace Clock

theorem ofParts?_eq_some_iff {second nanos : Nat} {t : Clock} :
    ofParts? second nanos = some t ↔ t.second = second ∧ t.nanos = nanos := by
  constructor
  · intro h
    unfold ofParts? at h
    split at h
    case isTrue => cases h; exact ⟨rfl, rfl⟩
    case isFalse => cases h
  · rintro ⟨rfl, rfl⟩
    exact t.ofParts?_self

theorem ofFields?_eq_some_iff {hour minute second n : Nat} {t : Clock} :
    ofFields? hour minute second n = some t ↔ hour ≤ 23 ∧ minute ≤ 59 ∧ second ≤ 60 ∧
      t.second = 3600 * hour + 60 * minute + min second 59 ∧
      t.nanos = (if second = 60 then 1_000_000_000 else 0) + n := by
  unfold ofFields?
  split
  case isTrue h =>
    constructor
    · nofun
    · omega
  case isFalse h =>
    split
    case isTrue hs =>
      rw [ofParts?_eq_some_iff]
      omega
    case isFalse hs =>
      rw [ofParts?_eq_some_iff]
      omega

theorem ofLexical?_eq_some_iff {cs : List Char} {t : Clock} :
    ofLexical? cs = some t ↔ ∃ w : Spelling, cs = w.chars ∧ w.Spells t := by
  constructor
  · intro h
    unfold ofLexical? at h
    split at h
    case h_1 a b c d e f rest =>
      obtain ⟨hour, hh, h⟩ := Option.bind_eq_some_iff.1 h
      obtain ⟨minute, hm, h⟩ := Option.bind_eq_some_iff.1 h
      obtain ⟨second, hs, h⟩ := Option.bind_eq_some_iff.1 h
      obtain ⟨n, hn, h⟩ := Option.bind_eq_some_iff.1 h
      obtain ⟨hd, hhc, rfl⟩ := Numeral.digits?_eq_some_iff.1 hh
      obtain ⟨md, hmc, rfl⟩ := Numeral.digits?_eq_some_iff.1 hm
      obtain ⟨sd, hsc, rfl⟩ := Numeral.digits?_eq_some_iff.1 hs
      obtain ⟨fraction, rfl, rfl⟩ := Calendar.Lexical.fraction?_eq_some_iff.1 hn
      obtain ⟨hle, mle, sle, hsecond, hnanos⟩ := ofFields?_eq_some_iff.1 h
      refine ⟨⟨hd, md, sd, fraction⟩, ?_, by rw [← hhc]; rfl, by rw [← hmc]; rfl,
        by rw [← hsc]; rfl, hle, mle, sle, hsecond, hnanos⟩
      unfold Spelling.chars Amount.chars
      rw [← hhc, ← hmc, ← hsc]
      rfl
    case h_2 => cases h
  · rintro ⟨w, rfl, hw⟩
    obtain ⟨a, b, hab⟩ := List.length_eq_two.1 hw.hour_length
    obtain ⟨c, d, hcd⟩ := List.length_eq_two.1 hw.minute_length
    obtain ⟨e, f, hef⟩ := List.length_eq_two.1 hw.second_length
    have hh : Numeral.digits? [a, b] = some w.hour.value := hab ▸ Numeral.digits?_chars w.hour
    have hm : Numeral.digits? [c, d] = some w.minute.value := hcd ▸ Numeral.digits?_chars w.minute
    have hs : Numeral.digits? [e, f] = some w.seconds.whole.value :=
      hef ▸ Numeral.digits?_chars w.seconds.whole
    have hn := Calendar.Lexical.fraction?_eq_some_iff.2 ⟨w.seconds.fraction, rfl, rfl⟩
    unfold Spelling.chars Amount.chars
    rw [hab, hcd, hef]
    change (Numeral.digits? [a, b]).bind (fun hour => (Numeral.digits? [c, d]).bind fun minute =>
      (Numeral.digits? [e, f]).bind fun second => (Calendar.Lexical.fraction?
        (w.seconds.fraction.elim [] fun ds => '.' :: ds.chars)).bind fun n =>
          ofFields? hour minute second n) = _
    rw [hh, hm, hs, hn]
    exact ofFields?_eq_some_iff.2 ⟨hw.hour_le, hw.minute_le, hw.second_le, hw.second, hw.nanos⟩

theorem split?_spelled (cs : List Char) {w : Spelling} {t : Clock} (hw : w.Spells t) :
    Zone.split? (cs ++ w.chars) = some (cs ++ w.chars, none) := by
  obtain ⟨c, d, hcd⟩ := List.length_eq_two.1 hw.minute_length
  obtain ⟨e, f, hef⟩ := List.length_eq_two.1 hw.second_length
  have hs := w.seconds.whole.isDigit
  rw [hef] at hs
  unfold Spelling.chars Amount.chars
  rw [hcd, hef]
  cases w.seconds.fraction with
  | none =>
    have hf : f ≠ 'Z' := ne_of_isDigit (hs f (by simp)) rfl
    have hz := Zone.split?_of_colons (cs ++ w.hour.chars) (a := c) (b := d) (c := e) hf
    simpa using hz
  | some ds =>
    have htail : ∀ c ∈ [e, f] ++ '.' :: ds.chars, c ≠ ':' ∧ c ≠ 'Z' := by
      intro c hc
      have hdot : c.isDigit = true ∨ c = '.' := by
        obtain hc | hc := List.mem_append.1 hc
        · exact .inl (hs c hc)
        · obtain rfl | hc := List.mem_cons.1 hc
          · exact .inr rfl
          · exact .inl (ds.isDigit c hc)
      obtain hd | rfl := hdot
      · exact ⟨ne_of_isDigit hd rfl, ne_of_isDigit hd rfl⟩
      · decide
    have hz := Zone.split?_of_tail (cs ++ w.hour.chars ++ [':', c, d, ':'])
      (show 3 ≤ ([e, f] ++ '.' :: ds.chars).length by simp) htail
    simpa using hz

end Clock

namespace DateTime

theorem ofLexical?_eq_some_iff {cs : List Char} {p : DateTime} :
    ofLexical? cs = some p ↔ ∃ w : Spelling, cs = w.chars ∧ w.Spells p ∧ w.date.ShortYear := by
  constructor
  · intro h
    obtain ⟨date, hd, h⟩ := Option.bind_eq_some_iff.1 h
    obtain ⟨w, hw, hspell, hshort⟩ := Date.ofLexical?_eq_some_iff.1 hd
    have hsplit := List.takeWhile_append_dropWhile (p := (· != 'T')) (l := cs)
    have hhead := List.head?_dropWhile_not (· != 'T') cs
    split at h
    case h_1 c rest hdrop =>
      obtain ⟨time, ht, rfl⟩ := Option.map_eq_some_iff.1 h
      obtain ⟨v, rfl, hv⟩ := Clock.ofLexical?_eq_some_iff.1 ht
      rw [hdrop] at hhead hsplit
      obtain rfl : c = 'T' := by simpa using hhead
      refine ⟨⟨w, v⟩, ?_, ⟨hspell, hv⟩, hshort⟩
      rw [← hsplit, hw]
      rfl
    case h_2 => cases h
  · rintro ⟨w, rfl, ⟨hd, ht⟩, hshort⟩
    have hp : ∀ c ∈ w.date.chars, (c != 'T') = true := by
      intro c hc
      obtain hd | rfl := Date.Spelling.isDigit_of_mem_chars hc
      · exact bne_iff_ne.2 (ne_of_isDigit hd rfl)
      · decide
    have htake : (w.date.chars ++ 'T' :: w.time.chars).takeWhile (· != 'T') = w.date.chars := by
      rw [List.takeWhile_append_of_pos hp]
      simp
    have hdrop : (w.date.chars ++ 'T' :: w.time.chars).dropWhile (· != 'T') =
        'T' :: w.time.chars := by
      rw [List.dropWhile_append_of_pos hp]
      simp
    unfold ofLexical? Spelling.chars
    rw [htake, hdrop, Date.ofLexical?_eq_some_iff.2 ⟨w.date, rfl, hd, hshort⟩]
    change (Clock.ofLexical? w.time.chars).map (DateTime.mk p.date) = _
    rw [Clock.ofLexical?_eq_some_iff.2 ⟨w.time, rfl, ht⟩]
    rfl

end DateTime

namespace Calendar.Lexical

variable {α σ : Type} {read? : List Char → Option α} {chars : σ → List Char} {Spells : σ → α → Prop}

theorem exists_of_zoned? {text : String} {v : α} {zone : Option Zone}
    (h : zoned? read? text = some (v, zone)) : ∃ (body : List Char) (z : Zone.Spelling),
      Text.trim text.toList = body ++ z.chars ∧ read? body = some v ∧ z.Spells zone := by
  obtain ⟨⟨body, zone⟩, hs, h⟩ := Option.bind_eq_some_iff.1 h
  obtain ⟨v, hv, h⟩ := Option.bind_eq_some_iff.1 h
  cases h
  obtain ⟨z, hz, hspell⟩ := Zone.split?_spelled hs
  exact ⟨body, z, hz, hv, hspell⟩

theorem zoned?_eq_some_iff
    (reads : ∀ {cs : List Char} {v : α}, read? cs = some v ↔ ∃ w, cs = chars w ∧ Spells w v)
    (bare : ∀ {w : σ} {v : α}, Spells w v → Zone.split? (chars w) = some (chars w, none))
    {text : String} {v : α} {zone : Option Zone} :
    zoned? read? text = some (v, zone) ↔ ∃ (w : σ) (z : Zone.Spelling),
      Text.trim text.toList = chars w ++ z.chars ∧ Spells w v ∧ z.Spells zone := by
  constructor
  · intro h
    obtain ⟨body, z, hz, hv, hspell⟩ := exists_of_zoned? h
    obtain ⟨w, rfl, hw⟩ := reads.1 hv
    exact ⟨w, z, hz, hw, hspell⟩
  · rintro ⟨w, z, ht, hw, hz⟩
    unfold zoned?
    rw [ht, Zone.split?_chars (bare hw) hz]
    change (read? (chars w)).bind (fun v => some (v, zone)) = _
    rw [reads.2 ⟨w, rfl, hw⟩]
    rfl

end Calendar.Lexical

theorem Date.parse?_eq_some_iff {text : String} {d : Date} {zone : Option Zone} :
    Date.parse? text = some (d, zone) ↔ ∃ (w : Date.Spelling) (z : Zone.Spelling),
      Text.trim text.toList = w.chars ++ z.chars ∧ (w.Spells d ∧ w.ShortYear) ∧ z.Spells zone :=
  Calendar.Lexical.zoned?_eq_some_iff Date.ofLexical?_eq_some_iff fun hw => Date.split?_spelled hw.1

theorem Clock.parse?_eq_some_iff {text : String} {t : Clock} {zone : Option Zone} :
    Clock.parse? text = some (t, zone) ↔ ∃ (w : Clock.Spelling) (z : Zone.Spelling),
      Text.trim text.toList = w.chars ++ z.chars ∧ w.Spells t ∧ z.Spells zone :=
  Calendar.Lexical.zoned?_eq_some_iff Clock.ofLexical?_eq_some_iff (Clock.split?_spelled [])

theorem DateTime.parse?_eq_some_iff {text : String} {p : DateTime} {zone : Option Zone} :
    DateTime.parse? text = some (p, zone) ↔ ∃ (w : DateTime.Spelling) (z : Zone.Spelling),
      Text.trim text.toList = w.chars ++ z.chars ∧ (w.Spells p ∧ w.date.ShortYear) ∧
        z.Spells zone := by
  have bare {w : DateTime.Spelling} {p : DateTime} (hw : w.Spells p ∧ w.date.ShortYear) :
      Zone.split? w.chars = some (w.chars, none) := by
    have hs := Clock.split?_spelled (w.date.chars ++ ['T']) hw.1.2
    rw [List.append_assoc] at hs
    exact hs
  exact Calendar.Lexical.zoned?_eq_some_iff DateTime.ofLexical?_eq_some_iff bare

/-- A text is read exactly when it is of the grammar between its blanks, and as what it spells. The
fields of a zone may be signed, and a year without a minus has four digits. -/
theorem points_read_by_grammar (text : String) (zone : Option Zone) :
    (∀ d, Date.parse? text = some (d, zone) ↔ ∃ (w : Date.Spelling) (z : Zone.Spelling),
      Text.trim text.toList = w.chars ++ z.chars ∧ (w.Spells d ∧ w.ShortYear) ∧ z.Spells zone) ∧
    (∀ t, Clock.parse? text = some (t, zone) ↔ ∃ (w : Clock.Spelling) (z : Zone.Spelling),
      Text.trim text.toList = w.chars ++ z.chars ∧ w.Spells t ∧ z.Spells zone) ∧
    ∀ p, DateTime.parse? text = some (p, zone) ↔ ∃ (w : DateTime.Spelling) (z : Zone.Spelling),
      Text.trim text.toList = w.chars ++ z.chars ∧ (w.Spells p ∧ w.date.ShortYear) ∧
        z.Spells zone :=
  ⟨fun _ => Date.parse?_eq_some_iff, fun _ => Clock.parse?_eq_some_iff,
    fun _ => DateTime.parse?_eq_some_iff⟩

theorem signed_zone_field_and_long_year :
    (∃ d zone, Date.parse? "2024-01-15+-5:00" = some (d, zone) ∧
      ¬∃ (w : Date.Spelling) (z : Zone.Spelling),
        Text.trim "2024-01-15+-5:00".toList = w.chars ++ z.chars ∧ w.Spells d ∧ z.Spells zone ∧
          z.Plain) ∧
    Date.parse? "12345-01-01" = none ∧
    ∃ (w : Date.Spelling) (d : Date), Text.trim "12345-01-01".toList = w.chars ∧ w.Spells d := by
  refine ⟨⟨⟨2024, 1, 15, by decide, by decide, by decide⟩, some ⟨-18000, by decide⟩,
    rfl, ?_⟩, rfl, ?_⟩
  · rintro ⟨w, z, ht, -, hz, hplain⟩
    cases z with
    | absent => cases hz
    | utc => cases hz
    | offset west hours minutes =>
      obtain ⟨z, -, ho⟩ := hz
      obtain ⟨a, b, hab⟩ := List.length_eq_two.1 ho.hours_length
      obtain ⟨c, e, hce⟩ := List.length_eq_two.1 ho.minutes_length
      have htail : "2024-01-15".toList ++ ['+', '-', '5', ':', '0', '0'] =
          w.chars ++ [if west then '-' else '+', a, b, ':', c, e] := by
        rw [Zone.Spelling.chars_offset, hab, hce] at ht
        exact ht
      obtain ⟨sign, digits⟩ := hours
      obtain rfl : sign = none := hplain.1
      have ha : a.isDigit = true := by
        apply digits.isDigit
        rw [show digits.chars = [a, b] from hab]
        exact List.mem_cons_self
      obtain ⟨-, h⟩ := List.append_inj' htail rfl
      injection h with _ h
      injection h with h
      rw [← h] at ha
      cases ha
  · let year : Digits := ⟨['1', '2', '3', '4', '5'], by decide, List.all_eq_true.1 (by decide)⟩
    let first : Digits := ⟨['0', '1'], by decide, List.all_eq_true.1 (by decide)⟩
    exact ⟨⟨false, year, first, first⟩, ⟨12345, 1, 1, by decide, by decide, by decide⟩,
      rfl, by decide, rfl, rfl, by decide, rfl, rfl⟩

end PullQuery
