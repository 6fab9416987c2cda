import Mathlib.Data.List.DropRight
import PullQuery.Item.Text
import PullQuery.Proofs.Arithmetic.Table
import PullQuery.Proofs.Calendar.Grammar

namespace PullQuery

open Arithmetic

theorem Text.head?_trim {cs : List Char} {c : Char} (h : cs.head? = some c)
    (hc : isBlank c = false) : (trim cs).head? = some c := by
  obtain ⟨ds, rfl⟩ := List.head?_eq_some_iff.1 h
  have hdrop : (c :: ds).dropWhile isBlank = c :: ds :=
    List.dropWhile_cons_of_neg (Bool.eq_false_iff.1 hc)
  have htrim : trim (c :: ds) = (c :: ds).rdropWhile isBlank := by
    unfold trim
    rw [hdrop]
    rfl
  have hne : (c :: ds).rdropWhile isBlank ≠ [] := fun hnil =>
    Bool.eq_false_iff.1 hc (List.rdropWhile_eq_nil_iff.1 hnil c List.mem_cons_self)
  rw [htrim, List.head?_eq_some_head hne, (List.rdropWhile_prefix isBlank (c :: ds)).head hne]
  rfl

namespace Calendar.Lexical

variable {α : Type} {read? : List Char → Option α}

theorem zoned?_of_plus {text : String}
    (plain : ∀ {cs : List Char} {v : α} (rest : List Char), read? cs = some v →
      (cs ++ rest).head? ≠ some '+')
    (h : text.toList.head? = some '+') : zoned? read? text = none := by
  apply Option.eq_none_iff_forall_not_mem.2
  rintro ⟨v, zone⟩ hv
  obtain ⟨body, z, ht, hbody, -⟩ := exists_of_zoned? hv
  apply plain z.chars hbody
  rw [← ht]
  exact Text.head?_trim h (by decide)

theorem isWritten_of_zoned? {text : String} {v : α} {zone : Option Zone}
    (h : zoned? read? text = some (v, zone)) : ∀ z, zone = some z → z.IsWritten := by
  rintro z rfl
  obtain ⟨-, w, -, -, hw⟩ := exists_of_zoned? h
  exact Zone.isWritten_of_spells hw

end Calendar.Lexical

open Calendar.Lexical

namespace Date

theorem head?_of_ofLexical? {cs : List Char} {d : Date} (rest : List Char)
    (h : ofLexical? cs = some d) : (cs ++ rest).head? ≠ some '+' := by
  intro hplus
  obtain ⟨w, rfl, -, -⟩ := ofLexical?_eq_some_iff.1 h
  obtain ⟨c, cs, hc⟩ : ∃ c cs, w.chars = c :: cs :=
    List.exists_cons_of_ne_nil (by simp [Spelling.chars])
  rw [hc] at hplus
  obtain rfl : c = '+' := Option.some.inj hplus
  have hmem : '+' ∈ w.chars := hc ▸ List.mem_cons_self
  obtain hd | hd := Spelling.isDigit_of_mem_chars hmem <;> cases hd

theorem head?_lexical {d : Date} (h : 9999 < d.year) (rest : List Char) :
    (d.lexical ++ rest).head? = some '+' := by
  have hn : ¬d.year < 0 := by omega
  unfold lexical Calendar.Lexical.year
  rw [if_neg hn, if_pos h]
  rfl

theorem reread (d : Date) {zone : Option Zone} (hz : ∀ z, zone = some z → z.IsWritten) :
    parse? (d.text zone) = if d.year ≤ 9999 then some (d, zone) else none := by
  split
  case isTrue h => exact parse?_text h hz
  case isFalse h =>
    apply zoned?_of_plus head?_of_ofLexical?
    unfold text zoned
    rw [String.toList_ofList]
    exact head?_lexical (Int.not_le.1 h) _

end Date

namespace DateTime

theorem head?_of_ofLexical? {cs : List Char} {p : DateTime} (rest : List Char)
    (h : ofLexical? cs = some p) : (cs ++ rest).head? ≠ some '+' := by
  obtain ⟨w, rfl, ⟨hd, -⟩, hshort⟩ := ofLexical?_eq_some_iff.1 h
  have hdate := Date.ofLexical?_eq_some_iff.2 ⟨w.date, rfl, hd, hshort⟩
  unfold Spelling.chars
  rw [List.append_assoc]
  exact Date.head?_of_ofLexical? _ hdate

theorem reread (p : DateTime) {zone : Option Zone} (hz : ∀ z, zone = some z → z.IsWritten) :
    parse? (p.text zone) = if p.date.year ≤ 9999 then some (p, zone) else none := by
  split
  case isTrue h => exact parse?_text h hz
  case isFalse h =>
    apply zoned?_of_plus head?_of_ofLexical?
    unfold text zoned lexical
    rw [String.toList_ofList, List.append_assoc]
    exact Date.head?_lexical (Int.not_le.1 h) _

end DateTime

inductive Shift (a b : Item) : Prop
  | after (op : AdditiveOp) (implicit : Zone) (duration : Item)
      (h : duration.type.isOffset = true) (hb : op.apply implicit a duration = .ok (some b))
  | before (implicit : Zone) (duration : Item)
      (h : duration.type.isOffset = true)
      (hb : AdditiveOp.apply .add implicit duration a = .ok (some b))

inductive Reached : Item → Prop
  | date {text : String} {d : Date} {zone : Option Zone}
      (h : Date.parse? text = some (d, zone)) : Reached (.date d zone)
  | time {text : String} {t : Clock} {zone : Option Zone}
      (h : Clock.parse? text = some (t, zone)) : Reached (.time t zone)
  | dateTime {text : String} {p : DateTime} {zone : Option Zone}
      (h : DateTime.parse? text = some (p, zone)) : Reached (.dateTime p zone)
  | shift {a b : Item} (ha : Reached a) (h : Shift a b) : Reached b

theorem row_point_offset (op : AdditiveOp) {l r t : ItemType} (hl : l.isPoint = true)
    (hr : r.isOffset = true) (ht : t ∈ op.row l r) : t = l := by
  revert t
  cases l <;> cases hl <;> cases r <;> cases hr <;> cases op <;> decide

theorem row_offset_point {l r t : ItemType} (hl : l.isOffset = true) (hr : r.isPoint = true)
    (ht : t ∈ AdditiveOp.row .add l r) : t = r := by
  revert t
  cases l <;> cases hl <;> cases r <;> cases hr <;> decide

theorem additive_ok {op : AdditiveOp} {implicit : Zone} {l r a : Item}
    (h : op.apply implicit l r = .ok (some a)) : a.type ∈ op.row l.type r.type ∧
      (a.type.isPoint = true → a.zone? = l.zone?.or r.zone?) := by
  cases hn : op.negatesFirst l r with
  | true =>
    rw [additive_negatesFirst implicit hn] at h
    cases h
  | false =>
    have hf := additive_follows op implicit l r hn
    rw [h] at hf
    exact hf

theorem zone?_eq_none {a : Item} (h : a.type.isOffset = true) : a.zone? = none := by
  cases a <;> first | rfl | cases h

theorem Shift.keeps {a b : Item} (h : Shift a b) (ha : a.type.isPoint = true) :
    b.type = a.type ∧ b.zone? = a.zone? := by
  cases h with
  | after op implicit duration hd hb =>
    obtain ⟨hrow, hzone⟩ := additive_ok hb
    have ht := row_point_offset op ha hd hrow
    refine ⟨ht, ?_⟩
    rw [hzone (ht ▸ ha), zone?_eq_none hd, Option.or_none]
  | before implicit duration hd hb =>
    obtain ⟨hrow, hzone⟩ := additive_ok hb
    have ht := row_offset_point hd ha hrow
    refine ⟨ht, ?_⟩
    rw [hzone (ht ▸ ha), zone?_eq_none hd]
    rfl

def Item.Rereadable (a : Item) : Prop :=
  a.type.isPoint = true ∧ ∀ z, a.zone? = some (some z) → z.IsWritten

theorem Reached.rereadable {a : Item} (h : Reached a) : a.Rereadable := by
  -- A zone that was read is written in full, and every shift after that keeps it.
  induction h with
  | date h => exact ⟨rfl, fun z hz => isWritten_of_zoned? h z (Option.some.inj hz)⟩
  | time h => exact ⟨rfl, fun z hz => isWritten_of_zoned? h z (Option.some.inj hz)⟩
  | dateTime h => exact ⟨rfl, fun z hz => isWritten_of_zoned? h z (Option.some.inj hz)⟩
  | shift _ h ih =>
    obtain ⟨ht, hz⟩ := h.keeps ih.1
    refine ⟨ht ▸ ih.1, ?_⟩
    rw [hz]
    exact ih.2

/-- Points that shifts reach are read back from their texts, value and zone, unless their year is
after 9999; then the text is refused. -/
theorem reached_points_reread {a : Item} (h : Reached a) :
    (∃ d zone, a = .date d zone ∧
      Date.parse? a.text = if d.year ≤ 9999 then some (d, zone) else none) ∨
    (∃ t zone, a = .time t zone ∧ Clock.parse? a.text = some (t, zone)) ∨
    ∃ p zone, a = .dateTime p zone ∧
      DateTime.parse? a.text = if p.date.year ≤ 9999 then some (p, zone) else none := by
  obtain ⟨hp, hz⟩ := h.rereadable
  cases a with
  | date d zone => exact .inl ⟨d, zone, rfl, d.reread fun z h => hz z (congrArg some h)⟩
  | time t zone =>
    exact .inr (.inl ⟨t, zone, rfl, Clock.parse?_text t fun z h => hz z (congrArg some h)⟩)
  | dateTime p zone =>
    exact .inr (.inr ⟨p, zone, rfl, p.reread fun z h => hz z (congrArg some h)⟩)
  | _ => cases hp

theorem reread_before_year_zero :
    let zone : Option Zone := some ⟨50400, by decide⟩
    let p : DateTime :=
      ⟨⟨-1, 12, 31, by decide, by decide, by decide⟩, ⟨0, 500_000_000, by decide, by decide⟩⟩
    Reached (.dateTime p zone) ∧ DateTime.parse? (p.text zone) = some (p, zone) := by
  intro zone p
  let leap : Clock := ⟨86399, 1_500_000_000, by decide, by decide⟩
  let first : DateTime := ⟨⟨1, 3, 31, by decide, by decide, by decide⟩, leap⟩
  let second : DateTime := ⟨⟨0, 2, 29, by decide, by decide, by decide⟩, leap⟩
  let days : Delta := ⟨61 * 86400 * 1_000_000_000, by decide⟩
  have hread : DateTime.parse? "0001-03-31T23:59:60.5+14:00" = some (first, zone) := by
    decide +kernel
  have hmonths : first.shift? (-13) .zero = some second := by decide +kernel
  have hdays : second.shift? 0 days.neg = some p := by decide +kernel
  have hfirst : Shift (.dateTime first zone) (.dateTime second zone) := by
    refine .after .subtract .utc (.yearMonthDuration 13) rfl ?_
    change (overflowing (first.shift? (-13) .zero)).map _ = _
    rw [hmonths]
    rfl
  have hsecond : Shift (.dateTime second zone) (.dateTime p zone) := by
    refine .after .subtract .utc (.dayTimeDuration days) rfl ?_
    change (overflowing (second.shift? 0 days.neg)).map _ = _
    rw [hdays]
    rfl
  have hp := ((Reached.dateTime hread).shift hfirst).shift hsecond
  obtain ⟨_, _, h, -⟩ | ⟨_, _, h, -⟩ | ⟨_, _, h, hr⟩ := reached_points_reread hp
  · cases h
  · cases h
  · cases h
    exact ⟨hp, hr⟩

theorem long_year_not_reread :
    let d : Date := ⟨10000, 1, 1, by decide, by decide, by decide⟩
    Reached (.date d none) ∧ Item.text (.date d none) = "+10000-01-01" ∧
      Date.parse? "+10000-01-01" = none := by
  intro d
  let last : Date := ⟨9999, 12, 31, by decide, by decide, by decide⟩
  let day : Delta := ⟨86400 * 1_000_000_000, by decide⟩
  have hread : Date.parse? "9999-12-31" = some (last, none) := by decide +kernel
  have hday : (DateTime.startOf last).shift? 0 day = some (DateTime.startOf d) := by
    decide +kernel
  have hshift : Shift (.date last none) (.date d none) := by
    refine .after .add .utc (.dayTimeDuration day) rfl ?_
    change (overflowing ((DateTime.startOf last).shift? 0 day)).map _ = _
    rw [hday]
    rfl
  exact ⟨(Reached.date hread).shift hshift, by decide +kernel, by decide +kernel⟩

end PullQuery
