import PullQuery.Proofs.Comparison.Keys

namespace PullQuery

namespace Item

inductive Identity
  | duration (d : Duration)
  | other (type : ItemType) (rank : WithBot (ℚ ⊕ₗ String))

def identity (z : Zone) (a : Item) : Identity :=
  match a.duration? with
  | some d => .duration d
  | none => .other a.type (a.rank z)

/-- Two exact numbers beside a floating-point number, where worth as doubles and exact worth do not
tell the same: those next to it in turn are the same key, and the two at the ends are not. -/
def Blurred (a b c : Item) : Prop :=
  (a.type.isDecimal = true ∧ b.type.isDecimal = false ∧ c.type.isDecimal = true ∧
      a.exactWorth? ≠ c.exactWorth?) ∨
    (a.type.isDecimal = true ∧ b.type.isDecimal = true ∧ c.type.isDecimal = false ∧
      a.doubleWorth? ≠ b.doubleWorth?) ∨
    (a.type.isDecimal = false ∧ b.type.isDecimal = true ∧ c.type.isDecimal = true ∧
      b.doubleWorth? ≠ c.doubleWorth?)

end Item

namespace Comparison

variable {z : Zone} {a b c : Item}

section Others

theorem identity_of_duration {d : Duration} (z : Zone) (h : a.duration? = some d) :
    a.identity z = .duration d := by
  rw [Item.identity, h]

theorem identity_of_no_duration (z : Zone) (h : a.duration? = none) :
    a.identity z = .other a.type (a.rank z) := by
  rw [Item.identity, h]

theorem duration?_eq_none (h : a.type.isDuration = false) : a.duration? = none := by
  cases a <;> first | rfl | cases h

theorem rank_inj {p q : ℚ} : (↑(toLex (Sum.inl p) : ℚ ⊕ₗ String) : WithBot (ℚ ⊕ₗ String)) =
    ↑(toLex (Sum.inl q) : ℚ ⊕ₗ String) ↔ p = q := by
  rw [WithBot.coe_inj, toLex_inj, Sum.inl.injEq]

theorem identity_eq_iff (z : Zone) (h : a.type = b.type) (hd : a.type ≠ .duration) :
    a.identity z = b.identity z ↔ a.rank z = b.rank z := by
  by_cases ht : a.type.isDuration = true
  · cases a with
    | yearMonthDuration m =>
      cases b with
      | yearMonthDuration n =>
        have hm : m.toInt = n.toInt ↔ m = n := Int32.toInt_inj
        have hi : Item.identity z (.yearMonthDuration m) = Item.identity z (.yearMonthDuration n) ↔
            m = n := by simp [Item.identity, Item.duration?, Duration.ofMonths]
        exact hi.trans (hm.symm.trans (Int.cast_inj.symm.trans rank_inj.symm))
      | _ => cases h
    | dayTimeDuration d =>
      cases b with
      | dayTimeDuration e =>
        have hn : d.nanos = e.nanos ↔ d = e := Iff.of_eq (Delta.mk.injEq ..).symm
        have hi : Item.identity z (.dayTimeDuration d) = Item.identity z (.dayTimeDuration e) ↔
            d = e := by simp [Item.identity, Item.duration?, Duration.ofDelta]
        exact hi.trans (hn.symm.trans (Int.cast_inj.symm.trans rank_inj.symm))
      | _ => cases h
    | duration d => exact absurd rfl hd
    | _ => cases ht
  · rw [identity_of_no_duration z (duration?_eq_none (by simpa using ht)),
      identity_of_no_duration z (duration?_eq_none (by rw [← h]; simpa using ht)),
      Item.Identity.other.injEq]
    exact and_iff_right h

theorem type_eq_of_identity_eq (hd : a.duration? = none) (h : a.identity z = b.identity z) :
    a.type = b.type := by
  rw [identity_of_no_duration z hd] at h
  cases hb : b.duration? with
  | none =>
    rw [identity_of_no_duration z hb] at h
    exact (Item.Identity.other.inj h).1
  | some d =>
    rw [identity_of_duration z hb] at h
    cases h

theorem sameKey_of_ordered {x y : WithBot (ℚ ⊕ₗ String)}
    (h : relate z a b = some (.ordered (compare x y))) : sameKey z a b = true ↔ x = y := by
  rw [sameKey, h]
  exact beq_iff_eq.trans compare_eq_iff_eq

theorem exists_duration (h : a.type = .duration) : ∃ d, a.duration? = some d := by
  cases a with
  | duration d => exact ⟨d, rfl⟩
  | _ => cases h

theorem sameKey_of_not_isNumeric (z : Zone) (ha : a.isAtomic = true) (hb : b.isAtomic = true)
    (hn : (a.isNumeric && b.isNumeric) = false) :
    sameKey z a b = true ↔ a.identity z = b.identity z := by
  by_cases ht : a.type = b.type ∧ a.type ≠ .duration
  · have hna : a.isNumeric = false := by
      rw [Item.isNumeric, Item.isNumeric, ← ht.1, Bool.and_self] at hn
      exact hn
    rw [sameKey_of_ordered (relate_of_type z (isOrdered_of_isNumeric ha hna ht.2) ht.1)]
    exact (identity_eq_iff z ht.1 ht.2).symm
  have hne : a.type ≠ b.type ∨ a.type = .duration := by
    rw [not_and_or, not_not] at ht
    exact ht
  by_cases hta : a.type = .null
  · obtain rfl := eq_null_of_type hta
    have htb : b.type ≠ .null := Ne.symm (hne.resolve_right (by decide))
    rw [sameKey_of_ordered (relate_null_left z hb htb)]
    exact iff_of_false (rank_null_lt z htb).ne fun h => htb (type_eq_of_identity_eq rfl h).symm
  by_cases htb : b.type = .null
  · obtain rfl := eq_null_of_type htb
    rw [sameKey_of_ordered (relate_null_right z ha hta)]
    exact iff_of_false (rank_null_lt z hta).ne' fun h =>
      hta (type_eq_of_identity_eq rfl h.symm).symm
  rw [sameKey, relate_of_type_ne z ha hb hn hta htb hne]
  obtain ⟨hr, hd⟩ | ⟨d, e, hd, he, hr⟩ := relateDurations_cases a b
  · rw [hr]
    refine iff_of_false Bool.false_ne_true fun h => ?_
    have heq : a.type = b.type := by
      obtain hd | hd := hd
      · exact type_eq_of_identity_eq hd h
      · exact (type_eq_of_identity_eq hd h.symm).symm
    have htd : a.type = .duration := hne.resolve_left (· heq)
    obtain ⟨d, hda⟩ := exists_duration htd
    obtain ⟨e, hdb⟩ := exists_duration (heq.symm.trans htd)
    simp [hda, hdb] at hd
  · rw [hr, identity_of_duration z hd, identity_of_duration z he, Item.Identity.duration.injEq]
    exact beq_iff_eq

end Others

section Numbers

theorem exists_double (h : a.isNumeric = true) : ∃ x, a.double? = some x ∧
    a.doubleWorth? = some (Binary.ofDouble x).value ∧ isNaN a = (Binary.ofDouble x).isNaN := by
  obtain ⟨x, hx⟩ : ∃ x, a.double? = some x := by cases a <;> first | exact ⟨_, rfl⟩ | cases h
  exact ⟨x, hx, by rw [Item.doubleWorth?, hx, Option.map_some], by rw [isNaN, hx]⟩

theorem relate_of_isNumeric (z : Zone) (ha : a.isNumeric = true) (hb : b.isNumeric = true) :
    relate z a b = relateNumbers a b := by
  have hn : (a.isNumeric && b.isNumeric) = true := by rw [ha, hb, Bool.and_self]
  unfold relate
  rw [isAtomic_of_isNumeric ha, isAtomic_of_isNumeric hb, if_neg (by decide)]
  split
  · cases ha
  · cases ha
  · cases hb
  · unfold relateAtomics
    exact if_pos hn

theorem decimal?_eq_none (h : a.type.isDecimal = false) : a.decimal? = none := by
  cases a <;> first | rfl | cases h

theorem relateNumbers_of_floating {x y : Float} (hx : a.double? = some x) (hy : b.double? = some y)
    (h : (a.type.isDecimal && b.type.isDecimal) = false) :
    relateNumbers a b = some (ofBinaries (.ofDouble x) (.ofDouble y)) := by
  have hd : a.decimal? = none ∨ b.decimal? = none :=
    (Bool.and_eq_false_iff.1 h).imp decimal?_eq_none decimal?_eq_none
  unfold relateNumbers
  split
  case h_1 => cases h
  case h_2 =>
    split
    case h_1 ha hb => simp [ha, hb] at hd
    case h_2 =>
      rw [hx, hy]
      rfl

theorem value_eq_bot_iff (b : Binary) : b.value = ⊥ ↔ b.isNaN = true := by
  cases b with
  | nan => exact iff_of_true rfl rfl
  | infinite negative => cases negative <;> exact ⟨nofun, nofun⟩
  | finite negative m e => exact ⟨nofun, nofun⟩

theorem ofBinaries_of_isNaN {u v : Binary} (h : u.isNaN = true ∨ v.isNaN = true) :
    ofBinaries u v = .unordered := by
  cases u with
  | nan => cases v <;> rfl
  | _ =>
    cases v with
    | nan => rfl
    | _ => simp [Binary.isNaN] at h

theorem ofBinaries_of_not_isNaN {u v : Binary} (hu : u.isNaN = false) (hv : v.isNaN = false) :
    ofBinaries u v = .ordered (compare u.value v.value) := by
  have hu' : u ≠ .nan := by
    rintro rfl
    cases hu
  have hv' : v ≠ .nan := by
    rintro rfl
    cases hv
  rw [ofBinaries, Binary.compare?_eq_compare_value hu' hv']

theorem sameKey_of_isDecimal (z : Zone) (ha : a.type.isDecimal = true)
    (hb : b.type.isDecimal = true) : sameKey z a b = true ↔ a.exactWorth? = b.exactWorth? := by
  obtain ⟨d, hd, hda⟩ := exists_decimal z ha
  obtain ⟨e, he, heb⟩ := exists_decimal z hb
  rw [sameKey_of_ordered (relate_of_isDecimal z ha hb), hda, heb, rank_inj, Item.exactWorth?,
    Item.exactWorth?, hd, he, Option.map_some, Option.map_some, Option.some_inj]

theorem sameKey_of_floating (z : Zone) (ha : a.isNumeric = true) (hb : b.isNumeric = true)
    (h : (a.type.isDecimal && b.type.isDecimal) = false) :
    sameKey z a b = true ↔ a.doubleWorth? = b.doubleWorth? := by
  obtain ⟨x, hx, hwx, hnx⟩ := exists_double ha
  obtain ⟨y, hy, hwy, hny⟩ := exists_double hb
  rw [sameKey, relate_of_isNumeric z ha hb, relateNumbers_of_floating hx hy h, hwx, hwy,
    Option.some_inj, hnx, hny]
  generalize Binary.ofDouble x = u, Binary.ofDouble y = v
  by_cases hn : u.isNaN = true ∨ v.isNaN = true
  · rw [ofBinaries_of_isNaN hn]
    change (u.isNaN && v.isNaN) = true ↔ _
    obtain hu | hv := hn
    · rw [hu, Bool.true_and, (value_eq_bot_iff u).2 hu, ← value_eq_bot_iff v]
      exact eq_comm
    · rw [hv, Bool.and_true, (value_eq_bot_iff v).2 hv, ← value_eq_bot_iff u]
  · obtain ⟨hu, hv⟩ := not_or.1 hn
    rw [ofBinaries_of_not_isNaN (Bool.eq_false_iff.2 hu) (Bool.eq_false_iff.2 hv)]
    exact beq_iff_eq.trans compare_eq_iff_eq

end Numbers

section Classes

theorem isNumeric_of_type_isDecimal (h : a.type.isDecimal = true) : a.isNumeric = true := by
  rw [Item.isNumeric, ItemType.isNumeric, h]
  rfl

theorem isAtomic_of_sameKey (h : sameKey z a b = true) : a.isAtomic = true ∧ b.isAtomic = true := by
  by_contra hn
  rw [sameKey, relate_of_not_isAtomic z hn] at h
  cases h

theorem isNumeric_of_identity_eq (h : a.identity z = b.identity z) (ha : a.isNumeric = true) :
    b.isNumeric = true := by
  have hd : a.duration? = none := by
    cases a <;> first | rfl | cases ha
  rw [Item.isNumeric, ← type_eq_of_identity_eq hd h]
  exact ha

theorem sameKey_iff : sameKey z a b = true ↔ a.isAtomic = true ∧ b.isAtomic = true ∧
    if (a.isNumeric && b.isNumeric) = true then
      if (a.type.isDecimal && b.type.isDecimal) = true then a.exactWorth? = b.exactWorth?
      else a.doubleWorth? = b.doubleWorth?
    else a.identity z = b.identity z := by
  by_cases hat : a.isAtomic = true ∧ b.isAtomic = true
  · rw [← and_assoc, and_iff_right hat]
    split
    case isTrue hn =>
      obtain ⟨ha, hb⟩ := Bool.and_eq_true_iff.1 hn
      split
      case isTrue hd =>
        obtain ⟨hda, hdb⟩ := Bool.and_eq_true_iff.1 hd
        exact sameKey_of_isDecimal z hda hdb
      case isFalse hd => exact sameKey_of_floating z ha hb (Bool.eq_false_iff.2 hd)
    case isFalse hn => exact sameKey_of_not_isNumeric z hat.1 hat.2 (Bool.eq_false_iff.2 hn)
  · exact iff_of_false (fun h => hat (isAtomic_of_sameKey h)) fun h => hat ⟨h.1, h.2.1⟩

theorem sameKey_self (z : Zone) (a : Item) : sameKey z a a = a.isAtomic := by
  refine Bool.eq_iff_iff.2 ⟨fun h => (isAtomic_of_sameKey h).1, fun ha => ?_⟩
  refine sameKey_iff.2 ⟨ha, ha, ?_⟩
  split
  · split <;> rfl
  · rfl

theorem sameKey_comm (z : Zone) (a b : Item) : sameKey z a b = sameKey z b a := by
  rw [Bool.eq_iff_iff, sameKey_iff, sameKey_iff, and_left_comm, Bool.and_comm a.isNumeric,
    Bool.and_comm a.type.isDecimal, @eq_comm _ a.exactWorth?, @eq_comm _ a.doubleWorth?,
    @eq_comm _ (a.identity z)]

theorem isNumeric_of_sameKey (h : sameKey z a b = true) : a.isNumeric = b.isNumeric := by
  obtain ⟨-, -, h⟩ := sameKey_iff.1 h
  split at h
  case isTrue hn =>
    obtain ⟨ha, hb⟩ := Bool.and_eq_true_iff.1 hn
    rw [ha, hb]
  case isFalse =>
    exact Bool.eq_iff_iff.2 ⟨isNumeric_of_identity_eq h, isNumeric_of_identity_eq h.symm⟩

theorem not_blurred (h : a.isNumeric = false) (hb : b.isNumeric = false) : ¬a.Blurred b c := by
  have floating {a : Item} (h : a.isNumeric = false) : a.type.isDecimal = false :=
    Bool.eq_false_iff.2 fun hd => by rw [isNumeric_of_type_isDecimal hd] at h; cases h
  rw [Item.Blurred, floating h, floating hb]
  simp

theorem sameKey_eq_false_iff (hab : sameKey z a b = true) (hbc : sameKey z b c = true) :
    sameKey z a c = false ↔ a.Blurred b c := by
  have hnab := isNumeric_of_sameKey hab
  have hnbc := isNumeric_of_sameKey hbc
  rw [← Bool.not_eq_true, sameKey_iff]
  rw [sameKey_iff] at hab hbc
  cases hn : b.isNumeric with
  | false =>
    rw [hn] at hnab hnbc
    refine iff_of_false (fun h => h ⟨hab.1, hbc.2.1, ?_⟩) (not_blurred hnab hn)
    simp only [hnab, hn, ← hnbc, Bool.and_self, Bool.false_eq_true, if_false] at hab hbc ⊢
    exact hab.2.2.trans hbc.2.2
  | true =>
    simp only [hnab, hn, ← hnbc, Bool.and_self, if_true] at hab hbc ⊢
    unfold Item.Blurred
    grind

end Classes

end Comparison

end PullQuery
