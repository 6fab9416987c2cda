import Mathlib.Data.Sum.Order
import Mathlib.Data.String.Basic
import Mathlib.Order.WithBot
import PullQuery.Proofs.Arithmetic.Points
import PullQuery.Proofs.Number.Value

namespace PullQuery

namespace Instant

def place (i : Instant) : Int :=
  (i.day * 86400 + i.time.second) * 2_000_000_000 + i.time.nanos

theorem place_lt_iff {i j : Instant} : i.place < j.place ↔ i.Before j := by
  have hi := i.time.nanos_lt
  have hj := j.time.nanos_lt
  have hs := i.time.second_lt
  have ht := j.time.second_lt
  unfold Clock.span at hi hj
  unfold place Before
  split at hi <;> split at hj <;> omega

theorem compare_eq_compare_place (i j : Instant) :
    i.compare j = Ord.compare i.place j.place := by
  cases h : i.compare j with
  | lt => exact (compare_lt_iff_lt.2 (place_lt_iff.2 (compare_eq_lt_iff.1 h))).symm
  | eq => exact (compare_eq_iff_eq.2 (congrArg place (compare_eq_eq_iff.1 h))).symm
  | gt => exact (compare_gt_iff_gt.2 (place_lt_iff.2 (compare_eq_gt_iff.1 h))).symm

end Instant

namespace Item

def IsOrdered (a : Item) : Prop :=
  a.isAtomic = true ∧ a.type ≠ .double ∧ a.type ≠ .float ∧ a.type ≠ .duration

def ComparesWith (a b : Item) : Prop :=
  a.type = .null ∨ b.type = .null ∨ (a.type.isDecimal = true ∧ b.type.isDecimal = true) ∨
    a.type = b.type

def magnitude (z : Zone) : Item → ℚ
  | .boolean b => (b.toNat : Int)
  | .int i => i.toInt
  | .integer n => n
  | .decimal d => d.value
  | .yearMonthDuration m => m.toInt
  | .dayTimeDuration d => d.nanos
  | a => (Arithmetic.instant? z a).elim 0 fun i => i.place

/-- Null is below everything; strings have an order of their own. -/
def rank (z : Zone) : Item → WithBot (ℚ ⊕ₗ String)
  | .null => ⊥
  | .string s => ↑(toLex (Sum.inr s) : ℚ ⊕ₗ String)
  | a => ↑(toLex (Sum.inl (a.magnitude z)) : ℚ ⊕ₗ String)

variable {z : Zone} {a b c : Item}

theorem comparesWith_comm (h : a.ComparesWith b) : b.ComparesWith a := by
  unfold ComparesWith at h ⊢
  tauto

end Item

namespace Comparison

variable {z : Zone} {a b : Item}

theorem compare_inl (p q : ℚ) :
    compare (↑(toLex (Sum.inl p) : ℚ ⊕ₗ String) : WithBot (ℚ ⊕ₗ String))
      ↑(toLex (Sum.inl q) : ℚ ⊕ₗ String) = compare p q := by
  rw [← cmp_eq_compare, ← cmp_eq_compare]
  exact (WithBot.coe_strictMono.cmp_map_eq _ _).trans (Sum.Lex.inl_strictMono.cmp_map_eq p q)

theorem compare_inr (s t : String) :
    compare (↑(toLex (Sum.inr s) : ℚ ⊕ₗ String) : WithBot (ℚ ⊕ₗ String))
      ↑(toLex (Sum.inr t) : ℚ ⊕ₗ String) = compare s t := by
  rw [← cmp_eq_compare, ← cmp_eq_compare]
  exact (WithBot.coe_strictMono.cmp_map_eq _ _).trans (Sum.Lex.inr_strictMono.cmp_map_eq s t)

theorem compare_cast (m n : Int) : compare (m : ℚ) n = compare m n := by
  rw [← cmp_eq_compare, ← cmp_eq_compare]
  exact Int.cast_strictMono.cmp_map_eq m n

theorem exists_decimal (z : Zone) (h : a.type.isDecimal = true) : ∃ d, a.decimal? = some d ∧
    a.rank z = ↑(toLex (Sum.inl d.value) : ℚ ⊕ₗ String) := by
  cases a with
  | int i => exact ⟨_, rfl, by simp [Item.rank, Item.magnitude]⟩
  | integer n => exact ⟨_, rfl, by simp [Item.rank, Item.magnitude]⟩
  | decimal d => exact ⟨d, rfl, rfl⟩
  | _ => cases h

theorem relateNumbers_of_decimal {d e : Decimal} (ha : a.decimal? = some d)
    (hb : b.decimal? = some e) :
    relateNumbers a b = some (.ordered (compare d.value e.value)) := by
  unfold relateNumbers
  split
  case h_1 i j =>
    cases ha
    cases hb
    rw [Decimal.value_ofInt, Decimal.value_ofInt, compare_cast]
  case h_2 =>
    rw [ha, hb, ← Decimal.compare_eq_compare_value]

theorem relate_of_isDecimal (z : Zone) (ha : a.type.isDecimal = true)
    (hb : b.type.isDecimal = true) :
    relate z a b = some (.ordered (compare (a.rank z) (b.rank z))) := by
  have hr : relate z a b = relateNumbers a b := by
    cases a with
    | int i => cases b <;> first | rfl | cases hb
    | integer n => cases b <;> first | rfl | cases hb
    | decimal d => cases b <;> first | rfl | cases hb
    | _ => cases ha
  obtain ⟨d, hd, har⟩ := exists_decimal z ha
  obtain ⟨e, he, hbr⟩ := exists_decimal z hb
  rw [hr, relateNumbers_of_decimal hd he, har, hbr, compare_inl]

theorem relate_of_type (z : Zone) (ha : a.IsOrdered) (h : a.type = b.type) :
    relate z a b = some (.ordered (compare (a.rank z) (b.rank z))) := by
  have points {i j : Instant} (hi : Arithmetic.instant? z a = some i)
      (hj : Arithmetic.instant? z b = some j)
      (har : a.rank z = ↑(toLex (Sum.inl (i.place : ℚ)) : ℚ ⊕ₗ String))
      (hbr : b.rank z = ↑(toLex (Sum.inl (j.place : ℚ)) : ℚ ⊕ₗ String)) :
      relate z a b = some (.ordered (compare (a.rank z) (b.rank z))) := by
    rw [relate_points hi hj h, har, hbr, compare_inl, compare_cast,
      Instant.compare_eq_compare_place]
  have magnitudes (m n : Int) (har : a.rank z = ↑(toLex (Sum.inl (m : ℚ)) : ℚ ⊕ₗ String))
      (hbr : b.rank z = ↑(toLex (Sum.inl (n : ℚ)) : ℚ ⊕ₗ String)) :
      compare m n = compare (a.rank z) (b.rank z) := by
    rw [har, hbr, compare_inl, compare_cast]
  cases a with
  | null => cases b with
    | null => exact congrArg (some <| Outcome.ordered ·) (compare_eq_iff_eq.2 rfl).symm
    | _ => cases h
  | boolean x => cases b with
    | boolean y =>
      have hc : compare x.toNat y.toNat = compare (x.toNat : Int) y.toNat := by
        rw [← cmp_eq_compare, ← cmp_eq_compare]
        exact (Nat.strictMono_cast.cmp_map_eq _ _).symm
      exact congrArg (some <| Outcome.ordered ·) (hc.trans (magnitudes _ _ rfl rfl))
    | _ => cases h
  | string s => cases b with
    | string t => exact congrArg (some <| Outcome.ordered ·) (compare_inr s t).symm
    | _ => cases h
  | int i => exact relate_of_isDecimal z rfl (h ▸ rfl)
  | integer n => exact relate_of_isDecimal z rfl (h ▸ rfl)
  | decimal d => exact relate_of_isDecimal z rfl (h ▸ rfl)
  | date d zone => cases b with
    | date e zone => exact points rfl rfl rfl rfl
    | _ => cases h
  | time t zone => cases b with
    | time u zone => exact points rfl rfl rfl rfl
    | _ => cases h
  | dateTime p zone => cases b with
    | dateTime q zone => exact points rfl rfl rfl rfl
    | _ => cases h
  | yearMonthDuration m => cases b with
    | yearMonthDuration n => exact congrArg (some <| Outcome.ordered ·) (magnitudes _ _ rfl rfl)
    | _ => cases h
  | dayTimeDuration d => cases b with
    | dayTimeDuration e => exact congrArg (some <| Outcome.ordered ·) (magnitudes _ _ rfl rfl)
    | _ => cases h
  | double x => exact absurd rfl ha.2.1
  | float x => exact absurd rfl ha.2.2.1
  | duration d => exact absurd rfl ha.2.2.2
  | object fs => cases ha.1
  | array ms => cases ha.1

theorem eq_null_of_type (h : a.type = .null) : a = .null := by
  cases a <;> first | rfl | cases h

theorem rank_null_lt (z : Zone) (h : a.type ≠ .null) : Item.rank z .null < a.rank z := by
  cases a with
  | null => exact absurd rfl h
  | _ => exact WithBot.bot_lt_coe _

theorem relate_null_left (z : Zone) (h : a.isAtomic = true) (hn : a.type ≠ .null) :
    relate z .null a = some (.ordered (compare (Item.rank z .null) (a.rank z))) := by
  rw [compare_lt_iff_lt.2 (rank_null_lt z hn)]
  cases a <;> first | rfl | exact absurd rfl hn | cases h

theorem relate_null_right (z : Zone) (h : a.isAtomic = true) (hn : a.type ≠ .null) :
    relate z a .null = some (.ordered (compare (a.rank z) (Item.rank z .null))) := by
  rw [compare_gt_iff_gt.2 (rank_null_lt z hn)]
  cases a <;> first | rfl | exact absurd rfl hn | cases h

theorem relate_of_comparesWith (z : Zone) (ha : a.IsOrdered) (hb : b.IsOrdered)
    (h : a.ComparesWith b) : relate z a b = some (.ordered (compare (a.rank z) (b.rank z))) := by
  by_cases ht : a.type = b.type
  · exact relate_of_type z ha ht
  · obtain hn | hn | ⟨hda, hdb⟩ | h := h
    · obtain rfl := eq_null_of_type hn
      exact relate_null_left z hb.1 (Ne.symm ht)
    · obtain rfl := eq_null_of_type hn
      exact relate_null_right z ha.1 ht
    · exact relate_of_isDecimal z hda hdb
    · exact absurd h ht

theorem isDecimal_of_isNumeric (ha : a.IsOrdered) (h : a.isNumeric = true) :
    a.type.isDecimal = true := by
  have hn : (a.type.isDecimal || a.type == .double || a.type == .float) = true := h
  simpa [ha.2.1, ha.2.2.1] using hn

theorem relate_of_type_ne (z : Zone) (hat : a.isAtomic = true) (hbt : b.isAtomic = true)
    (hn : (a.isNumeric && b.isNumeric) = false) (ha : a.type ≠ .null) (hb : b.type ≠ .null)
    (ht : a.type ≠ b.type ∨ a.type = .duration) : relate z a b = relateDurations a b := by
  have ne (h : a.type = b.type) (hd : a.type ≠ .duration) : False := ht.elim (· h) (hd ·)
  have instants (hp : a.type.isPoint = true) : compareInstants? z a b = relateDurations a b := by
    have hd : a.type ≠ .duration := fun h => by rw [h] at hp; cases hp
    have hr : relateDurations a b = none := by
      cases a <;> first | rfl | cases hp
    rw [hr]
    unfold compareInstants?
    cases Arithmetic.instant? z a <;> cases Arithmetic.instant? z b <;>
      simp [ht.resolve_right hd]
  unfold relate
  rw [hat, hbt, if_neg (by decide)]
  split
  · exact absurd rfl ha
  · exact absurd rfl ha
  · exact absurd rfl hb
  · unfold relateAtomics
    rw [hn, if_neg Bool.false_ne_true]
    split
    · exact (ne rfl nofun).elim
    · exact (ne rfl nofun).elim
    · exact (ne rfl nofun).elim
    · exact (ne rfl nofun).elim
    · split
      case isTrue hp => exact instants hp
      case isFalse => rfl

theorem relateDurations_cases (a b : Item) : (relateDurations a b = none ∧
    (a.duration? = none ∨ b.duration? = none)) ∨ ∃ d e, a.duration? = some d ∧
      b.duration? = some e ∧ relateDurations a b = some (.equality (d == e)) := by
  unfold relateDurations
  cases a.duration? <;> cases b.duration? <;> simp

theorem relate_of_not_comparesWith (z : Zone) (ha : a.IsOrdered) (hb : b.IsOrdered)
    (h : ¬a.ComparesWith b) : relate z a b = none ∨ ∃ e, relate z a b = some (.equality e) := by
  have hn : (a.isNumeric && b.isNumeric) = false := by
    by_contra hn
    obtain ⟨hna, hnb⟩ := Bool.and_eq_true_iff.1 (by simpa using hn)
    exact h (.inr (.inr (.inl ⟨isDecimal_of_isNumeric ha hna, isDecimal_of_isNumeric hb hnb⟩)))
  rw [relate_of_type_ne z ha.1 hb.1 hn (fun hn => h (.inl hn)) (fun hn => h (.inr (.inl hn)))
    (.inl fun ht => h (.inr (.inr (.inr ht))))]
  obtain ⟨hr, -⟩ | ⟨d, e, -, -, hr⟩ := relateDurations_cases a b
  · exact .inl hr
  · exact .inr ⟨_, hr⟩

theorem place_eq_none (ha : a.IsOrdered) (h : a.type.isDecimal = false) : Place.of? a = none := by
  cases a with
  | int i => cases h
  | integer n => cases h
  | decimal d => cases h
  | double x => exact absurd rfl ha.2.1
  | float x => exact absurd rfl ha.2.2.1
  | _ => rfl

theorem order_of_comparesWith (z : Zone) (ha : a.IsOrdered) (hb : b.IsOrdered)
    (h : a.ComparesWith b) : order z a b = .ok (compare (a.rank z) (b.rank z)) := by
  have hr := relate_of_comparesWith z ha hb h
  unfold order
  by_cases hda : a.type.isDecimal = true
  · obtain ⟨d, hd, har⟩ := exists_decimal z hda
    have hpa : Place.of? a = some (.finite d) := by rw [Place.of?, hd]
    by_cases hdb : b.type.isDecimal = true
    · obtain ⟨e, he, hbr⟩ := exists_decimal z hdb
      have hpb : Place.of? b = some (.finite e) := by rw [Place.of?, he]
      rw [har, hbr, compare_inl, ← Decimal.compare_eq_compare_value, hpa, hpb]
      rfl
    · rw [hpa, place_eq_none hb (by simpa using hdb), hr]
  · rw [place_eq_none ha (by simpa using hda), hr]

theorem sameKey_of_comparesWith (z : Zone) (ha : a.IsOrdered) (hb : b.IsOrdered)
    (h : a.ComparesWith b) : sameKey z a b = (compare (a.rank z) (b.rank z) == .eq) := by
  unfold sameKey
  rw [relate_of_comparesWith z ha hb h]

end Comparison

open Comparison

section

variable {z : Zone} {a b c : Item}

theorem ComparisonOp.apply_of_comparesWith (op : ComparisonOp) (z : Zone) (ha : a.IsOrdered)
    (hb : b.IsOrdered) (h : a.ComparesWith b) :
    op.apply z a b = .ok (op.holds (compare (a.rank z) (b.rank z))) := by
  unfold ComparisonOp.apply
  rw [relate_of_comparesWith z ha hb h]

theorem ComparisonOp.lt_defined_iff (z : Zone) (ha : a.IsOrdered) (hb : b.IsOrdered) :
    (∃ r, ComparisonOp.apply .lt z a b = .ok r) ↔ a.ComparesWith b := by
  constructor
  · rintro ⟨r, hr⟩
    by_contra h
    unfold ComparisonOp.apply at hr
    obtain hn | ⟨e, he⟩ := relate_of_not_comparesWith z ha hb h
    · rw [hn] at hr
      cases hr
    · rw [he] at hr
      cases hr
  · intro h
    exact ⟨_, ComparisonOp.apply_of_comparesWith .lt z ha hb h⟩

theorem ComparisonOp.holds_swap (op : ComparisonOp) (o : Ordering) :
    op.swap.holds o.swap = op.holds o := by
  cases op <;> cases o <;> rfl

theorem ComparisonOp.lt_iff (z : Zone) (ha : a.IsOrdered) (hb : b.IsOrdered) :
    ComparisonOp.apply .lt z a b = .ok true ↔ a.ComparesWith b ∧ a.rank z < b.rank z := by
  constructor
  · intro h
    have hc := (ComparisonOp.lt_defined_iff z ha hb).1 ⟨_, h⟩
    rw [ComparisonOp.apply_of_comparesWith .lt z ha hb hc] at h
    exact ⟨hc, compare_lt_iff_lt.1 (eq_of_beq (Except.ok.inj h))⟩
  · rintro ⟨hc, hlt⟩
    rw [ComparisonOp.apply_of_comparesWith .lt z ha hb hc, compare_lt_iff_lt.2 hlt]
    rfl

theorem Item.ComparesWith.trans (hab : a.ComparesWith b) (hbc : b.ComparesWith c)
    (hb : b.type ≠ .null) : a.ComparesWith c := by
  unfold Item.ComparesWith at hab hbc ⊢
  grind

theorem Item.ComparesWith.trans_of_rank_eq (hab : a.ComparesWith b) (hbc : b.ComparesWith c)
    (h : a.rank z = b.rank z) : a.ComparesWith c := by
  by_cases hb : b.type = .null
  · obtain rfl := eq_null_of_type hb
    left
    by_contra ha
    exact absurd h.symm (rank_null_lt z ha).ne
  · exact hab.trans hbc hb

theorem Item.type_ne_null_of_lt (h : a.rank z < b.rank z) : b.type ≠ .null := by
  intro hb
  obtain rfl := eq_null_of_type hb
  exact not_lt_bot h

theorem ComparisonOp.eq_iff (z : Zone) (ha : a.IsOrdered) (hb : b.IsOrdered)
    (h : a.ComparesWith b) : ComparisonOp.apply .eq z a b = .ok true ↔ a.rank z = b.rank z := by
  rw [ComparisonOp.apply_of_comparesWith .eq z ha hb h, Except.ok.injEq,
    ← compare_eq_iff_eq (a := a.rank z)]
  exact beq_iff_eq

theorem ComparisonOp.apply_swap (op : ComparisonOp) (z : Zone) (ha : a.IsOrdered)
    (hb : b.IsOrdered) (h : a.ComparesWith b) : op.swap.apply z b a = op.apply z a b := by
  have hswap : compare (b.rank z) (a.rank z) = (compare (a.rank z) (b.rank z)).swap := by
    rw [← cmp_eq_compare, ← cmp_eq_compare, cmp_swap]
  rw [ComparisonOp.apply_of_comparesWith _ z hb ha (Item.comparesWith_comm h),
    ComparisonOp.apply_of_comparesWith _ z ha hb h, hswap, ComparisonOp.holds_swap]

/-- Where `lt` of two items is defined one outcome answers all six operators, both ways round, and
is that of sorting keys and of grouping keys; `lt` and `eq` are transitive. -/
theorem comparisons_order_items (z : Zone) {a b c : Item} (ha : a.IsOrdered) (hb : b.IsOrdered)
    (hc : c.IsOrdered) :
    ((∃ r, ComparisonOp.apply .lt z a b = .ok r) ↔ a.ComparesWith b) ∧
    (a.ComparesWith b → ∃ o : Ordering,
      ComparisonOp.apply .lt z a b = .ok (o == .lt) ∧
      ComparisonOp.apply .eq z a b = .ok (o == .eq) ∧
      ComparisonOp.apply .gt z a b = .ok (o == .gt) ∧
      ComparisonOp.apply .ne z a b = .ok (!(o == .eq)) ∧
      ComparisonOp.apply .le z a b = .ok (o == .lt || o == .eq) ∧
      ComparisonOp.apply .ge z a b = .ok (o == .gt || o == .eq) ∧
      (∀ op : ComparisonOp, op.swap.apply z b a = op.apply z a b) ∧
      Comparison.order z a b = .ok o ∧
      Comparison.sameKey z a b = (o == .eq)) ∧
    (ComparisonOp.apply .lt z a b = .ok true → ComparisonOp.apply .lt z b c = .ok true →
      ComparisonOp.apply .lt z a c = .ok true) ∧
    (a.ComparesWith b → b.ComparesWith c → ComparisonOp.apply .eq z a b = .ok true →
      ComparisonOp.apply .eq z b c = .ok true → ComparisonOp.apply .eq z a c = .ok true) := by
  refine ⟨ComparisonOp.lt_defined_iff z ha hb, fun h => ?_, fun hab hbc => ?_,
    fun hab hbc heq heq' => ?_⟩
  · have answers (op : ComparisonOp) := op.apply_of_comparesWith z ha hb h
    refine ⟨compare (a.rank z) (b.rank z), answers .lt, answers .eq, answers .gt, answers .ne,
      (answers .le).trans ?_, (answers .ge).trans ?_, fun op => op.apply_swap z ha hb h,
      order_of_comparesWith z ha hb h, sameKey_of_comparesWith z ha hb h⟩
    · cases compare (a.rank z) (b.rank z) <;> rfl
    · cases compare (a.rank z) (b.rank z) <;> rfl
  · obtain ⟨hab, hlt⟩ := (ComparisonOp.lt_iff z ha hb).1 hab
    obtain ⟨hbc, hlt'⟩ := (ComparisonOp.lt_iff z hb hc).1 hbc
    exact (ComparisonOp.lt_iff z ha hc).2
      ⟨hab.trans hbc (Item.type_ne_null_of_lt hlt), hlt.trans hlt'⟩
  · have heq := (ComparisonOp.eq_iff z ha hb hab).1 heq
    have heq' := (ComparisonOp.eq_iff z hb hc hbc).1 heq'
    exact (ComparisonOp.eq_iff z ha hc (hab.trans_of_rank_eq hbc heq)).2 (heq.trans heq')

theorem lt_decimal_integer_decimal :
    ComparisonOp.apply .lt .utc (.decimal ⟨15, 1⟩) (.decimal ⟨250, 2⟩) = .ok true := by
  have ordered (d : Decimal) : (Item.decimal d).IsOrdered :=
    ⟨rfl, nofun, nofun, nofun⟩
  exact (comparisons_order_items .utc (ordered ⟨15, 1⟩) (b := .integer 2)
    ⟨rfl, nofun, nofun, nofun⟩ (ordered ⟨250, 2⟩)).2.2.1 (by decide) (by decide)

end

end PullQuery
