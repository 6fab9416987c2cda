import Mathlib.Data.Sum.Order
import Mathlib.Order.WithBot
import PullQuery.Proofs.Comparison
import PullQuery.Tuple.Sort

namespace PullQuery

open Comparison

namespace Comparison.Place

def value : Place → Extended
  | .nan => ⊥
  | .leastInfinity => .negInfinity
  | .finite d => .ofRat d.value
  | .greatestInfinity => .infinity

theorem value_ofBinary (b : Binary) : (ofBinary b).value = b.value := by
  cases b with
  | nan => rfl
  | infinite negative => cases negative <;> rfl
  | finite negative m e =>
    exact congrArg Extended.ofRat (Binary.value_finiteDecimal negative m e)

theorem value_lt_of_rank_lt {p q : Place} (h : p.rank < q.rank) : p.value < q.value := by
  cases p with
  | nan =>
    cases q with
    | nan => exact absurd h (Nat.lt_irrefl _)
    | _ => exact WithBot.bot_lt_coe _
  | leastInfinity =>
    cases q with
    | finite d => exact Extended.negInfinity_lt_ofRat _
    | greatestInfinity => exact Extended.negInfinity_lt_infinity
    | _ => exact absurd h (by decide)
  | finite d =>
    cases q with
    | greatestInfinity => exact Extended.ofRat_lt_infinity _
    | _ => exact absurd h (by simp [rank])
  | greatestInfinity => cases q <;> exact absurd h (by simp [rank])

theorem compare_of_rank_ne {p q : Place} (h : p.rank ≠ q.rank) :
    p.compare q = Ord.compare p.rank q.rank := by
  cases p with
  | finite d =>
    cases q with
    | finite e => exact absurd rfl h
    | _ => rfl
  | _ => rfl

theorem eq_of_rank_eq {p q : Place} (h : p.rank = q.rank) (hp : p.rank ≠ 2) : p = q := by
  cases p <;> cases q <;> simp_all [rank]

theorem compare_eq_compare_value (p q : Place) :
    p.compare q = Ord.compare p.value q.value := by
  obtain h | h | h := Nat.lt_trichotomy p.rank q.rank
  · rw [compare_of_rank_ne h.ne, compare_lt_iff_lt.2 h, compare_lt_iff_lt.2 (value_lt_of_rank_lt h)]
  · cases p with
    | finite d =>
      cases q with
      | finite e => exact (d.compare_eq_compare_value e).trans (Extended.compare_ofRat _ _).symm
      | _ => cases h
    | _ =>
      obtain rfl := eq_of_rank_eq h (by decide)
      exact (compare_eq_iff_eq.2 rfl).symm
  · rw [compare_of_rank_ne h.ne', compare_gt_iff_gt.2 h,
      compare_gt_iff_gt.2 (value_lt_of_rank_lt h)]

end Comparison.Place

namespace Item

def exactWorth? (a : Item) : Option ℚ := a.decimal?.map Decimal.value

def doubleWorth? (a : Item) : Option Extended := a.double?.map fun x => (Binary.ofDouble x).value

def worth? (a : Item) : Option Extended :=
  match a.exactWorth? with
  | some q => some (.ofRat q)
  | none => a.doubleWorth?

end Item

abbrev Sort.Line := WithBot (Extended ⊕ₗ String)

namespace Sort.Line

def ofNumber (v : Extended) : Line := ↑(toLex (Sum.inl v) : Extended ⊕ₗ String)

def ofRank : WithBot (ℚ ⊕ₗ String) → Line :=
  WithBot.map fun x => toLex (Sum.map Extended.ofRat id (ofLex x))

theorem ofRank_strictMono : StrictMono ofRank := by
  refine WithBot.strictMono_map_iff.2 fun x y h => ?_
  obtain p | s := x
  · obtain q | t := y
    · exact Sum.Lex.inl_lt_inl_iff.2 (Extended.ofRat_strictMono (Sum.Lex.inl_lt_inl_iff.1 h))
    · exact Sum.Lex.inl_lt_inr _ _
  · obtain q | t := y
    · exact absurd h Sum.Lex.not_inr_lt_inl
    · exact Sum.Lex.inr_lt_inr_iff.2 (Sum.Lex.inr_lt_inr_iff.1 h)

theorem ofNumber_strictMono : StrictMono ofNumber :=
  WithBot.coe_strictMono.comp Sum.Lex.inl_strictMono

theorem compare_ofNumber (v w : Extended) : compare (ofNumber v) (ofNumber w) = compare v w := by
  rw [← cmp_eq_compare, ← cmp_eq_compare]
  exact ofNumber_strictMono.cmp_map_eq v w

theorem compare_ofRank (x y : WithBot (ℚ ⊕ₗ String)) :
    compare (ofRank x) (ofRank y) = compare x y := by
  rw [← cmp_eq_compare, ← cmp_eq_compare]
  exact ofRank_strictMono.cmp_map_eq x y

end Sort.Line

namespace Item

def sortRank (z : Zone) (a : Item) : Sort.Line :=
  match a.worth? with
  | some v => .ofNumber v
  | none => .ofRank (a.rank z)

def SortsWith (a b : Item) : Prop :=
  a.isAtomic = true ∧ b.isAtomic = true ∧
    (a.type = .null ∨ b.type = .null ∨ (a.isNumeric = true ∧ b.isNumeric = true) ∨
      (a.type = b.type ∧ a.type ≠ .duration))

end Item

namespace Comparison

variable {z : Zone} {a b c : Item}

theorem exists_place (h : a.isNumeric = true) :
    ∃ p, Place.of? a = some p ∧ a.worth? = some p.value := by
  cases a with
  | int i => exact ⟨_, rfl, rfl⟩
  | integer n => exact ⟨_, rfl, rfl⟩
  | decimal d => exact ⟨_, rfl, rfl⟩
  | double x => exact ⟨_, rfl, congrArg some (Place.value_ofBinary _).symm⟩
  | float x => exact ⟨_, rfl, congrArg some (Place.value_ofBinary _).symm⟩
  | _ => cases h

theorem sortRank_of_worth {v : Extended} (h : a.worth? = some v) (z : Zone) :
    a.sortRank z = .ofNumber v := by
  rw [Item.sortRank, h]

theorem order_of_worth (z : Zone) (ha : a.isNumeric = true) (hb : b.isNumeric = true) :
    ∃ v w, a.worth? = some v ∧ b.worth? = some w ∧ order z a b = .ok (compare v w) := by
  obtain ⟨p, hp, hpa⟩ := exists_place ha
  obtain ⟨q, hq, hqb⟩ := exists_place hb
  refine ⟨_, _, hpa, hqb, ?_⟩
  rw [order, hp, hq]
  exact congrArg Except.ok (p.compare_eq_compare_value q)

theorem order_of_isNumeric (z : Zone) (ha : a.isNumeric = true) (hb : b.isNumeric = true) :
    order z a b = .ok (compare (a.sortRank z) (b.sortRank z)) := by
  obtain ⟨v, w, hv, hw, ho⟩ := order_of_worth z ha hb
  rw [ho, sortRank_of_worth hv, sortRank_of_worth hw, Sort.Line.compare_ofNumber]

theorem place_eq_none_of_isNumeric (h : a.isNumeric = false) : Place.of? a = none := by
  cases a <;> first | rfl | cases h

theorem sortRank_of_isNumeric (z : Zone) (h : a.isNumeric = false) :
    a.sortRank z = .ofRank (a.rank z) := by
  cases a <;> first | rfl | cases h

theorem order_eq_relate (z : Zone) (h : (a.isNumeric && b.isNumeric) = false) :
    order z a b = match relate z a b with
      | some (.ordered o) => .ok o
      | _ => .error (.of (.incomparableKeys a.type b.type)) := by
  unfold order
  split
  case h_1 p q hp hq =>
    obtain ha | hb := Bool.and_eq_false_iff.1 h
    · cases (place_eq_none_of_isNumeric ha).symm.trans hp
    · cases (place_eq_none_of_isNumeric hb).symm.trans hq
  case h_2 => rfl

theorem sortRank_null_lt (z : Zone) (h : a.type ≠ .null) :
    Item.sortRank z .null < a.sortRank z := by
  cases hn : a.isNumeric with
  | true =>
    obtain ⟨p, -, hp⟩ := exists_place hn
    rw [sortRank_of_worth hp]
    exact WithBot.bot_lt_coe _
  | false =>
    rw [sortRank_of_isNumeric z hn]
    exact Sort.Line.ofRank_strictMono (rank_null_lt z h)

theorem isOrdered_of_isNumeric (ha : a.isAtomic = true) (hn : a.isNumeric = false)
    (hd : a.type ≠ .duration) : a.IsOrdered := by
  refine ⟨ha, fun h => ?_, fun h => ?_, hd⟩
  · rw [Item.isNumeric, h] at hn
    cases hn
  · rw [Item.isNumeric, h] at hn
    cases hn

theorem relate_of_sortsWith (z : Zone) (h : a.SortsWith b)
    (hn : (a.isNumeric && b.isNumeric) = false) :
    relate z a b = some (.ordered (compare (a.sortRank z) (b.sortRank z))) := by
  obtain ⟨ha, hb, h⟩ := h
  by_cases ht : a.type = b.type
  · have hna : a.isNumeric = false := by
      rw [Item.isNumeric, Item.isNumeric, ← ht, Bool.and_self] at hn
      exact hn
    have hnb : b.isNumeric = false := by
      rw [Item.isNumeric, ← ht]
      exact hna
    have hd : a.type ≠ .duration := by
      obtain h | h | ⟨h, -⟩ | ⟨-, h⟩ := h
      · exact h ▸ nofun
      · exact ht ▸ h ▸ nofun
      · exact absurd h (by simp [hna])
      · exact h
    rw [relate_of_type z (isOrdered_of_isNumeric ha hna hd) ht, sortRank_of_isNumeric z hna,
      sortRank_of_isNumeric z hnb, Sort.Line.compare_ofRank]
  · obtain h | h | ⟨hna, hnb⟩ | ⟨h, -⟩ := h
    · obtain rfl := eq_null_of_type h
      have hb' : b.type ≠ .null := Ne.symm ht
      rw [relate_null_left z hb hb', compare_lt_iff_lt.2 (rank_null_lt z hb'),
        compare_lt_iff_lt.2 (sortRank_null_lt z hb')]
    · obtain rfl := eq_null_of_type h
      rw [relate_null_right z ha ht, compare_gt_iff_gt.2 (rank_null_lt z ht),
        compare_gt_iff_gt.2 (sortRank_null_lt z ht)]
    · rw [hna, hnb] at hn
      cases hn
    · exact absurd h ht

theorem order_of_sortsWith (z : Zone) (h : a.SortsWith b) :
    order z a b = .ok (compare (a.sortRank z) (b.sortRank z)) := by
  cases hn : a.isNumeric && b.isNumeric with
  | true =>
    obtain ⟨hna, hnb⟩ := Bool.and_eq_true_iff.1 hn
    exact order_of_isNumeric z hna hnb
  | false => rw [order_eq_relate z hn, relate_of_sortsWith z h hn]

theorem isAtomic_of_isNumeric (h : a.isNumeric = true) : a.isAtomic = true := by
  cases a <;> first | rfl | cases h

theorem relate_of_not_isAtomic (z : Zone) (h : ¬(a.isAtomic = true ∧ b.isAtomic = true)) :
    relate z a b = none := by
  unfold relate
  rw [if_pos]
  by_contra hn
  simp only [Bool.or_eq_true, Bool.not_eq_true', not_or, Bool.not_eq_false] at hn
  exact h hn

theorem order_of_not_sortsWith (z : Zone) (h : ¬a.SortsWith b) :
    order z a b = .error (.of (.incomparableKeys a.type b.type)) := by
  have hn : (a.isNumeric && b.isNumeric) = false := by
    by_contra hn
    obtain ⟨hna, hnb⟩ := Bool.and_eq_true_iff.1 (by simpa using hn)
    exact h ⟨isAtomic_of_isNumeric hna, isAtomic_of_isNumeric hnb, .inr (.inr (.inl ⟨hna, hnb⟩))⟩
  have hr : relate z a b = none ∨ ∃ e, relate z a b = some (.equality e) := by
    by_cases hat : a.isAtomic = true ∧ b.isAtomic = true
    · rw [relate_of_type_ne z hat.1 hat.2 hn (fun ht => h ⟨hat.1, hat.2, .inl ht⟩)
        (fun ht => h ⟨hat.1, hat.2, .inr (.inl ht)⟩) ?_]
      · obtain ⟨hr, -⟩ | ⟨d, e, -, -, hr⟩ := relateDurations_cases a b
        · exact .inl hr
        · exact .inr ⟨_, hr⟩
      · by_contra! ht
        exact h ⟨hat.1, hat.2, .inr (.inr (.inr ht))⟩
    · exact .inl (relate_of_not_isAtomic z hat)
  rw [order_eq_relate z hn]
  obtain hr | ⟨e, hr⟩ := hr
  · rw [hr]
  · rw [hr]

theorem order_eq_ok_iff {o : Ordering} :
    order z a b = .ok o ↔ a.SortsWith b ∧ o = compare (a.sortRank z) (b.sortRank z) := by
  by_cases h : a.SortsWith b
  · rw [order_of_sortsWith z h, Except.ok.injEq, eq_comm]
    exact (and_iff_right h).symm
  · rw [order_of_not_sortsWith z h]
    exact ⟨nofun, fun ho => absurd ho.1 h⟩

end Comparison

namespace Item.SortsWith

variable {a b c : Item}

theorem symm (h : a.SortsWith b) : b.SortsWith a := by
  obtain ⟨ha, hb, h | h | ⟨hna, hnb⟩ | ⟨h, hd⟩⟩ := h
  · exact ⟨hb, ha, .inr (.inl h)⟩
  · exact ⟨hb, ha, .inl h⟩
  · exact ⟨hb, ha, .inr (.inr (.inl ⟨hnb, hna⟩))⟩
  · exact ⟨hb, ha, .inr (.inr (.inr ⟨h.symm, h ▸ hd⟩))⟩

/-- Keys that compare with the same key, which is not null, compare with each other. -/
theorem of_common (hb : a.SortsWith b) (hc : a.SortsWith c) (ha : a.type ≠ .null) :
    b.SortsWith c := by
  unfold SortsWith isNumeric at *
  grind

theorem of_le {z : Zone} (hab : a.SortsWith b) (hbc : b.SortsWith c)
    (h : a.sortRank z ≤ b.sortRank z) : a.SortsWith c := by
  by_cases hb : b.type = .null
  · have ha : a.type = .null := by
      by_contra ha
      obtain rfl := eq_null_of_type hb
      exact absurd (sortRank_null_lt z ha) (not_lt.2 h)
    exact ⟨hab.1, hbc.2.1, .inl ha⟩
  · exact of_common hab.symm hbc hb

end Item.SortsWith

end PullQuery

namespace PullQuery.Sort

open Comparison

variable {z : Zone} {keys : List (Option Item)}

theorem comparands_eq_filterMap (keys : List (Option Item)) :
    comparands keys = keys.filterMap fun k => k.filter fun a => a.type != .null := by
  unfold comparands
  congr 1
  funext k
  cases k with
  | none => rfl
  | some a => cases a <;> rfl

theorem mem_comparands {a : Item} : a ∈ comparands keys ↔ some a ∈ keys ∧ a.type ≠ .null := by
  simp [comparands_eq_filterMap, List.mem_filterMap, Option.filter_eq_some_iff]

theorem forM_cases {α : Type} (as : List α) (f : α → Except Error Unit) :
    (as.forM f = .ok () ∧ ∀ a ∈ as, f a = .ok ()) ∨
      ∃ e, as.forM f = .error e ∧ ∃ a ∈ as, f a = .error e := by
  induction as with
  | nil => exact .inl ⟨rfl, nofun⟩
  | cons a as ih =>
    have hc : (a :: as).forM f = (f a >>= fun _ => as.forM f) := rfl
    rw [hc]
    cases h : f a with
    | error e => exact .inr ⟨e, rfl, a, List.mem_cons_self, h⟩
    | ok =>
      obtain ⟨hs, ha⟩ | ⟨e, hs, b, hb, he⟩ := ih
      · exact .inl ⟨hs, List.forall_mem_cons.2 ⟨h, ha⟩⟩
      · exact .inr ⟨e, hs, b, List.mem_cons_of_mem _ hb, he⟩

theorem comparableColumn_cases (z : Zone) (keys : List (Option Item)) :
    (comparableColumn z keys = .ok () ∧ (comparands keys).Pairwise Item.SortsWith) ∨
      ∃ e, comparableColumn z keys = .error e ∧ e.code = .xpty0004 ∧
        ¬(comparands keys).Pairwise Item.SortsWith := by
  unfold comparableColumn
  cases hc : comparands keys with
  | nil => exact .inl ⟨rfl, .nil⟩
  | cons first rest =>
    have hf : first.type ≠ .null := (mem_comparands.1 (hc ▸ List.mem_cons_self)).2
    obtain ⟨hs, hk⟩ | ⟨e, hs, k, hk, he⟩ :=
      forM_cases rest fun k => (order z first k).map fun _ => ()
    · have sorts (k : Item) (hm : k ∈ rest) : first.SortsWith k := by
        by_contra h
        have := hk k hm
        rw [order_of_not_sortsWith z h] at this
        cases this
      exact .inl ⟨hs, .cons sorts (List.pairwise_of_forall_mem_list fun k hk l hl =>
        (sorts k hk).of_common (sorts l hl) hf)⟩
    · have hn : ¬first.SortsWith k := by
        intro h
        rw [order_of_sortsWith z h] at he
        cases he
      rw [order_of_not_sortsWith z hn] at he
      cases he
      exact .inr ⟨_, hs, rfl, fun hp => hn (List.rel_of_pairwise_cons hp hk)⟩

end PullQuery.Sort

namespace PullQuery

open Comparison

/-- Sorting keys are a total preorder wherever they compare, which null does with every key and
numbers of all types do by what they are exactly worth; and keys that all compare with the first of
them that is not null compare with each other. -/
theorem sorting_keys_preordered (z : Zone) (a b c : Item) (keys : List (Option Item)) :
    ((∃ o, order z a b = .ok o) ↔ a.SortsWith b) ∧
    (∀ o, order z a a = .ok o → o = .eq) ∧
    (∀ o, order z a b = .ok o → order z b a = .ok o.swap) ∧
    (∀ o p, order z a b = .ok o → order z b c = .ok p → o ≠ .gt → p ≠ .gt →
      ∃ q, order z a c = .ok q ∧ q ≠ .gt ∧ (q = .eq ↔ o = .eq ∧ p = .eq)) ∧
    (a.isNumeric = true → b.isNumeric = true → ∃ v w, a.worth? = some v ∧ b.worth? = some w ∧
      order z a b = .ok (compare v w)) ∧
    (∀ first rest, Sort.comparands keys = first :: rest →
      (∀ k, some k ∈ keys → ∃ o, order z first k = .ok o) →
      ∀ k ∈ first :: rest, ∀ l ∈ first :: rest, ∃ o, order z k l = .ok o) ∧
    (Sort.comparableColumn z keys = .ok () ↔
      (Sort.comparands keys).Pairwise fun k l => ∃ o, order z k l = .ok o) := by
  have defined (k l : Item) : (∃ o, order z k l = .ok o) ↔ k.SortsWith l :=
    ⟨fun ⟨_, ho⟩ => (order_eq_ok_iff.1 ho).1, fun h => ⟨_, order_of_sortsWith z h⟩⟩
  refine ⟨defined a b, fun o ho => ?_, fun o ho => ?_, fun o p ho hp hno hnp => ?_, fun ha hb => ?_,
    fun first rest hc hk => ?_, ?_⟩
  · rw [(order_eq_ok_iff.1 ho).2]
    exact compare_eq_iff_eq.2 rfl
  · obtain ⟨h, rfl⟩ := order_eq_ok_iff.1 ho
    rw [order_of_sortsWith z h.symm, ← cmp_eq_compare, ← cmp_eq_compare, cmp_swap]
  · obtain ⟨hab, rfl⟩ := order_eq_ok_iff.1 ho
    obtain ⟨hbc, rfl⟩ := order_eq_ok_iff.1 hp
    have hle := compare_le_iff_le.1 hno
    have hle' := compare_le_iff_le.1 hnp
    refine ⟨_, order_of_sortsWith z (hab.of_le hbc hle), compare_le_iff_le.2 (hle.trans hle'), ?_⟩
    rw [compare_eq_iff_eq, compare_eq_iff_eq, compare_eq_iff_eq]
    constructor
    · intro h
      have hba := hle.antisymm (hle'.trans h.ge)
      exact ⟨hba, hba.symm.trans h⟩
    · exact fun h => h.1.trans h.2
  · exact order_of_worth z ha hb
  · have hf : first.type ≠ .null := (Sort.mem_comparands.1 (hc ▸ List.mem_cons_self)).2
    have sorts (k : Item) (hm : k ∈ first :: rest) : first.SortsWith k :=
      (defined _ _).1 (hk k (Sort.mem_comparands.1 (hc ▸ hm)).1)
    exact fun k hm l hm' => (defined _ _).2 ((sorts k hm).of_common (sorts l hm') hf)
  · simp only [defined]
    obtain ⟨hs, hp⟩ | ⟨e, hs, -, hp⟩ := Sort.comparableColumn_cases z keys
    · exact iff_of_true hs hp
    · exact iff_of_false (by rw [hs]; nofun) hp

end PullQuery
