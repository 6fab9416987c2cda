import Mathlib.Order.Compare
import PullQuery.Proofs.Comparison.Keys
import PullQuery.Proofs.Tuple.Rows

/-!
Sorting of tuples. A clause fails exactly when two of its keys do not compare; otherwise it hands
out the tuples that it read, ordered by the first keys that differ, and tuples with level keys in
the order in which they came.
-/

namespace PullQuery.Sort

open Comparison

inductive Below (z : Zone) (emptyGreatest : Bool) : Option Item → Option Item → Prop
  | items {a b : Item} (h : order z a b = .ok .lt) : Below z emptyGreatest (some a) (some b)
  | absentLeast {b : Item} (h : emptyGreatest = false) : Below z emptyGreatest none (some b)
  | absentGreatest {a : Item} (h : emptyGreatest = true) : Below z emptyGreatest (some a) none

inductive Level (z : Zone) : Option Item → Option Item → Prop
  | items {a b : Item} (h : order z a b = .ok .eq) : Level z (some a) (some b)
  | absent : Level z none none

def Ahead (z : Zone) (o : SortOrder) (k l : Option Item) : Prop :=
  if o.descending then Below z o.emptyGreatest l k else Below z o.emptyGreatest k l

inductive Precedes (z : Zone) :
    List SortOrder → List (Option Item) → List (Option Item) → Prop
  | here {o : SortOrder} {os : List SortOrder} {k l : Option Item} {ks ls : List (Option Item)}
      (h : Ahead z o k l) : Precedes z (o :: os) (k :: ks) (l :: ls)
  | later {o : SortOrder} {os : List SortOrder} {k l : Option Item} {ks ls : List (Option Item)}
      (h : Level z k l) (ht : Precedes z os ks ls) : Precedes z (o :: os) (k :: ks) (l :: ls)

/-- The numbered rows in order: a row comes before those that it precedes, and before those with
level keys that have greater numbers. -/
structure Arranges (z : Zone) (orders : List SortOrder) (rows : List Row)
    (sorted : List (Row × Nat)) : Prop where
  perm : sorted.Perm rows.zipIdx
  ordered : sorted.Pairwise fun x y => Precedes z orders x.1.1 y.1.1 ∨
    (List.Forall₂ (Level z) x.1.1 y.1.1 ∧ x.2 < y.2)

/-- Two tuples have keys in one column, neither of them null, that do not compare. -/
def Clash (z : Zone) (rows : List Row) : Prop :=
  ∃ i j : Nat, i ≠ j ∧ ∃ r s, rows[i]? = some r ∧ rows[j]? = some s ∧
    ∃ (column : Nat) (a b : Item), r.1[column]? = some (some a) ∧ s.1[column]? = some (some b) ∧
      a.type ≠ .null ∧ b.type ≠ .null ∧ ¬∃ o, order z a b = .ok o

section Ranks

variable {z : Zone} {o : SortOrder} {k l : Option Item}

abbrev Ranks := WithBot (WithTop Line)

def rankOf (z : Zone) (emptyGreatest : Bool) : Option Item → Ranks
  | none => if emptyGreatest then ↑(⊤ : WithTop Line) else ⊥
  | some a => ↑(↑(a.sortRank z) : WithTop Line)

def keyRank (z : Zone) (o : SortOrder) (k : Option Item) : Ranks ⊕ₗ Ranksᵒᵈ :=
  if o.descending then toLex (.inr (OrderDual.toDual (rankOf z o.emptyGreatest k)))
  else toLex (.inl (rankOf z o.emptyGreatest k))

def rowRank (z : Zone) (os : List SortOrder) (ks : List (Option Item)) :
    List (Ranks ⊕ₗ Ranksᵒᵈ) := List.zipWith (keyRank z) os ks

def KeysSort (k l : Option Item) : Prop := ∀ a ∈ k, ∀ b ∈ l, a.SortsWith b

theorem rankOf_lt_rankOf (z : Zone) (emptyGreatest : Bool) (a b : Item) :
    rankOf z emptyGreatest (some a) < rankOf z emptyGreatest (some b) ↔
      a.sortRank z < b.sortRank z :=
  WithBot.coe_lt_coe.trans WithTop.coe_lt_coe

theorem below_iff (h : KeysSort k l) (emptyGreatest : Bool) :
    Below z emptyGreatest k l ↔ rankOf z emptyGreatest k < rankOf z emptyGreatest l := by
  cases k with
  | none =>
    cases l with
    | none => exact ⟨nofun, fun h => absurd h (lt_irrefl _)⟩
    | some b =>
      cases emptyGreatest with
      | true => exact ⟨nofun, fun h => absurd (WithBot.coe_lt_coe.1 h) not_top_lt⟩
      | false => exact ⟨fun _ => WithBot.bot_lt_coe _, fun _ => .absentLeast rfl⟩
  | some a =>
    cases l with
    | none =>
      cases emptyGreatest with
      | true => exact ⟨fun _ => WithBot.coe_lt_coe.2 (WithTop.coe_lt_top _),
          fun _ => .absentGreatest rfl⟩
      | false => exact ⟨nofun, fun h => absurd h not_lt_bot⟩
    | some b =>
      rw [rankOf_lt_rankOf]
      constructor
      · rintro ⟨ho⟩
        exact compare_lt_iff_lt.1 (order_eq_ok_iff.1 ho).2.symm
      · intro hlt
        exact .items (order_eq_ok_iff.2 ⟨h a rfl b rfl, (compare_lt_iff_lt.2 hlt).symm⟩)

theorem level_iff (h : KeysSort k l) (emptyGreatest : Bool) :
    Level z k l ↔ rankOf z emptyGreatest k = rankOf z emptyGreatest l := by
  cases k with
  | none =>
    cases l with
    | none => exact ⟨fun _ => rfl, fun _ => .absent⟩
    | some b => cases emptyGreatest <;> exact ⟨nofun, nofun⟩
  | some a =>
    cases l with
    | none => cases emptyGreatest <;> exact ⟨nofun, nofun⟩
    | some b =>
      rw [rankOf, rankOf, WithBot.coe_inj, WithTop.coe_inj, ← compare_eq_iff_eq]
      constructor
      · rintro ⟨ho⟩
        exact (order_eq_ok_iff.1 ho).2.symm
      · exact fun he => .items (order_eq_ok_iff.2 ⟨h a rfl b rfl, he.symm⟩)

theorem KeysSort.symm (h : KeysSort k l) : KeysSort l k := fun b hb a ha => (h a ha b hb).symm

theorem compareKeys_of_below {emptyGreatest : Bool} (h : Below z emptyGreatest k l) :
    compareKeys z ⟨false, emptyGreatest⟩ k l = .lt := by
  cases h with
  | items h => simp [compareKeys, compareItems, h]
  | absentLeast h => simp [compareKeys, h]
  | absentGreatest h => simp [compareKeys, h]

theorem compareKeys_of_above {emptyGreatest : Bool} (h : Below z emptyGreatest l k) :
    compareKeys z ⟨false, emptyGreatest⟩ k l = .gt := by
  cases h with
  | @items b a h =>
    have ho : order z a b = .ok .gt := by
      obtain ⟨hs, ho⟩ := order_eq_ok_iff.1 h
      exact order_eq_ok_iff.2 ⟨hs.symm, (compare_gt_iff_gt.2 (compare_lt_iff_lt.1 ho.symm)).symm⟩
    simp [compareKeys, compareItems, ho]
  | absentLeast h => simp [compareKeys, h]
  | absentGreatest h => simp [compareKeys, h]

theorem compareKeys_of_level {emptyGreatest : Bool} (h : Level z k l) :
    compareKeys z ⟨false, emptyGreatest⟩ k l = .eq := by
  cases h with
  | items h => simp [compareKeys, compareItems, h]
  | absent => rfl

theorem compareKeys_ascending (h : KeysSort k l) (emptyGreatest : Bool) :
    compareKeys z ⟨false, emptyGreatest⟩ k l =
      cmp (rankOf z emptyGreatest k) (rankOf z emptyGreatest l) := by
  obtain hlt | heq | hgt :=
    lt_trichotomy (rankOf z emptyGreatest k) (rankOf z emptyGreatest l)
  · rw [compareKeys_of_below ((below_iff h _).2 hlt), (cmp_eq_lt_iff _ _).2 hlt]
  · rw [compareKeys_of_level ((level_iff h _).2 heq), (cmp_eq_eq_iff _ _).2 heq]
  · rw [compareKeys_of_above ((below_iff h.symm _).2 hgt), (cmp_eq_gt_iff _ _).2 hgt]

theorem compareKeys_eq (h : KeysSort k l) (o : SortOrder) :
    compareKeys z o k l = cmp (keyRank z o k) (keyRank z o l) := by
  have ho : compareKeys z o k l = if o.descending then
      (compareKeys z ⟨false, o.emptyGreatest⟩ k l).swap
      else compareKeys z ⟨false, o.emptyGreatest⟩ k l := by
    obtain ⟨_ | _, g⟩ := o <;> rfl
  rw [ho, compareKeys_ascending h]
  unfold keyRank
  by_cases hd : o.descending = true
  · rw [if_pos hd, if_pos hd, if_pos hd, cmp_swap, ← cmp_toDual]
    exact (Sum.Lex.inr_strictMono.cmp_map_eq _ _).symm
  · rw [if_neg hd, if_neg hd, if_neg hd]
    exact (Sum.Lex.inl_strictMono.cmp_map_eq _ _).symm

theorem compareKeys_self (z : Zone) (o : SortOrder) (k : Option Item) :
    compareKeys z o k k = .eq := by
  cases k with
  | none => obtain ⟨_ | _, g⟩ := o <;> rfl
  | some a =>
    have ha : compareItems z a a = .eq := by
      unfold compareItems
      cases ho : order z a a with
      | error e => rfl
      | ok p => rw [(order_eq_ok_iff.1 ho).2, compare_eq_iff_eq.2 rfl]
    obtain ⟨_ | _, g⟩ := o <;> simp [compareKeys, ha]

theorem ahead_iff (h : KeysSort k l) (o : SortOrder) :
    Ahead z o k l ↔ keyRank z o k < keyRank z o l := by
  unfold Ahead keyRank
  split
  · rw [below_iff h.symm, Sum.Lex.inr_lt_inr_iff, OrderDual.toDual_lt_toDual]
  · rw [below_iff h, Sum.Lex.inl_lt_inl_iff]

theorem level_iff_keyRank (h : KeysSort k l) (o : SortOrder) :
    Level z k l ↔ keyRank z o k = keyRank z o l := by
  rw [level_iff h o.emptyGreatest]
  unfold keyRank
  split
  · rw [toLex_inj, Sum.inr.injEq, OrderDual.toDual_inj]
  · rw [toLex_inj, Sum.inl.injEq]

end Ranks

section Rows

variable {z : Zone} {os : List SortOrder} {ks ls : List (Option Item)}

theorem compareRows_eq_gt_iff (h : List.Forall₂ KeysSort ks ls) (os : List SortOrder) :
    compareRows z os ks ls = .gt ↔ rowRank z os ls < rowRank z os ks := by
  induction h generalizing os with
  | nil => cases os <;> exact ⟨nofun, fun h => absurd h (lt_irrefl _)⟩
  | @cons k l ks ls hk _ ih =>
    cases os with
    | nil => exact ⟨nofun, fun h => absurd h (lt_irrefl _)⟩
    | cons o os =>
      have hr (k : Option Item) (ks : List (Option Item)) :
          rowRank z (o :: os) (k :: ks) = keyRank z o k :: rowRank z os ks := rfl
      rw [compareRows, Ordering.then_eq_gt, ih, compareKeys_eq hk, cmp_eq_gt_iff, cmp_eq_eq_iff, hr,
        hr, List.cons_lt_cons_iff, @eq_comm _ (keyRank z o k)]

theorem compareRows_self (z : Zone) (os : List SortOrder) (ks : List (Option Item)) :
    compareRows z os ks ks = .eq := by
  induction os generalizing ks with
  | nil => rfl
  | cons o os ih =>
    cases ks with
    | nil => rfl
    | cons k ks => rw [compareRows, compareKeys_self, ih, Ordering.eq_then]

theorem precedes_of_lt (h : List.Forall₂ KeysSort ks ls) (hl : os.length = ks.length)
    (hlt : rowRank z os ks < rowRank z os ls) : Precedes z os ks ls := by
  induction h generalizing os with
  | nil => cases os <;> exact absurd hlt (lt_irrefl _)
  | @cons k l ks ls hk _ ih =>
    cases os with
    | nil => cases hl
    | cons o os =>
      obtain hlt | ⟨heq, hlt⟩ := List.cons_lt_cons_iff.1 hlt
      · exact .here ((ahead_iff hk o).2 hlt)
      · exact .later ((level_iff_keyRank hk o).2 heq) (ih (Nat.succ.inj hl) hlt)

theorem level_of_eq (h : List.Forall₂ KeysSort ks ls) (hl : os.length = ks.length)
    (heq : rowRank z os ks = rowRank z os ls) : List.Forall₂ (Level z) ks ls := by
  induction h generalizing os with
  | nil => exact .nil
  | @cons k l ks ls hk _ ih =>
    cases os with
    | nil => cases hl
    | cons o os =>
      obtain ⟨hkl, heq⟩ := List.cons.inj heq
      exact .cons ((level_iff_keyRank hk o).2 hkl) (ih (Nat.succ.inj hl) heq)

end Rows

theorem exists_mergeSort {α : Type} {le : α → α → Bool}
    (trans : ∀ a b c, le a b = true → le b c = true → le a c = true)
    (total : ∀ a b, (le a b || le b a) = true) (as : List α) :
    ∃ sorted : List (α × Nat), sorted.Perm as.zipIdx ∧ sorted.map Prod.fst = as.mergeSort le ∧
      sorted.Pairwise fun x y => le x.1 y.1 = true ∧ (le y.1 x.1 = true → x.2 < y.2) := by
  have hp := List.mergeSort_perm as.zipIdx (List.zipIdxLE le)
  refine ⟨_, hp, List.mergeSort_zipIdx, ?_⟩
  have hn : (as.zipIdx.mergeSort (List.zipIdxLE le)).Pairwise fun x y => x.2 ≠ y.2 := by
    have hz : (as.zipIdx.map Prod.snd).Nodup := by
      rw [List.zipIdx_map_snd]
      exact List.nodup_range'
    exact List.pairwise_map.1 ((hp.map Prod.snd).nodup_iff.2 hz)
  have hle := List.pairwise_mergeSort (List.zipIdxLE_trans trans) (List.zipIdxLE_total total)
    as.zipIdx
  refine (hle.and hn).imp fun {x y} h => ?_
  obtain ⟨h, hne⟩ := h
  unfold List.zipIdxLE at h
  split at h
  case isTrue hxy =>
    refine ⟨hxy, fun hyx => ?_⟩
    rw [if_pos hyx] at h
    exact lt_of_le_of_ne (of_decide_eq_true h) hne
  case isFalse => cases h

section Clashes

variable {z : Zone} {rows : List Row} {r s : Row} {n : Nat}

def ColumnSorts (i : Nat) (r s : Row) : Prop :=
  ∀ a b : Item, r.1[i]? = some (some a) → s.1[i]? = some (some b) → a.type ≠ .null →
    b.type ≠ .null → a.SortsWith b

theorem ColumnSorts.symm {i : Nat} (h : ColumnSorts i r s) : ColumnSorts i s r :=
  fun a b ha hb hna hnb => (h b a hb ha hnb hna).symm

theorem clash_iff : Clash z rows ↔ ∃ i, ¬rows.Pairwise (ColumnSorts i) := by
  have sorts (a b : Item) : (∃ o, order z a b = .ok o) ↔ a.SortsWith b :=
    ⟨fun ⟨_, ho⟩ => (order_eq_ok_iff.1 ho).1, fun h => ⟨_, order_of_sortsWith z h⟩⟩
  have column (i : Nat) : (∃ j k : Nat, j ≠ k ∧ ∃ r s, rows[j]? = some r ∧ rows[k]? = some s ∧
      ¬ColumnSorts i r s) ↔ ¬rows.Pairwise (ColumnSorts i) := by
    rw [exists_ne_iff fun r s h hs => h hs.symm]
    simp only [not_not]
  simp only [← column, ColumnSorts, not_forall, ← sorts]
  constructor
  · rintro ⟨j, k, hjk, r, s, hr, hs, i, a, b, ha, hb, hna, hnb, ho⟩
    exact ⟨i, j, k, hjk, r, s, hr, hs, a, b, ha, hb, hna, hnb, ho⟩
  · rintro ⟨i, j, k, hjk, r, s, hr, hs, a, b, ha, hb, hna, hnb, ho⟩
    exact ⟨j, k, hjk, r, s, hr, hs, i, a, b, ha, hb, hna, hnb, ho⟩

theorem pairwise_comparands (R : Item → Item → Prop) (rows : List Row) (i : Nat) :
    (comparands (column rows i)).Pairwise R ↔ rows.Pairwise fun r s => ∀ a b : Item,
      r.1[i]? = some (some a) → s.1[i]? = some (some b) → a.type ≠ .null → b.type ≠ .null →
        R a b := by
  have held (r : Row) (a : Item) : (r.1[i]?.join.filter fun a => a.type != .null) = some a ↔
      r.1[i]? = some (some a) ∧ a.type ≠ .null := by
    rw [Option.filter_eq_some_iff, Option.join_eq_some_iff]
    simp
  rw [comparands_eq_filterMap, column, List.filterMap_map, List.pairwise_filterMap]
  refine List.Pairwise.iff fun r s => ?_
  simp only [Function.comp_apply, held]
  exact ⟨fun h a b ha hb hna hnb => h a ⟨ha, hna⟩ b ⟨hb, hnb⟩,
    fun h a ha b hb => h a b ha.1 hb.1 ha.2 hb.2⟩

theorem forM_placing_cases (z : Zone) (first : Item) (rest : Items)
    (f : Item → Except Error Unit) :
    ((rest.forM fun k => Arithmetic.placing z first k (f k)) = .error (.of .stopped) ∧
      ∃ k ∈ rest, Arithmetic.isBeyond z first k = true) ∨
      (rest.forM fun k => Arithmetic.placing z first k (f k)) = rest.forM f := by
  induction rest with
  | nil => exact .inr rfl
  | cons k rest ih =>
    have hc (g : Item → Except Error Unit) : (k :: rest).forM g = (g k).bind fun _ => rest.forM g :=
      rfl
    rw [hc, hc]
    cases hb : Arithmetic.isBeyond z first k with
    | true =>
      rw [Arithmetic.placing_of_beyond hb]
      exact .inl ⟨rfl, k, List.mem_cons_self, hb⟩
    | false =>
      rw [Arithmetic.placing_of_placed hb]
      cases f k with
      | error e => exact .inr rfl
      | ok =>
        refine ih.imp_left fun ⟨hs, l, hl, hb⟩ => ?_
        exact ⟨hs, l, List.mem_cons_of_mem k hl, hb⟩

theorem checkColumn_cases (z : Zone) (keys : List (Option Item)) :
    (checkColumn z keys = .error (.of .stopped) ∧
      ¬(comparands keys).Pairwise fun a b => ¬Arithmetic.isBeyond z a b = true) ∨
      checkColumn z keys = comparableColumn z keys := by
  unfold checkColumn comparableColumn
  cases comparands keys with
  | nil => exact .inr rfl
  | cons first rest =>
    refine (forM_placing_cases z first rest _).imp_left fun ⟨hs, k, hk, hb⟩ => ⟨hs, fun hp => ?_⟩
    exact List.rel_of_pairwise_cons hp hk hb

theorem rowsBeyond_of_column {i : Nat} (h : ¬(comparands (column rows i)).Pairwise fun a b =>
    ¬Arithmetic.isBeyond z a b = true) : RowsBeyond z rows := by
  refine rowsBeyond_iff.2 fun hp => h ((pairwise_comparands _ rows i).2 (hp.imp ?_))
  exact fun hn a b ha hb _ _ hab => hn ⟨i, a, b, ha, hb, hab⟩

theorem checkColumns_cases (z : Zone) (rows : List Row) (n : Nat) :
    (checkColumns z rows n = .error (.of .stopped) ∧ RowsBeyond z rows) ∨
    (checkColumns z rows n = .ok () ∧ ∀ i < n, rows.Pairwise (ColumnSorts i)) ∨
    ∃ e, checkColumns z rows n = .error e ∧ e.code = .xpty0004 ∧
      ∃ i < n, ¬rows.Pairwise (ColumnSorts i) := by
  obtain ⟨hs, hc⟩ | ⟨e, hs, i, hi, he⟩ :=
    forM_cases (List.range n) fun i => checkColumn z (column rows i)
  · refine .inr (.inl ⟨hs, fun i hi => (pairwise_comparands _ rows i).1 ?_⟩)
    have ho := hc i (List.mem_range.2 hi)
    obtain ⟨he, -⟩ | hcc := checkColumn_cases z (column rows i)
    · cases he.symm.trans ho
    obtain ⟨-, hp⟩ | ⟨e, he, -⟩ := comparableColumn_cases z (column rows i)
    · exact hp
    · cases (hcc.trans he).symm.trans ho
  · obtain ⟨hb, hp⟩ | hcc := checkColumn_cases z (column rows i)
    · obtain rfl := Except.error.inj (he.symm.trans hb)
      exact .inl ⟨hs, rowsBeyond_of_column hp⟩
    obtain ⟨ho, -⟩ | ⟨e', he', hcode, hp⟩ := comparableColumn_cases z (column rows i)
    · cases (hcc.trans ho).symm.trans he
    · obtain rfl := Except.error.inj ((hcc.trans he').symm.trans he)
      exact .inr (.inr ⟨e', hs, hcode, i, List.mem_range.1 hi,
        mt (pairwise_comparands _ rows i).2 hp⟩)

theorem keysSort_of_keyed (hr : Keyed n r) (hs : Keyed n s) (h : ∀ i < n, ColumnSorts i r s) :
    List.Forall₂ KeysSort r.1 s.1 := by
  refine List.forall₂_iff_get.2 ⟨hr.length.trans hs.length.symm, fun i hi hj a ha b hb => ?_⟩
  have hka := hr.atomic _ (List.get_mem r.1 ⟨i, hi⟩) a ha
  have hkb := hs.atomic _ (List.get_mem s.1 ⟨i, hj⟩) b hb
  by_cases hna : a.type = .null
  · exact ⟨hka, hkb, .inl hna⟩
  · by_cases hnb : b.type = .null
    · exact ⟨hka, hkb, .inr (.inl hnb)⟩
    · exact h i (hr.length ▸ hi) a b ((List.getElem?_eq_getElem hi).trans (congrArg some ha))
        ((List.getElem?_eq_getElem hj).trans (congrArg some hb)) hna hnb

theorem exists_lt_of_clash (hk : ∀ r ∈ rows, Keyed n r) (h : Clash z rows) :
    ∃ i < n, ¬rows.Pairwise (ColumnSorts i) := by
  obtain ⟨i, hi⟩ := clash_iff.1 h
  refine ⟨i, ?_, hi⟩
  by_contra hn
  refine hi (List.pairwise_of_forall_mem_list fun r hr s _ a b ha => ?_)
  rw [List.getElem?_eq_none (by rw [(hk r hr).length]; omega)] at ha
  cases ha

theorem clash_perm {rows' : List Row} (h : rows'.Perm rows) : Clash z rows' ↔ Clash z rows := by
  rw [clash_iff, clash_iff]
  exact exists_congr fun i => not_congr (h.pairwise_iff fun {r s} hrs => hrs.symm)

theorem pairwise_keysSort (hk : ∀ r ∈ rows, Keyed n r)
    (h : ∀ i < n, rows.Pairwise (ColumnSorts i)) :
    rows.Pairwise fun r s => List.Forall₂ KeysSort r.1 s.1 := by
  have hall : rows.Pairwise fun r s => ∀ i < n, ColumnSorts i r s := by
    refine List.pairwise_iff_getElem.2 fun j k hj hk hjk i hi => ?_
    exact List.pairwise_iff_getElem.1 (h i hi) j k hj hk hjk
  exact hall.imp_of_mem fun hr hs hrs => keysSort_of_keyed (hk _ hr) (hk _ hs) hrs

theorem keysSort_symm (h : List.Forall₂ KeysSort r.1 s.1) : List.Forall₂ KeysSort s.1 r.1 :=
  h.flip.imp fun _ _ hk => KeysSort.symm hk

theorem mergeSort_eq (orders : List SortOrder)
    (hp : rows.Pairwise fun r s => List.Forall₂ KeysSort r.1 s.1) :
    rows.mergeSort (fun r s => compareRows z orders r.1 s.1 != .gt) =
      rows.mergeSort (fun r s => decide (rowRank z orders r.1 ≤ rowRank z orders s.1)) := by
  have agree (r s : Row) (h : List.Forall₂ KeysSort r.1 s.1) :
      (compareRows z orders r.1 s.1 != .gt) =
        decide (rowRank z orders r.1 ≤ rowRank z orders s.1) := by
    rw [Bool.eq_iff_iff, bne_iff_ne, decide_eq_true_iff, ne_eq, compareRows_eq_gt_iff h, not_lt]
  have sorts := List.pairwise_iff_getElem.1 hp
  have hm := List.map_mergeSort (f := id) (l := rows)
    (r := fun r s : Row => compareRows z orders r.1 s.1 != .gt)
    (s := fun r s => decide (rowRank z orders r.1 ≤ rowRank z orders s.1)) fun r hr s hs => by
      obtain ⟨i, hi, rfl⟩ := List.mem_iff_getElem.1 hr
      obtain ⟨j, hj, rfl⟩ := List.mem_iff_getElem.1 hs
      obtain h | rfl | h := Nat.lt_trichotomy i j
      · exact agree _ _ (sorts i j hi hj h)
      · simp [compareRows_self]
      · exact agree _ _ (keysSort_symm (sorts j i hj hi h))
  rwa [List.map_id, List.map_id] at hm

theorem exists_sorted {orders : List SortOrder} (hk : ∀ r ∈ rows, Keyed orders.length r)
    (h : ∀ i < orders.length, rows.Pairwise (ColumnSorts i)) :
    ∃ sorted : List (Row × Nat), Arranges z orders rows sorted ∧
      sorted.map Prod.fst = rows.mergeSort fun r s => compareRows z orders r.1 s.1 != .gt := by
  have hp := pairwise_keysSort hk h
  obtain ⟨sorted, hperm, hmap, hs⟩ := @exists_mergeSort Row
    (fun r s => decide (rowRank z orders r.1 ≤ rowRank z orders s.1))
    (fun _ _ _ h h' => decide_eq_true (le_trans (of_decide_eq_true h) (of_decide_eq_true h')))
    (fun r s => by
      rw [Bool.or_eq_true, decide_eq_true_iff, decide_eq_true_iff]
      exact le_total _ _) rows
  refine ⟨sorted, ⟨hperm, ?_⟩, hmap.trans (mergeSort_eq orders hp).symm⟩
  have hz : rows.zipIdx.Pairwise fun x y => List.Forall₂ KeysSort x.1.1 y.1.1 := by
    have hm : (rows.zipIdx.map Prod.fst).Pairwise fun r s => List.Forall₂ KeysSort r.1 s.1 := by
      rwa [List.zipIdx_map_fst]
    exact (List.pairwise_map (f := Prod.fst)).1 hm
  have hsorts := (hperm.pairwise_iff fun {x y} hxy => keysSort_symm hxy).2 hz
  have length (x : Row × Nat) (hx : x ∈ sorted) : orders.length = x.1.1.length :=
    (hk _ (List.fst_mem_of_mem_zipIdx (hperm.mem_iff.1 hx))).length.symm
  refine (hs.and hsorts).imp_of_mem fun {x y} hx hy hxy => ?_
  obtain ⟨⟨hle, htie⟩, hxy⟩ := hxy
  obtain hlt | heq := lt_or_eq_of_le (of_decide_eq_true hle)
  · exact .inl (precedes_of_lt hxy (length x hx) hlt)
  · exact .inr ⟨level_of_eq hxy (length x hx) heq, htie (decide_eq_true heq.ge)⟩

end Clashes

end PullQuery.Sort

namespace PullQuery

section

variable {p : Position} {keys : List SortKey} {c : Context} {input : Machine Tuple}
  {rows : List Sort.Row}

theorem order_gives_tuples (hi : input.GivesAt c (.ofList (rows.map Prod.snd)))
    (hk : ∀ row ∈ rows, List.Forall₂ (SortKey.Gives c row.2) keys row.1) :
    ((Clause.order p keys).machine input).GivesAt c ((Output.ofExcept
      (Sort.tuples c.implicitTimezone (keys.map SortKey.order) rows)).locate p) := by
  have h := (Clause.order p keys).gives c hi
  rw [Clause.output, Output.rows_of_areKeys (fun row hr => SortKey.areKeys (hk row hr))] at h
  exact h

theorem order_cases (hi : input.GivesAt c (.ofList (rows.map Prod.snd)))
    (hk : ∀ row ∈ rows, List.Forall₂ (SortKey.Gives c row.2) keys row.1) :
    (((Clause.order p keys).machine input).GivesAt c (.fail ((Error.of .stopped).locate p)) ∧
      RowsBeyond c.implicitTimezone rows) ∨
    (Sort.Clash c.implicitTimezone rows ∧ ∃ e, e.code = .xpty0004 ∧
      ((Clause.order p keys).machine input).GivesAt c (.fail e)) ∨
    (¬Sort.Clash c.implicitTimezone rows ∧ ∃ sorted,
      Sort.Arranges c.implicitTimezone (keys.map SortKey.order) rows sorted ∧
      ((Clause.order p keys).machine input).GivesAt c (.ofList (sorted.map fun x => x.1.2))) := by
  have hkeyed (row : Sort.Row) (hr : row ∈ rows) : Keyed (keys.map SortKey.order).length row := by
    rw [List.length_map]
    exact SortKey.keyed (hk row hr)
  have hg := order_gives_tuples (p := p) hi hk
  rw [Sort.tuples] at hg
  obtain ⟨he, hb⟩ | ⟨ho, hc⟩ | ⟨e, he, hcode, i, hi, hc⟩ :=
    Sort.checkColumns_cases c.implicitTimezone rows (keys.map SortKey.order).length
  · rw [he] at hg
    exact .inl ⟨hg, hb⟩
  · obtain ⟨sorted, hs, hm⟩ := Sort.exists_sorted (z := c.implicitTimezone) hkeyed hc
    refine .inr (.inr ⟨fun h => ?_, sorted, hs, ?_⟩)
    · obtain ⟨i, hi, hn⟩ := Sort.exists_lt_of_clash hkeyed h
      exact hn (hc i hi)
    · rw [ho, ← hm] at hg
      have hmap : sorted.map (fun x => x.1.2) = (sorted.map Prod.fst).map Prod.snd := by
        rw [List.map_map]
        rfl
      rw [hmap]
      exact hg
  · rw [he] at hg
    exact .inr (.inl ⟨Sort.clash_iff.2 ⟨i, hc⟩, e.locate p, hcode, hg⟩)

theorem order_fails_iff (hi : input.GivesAt c (.ofList (rows.map Prod.snd)))
    (hk : ∀ row ∈ rows, List.Forall₂ (SortKey.Gives c row.2) keys row.1)
    (hb : ¬RowsBeyond c.implicitTimezone rows) :
    (∃ e, e.code = .xpty0004 ∧ ((Clause.order p keys).machine input).GivesAt c (.fail e)) ↔
      Sort.Clash c.implicitTimezone rows := by
  obtain ⟨-, h⟩ | ⟨hc, he⟩ | ⟨hc, sorted, -, hs⟩ := order_cases (p := p) hi hk
  · exact absurd h hb
  · exact iff_of_true he hc
  · exact iff_of_false (fun ⟨e, _, he⟩ => Machine.GivesAt.not_fail hs he) hc

/-- A sorting clause fails exactly when two keys of one column, neither of them null, do not
compare, in whichever order their tuples come; otherwise it hands out the same tuples, each before
those that it precedes and before those with level keys that came later. Only where the calendar
does not have the instant of a key does the program stop instead. -/
theorem sorting_orders_tuples (hi : input.GivesAt c (.ofList (rows.map Prod.snd)))
    (hk : ∀ row ∈ rows, List.Forall₂ (SortKey.Gives c row.2) keys row.1) :
    ((((Clause.order p keys).machine input).GivesAt c (.fail ((Error.of .stopped).locate p)) ∧
        RowsBeyond c.implicitTimezone rows) ∨
      ((∃ e, e.code = .xpty0004 ∧ ((Clause.order p keys).machine input).GivesAt c (.fail e)) ↔
        Sort.Clash c.implicitTimezone rows) ∧
      (¬Sort.Clash c.implicitTimezone rows → ∃ sorted,
        Sort.Arranges c.implicitTimezone (keys.map SortKey.order) rows sorted ∧
        ((Clause.order p keys).machine input).GivesAt c (.ofList (sorted.map fun x => x.1.2)))) ∧
    (¬RowsBeyond c.implicitTimezone rows →
      ∀ {other : Machine Tuple} {rows' : List Sort.Row}, rows'.Perm rows →
      other.GivesAt c (.ofList (rows'.map Prod.snd)) →
      ((∃ e, e.code = .xpty0004 ∧ ((Clause.order p keys).machine other).GivesAt c (.fail e)) ↔
        ∃ e, e.code = .xpty0004 ∧ ((Clause.order p keys).machine input).GivesAt c (.fail e))) := by
  refine ⟨?_, fun hb {other rows'} hp ho => ?_⟩
  · obtain h | ⟨hc, he⟩ | ⟨hc, sorted, ha, hs⟩ := order_cases (p := p) hi hk
    · exact .inl h
    · exact .inr ⟨iff_of_true he hc, fun hn => absurd hc hn⟩
    · exact .inr ⟨iff_of_false (fun ⟨e, _, he⟩ => Machine.GivesAt.not_fail hs he) hc,
        fun _ => ⟨sorted, ha, hs⟩⟩
  · rw [order_fails_iff hi hk hb, order_fails_iff ho (fun row hr => hk row (hp.mem_iff.1 hr))
      fun h => hb ((rowsBeyond_perm hp).1 h)]
    exact Sort.clash_perm hp

theorem keys_of_four_kinds_sort :
    let p : Position := ⟨1, 1⟩
    let key : SortKey := .mk (.variable p "x") ⟨true, false⟩
    let now : DateTime :=
      ⟨⟨2024, 1, 2, by decide, by decide, by decide⟩, ⟨0, 0, by decide, by decide⟩⟩
    let c : Context := .root ⟨.utc, ⟨now, .utc⟩, .empty⟩ ⟨[], none⟩
    let keys : List (Option Item) := [some (.integer 2), some .null, none, some (.double 1.0)]
    let rows : List Sort.Row := keys.map fun k => ([k], ⟨[("x", k.toList)]⟩)
    let input : Machine Tuple :=
      .emit "tuples" p () fun _ _ => .done (.ok (rows.map Prod.snd)) ()
    input.GivesAt c (.ofList (rows.map Prod.snd)) ∧
    (∀ row ∈ rows, List.Forall₂ (SortKey.Gives c row.2) [key] row.1) ∧
    ¬Sort.Clash c.implicitTimezone rows ∧
    ∃ sorted, Sort.Arranges c.implicitTimezone [⟨true, false⟩] rows sorted ∧
      ((Clause.order p [key]).machine input).GivesAt c (.ofList (sorted.map fun x => x.1.2)) := by
  intro p key now c keys rows input
  have plain : ∀ k ∈ keys, ∀ a ∈ k, a.isAtomic = true ∧
      Arithmetic.isPlaced c.implicitTimezone a = true ∧ (a.type ≠ .null → a.isNumeric = true) := by
    intro k hk a ha
    simp only [keys, List.mem_cons, List.not_mem_nil, or_false] at hk
    obtain rfl | rfl | rfl | rfl := hk <;> cases ha <;> decide
  have hi : input.GivesAt c (.ofList (rows.map Prod.snd)) :=
    Machine.emit_gives (r := .ok (rows.map Prod.snd)) fun _ => rfl
  have hk : ∀ row ∈ rows, List.Forall₂ (SortKey.Gives c row.2) [key] row.1 := by
    intro row hr
    obtain ⟨k, hm, rfl⟩ := List.mem_map.1 hr
    exact .cons ⟨(Expr.evaluate_eq _ _).trans rfl, fun a ha => (plain k hm a ha).1⟩ .nil
  have hc : ¬Sort.Clash c.implicitTimezone rows := by
    have numeric {i column : Nat} {r : Sort.Row} {a : Item} (hr : rows[i]? = some r)
        (ha : r.1[column]? = some (some a)) (hn : a.type ≠ .null) : a.isNumeric = true := by
      obtain ⟨k, hm, rfl⟩ := List.mem_map.1 (List.mem_of_getElem? hr)
      obtain rfl : some a = k := List.mem_singleton.1 (List.mem_of_getElem? ha)
      exact (plain _ hm a rfl).2.2 hn
    rintro ⟨i, j, -, r, s, hr, hs, column, a, b, ha, hb, hna, hnb, ho⟩
    exact ho ⟨_, Comparison.order_of_isNumeric _ (numeric hr ha hna) (numeric hs hb hnb)⟩
  have hp : ¬RowsBeyond c.implicitTimezone rows := by
    refine not_rowsBeyond_of_isPlaced fun row hr k hk a ha => ?_
    obtain ⟨k', hm, rfl⟩ := List.mem_map.1 hr
    obtain rfl := List.mem_singleton.1 hk
    exact (plain k hm a ha).2.1
  obtain ⟨-, hb⟩ | ⟨-, hs⟩ := (sorting_orders_tuples (p := p) hi hk).1
  · exact absurd hb hp
  · exact ⟨hi, hk, hc, hs hc⟩

theorem no_order_of_keys_beyond :
    let p : Position := ⟨1, 1⟩
    let key : SortKey := .mk (.variable p "x") ⟨false, false⟩
    let now : DateTime :=
      ⟨⟨2024, 1, 2, by decide, by decide, by decide⟩, ⟨0, 0, by decide, by decide⟩⟩
    let c : Context := .root ⟨.utc, ⟨now, .utc⟩, .empty⟩ ⟨[], none⟩
    let first : Item := .dateTime ⟨⟨-262143, 1, 1, by decide, by decide, by decide⟩, .midnight⟩
      (some ⟨50400, by decide⟩)
    let row : Sort.Row := ([some first], ⟨[("x", [first])]⟩)
    let input : Machine Tuple := .emit "tuples" p () fun _ _ => .done (.ok [row.2, row.2]) ()
    input.GivesAt c (.ofList [row.2, row.2]) ∧
    List.Forall₂ (SortKey.Gives c row.2) [key] row.1 ∧
    ¬Sort.Clash c.implicitTimezone [row, row] ∧
    ¬∃ outs, ((Clause.order p [key]).machine input).GivesAt c (.ofList outs) := by
  intro p key now c first row input
  have hi : input.GivesAt c (.ofList [row.2, row.2]) :=
    Machine.emit_gives (r := .ok [row.2, row.2]) fun _ => rfl
  have hk : List.Forall₂ (SortKey.Gives c row.2) [key] row.1 := by
    refine .cons ⟨(Expr.evaluate_eq _ _).trans rfl, fun a ha => ?_⟩ .nil
    cases ha
    rfl
  have hc : ¬Sort.Clash c.implicitTimezone [row, row] := by
    rintro ⟨i, j, -, r, s, hr, hs, column, a, b, ha, hb, -, -, ho⟩
    obtain rfl : r = row := by simpa using List.mem_of_getElem? hr
    obtain rfl : s = row := by simpa using List.mem_of_getElem? hs
    obtain rfl := Option.some.inj (List.mem_singleton.1 (List.mem_of_getElem? ha))
    obtain rfl := Option.some.inj (List.mem_singleton.1 (List.mem_of_getElem? hb))
    exact ho ⟨.eq, by decide⟩
  have hs : (Sort.tuples .utc [⟨false, false⟩] [row, row]).isOk = false := by decide
  have hg := @order_gives_tuples p [key] c input [row, row] hi fun r hr => by
    obtain rfl : r = row := by simpa using hr
    exact hk
  exact ⟨hi, hk, hc, hg.not_ofList hs⟩

end

end PullQuery
