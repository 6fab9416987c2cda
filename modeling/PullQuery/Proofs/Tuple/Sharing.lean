import PullQuery.Proofs.Tuple.Grouping

namespace PullQuery.Group

open Comparison

def Unblurred (z : Zone) (rows : List Row) : Prop :=
  ∀ r ∈ rows, ∀ s ∈ rows, ∀ t ∈ rows, ∀ (i : Nat) (a b c : Item), r.1[i]? = some (some a) →
    s.1[i]? = some (some b) → t.1[i]? = some (some c) → Comparison.sameKey z a b = true →
    Comparison.sameKey z b c = true → ¬a.Blurred b c

variable {z : Zone} {rows firsts : List Row} {r s t : Row} {homes : List Nat} {i j : Nat}

theorem SameKey.symm {k l : Option Item} (h : SameKey z k l) : SameKey z l k := by
  cases h with
  | absent => exact .absent
  | items h => exact .items ((sameKey_comm z _ _).trans h)

theorem SameKeys.symm {ks ls : List (Option Item)} (h : SameKeys z ks ls) : SameKeys z ls ks :=
  h.flip.imp fun _ _ h => SameKey.symm h

theorem SameKeys.trans (hu : Unblurred z rows) (hr : r ∈ rows) (hs : s ∈ rows) (ht : t ∈ rows)
    (h : SameKeys z r.1 s.1) (h' : SameKeys z s.1 t.1) : SameKeys z r.1 t.1 := by
  refine List.forall₂_iff_get.2 ⟨h.length_eq.trans h'.length_eq, fun i hi hj => ?_⟩
  have hi' : i < s.1.length := h.length_eq ▸ hi
  have hrs := (List.forall₂_iff_get.1 h).2 i hi hi'
  have hst := (List.forall₂_iff_get.1 h').2 i hi' hj
  have hri := List.getElem?_eq_getElem hi
  have hsi := List.getElem?_eq_getElem hi'
  have hti := List.getElem?_eq_getElem hj
  simp only [List.get_eq_getElem] at hrs hst ⊢
  generalize r.1[i] = k at hrs hri ⊢
  generalize s.1[i] = l at hrs hst hsi
  generalize t.1[i] = m at hst hti ⊢
  cases hrs with
  | absent => exact hst
  | @items a b hab =>
    cases hst with
    | @items _ c hbc =>
      refine .items (Bool.eq_true_of_not_eq_false fun hac => ?_)
      exact hu r hr s hs t ht i a b c hri hsi hti hab hbc ((sameKey_eq_false_iff hab hbc).1 hac)

theorem Classifies.belongs (h : Classifies z rows homes firsts) (hr : rows[i]? = some r) :
    ∃ n, homes[i]? = some n ∧ Belongs z firsts r n := by
  obtain ⟨hi, rfl⟩ := List.getElem?_eq_some_iff.1 hr
  have hi' : i < homes.length := h.length_eq ▸ hi
  exact ⟨homes[i], List.getElem?_eq_getElem hi', (List.forall₂_iff_get.1 h.earliest).2 i hi hi'⟩

theorem Classifies.share_iff (h : Classifies z rows homes firsts) (hu : Unblurred z rows)
    (hr : rows[i]? = some r) (hs : rows[j]? = some s) :
    homes[i]? = homes[j]? ↔ SameKeys z r.1 s.1 := by
  obtain ⟨m, hm, ⟨f, hf, hfr⟩, hbefore⟩ := h.belongs hr
  obtain ⟨n, hn, ⟨g, hg, hgs⟩, hbefore'⟩ := h.belongs hs
  have hmr := List.mem_of_getElem? hr
  have hms := List.mem_of_getElem? hs
  have hmf := h.mem_rows_of_getElem? hf
  have hmg := h.mem_rows_of_getElem? hg
  rw [hm, hn, Option.some_inj]
  constructor
  · rintro rfl
    obtain rfl : f = g := Option.some.inj (hf.symm.trans hg)
    exact hfr.symm.trans hu hmr hmf hms hgs
  · intro hrs
    obtain hlt | heq | hgt := Nat.lt_trichotomy m n
    · exact absurd (hfr.trans hu hmf hmr hms hrs) (hbefore' m hlt f hf)
    · exact heq
    · exact absurd (hgs.trans hu hmg hms hmr hrs.symm) (hbefore n hgt g hg)

section Keys

variable {a b c : Item}

theorem sameKey_eq_ok_true_iff : sameKey z (some a) (some b) = .ok true ↔
    Arithmetic.isBeyond z a b = false ∧ Comparison.sameKey z a b = true := by
  rw [sameKey]
  cases hb : Arithmetic.isBeyond z a b with
  | true =>
    rw [Arithmetic.placing_of_beyond hb]
    refine iff_of_false (fun h => ?_) fun h => Bool.false_ne_true h.1.symm
    cases h
  | false =>
    rw [Arithmetic.placing_of_placed hb, Except.ok.injEq]
    exact (and_iff_right rfl).symm

theorem type_eq_of_sameKey (hp : a.type.isPoint = true) (h : Comparison.sameKey z a b = true) :
    a.type = b.type := by
  have hn : a.isNumeric = false ∧ a.duration? = none := by
    cases a <;> first | exact ⟨rfl, rfl⟩ | cases hp
  obtain ⟨-, -, h⟩ := sameKey_iff.1 h
  rw [hn.1, Bool.false_and, if_neg Bool.false_ne_true] at h
  exact type_eq_of_identity_eq hn.2 h

theorem isBeyond_of_sameKey (hab : sameKey z (some a) (some b) = .ok true)
    (hbc : sameKey z (some b) (some c) = .ok true) : Arithmetic.isBeyond z a c = false := by
  rw [sameKey_eq_ok_true_iff, Arithmetic.isBeyond_eq_false_iff] at hab hbc
  rw [Arithmetic.isBeyond_eq_false_iff]
  intro hac
  cases hp : a.type.isPoint with
  | false => exact ⟨Arithmetic.isPlaced_of_not_isPoint hp, Arithmetic.isPlaced_of_not_isPoint (hac ▸ hp)⟩
  | true =>
    have ht := type_eq_of_sameKey hp hab.2
    exact ⟨(hab.1 ht).1, (hbc.1 (ht.symm.trans hac)).2⟩

theorem sameKey_self (z : Zone) (a : Item) : sameKey z (some a) (some a) =
    if Arithmetic.isBeyond z a a then .error (.of .stopped) else .ok a.isAtomic := by
  rw [sameKey, Comparison.sameKey_self]
  rfl

theorem sameKey_comm (z : Zone) (a b : Item) :
    sameKey z (some a) (some b) = sameKey z (some b) (some a) := by
  rw [sameKey, sameKey, Arithmetic.placing, Arithmetic.placing, Arithmetic.isBeyond_comm,
    Comparison.sameKey_comm]

theorem exists_sameKey (hab : sameKey z (some a) (some b) = .ok true)
    (hbc : sameKey z (some b) (some c) = .ok true) :
    ∃ same, sameKey z (some a) (some c) = .ok same ∧ (same = false ↔ a.Blurred b c) := by
  refine ⟨Comparison.sameKey z a c, ?_, ?_⟩
  · exact Arithmetic.placing_of_placed (isBeyond_of_sameKey hab hbc) _
  · exact sameKey_eq_false_iff (sameKey_eq_ok_true_iff.1 hab).2 (sameKey_eq_ok_true_iff.1 hbc).2

end Keys

end PullQuery.Group

namespace PullQuery

open Comparison

/-- Grouping keys are classified by being the same key, except that of three keys, each the same as
the next, the first and the last differ when a floating-point number blurs exact ones; without such
keys in a column, the groups are the classes of rows with the same keys. The program stops at two
points of one type if the calendar does not have the instant of one of them. -/
theorem grouping_classifies_unblurred (z : Zone) (a b c : Item) {rows : List Group.Row}
    {count : Nat} (hk : ∀ row ∈ rows, Keyed count row) :
    Group.sameKey z (some a) (some a) =
      (if Arithmetic.isBeyond z a a then .error (.of .stopped) else .ok a.isAtomic) ∧
    Group.sameKey z (some a) (some b) = Group.sameKey z (some b) (some a) ∧
    (Group.sameKey z (some a) (some b) = .ok true → Group.sameKey z (some b) (some c) = .ok true →
      ∃ same, Group.sameKey z (some a) (some c) = .ok same ∧ (same = false ↔ a.Blurred b c)) ∧
    ((Group.classify z rows = .error (.of .stopped) ∧ RowsBeyond z rows) ∨
      ∃ homes firsts gs, Group.classify z rows = .ok gs ∧ Group.Classifies z rows homes firsts ∧
        Group.Fills rows homes firsts gs ∧
        (Group.Unblurred z rows → ∀ (i j : Nat) (r s : Group.Row), rows[i]? = some r →
          rows[j]? = some s → (homes[i]? = homes[j]? ↔ Group.SameKeys z r.1 s.1))) := by
  refine ⟨Group.sameKey_self z a, Group.sameKey_comm z a b, Group.exists_sameKey, ?_⟩
  obtain hb | ⟨homes, firsts, gs, hg, hc, hf⟩ := Group.exists_classification z hk
  · exact .inl hb
  · exact .inr ⟨homes, firsts, gs, hg, hc, hf, fun hu i j r s hr hs => hc.share_iff hu hr hs⟩

theorem integers_blurred_by_double :
    let wide : Item := .integer 9007199254740993
    let near : Item := .integer 9007199254740992
    let double : Item := .double (Float.ofBits 0x4340000000000000)
    let rows : List Group.Row := [([some wide], .empty), ([some double], .empty)]
    (∀ row ∈ rows, Keyed 1 row) ∧ wide.Blurred double near ∧ Group.Unblurred .utc rows ∧
    Group.sameKey .utc (some wide) (some near) = .ok false ∧
    Group.sameKey .utc (some wide) (some wide) = .ok true ∧
    ∃ homes firsts, Group.Classifies .utc rows homes firsts ∧ homes[0]? = homes[1]? := by
  intro wide near double rows
  have hk : ∀ row ∈ rows, Keyed 1 row := by
    intro row hr
    simp only [rows, List.mem_cons, List.not_mem_nil, or_false] at hr
    obtain rfl | rfl := hr
    · exact ⟨rfl, by simp [wide, Item.isAtomic]; decide⟩
    · exact ⟨rfl, by simp [double, Item.isAtomic]; decide⟩
  have hu : Group.Unblurred .utc rows := by
    have isWide {r : Group.Row} {i : Nat} {a : Item} (hr : r ∈ rows)
        (ha : r.1[i]? = some (some a)) (hd : a.type.isDecimal = true) : a = wide := by
      simp only [rows, List.mem_cons, List.not_mem_nil, or_false] at hr
      have hm := List.mem_of_getElem? ha
      obtain rfl | rfl := hr <;> obtain rfl := Option.some.inj (List.mem_singleton.1 hm)
      · rfl
      · cases hd
    rintro r hr s hs t ht i a b c ha hb hc - -
      (⟨hda, -, hdc, hne⟩ | ⟨hda, hdb, -, hne⟩ | ⟨-, hdb, hdc, hne⟩)
    · exact hne (by rw [isWide hr ha hda, isWide ht hc hdc])
    · exact hne (by rw [isWide hr ha hda, isWide hs hb hdb])
    · exact hne (by rw [isWide hs hb hdb, isWide ht hc hdc])
  have hb : wide.Blurred double near :=
    .inl ⟨rfl, rfl, rfl, by simp [wide, near, Item.exactWorth?, Item.decimal?]⟩
  have hp : ¬RowsBeyond .utc rows := by
    refine not_rowsBeyond_of_isPlaced fun row hr k hk a ha => ?_
    simp only [rows, List.mem_cons, List.not_mem_nil, or_false] at hr
    obtain rfl | rfl := hr <;> obtain rfl := List.mem_singleton.1 hk <;> cases ha <;> rfl
  have hwd : sameKey .utc wide double = true := by decide
  have hdn : sameKey .utc double near = true := by decide
  obtain ⟨hself, -, htrans, hr⟩ := grouping_classifies_unblurred .utc wide double near hk
  obtain ⟨same, hs, hfalse⟩ := htrans (Group.sameKey_eq_ok_true_iff.2 ⟨rfl, hwd⟩)
    (Group.sameKey_eq_ok_true_iff.2 ⟨rfl, hdn⟩)
  obtain ⟨-, hn⟩ | ⟨homes, firsts, gs, -, hc, -, hshare⟩ := hr
  · exact absurd hn hp
  · exact ⟨hk, hb, hu, hfalse.2 hb ▸ hs, hself, homes, firsts, hc,
      (hshare hu 0 1 _ _ rfl rfl).2 (.cons (.items hwd) .nil)⟩

theorem groups_depend_on_order :
    let wide : Item := .integer 9007199254740993
    let near : Item := .integer 9007199254740992
    let double : Item := .double (Float.ofBits 0x4340000000000000)
    let groups : List Item → Option Nat := fun ks =>
      (Group.ofRows .utc ["x"] (ks.map fun k => ([some k], .empty))).toOption.map List.length
    (sameKey .utc wide double = true ∧ sameKey .utc double near = true ∧
      sameKey .utc wide near = false) ∧
    groups [double, near, wide] = some 1 ∧ groups [near, double, wide] = some 2 := by
  decide

end PullQuery
