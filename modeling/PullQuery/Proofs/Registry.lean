import Mathlib.Data.ENat.Basic
import Mathlib.Data.List.Induction
import Mathlib.Data.List.Sort
import Mathlib.Data.Prod.Lex
import PullQuery.Registry

namespace PullQuery

variable {β : Type}

namespace Overload

def greatest (o : Overload β) : ℕ∞ :=
  match o.most with
  | some n => n
  | none => ⊤

def Covers (o : Overload β) (arity : ℕ) : Prop := o.least ≤ arity ∧ (arity : ℕ∞) ≤ o.greatest

def MoreSpecific (o q : Overload β) : Prop :=
  q.least < o.least ∨ q.least = o.least ∧ o.greatest < q.greatest

def bounds (o : Overload β) : ℕ × Option ℕ := (o.least, o.most)

def rank (o : Overload β) : ℕᵒᵈ ×ₗ ℕ∞ := toLex (OrderDual.toDual o.least, o.greatest)

variable {o q : Overload β} {os : List (Overload β)} {arity : ℕ}

theorem greatest_injective (h : o.greatest = q.greatest) : o.most = q.most := by
  unfold greatest at h
  split at h <;> split at h <;> simp_all

theorem admits_iff : o.admits arity = true ↔ o.Covers arity := by
  unfold admits Covers greatest
  cases o.most <;> simp

theorem moreSpecific_iff : o.MoreSpecific q ↔ o.rank < q.rank := by
  rw [rank, rank, Prod.Lex.toLex_lt_toLex, OrderDual.toDual_lt_toDual, OrderDual.toDual_inj, MoreSpecific,
    @eq_comm ℕ q.least]

theorem precedes_iff : o.precedes q = true ↔ o.rank < q.rank := by
  rw [← moreSpecific_iff]
  rw [precedes, Bool.or_eq_true, Bool.and_eq_true, decide_eq_true_eq, beq_iff_eq, MoreSpecific,
    @eq_comm ℕ o.least, greatest, greatest]
  cases o.most <;> cases q.most <;> simp

theorem bounds_eq_of_rank (h : o.rank = q.rank) : o.bounds = q.bounds := by
  obtain ⟨hl, hg⟩ := Prod.mk.inj (toLex.injective h)
  exact Prod.ext (OrderDual.toDual.injective hl) (greatest_injective hg)

theorem mem_arities {n : ℕ} : n ∈ o.arities ↔ ∃ m, o.most = some m ∧ o.least ≤ n ∧ n ≤ m := by
  unfold arities
  cases o.most with
  | none => simp
  | some m => simp [and_comm]

def Ordered (os : List (Overload β)) : Prop := os.Pairwise fun o q => o.rank ≤ q.rank

theorem insert_perm (o : Overload β) (os : List (Overload β)) : (o.insert os).Perm (o :: os) := by
  induction os with
  | nil => exact .refl _
  | cons q os ih =>
    rw [insert]
    split
    · exact .refl _
    · exact (ih.cons q).trans (.swap o q os)

theorem mem_insert : q ∈ o.insert os ↔ q = o ∨ q ∈ os :=
  (insert_perm o os).mem_iff.trans List.mem_cons

theorem ordered_insert (h : Ordered os) : Ordered (o.insert os) := by
  induction os with
  | nil => exact List.pairwise_singleton _ o
  | cons q os ih =>
    obtain ⟨hq, hos⟩ := List.pairwise_cons.1 h
    rw [insert]
    split
    case isTrue hp =>
      have hlt := precedes_iff.1 hp
      refine List.pairwise_cons.2 ⟨List.forall_mem_cons.2 ⟨hlt.le, fun r hr => ?_⟩, h⟩
      exact hlt.le.trans (hq r hr)
    case isFalse hp =>
      refine List.pairwise_cons.2 ⟨fun r hr => ?_, ih hos⟩
      obtain rfl | hr := mem_insert.1 hr
      · exact not_lt.1 (mt precedes_iff.2 hp)
      · exact hq r hr

theorem find?_insert_of_not {p : Overload β → Bool} (h : p o = false) :
    (o.insert os).find? p = os.find? p := by
  induction os with
  | nil => rw [insert, List.find?_cons_of_neg (by simp [h])]
  | cons q os ih =>
    rw [insert]
    split
    · exact List.find?_cons_of_neg (by simp [h])
    · rw [List.find?_cons, List.find?_cons, ih]

theorem find?_insert {p : Overload β → Bool} (hos : Ordered os) (h : p o = true) :
    (o.insert os).find? p =
      some ((os.find? p).elim o fun q => if o.precedes q then o else q) := by
  induction os with
  | nil => exact List.find?_cons_of_pos h
  | cons q os ih =>
    obtain ⟨hq, hos⟩ := List.pairwise_cons.1 hos
    rw [insert]
    by_cases hp : o.precedes q = true
    · rw [if_pos hp, List.find?_cons_of_pos h]
      cases hf : (q :: os).find? p with
      | none => rfl
      | some r =>
        have hr : o.precedes r = true := by
          rw [precedes_iff] at hp ⊢
          obtain rfl | hr := List.mem_cons.1 (List.mem_of_find?_eq_some hf)
          · exact hp
          · exact hp.trans_le (hq r hr)
        rw [Option.elim_some, if_pos hr]
    · rw [if_neg hp]
      by_cases hpq : p q = true
      · rw [List.find?_cons_of_pos hpq, List.find?_cons_of_pos hpq, Option.elim_some, if_neg hp]
      · rw [List.find?_cons_of_neg hpq, List.find?_cons_of_neg hpq, ih hos]

/-- Overloads in the order in which resolution tries them, from the order of registration. -/
def arranged (os : List (Overload β)) : List (Overload β) := os.foldl (fun qs o => o.insert qs) []

theorem arranged_append (os : List (Overload β)) (o : Overload β) :
    arranged (os ++ [o]) = o.insert (arranged os) := by
  rw [arranged, List.foldl_append]
  rfl

theorem arranged_perm (os : List (Overload β)) : (arranged os).Perm os := by
  induction os using List.reverseRecOn with
  | nil => exact .nil
  | append_singleton os o ih =>
    rw [arranged_append]
    exact (insert_perm o _).trans ((ih.cons o).trans (List.perm_append_singleton o os).symm)

theorem ordered_arranged (os : List (Overload β)) : Ordered (arranged os) := by
  induction os using List.reverseRecOn with
  | nil => exact .nil
  | append_singleton os o ih =>
    rw [arranged_append]
    exact ordered_insert ih

/-- The overload takes the arity; every one that does so and was registered earlier is less specific,
and none that was registered later is more specific. -/
def Chosen (os : List (Overload β)) (arity : ℕ) (o : Overload β) : Prop :=
  ∃ earlier later, os = earlier ++ o :: later ∧ o.Covers arity ∧
    (∀ q ∈ earlier, q.Covers arity → o.MoreSpecific q) ∧
    ∀ q ∈ later, q.Covers arity → ¬q.MoreSpecific o

theorem Chosen.mem (h : Chosen os arity o) : o ∈ os := by
  obtain ⟨earlier, later, rfl, -⟩ := h
  exact List.mem_append_right _ List.mem_cons_self

theorem Chosen.covers (h : Chosen os arity o) : o.Covers arity := by
  obtain ⟨-, -, -, hc, -⟩ := h
  exact hc

theorem Chosen.rank_le (h : Chosen os arity o) (hq : q ∈ os) (hc : q.Covers arity) :
    o.rank ≤ q.rank := by
  obtain ⟨earlier, later, rfl, -, he, hl⟩ := h
  obtain hq | hq := List.mem_append.1 hq
  · exact (moreSpecific_iff.1 (he q hq hc)).le
  · obtain rfl | hq := List.mem_cons.1 hq
    · exact le_rfl
    · exact not_lt.1 (mt moreSpecific_iff.2 (hl q hq hc))

theorem Chosen.append (h : Chosen os arity o) (hq : q.Covers arity → ¬q.MoreSpecific o) :
    Chosen (os ++ [q]) arity o := by
  obtain ⟨earlier, later, rfl, hc, he, hl⟩ := h
  refine ⟨earlier, later ++ [q], by rw [List.append_assoc, List.cons_append], hc, he, fun r hr => ?_⟩
  obtain hr | hr := List.mem_append.1 hr
  · exact hl r hr
  · rwa [List.mem_singleton.1 hr]

theorem Chosen.unique (ho : Chosen os arity o) (hq : Chosen os arity q) : o = q := by
  obtain ⟨earlier, later, rfl, hco, heo, hlo⟩ := ho
  obtain ⟨earlier', later', heq, hcq, heq', hlq⟩ := hq
  obtain ⟨as, hl, hr⟩ | ⟨as, hl, hr⟩ := List.append_eq_append_iff.1 heq
  · cases as with
    | nil => exact (List.cons.inj hr).1
    | cons a as =>
      obtain ⟨rfl, rfl⟩ := List.cons.inj hr
      have hmore := heq' o (hl ▸ by simp) hco
      exact absurd hmore (hlo q (by simp) hcq)
  · cases as with
    | nil => exact (List.cons.inj hr).1.symm
    | cons a as =>
      obtain ⟨rfl, rfl⟩ := List.cons.inj hr
      have hmore := heo q (hl ▸ by simp) hcq
      exact absurd hmore (hlq o (by simp) hco)

theorem find?_arranged (os : List (Overload β)) (arity : ℕ) :
    (∃ o, (arranged os).find? (·.admits arity) = some o ∧ Chosen os arity o) ∨
      (arranged os).find? (·.admits arity) = none ∧ ∀ o ∈ os, ¬o.Covers arity := by
  induction os using List.reverseRecOn with
  | nil => exact .inr ⟨rfl, nofun⟩
  | append_singleton os q ih =>
    rw [arranged_append]
    by_cases hq : q.admits arity = true
    · left
      rw [find?_insert (ordered_arranged os) hq]
      refine ⟨_, rfl, ?_⟩
      obtain ⟨o, ho, hchosen⟩ | ⟨hn, hall⟩ := ih
      · rw [ho, Option.elim_some]
        split
        case isTrue hp =>
          refine ⟨os, [], rfl, admits_iff.1 hq, fun r hr hc => ?_, nofun⟩
          exact moreSpecific_iff.2 ((precedes_iff.1 hp).trans_le (hchosen.rank_le hr hc))
        case isFalse hp =>
          exact hchosen.append fun _ hm => hp (precedes_iff.2 (moreSpecific_iff.1 hm))
      · rw [hn]
        exact ⟨os, [], rfl, admits_iff.1 hq, fun r hr hc => absurd hc (hall r hr), nofun⟩
    · rw [find?_insert_of_not (by simpa using hq)]
      have hc : ¬q.Covers arity := mt admits_iff.2 hq
      obtain ⟨o, ho, hchosen⟩ | ⟨hn, hall⟩ := ih
      · exact .inl ⟨o, ho, hchosen.append fun h => absurd h hc⟩
      · refine .inr ⟨hn, fun o ho => ?_⟩
        obtain ho | ho := List.mem_append.1 ho
        · exact hall o ho
        · rwa [List.mem_singleton.1 ho]

theorem Chosen.eq_of_perm {qs : List (Overload β)} (hd : (os.map bounds).Nodup) (hp : os.Perm qs)
    (ho : Chosen os arity o) (hq : Chosen qs arity q) : o = q := by
  have hmem : q ∈ os := hp.mem_iff.2 hq.mem
  have hle := ho.rank_le hmem hq.covers
  have hge := hq.rank_le (hp.mem_iff.1 ho.mem) ho.covers
  exact List.inj_on_of_nodup_map hd ho.mem hmem (bounds_eq_of_rank (le_antisymm hle hge))

end Overload

namespace Registry

open Overload

variable {name : String} {os : List (Overload β)} {arity : ℕ}

theorem eraseDups_sublist : ∀ ns : List ℕ, ns.eraseDups.Sublist ns
  | [] => .slnil
  | n :: ns => by
    rw [List.eraseDups_cons]
    exact .cons_cons n ((eraseDups_sublist _).trans List.filter_sublist)
termination_by ns => ns.length
decreasing_by exact Nat.lt_succ_of_le (List.length_filter_le ..)

theorem nodup_eraseDups : ∀ ns : List ℕ, ns.eraseDups.Nodup
  | [] => .nil
  | n :: ns => by
    rw [List.eraseDups_cons, List.nodup_cons]
    exact ⟨fun h => by simpa using List.mem_eraseDups.1 h, nodup_eraseDups _⟩
termination_by ns => ns.length
decreasing_by exact Nat.lt_succ_of_le (List.length_filter_le ..)

theorem mem_knownArities {n : ℕ} : n ∈ knownArities os ↔
    ∃ o ∈ os, ∃ m, o.most = some m ∧ o.least ≤ n ∧ n ≤ m := by
  simp only [knownArities, List.mem_eraseDups, List.mem_mergeSort, List.mem_flatMap, mem_arities]

theorem knownArities_increasing (os : List (Overload β)) :
    (knownArities os).Pairwise (· < ·) := by
  have hle : (knownArities os).Pairwise (· ≤ ·) := by
    refine List.Pairwise.sublist (eraseDups_sublist _) ?_
    have hs := @List.pairwise_mergeSort ℕ (fun m n => decide (m ≤ n)) (by simp; omega)
      (by simp; omega) (os.flatMap arities)
    exact hs.imp of_decide_eq_true
  exact (hle.and (nodup_eraseDups _)).imp fun h => lt_of_le_of_ne h.1 h.2

theorem knownArities_eq_iff {ns : List ℕ} : knownArities os = ns ↔
    ns.Pairwise (· < ·) ∧ ∀ n, n ∈ ns ↔ ∃ o ∈ os, ∃ m, o.most = some m ∧ o.least ≤ n ∧ n ≤ m := by
  have hos := knownArities_increasing os
  constructor
  · rintro rfl
    exact ⟨hos, fun _ => mem_knownArities⟩
  · rintro ⟨hns, hmem⟩
    refine List.Perm.eq_of_pairwise (fun m n _ _ hm hn => absurd hn hm.not_gt) hos hns ?_
    refine (List.perm_ext_iff_of_nodup (hos.imp ne_of_lt) (hns.imp ne_of_lt)).2 fun n => ?_
    rw [mem_knownArities, hmem]

def ofList (rs : List (String × Overload β)) : Registry β :=
  rs.foldl (fun r s => r.register s.1 s.2) empty

def named (name : String) (rs : List (String × Overload β)) : List (Overload β) :=
  (rs.filter fun s => s.1 = name).map Prod.snd

theorem find?_ofList (rs : List (String × Overload β)) (name : String) :
    Fields.find? name (ofList rs).overloads =
      if named name rs = [] then none else some (arranged (named name rs)) := by
  induction rs using List.reverseRecOn with
  | nil => rfl
  | append_singleton rs s ih =>
    have hreg : ofList (rs ++ [s]) = (ofList rs).register s.1 s.2 := by
      rw [ofList, List.foldl_append]
      rfl
    rw [hreg, register, Fields.find?_insert]
    by_cases hs : s.1 = name
    · have hnamed : named name (rs ++ [s]) = named name rs ++ [s.2] := by
        rw [named, List.filter_append, List.filter_cons_of_pos (by simpa using hs), List.map_append]
        rfl
      rw [if_pos hs, hnamed, if_neg (List.append_ne_nil_of_right_ne_nil _ (List.cons_ne_nil _ _)),
        arranged_append, hs, ih]
      split
      case isTrue h => rw [h]; rfl
      case isFalse => rfl
    · have hnamed : named name (rs ++ [s]) = named name rs := by
        rw [named, List.filter_append, List.filter_cons_of_neg (by simpa using hs),
          List.filter_nil, List.append_nil]
        rfl
      rw [if_neg hs, hnamed, ih]

variable {rs : List (String × Overload β)}

theorem resolve_of_named_nil (h : named name rs = []) :
    (ofList rs).resolve name arity = .error (.unknownFunction name) := by
  rw [resolve, find?_ofList, if_pos h]

theorem resolve_of_named (h : named name rs ≠ []) : (ofList rs).resolve name arity =
    ((arranged (named name rs)).find? (·.admits arity)).elim
      (.error (.wrongArity name (knownArities (arranged (named name rs))))) fun o => .ok o.body := by
  rw [resolve, find?_ofList, if_neg h]
  dsimp only
  cases (arranged (named name rs)).find? (·.admits arity) <;> rfl

theorem resolve_cases (rs : List (String × Overload β)) (name : String) (arity : ℕ) :
    (named name rs = [] ∧ (ofList rs).resolve name arity = .error (.unknownFunction name)) ∨
    (∃ o, Chosen (named name rs) arity o ∧ (ofList rs).resolve name arity = .ok o.body) ∨
    (named name rs ≠ [] ∧ (∀ o ∈ named name rs, ¬o.Covers arity) ∧
      (ofList rs).resolve name arity =
        .error (.wrongArity name (knownArities (arranged (named name rs))))) := by
  by_cases h : named name rs = []
  · exact .inl ⟨h, resolve_of_named_nil h⟩
  · have hr := @resolve_of_named _ name arity rs h
    obtain ⟨o, ho, hchosen⟩ | ⟨hn, hall⟩ := find?_arranged (named name rs) arity
    · rw [ho] at hr
      exact .inr (.inl ⟨o, hchosen, hr⟩)
    · rw [hn] at hr
      exact .inr (.inr ⟨h, hall, hr⟩)

theorem exists_arranged_iff {P : Overload β → Prop} :
    (∃ o ∈ arranged os, P o) ↔ ∃ o ∈ os, P o := by
  simp only [(arranged_perm os).mem_iff]

theorem named_eq_nil_iff : named name rs = [] ↔ ∀ r ∈ rs, r.1 ≠ name := by
  rw [named, List.map_eq_nil_iff, List.filter_eq_nil_iff]
  simp

theorem resolve_of_perm {qs : List (String × Overload β)}
    (hd : ((named name rs).map bounds).Nodup) (hp : rs.Perm qs) :
    (ofList rs).resolve name arity = (ofList qs).resolve name arity := by
  have hnamed : (named name rs).Perm (named name qs) := (hp.filter _).map _
  obtain ⟨hn, hr⟩ | ⟨o, ho, hr⟩ | ⟨hn, hall, hr⟩ := resolve_cases rs name arity
  · have hqs : named name qs = [] := List.perm_nil.1 (hn ▸ hnamed.symm)
    rw [hr, resolve_of_named_nil hqs]
  · obtain ⟨hqs, -⟩ | ⟨q, hq, hr'⟩ | ⟨-, hall, -⟩ := resolve_cases qs name arity
    · exact absurd (hqs ▸ hnamed.mem_iff.1 ho.mem) List.not_mem_nil
    · rw [hr, hr', ho.eq_of_perm hd hnamed hq]
    · exact absurd ho.covers (hall o (hnamed.mem_iff.1 ho.mem))
  · obtain ⟨hqs, -⟩ | ⟨q, hq, -⟩ | ⟨-, -, hr'⟩ := resolve_cases qs name arity
    · exact absurd (List.perm_nil.1 (hqs ▸ hnamed)) hn
    · exact absurd hq.covers (hall q (hnamed.mem_iff.2 hq.mem))
    · have hlists : knownArities (arranged (named name rs)) =
          knownArities (arranged (named name qs)) := by
        refine knownArities_eq_iff.2 ⟨knownArities_increasing _, fun n => ?_⟩
        rw [mem_knownArities, exists_arranged_iff, exists_arranged_iff]
        simp only [hnamed.mem_iff]
      rw [hr, hr', hlists]

theorem resolve_eq_ok_iff {b : β} : (ofList rs).resolve name arity = .ok b ↔
    ∃ o, Chosen (named name rs) arity o ∧ o.body = b := by
  constructor
  · intro h
    obtain ⟨-, hr⟩ | ⟨o, ho, hr⟩ | ⟨-, -, hr⟩ := resolve_cases rs name arity
    · cases hr.symm.trans h
    · exact ⟨o, ho, Except.ok.inj (hr.symm.trans h)⟩
    · cases hr.symm.trans h
  · rintro ⟨o, ho, rfl⟩
    obtain ⟨hn, -⟩ | ⟨q, hq, hr⟩ | ⟨-, hall, -⟩ := resolve_cases rs name arity
    · exact absurd (hn ▸ ho.mem) List.not_mem_nil
    · rw [hr, ho.unique hq]
    · exact absurd ho.covers (hall o ho.mem)

theorem resolve_eq_unknown_iff :
    (ofList rs).resolve name arity = .error (.unknownFunction name) ↔ ∀ r ∈ rs, r.1 ≠ name := by
  rw [← named_eq_nil_iff]
  refine ⟨fun h => ?_, resolve_of_named_nil⟩
  obtain ⟨hn, -⟩ | ⟨o, -, hr⟩ | ⟨-, -, hr⟩ := resolve_cases rs name arity
  · exact hn
  · cases hr.symm.trans h
  · cases hr.symm.trans h

theorem resolve_eq_wrongArity_iff {ns : List ℕ} :
    (ofList rs).resolve name arity = .error (.wrongArity name ns) ↔
      (∃ r ∈ rs, r.1 = name) ∧ (∀ o ∈ named name rs, ¬o.Covers arity) ∧ ns.Pairwise (· < ·) ∧
        ∀ n, n ∈ ns ↔ ∃ o ∈ named name rs, ∃ m, o.most = some m ∧ o.least ≤ n ∧ n ≤ m := by
  have hnamed : (∃ r ∈ rs, r.1 = name) ↔ named name rs ≠ [] := by
    rw [Ne, named_eq_nil_iff]
    push Not
    exact Iff.rfl
  rw [hnamed]
  obtain ⟨hn, hr⟩ | ⟨o, ho, hr⟩ | ⟨hn, hall, hr⟩ := resolve_cases rs name arity
  · refine iff_of_false (fun h => ?_) fun h => h.1 hn
    cases hr.symm.trans h
  · refine iff_of_false (fun h => ?_) fun h => h.2.1 o ho.mem ho.covers
    cases hr.symm.trans h
  · rw [hr, Except.error.injEq, Error.Cause.wrongArity.injEq, and_iff_right rfl,
      knownArities_eq_iff, and_iff_right hn, and_iff_right hall]
    simp only [exists_arranged_iff]

theorem resolve_error_cases {e : Error.Cause} (h : (ofList rs).resolve name arity = .error e) :
    e = .unknownFunction name ∨ ∃ ns, e = .wrongArity name ns := by
  obtain ⟨-, hr⟩ | ⟨o, -, hr⟩ | ⟨-, -, hr⟩ := resolve_cases rs name arity
  · exact .inl (Except.error.inj (h.symm.trans hr))
  · cases hr.symm.trans h
  · exact .inr ⟨_, Except.error.inj (h.symm.trans hr)⟩

/-- Whatever was registered in whatever order, a name and an arity mean the chosen overload; a name
that was never registered is unknown, and for a name without an overload of the arity the arities of
its bounded overloads are listed. If no two overloads of the name have the same range, the order of
registration makes no difference. -/
theorem most_specific_overload_resolved (rs : List (String × Overload β)) (name : String)
    (arity : ℕ) :
    (∀ b, (ofList rs).resolve name arity = .ok b ↔
      ∃ o, Chosen (named name rs) arity o ∧ o.body = b) ∧
    ((ofList rs).resolve name arity = .error (.unknownFunction name) ↔ ∀ r ∈ rs, r.1 ≠ name) ∧
    (∀ ns, (ofList rs).resolve name arity = .error (.wrongArity name ns) ↔
      (∃ r ∈ rs, r.1 = name) ∧ (∀ o ∈ named name rs, ¬o.Covers arity) ∧ ns.Pairwise (· < ·) ∧
        ∀ n, n ∈ ns ↔ ∃ o ∈ named name rs, ∃ m, o.most = some m ∧ o.least ≤ n ∧ n ≤ m) ∧
    (∀ e, (ofList rs).resolve name arity = .error e →
      e = .unknownFunction name ∨ ∃ ns, e = .wrongArity name ns) ∧
    (((named name rs).map bounds).Nodup → ∀ qs, rs.Perm qs →
      (ofList qs).resolve name arity = (ofList rs).resolve name arity) := by
  exact ⟨fun _ => resolve_eq_ok_iff, resolve_eq_unknown_iff, fun _ => resolve_eq_wrongArity_iff,
    fun _ => resolve_error_cases, fun hd _ hp => (resolve_of_perm hd hp).symm⟩

theorem overlapping_overloads_resolved :
    ((named "f" [("f", ⟨1, some 4, 'a'⟩), ("f", ⟨2, none, 'b'⟩), ("g", ⟨3, some 3, 'c'⟩),
      ("f", ⟨2, some 3, 'd'⟩)]).map bounds).Nodup ∧
    ∀ qs, [("f", ⟨1, some 4, 'a'⟩), ("f", ⟨2, none, 'b'⟩), ("g", ⟨3, some 3, 'c'⟩),
      ("f", ⟨2, some 3, 'd'⟩)].Perm qs →
        (ofList qs).resolve "f" 3 = .ok 'd' ∧ (ofList qs).resolve "f" 5 = .ok 'b' := by
  have hd : ((named "f" [("f", ⟨1, some 4, 'a'⟩), ("f", ⟨2, none, 'b'⟩), ("g", ⟨3, some 3, 'c'⟩),
      ("f", ⟨2, some 3, 'd'⟩)]).map bounds).Nodup := by decide
  refine ⟨hd, fun qs hp => ⟨?_, ?_⟩⟩
  · rw [(most_specific_overload_resolved _ "f" 3).2.2.2.2 hd qs hp]
    rfl
  · rw [(most_specific_overload_resolved _ "f" 5).2.2.2.2 hd qs hp]
    rfl

end Registry

end PullQuery
