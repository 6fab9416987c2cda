import Mathlib.Data.List.Induction
import PullQuery.Proofs.Comparison.Classes
import PullQuery.Proofs.Tuple.Binding
import PullQuery.Proofs.Tuple.Rows

namespace PullQuery.Group

open Comparison

abbrev Row := List (Option Item) × Tuple

inductive SameKey (z : Zone) : Option Item → Option Item → Prop
  | absent : SameKey z none none
  | items {a b : Item} (h : Comparison.sameKey z a b = true) : SameKey z (some a) (some b)

def SameKeys (z : Zone) : List (Option Item) → List (Option Item) → Prop :=
  List.Forall₂ (SameKey z)

def Belongs (z : Zone) (firsts : List Row) (row : Row) (n : Nat) : Prop :=
  (∃ first, firsts[n]? = some first ∧ SameKeys z first.1 row.1) ∧
    ∀ m < n, ∀ other, firsts[m]? = some other → ¬SameKeys z other.1 row.1

def members (rows : List Row) (homes : List Nat) (n : Nat) : List Row :=
  ((rows.zip homes).filter fun x => x.2 == n).map Prod.fst

/-- Every row has a home, the number of its group, and every group a first row. -/
structure Classifies (z : Zone) (rows : List Row) (homes : List Nat) (firsts : List Row) :
    Prop where
  earliest : List.Forall₂ (Belongs z firsts) rows homes
  first : ∀ n, (members rows homes n).head? = firsts[n]?
  inOrder : ∀ i n, homes[i]? = some n → ∀ m < n, m ∈ homes.take i

structure Fills (rows : List Row) (homes : List Nat) (firsts : List Row) (gs : List Group) :
    Prop where
  keys : gs.map Group.keys = firsts.map Prod.fst
  tuples : ∀ n g, gs[n]? = some g → g.tuples.reverse = (members rows homes n).map Prod.snd

def gathered (name : String) (rows : List Row) : Option Items :=
  match rows.filterMap fun row => row.2.get? name with
  | [] => none
  | values => some values.flatten

structure Summarizes (names : List String) (first : Row) (rows : List Row) (t : Tuple) : Prop where
  keys : List.Forall₂ (fun name key => t.get? name = some key.toList) names first.1
  others : ∀ name ∉ names, t.get? name = gathered name rows

variable {z : Zone} {rows firsts : List Row} {row : Row} {homes : List Nat} {gs : List Group}
  {count n : Nat}

section Keys

variable {ks ls : List (Option Item)}

/-- What the comparison of the keys of two rows tells. -/
inductive Tells (z : Zone) (ks ls : List (Option Item)) : Except Error Bool → Prop
  | stops (h : KeysBeyond z ks ls) : Tells z ks ls (.error (.of .stopped))
  | same (h : SameKeys z ks ls) : Tells z ks ls (.ok true)
  | other (h : ¬SameKeys z ks ls) : Tells z ks ls (.ok false)

theorem sameKey_tells (z : Zone) (k l : Option Item) : Tells z [k] [l] (sameKey z k l) := by
  have other (h : ¬SameKey z k l) : Tells z [k] [l] (.ok false) :=
    .other fun hs => h (List.forall₂_cons.1 hs).1
  cases k with
  | none => cases l with
    | none => exact .same (.cons .absent .nil)
    | some b => exact other nofun
  | some a => cases l with
    | none => exact other nofun
    | some b =>
      rw [sameKey]
      cases hb : Arithmetic.isBeyond z a b with
      | true =>
        rw [Arithmetic.placing_of_beyond hb]
        exact .stops (.single hb)
      | false =>
        rw [Arithmetic.placing_of_placed hb]
        cases h : Comparison.sameKey z a b with
        | true => exact .same (.cons (.items h) .nil)
        | false =>
          refine other fun hs => ?_
          cases hs with
          | items hs => exact Bool.false_ne_true (h.symm.trans hs)

theorem sameKeys_tells (h : ks.length = ls.length) : Tells z ks ls (sameKeys z ks ls) := by
  induction ks generalizing ls with
  | nil =>
    cases ls with
    | nil => exact .same .nil
    | cons => cases h
  | cons k ks ih =>
    cases ls with
    | nil => cases h
    | cons l ls =>
      have hk := sameKey_tells z k l
      have ht := ih (Nat.succ.inj h)
      rw [sameKeys]
      generalize sameKey z k l = told at hk ⊢
      cases hk with
      | stops hb => exact .stops (hb.append ks ls)
      | other hn => exact .other fun h => hn (.cons (List.forall₂_cons.1 h).1 .nil)
      | same hs =>
        change Tells z (k :: ks) (l :: ls) (sameKeys z ks ls)
        generalize sameKeys z ks ls = rest at ht ⊢
        cases ht with
        | stops hb => exact .stops hb.cons
        | same h => exact .same (.cons (List.forall₂_cons.1 hs).1 h)
        | other hn => exact .other fun h => hn (List.forall₂_cons.1 h).2

theorem sameKeys_self (h : ∀ k ∈ ks, ∀ a ∈ k, a.isAtomic = true) : SameKeys z ks ks := by
  refine List.forall₂_same.2 fun k hk => ?_
  cases k with
  | none => exact .absent
  | some a => exact .items ((sameKey_self z a).trans (h _ hk a rfl))

end Keys

/-- Keys join the first group that has the same ones, or begin a group. -/
theorem place_cases {z : Zone} {keys : List (Option Item)} (t : Tuple) {gs : List Group}
    (hl : ∀ g ∈ gs, g.keys.length = keys.length) :
    (place z keys t gs = .error (.of .stopped) ∧ ∃ g ∈ gs, KeysBeyond z g.keys keys) ∨
    (∃ n g, gs[n]? = some g ∧ SameKeys z g.keys keys ∧
      (∀ m < n, ∀ h, gs[m]? = some h → ¬SameKeys z h.keys keys) ∧
      place z keys t gs = .ok (gs.set n ⟨g.keys, t :: g.tuples⟩)) ∨
    ((∀ g ∈ gs, ¬SameKeys z g.keys keys) ∧ place z keys t gs = .ok (gs ++ [⟨keys, [t]⟩])) := by
  induction gs with
  | nil => exact .inr (.inr ⟨nofun, rfl⟩)
  | cons g gs ih =>
    obtain ⟨hg, hgs⟩ := List.forall_mem_cons.1 hl
    have ht := sameKeys_tells (z := z) hg
    rw [place_cons]
    generalize sameKeys z g.keys keys = told at ht ⊢
    cases ht with
    | stops hb => exact .inl ⟨rfl, g, List.mem_cons_self, hb⟩
    | same hs => exact .inr (.inl ⟨0, g, rfl, hs, fun m hm => absurd hm (Nat.not_lt_zero m), rfl⟩)
    | other hn =>
      change ((place z keys t gs).map (g :: ·) = _ ∧ _) ∨
        (∃ n g', _ ∧ _ ∧ _ ∧ (place z keys t gs).map (g :: ·) = _) ∨
        (_ ∧ (place z keys t gs).map (g :: ·) = _)
      obtain ⟨hp, h, hm, hb⟩ | ⟨n, h, hh, hs, hlt, hp⟩ | ⟨hne, hp⟩ := ih hgs
      · exact .inl ⟨by rw [hp]; rfl, h, List.mem_cons_of_mem g hm, hb⟩
      · refine .inr (.inl ⟨n + 1, h, hh, hs, fun m hm h' hm' => ?_, by rw [hp]; rfl⟩)
        cases m with
        | zero =>
          obtain rfl : g = h' := Option.some.inj hm'
          exact hn
        | succ m => exact hlt m (Nat.lt_of_succ_lt_succ hm) h' hm'
      · exact .inr (.inr ⟨List.forall_mem_cons.2 ⟨hn, hne⟩, by rw [hp]; rfl⟩)

section Members

theorem members_append (h : rows.length = homes.length) (row : Row) (n m : Nat) :
    members (rows ++ [row]) (homes ++ [n]) m =
      members rows homes m ++ if n = m then [row] else [] := by
  rw [members, List.zip_append h, List.filter_append, List.map_append]
  congr 1
  by_cases hn : n = m <;> simp [hn]

theorem mem_of_mem_members (h : row ∈ members rows homes n) : row ∈ rows := by
  obtain ⟨⟨r, m⟩, hx, rfl⟩ := List.mem_map.1 h
  exact (List.of_mem_zip (List.mem_of_mem_filter hx)).1

theorem mem_homes_of_mem_members (h : row ∈ members rows homes n) : n ∈ homes := by
  obtain ⟨⟨r, m⟩, hx, rfl⟩ := List.mem_map.1 h
  obtain ⟨hx, hm⟩ := List.mem_filter.1 hx
  exact eq_of_beq hm ▸ (List.of_mem_zip hx).2

end Members

namespace Classifies

variable (h : Classifies z rows homes firsts)

include h

theorem length_eq : rows.length = homes.length := h.earliest.length_eq

theorem mem_rows_of_getElem? {first : Row} (hn : firsts[n]? = some first) : first ∈ rows :=
  mem_of_mem_members (List.mem_of_head? ((h.first n).trans hn))

theorem mem_homes_of_lt (hn : n < firsts.length) : n ∈ homes :=
  mem_homes_of_mem_members
    (List.mem_of_head? ((h.first n).trans (List.getElem?_eq_getElem hn)))

theorem members_eq_nil (hn : firsts.length ≤ n) : members rows homes n = [] :=
  List.head?_eq_none_iff.1 ((h.first n).trans (List.getElem?_eq_none hn))

theorem inOrder_append (hn : n ≤ firsts.length) (i m : Nat) (hi : (homes ++ [n])[i]? = some m)
    (k : Nat) (hk : k < m) : k ∈ (homes ++ [n]).take i := by
  obtain hlt | hle := Nat.lt_or_ge i homes.length
  · rw [List.getElem?_append_left hlt] at hi
    rw [List.take_append_of_le_length hlt.le]
    exact h.inOrder i m hi k hk
  · rw [List.getElem?_append_right hle] at hi
    obtain rfl := List.mem_singleton.1 (List.mem_of_getElem? hi)
    refine List.take_subset_take_left _ hle ?_
    rw [List.take_left']
    · exact h.mem_homes_of_lt (hk.trans_le hn)
    · rfl

theorem join (hb : Belongs z firsts row n) :
    Classifies z (rows ++ [row]) (homes ++ [n]) firsts := by
  obtain ⟨first, hn, -⟩ := hb.1
  refine ⟨List.rel_append h.earliest (.cons hb .nil), fun m => ?_,
    h.inOrder_append (List.getElem?_eq_some_iff.1 hn).1.le⟩
  rw [members_append h.length_eq, List.head?_append, h.first m]
  by_cases hm : n = m
  · rw [← hm, hn]
    rfl
  · rw [if_neg hm]
    exact Option.or_none

theorem begin (hk : SameKeys z row.1 row.1) (hn : ∀ first ∈ firsts, ¬SameKeys z first.1 row.1) :
    Classifies z (rows ++ [row]) (homes ++ [firsts.length]) (firsts ++ [row]) := by
  have kept (r : Row) (n : Nat) (hb : Belongs z firsts r n) : Belongs z (firsts ++ [row]) r n := by
    obtain ⟨⟨first, hn, hs⟩, hlt⟩ := hb
    have hn' := (List.getElem?_eq_some_iff.1 hn).1
    refine ⟨⟨first, ?_, hs⟩, fun m hm other ho => ?_⟩
    · rw [List.getElem?_append_left hn', hn]
    · rw [List.getElem?_append_left (hm.trans hn')] at ho
      exact hlt m hm other ho
  have hb : Belongs z (firsts ++ [row]) row firsts.length := by
    refine ⟨⟨row, List.getElem?_concat_length, hk⟩, fun m hm other ho => ?_⟩
    rw [List.getElem?_append_left hm] at ho
    exact hn other (List.mem_of_getElem? ho)
  refine ⟨List.rel_append (h.earliest.imp kept) (.cons hb .nil), fun m => ?_,
    h.inOrder_append le_rfl⟩
  rw [members_append h.length_eq, List.head?_append, h.first m]
  obtain hm | rfl | hm := Nat.lt_trichotomy m firsts.length
  · rw [if_neg hm.ne', List.getElem?_append_left hm]
    exact Option.or_none
  · rw [if_pos rfl, List.getElem?_concat_length, List.getElem?_eq_none le_rfl]
    rfl
  · rw [if_neg hm.ne, List.getElem?_eq_none hm.le, List.getElem?_eq_none]
    · rfl
    · rw [List.length_append]
      exact hm

end Classifies

namespace Fills

variable (h : Fills rows homes firsts gs)

include h

theorem length_eq : gs.length = firsts.length := by
  simpa using congrArg List.length h.keys

theorem exists_first {g : Group} (hn : gs[n]? = some g) :
    ∃ first, firsts[n]? = some first ∧ first.1 = g.keys := by
  have hk := congrArg (·[n]?) h.keys
  simp only [List.getElem?_map, hn, Option.map_some] at hk
  exact Option.map_eq_some_iff.1 hk.symm

theorem exists_group {first : Row} (hn : firsts[n]? = some first) :
    ∃ g, gs[n]? = some g ∧ g.keys = first.1 := by
  have hk := congrArg (·[n]?) h.keys
  simp only [List.getElem?_map, hn, Option.map_some] at hk
  exact Option.map_eq_some_iff.1 hk

theorem join (hl : rows.length = homes.length) {g : Group} (hn : gs[n]? = some g) :
    Fills (rows ++ [row]) (homes ++ [n]) firsts (gs.set n ⟨g.keys, row.2 :: g.tuples⟩) := by
  obtain ⟨hlt, rfl⟩ := List.getElem?_eq_some_iff.1 hn
  refine ⟨?_, fun m g' hm => ?_⟩
  · have hk : (gs.map Group.keys)[n]? = some gs[n].keys := by
      rw [List.getElem?_map, hn]
      rfl
    obtain ⟨hn', hk⟩ := List.getElem?_eq_some_iff.1 hk
    rw [List.map_set, ← h.keys, ← hk]
    exact List.set_getElem_self hn'
  · rw [members_append hl, List.map_append]
    by_cases he : n = m
    · subst he
      rw [List.getElem?_set_self hlt] at hm
      obtain rfl := Option.some.inj hm
      rw [List.reverse_cons, h.tuples n _ hn, if_pos rfl]
      rfl
    · rw [List.getElem?_set_ne he] at hm
      rw [h.tuples m g' hm, if_neg he]
      exact (List.append_nil _).symm

theorem begin (hl : rows.length = homes.length) (hm : members rows homes firsts.length = []) :
    Fills (rows ++ [row]) (homes ++ [firsts.length]) (firsts ++ [row])
      (gs ++ [⟨row.1, [row.2]⟩]) := by
  refine ⟨?_, fun m g' hg => ?_⟩
  · rw [List.map_append, List.map_append, h.keys]
    rfl
  · rw [members_append hl, List.map_append]
    obtain hlt | hle := Nat.lt_or_ge m gs.length
    · rw [List.getElem?_append_left hlt] at hg
      rw [h.tuples m g' hg, if_neg (by have := h.length_eq; omega)]
      exact (List.append_nil _).symm
    · rw [List.getElem?_append_right hle] at hg
      obtain rfl := List.mem_singleton.1 (List.mem_of_getElem? hg)
      obtain rfl : firsts.length = m := by
        have := (List.getElem?_eq_some_iff.1 hg).1
        rw [List.length_singleton] at this
        have := h.length_eq
        omega
      rw [hm, if_pos rfl]
      rfl

end Fills

theorem classify_concat (z : Zone) (rows : List Row) (row : Row) :
    classify z (rows ++ [row]) = (classify z rows).bind (place z row.1 row.2) := by
  rw [classify, List.foldlM_append]
  exact congrArg _ (funext fun gs => bind_pure _)

/-- One more row joins the group of the first row with its keys, or begins a group. -/
theorem exists_place (hc : Classifies z rows homes firsts) (hf : Fills rows homes firsts gs)
    (hk : ∀ r ∈ rows, Keyed count r) (hrow : Keyed count row) :
    (place z row.1 row.2 gs = .error (.of .stopped) ∧ RowsBeyond z (rows ++ [row])) ∨
    ∃ homes firsts gs', place z row.1 row.2 gs = .ok gs' ∧
      Classifies z (rows ++ [row]) homes firsts ∧ Fills (rows ++ [row]) homes firsts gs' := by
  have hgs (g : Group) (hg : g ∈ gs) : ∃ first ∈ rows, first.1 = g.keys := by
    obtain ⟨n, hn⟩ := List.mem_iff_getElem?.1 hg
    obtain ⟨first, hfirst, hkeys⟩ := hf.exists_first hn
    exact ⟨first, hc.mem_rows_of_getElem? hfirst, hkeys⟩
  have hl (g : Group) (hg : g ∈ gs) : g.keys.length = row.1.length := by
    obtain ⟨first, hm, hkeys⟩ := hgs g hg
    rw [← hkeys, (hk first hm).length, hrow.length]
  obtain ⟨hp, g, hg, hb⟩ | ⟨n, g, hn, hs, hlt, hp⟩ | ⟨hne, hp⟩ := place_cases row.2 hl
  · obtain ⟨first, hm, hkeys⟩ := hgs g hg
    exact .inl ⟨hp, .of_mem hm (hkeys ▸ hb)⟩
  · refine .inr ⟨_, _, _, hp, hc.join ⟨?_, fun m hm other ho => ?_⟩, hf.join hc.length_eq hn⟩
    · obtain ⟨first, hfirst, hkeys⟩ := hf.exists_first hn
      exact ⟨first, hfirst, hkeys ▸ hs⟩
    · obtain ⟨g', hg', hkeys⟩ := hf.exists_group ho
      exact hkeys ▸ hlt m hm g' hg'
  · refine .inr ⟨_, _, _, hp, hc.begin (sameKeys_self hrow.atomic) fun first hfirst => ?_,
      hf.begin hc.length_eq (hc.members_eq_nil le_rfl)⟩
    obtain ⟨n, hn⟩ := List.mem_iff_getElem?.1 hfirst
    obtain ⟨g', hg', hkeys⟩ := hf.exists_group hn
    exact hkeys ▸ hne g' (List.mem_of_getElem? hg')

/-- The rows are classified one by one, unless the program stops at two of them. -/
theorem exists_classification (z : Zone) (hk : ∀ row ∈ rows, Keyed count row) :
    (classify z rows = .error (.of .stopped) ∧ RowsBeyond z rows) ∨
    ∃ homes firsts gs, classify z rows = .ok gs ∧ Classifies z rows homes firsts ∧
      Fills rows homes firsts gs := by
  induction rows using List.reverseRecOn with
  | nil => exact .inr ⟨[], [], [], rfl, ⟨.nil, fun _ => rfl, nofun⟩, ⟨rfl, nofun⟩⟩
  | append_singleton rows row ih =>
    have hrows (r : Row) (hr : r ∈ rows) : Keyed count r := hk r (List.mem_append_left _ hr)
    have hrow := hk row (List.mem_append_right _ (List.mem_singleton_self row))
    rw [classify_concat]
    obtain ⟨he, hb⟩ | ⟨homes, firsts, gs, he, hc, hf⟩ := ih hrows
    · rw [he]
      exact .inl ⟨rfl, hb.append row⟩
    · rw [he]
      exact exists_place hc hf hrows hrow

section Values

variable {names : List String} {name : String} {g : Group}

theorem nodup_values_names (names : List String) (g : Group) :
    (Fields.names (g.values names)).Nodup := by
  have union (ts : List Tuple) {vs : List String} (h : vs.Nodup) :
      (ts.foldl (fun vs t => Fields.addNames t.names vs) vs).Nodup := by
    induction ts generalizing vs with
    | nil => exact h
    | cons t ts ih => exact ih (Fields.nodup_addNames h)
  rw [Fields.names, values, List.map_map]
  exact (List.map_id' _).symm ▸ (union _ List.nodup_nil).filter _

def keyed (names : List String) (g : Group) : Fields Items :=
  (names.zip g.keys).map fun x => (x.1, x.2.toList)

theorem names_keyed (h : g.keys.length = names.length) : Fields.names (g.keyed names) = names := by
  rw [Fields.names, keyed, List.map_map]
  exact List.map_fst_zip h.ge

theorem bindings_toTuple (hn : names.Nodup) (h : g.keys.length = names.length) :
    (g.toTuple names).bindings = g.keyed names ++ g.values names := by
  have hkn : (Fields.names (g.keyed names)).Nodup := by rwa [names_keyed h]
  have hk : ((names.zip g.keys).foldl (fun t x => t.bind x.1 x.2.toList) Tuple.empty).bindings =
      g.keyed names := by
    have hb := Tuple.bindings_foldl_bind (g.keyed names) .empty
    rw [keyed, List.foldl_map] at hb
    rw [hb]
    exact Fields.ofList_of_nodup hkn
  rw [toTuple, Tuple.bindings_foldl_bind, hk]
  refine Fields.foldl_insert_of_nodup ?_
  rw [Fields.names, List.map_append]
  refine List.nodup_append.2 ⟨hkn, nodup_values_names names g, fun n hm m hv he => ?_⟩
  rw [← Fields.names, names_keyed h] at hm
  exact (mem_values_names.1 hv).2 (he ▸ hm)

theorem get?_toTuple_of_key {i : Nat} {key : Option Item} (hn : names.Nodup)
    (h : g.keys.length = names.length) (hi : names[i]? = some name) (hk : g.keys[i]? = some key) :
    (g.toTuple names).get? name = some key.toList := by
  have hm : (name, key.toList) ∈ g.keyed names := by
    have hz : (names.zip g.keys)[i]? = some (name, key) := by
      rw [List.getElem?_zip_eq_some]
      exact ⟨hi, hk⟩
    exact List.mem_map.2 ⟨_, List.mem_of_getElem? hz, rfl⟩
  rw [Tuple.get?, bindings_toTuple hn h, Fields.find?_append,
    Fields.find?_of_mem (by rwa [names_keyed h]) hm, Option.some_or]

theorem flatten_filterMap (rows : List Row) (f : Row → Option Items) :
    (rows.filterMap f).flatten = rows.flatMap fun row => (f row).getD [] := by
  induction rows with
  | nil => rfl
  | cons row rows ih =>
    cases h : f row <;> simp [h, ih]

theorem gathered_getD (name : String) (rows : List Row) :
    (gathered name rows).getD [] = rows.flatMap fun row => (row.2.get? name).getD [] := by
  rw [← flatten_filterMap, gathered]
  split
  case h_1 h => rw [h]; rfl
  case h_2 => rfl

theorem gathered_eq_none_iff :
    gathered name rows = none ↔ ∀ row ∈ rows, row.2.get? name = none := by
  rw [← List.filterMap_eq_nil_iff, gathered]
  split
  case h_1 h => exact iff_of_true rfl h
  case h_2 h => exact iff_of_false nofun h

theorem find?_values (names : List String) (name : String) (g : Group) :
    Fields.find? name (g.values names) = if name ∈ Fields.names (g.values names) then
      some (g.tuples.reverse.flatMap fun t => (t.get? name).getD []) else none := by
  rw [Fields.names, values, List.map_map]
  exact (Fields.find?_map _ _ name).trans (by rw [Function.comp_def, List.map_id'])

theorem get?_toTuple_of_notMem (hn : names.Nodup) (h : g.keys.length = names.length)
    (hm : name ∉ names) (ht : g.tuples.reverse = rows.map Prod.snd) :
    (g.toTuple names).get? name = gathered name rows := by
  have held : (∃ t ∈ g.tuples, name ∈ t.names) ↔ gathered name rows ≠ none := by
    have mem (t : Tuple) : t ∈ g.tuples ↔ ∃ row ∈ rows, row.2 = t := by
      rw [← List.mem_reverse, ht, List.mem_map]
    rw [Ne, gathered_eq_none_iff]
    push Not
    constructor
    · rintro ⟨t, hmt, hb⟩
      obtain ⟨row, hr, rfl⟩ := (mem t).1 hmt
      exact ⟨row, hr, Option.isSome_iff_ne_none.1 (Fields.isSome_find?.2 hb)⟩
    · rintro ⟨row, hr, hb⟩
      exact ⟨row.2, (mem row.2).2 ⟨row, hr, rfl⟩,
        Fields.isSome_find?.1 (Option.isSome_iff_ne_none.2 hb)⟩
  rw [Tuple.get?, bindings_toTuple hn h, Fields.find?_append,
    Fields.find?_eq_none (by rwa [names_keyed h]), Option.none_or, find?_values, ht,
    List.flatMap_map, ← gathered_getD]
  split
  case isTrue hv =>
    obtain ⟨items, hi⟩ := Option.ne_none_iff_exists'.1 (held.1 (mem_values_names.1 hv).1)
    rw [hi, Option.getD_some]
  case isFalse hv =>
    by_contra hne
    exact hv (mem_values_names.2 ⟨held.2 (Ne.symm hne), hm⟩)

end Values

section Permutation

theorem flatMap_filter_perm (xs : List (Row × Nat)) (k : Nat) :
    ((List.range k).flatMap fun n => xs.filter fun x => x.2 == n).Perm
      (xs.filter fun x => decide (x.2 < k)) := by
  induction k with
  | zero => simp
  | succ k ih =>
    have hs := List.filter_append_perm (fun x => decide (x.2 < k))
      (xs.filter fun x => decide (x.2 < k + 1))
    have before : (xs.filter fun x => decide (x.2 < k + 1)).filter (fun x => decide (x.2 < k)) =
        xs.filter fun x => decide (x.2 < k) := by
      refine List.filter_filter.trans (List.filter_congr fun x _ => ?_)
      rw [← Bool.decide_and, decide_eq_decide]
      omega
    have last : (xs.filter fun x => decide (x.2 < k + 1)).filter (fun x => !decide (x.2 < k)) =
        xs.filter fun x => x.2 == k := by
      refine List.filter_filter.trans (List.filter_congr fun x _ => ?_)
      rw [Bool.eq_iff_iff, Bool.and_eq_true, Bool.not_eq_true', decide_eq_false_iff_not,
        decide_eq_true_iff, beq_iff_eq]
      omega
    rw [before, last] at hs
    rw [List.range_succ, List.flatMap_append, List.flatMap_singleton]
    exact (ih.append_right _).trans hs

theorem Classifies.flatMap_members (h : Classifies z rows homes firsts) :
    ((List.range firsts.length).flatMap (members rows homes)).Perm rows := by
  have homed : ∀ x ∈ rows.zip homes, decide (x.2 < firsts.length) = true := by
    intro x hx
    obtain ⟨⟨first, hn, -⟩, -⟩ := List.forall₂_zip h.earliest hx
    exact decide_eq_true (List.getElem?_eq_some_iff.1 hn).1
  have hp := (flatMap_filter_perm (rows.zip homes) firsts.length).map Prod.fst
  rw [List.filter_eq_self.2 homed, List.map_fst_zip h.length_eq.le, List.map_flatMap] at hp
  exact hp

theorem Fills.summarizes {names : List String} {first : Row} {g : Group}
    (h : Fills rows homes firsts gs) (hn : names.Nodup) (hf : firsts[n]? = some first)
    (hl : first.1.length = names.length) (hg : gs[n]? = some g) :
    Summarizes names first (members rows homes n) (g.toTuple names) := by
  obtain ⟨f, hf', hk⟩ := h.exists_first hg
  obtain rfl : f = first := Option.some.inj (hf'.symm.trans hf)
  have hl' : g.keys.length = names.length := hk ▸ hl
  refine ⟨List.forall₂_iff_get.2 ⟨hl.symm, fun i hi hj => ?_⟩, fun name hm =>
    get?_toTuple_of_notMem hn hl' hm (h.tuples n g hg)⟩
  exact get?_toTuple_of_key hn hl' (List.getElem?_eq_getElem hi)
    (by rw [← hk]; exact List.getElem?_eq_getElem hj)

theorem flatMap_summaries {names : List String} {outs : List Tuple} {name : String}
    (hc : Classifies z rows homes firsts) (hl : outs.length = firsts.length)
    (hs : ∀ n first out, firsts[n]? = some first → outs[n]? = some out →
      Summarizes names first (members rows homes n) out) (hm : name ∉ names) :
    (outs.flatMap fun t => (t.get? name).getD []).Perm
      (rows.flatMap fun row => (row.2.get? name).getD []) := by
  have ho : outs.map (fun t => (t.get? name).getD []) = (List.range firsts.length).map
      fun n => (members rows homes n).flatMap fun row => (row.2.get? name).getD [] := by
    refine List.ext_getElem (by simp [hl]) fun n hn hn' => ?_
    rw [List.length_map] at hn
    rw [List.getElem_map, List.getElem_map, List.getElem_range, (hs n _ _
      (List.getElem?_eq_getElem (hl ▸ hn)) (List.getElem?_eq_getElem hn)).others name hm,
      gathered_getD]
  rw [List.flatMap_def, ho, ← List.flatMap_def, ← List.flatMap_assoc]
  exact hc.flatMap_members.flatMap_right _

end Permutation

end PullQuery.Group

namespace PullQuery

section

variable {p : Position} {keys : List GroupKey} {c : Context} {input : Machine Tuple}
  {rows : List Group.Row}

theorem group_gives_tuples (hi : input.GivesAt c (.ofList (rows.map Prod.snd)))
    (hk : ∀ row ∈ rows, List.Forall₂ (GroupKey.Gives c row.2) keys row.1) :
    ((Clause.group p keys).machine input).GivesAt c ((Output.ofExcept
      (Group.ofRows c.implicitTimezone (keys.map GroupKey.name) rows)).locate p) := by
  have h := (Clause.group p keys).gives c hi
  rw [Clause.output, Output.rows_of_areKeys fun row hr => GroupKey.areKeys p (hk row hr)] at h
  exact h

/-- A grouping clause hands out one tuple for each group of rows, groups in the order in which they
came up; every item that a tuple has of a variable by which it is not grouped comes out once. Only
where the calendar does not have the instant of a key does the program stop instead. -/
theorem grouping_keeps_items (hi : input.GivesAt c (.ofList (rows.map Prod.snd)))
    (hn : (keys.map GroupKey.name).Nodup)
    (hk : ∀ row ∈ rows, List.Forall₂ (GroupKey.Gives c row.2) keys row.1) :
    (((Clause.group p keys).machine input).GivesAt c (.fail ((Error.of .stopped).locate p)) ∧
      RowsBeyond c.implicitTimezone rows) ∨
    ∃ (homes : List Nat) (firsts : List Group.Row) (outs : List Tuple),
      Group.Classifies c.implicitTimezone rows homes firsts ∧
      ((Clause.group p keys).machine input).GivesAt c (.ofList outs) ∧
      outs.length = firsts.length ∧
      (∀ n first out, firsts[n]? = some first → outs[n]? = some out →
        Group.Summarizes (keys.map GroupKey.name) first (Group.members rows homes n) out) ∧
      ∀ name ∉ keys.map GroupKey.name, (outs.flatMap fun t => (t.get? name).getD []).Perm
        (rows.flatMap fun row => (row.2.get? name).getD []) := by
  have hg := group_gives_tuples (p := p) hi hk
  rw [Group.ofRows] at hg
  obtain ⟨he, hb⟩ | ⟨homes, firsts, gs, he, hc, hf⟩ :=
    Group.exists_classification c.implicitTimezone fun row hr => GroupKey.keyed (hk row hr)
  · rw [he] at hg
    exact .inl ⟨hg, hb⟩
  rw [he] at hg
  have hl : (gs.map (Group.toTuple (keys.map GroupKey.name))).length = firsts.length := by
    rw [List.length_map, hf.length_eq]
  have hs (n : Nat) (first : Group.Row) (out : Tuple) (hfirst : firsts[n]? = some first)
      (hout : (gs.map (Group.toTuple (keys.map GroupKey.name)))[n]? = some out) :
      Group.Summarizes (keys.map GroupKey.name) first (Group.members rows homes n) out := by
    rw [List.getElem?_map] at hout
    obtain ⟨g, hg, rfl⟩ := Option.map_eq_some_iff.1 hout
    refine hf.summarizes hn hfirst ?_ hg
    rw [List.length_map]
    exact (GroupKey.keyed (hk first (hc.mem_rows_of_getElem? hfirst))).length
  exact .inr ⟨homes, firsts, _, hc, hg, hl, hs, fun name hm => Group.flatMap_summaries hc hl hs hm⟩

theorem double_joins_integer :
    let p : Position := ⟨1, 1⟩
    let now : DateTime :=
      ⟨⟨2024, 1, 2, by decide, by decide, by decide⟩, ⟨0, 0, by decide, by decide⟩⟩
    let c : Context := .root ⟨.utc, ⟨now, .utc⟩, .empty⟩ ⟨[], none⟩
    let ks : List (Option Item) := [some (.integer 1), none, some (.double 1.0)]
    let rows : List Group.Row := ks.map fun k => ([k], ⟨[("x", k.toList), ("y", k.toList)]⟩)
    let input : Machine Tuple :=
      .emit "tuples" p () fun _ _ => .done (.ok (rows.map Prod.snd)) ()
    input.GivesAt c (.ofList (rows.map Prod.snd)) ∧
    ([GroupKey.existing "x"].map GroupKey.name).Nodup ∧
    (∀ row ∈ rows, List.Forall₂ (GroupKey.Gives c row.2) [.existing "x"] row.1) ∧
    ∃ (homes : List Nat) (firsts : List Group.Row) (outs : List Tuple),
      Group.Classifies c.implicitTimezone rows homes firsts ∧
      ((Clause.group p [.existing "x"]).machine input).GivesAt c (.ofList outs) ∧
      outs.length = firsts.length ∧
      (outs.flatMap fun t => (t.get? "y").getD []).Perm [.integer 1, .double 1.0] := by
  intro p now c ks rows input
  have plain : ∀ k ∈ ks, ∀ a ∈ k, a.isAtomic = true ∧
      Arithmetic.isPlaced c.implicitTimezone a = true := by
    intro k hk a ha
    simp only [ks, List.mem_cons, List.not_mem_nil, or_false] at hk
    obtain rfl | rfl | rfl := hk <;> cases ha <;> decide
  have hi : input.GivesAt c (.ofList (rows.map Prod.snd)) :=
    Machine.emit_gives (r := .ok (rows.map Prod.snd)) fun _ => rfl
  have hn : ([GroupKey.existing "x"].map GroupKey.name).Nodup := by decide
  have hk : ∀ row ∈ rows, List.Forall₂ (GroupKey.Gives c row.2) [.existing "x"] row.1 := by
    intro row hr
    obtain ⟨k, hm, rfl⟩ := List.mem_map.1 hr
    exact .cons ⟨rfl, fun a ha => (plain k hm a ha).1⟩ .nil
  have hp : ¬RowsBeyond c.implicitTimezone rows := by
    refine not_rowsBeyond_of_isPlaced fun row hr k hk a ha => ?_
    obtain ⟨k', hm, rfl⟩ := List.mem_map.1 hr
    obtain rfl := List.mem_singleton.1 hk
    exact (plain k hm a ha).2
  obtain ⟨-, hb⟩ | ⟨homes, firsts, outs, hc, hg, hl, -, ho⟩ :=
    grouping_keeps_items (p := p) hi hn hk
  · exact absurd hb hp
  · exact ⟨hi, hn, hk, homes, firsts, outs, hc, hg, hl, ho "y" (by decide)⟩

theorem no_groups_of_keys_beyond :
    let p : Position := ⟨1, 1⟩
    let now : DateTime :=
      ⟨⟨2024, 1, 2, by decide, by decide, by decide⟩, ⟨0, 0, by decide, by decide⟩⟩
    let c : Context := .root ⟨.utc, ⟨now, .utc⟩, .empty⟩ ⟨[], none⟩
    let key : Item := .dateTime ⟨⟨-262143, 1, 1, by decide, by decide, by decide⟩, .midnight⟩
      (some ⟨50400, by decide⟩)
    let row : Group.Row := ([some key], ⟨[("x", [key])]⟩)
    let input : Machine Tuple := .emit "tuples" p () fun _ _ => .done (.ok [row.2, row.2]) ()
    input.GivesAt c (.ofList [row.2, row.2]) ∧
    List.Forall₂ (GroupKey.Gives c row.2) [.existing "x"] row.1 ∧
    ¬∃ outs, ((Clause.group p [.existing "x"]).machine input).GivesAt c (.ofList outs) := by
  intro p now c key row input
  have hi : input.GivesAt c (.ofList [row.2, row.2]) :=
    Machine.emit_gives (r := .ok [row.2, row.2]) fun _ => rfl
  have hk : List.Forall₂ (GroupKey.Gives c row.2) [.existing "x"] row.1 := by
    refine .cons ⟨rfl, fun a ha => ?_⟩ .nil
    cases ha
    rfl
  have hs : (Group.ofRows .utc ["x"] [row, row]).isOk = false := by decide
  have hg := @group_gives_tuples p [.existing "x"] c input [row, row] hi fun r hr => by
    obtain rfl : r = row := by simpa using hr
    exact hk
  exact ⟨hi, hk, hg.not_ofList hs⟩

end

end PullQuery
