import Mathlib.Data.List.Forall2
import PullQuery.Expr.Output
import PullQuery.Proofs.Context.Agreement

namespace PullQuery

variable {α β ω ρ : Type}

theorem ok_of_bind {r : Except Error α} {f : α → Except Error β} {b : β}
    (h : (r >>= f) = .ok b) : ∃ a, r = .ok a ∧ f a = .ok b := by
  cases r with
  | error e => cases h
  | ok a => exact ⟨a, rfl, h⟩

theorem forall₂_of_mapM {f : α → Except Error β} {as : List α} {bs : List β}
    (h : as.mapM f = .ok bs) : List.Forall₂ (fun a b => f a = .ok b) as bs := by
  induction as generalizing bs with
  | nil => cases h; exact .nil
  | cons a as ih =>
    rw [List.mapM_cons] at h
    obtain ⟨b, hb, h⟩ := ok_of_bind h
    obtain ⟨bs, hs, h⟩ := ok_of_bind h
    cases h
    exact .cons hb (ih hs)

theorem exists_of_forall₂ {R : α → β → Prop} {as : List α} {bs : List β}
    (h : List.Forall₂ R as bs) {b : β} (hb : b ∈ bs) : ∃ a ∈ as, R a b := by
  induction h with
  | nil => cases hb
  | @cons a b' as bs hab _ ih =>
    rcases List.mem_cons.1 hb with rfl | hb
    · exact ⟨a, List.mem_cons_self, hab⟩
    · obtain ⟨a', hm, hr⟩ := ih hb
      exact ⟨a', List.mem_cons_of_mem _ hm, hr⟩

namespace Tuple

def Binds (names : List String) (t : Tuple) : Prop := ∀ n, n ∈ t.names ↔ n ∈ names

theorem binds_empty : empty.Binds [] := fun _ => Iff.rfl

theorem mem_names_bind {t : Tuple} {name : String} {value : Items} {n : String} :
    n ∈ (t.bind name value).names ↔ n = name ∨ n ∈ t.names := by
  have hn : (t.bind name value).names = Fields.addNames [name] t.names :=
    Fields.names_insert name value t.bindings
  rw [hn, Fields.mem_addNames, List.mem_singleton]

theorem mem_names_bindAll {name : α → String} {value : α → Items} {as : List α} {t : Tuple}
    {n : String} : n ∈ (as.foldl (fun t a => t.bind (name a) (value a)) t).names ↔
      n ∈ as.map name ∨ n ∈ t.names := by
  induction as generalizing t with
  | nil => simp
  | cons a as ih =>
    rw [List.foldl_cons, ih, mem_names_bind, List.map_cons, List.mem_cons, or_left_comm, or_assoc]

theorem nodup_names_bindAll {name : α → String} {value : α → Items} {as : List α} {t : Tuple}
    (h : t.names.Nodup) : (as.foldl (fun t a => t.bind (name a) (value a)) t).names.Nodup := by
  induction as generalizing t with
  | nil => exact h
  | cons a as ih => exact ih (Fields.nodup_insert h)

def Extends (t u : Tuple) (names : List String) : Prop :=
  ∃ bs : Fields Items, Fields.names bs = names ∧ t = bs.foldl (fun t b => t.bind b.1 b.2) u

namespace Extends

variable {t u : Tuple} {names more : List String}

theorem refl (t : Tuple) : t.Extends t [] := ⟨[], rfl, rfl⟩

theorem bind (t : Tuple) (name : String) (value : Items) : (t.bind name value).Extends t [name] :=
  ⟨[(name, value)], rfl, rfl⟩

theorem extendTuple (t : Tuple) (name : String) (place : Option String) (items : Items) (i : Nat) :
    (Machine.extendTuple name place t items i).Extends t (name :: place.toList) := by
  cases place with
  | none => exact bind t name items
  | some placeName => exact ⟨[(name, items), (placeName, [.ofNat i])], rfl, rfl⟩

theorem binds (h : t.Extends u more) (hu : u.Binds names) :
    t.Binds (Fields.addNames more names) := by
  obtain ⟨bs, rfl, rfl⟩ := h
  intro n
  rw [mem_names_bindAll, hu n, Fields.mem_addNames, Fields.names]

theorem nodup_names (h : t.Extends u more) (hu : u.names.Nodup) : t.names.Nodup := by
  obtain ⟨bs, -, rfl⟩ := h
  exact nodup_names_bindAll hu

end Extends

end Tuple

namespace Group

structure Sound (count : Nat) (names : List String) (g : Group) : Prop where
  keys : g.keys.length = count
  tuples : g.tuples ≠ []
  binds : ∀ t ∈ g.tuples, t.Binds names

variable {zone : Zone} {count : Nat} {names keyNames : List String}

theorem place_sound {keys : List (Option Item)} {t : Tuple} {gs gs' : List Group}
    (hk : keys.length = count) (ht : t.Binds names) (hg : ∀ g ∈ gs, g.Sound count names)
    (hp : place zone keys t gs = .ok gs') : ∀ g ∈ gs', g.Sound count names := by
  induction gs generalizing gs' with
  | nil =>
    cases hp
    exact List.forall_mem_singleton.2 ⟨hk, by simp, by simpa using ht⟩
  | cons g gs ih =>
    obtain ⟨hg', hgs⟩ := List.forall_mem_cons.1 hg
    rw [place_cons] at hp
    obtain ⟨same, -, hp⟩ := ok_of_bind hp
    cases same with
    | true =>
      cases hp
      exact List.forall_mem_cons.2
        ⟨⟨hg'.keys, by simp, List.forall_mem_cons.2 ⟨ht, hg'.binds⟩⟩, hgs⟩
    | false =>
      rcases hrest : place zone keys t gs with e | rest
      · rw [hrest] at hp
        cases hp
      · rw [hrest] at hp
        cases hp
        exact List.forall_mem_cons.2 ⟨hg', ih hgs hrest⟩

theorem mem_values_names {g : Group} {n : String} : n ∈ Fields.names (g.values keyNames) ↔
    (∃ t ∈ g.tuples, n ∈ t.names) ∧ n ∉ keyNames := by
  have union (ts : List Tuple) (vs : List String) :
      n ∈ ts.foldl (fun vs t => Fields.addNames t.names vs) vs ↔
        (∃ t ∈ ts, n ∈ t.names) ∨ n ∈ vs := by
    induction ts generalizing vs with
    | nil => simp
    | cons t ts ih =>
      rw [List.foldl_cons, ih, Fields.mem_addNames, List.exists_mem_cons_iff, or_left_comm, or_assoc]
  simp only [Fields.names, values, List.map_map, Function.comp_def, List.map_id', List.mem_filter,
    union, List.mem_reverse, List.not_mem_nil, or_false, Bool.not_eq_true', List.contains_eq_mem,
    decide_eq_false_iff_not]

theorem toTuple_binds {g : Group} (h : g.Sound keyNames.length names) :
    (g.toTuple keyNames).Binds (Fields.addNames keyNames names) := by
  intro n
  have hz : (keyNames.zip g.keys).map Prod.fst = keyNames :=
    List.map_fst_zip (Nat.le_of_eq h.keys.symm)
  have hk : n ∈ ((keyNames.zip g.keys).foldl (fun t x => t.bind x.1 x.2.toList) Tuple.empty).names ↔
      n ∈ keyNames := by
    rw [Tuple.mem_names_bindAll, hz]
    exact or_iff_left (List.not_mem_nil)
  have ht : (∃ t ∈ g.tuples, n ∈ t.names) ↔ n ∈ names := by
    obtain ⟨t, hm⟩ := List.exists_mem_of_ne_nil g.tuples h.tuples
    constructor
    · rintro ⟨t, hm, hn⟩
      exact (h.binds t hm n).1 hn
    · intro hn
      exact ⟨t, hm, (h.binds t hm n).2 hn⟩
  have hv : n ∈ (g.toTuple keyNames).names ↔
      n ∈ Fields.names (g.values keyNames) ∨ n ∈ keyNames := by
    rw [toTuple, Tuple.mem_names_bindAll]
    exact or_congr Iff.rfl hk
  rw [hv, mem_values_names, ht, Fields.mem_addNames]
  by_cases hn : n ∈ keyNames <;> simp [hn]

theorem nodup_names_toTuple (g : Group) : (g.toTuple keyNames).names.Nodup :=
  Tuple.nodup_names_bindAll (Tuple.nodup_names_bindAll List.nodup_nil)

theorem classify_sound {rows : List (List (Option Item) × Tuple)} {gs : List Group}
    (h : ∀ row ∈ rows, row.1.length = count ∧ row.2.Binds names)
    (hc : classify zone rows = .ok gs) : ∀ g ∈ gs, g.Sound count names := by
  have grouped (gs gs' : List Group) (hg : ∀ g ∈ gs, g.Sound count names)
      (hf : rows.foldlM (fun gs row => place zone row.1 row.2 gs) gs = .ok gs') :
      ∀ g ∈ gs', g.Sound count names := by
    clear hc
    induction rows generalizing gs with
    | nil =>
      cases hf
      exact hg
    | cons row rows ih =>
      obtain ⟨⟨hk, ht⟩, hrows⟩ := List.forall_mem_cons.1 h
      rw [List.foldlM_cons] at hf
      obtain ⟨placed, hp, hf⟩ := ok_of_bind hf
      exact ih hrows placed (place_sound hk ht hg hp) hf
  exact grouped [] gs (fun _ h => nomatch h) hc

theorem exists_of_mem_ofRows {rows : List (List (Option Item) × Tuple)} {ts : List Tuple} {t : Tuple}
    (ho : ofRows zone keyNames rows = .ok ts) (ht : t ∈ ts) :
    ∃ gs, classify zone rows = .ok gs ∧ ∃ g ∈ gs, g.toTuple keyNames = t := by
  unfold ofRows at ho
  rcases hc : classify zone rows with e | gs
  · rw [hc] at ho
    cases ho
  · rw [hc] at ho
    cases ho
    exact ⟨gs, rfl, List.mem_map.1 ht⟩

theorem ofRows_binds {rows : List (List (Option Item) × Tuple)} {ts : List Tuple}
    (h : ∀ row ∈ rows, row.1.length = keyNames.length ∧ row.2.Binds names)
    (ho : ofRows zone keyNames rows = .ok ts) :
    ∀ t ∈ ts, t.Binds (Fields.addNames keyNames names) := by
  intro t hm
  obtain ⟨gs, hc, g, hg, rfl⟩ := exists_of_mem_ofRows ho hm
  exact toTuple_binds (classify_sound h hc g hg)

end Group

namespace Output

theorem mem_flatMap {o : Output α} {f : α → Output ω} {b : ω} (h : b ∈ (o.flatMap f).values) :
    ∃ a ∈ o.values, b ∈ (f a).values := by
  obtain ⟨as, failure⟩ := o
  induction as with
  | nil => simp [flatMap] at h
  | cons a as ih =>
    rw [flatMap_cons, append] at h
    rcases hf : (f a).failure with _ | e
    · simp only [hf, List.mem_append] at h
      rcases h with h | h
      · exact ⟨a, List.mem_cons_self, h⟩
      · obtain ⟨a', hm, hb⟩ := ih h
        exact ⟨a', List.mem_cons_of_mem _ hm, hb⟩
    · simp only [hf] at h
      exact ⟨a, List.mem_cons_self, h⟩

theorem mem_ofExcept {r : Except Error (List ω)} {b : ω} (h : b ∈ (ofExcept r).values) :
    ∃ bs, r = .ok bs ∧ b ∈ bs := by
  cases r with
  | error e => simp [ofExcept, fail] at h
  | ok bs => exact ⟨bs, rfl, h⟩

theorem mem_nest {n : Machine.Nesting α ω β} {c : Context} {inner : Context → Output ω}
    {o : Output α} {b : β} (h : b ∈ (o.nest n c inner).values) :
    ∃ a ∈ o.values, n.whenEmpty a = some b ∨ ∃ i v, n.emit a i v = b := by
  obtain ⟨⟨a, place⟩, hm, hb⟩ := mem_flatMap h
  refine ⟨a, List.fst_mem_of_mem_zipIdx hm, ?_⟩
  dsimp only at hb
  split at hb
  · exact .inl (by simpa [ofList] using hb)
  · obtain ⟨⟨v, i⟩, -, hv⟩ := List.mem_map.1 hb
    exact .inr ⟨i, v, hv⟩

theorem mem_rows {f : α → Except Error ρ} {o : Output α} {rs : List ρ} (h : o.rows f = .ok rs) :
    ∀ r ∈ rs, ∃ a ∈ o.values, f a = .ok r := by
  obtain ⟨rs', hm, h⟩ := ok_of_bind h
  rcases hf : o.failure with _ | e
  · rw [hf] at h
    cases h
    intro r hr
    exact exists_of_forall₂ (forall₂_of_mapM hm) hr
  · rw [hf] at h
    cases h

theorem keys_length {clause : String} {os : List (Output Item)} {ks : List (Option Item)}
    (h : keys clause os = .ok ks) : ks.length = os.length :=
  (forall₂_of_mapM h).length_eq.symm

end Output

theorem groupOutputs_length (p : Position) (c : Context) (ks : List GroupKey) :
    (groupOutputs p ks c).length = ks.length := by
  induction ks with
  | nil => rfl
  | cons k ks ih => cases k <;> simp [groupOutputs, ih]

namespace Clause

variable {names : List String} {o : Output Tuple}

theorem row_of_rows {clause : String} {outs : Tuple → List (Output Item)}
    {rows : List (List (Option Item) × Tuple)}
    (h : (o.rows fun t => do .ok (← Output.keys clause (outs t), t)) = .ok rows) :
    ∀ row ∈ rows, row.2 ∈ o.values ∧ row.1.length = (outs row.2).length := by
  intro row hr
  obtain ⟨t, ht, hk⟩ := Output.mem_rows h row hr
  obtain ⟨ks, hks, hk⟩ := ok_of_bind hk
  cases hk
  exact ⟨ht, Output.keys_length hks⟩

theorem output_cases (k : Clause) (c : Context) {t : Tuple} (hm : t ∈ (k.output o c).values) :
    (∃ u ∈ o.values, t.Extends u k.binds) ∨ ∃ p keys rows, k = .group p keys ∧
      (∀ row ∈ rows, row.1.length = keys.length ∧ row.2 ∈ o.values) ∧
      ∃ ts, Group.ofRows c.implicitTimezone (keys.map GroupKey.name) rows = .ok ts ∧ t ∈ ts := by
  cases k with
  | each p name place allowingEmpty e =>
    rw [output] at hm
    obtain ⟨u, hu, ht | ⟨i, v, rfl⟩⟩ := Output.mem_nest hm
    · dsimp only at ht
      split at ht
      · cases ht
        exact .inl ⟨u, hu, .extendTuple u name place [] 0⟩
      · cases ht
    · exact .inl ⟨u, hu, .extendTuple u name place [v] i⟩
  | bind p name e =>
    rw [output] at hm
    obtain ⟨u, hu, ht⟩ := Output.mem_flatMap hm
    obtain ⟨ts, hts, ht⟩ := Output.mem_ofExcept ht
    obtain ⟨items, -, hts⟩ := ok_of_bind hts
    cases hts
    rw [List.mem_singleton.1 ht]
    exact .inl ⟨u, hu, .bind u name items⟩
  | filter p e =>
    rw [output] at hm
    obtain ⟨u, hu, ht⟩ := Output.mem_flatMap hm
    obtain ⟨ts, hts, ht⟩ := Output.mem_ofExcept ht
    obtain ⟨b, -, hts⟩ := ok_of_bind hts
    cases b with
    | false => cases hts; cases ht
    | true =>
      cases hts
      rw [List.mem_singleton.1 ht]
      exact .inl ⟨u, hu, .refl u⟩
  | group p keys =>
    rw [output] at hm
    obtain ⟨ts, hts, ht⟩ := Output.mem_ofExcept hm
    obtain ⟨rows, hr, hts⟩ := ok_of_bind hts
    refine .inr ⟨p, keys, rows, rfl, fun row hrow => ?_, ts, hts, ht⟩
    obtain ⟨hv, hl⟩ := row_of_rows hr row hrow
    exact ⟨hl.trans (groupOutputs_length p _ keys), hv⟩
  | order p keys =>
    rw [output] at hm
    obtain ⟨ts, hts, ht⟩ := Output.mem_ofExcept hm
    obtain ⟨rows, hr, hts⟩ := ok_of_bind hts
    rw [Sort.tuples] at hts
    rcases hc : Sort.checkColumns c.implicitTimezone rows
        (keys.map SortKey.order).length with e | _
    · rw [hc] at hts
      cases hts
    · rw [hc] at hts
      cases hts
      obtain ⟨row, hrow, rfl⟩ := List.mem_map.1 ht
      exact .inl ⟨row.2, (row_of_rows hr row (List.mem_mergeSort.1 hrow)).1, .refl row.2⟩
  | count p name =>
    rw [output] at hm
    obtain ⟨⟨u, i⟩, hu, rfl⟩ := List.mem_map.1 hm
    exact .inl ⟨u, List.fst_mem_of_mem_zipIdx hu, .bind u name [.ofNat i]⟩

theorem output_binds (k : Clause) (c : Context) (h : ∀ t ∈ o.values, t.Binds names) :
    ∀ t ∈ (k.output o c).values, t.Binds (Fields.addNames k.binds names) := by
  intro t hm
  obtain ⟨u, hu, ht⟩ | ⟨p, keys, rows, rfl, hr, ts, hts, ht⟩ := k.output_cases c hm
  · exact ht.binds (h u hu)
  · refine Group.ofRows_binds (fun row hrow => ?_) hts t ht
    rw [List.length_map]
    exact ⟨(hr row hrow).1, h row.2 (hr row hrow).2⟩

theorem nodup_names_output (k : Clause) (c : Context) (h : ∀ t ∈ o.values, t.names.Nodup) :
    ∀ t ∈ (k.output o c).values, t.names.Nodup := by
  intro t hm
  obtain ⟨u, hu, ht⟩ | ⟨p, keys, rows, rfl, hr, ts, hts, ht⟩ := k.output_cases c hm
  · exact ht.nodup_names (h u hu)
  · obtain ⟨gs, -, g, -, rfl⟩ := Group.exists_of_mem_ofRows hts ht
    exact g.nodup_names_toTuple

theorem pipelineOutput_binds (ks : List Clause) (c : Context) (h : ∀ t ∈ o.values, t.Binds names) :
    ∀ t ∈ (pipelineOutput ks o c).values,
      t.Binds (ks.foldl (fun names k => Fields.addNames k.binds names) names) := by
  induction ks generalizing o names with
  | nil =>
    rw [pipelineOutput]
    exact h
  | cons k ks ih =>
    rw [pipelineOutput]
    exact ih (k.output_binds c h)

theorem nodup_names_pipelineOutput (ks : List Clause) (c : Context)
    (h : ∀ t ∈ o.values, t.names.Nodup) :
    ∀ t ∈ (pipelineOutput ks o c).values, t.names.Nodup := by
  induction ks generalizing o with
  | nil =>
    rw [pipelineOutput]
    exact h
  | cons k ks ih =>
    rw [pipelineOutput]
    exact ih (k.nodup_names_output c h)

end Clause

end PullQuery
