import Mathlib.Data.List.Forall2
import PullQuery.Proofs.Arithmetic.Points
import PullQuery.Proofs.Expr.Output

namespace PullQuery

def Expr.GivesKey (e : Expr) (c : Context) (t : Tuple) (key : Option Item) : Prop :=
  e.evaluate (t.toContext c) = .ok key.toList ∧ ∀ a ∈ key, a.isAtomic = true

def SortKey.Gives (c : Context) (t : Tuple) : SortKey → Option Item → Prop
  | .mk e _, key => e.GivesKey c t key

def GroupKey.Gives (c : Context) (t : Tuple) : GroupKey → Option Item → Prop
  | .existing name, key => Fields.find? name (t.toContext c).frame.bindings = some key.toList ∧
      ∀ a ∈ key, a.isAtomic = true
  | .computed _ e, key => e.GivesKey c t key

structure Keyed (n : Nat) (r : List (Option Item) × Tuple) : Prop where
  length : r.1.length = n
  atomic : ∀ k ∈ r.1, ∀ a ∈ k, a.isAtomic = true

/-- Two of the keys, at one place, are points of one type, and the calendar does not have the
instant of one of them. -/
def KeysBeyond (z : Zone) (ks ls : List (Option Item)) : Prop :=
  ∃ (i : Nat) (a b : Item), ks[i]? = some (some a) ∧ ls[i]? = some (some b) ∧
    Arithmetic.isBeyond z a b = true

def RowsBeyond (z : Zone) (rows : List (List (Option Item) × Tuple)) : Prop :=
  ∃ i j : Nat, i ≠ j ∧ ∃ r s, rows[i]? = some r ∧ rows[j]? = some s ∧ KeysBeyond z r.1 s.1

/-- A symmetric relation holds somewhere in a list unless its opposite holds of all pairs. -/
theorem exists_ne_iff {α : Type} {R : α → α → Prop} (symm : ∀ a b, R a b → R b a) {as : List α} :
    (∃ i j : Nat, i ≠ j ∧ ∃ a b, as[i]? = some a ∧ as[j]? = some b ∧ R a b) ↔
      ¬as.Pairwise fun a b => ¬R a b := by
  constructor
  · rintro ⟨i, j, hij, a, b, ha, hb, hr⟩ hp
    obtain ⟨hi, rfl⟩ := List.getElem?_eq_some_iff.1 ha
    obtain ⟨hj, rfl⟩ := List.getElem?_eq_some_iff.1 hb
    obtain h | h := Nat.lt_or_gt_of_ne hij
    · exact List.pairwise_iff_getElem.1 hp i j hi hj h hr
    · exact List.pairwise_iff_getElem.1 hp j i hj hi h (symm _ _ hr)
  · intro h
    by_contra hn
    refine h (List.pairwise_iff_getElem.2 fun i j hi hj hij hr => hn ?_)
    exact ⟨i, j, Nat.ne_of_lt hij, as[i], as[j], List.getElem?_eq_getElem hi,
      List.getElem?_eq_getElem hj, hr⟩

section Beyond

variable {z : Zone} {a b : Item} {k l : Option Item} {ks ls : List (Option Item)}
  {r row : List (Option Item) × Tuple} {rows rows' : List (List (Option Item) × Tuple)}

theorem KeysBeyond.single (h : Arithmetic.isBeyond z a b = true) :
    KeysBeyond z [some a] [some b] := ⟨0, a, b, rfl, rfl, h⟩

theorem KeysBeyond.append (h : KeysBeyond z ks ls) (ks' ls' : List (Option Item)) :
    KeysBeyond z (ks ++ ks') (ls ++ ls') := by
  obtain ⟨i, a, b, ha, hb, hab⟩ := h
  refine ⟨i, a, b, ?_, ?_, hab⟩
  · rw [List.getElem?_append_left (List.getElem?_eq_some_iff.1 ha).1, ha]
  · rw [List.getElem?_append_left (List.getElem?_eq_some_iff.1 hb).1, hb]

theorem KeysBeyond.cons (h : KeysBeyond z ks ls) : KeysBeyond z (k :: ks) (l :: ls) := by
  obtain ⟨i, a, b, ha, hb, hab⟩ := h
  exact ⟨i + 1, a, b, ha, hb, hab⟩

theorem KeysBeyond.symm (h : KeysBeyond z ks ls) : KeysBeyond z ls ks := by
  obtain ⟨i, a, b, ha, hb, hab⟩ := h
  exact ⟨i, b, a, hb, ha, Arithmetic.isBeyond_comm.trans hab⟩

theorem rowsBeyond_iff : RowsBeyond z rows ↔ ¬rows.Pairwise fun r s => ¬KeysBeyond z r.1 s.1 :=
  exists_ne_iff fun _ _ => KeysBeyond.symm

theorem rowsBeyond_perm (h : rows'.Perm rows) : RowsBeyond z rows' ↔ RowsBeyond z rows := by
  rw [rowsBeyond_iff, rowsBeyond_iff]
  exact not_congr (h.pairwise_iff fun {r s} hn hb => hn hb.symm)

theorem RowsBeyond.append (h : RowsBeyond z rows) (row : List (Option Item) × Tuple) :
    RowsBeyond z (rows ++ [row]) :=
  rowsBeyond_iff.2 fun hp => rowsBeyond_iff.1 h (List.pairwise_append.1 hp).1

theorem RowsBeyond.of_mem (hr : r ∈ rows) (h : KeysBeyond z r.1 row.1) :
    RowsBeyond z (rows ++ [row]) :=
  rowsBeyond_iff.2 fun hp =>
    (List.pairwise_append.1 hp).2.2 r hr row (List.mem_singleton_self row) h

theorem not_rowsBeyond_of_isPlaced
    (h : ∀ row ∈ rows, ∀ k ∈ row.1, ∀ a ∈ k, Arithmetic.isPlaced z a = true) :
    ¬RowsBeyond z rows := by
  rintro ⟨i, j, -, r, s, hr, hs, n, a, b, ha, hb, hab⟩
  have hpa := h r (List.mem_of_getElem? hr) _ (List.mem_of_getElem? ha) a rfl
  have hpb := h s (List.mem_of_getElem? hs) _ (List.mem_of_getElem? hb) b rfl
  cases hab.symm.trans (Arithmetic.isBeyond_eq_false_iff.2 fun _ => ⟨hpa, hpb⟩)

/-- Only keys in the first and the last year of the calendar stop the program. -/
theorem RowsBeyond.exists_outermost (h : RowsBeyond z rows) :
    ∃ row ∈ rows, ∃ a, some a ∈ row.1 ∧ ∃ d ∈ Arithmetic.localDate? a,
      d.year = Calendar.leastYear ∨ d.year = Calendar.greatestYear := by
  by_contra hn
  refine not_rowsBeyond_of_isPlaced (fun row hr k hk a ha => ?_) h
  refine Arithmetic.isPlaced_of_localDate? z fun d hd => ?_
  have hs := d.year_supported
  have hy : ¬(d.year = Calendar.leastYear ∨ d.year = Calendar.greatestYear) := fun hy =>
    hn ⟨row, hr, a, (Option.mem_def.1 ha) ▸ hk, d, hd, hy⟩
  omega

end Beyond

theorem Machine.GivesAt.not_fail {m : Machine Tuple} {c : Context} {ts : List Tuple} {e : Error}
    (h : m.GivesAt c (.ofList ts)) : ¬m.GivesAt c (.fail e) := by
  intro he
  have h := (h.run (.fresh _)).symm.trans (he.run (.fresh _))
  cases h

theorem Machine.GivesAt.not_ofList {m : Machine Tuple} {c : Context} {p : Position}
    {result : Except Error (List Tuple)} (h : m.GivesAt c ((Output.ofExcept result).locate p))
    (he : result.isOk = false) : ¬∃ ts, m.GivesAt c (.ofList ts) := by
  rintro ⟨ts, ht⟩
  cases result with
  | ok ts => cases he
  | error e => exact ht.not_fail h

theorem mapM_of_forall₂ {α β : Type} {f : α → Except Error β} {as : List α} {bs : List β}
    (h : List.Forall₂ (fun a b => f a = .ok b) as bs) : as.mapM f = .ok bs := by
  induction h with
  | nil => rfl
  | cons hab _ ih =>
    rw [List.mapM_cons, hab, ih]
    rfl

theorem Items.atomicKey_toList {key : Option Item} (h : ∀ a ∈ key, a.isAtomic = true)
    (clause : String) : Items.atomicKey clause key.toList = .ok key := by
  cases key with
  | none => rfl
  | some a => exact if_pos (h a rfl)

namespace Output

def AreKeys (os : List (Output Item)) (ks : List (Option Item)) : Prop :=
  List.Forall₂ (fun o key => o.collect = .ok key.toList ∧ ∀ a ∈ key, a.isAtomic = true) os ks

theorem AreKeys.keys {os : List (Output Item)} {ks : List (Option Item)} (h : AreKeys os ks)
    (clause : String) : Output.keys clause os = .ok ks := by
  refine mapM_of_forall₂ (h.imp fun o key hk => ?_)
  rw [hk.1]
  exact Items.atomicKey_toList hk.2 clause

theorem rows_of_areKeys {outs : Tuple → List (Output Item)}
    {rows : List (List (Option Item) × Tuple)}
    (h : ∀ row ∈ rows, AreKeys (outs row.2) row.1) (clause : String) :
    ((ofList (rows.map Prod.snd)).rows fun t => do .ok (← Output.keys clause (outs t), t)) =
      .ok rows := by
  have hr : (rows.map Prod.snd).mapM (fun t => do
      Except.ok (ε := Error) (← Output.keys clause (outs t), t)) = .ok rows := by
    refine mapM_of_forall₂ ?_
    induction rows with
    | nil => exact .nil
    | cons row rows ih =>
      obtain ⟨hk, hs⟩ := List.forall_mem_cons.1 h
      refine .cons ?_ (ih hs)
      rw [hk.keys]
      rfl
  rw [Output.rows, ofList, hr]
  rfl

end Output

theorem SortKey.areKeys {c : Context} {t : Tuple} {keys : List SortKey} {ks : List (Option Item)}
    (h : List.Forall₂ (SortKey.Gives c t) keys ks) :
    Output.AreKeys (sortOutputs keys (t.toContext c)) ks := by
  induction h with
  | nil => exact .nil
  | @cons k key keys ks hk _ ih =>
    obtain ⟨e, o⟩ := k
    exact .cons ⟨(e.evaluate_eq _).symm.trans hk.1, hk.2⟩ ih

theorem GroupKey.areKeys {c : Context} {t : Tuple} {keys : List GroupKey} {ks : List (Option Item)}
    (p : Position) (h : List.Forall₂ (GroupKey.Gives c t) keys ks) :
    Output.AreKeys (groupOutputs p keys (t.toContext c)) ks := by
  induction h with
  | nil => exact .nil
  | @cons k key keys ks hk _ ih =>
    cases k with
    | existing name =>
      refine .cons ⟨?_, hk.2⟩ ih
      rw [hk.1]
      rfl
    | computed name e => exact .cons ⟨(e.evaluate_eq _).symm.trans hk.1, hk.2⟩ ih

theorem isAtomic_of_forall₂ {κ : Type} {R : κ → Option Item → Prop} {keys : List κ}
    {ks : List (Option Item)} (h : List.Forall₂ R keys ks)
    (hr : ∀ key k, R key k → ∀ a ∈ k, a.isAtomic = true) : ∀ k ∈ ks, ∀ a ∈ k, a.isAtomic = true := by
  induction h with
  | nil => exact nofun
  | cons hk _ ih => exact List.forall_mem_cons.2 ⟨hr _ _ hk, ih⟩

theorem SortKey.keyed {c : Context} {row : List (Option Item) × Tuple} {keys : List SortKey}
    (h : List.Forall₂ (SortKey.Gives c row.2) keys row.1) : Keyed keys.length row := by
  refine ⟨h.length_eq.symm, isAtomic_of_forall₂ h fun key k hk => ?_⟩
  obtain ⟨e, o⟩ := key
  exact hk.2

theorem GroupKey.keyed {c : Context} {row : List (Option Item) × Tuple} {keys : List GroupKey}
    (h : List.Forall₂ (GroupKey.Gives c row.2) keys row.1) : Keyed keys.length row := by
  refine ⟨h.length_eq.symm, isAtomic_of_forall₂ h fun key k hk => ?_⟩
  cases key with
  | existing name => exact hk.2
  | computed name e => exact hk.2

end PullQuery
