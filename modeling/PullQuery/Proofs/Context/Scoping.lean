import PullQuery.Context.Tree
import PullQuery.Proofs.Closure

namespace PullQuery

namespace Fields

variable {α : Type} {fs : Fields α}

theorem find?_erase (name n : String) (fs : Fields α) :
    find? n (erase name fs) = if name = n then none else find? n fs := by
  induction fs with
  | nil => simp [erase, find?]
  | cons f fs ih =>
    obtain ⟨k, v⟩ := f
    by_cases hk : k = name
    · have he : erase name ((k, v) :: fs) = erase name fs := List.filter_cons_of_neg (by simp [hk])
      rw [he, ih, find?, hk]
      split <;> rfl
    · have he : erase name ((k, v) :: fs) = (k, v) :: erase name fs :=
        List.filter_cons_of_pos (by simp [hk])
      rw [he, find?, find?, ih]
      by_cases hn : name = n
      · rw [if_pos hn, if_pos hn, if_neg fun h => hk (h.trans hn.symm)]
      · rw [if_neg hn, if_neg hn]

theorem find?_erase_append (name n : String) (value : α) (fs : Fields α) :
    find? n (erase name fs ++ [(name, value)]) =
      if name = n then some value else find? n fs := by
  rw [find?_append, find?_erase]
  by_cases hn : name = n
  · rw [if_pos hn, if_pos hn, find?, if_pos hn]
    rfl
  · rw [if_neg hn, if_neg hn, find?, if_neg hn, find?, Option.or_none]

theorem nodup_erase_append (h : (names fs).Nodup) (name : String) (value : α) :
    (names (erase name fs ++ [(name, value)])).Nodup := by
  have he : ∀ n ∈ names (erase name fs), n ≠ name := by
    intro n hn
    obtain ⟨f, hf, rfl⟩ := List.mem_map.1 hn
    simpa using (List.mem_filter.1 hf).2
  rw [names, List.map_append]
  refine List.nodup_append.2 ⟨h.sublist (List.filter_sublist.map Prod.fst), by simp, ?_⟩
  intro n hn m hm
  obtain rfl := List.mem_singleton.1 hm
  exact he n hn

end Fields

inductive Growth
  | child (i : Nat)
  | bind (i : Nat) (name : String) (value : Items)
  | focus (i : Nat) (item : Item) (position : Nat)
  | tuple (i : Nat) (bindings : List (String × Items))

structure Scope where
  parent : Option Nat
  bound : List (String × Items)
  focus : Option Focus

def Tuple.ofList (bindings : List (String × Items)) : Tuple :=
  bindings.foldl (fun t b => t.bind b.1 b.2) .empty

def Frame.built (initial : List (String × Items)) (item : Option Item) : Frame :=
  ⟨(initial.foldl (fun f v => f.rebind v.1 v.2) Frame.empty).bindings, item.map (⟨·, 1⟩)⟩

namespace ContextTree

def add (t : ContextTree) (i : Nat) (c : Context) (shared : Bool) : ContextTree :=
  ⟨t.nodes.modify i (fun node => { node with shared := true }) ++ [⟨c, shared⟩]⟩

def tuple? (t : ContextTree) (i : Nat) (tuple : Tuple) : Option ContextTree :=
  (t.context? i).map fun c => t.add i (tuple.toContext c) true

def grow? (t : ContextTree) : Growth → Option ContextTree
  | .child i => t.child? i
  | .bind i name value => t.change? i (·.bind name value)
  | .focus i item position => t.change? i (·.withFocus item position)
  | .tuple i bindings => t.tuple? i (.ofList bindings)

def grows? (t : ContextTree) : List Growth → Option ContextTree
  | [] => some t
  | step :: steps => (t.grow? step).bind (·.grows? steps)

end ContextTree

namespace Growth

def changed? : Growth → Option Nat
  | .child _ => none
  | .bind i _ _ => some i
  | .focus i _ _ => some i
  | .tuple _ _ => none

def scopes (scopes : List Scope) : Growth → List Scope
  | .child i => scopes ++ [⟨some i, [], none⟩]
  | .bind i name value => scopes.modify i fun s => { s with bound := (name, value) :: s.bound }
  | .focus i item position => scopes.modify i fun s => { s with focus := some ⟨item, position⟩ }
  | .tuple i bindings => scopes ++ [⟨some i, bindings.reverse, none⟩]

end Growth

namespace Scope

def value? (name : String) (s : Scope) : Option Items := Fields.find? name s.bound

def root (initial : List (String × Items)) (item : Option Item) : Scope :=
  ⟨none, initial.reverse, item.map (⟨·, 1⟩)⟩

theorem exists_of_mem_modify {scopes : List Scope} {change : Scope → Scope}
    (hparent : ∀ s, (change s).parent = s.parent) {i : Nat} {s : Scope}
    (h : s ∈ scopes.modify i change) : ∃ s₀ ∈ scopes, s₀.parent = s.parent := by
  obtain ⟨j, hj⟩ := List.mem_iff_getElem?.1 h
  rw [List.getElem?_modify] at hj
  obtain ⟨s₀, hs₀, rfl⟩ := Option.map_eq_some_iff.1 hj
  refine ⟨s₀, List.mem_of_getElem? hs₀, ?_⟩
  split
  · exact (hparent s₀).symm
  · rfl

end Scope

/-- What the nearest scope says, outward from one, that says anything. -/
inductive Nearest {α : Type} (scopes : List Scope) (look : Scope → Option α) : Nat → α → Prop
  | here {i : Nat} {s : Scope} {x : α} (hs : scopes[i]? = some s) (hx : look s = some x) :
      Nearest scopes look i x
  | outer {i j : Nat} {s : Scope} {x : α} (hs : scopes[i]? = some s) (hn : look s = none)
      (hp : s.parent = some j) (hx : Nearest scopes look j x) : Nearest scopes look i x

structure Frame.Shows (f : Frame) (s : Scope) : Prop where
  value : ∀ name, Fields.find? name f.bindings = s.value? name
  focus : f.focus = s.focus
  nodup : (Fields.names f.bindings).Nodup

inductive Chain (scopes : List Scope) : Nat → List Frame → Prop
  | root {i : Nat} {s : Scope} {f : Frame} (hs : scopes[i]? = some s) (hf : f.Shows s)
      (hp : s.parent = none) : Chain scopes i [f]
  | inside {i j : Nat} {s : Scope} {f : Frame} {fs : List Frame} (hs : scopes[i]? = some s)
      (hf : f.Shows s) (hp : s.parent = some j) (h : Chain scopes j fs) : Chain scopes i (f :: fs)

section

variable {α : Type} {scopes : List Scope} {i : Nat} {s : Scope} {f : Frame} {fs : List Frame}

namespace Nearest

variable {look : Scope → Option α} {x y : α}

theorem iff_eq (hs : scopes[i]? = some s) (hy : look s = some y) :
    Nearest scopes look i x ↔ y = x := by
  constructor
  · rintro (⟨hs', hx⟩ | ⟨hs', hn, -, -⟩)
    · cases hs.symm.trans hs'
      exact Option.some.inj (hy.symm.trans hx)
    · cases hs.symm.trans hs'
      cases hy.symm.trans hn
  · rintro rfl
    exact .here hs hy

theorem iff_outer (hs : scopes[i]? = some s) (hn : look s = none) :
    Nearest scopes look i x ↔ ∃ j, s.parent = some j ∧ Nearest scopes look j x := by
  constructor
  · rintro (⟨hs', hx⟩ | ⟨hs', -, hp, hx⟩)
    · cases hs.symm.trans hs'
      cases hn.symm.trans hx
    · cases hs.symm.trans hs'
      exact ⟨_, hp, hx⟩
  · rintro ⟨j, hp, hx⟩
    exact .outer hs hn hp hx

end Nearest

theorem Tuple.frame_ofList (bindings : List (String × Items)) :
    (ofList bindings).frame = bindings.foldl (fun f b => f.bind b.1 b.2) Frame.empty := by
  have bindAll (bs : List (String × Items)) (f : Frame) :
      bs.foldl (fun f b => f.bind b.1 b.2) f =
        ⟨bs.foldl (fun fs b => Fields.insert b.1 b.2 fs) f.bindings, f.focus⟩ := by
    induction bs generalizing f with
    | nil => rfl
    | cons b bs ih => exact ih (f.bind b.1 b.2)
  have nodup (bs : List (String × Items)) {fs : Fields Items} (h : (Fields.names fs).Nodup) :
      (Fields.names (bs.foldl (fun fs b => Fields.insert b.1 b.2 fs) fs)).Nodup := by
    induction bs generalizing fs with
    | nil => exact h
    | cons b bs ih => exact ih (Fields.nodup_insert h)
  rw [frame, bindAll, bindAll, ofList, bindings_foldl_bind]
  exact congrArg (Frame.mk · none) (Fields.ofList_of_nodup (nodup bindings List.nodup_nil))

namespace Frame

theorem lookup_eq_findSome? (name : String) (fs : List Frame) :
    lookup name fs = fs.findSome? fun f => Fields.find? name f.bindings := by
  induction fs with
  | nil => rfl
  | cons f fs ih =>
    rw [lookup, List.findSome?_cons, ih]
    cases Fields.find? name f.bindings <;> rfl

theorem lookupFocus_eq_findSome? (fs : List Frame) : lookupFocus fs = fs.findSome? (·.focus) := by
  induction fs with
  | nil => rfl
  | cons f fs ih =>
    rw [lookupFocus, List.findSome?_cons, ih]
    cases f.focus <;> rfl

namespace Shows

theorem mem_names_iff (h : f.Shows s) (name : String) :
    name ∈ Fields.names f.bindings ↔ name ∈ s.bound.map Prod.fst := by
  rw [← Fields.isSome_find?, h.value, Scope.value?, Fields.isSome_find?]
  rfl

theorem empty (parent : Option Nat) : Frame.empty.Shows ⟨parent, [], none⟩ :=
  ⟨fun _ => rfl, rfl, List.nodup_nil⟩

theorem bind (h : f.Shows s) (name : String) (value : Items) :
    (f.bind name value).Shows { s with bound := (name, value) :: s.bound } where
  value n := by
    rw [Frame.bind, Fields.find?_insert, h.value]
    rfl
  focus := h.focus
  nodup := Fields.nodup_insert h.nodup

theorem withFocus (h : f.Shows s) (item : Item) (position : Nat) :
    (f.withFocus item position).Shows { s with focus := some ⟨item, position⟩ } :=
  ⟨h.value, rfl, h.nodup⟩

theorem rebind (h : f.Shows s) (name : String) (value : Items) :
    (f.rebind name value).Shows { s with bound := (name, value) :: s.bound } where
  value n := by
    rw [Frame.rebind, Fields.find?_erase_append, h.value]
    rfl
  focus := h.focus
  nodup := Fields.nodup_erase_append h.nodup name value

theorem foldl {put : Frame → String → Items → Frame}
    (hput : ∀ {f s}, f.Shows s → ∀ name value,
      (put f name value).Shows { s with bound := (name, value) :: s.bound })
    (bindings : List (String × Items)) (h : f.Shows s) :
    (bindings.foldl (fun f b => put f b.1 b.2) f).Shows
      { s with bound := bindings.reverse ++ s.bound } := by
  induction bindings generalizing f s with
  | nil => exact h
  | cons b bs ih =>
    rw [List.foldl_cons, List.reverse_cons, List.append_assoc]
    exact ih (hput h b.1 b.2)

theorem built (initial : List (String × Items)) (item : Option Item) :
    (Frame.built initial item).Shows (.root initial item) := by
  have h := (empty none).foldl (fun h => h.rebind) initial
  rw [List.append_nil] at h
  exact ⟨h.value, rfl, h.nodup⟩

theorem tuple (bindings : List (String × Items)) (parent : Option Nat) :
    (Tuple.ofList bindings).frame.Shows ⟨parent, bindings.reverse, none⟩ := by
  rw [Tuple.frame_ofList]
  have h := (empty parent).foldl (fun h => h.bind) bindings
  rwa [List.append_nil] at h

end Shows
end Frame

namespace Chain

theorem congr {scopes' : List Scope} {p : Nat → Prop}
    (hkeep : ∀ (j : Nat) (s : Scope), p j → scopes[j]? = some s → scopes'[j]? = some s)
    (hparent : ∀ (j : Nat) (s : Scope) (k : Nat), scopes[j]? = some s → s.parent = some k → p k)
    (h : Chain scopes i fs) (hi : p i) : Chain scopes' i fs := by
  induction h with
  | root hs hf hp => exact .root (hkeep _ _ hi hs) hf hp
  | inside hs hf hp _ ih => exact .inside (hkeep _ _ hi hs) hf hp (ih (hparent _ _ _ hs hp))

theorem append (h : Chain scopes i fs) (more : List Scope) : Chain (scopes ++ more) i fs := by
  refine h.congr (p := fun _ => True) (fun j s _ hs => ?_) (fun _ _ _ _ _ => trivial) trivial
  rw [List.getElem?_append_left (List.getElem?_eq_some_iff.1 hs).1, hs]

theorem modify_of_ne {j : Nat} (h : Chain scopes j fs) (hj : j ≠ i)
    (hi : ∀ s ∈ scopes, s.parent ≠ some i) (change : Scope → Scope) :
    Chain (scopes.modify i change) j fs := by
  refine h.congr (p := (· ≠ i)) (fun k s hk hs => ?_) (fun k s m hs hp hm => ?_) hj
  · rw [List.getElem?_modify_ne _ _ (Ne.symm hk), hs]
  · exact hi s (List.mem_of_getElem? hs) (hm ▸ hp)

theorem modify_self (h : Chain scopes i (f :: fs)) (hi : ∀ s ∈ scopes, s.parent ≠ some i)
    {change : Scope → Scope} {f' : Frame} (hf : ∀ {s : Scope}, f.Shows s → f'.Shows (change s))
    (hparent : ∀ s : Scope, (change s).parent = s.parent) :
    Chain (scopes.modify i change) i (f' :: fs) := by
  have changed {s : Scope} (hs : scopes[i]? = some s) :
      (scopes.modify i change)[i]? = some (change s) := by
    rw [List.getElem?_modify_eq, hs]
    rfl
  cases h with
  | root hs hs' hp => exact .root (changed hs) (hf hs') ((hparent _).trans hp)
  | @inside _ j _ _ _ hs hs' hp h =>
    have hj : j ≠ i := fun he => hi _ (List.mem_of_getElem? hs) (he ▸ hp)
    exact .inside (changed hs) (hf hs') ((hparent _).trans hp) (h.modify_of_ne hj hi change)

theorem head_shows (h : Chain scopes i (f :: fs)) : ∃ s, scopes[i]? = some s ∧ f.Shows s := by
  cases h with
  | root hs hf => exact ⟨_, hs, hf⟩
  | inside hs hf => exact ⟨_, hs, hf⟩

theorem findSome?_eq_some_iff (h : Chain scopes i fs) {read : Frame → Option α}
    {look : Scope → Option α} (hread : ∀ {f s}, f.Shows s → read f = look s) {x : α} :
    fs.findSome? read = some x ↔ Nearest scopes look i x := by
  induction h with
  | @root i s f hs hf hp =>
    rw [List.findSome?_cons, hread hf]
    cases hy : look s with
    | some y => exact Option.some_inj.trans (Nearest.iff_eq hs hy).symm
    | none =>
      rw [Nearest.iff_outer hs hy, hp]
      exact ⟨nofun, nofun⟩
  | @inside i j s f fs hs hf hp _ ih =>
    rw [List.findSome?_cons, hread hf]
    cases hy : look s with
    | some y => exact Option.some_inj.trans (Nearest.iff_eq hs hy).symm
    | none =>
      rw [Nearest.iff_outer hs hy, hp]
      simpa using ih

end Chain
end

namespace ContextTree

variable {t t' : ContextTree} {i j : Nat} {c d : Context}

theorem exists_of_change? {f : Context → Context} (h : t.change? i f = some t') :
    ∃ node, t.nodes[i]? = some node ∧ node.shared = false ∧
      t' = ⟨t.nodes.set i ⟨f node.context, false⟩⟩ := by
  unfold change? at h
  split at h
  case h_1 node hn =>
    split at h
    case isTrue => cases h
    case isFalse hs => exact ⟨node, hn, by simpa using hs, (Option.some.inj h).symm⟩
  case h_2 => cases h

theorem lt_of_context? (h : t.context? i = some c) : i < t.nodes.length := by
  obtain ⟨node, hn, -⟩ := Option.map_eq_some_iff.1 h
  exact (List.getElem?_eq_some_iff.1 hn).1

theorem context?_add_of_lt (hj : j < t.nodes.length) (c : Context) (shared : Bool) :
    (t.add i c shared).context? j = t.context? j := by
  unfold context? add
  rw [List.getElem?_append_left (by rwa [List.length_modify]), List.getElem?_modify]
  cases t.nodes[j]? with
  | none => rfl
  | some node =>
    refine congrArg some ?_
    dsimp only
    split <;> rfl

theorem context?_add_length (t : ContextTree) (i : Nat) (c : Context) (shared : Bool) :
    (t.add i c shared).context? t.nodes.length = some c := by
  unfold context? add
  rw [List.getElem?_append_right (by rw [List.length_modify]), List.length_modify, Nat.sub_self]
  rfl

theorem context?_add_cases {shared : Bool} (h : (t.add i c shared).context? j = some d) :
    t.context? j = some d ∨ j = t.nodes.length ∧ d = c := by
  have hj := lt_of_context? h
  unfold add at hj
  rw [List.length_append, List.length_modify, List.length_singleton] at hj
  obtain hj | rfl := Nat.lt_or_eq_of_le (Nat.le_of_lt_succ hj)
  · exact .inl ((context?_add_of_lt hj c shared).symm.trans h)
  · rw [context?_add_length] at h
    exact .inr ⟨rfl, (Option.some.inj h).symm⟩

theorem shared_add {shared : Bool} (h : t.nodes[j]?.map (·.shared) = some true) :
    (t.add i c shared).nodes[j]?.map (·.shared) = some true := by
  obtain ⟨node, hn, hs⟩ := Option.map_eq_some_iff.1 h
  have hj : j < t.nodes.length := (List.getElem?_eq_some_iff.1 hn).1
  rw [add, List.getElem?_append_left (by rwa [List.length_modify]), List.getElem?_modify, hn]
  refine congrArg some ?_
  dsimp only
  split
  · rfl
  · exact hs

theorem shared_add_self (hc : t.context? i = some c) (d : Context) (shared : Bool) :
    (t.add i d shared).nodes[i]?.map (·.shared) = some true := by
  obtain ⟨node, hn, -⟩ := Option.map_eq_some_iff.1 hc
  rw [add, List.getElem?_append_left (by rw [List.length_modify]; exact lt_of_context? hc),
    List.getElem?_modify_eq, hn]
  rfl

theorem context?_grow? {step : Growth} (h : t.grow? step = some t') (hj : t.context? j = some c)
    (hs : step.changed? ≠ some j) : t'.context? j = some c := by
  have add (i : Nat) (f : Context → Context) (shared : Bool)
      (h : ((t.context? i).map fun c => t.add i (f c) shared) = some t') :
      t'.context? j = some c := by
    obtain ⟨d, -, rfl⟩ := Option.map_eq_some_iff.1 h
    rw [context?_add_of_lt (lt_of_context? hj), hj]
  have change (i : Nat) (f : Context → Context) (hi : i ≠ j) (h : t.change? i f = some t') :
      t'.context? j = some c := by
    obtain ⟨node, -, -, rfl⟩ := exists_of_change? h
    rw [← hj, context?, context?, List.getElem?_set_ne hi]
  cases step with
  | child i => exact add i Context.child false h
  | bind i name value => exact change i (·.bind name value) (fun he => hs (congrArg some he)) h
  | focus i item position =>
    exact change i (·.withFocus item position) (fun he => hs (congrArg some he)) h
  | tuple i bindings => exact add i (Tuple.ofList bindings).toContext true h

theorem context?_set_cases {node : ContextNode} (hi : i < t.nodes.length)
    (h : context? ⟨t.nodes.set i node⟩ j = some d) :
    i ≠ j ∧ t.context? j = some d ∨ i = j ∧ d = node.context := by
  unfold context? at h
  by_cases hj : i = j
  · subst hj
    rw [List.getElem?_set_self hi] at h
    exact .inr ⟨rfl, (Option.some.inj h).symm⟩
  · rw [List.getElem?_set_ne hj] at h
    exact .inl ⟨hj, h⟩

theorem root_cases {root : Context} (h : (ofRoot root).context? i = some c) : i = 0 ∧ c = root := by
  obtain rfl : i = 0 := Nat.lt_one_iff.1 (lt_of_context? h)
  exact ⟨rfl, (Option.some.inj h).symm⟩

structure Matches (settings : Settings) (t : ContextTree) (scopes : List Scope) : Prop where
  length : t.nodes.length = scopes.length
  settings : ∀ i c, t.context? i = some c → c.settings = settings
  chain : ∀ i c, t.context? i = some c → Chain scopes i c.frames
  shared : ∀ s ∈ scopes, ∀ j, s.parent = some j → t.nodes[j]?.map (·.shared) = some true

namespace Matches

variable {settings : Settings} {scopes : List Scope}

theorem add {f : Frame} {bound : List (String × Items)} (h : t.Matches settings scopes)
    (hc : t.context? i = some c) (hf : f.Shows ⟨some i, bound, none⟩) (shared : Bool) :
    (t.add i ⟨c.settings, f, c.frames⟩ shared).Matches settings
      (scopes ++ [⟨some i, bound, none⟩]) where
  length := by simp [ContextTree.add, h.length]
  settings j d hd := by
    obtain hd | ⟨-, rfl⟩ := context?_add_cases hd
    · exact h.settings j d hd
    · exact h.settings i c hc
  chain j d hd := by
    obtain hd | ⟨rfl, rfl⟩ := context?_add_cases hd
    · exact (h.chain j d hd).append _
    · refine .inside ?_ hf rfl ((h.chain i c hc).append _)
      rw [h.length, List.getElem?_append_right (Nat.le_refl _), Nat.sub_self]
      rfl
  shared s hs j hj := by
    obtain hs | hs := List.mem_append.1 hs
    · exact shared_add (h.shared s hs j hj)
    · obtain rfl := List.mem_singleton.1 hs
      obtain rfl := Option.some.inj hj
      exact shared_add_self hc _ _

theorem change {f : Frame → Frame} {step : Scope → Scope} (h : t.Matches settings scopes)
    (ht : t.change? i (fun c => { c with frame := f c.frame }) = some t')
    (hf : ∀ {g s}, g.Shows s → (f g).Shows (step s)) (hparent : ∀ s, (step s).parent = s.parent) :
    t'.Matches settings (scopes.modify i step) := by
  obtain ⟨node, hn, hs, rfl⟩ := exists_of_change? ht
  have hi : i < t.nodes.length := (List.getElem?_eq_some_iff.1 hn).1
  have hc : t.context? i = some node.context := by rw [context?, hn]; rfl
  -- Only a context that is not shared takes a change, so no other scope sees it.
  have alone : ∀ s ∈ scopes, s.parent ≠ some i := by
    intro s hm hp
    have hsh := h.shared s hm i hp
    rw [hn, Option.map_some, hs] at hsh
    cases hsh
  constructor
  case length => rw [List.length_set, List.length_modify, h.length]
  case settings =>
    intro j d hd
    obtain ⟨-, hd⟩ | ⟨rfl, rfl⟩ := context?_set_cases hi hd
    · exact h.settings j d hd
    · exact (h.settings i node.context hc :)
  case chain =>
    intro j d hd
    obtain ⟨hj, hd⟩ | ⟨rfl, rfl⟩ := context?_set_cases hi hd
    · exact (h.chain j d hd).modify_of_ne (Ne.symm hj) alone step
    · exact (h.chain i node.context hc).modify_self alone hf hparent
  case shared =>
    intro s hm j hj
    obtain ⟨s₀, hm₀, hp⟩ := Scope.exists_of_mem_modify hparent hm
    have hsh := h.shared s₀ hm₀ j (hp.trans hj)
    have hij : i ≠ j := fun he => alone s₀ hm₀ (he ▸ hp.trans hj)
    rwa [List.getElem?_set_ne hij]

theorem grow {step : Growth} (h : t.Matches settings scopes) (ht : t.grow? step = some t') :
    t'.Matches settings (step.scopes scopes) := by
  cases step with
  | child i =>
    obtain ⟨c, hc, rfl⟩ := Option.map_eq_some_iff.1 ht
    exact h.add hc (.empty (some i)) false
  | bind i name value =>
    have ht : t.change? i (fun c => { c with frame := c.frame.bind name value }) = some t' := ht
    exact h.change ht (fun h => h.bind name value) fun _ => rfl
  | focus i item position =>
    have ht : t.change? i (fun c => { c with frame := c.frame.withFocus item position }) = some t' :=
      ht
    exact h.change ht (fun h => h.withFocus item position) fun _ => rfl
  | tuple i bindings =>
    obtain ⟨c, hc, rfl⟩ := Option.map_eq_some_iff.1 ht
    rw [Tuple.toContext_eq]
    exact h.add hc (.tuple bindings (some i)) true

theorem grows {steps : List Growth} (h : t.Matches settings scopes)
    (ht : t.grows? steps = some t') : t'.Matches settings (steps.foldl Growth.scopes scopes) := by
  induction steps generalizing t scopes with
  | nil =>
    cases ht
    exact h
  | cons step steps ih =>
    obtain ⟨t₁, ht₁, ht⟩ := Option.bind_eq_some_iff.1 ht
    exact ih (h.grow ht₁) ht

theorem ofRoot (settings : Settings) (initial : List (String × Items)) (item : Option Item) :
    (ofRoot (.root settings (.built initial item))).Matches settings [.root initial item] where
  length := rfl
  settings i c hc := by
    obtain ⟨-, rfl⟩ := root_cases hc
    rfl
  chain i c hc := by
    obtain ⟨rfl, rfl⟩ := root_cases hc
    exact .root rfl (.built initial item) rfl
  shared s hs j hj := by
    obtain rfl := List.mem_singleton.1 hs
    cases hj

end Matches

/-- Contexts follow lexical scoping, each step changes at most one of them, and a tuple's context
shows what the tuple binds, last bound first, before what is around it. -/
theorem scopes_lexically (settings : Settings) (initial : List (String × Items))
    (item : Option Item) {steps : List Growth} {t : ContextTree}
    (ht : (ContextTree.ofRoot (.root settings (.built initial item))).grows? steps = some t) :
    (∀ i c, t.context? i = some c →
      (∀ name value, c.value? name = some value ↔
        Nearest (steps.foldl Growth.scopes [.root initial item]) (·.value? name) i value) ∧
      (∀ focus, c.focus? = some focus ↔
        Nearest (steps.foldl Growth.scopes [.root initial item]) (·.focus) i focus) ∧
      c.implicitTimezone = settings.implicitTimezone ∧ c.now = settings.now ∧
      c.localNames.Nodup ∧
      ∃ s, (steps.foldl Growth.scopes [.root initial item])[i]? = some s ∧
        ∀ name, name ∈ c.localNames ↔ name ∈ s.bound.map Prod.fst) ∧
    (∀ step t', t.grow? step = some t' → ∀ j c, t.context? j = some c →
      step.changed? ≠ some j → t'.context? j = some c) ∧
    ∀ (bindings : List (String × Items)) (c : Context) (name : String),
      ((Tuple.ofList bindings).toContext c).value? name =
        (Fields.find? name bindings.reverse).or (c.value? name) := by
  refine ⟨fun i c hc => ?_, fun step t' h j c hc hs => context?_grow? h hc hs,
    fun bindings c name => ?_⟩
  · have h := (Matches.ofRoot settings initial item).grows ht
    have hchain := h.chain i c hc
    obtain ⟨s, hs, hshows⟩ := hchain.head_shows
    refine ⟨fun name value => ?_, fun focus => ?_, ?_, ?_, hshows.nodup, s, hs,
      fun name => hshows.mem_names_iff name⟩
    · rw [Context.value?, Frame.lookup_eq_findSome?]
      exact hchain.findSome?_eq_some_iff fun hf => hf.value name
    · rw [Context.focus?, Frame.lookupFocus_eq_findSome?]
      exact hchain.findSome?_eq_some_iff fun hf => hf.focus
    · rw [Context.implicitTimezone, h.settings i c hc]
    · rw [Context.now, h.settings i c hc]
  · rw [Tuple.toContext_eq, Context.value?, Context.frames, Frame.lookup,
      (Frame.Shows.tuple bindings none).value]
    rfl

theorem scopes_lexically_of_rebound :
    let now : DateTime := ⟨⟨2024, 1, 2, by decide, by decide, by decide⟩, .midnight⟩
    let root : Context := .root ⟨.utc, ⟨now, .utc⟩, .empty⟩ (.built [("x", [.int 1])] none)
    let steps : List Growth := [.child 0, .bind 1 "x" [.int 2], .bind 1 "x" [.int 3],
      .tuple 1 [("y", []), ("y", [.null])]]
    ∃ t c, (ofRoot root).grows? steps = some t ∧ t.context? 2 = some c ∧
      c.value? "x" = some [.int 3] := by
  intro now root steps
  refine ⟨_, _, rfl, rfl, ?_⟩
  have ht : (ofRoot root).grows? steps = some _ := rfl
  have h := (scopes_lexically ⟨.utc, ⟨now, .utc⟩, .empty⟩ [("x", [.int 1])] none ht).1
  exact ((h 2 _ rfl).1 "x" [.int 3]).2 (.outer rfl rfl rfl (.here rfl rfl))

end ContextTree

end PullQuery
