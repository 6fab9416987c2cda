import PullQuery.Tuple

namespace PullQuery

namespace Fields

variable {α : Type}

theorem mem_addNames {more names : List String} {n : String} :
    n ∈ addNames more names ↔ n ∈ more ∨ n ∈ names := by
  induction more generalizing names with
  | nil => simp [addNames]
  | cons m ms ih =>
    have hm : n ∈ addName m names ↔ n = m ∨ n ∈ names := by
      unfold addName
      split <;> simp_all [or_comm]
    change n ∈ addNames ms (addName m names) ↔ _
    rw [ih, hm, List.mem_cons, or_left_comm, or_assoc]

theorem isSome_find? {name : String} {fs : Fields α} :
    (find? name fs).isSome = true ↔ name ∈ names fs := by
  induction fs with
  | nil => simp [find?, names]
  | cons f fs ih =>
    obtain ⟨k, v⟩ := f
    by_cases hk : k = name
    · simp [find?, names, hk]
    · have hn : name ∈ names ((k, v) :: fs) ↔ name ∈ names fs := by simp [names, Ne.symm hk]
      rw [hn, find?, if_neg hk, ih]

theorem find?_eq_none {name : String} {fs : Fields α} (h : name ∉ names fs) :
    find? name fs = none :=
  Option.not_isSome_iff_eq_none.1 (mt isSome_find?.1 h)

end Fields

structure Context.AgreesOn (names : List String) (c c' : Context) : Prop where
  focus : c.focus? = c'.focus?
  implicitTimezone : c.implicitTimezone = c'.implicitTimezone
  now : c.now = c'.now
  value : ∀ name ∈ names, c.value? name = c'.value? name

namespace Tuple

def frame (t : Tuple) : Frame := t.bindings.foldl (fun f b => f.bind b.1 b.2) .empty

theorem toContext_eq (t : Tuple) (c : Context) : t.toContext c = ⟨c.settings, t.frame, c.frames⟩ := by
  have bindAll (bs : Fields Items) (f : Frame) :
      bs.foldl (fun c b => c.bind b.1 b.2) (⟨c.settings, f, c.frames⟩ : Context) =
        ⟨c.settings, bs.foldl (fun f b => f.bind b.1 b.2) f, c.frames⟩ := by
    induction bs generalizing f with
    | nil => rfl
    | cons b bs ih => exact ih (f.bind b.1 b.2)
  exact bindAll t.bindings .empty

theorem frame_focus (t : Tuple) : t.frame.focus = none := by
  have bindAll (bs : Fields Items) (f : Frame) :
      (bs.foldl (fun f b => f.bind b.1 b.2) f).focus = f.focus := by
    induction bs generalizing f with
    | nil => rfl
    | cons b bs ih => exact ih (f.bind b.1 b.2)
  exact bindAll t.bindings .empty

theorem mem_frame_names {t : Tuple} {n : String} :
    n ∈ Fields.names t.frame.bindings ↔ n ∈ t.names := by
  have bindAll (bs : Fields Items) (f : Frame) :
      n ∈ Fields.names (bs.foldl (fun f b => f.bind b.1 b.2) f).bindings ↔
        n ∈ Fields.addNames (Fields.names bs) (Fields.names f.bindings) := by
    induction bs generalizing f with
    | nil => rfl
    | cons b bs ih =>
      have hf : Fields.names (f.bind b.1 b.2).bindings = Fields.addName b.1 (Fields.names f.bindings) :=
        Fields.names_insert b.1 b.2 f.bindings
      rw [List.foldl_cons, ih, hf]
      rfl
  have hn := bindAll t.bindings .empty
  rw [Fields.mem_addNames] at hn
  simpa [frame, names, Frame.empty, Fields.names] using hn

theorem value?_toContext_of_mem {t : Tuple} {n : String} (h : n ∈ t.names) (c : Context) :
    (t.toContext c).value? n = Fields.find? n t.frame.bindings := by
  obtain ⟨items, hi⟩ := Option.isSome_iff_exists.1 (Fields.isSome_find?.2 (mem_frame_names.2 h))
  rw [toContext_eq, Context.value?, Context.frames, Frame.lookup, hi]
  rfl

theorem value?_toContext_of_notMem {t : Tuple} {n : String} (h : n ∉ t.names) (c : Context) :
    (t.toContext c).value? n = c.value? n := by
  have hn : Fields.find? n t.frame.bindings = none := by
    rw [← Option.not_isSome_iff_eq_none, Fields.isSome_find?, mem_frame_names]
    exact h
  rw [toContext_eq, Context.value?, Context.frames, Frame.lookup, hn]
  rfl

theorem focus?_toContext (t : Tuple) (c : Context) : (t.toContext c).focus? = c.focus? := by
  rw [toContext_eq, Context.focus?, Context.frames, Frame.lookupFocus, frame_focus]
  rfl

end Tuple

namespace Context.AgreesOn

variable {names more : List String} {c c' : Context}

theorem mono (h : AgreesOn names c c') (hm : ∀ n ∈ more, n ∈ names) : AgreesOn more c c' :=
  ⟨h.focus, h.implicitTimezone, h.now, fun n hn => h.value n (hm n hn)⟩

theorem left (h : AgreesOn (Fields.addNames more names) c c') : AgreesOn names c c' :=
  h.mono fun _ hn => Fields.mem_addNames.2 (.inr hn)

theorem right (h : AgreesOn (Fields.addNames more names) c c') : AgreesOn more c c' :=
  h.mono fun _ hn => Fields.mem_addNames.2 (.inl hn)

theorem callSite (h : AgreesOn names c c') (p : Position) : c.callSite p = c'.callSite p := by
  rw [Context.callSite, Context.callSite, h.focus, h.implicitTimezone, h.now]

theorem withFocus (h : AgreesOn names c c') (a : Item) (place : Nat) :
    AgreesOn names (c.child.withFocus a place) (c'.child.withFocus a place) :=
  ⟨rfl, h.implicitTimezone, h.now, h.value⟩

theorem toContext {t : Tuple} (h : AgreesOn names c c')
    (hm : ∀ n ∈ more, n ∈ t.names ∨ n ∈ names) : AgreesOn more (t.toContext c) (t.toContext c') where
  focus := by rw [t.focus?_toContext, t.focus?_toContext, h.focus]
  implicitTimezone := by
    rw [t.toContext_eq, t.toContext_eq]
    exact h.implicitTimezone
  now := by
    rw [t.toContext_eq, t.toContext_eq]
    exact h.now
  value n hn := by
    by_cases ht : n ∈ t.names
    · rw [Tuple.value?_toContext_of_mem ht, Tuple.value?_toContext_of_mem ht]
    · rw [Tuple.value?_toContext_of_notMem ht, Tuple.value?_toContext_of_notMem ht]
      exact h.value n ((hm n hn).resolve_left ht)

end Context.AgreesOn

end PullQuery
