import PullQuery.Proofs.Usage.Children
import PullQuery.Scan.Choice
import PullQuery.Scan.Each
import PullQuery.Scan.Gather
import PullQuery.Scan.Nested

namespace PullQuery.Machine

variable {α β κ ρ ω : Type} {name : String} {p : Position} {initial : κ}
  {W : κ → Usages → Prop}

theorem comma_clean {ms : List (Machine ω)} {sources : List Source} (h : Scans.Clean ms sources) :
    (comma name p ms).Clean sources := by
  apply Scan.sound_of_invariant
    (J := fun (i : Option Context × Nat × Scans ms) us => Scans.Sound ms i.2.2 us) _ h
  constructor
  · intro i us h _ c
    exact .within (Scans.startFirst_leaves h)
  · rintro ⟨_ | c, i, s⟩ us h
    · exact .done h
    · exact .within (Scans.next_leaves i h)
  · intro i us h
    exact .within (Scans.close_leaves h)

def Supplied (W : κ → Usages → Prop) (input : Machine α) :
    Scan input.toOperator × κ → Usages → Prop :=
  Beside Scan.Sound W

variable {input : Machine α} {is ws : List Source}

theorem supplied_unused (hi : input.Clean is) (h : W initial (unused ws)) :
    Supplied W input (.fresh _, initial) (unused (is ++ ws)) :=
  ⟨_, _, unused_append is ws, hi, h⟩

theorem close_supplied (hq : ∀ {k us}, W k us → Quiet us) {s : Scan input.toOperator} {k : κ}
    {us : Usages} (h : Supplied W input (s, k) us) :
    s.close.Leaves us fun s us => Supplied W input (s, k) us ∧ Quiet us := by
  obtain ⟨us, vs, rfl, hs, hk⟩ := h
  refine ((Scan.close_leaves hs).right vs).mono ?_
  rintro _ ⟨us, rfl, hs, hu⟩
  exact ⟨⟨us, vs, rfl, hs, hk⟩, quiet_append.2 ⟨hu, hq hk⟩⟩

theorem each_clean {prepare : Context → κ → Step (Except Error ρ) κ}
    {expand : ρ → α → κ → Step (Except Error (List β)) κ} (hq : ∀ {k us}, W k us → Quiet us)
    (hp : ∀ {k us}, W k us → ∀ c, (prepare c k).Leaves us W)
    (he : ∀ {k us}, W k us → ∀ r a, (expand r a k).Leaves us W) (hi : input.Clean is)
    (h : W initial (unused ws)) : (each name p initial prepare expand input).Clean (is ++ ws) := by
  apply Scan.sound_of_invariant (J := fun (i : Each.State input κ ρ β) us =>
    Supplied W input (i.input, i.work) us) _ (supplied_unused hi h)
  constructor
  · rintro ⟨s, k, _, _⟩ _ ⟨us, vs, rfl, hs, hk⟩ _ c
    refine ((hp hk c).left us).thenOk (g := fun k => (⟨s, k, none, []⟩ : Each.State input κ ρ β))
      (f := fun r k => (s.start c).within (⟨·, k, some r, []⟩)) ?_ ?_
    · rintro _ _ _ ⟨vs, rfl, hk⟩
      exact ⟨us, vs, rfl, hs, hk⟩
    · rintro r _ _ ⟨vs, rfl, hk⟩
      exact .within ((Scan.start_leaves hs c).fst hk)
  · rintro ⟨s, k, r, _ | ⟨b, bs⟩⟩ _ ⟨us, vs, rfl, hs, hk⟩
    · rcases r with _ | r
      · exact .done ⟨us, vs, rfl, hs, hk⟩
      · have hx : (s.search (Each.expandOne expand r) (k, [])).Leaves (us ++ vs)
            (Beside Scan.Sound fun t vs => W t.1 vs) := by
          refine Scan.search_leaves (fun {a t vs} hk => ?_) hs hk
          refine (he hk r a).thenOk (fun _ _ _ h => h) fun bs _ _ h => ?_
          cases bs <;> exact .done h
        exact .within hx
    · exact .done ⟨us, vs, rfl, hs, hk⟩
  · intro i us h
    exact .within (f := fun s => (⟨s, i.work, none, []⟩ : Each.State input κ ρ β))
      (close_supplied hq h)

theorem each_storeless_clean {prepare : Context → κ → Step (Except Error ρ) κ}
    {expand : ρ → α → κ → Step (Except Error (List β)) κ} (hp : ∀ c k, (prepare c k).log = [])
    (he : ∀ r a k, (expand r a k).log = []) (hi : input.Clean is) :
    (each name p initial prepare expand input).Clean is := by
  have hl {γ : Type} {x : Step γ κ} {us : Usages} (hx : x.log = []) (h : us = []) :
      x.Leaves us fun _ us => us = [] := ⟨us, hx ▸ .refl us, h⟩
  have h : (each name p initial prepare expand input).Clean (is ++ []) :=
    each_clean (W := fun _ us => us = []) (fun h => h ▸ quiet_nil) (fun h c => hl (hp c _) h)
      (fun h r a => hl (he r a _) h) hi rfl
  rwa [List.append_nil] at h

theorem deliver_leaves {s : Gather.State input κ β} {us : Usages}
    (h : Supplied W input (s.input, s.work) us) (r : Except Error (List β)) :
    (Gather.deliver s r).Leaves us fun s us => Supplied W input (s.input, s.work) us := by
  cases r with
  | error e => exact .done h
  | ok bs => exact .done h

theorem gather_clean {row : Context → α → κ → Step (Except Error ρ) κ}
    {finish : Context → List ρ → Except Error (List β)} (hq : ∀ {k us}, W k us → Quiet us)
    (hr : ∀ {k us}, W k us → ∀ c a, (row c a k).Leaves us W) (hi : input.Clean is)
    (h : W initial (unused ws)) : (gather name p initial row finish input).Clean (is ++ ws) := by
  apply Scan.sound_of_invariant (J := fun (i : Gather.State input κ β) us =>
    Supplied W input (i.input, i.work) us) _ (supplied_unused hi h)
  constructor
  · rintro ⟨s, k, _, _⟩ _ ⟨us, vs, rfl, hs, hk⟩ _ c
    exact .within ((Scan.start_leaves hs c).fst hk)
  · rintro ⟨s, k, c, _ | bs⟩ _ ⟨us, vs, rfl, hs, hk⟩
    · rcases c with _ | c
      · exact .done ⟨us, vs, rfl, hs, hk⟩
      · have hx : (s.search (Gather.addRow row c) (k, [])).Leaves (us ++ vs)
            (Beside Scan.Sound fun t vs => W t.1 vs) := by
          refine Scan.search_leaves (fun {a t vs} hk => ?_) hs hk
          exact (hr hk c a).thenOk (fun _ _ _ h => h) fun _ _ _ h => .done h
        exact hx.andThen (f := fun r x => Gather.deliver ⟨x.1, x.2.1, some c, none⟩
          (r.bind fun _ => finish c x.2.2.reverse)) fun us h =>
            deliver_leaves (W := W) (s := ⟨_, _, some c, none⟩) h _
    · exact .done ⟨us, vs, rfl, hs, hk⟩
  · intro i us h
    exact .within (f := fun s => (⟨s, i.work, none, none⟩ : Gather.State input κ β))
      (close_supplied hq h)

section

variable {outer : Machine α} {inner : Machine ω} {n : Nesting α ω β} {os : List Source}

def Nested.Both (s : Nested.State outer inner) (us : Usages) : Prop :=
  Beside Scan.Sound Scan.Sound (s.outer, s.inner) us

theorem continue_leaves {s : Scan inner.toOperator} {us : Usages} (h : s.Sound us) (a : α)
    (count pulled : Nat) :
    (Nested.continue? n a count pulled s).Leaves us fun t us => t.1.Sound us := by
  rw [Nested.continue?]
  split
  · exact .mapValue (.within (Scan.next_leaves h))
  · exact .mapValue (.within ((Scan.close_leaves h).mono fun us h => h.1))

theorem enter_leaves {t : Nested.Inside α inner} {us : Usages} (h : t.1.Sound us) (c : Context)
    (a : α) : (Nested.enter n c a t).Leaves us fun t us => t.1.Sound us :=
  (Scan.start_leaves h _).thenOk (fun _ _ _ h => h) fun _ _ _ h => continue_leaves h a 0 _

theorem pull_leaves {o : Scan outer.toOperator} {t : Nested.Inside α inner} {us : Usages}
    (h : Beside Scan.Sound (fun (t : Nested.Inside α inner) us => t.1.Sound us) (o, t) us)
    (c : Context) : (Nested.pull n c o t).Leaves us Nested.Both := by
  obtain ⟨us, vs, rfl, ho, ht⟩ := h
  have hx : (o.search (Nested.enter n c) t).Leaves (us ++ vs)
      (Beside Scan.Sound fun (t : Nested.Inside α inner) us => t.1.Sound us) :=
    Scan.search_leaves (fun h => enter_leaves h c _) ho ht
  exact .within hx

theorem stop_nested {s : Nested.State outer inner} {us : Usages} (h : Nested.Both s us) :
    (Nested.stop s).Leaves us fun s us => Nested.Both s us ∧ Quiet us := by
  obtain ⟨us, vs, rfl, ho, hi⟩ := h
  refine ((Scan.close_leaves hi).left us).andThen ?_
  rintro _ ⟨vs, rfl, hi, hqi⟩
  refine .within (((Scan.close_leaves ho).right vs).mono ?_)
  rintro _ ⟨us, rfl, ho, hqo⟩
  exact ⟨⟨us, vs, rfl, ho, hi⟩, quiet_append.2 ⟨hqo, hqi⟩⟩

theorem nested_clean (ho : outer.Clean os) (hi : inner.Clean is) :
    (nested name p n outer inner).Clean (os ++ is) := by
  apply Scan.sound_of_invariant (J := fun (s : Nested.State outer inner) us => Nested.Both s us) _
    ⟨_, _, unused_append os is, ho, hi⟩
  constructor
  · rintro ⟨o, i, _, _, _⟩ _ ⟨us, vs, rfl, ho, hi⟩ _ c
    exact .within ((Scan.start_leaves ho c).fst hi)
  · rintro ⟨o, i, _ | c, current, pulled⟩ _ ⟨us, vs, rfl, ho, hi⟩
    · exact .done ⟨us, vs, rfl, ho, hi⟩
    · rcases current with _ | ⟨a, count⟩
      · exact pull_leaves ⟨us, vs, rfl, ho, hi⟩ c
      · refine ((continue_leaves hi a count pulled).left us).andThen ?_
        rintro _ ⟨vs, rfl, hi⟩
        split
        · exact pull_leaves ⟨us, vs, rfl, ho, hi⟩ c
        · exact .done ⟨us, vs, rfl, ho, hi⟩
  · intro s us h
    exact stop_nested h

end

section

variable {yes no : Machine ω} {ys ns : List Source}

def Choice.Chosen (W : κ → Usages → Prop) (s : Choice.State κ yes no) (us : Usages) : Prop :=
  ∃ uw uy un, us = uw ++ (uy ++ un) ∧ W s.work uw ∧ s.yes.Sound uy ∧ s.no.Sound un ∧
    (s.chosen ≠ some true → Quiet uy) ∧ (s.chosen ≠ some false → Quiet un)

theorem start_choice {choose : Context → κ → Step (Except Error Bool) κ}
    (hc : ∀ {k us}, W k us → ∀ c, (choose c k).Leaves us W) {s : Choice.State κ yes no}
    {us : Usages} (h : Choice.Chosen W s us) (hq : Quiet us) (c : Context) :
    (Choice.start choose c s).Leaves us (Choice.Chosen W) := by
  obtain ⟨uw, uy, un, rfl, hk, hy, hn, -, -⟩ := h
  obtain ⟨-, hu⟩ := quiet_append.1 hq
  obtain ⟨hqy, hqn⟩ := quiet_append.1 hu
  refine ((hc hk c).right (uy ++ un)).thenOk ?_ ?_
  · rintro _ _ _ ⟨uw, rfl, hk⟩
    exact ⟨uw, uy, un, rfl, hk, hy, hn, fun _ => hqy, fun _ => hqn⟩
  · rintro (_ | _) _ _ ⟨uw, rfl, hk⟩
    · refine .within ((((Scan.start_leaves hn c).left uy).left uw).mono ?_)
      rintro _ ⟨_, rfl, un, rfl, hn⟩
      exact ⟨uw, uy, un, rfl, hk, hy, hn, fun _ => hqy, fun h => absurd rfl h⟩
    · refine .within ((((Scan.start_leaves hy c).right un).left uw).mono ?_)
      rintro _ ⟨_, rfl, uy, rfl, hy⟩
      exact ⟨uw, uy, un, rfl, hk, hy, hn, fun h => absurd rfl h, fun _ => hqn⟩

theorem produce_choice {s : Choice.State κ yes no} {us : Usages} (h : Choice.Chosen W s us) :
    (Choice.produce s).Leaves us (Choice.Chosen W) := by
  obtain ⟨k, y, n, _ | _ | _⟩ := s
  · exact .done h
  · simp only [Choice.produce]
    split
    · obtain ⟨uw, uy, un, rfl, hk, hy, hn, hqy, -⟩ := h
      refine .mapValue (.within ((((Scan.next_leaves hn).left uy).left uw).mono ?_))
      rintro _ ⟨_, rfl, un, rfl, hn⟩
      exact ⟨uw, uy, un, rfl, hk, hy, hn, hqy, fun h => absurd rfl h⟩
    · exact .done h
  · simp only [Choice.produce]
    split
    · obtain ⟨uw, uy, un, rfl, hk, hy, hn, -, hqn⟩ := h
      refine .mapValue (.within ((((Scan.next_leaves hy).right un).left uw).mono ?_))
      rintro _ ⟨_, rfl, uy, rfl, hy⟩
      exact ⟨uw, uy, un, rfl, hk, hy, hn, fun h => absurd rfl h, hqn⟩
    · exact .done h

theorem stop_choice (hq : ∀ {k us}, W k us → Quiet us) {s : Choice.State κ yes no} {us : Usages}
    (h : Choice.Chosen W s us) :
    (Choice.stop s).Leaves us fun s us => Choice.Chosen W s us ∧ Quiet us := by
  -- Once both scans are quiet, the choice does not matter any more.
  have settled {s : Choice.State κ yes no} {uw uy un : Usages} (hk : W s.work uw)
      (hy : s.yes.Resting uy) (hn : s.no.Resting un) :
      Choice.Chosen W s (uw ++ (uy ++ un)) ∧ Quiet (uw ++ (uy ++ un)) :=
    ⟨⟨uw, uy, un, rfl, hk, hy.1, hn.1, fun _ => hy.2, fun _ => hn.2⟩,
      quiet_append.2 ⟨hq hk, quiet_append.2 ⟨hy.2, hn.2⟩⟩⟩
  obtain ⟨k, y, n, _ | _ | _⟩ := s
  all_goals obtain ⟨uw, uy, un, rfl, hk, hy, hn, hqy, hqn⟩ := h
  · exact .done (settled hk ⟨hy, hqy (by simp)⟩ ⟨hn, hqn (by simp)⟩)
  · simp only [Choice.stop]
    refine .within ((((Scan.close_leaves hn).left uy).left uw).mono ?_)
    rintro _ ⟨_, rfl, un, rfl, hn⟩
    exact settled hk ⟨hy, hqy (by simp)⟩ hn
  · simp only [Choice.stop]
    refine .within ((((Scan.close_leaves hy).right un).left uw).mono ?_)
    rintro _ ⟨_, rfl, uy, rfl, hy⟩
    exact settled hk hy ⟨hn, hqn (by simp)⟩

theorem choice_clean {choose : Context → κ → Step (Except Error Bool) κ}
    (hq : ∀ {k us}, W k us → Quiet us) (hc : ∀ {k us}, W k us → ∀ c, (choose c k).Leaves us W)
    (h : W initial (unused ws)) (hy : yes.Clean ys) (hn : no.Clean ns) :
    (choice name p initial choose yes no).Clean (ws ++ (ys ++ ns)) := by
  apply Scan.sound_of_invariant (J := fun (s : Choice.State κ yes no) us => Choice.Chosen W s us) _
    ⟨_, _, _, by rw [unused_append, unused_append], h, hy, hn, fun _ => quiet_unused ys,
      fun _ => quiet_unused ns⟩
  constructor
  · intro s us h hu c
    exact start_choice hc h hu c
  · intro s us h
    exact produce_choice h
  · intro s us h
    exact stop_choice hq h

end

end PullQuery.Machine
