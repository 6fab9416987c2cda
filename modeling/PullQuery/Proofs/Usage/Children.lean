import PullQuery.Proofs.Usage.Scan
import PullQuery.Scan.Children

namespace PullQuery

variable {ω α : Type}

theorem unused_append (a b : List Source) : unused (a ++ b) = unused a ++ unused b :=
  List.map_append

namespace Scans

def Sound : (ms : List (Machine ω)) → Scans ms → Usages → Prop
  | [], _, us => us = []
  | _ :: ms, s, us => Beside Scan.Sound (Sound ms) s us

def Resting (ms : List (Machine ω)) (s : Scans ms) (us : Usages) : Prop := Sound ms s us ∧ Quiet us

def Clean (ms : List (Machine ω)) (sources : List Source) : Prop :=
  Sound ms (fresh ms) (unused sources)

theorem clean_nil : Clean ([] : List (Machine ω)) [] := rfl

theorem clean_cons {m : Machine ω} {ms : List (Machine ω)} {a b : List Source} (hm : m.Clean a)
    (hms : Clean ms b) : Clean (m :: ms) (a ++ b) := ⟨_, _, unused_append a b, hm, hms⟩

theorem Clean.resting {ms : List (Machine ω)} {sources : List Source} (h : Clean ms sources) :
    Resting ms (fresh ms) (unused sources) := ⟨h, quiet_unused sources⟩

variable {m : Machine ω} {ms : List (Machine ω)} {us vs : Usages} {c : Context}

theorem resting_cons {s : Scan m.toOperator} {t : Scans ms} (hs : s.Resting us)
    (ht : Resting ms t vs) : Resting (m :: ms) (s, t) (us ++ vs) :=
  ⟨⟨us, vs, rfl, hs.1, ht.1⟩, quiet_append.2 ⟨hs.2, ht.2⟩⟩

theorem resting_of_beside {p : Scan m.toOperator × Scans ms}
    (h : Beside Scan.Resting (Resting ms) p us) : Resting (m :: ms) p us := by
  obtain ⟨us, vs, rfl, hs, ht⟩ := h
  exact resting_cons hs ht

theorem fold_leaves (f : α → List ω → Except Error α) (a : α) {s : Scans ms}
    (h : Resting ms s us) : (fold c f ms a s).Leaves us (Resting ms) := by
  induction ms generalizing us a with
  | nil => exact .done h
  | cons m ms ih =>
    obtain ⟨⟨us, vs, rfl, hs, ht⟩, hq⟩ := h
    obtain ⟨-, hq⟩ := quiet_append.1 hq
    rw [fold]
    refine .mono (P := Beside Scan.Resting (Resting ms)) ?_ fun us h => resting_of_beside h
    refine (Scan.materialize_leaves hs c).thenOk_fst ⟨ht, hq⟩ fun ws us hs => ?_
    rcases f a ws with e | a
    · exact .done ⟨us, vs, rfl, hs, ht, hq⟩
    · exact (ih a ⟨ht, hq⟩).snd hs

theorem materialize_leaves {s : Scans ms} (h : Resting ms s us) :
    (materialize c ms s).Leaves us (Resting ms) := fold_leaves _ _ h

theorem close_leaves {s : Scans ms} (h : Sound ms s us) : (close ms s).Leaves us (Resting ms) := by
  induction ms generalizing us with
  | nil =>
    cases h
    exact .done ⟨rfl, fun p hp => nomatch hp⟩
  | cons m ms ih =>
    obtain ⟨us, vs, rfl, hs, ht⟩ := h
    refine ((Scan.close_leaves hs).right vs).andThen ?_
    rintro _ ⟨us, rfl, hs⟩
    exact ((ih ht).snd hs).mono fun us => resting_of_beside

theorem startFirst_leaves {s : Scans ms} (h : Sound ms s us) :
    (startFirst c ms s).Leaves us (Sound ms) := by
  cases ms with
  | nil => exact .done h
  | cons m ms =>
    obtain ⟨us, vs, rfl, hs, ht⟩ := h
    exact (Scan.start_leaves hs c).fst ht

theorem next_leaves (i : Nat) {s : Scans ms} (h : Sound ms s us) :
    (next c ms i s).Leaves us fun r us => Sound ms r.2 us := by
  induction ms generalizing us i with
  | nil => exact .done h
  | cons m ms ih =>
    obtain ⟨us, vs, rfl, hs, ht⟩ := h
    rcases i with _ | i
    · rw [next]
      split
      · exact .mapValue ((Scan.next_leaves hs).fst ht)
      · refine ((Scan.close_leaves hs).right vs).andThen ?_
        rintro _ ⟨us, rfl, hs, -⟩
        refine ((startFirst_leaves ht).left us).thenOk ?_ ?_
        · rintro _ _ _ ⟨vs, rfl, ht⟩
          exact ⟨us, vs, rfl, hs, ht⟩
        · rintro _ _ _ ⟨vs, rfl, ht⟩
          refine .within (((ih 0 ht).left us).mono ?_)
          rintro _ ⟨vs, rfl, ht⟩
          exact ⟨us, vs, rfl, hs, ht⟩
    · refine .within (((ih i ht).left us).mono ?_)
      rintro _ ⟨vs, rfl, ht⟩
      exact ⟨us, vs, rfl, hs, ht⟩

end Scans

end PullQuery
