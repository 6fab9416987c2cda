import Mathlib.Data.List.Forall2
import PullQuery.Proofs.Scan.Reading
import PullQuery.Scan.Children

namespace PullQuery

variable {ω α β : Type} {c : Context}

theorem foldlM_concat (g : ω → Except Error α) (vs : List ω) (as : List α) :
    vs.foldlM (fun as v => (g v).map fun a => as ++ [a]) as = (vs.mapM g).map (as ++ ·) := by
  induction vs generalizing as with
  | nil => simp [pure, Except.pure, Except.map]
  | cons v vs ih =>
    rcases hv : g v with e | a
    · simp [hv, bind, Except.bind, Except.map]
    · have hs : (v :: vs).foldlM (fun as v => (g v).map fun a => as ++ [a]) as =
          vs.foldlM (fun as v => (g v).map fun a => as ++ [a]) (as ++ [a]) := by
        simp [hv, bind, Except.bind, Except.map]
      rw [hs, ih]
      simp only [List.mapM_cons, hv, bind, Except.bind]
      cases vs.mapM g <;> simp [Except.map, pure, Except.pure]

namespace Scans

def GivesAt (c : Context) (ms : List (Machine ω)) (os : List (Output ω)) : Prop :=
  List.Forall₂ (fun m o => m.GivesAt c o) ms os

theorem fold_cons (f : α → List ω → Except Error α) (m : Machine ω) (ms : List (Machine ω)) (a : α)
    (s : Scans (m :: ms)) : (fold c f (m :: ms) a s).value =
      (s.1.materialize c).value.bind fun vs => (f a vs).bind fun a =>
        (fold c f ms a s.2).value := by
  refine (Step.thenOk_value _ _ _).trans ?_
  congr 1
  funext vs
  cases f a vs <;> rfl

theorem fold_value {ms : List (Machine ω)} {os : List (Output ω)} (h : GivesAt c ms os)
    (f : α → List ω → Except Error α) (a : α) (s : Scans ms) :
    (fold c f ms a s).value = os.foldlM (fun a o => o.collect.bind (f a)) a := by
  induction h generalizing a with
  | nil => rfl
  | cons hm hms ih =>
    simp only [fold_cons, hm.materialize, ih, List.foldlM_cons, bind]
    rcases Output.collect _ with e | vs <;> rfl

theorem materialize_value {ms : List (Machine ω)} {os : List (Output ω)} (h : GivesAt c ms os)
    (s : Scans ms) : (materialize c ms s).value = os.mapM Output.collect := by
  rw [materialize, fold_value h]
  refine Eq.trans ?_ ((foldlM_concat Output.collect os []).trans ?_)
  · congr
  · cases os.mapM Output.collect <;> simp [Except.map]

def left : (ms : List (Machine ω)) → List (Output ω) → Nat → Scans ms → Output ω
  | [], _, _, _ => .ofList []
  | _ :: _, os, 0, s => s.1.remaining.append (.concat os.tail)
  | _ :: ms, os, i + 1, s => left ms os.tail i s.2

theorem left_zero (m : Machine ω) (ms : List (Machine ω)) (os : List (Output ω))
    (s : Scans (m :: ms)) : left (m :: ms) os 0 s = s.1.remaining.append (.concat os.tail) := rfl

theorem next_of_hasNext {m : Machine ω} {ms : List (Machine ω)} {s : Scans (m :: ms)}
    (h : s.1.hasNext = true) : next c (m :: ms) 0 s =
      ⟨s.1.next.value.map some, (0, s.1.next.state, s.2), s.1.next.log⟩ := by
  rw [next, if_pos h]
  rfl

theorem next_of_not_hasNext {m : Machine ω} {ms : List (Machine ω)} {s : Scans (m :: ms)}
    (h : s.1.hasNext = false) : next c (m :: ms) 0 s =
      s.1.close.andThen fun _ s₁ => (startFirst c ms s.2).thenOk (fun s₂ => (1, s₁, s₂)) fun _ s₂ =>
        (next c ms 0 s₂).within fun r => (r.1 + 1, s₁, r.2) := by
  rw [next, if_neg (by simp [h])]
  rfl

theorem next_begins {ms : List (Machine ω)} {os : List (Output ω)} (h : GivesAt c ms os) (i : Nat)
    (s : Scans ms) : Output.Begins (next c ms i s).value
      (· = left ms os (next c ms i s).state.1 (next c ms i s).state.2) (left ms os i s) := by
  induction h generalizing i with
  | nil => rfl
  | @cons m o ms os hm hms ih =>
    cases i with
    | succ i => exact ih i s.2
    | zero =>
      cases hn : s.1.hasNext with
      | true =>
        rw [next_of_hasNext hn, left_zero]
        exact Output.begins_append
          (Scan.begins_of_hasNext (R := (· = s.1.next.state.remaining)) hn rfl)
          fun o h => congrArg (Output.append · (Output.concat os)) h
      | false =>
        have hl := left_zero m ms (o :: os) s
        rw [Scan.remaining_of_not_hasNext hn, Output.nil_append, List.tail_cons] at hl
        rw [next_of_not_hasNext hn, hl]
        -- The next scan becomes the running one, at place zero of the machines after the first.
        cases hms with
        | nil => rfl
        | @cons m' o' ms os hm' hms =>
          obtain ⟨e, he, rfl⟩ | ⟨hok, hr⟩ := hm'.start_cases s.2.1
          · have hv : (startFirst c (m' :: ms) s.2).value = .error e := he
            rw [Step.andThen_value, Step.thenOk_value, hv]
            rfl
          · have hv : (startFirst c (m' :: ms) s.2).value = .ok () := hok
            have hs := ih 0 (startFirst c (m' :: ms) s.2).state
            have hl : left (m' :: ms) (o' :: os) 0 (startFirst c (m' :: ms) s.2).state =
                .concat (o' :: os) := by
              rw [Output.concat_cons, ← hr]
              rfl
            rw [Step.andThen_value, Step.andThen_state, Step.thenOk_value,
              Step.thenOk_state_of_ok _ _ _ hv, hv, ← hl]
            exact hs

end Scans

namespace Machine

variable {name : String} {p : Position}

theorem rest_comma {ms : List (Machine ω)} {os : List (Output ω)} (h : Scans.GivesAt c ms os)
    (i : Nat) (s : Scans ms) :
    (comma name p ms).rest (some c, i, s) = Scans.left ms os i s := by
  apply rest_eq (m := comma name p ms)
    (R := fun (s : Option Context × Nat × Scans ms) o => s.1 = some c ∧
      o = Scans.left ms os s.2.1 s.2.2) ?_ ⟨rfl, rfl⟩
  rintro ⟨_, i, s⟩ o ⟨rfl, rfl⟩
  exact Output.begins_mono (Scans.next_begins h i s) fun _ h => ⟨rfl, h⟩

theorem comma_gives {ms : List (Machine ω)} {os : List (Output ω)} (h : Scans.GivesAt c ms os) :
    (comma name p ms).GivesAt c ((Output.concat os).locate p) := by
  cases h with
  | nil =>
    exact GivesAt.of_start (m := comma name p []) (r := .ok ()) (f := fun _ => .ofList [])
      (fun _ => rfl) fun i _ _ => rest_comma .nil 0 i.2.2
  | @cons m o ms os hm hms =>
    obtain ⟨r, hr, rfl⟩ := hm
    have ho : Output.concat (.ofOpening r :: os) =
        .ofOpening (r.map fun o => o.append (.concat os)) := by cases r <;> rfl
    rw [ho]
    refine GivesAt.of_start (m := comma name p (m :: ms)) (fun i => ?_) fun i o ho => ?_
    · have hv : ((comma name p (m :: ms)).start c i).value = (i.2.2.1.start c).value := rfl
      rw [hv, Scan.start_value, hr]
    · have hs := Scan.remaining_start ((hr i.2.2.1).trans ho)
      refine (rest_comma (.cons ⟨r, hr, rfl⟩ hms) 0 _).trans ?_
      exact congrArg (Output.append · (Output.concat os)) hs

end Machine

end PullQuery
