import PullQuery.Machine.Primary
import PullQuery.Proofs.Scan.Stage

namespace PullQuery

variable {ω : Type}

namespace Scan

variable {op : Operator ω}

structure Reading (s : Scan op) (scan : List (Signal ω)) : Prop where
  phase : s.phase = if s.ahead.isSome then .opened else .exhausted
  live : ∀ v, s.ahead = some (.ok v) → ∀ x ∈ scan, x.goesOn = true
  count : scan.countP Signal.isProduced = scan.countP Signal.isHandedOut + 1
  held : ∀ r, s.ahead = some r →
    Signal.outcomes op.position scan = Signal.results scan ++ [r]
  drained : s.ahead = none → ∃ k, Signal.results scan =
    Signal.outcomes op.position scan ++ List.replicate k (.error (misused op .exhausted))

def At (s : Scan op) : Stage ω → Prop
  | .idle => s.phase.isStarted = false
  | .refused => s.phase = .closed ∨ s.phase = .exhausted ∧ s.ahead = none
  | .running scan => s.Reading scan

def Disciplined (s : Scan op.recorded) : Prop :=
  ∃ σ, Stage.idle.follow s.transcript = some σ ∧ s.At σ

theorem advance_recorded (i : op.recorded.State) :
    (advance i : Step Unit (Scan op.recorded)).state =
      let x : Signal ω := .produced (op.produce i.1).value
      let ahead := x.outcome? op.position
      ⟨if ahead.isSome then .opened else .exhausted, ahead, (op.produce i.1).state, i.2 ++ [x]⟩ := by
  simp only [advance, Operator.recorded, Step.andThen_state, Step.within_value, Step.within_state]
  rcases (op.produce i.1).value with e | (_ | v) <;> rfl

theorem halt_disciplined {s : Scan op.recorded} (h : s.Disciplined) :
    ∃ σ, Stage.idle.follow s.halt.state.2 = some σ ∧ σ.isRunning = false := by
  obtain ⟨σ, hf, hs⟩ := h
  cases hp : s.phase.isStarted with
  | false =>
    have hh : s.halt.state = s.inner := by simp [halt, hp]
    rw [hh]
    refine ⟨σ, hf, ?_⟩
    cases σ with
    | idle => rfl
    | refused => rfl
    | running scan =>
      have hr := hs.phase
      split at hr <;> simp [hr, Phase.isStarted] at hp
  | true =>
    have hh : s.halt.state.2 = s.transcript ++ [.stopped] := by
      simp [halt, hp, Operator.recorded, transcript]
    rw [hh, Stage.follow_snoc, hf]
    cases σ with
    | idle => exact absurd hp (by simp [show s.phase.isStarted = false from hs])
    | refused => exact ⟨.refused, rfl, rfl⟩
    | running scan => exact ⟨.idle, rfl, rfl⟩

theorem advance_disciplined {i : op.recorded.State} {scan : List (Signal ω)} {a : Answer ω}
    (hf : Stage.idle.follow i.2 = some (.running scan)) (hl : ∀ x ∈ scan, x.goesOn = true)
    (hc : scan.countP Signal.isProduced =
      scan.countP Signal.isHandedOut + [Signal.answered a].countP Signal.isHandedOut)
    (ho : Signal.outcomes op.position scan =
      Signal.results scan ++ (Signal.answered a).result?.toList) :
    ((advance i : Step Unit (Scan op.recorded)).state.note (.answered a)).Disciplined := by
  -- The operator produces before the answer is noted, so between the two it is two outcomes ahead.
  rw [advance_recorded]
  generalize (op.produce i.1).value = r
  have hp : (Stage.running scan).after (.produced r) = some (.running (scan ++ [.produced r])) :=
    if_pos (by simpa using hl)
  have hout : Signal.outcomes op.position (scan ++ [.produced r] ++ [.answered a]) =
      Signal.results (scan ++ [.produced r] ++ [.answered a]) ++
        ((Signal.produced r).outcome? op.position).toList := by
    rw [Signal.outcomes_snoc, Signal.outcomes_snoc, Signal.results_snoc, Signal.results_snoc, ho]
    simp
  refine ⟨.running (scan ++ [.produced r] ++ [.answered a]), ?_, rfl, fun v hv => ?_, ?_,
    fun x hx => ?_, fun hn => ⟨0, ?_⟩⟩
  · simp only [note, transcript]
    rw [Stage.follow_snoc, Stage.follow_snoc, hf, Option.bind_some, hp]
    rfl
  · exact Signal.all_goesOn_snoc (Signal.all_goesOn_snoc hl (Signal.goesOn_of_outcome hv)) rfl
  · rw [List.countP_append, List.countP_append, List.countP_append, List.countP_append, hc]
    simp [Signal.isHandedOut]
  · exact hout.trans (congrArg (_ ++ Option.toList ·) hx)
  · have hr := hout.trans (congrArg (_ ++ Option.toList ·) hn)
    rw [Option.toList_none, List.append_nil] at hr
    exact hr.symm.trans (List.append_nil _).symm

theorem follow_note {s : Scan op.recorded} {σ : Stage ω}
    (h : Stage.idle.follow s.transcript = some σ) (x : Signal ω) :
    Stage.idle.follow (s.note x).transcript = σ.after x := by
  rw [note, transcript, Stage.follow_snoc, h, Option.bind_some]

theorem note_at_rest {s : Scan op.recorded} {σ : Stage ω}
    (hf : Stage.idle.follow s.transcript = some σ) (hs : s.At σ) (hr : σ.isRunning = false)
    (a : Answer ω) : (s.note (.answered a)).Disciplined := by
  cases σ with
  | idle => exact ⟨.idle, follow_note hf _, hs⟩
  | refused => exact ⟨.refused, follow_note hf _, hs⟩
  | running => cases hr

theorem Disciplined.note {s : Scan op.recorded} (h : s.Disciplined) {a : Answer ω}
    (ha : (Signal.answered a).result? = none) : (s.note (.answered a)).Disciplined := by
  obtain ⟨σ, hf, hs⟩ := h
  obtain hr | ⟨scan, rfl⟩ := σ.at_rest_or_running
  · exact note_at_rest hf hs hr a
  · refine ⟨_, follow_note hf _, hs.phase, fun v hv => ?_, ?_, fun r hr => ?_, fun hn => ?_⟩
    · exact Signal.all_goesOn_snoc (hs.live v hv) rfl
    · simpa [Signal.isHandedOut, ha] using hs.count
    · simpa [Signal.outcomes_snoc, Signal.results_snoc, ha] using hs.held r hr
    · simpa [Signal.outcomes_snoc, Signal.results_snoc, ha] using hs.drained hn

theorem close_disciplined {s : Scan op.recorded} (h : s.Disciplined) :
    (s.serve .close).Disciplined := by
  obtain ⟨σ, hf, hr⟩ := halt_disciplined h
  refine note_at_rest (s := s.close.state) hf ?_ hr _
  cases σ with
  | idle => rfl
  | refused => exact .inl rfl
  | running => cases hr

theorem start_state_of_error {c : Context} {s : Scan op} {e : Error}
    (h : (op.start c s.halt.state).value = .error e) : (s.start c).state =
      ⟨.exhausted, none, (op.stop (op.start c s.halt.state).state).state⟩ := by
  simp [start, h]

theorem start_state_of_ok {c : Context} {s : Scan op} (h : (op.start c s.halt.state).value = .ok ()) :
    (s.start c).state =
      (advance (op.start c s.halt.state).state : Step Unit (Scan op)).state := by
  simp [start, h]

theorem start_disciplined {s : Scan op.recorded} (h : s.Disciplined) (c : Context) :
    (s.serve (.start c)).Disciplined := by
  obtain ⟨σ, hf, hr⟩ := halt_disciplined h
  have hx : Stage.idle.follow (op.recorded.start c s.halt.state).state.2 =
      some (if (op.recorded.start c s.halt.state).value.isOk then .running [] else .refused) := by
    refine (Stage.follow_snoc _ _ _).trans ?_
    rw [hf, Option.bind_some, Stage.after_started hr]
    rfl
  rcases hv : (op.recorded.start c s.halt.state).value with e | ⟨⟩
  · rw [hv] at hx
    have hs := start_state_of_error hv
    have hf' : Stage.idle.follow (s.start c).state.transcript = some .refused := by
      rw [transcript, hs]
      refine (Stage.follow_snoc _ _ _).trans ?_
      rw [hx]
      rfl
    exact note_at_rest hf' (.inr ⟨by rw [hs], by rw [hs]⟩) rfl _
  · have hx : Stage.idle.follow (op.recorded.start c s.halt.state).state.2 = some (.running []) := by
      rw [hx, hv]
      rfl
    rw [serve, ask, Step.mapValue_state, start_state_of_ok hv]
    exact advance_disciplined hx (by simp) rfl rfl

theorem next_of_isStarted_eq_false {s : Scan op} (h : s.phase.isStarted = false) :
    ∃ e, e.code = .flow0001 ∧ s.next = .done (.error e) s := by
  cases hp : s.phase with
  | created => exact ⟨misused op .notOpened, rfl, by rw [next, hp]⟩
  | closed => exact ⟨misused op .closed, rfl, by rw [next, hp]⟩
  | opened => simp [hp, Phase.isStarted] at h
  | exhausted => simp [hp, Phase.isStarted] at h

theorem next_of_exhausted {s : Scan op} (hp : s.phase = .exhausted) (ha : s.ahead = none) :
    s.next = .done (.error (misused op .exhausted)) s := by
  rw [next, hp, ha]

theorem next_of_ahead_ok {s : Scan op} {v : ω} (hp : s.phase = .opened)
    (ha : s.ahead = some (.ok v)) : s.next = (advance s.inner).mapValue fun _ => .ok v := by
  rw [next, hp, ha]

theorem next_of_ahead_error {s : Scan op} {e : Error} (hp : s.phase = .opened)
    (ha : s.ahead = some (.error e)) :
    s.next = .done (.error e) ⟨.exhausted, none, s.inner⟩ := by
  rw [next, hp, ha]

theorem next_of_at_rest {s : Scan op} {σ : Stage ω} (hs : s.At σ) (hr : σ.isRunning = false) :
    ∃ e, e.code = .flow0001 ∧ s.next = .done (.error e) s := by
  cases σ with
  | idle => exact next_of_isStarted_eq_false hs
  | refused =>
    obtain hp | ⟨hp, ha⟩ := hs
    · exact next_of_isStarted_eq_false (by rw [hp]; rfl)
    · exact ⟨_, rfl, next_of_exhausted hp ha⟩
  | running => cases hr

theorem Reading.failed {s t : Scan op} {scan : List (Signal ω)} {e : Error} {k : Nat}
    (h : s.Reading scan) (hp : t.phase = .exhausted) (ha : t.ahead = none)
    (he : Signal.results scan ++ [.error e] =
      Signal.outcomes op.position scan ++ List.replicate k (.error (misused op .exhausted))) :
    t.Reading (scan ++ [.answered (.next (.error e))]) where
  phase := by rw [hp, ha]; rfl
  live v hv := by cases ha.symm.trans hv
  count := by simpa [Signal.isHandedOut, Except.isOk, Except.toBool] using h.count
  held r hr := by cases ha.symm.trans hr
  drained _ := ⟨k, by simpa [Signal.outcomes_snoc, Signal.results_snoc] using he⟩

theorem next_disciplined {s : Scan op.recorded} (h : s.Disciplined) :
    (s.serve .next).Disciplined := by
  obtain ⟨σ, hf, hs⟩ := h
  obtain hr | ⟨scan, rfl⟩ := σ.at_rest_or_running
  · obtain ⟨e, -, hn⟩ := next_of_at_rest hs hr
    rw [serve, ask, hn]
    exact note_at_rest hf hs hr _
  · have hp := hs.phase
    rcases ha : s.ahead with _ | (e | v)
    · rw [ha] at hp
      obtain ⟨k, hk⟩ := hs.drained ha
      rw [serve, ask, next_of_exhausted hp ha]
      refine ⟨_, follow_note hf _, hs.failed hp ha (k := k + 1) ?_⟩
      rw [hk, List.append_assoc, List.replicate_succ']
    · rw [ha] at hp
      rw [serve, ask, next_of_ahead_error hp ha]
      refine ⟨_, follow_note hf _, hs.failed rfl rfl (k := 0) ?_⟩
      exact (hs.held _ ha).symm.trans (List.append_nil _).symm
    · rw [ha] at hp
      rw [serve, ask, next_of_ahead_ok hp ha]
      exact advance_disciplined hf (hs.live v ha) hs.count (hs.held _ ha)

theorem serve_disciplined {s : Scan op.recorded} (h : s.Disciplined) (q : Request) :
    (s.serve q).Disciplined := by
  cases q with
  | start c => exact start_disciplined h c
  | hasNext => exact h.note rfl
  | next => exact next_disciplined h
  | close => exact close_disciplined h

theorem serves_disciplined {s : Scan op.recorded} (h : s.Disciplined) (qs : List Request) :
    (qs.foldl serve s).Disciplined := by
  induction qs generalizing s with
  | nil => exact h
  | cons q qs ih => exact ih (serve_disciplined h q)

theorem at_of_alike {R : op.recorded.State → op.State → Prop} {s : Scan op.recorded} {t : Scan op}
    {σ : Stage ω} (h : s.Alike R t) (hs : s.At σ) : t.At σ := by
  obtain ⟨hp, ha, -⟩ := h
  cases σ with
  | idle => exact (congrArg Phase.isStarted hp).symm.trans hs
  | refused => rwa [At, hp, ha] at hs
  | running scan =>
    exact ⟨hp ▸ ha ▸ hs.phase, ha ▸ hs.live, hs.count, ha ▸ hs.held, ha ▸ hs.drained⟩

theorem Reading.hasNext_eq {s : Scan op} {scan : List (Signal ω)} (h : s.Reading scan) :
    s.hasNext = s.ahead.isSome := by
  rw [Scan.hasNext, h.phase]
  cases s.ahead <;> rfl

theorem Reading.ahead_eq_none {s : Scan op} {scan : List (Signal ω)} (h : s.Reading scan)
    (hn : s.hasNext = false) : s.ahead = none := by
  rw [h.hasNext_eq] at hn
  simpa using hn

theorem Reading.outcomes_eq {s : Scan op} {scan : List (Signal ω)} (h : s.Reading scan)
    (hn : s.hasNext = true) :
    Signal.outcomes op.position scan = Signal.results scan ++ [s.next.value] := by
  rw [h.hasNext_eq] at hn
  obtain ⟨r, ha⟩ := Option.isSome_iff_exists.1 hn
  have hp := h.phase
  rw [ha] at hp
  rcases r with e | v
  · rw [next_of_ahead_error hp ha]
    exact h.held _ ha
  · rw [next_of_ahead_ok hp ha]
    exact h.held _ ha

theorem hasNext_of_at_rest {s : Scan op} {σ : Stage ω} (hs : s.At σ) (hr : σ.isRunning = false) :
    s.hasNext = false := by
  cases σ with
  | idle =>
    cases hp : s.phase with
    | opened => simp [At, hp, Phase.isStarted] at hs
    | _ => simp [Scan.hasNext, hp]
  | refused =>
    obtain hp | ⟨hp, -⟩ := hs <;> simp [Scan.hasNext, hp]
  | running => cases hr

end Scan

/-- What a transcript and the scan at its end tell about each other. -/
structure Operator.Discipline (op : Operator ω) (ts : List (Signal ω)) (s : Scan op) : Prop where
  produced : ∀ before r after, ts = before ++ .produced r :: after →
    ∃ scan, Signal.Current before scan ∧ ∀ x ∈ scan, x.goesOn = true
  stopped : ∀ before between r after,
    ts = before ++ .started (.ok ()) :: (between ++ .started r :: after) →
      (∀ x ∈ between, x.isStart = false) → between.countP Signal.isStop = 1
  counted : ∀ scan, Signal.Current ts scan →
    scan.countP Signal.isProduced = scan.countP Signal.isHandedOut + 1
  hasNext_iff : s.hasNext = true ↔ ∃ scan, Signal.Current ts scan ∧
    Signal.outcomes op.position scan = Signal.results scan ++ [s.next.value]
  drained : s.hasNext = false → ∀ scan, Signal.Current ts scan → ∃ k,
    Signal.results scan = Signal.outcomes op.position scan ++
      List.replicate k (.error (Scan.misused op .exhausted))
  refused : s.hasNext = false → ∃ e, e.code = .flow0001 ∧ s.next = .done (.error e) s

namespace Operator

variable (op : Operator ω) (qs : List Request)

theorem served_disciplined : (op.served qs).Disciplined := by
  have hs : (Scan.fresh op.recorded).At .idle := rfl
  exact Scan.serves_disciplined ⟨.idle, rfl, hs⟩ qs

theorem exists_at : ∃ σ, Stage.idle.follow (op.transcript qs) = some σ ∧
    ((Scan.fresh op).asks qs).state.At σ := by
  obtain ⟨σ, hf, hs⟩ := op.served_disciplined qs
  exact ⟨σ, hf, Scan.at_of_alike (op.served_mirrors qs) hs⟩

theorem follow_close : ∃ σ, Stage.idle.follow (op.transcript (qs ++ [.close])) = some σ ∧
    σ.isRunning = false := by
  obtain ⟨σ, hf, hs⟩ := op.served_disciplined (qs ++ [.close])
  have hp : (op.served (qs ++ [.close])).phase = .closed := by
    rw [served, List.foldl_append]
    rfl
  refine ⟨σ, hf, ?_⟩
  cases σ with
  | idle => rfl
  | refused => rfl
  | running scan =>
    have hr := hp.symm.trans hs.phase
    split at hr <;> cases hr

theorem discipline_of_at {op : Operator ω} {ts : List (Signal ω)} {s : Scan op} {σ : Stage ω}
    (hf : Stage.idle.follow ts = some σ) (hs : s.At σ) : op.Discipline ts s where
  produced := by
    rintro before r after rfl
    obtain ⟨σ₁, σ₂, h₁, hx, -⟩ := Stage.split_of_follow hf
    obtain ⟨_, hr, -⟩ | ⟨scan, rfl, -, -, -, hl⟩ | ⟨-, hr, -⟩ | ⟨-, -, -, hr, -⟩ :=
      Stage.after_cases hx
    · cases hr
    · exact ⟨scan, Stage.current_of_follow h₁, hl rfl⟩
    · cases hr
    · cases hr
  stopped := by
    rintro before between r after rfl hn
    obtain ⟨σ₁, σ₂, -, hx, hf⟩ := Stage.split_of_follow hf
    obtain ⟨-, rfl⟩ := Stage.started_of_after hx
    obtain ⟨σ₃, σ₄, h₃, hx, -⟩ := Stage.split_of_follow hf
    obtain ⟨hr, -⟩ := Stage.started_of_after hx
    obtain hr' | ⟨-, hc⟩ := Stage.stopped_of_follow h₃ hn
    · cases hr.symm.trans hr'
    · exact hc
  counted scan hc := by
    obtain rfl := Stage.running_of_current hf hc
    exact hs.count
  hasNext_iff := by
    constructor
    · intro hn
      obtain hr | ⟨scan, rfl⟩ := σ.at_rest_or_running
      · cases hn.symm.trans (Scan.hasNext_of_at_rest hs hr)
      · exact ⟨scan, Stage.current_of_follow hf, hs.outcomes_eq hn⟩
    · rintro ⟨scan, hc, ho⟩
      obtain rfl := Stage.running_of_current hf hc
      by_contra hn
      obtain ⟨k, hk⟩ := hs.drained (hs.ahead_eq_none (by simpa using hn))
      have hl := congrArg List.length (ho.trans (congrArg (· ++ _) hk))
      simp only [List.length_append, List.length_replicate, List.length_singleton] at hl
      omega
  drained hn scan hc := by
    obtain rfl := Stage.running_of_current hf hc
    exact hs.drained (hs.ahead_eq_none hn)
  refused hn := by
    obtain hr | ⟨scan, rfl⟩ := σ.at_rest_or_running
    · exact Scan.next_of_at_rest hs hr
    · have ha := hs.ahead_eq_none hn
      have hp := hs.phase
      rw [ha] at hp
      exact ⟨_, rfl, Scan.next_of_exhausted hp ha⟩

/-- The protocol discipline: whatever an operator does, and whatever it is asked, its calls and the
answers keep to it, and after a closing none of its starts is left without a stop. -/
theorem protocol_discipline :
    (op.transcript qs).filterMap Signal.answer? = ((Scan.fresh op).asks qs).value ∧
    op.Discipline (op.transcript qs) ((Scan.fresh op).asks qs).state ∧
    ∀ before after, op.transcript (qs ++ [.close]) = before ++ .started (.ok ()) :: after →
      (∀ x ∈ after, x.isStart = false) → after.countP Signal.isStop = 1 := by
  refine ⟨op.transcript_answers qs, ?_, fun before after ht hn => ?_⟩
  · obtain ⟨σ, hf, hs⟩ := op.exists_at qs
    exact discipline_of_at hf hs
  · obtain ⟨σ, hf, hr⟩ := op.follow_close qs
    rw [ht] at hf
    obtain ⟨σ₁, σ₂, -, hx, hf⟩ := Stage.split_of_follow hf
    obtain ⟨-, rfl⟩ := Stage.started_of_after hx
    obtain hr' | ⟨-, hc⟩ := Stage.stopped_of_follow hf hn
    · cases hr.symm.trans hr'
    · exact hc

example (p : Position) (a : Item) (c : Context) :
    (Machine.literal p [a]).toOperator.transcript [.start c, .next, .close] =
      [.started (.ok ()), .produced (.ok (some a)), .answered (.started (.ok ())),
        .produced (.ok none), .answered (.next (.ok a)), .stopped, .answered .closed] := rfl

end Operator

end PullQuery
