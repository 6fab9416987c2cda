import PullQuery.Duration.Lexical
import PullQuery.Proofs.Calendar.Lexical

namespace PullQuery

namespace Duration

structure Digits where
  chars : List Char
  nonempty : chars ≠ []
  isDigit : ∀ c ∈ chars, c.isDigit = true

def Digits.value (ds : Digits) : Nat := Numeral.read ds.chars

structure Amount where
  whole : Digits
  fraction : Option Digits

namespace Amount

def plain (ds : Digits) : Amount := ⟨ds, none⟩

def chars (a : Amount) : List Char :=
  a.whole.chars ++ a.fraction.elim [] fun ds => '.' :: ds.chars

def nanos (a : Amount) : Nat :=
  a.fraction.elim 0 fun ds => ds.value * Nat.pow 10 9 / Nat.pow 10 ds.chars.length

end Amount

structure Slot where
  designator : Char
  amount : Option Amount

namespace Slot

def chars (s : Slot) : List Char := s.amount.elim [] fun a => a.chars ++ [s.designator]

def isFractional (s : Slot) : Bool := s.amount.elim false fun a => a.fraction.isSome

def value? (s : Slot) : Option (Char × Nat) := s.amount.map fun a => (s.designator, a.whole.value)

def nanos (s : Slot) : Nat := s.amount.elim 0 Amount.nanos

end Slot

namespace Lexical

def spelled (slots : List Slot) : List Char := slots.flatMap Slot.chars

def blank (designator : Char) : Slot := ⟨designator, none⟩

def nanosOf : List Slot → Nat
  | [] => 0
  | s :: slots => s.nanos + nanosOf slots

def Components.ofSlots (slots : List Slot) : Components :=
  ⟨slots.filterMap Slot.value?, nanosOf slots⟩

@[simp] theorem nanosOf_nil : nanosOf [] = 0 := rfl

@[simp] theorem nanosOf_cons (s : Slot) (slots : List Slot) :
    nanosOf (s :: slots) = s.nanos + nanosOf slots := rfl

theorem nanosOf_append (ss ts : List Slot) : nanosOf (ss ++ ts) = nanosOf ss + nanosOf ts := by
  induction ss with
  | nil => exact (Nat.zero_add _).symm
  | cons s ss ih => rw [List.cons_append, nanosOf_cons, nanosOf_cons, ih, Nat.add_assoc]

theorem spelled_append (ss ts : List Slot) : spelled (ss ++ ts) = spelled ss ++ spelled ts :=
  List.flatMap_append

theorem spelled_blank (cs : List Char) : spelled (cs.map blank) = [] := by
  simp [spelled, Slot.chars, blank]

theorem values_blank (cs : List Char) : (cs.map blank).filterMap Slot.value? = [] := by
  simp [Slot.value?, blank]

theorem nanosOf_eq_zero {slots : List Slot} (h : ∀ s ∈ slots, s.isFractional = false) :
    nanosOf slots = 0 := by
  induction slots with
  | nil => rfl
  | cons s slots ih =>
    have hs : s.nanos = 0 := by
      obtain ⟨c, a⟩ := s
      cases a with
      | none => rfl
      | some a =>
        have ha : a.fraction = none := by simpa [Slot.isFractional] using h _ List.mem_cons_self
        simp [Slot.nanos, Amount.nanos, ha]
    rw [nanosOf_cons, hs, ih fun t ht => h t (List.mem_cons_of_mem _ ht)]

theorem isFractional_blank {cs : List Char} {s : Slot} (h : s ∈ cs.map blank) :
    s.isFractional = false := by
  obtain ⟨c, -, rfl⟩ := List.mem_map.1 h
  rfl

theorem ofSlots_append_blank (slots : List Slot) (cs : List Char) :
    Components.ofSlots (slots ++ cs.map blank) = .ofSlots slots := by
  unfold Components.ofSlots
  rw [List.filterMap_append, values_blank, List.append_nil, nanosOf_append,
    nanosOf_eq_zero fun _ => isFractional_blank, Nat.add_zero]

structure Proper (takesFraction : Bool) (slots : List Slot) : Prop where
  last : slots.Pairwise fun s _ => s.isFractional = false
  taken : ∀ s ∈ slots, s.isFractional = true → takesFraction = true
  bounded : ∀ s ∈ slots, ∀ a, s.amount = some a → a.whole.value ≤ Long.greatest

theorem Proper.tail {takesFraction : Bool} {s : Slot} {slots : List Slot}
    (h : Proper takesFraction (s :: slots)) : Proper takesFraction slots where
  last := h.last.of_cons
  taken t ht := h.taken t (List.mem_cons_of_mem s ht)
  bounded t ht := h.bounded t (List.mem_cons_of_mem s ht)

theorem Proper.tail_eq_nil {takesFraction : Bool} {s : Slot} {slots : List Slot}
    (h : Proper takesFraction (s :: slots)) (hf : s.isFractional = true) : slots = [] := by
  cases slots with
  | nil => rfl
  | cons t slots =>
    have hs := List.rel_of_pairwise_cons h.last List.mem_cons_self
    exact absurd (hf.symm.trans hs) nofun

theorem Proper.append_blank {takesFraction : Bool} {slots : List Slot}
    (h : Proper takesFraction slots) (cs : List Char)
    (hw : cs ≠ [] → ∀ s ∈ slots, s.isFractional = false) :
    Proper takesFraction (slots ++ cs.map blank) where
  last := by
    refine List.pairwise_append.2 ⟨h.last, ?_, ?_⟩
    · exact List.pairwise_map.2 (List.pairwise_of_forall fun _ _ => rfl)
    · intro s hs t ht
      obtain ⟨c, hc, -⟩ := List.mem_map.1 ht
      exact hw (List.ne_nil_of_mem hc) s hs
  taken := by
    intro s hs hf
    obtain hs | hs := List.mem_append.1 hs
    · exact h.taken s hs hf
    · exact absurd (hf.symm.trans (isFractional_blank hs)) nofun
  bounded := by
    intro s hs a ha
    obtain hs | hs := List.mem_append.1 hs
    · exact h.bounded s hs a ha
    · obtain ⟨c, -, rfl⟩ := List.mem_map.1 hs
      cases ha

theorem Proper.append_amount {takesFraction : Bool} {slots : List Slot}
    (h : Proper takesFraction slots) (hw : ∀ s ∈ slots, s.isFractional = false) (c : Char)
    {a : Amount} (hf : a.fraction.isSome = true → takesFraction = true)
    (hb : a.whole.value ≤ Long.greatest) : Proper takesFraction (slots ++ [⟨c, some a⟩]) where
  last := List.pairwise_append.2
    ⟨h.last, List.pairwise_singleton _ _, fun s hs _ _ => hw s hs⟩
  taken := by
    intro s hs hfs
    obtain hs | hs := List.mem_append.1 hs
    · exact h.taken s hs hfs
    · obtain rfl := List.mem_singleton.1 hs
      exact hf hfs
  bounded := by
    intro s hs b hbs
    obtain hs | hs := List.mem_append.1 hs
    · exact h.bounded s hs b hbs
    · obtain rfl := List.mem_singleton.1 hs
      cases hbs
      exact hb

theorem eq_of_dropWhile {c d : Char} {cs left : List Char}
    (h : cs.dropWhile (· != c) = d :: left) : ∃ skipped, cs = skipped ++ c :: left := by
  have hd := List.head?_dropWhile_not (· != c) cs
  rw [h] at hd
  have hc : d = c := by simpa using hd
  refine ⟨cs.takeWhile (· != c), ?_⟩
  rw [hc] at h
  rw [← h, List.takeWhile_append_dropWhile]

namespace Scanner

def pending (s : Scanner) : List Char := s.digits ++ s.fraction.elim [] ('.' :: ·)

/-- Where the scanner stands is what the text behind it spells. -/
structure Spells (order : List Char) (takesFraction : Bool) (slots : List Slot) (text : List Char)
    (s : Scanner) : Prop where
  proper : Proper takesFraction slots
  order : order = slots.map Slot.designator ++ s.designators
  whole : s.designators ≠ [] → ∀ t ∈ slots, t.isFractional = false
  text : text = spelled slots ++ s.pending
  components : s.components = .ofSlots slots
  digits : ∀ c ∈ s.digits, c.isDigit = true
  fraction : ∀ ds, s.fraction = some ds →
    takesFraction = true ∧ s.digits ≠ [] ∧ ∀ c ∈ ds, c.isDigit = true

variable {order left : List Char} {takesFraction : Bool} {slots : List Slot} {text : List Char}
  {s s' : Scanner} {c : Char}

theorem start_spells (order : List Char) (takesFraction : Bool) :
    Spells order takesFraction [] [] (.start order) where
  proper := ⟨.nil, nofun, nofun⟩
  order := rfl
  whole := nofun
  text := rfl
  components := rfl
  digits := nofun
  fraction := nofun

theorem Spells.push (h : Spells order takesFraction slots text s) {skipped : List Char}
    (hs : s.designators = skipped ++ c :: left) (a : Amount) (ha : a.chars = s.pending)
    (hf : a.fraction.isSome = true → takesFraction = true ∧ left = [])
    (hb : a.whole.value ≤ Long.greatest) :
    Spells order takesFraction (slots ++ skipped.map blank ++ [⟨c, some a⟩]) (text ++ [c])
      ⟨⟨s.components.values ++ [(c, a.whole.value)], a.nanos⟩, left, [], none⟩ := by
  have hw : ∀ t ∈ slots, t.isFractional = false := h.whole (by simp [hs])
  have hwb : ∀ t ∈ slots ++ skipped.map blank, t.isFractional = false := by
    intro t ht
    obtain ht | ht := List.mem_append.1 ht
    · exact hw t ht
    · exact isFractional_blank ht
  constructor
  case proper =>
    exact (h.proper.append_blank skipped fun _ => hw).append_amount hwb c (fun hft => (hf hft).1) hb
  case order =>
    rw [h.order, hs]
    simp [blank, Function.comp_def]
  case whole =>
    intro hl t ht
    obtain ht | ht := List.mem_append.1 ht
    · exact hwb t ht
    · obtain rfl := List.mem_singleton.1 ht
      refine Bool.eq_false_iff.2 fun hft => hl (hf hft).2
  case text =>
    rw [h.text, spelled_append, spelled_append, spelled_blank]
    simp [spelled, Slot.chars, pending, ha]
  case components =>
    rw [h.components]
    unfold Components.ofSlots
    rw [List.filterMap_append, List.filterMap_append, values_blank, nanosOf_append,
      nanosOf_eq_zero hwb]
    simp [Slot.value?, Slot.nanos]
  case digits => nofun
  case fraction => nofun

theorem amount_of_nanos? (h : Spells order takesFraction slots text s) (hd : s.designators ≠ [])
    (hne : s.digits ≠ []) {n : Nat} (hn : s.nanos? left = some n) :
    ∃ a : Amount, a.chars = s.pending ∧ a.whole.chars = s.digits ∧ a.nanos = n ∧
      (a.fraction.isSome = true → takesFraction = true ∧ left = []) := by
  unfold nanos? at hn
  split at hn
  case h_1 hf =>
    refine ⟨⟨⟨s.digits, hne, h.digits⟩, none⟩, by simp [Amount.chars, pending, hf], rfl, ?_, nofun⟩
    have hz : s.components.nanos = 0 := by
      rw [h.components]
      exact nanosOf_eq_zero (h.whole hd)
    exact hz.symm.trans (Option.some.inj hn)
  case h_2 ds hf =>
    obtain ⟨ht, -, hds⟩ := h.fraction ds hf
    split at hn
    · cases hn
    · rename_i hl
      rw [not_or, Decidable.not_not] at hl
      refine ⟨⟨⟨s.digits, hne, h.digits⟩, some ⟨ds, hl.2, hds⟩⟩,
        by simp [Amount.chars, pending, hf], rfl, ?_, fun _ => ⟨ht, hl.1⟩⟩
      rw [← Option.some.inj hn, Calendar.Lexical.nanos_eq hds]
      rfl

theorem designate?_spells (h : Spells order takesFraction slots text s)
    (hs : s.designate? c = some s') :
    ∃ slots, Spells order takesFraction slots (text ++ [c]) s' := by
  unfold designate? at hs
  split at hs
  · cases hs
  · rename_i d left hd
    obtain ⟨skipped, hsk⟩ := eq_of_dropWhile hd
    split at hs
    · cases hs
    · rename_i hne
      obtain ⟨n, hn, hs⟩ := Option.bind_eq_some_iff.1 hs
      obtain ⟨m, hm, hs⟩ := Option.bind_eq_some_iff.1 hs
      obtain ⟨a, ha, hwhole, rfl, hf⟩ := amount_of_nanos? h (by simp [hsk]) hne hn
      obtain ⟨hb, rfl⟩ := Long.ofNat?_eq_some_iff.1 hm
      obtain rfl := Option.some.inj hs
      rw [← hwhole] at hb ⊢
      exact ⟨_, h.push hsk a ha hf hb⟩

theorem next?_spells (h : Spells order takesFraction slots text s)
    (hs : s.next? takesFraction c = some s') :
    ∃ slots, Spells order takesFraction slots (text ++ [c]) s' := by
  unfold next? at hs
  split at hs
  case isTrue hc =>
    split at hs
    case h_1 ds hf =>
      obtain rfl := Option.some.inj hs
      obtain ⟨ht, hne, hds⟩ := h.fraction ds hf
      refine ⟨slots, h.proper, h.order, h.whole, ?_, h.components, h.digits, ?_⟩
      · simp [h.text, pending, hf]
      · rintro _ ⟨⟩
        refine ⟨ht, hne, fun d hd => ?_⟩
        obtain hd | hd := List.mem_append.1 hd
        · exact hds d hd
        · exact List.mem_singleton.1 hd ▸ hc
    case h_2 hf =>
      obtain rfl := Option.some.inj hs
      refine ⟨slots, h.proper, h.order, h.whole, ?_, h.components, ?_, ?_⟩
      · simp [h.text, pending, hf]
      · intro d hd
        obtain hd | hd := List.mem_append.1 hd
        · exact h.digits d hd
        · exact List.mem_singleton.1 hd ▸ hc
      · exact fun ds hds => absurd (hf.symm.trans hds) nofun
  case isFalse =>
    split at hs
    case isTrue hp =>
      obtain ⟨rfl, ht, hf, hne⟩ := hp
      obtain rfl := Option.some.inj hs
      refine ⟨slots, h.proper, h.order, h.whole, ?_, h.components, h.digits, ?_⟩
      · simp [h.text, pending, hf]
      · rintro _ ⟨⟩
        exact ⟨ht, hne, nofun⟩
    case isFalse => exact designate?_spells h hs

theorem run_spells {cs : List Char} (h : Spells order takesFraction slots text s)
    (hs : cs.foldlM (next? takesFraction) s = some s') :
    ∃ slots, Spells order takesFraction slots (text ++ cs) s' := by
  induction cs generalizing s slots text with
  | nil =>
    obtain rfl := Option.some.inj hs
    exact ⟨slots, by rwa [List.append_nil]⟩
  | cons c cs ih =>
    rw [List.foldlM_cons] at hs
    obtain ⟨t, ht, hs⟩ := Option.bind_eq_some_iff.1 hs
    obtain ⟨slots, h⟩ := next?_spells h ht
    rw [List.append_cons]
    exact ih h hs

variable (takesFraction : Bool) (read : Components)

theorem run_digits {ds : List Char} (hd : ∀ c ∈ ds, c.isDigit = true) (order digits : List Char) :
    ds.foldlM (next? takesFraction) ⟨read, order, digits, none⟩ =
      some ⟨read, order, digits ++ ds, none⟩ := by
  induction ds generalizing digits with
  | nil => rw [List.append_nil]; rfl
  | cons c ds ih =>
    have hn : next? takesFraction ⟨read, order, digits, none⟩ c =
        some ⟨read, order, digits ++ [c], none⟩ := by
      simp [next?, hd c List.mem_cons_self]
    rw [List.foldlM_cons, hn, List.append_cons digits c ds]
    exact ih (fun d h => hd d (List.mem_cons_of_mem c h)) _

theorem run_fraction {ds : List Char} (hd : ∀ c ∈ ds, c.isDigit = true)
    (order digits f : List Char) :
    ds.foldlM (next? takesFraction) ⟨read, order, digits, some f⟩ =
      some ⟨read, order, digits, some (f ++ ds)⟩ := by
  induction ds generalizing f with
  | nil => rw [List.append_nil]; rfl
  | cons c ds ih =>
    have hn : next? takesFraction ⟨read, order, digits, some f⟩ c =
        some ⟨read, order, digits, some (f ++ [c])⟩ := by
      simp [next?, hd c List.mem_cons_self]
    rw [List.foldlM_cons, hn, List.append_cons f c ds]
    exact ih (fun d h => hd d (List.mem_cons_of_mem c h)) _

theorem run_amount (a : Amount) (hf : a.fraction.isSome = true → takesFraction = true)
    (order : List Char) :
    a.chars.foldlM (next? takesFraction) ⟨read, order, [], none⟩ =
      some ⟨read, order, a.whole.chars, a.fraction.map Digits.chars⟩ := by
  unfold Amount.chars
  rw [List.foldlM_append, run_digits takesFraction read a.whole.isDigit, List.nil_append]
  cases hfr : a.fraction with
  | none => rfl
  | some ds =>
    have hp : next? takesFraction ⟨read, order, a.whole.chars, none⟩ '.' =
        some ⟨read, order, a.whole.chars, some []⟩ := by
      simp [next?, hf (by rw [hfr]; rfl), a.whole.nonempty]
    change ('.' :: ds.chars).foldlM (next? takesFraction) _ = _
    rw [List.foldlM_cons, hp]
    exact run_fraction takesFraction read ds.isDigit order a.whole.chars []

variable {takesFraction} {read}

theorem designate?_amount (hz : read.nanos = 0) (a : Amount) {skipped : List Char}
    (hc : c ∉ skipped) (hf : a.fraction.isSome = true → left = [])
    (hb : a.whole.value ≤ Long.greatest) :
    designate? ⟨read, skipped ++ c :: left, a.whole.chars, a.fraction.map Digits.chars⟩ c =
      some ⟨⟨read.values ++ [(c, a.whole.value)], a.nanos⟩, left, [], none⟩ := by
  have hd : (skipped ++ c :: left).dropWhile (· != c) = c :: left := by
    rw [List.dropWhile_append_of_pos]
    · simp
    · intro d hd
      simpa using ne_of_mem_of_not_mem hd hc
  have hn (order : List Char) :
      nanos? ⟨read, order, a.whole.chars, a.fraction.map Digits.chars⟩ left = some a.nanos := by
    unfold nanos? Amount.nanos
    cases hfr : a.fraction with
    | none => exact congrArg some hz
    | some ds =>
      have hl : ¬(left ≠ [] ∨ ds.chars = []) := by
        rw [not_or, Decidable.not_not]
        exact ⟨hf (by rw [hfr]; rfl), ds.nonempty⟩
      simp only [Option.map_some]
      rw [if_neg hl, Calendar.Lexical.nanos_eq ds.isDigit]
      rfl
  have hr : Long.ofNat? (Numeral.read a.whole.chars) = some a.whole.value := Long.ofNat?_of_le hb
  unfold designate?
  dsimp only
  rw [hd]
  dsimp only
  rw [if_neg a.whole.nonempty, hn, hr]
  rfl

variable (takesFraction) in
theorem next?_amount (hz : read.nanos = 0) (a : Amount) {skipped : List Char} (hc : c ∉ skipped)
    (hd : c.isDigit = false ∧ c ≠ '.') (hf : a.fraction.isSome = true → left = [])
    (hb : a.whole.value ≤ Long.greatest) : next? takesFraction
      ⟨read, skipped ++ c :: left, a.whole.chars, a.fraction.map Digits.chars⟩ c =
    some ⟨⟨read.values ++ [(c, a.whole.value)], a.nanos⟩, left, [], none⟩ := by
  rw [next?, if_neg (Bool.eq_false_iff.1 hd.1), if_neg fun h => hd.2 h.1]
  exact designate?_amount hz a hc hf hb

variable (read) in
theorem run_slots {slots : List Slot} (hp : Proper takesFraction slots)
    (hm : ∀ t ∈ slots, t.designator.isDigit = false ∧ t.designator ≠ '.') (skipped : List Char)
    (hnd : (skipped ++ slots.map Slot.designator).Nodup) (hz : slots ≠ [] → read.nanos = 0) :
    ∃ left, (spelled slots).foldlM (next? takesFraction)
        ⟨read, skipped ++ slots.map Slot.designator, [], none⟩ =
      some ⟨⟨read.values ++ slots.filterMap Slot.value?,
        read.nanos + nanosOf slots⟩, left, [], none⟩ := by
  induction slots generalizing read skipped with
  | nil => exact ⟨skipped, by simp [spelled]⟩
  | cons t slots ih =>
    have hms : ∀ t ∈ slots, t.designator.isDigit = false ∧ t.designator ≠ '.' :=
      fun t ht => hm t (List.mem_cons_of_mem _ ht)
    have hz0 : read.nanos = 0 := hz (List.cons_ne_nil _ _)
    obtain ⟨c, amount⟩ := t
    cases amount with
    | none =>
      obtain ⟨left, hl⟩ := ih read hp.tail hms (skipped ++ [c]) (List.append_cons _ c _ ▸ hnd)
        fun _ => hz0
      rw [← List.append_cons] at hl
      refine ⟨left, hl.trans ?_⟩
      simp [List.filterMap_cons, Slot.value?, Slot.nanos]
    | some a =>
      have hc : c ∉ skipped := fun h =>
        (List.nodup_append.1 hnd).2.2 c h c List.mem_cons_self rfl
      have hf : a.fraction.isSome = true → slots.map Slot.designator = [] :=
        fun h => List.map_eq_nil_iff.2 (hp.tail_eq_nil h)
      have hn := next?_amount takesFraction hz0 a hc (hm _ List.mem_cons_self) hf
        (hp.bounded _ List.mem_cons_self a rfl)
      have hz : slots ≠ [] → a.nanos = 0 := by
        intro hne
        have ha : a.fraction = none := by
          cases hf : a.fraction with
          | none => rfl
          | some ds => exact absurd (hp.tail_eq_nil (by simp [Slot.isFractional, hf])) hne
        simp [Amount.nanos, ha]
      obtain ⟨left, hl⟩ := ih ⟨read.values ++ [(c, a.whole.value)], a.nanos⟩ hp.tail hms []
        (List.nodup_append.1 hnd).2.1.of_cons hz
      refine ⟨left, ?_⟩
      change ((a.chars ++ [c]) ++ spelled slots).foldlM (next? takesFraction) _ = _
      rw [List.foldlM_append, List.foldlM_append,
        run_amount takesFraction read a (hp.taken _ List.mem_cons_self)]
      simp only [Option.bind_eq_bind, Option.bind_some, List.foldlM_cons, List.foldlM_nil,
        List.map_cons, hn, Option.pure_def]
      refine hl.trans ?_
      simp [Slot.value?, Slot.nanos, hz0]

end Scanner

theorem components?_eq_some_iff {order : List Char} {takesFraction : Bool} (hnd : order.Nodup)
    (hm : ∀ c ∈ order, c.isDigit = false ∧ c ≠ '.') {cs : List Char} {read : Components} :
    components? order takesFraction cs = some read ↔
      ∃ slots : List Slot, slots.map Slot.designator = order ∧ Proper takesFraction slots ∧
        cs = spelled slots ∧ read = .ofSlots slots := by
  constructor
  · intro h
    obtain ⟨s, hs, hf⟩ := Option.bind_eq_some_iff.1 h
    obtain ⟨slots, hr⟩ := Scanner.run_spells (Scanner.start_spells order takesFraction) hs
    unfold Scanner.finish? at hf
    split at hf
    case isTrue hc =>
      refine ⟨slots ++ s.designators.map blank, ?_, hr.proper.append_blank _ hr.whole, ?_, ?_⟩
      · rw [hr.order]
        simp [blank, Function.comp_def]
      · rw [spelled_append, spelled_blank, ← List.nil_append cs, hr.text]
        simp [Scanner.pending, hc]
      · rw [← Option.some.inj hf, hr.components, ofSlots_append_blank]
    case isFalse => cases hf
  · rintro ⟨slots, rfl, hp, rfl, rfl⟩
    have hm' : ∀ t ∈ slots, t.designator.isDigit = false ∧ t.designator ≠ '.' :=
      fun t ht => hm _ (List.mem_map_of_mem ht)
    obtain ⟨left, hl⟩ := Scanner.run_slots .nothing hp hm' [] hnd fun _ => rfl
    refine (congrArg (Option.bind · Scanner.finish?) hl).trans ?_
    simp [Scanner.finish?, Components.nothing, Components.ofSlots]

end Lexical
end Duration
end PullQuery
