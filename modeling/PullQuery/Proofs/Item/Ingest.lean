import PullQuery.Item.Ingest
import PullQuery.Proofs.Json.Reading
import PullQuery.Proofs.Json.Rendering
import PullQuery.Proofs.Number.Double

namespace PullQuery

namespace Json

namespace Literal

/-- The literal is kept as an integer: it has neither a fraction nor an exponent, 64 bits hold its
value with or without a sign, and it is no negative zero. -/
structure Keeps (l : Literal) (n : ℤ) : Prop where
  fraction : l.fraction = none
  exponent : l.exponent = none
  value : l.value = n
  least : -2 ^ 63 ≤ n
  lt : n < 2 ^ 64
  signed : l.negative = true → n ≠ 0

/-- What becomes of a number: the integer that it is kept as, else the double, or a decimal that is
read as that double if it is plain. -/
inductive Becomes (l : Literal) : Item → Prop
  | int {i : Int32} (h : l.Keeps i.toInt) : Becomes l (.int i)
  | integer {n : ℤ} (h : l.Keeps n) (hn : n < -2 ^ 31 ∨ 2 ^ 31 ≤ n) : Becomes l (.integer n)
  | decimal {x : Float} {q : ℚ} {d : Decimal} (h : ∀ n, ¬l.Keeps n) (hx : l.double? = some x)
      (hq : (Binary.ofDouble x).value = .ofRat q) (hp : Plain q) (hd : Binary.Rounds d.value q) :
      Becomes l (.decimal d)
  | double {x : Float} (h : ∀ n, ¬l.Keeps n) (hx : l.double? = some x)
      (hp : ∀ q, (Binary.ofDouble x).value = .ofRat q → ¬Plain q) : Becomes l (.double x)

theorem keeps_iff {l : Literal} {n : ℤ} (hf : l.fraction = none) (he : l.exponent = none) :
    l.Keeps n ↔ Binary.signed l.negative (Numeral.read l.whole) = n ∧ -2 ^ 63 ≤ n ∧ n < 2 ^ 64 ∧
      (l.negative = true → n ≠ 0) := by
  have hv : l.value = n ↔ Binary.signed l.negative (Numeral.read l.whole) = n := by
    rw [value_of_plain he, toDecimal_of_whole hf, Decimal.value_ofInt, Int.cast_inj]
  constructor
  · rintro ⟨-, -, hvalue, hl, hu, hs⟩
    exact ⟨hv.1 hvalue, hl, hu, hs⟩
  · rintro ⟨hvalue, hl, hu, hs⟩
    exact ⟨hf, he, hv.2 hvalue, hl, hu, hs⟩

theorem integer?_eq_some_iff {l : Literal} {n : ℤ} : l.integer? = some n ↔ l.Keeps n := by
  by_cases h : l.fraction = none ∧ l.exponent = none
  · obtain ⟨hf, he⟩ := h
    have hi : l.integer? = if l.negative then
        if 0 < Numeral.read l.whole ∧ Numeral.read l.whole ≤ 2 ^ 63 then
          some (-(Numeral.read l.whole : ℤ)) else none
        else if Numeral.read l.whole < 2 ^ 64 then some (Numeral.read l.whole : ℤ) else none := by
      rw [integer?, hf, he]
      rfl
    rw [keeps_iff hf he, hi, Binary.signed]
    cases l.negative with
    | true =>
      rw [if_pos rfl, if_pos rfl, Option.ite_none_right_eq_some, Option.some_inj, imp_iff_right rfl]
      omega
    | false =>
      rw [if_neg Bool.false_ne_true, if_neg Bool.false_ne_true, Option.ite_none_right_eq_some,
        Option.some_inj, iff_true_intro fun h : false = true => absurd h Bool.false_ne_true,
        and_true]
      omega
  · refine iff_of_false (fun hi => ?_) fun hk => h ⟨hk.fraction, hk.exponent⟩
    rw [integer?, if_pos] at hi
    · cases hi
    · rw [Bool.or_eq_true, Option.isSome_iff_ne_none, Option.isSome_iff_ne_none]
      exact not_and_or.1 h

theorem becomes_ofInt {l : Literal} {n : ℤ} (h : l.Keeps n) : l.Becomes (.ofInt n) := by
  unfold Item.ofInt
  rcases hw : Word.ofInt? n with _ | i
  · have hn := Word.ofInt?_eq_none_iff.1 hw
    unfold Word.Fits at hn
    exact .integer h (by omega)
  · rw [Word.ofInt?_eq_some_iff] at hw
    exact .int (hw ▸ h)

theorem becomes_ofDouble {l : Literal} {x : Float} (h : ∀ n, ¬l.Keeps n) (hx : l.double? = some x) :
    l.Becomes (Item.ofNumber (.double x)) := by
  have hc := Binary.canonical_ofDouble x
  unfold Item.ofNumber
  dsimp only
  rcases hb : Binary.ofDouble x with _ | s | ⟨s, m, e⟩
  · exact .double h hx fun q hq => absurd (hb ▸ hq) WithBot.bot_ne_coe
  · refine .double h hx fun q hq => absurd (hb ▸ hq) ?_
    cases s with
    | false => exact (Extended.ofRat_lt_infinity q).ne'
    | true => exact (Extended.negInfinity_lt_ofRat q).ne
  · rw [hb] at hc
    obtain ⟨hplain, hrounds⟩ := ofFinite_spec hc
    have hvalue : (Binary.ofDouble x).value = .ofRat (Binary.ratio s m e) := by
      rw [hb]
      rfl
    dsimp only
    cases hs : (ofFinite s m e).exponent.isSome with
    | false =>
      have hp := hplain.1 hs
      exact .decimal h hx hvalue hp (hrounds hp)
    | true =>
      refine .double h hx fun q hq hp => ?_
      rw [hvalue] at hq
      rw [← Extended.ofRat_strictMono.injective hq, ← hplain, hs] at hp
      cases hp

theorem becomes_ofNumber {l : Literal} {k : Number} (h : l.number? = some k) :
    l.Becomes (Item.ofNumber k) := by
  unfold number? at h
  rcases hn : l.integer? with _ | n
  · rw [hn] at h
    obtain ⟨x, hx, rfl⟩ := Option.map_eq_some_iff.1 h
    refine becomes_ofDouble (fun n hk => ?_) hx
    rw [← integer?_eq_some_iff, hn] at hk
    cases hk
  · rw [hn] at h
    cases h
    exact becomes_ofInt (integer?_eq_some_iff.1 hn)

end Literal

mutual

def Ingested : Json → Item → Prop
  | .null, a => a = .null
  | .boolean b, a => a = .boolean b
  | .number l, a => l.Becomes a
  | .string s, a => a = .string s
  | .array elements, a => ∃ as, a = .array ⟨as⟩ ∧ IngestedElements elements as
  | .object fields, a => ∃ gs, a = .object gs ∧ IngestedFields fields gs

def IngestedElements : List Json → List Item → Prop
  | [], as => as = []
  | v :: vs, as => ∃ a as', as = a :: as' ∧ v.Ingested a ∧ IngestedElements vs as'

def IngestedFields : List (String × Json) → List (String × Item) → Prop
  | [], gs => gs = []
  | (k, v) :: fs, gs => ∃ a gs', gs = (k, a) :: gs' ∧ v.Ingested a ∧ IngestedFields fs gs'

end

theorem ingestedElements {vs : List Json} (h : ∀ v ∈ vs, v.Ingested (.ofJson v)) :
    IngestedElements vs (Item.ofElements vs) := by
  induction vs with
  | nil => rw [Item.ofElements, IngestedElements]
  | cons v vs ih =>
    obtain ⟨hv, hvs⟩ := List.forall_mem_cons.1 h
    rw [Item.ofElements, IngestedElements]
    exact ⟨_, _, rfl, hv, ih hvs⟩

theorem ingestedFields {fs : List (String × Json)} (h : ∀ f ∈ fs, f.2.Ingested (.ofJson f.2)) :
    IngestedFields fs (Item.ofFieldValues fs) := by
  induction fs with
  | nil => rw [Item.ofFieldValues, IngestedFields]
  | cons f fs ih =>
    obtain ⟨hf, hfs⟩ := List.forall_mem_cons.1 h
    rw [Item.ofFieldValues, IngestedFields]
    exact ⟨_, _, rfl, hf, ih hfs⟩

mutual

theorem ingested_of_settled : ∀ {w v : Json}, settled? w = some v → v.Ingested (.ofJson v)
  | .null, v, h | .boolean _, v, h | .string _, v, h => by
    cases h
    rfl
  | .number l, v, h => by
    rw [settled?] at h
    obtain ⟨hl, hv⟩ := Option.ite_none_right_eq_some.1 h
    cases hv
    obtain ⟨k, hk⟩ := Option.isSome_iff_exists.1 hl
    rw [Ingested, Item.ofJson, hk]
    exact Literal.becomes_ofNumber hk
  | .array ws, v, h => by
    rw [settled?] at h
    obtain ⟨vs, hvs, rfl⟩ := Option.map_eq_some_iff.1 h
    rw [Ingested, Item.ofJson]
    exact ⟨_, rfl, ingestedElements (ingested_of_settledList hvs)⟩
  | .object ws, v, h => by
    rw [settled?] at h
    obtain ⟨fs, hfs, rfl⟩ := Option.map_eq_some_iff.1 h
    rw [Ingested, Item.ofJson]
    have hall := @Fields.forall_ofList _ (fun v => v.Ingested (.ofJson v)) fs
    exact ⟨_, rfl, ingestedFields (hall (ingested_of_settledFields hfs))⟩

theorem ingested_of_settledList : ∀ {ws vs : List Json}, settledList? ws = some vs →
    ∀ v ∈ vs, v.Ingested (.ofJson v)
  | [], vs, h => by
    cases h
    exact fun _ hv => (nomatch hv)
  | w :: ws, vs, h => by
    rw [settledList?] at h
    obtain ⟨v, hv, h⟩ := Option.bind_eq_some_iff.1 h
    obtain ⟨vs, hvs, h⟩ := Option.bind_eq_some_iff.1 h
    cases h
    exact List.forall_mem_cons.2 ⟨ingested_of_settled hv, ingested_of_settledList hvs⟩

theorem ingested_of_settledFields : ∀ {ws fs : List (String × Json)}, settledFields? ws = some fs →
    ∀ f ∈ fs, f.2.Ingested (.ofJson f.2)
  | [], fs, h => by
    cases h
    exact fun _ hf => (nomatch hf)
  | (k, w) :: ws, fs, h => by
    rw [settledFields?] at h
    obtain ⟨v, hv, h⟩ := Option.bind_eq_some_iff.1 h
    obtain ⟨fs, hfs, h⟩ := Option.bind_eq_some_iff.1 h
    cases h
    exact List.forall_mem_cons.2 ⟨ingested_of_settled hv, ingested_of_settledFields hfs⟩

end

theorem literal?_leads {cs rest : List Char} {l : Literal} (h : literal? cs = some (l, rest)) :
    ∃ c tail, cs = c :: tail ∧ (c = '-' ∨ c.isDigit = true) := by
  cases cs with
  | nil => cases h
  | cons c tail =>
    refine ⟨c, tail, rfl, or_iff_not_imp_left.2 fun hminus => ?_⟩
    by_contra hc
    have hwhole : whole? (c :: tail) = none := by
      unfold whole?
      split
      case h_1 hz =>
        rw [(List.cons.inj hz).1] at hc
        exact absurd rfl hc
      case h_2 => rw [someDigits?, List.takeWhile_cons_of_neg hc]
    unfold literal? at h
    split at h
    next _ _ hsign =>
    split at hsign
    case h_1 hcs => exact hminus (List.cons.inj hcs).1
    case h_2 =>
      obtain ⟨rfl, rfl⟩ := Prod.mk.inj hsign
      rw [hwhole] at h
      cases h

theorem read?_of_literal {text : String} {l : Literal} (h : literal? text.toList = some (l, [])) :
    read? text = if l.number?.isSome then some (.number l) else none := by
  obtain ⟨c, tail, hcs, hc⟩ := literal?_leads h
  have htree : tree? text.toList = some (.number l) := by
    rw [tree?, hcs, value?_of_leads_number hc, ← hcs, h]
    rfl
  rw [read?, readChars?, htree, Option.bind_some, settled?]

/-- Whatever text is read, every number in it becomes what the library keeps of it; and a number alone
is read, unless scaling its digits overflows. -/
theorem numbers_ingested_as_kept :
    (∀ (text : String) (v : Json), read? text = some v → v.Ingested (.ofJson v)) ∧
      ∀ (text : String) (l : Literal), literal? text.toList = some (l, []) →
        read? text = some (.number l) ∨
          read? text = none ∧ (∀ n, ¬l.Keeps n) ∧ l.double? = none := by
  refine ⟨fun text v h => ?_, fun text l h => ?_⟩
  · obtain ⟨w, -, hw⟩ := Option.bind_eq_some_iff.1 h
    exact ingested_of_settled hw
  · rw [read?_of_literal h]
    cases hk : l.number? with
    | some k => exact .inl rfl
    | none =>
      refine .inr ⟨rfl, ?_⟩
      unfold Literal.number? at hk
      rcases hn : l.integer? with _ | n
      · rw [hn] at hk
        refine ⟨fun n hkeeps => ?_, Option.map_eq_none_iff.1 hk⟩
        rw [← Literal.integer?_eq_some_iff, hn] at hkeeps
        cases hkeeps
      · rw [hn] at hk
        cases hk

theorem numbers_ingested_as_kept_in_array :
    let power : Literal := ⟨false, ['1'], none, some (false, ['3'])⟩
    let small : Literal := ⟨true, ['7'], none, none⟩
    let v : Json := .array [.number power, .object [("a", .number small)]]
    read? "[1e3, \x7b\"a\" : -7\x7d]" = some v ∧ v.Ingested (.ofJson v) ∧
      literal? "1e3".toList = some (power, []) ∧
      (read? "1e3" = some (.number power) ∨
        read? "1e3" = none ∧ (∀ n, ¬power.Keeps n) ∧ power.double? = none) := by
  intro power small v
  have hpower : power.number?.isSome = true := by decide +kernel
  have hsmall : small.number?.isSome = true := by decide +kernel
  have htree : tree? "[1e3, \x7b\"a\" : -7\x7d]".toList = some v := rfl
  have hread : read? "[1e3, \x7b\"a\" : -7\x7d]" = some v := by
    rw [read?, readChars?, htree, Option.bind_some]
    simp only [v, settled?, settledList?, settledFields?, hpower, hsmall]
    rfl
  have hliteral : literal? "1e3".toList = some (power, []) := rfl
  exact ⟨hread, numbers_ingested_as_kept.1 _ v hread, hliteral,
    numbers_ingested_as_kept.2 _ power hliteral⟩

theorem numbers_not_ingested_as_spelled :
    (read? "1e3").map (fun v => (Item.ofJson v).type) = some .decimal ∧
      (read? "0.0000001").map (fun v => (Item.ofJson v).type) = some .double ∧
      (read? "18446744073709551616").map (fun v => (Item.ofJson v).type) = some .double ∧
      (read? "-0").map (fun v => (Item.ofJson v).type) = some .decimal :=
  ⟨by decide +kernel, by decide +kernel, by decide +kernel, by decide +kernel⟩

end Json

end PullQuery
