import PullQuery.Json.Reader
import PullQuery.Json.Writer
import PullQuery.Proofs.Text.Numeral

namespace PullQuery.Json

def Closed (rest : List Char) : Prop := ∀ c ∈ rest.head?, c = ' ' ∨ c = ',' ∨ c = ']' ∨ c = '}'

theorem Closed.cons {c : Char} (h : c = ' ' ∨ c = ',' ∨ c = ']' ∨ c = '}') (rest : List Char) :
    Closed (c :: rest) := by
  intro d hd
  obtain rfl := Option.some.inj hd
  exact h

theorem Closed.nil : Closed [] := nofun

def Digits (ds : List Char) : Prop := ds ≠ [] ∧ ∀ c ∈ ds, c.isDigit = true

theorem someDigits?_append {ds rest : List Char} (h : Digits ds)
    (hr : ∀ c ∈ rest.head?, c.isDigit = false) :
    someDigits? (ds ++ rest) = some (ds, rest) := by
  have htake : rest.takeWhile Char.isDigit = [] := by
    cases rest with
    | nil => rfl
    | cons c rest => exact List.takeWhile_cons_of_neg (by simp [hr c rfl])
  have hdrop : rest.dropWhile Char.isDigit = rest := by
    cases rest with
    | nil => rfl
    | cons c rest => exact List.dropWhile_cons_of_neg (by simp [hr c rfl])
  unfold someDigits?
  rw [List.takeWhile_append_of_pos h.2, List.dropWhile_append_of_pos h.2, htake, hdrop,
    List.append_nil]
  cases ds with
  | nil => exact absurd rfl h.1
  | cons d ds => rfl

namespace Literal

structure Spelled (l : Literal) : Prop where
  whole : Digits l.whole
  leading : l.whole.head? = some '0' → l.whole = ['0']
  fraction : ∀ ds ∈ l.fraction, Digits ds
  exponent : ∀ p ∈ l.exponent, Digits p.2

def fractionText (fraction : Option (List Char)) : List Char := fraction.elim [] ('.' :: ·)

def exponentText (exponent : Option (Bool × List Char)) : List Char :=
  exponent.elim [] fun p => 'e' :: (if p.1 then '-' else '+') :: p.2

theorem text_eq (l : Literal) : l.text = (if l.negative then ['-'] else []) ++
    (l.whole ++ (fractionText l.fraction ++ exponentText l.exponent)) := by
  obtain ⟨negative, whole, fraction, exponent⟩ := l
  unfold text
  rw [List.append_assoc, List.append_assoc]
  cases fraction <;> cases exponent <;> rfl

section Parts

variable {rest : List Char} (hr : Closed rest)

include hr

theorem exponent?_text {exponent : Option (Bool × List Char)} (h : ∀ p ∈ exponent, Digits p.2) :
    exponent? (exponentText exponent ++ rest) = some (exponent, rest) := by
  cases exponent with
  | none =>
    cases rest with
    | nil => rfl
    | cons c rest =>
      refine if_neg ?_
      obtain rfl | rfl | rfl | rfl := hr c rfl <;> decide
  | some p =>
    obtain ⟨negative, ds⟩ := p
    have hds : someDigits? (ds ++ rest) = some (ds, rest) := by
      refine someDigits?_append (h _ rfl) fun c hc => ?_
      obtain rfl | rfl | rfl | rfl := hr c hc <;> rfl
    cases negative with
    | false =>
      change (someDigits? (ds ++ rest)).bind (fun p => some (some (false, p.1), p.2)) = _
      rw [hds]
      rfl
    | true =>
      change (someDigits? (ds ++ rest)).bind (fun p => some (some (true, p.1), p.2)) = _
      rw [hds]
      rfl

theorem head_exponentText {exponent : Option (Bool × List Char)} {c : Char}
    (hc : c ∈ (exponentText exponent ++ rest).head?) :
    c = 'e' ∨ c = ' ' ∨ c = ',' ∨ c = ']' ∨ c = '}' := by
  cases exponent with
  | none => exact .inr (hr c hc)
  | some p => exact .inl (Option.some.inj hc).symm

theorem fraction?_text {fraction : Option (List Char)} {exponent : Option (Bool × List Char)}
    (h : ∀ ds ∈ fraction, Digits ds) :
    fraction? (fractionText fraction ++ (exponentText exponent ++ rest)) =
      some (fraction, exponentText exponent ++ rest) := by
  cases fraction with
  | none =>
    change fraction? (exponentText exponent ++ rest) = _
    unfold fraction?
    split
    case h_1 h' =>
      have := head_exponentText hr (c := '.') (by rw [h']; rfl)
      exact absurd this (by decide)
    case h_2 => rfl
  | some ds =>
    have hds : someDigits? (ds ++ (exponentText exponent ++ rest)) =
        some (ds, exponentText exponent ++ rest) := by
      refine someDigits?_append (h _ rfl) fun c hc => ?_
      obtain rfl | rfl | rfl | rfl | rfl := head_exponentText hr hc <;> rfl
    change (someDigits? (ds ++ (exponentText exponent ++ rest))).bind
      (fun p => some (some p.1, p.2)) = _
    rw [hds]
    rfl

theorem head_fractionText {fraction : Option (List Char)} {exponent : Option (Bool × List Char)}
    {c : Char} (hc : c ∈ (fractionText fraction ++ (exponentText exponent ++ rest)).head?) :
    c.isDigit = false := by
  cases fraction with
  | none => obtain rfl | rfl | rfl | rfl | rfl := head_exponentText hr hc <;> rfl
  | some ds =>
    obtain rfl := Option.some.inj hc
    rfl

end Parts

theorem whole?_text {whole tail : List Char} (h : Digits whole)
    (hz : whole.head? = some '0' → whole = ['0'])
    (ht : ∀ c ∈ tail.head?, c.isDigit = false) : whole? (whole ++ tail) = some (whole, tail) := by
  unfold whole?
  split
  case h_1 rest h' =>
    have hhead : whole.head? = some '0' := by
      cases whole with
      | nil => exact absurd rfl h.1
      | cons c cs => exact congrArg some (List.cons.inj h').1
    rw [hz hhead] at h' ⊢
    rw [← (List.cons.inj h').2]
    rfl
  case h_2 => exact someDigits?_append h ht

theorem literal?_text {l : Literal} (h : l.Spelled) {rest : List Char} (hr : Closed rest) :
    literal? (l.text ++ rest) = some (l, rest) := by
  obtain ⟨negative, whole, fraction, exponent⟩ := l
  let tail := fractionText fraction ++ (exponentText exponent ++ rest)
  have hw : whole? (whole ++ tail) = some (whole, tail) :=
    whole?_text h.whole h.leading fun _ => head_fractionText hr
  have htext : text ⟨negative, whole, fraction, exponent⟩ ++ rest =
      (if negative then ['-'] else []) ++ (whole ++ tail) := by
    rw [text_eq]
    simp only [List.append_assoc, tail]
  have hrest : literal? (text ⟨negative, whole, fraction, exponent⟩ ++ rest) =
      (whole? (whole ++ tail)).bind fun p => (fraction? p.2).bind fun q =>
        (exponent? q.2).bind fun r => some (⟨negative, p.1, q.1, r.1⟩, r.2) := by
    rw [htext]
    cases negative with
    | true => rfl
    | false =>
      change literal? (whole ++ tail) = _
      unfold literal?
      split
      next _ _ hsign =>
      split at hsign
      case h_1 _ h' =>
        have hc : whole.head? = some '-' := by
          cases whole with
          | nil => exact absurd rfl h.whole.1
          | cons c cs => exact congrArg some (List.cons.inj h').1
        exact absurd (h.whole.2 _ (List.mem_of_mem_head? hc)) (by decide)
      case h_2 =>
        obtain ⟨rfl, rfl⟩ := Prod.mk.inj hsign
        rfl
  rw [hrest, hw, Option.bind_some, fraction?_text hr h.fraction, Option.bind_some,
    exponent?_text hr h.exponent]
  rfl

theorem ofInt_spelled (n : Int) : (ofInt n).Spelled where
  whole := ⟨Numeral.write_ne_nil _, fun _ => Numeral.isDigit_of_mem_write⟩
  leading := Numeral.write_of_zero_leads
  fraction := nofun
  exponent := nofun

theorem integer?_ofInt {n : Int} (hl : -Nat.pow 2 63 ≤ n) (hu : n < Nat.pow 2 64) :
    (ofInt n).integer? = some n := by
  have hread : Numeral.read (ofInt n).whole = n.natAbs := Numeral.read_write n.natAbs
  have hsigned : (ofInt n).integer? =
      if n < 0 then
        if 0 < n.natAbs ∧ n.natAbs ≤ Nat.pow 2 63 then some (-(n.natAbs : Int)) else none
      else if n.natAbs < Nat.pow 2 64 then some (n.natAbs : Int) else none := by
    unfold integer?
    rw [hread]
    simp only [ofInt, Option.isSome_none, Bool.or_self, Bool.false_eq_true, if_false,
      decide_eq_true_eq]
  rw [hsigned]
  simp only [Nat.pow_eq] at hl hu ⊢
  by_cases h : n < 0
  · rw [if_pos h, if_pos (by omega)]
    exact congrArg some (by omega)
  · rw [if_neg h, if_pos (by omega)]
    exact congrArg some (by omega)

end Literal

end PullQuery.Json
