import PullQuery.Json.Quoted

namespace PullQuery.Json.Quoted

variable (rest : List Char)

theorem decode_short {c d : Char} (hc : c ≠ 'u') (h : short? c = some d) :
    decode ('\\' :: c :: rest) = (decode rest).map (Prod.map (d :: ·) id) := by
  rw [decode.eq_5 c rest (fun _ _ _ _ _ _ _ _ _ hu _ => hc hu) fun _ _ _ _ _ hu _ => hc hu, h]
  cases decode rest <;> rfl

theorem decode_unit {a b c d : Char} {n : Nat} (h : unit? a b c d = some n) (hn : n < 0xD800) :
    decode ('\\' :: 'u' :: a :: b :: c :: d :: rest) =
      (decode rest).map (Prod.map (Char.ofNat n :: ·) id) := by
  have hhigh : isHighSurrogate n = false := by
    rw [isHighSurrogate, decide_eq_false (by omega), Bool.false_and]
  have hlow : isLowSurrogate n = false := by
    rw [isLowSurrogate, decide_eq_false (by omega), Bool.false_and]
  by_cases hpair : ∃ e f g i rest', rest = '\\' :: 'u' :: e :: f :: g :: i :: rest'
  · obtain ⟨e, f, g, i, rest', rfl⟩ := hpair
    rw [decode.eq_3, h]
    simp only [Option.bind_eq_bind, Option.bind_some, hhigh, hlow, Bool.false_eq_true, if_false]
    cases decode ('\\' :: 'u' :: e :: f :: g :: i :: rest') <;> rfl
  · rw [decode.eq_4 a b c d rest fun e f g i rest' he => hpair ⟨e, f, g, i, rest', he⟩, h]
    simp only [Option.bind_eq_bind, Option.bind_some, hhigh, hlow, Bool.or_self,
      Bool.false_eq_true, if_false]
    cases decode rest <;> rfl

theorem decode_plain {c : Char} (hq : c ≠ '"') (hb : c ≠ '\\') (h : 0x20 ≤ c.toNat) :
    decode (c :: rest) = (decode rest).map (Prod.map (c :: ·) id) := by
  rw [decode.eq_6 c rest hq (fun _ _ _ _ _ _ _ _ _ hc _ => hb hc) (fun _ _ _ _ _ hc _ => hb hc)
    fun _ _ hc _ => hb hc, if_neg (not_or.2 ⟨Nat.not_lt.2 h, hb⟩)]
  cases decode rest <;> rfl

theorem unit?_hexDigit :
    ∀ n < 0x20, unit? '0' '0' (hexDigit (n / 16)) (hexDigit (n % 16)) = some n := by
  decide

theorem decode_escape (c : Char) :
    decode (escape c ++ rest) = (decode rest).map (Prod.map (c :: ·) id) := by
  unfold escape
  split
  case h_1 => exact decode_short rest (by decide) rfl
  case h_2 => exact decode_short rest (by decide) rfl
  case h_3 => exact decode_short rest (by decide) rfl
  case h_4 => exact decode_short rest (by decide) rfl
  case h_5 => exact decode_short rest (by decide) rfl
  case h_6 => exact decode_short rest (by decide) rfl
  case h_7 => exact decode_short rest (by decide) rfl
  case h_8 hq hb _ _ _ _ _ =>
    split
    case isTrue h =>
      have := decode_unit rest (unit?_hexDigit c.toNat h) (by omega)
      rwa [Char.ofNat_toNat] at this
    case isFalse h => exact decode_plain rest hq hb (by omega)

theorem decode_flatMap_escape (cs : List Char) :
    decode (cs.flatMap escape ++ '"' :: rest) = some (cs, rest) := by
  induction cs with
  | nil => rfl
  | cons c cs ih =>
    rw [List.flatMap_cons, List.append_assoc, decode_escape, ih]
    rfl

end PullQuery.Json.Quoted
