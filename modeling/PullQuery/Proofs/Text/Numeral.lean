import PullQuery.Text

namespace PullQuery.Numeral

theorem read_append (as bs : List Char) :
    read (as ++ bs) = read as * Nat.pow 10 bs.length + read bs := by
  unfold read
  rw [Nat.ofDigitChars_append, Nat.ofDigitChars_eq_ofDigitChars_zero (l := bs), Nat.mul_comm]
  rfl

theorem read_lt {ds : List Char} (h : ∀ c ∈ ds, c.isDigit = true) :
    read ds < Nat.pow 10 ds.length := by
  induction ds with
  | nil => decide
  | cons c cs ih =>
    have hc := h c List.mem_cons_self
    have hcs := ih fun d hd => h d (List.mem_cons_of_mem c hd)
    have digit : read [c] ≤ 9 := by
      rw [Char.isDigit_iff_toNat] at hc
      simp only [read, Nat.ofDigitChars_cons, Nat.ofDigitChars_nil]
      have : '0'.toNat = 48 ∧ '9'.toNat = 57 := by decide
      omega
    rw [List.length_cons, ← List.singleton_append, read_append]
    calc read [c] * Nat.pow 10 cs.length + read cs
        < read [c] * Nat.pow 10 cs.length + Nat.pow 10 cs.length := by omega
      _ = (read [c] + 1) * Nat.pow 10 cs.length := by rw [Nat.add_mul, Nat.one_mul]
      _ ≤ 10 * Nat.pow 10 cs.length := Nat.mul_le_mul_right _ (by omega)
      _ = Nat.pow 10 (cs.length + 1) := Nat.mul_comm _ _

theorem write_ne_nil (n : Nat) : write n ≠ [] := Nat.toDigits_ne_nil

theorem isDigit_of_mem_write {n : Nat} {c : Char} (h : c ∈ write n) : c.isDigit = true :=
  Nat.isDigit_of_mem_toDigits (by decide) (by decide) h

theorem isDigit_of_mem_padded {width n : Nat} {c : Char} (h : c ∈ padded width n) :
    c.isDigit = true := by
  obtain h | h := List.mem_append.1 h
  · rw [List.eq_of_mem_replicate h]
    rfl
  · exact isDigit_of_mem_write h

theorem read_replicate_zero (n : Nat) : read (List.replicate n '0') = 0 := by
  unfold read
  rw [Nat.ofDigitChars_replicate_zero, Nat.mul_zero]

theorem read_leftpad (width : Nat) (ds : List Char) : read (ds.leftpad width '0') = read ds := by
  unfold List.leftpad
  rw [read_append, read_replicate_zero, Nat.zero_mul, Nat.zero_add]

theorem read_padded (width n : Nat) : read (padded width n) = n :=
  (read_leftpad width (write n)).trans (read_write n)

theorem length_padded {width n : Nat} (hw : 0 < width) (h : n < Nat.pow 10 width) :
    (padded width n).length = width := by
  have hl : (write n).length ≤ width := (Nat.length_toDigits_le_iff (by decide) hw).2 h
  unfold padded
  rw [List.length_leftpad]
  omega

theorem digits?_eq {ds : List Char} (hne : ds ≠ []) (h : ∀ c ∈ ds, c.isDigit = true) :
    digits? ds = some (read ds) :=
  if_pos ⟨hne, List.all_eq_true.2 h⟩

theorem digits?_write (n : Nat) : digits? (write n) = some n := by
  rw [digits?_eq (write_ne_nil n) fun _ => isDigit_of_mem_write, read_write]

theorem padded_ne_nil (width n : Nat) : padded width n ≠ [] := by
  unfold padded List.leftpad
  exact List.append_ne_nil_of_right_ne_nil _ (write_ne_nil n)

theorem digits?_padded (width n : Nat) : digits? (padded width n) = some n := by
  rw [digits?_eq (padded_ne_nil width n) fun _ => isDigit_of_mem_padded, read_padded]

theorem write_cons (n : Nat) : ∃ d ds, write n = d :: ds ∧ d.isDigit = true := by
  cases h : write n with
  | nil => exact absurd h (write_ne_nil n)
  | cons d ds => exact ⟨d, ds, rfl, isDigit_of_mem_write (h ▸ List.mem_cons_self)⟩

theorem write_of_zero_leads {n : Nat} (h : (write n).head? = some '0') : write n = ['0'] := by
  obtain ⟨d, ds, hw, -⟩ := write_cons n
  obtain rfl : d = '0' := by
    rw [hw] at h
    exact Option.some.inj h
  cases ds with
  | nil => exact hw
  | cons e ds =>
    have hds : ∀ c ∈ e :: ds, c.isDigit = true := fun c hc =>
      isDigit_of_mem_write (n := n) (hw ▸ List.mem_cons_of_mem _ hc)
    have hn : n = read (e :: ds) := by
      have hz : read ['0'] = 0 := rfl
      rw [← read_write n, hw, ← List.singleton_append, read_append, hz, Nat.zero_mul, Nat.zero_add]
    have hlen : (write n).length ≤ (e :: ds).length :=
      (Nat.length_toDigits_le_iff (by decide) (Nat.succ_pos _)).2 (hn ▸ read_lt hds)
    rw [hw] at hlen
    exact absurd hlen (Nat.not_succ_le_self _)

theorem signed?_of_isDigit {d : Char} {ds : List Char} (h : d.isDigit = true) :
    signed? (d :: ds) = (digits? (d :: ds)).map fun n : Nat => (n : Int) := by
  unfold signed?
  split
  case h_1 hc => exact absurd h (by rw [(List.cons.inj hc).1]; decide)
  case h_2 hc => exact absurd h (by rw [(List.cons.inj hc).1]; decide)
  case h_3 => rfl

theorem signed?_write (n : Nat) : signed? (write n) = some (n : Int) := by
  have hw := digits?_write n
  obtain ⟨d, ds, h, hd⟩ := write_cons n
  rw [h] at hw ⊢
  rw [signed?_of_isDigit hd, hw]
  rfl

theorem signed?_signed (n : Int) : signed? (signed n) = some n := by
  cases n with
  | ofNat n => exact signed?_write n
  | negSucc n =>
    change (digits? (write (n + 1))).map (fun n : Nat => -(n : Int)) = _
    rw [digits?_write]
    rfl

theorem grouped?_eq {ds : List Char} (hne : ds ≠ []) (h : ∀ c ∈ ds, c.isDigit = true) :
    grouped? ds = some (read ds) := by
  cases ds with
  | nil => exact absurd rfl hne
  | cons d ds =>
    have hd := h d List.mem_cons_self
    have hds : ∀ c ∈ ds, c.isDigit = true := fun c hc => h c (List.mem_cons_of_mem d hc)
    have hall : ds.all (fun d => d.isDigit || d == '_') = true :=
      List.all_eq_true.2 fun c hc => by rw [hds c hc, Bool.true_or]
    rw [grouped?, hd, hall, List.filter_eq_self.2 hds]
    rfl

theorem integer?_eq {negative : Bool} {ds : List Char} (hne : ds ≠ [])
    (h : ∀ c ∈ ds, c.isDigit = true) :
    integer? (if negative then '-' :: ds else ds) =
      some (if negative then -(read ds : Int) else read ds) := by
  cases negative with
  | true =>
    change (grouped? ds).map (fun n : Nat => -(n : Int)) = _
    rw [grouped?_eq hne h]
    rfl
  | false =>
    have hg : integer? ds = (grouped? ds).map fun n : Nat => (n : Int) := by
      unfold integer?
      split
      case h_1 => exact absurd (h '-' List.mem_cons_self) (by decide)
      case h_2 => exact absurd (h '+' List.mem_cons_self) (by decide)
      case h_3 => rfl
    exact hg.trans (congrArg _ (grouped?_eq hne h))

theorem integer?_signed (n : Int) : integer? (signed n) = some n := by
  have hw (n : Nat) : ∀ c ∈ write n, c.isDigit = true := fun _ => isDigit_of_mem_write
  cases n with
  | ofNat n =>
    have := @integer?_eq false _ (write_ne_nil n) (hw n)
    rwa [if_neg Bool.false_ne_true, if_neg Bool.false_ne_true, read_write] at this
  | negSucc n =>
    have := @integer?_eq true _ (write_ne_nil (n + 1)) (hw (n + 1))
    rwa [if_pos rfl, if_pos rfl, read_write] at this

end PullQuery.Numeral
