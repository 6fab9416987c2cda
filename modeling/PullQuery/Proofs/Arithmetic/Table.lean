import PullQuery.Arithmetic

namespace PullQuery

namespace ItemType

def ladder (l r : ItemType) : ItemType :=
  if l = .double ∨ r = .double then .double
  else if l = .float ∨ r = .float then .float
  else if l.isInteger ∧ r.isInteger then .integer
  else .decimal

def promoted (l r : ItemType) : List ItemType :=
  if l = .int ∧ r = .int then [.int, .integer] else [ladder l r]

theorem ladder_mem (l r : ItemType) : l.ladder r ∈ [.double, .float, .integer, .decimal] := by
  unfold ladder
  split
  · decide
  · split
    · decide
    · split <;> decide

def isOffset (t : ItemType) : Bool := t == .yearMonthDuration || t == .dayTimeDuration

def isMovedBy (point offset : ItemType) : Bool :=
  match point with
  | .date | .dateTime => offset.isOffset
  | .time => offset == .dayTimeDuration
  | _ => false

end ItemType

def AdditiveOp.row (op : AdditiveOp) (l r : ItemType) : List ItemType :=
  if l.isNumeric ∧ r.isNumeric then l.promoted r
  else if l.isOffset ∧ l = r then [l]
  else if l.isMovedBy r then [l]
  else if op = .add ∧ r.isMovedBy l then [r]
  else if op = .subtract ∧ l.isPoint ∧ l = r then [.dayTimeDuration]
  else []

def MultiplicativeOp.row (op : MultiplicativeOp) (l r : ItemType) : List ItemType :=
  if l.isNumeric ∧ r.isNumeric then
    match op with
    | .multiply | .modulo => l.promoted r
    | .divide => if l.isDecimal ∧ r.isDecimal then [.decimal] else l.promoted r
    | .integerDivide => [.int, .integer]
  else if l.isOffset ∧ r.isNumeric ∧ (op = .multiply ∨ op = .divide) then [l]
  else if l.isNumeric ∧ r.isOffset ∧ op = .multiply then [r]
  else if l.isOffset ∧ l = r ∧ op = .divide then [.decimal]
  else []

def Item.zone? : Item → Option (Option Zone)
  | .date _ zone | .time _ zone | .dateTime _ zone => some zone
  | _ => none

namespace Arithmetic

/-- The result is one that the row of the table allows; a point among them has the zone of the point
among the operands. -/
def Follows (row : List ItemType) (l r : Item) : Except Error (Option Item) → Prop
  | .error _ => row ≠ []
  | .ok none => row = []
  | .ok (some a) => a.type ∈ row ∧ (a.type.isPoint = true → a.zone? = l.zone?.or r.zone?)

namespace Numbers

def type : Numbers → ItemType
  | .words .. => .int
  | .doubles .. => .double
  | .floats .. => .float
  | .integers .. => .integer
  | .decimals .. => .decimal

end Numbers

theorem exists_of_pair {α : Type} {f : Item → Option α} (pair : α → α → Numbers) {l r : Item}
    (hl : (f l).isSome = true) (hr : (f r).isSome = true) :
    ∃ x y, (do let x ← f l; let y ← f r; some (pair x y)) = some (pair x y) := by
  obtain ⟨x, hx⟩ := Option.isSome_iff_exists.1 hl
  obtain ⟨y, hy⟩ := Option.isSome_iff_exists.1 hr
  exact ⟨x, y, by rw [hx, hy]; rfl⟩

theorem isSome_double? {a : Item} (h : a.isNumeric = true) : a.double?.isSome = true := by
  cases a <;> first | rfl | cases h

theorem isSome_float? {a : Item} (h : a.isNumeric = true) : a.float?.isSome = true := by
  cases a <;> first | rfl | cases h

theorem isSome_integer? {a : Item} (h : a.type.isInteger = true) : a.integer?.isSome = true := by
  cases a <;> first | rfl | cases h

theorem isSome_decimal? {a : Item} (h : a.type.isDecimal = true) : a.decimal?.isSome = true := by
  cases a <;> first | rfl | cases h

def climb (l r : Item) : Option Numbers :=
  if !l.isNumeric || !r.isNumeric then none
  else if l.type == .double || r.type == .double then doubles? l r
  else if l.type == .float || r.type == .float then floats? l r
  else if l.type.isInteger && r.type.isInteger then integers? l r
  else decimals? l r

theorem promote?_eq (asWords : Int32 → Int32 → Bool) (l r : Item) :
    promote? asWords l r = climb l r ∨
      ∃ i j, l = .int i ∧ r = .int j ∧ promote? asWords l r = some (.words i j) := by
  cases l with
  | int i =>
    cases r with
    | int j =>
      cases hw : asWords i j with
      | true => exact .inr ⟨i, j, rfl, rfl, if_pos hw⟩
      | false => exact .inl (if_neg (by rw [hw]; exact Bool.false_ne_true))
    | _ => exact .inl rfl
  | _ => exact .inl rfl

theorem climb_eq_none {l r : Item} (h : ¬(l.isNumeric = true ∧ r.isNumeric = true)) :
    climb l r = none := by
  rw [climb, if_pos]
  rw [Bool.or_eq_true, Bool.not_eq_true', Bool.not_eq_true']
  cases hl : l.isNumeric <;> simp_all

theorem climb_eq_some {l r : Item} (hl : l.isNumeric = true) (hr : r.isNumeric = true) :
    ∃ ns, climb l r = some ns ∧ ns.type = l.type.ladder r.type := by
  have hd (a : Item) (h : a.isNumeric = true) (hd : a.type ≠ .double) (hf : a.type ≠ .float) :
      a.type.isDecimal = true := by
    simpa [Item.isNumeric, ItemType.isNumeric, hd, hf] using h
  rw [climb, if_neg (by simp [hl, hr]), ItemType.ladder]
  by_cases double : l.type = .double ∨ r.type = .double
  · obtain ⟨x, y, h⟩ := exists_of_pair .doubles (isSome_double? hl) (isSome_double? hr)
    exact ⟨.doubles x y, by rw [if_pos (by simpa using double)]; exact h,
      by rw [if_pos double]; rfl⟩
  rw [if_neg (by simpa using double), if_neg double]
  by_cases float : l.type = .float ∨ r.type = .float
  · obtain ⟨x, y, h⟩ := exists_of_pair .floats (isSome_float? hl) (isSome_float? hr)
    exact ⟨.floats x y, by rw [if_pos (by simpa using float)]; exact h, by rw [if_pos float]; rfl⟩
  rw [if_neg (by simpa using float), if_neg float]
  by_cases integer : l.type.isInteger = true ∧ r.type.isInteger = true
  · obtain ⟨x, y, h⟩ := exists_of_pair .integers (isSome_integer? integer.1)
      (isSome_integer? integer.2)
    exact ⟨.integers x y, by rw [if_pos (by simpa using integer)]; exact h,
      by rw [if_pos integer]; rfl⟩
  rw [if_neg (by simpa using integer), if_neg integer]
  rw [not_or] at double float
  obtain ⟨x, y, h⟩ := exists_of_pair .decimals
    (isSome_decimal? (hd l hl double.1 float.1)) (isSome_decimal? (hd r hr double.2 float.2))
  exact ⟨.decimals x y, h, rfl⟩

theorem promote?_cases (asWords : Int32 → Int32 → Bool) (l r : Item) :
    (promote? asWords l r = none ∧ ¬(l.type.isNumeric = true ∧ r.type.isNumeric = true)) ∨
    ∃ ns, promote? asWords l r = some ns ∧ (l.type.isNumeric = true ∧ r.type.isNumeric = true) ∧
      ((ns.type = .int ∧ l.type = .int ∧ r.type = .int) ∨ ns.type = l.type.ladder r.type) := by
  obtain h | ⟨i, j, rfl, rfl, h⟩ := promote?_eq asWords l r
  · by_cases hn : l.isNumeric = true ∧ r.isNumeric = true
    · obtain ⟨ns, hc, ht⟩ := climb_eq_some hn.1 hn.2
      exact .inr ⟨ns, h.trans hc, hn, .inr ht⟩
    · exact .inl ⟨h.trans (climb_eq_none hn), hn⟩
  · exact .inr ⟨_, h, ⟨rfl, rfl⟩, .inl ⟨rfl, rfl, rfl⟩⟩

theorem mem_promoted {t l r : ItemType} (h : (t = .int ∧ l = .int ∧ r = .int) ∨ t = l.ladder r) :
    t ∈ l.promoted r := by
  unfold ItemType.promoted
  split
  case isTrue hi =>
    obtain ⟨rfl, -⟩ | rfl := h
    · exact List.mem_cons_self
    · obtain ⟨rfl, rfl⟩ := hi
      decide
  case isFalse hi =>
    obtain ⟨-, hl, hr⟩ | rfl := h
    · exact absurd ⟨hl, hr⟩ hi
    · exact List.mem_cons_self

theorem ladder_isExact {l r : ItemType} (hl : l.isNumeric = true) (hr : r.isNumeric = true) :
    (l.ladder r).isDecimal = true ↔ l.isDecimal = true ∧ r.isDecimal = true := by
  revert hl hr
  cases l <;> cases r <;> decide

def Yields (types : List ItemType) (result : Except Error Item) : Prop :=
  ∀ a, result = .ok a → a.type ∈ types

theorem yields_ok {types : List ItemType} {a : Item} (h : a.type ∈ types) :
    Yields types (.ok a) := by
  rintro _ ⟨⟩
  exact h

theorem yields_error {types : List ItemType} (e : Error) : Yields types (.error e) := nofun

theorem unlessZero_yields {types : List ItemType} (zero : Bool) {a : Item} (h : a.type ∈ types) :
    Yields types (unlessZero zero a) := by
  cases zero with
  | true => exact yields_error _
  | false => exact yields_ok h

theorem ofInt_type (n : Int) : (Item.ofInt n).type ∈ [.int, .integer] := by
  unfold Item.ofInt
  split <;> simp [Item.type]

theorem wholeQuotient_yields (x y : Float) : Yields [.int, .integer] (wholeQuotient x y) := by
  dsimp only [wholeQuotient]
  split
  · exact yields_error _
  · split
    · exact yields_error _
    · split
      · exact yields_ok (by simp [Item.type])
      · exact yields_error _

theorem additiveNumbers_type (op : AdditiveOp) (ns : Numbers) :
    (additiveNumbers op ns).type = ns.type := by
  cases op <;> cases ns <;> rfl

def numericResults (op : MultiplicativeOp) (t : ItemType) : List ItemType :=
  match op with
  | .multiply | .modulo => if t = .int then [.int, .integer] else [t]
  | .divide => if t.isDecimal then [.decimal] else [t]
  | .integerDivide => [.int, .integer]

theorem multiplicativeDecimals_yields (op : MultiplicativeOp) (a b : Decimal) :
    Yields (numericResults op .decimal) (multiplicativeDecimals op a b) := by
  cases op with
  | multiply => exact yields_ok (by simp [numericResults, Item.type])
  | divide => exact unlessZero_yields _ (by simp [numericResults, Item.type, ItemType.isDecimal])
  | integerDivide => exact unlessZero_yields _ (by simp [numericResults, Item.type])
  | modulo => exact unlessZero_yields _ (by simp [numericResults, Item.type])

theorem multiplicativeNumbers_yields (op : MultiplicativeOp) (ns : Numbers) :
    Yields (numericResults op ns.type) (multiplicativeNumbers op ns) := by
  rw [multiplicativeNumbers.eq_def]
  cases ns with
  | words i j =>
    cases op with
    | multiply => exact yields_ok (ofInt_type _)
    | divide => exact multiplicativeDecimals_yields .divide _ _
    | integerDivide => exact unlessZero_yields _ (ofInt_type _)
    | modulo => exact unlessZero_yields _ (ofInt_type _)
  | doubles x y =>
    cases op with
    | integerDivide => exact wholeQuotient_yields _ _
    | _ => exact yields_ok List.mem_cons_self
  | floats x y =>
    cases op with
    | integerDivide => exact wholeQuotient_yields _ _
    | _ => exact yields_ok List.mem_cons_self
  | integers m n =>
    cases op with
    | multiply => exact yields_ok List.mem_cons_self
    | divide => exact multiplicativeDecimals_yields .divide _ _
    | integerDivide => exact unlessZero_yields _ (by simp [numericResults, Item.type])
    | modulo => exact unlessZero_yields _ List.mem_cons_self
  | decimals a b => exact multiplicativeDecimals_yields op a b

theorem numericResults_subset (op : MultiplicativeOp) {t l r : ItemType}
    (hn : l.isNumeric = true ∧ r.isNumeric = true)
    (h : (t = .int ∧ l = .int ∧ r = .int) ∨ t = l.ladder r) :
    ∀ u ∈ numericResults op t, u ∈ op.row l r := by
  intro u hu
  have promoted (hu : u ∈ if t = .int then [ItemType.int, .integer] else [t]) :
      u ∈ l.promoted r := by
    split at hu
    case isTrue ht =>
      obtain ⟨-, rfl, rfl⟩ | hl := h
      · exact hu
      · unfold ItemType.ladder at hl
        grind
    case isFalse =>
      obtain rfl := List.mem_singleton.1 hu
      exact mem_promoted h
  cases op with
  | multiply =>
    rw [show MultiplicativeOp.row .multiply l r = l.promoted r from if_pos hn]
    exact promoted hu
  | modulo =>
    rw [show MultiplicativeOp.row .modulo l r = l.promoted r from if_pos hn]
    exact promoted hu
  | integerDivide =>
    rw [show MultiplicativeOp.row .integerDivide l r = [.int, .integer] from if_pos hn]
    exact hu
  | divide =>
    have hd : t.isDecimal = true ↔ l.isDecimal = true ∧ r.isDecimal = true := by
      obtain ⟨rfl, rfl, rfl⟩ | rfl := h
      · decide
      · exact ladder_isExact hn.1 hn.2
    rw [show MultiplicativeOp.row .divide l r = if l.isDecimal = true ∧ r.isDecimal = true then
      [.decimal] else l.promoted r from if_pos hn]
    simp only [numericResults] at hu
    split at hu
    case isTrue ht =>
      rw [if_pos (hd.1 ht)]
      exact hu
    case isFalse ht =>
      rw [if_neg fun hlr => ht (hd.2 hlr)]
      obtain rfl := List.mem_singleton.1 hu
      exact mem_promoted h

namespace Offset

def type : Offset → ItemType
  | .months _ => .yearMonthDuration
  | .span _ => .dayTimeDuration

theorem neg_cases (o : Offset) :
    (∃ p, o.neg = .ok p ∧ p.type = o.type) ∨
      (o.neg = .error (.of .pointOverflow) ∧ o = .months Int32.minValue) := by
  cases o with
  | span d => exact .inl ⟨.span d.neg, rfl, rfl⟩
  | months m =>
    cases hw : Word.ofInt? (-m.toInt) with
    | some n =>
      exact .inl ⟨.months n, congrArg (fun o => (overflowing o).map Offset.months) hw, rfl⟩
    | none =>
      have hm : m.toInt = -2147483648 := by
        have hf := Word.ofInt?_eq_none_iff.1 hw
        have hl := Word.fits_toInt m
        unfold Word.Fits at hf hl
        omega
      refine .inr ⟨congrArg (fun o => (overflowing o).map Offset.months) hw, ?_⟩
      rw [← Int32.toInt_inj.1 (hm.trans Int32.toInt_minValue.symm)]

end Offset

theorem offset?_cases (a : Item) :
    (offset? a = none ∧ a.type.isOffset = false) ∨
      ∃ o, offset? a = some o ∧ o.type = a.type ∧ a.type.isOffset = true ∧ a.zone? = none := by
  cases a with
  | yearMonthDuration m => exact .inr ⟨.months m, rfl, rfl, rfl, rfl⟩
  | dayTimeDuration d => exact .inr ⟨.span d, rfl, rfl, rfl, rfl⟩
  | _ => exact .inl ⟨rfl, rfl⟩

theorem isMovedBy_eq_false {point offset : ItemType} (h : offset.isOffset = false) :
    point.isMovedBy offset = false := by
  cases point <;> cases offset <;> first | rfl | cases h

theorem isMovedBy_of_isOffset {point : ItemType} (h : point.isOffset = true) (offset : ItemType) :
    point.isMovedBy offset = false := by
  cases point <;> first | rfl | cases h

theorem isPoint_of_isMovedBy {point offset : ItemType} (h : point.isMovedBy offset = true) :
    point.isPoint = true := by
  cases point <;> first | rfl | cases h

theorem isPoint_of_isOffset {t : ItemType} (h : t.isOffset = true) : ¬t.isPoint = true := by
  cases t <;> first | exact Bool.false_ne_true | cases h

theorem eq_of_offset? {a : Item} {m : Int32} (h : offset? a = some (.months m)) :
    a = .yearMonthDuration m := by
  cases a <;> cases h
  rfl

variable {α : Type} {t : ItemType} {row : List ItemType} {l r : Item}

theorem follows_bind (h : row ≠ []) (result : Except Error α) {f : α → Except Error (Option Item)}
    (hf : ∀ a, Follows row l r (f a)) : Follows row l r (result >>= f) := by
  cases result with
  | error e => exact h
  | ok a => exact hf a

theorem follows_map (result : Except Error α) (f : α → Item)
    (h : ∀ a, (f a).type = t ∧ (t.isPoint = true → (f a).zone? = l.zone?.or r.zone?)) :
    Follows [t] l r (result.map fun a => some (f a)) := by
  cases result with
  | error e => exact List.cons_ne_nil _ _
  | ok a =>
    obtain ⟨rfl, hz⟩ := h a
    exact ⟨List.mem_cons_self, hz⟩

theorem move_follows (point : Item) (o : Offset)
    (hz : point.type.isPoint = true → l.zone?.or r.zone? = point.zone?) :
    Follows (if point.type.isMovedBy o.type then [point.type] else []) l r (move point o) := by
  cases point with
  | date d zone =>
    have hm : ItemType.date.isMovedBy o.type = true := by cases o <;> rfl
    rw [Item.type, if_pos hm]
    exact follows_map _ (fun p : DateTime => .date p.date zone) fun p =>
      ⟨rfl, fun _ => (hz rfl).symm⟩
  | dateTime p zone =>
    have hm : ItemType.dateTime.isMovedBy o.type = true := by cases o <;> rfl
    rw [Item.type, if_pos hm]
    exact follows_map _ (fun p : DateTime => .dateTime p zone) fun p =>
      ⟨rfl, fun _ => (hz rfl).symm⟩
  | time t zone =>
    cases o with
    | months m => exact rfl
    | span d => exact ⟨List.mem_cons_self, fun _ => (hz rfl).symm⟩
  | _ => exact rfl

theorem difference_follows (z : Zone) (l r : Item) :
    Follows (if l.type.isPoint ∧ l.type = r.type then [.dayTimeDuration] else []) l r
      (difference z l r) := by
  have instant (a : Item) : (instant? z a).isSome = a.type.isPoint := by cases a <;> rfl
  by_cases hlr : l.type.isPoint = true ∧ l.type = r.type
  · obtain ⟨i, hi⟩ := Option.isSome_iff_exists.1 ((instant l).trans hlr.1)
    obtain ⟨j, hj⟩ := Option.isSome_iff_exists.1 ((instant r).trans (hlr.2 ▸ hlr.1))
    rw [if_pos hlr, difference, hi, hj]
    dsimp only
    rw [if_pos hlr.2]
    exact follows_map _ Item.dayTimeDuration fun d => ⟨rfl, nofun⟩
  · rw [if_neg hlr]
    unfold difference
    split
    next i j hi hj =>
      have hp : l.type.isPoint = true := by rw [← instant l, hi]; rfl
      rw [if_neg fun h => hlr ⟨hp, h⟩]
      exact rfl
    · exact rfl

end Arithmetic

def AdditiveOp.negatesFirst (op : AdditiveOp) (l r : Item) : Bool :=
  match op, l, r with
  | .subtract, .time .., .yearMonthDuration m => m == Int32.minValue
  | _, _, _ => false

namespace Arithmetic

theorem isMovedBy_of_negated {l : Item} (hp : l.type.isPoint = true)
    (h : AdditiveOp.negatesFirst .subtract l (.yearMonthDuration Int32.minValue) = false) :
    l.type.isMovedBy .yearMonthDuration = true := by
  cases l with
  | time t zone => exact absurd h (by simp [AdditiveOp.negatesFirst])
  | date d zone => rfl
  | dateTime p zone => rfl
  | _ => cases hp

theorem not_sameOffset {l r : Item}
    (hy : ∀ m n, l = .yearMonthDuration m → r = .yearMonthDuration n → False)
    (hd : ∀ d e, l = .dayTimeDuration d → r = .dayTimeDuration e → False) :
    ¬(l.type.isOffset = true ∧ l.type = r.type) := by
  rintro ⟨ho, he⟩
  cases l with
  | yearMonthDuration m =>
    cases r with
    | yearMonthDuration n => exact hy m n rfl rfl
    | _ => cases he
  | dayTimeDuration d =>
    cases r with
    | dayTimeDuration e => exact hd d e rfl rfl
    | _ => cases he
  | _ => cases ho

theorem row_add {l r : ItemType} (hn : ¬(l.isNumeric = true ∧ r.isNumeric = true))
    (hs : ¬(l.isOffset = true ∧ l = r)) :
    AdditiveOp.row .add l r =
      if l.isMovedBy r then [l] else if r.isMovedBy l then [r] else [] := by
  simp [AdditiveOp.row, hn, hs]

theorem row_subtract {l r : ItemType} (hn : ¬(l.isNumeric = true ∧ r.isNumeric = true))
    (hs : ¬(l.isOffset = true ∧ l = r)) :
    AdditiveOp.row .subtract l r =
      if l.isMovedBy r then [l] else if l.isPoint ∧ l = r then [.dayTimeDuration] else [] := by
  simp [AdditiveOp.row, hn, hs]

theorem additiveTemporal_follows {op : AdditiveOp} (z : Zone) {l r : Item}
    (hn : ¬(l.type.isNumeric = true ∧ r.type.isNumeric = true))
    (hs : op.negatesFirst l r = false) :
    Follows (op.row l.type r.type) l r (additiveTemporal op z l r) := by
  unfold additiveTemporal
  split
  case h_1 m n =>
    rw [show op.row (Item.yearMonthDuration m).type (Item.yearMonthDuration n).type =
      [.yearMonthDuration] by cases op <;> rfl]
    exact follows_map _ Item.yearMonthDuration fun d => ⟨rfl, nofun⟩
  case h_2 d e =>
    rw [show op.row (Item.dayTimeDuration d).type (Item.dayTimeDuration e).type =
      [.dayTimeDuration] by cases op <;> rfl]
    exact follows_map _ Item.dayTimeDuration fun d => ⟨rfl, nofun⟩
  case h_3 hy hd =>
    have hne := not_sameOffset hy hd
    cases op with
    | add =>
      rw [row_add hn hne]
      dsimp only
      obtain ⟨hr, hro⟩ | ⟨o, hr, hot, hro, hrz⟩ := offset?_cases r
      · rw [isMovedBy_eq_false hro, hr]
        obtain ⟨hl, hlo⟩ | ⟨o, hl, hot, hlo, hlz⟩ := offset?_cases l
        · rw [isMovedBy_eq_false hlo, hl]
          exact rfl
        · rw [hl, ← hot]
          exact move_follows r o fun _ => by rw [hlz]; rfl
      · rw [isMovedBy_of_isOffset hro, hr, ← hot]
        refine move_follows l o fun hp => ?_
        rw [hrz, Option.or_none]
    | subtract =>
      rw [row_subtract hn hne]
      dsimp only
      obtain ⟨hr, hro⟩ | ⟨o, hr, hot, hro, hrz⟩ := offset?_cases r
      · rw [isMovedBy_eq_false hro, hr]
        exact difference_follows z l r
      · have hd : ¬(l.type.isPoint = true ∧ l.type = r.type) := by
          rintro ⟨hp, he⟩
          exact isPoint_of_isOffset (he ▸ hro) hp
        rw [if_neg hd, hr]
        dsimp only
        by_cases hp : l.type.isPoint = true
        · rw [if_pos hp]
          obtain ⟨p, hn, ht⟩ | ⟨hn, rfl⟩ := o.neg_cases
          · rw [hn, ← hot, ← ht]
            refine move_follows l p fun _ => ?_
            rw [hrz, Option.or_none]
          · rw [hn, if_pos]
            · exact List.cons_ne_nil _ _
            · rw [← hot]
              exact isMovedBy_of_negated hp (eq_of_offset? hr ▸ hs)
        · rw [if_neg hp, if_neg fun hm => hp (isPoint_of_isMovedBy hm)]
          exact rfl

theorem scale_follows (duration n : Item) :
    Follows (if duration.type.isOffset then [duration.type] else []) l r (scale duration n) := by
  have hm (t : ItemType) : [t] ≠ [] := List.cons_ne_nil t []
  cases duration with
  | yearMonthDuration m =>
    exact follows_bind (hm _) (scalar n) fun x => follows_bind (hm _) (monthsTimes m x) fun m =>
      ⟨List.mem_cons_self, nofun⟩
  | dayTimeDuration d =>
    exact follows_bind (hm _) (scalar n) fun x => follows_bind (hm _) (deltaTimes d x) fun d =>
      ⟨List.mem_cons_self, nofun⟩
  | _ => exact rfl

theorem unscale_follows (duration n : Item) :
    Follows (if duration.type.isOffset then [duration.type] else []) l r (unscale duration n) := by
  have hm (t : ItemType) : [t] ≠ [] := List.cons_ne_nil t []
  cases duration with
  | yearMonthDuration m =>
    exact follows_bind (hm _) ((scalar n).bind inverse) fun x =>
      follows_bind (hm _) (monthsTimes m x) fun m => ⟨List.mem_cons_self, nofun⟩
  | dayTimeDuration d =>
    exact follows_bind (hm _) ((scalar n).bind inverse) fun x =>
      follows_bind (hm _) (deltaTimes d x) fun d => ⟨List.mem_cons_self, nofun⟩
  | _ => exact rfl

theorem ratio_follows (m n : Int) : Follows [.decimal] l r (ratio m n) := by
  unfold ratio
  split
  · exact List.cons_ne_nil _ _
  · exact ⟨List.mem_cons_self, nofun⟩

theorem row_multiply {l r : ItemType} (hn : ¬(l.isNumeric = true ∧ r.isNumeric = true)) :
    MultiplicativeOp.row .multiply l r =
      if r.isNumeric then (if l.isOffset then [l] else [])
      else if l.isNumeric then (if r.isOffset then [r] else []) else [] := by
  rw [MultiplicativeOp.row, if_neg hn]
  cases hr : r.isNumeric with
  | true =>
    have hl : l.isNumeric = false := by simpa [hr] using hn
    simp [hl]
  | false => cases l.isNumeric <;> simp

theorem row_divide {l r : ItemType} (hn : ¬(l.isNumeric = true ∧ r.isNumeric = true)) :
    MultiplicativeOp.row .divide l r =
      if r.isNumeric then (if l.isOffset then [l] else [])
      else if l.isOffset ∧ l = r then [.decimal] else [] := by
  have offset {t : ItemType} (h : t.isNumeric = true) : t.isOffset = false := by
    cases t <;> first | rfl | cases h
  rw [MultiplicativeOp.row, if_neg hn]
  cases hr : r.isNumeric with
  | true =>
    have hd : ¬(l.isOffset = true ∧ l = r) := by
      rintro ⟨ho, rfl⟩
      exact absurd ho (by rw [offset hr]; exact Bool.false_ne_true)
    simp [hd]
  | false => simp

theorem multiplicativeTemporal_follows (op : MultiplicativeOp)
    (hn : ¬(l.type.isNumeric = true ∧ r.type.isNumeric = true)) :
    Follows (op.row l.type r.type) l r (multiplicativeTemporal op l r) := by
  cases op with
  | multiply =>
    rw [row_multiply hn]
    unfold multiplicativeTemporal Item.isNumeric
    dsimp only
    split
    · exact scale_follows l r
    · split
      · exact scale_follows r l
      · exact rfl
  | divide =>
    rw [row_divide hn]
    unfold multiplicativeTemporal Item.isNumeric
    dsimp only
    split
    · exact unscale_follows l r
    · by_cases hs : l.type.isOffset = true ∧ l.type = r.type
      · rw [if_pos hs]
        split
        case h_1 => exact ratio_follows _ _
        case h_2 => exact ratio_follows _ _
        case h_3 hm hd => exact absurd hs (not_sameOffset hm hd)
      · rw [if_neg hs]
        split
        · exact absurd ⟨rfl, rfl⟩ hs
        · exact absurd ⟨rfl, rfl⟩ hs
        · exact rfl
  | integerDivide =>
    rw [MultiplicativeOp.row, if_neg hn]
    simp [Follows, multiplicativeTemporal]
  | modulo =>
    rw [MultiplicativeOp.row, if_neg hn]
    simp [Follows, multiplicativeTemporal]

theorem Numbers.isNumeric (ns : Numbers) : ns.type.isNumeric = true := by cases ns <;> rfl

theorem not_isPoint_of_mem_numericResults (op : MultiplicativeOp) {t : ItemType}
    (ht : t.isNumeric = true) : ∀ u ∈ numericResults op t, ¬u.isPoint = true := by
  revert ht
  cases op <;> cases t <;> decide

theorem multiplicativeNumbers_follows (op : MultiplicativeOp) (ns : Numbers)
    (h : ∀ t ∈ numericResults op ns.type, t ∈ row) :
    Follows row l r ((multiplicativeNumbers op ns).map some) := by
  have hy := multiplicativeNumbers_yields op ns
  have hp := not_isPoint_of_mem_numericResults op ns.isNumeric
  have hne : ∃ t, t ∈ numericResults op ns.type := by
    cases op <;> cases ns <;> exact ⟨_, List.mem_cons_self⟩
  cases hr : multiplicativeNumbers op ns with
  | error e =>
    obtain ⟨t, ht⟩ := hne
    exact List.ne_nil_of_mem (h t ht)
  | ok a => exact ⟨h _ (hy a hr), fun ha => absurd ha (hp _ (hy a hr))⟩

theorem additiveNumbers_follows (op : AdditiveOp) (ns : Numbers) (h : ns.type ∈ row) :
    Follows row l r (.ok (some (additiveNumbers op ns))) := by
  have ht := additiveNumbers_type op ns
  have hp : ¬ns.type.isPoint = true := by cases ns <;> exact Bool.false_ne_true
  exact ⟨ht.symm ▸ h, fun ha => absurd (ht ▸ ha) hp⟩

theorem multiplicative_follows (op : MultiplicativeOp) (l r : Item) :
    Follows (op.row l.type r.type) l r (op.apply l r) := by
  unfold MultiplicativeOp.apply
  obtain ⟨hp, hn⟩ | ⟨ns, hp, hn, ht⟩ := promote?_cases (fun _ _ => op != .divide) l r
  · rw [hp]
    exact multiplicativeTemporal_follows op hn
  · rw [hp]
    exact multiplicativeNumbers_follows op ns (numericResults_subset op hn ht)

theorem additive_follows (op : AdditiveOp) (implicit : Zone) (l r : Item)
    (hs : op.negatesFirst l r = false) :
    Follows (op.row l.type r.type) l r (op.apply implicit l r) := by
  unfold AdditiveOp.apply
  obtain ⟨hp, hn⟩ | ⟨ns, hp, hn, ht⟩ := promote?_cases additiveWords l r
  · rw [hp]
    exact additiveTemporal_follows implicit hn hs
  · rw [hp, show op.row l.type r.type = l.type.promoted r.type from if_pos hn]
    exact additiveNumbers_follows op ns (mem_promoted ht)

theorem additive_negatesFirst {op : AdditiveOp} (implicit : Zone) {l r : Item}
    (hs : op.negatesFirst l r = true) : op.apply implicit l r = .error (.of .pointOverflow) := by
  cases op with
  | add => cases hs
  | subtract =>
    cases l with
    | time t zone =>
      cases r with
      | yearMonthDuration m =>
        obtain rfl := eq_of_beq hs
        rfl
      | _ => cases hs
    | _ => cases hs

/-- The result is defined, or a date, a time or a duration is out of its range. -/
def Overflows {α : Type} (result : Except Error α) : Prop :=
  ∀ e, result = .error e → e = .of .pointOverflow

namespace Overflows

theorem ok (a : α) : Overflows (.ok a) := nofun

theorem overflowing (o : Option α) : Overflows (overflowing o) := by
  rintro e he
  cases o with
  | some a => cases he
  | none => exact (Except.error.inj he).symm

theorem bind {β : Type} {result : Except Error α} {f : α → Except Error β} (h : Overflows result)
    (hf : ∀ a, Overflows (f a)) : Overflows (result.bind f) := by
  cases result with
  | error e =>
    rintro _ ⟨⟩
    exact h e rfl
  | ok a => exact hf a

theorem map {β : Type} {result : Except Error α} (h : Overflows result) (f : α → β) :
    Overflows (result.map f) := by
  cases result with
  | error e =>
    rintro _ ⟨⟩
    exact h e rfl
  | ok a => exact ok (f a)

end Overflows

theorem move_overflows (point : Item) (o : Offset) : Overflows (move point o) := by
  unfold move
  split
  · exact (Overflows.overflowing _).map _
  · split <;> exact .ok _
  · exact (Overflows.overflowing _).map _
  · exact .ok _

theorem neg_overflows (o : Offset) : Overflows o.neg := by
  cases o with
  | months m => exact (Overflows.overflowing _).map _
  | span d => exact .ok _

theorem additiveTemporal_overflows (op : AdditiveOp) (implicit : Zone) (l r : Item) :
    Overflows (additiveTemporal op implicit l r) := by
  unfold additiveTemporal
  split
  · exact (Overflows.overflowing _).map _
  · exact (Overflows.overflowing _).map _
  cases op with
  | add =>
    dsimp only
    split
    · exact move_overflows l _
    · exact move_overflows r _
    · exact .ok _
  | subtract =>
    dsimp only
    split
    · split
      · exact (neg_overflows _).bind fun o => move_overflows l o
      · exact .ok _
    · unfold difference
      split
      · split
        · exact (Overflows.overflowing _).map _
        · exact .ok _
      · exact .ok _

theorem additive_overflows (op : AdditiveOp) (implicit : Zone) (l r : Item) :
    Overflows (op.apply implicit l r) := by
  unfold AdditiveOp.apply
  split
  · exact .ok _
  · exact additiveTemporal_overflows op implicit l r

theorem evaluate_eq_apply {op : AdditiveOp} {implicit : Zone} {l r : Item}
    (h : ¬(op = .subtract ∧ isBeyond implicit l r = true)) :
    op.evaluate implicit l r = op.apply implicit l r := by
  cases op with
  | add => rfl
  | subtract =>
    exact placing_of_placed (Bool.eq_false_iff.2 fun hb => h ⟨rfl, hb⟩) _

theorem not_isBeyond_of_negatesFirst {op : AdditiveOp} (implicit : Zone) {l r : Item}
    (h : op.negatesFirst l r = true) : isBeyond implicit l r = false := by
  refine isBeyond_eq_false_iff.2 fun ht => ?_
  unfold AdditiveOp.negatesFirst at h
  split at h
  · cases ht
  · cases h

end Arithmetic

open Arithmetic

/-- The types of two items decide whether there is a rule for them and what type its result has, but
for the one difference that is refused before its types are looked at, and for those of two points
where the calendar does not have the instant of one of them. -/
theorem arithmetic_follows_table (implicit : Zone) (l r : Item) :
    (∀ op : AdditiveOp,
      if op.negatesFirst l r then op.evaluate implicit l r = .error (.of .pointOverflow)
      else if op = .subtract ∧ isBeyond implicit l r then
        op.evaluate implicit l r = .error (.of .stopped)
      else Follows (op.row l.type r.type) l r (op.evaluate implicit l r) ∧
        Overflows (op.evaluate implicit l r)) ∧
    ∀ op : MultiplicativeOp, Follows (op.row l.type r.type) l r (op.apply l r) := by
  refine ⟨fun op => ?_, fun op => multiplicative_follows op l r⟩
  split
  case isTrue hs =>
    have hb := not_isBeyond_of_negatesFirst implicit hs
    rw [evaluate_eq_apply fun h => Bool.false_ne_true (hb.symm.trans h.2)]
    exact additive_negatesFirst implicit hs
  case isFalse hs =>
    split
    case isTrue hb =>
      obtain ⟨rfl, hb⟩ := hb
      exact placing_of_beyond hb _
    case isFalse hb =>
      rw [evaluate_eq_apply hb]
      exact ⟨additive_follows op implicit l r (Bool.eq_false_iff.2 hs),
        additive_overflows op implicit l r⟩

theorem time_minus_least_months :
    let noon : Item := .time ⟨43200, 0, by decide, by decide⟩ none
    let months : Item := .yearMonthDuration Int32.minValue
    AdditiveOp.row .subtract noon.type months.type = [] ∧
      AdditiveOp.evaluate .subtract .utc noon months ≠ .ok none := by
  refine ⟨by decide, ?_⟩
  have h : AdditiveOp.evaluate .subtract .utc (.time ⟨43200, 0, by decide, by decide⟩ none)
      (.yearMonthDuration Int32.minValue) = .error (.of .pointOverflow) := by rfl
  exact h ▸ nofun

end PullQuery
