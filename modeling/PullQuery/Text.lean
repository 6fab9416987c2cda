namespace PullQuery.Text

def isBlank (c : Char) : Bool :=
  let n := c.toNat
  (9 ≤ n && n ≤ 13) || n == 0x20 || n == 0x85 || n == 0xA0 || n == 0x1680
    || (0x2000 ≤ n && n ≤ 0x200A) || n == 0x2028 || n == 0x2029 || n == 0x202F
    || n == 0x205F || n == 0x3000

def trim (cs : List Char) : List Char :=
  ((cs.dropWhile isBlank).reverse.dropWhile isBlank).reverse

theorem dropWhile_isBlank {cs : List Char} (h : ∀ c ∈ cs, isBlank c = false) :
    cs.dropWhile isBlank = cs := by
  cases cs with
  | nil => rfl
  | cons c cs => rw [List.dropWhile_cons_of_neg (by simp [h c List.mem_cons_self])]

theorem trim_eq_self {cs : List Char} (h : ∀ c ∈ cs, isBlank c = false) : trim cs = cs := by
  unfold trim
  rw [dropWhile_isBlank h, dropWhile_isBlank fun c hc => h c (List.mem_reverse.1 hc),
    List.reverse_reverse]

end PullQuery.Text

namespace PullQuery.Numeral

def read (ds : List Char) : Nat := Nat.ofDigitChars 10 ds 0

def write (n : Nat) : List Char := Nat.toDigits 10 n

def padded (width n : Nat) : List Char := (write n).leftpad width '0'

def signed : Int → List Char
  | .ofNat n => write n
  | .negSucc n => '-' :: write (n + 1)

def digits? (cs : List Char) : Option Nat :=
  if cs ≠ [] ∧ cs.all Char.isDigit then some (read cs) else none

def signed? : List Char → Option Int
  | '-' :: cs => (digits? cs).map fun n : Nat => -(n : Int)
  | '+' :: cs => (digits? cs).map fun n : Nat => (n : Int)
  | cs => (digits? cs).map fun n : Nat => (n : Int)

/-- A digit, then digits and underscores; the underscores carry no value. -/
def grouped? : List Char → Option Nat
  | [] => none
  | c :: cs =>
    if c.isDigit && cs.all (fun d => d.isDigit || d == '_') then
      some (read (c :: cs.filter Char.isDigit))
    else none

def integer? : List Char → Option Int
  | '-' :: cs => (grouped? cs).map fun n : Nat => -(n : Int)
  | '+' :: cs => (grouped? cs).map fun n : Nat => (n : Int)
  | cs => (grouped? cs).map fun n : Nat => (n : Int)

theorem read_write (n : Nat) : read (write n) = n := Nat.ofDigitChars_ten_toDigits

end PullQuery.Numeral
