namespace PullQuery.Word

def Fits (n : Int) : Prop := -2_147_483_648 ≤ n ∧ n < 2_147_483_648

instance (n : Int) : Decidable (Fits n) := inferInstanceAs (Decidable (_ ∧ _))

def ofInt? (n : Int) : Option Int32 := if Fits n then some (Int32.ofInt n) else none

theorem toInt_ofInt {n : Int} (h : Fits n) : (Int32.ofInt n).toInt = n :=
  Int32.toInt_ofInt_of_le h.1 h.2

theorem fits_toInt (w : Int32) : Fits w.toInt := ⟨w.le_toInt, w.toInt_lt⟩

theorem ofInt?_eq_some_iff {n : Int} {w : Int32} : ofInt? n = some w ↔ w.toInt = n := by
  unfold ofInt?
  constructor
  · intro h
    split at h
    case isTrue hn =>
      cases h
      exact toInt_ofInt hn
    case isFalse => cases h
  · rintro rfl
    simp [fits_toInt]

@[simp] theorem ofInt?_toInt (w : Int32) : ofInt? w.toInt = some w := ofInt?_eq_some_iff.2 rfl

theorem ofInt?_eq_none_iff {n : Int} : ofInt? n = none ↔ ¬Fits n := by
  unfold ofInt?
  split <;> simp_all

end PullQuery.Word
