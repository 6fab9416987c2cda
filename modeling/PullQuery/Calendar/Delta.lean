namespace PullQuery

def Delta.limit : Int := 9_223_372_036_854_775_807 * 1_000_000

structure Delta where
  nanos : Int
  bounded : -Delta.limit ≤ nanos ∧ nanos ≤ Delta.limit
deriving DecidableEq

namespace Delta

def zero : Delta := ⟨0, by decide⟩

def ofNanos? (n : Int) : Option Delta :=
  if h : -limit ≤ n ∧ n ≤ limit then some ⟨n, h⟩ else none

def perSecond : Int := 1_000_000_000

def ofParts? (seconds nanos : Int) : Option Delta := ofNanos? (seconds * perSecond + nanos)

def neg (d : Delta) : Delta := ⟨-d.nanos, by have := d.bounded; omega⟩

def seconds (d : Delta) : Int := d.nanos.tdiv perSecond

def subsecond (d : Delta) : Int := d.nanos.tmod perSecond

theorem ofNanos?_eq_some_iff {n : Int} {d : Delta} : ofNanos? n = some d ↔ d.nanos = n := by
  unfold ofNanos?
  constructor
  · intro h
    split at h
    case isTrue => cases h; rfl
    case isFalse => cases h
  · rintro rfl
    exact dif_pos d.bounded

theorem seconds_subsecond (d : Delta) : d.seconds * perSecond + d.subsecond = d.nanos :=
  Int.tdiv_mul_add_tmod d.nanos perSecond

end Delta

end PullQuery
