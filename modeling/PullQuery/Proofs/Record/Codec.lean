import PullQuery.Record.Codec
import PullQuery.Proofs.Record

namespace PullQuery.Codec

inductive Use
  | encode (items : Items)
  | decode (bytes : ByteArray)
  | rehydrate

def use (c : Codec) : Use → Codec
  | .encode items => (c.encode items).state
  | .decode bytes => (c.decode bytes).state
  | .rehydrate => c.rehydrate

def after (c : Codec) (history : List Use) : Codec := history.foldl use c

theorem encode_value (c : Codec) (items : Items) : (c.encode items).value = Record.encode items :=
  ByteArray.empty_append

theorem decode_value (c : Codec) (bytes : ByteArray) :
    (c.decode bytes).value = Record.decode bytes := rfl

/-- Whatever a codec was used for before it writes items, and between that and reading them back,
the items come back equal and with their fields in the same order. -/
theorem round_trip (before between : List Use) {items : Items} (h : Item.KeptMembers items)
    (hd : (Json.array (Record.ofItems items)).depth ≤ Json.mostDepth) :
    ∃ back, ((((fresh.after before).encode items).state.after between).decode
        ((fresh.after before).encode items).value).value = .ok back ∧
      Item.sameMembers items back = true ∧ Item.AlikeMembers items back := by
  obtain ⟨back, hb, ha⟩ := Record.decode_encode h hd
  refine ⟨back, ?_, ha.same h, ha⟩
  rw [decode_value, encode_value, hb]

def sample : Items :=
  [.decimal ⟨1250, 2⟩, .object [("b", .array ⟨[.int 1, .null]⟩), ("a", .yearMonthDuration 26)]]

theorem round_trip_of_sample :
    ∃ back, ((((fresh.after [.encode [.null], .rehydrate]).encode sample).state.after
        [.decode .empty]).decode
          ((fresh.after [.encode [.null], .rehydrate]).encode sample).value).value = .ok back ∧
      Item.sameMembers sample back = true ∧ Item.AlikeMembers sample back :=
  have hk : Item.KeptMembers sample :=
    ⟨(by decide : Decimal.ScaleBounded 2), ⟨(by decide : ["b", "a"].Nodup),
      ⟨trivial, trivial, trivial⟩, (by decide : (26 : Int32) ≠ Int32.minValue), trivial⟩, trivial⟩
  round_trip [.encode [.null], .rehydrate] [.decode .empty] hk (by decide)

theorem decode_of_deep (c c' : Codec) {items : Items} (h : Item.KeptMembers items)
    (hd : Json.mostDepth < (Json.array (Record.ofItems items)).depth) :
    (c'.decode (c.encode items).value).value = .error (.of .unreadable) := by
  rw [decode_value, encode_value, Record.decode_encode_eq h, if_neg (Nat.not_le.2 hd)]

end PullQuery.Codec
