import PullQuery.Record
import PullQuery.Proofs.Calendar.Lexical
import PullQuery.Proofs.Duration.Printing
import PullQuery.Proofs.Json.Reading
import PullQuery.Proofs.Number.Decimal

namespace PullQuery

namespace Item

mutual

def Alike : Item → Item → Prop
  | .decimal d, b => ∃ e, b = .decimal e ∧ d.sameValue e = true
  | .object fields, b => ∃ gs, b = .object gs ∧ AlikeFields fields gs
  | .array ⟨members⟩, b => ∃ ns, b = .array ⟨ns⟩ ∧ AlikeMembers members ns
  | a, b => b = a

def AlikeFields : List (String × Item) → List (String × Item) → Prop
  | [], gs => gs = []
  | (k, v) :: fs, gs => ∃ w gs', gs = (k, w) :: gs' ∧ v.Alike w ∧ AlikeFields fs gs'

def AlikeMembers : List Item → List Item → Prop
  | [], bs => bs = []
  | a :: as, bs => ∃ b bs', bs = b :: bs' ∧ a.Alike b ∧ AlikeMembers as bs'

end

mutual

/-- The items that records keep: no floating-point number, no month count without an opposite, no
duration with parts of opposite signs, no year of five digits, no zone that is not written in full.
Scales have 64 bits and objects have each name once. -/
def Kept : Item → Prop
  | .double _ | .float _ => False
  | .decimal d => Decimal.ScaleBounded d.scale
  | .date d zone => d.year ≤ 9999 ∧ ∀ z ∈ zone, z.IsWritten
  | .time _ zone => ∀ z ∈ zone, z.IsWritten
  | .dateTime p zone => p.date.year ≤ 9999 ∧ ∀ z ∈ zone, z.IsWritten
  | .duration d => d.months ≠ Int32.minValue ∧ d.SameSign
  | .yearMonthDuration m => m ≠ Int32.minValue
  | .object fields => (Fields.names fields).Nodup ∧ KeptFields fields
  | .array ⟨members⟩ => KeptMembers members
  | _ => True

def KeptFields : List (String × Item) → Prop
  | [] => True
  | (_, a) :: fs => a.Kept ∧ KeptFields fs

def KeptMembers : List Item → Prop
  | [] => True
  | a :: as => a.Kept ∧ KeptMembers as

end

theorem AlikeFields.names : ∀ {fs gs : List (String × Item)}, AlikeFields fs gs →
    Fields.names gs = Fields.names fs
  | [], _, h => by
    rw [AlikeFields] at h
    rw [h]
  | (k, _) :: _, _, h => by
    rw [AlikeFields] at h
    obtain ⟨w, gs, rfl, -, h⟩ := h
    exact congrArg (k :: ·) h.names

theorem sameFields_iff {fs gs : List (String × Item)} : sameFields fs gs = true ↔
    ∀ f ∈ fs, ∃ w, Fields.find? f.1 gs = some w ∧ same f.2 w = true := by
  induction fs with
  | nil => simp [sameFields]
  | cons f fs ih =>
    rw [List.forall_mem_cons, ← ih, sameFields]
    cases Fields.find? f.1 gs with
    | none => simp
    | some w => simp

theorem same_of_eq {a b : Item} (h : b = a) (hs : a.same a = true) : a.same b = true := h ▸ hs

mutual

theorem Alike.same : ∀ {a b : Item}, a.Kept → a.Alike b → a.same b = true
  | .null, _, _, h => same_of_eq h (by rw [Item.same])
  | .boolean _, _, _, h => same_of_eq h (by rw [Item.same, beq_self_eq_true])
  | .string _, _, _, h => same_of_eq h (by rw [Item.same, beq_self_eq_true])
  | .int _, _, _, h => same_of_eq h (by rw [Item.same, beq_self_eq_true])
  | .integer _, _, _, h => same_of_eq h (by rw [Item.same, beq_self_eq_true])
  | .decimal _, _, _, h => by
    rw [Alike] at h
    obtain ⟨e, rfl, h⟩ := h
    rwa [Item.same]
  | .date .., _, _, h =>
    same_of_eq h (by rw [Item.same, beq_self_eq_true, beq_self_eq_true, Bool.and_self])
  | .time .., _, _, h =>
    same_of_eq h (by rw [Item.same, beq_self_eq_true, beq_self_eq_true, Bool.and_self])
  | .dateTime .., _, _, h =>
    same_of_eq h (by rw [Item.same, beq_self_eq_true, beq_self_eq_true, Bool.and_self])
  | .duration _, _, _, h => same_of_eq h (by rw [Item.same, beq_self_eq_true])
  | .yearMonthDuration _, _, _, h => same_of_eq h (by rw [Item.same, beq_self_eq_true])
  | .dayTimeDuration _, _, _, h => same_of_eq h (by rw [Item.same, beq_self_eq_true])
  | .object fs, _, hk, h => by
    rw [Kept] at hk
    rw [Alike] at h
    obtain ⟨gs, rfl, h⟩ := h
    have hlen : fs.length = gs.length := by
      have := congrArg List.length h.names
      rwa [Fields.names, Fields.names, List.length_map, List.length_map, eq_comm] at this
    have hnames : (Fields.names gs).Nodup := h.names ▸ hk.1
    rw [Item.same, hlen, beq_self_eq_true, Bool.true_and, sameFields_iff]
    intro f hf
    obtain ⟨w, hw, hs⟩ := h.same hk.2 f hf
    exact ⟨w, Fields.find?_of_mem hnames hw, hs⟩
  | .array ⟨_⟩, _, hk, h => by
    rw [Kept] at hk
    rw [Alike] at h
    obtain ⟨ns, rfl, h⟩ := h
    rw [Item.same]
    exact h.same hk

theorem AlikeFields.same : ∀ {fs gs : List (String × Item)}, AlikeFields fs gs → KeptFields fs →
    ∀ f ∈ fs, ∃ w, (f.1, w) ∈ gs ∧ f.2.same w = true
  | [], _, _, _ => nofun
  | (_, _) :: _, _, h, hk => by
    rw [KeptFields] at hk
    rw [AlikeFields] at h
    obtain ⟨w, gs, rfl, ha, h⟩ := h
    refine List.forall_mem_cons.2 ⟨⟨w, List.mem_cons_self, ha.same hk.1⟩, fun f hf => ?_⟩
    obtain ⟨w', hw, hs⟩ := h.same hk.2 f hf
    exact ⟨w', List.mem_cons_of_mem _ hw, hs⟩

theorem AlikeMembers.same : ∀ {as bs : List Item}, AlikeMembers as bs → KeptMembers as →
    sameMembers as bs = true
  | [], _, h, _ => by
    rw [AlikeMembers] at h
    rw [h, sameMembers]
  | _ :: _, _, h, hk => by
    rw [KeptMembers] at hk
    rw [AlikeMembers] at h
    obtain ⟨b, bs, rfl, ha, h⟩ := h
    rw [sameMembers, ha.same hk.1, h.same hk.2, Bool.and_self]

end

end Item

namespace Record

variable {type : ItemType}

theorem regular_tagged {value : Json} (h : value.Regular) : (tagged type value).Regular := by
  have hn : ["type", "value"].Nodup := by decide
  rw [tagged, Json.Regular, Json.RegularFields, Json.RegularFields, Json.RegularFields]
  exact ⟨hn, trivial, h, trivial⟩

theorem number?_ofInt (i : Int32) :
    (Json.Literal.ofInt i.toInt).number? = some (.integer i.toInt) := by
  obtain ⟨hl, hu⟩ := Word.fits_toInt i
  rw [Json.Literal.number?, Json.Literal.integer?_ofInt]
  · exact Int.le_trans (by decide) hl
  · exact Int.lt_trans hu (by decide)

theorem names_ofFields (fs : List (String × Item)) :
    Fields.names (ofFields fs) = Fields.names fs := by
  induction fs with
  | nil => rfl
  | cons f fs ih =>
    rw [ofFields]
    exact congrArg _ ih

mutual

theorem regular_ofItem : ∀ {a : Item}, a.Kept → (ofItem a).Regular
  | .null, _ => regular_tagged trivial
  | .boolean _, _ => regular_tagged trivial
  | .string _, _ => regular_tagged trivial
  | .int i, _ => by
    refine regular_tagged ?_
    rw [Json.Regular, number?_ofInt]
    exact ⟨Json.Literal.ofInt_spelled _, rfl⟩
  | .integer _, _ => regular_tagged trivial
  | .decimal _, _ => regular_tagged trivial
  | .date .., _ => regular_tagged trivial
  | .time .., _ => regular_tagged trivial
  | .dateTime .., _ => regular_tagged trivial
  | .duration _, _ => regular_tagged trivial
  | .yearMonthDuration _, _ => regular_tagged trivial
  | .dayTimeDuration _, _ => regular_tagged trivial
  | .object fields, h => by
    rw [Item.Kept] at h
    rw [ofItem]
    refine regular_tagged ?_
    rw [Json.Regular, names_ofFields]
    exact ⟨h.1, regular_ofFields h.2⟩
  | .array ⟨members⟩, h => by
    rw [Item.Kept] at h
    rw [ofItem]
    refine regular_tagged ?_
    rw [Json.Regular]
    exact regular_ofItems h

theorem regular_ofItems : ∀ {as : List Item}, Item.KeptMembers as →
    Json.RegularElements (ofItems as)
  | [], _ => trivial
  | _ :: _, h => by
    rw [Item.KeptMembers] at h
    rw [ofItems, Json.RegularElements]
    exact ⟨regular_ofItem h.1, regular_ofItems h.2⟩

theorem regular_ofFields : ∀ {fs : List (String × Item)}, Item.KeptFields fs →
    Json.RegularFields (ofFields fs)
  | [], _ => trivial
  | (_, _) :: _, h => by
    rw [Item.KeptFields] at h
    rw [ofFields, Json.RegularFields]
    exact ⟨regular_ofItem h.1, regular_ofFields h.2⟩

end

theorem ofName?_name (t : ItemType) : ItemType.ofName? t.name = some t := by
  cases t <;> decide

theorem toItem_tagged (value : Json) : toItem (tagged type value) = ofValue type.name value := by
  have hf : Fields.find? "type" [("type", Json.string type.name), ("value", value)] =
      some (.string type.name) := if_pos rfl
  have hne : ¬"type" = "value" := by decide
  rw [tagged, toItem, hf]
  change valueOf type.name _ = _
  rw [valueOf, if_neg hne, valueOf, if_pos rfl]

theorem toItem_tagged_string (s : String) :
    toItem (tagged type (.string s)) = atomic type (.string s) := by
  rw [toItem_tagged, ofValue, ofName?_name]

theorem parsed_string {parse? : String → Option Item} {s : String} {a : Item}
    (h : parse? s = some a) : parsed type parse? (.string s) = .ok a := by
  unfold parsed lexical?
  simp only [Except.bind, h]

theorem parsedDuration_string {kind : Duration.Kind} {s : String} {d : Duration}
    (h : Duration.parse? kind s = some d) :
    parsedDuration type kind (.string s) = .ok (.ofDuration kind d) :=
  parsed_string (by rw [h]; rfl)

section Atomic

open Item

theorem toItem_decimal {d : Decimal} (h : Decimal.ScaleBounded d.scale) :
    toItem (ofItem (.decimal d)) = .ok (.decimal d.reread) := by
  rw [ofItem, toItem_tagged_string]
  refine parsed_string ?_
  rw [String.toList_ofList, Decimal.parse?_lexical h]
  rfl

theorem toItem_int (i : Int32) : toItem (ofItem (.int i)) = .ok (.int i) := by
  have hw : word? (.number (.ofInt i.toInt)) = some i := by
    rw [word?, number?_ofInt]
    exact Word.ofInt?_toInt i
  rw [ofItem, toItem_tagged, ofValue, ofName?_name]
  dsimp only [atomic]
  rw [hw]

theorem toItem_integer (n : Int) : toItem (ofItem (.integer n)) = .ok (.integer n) := by
  rw [ofItem, toItem_tagged_string]
  refine parsed_string ?_
  rw [String.toList_ofList, Numeral.integer?_signed]
  rfl

theorem toItem_date {d : Date} {zone : Option Zone} (h : (Item.date d zone).Kept) :
    toItem (ofItem (.date d zone)) = .ok (.date d zone) := by
  rw [Kept] at h
  rw [ofItem, toItem_tagged_string]
  refine parsed_string ?_
  rw [Date.parse?_text h.1 h.2]
  rfl

theorem toItem_time {t : Clock} {zone : Option Zone} (h : (Item.time t zone).Kept) :
    toItem (ofItem (.time t zone)) = .ok (.time t zone) := by
  rw [Kept] at h
  rw [ofItem, toItem_tagged_string]
  refine parsed_string ?_
  rw [Clock.parse?_text t h]
  rfl

theorem toItem_dateTime {p : DateTime} {zone : Option Zone} (h : (Item.dateTime p zone).Kept) :
    toItem (ofItem (.dateTime p zone)) = .ok (.dateTime p zone) := by
  rw [Kept] at h
  rw [ofItem, toItem_tagged_string]
  refine parsed_string ?_
  rw [DateTime.parse?_text h.1 h.2]
  rfl

theorem toItem_duration {d : Duration} (h : (Item.duration d).Kept) :
    toItem (ofItem (.duration d)) = .ok (.duration d) := by
  rw [Kept] at h
  rw [ofItem, toItem_tagged_string]
  exact parsedDuration_string (Duration.parse?_fullLexical h.1 h.2)

theorem toItem_yearMonthDuration {m : Int32} (h : m ≠ Int32.minValue) :
    toItem (ofItem (.yearMonthDuration m)) = .ok (.yearMonthDuration m) := by
  rw [ofItem, toItem_tagged_string]
  exact parsedDuration_string (Duration.parse?_monthsLexical h)

theorem toItem_dayTimeDuration (d : Delta) :
    toItem (ofItem (.dayTimeDuration d)) = .ok (.dayTimeDuration d) := by
  rw [ofItem, toItem_tagged_string]
  exact parsedDuration_string (Duration.parse?_deltaLexical d)

end Atomic

mutual

theorem toItem_ofItem : ∀ {a : Item}, a.Kept → ∃ b, toItem (ofItem a) = .ok b ∧ a.Alike b
  | .null, _ => ⟨.null, by rw [ofItem, toItem_tagged, ofValue, ofName?_name]; rfl, rfl⟩
  | .boolean b, _ => ⟨.boolean b, by rw [ofItem, toItem_tagged, ofValue, ofName?_name]; rfl, rfl⟩
  | .string s, _ => ⟨.string s, by rw [ofItem, toItem_tagged_string]; rfl, rfl⟩
  | .int i, _ => ⟨_, toItem_int i, rfl⟩
  | .integer n, _ => ⟨_, toItem_integer n, rfl⟩
  | .decimal d, h => by
    rw [Item.Kept] at h
    exact ⟨_, toItem_decimal h, _, rfl, d.sameValue_reread⟩
  | .date .., h => ⟨_, toItem_date h, rfl⟩
  | .time .., h => ⟨_, toItem_time h, rfl⟩
  | .dateTime .., h => ⟨_, toItem_dateTime h, rfl⟩
  | .duration _, h => ⟨_, toItem_duration h, rfl⟩
  | .yearMonthDuration _, h => by
    rw [Item.Kept] at h
    exact ⟨_, toItem_yearMonthDuration h, rfl⟩
  | .dayTimeDuration d, _ => ⟨_, toItem_dayTimeDuration d, rfl⟩
  | .object fields, h => by
    rw [Item.Kept] at h
    obtain ⟨gs, hg, ha⟩ := toFields_ofFields h.2
    refine ⟨.object gs, ?_, ⟨gs, rfl, ha⟩⟩
    rw [ofItem, toItem_tagged, ofValue, ofName?_name]
    dsimp only
    rw [if_pos rfl, hg]
    rfl
  | .array ⟨members⟩, h => by
    rw [Item.Kept] at h
    obtain ⟨bs, hb, ha⟩ := toItems_ofItems h
    refine ⟨.array ⟨bs⟩, ?_, ⟨bs, rfl, ha⟩⟩
    rw [ofItem, toItem_tagged, ofValue, ofName?_name]
    dsimp only
    rw [if_pos rfl, hb]
    rfl

theorem toItems_ofItems : ∀ {as : List Item}, Item.KeptMembers as →
    ∃ bs, toItems (ofItems as) = .ok bs ∧ Item.AlikeMembers as bs
  | [], _ => ⟨[], rfl, rfl⟩
  | _ :: _, h => by
    rw [Item.KeptMembers] at h
    obtain ⟨b, hb, ha⟩ := toItem_ofItem h.1
    obtain ⟨bs, hbs, has⟩ := toItems_ofItems h.2
    refine ⟨b :: bs, ?_, ⟨b, bs, rfl, ha, has⟩⟩
    rw [ofItems, toItems, hb, hbs]
    rfl

theorem toFields_ofFields : ∀ {fs : List (String × Item)}, Item.KeptFields fs →
    ∃ gs, toFields (ofFields fs) = .ok gs ∧ Item.AlikeFields fs gs
  | [], _ => ⟨[], rfl, rfl⟩
  | (k, _) :: _, h => by
    rw [Item.KeptFields] at h
    obtain ⟨b, hb, ha⟩ := toItem_ofItem h.1
    obtain ⟨gs, hgs, has⟩ := toFields_ofFields h.2
    refine ⟨(k, b) :: gs, ?_, ⟨b, gs, rfl, ha, has⟩⟩
    rw [ofFields, toFields, hb, hgs]
    rfl

end

theorem fromUTF8?_toUTF8 (s : String) : String.fromUTF8? s.toUTF8 = some s := by
  unfold String.fromUTF8?
  rw [String.toUTF8_eq_toByteArray, dif_pos s.isValidUTF8]
  rfl

theorem decode_encode_eq {items : Items} (h : Item.KeptMembers items) : decode (encode items) =
    if (Json.array (ofItems items)).depth ≤ Json.mostDepth then toItems (ofItems items)
    else .error (.of .unreadable) := by
  have hr : (Json.array (ofItems items)).Regular := by
    rw [Json.Regular]
    exact regular_ofItems h
  rw [decode, encode, fromUTF8?_toUTF8, Option.bind_some, Json.read?_text hr]
  by_cases hd : (Json.array (ofItems items)).depth ≤ Json.mostDepth
  · rw [if_pos hd, if_pos hd]
  · rw [if_neg hd, if_neg hd]

theorem decode_encode {items : Items} (h : Item.KeptMembers items)
    (hd : (Json.array (ofItems items)).depth ≤ Json.mostDepth) :
    ∃ back, decode (encode items) = .ok back ∧ Item.AlikeMembers items back := by
  rw [decode_encode_eq h, if_pos hd]
  exact toItems_ofItems h

end Record

end PullQuery
