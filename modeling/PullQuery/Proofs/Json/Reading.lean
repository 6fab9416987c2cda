import PullQuery.Proofs.Json.Literal
import PullQuery.Proofs.Json.Quoted

namespace PullQuery.Json

mutual

def depth : Json → Nat
  | .array elements => depthElements elements + 1
  | .object fields => depthFields fields + 1
  | _ => 0

def depthElements : List Json → Nat
  | [] => 0
  | v :: vs => max v.depth (depthElements vs)

def depthFields : List (String × Json) → Nat
  | [] => 0
  | (_, v) :: fs => max v.depth (depthFields fs)

end

mutual

/-- Every number is spelled as JSON has it and in range, and no object repeats a name. -/
def Regular : Json → Prop
  | .number l => l.Spelled ∧ l.number?.isSome = true
  | .array elements => RegularElements elements
  | .object fields => (Fields.names fields).Nodup ∧ RegularFields fields
  | _ => True

def RegularElements : List Json → Prop
  | [] => True
  | v :: vs => v.Regular ∧ RegularElements vs

def RegularFields : List (String × Json) → Prop
  | [] => True
  | (_, v) :: fs => v.Regular ∧ RegularFields fs

end

theorem skipSpace_cons {c : Char} (h : isSpace c = false) (cs : List Char) :
    skipSpace (c :: cs) = c :: cs :=
  List.dropWhile_cons_of_neg (by simp [h])

theorem skipSpace_space (cs : List Char) : skipSpace (' ' :: cs) = skipSpace cs :=
  List.dropWhile_cons_of_pos rfl

theorem skipSpace_append {text : List Char} (h : skipSpace text ≠ []) (rest : List Char) :
    skipSpace (text ++ rest) = skipSpace text ++ rest := by
  unfold skipSpace at h ⊢
  rw [List.dropWhile_append, if_neg (mt List.isEmpty_iff.1 h)]

theorem skipSpace_skipSpace (cs : List Char) : skipSpace (skipSpace cs) = skipSpace cs := by
  induction cs with
  | nil => rfl
  | cons c cs ih =>
    cases h : isSpace c with
    | false => rw [skipSpace_cons h, skipSpace_cons h]
    | true =>
      have hc : skipSpace (c :: cs) = skipSpace cs := List.dropWhile_cons_of_pos h
      rw [hc, ih]

def commas : List (List Char) → List Char
  | [] => []
  | [t] => t
  | t :: ts => t ++ ',' :: commas ts

theorem commas_cons_cons (t u : List Char) (ts : List (List Char)) :
    commas (t :: u :: ts) = t ++ ',' :: commas (u :: ts) := rfl

def fieldText (f : String × Json) : List Char := Quoted.encode f.1.toList ++ ':' :: f.2.write

theorem writeElements_eq (vs : List Json) : writeElements vs = commas (vs.map write) := by
  induction vs with
  | nil => rfl
  | cons v vs ih =>
    cases vs with
    | nil => rfl
    | cons w vs =>
      change v.write ++ ',' :: writeElements (w :: vs) = _
      rw [ih]
      rfl

theorem writeFields_eq (fs : List (String × Json)) :
    writeFields fs = commas (fs.map fieldText) := by
  induction fs with
  | nil => rfl
  | cons f fs ih =>
    cases fs with
    | nil => rfl
    | cons g fs =>
      change fieldText f ++ ',' :: writeFields (g :: fs) = _
      rw [ih]
      rfl

section Separated

variable {ι α : Type} {element? : List Char → Option (α × List Char)} {close : Char}
  {written : ι → List Char} {value : ι → α} {fits : ι → Prop} [DecidablePred fits]
  {tail rest : List Char}

theorem separated?_of_none {cs : List Char} (h : element? cs = none) (n : Nat) :
    separated? element? close n cs = none := by
  cases n with
  | zero => rfl
  | succ n =>
    rw [separated?, h]
    rfl

theorem separated?_of_last (hclose : close = ']' ∨ close = '}') (ht : skipSpace tail = close :: rest)
    {cs : List Char} {a : α} (h : element? cs = some (a, tail)) (n : Nat) :
    separated? element? close (n + 1) cs = some ([a], rest) := by
  rw [separated?, h, Option.bind_eq_bind, Option.bind_some]
  dsimp only
  rw [ht]
  obtain rfl | rfl := hclose <;> rfl

theorem separated?_of_comma {cs : List Char} {a : α} (h : element? cs = some (a, ',' :: rest))
    (n : Nat) : separated? element? close (n + 1) cs =
      (separated? element? close n rest).map (Prod.map (a :: ·) id) := by
  rw [separated?, h]
  change (separated? element? close n rest).bind (fun p => some (a :: p.1, p.2)) = _
  cases separated? element? close n rest <;> rfl

theorem separated?_skipSpace (hskip : ∀ cs, element? (skipSpace cs) = element? cs) (n : Nat)
    (cs : List Char) :
    separated? element? close n (skipSpace cs) = separated? element? close n cs := by
  cases n with
  | zero => rfl
  | succ n => rw [separated?, separated?, hskip]

theorem separated?_commas (hclose : close = ']' ∨ close = '}') (hc : Closed tail)
    (ht : skipSpace tail = close :: rest) {as : List ι} (hne : as ≠ [])
    (h : ∀ a ∈ as, ∀ rest, Closed rest →
      element? (written a ++ rest) = if fits a then some (value a, rest) else none)
    {n : Nat} (hn : as.length ≤ n) :
    separated? element? close n (commas (as.map written) ++ tail) =
      if ∀ a ∈ as, fits a then some (as.map value, rest) else none := by
  induction as generalizing n with
  | nil => exact absurd rfl hne
  | cons a as ih =>
    obtain ⟨n, rfl⟩ : ∃ m, n = m + 1 := ⟨n - 1, by rw [List.length_cons] at hn; omega⟩
    have hfails (hf : ¬fits a) : ¬∀ b ∈ a :: as, fits b := fun hall =>
      hf (hall a List.mem_cons_self)
    cases as with
    | nil =>
      have ha := h a List.mem_cons_self tail hc
      change separated? element? close (n + 1) (written a ++ tail) = _
      by_cases hf : fits a
      · rw [if_pos hf] at ha
        rw [separated?_of_last hclose ht ha, if_pos fun b hb => List.mem_singleton.1 hb ▸ hf]
        rfl
      · rw [if_neg hf] at ha
        rw [separated?_of_none ha, if_neg (hfails hf)]
    | cons b as =>
      have ha := h a List.mem_cons_self _
        (.cons (.inr (.inl rfl)) (commas ((b :: as).map written) ++ tail))
      have htail := ih (List.cons_ne_nil b as) (fun c hc => h c (List.mem_cons_of_mem a hc))
        (Nat.le_of_succ_le_succ hn)
      rw [List.map_cons, List.map_cons, commas_cons_cons, List.append_assoc, List.cons_append,
        ← List.map_cons]
      by_cases hf : fits a
      · rw [if_pos hf] at ha
        rw [separated?_of_comma ha, htail]
        by_cases hall : ∀ c ∈ b :: as, fits c
        · rw [if_pos hall, if_pos (List.forall_mem_cons.2 ⟨hf, hall⟩)]
          rfl
        · rw [if_neg hall, if_neg fun hs => hall (List.forall_mem_cons.1 hs).2]
          rfl
      · rw [if_neg hf] at ha
        rw [separated?_of_none ha, if_neg (hfails hf)]

def Leads (close : Char) (text : List Char) : Prop :=
  ∃ c cs, skipSpace text = c :: cs ∧ c ≠ close

theorem Leads.of_cons {c : Char} (hs : isSpace c = false) (hc : c ≠ close) (cs : List Char) :
    Leads close (c :: cs) :=
  ⟨c, cs, skipSpace_cons hs cs, hc⟩

theorem Leads.space {text : List Char} (h : Leads close text) : Leads close (' ' :: text) := by
  obtain ⟨c, cs, ht, hc⟩ := h
  exact ⟨c, cs, (skipSpace_space text).trans ht, hc⟩

theorem Leads.skipSpace_ne_nil {text : List Char} (h : Leads close text) : skipSpace text ≠ [] := by
  obtain ⟨c, cs, ht, -⟩ := h
  rw [ht]
  exact List.cons_ne_nil c cs

theorem Leads.append {text : List Char} (h : Leads close text) (rest : List Char) :
    Leads close (text ++ rest) := by
  have happ := skipSpace_append h.skipSpace_ne_nil rest
  obtain ⟨c, cs, ht, hc⟩ := h
  exact ⟨c, cs ++ rest, by rw [happ, ht, List.cons_append], hc⟩

theorem length_le_commas {ts : List (List Char)} (h : ∀ t ∈ ts, t ≠ []) :
    ts.length ≤ (commas ts).length := by
  induction ts with
  | nil => exact Nat.le_refl 0
  | cons t ts ih =>
    have ht : 0 < t.length := List.length_pos_iff.2 (h t List.mem_cons_self)
    cases ts with
    | nil => exact ht
    | cons u ts =>
      have := ih fun t ht => h t (List.mem_cons_of_mem _ ht)
      rw [commas_cons_cons, List.length_append, List.length_cons, List.length_cons (a := ',')]
      omega

theorem skipSpace_commas {t : List Char} (h : skipSpace t ≠ []) (ts : List (List Char)) :
    skipSpace (commas (t :: ts)) = commas (skipSpace t :: ts) := by
  cases ts with
  | nil => rfl
  | cons u ts => rw [commas_cons_cons, commas_cons_cons, skipSpace_append h]

theorem Leads.commas {t : List Char} (h : Leads close t) (ts : List (List Char)) :
    Leads close (commas (t :: ts)) := by
  cases ts with
  | nil => exact h
  | cons u ts =>
    rw [commas_cons_cons]
    exact h.append _

theorem enclosed?_commas (hclose : close = ']' ∨ close = '}')
    (hskip : ∀ cs, element? (skipSpace cs) = element? cs) (hc : Closed tail)
    (ht : skipSpace tail = close :: rest) {as : List ι}
    (h : ∀ a ∈ as, ∀ rest, Closed rest →
      element? (written a ++ rest) = if fits a then some (value a, rest) else none)
    (hleads : ∀ a ∈ as, Leads close (written a)) :
    enclosed? element? close (commas (as.map written) ++ tail) =
      if ∀ a ∈ as, fits a then some (as.map value, rest) else none := by
  cases as with
  | nil =>
    change enclosed? element? close tail = _
    rw [enclosed?, ht]
    dsimp only
    rw [if_pos rfl, if_pos nofun]
    rfl
  | cons a as =>
    have ha := hleads a List.mem_cons_self
    have hlen : (a :: as).length ≤ (skipSpace (commas ((a :: as).map written) ++ tail)).length := by
      have hne : ∀ t ∈ skipSpace (written a) :: as.map written, t ≠ [] := by
        refine List.forall_mem_cons.2 ⟨ha.skipSpace_ne_nil, fun t ht => ?_⟩
        obtain ⟨b, hb, rfl⟩ := List.mem_map.1 ht
        intro hnil
        refine (hleads b (List.mem_cons_of_mem a hb)).skipSpace_ne_nil ?_
        rw [hnil]
        rfl
      have := length_le_commas hne
      rw [List.length_cons, List.length_map] at this
      rw [List.map_cons, skipSpace_append (ha.commas _).skipSpace_ne_nil,
        skipSpace_commas ha.skipSpace_ne_nil, List.length_append, List.length_cons]
      omega
    obtain ⟨c, cs, hcs, hcl⟩ := (ha.commas (as.map written)).append tail
    have hall := separated?_commas hclose hc ht (List.cons_ne_nil a as) h hlen
    rw [← separated?_skipSpace hskip] at hall
    rw [List.map_cons, hcs] at hall
    rw [enclosed?, List.map_cons, hcs, ← hall]
    exact if_neg hcl

end Separated

theorem Literal.Spelled.text_cons {l : Literal} (h : l.Spelled) :
    ∃ c cs, l.text = c :: cs ∧ (c = '-' ∨ c.isDigit = true) := by
  rw [Literal.text_eq]
  split
  · exact ⟨'-', _, rfl, .inl rfl⟩
  · cases hw : l.whole with
    | nil => exact absurd hw h.whole.1
    | cons c cs => exact ⟨c, _, rfl, .inr (h.whole.2 c (hw ▸ List.mem_cons_self))⟩

theorem isSpace_of_leads_number {c : Char} (h : c = '-' ∨ c.isDigit = true) :
    isSpace c = false ∧ c ≠ ']' ∧ c ≠ '}' := by
  obtain rfl | h := h
  · decide
  · have hne (d : Char) (hd : d.isDigit = false) : c ≠ d := by
      rintro rfl
      exact absurd h (by rw [hd]; decide)
    refine ⟨?_, hne _ rfl, hne _ rfl⟩
    simp only [isSpace, Bool.or_eq_false_iff, beq_eq_false_iff_ne]
    exact ⟨⟨⟨hne _ rfl, hne _ rfl⟩, hne _ rfl⟩, hne _ rfl⟩

theorem Regular.spelled {v : Json} (h : v.Regular) : ∀ l, v = .number l → l.Spelled := by
  rintro l rfl
  rw [Regular] at h
  exact h.1

theorem leads_write {v : Json} (h : ∀ l, v = .number l → l.Spelled) {close : Char}
    (hclose : close = ']' ∨ close = '}') : Leads close v.write := by
  have mark {c : Char} (hs : isSpace c = false) (hb : c ≠ ']') (hc : c ≠ '}') (cs : List Char) :
      Leads close (c :: cs) := by
    obtain rfl | rfl := hclose
    · exact .of_cons hs hb cs
    · exact .of_cons hs hc cs
  cases v with
  | null => exact mark (by decide) (by decide) (by decide) _
  | boolean b => cases b <;> exact mark (by decide) (by decide) (by decide) _
  | number l =>
    obtain ⟨c, cs, hl, hc⟩ := (h l rfl).text_cons
    obtain ⟨hs, hb, hc⟩ := isSpace_of_leads_number hc
    rw [write_number, hl]
    exact mark hs hb hc cs
  | string s => exact mark (by decide) (by decide) (by decide) _
  | array vs => exact mark (by decide) (by decide) (by decide) _
  | object fs => exact mark (by decide) (by decide) (by decide) _

theorem value?_of_leads_number {c : Char} (h : c = '-' ∨ c.isDigit = true) (depth : Nat)
    (cs : List Char) : value? depth (c :: cs) =
      (literal? (c :: cs)).bind fun p => some (.number p.1, p.2) := by
  have hne (d : Char) (hd : d ≠ '-') (hd' : d.isDigit = false) : c ≠ d := by
    rintro rfl
    obtain rfl | h := h
    · exact hd rfl
    · exact absurd h (by rw [hd']; decide)
  unfold value?
  rw [skipSpace_cons (isSpace_of_leads_number h).1]
  split
  case h_1 h' => exact absurd (List.cons.inj h').1 (hne _ (by decide) rfl)
  case h_2 h' => exact absurd (List.cons.inj h').1 (hne _ (by decide) rfl)
  case h_3 h' => exact absurd (List.cons.inj h').1 (hne _ (by decide) rfl)
  case h_4 h' => exact absurd (List.cons.inj h').1 (hne _ (by decide) rfl)
  case h_5 h' => exact absurd (List.cons.inj h').1 (hne _ (by decide) rfl)
  case h_6 h' => exact absurd (List.cons.inj h').1 (hne _ (by decide) rfl)
  case h_7 => rfl

theorem value?_skipSpace (depth : Nat) (cs : List Char) :
    value? depth (skipSpace cs) = value? depth cs := by
  unfold value?
  rw [skipSpace_skipSpace]

theorem value?_array (depth : Nat) (cs : List Char) : value? (depth + 1) ('[' :: cs) =
    (enclosed? (value? depth) ']' cs).bind fun p => some (.array p.1, p.2) := rfl

theorem value?_object (depth : Nat) (cs : List Char) : value? (depth + 1) ('{' :: cs) =
    (enclosed? (member? (value? depth)) '}' cs).bind fun p => some (.object p.1, p.2) := rfl

theorem value?_string (depth : Nat) (cs : List Char) : value? depth ('"' :: cs) =
    (Quoted.decode cs).bind fun p => some (.string (String.ofList p.1), p.2) := by
  cases depth <;> rfl

theorem member?_skipSpace {α : Type} (value? : List Char → Option (α × List Char))
    (cs : List Char) : member? value? (skipSpace cs) = member? value? cs := by
  unfold member?
  rw [skipSpace_skipSpace]

theorem member?_name {α : Type} (value? : List Char → Option (α × List Char)) (name : String)
    {gap cs : List Char} (h : skipSpace gap = ':' :: cs) :
    member? value? ('"' :: (name.toList.flatMap Quoted.escape ++ '"' :: gap)) =
      (value? cs).bind fun p => some ((name, p.1), p.2) := by
  unfold member?
  change (Quoted.decode (name.toList.flatMap Quoted.escape ++ '"' :: gap)).bind _ = _
  rw [Quoted.decode_flatMap_escape, Option.bind_some]
  dsimp only
  rw [h, String.ofList_toList]
  rfl

def ReadBack (v : Json) : Prop :=
  ∀ (depth : Nat) (rest : List Char), Closed rest →
    value? depth (v.write ++ rest) = if v.depth ≤ depth then some (v, rest) else none

theorem depthElements_le {vs : List Json} {n : Nat} :
    depthElements vs ≤ n ↔ ∀ v ∈ vs, v.depth ≤ n := by
  induction vs with
  | nil => simp [depthElements]
  | cons v vs ih => rw [depthElements, Nat.max_le, ih, List.forall_mem_cons]

theorem depthFields_le {fs : List (String × Json)} {n : Nat} :
    depthFields fs ≤ n ↔ ∀ f ∈ fs, f.2.depth ≤ n := by
  induction fs with
  | nil => simp [depthFields]
  | cons f fs ih => rw [depthFields, Nat.max_le, ih, List.forall_mem_cons]

theorem regularElements_iff {vs : List Json} : RegularElements vs ↔ ∀ v ∈ vs, v.Regular := by
  induction vs with
  | nil => simp [RegularElements]
  | cons v vs ih => rw [RegularElements, ih, List.forall_mem_cons]

theorem readBack_null : Json.null.ReadBack := by
  intro depth rest _
  have htext : Json.null.write ++ rest = 'n' :: 'u' :: 'l' :: 'l' :: rest := rfl
  refine Eq.trans ?_ (if_pos (Nat.zero_le depth)).symm
  rw [htext]
  cases depth <;> rfl

theorem readBack_boolean (b : Bool) : (Json.boolean b).ReadBack := by
  intro depth rest _
  have htext : (Json.boolean b).write ++ rest =
      if b then 't' :: 'r' :: 'u' :: 'e' :: rest else 'f' :: 'a' :: 'l' :: 's' :: 'e' :: rest := by
    cases b <;> rfl
  refine Eq.trans ?_ (if_pos (Nat.zero_le depth)).symm
  rw [htext]
  cases depth <;> cases b <;> rfl

theorem readBack_string (s : String) : (Json.string s).ReadBack := by
  intro depth rest _
  have htext : (Json.string s).write ++ rest =
      '"' :: (s.toList.flatMap Quoted.escape ++ '"' :: rest) := by
    rw [write_string, Quoted.encode, List.cons_append, List.append_assoc]
    rfl
  refine Eq.trans ?_ (if_pos (Nat.zero_le depth)).symm
  rw [htext, value?_string, Quoted.decode_flatMap_escape, Option.bind_some, String.ofList_toList]

theorem readBack_number {l : Literal} (h : l.Spelled) : (Json.number l).ReadBack := by
  intro depth rest hr
  obtain ⟨c, cs, hl, hc⟩ := h.text_cons
  have hread := Literal.literal?_text h hr
  refine Eq.trans ?_ (if_pos (Nat.zero_le depth)).symm
  rw [write_number]
  rw [hl] at hread ⊢
  rw [List.cons_append, value?_of_leads_number hc, ← List.cons_append, hread]
  rfl

theorem readBack_array {vs : List Json} (h : ∀ v ∈ vs, v.ReadBack)
    (hr : ∀ v ∈ vs, v.Regular) : (Json.array vs).ReadBack := by
  intro depth rest _
  have htext : (Json.array vs).write ++ rest = '[' :: (commas (vs.map write) ++ ']' :: rest) := by
    rw [write_array, writeElements_eq, List.cons_append, List.append_assoc]
    rfl
  rw [htext, Json.depth]
  cases depth with
  | zero => rfl
  | succ depth =>
    rw [value?_array, enclosed?_commas (.inl rfl) (value?_skipSpace depth) (.cons (.inr (.inr (.inl rfl))) rest)
      (skipSpace_cons rfl rest) (fun v hv => h v hv depth)
      (fun v hv => leads_write (hr v hv).spelled (.inl rfl))]
    simp only [Nat.add_le_add_iff_right, depthElements_le, List.map_id']
    split <;> rfl

theorem member?_fieldText {f : String × Json} (h : f.2.ReadBack) {depth : Nat} {rest : List Char}
    (hc : Closed rest) : member? (value? depth) (fieldText f ++ rest) =
      if f.2.depth ≤ depth then some (f, rest) else none := by
  have htext : fieldText f ++ rest =
      '"' :: (f.1.toList.flatMap Quoted.escape ++ '"' :: ':' :: (f.2.write ++ rest)) := by
    unfold fieldText Quoted.encode
    simp only [List.cons_append, List.append_assoc, List.nil_append]
  rw [htext, member?_name _ f.1 (skipSpace_cons rfl _), h depth rest hc]
  split <;> rfl

theorem readBack_object {fs : List (String × Json)} (h : ∀ f ∈ fs, f.2.ReadBack) :
    (Json.object fs).ReadBack := by
  intro depth rest _
  have htext : (Json.object fs).write ++ rest =
      '{' :: (commas (fs.map fieldText) ++ '}' :: rest) := by
    rw [write_object, writeFields_eq, List.cons_append, List.append_assoc]
    rfl
  rw [htext, Json.depth]
  cases depth with
  | zero => rfl
  | succ depth =>
    rw [value?_object, enclosed?_commas (.inr rfl) (member?_skipSpace _) (.cons (.inr (.inr (.inr rfl))) rest)
      (skipSpace_cons rfl rest) (fun f hf rest => member?_fieldText (h f hf))
      (fun f _ => .of_cons rfl (by decide) _)]
    simp only [Nat.add_le_add_iff_right, depthFields_le, List.map_id']
    split <;> rfl

mutual

theorem Regular.readBack : ∀ {v : Json}, v.Regular → v.ReadBack
  | .null, _ => readBack_null
  | .boolean b, _ => readBack_boolean b
  | .number _, h => by
    rw [Regular] at h
    exact readBack_number h.1
  | .string s, _ => readBack_string s
  | .array vs, h => by
    rw [Regular] at h
    exact readBack_array h.readBack (regularElements_iff.1 h)
  | .object fs, h => by
    rw [Regular] at h
    exact readBack_object h.2.readBack

theorem RegularElements.readBack : ∀ {vs : List Json}, RegularElements vs → ∀ v ∈ vs, v.ReadBack
  | [], _ => nofun
  | _ :: _, h => by
    rw [RegularElements] at h
    exact List.forall_mem_cons.2 ⟨h.1.readBack, h.2.readBack⟩

theorem RegularFields.readBack : ∀ {fs : List (String × Json)}, RegularFields fs →
    ∀ f ∈ fs, f.2.ReadBack
  | [], _ => nofun
  | _ :: _, h => by
    rw [RegularFields] at h
    exact List.forall_mem_cons.2 ⟨h.1.readBack, h.2.readBack⟩

end

mutual

theorem Regular.settled? : ∀ {v : Json}, v.Regular → settled? v = some v
  | .null, _ => rfl
  | .boolean _, _ => rfl
  | .number _, h => by
    rw [Regular] at h
    rw [Json.settled?, if_pos h.2]
  | .string _, _ => rfl
  | .array _, h => by
    rw [Regular] at h
    rw [Json.settled?, h.settledList?]
    rfl
  | .object _, h => by
    rw [Regular] at h
    rw [Json.settled?, h.2.settledFields?, Option.map_some, Fields.ofList_of_nodup h.1]

theorem RegularElements.settledList? : ∀ {vs : List Json}, RegularElements vs →
    settledList? vs = some vs
  | [], _ => rfl
  | _ :: _, h => by
    rw [RegularElements] at h
    rw [Json.settledList?, h.1.settled?, h.2.settledList?]
    rfl

theorem RegularFields.settledFields? : ∀ {fs : List (String × Json)}, RegularFields fs →
    settledFields? fs = some fs
  | [], _ => rfl
  | (_, _) :: _, h => by
    rw [RegularFields] at h
    rw [Json.settledFields?, h.1.settled?, h.2.settledFields?]
    rfl

end

theorem tree?_write {v : Json} (h : v.Regular) :
    tree? v.write = if v.depth ≤ mostDepth then some v else none := by
  have hread := h.readBack mostDepth [] .nil
  rw [List.append_nil] at hread
  rw [tree?, hread]
  split <;> rfl

theorem read?_text {v : Json} (h : v.Regular) :
    read? v.text = if v.depth ≤ mostDepth then some v else none := by
  rw [read?, text, String.toList_ofList, readChars?, tree?_write h]
  split
  · exact h.settled?
  · rfl

end PullQuery.Json
