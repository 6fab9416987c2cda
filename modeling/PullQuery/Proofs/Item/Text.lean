import PullQuery.Item.Text
import PullQuery.Proofs.Json.Reading
import PullQuery.Proofs.Json.Value

namespace PullQuery

open Json

namespace Item

mutual

def Exact : Item → Prop
  | .double _ | .float _ => False
  | .object fields => ExactFields fields
  | .array ⟨members⟩ => ExactMembers members
  | _ => True

def ExactFields : List (String × Item) → Prop
  | [] => True
  | (_, a) :: fs => a.Exact ∧ ExactFields fs

def ExactMembers : List Item → Prop
  | [] => True
  | a :: as => a.Exact ∧ ExactMembers as

end

mutual

def Mirrors : Item → Json → Prop
  | .null, v => v = .null
  | .boolean b, v => v = .boolean b
  | .int i, v => ∃ l, v = .number l ∧ l.value = i.toInt
  | .integer n, v => ∃ l, v = .number l ∧ l.value = n
  | .decimal d, v => ∃ l, v = .number l ∧ l.value = d.value
  | .double _, _ | .float _, _ => False
  | .object fields, v => ∃ gs, v = .object gs ∧ MirrorsFields fields gs
  | .array ⟨members⟩, v => ∃ vs, v = .array vs ∧ MirrorsMembers members vs
  | a, v => v = .string a.text

def MirrorsFields : List (String × Item) → List (String × Json) → Prop
  | [], gs => gs = []
  | (k, a) :: fs, gs => ∃ v gs', gs = (k, v) :: gs' ∧ a.Mirrors v ∧ MirrorsFields fs gs'

def MirrorsMembers : List Item → List Json → Prop
  | [], vs => vs = []
  | a :: as, vs => ∃ v vs', vs = v :: vs' ∧ a.Mirrors v ∧ MirrorsMembers as vs'

end

mutual

def tree : Item → Json
  | .null => .null
  | .boolean b => .boolean b
  | .int i => .number (.ofInt i.toInt)
  | .integer n => .number (.ofInt n)
  | .decimal d => .number (.ofDecimal d)
  | .object fields => .object (treeFields fields)
  | .array ⟨members⟩ => .array (treeMembers members)
  | a => .string a.text

def treeFields : List (String × Item) → List (String × Json)
  | [] => []
  | (k, a) :: fs => (k, a.tree) :: treeFields fs

def treeMembers : List Item → List Json
  | [] => []
  | a :: as => a.tree :: treeMembers as

end

theorem treeFields_eq (fs : List (String × Item)) :
    treeFields fs = fs.map fun f => (f.1, f.2.tree) := by
  induction fs with
  | nil => rw [treeFields, List.map_nil]
  | cons f fs ih => rw [treeFields, ih, List.map_cons]

theorem treeMembers_eq (as : List Item) : treeMembers as = as.map tree := by
  induction as with
  | nil => rw [treeMembers, List.map_nil]
  | cons a as ih => rw [treeMembers, ih, List.map_cons]

mutual

theorem Exact.mirrors : ∀ {a : Item}, a.Exact → a.Mirrors a.tree
  | .null, _ | .boolean _, _ | .string _, _ => rfl
  | .date .., _ | .time .., _ | .dateTime .., _ => rfl
  | .duration _, _ | .yearMonthDuration _, _ | .dayTimeDuration _, _ => rfl
  | .int i, _ => by
    rw [tree, Mirrors]
    exact ⟨_, rfl, Literal.ofInt_value i.toInt⟩
  | .integer n, _ => by
    rw [tree, Mirrors]
    exact ⟨_, rfl, Literal.ofInt_value n⟩
  | .decimal d, _ => by
    rw [tree, Mirrors]
    exact ⟨_, rfl, Literal.ofDecimal_value d⟩
  | .object fields, h => by
    rw [Exact] at h
    rw [tree, Mirrors]
    exact ⟨_, rfl, h.mirrors⟩
  | .array ⟨members⟩, h => by
    rw [Exact] at h
    rw [tree, Mirrors]
    exact ⟨_, rfl, h.mirrors⟩

theorem ExactFields.mirrors : ∀ {fs : List (String × Item)}, ExactFields fs →
    MirrorsFields fs (treeFields fs)
  | [], _ => by rw [treeFields, MirrorsFields]
  | (k, a) :: fs, h => by
    rw [ExactFields] at h
    rw [treeFields, MirrorsFields]
    exact ⟨_, _, rfl, h.1.mirrors, h.2.mirrors⟩

theorem ExactMembers.mirrors : ∀ {as : List Item}, ExactMembers as →
    MirrorsMembers as (treeMembers as)
  | [], _ => by rw [treeMembers, MirrorsMembers]
  | a :: as, h => by
    rw [ExactMembers] at h
    rw [treeMembers, MirrorsMembers]
    exact ⟨_, _, rfl, h.1.mirrors, h.2.mirrors⟩

end

def part (a : Item) : List Char := a.asMember a.lexical

def fieldPart (f : String × Item) : List Char :=
  Quoted.encode f.1.toList ++ " : ".toList ++ f.2.part

theorem lexicalMembers_eq (as : List Item) : lexicalMembers as = as.map part := by
  induction as with
  | nil => rw [lexicalMembers, List.map_nil]
  | cons a as ih => rw [lexicalMembers, ih, List.map_cons, part]

theorem lexicalFields_eq (fs : List (String × Item)) : lexicalFields fs = fs.map fieldPart := by
  induction fs with
  | nil => rw [lexicalFields, List.map_nil]
  | cons f fs ih => rw [lexicalFields, ih, List.map_cons, fieldPart, part]

theorem commas_spaced (t : List Char) (ts : List (List Char)) :
    commas ((t :: ts).map (' ' :: ·)) = ' ' :: ", ".toList.intercalate (t :: ts) := by
  induction ts generalizing t with
  | nil => simp [commas, List.intercalate]
  | cons u ts ih =>
    have hc : commas ((t :: u :: ts).map (' ' :: ·)) =
        (' ' :: t) ++ ',' :: commas ((u :: ts).map (' ' :: ·)) := rfl
    rw [hc, ih]
    simp [List.intercalate]

theorem enclose_append (first last : Char) (ts : List (List Char)) (rest : List Char) :
    enclose first last ts ++ rest =
      first :: (commas (ts.map (' ' :: ·)) ++ ' ' :: last :: rest) := by
  cases ts with
  | nil => rfl
  | cons t ts =>
    rw [commas_spaced]
    simp [enclose]

def Readable (a : Item) : Prop :=
  ∀ (depth : Nat) (rest : List Char), Closed rest →
    value? depth (a.part ++ rest) = if a.tree.depth ≤ depth then some (a.tree, rest) else none

theorem readable_of_write {a : Item} (ht : a.part = a.tree.write) (h : a.tree.ReadBack) :
    a.Readable := by
  intro depth rest hr
  rw [ht]
  exact h depth rest hr

theorem value?_space (depth : Nat) (cs : List Char) : value? depth (' ' :: cs) = value? depth cs := by
  rw [← value?_skipSpace, skipSpace_space, value?_skipSpace]

theorem part_of_quoted {a : Item} (h : a.isLiteral = false) (ht : a.tree = .string a.text) :
    a.part = a.tree.write := by
  rw [ht, write_string, text, String.toList_ofList, part, asMember, h]
  rfl

theorem part_of_isAtomic {a : Item} (h : a.Exact) (ha : a.isAtomic = true) :
    a.part = a.tree.write := by
  cases a with
  | null | boolean b => rfl
  | int i => exact (Literal.ofInt_text i.toInt).symm
  | integer n => exact (Literal.ofInt_text n).symm
  | decimal d => exact (Literal.ofDecimal_text d).symm
  | double x | float x => cases h
  | object fields | array members => cases ha
  | string s | date d zone | time t zone | dateTime p zone => exact part_of_quoted rfl rfl
  | duration d | yearMonthDuration m | dayTimeDuration d => exact part_of_quoted rfl rfl

theorem tree_spelled {a : Item} {l : Literal} (h : a.tree = .number l) : l.Spelled := by
  cases a with
  | int i =>
    cases h
    exact Literal.ofInt_spelled i.toInt
  | integer n =>
    cases h
    exact Literal.ofInt_spelled n
  | decimal d =>
    cases h
    exact Literal.ofDecimal_spelled d
  | _ => cases h

theorem part_array (members : List Item) (rest : List Char) : (array ⟨members⟩).part ++ rest =
    '[' :: (commas (members.map fun a => ' ' :: a.part) ++ ' ' :: ']' :: rest) := by
  have hpart : (array ⟨members⟩).part = enclose '[' ']' (lexicalMembers members) := by
    rw [part, lexical]
    rfl
  rw [hpart, enclose_append, lexicalMembers_eq, List.map_map]
  rfl

theorem part_object (fields : List (String × Item)) (rest : List Char) :
    (object fields).part ++ rest =
      '{' :: (commas (fields.map fun f => ' ' :: fieldPart f) ++ ' ' :: '}' :: rest) := by
  have hpart : (object fields).part = enclose '{' '}' (lexicalFields fields) := by
    rw [part, lexical]
    rfl
  rw [hpart, enclose_append, lexicalFields_eq, List.map_map]
  rfl

theorem Exact.leads {a : Item} (h : a.Exact) : Leads ']' a.part := by
  cases a with
  | object fields =>
    rw [← List.append_nil (part _), part_object]
    exact .of_cons rfl (by decide) _
  | array members =>
    rw [← List.append_nil (part _), part_array]
    exact .of_cons rfl (by decide) _
  | _ =>
    rw [part_of_isAtomic h rfl]
    exact leads_write (fun _ => tree_spelled) (.inl rfl)

theorem readable_array {members : List Item} (he : ∀ a ∈ members, a.Exact)
    (h : ∀ a ∈ members, a.Readable) : (array ⟨members⟩).Readable := by
  intro depth rest _
  rw [part_array, tree, treeMembers_eq, Json.depth]
  cases depth with
  | zero => rfl
  | succ depth =>
    rw [value?_array, @enclosed?_commas Item Json _ _ _ tree (fun a => a.tree.depth ≤ depth) _ _ rest (.inl rfl)
      (value?_skipSpace depth) (.cons (.inl rfl) _) (skipSpace_space (']' :: rest)) members
      (fun a ha rest hr => (value?_space depth _).trans (h a ha depth rest hr))
      (fun a ha => (he a ha).leads.space)]
    simp only [Nat.add_le_add_iff_right, depthElements_le, List.forall_mem_map]
    split <;> rfl

theorem member?_fieldPart {f : String × Item} (h : f.2.Readable) {depth : Nat} {rest : List Char}
    (hr : Closed rest) : Json.member? (value? depth) (' ' :: fieldPart f ++ rest) =
      if f.2.tree.depth ≤ depth then some ((f.1, f.2.tree), rest) else none := by
  have htext : ' ' :: fieldPart f ++ rest = ' ' :: '"' :: (f.1.toList.flatMap Quoted.escape ++
      '"' :: ' ' :: ':' :: ' ' :: (f.2.part ++ rest)) := by
    unfold fieldPart Quoted.encode
    simp
  rw [htext, ← member?_skipSpace, skipSpace_space, skipSpace_cons rfl,
    member?_name _ f.1 (skipSpace_space _), value?_space, h depth rest hr]
  split <;> rfl

theorem readable_object {fields : List (String × Item)} (h : ∀ f ∈ fields, f.2.Readable) :
    (object fields).Readable := by
  intro depth rest _
  rw [part_object, tree, treeFields_eq, Json.depth]
  cases depth with
  | zero => rfl
  | succ depth =>
    rw [value?_object, @enclosed?_commas (String × Item) (String × Json) _ _ _ (fun f => (f.1, f.2.tree))
      (fun f => f.2.tree.depth ≤ depth) _ _ rest (.inr rfl) (member?_skipSpace _)
      (.cons (.inl rfl) _) (skipSpace_space ('}' :: rest)) fields
      (fun f hf rest hr => member?_fieldPart (h f hf) hr)
      (fun f _ => Leads.space (.of_cons rfl (by decide) _))]
    simp only [Nat.add_le_add_iff_right, depthFields_le, List.forall_mem_map]
    split <;> rfl

theorem exactMembers_iff {as : List Item} : ExactMembers as ↔ ∀ a ∈ as, a.Exact := by
  induction as with
  | nil => simp [ExactMembers]
  | cons a as ih => rw [ExactMembers, ih, List.forall_mem_cons]

theorem readable_atomic {a : Item} (h : a.Exact) (ha : a.isAtomic = true) : a.Readable := by
  refine readable_of_write (part_of_isAtomic h ha) ?_
  have hspelled : ∀ l, a.tree = .number l → l.Spelled := fun _ => tree_spelled
  cases a with
  | null => exact readBack_null
  | boolean b => exact readBack_boolean b
  | int | integer | decimal => exact readBack_number (hspelled _ rfl)
  | object fields | array members => cases ha
  | _ => exact readBack_string _

mutual

theorem Exact.readable : ∀ {a : Item}, a.Exact → a.Readable
  | .object fields, h => by
    rw [Exact] at h
    exact readable_object h.readable
  | .array ⟨members⟩, h => by
    rw [Exact] at h
    exact readable_array (exactMembers_iff.1 h) h.readable
  | .null, h | .boolean _, h | .string _, h | .int _, h | .integer _, h | .decimal _, h =>
    readable_atomic h rfl
  | .date .., h | .time .., h | .dateTime .., h => readable_atomic h rfl
  | .duration _, h | .yearMonthDuration _, h | .dayTimeDuration _, h => readable_atomic h rfl

theorem ExactFields.readable : ∀ {fs : List (String × Item)}, ExactFields fs →
    ∀ f ∈ fs, f.2.Readable
  | [], _ => nofun
  | _ :: _, h => by
    rw [ExactFields] at h
    exact List.forall_mem_cons.2 ⟨h.1.readable, h.2.readable⟩

theorem ExactMembers.readable : ∀ {as : List Item}, ExactMembers as → ∀ a ∈ as, a.Readable
  | [], _ => nofun
  | _ :: _, h => by
    rw [ExactMembers] at h
    exact List.forall_mem_cons.2 ⟨h.1.readable, h.2.readable⟩

end

/-- The text of an array or an object is JSON of the same shape, which a reader takes as a whole if it
takes that many arrays and objects in each other. -/
theorem container_text_spells_tree {a : Item} (h : a.Exact) (hc : a.isAtomic = false) :
    ∃ v, a.Mirrors v ∧
      ∀ depth, value? depth a.text.toList = if v.depth ≤ depth then some (v, []) else none := by
  refine ⟨a.tree, h.mirrors, fun depth => ?_⟩
  have hpart : a.part = a.lexical := by
    cases a with
    | object fields | array members => rfl
    | _ => cases hc
  have hread := h.readable depth [] .nil
  rw [List.append_nil, hpart] at hread
  rw [text, String.toList_ofList]
  exact hread

theorem nested_container_text_spells_tree :
    let a := object [("s\"", array #[null, string "a, ]\n", decimal ⟨-150, 2⟩, array #[]]),
      ("d", yearMonthDuration 14), ("n", integer 7)]
    a.Exact ∧ a.isAtomic = false ∧
      a.lexical =
        "\x7b \"s\\\"\" : [ null, \"a, ]\\n\", -1.5, [ ] ], \"d\" : \"P1Y2M\", \"n\" : 7 \x7d".toList ∧
      ∃ v, a.Mirrors v ∧
        ∀ depth, value? depth a.text.toList = if v.depth ≤ depth then some (v, []) else none := by
  intro a
  have h : a.Exact := by
    simp only [a, Exact, ExactFields, ExactMembers, and_self]
  exact ⟨h, rfl, rfl, container_text_spells_tree h rfl⟩

end Item

end PullQuery
