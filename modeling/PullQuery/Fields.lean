namespace PullQuery

abbrev Fields (α : Type) := List (String × α)

namespace Fields

variable {α : Type}

def find? (name : String) : Fields α → Option α
  | [] => none
  | (k, v) :: fs => if k = name then some v else find? name fs

/-- A name that is there keeps its place and takes the new value; a new one goes to the end. -/
def insert (name : String) (value : α) : Fields α → Fields α
  | [] => [(name, value)]
  | (k, v) :: fs => if k = name then (k, value) :: fs else (k, v) :: insert name value fs

def ofList (fs : List (String × α)) : Fields α := fs.foldl (fun acc f => insert f.1 f.2 acc) []

def names (fs : Fields α) : List String := fs.map Prod.fst

def contains (name : String) (fs : Fields α) : Bool := (find? name fs).isSome

def erase (name : String) (fs : Fields α) : Fields α := fs.filter (·.1 != name)

def addName (name : String) (names : List String) : List String :=
  if name ∈ names then names else names ++ [name]

def addNames (more names : List String) : List String :=
  more.foldl (fun acc n => addName n acc) names

theorem find?_insert (name other : String) (value : α) (fs : Fields α) :
    find? other (insert name value fs) = if name = other then some value else find? other fs := by
  induction fs with
  | nil => simp [insert, find?]
  | cons f fs ih =>
    obtain ⟨k, v⟩ := f
    by_cases hk : k = name
    · subst hk
      by_cases ho : k = other <;> simp [insert, find?, ho]
    · by_cases ho : k = other
      · subst ho
        simp [insert, find?, hk, Ne.symm hk]
      · simp [insert, find?, hk, ho, ih]

theorem find?_of_mem {fs : Fields α} (hn : (names fs).Nodup) {name : String} {value : α}
    (h : (name, value) ∈ fs) : find? name fs = some value := by
  induction fs with
  | nil => cases h
  | cons f fs ih =>
    obtain ⟨hf, hn⟩ := List.nodup_cons.1 hn
    rw [find?]
    obtain h | h := List.mem_cons.1 h
    · subst h
      rw [if_pos rfl]
    · have hne : f.1 ≠ name := fun he => hf (he ▸ List.mem_map_of_mem h)
      rw [if_neg hne, ih hn h]

theorem find?_append (n : String) (fs gs : Fields α) :
    find? n (fs ++ gs) = (find? n fs).or (find? n gs) := by
  induction fs with
  | nil => rfl
  | cons f fs ih =>
    rw [List.cons_append, find?, find?, ih]
    split <;> rfl

theorem find?_map (names : List String) (f : String → α) (name : String) :
    find? name (names.map fun n => (n, f n)) = if name ∈ names then some (f name) else none := by
  induction names with
  | nil => rfl
  | cons n names ih =>
    rw [List.map_cons, find?, ih]
    by_cases h : n = name
    · simp [h]
    · simp [h, Ne.symm h]

theorem names_insert (name : String) (value : α) (fs : Fields α) :
    names (insert name value fs) = addName name (names fs) := by
  induction fs with
  | nil => simp [insert, names, addName]
  | cons f fs ih =>
    obtain ⟨k, v⟩ := f
    simp only [names, addName, List.map_cons, List.mem_cons] at ih ⊢
    by_cases hk : k = name
    · simp [insert, hk]
    · by_cases hn : name ∈ fs.map Prod.fst
      · simp [insert, hk, hn, ih]
      · simp [insert, hk, hn, ih, Ne.symm hk]

theorem nodup_addName {name : String} {names : List String} (h : names.Nodup) :
    (addName name names).Nodup := by
  unfold addName
  split
  case isTrue => exact h
  case isFalse hn => exact List.nodup_append.2 ⟨h, by simp, by grind⟩

theorem nodup_addNames {more names : List String} (h : names.Nodup) :
    (addNames more names).Nodup := by
  induction more generalizing names with
  | nil => exact h
  | cons n more ih => exact ih (nodup_addName h)

theorem nodup_insert {name : String} {value : α} {fs : Fields α} (h : (names fs).Nodup) :
    (names (insert name value fs)).Nodup := by
  rw [names_insert]
  exact nodup_addName h

theorem insert_of_notMem {name : String} {value : α} {fs : Fields α} (h : name ∉ names fs) :
    insert name value fs = fs ++ [(name, value)] := by
  induction fs with
  | nil => rfl
  | cons f fs ih =>
    obtain ⟨hne, hfs⟩ := not_or.1 (mt List.mem_cons.2 h)
    rw [insert, if_neg (Ne.symm hne), ih hfs]
    rfl

theorem foldl_insert_of_nodup {fs acc : Fields α} (h : (names (acc ++ fs)).Nodup) :
    fs.foldl (fun acc f => insert f.1 f.2 acc) acc = acc ++ fs := by
  induction fs generalizing acc with
  | nil => exact (List.append_nil acc).symm
  | cons f fs ih =>
    have hnames : names (acc ++ f :: fs) = names acc ++ f.1 :: names fs := List.map_append
    have hf : f.1 ∉ names acc := by
      rw [hnames, List.nodup_append] at h
      exact fun hmem => h.2.2 _ hmem _ List.mem_cons_self rfl
    rw [List.foldl_cons, insert_of_notMem hf, ih (by rwa [List.append_assoc])]
    exact List.append_assoc ..

theorem ofList_of_nodup {fs : Fields α} (h : (names fs).Nodup) : ofList fs = fs :=
  foldl_insert_of_nodup h

section Forall

variable {P : α → Prop}

theorem forall_insert {name : String} {value : α} {fs : Fields α} (hv : P value)
    (h : ∀ f ∈ fs, P f.2) : ∀ f ∈ insert name value fs, P f.2 := by
  induction fs with
  | nil => exact List.forall_mem_singleton.2 hv
  | cons f fs ih =>
    obtain ⟨hf, hfs⟩ := List.forall_mem_cons.1 h
    rw [insert]
    split
    · exact List.forall_mem_cons.2 ⟨hv, hfs⟩
    · exact List.forall_mem_cons.2 ⟨hf, ih hfs⟩

theorem forall_foldl_insert {fs acc : Fields α} (hacc : ∀ f ∈ acc, P f.2) (h : ∀ f ∈ fs, P f.2) :
    ∀ f ∈ fs.foldl (fun acc f => insert f.1 f.2 acc) acc, P f.2 := by
  induction fs generalizing acc with
  | nil => exact hacc
  | cons f fs ih =>
    obtain ⟨hf, hfs⟩ := List.forall_mem_cons.1 h
    exact ih (forall_insert hf hacc) hfs

theorem forall_ofList {fs : List (String × α)} (h : ∀ f ∈ fs, P f.2) : ∀ f ∈ ofList fs, P f.2 :=
  forall_foldl_insert (fun _ hf => nomatch hf) h

end Forall

end Fields

end PullQuery
