import PullQuery.Source

namespace PullQuery

structure Step (α σ : Type) where
  value : α
  state : σ
  log : Log

namespace Step

variable {α β σ τ : Type}

def done (value : α) (state : σ) : Step α σ := ⟨value, state, []⟩

def andThen (x : Step α σ) (f : α → σ → Step β τ) : Step β τ :=
  let y := f x.value x.state
  ⟨y.value, y.state, x.log ++ y.log⟩

def within (f : σ → τ) (x : Step α σ) : Step α τ := ⟨x.value, f x.state, x.log⟩

def mapValue (f : α → β) (x : Step α σ) : Step β σ := ⟨f x.value, x.state, x.log⟩

@[simp] theorem done_value (a : α) (s : σ) : (done a s).value = a := rfl

@[simp] theorem done_state (a : α) (s : σ) : (done a s).state = s := rfl

@[simp] theorem done_log (a : α) (s : σ) : (done a s).log = [] := rfl

@[simp] theorem within_value (f : σ → τ) (x : Step α σ) : (x.within f).value = x.value := rfl

@[simp] theorem within_state (f : σ → τ) (x : Step α σ) : (x.within f).state = f x.state := rfl

@[simp] theorem within_log (f : σ → τ) (x : Step α σ) : (x.within f).log = x.log := rfl

@[simp] theorem mapValue_value (f : α → β) (x : Step α σ) : (x.mapValue f).value = f x.value := rfl

@[simp] theorem mapValue_state (f : α → β) (x : Step α σ) : (x.mapValue f).state = x.state := rfl

@[simp] theorem mapValue_log (f : α → β) (x : Step α σ) : (x.mapValue f).log = x.log := rfl

@[simp] theorem andThen_value (x : Step α σ) (f : α → σ → Step β τ) :
    (x.andThen f).value = (f x.value x.state).value := rfl

@[simp] theorem andThen_state (x : Step α σ) (f : α → σ → Step β τ) :
    (x.andThen f).state = (f x.value x.state).state := rfl

@[simp] theorem andThen_log (x : Step α σ) (f : α → σ → Step β τ) :
    (x.andThen f).log = x.log ++ (f x.value x.state).log := rfl

def thenOk (x : Step (Except Error α) σ) (fail : σ → τ) (f : α → σ → Step (Except Error β) τ) :
    Step (Except Error β) τ :=
  x.andThen fun r s =>
    match r with
    | .error e => done (.error e) (fail s)
    | .ok a => f a s

section

variable (x : Step (Except Error α) σ) (fail : σ → τ) (f : α → σ → Step (Except Error β) τ)

@[simp] theorem thenOk_value :
    (x.thenOk fail f).value = x.value.bind fun a => (f a x.state).value := by
  obtain ⟨_ | _, _, _⟩ := x <;> rfl

theorem thenOk_state_of_ok {a : α} (h : x.value = .ok a) :
    (x.thenOk fail f).state = (f a x.state).state := by
  simp only [thenOk, andThen_state, h]

theorem thenOk_state_of_error {e : Error} (h : x.value = .error e) :
    (x.thenOk fail f).state = fail x.state := by
  simp only [thenOk, andThen_state, h, done_state]

end

end Step

end PullQuery
