import Bisaya.Env

namespace Bisaya

/-- What a run works on: the variables and the lines printed so far. -/
structure Machine where
  env : Env
  output : Array String

namespace Machine

def start : Machine := ⟨.empty, #[]⟩

end Machine

inductive Run where
  | done (m : Machine)
  /-- The first error stops the run and keeps what was done before it. -/
  | failed (e : RuntimeError) (m : Machine)
  /-- A loop came to the bound on its rounds. -/
  | unfinished (m : Machine)
  | asks (name : String) (m : Machine) (resume : String → Run)

namespace Run

/-- Goes on with `next` if the run succeeds. -/
def andThen : Run → (Machine → Run) → Run
  | done m, next => next m
  | failed e m, _ => failed e m
  | unfinished m, _ => unfinished m
  | asks name m resume, next => asks name m fun raw => (resume raw).andThen next

theorem andThen_assoc (r : Run) (f g : Machine → Run) :
    (r.andThen f).andThen g = r.andThen fun m => (f m).andThen g := by
  induction r with
  | asks name m resume ih => simp [andThen, ih]
  | _ => rfl

theorem andThen_done (r : Run) : r.andThen done = r := by
  induction r with
  | asks name m resume ih => simp [andThen, ih]
  | _ => rfl

/-- A run of one step, which changes the variables or fails. -/
def change (m : Machine) : Except RuntimeError Env → Run
  | .ok env => done { m with env := env }
  | .error e => failed e m

end Run
end Bisaya
