import OrderedBnf.Parse.Attempt

/-! Attempts that the farthest offset does not steer: what comes of them is the same wherever the
parse has got to, and all they do to that offset is push it on. -/
namespace OrderedBnf.Attempt
variable {α β : Type}

def result (a : Attempt α) : Except Halt α := (a.outcome 0).1

def reached (a : Attempt α) : Nat := (a.outcome 0).2

/-- The farthest offset so far has no influence on the result, and is never lowered. -/
def Steady (a : Attempt α) : Prop :=
  ∀ farthest, a.outcome farthest = (a.result, max farthest a.reached)

theorem Steady.outcome_fst {a : Attempt α} (h : a.Steady) (farthest : Nat) :
    (a.outcome farthest).1 = a.result := by
  rw [h]

/-- The mark that the first attempt has reached is where the second one sets out from. -/
theorem outcome_bind (a : Attempt α) (f : α → Attempt β) (farthest : Nat) :
    (a >>= f).outcome farthest =
      match a.outcome farthest with
      | (.ok x, farther) => (f x).outcome farther
      | (.error halt, farther) => (.error halt, farther) := by
  simp only [bind, ExceptT.bind, ExceptT.mk, ExceptT.bindCont, StateT.bind, outcome, ExceptT.run,
    StateT.run]
  rcases a farthest with ⟨_ | _, _⟩ <;> rfl

private theorem outcome_tryCatch (a : Attempt α) (handle : Halt → Attempt α) (farthest : Nat) :
    (tryCatch a handle : Attempt α).outcome farthest =
      match a.outcome farthest with
      | (.ok x, farther) => (.ok x, farther)
      | (.error halt, farther) => (handle halt).outcome farther := by
  simp only [tryCatch, tryCatchThe, MonadExceptOf.tryCatch, ExceptT.tryCatch, ExceptT.mk, bind,
    StateT.bind, outcome, ExceptT.run, StateT.run]
  rcases a farthest with ⟨_ | _, _⟩ <;> rfl

theorem outcome_recover (a : Attempt α) (farthest : Nat) :
    (recover a).outcome farthest =
      match a.outcome farthest with
      | (.ok x, farther) => (.ok (.ok x), farther)
      | (.error (.failure failure), farther) => (.ok (.error failure), farther)
      | (.error (.abort cause), farther) => (.error (.abort cause), farther) := by
  rw [recover, outcome_tryCatch, outcome_bind]
  rcases a.outcome farthest with ⟨(_ | _) | _, _⟩ <;> rfl

theorem steady_pure (x : α) : (pure x : Attempt α).Steady := fun farthest =>
  Prod.ext rfl (Nat.max_zero farthest).symm

theorem steady_throw (halt : Halt) : (throw halt : Attempt α).Steady := fun farthest =>
  Prod.ext rfl (Nat.max_zero farthest).symm

theorem steady_fail (reason : Reason) (position : Nat) (causes : List Failure) :
    (fail reason position causes : Attempt α).Steady := steady_throw _

theorem steady_abort (cause : Abort) : (abort cause : Attempt α).Steady := steady_throw _

theorem steady_reach (position : Nat) : (reach position).Steady := fun farthest =>
  Prod.ext rfl (congrArg (max farthest) (Nat.zero_max position).symm)

/-- Attempts whose outcome does not depend on the mark so far may follow one another. -/
theorem Steady.bind {a : Attempt α} {f : α → Attempt β} (ha : a.Steady) (hf : ∀ x, (f x).Steady) :
    (a >>= f).Steady := by
  intro farthest
  rw [result, reached, outcome_bind, outcome_bind, ha farthest, ha 0]
  cases a.result with
  | error halt => simp
  | ok x =>
    dsimp only
    rw [hf x, hf x (max 0 _)]
    simp [Nat.max_assoc]

/-- A failure that is caught leaves an attempt as steady as it was. -/
theorem Steady.recover {a : Attempt α} (ha : a.Steady) : (recover a).Steady := by
  intro farthest
  rw [result, reached, outcome_recover, outcome_recover, ha farthest, ha 0]
  rcases a.result with (_ | _) | _ <;> simp

@[simp] theorem result_pure (x : α) : (pure x : Attempt α).result = .ok x := rfl
@[simp] theorem result_throw (halt : Halt) : (throw halt : Attempt α).result = .error halt := rfl
@[simp] theorem result_fail (reason : Reason) (position : Nat) (causes : List Failure) :
    (fail reason position causes : Attempt α).result =
      .error (.failure (.because reason position causes)) := rfl
@[simp] theorem result_abort (cause : Abort) :
    (abort cause : Attempt α).result = .error (.abort cause) := rfl
@[simp] theorem result_reach (position : Nat) : (reach position).result = .ok () := rfl

/-- The result of attempts that follow one another is found from their results. -/
theorem result_bind (a : Attempt α) {f : α → Attempt β} (hf : ∀ x, (f x).Steady) :
    (a >>= f).result = a.result.bind fun x => (f x).result := by
  simp only [result, outcome_bind]
  rcases h : a.outcome 0 with ⟨halt | x, farther⟩
  · rfl
  · exact (hf x).outcome_fst farther

/-- After an attempt that reaches nothing, the rest need not be steady. -/
theorem result_bind_of_reached {a : Attempt α} (ha : a.reached = 0) (f : α → Attempt β) :
    (a >>= f).result = a.result.bind fun x => (f x).result := by
  simp only [result, reached, outcome_bind] at ha ⊢
  rcases h : a.outcome 0 with ⟨halt | x, farther⟩ <;> rw [h] at ha <;> cases ha <;> rfl

/-- What follows an attempt matters only for what the attempt can give. -/
theorem bind_congr_of_result {a : Attempt α} (ha : a.Steady) {f g : α → Attempt β}
    (h : ∀ x, a.result = .ok x → f x = g x) : a >>= f = a >>= g := by
  funext farthest
  change (a >>= f).outcome farthest = (a >>= g).outcome farthest
  rw [outcome_bind, outcome_bind, ha farthest]
  cases hr : a.result with
  | error halt => rfl
  | ok x =>
    dsimp only
    rw [h x hr]

theorem result_recover (a : Attempt α) :
    (recover a).result = match a.result with
      | .ok x => .ok (.ok x)
      | .error (.failure failure) => .ok (.error failure)
      | .error (.abort cause) => .error (.abort cause) := by
  simp only [result, outcome_recover]
  rcases a.outcome 0 with ⟨(_ | _) | _, _⟩ <;> rfl

theorem recover_eq_ok {a : Attempt α} {x : α} :
    (recover a).result = .ok (.ok x) ↔ a.result = .ok x := by
  rw [result_recover]
  rcases a.result with (_ | _) | _ <;> simp

theorem recover_eq_error {a : Attempt α} {failure : Failure} :
    (recover a).result = .ok (.error failure) ↔ a.result = .error (.failure failure) := by
  rw [result_recover]
  rcases a.result with (_ | _) | _ <;> simp

/-- Attempts that follow one another reach as far as the one that reaches farthest. -/
theorem reached_bind {a : Attempt α} (ha : a.Steady) {f : α → Attempt β} (hf : ∀ x, (f x).Steady) :
    (a >>= f).reached = match a.result with
      | .ok x => max a.reached (f x).reached
      | .error _ => a.reached := by
  rw [reached, outcome_bind, ha 0, Nat.zero_max]
  cases a.result with
  | error halt => rfl
  | ok x =>
    dsimp only
    rw [hf x a.reached]

theorem reached_recover (a : Attempt α) : (recover a).reached = a.reached := by
  simp only [reached, outcome_recover]
  rcases a.outcome 0 with ⟨(_ | _) | _, _⟩ <;> rfl

def FailsWith (good : Failure → Prop) (a : Attempt α) : Prop :=
  ∀ farthest failure, (a.outcome farthest).1 = .error (.failure failure) → good failure

variable {good : Failure → Prop}

theorem failsWith_pure (x : α) : (pure x : Attempt α).FailsWith good := fun _ _ h => by cases h

theorem failsWith_abort (cause : Abort) : (abort cause : Attempt α).FailsWith good :=
  fun _ _ h => by cases h

theorem failsWith_reach (position : Nat) : (reach position).FailsWith good :=
  fun _ _ h => by cases h

theorem failsWith_fail {reason : Reason} {position : Nat} {causes : List Failure}
    (h : good (.because reason position causes)) :
    (fail reason position causes : Attempt α).FailsWith good := fun _ _ hf => by
  cases hf
  exact h

/-- The failures of attempts that follow one another are those of either of them. -/
theorem FailsWith.bind {a : Attempt α} {f : α → Attempt β} (ha : a.FailsWith good)
    (hf : ∀ x, (f x).FailsWith good) : (a >>= f).FailsWith good := by
  intro farthest failure h
  rw [outcome_bind] at h
  split at h
  · exact hf _ _ _ h
  · rename_i ho
    cases h
    exact ha farthest failure (congrArg Prod.fst ho)

end OrderedBnf.Attempt
