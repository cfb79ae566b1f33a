import ForestGraph.Error

/-!
# Procedures on a receiver

A procedure changes its receiver step by step and may fail on the way; what it has
changed by then stays changed.  It is atomic if it changes nothing when it fails.  In a
session of calls, one that fails without a trace can be left out: the other calls are
answered as before and the receiver ends up the same.
-/

namespace ForestGraph

/-- A computation that changes a receiver, and keeps what it has changed when it fails. -/
abbrev Procedure (σ α : Type) := ExceptT Error (StateM σ) α

namespace Procedure

variable {σ α β : Type} {before after : σ} {error : Error}

/-- The reply of a procedure, and the receiver that it leaves behind. -/
def effect (procedure : Procedure σ α) (before : σ) : Except Error α × σ :=
  (ExceptT.run procedure).run before

/-- A step that looks at the receiver and may refuse it. -/
def ask (question : σ → Except Error α) : Procedure σ α := do
  match question (← get) with
  | .ok answer => return answer
  | .error error => throw error

/-- A failure leaves the receiver as it was. -/
def Atomic (procedure : Procedure σ α) : Prop :=
  ∀ before error after, effect procedure before = (.error error, after) → after = before

/-- A procedure succeeds where an update does, with the same reply and the same new
receiver, and fails where the update does, with the same error and the old receiver. -/
def Performs (procedure : Procedure σ α) (update : σ → Except Error (σ × α)) : Prop :=
  ∀ before, effect procedure before = match update before with
    | .ok (after, reply) => (.ok reply, after)
    | .error error => (.error error, before)

/-! ## Effects of the steps -/

@[simp] theorem effect_pure (value : α) :
    effect (pure value : Procedure σ α) before = (.ok value, before) := rfl

@[simp] theorem effect_throw :
    effect (throw error : Procedure σ α) before = (.error error, before) := rfl

@[simp] theorem effect_get : effect (get : Procedure σ σ) before = (.ok before, before) := rfl

@[simp] theorem effect_modify (change : σ → σ) :
    effect (modify change : Procedure σ PUnit) before = (.ok ⟨⟩, change before) := rfl

@[simp] theorem effect_bind (procedure : Procedure σ α) (rest : α → Procedure σ β) :
    effect (procedure >>= rest) before =
      match effect procedure before with
      | (.ok value, middle) => effect (rest value) middle
      | (.error error, middle) => (.error error, middle) := by
  unfold effect
  rw [ExceptT.run_bind, StateT.run_bind]
  cases (ExceptT.run procedure).run before with
  | mk outcome middle => cases outcome <;> rfl

@[simp] theorem effect_map (change : α → β) (procedure : Procedure σ α) :
    effect (change <$> procedure) before =
      ((effect procedure before).1.map change, (effect procedure before).2) := by
  rw [map_eq_pure_bind, effect_bind]
  cases effect procedure before with
  | mk outcome middle => cases outcome <;> rfl

@[simp] theorem effect_ask (question : σ → Except Error α) :
    effect (ask question) before = (question before, before) := by
  unfold ask
  rw [effect_bind, effect_get]
  cases hQuestion : question before <;> simp [hQuestion]

/-- A handler goes on with the receiver that the failure has left. -/
@[simp] theorem effect_tryCatch (procedure : Procedure σ α) (handler : Error → Procedure σ α) :
    effect (tryCatch procedure handler) before =
      match effect procedure before with
      | (.ok value, middle) => (.ok value, middle)
      | (.error error, middle) => effect (handler error) middle := by
  show (ExceptT.run (ExceptT.tryCatch procedure handler)).run before = _
  cases hEffect : effect procedure before with
  | mk outcome middle =>
      have hRun : StateT.run procedure before = (outcome, middle) := hEffect
      rw [ExceptT.tryCatch, ExceptT.run_mk, StateT.run_bind, hRun]
      cases outcome <;> rfl

/-- Steps over a list that only look at the receiver look at it together. -/
theorem effect_forM {items : List α} {step : α → Procedure σ PUnit}
    {question : α → σ → Except Error PUnit}
    (h : ∀ item before, effect (step item) before = (question item before, before)) :
    effect (items.forM step) before =
      (items.forM fun item => question item before, before) := by
  induction items with
  | nil => rfl
  | cons item later ih =>
      rw [List.forM, List.forM, effect_bind, h]
      cases question item before with
      | ok => exact ih
      | error => rfl

/-! ## Updates -/

variable {procedure : Procedure σ α} {update : σ → Except Error (σ × α)}

theorem Performs.effect_of_ok (h : Performs procedure update) {reply : α}
    (hUpdate : update before = .ok (after, reply)) :
    effect procedure before = (.ok reply, after) := by
  rw [h before, hUpdate]

theorem Performs.effect_of_error (h : Performs procedure update)
    (hUpdate : update before = .error error) :
    effect procedure before = (.error error, before) := by
  rw [h before, hUpdate]

theorem Performs.atomic (h : Performs procedure update) : Atomic procedure := by
  intro before error after hFails
  rw [h before] at hFails
  cases hUpdate : update before with
  | ok result =>
      rw [hUpdate] at hFails
      cases congrArg Prod.fst hFails
  | error cause =>
      rw [hUpdate] at hFails
      exact (congrArg Prod.snd hFails).symm

theorem Atomic.map (h : Atomic procedure) (change : α → β) : Atomic (change <$> procedure) := by
  intro before error after hFails
  rw [effect_map] at hFails
  obtain ⟨hReply, rfl⟩ := Prod.mk.inj hFails
  cases hEffect : effect procedure before with
  | mk outcome middle =>
      rw [hEffect] at hReply
      cases outcome with
      | ok value => cases hReply
      | error cause => exact h before cause middle hEffect

/-- A question before an atomic step keeps it atomic. -/
theorem atomic_ask_bind {question : σ → Except Error α} {rest : α → Procedure σ β}
    (h : ∀ answer, Atomic (rest answer)) : Atomic (ask question >>= rest) := by
  intro before error after hFails
  rw [effect_bind, effect_ask] at hFails
  cases hQuestion : question before with
  | ok answer =>
      rw [hQuestion] at hFails
      exact h answer before error after hFails
  | error cause =>
      rw [hQuestion] at hFails
      exact (congrArg Prod.snd hFails).symm

theorem atomic_modify (change : σ → σ) : Atomic (modify change : Procedure σ PUnit) := by
  intro before error after hFails
  rw [effect_modify] at hFails
  cases congrArg Prod.fst hFails

/-! ## Sessions -/

variable {call reply : Type} {perform : call → Procedure σ reply}

/-- The replies to calls made one after the other, and the receiver behind the last. -/
def session (perform : call → Procedure σ reply) :
    List call → σ → List (Except Error reply) × σ
  | [], state => ([], state)
  | first :: later, state =>
      let (answer, middle) := effect (perform first) state
      let (answers, last) := session perform later middle
      (answer :: answers, last)

/-- A call that fails can be left out of any session: the other calls are answered as
before, and the receiver ends up the same. -/
def Retries (perform : call → Procedure σ reply) : Prop :=
  ∀ earlier failing later before error,
    (session perform (earlier ++ failing :: later) before).1[earlier.length]? =
        some (.error error) →
      session perform (earlier ++ later) before =
        ((session perform (earlier ++ failing :: later) before).1.eraseIdx earlier.length,
          (session perform (earlier ++ failing :: later) before).2)

/-- A session goes on where its first part has ended. -/
theorem session_append (earlier later : List call) (before : σ) :
    session perform (earlier ++ later) before =
      ((session perform earlier before).1 ++
          (session perform later (session perform earlier before).2).1,
        (session perform later (session perform earlier before).2).2) := by
  induction earlier generalizing before with
  | nil => rfl
  | cons first earlier ih => simp [session, ih]

/-- Every call of a session is answered. -/
@[simp] theorem length_session (calls : List call) (before : σ) :
    (session perform calls before).1.length = calls.length := by
  induction calls generalizing before with
  | nil => rfl
  | cons first later ih => simp [session, ih]

/-- The receiver behind a session is what its calls leave one after the other. -/
theorem session_snd (calls : List call) (before : σ) :
    (session perform calls before).2 =
      calls.foldl (fun state call => (effect (perform call) state).2) before := by
  induction calls generalizing before with
  | nil => rfl
  | cons first later ih => simp [session, ih]

/-- Atomic calls can be retried. -/
theorem retries_of_atomic (h : ∀ call, Atomic (perform call)) : Retries perform := by
  intro earlier failing later before error hFails
  rw [session_append] at hFails ⊢
  rw [session_append earlier (failing :: later)]
  generalize (session perform earlier before).2 = middle at hFails ⊢
  have hLength : (session perform earlier before).1.length = earlier.length :=
    length_session earlier before
  rw [List.getElem?_append_right (Nat.le_of_eq hLength), hLength, Nat.sub_self] at hFails
  rw [List.eraseIdx_append_of_length_le (Nat.le_of_eq hLength), hLength, Nat.sub_self]
  cases hEffect : effect (perform failing) middle with
  | mk answer last =>
      simp only [session, hEffect, List.getElem?_cons_zero, Option.some.injEq] at hFails
      subst hFails
      have hSame : last = middle := h failing middle error last hEffect
      simp [session, hEffect, hSame]

end Procedure
end ForestGraph
