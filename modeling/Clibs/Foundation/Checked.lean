import Mathlib.Tactic.Common

namespace Clibs

/-!
# Checked execution of C code

A C function either returns or leaves the defined behaviour of the language.
`Checked` makes the second outcome a value: a model of a function returns
`.error fault` exactly where the source would dereference a null pointer, touch
released storage, leave the bounds of an array, read a field that was never
assigned, fail an assertion, or block on a lock its own thread holds.
Proving that a call is `.ok` is therefore a safety statement about the source.
-/

/-- The ways in which the modelled C code can leave defined behaviour. -/
inductive Fault where
  | nullDereference
  | useAfterFree
  | doubleFree
  | assertionFailed
  | lockAlreadyHeld
  | unlockNotHeld
  | indeterminateRead
  | outOfBounds
  | divergence
  deriving Repr, DecidableEq

/-- The result of running a piece of C code. -/
abbrev Checked (α : Type) :=
  Except Fault α

namespace Checked

/-- Code that returns does not fault. -/
theorem ok_ne_error
    {α : Type}
    {value : α}
    {fault : Fault} :
    (Except.ok value : Checked α) ≠ .error fault :=
  nofun

@[simp] theorem ok_bind
    {α β : Type}
    (value : α)
    (next : α → Checked β) :
    (Except.ok value >>= next) = next value :=
  rfl

@[simp] theorem pure_bind_ok
    {α β : Type}
    (value : α)
    (next : α → Checked β) :
    ((pure value : Checked α) >>= next) = next value :=
  rfl

@[simp] theorem error_bind
    {α β : Type}
    (fault : Fault)
    (next : α → Checked β) :
    ((Except.error fault : Checked α) >>= next) = .error fault :=
  rfl

@[simp] theorem pure_eq_ok
    {α : Type}
    (value : α) :
    (pure value : Checked α) = .ok value :=
  rfl

@[simp] theorem throw_eq_error
    {α : Type}
    (fault : Fault) :
    (throw fault : Checked α) = .error fault :=
  rfl

@[simp] theorem map_ok
    {α β : Type}
    (project : α → β)
    (value : α) :
    (project <$> (Except.ok value : Checked α)) = .ok (project value) :=
  rfl

/-- A sequence of two pieces of code returns exactly when both return. -/
theorem bind_eq_ok
    {α β : Type}
    {first : Checked α}
    {next : α → Checked β}
    {result : β} :
    (first >>= next) = .ok result ↔
      ∃ value, first = .ok value ∧ next value = .ok result := by
  cases first with
  | error fault =>
      simp
  | ok value =>
      simp

/-- A piece of code does not end in the given fault. -/
def Avoids
    {α : Type}
    (fault : Fault)
    (code : Checked α) : Prop :=
  code ≠ .error fault

/-- Code that returns avoids every fault. -/
theorem avoids_ok
    {α : Type}
    (fault : Fault)
    (value : α) :
    Avoids fault (.ok value) := by
  simp [Avoids]

/-- A sequence of two pieces of code avoids a fault when both do. -/
theorem Avoids.bind
    {α β : Type}
    {fault : Fault}
    {first : Checked α}
    {next : α → Checked β}
    (firstAvoids : Avoids fault first)
    (nextAvoids : ∀ value, first = .ok value → Avoids fault (next value)) :
    Avoids fault (first >>= next) := by
  cases first with
  | error other =>
      intro isFault
      cases isFault
      exact firstAvoids rfl
  | ok value =>
      exact nextAvoids value rfl

/-- A piece of code blocks on a lock, or returns what is accepted. -/
def BlocksOr
    {α : Type}
    (accepts : α → Prop) : Checked α → Prop
  | .ok value =>
      accepts value
  | .error fault =>
      fault = .lockAlreadyHeld

/-- A sequence of two pieces of code blocks, or returns what is accepted. -/
theorem BlocksOr.bind
    {α β : Type}
    {first : Checked α}
    {next : α → Checked β}
    {accepts : α → Prop}
    {accepted : β → Prop}
    (firstReturns : first.BlocksOr accepts)
    (nextReturns : ∀ value, accepts value → (next value).BlocksOr accepted) :
    (first >>= next).BlocksOr accepted := by
  cases first with
  | error fault =>
      exact firstReturns
  | ok value =>
      exact nextReturns value firstReturns

/-- Two pieces of code fault alike, or return related values. -/
inductive Agree
    {α β : Type}
    (Related : α → β → Prop) : Checked α → Checked β → Prop where
  | error (fault : Fault) :
      Agree Related (.error fault) (.error fault)
  | ok
      {value : α}
      {other : β} :
      Related value other →
      Agree Related (.ok value) (.ok other)

/-- Code agrees with itself. -/
theorem Agree.refl
    {α : Type}
    (code : Checked α) :
    Agree (fun value other => value = other) code code := by
  cases code with
  | error fault =>
      exact .error fault
  | ok value =>
      exact .ok rfl

/-- Sequences of code that agrees agree. -/
theorem Agree.bind
    {α β α' β' : Type}
    {Related : α → β → Prop}
    {Next : α' → β' → Prop}
    {first : Checked α}
    {second : Checked β}
    {next : α → Checked α'}
    {later : β → Checked β'}
    (agree : Agree Related first second)
    (nextAgree :
      ∀ value other,
        Related value other → Agree Next (next value) (later other)) :
    Agree Next (first >>= next) (second >>= later) := by
  cases agree with
  | error fault =>
      exact .error fault
  | ok related =>
      exact nextAgree _ _ related

/-- Code that agrees up to a relation projects to the same results. -/
theorem Agree.map_eq
    {α β γ : Type}
    {Related : α → β → Prop}
    {first : Checked α}
    {second : Checked β}
    {project : α → γ}
    {projectOther : β → γ}
    (agree : Agree Related first second)
    (same :
      ∀ value other, Related value other → project value = projectOther other) :
    project <$> first = projectOther <$> second := by
  cases agree with
  | error fault =>
      rfl
  | ok related =>
      exact congrArg Except.ok (same _ _ related)

@[simp] theorem map_error
    {α β : Type}
    (project : α → β)
    (fault : Fault) :
    (project <$> (Except.error fault : Checked α)) = .error fault :=
  rfl

/-- A projected result comes from a result. -/
theorem map_eq_ok
    {α β : Type}
    {project : α → β}
    {code : Checked α}
    {result : β} :
    (project <$> code) = .ok result ↔
      ∃ value, code = .ok value ∧ project value = result := by
  cases code with
  | error fault =>
      simp
  | ok value =>
      simp

end Checked

end Clibs
