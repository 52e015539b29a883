import Mathlib.Data.List.Basic

/-!
# Bounded first-in first-out queues and refinement of call sequences

`BoundedFifo T c` is a list of at most `c` values, oldest first; the bound
is part of the value. `append` accepts as many values as fit and `drop`
removes the oldest ones.

The second half is about call sequences in general. A specification may
refuse a call (its precondition fails), an implementation performs every
call; `Refines.run` lifts a step-by-step simulation, answers included, to
any sequence whose preconditions hold.
-/

structure BoundedFifo (T : Type) (c : Nat) where
  items : List T
  bound : items.length ≤ c

namespace BoundedFifo

variable {T : Type} {c : Nat}

def empty : BoundedFifo T c := ⟨[], Nat.zero_le c⟩

def free (q : BoundedFifo T c) : Nat := c - q.items.length

/-- Append as many of `xs` as fit, from the front of `xs`. -/
def append (q : BoundedFifo T c) (xs : List T) : BoundedFifo T c where
  items := q.items ++ xs.take q.free
  bound := by
    have hbound := q.bound
    simp only [List.length_append, List.length_take, free]
    omega

/-- Remove the `n` oldest values, or all when there are fewer. -/
def drop (q : BoundedFifo T c) (n : Nat) : BoundedFifo T c where
  items := q.items.drop n
  bound := by
    have hbound := q.bound
    simp only [List.length_drop]
    omega

@[simp] theorem append_items (q : BoundedFifo T c) (xs : List T) :
    (q.append xs).items = q.items ++ xs.take q.free := rfl

@[simp] theorem drop_items (q : BoundedFifo T c) (n : Nat) :
    (q.drop n).items = q.items.drop n := rfl

/-- One value is accepted whenever the queue is not full. -/
theorem append_singleton_items {q : BoundedFifo T c} (h : q.items.length < c) (x : T) :
    (q.append [x]).items = q.items ++ [x] := by
  have hfree : 1 ≤ q.free := by unfold free; omega
  rw [append_items, List.take_of_length_le hfree]

end BoundedFifo

/-! ## Call sequences -/

namespace CallSequence

variable {Q A C S : Type}

/-- The answers and the last state of an implementation. -/
def perform (step : Q → C → A × C) : List Q → C → List A × C
  | [], s => ([], s)
  | q :: qs, s =>
    let r := step q s
    let rest := perform step qs r.2
    (r.1 :: rest.1, rest.2)

/-- The answers and the last state of a specification; `none` when the
precondition of one of the calls fails. -/
def expect (step : Q → S → Option (A × S)) : List Q → S → Option (List A × S)
  | [], s => some ([], s)
  | q :: qs, s => (step q s).bind fun r =>
    (expect step qs r.2).map fun rest => (r.1 :: rest.1, rest.2)

/-- The implementation gives the specified answer to every call whose
precondition holds, and stays related. -/
def Refines (impl : Q → C → A × C) (spec : Q → S → Option (A × S)) (R : C → S → Prop) : Prop :=
  ∀ q s t a t', R s t → spec q t = some (a, t') → (impl q s).1 = a ∧ R (impl q s).2 t'

theorem Refines.run {impl : Q → C → A × C} {spec : Q → S → Option (A × S)} {R : C → S → Prop}
    (h : Refines impl spec R) {qs : List Q} {s : C} {t t' : S} {as : List A} (hR : R s t)
    (hspec : expect spec qs t = some (as, t')) :
    (perform impl qs s).1 = as ∧ R (perform impl qs s).2 t' := by
  induction qs generalizing s t as with
  | nil =>
      obtain ⟨rfl, rfl⟩ := Prod.mk.inj (Option.some.inj hspec)
      exact ⟨rfl, hR⟩
  | cons q qs ih =>
      obtain ⟨⟨a, u⟩, hq, hrest⟩ := Option.bind_eq_some_iff.mp hspec
      obtain ⟨⟨bs, v⟩, hqs, heq⟩ := Option.map_eq_some_iff.mp hrest
      obtain ⟨rfl, rfl⟩ := Prod.mk.inj heq
      obtain ⟨ha, hu⟩ := h q s t a u hR hq
      obtain ⟨has, hv⟩ := ih hu hqs
      exact ⟨by rw [perform, ha, has], hv⟩

end CallSequence
