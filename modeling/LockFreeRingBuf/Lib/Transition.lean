import Mathlib.Logic.Relation

/-!
# Transition systems and their runs

A system is a set of initial states and a partial step function on
labels: `step l s = none` when `l` is not enabled in `s`. Reachability is
the reflexive-transitive closure of the steps; a `Run` lists the states
of one execution by time, and may stutter, so that a finite execution is
a run too. The two views meet in `Reachable.exists_run` and
`Run.reachable`; `Reachable.project` and `Run.project` carry the reachable
states and the runs of a composed system to those of a component.
-/

namespace Transition

structure System (L S : Type) where
  init : S → Prop
  step : L → S → Option S

namespace System

variable {L S : Type} (sys : System L S)

/-- One step, whatever its label. -/
def Next (s s' : S) : Prop := ∃ l, sys.step l s = some s'

/-- `s'` is reached from `s` in zero or more steps. -/
def Steps (s s' : S) : Prop := Relation.ReflTransGen sys.Next s s'

def Reachable (s : S) : Prop := ∃ s₀, sys.init s₀ ∧ sys.Steps s₀ s

/-- Perform the labels in order; `none` when one of them is not enabled. -/
def perform : List L → S → Option S
  | [], s => some s
  | l :: ls, s => (sys.step l s).bind (perform ls)

variable {sys}

theorem Reachable.of_init {s : S} (h : sys.init s) : sys.Reachable s :=
  ⟨s, h, .refl⟩

theorem Reachable.step {s s' : S} {l : L} (h : sys.Reachable s)
    (hs : sys.step l s = some s') : sys.Reachable s' := by
  obtain ⟨s₀, h₀, hsteps⟩ := h
  exact ⟨s₀, h₀, hsteps.tail ⟨l, hs⟩⟩

theorem Reachable.steps {s s' : S} (h : sys.Reachable s) (hs : sys.Steps s s') :
    sys.Reachable s' := by
  obtain ⟨s₀, h₀, hsteps⟩ := h
  exact ⟨s₀, h₀, hsteps.trans hs⟩

/-- What holds at `s` and is kept by every step from a reachable state
holds wherever `s` leads. -/
theorem Steps.invariant {I : S → Prop} {s s' : S} (hr : sys.Reachable s)
    (h : sys.Steps s s') (hI : I s)
    (hstep : ∀ l u u', sys.Reachable u → I u → sys.step l u = some u' → I u') : I s' := by
  induction h with
  | refl => exact hI
  | @tail u v hsu hnext ih =>
      obtain ⟨l, hl⟩ := hnext
      exact hstep l u v (hr.steps hsu) ih hl

/-- What holds initially and is kept by every step from a reachable state
holds in every reachable state. -/
theorem Reachable.invariant {I : S → Prop} {s : S} (h : sys.Reachable s)
    (hinit : ∀ s, sys.init s → I s)
    (hstep : ∀ l u u', sys.Reachable u → I u → sys.step l u = some u' → I u') : I s := by
  obtain ⟨s₀, h₀, hsteps⟩ := h
  exact Steps.invariant (.of_init h₀) hsteps (hinit s₀ h₀) hstep

theorem steps_of_perform {ls : List L} {s s' : S} (h : sys.perform ls s = some s') :
    sys.Steps s s' := by
  induction ls generalizing s with
  | nil =>
      obtain rfl := Option.some.inj h
      exact .refl
  | cons l ls ih =>
      obtain ⟨u, hu, hrest⟩ := Option.bind_eq_some_iff.mp h
      exact .head ⟨l, hu⟩ (ih hrest)

/-- If every step of `sys` is, seen through `π`, a step of `comp` or no
step at all, then `π` sends reachable states to reachable states. -/
theorem Reachable.project {L' S' : Type} {comp : System L' S'} {π : S → S'} {s : S}
    (h : sys.Reachable s) (hinit : ∀ s, sys.init s → comp.init (π s))
    (hstep : ∀ l u u', sys.step l u = some u' →
      π u' = π u ∨ ∃ l', comp.step l' (π u) = some (π u')) :
    comp.Reachable (π s) := by
  refine h.invariant (I := fun s => comp.Reachable (π s))
    (fun s hs => .of_init (hinit s hs)) ?_
  intro l u u' _ hu hl
  rcases hstep l u u' hl with heq | ⟨l', hl'⟩
  · rw [heq]; exact hu
  · exact hu.step hl'

end System

/-! ## Runs -/

/-- One execution: the state at each time, and the label performed at each
time, `none` where the run stutters. -/
structure Run {L S : Type} (sys : System L S) where
  state : Nat → S
  label : Nat → Option L
  start : sys.init (state 0)
  next : ∀ t, (label t = none ∧ state (t + 1) = state t)
    ∨ ∃ l, label t = some l ∧ sys.step l (state t) = some (state (t + 1))

variable {L S : Type} {sys : System L S}

theorem Run.reachable (ρ : Run sys) (t : Nat) : sys.Reachable (ρ.state t) := by
  induction t with
  | zero => exact .of_init ρ.start
  | succ t ih =>
      rcases ρ.next t with ⟨-, heq⟩ | ⟨l, -, hl⟩
      · rw [heq]; exact ih
      · exact ih.step hl

/-- The run that stays at an initial state. -/
def Run.idle {s : S} (h : sys.init s) : Run sys where
  state _ := s
  label _ := none
  start := h
  next _ := .inl ⟨rfl, rfl⟩

/-- A run seen through `π`, if every step is then the step that `lab` says, or no
step at all. -/
def Run.project {L' S' : Type} {comp : System L' S'} (ρ : Run sys) (π : S → S')
    (lab : S → L → Option L') (hinit : ∀ s, sys.init s → comp.init (π s))
    (hstep : ∀ l s s', sys.step l s = some s' →
      (lab s l = none ∧ π s' = π s)
        ∨ ∃ l', lab s l = some l' ∧ comp.step l' (π s) = some (π s')) : Run comp where
  state t := π (ρ.state t)
  label t := (ρ.label t).bind (lab (ρ.state t))
  start := hinit _ ρ.start
  next t := by
    rcases ρ.next t with ⟨hnone, heq⟩ | ⟨l, hl, hs⟩
    · exact .inl ⟨by rw [hnone]; rfl, congrArg π heq⟩
    · rcases hstep l _ _ hs with ⟨hlab, heq⟩ | ⟨l', hlab, hs'⟩
      · exact .inl ⟨by rw [hl]; exact hlab, heq⟩
      · exact .inr ⟨l', by rw [hl]; exact hlab, hs'⟩

/-- The state at each time when the labels are tried in order, those not
enabled being skipped. -/
def System.replay (sys : System L S) (ls : List L) (s : S) : Nat → S
  | 0 => s
  | t + 1 =>
    let u := sys.replay ls s t
    (ls[t]?.bind fun l => sys.step l u).getD u

/-- The run that replays a schedule, and then stutters. -/
def Run.replay (sys : System L S) (ls : List L) {s : S} (h : sys.init s) : Run sys where
  state := sys.replay ls s
  label t := ls[t]?.filter fun l => (sys.step l (sys.replay ls s t)).isSome
  start := h
  next t := by
    simp only [System.replay]
    cases hl : ls[t]? with
    | none => exact .inl ⟨rfl, rfl⟩
    | some l =>
        cases hs : sys.step l (sys.replay ls s t) with
        | none => exact .inl ⟨by simp [hs], by simp [hs]⟩
        | some s' => exact .inr ⟨l, by simp [hs], by simp [hs]⟩

/-- Cut a run at time `t` and perform `l` there, then stutter. -/
def Run.extend (ρ : Run sys) (t : Nat) {l : L} {s' : S}
    (h : sys.step l (ρ.state t) = some s') : Run sys where
  state u := if u ≤ t then ρ.state u else s'
  label u := if u < t then ρ.label u else if u = t then some l else none
  start := by simpa using ρ.start
  next u := by
    rcases Nat.lt_trichotomy u t with hlt | rfl | hgt
    · simpa [hlt, Nat.le_of_lt hlt, Nat.succ_le_of_lt hlt] using ρ.next u
    · exact .inr ⟨l, by simp, by simpa [Nat.not_succ_le_self] using h⟩
    · exact .inl ⟨by simp [Nat.lt_asymm hgt, Nat.ne_of_gt hgt],
        by simp [Nat.not_le_of_gt hgt, show ¬ u + 1 ≤ t by omega]⟩

theorem System.Reachable.exists_run {s : S} (h : sys.Reachable s) :
    ∃ (ρ : Run sys) (t : Nat), ρ.state t = s := by
  refine h.invariant (I := fun s => ∃ (ρ : Run sys) (t : Nat), ρ.state t = s)
    (fun s hs => ⟨.idle hs, 0, rfl⟩) ?_
  rintro l u u' - ⟨ρ, t, rfl⟩ hl
  exact ⟨ρ.extend t hl, t + 1, if_neg (Nat.not_succ_le_self t)⟩

/-! ## Turns and ranks -/

namespace Run

/-- How many of the steps before time `t` have a label that `p` picks out. -/
def turns (ρ : Run sys) (p : L → Bool) : Nat → Nat
  | 0 => 0
  | t + 1 => turns ρ p t + if (ρ.label t).any p then 1 else 0

variable (ρ : Run sys) {I : S → Prop}

/-- A rank that no step raises, and that every step picked out lowers, bounds
the number of those steps. -/
theorem turns_add_rank_le {p : L → Bool} (rank : S → Nat)
    (hrank : ∀ l s s', I s → I s' → sys.step l s = some s' →
      rank s' + (if p l then 1 else 0) ≤ rank s)
    {t : Nat} (hI : ∀ u, u ≤ t → I (ρ.state u)) :
    ρ.turns p t + rank (ρ.state t) ≤ rank (ρ.state 0) := by
  induction t with
  | zero => simp [turns]
  | succ t ih =>
      have hbefore := ih fun u hu => hI u (Nat.le_succ_of_le hu)
      rcases ρ.next t with ⟨hnone, heq⟩ | ⟨l, hl, hstep⟩
      · rw [heq]
        simpa [turns, hnone] using hbefore
      · have hlower := hrank l _ _ (hI t (Nat.le_succ t)) (hI (t + 1) (Nat.le_refl _)) hstep
        simp only [turns, hl, Option.any_some]
        omega

/-- What relates a state to itself, composes, and holds across every step holds
between any two times. -/
theorem between {r : S → S → Prop} (hrefl : ∀ s, r s s)
    (htrans : ∀ s s' s'', r s s' → r s' s'' → r s s'')
    (hstep : ∀ l s s', I s → I s' → sys.step l s = some s' → r s s')
    {a b : Nat} (hab : a ≤ b) (hI : ∀ u, a ≤ u → u ≤ b → I (ρ.state u)) :
    r (ρ.state a) (ρ.state b) := by
  induction hab with
  | refl => exact hrefl _
  | @step b hab ih =>
      have hbefore := ih fun u hu hu' => hI u hu (Nat.le_succ_of_le hu')
      rcases ρ.next b with ⟨-, heq⟩ | ⟨l, -, hl⟩
      · rw [heq]
        exact hbefore
      · exact htrans _ _ _ hbefore (hstep l _ _ (hI b hab (Nat.le_succ b))
          (hI (b + 1) (Nat.le_succ_of_le hab) (Nat.le_refl _)) hl)

/-- What holds at the start and not later stops holding at some step. -/
theorem exists_leaving (h : I (ρ.state 0)) {t : Nat} (ht : ¬ I (ρ.state t)) :
    ∃ u, (∀ x, x ≤ u → I (ρ.state x)) ∧ ¬ I (ρ.state (u + 1)) := by
  refine Classical.byContradiction fun hnever => ht ?_
  have hall : ∀ u x, x ≤ u → I (ρ.state x) := by
    intro u
    induction u with
    | zero =>
        intro x hx
        obtain rfl := Nat.le_zero.mp hx
        exact h
    | succ u ih =>
        intro x hx
        rcases Nat.le_succ_iff.mp hx with hx | rfl
        · exact ih x hx
        · exact Classical.not_not.mp fun hnot => hnever ⟨u, ih, hnot⟩
  exact hall t t (Nat.le_refl t)

end Run

/-! ## Two systems in step -/

section

variable {α β γ δ S' : Type} {p : α → β → Prop} {q : γ → δ → Prop}

theorem rel_bind {x : Option α} {y : Option β} {f : α → Option γ} {g : β → Option δ}
    (h : Option.Rel p x y) (hfg : ∀ a b, p a b → Option.Rel q (f a) (g b)) :
    Option.Rel q (x.bind f) (y.bind g) := by
  cases h with
  | none => exact .none
  | some hab => exact hfg _ _ hab

theorem rel_map {x : Option α} {y : Option β} {f : α → γ} {g : β → δ}
    (h : Option.Rel p x y) (hfg : ∀ a b, p a b → q (f a) (g b)) :
    Option.Rel q (x.map f) (y.map g) := by
  cases h with
  | none => exact .none
  | some hab => exact .some (hfg _ _ hab)

theorem exists_of_rel {a : α} {y : Option β} (h : Option.Rel p (some a) y) :
    ∃ b, y = some b ∧ p a b := by
  cases h with
  | some hab => exact ⟨_, rfl, hab⟩

/-- If related states enable the same steps, and are related after each, then
they keep the same schedules, and are related after each. -/
theorem System.perform_rel {sys' : System L S'} {r : S → S' → Prop}
    (hstep : ∀ l s s', r s s' → Option.Rel r (sys.step l s) (sys'.step l s')) (ls : List L)
    {s : S} {s' : S'} (h : r s s') : Option.Rel r (sys.perform ls s) (sys'.perform ls s') := by
  induction ls generalizing s s' with
  | nil => exact .some h
  | cons l ls ih => exact rel_bind (hstep l s s' h) fun _ _ hnext => ih hnext

end

end Transition
