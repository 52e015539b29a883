import Mathlib.Data.List.Range
import Mathlib.Order.Basic

/-!
# Linearizability

Threads call the operations of a shared object. A call begins at one time of
an execution and returns at a later one. The execution is linearizable if
every call can be said to take effect at a single time in between, such that
the object changes at these times only, and then as its sequential
specification says for the answer that the call returns.

`Follows` is how one proves it: a thread is idle, has invoked an operation,
or has had its effect and not returned yet, and every step of the execution
moves the threads through these three in turn. In `Acts` the effects are
not given but read off: they are the steps that take a thread from the
second to the third.
-/

namespace Linearizability

variable {I O R S : Type}

/-- What an operation may answer, and what becomes of the object. An operation
that has to wait is one with no answer. -/
abbrev Spec (O R S : Type) := O → R → S → S → Prop

/-- When the threads of an execution begin calls, and when calls return. -/
structure History (I O R : Type) where
  begins : Nat → I → O → Prop
  returns : Nat → I → R → Prop

/-- The call of `o` that thread `i` began at time `a` has not returned before
time `t`. -/
def History.Open (H : History I O R) (i : I) (a : Nat) (o : O) (t : Nat) : Prop :=
  H.begins a i o ∧ a < t ∧ ∀ u, a < u → u < t → ∀ r, ¬ H.returns u i r

/-- `effect` names the call, if any, that takes effect at each time, with the
answer it gives. -/
structure Linearizes (spec : Spec O R S) (H : History I O R) (state : Nat → S)
    (effect : Nat → Option (I × O × R)) : Prop where
  quiet : ∀ {t}, effect t = none → state (t + 1) = state t
  legal : ∀ {t i o r}, effect t = some (i, o, r) → spec o r (state t) (state (t + 1))
  inside : ∀ {t i o r}, effect t = some (i, o, r) → ∃ a, H.Open i a o t
  once : ∀ {i a o t u e f}, H.Open i a o t → H.Open i a o u → effect t = some (i, e) →
    effect u = some (i, f) → t = u
  complete : ∀ {i a b o r}, H.Open i a o b → H.returns b i r →
    ∃ t, a < t ∧ t < b ∧ effect t = some (i, o, r)

/-! ## The sequential execution -/

/-- The operations, one after the other, with their answers. -/
inductive Replays (spec : Spec O R S) : List (I × O × R) → S → S → Prop
  | nil {s} : Replays spec [] s s
  | snoc {log s u v i o r} : Replays spec log s u → spec o r u v →
      Replays spec (log ++ [(i, o, r)]) s v

/-- The calls that have taken effect before time `t`, in this order. -/
def log (effect : Nat → Option (I × O × R)) (t : Nat) : List (I × O × R) :=
  (List.range t).filterMap effect

theorem log_succ (effect : Nat → Option (I × O × R)) (t : Nat) :
    log effect (t + 1) = log effect t ++ (effect t).toList := by
  rw [log, List.range_succ, List.filterMap_append, log]
  cases h : effect t <;> simp [h]

namespace Linearizes

variable {spec : Spec O R S} {H : History I O R} {state : Nat → S}
  {effect : Nat → Option (I × O × R)}

theorem replays (h : Linearizes spec H state effect) (t : Nat) :
    Replays spec (log effect t) (state 0) (state t) := by
  induction t with
  | zero => exact .nil
  | succ t ih =>
      rw [log_succ]
      cases he : effect t with
      | none =>
          rw [h.quiet he]
          simpa using ih
      | some e => exact .snoc ih (h.legal he)

end Linearizes

/-! ## Proving it step by step -/

inductive Status (O R : Type) where
  | idle
  | invoked (o : O)
  /-- The call has taken effect, and will return `r`. -/
  | applied (o : O) (r : R)

/-- Thread `i` takes effect at time `t`. -/
def Takes (effect : Nat → Option (I × O × R)) (t : Nat) (i : I) : Prop :=
  ∃ e, effect t = some (i, e)

/-- Every step takes the threads through invocation, effect and return. -/
structure Follows (H : History I O R) (effect : Nat → Option (I × O × R))
    (status : Nat → I → Status O R) : Prop where
  start : ∀ i, status 0 i = .idle
  begins : ∀ {t i o}, H.begins t i o → status t i = .idle ∧ status (t + 1) i = .invoked o
  returns : ∀ {t i r}, H.returns t i r →
    (∃ o, status t i = .applied o r) ∧ status (t + 1) i = .idle
  takes : ∀ {t i o r}, effect t = some (i, o, r) →
    status t i = .invoked o ∧ status (t + 1) i = .applied o r
  stays : ∀ {t i}, (∀ o, ¬ H.begins t i o) → (∀ r, ¬ H.returns t i r) → ¬ Takes effect t i →
    status (t + 1) i = status t i

namespace Follows

variable {spec : Spec O R S} {H : History I O R} {state : Nat → S}
  {effect : Nat → Option (I × O × R)} {status : Nat → I → Status O R}

/-- The four things a step can be to a thread. -/
theorem step_cases (h : Follows H effect status) (t : Nat) (i : I) :
    (∃ o, H.begins t i o ∧ status t i = .idle ∧ status (t + 1) i = .invoked o)
      ∨ (∃ o r, H.returns t i r ∧ status t i = .applied o r ∧ status (t + 1) i = .idle)
      ∨ (∃ o r, effect t = some (i, o, r) ∧ status t i = .invoked o
          ∧ status (t + 1) i = .applied o r)
      ∨ ((∀ r, ¬ H.returns t i r) ∧ ¬ Takes effect t i ∧ status (t + 1) i = status t i) := by
  by_cases hb : ∃ o, H.begins t i o
  · obtain ⟨o, ho⟩ := hb
    exact .inl ⟨o, ho, h.begins ho⟩
  · by_cases hr : ∃ r, H.returns t i r
    · obtain ⟨r, hr⟩ := hr
      obtain ⟨⟨o, ho⟩, hidle⟩ := h.returns hr
      exact .inr (.inl ⟨o, r, hr, ho, hidle⟩)
    · by_cases he : Takes effect t i
      · obtain ⟨⟨o, r⟩, heff⟩ := he
        exact .inr (.inr (.inl ⟨o, r, heff, h.takes heff⟩))
      · have hno : ∀ r, ¬ H.returns t i r := fun r hr' => hr ⟨r, hr'⟩
        exact .inr (.inr (.inr ⟨hno, he, h.stays (fun o ho => hb ⟨o, ho⟩) hno he⟩))

/-- An open call has not taken effect yet, or once. -/
theorem status_open (h : Follows H effect status) {i : I} {a : Nat} {o : O} {t : Nat}
    (hopen : H.Open i a o t) :
    (status t i = .invoked o ∧ ∀ u, a < u → u < t → ¬ Takes effect u i)
      ∨ ∃ r v, status t i = .applied o r ∧ a < v ∧ v < t ∧ effect v = some (i, o, r) := by
  obtain ⟨hbegin, hat, hno⟩ := hopen
  induction hat with
  | refl => exact .inl ⟨(h.begins hbegin).2, fun u hu hu' => absurd hu' (by omega)⟩
  | @step t hat ih =>
      have hat' : a < t := hat
      have hbefore := ih fun u hau hut => hno u hau (by omega)
      rcases h.step_cases t i with ⟨o', -, hidle, -⟩ | ⟨o', r, hret, -⟩ | ⟨o', r, heff, hinv, happ⟩
        | ⟨-, hnone, hsame⟩
      · rcases hbefore with ⟨hst, -⟩ | ⟨r, v, hst, -⟩ <;> rw [hidle] at hst <;> cases hst
      · exact absurd hret (hno t hat' (Nat.lt_succ_self t) r)
      · rcases hbefore with ⟨hst, -⟩ | ⟨r', v, hst, -⟩
        · obtain rfl := Status.invoked.inj (hinv.symm.trans hst)
          exact .inr ⟨r, t, happ, hat', Nat.lt_succ_self t, heff⟩
        · rw [hinv] at hst; cases hst
      · rw [hsame]
        rcases hbefore with ⟨hst, hnot⟩ | ⟨r, v, hst, hav, hvt, heff⟩
        · refine .inl ⟨hst, fun u hau hut => ?_⟩
          rcases Nat.lt_succ_iff_lt_or_eq.mp hut with hlt | rfl
          · exact hnot u hau hlt
          · exact hnone
        · exact .inr ⟨r, v, hst, hav, Nat.lt_succ_of_lt hvt, heff⟩

/-- A thread that has invoked an operation is in a call of it. -/
theorem open_of_invoked (h : Follows H effect status) {i : I} {o : O} {t : Nat}
    (hst : status t i = .invoked o) : ∃ a, H.Open i a o t := by
  induction t with
  | zero =>
      rw [h.start i] at hst
      cases hst
  | succ t ih =>
      rcases h.step_cases t i with
        ⟨o', hbegin, -, hinv⟩ | ⟨o', r, -, -, hidle⟩ | ⟨o', r, -, -, happ⟩ | ⟨hno, -, hsame⟩
      · obtain rfl := Status.invoked.inj (hinv.symm.trans hst)
        exact ⟨t, hbegin, Nat.lt_succ_self t, fun u hu hu' => absurd hu' (by omega)⟩
      · rw [hidle] at hst; cases hst
      · rw [happ] at hst; cases hst
      · obtain ⟨a, hbegin, hat, hnot⟩ := ih (hsame.symm.trans hst)
        refine ⟨a, hbegin, Nat.lt_succ_of_lt hat, fun u hau hut => ?_⟩
        rcases Nat.lt_succ_iff_lt_or_eq.mp hut with hlt | rfl
        · exact hnot u hau hlt
        · exact hno

theorem linearizes (h : Follows H effect status)
    (hquiet : ∀ {t}, effect t = none → state (t + 1) = state t)
    (hlegal : ∀ {t i o r}, effect t = some (i, o, r) → spec o r (state t) (state (t + 1))) :
    Linearizes spec H state effect := by
  have hfirst : ∀ {i a o t u e f}, H.Open i a o t → H.Open i a o u → effect t = some (i, e) →
      effect u = some (i, f) → ¬ t < u := by
    rintro i a o t u e ⟨o', r⟩ ht hu het heu htu
    have hinv := (h.takes heu).1
    rcases h.status_open hu with ⟨-, hnot⟩ | ⟨r', v, happ, -⟩
    · exact hnot t ht.2.1 htu ⟨e, het⟩
    · rw [hinv] at happ; cases happ
  refine ⟨hquiet, hlegal, fun heff => h.open_of_invoked (h.takes heff).1, ?_, ?_⟩
  · intro i a o t u e f ht hu het heu
    exact Nat.le_antisymm (Nat.not_lt.mp (hfirst hu ht heu het))
      (Nat.not_lt.mp (hfirst ht hu het heu))
  · intro i a b o r hopen hret
    obtain ⟨⟨o', ho⟩, -⟩ := h.returns hret
    rcases h.status_open hopen with ⟨hst, -⟩ | ⟨r', v, hst, hav, hvb, heff⟩
    · rw [ho] at hst; cases hst
    · obtain ⟨rfl, rfl⟩ := Status.applied.inj (ho.symm.trans hst)
      exact ⟨v, hav, hvb, heff⟩

end Follows

/-! ## Effects read off the statuses -/

/-- A step that is no call and no return: what it makes of the status of the
thread that takes it, and of the object. -/
inductive Advances (spec : Spec O R S) : Status O R → Status O R → S → S → Prop
  | stays {x s} : Advances spec x x s s
  | takes {o r s s'} : spec o r s s' → Advances spec (.invoked o) (.applied o r) s s'

/-- The effect of such a step. -/
def Status.took : Status O R → Status O R → Option (O × R)
  | .invoked o, .applied _ r => some (o, r)
  | _, _ => none

/-- The call that takes effect at time `t`, a step of thread `actor t`. -/
def tookAt (status : Nat → I → Status O R) (actor : Nat → Option I) (t : Nat) :
    Option (I × O × R) :=
  (actor t).bind fun i => ((status t i).took (status (t + 1) i)).map (i, ·)

theorem Status.took_cases {x y : Status O R} {o : O} {r : R} (h : x.took y = some (o, r)) :
    x = .invoked o ∧ ∃ o', y = .applied o' r := by
  unfold took at h
  split at h
  · obtain ⟨rfl, rfl⟩ := Prod.mk.inj (Option.some.inj h)
    exact ⟨rfl, _, rfl⟩
  · cases h

theorem tookAt_cases {status : Nat → I → Status O R} {actor : Nat → Option I} {t : Nat} {i : I}
    {o : O} {r : R} (h : tookAt status actor t = some (i, o, r)) :
    actor t = some i ∧ status t i = .invoked o ∧ ∃ o', status (t + 1) i = .applied o' r := by
  obtain ⟨j, hj, hmap⟩ := Option.bind_eq_some_iff.mp h
  obtain ⟨e, he, heq⟩ := Option.map_eq_some_iff.mp hmap
  obtain ⟨rfl, rfl⟩ := Prod.mk.inj heq
  exact ⟨hj, Status.took_cases he⟩

theorem tookAt_eq {status : Nat → I → Status O R} {actor : Nat → Option I} {t : Nat} {i : I}
    {o o' : O} {r : R} (hactor : actor t = some i) (hinvoked : status t i = .invoked o)
    (happlied : status (t + 1) i = .applied o' r) :
    tookAt status actor t = some (i, o, r) := by
  simp only [tookAt, hactor, Option.bind_some, hinvoked, happlied, Status.took, Option.map_some]

/-- Every step is a step of the thread that `actor` names, if any: a call, a
return, or an advance inside a call. -/
structure Acts (spec : Spec O R S) (H : History I O R) (state : Nat → S)
    (status : Nat → I → Status O R) (actor : Nat → Option I) : Prop where
  start : ∀ i, status 0 i = .idle
  begins : ∀ {t i o}, H.begins t i o →
    status t i = .idle ∧ status (t + 1) i = .invoked o ∧ state (t + 1) = state t
  returns : ∀ {t i r}, H.returns t i r →
    (∃ o, status t i = .applied o r) ∧ status (t + 1) i = .idle ∧ state (t + 1) = state t
  others : ∀ {t i}, actor t ≠ some i → status (t + 1) i = status t i
  idles : ∀ {t}, actor t = none → state (t + 1) = state t
  acts : ∀ {t i}, actor t = some i → (∀ o, ¬ H.begins t i o) → (∀ r, ¬ H.returns t i r) →
    Advances spec (status t i) (status (t + 1) i) (state t) (state (t + 1))

namespace Acts

variable {spec : Spec O R S} {H : History I O R} {state : Nat → S}
  {status : Nat → I → Status O R} {actor : Nat → Option I}

/-- The thread that takes effect does so as specified. -/
theorem takes (h : Acts spec H state status actor) {t : Nat} {i : I} {o : O} {r : R}
    (heffect : tookAt status actor t = some (i, o, r)) :
    status t i = .invoked o ∧ status (t + 1) i = .applied o r
      ∧ spec o r (state t) (state (t + 1)) := by
  obtain ⟨hactor, hinvoked, o', happlied⟩ := tookAt_cases heffect
  have hadvances := h.acts hactor
    (fun o hbegin => by rw [(h.begins hbegin).1] at hinvoked; cases hinvoked)
    (fun r hreturn => by rw [(h.returns hreturn).2.1] at happlied; cases happlied)
  rw [hinvoked, happlied] at hadvances
  cases hadvances with
  | takes hspec => exact ⟨hinvoked, happlied, hspec⟩

/-- A thread that does not take effect stays where it is, and if the step is its
own then so does the object. -/
theorem stays (h : Acts spec H state status actor) {t : Nat} {i : I}
    (hbegin : ∀ o, ¬ H.begins t i o) (hreturn : ∀ r, ¬ H.returns t i r)
    (htake : ¬ Takes (tookAt status actor) t i) :
    status (t + 1) i = status t i ∧ (actor t = some i → state (t + 1) = state t) := by
  by_cases hi : actor t = some i
  · have hadvances := h.acts hi hbegin hreturn
    generalize hx : status t i = x at hadvances
    generalize hy : status (t + 1) i = y at hadvances
    generalize state t = u, state (t + 1) = v at hadvances ⊢
    cases hadvances with
    | stays => exact ⟨rfl, fun _ => rfl⟩
    | @takes o r => exact absurd ⟨(o, r), tookAt_eq hi hx hy⟩ htake
  · exact ⟨h.others hi, fun hi' => absurd hi' hi⟩

theorem quiet (h : Acts spec H state status actor) {t : Nat}
    (hnone : tookAt status actor t = none) : state (t + 1) = state t := by
  cases hactor : actor t with
  | none => exact h.idles hactor
  | some i =>
      by_cases hbegin : ∃ o, H.begins t i o
      · obtain ⟨o, ho⟩ := hbegin
        exact (h.begins ho).2.2
      · by_cases hreturn : ∃ r, H.returns t i r
        · obtain ⟨r, hr⟩ := hreturn
          exact (h.returns hr).2.2
        · refine (h.stays (fun o ho => hbegin ⟨o, ho⟩) (fun r hr => hreturn ⟨r, hr⟩) ?_).2 hactor
          rintro ⟨e, he⟩
          rw [hnone] at he
          cases he

theorem linearizes (h : Acts spec H state status actor) :
    Linearizes spec H state (tookAt status actor) := by
  have hfollows : Follows H (tookAt status actor) status :=
    { start := h.start
      begins := fun hb => ⟨(h.begins hb).1, (h.begins hb).2.1⟩
      returns := fun hr => ⟨(h.returns hr).1, (h.returns hr).2.1⟩
      takes := fun he => ⟨(h.takes he).1, (h.takes he).2.1⟩
      stays := fun hb hr ht => (h.stays hb hr ht).1 }
  exact hfollows.linearizes h.quiet fun he => (h.takes he).2.2

end Acts

end Linearizability
