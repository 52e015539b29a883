/-!
# Programs cut into atomic accesses

A `Prog A R α` performs atomic accesses `a : A` of a shared memory, each
answered by a value of type `R a`, and ends with a result in `α`. Written
once, it has two meanings: `Prog.run` performs it without interruption,
and `wp` describes it among other threads, which may move the world
between any two of its accesses.

`wp` is a rely-guarantee weakest precondition over an arbitrary type of
worlds. A `Side` says how the other threads may move the world (`rely`),
what an access does (`sem`) and what each access owes (`ok`); a world may
be a memory, or the time in one fixed execution.
-/

namespace Resumption

inductive Prog (A : Type) (R : A → Type) (α : Type) : Type where
  | ret (x : α)
  | act (a : A) (k : R a → Prog A R α)

namespace Prog

variable {A : Type} {R : A → Type} {α β : Type}

def bind : Prog A R α → (α → Prog A R β) → Prog A R β
  | .ret x, f => f x
  | .act a k, f => .act a fun r => (k r).bind f

instance : Monad (Prog A R) where
  pure := .ret
  bind := bind

@[simp] theorem pure_eq (x : α) : (pure x : Prog A R α) = .ret x := rfl

@[simp] theorem ret_bind (x : α) (f : α → Prog A R β) : (ret x >>= f) = f x := rfl

@[simp] theorem act_bind (a : A) (k : R a → Prog A R α) (f : α → Prog A R β) :
    (act a k >>= f) = .act a fun r => k r >>= f := rfl

/-- The program that performs one access and returns its answer. -/
def access (a : A) : Prog A R (R a) := .act a .ret

/-! ## Uninterrupted execution -/

/-- Perform a program to its end, given what each access does to the memory. -/
def run {S : Type} (h : (a : A) → S → R a × S) : Prog A R α → S → α × S
  | .ret x, s => (x, s)
  | .act a k, s => (k (h a s).1).run h (h a s).2

/-- The accesses that `run` performs, in order. -/
def trace {S : Type} (h : (a : A) → S → R a × S) : Prog A R α → S → List A
  | .ret _, _ => []
  | .act a k, s => a :: (k (h a s).1).trace h (h a s).2

section

variable {S : Type} {h : (a : A) → S → R a × S}

@[simp] theorem run_ret (x : α) (s : S) : (ret x : Prog A R α).run h s = (x, s) := rfl

@[simp] theorem run_act (a : A) (k : R a → Prog A R α) (s : S) :
    (act a k).run h s = (k (h a s).1).run h (h a s).2 := rfl

theorem run_bind (p : Prog A R α) (f : α → Prog A R β) (s : S) :
    (p >>= f).run h s = (f (p.run h s).1).run h (p.run h s).2 := by
  induction p generalizing s with
  | ret x => rfl
  | act a k ih => exact ih _ _

@[simp] theorem trace_ret (x : α) (s : S) : (ret x : Prog A R α).trace h s = [] := rfl

@[simp] theorem trace_act (a : A) (k : R a → Prog A R α) (s : S) :
    (act a k).trace h s = a :: (k (h a s).1).trace h (h a s).2 := rfl

theorem trace_bind (p : Prog A R α) (f : α → Prog A R β) (s : S) :
    (p >>= f).trace h s = p.trace h s ++ (f (p.run h s).1).trace h (p.run h s).2 := by
  induction p generalizing s with
  | ret x => rfl
  | act a k ih => exact congrArg (a :: ·) (ih _ _)

end

/-- The same program over a richer kind of access. -/
def embed {B : Type} {R' : B → Type} (f : A → B) (g : (a : A) → R' (f a) → R a) :
    Prog A R α → Prog B R' α
  | .ret x => .ret x
  | .act a k => .act (f a) fun r => (k (g a r)).embed f g

section

variable {B S S' : Type} {R' : B → Type} {h : (a : A) → S → R a × S}
  {h' : (b : B) → S' → R' b × S'} {f : A → B} {g : (a : A) → R' (f a) → R a} (mk : S → S')

/-- Run on a memory that contains the old one, an embedded program does there
what it did. -/
theorem run_embed (hstep : ∀ a s, g a (h' (f a) (mk s)).1 = (h a s).1
      ∧ (h' (f a) (mk s)).2 = mk (h a s).2) (p : Prog A R α) (s : S) :
    (p.embed f g).run h' (mk s) = ((p.run h s).1, mk (p.run h s).2) := by
  induction p generalizing s with
  | ret x => rfl
  | act a k ih =>
      obtain ⟨hanswer, hmem⟩ := hstep a s
      simp only [embed, run_act, hanswer, hmem]
      exact ih _ _

theorem trace_embed (hstep : ∀ a s, g a (h' (f a) (mk s)).1 = (h a s).1
      ∧ (h' (f a) (mk s)).2 = mk (h a s).2) (p : Prog A R α) (s : S) :
    (p.embed f g).trace h' (mk s) = (p.trace h s).map f := by
  induction p generalizing s with
  | ret x => rfl
  | act a k ih =>
      obtain ⟨hanswer, hmem⟩ := hstep a s
      simp only [embed, trace_act, hanswer, hmem, List.map_cons]
      exact congrArg (f a :: ·) (ih _ _)

end

/-! ## Programs of bounded length -/

/-- The program ends after at most `n` accesses, and with a result in `Q`,
however the accesses are answered. -/
def Ends (Q : α → Prop) : Nat → Prog A R α → Prop
  | _, .ret x => Q x
  | 0, .act _ _ => False
  | n + 1, .act _ k => ∀ r, Ends Q n (k r)

section

variable {Q : α → Prop} {Q' : β → Prop} {m n : Nat}

@[simp] theorem ends_ret (x : α) : (ret x : Prog A R α).Ends Q n ↔ Q x := by
  cases n <;> exact Iff.rfl

@[simp] theorem ends_act (a : A) (k : R a → Prog A R α) :
    (act a k).Ends Q (n + 1) ↔ ∀ r, (k r).Ends Q n := Iff.rfl

theorem Ends.mono {p : Prog A R α} (h : p.Ends Q m) (hmn : m ≤ n) : p.Ends Q n := by
  induction p generalizing m n with
  | ret x => exact (ends_ret x).mpr ((ends_ret x).mp h)
  | act a k ih =>
      cases m with
      | zero => exact h.elim
      | succ m =>
          cases n with
          | zero => exact absurd hmn (Nat.not_succ_le_zero m)
          | succ n => exact fun r => ih r (h r) (Nat.le_of_succ_le_succ hmn)

theorem Ends.bind {p : Prog A R α} {f : α → Prog A R β} (h : p.Ends Q m)
    (hf : ∀ x, Q x → (f x).Ends Q' n) : (p >>= f).Ends Q' (m + n) := by
  induction p generalizing m with
  | ret x => exact (hf x ((ends_ret x).mp h)).mono (Nat.le_add_left n m)
  | act a k ih =>
      cases m with
      | zero => exact h.elim
      | succ m =>
          rw [Nat.succ_add]
          exact fun r => ih r (h r)

/-- A program that has not ended has an access left. -/
theorem Ends.act_pos {a : A} {k : R a → Prog A R α} (h : (act a k).Ends Q n) :
    ∃ m, n = m + 1 ∧ ∀ r, (k r).Ends Q m := by
  cases n with
  | zero => exact h.elim
  | succ n => exact ⟨n, rfl, h⟩

end

end Prog

/-! ## One thread among others -/

/-- What one thread of a system assumes of the others and owes to them. -/
structure Side (A : Type) (R : A → Type) (W : Type) where
  rely : W → W → Prop
  refl : ∀ w, rely w w
  trans : ∀ {u v w}, rely u v → rely v w → rely u w
  sem : (a : A) → W → R a → W → Prop
  ok : A → W → Prop

variable {A : Type} {R : A → Type} {W α β : Type}

/-- From `w`, whatever the others do between the accesses of the program,
every access is performed in a world where it is `ok`, and the result is
returned in a world where `Q` holds. -/
def wp (S : Side A R W) (Q : α → W → Prop) : Prog A R α → W → Prop
  | .ret x, w => ∀ w', S.rely w w' → Q x w'
  | .act a k, w => ∀ w', S.rely w w' →
      S.ok a w' ∧ ∀ r w'', S.sem a w' r w'' → wp S Q (k r) w''

variable {S : Side A R W} {Q : α → W → Prop} {w w' : W}

/-- The others cannot falsify a weakest precondition. -/
theorem wp_stable {p : Prog A R α} (h : wp S Q p w) (hr : S.rely w w') : wp S Q p w' := by
  cases p with
  | ret x | act a k => exact fun w'' hr' => h w'' (S.trans hr hr')

theorem wp_ret {x : α} (h : wp S Q (.ret x) w) : Q x w := h w (S.refl w)

/-- A thread about to perform an access owes it in the present world. -/
theorem wp_ok {a : A} {k : R a → Prog A R α} (h : wp S Q (.act a k) w) : S.ok a w :=
  (h w (S.refl w)).1

theorem wp_next {a : A} {k : R a → Prog A R α} {r : R a} (h : wp S Q (.act a k) w)
    (hsem : S.sem a w r w') : wp S Q (k r) w' :=
  (h w (S.refl w)).2 r w' hsem

/-- A sequence is described by its first part ending where the second begins. -/
theorem wp_bind {Q : β → W → Prop} {p : Prog A R α} {f : α → Prog A R β}
    (h : wp S (fun x => wp S Q (f x)) p w) : wp S Q (p >>= f) w := by
  induction p generalizing w with
  | ret x => exact h w (S.refl w)
  | act a k ih =>
      exact fun w' hr => ⟨(h w' hr).1, fun r w'' hsem => ih r ((h w' hr).2 r w'' hsem)⟩

/-! ## Worlds that are times

In one fixed execution, whose step at time `x` goes from `x` to `x + 1`,
a thread is followed through the times it is at. `calm x` says that the
step at `x` is another thread's, as relied on. -/

def timed (calm : Nat → Prop) (sem : (a : A) → Nat → R a → Prop) (ok : A → Nat → Prop) :
    Side A R Nat where
  rely t u := t ≤ u ∧ ∀ x, t ≤ x → x < u → calm x
  refl t := ⟨Nat.le_refl t, fun _ hx hx' => absurd hx' (Nat.not_lt.mpr hx)⟩
  trans huv hvw := ⟨Nat.le_trans huv.1 hvw.1, fun x hx hx' =>
    (Nat.lt_or_ge x _).elim (huv.2 x hx) (fun hv => hvw.2 x hv hx')⟩
  sem a t r u := u = t + 1 ∧ sem a t r
  ok := ok

section

variable {calm : Nat → Prop} {sem : (a : A) → Nat → R a → Prop} {ok : A → Nat → Prop}
  {I : Nat → Prop} {Q : α → Nat → Prop} {t u : Nat}

/-- What calm steps keep is kept over any stretch of them. -/
theorem timed_stable (hI : ∀ x, calm x → I x → I (x + 1))
    (hr : (timed calm sem ok).rely t u) (h : I t) : I u := by
  obtain ⟨htu, hcalm⟩ := hr
  induction htu with
  | refl => exact h
  | @step u htu ih =>
      exact hI u (hcalm u htu (Nat.lt_succ_self u))
        (ih fun x hx hx' => hcalm x hx (Nat.lt_succ_of_lt hx'))

/-- An access is performed at some later time, with everything stable still
in place. -/
theorem wp_timed_act {a : A} {k : R a → Prog A R α} (hI : ∀ x, calm x → I x → I (x + 1))
    (h : I t) (hok : ∀ u, t ≤ u → I u → ok a u)
    (hk : ∀ u r, t ≤ u → I u → sem a u r → wp (timed calm sem ok) Q (k r) (u + 1)) :
    wp (timed calm sem ok) Q (.act a k) t := by
  intro u hr
  have hu := timed_stable hI hr h
  refine ⟨hok u hr.1 hu, ?_⟩
  rintro r _ ⟨rfl, hsem⟩
  exact hk u r hr.1 hu hsem

/-- A result is returned at some later time, likewise. -/
theorem wp_timed_ret {x : α} (hI : ∀ x, calm x → I x → I (x + 1)) (h : I t)
    (hQ : ∀ u, t ≤ u → I u → Q x u) : wp (timed calm sem ok) Q (.ret x) t :=
  fun u hr => hQ u hr.1 (timed_stable hI hr h)

end

/-! ## A thread by itself

Where everything that others may change is an answer to an access, the
world is the thread's own, and nobody moves it between its accesses. -/

def alone (sem : (a : A) → W → R a → W → Prop) (ok : A → W → Prop) : Side A R W where
  rely := Eq
  refl := Eq.refl
  trans := Eq.trans
  sem := sem
  ok := ok

section

variable {sem : (a : A) → W → R a → W → Prop} {ok : A → W → Prop} {Q : α → W → Prop} {w : W}

theorem wp_alone_ret {x : α} : wp (alone sem ok) Q (.ret x) w ↔ Q x w :=
  ⟨fun h => h w rfl, fun h _ hw => hw ▸ h⟩

theorem wp_alone_act {a : A} {k : R a → Prog A R α} :
    wp (alone sem ok) Q (.act a k) w
      ↔ ok a w ∧ ∀ r w', sem a w r w' → wp (alone sem ok) Q (k r) w' :=
  ⟨fun h => h w rfl, fun h _ hw => hw ▸ h⟩

end

end Resumption
