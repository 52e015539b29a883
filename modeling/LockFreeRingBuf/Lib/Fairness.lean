import LockFreeRingBuf.Lib.Transition

/-!
# Fair runs, and what they lead to

A thread of a system is a class of labels. A run is fair to it when it is
not passed over for ever while one of its labels is enabled, and strongly
fair when it is not passed over for ever while one is enabled time and
again. Under such an assumption `LeadsTo.of_turns` and `of_turns_often`
turn a bound on the turns that the thread still needs, which no step of
another thread raises, into a promise that the goal is reached;
`LeadsTo.of_rank` composes such promises along a rank.
-/

namespace Transition

namespace Run

variable {L S : Type} {sys : System L S} (ρ : Run sys)

/-- Time and again a label that `p` picks out is performed, or none is enabled. -/
def Fair (p : L → Bool) : Prop :=
  ∀ t, ∃ u, t ≤ u
    ∧ ((ρ.label u).any p = true ∨ ∀ l, p l = true → sys.step l (ρ.state u) = none)

/-- Time and again a label that `p` picks out is performed, or from some time on
none is enabled. -/
def StrongFair (p : L → Bool) : Prop :=
  ∀ t, ∃ u, t ≤ u ∧ ((ρ.label u).any p = true
    ∨ ∀ v, u ≤ v → ∀ l, p l = true → sys.step l (ρ.state v) = none)

/-- Whenever `P` holds, `Q` holds then or later. -/
def LeadsTo (P Q : S → Prop) : Prop :=
  ∀ t, P (ρ.state t) → ∃ u, t ≤ u ∧ Q (ρ.state u)

variable {ρ} {P P' Q Q' R : S → Prop}

/-- What every step keeps holds from then on. -/
theorem keeps (hstep : ∀ l s s', sys.Reachable s → P s → sys.step l s = some s' → P s')
    {t u : Nat} (htu : t ≤ u) (h : P (ρ.state t)) : P (ρ.state u) := by
  induction htu with
  | refl => exact h
  | @step u htu ih =>
      rcases ρ.next u with ⟨-, heq⟩ | ⟨l, -, hl⟩
      · rw [heq]
        exact ih
      · exact hstep l _ _ (ρ.reachable u) ih hl

/-! ## Rules -/

theorem LeadsTo.of_imp (h : ∀ s, sys.Reachable s → P s → Q s) : ρ.LeadsTo P Q :=
  fun t hP => ⟨t, Nat.le_refl t, h _ (ρ.reachable t) hP⟩

theorem LeadsTo.trans (h : ρ.LeadsTo P Q) (h' : ρ.LeadsTo Q R) : ρ.LeadsTo P R := by
  intro t hP
  obtain ⟨u, htu, hQ⟩ := h t hP
  obtain ⟨v, huv, hR⟩ := h' u hQ
  exact ⟨v, Nat.le_trans htu huv, hR⟩

theorem LeadsTo.mono (h : ρ.LeadsTo P Q) (hP : ∀ s, sys.Reachable s → P' s → P s)
    (hQ : ∀ s, sys.Reachable s → Q s → Q' s) : ρ.LeadsTo P' Q' :=
  ((LeadsTo.of_imp hP).trans h).trans (.of_imp hQ)

/-- What is left undone is taken up by a second promise. -/
theorem LeadsTo.or_else (h : ρ.LeadsTo P (fun s => Q s ∨ R s)) (h' : ρ.LeadsTo R Q) :
    ρ.LeadsTo P Q := by
  intro t hP
  obtain ⟨u, htu, hQ | hR⟩ := h t hP
  · exact ⟨u, htu, hQ⟩
  · obtain ⟨v, huv, hQ⟩ := h' u hR
    exact ⟨v, Nat.le_trans htu huv, hQ⟩

/-- What every step keeps is still there. -/
theorem LeadsTo.and_kept (h : ρ.LeadsTo P Q)
    (hstep : ∀ l s s', sys.Reachable s → R s → sys.step l s = some s' → R s') :
    ρ.LeadsTo (fun s => P s ∧ R s) (fun s => Q s ∧ R s) := by
  rintro t ⟨hP, hR⟩
  obtain ⟨u, htu, hQ⟩ := h t hP
  exact ⟨u, htu, hQ, keeps hstep htu hR⟩

/-- If from each rank the goal or a lower rank is reached, the goal is reached. -/
theorem LeadsTo.of_rank (rank : S → Nat)
    (h : ∀ n, ρ.LeadsTo (fun s => P s ∧ rank s = n) (fun s => Q s ∨ P s ∧ rank s < n)) :
    ρ.LeadsTo P Q := by
  have hall : ∀ n, ρ.LeadsTo (fun s => P s ∧ rank s = n) Q := by
    intro n
    induction n using Nat.strongRecOn with
    | ind n ih =>
        refine (h n).or_else ?_
        intro t hPt
        exact ih _ hPt.2 t ⟨hPt.1, rfl⟩
  exact fun t hP => hall _ t ⟨hP, rfl⟩

/-- Finitely many goals, each kept once it is reached, are reached together. -/
theorem LeadsTo.all {D : Nat → S → Prop} {n : Nat}
    (hstep : ∀ i l s s', sys.Reachable s → D i s → sys.step l s = some s' → D i s')
    (h : ∀ i, i < n → ρ.LeadsTo P (D i)) : ρ.LeadsTo P (fun s => ∀ i, i < n → D i s) := by
  intro t hP
  induction n with
  | zero => exact ⟨t, Nat.le_refl t, fun i hi => absurd hi (Nat.not_lt_zero i)⟩
  | succ n ih =>
      obtain ⟨u, htu, hu⟩ := ih fun i hi => h i (Nat.lt_succ_of_lt hi)
      obtain ⟨v, htv, hv⟩ := h n (Nat.lt_succ_self n) t hP
      refine ⟨max u v, Nat.le_trans htu (Nat.le_max_left u v), fun i hi => ?_⟩
      rcases Nat.lt_succ_iff_lt_or_eq.mp hi with hi | rfl
      · exact keeps (hstep i) (Nat.le_max_left u v) (hu i hi)
      · exact keeps (hstep i) (Nat.le_max_right u v) hv

/-! ## Turns of a fair thread -/

theorem turns_mono (ρ : Run sys) (p : L → Bool) {t u : Nat} (htu : t ≤ u) :
    ρ.turns p t ≤ ρ.turns p u := by
  induction htu with
  | refl => exact Nat.le_refl _
  | step _ ih => exact Nat.le_trans ih (Nat.le_add_right _ _)

variable {p : L → Bool} {W : Nat → S → Prop}

/-- Either the goal is reached in time, or the thread has taken no more turns than
it was said to need. -/
theorem turns_or_reached
    (hstep : ∀ n l s s', sys.Reachable s → W n s → sys.step l s = some s' →
      Q s' ∨ ∃ m, W m s' ∧ m + (if p l then 1 else 0) ≤ n)
    {n t u : Nat} (htu : t ≤ u) (h : W n (ρ.state t)) :
    (∃ v, t < v ∧ v ≤ u ∧ Q (ρ.state v) ∧ ρ.turns p v ≤ ρ.turns p t + (n + 1))
      ∨ ∃ m, W m (ρ.state u) ∧ m + ρ.turns p u ≤ n + ρ.turns p t := by
  induction htu with
  | refl => exact .inr ⟨n, h, Nat.le_refl _⟩
  | @step u htu ih =>
      rcases ih with ⟨v, htv, hvu, hQ, hle⟩ | ⟨m, hm, hle⟩
      · exact .inl ⟨v, htv, Nat.le_succ_of_le hvu, hQ, hle⟩
      · rcases ρ.next u with ⟨hnone, heq⟩ | ⟨l, hlabel, hl⟩
        · rw [heq]
          exact .inr ⟨m, hm, by simpa [turns, hnone] using hle⟩
        · have hturns : ρ.turns p (u + 1) = ρ.turns p u + if p l then 1 else 0 := by
            simp only [turns, hlabel, Option.any_some]
          rcases hstep m l _ _ (ρ.reachable u) hm hl with hQ | ⟨k, hk, hkm⟩
          · refine .inl ⟨u + 1, Nat.lt_succ_of_le htu, Nat.le_refl _, hQ, ?_⟩
            rw [hturns]
            split <;> omega
          · refine .inr ⟨k, hk, ?_⟩
            show k + ρ.turns p (u + 1) ≤ n + ρ.turns p t
            omega

/-- While the goal is not reached, the thread takes no more turns than it was
said to need. -/
theorem turns_within
    (hstep : ∀ n l s s', sys.Reachable s → W n s → sys.step l s = some s' →
      Q s' ∨ ∃ m, W m s' ∧ m + (if p l then 1 else 0) ≤ n)
    {n t u : Nat} (htu : t ≤ u) (h : W n (ρ.state t))
    (hnot : ∀ v, t < v → v ≤ u → ¬ Q (ρ.state v)) :
    ∃ m, W m (ρ.state u) ∧ m + ρ.turns p u ≤ n + ρ.turns p t := by
  rcases turns_or_reached hstep htu h with ⟨v, htv, hvu, hQ, -⟩ | hwithin
  · exact absurd hQ (hnot v htv hvu)
  · exact hwithin

/-- Until the goal is reached, some number of turns is still needed. -/
theorem needed_or_reached
    (hstep : ∀ n l s s', sys.Reachable s → W n s → sys.step l s = some s' →
      Q s' ∨ ∃ m, W m s' ∧ m + (if p l then 1 else 0) ≤ n)
    {n t u : Nat} (htu : t ≤ u) (h : W n (ρ.state t)) :
    (∃ v, t ≤ v ∧ Q (ρ.state v)) ∨ ∃ m, W m (ρ.state u) := by
  rcases turns_or_reached hstep htu h with ⟨v, htv, -, hQ, -⟩ | ⟨m, hm, -⟩
  · exact .inl ⟨v, Nat.le_of_lt htv, hQ⟩
  · exact .inr ⟨m, hm⟩

/-- `W n` says that at most `n` turns of the thread `p` are still needed. If the
thread takes its turn as long as some are needed, each of its turns leaves fewer,
and no other step leaves more, then the goal is reached. -/
theorem LeadsTo.of_taken
    (hturn : ∀ t n, W n (ρ.state t) →
      (∃ u, t ≤ u ∧ Q (ρ.state u)) ∨ ∃ u, t ≤ u ∧ (ρ.label u).any p = true)
    (hstep : ∀ n l s s', sys.Reachable s → W n s → sys.step l s = some s' →
      Q s' ∨ ∃ m, W m s' ∧ m + (if p l then 1 else 0) ≤ n) :
    ρ.LeadsTo (fun s => ∃ n, W n s) Q := by
  rintro t ⟨n, hn⟩
  induction n using Nat.strongRecOn generalizing t with
  | ind n ih =>
      rcases hturn t n hn with hreached | ⟨u, htu, htaken⟩
      · exact hreached
      · rcases turns_or_reached hstep htu hn with ⟨v, htv, -, hQ, -⟩ | ⟨m, hm, hmn⟩
        · exact ⟨v, Nat.le_of_lt htv, hQ⟩
        · have hturns : ρ.turns p t ≤ ρ.turns p u := ρ.turns_mono p htu
          rcases ρ.next u with ⟨hnone, -⟩ | ⟨l, hlabel, hl⟩
          · simp [hnone] at htaken
          · have hp : p l = true := by simpa [hlabel] using htaken
            rcases hstep m l _ _ (ρ.reachable u) hm hl with hQ | ⟨k, hk, hkm⟩
            · exact ⟨u + 1, Nat.le_succ_of_le htu, hQ⟩
            · rw [if_pos hp] at hkm
              obtain ⟨v, huv, hQ⟩ := ih k (by omega) (u + 1) hk
              exact ⟨v, by omega, hQ⟩

/-- A fair thread that can always take its turn takes it. -/
theorem LeadsTo.of_turns (hfair : ρ.Fair p)
    (henabled : ∀ n s, sys.Reachable s → W n s → Q s ∨ ∃ l, p l = true ∧ (sys.step l s).isSome)
    (hstep : ∀ n l s s', sys.Reachable s → W n s → sys.step l s = some s' →
      Q s' ∨ ∃ m, W m s' ∧ m + (if p l then 1 else 0) ≤ n) :
    ρ.LeadsTo (fun s => ∃ n, W n s) Q := by
  refine .of_taken (p := p) (fun t n hn => ?_) hstep
  obtain ⟨u, htu, htaken | hdisabled⟩ := hfair t
  · exact .inr ⟨u, htu, htaken⟩
  · rcases needed_or_reached hstep htu hn with hreached | ⟨m, hm⟩
    · exact .inl hreached
    · rcases henabled m _ (ρ.reachable u) hm with hQ | ⟨l, hp, hl⟩
      · exact .inl ⟨u, htu, hQ⟩
      · rw [hdisabled l hp] at hl
        cases hl

/-- A strongly fair thread takes its turn if it can do so whenever `E` holds, and
`E` holds time and again. -/
theorem LeadsTo.of_turns_often {E : S → Prop} (hfair : ρ.StrongFair p)
    (hoften : ∀ t, ∃ u, t ≤ u ∧ E (ρ.state u))
    (henabled : ∀ n s, sys.Reachable s → W n s → E s →
      Q s ∨ ∃ l, p l = true ∧ (sys.step l s).isSome)
    (hstep : ∀ n l s s', sys.Reachable s → W n s → sys.step l s = some s' →
      Q s' ∨ ∃ m, W m s' ∧ m + (if p l then 1 else 0) ≤ n) :
    ρ.LeadsTo (fun s => ∃ n, W n s) Q := by
  refine .of_taken (p := p) (fun t n hn => ?_) hstep
  obtain ⟨u, htu, htaken | hdisabled⟩ := hfair t
  · exact .inr ⟨u, htu, htaken⟩
  · obtain ⟨v, huv, hE⟩ := hoften u
    have htv : t ≤ v := Nat.le_trans htu huv
    rcases needed_or_reached hstep htv hn with hreached | ⟨m, hm⟩
    · exact .inl hreached
    · rcases henabled m _ (ρ.reachable v) hm hE with hQ | ⟨l, hp, hl⟩
      · exact .inl ⟨v, htv, hQ⟩
      · rw [hdisabled v huv l hp] at hl
        cases hl

theorem StrongFair.fair (h : ρ.StrongFair p) : ρ.Fair p := by
  intro t
  obtain ⟨u, htu, htaken | hdisabled⟩ := h t
  · exact ⟨u, htu, .inl htaken⟩
  · exact ⟨u, htu, .inr (hdisabled u (Nat.le_refl u))⟩

/-- A single turn brings the goal, and nothing else disturbs. -/
theorem LeadsTo.of_turn (hfair : ρ.Fair p)
    (henabled : ∀ s, sys.Reachable s → P s → ∃ l, p l = true ∧ (sys.step l s).isSome)
    (hstep : ∀ l s s', sys.Reachable s → P s → sys.step l s = some s' →
      Q s' ∨ P s' ∧ p l = false) : ρ.LeadsTo P Q := by
  have hturns : ρ.LeadsTo (fun s => ∃ n, P s ∧ n = 1) Q := by
    refine .of_turns hfair (fun n s hs hP => .inr (henabled s hs hP.1)) ?_
    rintro n l s s' hs ⟨hP, rfl⟩ hl
    rcases hstep l s s' hs hP hl with hQ | ⟨hP', hp⟩
    · exact .inl hQ
    · exact .inr ⟨1, ⟨hP', rfl⟩, by simp [hp]⟩
  exact fun t hP => hturns t ⟨1, hP, rfl⟩

/-! ## Bounded promises -/

/-- From `P` on, `Q` is reached before the thread `p` has taken more than `n` turns. -/
def LeadsWithin (ρ : Run sys) (p : L → Bool) (n : Nat) (P Q : S → Prop) : Prop :=
  ∀ t u, t ≤ u → P (ρ.state t) →
    (∃ v, t ≤ v ∧ v ≤ u ∧ Q (ρ.state v) ∧ ρ.turns p v ≤ ρ.turns p t + n)
      ∨ ρ.turns p u < ρ.turns p t + n

variable {n m : Nat}

theorem LeadsWithin.of_imp (h : ∀ s, sys.Reachable s → P s → Q s) : ρ.LeadsWithin p n P Q :=
  fun t _ htu hP => .inl ⟨t, Nat.le_refl t, htu, h _ (ρ.reachable t) hP, Nat.le_add_right _ _⟩

theorem LeadsWithin.le (h : ρ.LeadsWithin p n P Q) (hnm : n ≤ m) : ρ.LeadsWithin p m P Q := by
  intro t u htu hP
  rcases h t u htu hP with ⟨v, htv, hvu, hQ, hle⟩ | hlt
  · exact .inl ⟨v, htv, hvu, hQ, by omega⟩
  · exact .inr (by omega)

theorem LeadsWithin.trans (h : ρ.LeadsWithin p n P Q) (h' : ρ.LeadsWithin p m Q R) :
    ρ.LeadsWithin p (n + m) P R := by
  intro t u htu hP
  rcases h t u htu hP with ⟨v, htv, hvu, hQ, hle⟩ | hlt
  · rcases h' v u hvu hQ with ⟨w, hvw, hwu, hR, hle'⟩ | hlt
    · exact .inl ⟨w, Nat.le_trans htv hvw, hwu, hR, by omega⟩
    · exact .inr (by omega)
  · exact .inr (by omega)

theorem LeadsWithin.mono (h : ρ.LeadsWithin p n P Q) (hP : ∀ s, sys.Reachable s → P' s → P s)
    (hQ : ∀ s, sys.Reachable s → Q s → Q' s) : ρ.LeadsWithin p n P' Q' := by
  intro t u htu hP'
  rcases h t u htu (hP _ (ρ.reachable t) hP') with ⟨v, htv, hvu, hv, hle⟩ | hlt
  · exact .inl ⟨v, htv, hvu, hQ _ (ρ.reachable v) hv, hle⟩
  · exact .inr hlt

theorem LeadsWithin.or_else (h : ρ.LeadsWithin p n P (fun s => Q s ∨ R s))
    (h' : ρ.LeadsWithin p m R Q) : ρ.LeadsWithin p (n + m) P Q := by
  refine h.trans fun t u htu hQR => ?_
  rcases hQR with hQ | hR
  · exact .inl ⟨t, Nat.le_refl t, htu, hQ, Nat.le_add_right _ _⟩
  · exact h' t u htu hR

theorem LeadsWithin.and_kept (h : ρ.LeadsWithin p n P Q)
    (hstep : ∀ l s s', sys.Reachable s → R s → sys.step l s = some s' → R s') :
    ρ.LeadsWithin p n (fun s => P s ∧ R s) (fun s => Q s ∧ R s) := by
  rintro t u htu ⟨hP, hR⟩
  rcases h t u htu hP with ⟨v, htv, hvu, hQ, hle⟩ | hlt
  · exact .inl ⟨v, htv, hvu, ⟨hQ, keeps hstep htv hR⟩, hle⟩
  · exact .inr hlt

/-- `W n` says that after at most `n` turns the next one brings the goal, if it was
not reached before. -/
theorem LeadsWithin.of_turns
    (hstep : ∀ n l s s', sys.Reachable s → W n s → sys.step l s = some s' →
      Q s' ∨ ∃ m, W m s' ∧ m + (if p l then 1 else 0) ≤ n) :
    ρ.LeadsWithin p (n + 1) (W n) Q := by
  intro t u htu hW
  rcases turns_or_reached hstep htu hW with ⟨v, htv, hvu, hQ, hle⟩ | ⟨m, -, hle⟩
  · exact .inl ⟨v, Nat.le_of_lt htv, hvu, hQ, hle⟩
  · exact .inr (by omega)

/-- A single turn brings the goal, and nothing else disturbs. -/
theorem LeadsWithin.of_turn
    (hstep : ∀ l s s', sys.Reachable s → P s → sys.step l s = some s' →
      Q s' ∨ P s' ∧ p l = false) : ρ.LeadsWithin p 1 P Q := by
  refine .of_turns (W := fun _ => P) (n := 0) fun n l s s' hs hP hl => ?_
  rcases hstep l s s' hs hP hl with hQ | ⟨hP', hp⟩
  · exact .inl hQ
  · exact .inr ⟨n, hP', by simp [hp]⟩

/-- A fair thread keeps its promises, if it can always take its turn before. -/
theorem LeadsWithin.leadsTo (h : ρ.LeadsWithin p n P Q) (hfair : ρ.Fair p)
    (hkeep : ∀ l s s', sys.Reachable s → R s → sys.step l s = some s' → R s')
    (henabled : ∀ s, sys.Reachable s → R s → Q s ∨ ∃ l, p l = true ∧ (sys.step l s).isSome) :
    ρ.LeadsTo (fun s => P s ∧ R s) Q := by
  rintro t ⟨hP, hR⟩
  -- Without the goal, the thread would take any number of turns.
  have hmany : ∀ k, (∃ u, t ≤ u ∧ Q (ρ.state u)) ∨ ∃ u, t ≤ u ∧ ρ.turns p t + k ≤ ρ.turns p u := by
    intro k
    induction k with
    | zero => exact .inr ⟨t, Nat.le_refl t, Nat.le_refl _⟩
    | succ k ih =>
        rcases ih with hQ | ⟨u, htu, hk⟩
        · exact .inl hQ
        · obtain ⟨v, huv, hturn⟩ := hfair u
          have hv : ρ.turns p u ≤ ρ.turns p v := ρ.turns_mono p huv
          have htv : t ≤ v := Nat.le_trans htu huv
          rcases hturn with htaken | hdisabled
          · refine .inr ⟨v + 1, Nat.le_succ_of_le htv, ?_⟩
            simp only [turns, htaken, if_true]
            omega
          · rcases henabled _ (ρ.reachable v) (keeps hkeep htv hR) with hQ | ⟨l, hp, hl⟩
            · exact .inl ⟨v, htv, hQ⟩
            · rw [hdisabled l hp] at hl
              cases hl
  rcases hmany n with hQ | ⟨u, htu, hn⟩
  · exact hQ
  · rcases h t u htu hP with ⟨v, htv, -, hQ, -⟩ | hlt
    · exact ⟨v, htv, hQ⟩
    · omega

/-! ## Schedules that come to an end -/

theorem replay_end (sys : System L S) {ls : List L} (s : S) {t : Nat} (ht : ls.length ≤ t) :
    sys.replay ls s t = sys.replay ls s ls.length := by
  induction ht with
  | refl => rfl
  | @step t ht ih =>
      have hnone : ls[t]? = none := List.getElem?_eq_none ht
      simp only [System.replay, hnone, Option.bind_none, Option.getD_none]
      exact ih

/-- A schedule that goes on until none of the labels is enabled is fair to them. -/
theorem replay_strongFair {ls : List L} {s : S} (h : sys.init s) {p : L → Bool}
    (hend : ∀ l, p l = true → sys.step l (sys.replay ls s ls.length) = none) :
    (Run.replay sys ls h).StrongFair p := by
  intro t
  refine ⟨max t ls.length, Nat.le_max_left _ _, .inr fun v hv l hp => ?_⟩
  show sys.step l (sys.replay ls s v) = none
  rw [replay_end sys s (Nat.le_trans (Nat.le_max_right _ _) hv)]
  exact hend l hp

theorem replay_fair {ls : List L} {s : S} (h : sys.init s)
    (hend : ∀ l, sys.step l (sys.replay ls s ls.length) = none) (p : L → Bool) :
    (Run.replay sys ls h).Fair p :=
  (replay_strongFair h fun l _ => hend l).fair

end Run

end Transition
