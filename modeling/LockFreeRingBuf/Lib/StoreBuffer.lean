import Mathlib.Logic.Function.Basic

/-!
# Store buffers

Memory as the threads of an x86 machine see it (total store order). A store
goes to the end of its thread's buffer; at any time the oldest store of a
buffer may drain into memory. A thread sees its own stores at once, and those
of the others when they have drained.

`apply` is what a store does to memory; a load is a function of the memory
its thread sees.
-/

namespace StoreBuffer

variable {I M W V : Type} {apply : W → M → M}

/-- Apply stores in order. -/
def drain (apply : W → M → M) : List W → M → M
  | [], m => m
  | w :: ws, m => drain apply ws (apply w m)

theorem drain_append (ws us : List W) (m : M) :
    drain apply (ws ++ us) m = drain apply us (drain apply ws m) := by
  induction ws generalizing m with
  | nil => rfl
  | cons w ws ih => exact ih _

/-- What the stores do not change reads the same after them. -/
theorem read_drain {f : M → V} {ws : List W} (h : ∀ w ∈ ws, ∀ m, f (apply w m) = f m) (m : M) :
    f (drain apply ws m) = f m := by
  induction ws generalizing m with
  | nil => rfl
  | cons w ws ih =>
      have hrest := ih (fun w hw => h w (List.mem_cons_of_mem _ hw)) (apply w m)
      exact hrest.trans (h w List.mem_cons_self m)

/-- The two stores may be done in either order. -/
def Commutes (apply : W → M → M) (w u : W) : Prop :=
  ∀ m, apply w (apply u m) = apply u (apply w m)

theorem apply_drain {w : W} {us : List W} (h : ∀ u ∈ us, Commutes apply w u) (m : M) :
    apply w (drain apply us m) = drain apply us (apply w m) := by
  induction us generalizing m with
  | nil => rfl
  | cons u us ih =>
      have hrest := ih (fun u hu => h u (List.mem_cons_of_mem _ hu)) (apply u m)
      rw [h u List.mem_cons_self m] at hrest
      exact hrest

theorem drain_comm {ws us : List W} (h : ∀ w ∈ ws, ∀ u ∈ us, Commutes apply w u) (m : M) :
    drain apply ws (drain apply us m) = drain apply us (drain apply ws m) := by
  induction ws generalizing m with
  | nil => rfl
  | cons w ws ih =>
      have hrest := ih (fun w hw => h w (List.mem_cons_of_mem _ hw)) (apply w m)
      rw [← apply_drain (h w List.mem_cons_self) m] at hrest
      exact hrest

/-! ## Buffered memory -/

structure Buffered (I M W : Type) where
  memory : M
  buffer : I → List W

namespace Buffered

/-- Memory with nothing buffered. -/
def quiet (m : M) : Buffered I M W := ⟨m, fun _ => []⟩

/-- The memory as thread `i` sees it. -/
def view (apply : W → M → M) (s : Buffered I M W) (i : I) : M :=
  drain apply (s.buffer i) s.memory

variable [DecidableEq I]

/-- Thread `i` stores `ws`. -/
def store (s : Buffered I M W) (i : I) (ws : List W) : Buffered I M W :=
  { s with buffer := Function.update s.buffer i (s.buffer i ++ ws) }

/-- The oldest store of thread `i` drains into memory. -/
def flush (apply : W → M → M) (s : Buffered I M W) (i : I) : Option (Buffered I M W) :=
  match s.buffer i with
  | [] => none
  | w :: ws => some ⟨apply w s.memory, Function.update s.buffer i ws⟩

variable {s s' : Buffered I M W} {i j : I}

@[simp] theorem store_buffer_self (ws : List W) : (s.store i ws).buffer i = s.buffer i ++ ws :=
  Function.update_self i _ _

theorem store_buffer_of_ne (h : j ≠ i) (ws : List W) : (s.store i ws).buffer j = s.buffer j :=
  Function.update_of_ne h _ _

/-- A thread sees its own stores. -/
theorem store_view_self (ws : List W) :
    (s.store i ws).view apply i = drain apply ws (s.view apply i) := by
  rw [view, store_buffer_self, drain_append]
  rfl

/-- No other thread does. -/
theorem store_view_of_ne (h : j ≠ i) (ws : List W) :
    (s.store i ws).view apply j = s.view apply j := by
  rw [view, store_buffer_of_ne h]
  rfl

theorem store_nil : s.store i [] = s := by
  rw [store, List.append_nil, Function.update_eq_self]

theorem flush_cases (h : s.flush apply i = some s') :
    ∃ w ws, s.buffer i = w :: ws ∧ s'.memory = apply w s.memory ∧ s'.buffer i = ws
      ∧ ∀ j, j ≠ i → s'.buffer j = s.buffer j := by
  unfold flush at h
  split at h
  · cases h
  · next w ws hbuf =>
      obtain rfl := Option.some.inj h
      exact ⟨w, ws, hbuf, rfl, Function.update_self i _ _, fun j hj => Function.update_of_ne hj _ _⟩

/-- Draining a store does not change what its thread sees. -/
theorem flush_view_self (h : s.flush apply i = some s') : s'.view apply i = s.view apply i := by
  obtain ⟨w, ws, hbuf, hmem, hbuf', -⟩ := flush_cases h
  rw [view, view, hbuf, hbuf', hmem]
  rfl

/-- A thread with nothing buffered may store and drain at once. -/
theorem store_flush (h : s.buffer i = []) (w : W) :
    (s.store i [w]).flush apply i = some { s with memory := apply w s.memory } := by
  rw [flush, store_buffer_self, h]
  refine congrArg some (congrArg (Buffered.mk _) ?_)
  rw [store, Function.update_idem, ← h, Function.update_eq_self]

end Buffered

end StoreBuffer
