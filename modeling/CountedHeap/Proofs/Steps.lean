import CountedHeap.Heap.Segment

namespace CountedHeap.Heap

section Sequence

variable {σ α β : Type} {x : HeapM σ α} {f : α → HeapM σ β} {h h' : Heap σ}

@[simp] theorem run_bind (x : HeapM σ α) (f : α → HeapM σ β) (h : Heap σ) :
    (x >>= f) h = match x h with
      | .ok a mid => f a mid
      | .error e mid => .error e mid := by
  show EStateM.bind x f h = _
  cases hx : x h <;> simp [EStateM.bind, hx]

@[simp] theorem run_map (f : α → β) (x : HeapM σ α) (h : Heap σ) :
    (f <$> x) h = match x h with
      | .ok a mid => .ok (f a) mid
      | .error e mid => .error e mid := by
  show EStateM.map f x h = _
  cases hx : x h <;> simp [EStateM.map, hx]

@[simp] theorem run_discard (x : HeapM σ α) (h : Heap σ) :
    (discard x : HeapM σ PUnit) h = match x h with
      | .ok _ mid => .ok () mid
      | .error e mid => .error e mid :=
  run_map (fun _ => ()) x h

theorem bind_eq_ok_iff {b : β} :
    (x >>= f) h = .ok b h' ↔ ∃ a mid, x h = .ok a mid ∧ f a mid = .ok b h' := by
  rw [run_bind]
  cases x h <;> simp [and_assoc]

theorem bind_eq_error_iff {e : Failure} :
    (x >>= f) h = .error e h' ↔
      x h = .error e h' ∨ ∃ a mid, x h = .ok a mid ∧ f a mid = .error e h' := by
  rw [run_bind]
  cases x h <;> simp [and_assoc]

theorem run_ite (c : Prop) [Decidable c] (x y : HeapM σ α) (h : Heap σ) :
    (if c then x else y) h = if c then x h else y h := by
  split <;> rfl

end Sequence

section Steps

variable {σ α : Type}

@[simp] theorem run_pure (a : α) (h : Heap σ) : (pure a : HeapM σ α) h = .ok a h := rfl

@[simp] theorem run_throw (e : Failure) (h : Heap σ) : (throw e : HeapM σ α) h = .error e h := rfl

@[simp] theorem run_get (h : Heap σ) : (get : HeapM σ (Heap σ)) h = .ok h h := rfl

@[simp] theorem run_modify (f : Heap σ → Heap σ) (h : Heap σ) :
    (modify f : HeapM σ Unit) h = .ok () (f h) := rfl

@[simp] theorem run_getMemory (h : Heap σ) : getMemory h = .ok h.memory h := rfl

@[simp] theorem run_setMemory (m : Memory) (h : Heap σ) :
    setMemory m h = .ok () { h with memory := m } := rfl

@[simp] theorem run_updateMemory (f : Memory → Memory) (h : Heap σ) :
    updateMemory f h = .ok () { h with memory := f h.memory } := rfl

@[simp] theorem run_setChain (c : Chain) (h : Heap σ) :
    setChain c h = .ok () { h with chain := c } := rfl

@[simp] theorem run_record (e : Event) (h : Heap σ) :
    record e h = .ok () { h with log := h.log.push e } := rfl

@[simp] theorem run_check_ok (a : α) (h : Heap σ) : check (.ok a) h = .ok a h := rfl

@[simp] theorem run_check_error (fault : Fault) (h : Heap σ) :
    (check (.error fault) : HeapM σ α) h = .error (.faulted fault) h := rfl

theorem check_eq_ok_iff {x : Except Fault α} {a : α} {h h' : Heap σ} :
    check x h = .ok a h' ↔ x = .ok a ∧ h' = h := by
  cases x <;> simp [eq_comm]

theorem orRefuse_eq_ok_iff {x : Except Refusal α} {a : α} {h h' : Heap σ} :
    orRefuse x h = .ok a h' ↔ x = .ok a ∧ h' = h := by
  cases x <;> simp [orRefuse, eq_comm]

theorem orRefuse_eq_error_iff {x : Except Refusal α} {e : Failure} {h h' : Heap σ} :
    orRefuse x h = .error e h' ↔ ∃ cause, x = .error cause ∧ e = .refused cause ∧ h' = h := by
  cases x <;> simp [orRefuse, eq_comm]

theorem check_eq_error_iff {x : Except Fault α} {e : Failure} {h h' : Heap σ} :
    check x h = .error e h' ↔ ∃ fault, x = .error fault ∧ e = .faulted fault ∧ h' = h := by
  cases x <;> simp [eq_comm]

end Steps

section Pages

variable {σ : Type} [PageSource σ]

@[simp] theorem run_askPages (len : UInt64) (h : Heap σ) :
    askPages len h = .ok (PageSource.ask h.source len).1
      { h with source := (PageSource.ask h.source len).2 } := rfl

end Pages

end CountedHeap.Heap
