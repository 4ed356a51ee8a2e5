import CountedHeap.Heap.Count
import CountedHeap.Proofs.Closures
import CountedHeap.Proofs.Copying

namespace CountedHeap

inductive Call where
  | acquire (size : UInt64)
  | duplicate (origin : Option Origin) (initialized total : UInt64)
  | retain (p : Place)
  | release (p : Place)
  | releaseClosure (w : Word)
  /-- The program writes to a payload itself. -/
  | write (p : Place) (offset : Nat) (cells : List Cell)
  deriving DecidableEq, Repr

def Call.isRequest : Call → Bool
  | .acquire _ => true
  | .duplicate _ _ _ => true
  | _ => false

/-- Writes cells into the payload at `p`. -/
def Memory.write (m : Memory) (p : Place) (offset : Nat) (cells : List Cell) : Memory :=
  m.store (p + offset) cells.length fun i => cells[i]?.getD (.byte 0)

namespace Memory

variable {offset n : Nat} {cells : List Cell}

theorem eqOn_write (m : Memory) (p : Place) (hroom : offset + cells.length ≤ n) :
    Set.EqOn (m.write p offset cells).cell m.cell (p.span n)ᶜ :=
  (m.eqOn_store (p + offset) cells.length _).mono
    (Set.compl_subset_compl.2 (Place.span_add_subset hroom))

@[simp] theorem regions_write (m : Memory) (p : Place) (offset : Nat) (cells : List Cell) :
    (m.write p offset cells).regions = m.regions :=
  m.regions_store _ _ _

end Memory

namespace Heap

variable {σ : Type}

/-- The place is the payload of a block in the chain. -/
def Names (h : Heap σ) (p : Place) : Prop :=
  ∃ hs, h.chain.nodes h.memory = .ok hs ∧ p.header ∈ hs

instance (h : Heap σ) (p : Place) : Decidable (h.Names p) :=
  match hnodes : h.chain.nodes h.memory with
  | .ok hs => decidable_of_iff (p.header ∈ hs)
      ⟨fun hmem => ⟨hs, hnodes, hmem⟩, fun ⟨_, hok, hmem⟩ =>
        Except.ok.inj (hnodes.symm.trans hok) ▸ hmem⟩
  | .error _ => isFalse fun ⟨_, hok, _⟩ => nomatch hnodes.symm.trans hok

/-- What a program has to see to before a call. Its pointers name blocks, its writes stay inside the
block as it is now, and all that a closure reaches are closures. -/
def Permits (h : Heap σ) : Call → Prop
  | .acquire _ => True
  | .duplicate _ _ _ => True
  | .retain p => h.Names p
  | .release p => h.Names p
  | .releaseClosure w => ∃ hs, h.chain.nodes h.memory = .ok hs ∧ h.memory.Releasable hs w
  | .write p offset cells => h.Names p ∧ offset + cells.length ≤ (h.memory.size p.header).toNat

/-- Whether a call is permitted. It is not checked what a closure reaches. -/
def checks (h : Heap σ) : Call → Bool
  | .acquire _ => true
  | .duplicate _ _ _ => true
  | .retain p => decide (h.Names p)
  | .release p => decide (h.Names p)
  | .releaseClosure _ => false
  | .write p offset cells =>
    decide (h.Names p ∧ offset + cells.length ≤ (h.memory.size p.header).toNat)

theorem permits_of_checks {h : Heap σ} {call : Call} (hcall : h.checks call = true) :
    h.Permits call := by
  cases call with
  | acquire _ => trivial
  | duplicate _ _ _ => trivial
  | retain p => exact (of_decide_eq_true hcall : h.Names p)
  | release p => exact (of_decide_eq_true hcall : h.Names p)
  | releaseClosure _ => cases hcall
  | write p _ _ => exact (of_decide_eq_true hcall : h.Names p ∧ _)

/-- The answer of an operation, and the heap after it. A program goes on when it is refused a block,
but not after a fault or an abort. -/
def answer? : EStateM.Result Failure (Heap σ) (Option Place) → Option (Option Place × Heap σ)
  | .ok r h => some (r, h)
  | .error (.refused _) h => some (none, h)
  | .error _ _ => none

theorem answer?_eq_some_iff {result : EStateM.Result Failure (Heap σ) (Option Place)}
    {r : Option Place} {h' : Heap σ} :
    answer? result = some (r, h') ↔
      result = .ok r h' ∨ r = none ∧ ∃ cause, result = .error (.refused cause) h' := by
  rcases result with ⟨r', h⟩ | ⟨failure, h⟩
  · simp [answer?]
  · cases failure <;> simp [answer?, eq_comm]

variable [PageSource σ]

def perform : Call → HeapM σ (Option Place)
  | .acquire size => acquire size
  | .duplicate origin initialized total => duplicate origin initialized total
  | .retain p => do
    retain p
    return none
  | .release p => do
    release p
    return none
  | .releaseClosure w => do
    releaseClosure w
    return none
  | .write p offset cells => do
    updateMemory fun m => m.write p offset cells
    return none

/-- The call is answered with `r` and leaves the heap `h'`. -/
def Answers (h : Heap σ) (call : Call) (r : Option Place) (h' : Heap σ) : Prop :=
  answer? (perform call h) = some (r, h')

/-- Calls that a program may make one after the other, with their answers. -/
inductive Run : Heap σ → List (Call × Option Place) → Heap σ → Prop
  | nil (h : Heap σ) : Run h [] h
  | cons {h mid h' : Heap σ} {call : Call} {r : Option Place} {rest : List (Call × Option Place)}
      (hpermits : h.Permits call) (hanswer : h.Answers call r mid) (hrest : Run mid rest h') :
      Run h ((call, r) :: rest) h'

theorem Run.append {h mid h' : Heap σ} {front rest : List (Call × Option Place)}
    (hfront : Run h front mid) (hrest : Run mid rest h') : Run h (front ++ rest) h' := by
  induction hfront with
  | nil _ => exact hrest
  | cons hpermits hanswer _ ih => exact .cons hpermits hanswer (ih hrest)

def after (h : Heap σ) (call : Call) : Heap σ :=
  match answer? (perform call h) with
  | some (_, h') => h'
  | none => h

theorem Answers.after {h : Heap σ} {call : Call} {r : Option Place}
    (hr : (answer? (perform call h)).map Prod.fst = some r) : h.Answers call r (h.after call) := by
  obtain ⟨⟨_, h'⟩, hanswer, rfl⟩ := Option.map_eq_some_iff.1 hr
  rw [Heap.after, hanswer]
  exact hanswer

def afterAll (h : Heap σ) (trace : List (Call × Option Place)) : Heap σ :=
  trace.foldl (fun h step => h.after step.1) h

/-- Whether these calls are permitted and answered one after the other. -/
def plays (h : Heap σ) : List (Call × Option Place) → Bool
  | [] => true
  | step :: rest =>
    h.checks step.1 && (answer? (perform step.1 h)).map Prod.fst == some step.2 &&
      (h.after step.1).plays rest

theorem Run.of_plays {h : Heap σ} {trace : List (Call × Option Place)}
    (hplays : h.plays trace = true) :
    Run h trace (h.afterAll trace) := by
  induction trace generalizing h with
  | nil => exact .nil h
  | cons step rest ih =>
      simp only [plays, Bool.and_eq_true, beq_iff_eq] at hplays
      obtain ⟨⟨hchecks, hanswer⟩, hrest⟩ := hplays
      exact .cons (permits_of_checks hchecks) (.after hanswer) (ih hrest)

section Calls

variable {h h' : Heap σ} {hs : List Place} {r : Option Place} {p : Place}

omit [PageSource σ] in
theorem Formed.names_iff (hf : h.Formed hs) : h.Names p ↔ p.header ∈ hs := by
  constructor
  · rintro ⟨hs', hnodes, hmem⟩
    exact hf.unique hnodes ▸ hmem
  · intro hmem
    exact ⟨hs, hf.nodes_eq, hmem⟩

omit [PageSource σ] in
theorem headerOf_eq (hp : p.isAligned = true) (h : Heap σ) : headerOf p h = .ok p.header h := by
  rw [headerOf, if_pos hp]
  rfl

omit [PageSource σ] in
theorem Formed.headerOf_eq (hf : h.Formed hs) (hp : p.header ∈ hs) :
    headerOf p h = .ok p.header h :=
  Heap.headerOf_eq (hf.laid.isAligned hp) h

omit [PageSource σ] in
theorem Formed.retain_eq (hf : h.Formed hs) (hp : p.header ∈ hs) :
    retain p h = match Size.add (h.memory.refcount p.header) 1 with
      | .ok _ => .ok () { h with memory := h.memory.addRefcount p.header 1 }
      | .error fault => .error (.faulted fault) h := by
  simp only [retain, run_bind, hf.headerOf_eq hp, run_getMemory, run_discard]
  cases Size.add (h.memory.refcount p.header) 1 <;> rfl

omit [PageSource σ] in
theorem Formed.release_eq (hf : h.Formed hs) (hp : p.header ∈ hs) :
    release p h = .ok () { h with
      memory := if h.memory.refcount p.header = 0 then h.memory
        else h.memory.addRefcount p.header (-1) } := by
  simp only [release, run_bind, hf.headerOf_eq hp, run_updateMemory]

/-- What a request for a block does: nothing to the blocks that are there, or it hands one out. -/
theorem Answers.request {call : Call} (hf : h.Formed hs) (hcall : call.isRequest = true)
    (hanswer : h.Answers call r h') :
    (r = none ∧ ∃ hs', Grown h hs h' hs') ∨ ∃ a hs', r = some a.payload ∧ Issued h hs a h' hs' := by
  have hsame : h' = h → ∃ hs', Grown h hs h' hs' := by
    rintro rfl
    exact ⟨hs, .refl hf⟩
  have hanswer := answer?_eq_some_iff.1 hanswer
  cases call with
  | acquire size =>
      rcases hanswer with hok | ⟨rfl, cause, hrefused⟩
      · rcases acquire_eq_ok hf hok with ⟨-, rfl, hheap⟩ | ⟨-, mid, hs₁, a, hs', rfl, hserved⟩
        · exact .inl ⟨rfl, hsame hheap⟩
        · exact .inr ⟨a, hs', rfl, hserved.issued⟩
      · exact .inl ⟨rfl, acquire_eq_refused hf hrefused⟩
  | duplicate origin initialized total =>
      rcases hanswer with hok | ⟨rfl, cause, hrefused⟩
      · rcases duplicate_eq_ok hf hok with
          ⟨-, rfl, hheap⟩ | ⟨source, mid, taken, hs₁, a, hs', -, rfl, hserved, rfl⟩
        · exact .inl ⟨rfl, hsame hheap⟩
        · exact .inr ⟨a, hs', rfl, hserved.issued_copied⟩
      · exact .inl ⟨rfl, duplicate_eq_refused hf hrefused⟩
  | retain _ | release _ | releaseClosure _ | write _ _ _ => cases hcall

theorem Answers.retain (hf : h.Formed hs) (hp : p.header ∈ hs)
    (hanswer : h.Answers (.retain p) r h') :
    r = none ∧ (h.memory.refcount p.header).toNat + 1 < 2 ^ 64 ∧
      h' = { h with memory := h.memory.addRefcount p.header 1 } := by
  unfold Answers at hanswer
  simp only [perform, run_bind, hf.retain_eq hp] at hanswer
  cases hsum : Size.add (h.memory.refcount p.header) 1 with
  | ok sum =>
      rw [hsum] at hanswer
      cases hanswer
      have hlt := sum.toNat_lt
      rw [← Size.add_eq_ok_iff.1 hsum] at hlt
      exact ⟨rfl, hlt, rfl⟩
  | error fault =>
      rw [hsum] at hanswer
      cases hanswer

theorem Answers.release (hf : h.Formed hs) (hp : p.header ∈ hs)
    (hanswer : h.Answers (.release p) r h') :
    r = none ∧ h' = { h with
      memory := if h.memory.refcount p.header = 0 then h.memory
        else h.memory.addRefcount p.header (-1) } := by
  unfold Answers at hanswer
  simp only [perform, run_bind, hf.release_eq hp, run_pure] at hanswer
  cases hanswer
  exact ⟨rfl, rfl⟩

theorem Answers.releaseClosure {w : Word} (hf : h.Formed hs) (hw : h.memory.Releasable hs w)
    (hanswer : h.Answers (.releaseClosure w) r h') :
    r = none ∧ ∃ m log, h.memory.Recounted hs m ∧ h' = { h with memory := m, log } := by
  obtain ⟨m, log, hm, hrun | ⟨failure, hrun⟩⟩ := releaseClosure_recounted hf hw
  · unfold Answers at hanswer
    simp only [perform, run_bind, hrun, run_pure] at hanswer
    cases hanswer
    exact ⟨rfl, m, log, hm, rfl⟩
  · have hfail : perform (.releaseClosure w) h = .error failure { h with memory := m, log } := by
      simp only [perform, run_bind, hrun]
    rcases answer?_eq_some_iff.1 hanswer with hok | ⟨rfl, cause, hrefused⟩
    · rw [hfail] at hok
      cases hok
    · rw [hfail] at hrefused
      cases hrefused
      exact ⟨rfl, m, log, hm, rfl⟩

theorem Answers.write {offset : Nat} {cells : List Cell}
    (hanswer : h.Answers (.write p offset cells) r h') :
    r = none ∧ h' = { h with memory := h.memory.write p offset cells } := by
  cases hanswer
  exact ⟨rfl, rfl⟩

theorem Answers.formed {call : Call} (hf : h.Formed hs) (hpermits : h.Permits call)
    (hanswer : h.Answers call r h') : ∃ hs', h'.Formed hs' ∧ hs.Sublist hs' := by
  have hrequest (hcall : call.isRequest = true) : ∃ hs', h'.Formed hs' ∧ hs.Sublist hs' := by
    rcases hanswer.request hf hcall with ⟨-, hs', hgrown⟩ | ⟨a, hs', -, hissued⟩
    · exact ⟨hs', hgrown.formed, hgrown.before.sublist⟩
    · exact ⟨hs', hissued.formed, hissued.sublist⟩
  cases call with
  | acquire size => exact hrequest rfl
  | duplicate origin initialized total => exact hrequest rfl
  | retain p =>
      have hp := hf.names_iff.1 hpermits
      obtain ⟨-, -, rfl⟩ := hanswer.retain hf hp
      have hm := (Memory.Recounted.refl h.memory hs).addRefcount hp 1
      exact ⟨hs, hf.recount hm.regions hm.cells, .refl hs⟩
  | release p =>
      have hp := hf.names_iff.1 hpermits
      obtain ⟨-, rfl⟩ := hanswer.release hf hp
      have hm := (Memory.Recounted.refl h.memory hs).addRefcount hp (-1)
      split
      · exact ⟨hs, hf, .refl hs⟩
      · exact ⟨hs, hf.recount hm.regions hm.cells, .refl hs⟩
  | releaseClosure w =>
      obtain ⟨hs', hnodes, hw⟩ := hpermits
      obtain rfl := hf.unique hnodes
      obtain ⟨-, m, log, hm, rfl⟩ := hanswer.releaseClosure hf hw
      have hf' := hf.recount hm.regions hm.cells
      exact ⟨hs, hf'.congr rfl rfl rfl rfl (fun _ _ => rfl) fun _ _ => rfl, .refl hs⟩
  | write p offset cells =>
      obtain ⟨hnames, hroom⟩ := hpermits
      have hp := hf.names_iff.1 hnames
      obtain ⟨-, rfl⟩ := hanswer.write
      refine ⟨hs, hf.rewrite hp (h.memory.regions_write _ _ _) ?_, .refl hs⟩
      rw [Place.payload_header]
      exact h.memory.eqOn_write p hroom

theorem Run.formed {trace : List (Call × Option Place)} (hrun : Run h trace h') (hf : h.Formed hs) :
    ∃ hs', h'.Formed hs' ∧ hs.Sublist hs' := by
  induction hrun generalizing hs with
  | nil h => exact ⟨hs, hf, .refl hs⟩
  | cons hpermits hanswer _ ih =>
      obtain ⟨hs₁, hf₁, hsub⟩ := hanswer.formed hf hpermits
      obtain ⟨hs', hf', hsub'⟩ := ih hf₁
      exact ⟨hs', hf', hsub.trans hsub'⟩

theorem Run.formed_of_nodes {hs' : List Place} {trace : List (Call × Option Place)}
    (hrun : Run h trace h') (hf : h.Formed hs) (hnodes : h'.chain.nodes h'.memory = .ok hs') :
    h'.Formed hs' := by
  obtain ⟨hs₁, hf₁, -⟩ := hrun.formed hf
  obtain rfl := hf₁.unique hnodes
  exact hf₁

end Calls

end Heap

end CountedHeap
