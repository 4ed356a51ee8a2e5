import CountedHeap.Closure.Release
import CountedHeap.Proofs.Formed
import CountedHeap.Proofs.Steps

namespace CountedHeap

theorem Word.ofPlace_ne {p q : Place} (h : p ≠ q) : Word.ofPlace p ≠ .ofPlace q := by
  rintro heq
  cases heq
  exact h rfl

/-- The word is no reference, or one to a place in `S`. -/
def Word.Refers (w : Word) (S : Finset Place) : Prop :=
  w.isTagged = true ∨ ∃ p ∈ S, w = .ofPlace p

instance (w : Word) (S : Finset Place) : Decidable (w.Refers S) :=
  inferInstanceAs (Decidable (_ ∨ _))

theorem Word.Refers.mem {S : Finset Place} {p : Place} (h : (Word.ofPlace p).Refers S)
    (huntagged : (Word.ofPlace p).isTagged = false) : p ∈ S := by
  rcases h with htagged | ⟨_, hmem, heq⟩
  · rw [huntagged] at htagged
    cases htagged
  · cases heq
    exact hmem

namespace Memory

/-- The block with this payload is a closure: its first word is a descriptor, and the block holds
all slots, or a zero slot before that. -/
structure ClosureAt (m : Memory) (p : Place) : Prop where
  descriptor : ∃ f, m.word p = .function f
  room : 8 * (1 + m.arity p) ≤ (m.size p.header).toNat ∨
    ∃ slot, 1 ≤ slot ∧ 8 * (slot + 1) ≤ (m.size p.header).toNat ∧ m.word (p + 8 * slot) = .null

instance (w : Word) : Decidable (∃ f, w = .function f) :=
  match w with
  | .number _ => isFalse nofun
  | .address (.place _) => isFalse nofun
  | .address (.code f offset) => decidable_of_iff (offset = 0)
      ⟨fun h => ⟨f, h ▸ rfl⟩, fun ⟨_, h⟩ => (Address.code.inj (Word.address.inj h)).2⟩

instance (m : Memory) (p : Place) : Decidable (m.ClosureAt p) :=
  decidable_of_iff
    ((∃ f, m.word p = .function f) ∧ (8 * (1 + m.arity p) ≤ (m.size p.header).toNat ∨
      ∃ slot < (m.size p.header).toNat,
        1 ≤ slot ∧ 8 * (slot + 1) ≤ (m.size p.header).toNat ∧ m.word (p + 8 * slot) = .null))
    ⟨fun ⟨hfirst, hroom⟩ => ⟨hfirst, hroom.imp_right fun ⟨slot, _, h⟩ => ⟨slot, h⟩⟩,
      fun ⟨hfirst, hroom⟩ => ⟨hfirst, hroom.imp_right fun ⟨slot, h⟩ => ⟨slot, by omega, h⟩⟩⟩

/-- The words that are reached from a word through the slots of closures. -/
inductive Reached (m : Memory) (w : Word) : Word → Prop
  | self : Reached m w w
  | capture {p : Place} {v : Word} (hp : Reached m w (.ofPlace p))
      (huntagged : (Word.ofPlace p).isTagged = false) (hv : v ∈ m.captures p) : Reached m w v

/-- A word that may be given up: it is no reference, or names a closure among these blocks. -/
def Referable (m : Memory) (hs : List Place) (w : Word) : Prop :=
  w.isTagged = false → w ≠ .null → ∃ p, w = .ofPlace p ∧ p.header ∈ hs ∧ m.ClosureAt p

/-- The memory `m'` is `m` with other counts of these blocks. -/
structure Recounted (m : Memory) (hs : List Place) (m' : Memory) : Prop where
  regions : m'.regions = m.regions
  cells : Set.EqOn m'.cell m.cell (counts hs)ᶜ

namespace Recounted

variable {m m' : Memory} {hs : List Place} {a p q : Place}

theorem refl (m : Memory) (hs : List Place) : m.Recounted hs m :=
  ⟨rfl, Set.eqOn_refl _ _⟩

theorem addRefcount (h : m.Recounted hs m') (ha : a ∈ hs) (d : Int) :
    m.Recounted hs (m'.addRefcount a d) where
  regions := by rw [regions_addRefcount, h.regions]
  cells := by
    refine Set.EqOn.trans ?_ h.cells
    exact (m'.eqOn_addRefcount a d).mono (Set.compl_subset_compl.2 fun q hq => ⟨a, ha, hq⟩)

theorem payload (h : m.Recounted hs m') (hlaid : m.Laid p hs q) (ha : a ∈ hs) :
    Set.EqOn m'.cell m.cell (a.payload.span (m.size a).toNat) :=
  (hlaid.eqOn_of_counts ha h.cells).2

theorem size (h : m.Recounted hs m') (hlaid : m.Laid p hs q) (ha : a ∈ hs) : m'.size a = m.size a :=
  size_congr ((hlaid.eqOn_of_counts ha h.cells).1.mono (Place.span_add_subset (by omega)))

end Recounted

section Captures

variable {m m' : Memory} {p : Place} {size : Nat}

theorem arity_eq {f : FunctionDescriptor} (h : m.word p = .function f) :
    m.arity p = f.arity.toNat := by
  rw [arity, h]
  rfl

theorem word_slot_congr (h : Set.EqOn m'.cell m.cell (p.span size)) {slot : Nat}
    (hroom : 8 * (slot + 1) ≤ size) : m'.word (p + 8 * slot) = m.word (p + 8 * slot) :=
  word_congr (h.mono (Place.span_add_subset (by omega)))

/-- Captures depend on the slots up to the first zero only. -/
theorem capturesFrom_eq (slot n : Nat)
    (h : ∀ j < slot + n, slot ≤ j → (∀ k < j, slot ≤ k → m.word (p + 8 * k) ≠ .null) →
      m'.word (p + 8 * j) = m.word (p + 8 * j)) :
    m'.capturesFrom p slot n = m.capturesFrom p slot n := by
  induction n generalizing slot with
  | zero => rfl
  | succ n ih =>
      have hfirst := h slot (by omega) (Nat.le_refl slot) (by omega)
      rw [capturesFrom, capturesFrom, hfirst]
      split
      · rfl
      · rename_i hnonzero
        congr 1
        apply ih
        intro j hj hslot hbefore
        apply h j (by omega) (by omega)
        intro k hk hle
        rcases Nat.eq_or_lt_of_le hle with rfl | hlt
        · exact hnonzero
        · exact hbefore k hk hlt

theorem capturesFrom_congr (h : Set.EqOn m'.cell m.cell (p.span size)) (slot n : Nat)
    (hroom : 8 * (slot + n) ≤ size ∨
      ∃ k, slot ≤ k ∧ 8 * (k + 1) ≤ size ∧ m.word (p + 8 * k) = .null) :
    m'.capturesFrom p slot n = m.capturesFrom p slot n := by
  apply capturesFrom_eq
  intro j hj hle hbefore
  apply word_slot_congr h
  rcases hroom with hroom | ⟨k, hk, hroom, hzero⟩
  · omega
  · -- no slot behind the zero is read
    have hjk : j ≤ k := Nat.le_of_not_lt fun hlt => hbefore k hlt hk hzero
    omega

theorem length_capturesFrom_le (m : Memory) (p : Place) (slot n : Nat) :
    (m.capturesFrom p slot n).length ≤ n := by
  induction n generalizing slot with
  | zero => exact Nat.le_refl 0
  | succ n ih =>
      rw [capturesFrom]
      split
      · exact Nat.zero_le _
      · exact Nat.succ_le_succ (ih (slot + 1))

theorem ClosureAt.word_congr (hclosure : m.ClosureAt p)
    (h : Set.EqOn m'.cell m.cell (p.span (m.size p.header).toNat)) : m'.word p = m.word p := by
  refine Memory.word_congr (h.mono (Place.span_mono ?_))
  rcases hclosure.room with hroom | ⟨slot, -, hroom, -⟩ <;> omega

theorem ClosureAt.arity_congr (hclosure : m.ClosureAt p)
    (h : Set.EqOn m'.cell m.cell (p.span (m.size p.header).toNat)) : m'.arity p = m.arity p := by
  obtain ⟨f, hf⟩ := hclosure.descriptor
  rw [arity_eq hf, arity_eq ((hclosure.word_congr h).trans hf)]

theorem ClosureAt.captures_congr (hclosure : m.ClosureAt p)
    (h : Set.EqOn m'.cell m.cell (p.span (m.size p.header).toNat)) :
    m'.captures p = m.captures p := by
  rw [captures, captures, hclosure.arity_congr h]
  exact capturesFrom_congr h 1 (m.arity p) hclosure.room

theorem ClosureAt.length_captures_lt (hclosure : m.ClosureAt p) :
    (m.captures p).length < 2 ^ 32 := by
  obtain ⟨f, hf⟩ := hclosure.descriptor
  have hle := m.length_capturesFrom_le p 1 (m.arity p)
  rw [arity_eq hf] at hle
  rw [captures, arity_eq hf]
  exact Nat.lt_of_le_of_lt hle f.arity.toNat_lt

theorem Recounted.captures {hs : List Place} {first stop : Place} (h : m.Recounted hs m')
    (hlaid : m.Laid first hs stop) (hmem : p.header ∈ hs) (hclosure : m.ClosureAt p) :
    m'.captures p = m.captures p := by
  have hpayload := h.payload hlaid hmem
  rw [Place.payload_header] at hpayload
  exact hclosure.captures_congr hpayload

theorem Recounted.closureAt {hs : List Place} {first stop : Place} (h : m.Recounted hs m')
    (hlaid : m.Laid first hs stop) (hmem : p.header ∈ hs) (hclosure : m.ClosureAt p) :
    m'.ClosureAt p := by
  have hpayload := h.payload hlaid hmem
  rw [Place.payload_header] at hpayload
  constructor
  · rw [hclosure.word_congr hpayload]
    exact hclosure.descriptor
  · rw [hclosure.arity_congr hpayload, h.size hlaid hmem]
    rcases hclosure.room with hroom | ⟨slot, hslot, hroom, hzero⟩
    · exact .inl hroom
    · exact .inr ⟨slot, hslot, hroom, (word_slot_congr hpayload hroom).trans hzero⟩

end Captures

end Memory

namespace Memory

/-- All words that are reached from the word may be given up. -/
def Releasable (m : Memory) (hs : List Place) (w : Word) : Prop :=
  ∀ v, m.Reached w v → m.Referable hs v

variable {m : Memory} {hs : List Place} {w : Word} {p : Place}

theorem Reached.trans {u v : Word} (huv : m.Reached u v) (hvw : m.Reached v w) : m.Reached u w := by
  induction hvw with
  | self => exact huv
  | capture _ huntagged hv ih => exact .capture ih huntagged hv

theorem Referable.cases (h : m.Referable hs w) :
    (w.isTagged = true ∨ w = .null) ∨ ∃ p, w = .ofPlace p ∧ p.header ∈ hs ∧ m.ClosureAt p := by
  by_cases htagged : w.isTagged = true
  · exact .inl (.inl htagged)
  · by_cases hnull : w = .null
    · exact .inl (.inr hnull)
    · exact .inr (h (by simpa using htagged) hnull)

theorem Releasable.referable (h : m.Releasable hs w) : m.Referable hs w :=
  h w .self

theorem Releasable.of_capture {v : Word} (h : m.Releasable hs (.ofPlace p))
    (huntagged : (Word.ofPlace p).isTagged = false) (hv : v ∈ m.captures p) : m.Releasable hs v :=
  fun _ hu => h _ ((Reached.capture .self huntagged hv).trans hu)

theorem Releasable.closure (h : m.Releasable hs (.ofPlace p))
    (huntagged : (Word.ofPlace p).isTagged = false) :
    p.header ∈ hs ∧ m.ClosureAt p ∧ ∀ v ∈ m.captures p, m.Releasable hs v := by
  obtain ⟨_, heq, hmem, hclosure⟩ := h.referable huntagged nofun
  cases heq
  exact ⟨hmem, hclosure, fun v hv => h.of_capture huntagged hv⟩

theorem Reached.refers {S : Finset Place} (hw : m.Reached (.ofPlace p) w) (hp : p ∈ S)
    (hclosed : ∀ q ∈ S, ∀ v ∈ m.captures q, v.Refers S) : w.Refers S := by
  induction hw with
  | self => exact .inr ⟨p, hp, rfl⟩
  | capture _ huntagged hv ih => exact hclosed _ (ih.mem huntagged) _ hv

theorem Releasable.of_places {S : Finset Place} (hp : p ∈ S)
    (hclosed : ∀ q ∈ S, q.header ∈ hs ∧ m.ClosureAt q ∧ ∀ v ∈ m.captures q, v.Refers S) :
    m.Releasable hs (.ofPlace p) := by
  intro v hv huntagged _
  rcases hv.refers hp fun q hq => (hclosed q hq).2.2 with htagged | ⟨q, hq, rfl⟩
  · rw [huntagged] at htagged
    cases htagged
  · exact ⟨q, rfl, (hclosed q hq).1, (hclosed q hq).2.1⟩

end Memory

theorem Word.isTagged_ofPlace {p : Place} (h : p.isAligned = true) :
    (Word.ofPlace p).isTagged = false := by
  have haligned : p.offset % 8 = 0 := by simpa [Place.isAligned] using h
  show (p.offset % 2 == 1) = false
  rw [beq_eq_false_iff_ne]
  omega

namespace Drop

variable {m : Memory} {w : Word} {p : Place}

theorem of_ignored (h : w.isTagged = true ∨ w = .null) : of m w = .ok .nothing := by
  have hcond : (w.isTagged || w == .null) = true := by simpa using h
  unfold of
  rw [if_pos hcond]

theorem of_place (h : p.isAligned = true) :
    of m (.ofPlace p) =
      if m.refcount p.header = 0 then .error (.aborted (.doubleRelease p))
      else if m.refcount p.header = 1 then .ok (.last p)
      else .ok (.lower p.header) := by
  have hcond : ((Word.ofPlace p).isTagged || Word.ofPlace p == .null) = false := by
    rw [Word.isTagged_ofPlace h]
    rfl
  unfold of
  rw [hcond]
  show (if p.isAligned then _ else _) = _
  rw [if_pos h]

end Drop

namespace Teardown

section Step

variable {m : Memory} {rest : List Task}

theorem step_ignored {w : Word} (h : w.isTagged = true ∨ w = .null) :
    step ⟨m, .release w :: rest⟩ = .ok ⟨m, rest⟩ := by
  show (Drop.of m w >>= _) = _
  rw [Drop.of_ignored h]
  rfl

theorem step_place {p : Place} (h : p.isAligned = true) :
    step ⟨m, .release (.ofPlace p) :: rest⟩ =
      if m.refcount p.header = 0 then .error (.aborted (.doubleRelease p))
      else if m.refcount p.header = 1 then .ok ⟨m, visit m p ++ rest⟩
      else .ok ⟨m.addRefcount p.header (-1), rest⟩ := by
  show (Drop.of m (.ofPlace p) >>= _) = _
  rw [Drop.of_place h]
  split
  · rfl
  · split <;> rfl

theorem step_retire {a : Place} :
    step ⟨m, .retire a :: rest⟩ =
      if m.refcount a = 0 then .error (.faulted .subtractOverflow)
      else .ok ⟨m.addRefcount a (-1), rest⟩ := by
  show (retire m a >>= _) = _
  rw [retire]
  split <;> rfl

end Step

section Run

variable {m : Memory} {p : Place} {task : Task} {rest : List Task} {n : Nat}

theorem run_of_step {t : Teardown} (h : step ⟨m, task :: rest⟩ = .ok t) :
    run (n + 1) ⟨m, task :: rest⟩ = run n t := by
  rw [run, if_neg (by simp), h]

theorem run_nil (n : Nat) (m : Memory) : run n ⟨m, []⟩ = (m, none) := by
  cases n <;> rfl

theorem run_tagged {ws : List Word} (hws : ∀ w ∈ ws, w.isTagged = true) :
    run (ws.length + n) ⟨m, ws.map .release ++ rest⟩ = run n ⟨m, rest⟩ := by
  induction ws with
  | nil =>
      rw [List.length_nil, Nat.zero_add]
      rfl
  | cons w ws ih =>
      have hstep : step ⟨m, .release w :: (ws.map .release ++ rest)⟩ =
          .ok ⟨m, ws.map .release ++ rest⟩ := step_ignored (.inl (hws w List.mem_cons_self))
      rw [List.length_cons, Nat.add_right_comm, List.map_cons, List.cons_append,
        run_of_step hstep, ih fun v hv => hws v (List.mem_cons_of_mem w hv)]

theorem run_visit_of_tagged (blocks : Nat) (hclosure : m.ClosureAt p)
    (htagged : ∀ w ∈ m.captures p, w.isTagged = true) (hlive : m.refcount p.header ≠ 0) :
    run (bound blocks) ⟨m, visit m p⟩ = (m.addRefcount p.header (-1), none) := by
  have hbound : (m.captures p).length + 1 ≤ bound blocks :=
    calc (m.captures p).length + 1 ≤ UInt32.size := hclosure.length_captures_lt
      _ ≤ bound blocks := Nat.le_mul_of_pos_left _ (by simp)
  obtain ⟨n, hn⟩ := Nat.exists_eq_add_of_le hbound
  have hretire : step ⟨m, [.retire p.header]⟩ = .ok ⟨m.addRefcount p.header (-1), []⟩ := by
    rw [step_retire, if_neg hlive]
  rw [hn, Nat.add_assoc, Nat.add_comm 1 n, visit, run_tagged htagged, run_of_step hretire,
    run_nil]

end Run

/-- The walk has changed nothing but counts, and all that is still to be done may be done. -/
structure Tame (m : Memory) (hs : List Place) (t : Teardown) : Prop where
  recounted : m.Recounted hs t.memory
  words : ∀ w, .release w ∈ t.pending → m.Releasable hs w
  headers : ∀ a, .retire a ∈ t.pending → a ∈ hs

variable {m : Memory} {hs : List Place} {q : Place} {t t' : Teardown}

theorem visit_tame (hlaid : m.Laid ⟨0, 0⟩ hs q) {m' : Memory} (hm : m.Recounted hs m') {p : Place}
    {rest : List Task} (hp : m.Releasable hs (.ofPlace p)) (hmem : p.header ∈ hs)
    (hclosure : m.ClosureAt p) (hwords : ∀ w, .release w ∈ rest → m.Releasable hs w)
    (hheaders : ∀ a, .retire a ∈ rest → a ∈ hs) : Tame m hs ⟨m', visit m' p ++ rest⟩ := by
  have haligned := hlaid.isAligned hmem
  have hcaptures : m'.captures p = m.captures p :=
    hm.captures hlaid hmem hclosure
  refine ⟨hm, ?_, ?_⟩
  · intro w hw
    simp only [visit, hcaptures, List.mem_append, List.mem_map, Task.release.injEq,
      exists_eq_right, List.mem_singleton, reduceCtorEq, or_false] at hw
    rcases hw with hw | hw
    · exact hp.of_capture (Word.isTagged_ofPlace haligned) hw
    · exact hwords w hw
  · intro a ha
    simp only [visit, List.mem_append, List.mem_map, reduceCtorEq, and_false, exists_false,
      List.mem_singleton, Task.retire.injEq, false_or] at ha
    rcases ha with rfl | ha
    · exact hmem
    · exact hheaders a ha

theorem Tame.step (hlaid : m.Laid ⟨0, 0⟩ hs q) (h : Tame m hs t) (hstep : t.step = .ok t') :
    Tame m hs t' := by
  obtain ⟨m', pending⟩ := t
  cases pending with
  | nil =>
      cases hstep
      exact h
  | cons task rest =>
      have hwords : ∀ w, .release w ∈ rest → m.Releasable hs w := fun w hw =>
        h.words w (List.mem_cons_of_mem _ hw)
      have hheaders : ∀ a, .retire a ∈ rest → a ∈ hs := fun a ha =>
        h.headers a (List.mem_cons_of_mem _ ha)
      cases task with
      | release w =>
          have hw := h.words w List.mem_cons_self
          rcases hw.referable.cases with hignored | ⟨p, rfl, hmem, hclosure⟩
          · rw [step_ignored hignored] at hstep
            cases hstep
            exact ⟨h.recounted, hwords, hheaders⟩
          · have haligned := hlaid.isAligned hmem
            rw [step_place haligned] at hstep
            split at hstep
            · cases hstep
            · split at hstep
              · cases hstep
                exact visit_tame hlaid h.recounted hw hmem hclosure hwords hheaders
              · cases hstep
                exact ⟨h.recounted.addRefcount hmem (-1), hwords, hheaders⟩
      | retire a =>
          have hmem := h.headers a List.mem_cons_self
          rw [step_retire] at hstep
          split at hstep
          · cases hstep
          · cases hstep
            exact ⟨h.recounted.addRefcount hmem (-1), hwords, hheaders⟩

theorem Tame.run (hlaid : m.Laid ⟨0, 0⟩ hs q) (n : Nat) (h : Tame m hs t) :
    m.Recounted hs (run n t).1 := by
  induction n generalizing t with
  | zero => exact h.recounted
  | succ n ih =>
      rw [Teardown.run]
      split
      · exact h.recounted
      · split
        · rename_i t' hstep
          exact ih (h.step hlaid hstep)
        · exact h.recounted

end Teardown

namespace Heap

variable {σ : Type} {h : Heap σ} {hs : List Place} {w : Word} {p : Place}

theorem fail_eq {α : Type} (failure : Failure) (h : Heap σ) :
    ∃ log, (fail failure : HeapM σ α) h = .error failure { h with log } := by
  unfold fail
  split
  · exact ⟨h.log.push _, rfl⟩
  · exact ⟨h.log, rfl⟩

theorem releaseClosure_ignored (hw : w.isTagged = true ∨ w = .null) :
    releaseClosure w h = .ok () h := by
  simp only [releaseClosure, run_bind, run_getMemory, Drop.of_ignored hw]
  rfl

theorem releaseClosure_dead (hp : p.isAligned = true) (hcount : h.memory.refcount p.header = 0) :
    releaseClosure (.ofPlace p) h =
      .error (.aborted (.doubleRelease p)) { h with log := h.log.push (.doubleRelease p) } := by
  simp only [releaseClosure, run_bind, run_getMemory, Drop.of_place hp, if_pos hcount]
  rfl

theorem releaseClosure_shared (hp : p.isAligned = true) (hlive : h.memory.refcount p.header ≠ 0)
    (hshared : h.memory.refcount p.header ≠ 1) :
    releaseClosure (.ofPlace p) h =
      .ok () { h with memory := h.memory.addRefcount p.header (-1) } := by
  simp only [releaseClosure, run_bind, run_getMemory, Drop.of_place hp, if_neg hlive,
    if_neg hshared]
  rfl

theorem tearDown_eq (p : Place) (h : Heap σ) :
    tearDown p h =
      match Teardown.run (Teardown.bound h.chain.length.toNat)
        ⟨h.memory, Teardown.visit h.memory p⟩ with
      | (m, none) => .ok () { h with memory := m }
      | (m, some failure) => fail failure { h with memory := m } := by
  unfold tearDown
  -- the walk must not be evaluated for so many tasks, so their number is hidden
  obtain ⟨bound, hbound⟩ : ∃ bound, bound = Teardown.bound := ⟨_, rfl⟩
  rw [← hbound, run_bind, run_get]
  dsimp only
  generalize Teardown.run _ _ = result
  obtain ⟨m, stopped⟩ := result
  cases stopped <;> rfl

/-- The early return for tagged captures does what the walk would do. -/
theorem releaseClosure_last (hp : p.isAligned = true) (hclosure : h.memory.ClosureAt p)
    (hlast : h.memory.refcount p.header = 1) : releaseClosure (.ofPlace p) h = tearDown p h := by
  have hlive : h.memory.refcount p.header ≠ 0 := by
    rw [hlast]
    decide
  simp only [releaseClosure, run_bind, run_getMemory, Drop.of_place hp, if_neg hlive, if_pos hlast,
    attempt, run_pure, run_ite, Teardown.retire, run_setMemory]
  split
  · rename_i htagged
    rw [tearDown_eq, Teardown.run_visit_of_tagged _ hclosure (List.all_eq_true.1 htagged) hlive]
  · rfl

theorem tearDown_recounted (hf : h.Formed hs) (hp : h.memory.Releasable hs (.ofPlace p))
    (hmem : p.header ∈ hs) (hclosure : h.memory.ClosureAt p) :
    ∃ m log, h.memory.Recounted hs m ∧
      (tearDown p h = .ok () { h with memory := m, log } ∨
        ∃ failure, tearDown p h = .error failure { h with memory := m, log }) := by
  have htame : Teardown.Tame h.memory hs ⟨h.memory, Teardown.visit h.memory p⟩ := by
    rw [← List.append_nil (Teardown.visit h.memory p)]
    exact Teardown.visit_tame hf.laid (.refl _ _) hp hmem hclosure (fun w hw => nomatch hw)
      fun a ha => nomatch ha
  have hrecounted := htame.run hf.laid (Teardown.bound h.chain.length.toNat)
  rw [tearDown_eq]
  split
  · rename_i m hrun
    rw [hrun] at hrecounted
    exact ⟨m, h.log, hrecounted, .inl rfl⟩
  · rename_i m failure hrun
    rw [hrun] at hrecounted
    obtain ⟨log, hfail⟩ : ∃ log, (fail failure : HeapM σ Unit) { h with memory := m } = _ :=
      fail_eq failure _
    exact ⟨m, log, hrecounted, .inr ⟨failure, hfail⟩⟩

/-- Giving up a reference to a closure changes nothing but counts, however it ends. -/
theorem releaseClosure_recounted (hf : h.Formed hs) (hw : h.memory.Releasable hs w) :
    ∃ m log, h.memory.Recounted hs m ∧
      (releaseClosure w h = .ok () { h with memory := m, log } ∨
        ∃ failure, releaseClosure w h = .error failure { h with memory := m, log }) := by
  rcases hw.referable.cases with hignored | ⟨p, rfl, hmem, hclosure⟩
  · exact ⟨h.memory, h.log, .refl _ _, .inl (releaseClosure_ignored hignored)⟩
  · have haligned := hf.laid.isAligned hmem
    have hlowered := (Memory.Recounted.refl h.memory hs).addRefcount hmem (-1)
    by_cases hdead : h.memory.refcount p.header = 0
    · exact ⟨h.memory, _, .refl _ _, .inr ⟨_, releaseClosure_dead haligned hdead⟩⟩
    · by_cases hlast : h.memory.refcount p.header = 1
      · rw [releaseClosure_last haligned hclosure hlast]
        exact tearDown_recounted hf hw hmem hclosure
      · exact ⟨_, h.log, hlowered, .inl (releaseClosure_shared haligned hdead hlast)⟩

end Heap

end CountedHeap
