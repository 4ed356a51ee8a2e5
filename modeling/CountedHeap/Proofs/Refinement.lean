import CountedHeap.Proofs.Closures
import CountedHeap.Proofs.Protocol
import CountedHeap.Proofs.Runs

namespace CountedHeap

open Protocol

namespace Memory

/-- The memory `m` is `m₀` with the counts `c`. -/
structure Counted (m₀ : Memory) (hs : List Place) (c : Place → Nat) (m : Memory) : Prop where
  recounted : m₀.Recounted hs m
  count : ∀ p, p.header ∈ hs → (m.refcount p.header).toNat = c p

variable {m₀ m : Memory} {hs : List Place} {c : Place → Nat} {p q first stop : Place}

theorem Laid.refcount_addRefcount_of_ne {a b : Place} (hlaid : m₀.Laid first hs stop) (ha : a ∈ hs)
    (hb : b ∈ hs) (hne : a ≠ b) (m : Memory) (d : Int) :
    (m.addRefcount b d).refcount a = m.refcount a := by
  apply refcount_congr
  apply eqOn_of_disjoint (m.eqOn_addRefcount b d)
  exact (hlaid.disjoint ha hb hne).mono (Place.span_add_subset (by omega))
    (Place.span_add_subset (by omega))

namespace Counted

theorem refl (m : Memory) (hs : List Place) :
    m.Counted hs (fun p => (m.refcount p.header).toNat) m :=
  ⟨.refl m hs, fun _ _ => rfl⟩

theorem lower (h : m₀.Counted hs c m) (hlaid : m₀.Laid first hs stop) (hp : p.header ∈ hs)
    (hlive : 1 ≤ c p) : m₀.Counted hs (Protocol.lower c p) (m.addRefcount p.header (-1)) where
  recounted := h.recounted.addRefcount hp (-1)
  count := by
    intro x hx
    have hcount := h.count p hp
    have hlt := (m.refcount p.header).toNat_lt
    by_cases hxp : x = p
    · rw [hxp, lower_self]
      exact m.toNat_refcount_addRefcount p.header (by omega) (by omega)
    · have hheader : x.header ≠ p.header := fun heq => hxp (Place.header_inj.1 heq)
      rw [lower_of_ne c hxp, hlaid.refcount_addRefcount_of_ne hx hp hheader]
      exact h.count x hx

theorem refcount_eq_zero_iff (h : m₀.Counted hs c m) (hp : p.header ∈ hs) :
    m.refcount p.header = 0 ↔ c p = 0 := by
  rw [← h.count p hp, ← UInt64.toNat_inj, UInt64.toNat_zero]

theorem refcount_ne_zero (h : m₀.Counted hs c m) (hp : p.header ∈ hs) (hlive : 1 ≤ c p) :
    m.refcount p.header ≠ 0 := by
  rw [ne_eq, h.refcount_eq_zero_iff hp]
  omega

theorem refcount_eq_one_iff (h : m₀.Counted hs c m) (hp : p.header ∈ hs) :
    m.refcount p.header = 1 ↔ c p = 1 := by
  rw [← h.count p hp, ← UInt64.toNat_inj, UInt64.toNat_one]

end Counted

end Memory

namespace Teardown

variable {m₀ m : Memory} {hs : List Place} {c c' : Place → Nat} {p q : Place} {rest : List Task}
  {task : Task} {t : Teardown} {n k : Nat} {ws : List Word} {stopped : Option Place}

theorem run_of_error {failure : Failure} (h : step ⟨m, task :: rest⟩ = .error failure) :
    run (n + 1) ⟨m, task :: rest⟩ = (m, some failure) := by
  rw [run, if_neg (by simp), h]

theorem run_visit (haligned : p.isAligned = true) (hlast : m.refcount p.header = 1) :
    run (n + 1) ⟨m, [.release (.ofPlace p)]⟩ = run n ⟨m, visit m p⟩ := by
  have hlive : ¬ m.refcount p.header = 0 := by
    rw [hlast]
    decide
  rw [run_of_step (t := ⟨m, visit m p ++ []⟩), List.append_nil]
  rw [step_place haligned, if_neg hlive, if_pos hlast]

section Step

variable (hlaid : m₀.Laid ⟨0, 0⟩ hs q) (hm : m₀.Counted hs c m) (hp : p.header ∈ hs)

include hlaid hm hp

theorem step_dead (hcount : c p = 0) :
    step ⟨m, .release (.ofPlace p) :: rest⟩ = .error (.aborted (.doubleRelease p)) := by
  rw [step_place (hlaid.isAligned hp), if_pos ((hm.refcount_eq_zero_iff hp).2 hcount)]

theorem step_shared (hcount : 1 < c p) :
    step ⟨m, .release (.ofPlace p) :: rest⟩ = .ok ⟨m.addRefcount p.header (-1), rest⟩ := by
  have hshared : ¬ m.refcount p.header = 1 := by
    rw [hm.refcount_eq_one_iff hp]
    omega
  rw [step_place (hlaid.isAligned hp), if_neg (hm.refcount_ne_zero hp hcount.le), if_neg hshared]

theorem step_last (hclosure : m₀.ClosureAt p) (hcount : c p = 1) :
    step ⟨m, .release (.ofPlace p) :: rest⟩ =
      .ok ⟨m, (m₀.captures p).map .release ++ .retire p.header :: rest⟩ := by
  have hlast := (hm.refcount_eq_one_iff hp).2 hcount
  rw [step_place (hlaid.isAligned hp), if_neg (hm.refcount_ne_zero hp hcount.ge),
    if_pos hlast, visit, hm.recounted.captures hlaid hp hclosure, List.append_assoc]
  rfl

end Step

theorem step_retire_counted (hm : m₀.Counted hs c m) (hp : p.header ∈ hs) (hcount : 1 ≤ c p) :
    step ⟨m, .retire p.header :: rest⟩ = .ok ⟨m.addRefcount p.header (-1), rest⟩ := by
  rw [step_retire, if_neg (hm.refcount_ne_zero hp hcount)]

/-- How a walk with `n` more tasks to do goes on after some words have been given up. -/
def resume (n : Nat) (t : Teardown) : Option Place → Memory × Option Failure
  | none => run n t
  | some p => (t.memory, some (.aborted (.doubleRelease p)))

/-- The walk does with words to be given up what the protocol does. -/
theorem run_of_releases (hlaid : m₀.Laid ⟨0, 0⟩ hs q) (h : Releases m₀.captures k c ws stopped c')
    (hm : m₀.Counted hs c m) (hws : ∀ w ∈ ws, m₀.Releasable hs w) :
    ∃ m', m₀.Counted hs c' m' ∧ ∀ n rest,
      run (k + n) ⟨m, ws.map .release ++ rest⟩ = resume n ⟨m', rest⟩ stopped := by
  induction h generalizing m with
  | nil c =>
      refine ⟨m, hm, ?_⟩
      intro n rest
      rw [Nat.zero_add]
      rfl
  | @ignored k c c' w ws stopped hw _ ih =>
      obtain ⟨m', hm', hrun⟩ := ih hm fun v hv => hws v (List.mem_cons_of_mem _ hv)
      refine ⟨m', hm', ?_⟩
      intro n rest
      rw [Nat.add_right_comm, List.map_cons, List.cons_append, run_of_step (step_ignored hw), hrun]
  | @dead c p ws hp hcount =>
      obtain ⟨hmem, -, -⟩ := (hws _ List.mem_cons_self).closure hp
      refine ⟨m, hm, ?_⟩
      intro n rest
      rw [Nat.add_comm, List.map_cons, List.cons_append,
        run_of_error (step_dead hlaid hm hmem hcount)]
      rfl
  | @shared k c c' p ws stopped hp hcount _ ih =>
      obtain ⟨hmem, -, -⟩ := (hws _ List.mem_cons_self).closure hp
      obtain ⟨m', hm', hrun⟩ := ih (hm.lower hlaid hmem hcount.le)
        fun v hv => hws v (List.mem_cons_of_mem _ hv)
      refine ⟨m', hm', ?_⟩
      intro n rest
      rw [Nat.add_right_comm, List.map_cons, List.cons_append,
        run_of_step (step_shared hlaid hm hmem hcount), hrun]
  | @last k l c mid c' p ws stopped hp hcount hcaptures _ ihcaptures ihrest =>
      obtain ⟨hmem, hclosure, hbelow⟩ := (hws _ List.mem_cons_self).closure hp
      obtain ⟨m₁, hm₁, hrun₁⟩ := ihcaptures hm hbelow
      have hkept : 1 ≤ mid p := (hcaptures.kept_last hcount).ge
      obtain ⟨m', hm', hrun⟩ := ihrest (hm₁.lower hlaid hmem hkept)
        fun v hv => hws v (List.mem_cons_of_mem _ hv)
      refine ⟨m', hm', ?_⟩
      intro n rest
      have hsteps : k + l + 2 + n = k + (l + n + 1) + 1 := by omega
      rw [hsteps, List.map_cons, List.cons_append,
        run_of_step (step_last hlaid hm hmem hclosure hcount), hrun₁, resume,
        run_of_step (step_retire_counted hm₁ hmem hkept), hrun]
  | @lastStopped k c c' p q ws hp hcount _ ih =>
      obtain ⟨hmem, hclosure, hbelow⟩ := (hws _ List.mem_cons_self).closure hp
      obtain ⟨m', hm', hrun⟩ := ih hm hbelow
      refine ⟨m', hm', ?_⟩
      intro n rest
      rw [Nat.add_right_comm, List.map_cons, List.cons_append,
        run_of_step (step_last hlaid hm hmem hclosure hcount), hrun]
      rfl

/-- A walk that gets past words to be given up has done what the protocol asks for. -/
theorem releases_of_run (hlaid : m₀.Laid ⟨0, 0⟩ hs q) (hm : m₀.Counted hs c m)
    (hws : ∀ w ∈ ws, m₀.Releasable hs w)
    (hends : (run n ⟨m, ws.map .release ++ rest⟩).2 ≠ some .endless) :
    ∃ k stopped c', k ≤ n ∧ Releases m₀.captures k c ws stopped c' := by
  -- on the tasks that the walk may do: what is left of them after a teardown is known
  -- from `run_of_releases`
  induction n using Nat.strong_induction_on generalizing c m ws rest with
  | _ n ih =>
    cases ws with
    | nil => exact ⟨0, none, c, Nat.zero_le n, .nil c⟩
    | cons w ws =>
      have hws' : ∀ v ∈ ws, m₀.Releasable hs v := fun v hv => hws v (List.mem_cons_of_mem _ hv)
      rw [List.map_cons, List.cons_append] at hends
      obtain _ | n := n
      · exact (hends rfl).elim
      rcases (hws w List.mem_cons_self).referable.cases with hignored | ⟨p, rfl, hmem, hclosure⟩
      · rw [run_of_step (step_ignored hignored)] at hends
        obtain ⟨k, stopped, c', hk, hrest⟩ := ih n (Nat.lt_succ_self n) hm hws' hends
        exact ⟨k + 1, stopped, c', Nat.succ_le_succ hk, .ignored hignored hrest⟩
      · have hp := Word.isTagged_ofPlace (hlaid.isAligned hmem)
        rcases Nat.lt_trichotomy (c p) 1 with hdead | hlast | hshared
        · exact ⟨1, some p, c, Nat.succ_le_succ (Nat.zero_le n), .dead hp (by omega)⟩
        · rw [run_of_step (step_last hlaid hm hmem hclosure hlast)] at hends
          have hbelow := fun v hv => (hws _ List.mem_cons_self).of_capture (v := v) hp hv
          obtain ⟨k, stopped, mid, hk, hcaptures⟩ := ih n (Nat.lt_succ_self n) hm hbelow hends
          cases stopped with
          | some r =>
              exact ⟨k + 1, some r, mid, Nat.succ_le_succ hk, .lastStopped hp hlast hcaptures⟩
          | none =>
              obtain ⟨m₁, hm₁, hrun⟩ := run_of_releases hlaid hcaptures hm hbelow
              have hkept : 1 ≤ mid p := (hcaptures.kept_last hlast).ge
              obtain ⟨l, rfl⟩ := Nat.exists_eq_add_of_le hk
              rw [hrun, resume] at hends
              obtain _ | l := l
              · exact (hends rfl).elim
              rw [run_of_step (step_retire_counted hm₁ hmem hkept)] at hends
              obtain ⟨j, stopped, c', hj, hrest⟩ :=
                ih l (by omega) (hm₁.lower hlaid hmem hkept) hws' hends
              exact ⟨k + j + 2, stopped, c', by omega, .last hp hlast hcaptures hrest⟩
        · rw [run_of_step (step_shared hlaid hm hmem hshared)] at hends
          obtain ⟨k, stopped, c', hk, hrest⟩ :=
            ih n (Nat.lt_succ_self n) (hm.lower hlaid hmem hshared.le) hws' hends
          exact ⟨k + 1, stopped, c', Nat.succ_le_succ hk, .shared hp hshared hrest⟩

end Teardown

section Bound

variable {m₀ m : Memory} {hs : List Place} {c c' : Place → Nat} {p q : Place} {w : Word} {k : Nat}
  {ws : List Word} {stopped : Option Place}

open Classical in
/-- The closures among these blocks that may be given up. -/
noncomputable def Memory.closures (m : Memory) (hs : List Place) : Finset Place :=
  (hs.map Place.payload).toFinset.filter fun p => m.Releasable hs (.ofPlace p)

theorem Memory.mem_closures :
    p ∈ m.closures hs ↔ p.header ∈ hs ∧ m.Releasable hs (.ofPlace p) := by
  classical
  have hmem : (∃ a ∈ hs, a.payload = p) ↔ p.header ∈ hs := by
    constructor
    · rintro ⟨a, ha, rfl⟩
      rwa [Place.header_payload]
    · exact fun hp => ⟨p.header, hp, p.payload_header⟩
  rw [closures, Finset.mem_filter, List.mem_toFinset, List.mem_map, hmem]

theorem Memory.card_closures_le (m : Memory) (hs : List Place) :
    (m.closures hs).card ≤ hs.length := by
  classical
  calc (m.closures hs).card ≤ (hs.map Place.payload).toFinset.card := Finset.card_filter_le _ _
    _ ≤ (hs.map Place.payload).length := List.toFinset_card_le _
    _ = hs.length := List.length_map _

theorem Memory.within_closures (hws : ∀ w ∈ ws, m.Releasable hs w) : Within (m.closures hs) ws := by
  intro p hp huntagged
  have hreleasable := hws _ hp
  exact mem_closures.2 ⟨(hreleasable.closure huntagged).1, hreleasable⟩

theorem Memory.Laid.closed_closures (hlaid : m.Laid ⟨0, 0⟩ hs q) :
    Closed m.captures (m.closures hs) UInt32.size := by
  have hclosure {p : Place} (hp : p ∈ m.closures hs) := (mem_closures.1 hp).2.closure
    (Word.isTagged_ofPlace (hlaid.isAligned (mem_closures.1 hp).1))
  constructor
  · intro p hp
    exact within_closures (hclosure hp).2.2
  · intro p hp
    exact (hclosure hp).2.1.length_captures_lt

theorem Memory.Counted.weight_le (hm : m₀.Counted hs c m) :
    weight (m₀.closures hs) c ≤ (m₀.closures hs).card * UInt64.size := by
  rw [← smul_eq_mul]
  apply Finset.sum_le_card_nsmul
  intro p hp
  rw [← hm.count p (mem_closures.1 hp).1]
  exact (m.refcount p.header).toNat_lt.le

theorem Teardown.budget_le_bound {n blocks weight : Nat} (hn : n ≤ blocks)
    (hweight : weight ≤ n * UInt64.size) : budget UInt32.size n weight 0 ≤ bound blocks := by
  rw [budget, bound]
  generalize UInt64.size = counts at *
  generalize UInt32.size = slots
  calc slots * ((n + 1) * weight + (n - 0))
      ≤ slots * ((blocks + 1) * (blocks * counts) + (blocks + 1)) := by
        have hweight' : weight ≤ blocks * counts := hweight.trans (Nat.mul_le_mul_right _ hn)
        gcongr
        omega
    _ = (blocks * counts + 1) * (blocks + 1) * slots := by ring

/-- The walk is given enough tasks for all that the protocol asks for. -/
theorem Teardown.steps_le_bound (hlaid : m₀.Laid ⟨0, 0⟩ hs q) (hm : m₀.Counted hs c m)
    (hw : m₀.Releasable hs w) (h : Releases m₀.captures k c [w] stopped c') :
    k ≤ 1 + bound hs.length := by
  have hwithin : Within (m₀.closures hs) [w] := by
    apply Memory.within_closures
    simpa using hw
  have hsteps := h.steps_le_budget hlaid.closed_closures hwithin
  exact hsteps.trans
    (Nat.add_le_add_left (budget_le_bound (m₀.card_closures_le hs) hm.weight_le) 1)

end Bound

namespace Heap

variable {σ : Type} {h : Heap σ} {hs : List Place} {c' : Place → Nat} {p : Place}
  {w : Word} {k : Nat}
  {stopped : Option Place}

/-- The count of the block with payload `p`. -/
def countOf (h : Heap σ) (p : Place) : Nat :=
  (h.memory.refcount p.header).toNat

/-- A result that the protocol asks for: it goes through, or a closure was released too often. -/
def verdict (h : Heap σ) : Option Place → EStateM.Result Failure (Heap σ) Unit
  | none => .ok () h
  | some p => .error (.aborted (.doubleRelease p)) h

theorem tearDown_of_endless
    (hwalk : (Teardown.run (Teardown.bound h.chain.length.toNat)
      ⟨h.memory, Teardown.visit h.memory p⟩).2 = some .endless) :
    ∃ h', tearDown p h = .error .endless h' := by
  rw [tearDown_eq]
  generalize Teardown.run _ _ = result at hwalk ⊢
  obtain ⟨m, _⟩ := result
  cases hwalk
  exact ⟨_, rfl⟩

theorem releaseClosure_last_of_releases (hf : h.Formed hs)
    (hw : h.memory.Releasable hs (.ofPlace p))
    (hp : (Word.ofPlace p).isTagged = false) (hcount : h.countOf p = 1)
    (hrel : Releases h.memory.captures k h.countOf [.ofPlace p] stopped c') :
    ∃ m log, h.memory.Counted hs c' m ∧
      releaseClosure (.ofPlace p) h = verdict { h with memory := m, log } stopped := by
  have hm : h.memory.Counted hs h.countOf h.memory := .refl h.memory hs
  obtain ⟨hmem, hclosure, -⟩ := hw.closure hp
  have haligned := hf.laid.isAligned hmem
  have hlast := (hm.refcount_eq_one_iff hmem).2 hcount
  obtain ⟨m, hm', hrun⟩ := Teardown.run_of_releases hf.laid hrel hm (by simpa using hw)
  have hbound := Teardown.steps_le_bound hf.laid hm hw hrel
  rw [← hf.length] at hbound
  obtain ⟨n, hn⟩ := Nat.exists_eq_add_of_le hbound
  have hwalk : Teardown.run (Teardown.bound h.chain.length.toNat + 1)
      ⟨h.memory, [.release (.ofPlace p)]⟩ = Teardown.resume n ⟨m, []⟩ stopped := by
    rw [Nat.add_comm, hn]
    exact hrun n []
  rw [releaseClosure_last haligned hclosure hlast, tearDown_eq,
    ← Teardown.run_visit haligned hlast, hwalk]
  cases stopped with
  | none =>
      rw [Teardown.resume, Teardown.run_nil]
      exact ⟨m, h.log, hm', rfl⟩
  | some x => exact ⟨m, h.log.push (.doubleRelease x), hm', rfl⟩

theorem releaseClosure_of_releases (hf : h.Formed hs) (hw : h.memory.Releasable hs w)
    (hrel : Releases h.memory.captures k h.countOf [w] stopped c') :
    ∃ m log, h.memory.Counted hs c' m ∧
      releaseClosure w h = verdict { h with memory := m, log } stopped := by
  have hm : h.memory.Counted hs h.countOf h.memory := .refl h.memory hs
  have hrel' := hrel
  cases hrel with
  | ignored hignored hrest =>
      cases hrest
      exact ⟨h.memory, h.log, hm, releaseClosure_ignored hignored⟩
  | dead hp hcount =>
      obtain ⟨hmem, -, -⟩ := hw.closure hp
      exact ⟨h.memory, _, hm,
        releaseClosure_dead (hf.laid.isAligned hmem) ((hm.refcount_eq_zero_iff hmem).2 hcount)⟩
  | shared hp hcount hrest =>
      cases hrest
      obtain ⟨hmem, -, -⟩ := hw.closure hp
      refine ⟨_, h.log, hm.lower hf.laid hmem hcount.le,
        releaseClosure_shared (hf.laid.isAligned hmem) (hm.refcount_ne_zero hmem hcount.le) ?_⟩
      rw [ne_eq, hm.refcount_eq_one_iff hmem]
      omega
  | last hp hcount _ _ => exact releaseClosure_last_of_releases hf hw hp hcount hrel'
  | lastStopped hp hcount _ => exact releaseClosure_last_of_releases hf hw hp hcount hrel'

theorem releases_of_releaseClosure (hf : h.Formed hs) (hw : h.memory.Releasable hs w)
    (hends : ∀ h', releaseClosure w h ≠ .error .endless h') :
    ∃ k stopped c', Releases h.memory.captures k h.countOf [w] stopped c' := by
  have hm : h.memory.Counted hs h.countOf h.memory := .refl h.memory hs
  rcases hw.referable.cases with hignored | ⟨p, rfl, hmem, hclosure⟩
  · exact ⟨1, none, _, .ignored hignored (.nil _)⟩
  · have haligned := hf.laid.isAligned hmem
    have hp := Word.isTagged_ofPlace haligned
    rcases Nat.lt_trichotomy (h.countOf p) 1 with hdead | hcount | hshared
    · exact ⟨1, some p, _, .dead hp (by omega)⟩
    · have hlast := (hm.refcount_eq_one_iff hmem).2 hcount
      have hwalk : (Teardown.run (Teardown.bound h.chain.length.toNat + 1)
          ⟨h.memory, [Word.ofPlace p].map .release ++ []⟩).2 ≠ some .endless := by
        intro hendless
        obtain ⟨h', hh'⟩ := tearDown_of_endless (Teardown.run_visit haligned hlast ▸ hendless)
        apply hends h'
        rw [releaseClosure_last haligned hclosure hlast, hh']
      obtain ⟨k, stopped, c', -, hrel⟩ :=
        Teardown.releases_of_run hf.laid hm (by simpa using hw) hwalk
      exact ⟨k, stopped, c', hrel⟩
    · exact ⟨1, none, _, .shared hp hshared (.nil _)⟩

/-- Giving up a closure and the recursive protocol end together. The verdict is the same, and so is
the count of each block, also where a closure released too often stops them half way. -/
theorem releaseClosure_refines_protocol (hf : h.Formed hs) (hw : h.memory.Releasable hs w) :
    (∀ stopped c', Ends h.memory.captures h.countOf w stopped c' →
        ∃ h' : Heap σ, releaseClosure w h = h'.verdict stopped ∧
          ∀ p, p.header ∈ hs → h'.countOf p = c' p) ∧
      ((∀ h', releaseClosure w h ≠ .error .endless h') →
        ∃ stopped c', Ends h.memory.captures h.countOf w stopped c') := by
  constructor
  · rintro stopped c' ⟨k, hrel⟩
    obtain ⟨m, log, hm, hdone⟩ := releaseClosure_of_releases hf hw hrel
    exact ⟨_, hdone, hm.count⟩
  · intro hends
    obtain ⟨k, stopped, c', hrel⟩ := releases_of_releaseClosure hf hw hends
    exact ⟨stopped, c', k, hrel⟩

section Looped

/-- A call that writes these words to the first slots of a block. -/
def fill (p : Place) (ws : List Word) : Call :=
  .write p 0 (ws.flatMap fun w => (List.range 8).map w.cell)

/-- One closure captures another and itself, and both have one reference. -/
def loopedCalls : List (Call × Option Place) :=
  [(.acquire 24, some ⟨0, 24⟩), (.acquire 8, some ⟨0, 72⟩),
    (fill ⟨0, 24⟩ [.function ⟨2⟩, .ofPlace ⟨0, 72⟩, .ofPlace ⟨0, 24⟩], none),
    (fill ⟨0, 72⟩ [.function ⟨0⟩], none)]

def loopedHeap : Heap SystemPages :=
  afterAll (empty (.ofSegmentSize 200) ⟨⟩) loopedCalls

theorem loopedCalls_run : Run (empty (.ofSegmentSize 200) ⟨⟩) loopedCalls loopedHeap :=
  .of_plays (by decide +kernel)

def loopedBlocks : List Place :=
  [⟨0, 0⟩, ⟨0, 48⟩, ⟨0, 80⟩]

theorem loopedHeap_formed : loopedHeap.Formed loopedBlocks :=
  loopedCalls_run.formed_of_nodes (formed_empty _ _) rfl

theorem captures_looped :
    loopedHeap.memory.captures ⟨0, 24⟩ = [.ofPlace ⟨0, 72⟩, .ofPlace ⟨0, 24⟩] ∧
      loopedHeap.memory.captures ⟨0, 72⟩ = [] := by
  decide +kernel

theorem loopedHeap_releasable : loopedHeap.memory.Releasable loopedBlocks (.ofPlace ⟨0, 24⟩) :=
  .of_places (S := {⟨0, 24⟩, ⟨0, 72⟩}) (by decide) (by decide +kernel)

/-- The first closure is reached again while it is torn down, and by then the other one has no
reference left. -/
theorem loopedHeap_stopped :
    loopedHeap.Formed loopedBlocks ∧ loopedHeap.memory.Releasable loopedBlocks (.ofPlace ⟨0, 24⟩) ∧
      (∃ h' : Heap SystemPages,
        releaseClosure (.ofPlace ⟨0, 24⟩) loopedHeap =
          .error (.aborted (.doubleRelease ⟨0, 72⟩)) h' ∧
          ∀ p, p.header ∈ loopedBlocks → h'.countOf p = lower loopedHeap.countOf ⟨0, 72⟩ p) ∧
      ∃ stopped c', Ends loopedHeap.memory.captures loopedHeap.countOf (.ofPlace ⟨0, 24⟩)
        stopped c' := by
  have hrefines := releaseClosure_refines_protocol loopedHeap_formed loopedHeap_releasable
  have hends : Ends loopedHeap.memory.captures loopedHeap.countOf (.ofPlace ⟨0, 24⟩) (some ⟨0, 72⟩)
      (lower loopedHeap.countOf ⟨0, 72⟩) := by
    have hagain : Releases loopedHeap.memory.captures 2 (lower loopedHeap.countOf ⟨0, 72⟩)
        [.ofPlace ⟨0, 24⟩] (some ⟨0, 72⟩) (lower loopedHeap.countOf ⟨0, 72⟩) := by
      refine .lastStopped (by decide) (by decide +kernel) ?_
      rw [captures_looped.1]
      exact .dead (by decide) (by decide +kernel)
    refine ⟨5, .lastStopped (by decide) (by decide +kernel) ?_⟩
    rw [captures_looped.1]
    apply Releases.last (k := 0) (by decide) (by decide +kernel) _ hagain
    rw [captures_looped.2]
    exact .nil _
  obtain ⟨h', hresult, hcounts⟩ := hrefines.1 _ _ hends
  refine ⟨loopedHeap_formed, loopedHeap_releasable, ⟨h', hresult, hcounts⟩, hrefines.2 ?_⟩
  intro h'' hendless
  rw [hresult] at hendless
  cases hendless

end Looped

end Heap

end CountedHeap
