import CountedHeap.Proofs.Refinement

/-!
The tasks of a walk over closures are nested like the calls of the protocol. Behind the captures of
a closure that are still to be given up comes the task to retire it, and the captures before them
went through. So a closure that was entered a second time never gets as far as that. Main
statement: whenever a closure is retired it has exactly one reference, whatever the counts and
captures of the heap are.
-/

namespace CountedHeap

open Protocol

section Nested

variable {captures : Place → List Word} {c c' : Place → Nat} {p a : Place} {w : Word} {k : Nat}
  {rest : List Task}

/-- The tasks of teardowns inside each other while the counts are `c`. An inner one began when a
closure had to be given up that had one reference, and since then the protocol went through some of
its captures. -/
inductive Nested (captures : Place → List Word) : (Place → Nat) → List Task → Prop
  | words (c : Place → Nat) (ws : List Word) : Nested captures c (ws.map .release)
  | visit {k : Nat} {entered c : Place → Nat} {p : Place} {done ws : List Word} {rest : List Task}
      (hp : (Word.ofPlace p).isTagged = false) (hcount : entered p = 1)
      (hcaptures : captures p = done ++ ws) (hdone : Releases captures k entered done none c)
      (houter : Nested captures entered (.release (.ofPlace p) :: rest)) :
      Nested captures c (ws.map .release ++ .retire p.header :: rest)

namespace Nested

theorem pop (h : Nested captures c (.release w :: rest))
    (hword : Releases captures k c [w] none c') :
    Nested captures c' rest := by
  generalize hpending : .release w :: rest = pending at h
  cases h with
  | words c ws =>
      cases ws with
      | nil => cases hpending
      | cons v ws =>
          cases hpending
          exact .words c' ws
  | @visit j entered c p done ws outer hp hcount hcaptures hdone houter =>
      cases ws with
      | nil => cases hpending
      | cons v ws =>
          cases hpending
          refine .visit hp hcount ?_ (hdone.append hword) houter
          rw [hcaptures, List.append_assoc, List.singleton_append]

theorem enter (h : Nested captures c (.release (.ofPlace p) :: rest))
    (hp : (Word.ofPlace p).isTagged = false) (hcount : c p = 1) :
    Nested captures c ((captures p).map .release ++ .retire p.header :: rest) :=
  .visit hp hcount (List.nil_append _).symm (.nil c) h

/-- All captures of a closure that is to be retired went through, and so it was not
torn down among them. -/
theorem retire (h : Nested captures c (.retire a :: rest)) :
    ∃ p, a = p.header ∧ c p = 1 ∧ Nested captures (lower c p) rest := by
  generalize hpending : .retire a :: rest = pending at h
  cases h with
  | words c ws => cases ws <;> cases hpending
  | @visit j entered c p done ws outer hp hcount hcaptures hdone houter =>
      cases ws with
      | cons v ws => cases hpending
      | nil =>
          cases hpending
          rw [List.append_nil] at hcaptures
          rw [← hcaptures] at hdone
          exact ⟨p, rfl, hdone.kept_last hcount, houter.pop (.last hp hcount hdone (.nil _))⟩

end Nested

end Nested

namespace Teardown

/-- The walk after `n` more tasks. -/
def after : Nat → Teardown → Except Failure Teardown
  | 0, t => .ok t
  | n + 1, t => do after n (← t.step)

variable {m₀ m : Memory} {hs : List Place} {c : Place → Nat} {p q a : Place} {rest : List Task}
  {t t' : Teardown} {n : Nat} {failure : Failure}

theorem run_of_after {k : Nat} (hafter : after n t = .ok t') : run (n + k) t = run k t' := by
  induction n generalizing t with
  | zero =>
      cases hafter
      rw [Nat.zero_add]
  | succ n ih =>
      rw [after, bind_eq_ok_iff] at hafter
      obtain ⟨t₁, hstep, hafter⟩ := hafter
      rw [← ih hafter, Nat.add_right_comm]
      obtain ⟨m, pending⟩ := t
      cases pending with
      | nil =>
          cases hstep
          rw [run_nil, run_nil]
      | cons task rest => exact run_of_step hstep

/-- A walk stops early only after some tasks and at the next one, or when it may do no more. -/
theorem exists_after_of_run (hrun : (run n t).2 = some failure) :
    failure = .endless ∨ ∃ k t', after k t = .ok t' ∧ t'.step = .error failure := by
  induction n generalizing t with
  | zero =>
      rw [run] at hrun
      split at hrun
      · cases hrun
      · cases hrun
        exact .inl rfl
  | succ n ih =>
      rw [run] at hrun
      split at hrun
      · cases hrun
      · split at hrun
        · rename_i t' hstep
          rcases ih hrun with hendless | ⟨k, last, hafter, herror⟩
          · exact .inl hendless
          · refine .inr ⟨k + 1, last, ?_, herror⟩
            rw [after, hstep]
            exact hafter
        · rename_i hstep
          cases hrun
          exact .inr ⟨0, t, rfl, hstep⟩

/-- The walk has changed nothing but counts, and its tasks are nested. -/
structure Orderly (m₀ : Memory) (hs : List Place) (t : Teardown) : Prop where
  tame : Tame m₀ hs t
  nested : ∃ c, m₀.Counted hs c t.memory ∧ Nested m₀.captures c t.pending

theorem visit_orderly (hlaid : m₀.Laid ⟨0, 0⟩ hs q) (hw : m₀.Releasable hs (.ofPlace p))
    (hp : (Word.ofPlace p).isTagged = false) (hlast : m₀.refcount p.header = 1) :
    Orderly m₀ hs ⟨m₀, visit m₀ p⟩ := by
  obtain ⟨hmem, hclosure, -⟩ := hw.closure hp
  have hm := Memory.Counted.refl m₀ hs
  constructor
  · rw [← List.append_nil (visit m₀ p)]
    exact visit_tame hlaid (.refl _ _) hw hmem hclosure (fun w hw => nomatch hw) fun a ha =>
      nomatch ha
  · exact ⟨_, hm, (Nested.words _ [.ofPlace p]).enter hp ((hm.refcount_eq_one_iff hmem).1 hlast)⟩

namespace Orderly

theorem step_retire (hlaid : m₀.Laid ⟨0, 0⟩ hs q) (h : Orderly m₀ hs ⟨m, .retire a :: rest⟩) :
    m.refcount a = 1 ∧ step ⟨m, .retire a :: rest⟩ = .ok ⟨m.addRefcount a (-1), rest⟩ ∧
      (m.addRefcount a (-1)).refcount a = 0 ∧
      ∃ c, m₀.Counted hs c (m.addRefcount a (-1)) ∧ Nested m₀.captures c rest := by
  obtain ⟨c, hm, hnested⟩ := h.nested
  obtain ⟨p, rfl, hcount, hrest⟩ := hnested.retire
  have hmem := h.tame.headers _ List.mem_cons_self
  have hlower := hm.lower hlaid hmem hcount.ge
  refine ⟨(hm.refcount_eq_one_iff hmem).2 hcount, step_retire_counted hm hmem hcount.ge, ?_,
    _, hlower, hrest⟩
  rw [hlower.refcount_eq_zero_iff hmem, lower_self, hcount]

theorem step (hlaid : m₀.Laid ⟨0, 0⟩ hs q) (h : Orderly m₀ hs t) (hstep : t.step = .ok t') :
    Orderly m₀ hs t' := by
  refine ⟨h.tame.step hlaid hstep, ?_⟩
  obtain ⟨m, pending⟩ := t
  cases pending with
  | nil =>
      cases hstep
      exact h.nested
  | cons task rest =>
      cases task with
      | retire a =>
          obtain ⟨-, hdone, -, hnested⟩ := h.step_retire hlaid
          rw [hdone] at hstep
          cases hstep
          exact hnested
      | release w =>
          obtain ⟨c, hm, hnested⟩ := h.nested
          have hw := h.tame.words w List.mem_cons_self
          rcases hw.referable.cases with hignored | ⟨p, rfl, hmem, hclosure⟩
          · rw [step_ignored hignored] at hstep
            cases hstep
            exact ⟨c, hm, hnested.pop (.ignored hignored (.nil c))⟩
          · have hp := Word.isTagged_ofPlace (hlaid.isAligned hmem)
            rcases Nat.lt_trichotomy (c p) 1 with hdead | hlast | hshared
            · rw [step_dead hlaid hm hmem (by omega)] at hstep
              cases hstep
            · rw [step_last hlaid hm hmem hclosure hlast] at hstep
              cases hstep
              exact ⟨c, hm, hnested.enter hp hlast⟩
            · rw [step_shared hlaid hm hmem hshared] at hstep
              cases hstep
              exact ⟨_, hm.lower hlaid hmem hshared.le, hnested.pop (.shared hp hshared (.nil _))⟩

theorem after (hlaid : m₀.Laid ⟨0, 0⟩ hs q) (h : Orderly m₀ hs t) (hafter : after n t = .ok t') :
    Orderly m₀ hs t' := by
  induction n generalizing t with
  | zero =>
      cases hafter
      exact h
  | succ n ih =>
      rw [Teardown.after, bind_eq_ok_iff] at hafter
      obtain ⟨t₁, hstep, hafter⟩ := hafter
      exact ih (h.step hlaid hstep) hafter

/-- Only a closure that was released too often stops the walk. -/
theorem step_eq_error (hlaid : m₀.Laid ⟨0, 0⟩ hs q) (h : Orderly m₀ hs t)
    (hstep : t.step = .error failure) : ∃ p, failure = .aborted (.doubleRelease p) := by
  obtain ⟨m, pending⟩ := t
  cases pending with
  | nil => cases hstep
  | cons task rest =>
      cases task with
      | retire a =>
          rw [(h.step_retire hlaid).2.1] at hstep
          cases hstep
      | release w =>
          rcases (h.tame.words w List.mem_cons_self).referable.cases with
            hignored | ⟨p, rfl, hmem, -⟩
          · rw [step_ignored hignored] at hstep
            cases hstep
          · rw [step_place (hlaid.isAligned hmem)] at hstep
            split at hstep
            · cases hstep
              exact ⟨p, rfl⟩
            · split at hstep <;> cases hstep

end Orderly

end Teardown

namespace Heap

variable {σ : Type} {h : Heap σ} {hs : List Place} {w : Word} {p : Place}

theorem drop_eq_last (hf : h.Formed hs) (hw : h.memory.Releasable hs w)
    (hdrop : Drop.of h.memory w = .ok (.last p)) :
    w = .ofPlace p ∧ (Word.ofPlace p).isTagged = false ∧ h.memory.refcount p.header = 1 := by
  rcases hw.referable.cases with hignored | ⟨p', rfl, hmem, -⟩
  · rw [Drop.of_ignored hignored] at hdrop
    cases hdrop
  · have haligned := hf.laid.isAligned hmem
    rw [Drop.of_place haligned] at hdrop
    split at hdrop
    · cases hdrop
    · split at hdrop
      · rename_i hlast
        cases hdrop
        exact ⟨rfl, Word.isTagged_ofPlace haligned, hlast⟩
      · cases hdrop

theorem tearDown_ne_faulted (hf : h.Formed hs)
    (horderly : Teardown.Orderly h.memory hs ⟨h.memory, Teardown.visit h.memory p⟩) (fault : Fault)
    (h' : Heap σ) : tearDown p h ≠ .error (.faulted fault) h' := by
  rw [tearDown_eq]
  split
  · nofun
  · rename_i m failure hrun
    obtain ⟨log, hfail⟩ : ∃ log, (fail failure : HeapM σ Unit) { h with memory := m } = _ :=
      fail_eq failure _
    rw [hfail]
    rcases Teardown.exists_after_of_run (congrArg Prod.snd hrun) with rfl | ⟨k, t, hafter, herror⟩
    · nofun
    · obtain ⟨x, rfl⟩ := (horderly.after hf.laid hafter).step_eq_error hf.laid herror
      nofun

theorem releaseClosure_ne_faulted (hf : h.Formed hs) (hw : h.memory.Releasable hs w) (fault : Fault)
    (h' : Heap σ) : releaseClosure w h ≠ .error (.faulted fault) h' := by
  rcases hw.referable.cases with hignored | ⟨p, rfl, hmem, hclosure⟩
  · rw [releaseClosure_ignored hignored]
    nofun
  · have haligned := hf.laid.isAligned hmem
    by_cases hdead : h.memory.refcount p.header = 0
    · rw [releaseClosure_dead haligned hdead]
      nofun
    · by_cases hlast : h.memory.refcount p.header = 1
      · rw [releaseClosure_last haligned hclosure hlast]
        have hp := Word.isTagged_ofPlace haligned
        exact tearDown_ne_faulted hf (Teardown.visit_orderly hf.laid hw hp hlast) fault h'
      · rw [releaseClosure_shared haligned hdead hlast]
        nofun

/-- Whenever a walk comes to retire a closure, after any number of its tasks, the closure has one
reference and is left with none. So no count falls below zero while a closure is given up, also
where captures are shared or lead back and the counts are wrong. Giving up a closure comes to what
the walk comes to. -/
theorem retired_closure_has_one_reference (hf : h.Formed hs) (hw : h.memory.Releasable hs w) :
    (∀ p, Drop.of h.memory w = .ok (.last p) →
      (∀ m, Teardown.run (Teardown.bound h.chain.length.toNat)
          ⟨h.memory, Teardown.visit h.memory p⟩ = (m, none) →
        releaseClosure w h = .ok () { h with memory := m }) ∧
      (∀ m failure, Teardown.run (Teardown.bound h.chain.length.toNat)
          ⟨h.memory, Teardown.visit h.memory p⟩ = (m, some failure) →
        releaseClosure w h = fail failure { h with memory := m }) ∧
      ∀ n t, Teardown.after n ⟨h.memory, Teardown.visit h.memory p⟩ = .ok t →
        (∀ k, Teardown.run (n + k) ⟨h.memory, Teardown.visit h.memory p⟩ = Teardown.run k t) ∧
          ∀ a rest, t.pending = .retire a :: rest →
            t.memory.refcount a = 1 ∧ ∃ m, t.step = .ok ⟨m, rest⟩ ∧ m.refcount a = 0) ∧
      ∀ fault h', releaseClosure w h ≠ .error (.faulted fault) h' := by
  refine ⟨?_, releaseClosure_ne_faulted hf hw⟩
  intro p hdrop
  obtain ⟨rfl, hp, hlast⟩ := drop_eq_last hf hw hdrop
  obtain ⟨hmem, hclosure, -⟩ := hw.closure hp
  have hwalk := releaseClosure_last (hf.laid.isAligned hmem) hclosure hlast
  refine ⟨fun m hrun => ?_, fun m failure hrun => ?_, fun n t hafter => ?_⟩
  · rw [hwalk, tearDown_eq, hrun]
  · rw [hwalk, tearDown_eq, hrun]
  · refine ⟨fun k => Teardown.run_of_after hafter, ?_⟩
    obtain ⟨m, pending⟩ := t
    rintro a rest rfl
    have horderly := (Teardown.visit_orderly hf.laid hw hp hlast).after hf.laid hafter
    obtain ⟨hcount, hstep, hzero, -⟩ := horderly.step_retire hf.laid
    exact ⟨hcount, _, hstep, hzero⟩

section Looped

theorem exists_after_of_pending {t : Teardown} {n : Nat} {pending : List Task}
    (hpending : (Teardown.after n t).map Teardown.pending = .ok pending) :
    ∃ t', Teardown.after n t = .ok t' ∧ t'.pending = pending := by
  cases hafter : Teardown.after n t with
  | error failure =>
      rw [hafter] at hpending
      cases hpending
  | ok t' =>
      rw [hafter] at hpending
      exact ⟨t', rfl, Except.ok.inj hpending⟩

def loopedWalk : Teardown :=
  ⟨loopedHeap.memory, Teardown.visit loopedHeap.memory ⟨0, 24⟩⟩

/-- The inner closure is retired first. Then the outer one is entered again and has to be retired
twice, but the walk does not get that far. -/
theorem loopedHeap_retired :
    (∃ t m, Teardown.after 1 loopedWalk = .ok t ∧
        t.pending = [.retire ⟨0, 48⟩, .release (.ofPlace ⟨0, 24⟩), .retire ⟨0, 0⟩] ∧
        t.memory.refcount ⟨0, 48⟩ = 1 ∧
        t.step = .ok ⟨m, [.release (.ofPlace ⟨0, 24⟩), .retire ⟨0, 0⟩]⟩ ∧ m.refcount ⟨0, 48⟩ = 0) ∧
      (∃ t, Teardown.after 3 loopedWalk = .ok t ∧
        t.pending = [.release (.ofPlace ⟨0, 72⟩), .release (.ofPlace ⟨0, 24⟩), .retire ⟨0, 0⟩,
          .retire ⟨0, 0⟩]) ∧
      ∀ fault h', releaseClosure (.ofPlace ⟨0, 24⟩) loopedHeap ≠ .error (.faulted fault) h' := by
  obtain ⟨hlast, hnever⟩ :=
    retired_closure_has_one_reference loopedHeap_formed loopedHeap_releasable
  obtain ⟨-, -, hretired⟩ := hlast ⟨0, 24⟩ (by decide +kernel)
  obtain ⟨t, hafter, hpending⟩ : ∃ t, Teardown.after 1 loopedWalk = .ok t ∧
      t.pending = [.retire ⟨0, 48⟩, .release (.ofPlace ⟨0, 24⟩), .retire ⟨0, 0⟩] :=
    exists_after_of_pending (by decide +kernel)
  obtain ⟨-, hone⟩ := hretired 1 t hafter
  obtain ⟨hcount, m, hstep, hzero⟩ := hone _ _ hpending
  exact ⟨⟨t, m, hafter, hpending, hcount, hstep, hzero⟩,
    exists_after_of_pending (by decide +kernel), hnever⟩

end Looped

end Heap

end CountedHeap
