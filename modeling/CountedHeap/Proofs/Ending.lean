import CountedHeap.Proofs.Counting
import CountedHeap.Proofs.Retiring

/-!
When a walk over closures ends. Each task of a walk lowers a count, or begins the teardown of
one more closure, or is one task less. So a walk can go on for ever only if it enters a closure
whose own teardown has not ended, and for that the captures must lead back. Main statement:
giving up a closure ends, or comes back to a closure that is being torn down, and it ends
wherever captures do not lead back.
-/

namespace CountedHeap

open Protocol

/-- One closure captures the other. -/
def Protocol.Holds (captures : Place → List Word) (x y : Place) : Prop :=
  .ofPlace y ∈ captures x ∧ (Word.ofPlace y).isTagged = false

section Cycles

variable {m : Memory} {S : Finset Place} {p x : Place}

theorem Memory.Reached.mem_of_cycle (hx : m.Reached (.ofPlace p) (.ofPlace x)) (hp : p ∈ S)
    (hclosed : ∀ q ∈ S, ∀ v ∈ m.captures q, v.Refers S)
    (hcycle : Relation.TransGen (Holds m.captures) x x) : x ∈ S := by
  obtain ⟨_, -, -, huntagged⟩ := Relation.TransGen.tail'_iff.1 hcycle
  exact (hx.refers hp hclosed).mem huntagged

/-- Captures that lie behind the closures that hold them do not lead back. -/
theorem Memory.acyclic_of_behind (hclosed : ∀ q ∈ S, ∀ v ∈ m.captures q, v.Refers S)
    (hbehind : ∀ x ∈ S, ∀ y ∈ S, .ofPlace y ∈ m.captures x → x.offset < y.offset) (hx : x ∈ S) :
    ¬ Relation.TransGen (Holds m.captures) x x := by
  have hpath : ∀ z, Relation.TransGen (Holds m.captures) x z → z ∈ S ∧ x.offset < z.offset := by
    intro z hz
    induction hz with
    | single hedge =>
        have hz := (hclosed x hx _ hedge.1).mem hedge.2
        exact ⟨hz, hbehind x hx _ hz hedge.1⟩
    | tail _ hedge ih =>
        have hz := (hclosed _ ih.1 _ hedge.1).mem hedge.2
        exact ⟨hz, ih.2.trans (hbehind _ ih.1 _ hz hedge.1)⟩
  intro hcycle
  exact lt_irrefl _ (hpath x hcycle).2

end Cycles

/-- A teardown inside others began at a capture of the innermost of them. -/
theorem Nested.holds {captures : Place → List Word} {c : Place → Nat} {w : Word} {rest : List Task}
    {a : Place} (h : Nested captures c (.release w :: rest)) (ha : .retire a ∈ rest) :
    ∃ x y, a = x.header ∧ Relation.ReflTransGen (Holds captures) x y ∧ w ∈ captures y := by
  generalize hpending : .release w :: rest = pending at h
  induction h generalizing w rest with
  | words c ws =>
      exfalso
      have hmem : .retire a ∈ ws.map Task.release := hpending ▸ List.mem_cons_of_mem _ ha
      simp at hmem
  | @visit k entered c p done ws outer hp hcount hcaptures hdone houter ih =>
      cases ws with
      | nil => cases hpending
      | cons v ws =>
          cases hpending
          have hw : w ∈ captures p := by simp [hcaptures]
          rcases List.mem_append.1 ha with hword | htask
          · simp at hword
          · rcases List.mem_cons.1 htask with hself | houtside
            · cases hself
              exact ⟨p, p, rfl, .refl, hw⟩
            · obtain ⟨x, y, hx, hpath, hmem⟩ := ih houtside rfl
              exact ⟨x, p, hx, hpath.tail ⟨hmem, hp⟩, hw⟩

namespace Memory

variable {m₀ m : Memory} {hs : List Place} {c : Place → Nat} {p q : Place}

/-- All references to these blocks together. -/
def references (m : Memory) (hs : List Place) : Nat :=
  weight (hs.map Place.payload).toFinset fun p => (m.refcount p.header).toNat

theorem mem_payloads : p ∈ (hs.map Place.payload).toFinset ↔ p.header ∈ hs := by
  rw [List.mem_toFinset, List.mem_map]
  constructor
  · rintro ⟨a, ha, rfl⟩
    rwa [Place.header_payload]
  · intro hp
    exact ⟨p.header, hp, p.payload_header⟩

theorem Counted.references_eq (hm : m₀.Counted hs c m) :
    m.references hs = weight (hs.map Place.payload).toFinset c :=
  Finset.sum_congr rfl fun p hp => hm.count p (mem_payloads.1 hp)

theorem Recounted.references_lower (hm : m₀.Recounted hs m) (hlaid : m₀.Laid ⟨0, 0⟩ hs q)
    (hp : p.header ∈ hs) (hlive : 1 ≤ (m.refcount p.header).toNat) :
    (m.addRefcount p.header (-1)).references hs < m.references hs := by
  have hcounted : m₀.Counted hs (fun p => (m.refcount p.header).toNat) m := ⟨hm, fun _ _ => rfl⟩
  rw [(hcounted.lower hlaid hp hlive).references_eq]
  exact Nat.lt_of_succ_le (weight_lower (mem_payloads.2 hp) hlive).le

end Memory

namespace Teardown

/-- What the first task of a walk does. -/
inductive Move (m₀ : Memory) (hs : List Place) (m : Memory) :
    List Task → Except Failure Teardown → Prop
  | done : Move m₀ hs m [] (.ok ⟨m, []⟩)
  | skip {w : Word} {rest : List Task} (hw : w.isTagged = true ∨ w = .null) :
      Move m₀ hs m (.release w :: rest) (.ok ⟨m, rest⟩)
  | dead {p : Place} {rest : List Task} (hp : p.header ∈ hs) (hcount : m.refcount p.header = 0) :
      Move m₀ hs m (.release (.ofPlace p) :: rest) (.error (.aborted (.doubleRelease p)))
  | share {p : Place} {rest : List Task} (hp : p.header ∈ hs)
      (hcount : 1 < (m.refcount p.header).toNat) :
      Move m₀ hs m (.release (.ofPlace p) :: rest) (.ok ⟨m.addRefcount p.header (-1), rest⟩)
  | enter {p : Place} {rest : List Task} (hp : p.header ∈ hs)
      (hdrop : Drop.of m (.ofPlace p) = .ok (.last p)) :
      Move m₀ hs m (.release (.ofPlace p) :: rest)
        (.ok ⟨m, (m₀.captures p).map .release ++ .retire p.header :: rest⟩)
  | retire {p : Place} {rest : List Task} (hp : p.header ∈ hs)
      (hcount : (m.refcount p.header).toNat = 1) :
      Move m₀ hs m (.retire p.header :: rest) (.ok ⟨m.addRefcount p.header (-1), rest⟩)

/-- There is nothing left to do, or the next task would release a closure too often. -/
def Finished (t : Teardown) : Prop :=
  t.pending = [] ∨ ∃ q, t.step = .error (.aborted (.doubleRelease q))

/-- The next task enters a closure that is still to be retired. -/
def Reenters (t : Teardown) : Prop :=
  ∃ q rest, t.pending = .release (.ofPlace q) :: rest ∧
    Drop.of t.memory (.ofPlace q) = .ok (.last q) ∧ .retire q.header ∈ rest

/-- The headers of the closures that are still to be retired. -/
def entered (t : Teardown) : Finset Place :=
  (t.pending.filterMap fun
    | .release _ => none
    | .retire a => some a).toFinset

/-- References, closures not entered, tasks: the first that changes with a task becomes less. -/
def remaining (hs : List Place) (t : Teardown) : ℕ ×ₗ ℕ ×ₗ ℕ :=
  toLex (t.memory.references hs, toLex ((hs.toFinset \ t.entered).card, t.pending.length))

variable {m₀ m : Memory} {hs : List Place} {p q a : Place} {w : Word} {rest : List Task}
  {t t' : Teardown}
  {result : Except Failure Teardown}

theorem mem_entered : a ∈ t.entered ↔ .retire a ∈ t.pending := by
  rw [entered, List.mem_toFinset, List.mem_filterMap]
  constructor
  · rintro ⟨task, hmem, htask⟩
    cases task with
    | release w => cases htask
    | retire b =>
        cases htask
        exact hmem
  · intro hmem
    exact ⟨_, hmem, rfl⟩

theorem entered_visit (ws : List Word) :
    (⟨m, ws.map .release ++ .retire a :: rest⟩ : Teardown).entered =
      insert a (⟨m, rest⟩ : Teardown).entered := by
  ext b
  simp [mem_entered]

theorem Orderly.move (hlaid : m₀.Laid ⟨0, 0⟩ hs q) {pending : List Task}
    (h : Orderly m₀ hs ⟨m, pending⟩) : Move m₀ hs m pending (Teardown.step ⟨m, pending⟩) := by
  obtain ⟨c, hm, hnested⟩ := h.nested
  cases pending with
  | nil => exact .done
  | cons task rest =>
      cases task with
      | retire a =>
          obtain ⟨p, rfl, hcount, -⟩ := hnested.retire
          have hmem := h.tame.headers _ List.mem_cons_self
          rw [step_retire_counted hm hmem hcount.ge]
          exact .retire hmem ((hm.count p hmem).trans hcount)
      | release w =>
          rcases (h.tame.words w List.mem_cons_self).referable.cases with
            hignored | ⟨p, rfl, hmem, hclosure⟩
          · rw [step_ignored hignored]
            exact .skip hignored
          · have hcount : (m.refcount p.header).toNat = c p := hm.count p hmem
            rcases Nat.lt_trichotomy (c p) 1 with hdead | hlast | hshared
            · rw [step_dead hlaid hm hmem (by omega)]
              exact .dead hmem ((hm.refcount_eq_zero_iff hmem).2 (by omega))
            · have hlive := hm.refcount_ne_zero hmem hlast.ge
              rw [step_last hlaid hm hmem hclosure hlast]
              refine .enter hmem ?_
              rw [Drop.of_place (hlaid.isAligned hmem), if_neg hlive,
                if_pos ((hm.refcount_eq_one_iff hmem).2 hlast)]
            · rw [step_shared hlaid hm hmem hshared]
              exact .share hmem (by omega)

theorem Move.remaining_lt (hmove : Move m₀ hs t.memory t.pending (.ok t'))
    (hlaid : m₀.Laid ⟨0, 0⟩ hs q)
    (hm : m₀.Recounted hs t.memory) (hpending : t.pending ≠ []) (hfresh : ¬ t.Reenters) :
    t'.remaining hs < t.remaining hs := by
  obtain ⟨m, pending⟩ := t
  simp only at hmove hm hpending
  rw [remaining, remaining, Prod.Lex.toLex_lt_toLex, Prod.Lex.toLex_lt_toLex]
  cases hmove with
  | done => exact (hpending rfl).elim
  | skip hw => exact .inr ⟨rfl, .inr ⟨rfl, Nat.lt_succ_self _⟩⟩
  | share hp hcount => exact .inl (hm.references_lower hlaid hp hcount.le)
  | retire hp hcount => exact .inl (hm.references_lower hlaid hp hcount.ge)
  | @enter p rest hp hdrop =>
      -- no count changes, but one closure more is to be retired, and it was not before
      have hnew : p.header ∉ (⟨m, rest⟩ : Teardown).entered := by
        intro hmem
        exact hfresh ⟨p, rest, rfl, hdrop, mem_entered.1 hmem⟩
      have hsubset : hs.toFinset \ insert p.header (⟨m, rest⟩ : Teardown).entered ⊆
          hs.toFinset \ (⟨m, rest⟩ : Teardown).entered :=
        Finset.sdiff_subset_sdiff subset_rfl (Finset.subset_insert _ _)
      have hfewer := Finset.card_lt_card ((Finset.ssubset_iff_of_subset hsubset).2
        ⟨p.header, by simp [hp, hnew], by simp⟩)
      rw [← entered_visit (m₀.captures p)] at hfewer
      exact .inr ⟨rfl, .inl hfewer⟩

theorem Orderly.finishes_or_reenters (hlaid : m₀.Laid ⟨0, 0⟩ hs q) (h : Orderly m₀ hs t) :
    ∃ n t', Teardown.after n t = .ok t' ∧ (t'.Finished ∨ t'.Reenters) := by
  induction hsize : t.remaining hs using WellFoundedLT.induction generalizing t with
  | ind size ih =>
    by_cases hstop : t.Finished ∨ t.Reenters
    · exact ⟨0, t, rfl, hstop⟩
    · obtain ⟨hunfinished, hfresh⟩ := not_or.1 hstop
      have hmove := h.move hlaid
      cases hstep : t.step with
      | error failure =>
          obtain ⟨p, rfl⟩ := h.step_eq_error hlaid hstep
          exact (hunfinished (.inr ⟨p, hstep⟩)).elim
      | ok t₁ =>
          rw [hstep] at hmove
          have hless := hmove.remaining_lt hlaid h.tame.recounted
            (fun hnil => hunfinished (.inl hnil)) hfresh
          obtain ⟨n, t', hafter, hend⟩ := ih _ (hsize ▸ hless) (h.step hlaid hstep) rfl
          refine ⟨n + 1, t', ?_, hend⟩
          rw [Teardown.after, hstep]
          exact hafter

theorem Move.reached (hmove : Move m₀ hs m rest (.ok t')) (hlaid : m₀.Laid ⟨0, 0⟩ hs q)
    (hreached : ∀ v, .release v ∈ rest → m₀.Reached w v) :
    ∀ v, .release v ∈ t'.pending → m₀.Reached w v := by
  intro v hv
  cases hmove with
  | done => exact hreached v hv
  | skip _ => exact hreached v (List.mem_cons_of_mem _ hv)
  | share _ _ => exact hreached v (List.mem_cons_of_mem _ hv)
  | retire _ _ => exact hreached v (List.mem_cons_of_mem _ hv)
  | @enter p rest hp _ =>
      simp only [List.mem_append, List.mem_map, Task.release.injEq, exists_eq_right, List.mem_cons,
        reduceCtorEq, false_or] at hv
      rcases hv with hcaptured | hrest
      · exact .capture (hreached _ List.mem_cons_self)
          (Word.isTagged_ofPlace (hlaid.isAligned hp)) hcaptured
      · exact hreached v (List.mem_cons_of_mem _ hrest)

theorem Orderly.reached_after (hlaid : m₀.Laid ⟨0, 0⟩ hs q) {n : Nat} (h : Orderly m₀ hs t)
    (hafter : Teardown.after n t = .ok t')
    (hreached : ∀ v, .release v ∈ t.pending → m₀.Reached w v) :
    ∀ v, .release v ∈ t'.pending → m₀.Reached w v := by
  induction n generalizing t with
  | zero =>
      cases hafter
      exact hreached
  | succ n ih =>
      rw [Teardown.after, bind_eq_ok_iff] at hafter
      obtain ⟨t₁, hstep, hafter⟩ := hafter
      have hmove := h.move hlaid
      rw [hstep] at hmove
      exact ih (h.step hlaid hstep) hafter (hmove.reached hlaid hreached)

/-- A walk that enters a closure still to be retired has followed captures back to it. -/
theorem Orderly.cycle_of_reenters (h : Orderly m₀ hs t) (hagain : t.Reenters) :
    ∃ x, .release (.ofPlace x) ∈ t.pending ∧ Relation.TransGen (Holds m₀.captures) x x := by
  obtain ⟨m, pending⟩ := t
  obtain ⟨x, rest, rfl, hdrop, hretire⟩ := hagain
  obtain ⟨c, -, hnested⟩ := h.nested
  obtain ⟨x', y, hheader, hpath, hcaptured⟩ := hnested.holds hretire
  obtain rfl := Place.header_inj.1 hheader
  have huntagged : (Word.ofPlace x).isTagged = false := by
    by_contra htagged
    rw [Drop.of_ignored (.inl (by simpa using htagged))] at hdrop
    cases hdrop
  exact ⟨x, List.mem_cons_self, .tail' hpath ⟨hcaptured, huntagged⟩⟩

theorem run_ne_endless {n : Nat} (hafter : Teardown.after n t = .ok t') (hend : t'.Finished) :
    (run (n + 1) t).2 ≠ some .endless := by
  rw [run_of_after hafter]
  obtain ⟨m, pending⟩ := t'
  rcases hend with hnil | ⟨q, hstep⟩
  · simp only at hnil
    rw [hnil, run_nil]
    nofun
  · cases pending with
    | nil => cases hstep
    | cons task rest =>
        rw [run_of_error hstep]
        nofun

end Teardown

namespace Heap

variable {σ : Type} {h : Heap σ} {hs : List Place} {w : Word} {p : Place}

/-- The walk over the closures below one that loses its last reference. -/
def walk (h : Heap σ) (p : Place) : Teardown :=
  ⟨h.memory, Teardown.visit h.memory p⟩

/-- Giving up the word ends. Where there is a walk over closures, it finishes after some number of
tasks, and the answer is a verdict. -/
structure ReleaseEnds (h : Heap σ) (w : Word) : Prop where
  finishes : ∀ p, Drop.of h.memory w = .ok (.last p) →
    ∃ n t, Teardown.after n (h.walk p) = .ok t ∧ t.Finished
  answers : ∃ stopped h', releaseClosure w h = verdict h' stopped

theorem ReleaseEnds.of_finishes (hf : h.Formed hs) (hw : h.memory.Releasable hs w)
    (hfinishes : ∀ p, Drop.of h.memory w = .ok (.last p) →
      ∃ n t, Teardown.after n (h.walk p) = .ok t ∧ t.Finished) : h.ReleaseEnds w := by
  refine ⟨hfinishes, ?_⟩
  have hm : h.memory.Counted hs h.countOf h.memory := .refl h.memory hs
  suffices hrel : ∃ k stopped c', Releases h.memory.captures k h.countOf [w] stopped c' by
    obtain ⟨k, stopped, c', hrel⟩ := hrel
    obtain ⟨m, log, -, hdone⟩ := releaseClosure_of_releases hf hw hrel
    exact ⟨stopped, _, hdone⟩
  rcases hw.referable.cases with hignored | ⟨p, rfl, hmem, -⟩
  · exact ⟨1, none, _, .ignored hignored (.nil _)⟩
  · have haligned := hf.laid.isAligned hmem
    have hp := Word.isTagged_ofPlace haligned
    rcases Nat.lt_trichotomy (h.countOf p) 1 with hdead | hcount | hshared
    · exact ⟨1, some p, _, .dead hp (by omega)⟩
    · have hlast := (hm.refcount_eq_one_iff hmem).2 hcount
      have hdrop : Drop.of h.memory (.ofPlace p) = .ok (.last p) := by
        rw [Drop.of_place haligned, if_neg (hm.refcount_ne_zero hmem hcount.ge), if_pos hlast]
      obtain ⟨n, t, hafter, hend⟩ := hfinishes p hdrop
      have hrun : (Teardown.run (n + 2) ⟨h.memory, [Word.ofPlace p].map .release ++ []⟩).2 ≠
          some .endless :=
        Teardown.run_visit haligned hlast ▸ Teardown.run_ne_endless hafter hend
      obtain ⟨k, stopped, c', -, hrel⟩ :=
        Teardown.releases_of_run hf.laid hm (by simpa using hw) hrun
      exact ⟨k, stopped, c', hrel⟩
    · exact ⟨1, none, _, .shared hp hshared (.nil _)⟩

theorem walk_orderly (hf : h.Formed hs) (hw : h.memory.Releasable hs w)
    (hdrop : Drop.of h.memory w = .ok (.last p)) : Teardown.Orderly h.memory hs (h.walk p) := by
  obtain ⟨rfl, hp, hlast⟩ := drop_eq_last hf hw hdrop
  exact Teardown.visit_orderly hf.laid hw hp hlast

theorem walk_reached (hf : h.Formed hs) (hw : h.memory.Releasable hs w)
    (hdrop : Drop.of h.memory w = .ok (.last p)) :
    ∀ v, .release v ∈ (h.walk p).pending → h.memory.Reached w v := by
  intro v hv
  obtain ⟨rfl, hp, -⟩ := drop_eq_last hf hw hdrop
  simp only [walk, Teardown.visit, List.mem_append, List.mem_map, Task.release.injEq,
    exists_eq_right, List.mem_singleton, reduceCtorEq, or_false] at hv
  exact .capture .self hp hv

theorem ReleaseEnds.of_acyclic (hf : h.Formed hs) (hw : h.memory.Releasable hs w)
    (hacyclic : ∀ x, h.memory.Reached w (.ofPlace x) →
      ¬ Relation.TransGen (Holds h.memory.captures) x x) : h.ReleaseEnds w := by
  refine .of_finishes hf hw ?_
  intro p hdrop
  have horderly := walk_orderly hf hw hdrop
  obtain ⟨n, t, hafter, hfinished | hagain⟩ := horderly.finishes_or_reenters hf.laid
  · exact ⟨n, t, hafter, hfinished⟩
  · obtain ⟨x, hpending, hcycle⟩ := (horderly.after hf.laid hafter).cycle_of_reenters hagain
    have hreached := horderly.reached_after hf.laid hafter (walk_reached hf hw hdrop)
    exact (hacyclic x (hreached _ hpending) hcycle).elim

/-- Giving up a closure ends, unless the walk comes to give up a closure with one reference that it
has begun to tear down and not yet retired. So it ends if no closure that is reached leads back to
itself, whatever the counts are and however deep and shared the captures. -/
theorem release_ends_or_reenters (hf : h.Formed hs) (hw : h.memory.Releasable hs w) :
    (h.ReleaseEnds w ∨ ∃ p n t, Drop.of h.memory w = .ok (.last p) ∧
        Teardown.after n (h.walk p) = .ok t ∧ t.Reenters) ∧
      ((∀ x, h.memory.Reached w (.ofPlace x) → ¬ Relation.TransGen (Holds h.memory.captures) x x) →
        h.ReleaseEnds w) := by
  refine ⟨?_, ReleaseEnds.of_acyclic hf hw⟩
  by_cases hagain : ∃ p n t, Drop.of h.memory w = .ok (.last p) ∧
      Teardown.after n (h.walk p) = .ok t ∧ t.Reenters
  · exact .inr hagain
  · refine .inl (.of_finishes hf hw ?_)
    intro p hdrop
    obtain ⟨n, t, hafter, hfinished | hreenters⟩ :=
      (walk_orderly hf hw hdrop).finishes_or_reenters hf.laid
    · exact ⟨n, t, hafter, hfinished⟩
    · exact (hagain ⟨p, n, t, hdrop, hafter, hreenters⟩).elim

section Looped

/-- The eighth call takes the second reference to the closure that is captured twice. -/
theorem sharingHeap_closed : ∀ n ∈ [7, 8], ∀ p ∈ sharingClosures,
    p.header ∈ sharingBlocks ∧ (sharingHeap n).memory.ClosureAt p ∧
      (∀ v ∈ (sharingHeap n).memory.captures p, v.Refers sharingClosures) ∧
      ∀ q ∈ sharingClosures, .ofPlace q ∈ (sharingHeap n).memory.captures p →
        p.offset < q.offset := by
  decide +kernel

theorem sharingHeap_releasable :
    (sharingHeap 8).memory.Releasable sharingBlocks (.ofPlace ⟨0, 24⟩) := by
  apply Memory.Releasable.of_places (S := sharingClosures) (by decide)
  intro p hp
  obtain ⟨hmem, hclosure, hcaptures, -⟩ := sharingHeap_closed 8 (by decide) p hp
  exact ⟨hmem, hclosure, hcaptures⟩

theorem sharingHeap_never_back {n : Nat} (hn : n ∈ [7, 8]) {x : Place} (hx : x ∈ sharingClosures) :
    ¬ Relation.TransGen (Holds (sharingHeap n).memory.captures) x x :=
  Memory.acyclic_of_behind (fun p hp => (sharingHeap_closed n hn p hp).2.2.1)
    (fun p hp => (sharingHeap_closed n hn p hp).2.2.2) hx

/-- The closure that captures itself is entered again. Where captures are shared but do not lead
back, the walk ends. -/
theorem loopedHeap_reenters :
    (∃ t, Teardown.after 2 (loopedHeap.walk ⟨0, 24⟩) = .ok t ∧ t.Reenters) ∧
      (loopedHeap.ReleaseEnds (.ofPlace ⟨0, 24⟩) ∨
        ∃ p n t, Drop.of loopedHeap.memory (.ofPlace ⟨0, 24⟩) = .ok (.last p) ∧
          Teardown.after n (loopedHeap.walk p) = .ok t ∧ t.Reenters) ∧
      (sharingHeap 8).ReleaseEnds (.ofPlace ⟨0, 24⟩) := by
  refine ⟨?_, (release_ends_or_reenters loopedHeap_formed loopedHeap_releasable).1,
    (release_ends_or_reenters sharingHeap_formed.1 sharingHeap_releasable).2 ?_⟩
  swap
  · intro x hx hcycle
    have hclosed := sharingHeap_closed 8 (by decide)
    have hmem := hx.mem_of_cycle (by decide) (fun p hp => (hclosed p hp).2.2.1) hcycle
    exact sharingHeap_never_back (by decide) hmem hcycle
  obtain ⟨t, hafter, hpending⟩ : ∃ t, Teardown.after 2 (loopedHeap.walk ⟨0, 24⟩) = .ok t ∧
      t.pending = [.release (.ofPlace ⟨0, 24⟩), .retire ⟨0, 0⟩] :=
    exists_after_of_pending (by decide +kernel)
  have hdrop : ((Teardown.after 2 (loopedHeap.walk ⟨0, 24⟩)).map fun t =>
      Drop.of t.memory (.ofPlace ⟨0, 24⟩)) = .ok (.ok (.last ⟨0, 24⟩)) := by decide +kernel
  rw [hafter] at hdrop
  exact ⟨t, hafter, ⟨0, 24⟩, _, hpending, Except.ok.inj hdrop, List.mem_singleton_self _⟩

end Looped

end Heap

end CountedHeap
