import CountedHeap.Memory.Word
import Mathlib

/-!
The protocol for giving up references to closures, as a recursion over counts. A closure that loses
its last reference gives up what it captured, in the order of its slots, and only then its own count
drops. Captures may be shared and may lead back, so the recursion need not end, and it stops where a
closure has no reference left to give up. Main statements: the outcome is unique, no closure is torn
down inside its own teardown, and the number of steps is bounded by the counts.
-/

namespace CountedHeap.Protocol

def lower (c : Place → Nat) (p : Place) : Place → Nat :=
  Function.update c p (c p - 1)

/-- Giving up these words one after the other takes the counts `c` to `c'` in `k` steps. It either
goes through, or is stopped at a closure without references. -/
inductive Releases (captures : Place → List Word) :
    Nat → (Place → Nat) → List Word → Option Place → (Place → Nat) → Prop
  | nil (c : Place → Nat) : Releases captures 0 c [] none c
  | ignored {k : Nat} {c c' : Place → Nat} {w : Word} {ws : List Word} {stopped : Option Place}
      (hw : w.isTagged = true ∨ w = .null) (hrest : Releases captures k c ws stopped c') :
      Releases captures (k + 1) c (w :: ws) stopped c'
  | dead {c : Place → Nat} {p : Place} {ws : List Word} (hp : (Word.ofPlace p).isTagged = false)
      (hcount : c p = 0) : Releases captures 1 c (.ofPlace p :: ws) (some p) c
  | shared {k : Nat} {c c' : Place → Nat} {p : Place} {ws : List Word} {stopped : Option Place}
      (hp : (Word.ofPlace p).isTagged = false) (hcount : 1 < c p)
      (hrest : Releases captures k (lower c p) ws stopped c') :
      Releases captures (k + 1) c (.ofPlace p :: ws) stopped c'
  | last {k l : Nat} {c mid c' : Place → Nat} {p : Place} {ws : List Word} {stopped : Option Place}
      (hp : (Word.ofPlace p).isTagged = false) (hcount : c p = 1)
      (hcaptures : Releases captures k c (captures p) none mid)
      (hrest : Releases captures l (lower mid p) ws stopped c') :
      Releases captures (k + l + 2) c (.ofPlace p :: ws) stopped c'
  | lastStopped {k : Nat} {c c' : Place → Nat} {p q : Place} {ws : List Word}
      (hp : (Word.ofPlace p).isTagged = false) (hcount : c p = 1)
      (hcaptures : Releases captures k c (captures p) (some q) c') :
      Releases captures (k + 1) c (.ofPlace p :: ws) (some q) c'

/-- Giving up one word ends, with this verdict and these counts. -/
def Ends (captures : Place → List Word) (c : Place → Nat) (w : Word) (stopped : Option Place)
    (c' : Place → Nat) : Prop :=
  ∃ k, Releases captures k c [w] stopped c'

variable {captures : Place → List Word} {k : Nat} {c c' : Place → Nat} {ws : List Word}
  {stopped : Option Place} {p x y : Place}

theorem lower_self (c : Place → Nat) (p : Place) : lower c p p = c p - 1 :=
  Function.update_self p _ c

theorem lower_of_ne (c : Place → Nat) (h : x ≠ p) : lower c p x = c x :=
  Function.update_of_ne h _ c

theorem lower_le (c : Place → Nat) (p : Place) : lower c p ≤ c := by
  intro x
  by_cases h : x = p
  · rw [h, lower_self]
    exact Nat.sub_le _ _
  · rw [lower_of_ne c h]

theorem not_ignored (hp : (Word.ofPlace p).isTagged = false) :
    ¬ ((Word.ofPlace p).isTagged = true ∨ Word.ofPlace p = .null) := by
  rintro (htagged | hnull)
  · rw [hp] at htagged
    cases htagged
  · cases hnull

namespace Releases

theorem counts_le (h : Releases captures k c ws stopped c') : c' ≤ c := by
  induction h with
  | nil c => exact le_refl c
  | ignored _ _ ih => exact ih
  | dead _ _ => exact le_refl _
  | shared _ _ _ ih => exact ih.trans (lower_le _ _)
  | last _ _ _ _ ihcaptures ihrest => exact ihrest.trans ((lower_le _ _).trans ihcaptures)
  | lastStopped _ _ _ ih => exact ih

theorem unique {k₁ k₂ : Nat} {stopped₁ stopped₂ : Option Place} {c₁ c₂ : Place → Nat}
    (h₁ : Releases captures k₁ c ws stopped₁ c₁) (h₂ : Releases captures k₂ c ws stopped₂ c₂) :
    k₁ = k₂ ∧ stopped₁ = stopped₂ ∧ c₁ = c₂ := by
  induction h₁ generalizing k₂ stopped₂ c₂ with
  | nil c =>
      cases h₂
      exact ⟨rfl, rfl, rfl⟩
  | ignored hw _ ih =>
      cases h₂ with
      | ignored _ hrest =>
          obtain ⟨rfl, rfl, rfl⟩ := ih hrest
          exact ⟨rfl, rfl, rfl⟩
      | dead hp _ | shared hp _ _ | last hp _ _ _ | lastStopped hp _ _ =>
          exact (not_ignored hp hw).elim
  | dead hp hcount =>
      cases h₂ with
      | ignored hw _ => exact (not_ignored hp hw).elim
      | dead _ _ => exact ⟨rfl, rfl, rfl⟩
      | shared _ hcount' _ | last _ hcount' _ _ | lastStopped _ hcount' _ => omega
  | shared hp hcount _ ih =>
      cases h₂ with
      | ignored hw _ => exact (not_ignored hp hw).elim
      | shared _ _ hrest =>
          obtain ⟨rfl, rfl, rfl⟩ := ih hrest
          exact ⟨rfl, rfl, rfl⟩
      | dead _ hcount' | last _ hcount' _ _ | lastStopped _ hcount' _ => omega
  | last hp hcount _ _ ihcaptures ihrest =>
      cases h₂ with
      | ignored hw _ => exact (not_ignored hp hw).elim
      | last _ _ hcaptures hrest =>
          obtain ⟨rfl, -, rfl⟩ := ihcaptures hcaptures
          obtain ⟨rfl, rfl, rfl⟩ := ihrest hrest
          exact ⟨rfl, rfl, rfl⟩
      | lastStopped _ _ hcaptures =>
          obtain ⟨-, hstopped, -⟩ := ihcaptures hcaptures
          cases hstopped
      | dead _ hcount' | shared _ hcount' _ => omega
  | lastStopped hp hcount _ ih =>
      cases h₂ with
      | ignored hw _ => exact (not_ignored hp hw).elim
      | lastStopped _ _ hcaptures =>
          obtain ⟨rfl, hstopped, rfl⟩ := ih hcaptures
          exact ⟨rfl, hstopped, rfl⟩
      | last _ _ hcaptures _ =>
          obtain ⟨-, hstopped, -⟩ := ih hcaptures
          cases hstopped
      | dead _ hcount' | shared _ hcount' _ => omega

theorem append {l : Nat} {mid : Place → Nat} {vs : List Word}
    (h : Releases captures k c ws none mid)
    (hrest : Releases captures l mid vs stopped c') :
    Releases captures (k + l) c (ws ++ vs) stopped c' := by
  generalize hstopped : (none : Option Place) = front at h
  induction h with
  | nil c =>
      rw [Nat.zero_add]
      exact hrest
  | dead _ _ => cases hstopped
  | lastStopped _ _ _ _ => cases hstopped
  | ignored hw _ ih =>
      rw [Nat.add_right_comm]
      exact .ignored hw (ih hrest hstopped)
  | shared hp hcount _ ih =>
      rw [Nat.add_right_comm]
      exact .shared hp hcount (ih hrest hstopped)
  | @last k j c mid c' p ws front hp hcount hcaptures _ _ ih =>
      have hsteps : k + j + 2 + l = k + (j + l) + 2 := by omega
      rw [hsteps]
      exact .last hp hcount hcaptures (ih hrest hstopped)

end Releases

/-- While the counts are `c`, a teardown of `x` leads on to one of `y`. -/
def Below (captures : Place → List Word) (c : Place → Nat) (x y : Place) : Prop :=
  .ofPlace y ∈ captures x ∧ (Word.ofPlace y).isTagged = false ∧ c y ≤ 1

theorem Below.mono (hle : c' ≤ c) : Below captures c ≤ Below captures c' :=
  fun _ y h => ⟨h.1, h.2.1, (hle y).trans h.2.2⟩

namespace Releases

theorem visits (h : Releases captures k c ws none c') (hmem : .ofPlace y ∈ ws)
    (huntagged : (Word.ofPlace y).isTagged = false) (hcount : c y ≤ 1) :
    ∃ l mid mid', l < k ∧ mid ≤ c ∧ Releases captures l mid (captures y) none mid' := by
  generalize hstopped : (none : Option Place) = stopped at h
  induction h with
  | nil c => cases hmem
  | dead _ _ => cases hstopped
  | lastStopped _ _ _ _ => cases hstopped
  | ignored hw _ ih =>
      rcases List.mem_cons.1 hmem with rfl | hmem
      · exact (not_ignored huntagged hw).elim
      · obtain ⟨l, mid, mid', hlt, hle, hmid⟩ := ih hmem hcount hstopped
        exact ⟨l, mid, mid', by omega, hle, hmid⟩
  | @shared k c c' p ws stopped hp hshared _ ih =>
      rcases List.mem_cons.1 hmem with heq | hmem
      · cases heq
        omega
      · obtain ⟨l, mid, mid', hlt, hle, hmid⟩ := ih hmem ((lower_le c p y).trans hcount) hstopped
        exact ⟨l, mid, mid', by omega, hle.trans (lower_le c p), hmid⟩
  | @last k l c mid c' p ws stopped hp hlast hcaptures _ _ ih =>
      cases hstopped
      have hle : lower mid p ≤ c := (lower_le mid p).trans hcaptures.counts_le
      rcases List.mem_cons.1 hmem with heq | hmem
      · cases heq
        exact ⟨k, c, mid, by omega, le_refl c, hcaptures⟩
      · obtain ⟨j, from', to', hlt, hle', hmid⟩ := ih hmem ((hle y).trans hcount) rfl
        exact ⟨j, from', to', by omega, hle'.trans hle, hmid⟩

/-- A teardown that goes through does not lead back to where it started. -/
theorem no_cycle (h : Releases captures k c (captures p) none c') :
    ¬ Relation.TransGen (Below captures c) p p := by
  -- a teardown of the next closure on the cycle lies inside this one, and is shorter
  induction k using Nat.strong_induction_on generalizing c c' p with
  | _ k ih =>
    intro hcycle
    obtain ⟨y, hpy, hyp⟩ := Relation.TransGen.head'_iff.1 hcycle
    obtain ⟨l, mid, mid', hlt, hle, hmid⟩ := h.visits hpy.1 hpy.2.1 hpy.2.2
    have hback : Relation.TransGen (Below captures c) y y := Relation.TransGen.tail' hyp hpy
    exact ih l hlt hmid (Relation.TransGen.mono (Below.mono hle) _ _ hback)

theorem ancestor_kept (h : Releases captures k c ws none c') (hx : c x ≤ 1)
    (hreached : ∀ y, .ofPlace y ∈ ws → (Word.ofPlace y).isTagged = false →
      ∃ z, Relation.ReflTransGen (Below captures c) x z ∧ .ofPlace y ∈ captures z) :
    c' x = c x := by
  generalize hstopped : (none : Option Place) = stopped at h
  induction h with
  | nil c => rfl
  | dead _ _ => cases hstopped
  | lastStopped _ _ _ _ => cases hstopped
  | ignored _ _ ih =>
      exact ih hx (fun y hy => hreached y (List.mem_cons_of_mem _ hy)) hstopped
  | @shared k c c' p ws stopped hp hshared _ ih =>
      have hne : x ≠ p := by
        rintro rfl
        omega
      rw [← lower_of_ne c hne]
      refine ih ((lower_le c p x).trans hx) ?_ hstopped
      intro y hy huntagged
      obtain ⟨z, hz, hcaptured⟩ := hreached y (List.mem_cons_of_mem _ hy) huntagged
      exact ⟨z, Relation.ReflTransGen.mono (Below.mono (lower_le c p)) _ _ hz, hcaptured⟩
  | @last k l c mid c' p ws stopped hp hlast hcaptures _ ihcaptures ihrest =>
      have hle : lower mid p ≤ c := (lower_le mid p).trans hcaptures.counts_le
      obtain ⟨z, hz, hcaptured⟩ := hreached p List.mem_cons_self hp
      have hpath : Relation.TransGen (Below captures c) x p :=
        Relation.TransGen.tail' hz ⟨hcaptured, hp, hlast.le⟩
      -- `p` is torn down below `x`, so it is not `x` itself
      have hne : x ≠ p := by
        rintro rfl
        exact hcaptures.no_cycle hpath
      have hmid : mid x = c x :=
        ihcaptures hx (fun y hy _ => ⟨p, hpath.to_reflTransGen, hy⟩) rfl
      have hlowered : lower mid p x = c x := (lower_of_ne mid hne).trans hmid
      rw [← hlowered]
      refine ihrest ((hle x).trans hx) ?_ hstopped
      intro y hy huntagged
      obtain ⟨z, hz, hcaptured⟩ := hreached y (List.mem_cons_of_mem _ hy) huntagged
      exact ⟨z, Relation.ReflTransGen.mono (Below.mono hle) _ _ hz, hcaptured⟩

/-- The last reference to a closure is still there when its captures have been given up. -/
theorem kept_last (h : Releases captures k c (captures p) none c') (hlast : c p = 1) :
    c' p = 1 := by
  rw [← hlast]
  exact h.ancestor_kept hlast.le fun y hy _ => ⟨p, .refl, hy⟩

end Releases

section Steps

variable {S : Finset Place} {L : Nat}

def Within (S : Finset Place) (ws : List Word) : Prop :=
  ∀ p, .ofPlace p ∈ ws → (Word.ofPlace p).isTagged = false → p ∈ S

/-- The closures in `S` capture only closures in `S`, and have fewer than `L` slots. -/
structure Closed (captures : Place → List Word) (S : Finset Place) (L : Nat) : Prop where
  within : ∀ p ∈ S, Within S (captures p)
  short : ∀ p ∈ S, (captures p).length < L

theorem Within.tail {w : Word} (h : Within S (w :: ws)) : Within S ws :=
  fun p hp => h p (List.mem_cons_of_mem _ hp)

def weight (S : Finset Place) (c : Place → Nat) : Nat :=
  ∑ p ∈ S, c p

theorem weight_mono (hle : c' ≤ c) : weight S c' ≤ weight S c :=
  Finset.sum_le_sum fun p _ => hle p

theorem weight_lower (hp : p ∈ S) (hcount : 1 ≤ c p) : weight S (lower c p) + 1 = weight S c := by
  have hsplit : c p + ∑ x ∈ S.erase p, c x = weight S c := Finset.add_sum_erase S c hp
  have hrest : ∑ x ∈ S.erase p, lower c p x = ∑ x ∈ S.erase p, c x :=
    Finset.sum_congr rfl fun x hx => lower_of_ne c (Finset.ne_of_mem_erase hx)
  rw [weight, ← Finset.add_sum_erase S _ hp, hrest, lower_self]
  omega

theorem Releases.steps_le (h : Releases captures k c ws none c') (hclosed : Closed captures S L)
    (hws : Within S ws) : k + L * weight S c' ≤ ws.length + L * weight S c := by
  generalize hstopped : (none : Option Place) = stopped at h
  induction h with
  | nil c => exact le_refl _
  | dead _ _ => cases hstopped
  | lastStopped _ _ _ _ => cases hstopped
  | ignored _ _ ih =>
      have hrest := ih hws.tail hstopped
      rw [List.length_cons]
      omega
  | @shared k c c' p ws stopped hp hshared _ ih =>
      have hrest := ih hws.tail hstopped
      have hweight := weight_lower (c := c) (hws p List.mem_cons_self hp) hshared.le
      rw [← hweight, Nat.mul_succ, List.length_cons]
      omega
  | @last k l c mid c' p ws stopped hp hlast hcaptures _ ihcaptures ihrest =>
      have hmem := hws p List.mem_cons_self hp
      have hshort := hclosed.short p hmem
      -- the reference that goes at the end pays for the slots
      have hinner := ihcaptures (hclosed.within p hmem) rfl
      have hrest := ihrest hws.tail hstopped
      have hweight := weight_lower hmem (hcaptures.kept_last hlast).ge
      rw [← hweight, Nat.mul_succ] at hinner
      rw [List.length_cons]
      omega

/-- Steps that are left while the references weigh `w` and `t` closures have been entered since the
last change of a count. -/
def budget (L n w t : Nat) : Nat :=
  L * ((n + 1) * w + (n - t))

theorem budget_enter {n w t : Nat} (ht : t < n) : budget L n w (t + 1) + L = budget L n w t := by
  have hrest : (n + 1) * w + (n - t) = (n + 1) * w + (n - (t + 1)) + 1 := by omega
  rw [budget, budget, hrest, Nat.mul_succ]

theorem budget_lower {n w w' : Nat} (t : Nat) (hw : w' < w) :
    L * w + budget L n w' 0 + L ≤ budget L n w t + L * (w' + 1) := by
  have hmul : n * (w' + 1) ≤ n * w := Nat.mul_le_mul_left n hw
  have hinner : w + ((n + 1) * w' + (n - 0)) + 1 ≤ (n + 1) * w + (n - t) + (w' + 1) := by
    rw [Nat.succ_mul, Nat.succ_mul]
    rw [Nat.mul_succ] at hmul
    omega
  have hall := Nat.mul_le_mul_left L hinner
  rw [Nat.mul_succ, Nat.mul_add L w, Nat.mul_add L _ (w' + 1)] at hall
  exact hall

theorem Releases.steps_le_of_stopped {q : Place} (h : Releases captures k c ws (some q) c')
    (hclosed : Closed captures S L) (hws : Within S ws) {T : Finset Place} (hT : T ⊆ S)
    (hentered : ∀ x ∈ T, ∃ l q' d, k ≤ l ∧ Releases captures l c (captures x) (some q') d) :
    k ≤ ws.length + budget L S.card (weight S c) T.card := by
  generalize hstopped : some q = stopped at h
  induction h generalizing T q with
  | nil c => cases hstopped
  | ignored _ _ ih =>
      have hrest := ih hws.tail hT
        (fun x hx => by
          obtain ⟨l, q', d, hl, hx⟩ := hentered x hx
          exact ⟨l, q', d, by omega, hx⟩)
        hstopped
      rw [List.length_cons]
      omega
  | dead _ _ =>
      rw [List.length_cons]
      omega
  | @shared k c c' p ws stopped hp hshared _ ih =>
      have hrest :=
        ih hws.tail (Finset.empty_subset S) (fun x hx => nomatch Finset.notMem_empty x hx)
        hstopped
      have hweight := weight_lower (c := c) (hws p List.mem_cons_self hp) hshared.le
      have hbudget := budget_lower (L := L) (n := S.card) T.card (Nat.lt_of_succ_le hweight.le)
      rw [Finset.card_empty] at hrest
      rw [hweight] at hbudget
      rw [List.length_cons]
      have hpos := hclosed.short p (hws p List.mem_cons_self hp)
      omega
  | @last k l c mid c' p ws stopped hp hlast hcaptures _ _ ih =>
      have hmem := hws p List.mem_cons_self hp
      have hshort := hclosed.short p hmem
      have hinner := hcaptures.steps_le hclosed (hclosed.within p hmem)
      have hrest :=
        ih hws.tail (Finset.empty_subset S) (fun x hx => nomatch Finset.notMem_empty x hx)
        hstopped
      have hweight := weight_lower hmem (hcaptures.kept_last hlast).ge
      have hlt : weight S (lower mid p) < weight S c := by
        have hle := weight_mono (S := S) hcaptures.counts_le
        omega
      have hbudget := budget_lower (L := L) (n := S.card) T.card hlt
      rw [Finset.card_empty] at hrest
      rw [hweight] at hbudget
      rw [List.length_cons]
      omega
  | @lastStopped k c c' p q ws hp hlast hcaptures ih =>
      cases hstopped
      have hmem := hws p List.mem_cons_self hp
      have hshort := hclosed.short p hmem
      -- no count has changed since the closures in `T` were entered, so entering one of them again
      -- would leave as far to go as the first time
      have hnew : p ∉ T := by
        intro hpT
        obtain ⟨l, q', d, hl, hagain⟩ := hentered p hpT
        obtain ⟨rfl, -, -⟩ := hagain.unique hcaptures
        omega
      have hsubset : insert p T ⊆ S := Finset.insert_subset hmem hT
      have hcard : T.card < S.card := by
        have hle := Finset.card_le_card hsubset
        rw [Finset.card_insert_of_notMem hnew] at hle
        omega
      have hinner := ih (hclosed.within p hmem) hsubset
        (fun x hx => by
          rcases Finset.mem_insert.1 hx with rfl | hx
          · exact ⟨k, q, c', le_refl k, hcaptures⟩
          · obtain ⟨l, q', d, hl, hx⟩ := hentered x hx
            exact ⟨l, q', d, by omega, hx⟩)
        rfl
      have hbudget := budget_enter (L := L) (w := weight S c) hcard
      rw [Finset.card_insert_of_notMem hnew] at hinner
      rw [List.length_cons]
      omega

theorem Releases.steps_le_budget (h : Releases captures k c ws stopped c')
    (hclosed : Closed captures S L) (hws : Within S ws) :
    k ≤ ws.length + budget L S.card (weight S c) 0 := by
  cases stopped with
  | none =>
      have hsteps := h.steps_le hclosed hws
      have hle : weight S c ≤ (S.card + 1) * weight S c + (S.card - 0) :=
        (Nat.le_mul_of_pos_left _ (Nat.succ_pos _)).trans (Nat.le_add_right _ _)
      have hbudget : L * weight S c ≤ budget L S.card (weight S c) 0 := Nat.mul_le_mul_left L hle
      omega
  | some q =>
      have hsteps := h.steps_le_of_stopped hclosed hws (Finset.empty_subset S)
        fun x hx => nomatch Finset.notMem_empty x hx
      rwa [Finset.card_empty] at hsteps

end Steps

end CountedHeap.Protocol
