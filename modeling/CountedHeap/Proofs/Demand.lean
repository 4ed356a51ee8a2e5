import CountedHeap.Proofs.Reaching

/-!
What giving up a closure asks for, said without an order of the walk. One reference to a closure is
given up for each slot that holds it in a closure that loses all its references. This is a system of
equations over the whole graph of closures, with arbitrary counts, and it has one solution if
captures do not lead back. Main statement: giving up a closure goes through if and only if no
closure is asked for more references than it has, and then the solution says what is left. So the
order of the slots does not matter.
-/

namespace CountedHeap

namespace Protocol

variable {captures : Place → List Word} {U : Finset Place} {ws vs : List Word} {w : Word}
  {c c' d mid : Place → Nat} {p q x : Place} {k : Nat} {stopped : Option Place}

/-- The closures that lose all their references when `d x` references to each `x` are given up. -/
def spent (U : Finset Place) (c d : Place → Nat) : Finset Place :=
  U.filter fun x => 1 ≤ c x ∧ c x ≤ d x

/-- The references that are given up with the words `ws`, if those in slots of spent
closures are, too. -/
def asked (captures : Place → List Word) (U : Finset Place) (c : Place → Nat) (ws : List Word)
    (d : Place → Nat) (q : Place) : Nat :=
  ws.count (.ofPlace q) + held captures (spent U c d) q

/-- With the words `ws`, exactly `d x` references to each closure are given up. -/
def Demand (captures : Place → List Word) (U : Finset Place) (c : Place → Nat) (ws : List Word)
    (d : Place → Nat) : Prop :=
  ∀ q ∈ U, d q = asked captures U c ws d q

/-- The closures that had references and have none any more. -/
def gone (U : Finset Place) (c c' : Place → Nat) : Finset Place :=
  U.filter fun x => 1 ≤ c x ∧ c' x = 0

/-- These places are closures that capture only each other. -/
structure SelfContained (captures : Place → List Word) (U : Finset Place) : Prop where
  untagged : ∀ q ∈ U, (Word.ofPlace q).isTagged = false
  within : ∀ x ∈ U, Within U (captures x)

theorem spent_sub (hle : c' ≤ c) : spent U c (fun x => c x - c' x) = gone U c c' := by
  apply Finset.filter_congr
  intro x _
  have hx : c' x ≤ c x := hle x
  show 1 ≤ c x ∧ c x ≤ c x - c' x ↔ _
  omega

section Gone

theorem gone_self (U : Finset Place) (c : Place → Nat) : gone U c c = ∅ := by
  apply Finset.filter_eq_empty_iff.2
  intro x _
  omega

theorem gone_lower (hp : 1 < c p) : gone U (lower c p) c' = gone U c c' := by
  apply Finset.filter_congr
  intro x _
  rcases eq_or_ne x p with rfl | hne
  · rw [lower_self]
    omega
  · rw [lower_of_ne c hne]

/-- A closure that is torn down goes, besides those that go with its captures and
those that go later. -/
theorem held_gone_last (hmem : p ∈ U) (hcount : c p = 1) (hmid : mid p = 1) (hbelow : mid ≤ c)
    (hrest : c' ≤ lower mid p) :
    held captures (gone U c c') q =
      held captures (gone U c mid) q + (captures p).count (.ofPlace q) +
        held captures (gone U (lower mid p) c') q := by
  have hself : (captures p).count (.ofPlace q) =
      ∑ x ∈ U, if x = p then (captures x).count (.ofPlace q) else 0 := by
    rw [Finset.sum_ite_eq' U p, if_pos hmem]
  simp only [held, gone, Finset.sum_filter]
  rw [hself, ← Finset.sum_add_distrib, ← Finset.sum_add_distrib]
  apply Finset.sum_congr rfl
  intro x _
  have hle : mid x ≤ c x := hbelow x
  have hle' : c' x ≤ lower mid p x := hrest x
  rcases eq_or_ne x p with rfl | hne
  · rw [lower_self] at hle' ⊢
    rw [if_pos (by omega), if_neg (by omega), if_pos rfl, if_neg (by omega)]
    omega
  · rw [lower_of_ne mid hne] at hle' ⊢
    rw [if_neg hne]
    split_ifs <;> omega

end Gone

namespace SelfContained

variable (hU : SelfContained captures U)

include hU

theorem count_cons_ignored (hw : w.isTagged = true ∨ w = .null) (hq : q ∈ U) :
    (w :: ws).count (.ofPlace q) = ws.count (.ofPlace q) := by
  apply List.count_cons_of_ne
  rintro rfl
  exact not_ignored (hU.untagged q hq) hw

/-- A teardown that goes through has given up what is demanded. -/
theorem demand_of_releases (h : Releases captures k c ws none c') (hws : Within U ws) :
    ∀ q ∈ U, c q = c' q + (ws.count (.ofPlace q) + held captures (gone U c c') q) := by
  generalize hstopped : (none : Option Place) = stopped at h
  induction h with
  | nil c =>
      intro q _
      rw [gone_self]
      rfl
  | dead _ _ => cases hstopped
  | lastStopped _ _ _ _ => cases hstopped
  | ignored hw _ ih =>
      intro q hq
      rw [hU.count_cons_ignored hw hq]
      exact ih hws.tail hstopped q hq
  | @shared k c c' p ws stopped hp hcount hrest ih =>
      intro q hq
      have hcounts := ih hws.tail hstopped q hq
      rw [gone_lower hcount] at hcounts
      rcases eq_or_ne q p with rfl | hne
      · rw [lower_self] at hcounts
        rw [List.count_cons_self]
        omega
      · rw [lower_of_ne c hne] at hcounts
        rw [List.count_cons_of_ne (Word.ofPlace_ne hne.symm)]
        exact hcounts
  | @last k l c mid c' p ws stopped hp hcount hcaptures hrest ihcaptures ihrest =>
      intro q hq
      have hmem := hws p List.mem_cons_self hp
      have hmid := hcaptures.kept_last hcount
      have hbelow := ihcaptures (hU.within p hmem) rfl q hq
      have hcounts := ihrest hws.tail hstopped q hq
      -- the count of `p` stays one while its captures are given up, so no closure goes twice
      rw [held_gone_last hmem hcount hmid hcaptures.counts_le hrest.counts_le]
      rcases eq_or_ne q p with rfl | hne
      · rw [lower_self] at hcounts
        rw [List.count_cons_self]
        omega
      · rw [lower_of_ne mid hne] at hcounts
        rw [List.count_cons_of_ne (Word.ofPlace_ne hne.symm)]
        omega

end SelfContained

/-- The references `d` cover all that is asked for, and they are there. -/
structure Covers (captures : Place → List Word) (U : Finset Place) (c : Place → Nat)
    (ws : List Word) (d : Place → Nat) : Prop where
  enough : ∀ q ∈ U, asked captures U c ws d q ≤ d q
  there : ∀ q ∈ U, d q ≤ c q

namespace Covers

theorem of_spent {e : Place → Nat} (h : Covers captures U c ws d)
    (hspent : spent U c' e ⊆ spent U c d)
    (hasked : ∀ q ∈ U, vs.count (.ofPlace q) + d q ≤ ws.count (.ofPlace q) + e q)
    (hthere : ∀ q ∈ U, e q ≤ c' q) : Covers captures U c' vs e where
  enough := by
    intro q hq
    have henough := h.enough q hq
    have hheld : held captures (spent U c' e) q ≤ held captures (spent U c d) q :=
      Finset.sum_le_sum_of_subset hspent
    have hmore := hasked q hq
    rw [asked] at henough ⊢
    omega
  there := hthere

theorem positive (h : Covers captures U c (.ofPlace p :: ws) d) (hp : p ∈ U) : 1 ≤ d p := by
  have henough := h.enough p hp
  rw [asked, List.count_cons_self] at henough
  omega

theorem shared (h : Covers captures U c (.ofPlace p :: ws) d) (hp : p ∈ U) (hcount : 1 < c p) :
    Covers captures U (lower c p) ws (lower d p) := by
  have hpos := h.positive hp
  refine h.of_spent ?_ ?_ ?_
  · intro x hx
    obtain ⟨hxU, hlive, hle⟩ := Finset.mem_filter.1 hx
    refine Finset.mem_filter.2 ⟨hxU, ?_⟩
    rcases eq_or_ne x p with rfl | hne
    · rw [lower_self, lower_self] at hle
      omega
    · rw [lower_of_ne c hne] at hlive hle
      rw [lower_of_ne d hne] at hle
      exact ⟨hlive, hle⟩
  · intro q _
    rcases eq_or_ne q p with rfl | hne
    · rw [lower_self, List.count_cons_self]
      omega
    · rw [lower_of_ne d hne, List.count_cons_of_ne (Word.ofPlace_ne hne.symm)]
  · intro q hq
    have hthere := h.there q hq
    rcases eq_or_ne q p with rfl | hne
    · rw [lower_self, lower_self]
      omega
    · rw [lower_of_ne c hne, lower_of_ne d hne]
      exact hthere

/-- A closure with one reference that is given up is spent, so its captures are asked for. -/
theorem enter (h : Covers captures U c (.ofPlace p :: ws) d) (hp : p ∈ U) (hcount : c p = 1) :
    Covers captures U c (captures p ++ ws) (lower d p) := by
  have hpos := h.positive hp
  have hone : d p = 1 := by
    have hthere := h.there p hp
    omega
  have hself : p ∈ spent U c d := Finset.mem_filter.2 ⟨hp, by omega, by omega⟩
  have hspent : spent U c (lower d p) = (spent U c d).erase p := by
    ext x
    rw [spent, spent, Finset.mem_erase, Finset.mem_filter, Finset.mem_filter]
    rcases eq_or_ne x p with rfl | hne
    · rw [lower_self, hone, hcount]
      simp
    · rw [lower_of_ne d hne]
      simp [hne]
  constructor
  · intro q hq
    have henough := h.enough q hq
    rw [asked, ← held_erase hself] at henough
    rw [asked, hspent, List.count_append]
    rcases eq_or_ne q p with rfl | hne
    · rw [List.count_cons_self] at henough
      rw [lower_self]
      omega
    · rw [List.count_cons_of_ne (Word.ofPlace_ne hne.symm)] at henough
      rw [lower_of_ne d hne]
      omega
  · intro q hq
    exact (lower_le d p q).trans (h.there q hq)

/-- When the captures are given up, nothing more is asked of the closure itself. -/
theorem retire (h : Covers captures U c ws d) (hcount : c p = 1) (hzero : d p = 0) :
    Covers captures U (lower c p) ws d := by
  refine h.of_spent ?_ (fun q _ => le_rfl) ?_
  · intro x hx
    obtain ⟨hxU, hlive, hle⟩ := Finset.mem_filter.1 hx
    have hne : x ≠ p := by
      rintro rfl
      rw [lower_self] at hlive
      omega
    rw [lower_of_ne c hne] at hlive hle
    exact Finset.mem_filter.2 ⟨hxU, hlive, hle⟩
  · intro q hq
    rcases eq_or_ne q p with rfl | hne
    · omega
    · rw [lower_of_ne c hne]
      exact h.there q hq

end Covers

/-- A teardown for which enough references are there is not stopped. What it does not give up of
them is still enough for the words behind. -/
theorem SelfContained.covered (hU : SelfContained captures U)
    (h : Releases captures k c ws stopped c')
    (hws : Within U ws) (hcovers : Covers captures U c (ws ++ vs) d) :
    stopped = none ∧ ∃ d', Covers captures U c' vs d' ∧ ∀ q ∈ U, d' q + c q = d q + c' q := by
  -- the words `vs` behind are carried along, so that captures can be given up before
  -- the words that remain
  induction h generalizing d vs with
  | nil c => exact ⟨rfl, d, hcovers, fun _ _ => rfl⟩
  | ignored hw _ ih =>
      apply ih hws.tail
      refine hcovers.of_spent subset_rfl ?_ hcovers.there
      intro q hq
      rw [List.cons_append, hU.count_cons_ignored hw hq]
  | @dead c p ws hp hcount =>
      have hmem := hws p List.mem_cons_self hp
      have hpos := hcovers.positive hmem
      have hthere := hcovers.there p hmem
      omega
  | @shared k c c' p ws stopped hp hcount _ ih =>
      have hmem := hws p List.mem_cons_self hp
      have hpos := hcovers.positive hmem
      obtain ⟨hnone, d', hrest, hleft⟩ := ih hws.tail (hcovers.shared hmem hcount)
      refine ⟨hnone, d', hrest, ?_⟩
      intro q hq
      have hq' := hleft q hq
      rcases eq_or_ne q p with rfl | hne
      · rw [lower_self, lower_self] at hq'
        omega
      · rwa [lower_of_ne c hne, lower_of_ne d hne] at hq'
  | @last k l c mid c' p ws stopped hp hcount hcaptures _ ihcaptures ihrest =>
      have hmem := hws p List.mem_cons_self hp
      have hpos := hcovers.positive hmem
      have hthere := hcovers.there p hmem
      have hmid := hcaptures.kept_last hcount
      obtain ⟨-, d₁, hmore, hleft⟩ := ihcaptures (hU.within p hmem) (hcovers.enter hmem hcount)
      have hzero : d₁ p = 0 := by
        have hleft' := hleft p hmem
        rw [lower_self] at hleft'
        omega
      obtain ⟨hnone, d', hrest, hleft'⟩ := ihrest hws.tail (hmore.retire hmid hzero)
      refine ⟨hnone, d', hrest, ?_⟩
      intro q hq
      have hbefore := hleft q hq
      have hafter := hleft' q hq
      rcases eq_or_ne q p with rfl | hne
      · rw [lower_self] at hbefore hafter
        omega
      · rw [lower_of_ne d hne] at hbefore
        rw [lower_of_ne mid hne] at hafter
        omega
  | @lastStopped k c c' p q ws hp hcount _ ih =>
      have hmem := hws p List.mem_cons_self hp
      obtain ⟨hnone, -⟩ := ih (hU.within p hmem) (hcovers.enter hmem hcount)
      cases hnone

section Solution

theorem wellFounded_holds (hacyclic : ∀ x ∈ U, ¬ Relation.TransGen (Holds captures) x x) :
    WellFounded fun x y : U => Holds captures x y := by
  have hwithin : ∀ x, ¬ Relation.TransGen (fun x y => x ∈ U ∧ Holds captures x y) x x := by
    intro x hcycle
    obtain ⟨_, hfirst, -⟩ := Relation.TransGen.head'_iff.1 hcycle
    exact hacyclic x hfirst.1 (Relation.TransGen.mono (fun _ _ hedge => hedge.2) _ _ hcycle)
  apply Subrelation.wf _ (Heap.wellFounded_of_acyclic U hwithin)
  intro x y hedge
  exact .single ⟨x.2, hedge⟩

/-- What is asked of a closure depends on the closures that capture it. -/
theorem SelfContained.asked_congr (hU : SelfContained captures U) {d' : Place → Nat} (hq : q ∈ U)
    (hbefore : ∀ x ∈ U, Holds captures x q → d x = d' x) :
    asked captures U c ws d q = asked captures U c ws d' q := by
  simp only [asked, held, spent, Finset.sum_filter]
  congr 1
  apply Finset.sum_congr rfl
  intro x hx
  by_cases hcaptured : .ofPlace q ∈ captures x
  · rw [hbefore x hx ⟨hcaptured, hU.untagged q hq⟩]
  · rw [List.count_eq_zero.2 hcaptured, ite_self, ite_self]

theorem SelfContained.demand_unique (hU : SelfContained captures U)
    (hacyclic : ∀ x ∈ U, ¬ Relation.TransGen (Holds captures) x x) {d' : Place → Nat}
    (hd : Demand captures U c ws d) (hd' : Demand captures U c ws d') (q : U) : d q = d' q := by
  induction q using (wellFounded_holds hacyclic).induction with
  | _ q ih =>
    rw [hd q q.2, hd' q q.2]
    apply hU.asked_congr q.2
    intro x hx hedge
    exact ih ⟨x, hx⟩ hedge

open Classical in
/-- The equations solved from one closure to the next along the captures. -/
noncomputable def solution (captures : Place → List Word) (U : Finset Place) (c : Place → Nat)
    (ws : List Word) (hwf : WellFounded fun x y : U => Holds captures x y) : U → Nat :=
  hwf.fix fun q before => asked captures U c ws
    (fun x => if hx : ∃ _ : x ∈ U, Holds captures x q then before ⟨x, hx.1⟩ hx.2 else 0) q

open Classical in
theorem SelfContained.exists_demand (hU : SelfContained captures U) (c : Place → Nat)
    (ws : List Word) (hacyclic : ∀ x ∈ U, ¬ Relation.TransGen (Holds captures) x x) :
    ∃ d, Demand captures U c ws d ∧ ∀ q, q ∉ U → d q = 0 := by
  have hwf := wellFounded_holds hacyclic
  refine ⟨fun q => if hq : q ∈ U then solution captures U c ws hwf ⟨q, hq⟩ else 0, ?_, ?_⟩
  · intro q hq
    show (if hq : q ∈ U then _ else _) = _
    rw [dif_pos hq, solution, hwf.fix_eq]
    apply hU.asked_congr hq
    intro x hx hedge
    rw [dif_pos ⟨hx, hedge⟩, dif_pos hx]
  · intro q hq
    exact dif_neg hq

/-- A teardown goes through if and only if the references that are demanded are there, and then it
gives up just these. -/
theorem SelfContained.goes_through_iff (hU : SelfContained captures U)
    (hacyclic : ∀ x ∈ U, ¬ Relation.TransGen (Holds captures) x x) (hd : Demand captures U c ws d)
    (h : Releases captures k c ws stopped c') (hws : Within U ws) :
    (stopped = none ↔ ∀ q ∈ U, d q ≤ c q) ∧ (stopped = none → ∀ q ∈ U, c' q = c q - d q) := by
  have hdone : stopped = none → ∀ q ∈ U, c' q ≤ c q ∧ d q = c q - c' q := by
    rintro rfl q hq
    have hgiven : Demand captures U c ws fun x => c x - c' x := by
      intro x hx
      have hcounts := hU.demand_of_releases h hws x hx
      show c x - c' x = _
      rw [asked, spent_sub h.counts_le]
      omega
    exact ⟨h.counts_le q, hU.demand_unique hacyclic hd hgiven ⟨q, hq⟩⟩
  refine ⟨⟨?_, ?_⟩, ?_⟩
  · intro hnone q hq
    obtain ⟨-, heq⟩ := hdone hnone q hq
    omega
  · intro hthere
    have hcovers : Covers captures U c (ws ++ []) d := by
      rw [List.append_nil]
      exact ⟨fun q hq => (hd q hq).ge, hthere⟩
    exact (hU.covered h hws hcovers).1
  · intro hnone q hq
    obtain ⟨hle, heq⟩ := hdone hnone q hq
    omega

end Solution

end Protocol

open Protocol

namespace Heap

variable {σ τ : Type} {h : Heap σ} {g : Heap τ} {hs : List Place} {cs : Finset Place} {p : Place}
  {d : Place → Nat}

/-- The blocks `cs` are closures, and what they capture are closures among them. -/
structure ClosureGraph (h : Heap σ) (cs : Finset Place) : Prop where
  names : ∀ x ∈ cs, h.Names x
  closure : ∀ x ∈ cs, h.memory.ClosureAt x
  captured : ∀ x ∈ cs, ∀ w ∈ h.memory.captures x, w.Refers cs

/-- How many references to each block are given up along with one to `p`: that one, and one for each
slot of a closure that has references and loses them all. -/
def Demands (h : Heap σ) (cs : Finset Place) (p : Place) (d : Place → Nat) : Prop :=
  ∀ b, h.Names b → d b = (if b = p then 1 else 0) +
    ∑ x ∈ cs with 1 ≤ h.countOf x ∧ h.countOf x ≤ d x, (h.memory.captures x).count (.ofPlace b)

/-- The heap `g` has the blocks and counts of `h`, and its closures capture the same
words in any order. -/
structure Reordered (h : Heap σ) (hs : List Place) (cs : Finset Place) (g : Heap τ) : Prop where
  formed : g.Formed hs
  counts : ∀ b, h.Names b → g.countOf b = h.countOf b
  closure : ∀ x ∈ cs, g.memory.ClosureAt x
  captures : ∀ x ∈ cs, (g.memory.captures x).Perm (h.memory.captures x)

theorem asked_eq (h : Heap σ) (cs : Finset Place) (p : Place) (d : Place → Nat) (b : Place) :
    asked h.memory.captures cs h.countOf [.ofPlace p] d b = (if b = p then 1 else 0) +
      ∑ x ∈ cs with 1 ≤ h.countOf x ∧ h.countOf x ≤ d x,
        (h.memory.captures x).count (.ofPlace b) := by
  rcases eq_or_ne b p with rfl | hne
  · rw [asked, List.count_singleton_self, if_pos rfl]
    rfl
  · rw [asked, List.count_cons_of_ne (Word.ofPlace_ne hne.symm), if_neg hne]
    rfl

theorem within_singleton (hp : p ∈ cs) : Protocol.Within cs [.ofPlace p] := by
  intro q hq _
  cases List.mem_singleton.1 hq
  exact hp

namespace ClosureGraph

variable (hcs : h.ClosureGraph cs) (hf : h.Formed hs)

include hcs

theorem demand (hd : h.Demands cs p d) : Demand h.memory.captures cs h.countOf [.ofPlace p] d := by
  intro q hq
  rw [asked_eq]
  exact hd q (hcs.names q hq)

include hf

theorem selfContained : SelfContained h.memory.captures cs where
  untagged x hx := hf.untagged (hcs.names x hx)
  within x hx _ hq huntagged := (hcs.captured x hx _ hq).mem huntagged

theorem releasable (hp : p ∈ cs) : h.memory.Releasable hs (.ofPlace p) := by
  apply Memory.Releasable.of_places hp
  intro x hx
  exact ⟨hf.names_iff.1 (hcs.names x hx), hcs.closure x hx, hcs.captured x hx⟩

/-- Of a block that is no closure nothing is asked. -/
theorem asked_eq_zero (hp : p ∈ cs) {b : Place} (hb : h.Names b) (hplain : b ∉ cs) :
    asked h.memory.captures cs h.countOf [.ofPlace p] d b = 0 := by
  have hne : p ≠ b := by
    rintro rfl
    exact hplain hp
  rw [asked, List.count_cons_of_ne (Word.ofPlace_ne hne), List.count_nil, Nat.zero_add,
    held_eq_zero_iff]
  intro x hx hcaptured
  exact hplain ((hcs.selfContained hf).within x (Finset.mem_of_mem_filter x hx) b hcaptured
    (hf.untagged hb))

theorem ends (hacyclic : ∀ x ∈ cs, ¬ Relation.TransGen (Holds h.memory.captures) x x)
    (hp : p ∈ cs) :
    ∃ k stopped c', Releases h.memory.captures k h.countOf [.ofPlace p] stopped c' := by
  have hw := hcs.releasable hf hp
  have hends : h.ReleaseEnds (.ofPlace p) := by
    apply ReleaseEnds.of_acyclic hf hw
    intro x hx hcycle
    exact hacyclic x (hx.mem_of_cycle hp hcs.captured hcycle) hcycle
  obtain ⟨stopped, h', hdone⟩ := hends.answers
  apply exists_releases_of_outcome hf hw
  rw [hdone]
  exact outcome_verdict_ne_endless stopped h'

theorem exists_demands (hacyclic : ∀ x ∈ cs, ¬ Relation.TransGen (Holds h.memory.captures) x x)
    (hp : p ∈ cs) : ∃ d, h.Demands cs p d := by
  obtain ⟨d, hd, hplain⟩ := (hcs.selfContained hf).exists_demand h.countOf [.ofPlace p] hacyclic
  refine ⟨d, ?_⟩
  intro b hb
  rw [← asked_eq]
  by_cases hmem : b ∈ cs
  · exact hd b hmem
  · rw [hplain b hmem, hcs.asked_eq_zero hf hp hb hmem]

theorem demands_unique (hacyclic : ∀ x ∈ cs, ¬ Relation.TransGen (Holds h.memory.captures) x x)
    (hp : p ∈ cs) {d' : Place → Nat} (hd : h.Demands cs p d) (hd' : h.Demands cs p d') {b : Place}
    (hb : h.Names b) : d' b = d b := by
  by_cases hmem : b ∈ cs
  · exact (hcs.selfContained hf).demand_unique hacyclic (hcs.demand hd') (hcs.demand hd) ⟨b, hmem⟩
  · rw [hd b hb, hd' b hb, ← asked_eq, ← asked_eq, hcs.asked_eq_zero hf hp hb hmem,
      hcs.asked_eq_zero hf hp hb hmem]

/-- Giving up `p` goes through and leaves what the demand leaves, or a closure has too few
references and the walk aborts. -/
theorem settles (hacyclic : ∀ x ∈ cs, ¬ Relation.TransGen (Holds h.memory.captures) x x)
    (hp : p ∈ cs) (hd : h.Demands cs p d) :
    ((∀ b, h.Names b → d b ≤ h.countOf b) ∧ ∃ h', releaseClosure (.ofPlace p) h = .ok () h' ∧
        ∀ b, h.Names b → h'.countOf b = h.countOf b - d b) ∨
      (∃ b, h.Names b ∧ h.countOf b < d b) ∧
        ∃ q h', releaseClosure (.ofPlace p) h = .error (.aborted (.doubleRelease q)) h' := by
  have hU := hcs.selfContained hf
  obtain ⟨k, stopped, c', hrel⟩ := hcs.ends hf hacyclic hp
  obtain ⟨hverdict, hcounts⟩ :=
    hU.goes_through_iff hacyclic (hcs.demand hd) hrel (within_singleton hp)
  obtain ⟨m, log, hm, hdone⟩ := releaseClosure_of_releases hf (hcs.releasable hf hp) hrel
  have hplain {b : Place} (hb : h.Names b) (hmem : b ∉ cs) : d b = 0 := by
    rw [hd b hb, ← asked_eq, hcs.asked_eq_zero hf hp hb hmem]
  cases stopped with
  | none =>
      refine .inl ⟨?_, _, hdone, ?_⟩
      · intro b hb
        by_cases hmem : b ∈ cs
        · exact hverdict.1 rfl b hmem
        · rw [hplain hb hmem]
          exact Nat.zero_le _
      · intro b hb
        refine (hm.count b (hf.names_iff.1 hb)).trans ?_
        by_cases hmem : b ∈ cs
        · exact hcounts rfl b hmem
        · rw [hplain hb hmem, hrel.kept hU.within (within_singleton hp) hmem, Nat.sub_zero]
  | some q =>
      refine .inr ⟨?_, q, _, hdone⟩
      by_contra henough
      have hnone := hverdict.2 fun b hb => Nat.le_of_not_lt fun hlt =>
        henough ⟨b, hcs.names b hb, hlt⟩
      cases hnone

end ClosureGraph

section Reordered

variable (hsame : h.Reordered hs cs g) (hf : h.Formed hs)

include hsame hf

theorem Reordered.names_iff {b : Place} : g.Names b ↔ h.Names b := by
  rw [hsame.formed.names_iff, hf.names_iff]

theorem Reordered.closureGraph (hcs : h.ClosureGraph cs) : g.ClosureGraph cs where
  names x hx := (hsame.names_iff hf).2 (hcs.names x hx)
  closure := hsame.closure
  captured x hx w hw := hcs.captured x hx w ((hsame.captures x hx).mem_iff.1 hw)

omit hf in
theorem Reordered.acyclic (hcs : h.ClosureGraph cs)
    (hacyclic : ∀ x ∈ cs, ¬ Relation.TransGen (Holds h.memory.captures) x x) :
    ∀ x ∈ cs, ¬ Relation.TransGen (Holds g.memory.captures) x x := by
  intro x hx hcycle
  have hpath : ∀ y, Relation.TransGen (Holds g.memory.captures) x y →
      y ∈ cs ∧ Relation.TransGen (Holds h.memory.captures) x y := by
    intro y hy
    induction hy with
    | single hedge =>
        have hcaptured := (hsame.captures x hx).mem_iff.1 hedge.1
        exact ⟨(hcs.captured x hx _ hcaptured).mem hedge.2, .single ⟨hcaptured, hedge.2⟩⟩
    | tail _ hedge ih =>
        have hcaptured := (hsame.captures _ ih.1).mem_iff.1 hedge.1
        exact ⟨(hcs.captured _ ih.1 _ hcaptured).mem hedge.2, ih.2.tail ⟨hcaptured, hedge.2⟩⟩
  exact hacyclic x hx (hpath x hcycle).2

theorem Reordered.demands (hcs : h.ClosureGraph cs) (hd : h.Demands cs p d) : g.Demands cs p d := by
  intro b hb
  rw [hd b ((hsame.names_iff hf).1 hb)]
  congr 1
  apply Finset.sum_congr
  · apply Finset.filter_congr
    intro x hx
    rw [hsame.counts x (hcs.names x hx)]
  · intro x hx
    exact ((hsame.captures x (Finset.mem_of_mem_filter x hx)).count_eq _).symm

end Reordered

/-- Let `d` say, of each block, how many references to it are given up with one to the closure `p`:
it is the one solution of equations that know no order. The teardown of `p` goes through if and only
if each block has as many references, and then each keeps the others. Else it aborts. So verdict and
counts stay the same when captures change their places in the slots of a closure. -/
theorem teardown_meets_demand (hf : h.Formed hs) (hcs : h.ClosureGraph cs)
    (hacyclic : ∀ x ∈ cs, ¬ Relation.TransGen (Holds h.memory.captures) x x) (hp : p ∈ cs) :
    ∃ d, h.Demands cs p d ∧ (∀ d', h.Demands cs p d' → ∀ b, h.Names b → d' b = d b) ∧
      ((∃ h', releaseClosure (.ofPlace p) h = .ok () h') ↔ ∀ b, h.Names b → d b ≤ h.countOf b) ∧
      (∀ h', releaseClosure (.ofPlace p) h = .ok () h' →
        ∀ b, h.Names b → h'.countOf b = h.countOf b - d b) ∧
      ((∃ b, h.Names b ∧ h.countOf b < d b) →
        ∃ q h', releaseClosure (.ofPlace p) h = .error (.aborted (.doubleRelease q)) h') ∧
      ∀ (τ : Type) (g : Heap τ), h.Reordered hs cs g →
        (∃ h' g', releaseClosure (.ofPlace p) h = .ok () h' ∧
          releaseClosure (.ofPlace p) g = .ok () g' ∧
            ∀ b, h.Names b → g'.countOf b = h'.countOf b) ∨
          ∃ q q' h' g', releaseClosure (.ofPlace p) h = .error (.aborted (.doubleRelease q)) h' ∧
            releaseClosure (.ofPlace p) g = .error (.aborted (.doubleRelease q')) g' := by
  obtain ⟨d, hd⟩ := hcs.exists_demands hf hacyclic hp
  have hsettles := hcs.settles hf hacyclic hp hd
  refine ⟨d, hd, fun d' hd' b hb => hcs.demands_unique hf hacyclic hp hd hd' hb, ?_, ?_, ?_, ?_⟩
  · rcases hsettles with ⟨henough, h', hdone, -⟩ | ⟨⟨b, hb, hless⟩, q, h', hdone⟩
    · exact ⟨fun _ => henough, fun _ => ⟨h', hdone⟩⟩
    · rw [hdone]
      constructor
      · rintro ⟨_, hok⟩
        cases hok
      · intro henough
        exact absurd (henough b hb) (Nat.not_le_of_lt hless)
  · intro h' hok
    rcases hsettles with ⟨-, h'', hdone, hcounts⟩ | ⟨-, q, h'', hdone⟩
    · rw [hdone] at hok
      cases hok
      exact hcounts
    · rw [hdone] at hok
      cases hok
  · rintro ⟨b, hb, hless⟩
    rcases hsettles with ⟨henough, -⟩ | ⟨-, haborts⟩
    · exact absurd (henough b hb) (Nat.not_le_of_lt hless)
    · exact haborts
  · intro τ g hsame
    have hsettles' :=
      (hsame.closureGraph hf hcs).settles hsame.formed (hsame.acyclic hcs hacyclic) hp
      (hsame.demands hf hcs hd)
    rcases hsettles with ⟨henough, h', hdone, hcounts⟩ | ⟨⟨b, hb, hless⟩, q, h', hdone⟩
    · rcases hsettles' with ⟨-, g', hdone', hcounts'⟩ | ⟨⟨b, hb, hless⟩, -⟩
      · refine .inl ⟨h', g', hdone, hdone', ?_⟩
        intro b hb
        rw [hcounts b hb, hcounts' b ((hsame.names_iff hf).2 hb), hsame.counts b hb]
      · have hb' := (hsame.names_iff hf).1 hb
        rw [hsame.counts b hb'] at hless
        exact absurd (henough b hb') (Nat.not_le_of_lt hless)
    · rcases hsettles' with ⟨henough, -⟩ | ⟨-, q', g', hdone'⟩
      · have hle := henough b ((hsame.names_iff hf).2 hb)
        rw [hsame.counts b hb] at hle
        exact absurd hle (Nat.not_le_of_lt hless)
      · exact .inr ⟨q, q', h', g', hdone, hdone'⟩

section Shuffled

theorem Formed.forall_names {P : Place → Prop} (hf : h.Formed hs)
    (hall : ∀ a ∈ hs, P a.payload) (b : Place) (hb : h.Names b) : P b := by
  rw [← b.payload_header]
  exact hall b.header (hf.names_iff.1 hb)

theorem ClosureGraph.of_blocks (hf : h.Formed hs)
    (hclosed : ∀ x ∈ cs, x.header ∈ hs ∧ h.memory.ClosureAt x ∧
      ∀ w ∈ h.memory.captures x, w.Refers cs) : h.ClosureGraph cs where
  names x hx := hf.names_iff.2 (hclosed x hx).1
  closure x hx := (hclosed x hx).2.1
  captured x hx := (hclosed x hx).2.2

def shuffledCalls : List (Call × Option Place) :=
  sharingCalls.take 8 ++
    [(fill ⟨0, 24⟩
      [.function ⟨4⟩, .number 7, .ofPlace ⟨0, 88⟩, .ofPlace ⟨0, 88⟩, .ofPlace ⟨0, 120⟩], none)]

/-- The captures of the first closure are in another order. -/
def shuffledHeap : Heap SystemPages :=
  afterAll (empty (.ofSegmentSize 300) ⟨⟩) shuffledCalls

def sharingDemand (b : Place) : Nat :=
  if b = ⟨0, 88⟩ then 2 else if b ∈ sharingClosures then 1 else 0

theorem shuffledHeap_formed :
    shuffledHeap.Formed sharingBlocks ∧ (sharingHeap 7).Formed sharingBlocks := by
  have hshuffled : Run (empty (.ofSegmentSize 300) ⟨⟩) shuffledCalls shuffledHeap :=
    .of_plays (by decide +kernel)
  have hshort : Run (empty (.ofSegmentSize 300) ⟨⟩) (sharingCalls.take 7) (sharingHeap 7) :=
    .of_plays (by decide +kernel)
  exact ⟨hshuffled.formed_of_nodes (formed_empty _ _) (by decide +kernel),
    hshort.formed_of_nodes (formed_empty _ _) (by decide +kernel)⟩

theorem sharingHeap_counts :
    sharingBlocks.map (fun a => (sharingHeap 8).countOf a.payload) = [1, 2, 1, 1, 0] := by
  decide +kernel

theorem shuffledHeap_counts :
    sharingBlocks.map (fun a => shuffledHeap.countOf a.payload) = [1, 2, 1, 1, 0] := by
  decide +kernel

theorem shuffledHeap_slots :
    shuffledHeap.memory.captures ⟨0, 24⟩ =
      [.number 7, .ofPlace ⟨0, 88⟩, .ofPlace ⟨0, 88⟩, .ofPlace ⟨0, 120⟩] ∧
    shuffledHeap.memory.captures ⟨0, 88⟩ = [] ∧
    shuffledHeap.memory.captures ⟨0, 120⟩ = [.number 3] := by
  decide +kernel

theorem shuffledHeap_reordered :
    (sharingHeap 8).Reordered sharingBlocks sharingClosures shuffledHeap where
  formed := shuffledHeap_formed.1
  counts := by
    have hcounts := List.map_inj_left.1 (shuffledHeap_counts.trans sharingHeap_counts.symm)
    exact sharingHeap_formed.1.forall_names
      (P := fun b => shuffledHeap.countOf b = (sharingHeap 8).countOf b) hcounts
  closure := by decide +kernel
  captures := by
    obtain ⟨hfirst, hsecond, hthird⟩ := sharingHeap_slots
    obtain ⟨hfirst', hsecond', hthird'⟩ := shuffledHeap_slots
    simp only [sharingClosures, Finset.mem_insert, Finset.mem_singleton]
    rintro x (rfl | rfl | rfl)
    · rw [hfirst, hfirst']
      decide
    · rw [hsecond, hsecond']
    · rw [hthird, hthird']

theorem sharingHeap_demands :
    (sharingHeap 8).Demands sharingClosures ⟨0, 24⟩ sharingDemand ∧
      (sharingHeap 7).Demands sharingClosures ⟨0, 24⟩ sharingDemand :=
  ⟨sharingHeap_formed.1.forall_names (by decide +kernel),
    shuffledHeap_formed.2.forall_names (by decide +kernel)⟩

theorem sharingHeap_meets (b : Place) (hb : (sharingHeap 8).Names b) :
    sharingDemand b ≤ (sharingHeap 8).countOf b :=
  sharingHeap_formed.1.forall_names (P := fun b => sharingDemand b ≤ (sharingHeap 8).countOf b)
    (by decide +kernel) b hb

theorem sharingHeap_graph {n : Nat} (hn : n ∈ [7, 8])
    (hf : (sharingHeap n).Formed sharingBlocks) : (sharingHeap n).ClosureGraph sharingClosures := by
  refine .of_blocks hf ?_
  intro x hx
  obtain ⟨hmem, hclosure, hcaptured, -⟩ := sharingHeap_closed n hn x hx
  exact ⟨hmem, hclosure, hcaptured⟩

/-- The teardown of the first closure takes both references to the closure that it captures twice,
in either order of its captures. With one reference to that closure it aborts. -/
theorem sharingHeap_torn_down :
    (∃ h' g' : Heap SystemPages, releaseClosure (.ofPlace ⟨0, 24⟩) (sharingHeap 8) = .ok () h' ∧
        releaseClosure (.ofPlace ⟨0, 24⟩) shuffledHeap = .ok () g' ∧
        h'.countOf ⟨0, 88⟩ = 0 ∧ g'.countOf ⟨0, 88⟩ = 0) ∧
      ∃ (q : Place) (h' : Heap SystemPages),
        releaseClosure (.ofPlace ⟨0, 24⟩) (sharingHeap 7) =
          .error (.aborted (.doubleRelease q)) h' := by
  obtain ⟨hf, -⟩ := sharingHeap_formed
  obtain ⟨-, hf'⟩ := shuffledHeap_formed
  obtain ⟨hdemands, hdemands'⟩ := sharingHeap_demands
  constructor
  · obtain ⟨d, -, hunique, hverdict, hcounts, -, hreordered⟩ :=
      teardown_meets_demand hf (sharingHeap_graph (by decide) hf)
        (fun x hx => sharingHeap_never_back (by decide) hx) (p := ⟨0, 24⟩) (by decide)
    have hd := hunique _ hdemands
    have hnames : (sharingHeap 8).Names ⟨0, 88⟩ := hf.names_iff.2 (by decide)
    obtain ⟨h, hok⟩ := hverdict.2 fun b hb => hd b hb ▸ sharingHeap_meets b hb
    rcases hreordered _ _ shuffledHeap_reordered with
      ⟨h', g', hdone, hdone', hsame⟩ | ⟨_, _, _, _, hstop, -⟩
    · have hleft : h'.countOf ⟨0, 88⟩ = 0 := by
        rw [hcounts h' hdone _ hnames, ← hd _ hnames]
        decide +kernel
      exact ⟨h', g', hdone, hdone', hleft, (hsame _ hnames).trans hleft⟩
    · rw [hok] at hstop
      cases hstop
  · obtain ⟨d, -, hunique, -, -, haborts, -⟩ :=
      teardown_meets_demand hf' (sharingHeap_graph (by decide) hf')
        (fun x hx => sharingHeap_never_back (by decide) hx) (p := ⟨0, 24⟩) (by decide)
    have hnames : (sharingHeap 7).Names ⟨0, 88⟩ := hf'.names_iff.2 (by decide)
    refine haborts ⟨⟨0, 88⟩, hnames, ?_⟩
    rw [← hunique _ hdemands' _ hnames]
    decide +kernel

end Shuffled

end Heap

end CountedHeap
