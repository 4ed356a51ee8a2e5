import CountedHeap.Proofs.Refinement

namespace CountedHeap

namespace Protocol

variable {captures : Place → List Word} {U : Finset Place} {w : Word} {ws : List Word}
  {ext c : Place → Nat} {p q x : Place}

/-- How many slots of these closures hold `q`. -/
def held (captures : Place → List Word) (U : Finset Place) (q : Place) : Nat :=
  ∑ x ∈ U, (captures x).count (.ofPlace q)

theorem held_eq_zero_iff : held captures U q = 0 ↔ ∀ x ∈ U, .ofPlace q ∉ captures x := by
  simp only [held, Finset.sum_eq_zero_iff, List.count_eq_zero]

theorem held_erase (hp : p ∈ U) :
    (captures p).count (.ofPlace q) + held captures (U.erase p) q = held captures U q :=
  Finset.add_sum_erase U (fun x => (captures x).count (.ofPlace q)) hp

theorem refers_erase (h : w.Refers U) (hw : w ≠ .ofPlace p) : w.Refers (U.erase p) := by
  rcases h with htagged | ⟨q, hmem, rfl⟩
  · exact .inl htagged
  · refine .inr ⟨q, Finset.mem_erase.2 ⟨?_, hmem⟩, rfl⟩
    rintro rfl
    exact hw rfl

theorem held_eq_zero (hslots : ∀ x ∈ U, ∀ w ∈ captures x, w.Refers U)
    (hq : (Word.ofPlace q).isTagged = false) (hmem : q ∉ U) : held captures U q = 0 := by
  rw [held_eq_zero_iff]
  intro x hx hcaptured
  exact hmem ((hslots x hx _ hcaptured).mem hq)

/-- While the words `ws` are still to be given up, each count in `U` is made up of the references
held outside, of those in slots of `U`, and of those in `ws`. -/
structure Balanced (captures : Place → List Word) (U : Finset Place) (ws : List Word)
    (ext c : Place → Nat) : Prop where
  untagged : ∀ q ∈ U, (Word.ofPlace q).isTagged = false
  slots : ∀ x ∈ U, ∀ w ∈ captures x, w.Refers U
  words : ∀ w ∈ ws, w.Refers U
  live : ∀ q ∈ U, 0 < c q
  count : ∀ q ∈ U, c q = ext q + held captures U q + ws.count (.ofPlace q)

namespace Balanced

theorem tagged (h : Balanced captures U (w :: ws) ext c) (hw : w.isTagged = true) :
    Balanced captures U ws ext c where
  untagged := h.untagged
  slots := h.slots
  words v hv := h.words v (List.mem_cons_of_mem _ hv)
  live := h.live
  count := by
    intro q hq
    have hne : w ≠ .ofPlace q := by
      rintro rfl
      rw [h.untagged q hq] at hw
      cases hw
    rw [h.count q hq, List.count_cons_of_ne hne]

theorem shared (h : Balanced captures U (.ofPlace p :: ws) ext c) (hshared : 1 < c p) :
    Balanced captures U ws ext (lower c p) where
  untagged := h.untagged
  slots := h.slots
  words v hv := h.words v (List.mem_cons_of_mem _ hv)
  live := by
    intro q hq
    by_cases hqp : q = p
    · rw [hqp, lower_self]
      omega
    · rw [lower_of_ne c hqp]
      exact h.live q hq
  count := by
    intro q hq
    have hcount := h.count q hq
    by_cases hqp : q = p
    · rw [hqp, List.count_cons_self] at hcount
      rw [hqp, lower_self]
      omega
    · rw [lower_of_ne c hqp, hcount, List.count_cons_of_ne (Word.ofPlace_ne (Ne.symm hqp))]

theorem sole (h : Balanced captures U (.ofPlace p :: ws) ext c) (hp : p ∈ U) (hlast : c p = 1) :
    ext p = 0 ∧ held captures U p = 0 ∧ .ofPlace p ∉ ws := by
  have hcount := h.count p hp
  rw [hlast, List.count_cons_self] at hcount
  rw [← List.count_eq_zero]
  omega

/-- A closure that loses its only reference leaves `U`, and what it captured is given up. The words
behind it count as held outside. -/
theorem enter (h : Balanced captures U (.ofPlace p :: ws) ext c) (hp : p ∈ U) (hlast : c p = 1) :
    Balanced captures (U.erase p) (captures p) (fun q => ext q + ws.count (.ofPlace q)) c := by
  obtain ⟨-, hheld, -⟩ := h.sole hp hlast
  have hslots : ∀ x ∈ U, ∀ w ∈ captures x, w.Refers (U.erase p) := by
    intro x hx w hw
    apply refers_erase (h.slots x hx w hw)
    rintro rfl
    exact held_eq_zero_iff.1 hheld x hx hw
  refine
    { untagged := fun q hq => h.untagged q (Finset.mem_of_mem_erase hq)
      slots := fun x hx => hslots x (Finset.mem_of_mem_erase hx)
      words := hslots p hp
      live := fun q hq => h.live q (Finset.mem_of_mem_erase hq)
      count := ?_ }
  intro q hq
  have hne : p ≠ q := (Finset.ne_of_mem_erase hq).symm
  have hcount := h.count q (Finset.mem_of_mem_erase hq)
  rw [List.count_cons_of_ne (Word.ofPlace_ne hne), ← held_erase hp] at hcount
  rw [hcount]
  omega

end Balanced

/-- The closures in `U'` are left of those in `U`. The others had no reference from outside, and now
have none at all. -/
structure Settled (captures : Place → List Word) (U U' : Finset Place) (ext c c' : Place → Nat) :
    Prop where
  subset : U' ⊆ U
  balanced : Balanced captures U' [] ext c'
  gone : ∀ q ∈ U, q ∉ U' → ext q = 0 ∧ c' q = 0
  other : ∀ q, q ∉ U → c' q = c q

theorem Balanced.settled (h : Balanced captures U [] ext c) : Settled captures U U ext c c :=
  ⟨subset_rfl, h, fun _ hq hgone => (hgone hq).elim, fun _ _ => rfl⟩

namespace Settled

variable {U₁ U' : Finset Place} {mid c' : Place → Nat}

theorem count (h : Settled captures U U' ext c c') (hq : (Word.ofPlace q).isTagged = false)
    (hother : q ∉ U → c q = ext q) : c' q = ext q + held captures U' q := by
  by_cases hleft : q ∈ U'
  · exact h.balanced.count q hleft
  · rw [held_eq_zero h.balanced.slots hq hleft]
    by_cases hbefore : q ∈ U
    · obtain ⟨hext, hzero⟩ := h.gone q hbefore hleft
      rw [hext, hzero]
    · rw [h.other q hbefore, hother hbefore, Nat.add_zero]

theorem leave (h : Balanced captures U (.ofPlace p :: ws) ext c) (hp : p ∈ U) (hlast : c p = 1)
    (hbelow : Settled captures (U.erase p) U₁ (fun q => ext q + ws.count (.ofPlace q)) c mid) :
    Balanced captures U₁ ws ext (lower mid p) := by
  obtain ⟨-, -, hfresh⟩ := h.sole hp hlast
  have hne : ∀ q ∈ U₁, q ≠ p := fun q hq => Finset.ne_of_mem_erase (hbelow.subset hq)
  refine
    { untagged := hbelow.balanced.untagged
      slots := hbelow.balanced.slots
      words := ?_
      live := ?_
      count := ?_ }
  · intro w hw
    have hwp : w ≠ .ofPlace p := by
      rintro rfl
      exact hfresh hw
    rcases refers_erase (h.words w (List.mem_cons_of_mem _ hw)) hwp with htagged | ⟨q, hq, rfl⟩
    · exact .inl htagged
    · refine .inr ⟨q, ?_, rfl⟩
      -- the word itself is a reference that the teardown below saw as held outside
      by_contra hgone
      have hzero := (hbelow.gone q hq hgone).1
      have hpos := List.count_pos_iff.2 hw
      omega
  · intro q hq
    rw [lower_of_ne mid (hne q hq)]
    exact hbelow.balanced.live q hq
  · intro q hq
    rw [lower_of_ne mid (hne q hq), hbelow.balanced.count q hq, List.count_nil]
    omega

theorem trans (h : Balanced captures U (.ofPlace p :: ws) ext c) (hp : p ∈ U) (hlast : c p = 1)
    (hbelow : Settled captures (U.erase p) U₁ (fun q => ext q + ws.count (.ofPlace q)) c mid)
    (hrest : Settled captures U₁ U' ext (lower mid p) c') : Settled captures U U' ext c c' where
  subset := hrest.subset.trans (hbelow.subset.trans (Finset.erase_subset p U))
  balanced := hrest.balanced
  gone := by
    intro q hq hgone
    by_cases hq₁ : q ∈ U₁
    · exact hrest.gone q hq₁ hgone
    · rw [hrest.other q hq₁]
      by_cases hqp : q = p
      · subst hqp
        rw [lower_self, hbelow.other q (Finset.notMem_erase q U), hlast]
        exact ⟨(h.sole hp hlast).1, rfl⟩
      · rw [lower_of_ne mid hqp]
        obtain ⟨hext, hzero⟩ := hbelow.gone q (Finset.mem_erase.2 ⟨hqp, hq⟩) hq₁
        exact ⟨by omega, hzero⟩
  other := by
    intro q hq
    have hqp : q ≠ p := by
      rintro rfl
      exact hq hp
    have herase : q ∉ U.erase p := fun hmem => hq (Finset.mem_of_mem_erase hmem)
    rw [hrest.other q fun hmem => herase (hbelow.subset hmem), lower_of_ne mid hqp,
      hbelow.other q herase]

end Settled

theorem Balanced.releases (h : Balanced captures U ws ext c) :
    ∃ k c' U', Releases captures k c ws none c' ∧ Settled captures U U' ext c c' := by
  -- a teardown takes a closure out of `U`, and everything else makes the list of words shorter
  induction U using Finset.strongInduction generalizing ws ext c with
  | H U ihU =>
    induction ws generalizing c with
    | nil => exact ⟨0, c, U, .nil c, h.settled⟩
    | cons w ws ih =>
      rcases h.words w List.mem_cons_self with htagged | ⟨p, hp, rfl⟩
      · obtain ⟨k, c', U', hrest, hsettled⟩ := ih (h.tagged htagged)
        exact ⟨k + 1, c', U', .ignored (.inl htagged) hrest, hsettled⟩
      · have hpos := h.live p hp
        rcases Nat.lt_or_eq_of_le (Nat.succ_le_of_lt hpos) with hshared | hlast
        · obtain ⟨k, c', U', hrest, hsettled⟩ := ih (h.shared hshared)
          refine ⟨k + 1, c', U', .shared (h.untagged p hp) hshared hrest, ?_⟩
          refine ⟨hsettled.subset, hsettled.balanced, hsettled.gone, ?_⟩
          intro q hq
          have hqp : q ≠ p := by
            rintro rfl
            exact hq hp
          rw [hsettled.other q hq, lower_of_ne c hqp]
        · obtain ⟨k, mid, U₁, hcaptures, hbelow⟩ :=
            ihU (U.erase p) (Finset.erase_ssubset hp) (h.enter hp hlast.symm)
          have hsmaller : U₁ ⊂ U := hbelow.subset.trans_ssubset (Finset.erase_ssubset hp)
          obtain ⟨l, c', U', hrest, hsettled⟩ := ihU U₁ hsmaller (hbelow.leave h hp hlast.symm)
          exact ⟨k + l + 2, c', U', .last (h.untagged p hp) hlast.symm hcaptures hrest,
            .trans h hp hlast.symm hbelow hsettled⟩

end Protocol

open Protocol

namespace Heap

variable {σ : Type} {h h' : Heap σ} {hs : List Place} {cs : Finset Place} {ext c' : Place → Nat}
  {p : Place}

/-- The closures among `cs` that have references. -/
def liveClosures (h : Heap σ) (cs : Finset Place) : Finset Place :=
  cs.filter fun p => 0 < h.countOf p

/-- A heap in which the blocks `cs` are closures, a program holds `ext` references to each
block, and every reference is counted. A block outside `cs` is plain data, which no live
closure captures. -/
structure WellCounted (h : Heap σ) (cs : Finset Place) (ext : Place → Nat) : Prop where
  names : ∀ p ∈ cs, h.Names p
  closure : ∀ p ∈ h.liveClosures cs, h.memory.ClosureAt p
  captured : ∀ p ∈ h.liveClosures cs, ∀ w ∈ h.memory.captures p, w.Refers (h.liveClosures cs)
  count : ∀ p, h.Names p → h.countOf p = ext p + held h.memory.captures (h.liveClosures cs) p

theorem mem_liveClosures : p ∈ h.liveClosures cs ↔ p ∈ cs ∧ 0 < h.countOf p :=
  Finset.mem_filter

theorem Formed.untagged (hf : h.Formed hs) (hp : h.Names p) : (Word.ofPlace p).isTagged = false :=
  Word.isTagged_ofPlace (hf.laid.isAligned (hf.names_iff.1 hp))

namespace WellCounted

theorem releasable (hc : h.WellCounted cs ext) (hf : h.Formed hs) (hp : p ∈ h.liveClosures cs) :
    h.memory.Releasable hs (.ofPlace p) := by
  apply Memory.Releasable.of_places hp
  intro q hq
  exact ⟨hf.names_iff.1 (hc.names q (mem_liveClosures.1 hq).1), hc.closure q hq, hc.captured q hq⟩

theorem of_blocks (hf : h.Formed hs)
    (hclosures : ∀ p ∈ cs, p.header ∈ hs ∧ h.memory.ClosureAt p ∧
      (0 < h.countOf p → ∀ w ∈ h.memory.captures p, w.Refers (h.liveClosures cs)))
    (hcount : ∀ a ∈ hs,
      h.countOf a.payload = ext a.payload + held h.memory.captures (h.liveClosures cs) a.payload) :
    h.WellCounted cs ext where
  names p hp := hf.names_iff.2 (hclosures p hp).1
  closure p hp := (hclosures p (mem_liveClosures.1 hp).1).2.1
  captured p hp := (hclosures p (mem_liveClosures.1 hp).1).2.2 (mem_liveClosures.1 hp).2
  count := by
    intro p hp
    rw [← p.payload_header]
    exact hcount p.header (hf.names_iff.1 hp)

theorem live_of_ext (hc : h.WellCounted cs ext) (hp : h.Names p) (hext : 1 ≤ ext p) :
    0 < h.countOf p := by
  rw [hc.count p hp]
  omega

theorem balanced (hc : h.WellCounted cs ext) (hf : h.Formed hs) (hp : p ∈ cs) (hext : 1 ≤ ext p) :
    Balanced h.memory.captures (h.liveClosures cs) [.ofPlace p] (lower ext p) h.countOf where
  untagged q hq := hf.untagged (hc.names q (mem_liveClosures.1 hq).1)
  slots := hc.captured
  words := by
    intro w hw
    rw [List.mem_singleton] at hw
    exact .inr ⟨p, mem_liveClosures.2 ⟨hp, hc.live_of_ext (hc.names p hp) hext⟩, hw⟩
  live q hq := (mem_liveClosures.1 hq).2
  count := by
    intro q hq
    rw [hc.count q (hc.names q (mem_liveClosures.1 hq).1)]
    by_cases hqp : q = p
    · rw [hqp, lower_self, List.count_singleton_self]
      omega
    · rw [lower_of_ne ext hqp, List.count_cons_of_ne (Word.ofPlace_ne (Ne.symm hqp)),
        List.count_nil, Nat.add_zero]

end WellCounted

/-- The heap after a closure was given up: new counts, and fewer live closures. -/
structure Lowered (h : Heap σ) (cs : Finset Place) (h' : Heap σ) : Prop where
  names : ∀ p, h'.Names p ↔ h.Names p
  subset : h'.liveClosures cs ⊆ h.liveClosures cs
  captures : ∀ p ∈ h.liveClosures cs, h'.memory.captures p = h.memory.captures p

section Release

variable {U : Finset Place}

theorem WellCounted.liveClosures_eq (hc : h.WellCounted cs ext) (hf : h.Formed hs)
    (hm : h.memory.Counted hs c' h'.memory)
    (hsettled : Settled h.memory.captures (h.liveClosures cs) U (lower ext p) h.countOf c') :
    h'.liveClosures cs = U := by
  ext q
  rw [mem_liveClosures]
  constructor
  · rintro ⟨hq, hlive⟩
    have hcount : h'.countOf q = c' q := hm.count q (hf.names_iff.1 (hc.names q hq))
    by_contra hgone
    rw [hcount] at hlive
    by_cases hbefore : q ∈ h.liveClosures cs
    · have hzero := (hsettled.gone q hbefore hgone).2
      omega
    · rw [hsettled.other q hbefore] at hlive
      exact hbefore (mem_liveClosures.2 ⟨hq, hlive⟩)
  · intro hq
    have hmem : q ∈ cs := (mem_liveClosures.1 (hsettled.subset hq)).1
    have hcount : h'.countOf q = c' q := hm.count q (hf.names_iff.1 (hc.names q hmem))
    rw [hcount]
    exact ⟨hmem, hsettled.balanced.live q hq⟩

theorem WellCounted.lowered (hc : h.WellCounted cs ext) (hf : h.Formed hs) (hf' : h'.Formed hs)
    (hm : h.memory.Counted hs c' h'.memory)
    (hsettled : Settled h.memory.captures (h.liveClosures cs) U (lower ext p) h.countOf c') :
    h.Lowered cs h' where
  names q := by rw [hf.names_iff, hf'.names_iff]
  subset := by
    rw [hc.liveClosures_eq hf hm hsettled]
    exact hsettled.subset
  captures q hq := by
    have hname := hc.names q (mem_liveClosures.1 hq).1
    exact hm.recounted.captures hf.laid (hf.names_iff.1 hname) (hc.closure q hq)

theorem WellCounted.settled (hc : h.WellCounted cs ext) (hf : h.Formed hs) (hf' : h'.Formed hs)
    (hp : p ∈ h.liveClosures cs) (hm : h.memory.Counted hs c' h'.memory)
    (hsettled : Settled h.memory.captures (h.liveClosures cs) U (lower ext p) h.countOf c') :
    h'.WellCounted cs (lower ext p) := by
  have hlowered := hc.lowered hf hf' hm hsettled
  have hlive := hc.liveClosures_eq hf hm hsettled
  have hcaptures : ∀ q ∈ U, h'.memory.captures q = h.memory.captures q := fun q hq =>
    hlowered.captures q (hsettled.subset hq)
  refine ⟨fun q hq => (hlowered.names q).2 (hc.names q hq), ?_, ?_, ?_⟩
  · intro q hq
    have hbefore := hlowered.subset hq
    have hname := hc.names q (mem_liveClosures.1 hbefore).1
    exact hm.recounted.closureAt hf.laid (hf.names_iff.1 hname) (hc.closure q hbefore)
  · rw [hlive]
    intro q hq w hw
    rw [hcaptures q hq] at hw
    exact hsettled.balanced.slots q hq w hw
  · intro q hq
    have hname := (hlowered.names q).1 hq
    have hcount : h'.countOf q = c' q := hm.count q (hf.names_iff.1 hname)
    have hheld : held h'.memory.captures U q = held h.memory.captures U q :=
      Finset.sum_congr rfl fun x hx => by rw [hcaptures x hx]
    rw [hlive, hheld, hcount]
    apply hsettled.count (hf.untagged hname)
    intro hbefore
    have hqp : q ≠ p := by
      rintro rfl
      exact hbefore hp
    rw [hc.count q hname, held_eq_zero hc.captured (hf.untagged hname) hbefore, lower_of_ne ext hqp,
      Nat.add_zero]

end Release

/-- One live closure captures a block. -/
def Captures (h : Heap σ) (cs : Finset Place) (x y : Place) : Prop :=
  x ∈ h.liveClosures cs ∧ .ofPlace y ∈ h.memory.captures x

section Reachable

variable {r b x : Place}

theorem Lowered.live_of_reachable (hl : h.Lowered cs h') (hf' : h'.Formed hs)
    (hc' : h'.WellCounted cs ext) (hr : h'.Names r) (hext : 1 ≤ ext r)
    (hreach : Relation.ReflTransGen (h.Captures cs) r b) (hb : h'.Names b) : 0 < h'.countOf b := by
  induction hreach with
  | refl => exact hc'.live_of_ext hr hext
  | @tail y b _ hcapture ih =>
      obtain ⟨hy, hcaptured⟩ := hcapture
      have hmem : y ∈ cs := (mem_liveClosures.1 hy).1
      have hlive : y ∈ h'.liveClosures cs := mem_liveClosures.2 ⟨hmem, ih (hc'.names y hmem)⟩
      rw [← hl.captures y hy] at hcaptured
      exact (mem_liveClosures.1 ((hc'.captured y hlive _ hcaptured).mem (hf'.untagged hb))).2

theorem wellFounded_of_acyclic {R : Place → Place → Prop} (cs : Finset Place)
    (hacyclic : ∀ x, ¬ Relation.TransGen R x x) :
    WellFounded fun x y : cs => Relation.TransGen R x y := by
  have : IsTrans cs fun x y => Relation.TransGen R x y := ⟨fun _ _ _ hxy hyz => hxy.trans hyz⟩
  have : Std.Irrefl fun x y : cs => Relation.TransGen R x y := ⟨fun x => hacyclic x⟩
  exact Finite.wellFounded_of_trans_of_irrefl _

theorem Lowered.dead_of_unreachable (hl : h.Lowered cs h') (hc' : h'.WellCounted cs ext)
    (hacyclic : ∀ x, ¬ Relation.TransGen (h.Captures cs) x x) (hx : x ∈ cs)
    (hunreachable : ∀ r, h'.Names r → 1 ≤ ext r → ¬ Relation.ReflTransGen (h.Captures cs) r x) :
    h'.countOf x = 0 := by
  obtain ⟨x, rfl⟩ : ∃ y : cs, y.1 = x := ⟨⟨x, hx⟩, rfl⟩
  -- back along the captures
  induction x using (wellFounded_of_acyclic cs hacyclic).induction with
  | _ x ih =>
    have hext : ext x.1 = 0 := by
      by_contra hne
      exact hunreachable x.1 (hc'.names x.1 hx) (Nat.one_le_iff_ne_zero.2 hne) .refl
    rw [hc'.count x.1 (hc'.names x.1 hx), hext, Nat.zero_add, held_eq_zero_iff]
    intro y hy hcaptured
    have hbefore := hl.subset hy
    obtain ⟨hmem, hlive⟩ := mem_liveClosures.1 hy
    rw [hl.captures y hbefore] at hcaptured
    have hedge : h.Captures cs y x.1 := ⟨hbefore, hcaptured⟩
    have hdead : h'.countOf y = 0 :=
      ih ⟨y, hmem⟩ (.single hedge) hmem fun r hr hr' hreach =>
        hunreachable r hr hr' (hreach.tail hedge)
    omega

end Reachable

/-- A program that gives up one of its references to a closure finds all references counted as
before. Blocks that it still reaches are live, and if closures do not capture each other in circles,
no other closure is. -/
theorem releaseClosure_keeps_counts (hf : h.Formed hs) (hc : h.WellCounted cs ext) (hp : p ∈ cs)
    (hext : 1 ≤ ext p) :
    ∃ h' : Heap σ, releaseClosure (.ofPlace p) h = .ok () h' ∧ h'.Formed hs ∧
      h'.WellCounted cs (lower ext p) ∧
      (∀ r b, h.Names r → h.Names b → 1 ≤ lower ext p r →
        Relation.ReflTransGen (h.Captures cs) r b → 0 < h'.countOf b) ∧
      ((∀ x, ¬ Relation.TransGen (h.Captures cs) x x) → ∀ x ∈ cs,
        (∀ r, h.Names r → 1 ≤ lower ext p r → ¬ Relation.ReflTransGen (h.Captures cs) r x) →
          h'.countOf x = 0) := by
  have hlive : p ∈ h.liveClosures cs :=
    mem_liveClosures.2 ⟨hp, hc.live_of_ext (hc.names p hp) hext⟩
  obtain ⟨k, c', U, hrel, hsettled⟩ := (hc.balanced hf hp hext).releases
  obtain ⟨m, log, hm, hdone⟩ := releaseClosure_of_releases hf (hc.releasable hf hlive) hrel
  have hf' : { h with memory := m, log }.Formed hs :=
    (hf.recount hm.recounted.regions hm.recounted.cells).congr rfl rfl rfl rfl
      (fun _ _ => rfl) fun _ _ => rfl
  have hl := hc.lowered hf hf' hm hsettled
  have hc' := hc.settled hf hf' hlive hm hsettled
  refine ⟨_, hdone, hf', hc', ?_, ?_⟩
  · intro r b hr hb hremains hreach
    exact hl.live_of_reachable hf' hc' ((hl.names r).2 hr) hremains hreach ((hl.names b).2 hb)
  · intro hacyclic x hx hunreachable
    exact hl.dead_of_unreachable hc' hacyclic hx fun r hr => hunreachable r ((hl.names r).1 hr)

section Sharing

/-- A closure captures another one twice, and a third one. At first the third captures a number, and
in the end itself. The last block is plain data. -/
def sharingCalls : List (Call × Option Place) :=
  [(.acquire 40, some ⟨0, 24⟩), (.acquire 8, some ⟨0, 88⟩), (.acquire 16, some ⟨0, 120⟩),
    (.acquire 5, some ⟨0, 160⟩),
    (fill ⟨0, 24⟩
      [.function ⟨4⟩, .ofPlace ⟨0, 88⟩, .ofPlace ⟨0, 120⟩, .ofPlace ⟨0, 88⟩, .number 7], none),
    (fill ⟨0, 88⟩ [.function ⟨0⟩], none), (fill ⟨0, 120⟩ [.function ⟨1⟩, .number 3], none),
    (.retain ⟨0, 88⟩, none), (fill ⟨0, 120⟩ [.function ⟨1⟩, .ofPlace ⟨0, 120⟩], none),
    (.retain ⟨0, 120⟩, none)]

def sharingHeap (n : Nat) : Heap SystemPages :=
  afterAll (empty (.ofSegmentSize 300) ⟨⟩) (sharingCalls.take n)

def sharingBlocks : List Place :=
  [⟨0, 0⟩, ⟨0, 64⟩, ⟨0, 96⟩, ⟨0, 136⟩, ⟨0, 168⟩]

def sharingClosures : Finset Place :=
  {⟨0, 24⟩, ⟨0, 88⟩, ⟨0, 120⟩}

/-- The program holds the first closure and the plain block. -/
def sharingRoots (p : Place) : Nat :=
  if p = ⟨0, 24⟩ ∨ p = ⟨0, 160⟩ then 1 else 0

theorem sharingHeap_formed :
    (sharingHeap 8).Formed sharingBlocks ∧ (sharingHeap 10).Formed sharingBlocks := by
  have hacyclic : Run (empty (.ofSegmentSize 300) ⟨⟩) (sharingCalls.take 8) (sharingHeap 8) :=
    .of_plays (by decide +kernel)
  have hcyclic : Run (empty (.ofSegmentSize 300) ⟨⟩) (sharingCalls.take 10) (sharingHeap 10) :=
    .of_plays (by decide +kernel)
  exact ⟨hacyclic.formed_of_nodes (formed_empty _ _) (by decide +kernel),
    hcyclic.formed_of_nodes (formed_empty _ _) (by decide +kernel)⟩

theorem sharingHeap_wellCounted :
    (sharingHeap 8).WellCounted sharingClosures sharingRoots ∧
      (sharingHeap 10).WellCounted sharingClosures sharingRoots := by
  obtain ⟨hf, hf'⟩ := sharingHeap_formed
  constructor
  · exact .of_blocks hf (by decide +kernel) (by decide +kernel)
  · exact .of_blocks hf' (by decide +kernel) (by decide +kernel)

theorem sharingHeap_slots :
    (sharingHeap 8).memory.captures ⟨0, 24⟩ =
      [.ofPlace ⟨0, 88⟩, .ofPlace ⟨0, 120⟩, .ofPlace ⟨0, 88⟩, .number 7] ∧
    (sharingHeap 8).memory.captures ⟨0, 88⟩ = [] ∧
    (sharingHeap 8).memory.captures ⟨0, 120⟩ = [.number 3] := by
  decide +kernel

theorem sharingHeap_captures {x y : Place} (h : (sharingHeap 8).Captures sharingClosures x y) :
    x = ⟨0, 24⟩ ∧ y ≠ ⟨0, 24⟩ := by
  obtain ⟨hx, hcaptured⟩ := h
  obtain ⟨hfirst, hsecond, hthird⟩ := sharingHeap_slots
  have hmem := (mem_liveClosures.1 hx).1
  simp only [sharingClosures, Finset.mem_insert, Finset.mem_singleton] at hmem
  rcases hmem with rfl | rfl | rfl
  · refine ⟨rfl, ?_⟩
    rintro rfl
    rw [hfirst] at hcaptured
    revert hcaptured
    decide
  · rw [hsecond] at hcaptured
    cases hcaptured
  · rw [hthird] at hcaptured
    cases List.mem_singleton.1 hcaptured

theorem sharingHeap_acyclic (x : Place) :
    ¬ Relation.TransGen ((sharingHeap 8).Captures sharingClosures) x x := by
  intro hcycle
  obtain ⟨y, hfirst, -⟩ := Relation.TransGen.head'_iff.1 hcycle
  obtain ⟨z, -, hlast⟩ := Relation.TransGen.tail'_iff.1 hcycle
  exact (sharingHeap_captures hlast).2 (sharingHeap_captures hfirst).1

theorem sharingHeap_unreachable {r x : Place} (hx : x ∈ sharingClosures)
    (hr : 1 ≤ lower sharingRoots ⟨0, 24⟩ r) :
    ¬ Relation.ReflTransGen ((sharingHeap 8).Captures sharingClosures) r x := by
  have hroot : r = ⟨0, 160⟩ := by
    by_cases hfirst : r = ⟨0, 24⟩
    · rw [hfirst, lower_self] at hr
      exact (by decide : ¬ 1 ≤ sharingRoots ⟨0, 24⟩ - 1) hr |>.elim
    · rw [lower_of_ne _ hfirst, sharingRoots] at hr
      split at hr
      · rename_i hor
        exact hor.resolve_left hfirst
      · omega
  intro hreach
  rcases Relation.ReflTransGen.cases_head hreach with rfl | ⟨y, hedge, -⟩
  · rw [hroot] at hx
    exact (by decide : (⟨0, 160⟩ : Place) ∉ sharingClosures) hx
  · have heq := (sharingHeap_captures hedge).1
    rw [hroot] at heq
    cases heq

/-- The closure that captures itself stays, and without it all closures go. -/
theorem sharingHeap_released :
    ((sharingHeap 10).Formed sharingBlocks ∧
      (sharingHeap 10).WellCounted sharingClosures sharingRoots ∧ 1 ≤ sharingRoots ⟨0, 24⟩ ∧
      ∃ h' : Heap SystemPages, releaseClosure (.ofPlace ⟨0, 24⟩) (sharingHeap 10) = .ok () h' ∧
        h'.WellCounted sharingClosures (lower sharingRoots ⟨0, 24⟩) ∧ 0 < h'.countOf ⟨0, 160⟩) ∧
      ∃ h' : Heap SystemPages, releaseClosure (.ofPlace ⟨0, 24⟩) (sharingHeap 8) = .ok () h' ∧
        h'.WellCounted sharingClosures (lower sharingRoots ⟨0, 24⟩) ∧
        ∀ x ∈ sharingClosures, h'.countOf x = 0 := by
  obtain ⟨hf, hf'⟩ := sharingHeap_formed
  obtain ⟨hc, hc'⟩ := sharingHeap_wellCounted
  constructor
  · obtain ⟨h', hdone, -, hcounted, hreachable, -⟩ :=
      releaseClosure_keeps_counts (p := ⟨0, 24⟩) hf' hc' (by decide) (by decide)
    have hname : (sharingHeap 10).Names ⟨0, 160⟩ := by decide +kernel
    exact ⟨hf', hc', by decide, h', hdone, hcounted, hreachable _ _ hname hname (by decide) .refl⟩
  · obtain ⟨h', hdone, -, hcounted, -, hunreachable⟩ :=
      releaseClosure_keeps_counts (p := ⟨0, 24⟩) hf hc (by decide) (by decide)
    exact ⟨h', hdone, hcounted, fun x hx =>
      hunreachable sharingHeap_acyclic x hx fun r _ hr => sharingHeap_unreachable hx hr⟩

end Sharing

end Heap

end CountedHeap
