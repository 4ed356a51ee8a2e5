import CountedHeap.Proofs.Ending
import CountedHeap.Proofs.Outcomes

namespace CountedHeap

namespace Protocol

variable {captures captures' : Place → List Word} {S : Finset Place} {k : Nat}
  {c c' d : Place → Nat}
  {ws : List Word} {stopped : Option Place} {p x : Place}

theorem Releases.kept (h : Releases captures k c ws stopped c')
    (hS : ∀ p ∈ S, Within S (captures p)) (hws : Within S ws) (hx : x ∉ S) : c' x = c x := by
  have hne {p : Place} (hp : p ∈ S) : x ≠ p := by
    rintro rfl
    exact hx hp
  induction h with
  | nil c => rfl
  | ignored _ _ ih => exact ih hws.tail
  | dead _ _ => rfl
  | @shared k c c' p ws stopped hp hcount _ ih =>
      have hmem := hws p List.mem_cons_self hp
      rw [ih hws.tail, lower_of_ne c (hne hmem)]
  | @last k l c mid c' p ws stopped hp hcount _ _ ihcaptures ihrest =>
      have hmem := hws p List.mem_cons_self hp
      rw [ihrest hws.tail, lower_of_ne mid (hne hmem), ihcaptures (hS p hmem)]
  | lastStopped hp hcount _ ih => exact ih (hS _ (hws _ List.mem_cons_self hp))

theorem eqOn_lower (hd : Set.EqOn d c S) (hp : p ∈ S) : Set.EqOn (lower d p) (lower c p) S := by
  intro x hx
  rcases eq_or_ne x p with rfl | hne
  · rw [lower_self, lower_self, hd hx]
  · rw [lower_of_ne d hne, lower_of_ne c hne, hd hx]

/-- What the protocol does depends on the counts and captures in a closed set only. -/
theorem Releases.congr (h : Releases captures k c ws stopped c')
    (hS : ∀ p ∈ S, Within S (captures p))
    (hsame : ∀ p ∈ S, captures' p = captures p) (hws : Within S ws) (hd : Set.EqOn d c S) :
    ∃ d', Releases captures' k d ws stopped d' ∧ Set.EqOn d' c' S := by
  induction h generalizing d with
  | nil c => exact ⟨d, .nil d, hd⟩
  | ignored hw _ ih =>
      obtain ⟨d', hrest, hd'⟩ := ih hws.tail hd
      exact ⟨d', .ignored hw hrest, hd'⟩
  | @dead c p ws hp hcount =>
      have hmem := hws p List.mem_cons_self hp
      exact ⟨d, .dead hp ((hd hmem).trans hcount), hd⟩
  | @shared k c c' p ws stopped hp hcount _ ih =>
      have hmem := hws p List.mem_cons_self hp
      obtain ⟨d', hrest, hd'⟩ := ih hws.tail (eqOn_lower hd hmem)
      exact ⟨d', .shared hp (hcount.trans_eq (hd hmem).symm) hrest, hd'⟩
  | @last k l c mid c' p ws stopped hp hcount _ _ ihcaptures ihrest =>
      have hmem := hws p List.mem_cons_self hp
      obtain ⟨mid', hcaptures, hmid⟩ := ihcaptures (hS p hmem) hd
      obtain ⟨d', hrest, hd'⟩ := ihrest hws.tail (eqOn_lower hmid hmem)
      rw [← hsame p hmem] at hcaptures
      exact ⟨d', .last hp ((hd hmem).trans hcount) hcaptures hrest, hd'⟩
  | @lastStopped k c c' p q ws hp hcount _ ih =>
      have hmem := hws p List.mem_cons_self hp
      obtain ⟨d', hcaptures, hd'⟩ := ih (hS p hmem) hd
      rw [← hsame p hmem] at hcaptures
      exact ⟨d', .lastStopped hp ((hd hmem).trans hcount) hcaptures, hd'⟩

end Protocol

open Protocol

namespace Memory

variable {m m' : Memory} {hs : List Place} {w : Word} {p : Place}

/-- The closure has the same arity in both memories, and the same slots up to there or up to the
first zero, which is included. -/
structure SameSlots (m m' : Memory) (p : Place) : Prop where
  arity : m'.arity p = m.arity p
  slots : ∀ slot ≤ m.arity p, 1 ≤ slot → (∀ k < slot, 1 ≤ k → m.word (p + 8 * k) ≠ .null) →
    m'.word (p + 8 * slot) = m.word (p + 8 * slot)

theorem SameSlots.captures_eq (h : m.SameSlots m' p) : m'.captures p = m.captures p := by
  rw [captures, captures, h.arity]
  apply capturesFrom_eq
  intro j hj hle hbefore
  exact h.slots j (by omega) hle hbefore

/-- The zero slot that ends the captures is a slot of the other closure too. -/
theorem SameSlots.closureAt (h : m.SameSlots m' p) (hclosure : m.ClosureAt p)
    (hsize : m'.size p.header = m.size p.header) (hdescriptor : ∃ f, m'.word p = .function f) :
    m'.ClosureAt p := by
  refine ⟨hdescriptor, ?_⟩
  rw [h.arity, hsize]
  by_cases hfits : 8 * (1 + m.arity p) ≤ (m.size p.header).toNat
  · exact .inl hfits
  · have hzero := hclosure.room.resolve_left hfits
    obtain ⟨hpos, hroom, hnull⟩ := Nat.find_spec hzero
    refine .inr ⟨Nat.find hzero, hpos, hroom, ?_⟩
    rw [h.slots _ (by omega) hpos, hnull]
    intro k hk hle hnull'
    exact Nat.find_min hzero hk ⟨hle, by omega, hnull'⟩

open Classical in
/-- The closures that are reached from a word. -/
noncomputable def reachedClosures (m : Memory) (hs : List Place) (w : Word) : Finset Place :=
  (m.closures hs).filter fun p => m.Reached w (.ofPlace p)

theorem mem_reachedClosures :
    p ∈ m.reachedClosures hs w ↔ p ∈ m.closures hs ∧ m.Reached w (.ofPlace p) := by
  classical
  exact Finset.mem_filter

theorem Releasable.within_reachedClosures {ws : List Word} (hw : m.Releasable hs w)
    (hws : ∀ v ∈ ws, m.Reached w v) : Within (m.reachedClosures hs w) ws := by
  intro p hp huntagged
  have hreleasable : m.Releasable hs (.ofPlace p) := fun v hv => hw v ((hws _ hp).trans hv)
  exact mem_reachedClosures.2
    ⟨mem_closures.2 ⟨(hreleasable.closure huntagged).1, hreleasable⟩, hws _ hp⟩

end Memory

namespace Heap

variable {σ τ : Type} {h h' : Heap σ} {g : Heap τ} {hs : List Place} {w : Word}

/-- The heap `h'` is `h` with smaller counts of closures that are reached from `w`, and nothing else
about the blocks differs. -/
structure Lightened (h : Heap σ) (hs : List Place) (w : Word) (h' : Heap σ) : Prop where
  segments : h'.segments = h.segments
  mappedBytes : h'.mappedBytes = h.mappedBytes
  regions : h'.memory.regions = h.memory.regions
  chain : h'.chain = h.chain
  nodes : h'.chain.nodes h'.memory = .ok hs
  sizes : ∀ a ∈ hs, h'.memory.size a = h.memory.size a
  payloads :
    ∀ a ∈ hs, Set.EqOn h'.memory.cell h.memory.cell (a.payload.span (h.memory.size a).toNat)
  counts : ∀ p, p.header ∈ hs → h'.countOf p ≤ h.countOf p
  reached : ∀ p, p.header ∈ hs → h'.countOf p ≠ h.countOf p → h.memory.Reached w (.ofPlace p)

theorem within_of_mem_reachedClosures (hf : h.Formed hs) (hw : h.memory.Releasable hs w) {p : Place}
    (hp : p ∈ h.memory.reachedClosures hs w) :
    Protocol.Within (h.memory.reachedClosures hs w) (h.memory.captures p) := by
  obtain ⟨hclosure, hreached⟩ := Memory.mem_reachedClosures.1 hp
  have haligned := hf.laid.isAligned (Memory.mem_closures.1 hclosure).1
  apply hw.within_reachedClosures
  intro v hv
  exact .capture hreached (Word.isTagged_ofPlace haligned) hv

theorem within_word (hw : h.memory.Releasable hs w) :
    Protocol.Within (h.memory.reachedClosures hs w) [w] := by
  apply hw.within_reachedClosures
  intro v hv
  rw [List.mem_singleton.1 hv]
  exact .self

theorem lightened_of_releases (hf : h.Formed hs) (hw : h.memory.Releasable hs w) {k : Nat}
    {stopped : Option Place} {c' : Place → Nat}
    (hrel : Releases h.memory.captures k h.countOf [w] stopped c') {m : Memory} {log : Array Event}
    (hm : h.memory.Counted hs c' m) : h.Lightened hs w { h with memory := m, log } where
  segments := rfl
  mappedBytes := rfl
  regions := hm.recounted.regions
  chain := rfl
  nodes := (hf.recount hm.recounted.regions hm.recounted.cells).nodes_eq
  sizes := fun a ha => hm.recounted.size hf.laid ha
  payloads := fun a ha => hm.recounted.payload hf.laid ha
  counts := by
    intro p hp
    exact (hm.count p hp).trans_le (hrel.counts_le p)
  reached := by
    intro p hp hne
    have hcount : c' p ≠ h.countOf p := fun heq => hne ((hm.count p hp).trans heq)
    by_contra hunreached
    apply hcount
    apply hrel.kept (fun q => within_of_mem_reachedClosures hf hw) (within_word hw)
    exact fun hmem => hunreached (Memory.mem_reachedClosures.1 hmem).2

/-- Two heaps that agree wherever giving up `w` looks. -/
structure Alike (h : Heap σ) (hs : List Place) (w : Word) (g : Heap τ) : Prop where
  formed : g.Formed hs
  headers : ∀ a ∈ hs, g.memory.header a = h.memory.header a
  descriptor : ∀ p, h.memory.Reached w (.ofPlace p) → (Word.ofPlace p).isTagged = false →
    ∃ f, g.memory.word p = .function f
  slots : ∀ p, h.memory.Reached w (.ofPlace p) → (Word.ofPlace p).isTagged = false →
    h.memory.SameSlots g.memory p

theorem Alike.captures_eq (hsame : h.Alike hs w g) (hf : h.Formed hs) {p : Place}
    (hp : p ∈ h.memory.reachedClosures hs w) : g.memory.captures p = h.memory.captures p := by
  obtain ⟨hclosure, hreached⟩ := Memory.mem_reachedClosures.1 hp
  have haligned := hf.laid.isAligned (Memory.mem_closures.1 hclosure).1
  exact (hsame.slots p hreached (Word.isTagged_ofPlace haligned)).captures_eq

theorem Alike.countOf_eq (hsame : h.Alike hs w g) {p : Place} (hp : p.header ∈ hs) :
    g.countOf p = h.countOf p :=
  congrArg (fun header => header.refcount.toNat) (hsame.headers p.header hp)

theorem Alike.eqOn_countOf (hsame : h.Alike hs w g) :
    Set.EqOn g.countOf h.countOf (h.memory.reachedClosures hs w) := by
  intro p hp
  exact hsame.countOf_eq (Memory.mem_closures.1 (Memory.mem_reachedClosures.1 hp).1).1

theorem Alike.reached (hsame : h.Alike hs w g) {v : Word} (hv : g.memory.Reached w v) :
    h.memory.Reached w v := by
  induction hv with
  | self => exact .self
  | capture _ huntagged hv ih =>
      rw [(hsame.slots _ ih huntagged).captures_eq] at hv
      exact .capture ih huntagged hv

theorem Alike.releasable (hsame : h.Alike hs w g) (hw : h.memory.Releasable hs w) :
    g.memory.Releasable hs w := by
  intro v hv huntagged hnonzero
  have hreached := hsame.reached hv
  obtain ⟨p, rfl, hmem, hclosure⟩ := hw v hreached huntagged hnonzero
  have hsize : g.memory.size p.header = h.memory.size p.header :=
    congrArg Header.size (hsame.headers p.header hmem)
  exact ⟨p, rfl, hmem, (hsame.slots p hreached huntagged).closureAt hclosure hsize
    (hsame.descriptor p hreached huntagged)⟩

section Alike

variable (hsame : h.Alike hs w g) (hf : h.Formed hs) (hw : h.memory.Releasable hs w) {k : Nat}
  {stopped : Option Place} {c' : Place → Nat}

include hsame hf hw

theorem Alike.releases (hrel : Releases h.memory.captures k h.countOf [w] stopped c') :
    ∃ d', Releases g.memory.captures k g.countOf [w] stopped d' ∧
      ∀ p, p.header ∈ hs → d' p = c' p := by
  have hclosed := fun p => within_of_mem_reachedClosures (p := p) hf hw
  obtain ⟨d', hrel', hd'⟩ := hrel.congr hclosed (fun p => hsame.captures_eq hf) (within_word hw)
    hsame.eqOn_countOf
  refine ⟨d', hrel', ?_⟩
  intro p hp
  by_cases hreached : p ∈ h.memory.reachedClosures hs w
  · exact hd' hreached
  · have hclosed' : ∀ q ∈ h.memory.reachedClosures hs w,
        Protocol.Within (h.memory.reachedClosures hs w) (g.memory.captures q) := by
      intro q hq
      rw [hsame.captures_eq hf hq]
      exact hclosed q hq
    rw [hrel'.kept hclosed' (within_word hw) hreached, hrel.kept hclosed (within_word hw) hreached,
      hsame.countOf_eq hp]

theorem Alike.exists_releases (hrel : Releases g.memory.captures k g.countOf [w] stopped c') :
    ∃ c', Releases h.memory.captures k h.countOf [w] stopped c' := by
  have hclosed' : ∀ q ∈ h.memory.reachedClosures hs w,
      Protocol.Within (h.memory.reachedClosures hs w) (g.memory.captures q) := by
    intro q hq
    rw [hsame.captures_eq hf hq]
    exact within_of_mem_reachedClosures hf hw hq
  obtain ⟨c, hrel', -⟩ := hrel.congr hclosed' (fun p hp => (hsame.captures_eq hf hp).symm)
    (within_word hw) hsame.eqOn_countOf.symm
  exact ⟨c, hrel'⟩

end Alike

theorem outcome_verdict (stopped : Option Place) (h : Heap σ) (g : Heap τ) :
    outcome (verdict h stopped) = outcome (verdict g stopped) := by
  cases stopped <;> rfl

theorem final_verdict (stopped : Option Place) (h : Heap σ) : final (verdict h stopped) = h := by
  cases stopped <;> rfl

theorem outcome_verdict_ne_endless (stopped : Option Place) (h : Heap σ) :
    outcome (verdict h stopped) ≠ .error .endless := by
  cases stopped <;> nofun

theorem exists_releases_of_outcome (hf : h.Formed hs) (hw : h.memory.Releasable hs w)
    (hends : outcome (releaseClosure w h) ≠ .error .endless) :
    ∃ k stopped c', Releases h.memory.captures k h.countOf [w] stopped c' := by
  apply releases_of_releaseClosure hf hw
  intro h' hendless
  rw [hendless] at hends
  exact hends rfl

/-- Giving up a closure that ends, also half way at one released too often, lowers some counts of
closures that are reached from it and changes nothing else about the blocks. On a heap that is alike
in headers, arities and captured slots it comes to the same verdict and leaves the same counts. -/
theorem release_lowers_reached_counts (hf : h.Formed hs) (hw : h.memory.Releasable hs w) :
    (outcome (releaseClosure w h) ≠ .error .endless →
        (∃ stopped, releaseClosure w h = verdict (final (releaseClosure w h)) stopped) ∧
          h.Lightened hs w (final (releaseClosure w h))) ∧
      ∀ (τ : Type) (g : Heap τ), h.Alike hs w g →
        outcome (releaseClosure w g) = outcome (releaseClosure w h) ∧
          (outcome (releaseClosure w h) ≠ .error .endless → ∀ p, p.header ∈ hs →
            (final (releaseClosure w g)).countOf p = (final (releaseClosure w h)).countOf p) := by
  constructor
  · intro hends
    obtain ⟨k, stopped, c', hrel⟩ := exists_releases_of_outcome hf hw hends
    obtain ⟨m, log, hm, hdone⟩ := releaseClosure_of_releases hf hw hrel
    rw [hdone, final_verdict]
    exact ⟨⟨stopped, rfl⟩, lightened_of_releases hf hw hrel hm⟩
  · intro τ g hsame
    by_cases hends : outcome (releaseClosure w h) = .error .endless
    · refine ⟨?_, fun hne => (hne hends).elim⟩
      rw [hends]
      by_contra hends'
      obtain ⟨k, stopped, d', hrel'⟩ :=
        exists_releases_of_outcome hsame.formed (hsame.releasable hw) hends'
      obtain ⟨c', hrel⟩ := hsame.exists_releases hf hw hrel'
      obtain ⟨m, log, -, hdone⟩ := releaseClosure_of_releases hf hw hrel
      rw [hdone] at hends
      exact outcome_verdict_ne_endless _ _ hends
    · obtain ⟨k, stopped, c', hrel⟩ := exists_releases_of_outcome hf hw hends
      obtain ⟨d', hrel', hcounts⟩ := hsame.releases hf hw hrel
      obtain ⟨m, log, hm, hdone⟩ := releaseClosure_of_releases hf hw hrel
      obtain ⟨m', log', hm', hdone'⟩ :=
        releaseClosure_of_releases hsame.formed (hsame.releasable hw) hrel'
      rw [hdone, hdone', final_verdict, final_verdict]
      refine ⟨outcome_verdict _ _ _, ?_⟩
      intro _ p hp
      exact (hm'.count p hp).trans ((hcounts p hp).trans (hm.count p hp).symm)

section Trimmed

/-- The first closure captures the second. Behind its zero slot, and behind the only slot of the
second, lies a word that is no capture. -/
def trimmedCalls (junk : Word) : List (Call × Option Place) :=
  [(.acquire 32, some ⟨0, 24⟩), (.acquire 24, some ⟨0, 80⟩), (.acquire 8, some ⟨0, 128⟩),
    (fill ⟨0, 24⟩ [.function ⟨3⟩, .ofPlace ⟨0, 80⟩, .null, junk], none),
    (fill ⟨0, 80⟩ [.function ⟨1⟩, .number 7, junk], none), (fill ⟨0, 128⟩ [.function ⟨0⟩], none)]

def trimmedHeap (junk : Word) : Heap SystemPages :=
  afterAll (empty (.ofSegmentSize 200) ⟨⟩) (trimmedCalls junk)

def trimmedBlocks : List Place :=
  [⟨0, 0⟩, ⟨0, 56⟩, ⟨0, 104⟩, ⟨0, 136⟩]

def trimmedClosures : Finset Place :=
  {⟨0, 24⟩, ⟨0, 80⟩}

theorem trimmedHeap_formed :
    (trimmedHeap .null).Formed trimmedBlocks ∧
      (trimmedHeap (.ofPlace ⟨0, 128⟩)).Formed trimmedBlocks := by
  have hnull : Run (empty (.ofSegmentSize 200) ⟨⟩) (trimmedCalls .null) (trimmedHeap .null) :=
    .of_plays (by decide +kernel)
  have hplace : Run (empty (.ofSegmentSize 200) ⟨⟩) (trimmedCalls (.ofPlace ⟨0, 128⟩))
      (trimmedHeap (.ofPlace ⟨0, 128⟩)) := .of_plays (by decide +kernel)
  exact ⟨hnull.formed_of_nodes (formed_empty _ _) (by decide +kernel),
    hplace.formed_of_nodes (formed_empty _ _) (by decide +kernel)⟩

theorem trimmedHeap_closed :
    ∀ p ∈ trimmedClosures, p.header ∈ trimmedBlocks ∧ (trimmedHeap .null).memory.ClosureAt p ∧
      (∀ v ∈ (trimmedHeap .null).memory.captures p, v.Refers trimmedClosures) ∧
      ∀ q ∈ trimmedClosures, .ofPlace q ∈ (trimmedHeap .null).memory.captures p →
        p.offset < q.offset := by
  decide +kernel

theorem trimmedHeap_reached {v : Word}
    (hv : (trimmedHeap .null).memory.Reached (.ofPlace ⟨0, 24⟩) v) : v.Refers trimmedClosures :=
  hv.refers (by decide) fun p hp => (trimmedHeap_closed p hp).2.2.1

theorem trimmedHeap_releasable :
    (trimmedHeap .null).memory.Releasable trimmedBlocks (.ofPlace ⟨0, 24⟩) := by
  apply Memory.Releasable.of_places (S := trimmedClosures) (by decide)
  intro p hp
  obtain ⟨hmem, hclosure, hcaptures, -⟩ := trimmedHeap_closed p hp
  exact ⟨hmem, hclosure, hcaptures⟩

theorem trimmedHeap_headers : ∀ a ∈ trimmedBlocks,
    (trimmedHeap (.ofPlace ⟨0, 128⟩)).memory.header a = (trimmedHeap .null).memory.header a := by
  rw [← List.map_inj_left]
  trans [⟨some ⟨0, 56⟩, 32, 1⟩, ⟨some ⟨0, 104⟩, 24, 1⟩, ⟨some ⟨0, 136⟩, 8, 1⟩, ⟨none, 40, 0⟩]
  · decide +kernel
  · decide +kernel

/-- The places of the words that are looked at. -/
def trimmedSlots : List Place :=
  [⟨0, 24⟩, ⟨0, 32⟩, ⟨0, 40⟩, ⟨0, 80⟩, ⟨0, 88⟩]

theorem trimmedHeap_words :
    trimmedSlots.map (trimmedHeap .null).memory.word =
        [.function ⟨3⟩, .ofPlace ⟨0, 80⟩, .null, .function ⟨1⟩, .number 7] ∧
      trimmedSlots.map (trimmedHeap (.ofPlace ⟨0, 128⟩)).memory.word =
        [.function ⟨3⟩, .ofPlace ⟨0, 80⟩, .null, .function ⟨1⟩, .number 7] := by
  decide +kernel

theorem trimmedHeap_sameSlots {p : Place} (hp : p ∈ trimmedClosures) :
    (trimmedHeap .null).memory.SameSlots (trimmedHeap (.ofPlace ⟨0, 128⟩)).memory p := by
  obtain ⟨hnull, hplace⟩ := trimmedHeap_words
  have hsame := List.map_inj_left.1 (hplace.trans hnull.symm)
  simp only [trimmedSlots, List.map_cons, List.map_nil, List.cons.injEq, and_true] at hnull
  obtain ⟨hfirst, -, hzero, hsecond, -⟩ := hnull
  simp only [trimmedClosures, Finset.mem_insert, Finset.mem_singleton] at hp
  rcases hp with rfl | rfl
  · have harity : (trimmedHeap .null).memory.arity ⟨0, 24⟩ = 3 := Memory.arity_eq hfirst
    refine ⟨(Memory.arity_eq ((hsame _ (by decide)).trans hfirst)).trans harity.symm, ?_⟩
    rw [harity]
    intro slot hslot hpos hbefore
    interval_cases slot
    · exact hsame ⟨0, 32⟩ (by decide)
    · exact hsame ⟨0, 40⟩ (by decide)
    · exact (hbefore 2 (by decide) (by decide) hzero).elim
  · have harity : (trimmedHeap .null).memory.arity ⟨0, 80⟩ = 1 := Memory.arity_eq hsecond
    refine ⟨(Memory.arity_eq ((hsame _ (by decide)).trans hsecond)).trans harity.symm, ?_⟩
    rw [harity]
    intro slot hslot hpos _
    interval_cases slot
    exact hsame ⟨0, 88⟩ (by decide)

theorem trimmedHeap_alike :
    (trimmedHeap .null).Alike trimmedBlocks (.ofPlace ⟨0, 24⟩)
      (trimmedHeap (.ofPlace ⟨0, 128⟩)) where
  formed := trimmedHeap_formed.2
  headers := trimmedHeap_headers
  descriptor := by
    have hclosures : ∀ p ∈ trimmedClosures,
        ∃ f, (trimmedHeap (.ofPlace ⟨0, 128⟩)).memory.word p = .function f := by
      decide +kernel
    exact fun p hp huntagged => hclosures p ((trimmedHeap_reached hp).mem huntagged)
  slots := fun p hp huntagged => trimmedHeap_sameSlots ((trimmedHeap_reached hp).mem huntagged)

theorem trimmedHeap_ends :
    outcome (releaseClosure (.ofPlace ⟨0, 24⟩) (trimmedHeap .null)) ≠ .error .endless := by
  have hends : (trimmedHeap .null).ReleaseEnds (.ofPlace ⟨0, 24⟩) := by
    apply ReleaseEnds.of_acyclic trimmedHeap_formed.1 trimmedHeap_releasable
    have hcaptures := fun p hp => (trimmedHeap_closed p hp).2.2.1
    intro x hx hcycle
    have hmem := hx.mem_of_cycle (by decide) hcaptures hcycle
    exact Memory.acyclic_of_behind hcaptures (fun p hp => (trimmedHeap_closed p hp).2.2.2) hmem
      hcycle
  obtain ⟨stopped, h', hdone⟩ := hends.answers
  rw [hdone]
  exact outcome_verdict_ne_endless stopped h'

/-- The third block is not touched, though in one of the heaps words behind the captures name it. -/
theorem trimmedHeap_lightened :
    (trimmedHeap .null).Lightened trimmedBlocks (.ofPlace ⟨0, 24⟩)
        (final (releaseClosure (.ofPlace ⟨0, 24⟩) (trimmedHeap .null))) ∧
      outcome (releaseClosure (.ofPlace ⟨0, 24⟩) (trimmedHeap (.ofPlace ⟨0, 128⟩))) =
        outcome (releaseClosure (.ofPlace ⟨0, 24⟩) (trimmedHeap .null)) ∧
      (final (releaseClosure (.ofPlace ⟨0, 24⟩) (trimmedHeap (.ofPlace ⟨0, 128⟩)))).countOf
        ⟨0, 128⟩ = 1 := by
  obtain ⟨hlowers, halike⟩ :=
    release_lowers_reached_counts trimmedHeap_formed.1 trimmedHeap_releasable
  obtain ⟨-, hlightened⟩ := hlowers trimmedHeap_ends
  obtain ⟨hsame, hcounts⟩ := halike _ _ trimmedHeap_alike
  refine ⟨hlightened, hsame, ?_⟩
  have hbefore : (trimmedHeap .null).countOf ⟨0, 128⟩ = 1 := by decide +kernel
  rw [hcounts trimmedHeap_ends _ (by decide), ← hbefore]
  by_contra hchanged
  have hreached := trimmedHeap_reached (hlightened.reached _ (by decide) hchanged)
  exact absurd (hreached.mem (by decide)) (by decide)

end Trimmed

end Heap

end CountedHeap
