import CountedHeap.Heap.Basic
import CountedHeap.Proofs.Layout
import CountedHeap.Proofs.Linked

namespace CountedHeap

namespace Memory

/-- The bytes of a block apart from its link: size, count and payload. -/
def body (m : Memory) (h : Place) : Set Place :=
  (h + 8).span (16 + (m.size h).toNat)

/-- The block at `h` has its size, its count and its payload in both memories. -/
def Keeps (m m' : Memory) (h : Place) : Prop :=
  Set.EqOn m'.cell m.cell (m.body h)

/-- The links of these blocks. -/
def links (hs : List Place) : Set Place :=
  {q | ∃ a ∈ hs, q ∈ a.span 8}

/-- The counts of these blocks. -/
def counts (hs : List Place) : Set Place :=
  {q | ∃ a ∈ hs, q ∈ (a + 16).span 8}

/-- The headers of these blocks. -/
def headers (hs : List Place) : Set Place :=
  {q | ∃ a ∈ hs, q ∈ a.span 24}

theorem headers_mono {hs hs' : List Place} (h : hs ⊆ hs') : headers hs ⊆ headers hs' := by
  rintro q ⟨a, ha, hq⟩
  exact ⟨a, h ha, hq⟩

theorem links_subset_headers (hs : List Place) : links hs ⊆ headers hs := by
  rintro q ⟨a, ha, hq⟩
  exact ⟨a, ha, Place.span_mono (by omega) hq⟩

theorem body_subset_extent (m : Memory) (h : Place) : m.body h ⊆ m.extent h :=
  Place.span_add_subset (by omega)

theorem disjoint_link_body (m : Memory) (h : Place) : Disjoint (m.body h) (h.span 8) :=
  (Place.disjoint_span_self (by omega)).symm

theorem payload_subset_body (m : Memory) (h : Place) :
    h.payload.span (m.size h).toNat ⊆ m.body h := by
  have hplace : h.payload = h + 8 + 16 := (Place.add_add h 8 16).symm
  rw [hplace]
  exact Place.span_add_subset (by omega)

namespace Keeps

variable {m m' m'' : Memory} {h : Place}

theorem refl (m : Memory) (h : Place) : m.Keeps m h :=
  Set.eqOn_refl _ _

theorem size (hkeeps : m.Keeps m' h) : m'.size h = m.size h :=
  size_congr (hkeeps.mono (Place.span_mono (by omega)))

theorem refcount (hkeeps : m.Keeps m' h) : m'.refcount h = m.refcount h := by
  apply refcount_congr
  have hplace : h + 16 = h + 8 + 8 := (Place.add_add h 8 8).symm
  rw [hplace]
  exact hkeeps.mono (Place.span_add_subset (by omega))

theorem payload (hkeeps : m.Keeps m' h) :
    Set.EqOn m'.cell m.cell (h.payload.span (m.size h).toNat) :=
  hkeeps.mono (m.payload_subset_body h)

theorem trans (hkeeps : m.Keeps m' h) (hkeeps' : m'.Keeps m'' h) : m.Keeps m'' h := by
  unfold Keeps body at hkeeps'
  rw [hkeeps.size] at hkeeps'
  exact hkeeps'.trans hkeeps

end Keeps

namespace Laid

variable {m m' : Memory} {p q : Place} {hs : List Place} {a b : Place}

theorem untouched (hlaid : m.Laid p hs q) (ha : a ∈ hs) (hb : b ∈ hs) (hne : a ≠ b)
    (h : Set.EqOn m'.cell m.cell (m.extent b)ᶜ) : Set.EqOn m'.cell m.cell (m.extent a) :=
  eqOn_of_disjoint h (hlaid.disjoint ha hb hne)

theorem untouched_of_next (hlaid : m.Laid p hs q) (ha : a ∈ hs) {n : Nat}
    (h : Set.EqOn m'.cell m.cell (q.span n)ᶜ) : Set.EqOn m'.cell m.cell (m.extent a) :=
  eqOn_of_disjoint h ((hlaid.precedes_end.2 a ha).disjoint_span n)

theorem keeps_of_links (hlaid : m.Laid p hs q) (ha : a ∈ hs)
    (h : Set.EqOn m'.cell m.cell (links hs)ᶜ) : m.Keeps m' a := by
  apply eqOn_of_disjoint h
  rw [Set.disjoint_right]
  rintro x ⟨b, hb, hx⟩
  rcases eq_or_ne a b with rfl | hne
  · exact Set.disjoint_right.1 (m.disjoint_link_body a) hx
  · have hapart := (hlaid.disjoint ha hb hne).mono (m.body_subset_extent a)
      (Place.span_mono (by omega) : b.span 8 ⊆ m.extent b)
    exact Set.disjoint_right.1 hapart hx

theorem disjoint_payload_headers (hlaid : m.Laid p hs q) (ha : a ∈ hs) :
    Disjoint (a.payload.span (m.size a).toNat) (headers hs) := by
  rw [Set.disjoint_right]
  rintro x ⟨b, hb, hx⟩
  rcases eq_or_ne a b with rfl | hne
  · exact Set.disjoint_left.1 (Place.disjoint_span_self (by omega)) hx
  · exact Set.disjoint_right.1 ((hlaid.disjoint ha hb hne).mono
      (Place.span_add_subset (by omega) : a.payload.span (m.size a).toNat ⊆ m.extent a)
      (Place.span_mono (by omega) : b.span 24 ⊆ m.extent b)) hx

/-- New counts leave links, sizes and payloads alone. -/
theorem eqOn_of_counts (hlaid : m.Laid p hs q) (ha : a ∈ hs)
    (h : Set.EqOn m'.cell m.cell (counts hs)ᶜ) :
    Set.EqOn m'.cell m.cell (a.span 16) ∧
      Set.EqOn m'.cell m.cell (a.payload.span (m.size a).toNat) := by
  have hapart {t : Set Place} (ht : t ⊆ m.extent a) (hself : Disjoint t ((a + 16).span 8)) :
      Set.EqOn m'.cell m.cell t := by
    apply eqOn_of_disjoint h
    rw [Set.disjoint_right]
    rintro x ⟨b, hb, hx⟩
    rcases eq_or_ne a b with rfl | hne
    · exact Set.disjoint_right.1 hself hx
    · exact Set.disjoint_right.1 ((hlaid.disjoint ha hb hne).mono ht
        (Place.span_add_subset (by omega) : (b + 16).span 8 ⊆ m.extent b)) hx
  constructor
  · exact hapart (Place.span_mono (by omega)) (Place.disjoint_span_self (by omega))
  · exact hapart (Place.span_add_subset (by omega)) (Place.disjoint_span_add (by omega))

end Laid

end Memory

/-- The blocks of a heap in the order of the chain, and the counters that agree with them. -/
structure Heap.Formed {σ : Type} (h : Heap σ) (hs : List Place) : Prop where
  linked : h.memory.Linked h.chain.head hs none
  tail : h.chain.tail = hs.getLast?
  length : h.chain.length.toNat = hs.length
  laid : h.memory.Laid ⟨0, 0⟩ hs h.memory.nextBase
  segments : h.segments.toNat = h.memory.regions.size
  mapped : h.mappedBytes.toNat = (h.memory.regions.toList.map UInt64.toNat).sum

namespace Heap

variable {σ : Type}

theorem formed_empty (config : Config) (source : σ) : (empty config source).Formed [] where
  linked := rfl
  tail := rfl
  length := rfl
  laid := .nil _
  segments := rfl
  mapped := rfl

namespace Formed

variable {h h' : Heap σ} {hs : List Place}

theorem start_eq (hf : h.Formed hs) : h.chain.start = ⟨h.chain.head, hs.length⟩ := by
  rw [Chain.start, hf.length]

theorem nodes_eq (hf : h.Formed hs) : h.chain.nodes h.memory = .ok hs := by
  rw [Chain.nodes, hf.start_eq, Cursor.toList_eq hf.linked]

theorem find?_eq (hf : h.Formed hs) (test : Place → Bool) :
    h.chain.start.find? h.memory test = .ok (hs.find? test) := by
  rw [hf.start_eq, Cursor.find?]
  exact Cursor.search_eq hf.linked (Nat.le_refl _) test

theorem unique {hs' : List Place} (hf : h.Formed hs)
    (hnodes : h.chain.nodes h.memory = .ok hs') : hs = hs' :=
  Except.ok.inj (hf.nodes_eq.symm.trans hnodes)

theorem aligned (hf : h.Formed hs) {a : Place} (ha : a ∈ hs) : a.offset % 8 = 0 :=
  hf.laid.aligned rfl a ha

theorem congr (hf : h.Formed hs) (hchain : h'.chain = h.chain)
    (hsegments : h'.segments = h.segments)
    (hmapped : h'.mappedBytes = h.mappedBytes) (hregions : h'.memory.regions = h.memory.regions)
    (hnext : ∀ a ∈ hs, h'.memory.next a = h.memory.next a)
    (hsize : ∀ a ∈ hs, h'.memory.size a = h.memory.size a) : h'.Formed hs where
  linked := by
    rw [hchain]
    exact hf.linked.congr hnext
  tail := by rw [hchain, hf.tail]
  length := by rw [hchain, hf.length]
  laid := by
    rw [Memory.nextBase, hregions]
    exact hf.laid.congr hsize fun k len => hregions ▸ id
  segments := by rw [hsegments, hregions, hf.segments]
  mapped := by rw [hmapped, hregions, hf.mapped]

theorem recount {m : Memory} (hf : h.Formed hs) (hregions : m.regions = h.memory.regions)
    (hcells : Set.EqOn m.cell h.memory.cell (Memory.counts hs)ᶜ) :
    { h with memory := m }.Formed hs := by
  refine hf.congr rfl rfl rfl hregions ?_ ?_
  · intro a ha
    exact Memory.next_congr ((hf.laid.eqOn_of_counts ha hcells).1.mono (Place.span_mono (by omega)))
  · intro a ha
    exact Memory.size_congr
      ((hf.laid.eqOn_of_counts ha hcells).1.mono (Place.span_add_subset (by omega)))

end Formed

end Heap

end CountedHeap
