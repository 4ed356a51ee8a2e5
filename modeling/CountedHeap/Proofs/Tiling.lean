import CountedHeap.Proofs.Runs

namespace CountedHeap

open Size

namespace Memory

/-- Blocks with these headers lie one behind the other from a place on, each on the word boundary
that follows the block before it, and the last one ends `len` bytes from the base of the segment. -/
def Tiles (m : Memory) (len : Nat) : Place → List Place → Prop
  | _, [] => False
  | p, [a] => a = p ∧ a.payload.offset + (m.size a).toNat = len
  | p, a :: b :: rest => a = p ∧ m.Tiles len (a.payload + padded (m.size a).toNat) (b :: rest)

variable {m : Memory} {p q : Place} {hs : List Place}

theorem Tiles.cons {len : Nat} (h : m.Tiles len (p.payload + padded (m.size p).toNat) hs) :
    m.Tiles len p (p :: hs) := by
  cases hs with
  | nil => exact h.elim
  | cons b rest => exact ⟨rfl, h⟩

/-- Segments from number `first` on, each tiled by the blocks in one of the lists. -/
def TilesFrom (m : Memory) (first : Nat) (segs : List (List Place)) : Prop :=
  ∀ k seg len, segs[k]? = some seg → m.regions[first + k]? = some len →
    m.Tiles len.toNat ⟨first + k, 0⟩ seg

theorem TilesFrom.cons {first : Nat} {seg : List Place} {segs : List (List Place)} {len : UInt64}
    (hregion : m.regions[first]? = some len) (hseg : m.Tiles len.toNat ⟨first, 0⟩ seg)
    (hsegs : m.TilesFrom (first + 1) segs) : m.TilesFrom first (seg :: segs) := by
  intro k seg' len' hget hlen
  cases k with
  | zero =>
      cases hget
      rw [Nat.add_zero, hregion] at hlen
      cases hlen
      exact hseg
  | succ k =>
      have hindex : first + (k + 1) = first + 1 + k := by omega
      rw [hindex] at hlen ⊢
      exact hsegs k seg' len' hget hlen

theorem Laid.tiles (hlaid : m.Laid p hs q) (hq : q.offset = 0) (hp : 0 ≤ p.offset) :
    (p = q ∧ hs = []) ∨
      ∃ seg segs len, hs = seg ++ segs.flatten ∧ m.regions[p.segment]? = some len ∧
        m.Tiles len.toNat p seg ∧ p.segment + 1 + segs.length = q.segment ∧
        m.TilesFrom (p.segment + 1) segs := by
  induction hlaid with
  | nil p => exact .inl ⟨rfl, rfl⟩
  | @inner p q hs hsize rest ih =>
      have hnext : p + (24 + padded (m.size p).toNat) = p.payload + padded (m.size p).toNat :=
        (Place.add_add p 24 _).symm
      have hbehind : 0 < (p + (24 + padded (m.size p).toNat)).offset := by
        rw [Place.add_offset]
        omega
      rcases ih hq (by omega) with ⟨hend, -⟩ | ⟨seg, segs, len, hhs, hregion, hseg, hlength, hsegs⟩
      · rw [hend, hq] at hbehind
        omega
      · rw [hnext] at hseg
        exact .inr ⟨p :: seg, segs, len, by rw [hhs, List.cons_append], hregion, hseg.cons, hlength,
          hsegs⟩
  | @last p q hs len hsize hregion hend rest ih =>
      have hlast : m.Tiles len.toNat p [p] := ⟨rfl, hend⟩
      rcases ih hq (Int.le_refl 0) with
        ⟨hend, hhs⟩ | ⟨seg, segs, len', hhs, hregion', hseg, hlength, hsegs⟩
      · refine .inr ⟨[p], [], len, by rw [hhs]; rfl, hregion, hlast, ?_, ?_⟩
        · rw [← hend]
          rfl
        · intro k seg len' hget
          cases hget
      · refine .inr ⟨[p], seg :: segs, len, by rw [hhs]; rfl, hregion, hlast, ?_, ?_⟩
        · have hlength : p.segment + 1 + 1 + segs.length = q.segment := hlength
          rw [List.length_cons]
          omega
        · exact .cons hregion' hseg hsegs

end Memory

namespace Heap

variable {σ : Type} {h : Heap σ} {hs : List Place}

theorem Formed.tiles (hf : h.Formed hs) :
    ∃ segs : List (List Place), hs = segs.flatten ∧ segs.length = h.memory.regions.size ∧
      h.memory.TilesFrom 0 segs := by
  rcases hf.laid.tiles rfl (Int.le_refl 0) with
    ⟨hend, hhs⟩ | ⟨seg, segs, len, hhs, hregion, hseg, hlength, hsegs⟩
  · refine ⟨[], hhs, congrArg Place.segment hend, ?_⟩
    intro k seg len hget
    cases hget
  · refine ⟨seg :: segs, hhs, ?_, .cons hregion hseg hsegs⟩
    have hsize : 0 + 1 + segs.length = h.memory.regions.size := hlength
    rw [List.length_cons]
    omega

theorem Formed.payload_number (hf : h.Formed hs) {a : Place} (ha : a ∈ hs) :
    (Word.ofPlace a.payload).toNumber.toNat % 8 = 0 := by
  have haligned := hf.aligned ha
  have hsize : (UInt64.size : Int) = 2 ^ 64 := rfl
  show (Address.place a.payload).number.toNat % 8 = 0
  simp only [Address.toNat_number, Address.position, Address.firstBase, Address.stride,
    Place.payload, Place.add_offset, hsize]
  omega

variable [PageSource σ]

/-- The blocks of a heap tile its segments, whatever a program has done with it. -/
theorem blocks_tile_segments (config : Config) (source : σ) {trace : List (Call × Option Place)}
    (hrun : Run (empty config source) trace h) :
    ∃ segs : List (List Place),
      h.chain.nodes h.memory = .ok segs.flatten ∧
      segs.length = h.memory.regions.size ∧
      (∀ k seg len, segs[k]? = some seg → h.memory.regions[k]? = some len →
        h.memory.Tiles len.toNat ⟨k, 0⟩ seg) ∧
      (∀ a ∈ segs.flatten, 1 ≤ (h.memory.size a).toNat ∧
        (Word.ofPlace a.payload).toNumber.toNat % 8 = 0 ∧
        (Word.ofPlace a.payload).isTagged = false) ∧
      segs.flatten.Pairwise fun a b => Disjoint (h.memory.extent a) (h.memory.extent b) := by
  obtain ⟨hs, hf, -⟩ := hrun.formed (formed_empty config source)
  obtain ⟨segs, rfl, hlength, htiles⟩ := hf.tiles
  refine ⟨segs, hf.nodes_eq, hlength, ?_, ?_, hf.laid.pairwise_disjoint⟩
  · intro k seg len hget hregion
    rw [← Nat.zero_add k] at hregion ⊢
    exact htiles k seg len hget hregion
  · intro a ha
    exact ⟨hf.laid.size_pos a ha, hf.payload_number ha,
      Word.isTagged_ofPlace (hf.laid.isAligned (by rwa [Place.header_payload]))⟩

section MixedRun

/-- A program on segments of 100 bytes: a block is split, given back and used again for less, a
second segment is mapped, and a closure with a tagged capture is written there and released. -/
def mixedCalls : List (Call × Option Place) :=
  [(.acquire 10, some ⟨0, 24⟩), (.acquire 30, some ⟨0, 64⟩), (.release ⟨0, 24⟩, none),
    (.acquire 5, some ⟨0, 24⟩), (.acquire 16, some ⟨1, 24⟩),
    (.write ⟨1, 24⟩ 0 ((List.range 8).map (Word.function ⟨1⟩).cell), none),
    (.write ⟨1, 24⟩ 8 ((List.range 8).map (Word.number 3).cell), none),
    (.releaseClosure (.ofPlace ⟨1, 24⟩), none)]

def mixedHeap (n : Nat) : Heap SystemPages :=
  afterAll (empty (.ofSegmentSize 100) ⟨⟩) (mixedCalls.take n)

theorem nodes_mixedHeap : (mixedHeap 7).chain.nodes (mixedHeap 7).memory =
    .ok [⟨0, 0⟩, ⟨0, 40⟩, ⟨1, 0⟩, ⟨1, 40⟩] := rfl

theorem mixedHeap_permits : (mixedHeap 7).Permits (.releaseClosure (.ofPlace ⟨1, 24⟩)) :=
  ⟨_, nodes_mixedHeap, .of_places (S := {⟨1, 24⟩}) (by decide) (by decide +kernel)⟩

theorem mixedCalls_run : Run (empty (.ofSegmentSize 100) ⟨⟩) mixedCalls (mixedHeap 8) := by
  have hfront : Run (empty (.ofSegmentSize 100) ⟨⟩) (mixedCalls.take 7) (mixedHeap 7) :=
    .of_plays (by decide +kernel)
  exact hfront.append (.cons mixedHeap_permits (.after (by decide +kernel)) (.nil _))

theorem mixedHeap_tiled :
    Run (empty (.ofSegmentSize 100) ⟨⟩) mixedCalls (mixedHeap 8) ∧
      ∃ segs : List (List Place),
        (mixedHeap 8).chain.nodes (mixedHeap 8).memory = .ok segs.flatten ∧
        segs.length = (mixedHeap 8).memory.regions.size ∧
        (∀ k seg len, segs[k]? = some seg → (mixedHeap 8).memory.regions[k]? = some len →
          (mixedHeap 8).memory.Tiles len.toNat ⟨k, 0⟩ seg) ∧
        (∀ a ∈ segs.flatten, 1 ≤ ((mixedHeap 8).memory.size a).toNat ∧
          (Word.ofPlace a.payload).toNumber.toNat % 8 = 0 ∧
          (Word.ofPlace a.payload).isTagged = false) ∧
        segs.flatten.Pairwise fun a b =>
          Disjoint ((mixedHeap 8).memory.extent a) ((mixedHeap 8).memory.extent b) :=
  ⟨mixedCalls_run, blocks_tile_segments _ _ mixedCalls_run⟩

end MixedRun

end Heap

end CountedHeap
