import CountedHeap.Proofs.FirstFit
import CountedHeap.Proofs.Persistence

namespace CountedHeap

open Size

/-- Another one of these blocks lies behind it in the same segment. -/
def Place.IsFollowed (hs : List Place) (a : Place) : Prop :=
  ∃ b ∈ hs, b.segment = a.segment ∧ a.offset < b.offset

instance (hs : List Place) : DecidablePred (Place.IsFollowed hs) := fun a =>
  inferInstanceAs (Decidable (∃ b ∈ hs, b.segment = a.segment ∧ a.offset < b.offset))

/-- The blocks that are not the last ones of their segments. -/
def followed (hs : List Place) : List Place :=
  hs.filter (Place.IsFollowed hs)

theorem followed_cons {a : Place} {hs : List Place} (h : ∀ b ∈ hs, a.Precedes b) :
    followed (a :: hs) = if a.IsFollowed hs then a :: followed hs else followed hs := by
  have hself : a.IsFollowed (a :: hs) ↔ a.IsFollowed hs := by
    simp [Place.IsFollowed]
  have hothers : hs.filter (Place.IsFollowed (a :: hs)) = followed hs := by
    apply List.filter_congr
    intro b hb
    have hbefore : ¬ (a.segment = b.segment ∧ b.offset < a.offset) := by
      have hprecedes := h b hb
      unfold Place.Precedes at hprecedes
      omega
    rw [decide_eq_decide]
    simp [Place.IsFollowed, hbefore]
  rw [followed, List.filter_cons, hothers]
  simp [hself]

namespace Memory

variable {m : Memory} {p q : Place} {hs : List Place}

/-- The bytes that fill the last words of these blocks. -/
def padding (m : Memory) (hs : List Place) : Nat :=
  (hs.map fun a => padded (m.size a).toNat - (m.size a).toNat).sum

theorem padding_cons (m : Memory) (a : Place) (hs : List Place) :
    m.padding (a :: hs) = padded (m.size a).toNat - (m.size a).toNat + m.padding hs :=
  List.sum_cons

theorem padding_le (m : Memory) (hs : List Place) : m.padding hs ≤ 7 * hs.length := by
  induction hs with
  | nil => exact Nat.le_refl 0
  | cons a hs ih =>
      rw [padding_cons, List.length_cons, padded]
      omega

namespace Laid

theorem mem_of_ne (h : m.Laid p hs q) (hne : p ≠ q) : p ∈ hs := by
  cases h with
  | nil => exact (hne rfl).elim
  | inner => exact List.mem_cons_self
  | last => exact List.mem_cons_self

theorem followed_of_inner (hrest : m.Laid (p + (24 + padded (m.size p).toNat)) hs q)
    (hq : q.offset = 0) (hp : 0 ≤ p.offset) : followed (p :: hs) = p :: followed hs := by
  -- the last block of a segment is not padded, so there is a next one
  have hne : p + (24 + padded (m.size p).toNat) ≠ q := by
    rintro rfl
    rw [Place.add_offset] at hq
    omega
  have hfollowed : p.IsFollowed hs :=
    ⟨_, hrest.mem_of_ne hne, rfl, by rw [Place.add_offset]; omega⟩
  have hbehind : p.Precedes (p + (24 + padded (m.size p).toNat)) :=
    .inr ⟨rfl, by rw [Place.add_offset]; omega⟩
  rw [followed_cons fun b hb => hbehind.trans (hrest.precedes b hb), if_pos hfollowed]

theorem followed_of_last (hrest : m.Laid ⟨p.segment + 1, 0⟩ hs q) :
    followed (p :: hs) = followed hs := by
  have hlater : ∀ b ∈ hs, p.segment < b.segment := by
    intro b hb
    have hprecedes := hrest.precedes b hb
    unfold Place.Precedes at hprecedes
    simp only at hprecedes
    omega
  have hlast : ¬ p.IsFollowed hs := by
    rintro ⟨b, hb, hsegment, -⟩
    have := hlater b hb
    omega
  rw [followed_cons fun b hb => .inl (hlater b hb), if_neg hlast]

/-- Headers, payloads and padding fill the segments. -/
theorem bytes (h : m.Laid p hs q) (hq : q = m.nextBase) (hp : 0 ≤ p.offset) :
    p.offset + (hs.map fun a => 24 + (m.size a).toNat).sum + m.padding (followed hs) =
      ((m.regions.toList.drop p.segment).map UInt64.toNat).sum := by
  induction h with
  | nil p =>
      subst hq
      have hnone : m.regions.toList.drop m.nextBase.segment = [] := by simp [nextBase]
      rw [hnone]
      rfl
  | @inner p q hs hsize rest ih =>
      have hrest := ih hq (by rw [Place.add_offset]; omega)
      have hle := le_padded (m.size p).toNat
      rw [Place.add_segment, Place.add_offset] at hrest
      rw [followed_of_inner rest (hq ▸ rfl) hp, padding_cons, List.map_cons, List.sum_cons]
      omega
  | @last p q hs len hsize hregion hend rest ih =>
      obtain ⟨hlt, hlen⟩ := Array.getElem?_eq_some_iff.1 hregion
      have hrest := ih hq (Int.le_refl 0)
      rw [List.drop_eq_getElem_cons (by simpa using hlt), List.map_cons, List.sum_cons,
        Array.getElem_toList, hlen, followed_of_last rest, List.map_cons, List.sum_cons]
      simp only at hrest
      omega

theorem length_followed (h : m.Laid p hs q) (hq : q.offset = 0) (hp : 0 ≤ p.offset) :
    (followed hs).length + q.segment = p.segment + hs.length := by
  induction h with
  | nil p => simp [followed]
  | inner _ rest ih =>
      have hrest := ih hq (by rw [Place.add_offset]; omega)
      rw [Place.add_segment] at hrest
      rw [followed_of_inner rest hq hp, List.length_cons, List.length_cons]
      omega
  | last _ _ _ rest ih =>
      have hrest := ih hq (Int.le_refl 0)
      rw [followed_of_last rest, List.length_cons]
      simp only at hrest
      omega

end Laid

end Memory

def BlockInfo.isFree (b : BlockInfo) : Bool :=
  b.refcount == 0

/-- The payload bytes of these blocks, added up without bound. -/
def payloadBytes (bs : List BlockInfo) : Nat :=
  (bs.map fun b => b.size.toNat).sum

theorem payloadBytes_append (bs cs : List BlockInfo) :
    payloadBytes (bs ++ cs) = payloadBytes bs + payloadBytes cs := by
  simp [payloadBytes]

theorem payloadBytes_filter (bs : List BlockInfo) :
    payloadBytes (bs.filter fun b => !b.isFree) + payloadBytes (bs.filter BlockInfo.isFree) =
      payloadBytes bs := by
  induction bs with
  | nil => rfl
  | cons b bs ih =>
      unfold payloadBytes at ih ⊢
      cases hfree : b.isFree with
      | true =>
          rw [List.filter_cons_of_neg (by simp [hfree]), List.filter_cons_of_pos hfree,
            List.map_cons, List.map_cons, List.sum_cons, List.sum_cons]
          omega
      | false =>
          rw [List.filter_cons_of_pos (by simp [hfree]), List.filter_cons_of_neg (by simp [hfree]),
            List.map_cons, List.map_cons, List.sum_cons, List.sum_cons]
          omega

namespace Stats

/-- These are the totals of a list of blocks. -/
structure Sums (s : Stats) (bs : List BlockInfo) : Prop where
  blocks : s.blocks.toNat = bs.length
  freeBlocks : s.freeBlocks.toNat = (bs.filter BlockInfo.isFree).length
  liveBytes : s.liveBytes.toNat = payloadBytes (bs.filter fun b => !b.isFree)
  freeBytes : s.freeBytes.toNat = payloadBytes (bs.filter BlockInfo.isFree)

variable {s : Stats} {b : BlockInfo} {bs : List BlockInfo}

theorem Sums.liveBytes_add_freeBytes (h : s.Sums bs) :
    s.liveBytes.toNat + s.freeBytes.toNat = payloadBytes bs := by
  rw [h.liveBytes, h.freeBytes, payloadBytes_filter]

theorem Sums.count (h : s.Sums bs)
    (hroom : bs.length + 1 + (payloadBytes bs + b.size.toNat) < 2 ^ 64) :
    ∃ s', s.count b = .ok s' ∧ s'.Sums (bs ++ [b]) ∧ s'.segments = s.segments ∧
      s'.mappedBytes = s.mappedBytes := by
  have hbytes := h.liveBytes_add_freeBytes
  have hblocks := h.blocks
  have hfreeBlocks := List.length_filter_le BlockInfo.isFree bs
  rw [← h.freeBlocks] at hfreeBlocks
  obtain ⟨blocks, hsum⟩ := exists_toNat_eq (n := s.blocks.toNat + 1) (by omega)
  have hadd : Size.add s.blocks 1 = .ok blocks := add_eq_ok_iff.2 hsum.symm
  unfold Stats.count
  rw [hadd]
  by_cases hfree : b.refcount = 0
  · obtain ⟨freeBlocks, hsum'⟩ := exists_toNat_eq (n := s.freeBlocks.toNat + 1) (by omega)
    obtain ⟨freeBytes, hbytes'⟩ :=
      exists_toNat_eq (n := s.freeBytes.toNat + b.size.toNat) (by omega)
    have hadd' : Size.add s.freeBlocks 1 = .ok freeBlocks := add_eq_ok_iff.2 hsum'.symm
    have hadd'' : Size.add s.freeBytes b.size = .ok freeBytes := add_eq_ok_iff.2 hbytes'.symm
    have hisFree : b.isFree = true := by simpa [BlockInfo.isFree] using hfree
    refine ⟨{ s with blocks, freeBlocks, freeBytes }, ?_, ?_, rfl, rfl⟩
    · simp only [bind, Except.bind, if_pos hfree, hadd', hadd'']
      rfl
    · constructor <;>
        simp [hisFree, h.blocks, h.freeBlocks, h.liveBytes, h.freeBytes, hsum, hsum', hbytes',
          payloadBytes]
  · obtain ⟨liveBytes, hbytes'⟩ :=
      exists_toNat_eq (n := s.liveBytes.toNat + b.size.toNat) (by omega)
    have hadd' : Size.add s.liveBytes b.size = .ok liveBytes := add_eq_ok_iff.2 hbytes'.symm
    have hisFree : b.isFree = false := by simpa [BlockInfo.isFree] using hfree
    refine ⟨{ s with blocks, liveBytes }, ?_, ?_, rfl, rfl⟩
    · simp only [bind, Except.bind, if_neg hfree, hadd']
      rfl
    · constructor <;>
        simp [hisFree, h.blocks, h.freeBlocks, h.liveBytes, h.freeBytes, hsum, hbytes',
          payloadBytes]

theorem Sums.foldlM_count (h : s.Sums bs) (cs : List BlockInfo)
    (hroom : (bs ++ cs).length + payloadBytes (bs ++ cs) < 2 ^ 64) :
    ∃ s', cs.foldlM Stats.count s = .ok s' ∧ s'.Sums (bs ++ cs) ∧ s'.segments = s.segments ∧
      s'.mappedBytes = s.mappedBytes := by
  induction cs generalizing s bs with
  | nil => exact ⟨s, rfl, by rwa [List.append_nil], rfl, rfl⟩
  | cons b cs ih =>
      rw [List.append_cons] at hroom ⊢
      have hfirst := hroom
      rw [payloadBytes_append, payloadBytes_append, List.length_append,
        List.length_append] at hfirst
      obtain ⟨mid, hcount, hmid, hsegments, hmapped⟩ := h.count (b := b) (by
        simp [payloadBytes] at hfirst ⊢
        omega)
      obtain ⟨s', hrest, hs', hsegments', hmapped'⟩ := ih hmid hroom
      refine ⟨s', ?_, hs', hsegments'.trans hsegments, hmapped'.trans hmapped⟩
      rw [List.foldlM_cons, hcount]
      exact hrest

end Stats

namespace Heap

variable {σ : Type} {h h' : Heap σ} {hs : List Place} {call : Call}

theorem Formed.bytes (hf : h.Formed hs) :
    (hs.map fun a => 24 + (h.memory.size a).toNat).sum + h.memory.padding (followed hs) =
      h.mappedBytes.toNat := by
  have hbytes := hf.laid.bytes rfl (Int.le_refl 0)
  rw [List.drop_zero, ← hf.mapped] at hbytes
  simp only at hbytes
  omega

theorem sum_headers (m : Memory) (hs : List Place) :
    (hs.map fun a => 24 + (m.size a).toNat).sum =
      24 * hs.length + payloadBytes (hs.map m.info) := by
  rw [List.sum_map_add, List.map_const', List.sum_replicate, payloadBytes, List.map_map,
    smul_eq_mul, Nat.mul_comm]
  rfl

theorem Formed.stats_eq (hf : h.Formed hs) :
    ∃ s, h.stats = .ok s ∧ s.Sums (hs.map h.memory.info) ∧ s.segments = h.segments ∧
      s.mappedBytes = h.mappedBytes := by
  have hlt := h.mappedBytes.toNat_lt
  have hbytes := hf.bytes
  rw [sum_headers] at hbytes
  have hzero :
      Stats.Sums { Stats.zero with segments := h.segments, mappedBytes := h.mappedBytes } [] :=
    ⟨rfl, rfl, rfl, rfl⟩
  obtain ⟨s, hstats, hsums, hsegments, hmapped⟩ := hzero.foldlM_count (hs.map h.memory.info) (by
    rw [List.nil_append, List.length_map]
    omega)
  refine ⟨s, ?_, hsums, hsegments, hmapped⟩
  rw [stats, hf.blocks_eq]
  exact hstats

variable [PageSource σ] {trace : List (Call × Except Failure (Option Place))}

theorem step_mapped (hf : h.Formed hs) (hpermits : h.Permits call) :
    ∃ asked, Mapped h asked (final (perform call h)) := by
  cases call with
  | acquire _ | duplicate _ _ _ => exact request_mapped hf rfl
  | retain p =>
      refine ⟨[], ?_⟩
      simp only [perform, run_bind, hf.retain_eq (hf.names_iff.1 hpermits)]
      cases Size.add (h.memory.refcount p.header) 1 with
      | ok _ => exact .of_same rfl (h.memory.regions_addRefcount p.header 1)
      | error _ => exact .of_same rfl rfl
  | release p =>
      refine ⟨[], ?_⟩
      simp only [perform, run_bind, hf.release_eq (hf.names_iff.1 hpermits), run_pure]
      refine .of_same rfl ?_
      show (if _ then _ else _ : Memory).regions = _
      split
      · rfl
      · exact h.memory.regions_addRefcount p.header (-1)
  | releaseClosure w =>
      obtain ⟨nodes, hnodes, hw⟩ := hpermits
      obtain rfl := hf.unique hnodes
      refine ⟨[], ?_⟩
      obtain ⟨m, log, hm, hrun | ⟨failure, hrun⟩⟩ := releaseClosure_recounted hf hw
      · simp only [perform, run_bind, hrun, run_pure]
        exact .of_same rfl hm.regions
      · simp only [perform, run_bind, hrun]
        exact .of_same rfl hm.regions
  | write p offset cells => exact ⟨[], .of_same rfl (h.memory.regions_write p offset cells)⟩

theorem History.mapped (hhistory : History h trace h') (hf : h.Formed hs) :
    ∃ asked, Mapped h asked h' := by
  induction hhistory generalizing hs with
  | nil h => exact ⟨[], .of_same rfl rfl⟩
  | cons hpermits hresult hgoes _ ih =>
      subst hresult
      obtain ⟨hs₁, hstep⟩ := step_persists hf hpermits hgoes
      obtain ⟨asked, hmapped⟩ := step_mapped hf hpermits
      obtain ⟨more, hmore⟩ := ih hstep.formed
      exact ⟨asked ++ more, hmapped.trans hmore⟩

/-- The totals that a heap reports after any history. They can be added up, and count the
segments that the source has granted and the blocks in the chain. The mapped bytes are those of
payloads, live and free, 24 for each header, and the padding of the blocks that are not the last
ones of their segments. -/
theorem stats_account_for_mapped_bytes (config : Config) (source : σ)
    (hhistory : History (empty config source) trace h) :
    ∃ s asked hs, h.stats = .ok s ∧ h.chain.nodes h.memory = .ok hs ∧
      s.Sums (hs.map h.memory.info) ∧ h.source = PageSource.askAll source asked ∧
      h.memory.regions.toList = PageSource.granted source asked ∧
      s.segments.toNat = (PageSource.granted source asked).length ∧
      s.mappedBytes.toNat = ((PageSource.granted source asked).map UInt64.toNat).sum ∧
      (∀ layout, h.describe layout = Text.record layout "Heap"
        [("config", h.config.describe layout), ("segments", toString s.segments),
          ("mapped_bytes", toString s.mappedBytes), ("blocks", toString s.blocks)]) ∧
      s.blocks = h.chain.length ∧
      s.mappedBytes.toNat = s.liveBytes.toNat + s.freeBytes.toNat + 24 * s.blocks.toNat +
        h.memory.padding (followed hs) ∧
      0 ≤ (s.mappedBytes.toNat - s.liveBytes.toNat - s.freeBytes.toNat -
        24 * s.blocks.toNat : Int) ∧
      (s.mappedBytes.toNat - s.liveBytes.toNat - s.freeBytes.toNat - 24 * s.blocks.toNat : Int) ≤
        7 * (s.blocks.toNat - s.segments.toNat) := by
  obtain ⟨hs, hpersists⟩ := hhistory.persists (formed_empty config source)
  obtain ⟨asked, hmapped⟩ := hhistory.mapped (formed_empty config source)
  have hf := hpersists.formed
  obtain ⟨s, hstats, hsums, hsegments, hbytes⟩ := hf.stats_eq
  have hregions : h.memory.regions.toList = PageSource.granted source asked := hmapped.regions
  have hblocks : s.blocks = h.chain.length := by
    rw [← UInt64.toNat_inj, hsums.blocks, List.length_map, hf.length]
  have htotal : s.mappedBytes.toNat = s.liveBytes.toNat + s.freeBytes.toNat + 24 * s.blocks.toNat +
      h.memory.padding (followed hs) := by
    have hall := hf.bytes
    rw [sum_headers, ← hsums.liveBytes_add_freeBytes] at hall
    rw [hbytes, ← hall, hsums.blocks, List.length_map]
    omega
  have hpadding : h.memory.padding (followed hs) + 7 * s.segments.toNat ≤ 7 * s.blocks.toNat := by
    have hle := h.memory.padding_le (followed hs)
    have hcount : (followed hs).length + h.memory.regions.size = 0 + hs.length :=
      hf.laid.length_followed rfl (Int.le_refl 0)
    rw [hsegments, hf.segments, hsums.blocks, List.length_map]
    omega
  refine ⟨s, asked, hs, hstats, hf.nodes_eq, hsums, hmapped.source, hregions, ?_, ?_, ?_,
    hblocks, htotal, ?_, ?_⟩
  · rw [hsegments, hf.segments, ← hregions, Array.length_toList]
  · rw [hbytes, hf.mapped, hregions]
  · intro layout
    rw [describe, hsegments, hbytes, hblocks]
  · omega
  · omega

omit [PageSource σ] in
theorem requested_askAll {τ : Type} [PageSource τ] (r : Recorded τ) (lens : List UInt64) :
    (PageSource.askAll r lens).requested.toList = r.requested.toList ++ lens := by
  induction lens generalizing r with
  | nil => exact (List.append_nil _).symm
  | cons len lens ih =>
      have hstep :
          PageSource.askAll r (len :: lens) = PageSource.askAll (PageSource.ask r len).2 lens := rfl
      have hpush : (PageSource.ask r len).2.requested = r.requested.push len := rfl
      rw [hstep, ih, hpush, Array.toList_push, List.append_assoc, List.singleton_append]

section Odd

/-- A source that refuses the second request, and remembers what it was asked for. -/
def oddPages : Recorded Ration :=
  ⟨⟨[1], none, none, false, 0⟩, #[]⟩

/-- Odd sizes in two segments. One request is refused, and one block is given back. -/
def oddCalls : List (Call × Except Failure (Option Place)) :=
  [(.acquire 10, .ok (some ⟨0, 24⟩)), (.acquire 60, .error (.refused (.mapFailed 100))),
    (.acquire 30, .ok (some ⟨0, 64⟩)), (.acquire 20, .ok (some ⟨1, 24⟩)),
    (.release ⟨0, 24⟩, .ok none)]

def oddHeap : Heap (Recorded Ration) :=
  oddCalls.foldl (fun h step => final (perform step.1 h)) (empty (.ofSegmentSize 100) oddPages)

theorem oddCalls_history : History (empty (.ofSegmentSize 100) oddPages) oddCalls oddHeap := by
  refine .cons trivial (by decide +kernel) (by simp) ?_
  refine .cons trivial (by decide +kernel) (by simp) ?_
  refine .cons trivial (by decide +kernel) (by simp) ?_
  refine .cons trivial (by decide +kernel) (by simp) ?_
  exact .cons (permits_of_checks (by decide +kernel)) (by decide +kernel) (by simp) (.nil _)

/-- The lengths are those that the source remembers. -/
theorem oddHeap_accounted :
    oddHeap.source.requested = #[100, 100, 100] ∧
      ∃ s hs, oddHeap.stats = .ok s ∧ oddHeap.chain.nodes oddHeap.memory = .ok hs ∧
        s.Sums (hs.map oddHeap.memory.info) ∧
        s.segments.toNat = (PageSource.granted oddPages oddHeap.source.requested.toList).length ∧
        s.mappedBytes.toNat =
          ((PageSource.granted oddPages oddHeap.source.requested.toList).map UInt64.toNat).sum ∧
        s.blocks = oddHeap.chain.length ∧
        s.mappedBytes.toNat = s.liveBytes.toNat + s.freeBytes.toNat + 24 * s.blocks.toNat +
          oddHeap.memory.padding (followed hs) := by
  obtain ⟨s, asked, hs, hstats, hnodes, hsums, hsource, -, hsegments, hmapped, -, hblocks,
    htotal, -, -⟩ :=
    stats_account_for_mapped_bytes _ _ oddCalls_history
  have hasked : oddHeap.source.requested.toList = asked := by
    rw [hsource]
    exact requested_askAll oddPages asked
  rw [← hasked] at hsegments hmapped
  exact ⟨by decide +kernel, s, hs, hstats, hnodes, hsums, hsegments, hmapped, hblocks, htotal⟩

end Odd

end Heap

end CountedHeap
