import CountedHeap.Heap.Report
import CountedHeap.Proofs.Outcomes
import CountedHeap.Proofs.Runs

namespace CountedHeap

open Size

instance (size available : UInt64) : Decidable (WorthCutting size available) :=
  inferInstanceAs (Decidable (_ ∧ _))

namespace BlockInfo

/-- The block is free and has room for `size` bytes. -/
def Fits (size : UInt64) (b : BlockInfo) : Prop :=
  b.refcount = 0 ∧ size ≤ b.size

instance (size : UInt64) (b : BlockInfo) : Decidable (b.Fits size) :=
  inferInstanceAs (Decidable (_ ∧ _))

/-- What a free block turns into when it is handed out for `size` bytes. -/
def handOut (size : UInt64) (b : BlockInfo) : List BlockInfo :=
  if WorthCutting size b.size then
    [⟨b.payload, size, 1⟩,
      ⟨b.payload + (padded size.toNat + 24), .ofNat (b.size.toNat - padded size.toNat - 24), 0⟩]
  else [⟨b.payload, b.size, 1⟩]

theorem handOut_whole {size : UInt64} {b : BlockInfo} (hsmall : ¬ WorthCutting size b.size) :
    b.handOut size = [⟨b.payload, b.size, 1⟩] :=
  if_neg hsmall

theorem handOut_cut {size : UInt64} {b : BlockInfo} (hlarge : WorthCutting size b.size) :
    b.handOut size = [⟨b.payload, size, 1⟩,
      ⟨b.payload + (padded size.toNat + 24), .ofNat (b.size.toNat - padded size.toNat - 24), 0⟩] :=
  if_pos hlarge

end BlockInfo

/-- Hands out the first block of a list that fits: its payload, and the list after that. -/
def firstFit (size : UInt64) : List BlockInfo → Option (Place × List BlockInfo)
  | [] => none
  | b :: bs =>
    if b.Fits size then some (b.payload, b.handOut size ++ bs)
    else (firstFit size bs).map fun (p, bs') => (p, b :: bs')

section Lists

variable {size : UInt64} {bs bs' front back : List BlockInfo} {b : BlockInfo} {p : Place}

theorem firstFit_append (hfront : ∀ c ∈ front, ¬ c.Fits size) :
    firstFit size (front ++ bs) = (firstFit size bs).map fun (p, bs') => (p, front ++ bs') := by
  induction front with
  | nil => simp
  | cons c front ih =>
      rw [List.cons_append, firstFit, if_neg (hfront c List.mem_cons_self),
        ih fun d hd => hfront d (List.mem_cons_of_mem _ hd), Option.map_map]
      rfl

theorem firstFit_of_fits (hfront : ∀ c ∈ front, ¬ c.Fits size) (hb : b.Fits size) :
    firstFit size (front ++ b :: back) = some (b.payload, front ++ b.handOut size ++ back) := by
  rw [firstFit_append hfront, firstFit, if_pos hb, List.append_assoc]
  rfl

theorem exists_of_firstFit (h : firstFit size bs = some (p, bs')) :
    ∃ front b back, bs = front ++ b :: back ∧ (∀ c ∈ front, ¬ c.Fits size) ∧ b.Fits size ∧
      p = b.payload ∧ bs' = front ++ b.handOut size ++ back := by
  induction bs generalizing bs' with
  | nil => cases h
  | cons c bs ih =>
      rw [firstFit] at h
      split at h
      · rename_i hfits
        cases h
        exact ⟨[], c, bs, rfl, by simp, hfits, rfl, rfl⟩
      · rename_i hfits
        obtain ⟨⟨q, rest⟩, hrest, heq⟩ := Option.map_eq_some_iff.1 h
        cases heq
        obtain ⟨front, b, back, rfl, hfront, hb, rfl, rfl⟩ := ih hrest
        exact ⟨c :: front, b, back, rfl, List.forall_mem_cons.2 ⟨hfits, hfront⟩, hb, rfl, rfl⟩

theorem back_eq_nil {last : BlockInfo} (hfull : ¬ ∃ c ∈ bs, c.Fits size)
    (hsplit : bs ++ [last] = front ++ b :: back) (hb : b.Fits size) : back = [] := by
  rcases List.eq_nil_or_concat back with rfl | ⟨init, d, rfl⟩
  · rfl
  · -- With something behind it, the block that fits stands in front of the last one.
    rw [List.concat_eq_append, ← List.cons_append, ← List.append_assoc] at hsplit
    obtain ⟨rfl, -⟩ := List.append_inj' hsplit rfl
    exact (hfull ⟨b, by simp, hb⟩).elim

/-- The blocks of new segments, numbered from `segment` on. -/
def freshBlocks (segment : Nat) : List UInt64 → List BlockInfo
  | [] => []
  | len :: lens => ⟨⟨segment, 24⟩, len - headerSize, 0⟩ :: freshBlocks (segment + 1) lens

theorem freshBlocks_append {segment : Nat} {lens more : List UInt64} :
    freshBlocks segment (lens ++ more) =
      freshBlocks segment lens ++ freshBlocks (segment + lens.length) more := by
  induction lens generalizing segment with
  | nil => rfl
  | cons len lens ih =>
      rw [List.cons_append, freshBlocks, freshBlocks, ih, List.length_cons,
        Nat.add_comm lens.length, Nat.add_assoc]
      rfl

end Lists

namespace Memory

/-- What is shown of the block at `a`. -/
def info (m : Memory) (a : Place) : BlockInfo :=
  ⟨a.payload, m.size a, m.refcount a⟩

variable {m m' : Memory} {a : Place}

theorem Keeps.info (h : m.Keeps m' a) : m'.info a = m.info a := by
  rw [Memory.info, h.size, h.refcount, Memory.info]

end Memory

namespace Heap

variable {σ : Type} {h h' : Heap σ} {hs hs' : List Place} {a p : Place} {size : UInt64}

theorem Formed.blocks_eq (hf : h.Formed hs) : h.blocks = .ok (hs.map h.memory.info) := by
  rw [blocks, hf.nodes_eq]
  rfl

theorem fits_iff {m : Memory} : Heap.fits m size a = true ↔ (m.info a).Fits size := by
  simp [Heap.fits, Memory.isFree, BlockInfo.Fits, Memory.info]

theorem not_fits_of_find? {front back : List Place} {test : Place → Bool}
    (hnodup : (front ++ a :: back).Nodup) (hfind : (front ++ a :: back).find? test = some a) :
    ∀ c ∈ front, test c = false := by
  have ha : a ∉ front := (List.nodup_middle.1 hnodup).notMem ∘ List.mem_append_left _
  rw [List.find?_append] at hfind
  cases hfront : front.find? test with
  | none => simpa using List.find?_eq_none.1 hfront
  | some c =>
      rw [hfront] at hfind
      cases hfind
      exact (ha (List.mem_of_find?_eq_some hfront)).elim

theorem Formed.info_of_ne {m : Memory} {b : Place} (hf : h.Formed hs) (ha : a ∈ hs) (hb : b ∈ hs)
    (hne : b ≠ a) (hcells : Set.EqOn m.cell h.memory.cell (h.memory.extent a)ᶜ) :
    m.info b = h.memory.info b := by
  have hextent := hf.laid.untouched hb ha hne hcells
  exact Memory.Keeps.info (hextent.mono (h.memory.body_subset_extent b))

theorem Taken.firstFit_of_pieces {front back : List Place} (pieces : List Place)
    (htaken : Taken h (front ++ a :: back) a size h' (front ++ (pieces ++ back)))
    (hf : h.Formed (front ++ a :: back))
    (hfind : (front ++ a :: back).find? (Heap.fits h.memory size) = some a)
    (hpieces : pieces.map h'.memory.info = (h.memory.info a).handOut size) :
    firstFit size ((front ++ a :: back).map h.memory.info) =
      some (a.payload, (front ++ (pieces ++ back)).map h'.memory.info) := by
  have hnot := (List.nodup_middle.1 hf.laid.nodup).notMem
  have hothers {part : List Place} (hpart : part ⊆ front ++ back) :
      part.map h'.memory.info = part.map h.memory.info := by
    apply List.map_congr_left
    intro b hb
    have hmem := List.perm_middle.symm.subset (List.mem_cons_of_mem a (hpart hb))
    exact hf.info_of_ne (by simp) hmem (ne_of_mem_of_not_mem (hpart hb) hnot) htaken.handed.eqOn
  have hfront : ∀ c ∈ front.map h.memory.info, ¬ c.Fits size := by
    rw [List.forall_mem_map]
    intro c hc hfits
    have hfalse := not_fits_of_find? hf.laid.nodup hfind c hc
    rw [fits_iff.2 hfits] at hfalse
    cases hfalse
  rw [List.map_append, List.map_cons, firstFit_of_fits hfront (fits_iff.1 (List.find?_some hfind)),
    List.map_append, List.map_append, hpieces, hothers (List.subset_append_left _ _),
    hothers (List.subset_append_right _ _), List.append_assoc]
  rfl

theorem Taken.firstFit_eq (htaken : Taken h hs a size h' hs') (hf : h.Formed hs)
    (hfind : hs.find? (Heap.fits h.memory size) = some a) :
    firstFit size (hs.map h.memory.info) = some (a.payload, hs'.map h'.memory.info) := by
  cases htaken.handed with
  | whole hsmall hsize _ =>
      obtain ⟨front, back, rfl⟩ := List.append_of_mem (List.mem_of_find?_eq_some hfind)
      refine Taken.firstFit_of_pieces [a] htaken hf hfind ?_
      rw [BlockInfo.handOut_whole (b := h.memory.info a) hsmall, List.map_singleton,
        Memory.info, hsize, htaken.count]
      rfl
  | @cut front back rest hlarge hsize hrest hroom hfree _ =>
      refine Taken.firstFit_of_pieces [a, rest] htaken hf hfind ?_
      have hplace : rest.payload = a.payload + (padded size.toNat + 24) := by
        rw [hrest, Place.payload, Place.add_add]
      have hrestSize : h'.memory.size rest =
          .ofNat ((h.memory.size a).toNat - padded size.toNat - 24) := by
        have hlt := (h.memory.size a).toNat_lt
        rw [← UInt64.toNat_inj, UInt64.toNat_ofNat_of_lt' (by rw [UInt64.size]; omega)]
        omega
      rw [BlockInfo.handOut_cut (b := h.memory.info a) hlarge, List.map_cons, List.map_singleton,
        Memory.info, Memory.info, hsize, htaken.count, hplace, hrestSize, hfree]
      rfl

variable [PageSource σ] {asked : List UInt64}

/-- The heap `h'` is `h` with segments of these lengths, each of them one free block. -/
structure Stocked (h : Heap σ) (hs : List Place) (asked : List UInt64) (h' : Heap σ)
    (hs' : List Place) :
    Prop where
  formed : h'.Formed hs'
  blocks : hs'.map h'.memory.info = hs.map h.memory.info ++ freshBlocks h.memory.regions.size asked
  mapped : Mapped h asked h'
  granted : PageSource.granted h.source asked = asked
  config : h'.config = h.config

namespace Stocked

theorem refl (hf : h.Formed hs) : Stocked h hs [] h hs where
  formed := hf
  blocks := by rw [freshBlocks, List.append_nil]
  mapped := .of_same rfl rfl
  granted := rfl
  config := rfl

theorem regions (hstocked : Stocked h hs asked h' hs') :
    h'.memory.regions.toList = h.memory.regions.toList ++ asked := by
  rw [hstocked.mapped.regions, hstocked.granted]

theorem regions_size (hstocked : Stocked h hs asked h' hs') :
    h'.memory.regions.size = h.memory.regions.size + asked.length := by
  rw [← Array.length_toList, hstocked.regions, List.length_append, Array.length_toList]

theorem trans {mid : Heap σ} {hs₁ : List Place} {more : List UInt64}
    (hfirst : Stocked h hs asked mid hs₁)
    (hsecond : Stocked mid hs₁ more h' hs') : Stocked h hs (asked ++ more) h' hs' where
  formed := hsecond.formed
  blocks := by
    rw [hsecond.blocks, hfirst.blocks, hfirst.regions_size, freshBlocks_append, List.append_assoc]
  mapped := hfirst.mapped.trans hsecond.mapped
  granted := by
    rw [PageSource.granted_append, hfirst.granted, ← hfirst.mapped.source, hsecond.granted]
  config := hsecond.config.trans hfirst.config

end Stocked

theorem Extends.stocked {len : UInt64} {first : Place} (hext : Extends h hs len first h') :
    Stocked h hs [len] h' (hs ++ [first]) where
  formed := hext.formed
  blocks := by
    have hsize : h'.memory.size first = len - headerSize := by
      have hsum := hext.size
      have hheader : headerSize.toNat = 24 := rfl
      rw [← UInt64.toNat_inj, UInt64.toNat_sub_of_le _ _ (UInt64.le_iff_toNat_le.2 (by omega))]
      omega
    have hkept : hs.map h'.memory.info = hs.map h.memory.info :=
      List.map_congr_left fun a ha => (hext.kept a ha).info
    rw [List.map_append, hkept, List.map_singleton, Memory.info, hsize, hext.free, hext.base]
    rfl
  mapped := .of_push hext.granted hext.source hext.regions
  granted := by
    rw [PageSource.granted, if_pos hext.granted]
    rfl
  config := hext.config

theorem ensureMapped_stocked {u : Unit} (hf : h.Formed hs) (hrun : ensureMapped h = .ok u h') :
    ∃ hs', Stocked h hs (if hs = [] then [h.config.segmentSize] else []) h' hs' := by
  rcases ensureMapped_eq_ok hf hrun with ⟨hfilled, rfl⟩ | ⟨hempty, first, hext⟩
  · rw [if_neg hfilled]
    exact ⟨hs, .refl hf⟩
  · rw [if_pos hempty]
    exact ⟨_, hext.stocked⟩

/-- The segment that is mapped for a request of `size` bytes itself: none when one of the blocks
fits, else one that has room for it and is not below the least length. -/
def OwnSegment (minimum size : UInt64) (bs : List BlockInfo) (own : List UInt64) : Prop :=
  if ∃ b ∈ bs, b.Fits size then own = []
  else ∃ len, own = [len] ∧ len.toNat = max (size.toNat + 24) minimum.toNat

omit [PageSource σ] in
theorem exists_fits_iff {m : Memory} :
    (∃ b ∈ hs.map m.info, b.Fits size) ↔ ∃ a ∈ hs, Heap.fits m size a = true := by
  simp [fits_iff]

theorem chooseBlock_stocked (hf : h.Formed hs) (hrun : chooseBlock size h = .ok a h') :
    ∃ own hs', OwnSegment h.config.segmentSize size (hs.map h.memory.info) own ∧
      Stocked h hs own h' hs' ∧ hs'.find? (Heap.fits h'.memory size) = some a := by
  rcases chooseBlock_eq_ok hf hrun with ⟨hfind, rfl⟩ | ⟨hnone, len, hlen, hext⟩
  · refine ⟨[], hs, ?_, .refl hf, hfind⟩
    have hfits := exists_fits_iff.2 ⟨a, List.mem_of_find?_eq_some hfind, List.find?_some hfind⟩
    rw [OwnSegment, if_pos hfits]
  · refine ⟨[len], _, ?_, hext.stocked, hext.find?_eq hlen hnone⟩
    have hfull : ¬ ∃ b ∈ hs.map h.memory.info, b.Fits size := by
      rw [exists_fits_iff]
      simpa using hnone
    rw [OwnSegment, if_neg hfull]
    exact ⟨len, rfl, segmentLength_eq_ok hlen⟩

theorem acquire_firstFit (hf : h.Formed hs) (hrun : acquire size h = .ok (some p) h') :
    ∃ first own mid hs₁ hs', first = (if hs = [] then [h.config.segmentSize] else []) ∧
      OwnSegment h.config.segmentSize size
        (hs.map h.memory.info ++ freshBlocks h.memory.regions.size first) own ∧
      Stocked h hs (first ++ own) mid hs₁ ∧ Mapped mid [] h' ∧ h'.Formed hs' ∧
      firstFit size (hs₁.map mid.memory.info) = some (p, hs'.map h'.memory.info) := by
  rcases eq_or_ne size 0 with rfl | hsize
  · cases hrun
  · obtain ⟨h₁, a, mid, p, hmapped, hchoose, htake, heq⟩ := (acquire_eq_ok_iff hsize).1 hrun
    cases heq
    obtain ⟨hs₀, hstocked⟩ := ensureMapped_stocked hf hmapped
    obtain ⟨own, hs₁, hown, hstocked', hfind⟩ := chooseBlock_stocked hstocked.formed hchoose
    obtain ⟨rfl, hs', htaken⟩ := takeBlock_eq_ok hstocked'.formed (List.mem_of_find?_eq_some hfind)
      (toNat_pos_of_ne_zero hsize) htake
    rw [hstocked.config, hstocked.blocks] at hown
    exact ⟨_, own, mid, hs₁, hs', rfl, hown, hstocked.trans hstocked',
      .of_same htaken.source htaken.regions, htaken.formed,
      htaken.firstFit_eq hstocked'.formed hfind⟩

/-- What a request that is served does to the list of blocks. An empty heap maps its first segment;
when still no block fits, a segment for the request is mapped behind all others. The first block
that fits is handed out, whole or cut in two, and the others are as they were. -/
theorem acquire_serves_first_fit (config : Config) (source : σ) {trace : List (Call × Option Place)}
    (hreach : Run (empty config source) trace h) (hrun : acquire size h = .ok (some p) h') :
    ∃ bs first own front b back,
      h.blocks = .ok bs ∧
      first = (if bs = [] then [h.config.segmentSize] else []) ∧
      OwnSegment h.config.segmentSize size (bs ++ freshBlocks h.memory.regions.size first) own ∧
      h'.source = PageSource.askAll h.source (first ++ own) ∧
      PageSource.granted h.source (first ++ own) = first ++ own ∧
      h'.memory.regions.toList = h.memory.regions.toList ++ (first ++ own) ∧
      bs ++ freshBlocks h.memory.regions.size (first ++ own) = front ++ b :: back ∧
      (∀ c ∈ front, ¬ c.Fits size) ∧ b.Fits size ∧ (own ≠ [] → back = []) ∧
      p = b.payload ∧ h'.blocks = .ok (front ++ b.handOut size ++ back) := by
  obtain ⟨hs, hf, -⟩ := hreach.formed (formed_empty config source)
  obtain ⟨first, own, mid, hs₁, hs', hfirst, hown, hstocked, hmapped, hf', hfit⟩ :=
    acquire_firstFit hf hrun
  obtain ⟨front, b, back, hsplit, hfront, hb, hp, hblocks⟩ := exists_of_firstFit hfit
  rw [hstocked.blocks] at hsplit
  have hall := hstocked.mapped.trans hmapped
  rw [List.append_nil] at hall
  refine ⟨hs.map h.memory.info, first, own, front, b, back, hf.blocks_eq, ?_, hown, hall.source,
    hstocked.granted, ?_, hsplit, hfront, hb, ?_, hp, ?_⟩
  · simpa using hfirst
  · rw [hall.regions, hstocked.granted]
  · intro hne
    rw [OwnSegment] at hown
    split at hown
    · exact (hne hown).elim
    · rename_i hfull
      obtain ⟨len, rfl, -⟩ := hown
      rw [freshBlocks_append, ← List.append_assoc] at hsplit
      exact back_eq_nil hfull hsplit hb
  · rw [hf'.blocks_eq, hblocks]

section Reused

def reusedCalls : List (Call × Option Place) :=
  [(.acquire 30, some ⟨0, 24⟩), (.acquire 60, some ⟨0, 80⟩), (.release ⟨0, 24⟩, none)]

def reusedHeap : Heap (Recorded SystemPages) :=
  afterAll (empty (.ofSegmentSize 200) ⟨⟨⟩, #[]⟩) reusedCalls

theorem reusedCalls_run : Run (empty (.ofSegmentSize 200) ⟨⟨⟩, #[]⟩) reusedCalls reusedHeap :=
  .of_plays (by decide +kernel)

/-- The one free block is too small, so a segment is mapped and cut. -/
theorem reusedHeap_served :
    ∃ bs first own front b back,
      reusedHeap.blocks = .ok bs ∧
      first = (if bs = [] then [reusedHeap.config.segmentSize] else []) ∧
      OwnSegment reusedHeap.config.segmentSize 40
        (bs ++ freshBlocks reusedHeap.memory.regions.size first) own ∧
      (final (acquire 40 reusedHeap)).source =
        PageSource.askAll reusedHeap.source (first ++ own) ∧
      PageSource.granted reusedHeap.source (first ++ own) = first ++ own ∧
      (final (acquire 40 reusedHeap)).memory.regions.toList =
        reusedHeap.memory.regions.toList ++ (first ++ own) ∧
      bs ++ freshBlocks reusedHeap.memory.regions.size (first ++ own) = front ++ b :: back ∧
      (∀ c ∈ front, ¬ c.Fits 40) ∧ b.Fits 40 ∧ (own ≠ [] → back = []) ∧
      (⟨1, 24⟩ : Place) = b.payload ∧
      (final (acquire 40 reusedHeap)).blocks = .ok (front ++ b.handOut 40 ++ back) :=
  acquire_serves_first_fit _ _ reusedCalls_run (eq_ok_of_outcome (by decide +kernel))

end Reused

end Heap

end CountedHeap
