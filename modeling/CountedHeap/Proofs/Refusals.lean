import CountedHeap.Proofs.FirstFit
import CountedHeap.Proofs.Persistence

namespace CountedHeap

theorem segmentLength_eq_ok_iff {size minimum len : UInt64} :
    segmentLength size minimum = .ok len ↔ len.toNat = max (size.toNat + 24) minimum.toNat := by
  constructor
  · exact Heap.segmentLength_eq_ok
  · intro hlen
    have hlt := len.toNat_lt
    obtain ⟨sum, hsum⟩ := Size.exists_toNat_eq (n := size.toNat + 24) (by omega)
    have hadd : Size.add? size headerSize = some sum := Size.add?_eq_some_iff.2 hsum.symm
    have hmax : max sum minimum = len := by
      rw [← UInt64.toNat_inj, Size.toNat_max, hsum, hlen]
    rw [segmentLength, hadd, ← hmax]

theorem segmentLength_eq_error_iff {size minimum : UInt64} {cause : Refusal} :
    segmentLength size minimum = .error cause ↔
      2 ^ 64 ≤ size.toNat + 24 ∧ cause = .sizeOverflow size := by
  have hnone : Size.add? size headerSize = none ↔ 2 ^ 64 ≤ size.toNat + 24 := Size.add?_eq_none_iff
  rw [← hnone, segmentLength]
  cases Size.add? size headerSize with
  | none => simp [eq_comm]
  | some sum => simp

namespace Heap

variable {σ : Type} {h h' mid : Heap σ} {hs : List Place} {size len : UInt64} {cause : Refusal}
  {bs : List BlockInfo}

/-- The second heap has the chain, the memory and the counters of the first. -/
structure Intact (h h' : Heap σ) : Prop where
  chain : h'.chain = h.chain
  memory : h'.memory = h.memory
  segments : h'.segments = h.segments
  mappedBytes : h'.mappedBytes = h.mappedBytes

theorem Intact.blocks_eq (hintact : h.Intact h') : h'.blocks = h.blocks := by
  rw [blocks, blocks, hintact.chain, hintact.memory]

variable [PageSource σ]

theorem turnedDown_intact (h : Heap σ) (len : UInt64) : h.Intact (h.turnedDown len) :=
  ⟨rfl, rfl, rfl, rfl⟩

/-- Why a heap with these blocks refuses a request for `size` bytes, and the heap that it leaves. -/
inductive Refuses (h : Heap σ) (size : UInt64) (bs : List BlockInfo) : Refusal → Heap σ → Prop
  | tooLong (hfull : ¬ ∃ b ∈ bs, b.Fits size) (hlong : 2 ^ 64 ≤ size.toNat + 24) :
      Refuses h size bs (.sizeOverflow size) h
  | noPages {len : UInt64} (hfull : ¬ ∃ b ∈ bs, b.Fits size)
      (hlen : len.toNat = max (size.toNat + 24) h.config.segmentSize.toNat)
      (hdenied : (PageSource.ask h.source len).1.granted = false) :
      Refuses h size bs (.mapFailed len) (h.turnedDown len)

theorem Refuses.intact (hrefuses : h.Refuses size bs cause h') : h.Intact h' := by
  cases hrefuses with
  | tooLong => exact ⟨rfl, rfl, rfl, rfl⟩
  | noPages => exact turnedDown_intact h _

theorem addSegment_refused_iff (hlong : 24 < len.toNat) :
    addSegment len h = .error (.refused cause) h' ↔
      (PageSource.ask h.source len).1.granted = false ∧ cause = .mapFailed len ∧
        h' = h.turnedDown len := by
  constructor
  · intro hrun
    obtain ⟨hdenied, -, -⟩ := addSegment_eq_refused hrun
    rw [addSegment_of_denied hlong hdenied] at hrun
    cases hrun
    exact ⟨hdenied, rfl, rfl⟩
  · rintro ⟨hdenied, rfl, rfl⟩
    exact addSegment_of_denied hlong hdenied

theorem chooseBlock_refused_iff (hf : h.Formed hs) :
    chooseBlock size h = .error (.refused cause) h' ↔
      h.Refuses size (hs.map h.memory.info) cause h' := by
  rw [chooseBlock, run_bind, findFree_eq hf]
  cases hfind : hs.find? (fits h.memory size) with
  | some a =>
      have hfits := exists_fits_iff.2 ⟨a, List.mem_of_find?_eq_some hfind, List.find?_some hfind⟩
      constructor
      · intro hrun
        cases hrun
      · intro hrefuses
        cases hrefuses with
        | tooLong hfull _ => exact (hfull hfits).elim
        | noPages hfull _ _ => exact (hfull hfits).elim
  | none =>
      have hfull : ¬ ∃ b ∈ hs.map h.memory.info, b.Fits size := by
        rw [exists_fits_iff]
        simpa using hfind
      have hmin := h.config.long
      simp only [bind_eq_error_iff, run_get, EStateM.Result.ok.injEq, reduceCtorEq, false_or,
        orRefuse_eq_ok_iff, orRefuse_eq_error_iff, segmentLength_eq_ok_iff,
        segmentLength_eq_error_iff]
      constructor
      · rintro ⟨_, _, ⟨rfl, rfl⟩, ⟨_, ⟨hlong, rfl⟩, hcause, rfl⟩ | ⟨len, _, ⟨hlen, rfl⟩, hadd⟩⟩
        · cases hcause
          exact .tooLong hfull hlong
        · obtain ⟨hdenied, rfl, rfl⟩ := (addSegment_refused_iff (by omega)).1 hadd
          exact .noPages hfull hlen hdenied
      · intro hrefuses
        refine ⟨h, h, ⟨rfl, rfl⟩, ?_⟩
        cases hrefuses with
        | tooLong _ hlong => exact .inl ⟨_, ⟨hlong, rfl⟩, rfl, rfl⟩
        | @noPages len _ hlen hdenied =>
            exact .inr ⟨len, h, ⟨hlen, rfl⟩, addSegment_of_denied (by omega) hdenied⟩

theorem ensureMapped_of_ne_nil (hf : h.Formed hs) (hne : hs ≠ []) : ensureMapped h = .ok () h := by
  rw [ensureMapped, run_bind, run_get]
  dsimp only
  rw [if_neg fun hempty => hne ((isEmpty_iff hf).1 hempty)]
  rfl

theorem acquire_refused_iff (hf : h.Formed hs) (hne : hs ≠ []) (hsize : size ≠ 0) :
    acquire size h = .error (.refused cause) h' ↔
      h.Refuses size (hs.map h.memory.info) cause h' := by
  rw [← chooseBlock_refused_iff hf]
  unfold acquire
  rw [if_neg hsize, run_bind, ensureMapped_of_ne_nil hf hne]
  simp only [bind_eq_error_iff, run_pure, reduceCtorEq, and_false, exists_false, or_false,
    takeBlock_ne_refused]

theorem ensureMapped_of_nil (hf : h.Formed []) (h' : Heap σ) :
    (∀ first, addSegment h.config.segmentSize h = .ok first h' → ensureMapped h = .ok () h') ∧
      ∀ failure, addSegment h.config.segmentSize h = .error failure h' →
        ensureMapped h = .error failure h' := by
  rw [ensureMapped, run_bind, run_get]
  dsimp only
  rw [if_pos ((isEmpty_iff hf).2 rfl), run_discard]
  constructor
  · intro first hrun
    rw [hrun]
  · intro failure hrun
    rw [hrun]

/-- An empty heap asks for its first segment, whatever the request, and then has one free block. -/
theorem addSegment_first (hf : h.Formed [])
    (hgranted : (PageSource.ask h.source h.config.segmentSize).1.granted = true) :
    ∃ mid, addSegment h.config.segmentSize h = .ok ⟨0, 0⟩ mid ∧
      Extends h [] h.config.segmentSize ⟨0, 0⟩ mid ∧
      mid.blocks = .ok [⟨⟨0, 24⟩, h.config.segmentSize - headerSize, 0⟩] := by
  rcases addSegment_cases hf h.config.long with ⟨first, mid, hrun⟩ | ⟨h', hrefused⟩ | ⟨h', -, hover⟩
  · have hext := addSegment_eq_ok hf hrun
    obtain rfl : first = ⟨0, 0⟩ := by
      rw [hext.base, Memory.nextBase, hf.regions_nil]
      rfl
    refine ⟨mid, hrun, hext, ?_⟩
    rw [hext.formed.blocks_eq, hext.stocked.blocks, hf.regions_nil]
    rfl
  · obtain ⟨hdenied, -, -⟩ := addSegment_eq_refused hrefused
    rw [hgranted] at hdenied
    cases hdenied
  · exact (hf.not_overrun hover).elim

theorem acquire_of_first (hf : h.Formed []) (hsize : size ≠ 0)
    (hadd : addSegment h.config.segmentSize h = .ok ⟨0, 0⟩ mid) :
    acquire size h = acquire size mid := by
  have hext := addSegment_eq_ok hf hadd
  unfold acquire
  rw [if_neg hsize, run_bind, run_bind, (ensureMapped_of_nil hf mid).1 _ hadd,
    ensureMapped_of_ne_nil hext.formed (by simp)]

theorem acquire_of_first_refused (hf : h.Formed []) (hsize : size ≠ 0)
    (hdenied : (PageSource.ask h.source h.config.segmentSize).1.granted = false) :
    acquire size h = .error (.refused (.mapFailed h.config.segmentSize))
      (h.turnedDown h.config.segmentSize) := by
  unfold acquire
  rw [if_neg hsize, run_bind,
    (ensureMapped_of_nil hf _).2 _ (addSegment_of_denied h.config.long hdenied)]

theorem duplicate_error_iff {origin : Origin} {initialized : UInt64} {failure : Failure} :
    duplicate (some origin) initialized size h = .error failure h' ↔
      acquire size h = .error failure h' := by
  rw [duplicate, bind_eq_error_iff]
  constructor
  · rintro (hrun | ⟨given, taken, -, hrun⟩)
    · exact hrun
    · cases given with
      | none => cases hrun
      | some copy => cases hrun
  · exact .inl

/-- When a request for some bytes is refused, and what it leaves. A heap with blocks refuses it
exactly when none fits and no segment can be had for it, and is as before. An empty heap asks for
its first segment. It stays empty if that is refused, and else refuses as a heap does that has this
one free block. A copy is refused as its request is. -/
theorem refusals_leave_heap_intact (config : Config) (source : σ)
    {trace : List (Call × Except Failure (Option Place))}
    (hhistory : History (empty config source) trace h) (hsize : size ≠ 0) :
    ∃ bs, h.blocks = .ok bs ∧
      (bs ≠ [] → ∀ cause h',
        (acquire size h = .error (.refused cause) h' ↔ h.Refuses size bs cause h') ∧
          (acquire size h = .error (.refused cause) h' → h.Intact h')) ∧
      (bs = [] → (PageSource.ask h.source h.config.segmentSize).1.granted = false →
        acquire size h = .error (.refused (.mapFailed h.config.segmentSize))
            (h.turnedDown h.config.segmentSize) ∧
          (h.turnedDown h.config.segmentSize).blocks = .ok []) ∧
      (bs = [] → (PageSource.ask h.source h.config.segmentSize).1.granted = true →
        ∃ mid b, addSegment h.config.segmentSize h = .ok ⟨0, 0⟩ mid ∧
          acquire size h = acquire size mid ∧
          b = ⟨⟨0, 24⟩, h.config.segmentSize - headerSize, 0⟩ ∧ mid.blocks = .ok [b] ∧
          ∀ cause h', (acquire size h = .error (.refused cause) h' ↔
            mid.Refuses size [b] cause h') ∧
            (acquire size h = .error (.refused cause) h' → h'.blocks = .ok [b] ∧ mid.Intact h')) ∧
      ∀ origin initialized failure h',
        duplicate (some origin) initialized size h = .error failure h' ↔
          acquire size h = .error failure h' := by
  obtain ⟨hs, hpersists⟩ := hhistory.persists (formed_empty config source)
  have hf := hpersists.formed
  refine ⟨hs.map h.memory.info, hf.blocks_eq, ?_, ?_, ?_, fun _ _ _ _ => duplicate_error_iff⟩
  · intro hne cause h'
    have hiff : acquire size h = .error (.refused cause) h' ↔ _ :=
      acquire_refused_iff hf (by simpa using hne) hsize
    exact ⟨hiff, fun hrun => (hiff.1 hrun).intact⟩
  · intro hnil hdenied
    obtain rfl : hs = [] := by simpa using hnil
    refine ⟨acquire_of_first_refused hf hsize hdenied, ?_⟩
    rw [(turnedDown_intact h _).blocks_eq, hf.blocks_eq]
    rfl
  · intro hnil hgranted
    obtain rfl : hs = [] := by simpa using hnil
    obtain ⟨mid, hadd, hext, hblocks⟩ := addSegment_first hf hgranted
    have hfirst := acquire_of_first hf hsize hadd
    refine ⟨mid, _, hadd, hfirst, rfl, hblocks, ?_⟩
    intro cause h'
    have hiff : acquire size h = .error (.refused cause) h' ↔ _ :=
      hfirst ▸ acquire_refused_iff hext.formed (by simp) hsize
    rw [Except.ok.inj (hext.formed.blocks_eq.symm.trans hblocks)] at hiff
    refine ⟨hiff, fun hrun => ?_⟩
    have hintact := (hiff.1 hrun).intact
    exact ⟨hintact.blocks_eq.trans hblocks, hintact⟩

section Scarce

/-- A source that refuses the second request. -/
def scarcePages : Ration :=
  ⟨[1], none, none, false, 0⟩

def bareHeap : Heap Ration :=
  empty (.ofSegmentSize 64) scarcePages

/-- One segment, which is one live block. -/
def fullHeap : Heap Ration :=
  final (perform (.acquire 40) bareHeap)

theorem fullHeap_history : History bareHeap [(.acquire 40, .ok (some ⟨0, 24⟩))] fullHeap :=
  .cons trivial (by decide +kernel) (by simp) (.nil _)

/-- The full heap is as before, and the empty one has got its first segment. -/
theorem scarce_refusals :
    (acquire 16 fullHeap = .error (.refused (.mapFailed 64)) (fullHeap.turnedDown 64) ∧
      fullHeap.Intact (fullHeap.turnedDown 64)) ∧
      ∃ h', acquire 100 bareHeap = .error (.refused (.mapFailed 124)) h' ∧
        h'.blocks = .ok [⟨⟨0, 24⟩, 40, 0⟩] := by
  constructor
  · obtain ⟨bs, hblocks, hfilled, -⟩ :=
      refusals_leave_heap_intact _ _ fullHeap_history (by decide : (16 : UInt64) ≠ 0)
    obtain rfl : bs = [⟨⟨0, 24⟩, 40, 1⟩] :=
      Except.ok.inj (hblocks.symm.trans (by decide +kernel))
    obtain ⟨hiff, hintact⟩ := hfilled (by simp) (.mapFailed 64) (fullHeap.turnedDown 64)
    have hrefused := hiff.2 (.noPages (by decide) (by decide +kernel) (by decide +kernel))
    exact ⟨hrefused, hintact hrefused⟩
  · obtain ⟨bs, hblocks, -, -, hbegun, -⟩ :=
      refusals_leave_heap_intact _ _ (.nil bareHeap) (by decide : (100 : UInt64) ≠ 0)
    obtain rfl : bs = [] := Except.ok.inj (hblocks.symm.trans (by decide +kernel))
    obtain ⟨mid, b, -, -, rfl, -, hrest⟩ := hbegun rfl (by decide +kernel)
    have hrefused : acquire 100 bareHeap = .error (.refused (.mapFailed 124)) _ :=
      eq_error_of_outcome (by decide +kernel)
    exact ⟨_, hrefused, ((hrest _ _).2 hrefused).1⟩

end Scarce

end Heap

end CountedHeap
