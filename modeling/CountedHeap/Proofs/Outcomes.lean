import CountedHeap.Proofs.Copying

namespace CountedHeap

open Size

namespace Memory.Laid

variable {m : Memory} {p q : Place} {hs : List Place}

theorem room (hlaid : m.Laid p hs q) (hq : q = m.nextBase) (hp : 0 ≤ p.offset) :
    p.offset + 25 * hs.length ≤ ((m.regions.toList.drop p.segment).map UInt64.toNat).sum := by
  induction hlaid with
  | nil p =>
      subst hq
      exact Int.natCast_nonneg _
  | inner hsize _ ih =>
      have hrest := ih hq (by rw [Place.add_offset]; omega)
      rw [Place.add_segment, Place.add_offset, padded] at hrest
      rw [List.length_cons]
      omega
  | @last p q hs len hsize hregion hend _ ih =>
      -- The last block of a segment ends where the segment does, at its length.
      obtain ⟨hlt, hlen⟩ := Array.getElem?_eq_some_iff.1 hregion
      have hrest := ih hq (Int.le_refl 0)
      rw [List.drop_eq_getElem_cons (by simpa using hlt), List.map_cons, List.sum_cons,
        Array.getElem_toList, hlen, List.length_cons]
      simp only at hrest
      omega

theorem segment_le (hlaid : m.Laid p hs q) : q.segment ≤ p.segment + hs.length := by
  induction hlaid with
  | nil p => exact Nat.le_refl _
  | inner _ _ ih =>
      rw [Place.add_segment] at ih
      rw [List.length_cons]
      omega
  | last _ _ _ _ ih =>
      rw [List.length_cons]
      simp only at ih
      omega

end Memory.Laid

namespace Chain

variable {c : Chain} {m : Memory} {previous node : Place}

theorem exists_append (hlength : c.length.toNat + 1 < 2 ^ 64) :
    ∃ c' m', c.append m node = .ok (c', m') := by
  obtain ⟨length, hsum⟩ := exists_toNat_eq hlength
  have hadd : Size.add c.length 1 = .ok length := Size.add_eq_ok_iff.2 hsum.symm
  unfold append
  rw [hadd]
  cases c.tail with
  | none => exact ⟨_, _, rfl⟩
  | some tail => exact ⟨_, _, rfl⟩

theorem exists_insertAfter (hnext : m.next previous = some node)
    (hlength : c.length.toNat + 1 < 2 ^ 64) : ∃ c', c.insertAfter m previous node = .ok c' := by
  obtain ⟨length, hsum⟩ := exists_toNat_eq hlength
  have hadd : Size.add c.length 1 = .ok length := Size.add_eq_ok_iff.2 hsum.symm
  unfold insertAfter
  rw [if_neg (not_not_intro hnext), hadd]
  exact ⟨_, rfl⟩

end Chain

theorem Config.long (c : Config) : 24 < c.segmentSize.toNat := by
  have hmin : (32 : Nat) ≤ c.segmentSize.toNat := UInt64.le_iff_toNat_le.1 c.min_le_segmentSize
  omega

theorem segmentLength_long {c : Config} {size len : UInt64}
    (h : segmentLength size c.segmentSize = .ok len) : 24 < len.toNat := by
  have hmin := c.long
  have hmax := Heap.segmentLength_eq_ok h
  omega

namespace PageSource

variable {σ : Type} [PageSource σ] {source : σ} {lens more : List UInt64}

/-- The source once it was asked for these lengths, one after the other. -/
def askAll (source : σ) (lens : List UInt64) : σ :=
  lens.foldl (fun source len => (ask source len).2) source

/-- Those of the lengths that it grants. -/
def granted : σ → List UInt64 → List UInt64
  | _, [] => []
  | source, len :: lens =>
    (if (ask source len).1.granted then [len] else []) ++ granted (ask source len).2 lens

theorem askAll_append : askAll source (lens ++ more) = askAll (askAll source lens) more :=
  List.foldl_append

theorem granted_append :
    granted source (lens ++ more) = granted source lens ++ granted (askAll source lens) more := by
  induction lens generalizing source with
  | nil => rfl
  | cons len lens ih =>
      rw [List.cons_append, granted, granted, ih, List.append_assoc]
      rfl

end PageSource

namespace Heap

section Results

variable {σ α : Type}

/-- What an operation comes to. -/
def outcome : EStateM.Result Failure (Heap σ) α → Except Failure α
  | .ok a _ => .ok a
  | .error failure _ => .error failure

/-- The heap that an operation leaves, also when it fails. -/
def final : EStateM.Result Failure (Heap σ) α → Heap σ
  | .ok _ h => h
  | .error _ h => h

variable {result : EStateM.Result Failure (Heap σ) α}

theorem eq_ok_of_outcome {a : α} (h : outcome result = .ok a) : result = .ok a (final result) := by
  cases result with
  | ok b h' =>
      cases h
      rfl
  | error failure h' => cases h

theorem eq_error_of_outcome {failure : Failure} (h : outcome result = .error failure) :
    result = .error failure (final result) := by
  cases result with
  | ok a h' => cases h
  | error cause h' =>
      cases h
      rfl

end Results

variable {σ : Type} {h h' : Heap σ} {hs : List Place} {size len : UInt64}

/-- The lengths of all segments that were mapped, added up without bound. -/
def totalLength (h : Heap σ) : Nat :=
  (h.memory.regions.toList.map UInt64.toNat).sum

namespace Formed

theorem totalLength_lt (hf : h.Formed hs) : h.totalLength < 2 ^ 64 := by
  rw [totalLength, ← hf.mapped]
  exact h.mappedBytes.toNat_lt

theorem length_room (hf : h.Formed hs) : h.chain.length.toNat + 1 < 2 ^ 64 := by
  have hroom : (0 : Int) + 25 * hs.length ≤ h.totalLength := hf.laid.room rfl (Int.le_refl 0)
  have hlt := hf.totalLength_lt
  rw [hf.length]
  omega

theorem segments_room (hf : h.Formed hs) : h.segments.toNat + 1 < 2 ^ 64 := by
  have hle : h.memory.regions.size ≤ 0 + hs.length := hf.laid.segment_le
  have hroom := hf.length_room
  rw [hf.length] at hroom
  rw [hf.segments]
  omega

theorem regions_nil (hf : h.Formed []) : h.memory.regions = #[] := by
  have hsize : h.memory.regions.size ≤ 0 + ([] : List Place).length := hf.laid.segment_le
  exact Array.size_eq_zero_iff.1 (Nat.le_zero.1 hsize)

end Formed

theorem exists_splitBlock {a : Place} (hf : h.Formed hs)
    (hlarge : WorthCutting size (h.memory.size a)) :
    ∃ h', splitBlock a size h = .ok () h' := by
  obtain ⟨cut, hcut⟩ := exists_plan (h := a) hlarge.2
  have hnext : (h.memory.split a size cut).next a = some cut.remainder :=
    congrArg Header.next (Memory.header_split_kept (plan_disjoint hcut))
  obtain ⟨chain, hchain⟩ := Chain.exists_insertAfter hnext hf.length_room
  simp only [splitBlock, run_bind, run_getMemory, hcut, run_check_ok, run_updateMemory, run_record,
    run_get, hchain, run_setChain]
  exact ⟨_, rfl⟩

theorem exists_takeBlock (hf : h.Formed hs) (a : Place) (size : UInt64) :
    ∃ h', takeBlock a size h = .ok a.payload h' := by
  rw [takeBlock, run_bind, run_getMemory]
  dsimp only
  split
  · rename_i hlarge
    obtain ⟨mid, hsplit⟩ := exists_splitBlock hf (splitThreshold_any_iff.1 hlarge)
    rw [run_bind, hsplit]
    exact ⟨_, rfl⟩
  · exact ⟨_, rfl⟩

variable [PageSource σ]

/-- From `h` to `h'` the source was asked for these lengths, and what it granted was mapped. -/
structure Mapped (h : Heap σ) (asked : List UInt64) (h' : Heap σ) : Prop where
  source : h'.source = PageSource.askAll h.source asked
  regions : h'.memory.regions.toList =
    h.memory.regions.toList ++ PageSource.granted h.source asked

theorem Mapped.of_same (hsource : h'.source = h.source)
    (hregions : h'.memory.regions = h.memory.regions) : Mapped h [] h' :=
  ⟨hsource, by rw [hregions, PageSource.granted, List.append_nil]⟩

theorem Mapped.trans {mid : Heap σ} {asked more : List UInt64} (hfirst : Mapped h asked mid)
    (hsecond : Mapped mid more h') : Mapped h (asked ++ more) h' where
  source := by rw [hsecond.source, hfirst.source, PageSource.askAll_append]
  regions := by
    rw [hsecond.regions, hfirst.regions, hfirst.source, PageSource.granted_append,
      List.append_assoc]

theorem Mapped.of_push (hgranted : (PageSource.ask h.source len).1.granted)
    (hsource : h'.source = (PageSource.ask h.source len).2)
    (hregions : h'.memory.regions = h.memory.regions.push len) : Mapped h [len] h' where
  source := hsource
  regions := by
    rw [hregions, Array.toList_push, PageSource.granted, if_pos hgranted]
    rfl

/-- A segment was mapped, linked and counted, but its length does not fit into the sum. -/
structure Overrun (h : Heap σ) (hs : List Place) (len : UInt64) (h' : Heap σ) : Prop where
  granted : (PageSource.ask h.source len).1.granted
  source : h'.source = (PageSource.ask h.source len).2
  regions : h'.memory.regions = h.memory.regions.push len
  nodes : h'.chain.nodes h'.memory = .ok (hs ++ [h.memory.nextBase])
  length : h'.chain.length.toNat = hs.length + 1
  segments : h'.segments.toNat = h'.memory.regions.size
  mapped : h'.mappedBytes = h.mappedBytes
  exceeds : 2 ^ 64 ≤ h'.totalLength

/-- One length alone always fits into the sum. -/
theorem Formed.not_overrun (hf : h.Formed []) : ¬ Overrun h [] len h' := by
  intro hover
  have hexceeds := hover.exceeds
  have hlt := len.toNat_lt
  rw [totalLength, hover.regions, hf.regions_nil] at hexceeds
  have hone : ((#[].push len : Array UInt64).toList.map UInt64.toNat).sum = len.toNat := by simp
  omega

theorem not_le_headerSize (hlong : 24 < len.toNat) : ¬ len ≤ headerSize := by
  rw [UInt64.le_iff_toNat_le]
  exact Nat.not_le_of_lt hlong

theorem addSegment_of_granted (hf : h.Formed hs) (hlong : 24 < len.toNat)
    (hgranted : (PageSource.ask h.source len).1.granted = true) :
    ∃ chain memory segments log, Attached h hs len chain memory ∧
      segments.toNat = h.segments.toNat + 1 ∧
      addSegment len h =
        let counted := { h with
          source := (PageSource.ask h.source len).2, memory, chain, segments, log }
        match Size.add h.mappedBytes len with
        | .ok mappedBytes => .ok h.memory.nextBase { counted with
            mappedBytes, log := log.push (.segmentAdded h.memory.nextBase len segments) }
        | .error fault => .error (.faulted fault) counted := by
  obtain ⟨chain, memory, happend⟩ : ∃ chain memory,
      h.chain.append (h.memory.withSegment len) h.memory.nextBase = .ok (chain, memory) :=
    Chain.exists_append hf.length_room
  obtain ⟨segments, hsegments⟩ := exists_toNat_eq hf.segments_room
  have hcount : Size.add h.segments 1 = .ok segments := add_eq_ok_iff.2 hsegments.symm
  refine ⟨chain, memory, segments, if (PageSource.ask h.source len).1.fromSystem then
    h.log.push (.pagesMapped h.memory.nextBase len) else h.log, append_attached hf hlong happend,
    hsegments, ?_⟩
  rw [Memory.withSegment] at happend
  simp only [addSegment, countSegment, run_bind, mapSegment_eq, if_neg (not_le_headerSize hlong),
    if_pos hgranted, run_get, happend, run_check_ok, run_setMemory, run_setChain, hcount,
    run_modify, run_record, run_pure]
  cases Size.add h.mappedBytes len <;> rfl

/-- The heap once its source has refused a segment of `len` bytes. -/
def turnedDown (h : Heap σ) (len : UInt64) : Heap σ :=
  let reply := (PageSource.ask h.source len).1
  { h with
    source := (PageSource.ask h.source len).2
    log := if reply.fromSystem then h.log.push (.pagesRefused len) else h.log }

theorem addSegment_of_denied (hlong : 24 < len.toNat)
    (hdenied : (PageSource.ask h.source len).1.granted = false) :
    addSegment len h = .error (.refused (.mapFailed len)) (h.turnedDown len) := by
  simp only [addSegment, run_bind, mapSegment_eq, if_neg (not_le_headerSize hlong), hdenied,
    Bool.false_eq_true, if_false]
  rfl

theorem addSegment_cases (hf : h.Formed hs) (hlong : 24 < len.toNat) :
    (∃ first h', addSegment len h = .ok first h') ∨
      (∃ h', addSegment len h = .error (.refused (.mapFailed len)) h') ∨
      ∃ h', addSegment len h = .error (.faulted .addOverflow) h' ∧ Overrun h hs len h' := by
  cases hgranted : (PageSource.ask h.source len).1.granted with
  | false => exact .inr (.inl ⟨_, addSegment_of_denied hlong hgranted⟩)
  | true =>
      obtain ⟨chain, memory, segments, log, hattached, hsegments, hrun⟩ :=
        addSegment_of_granted hf hlong hgranted
      cases hsum : Size.add h.mappedBytes len with
      | ok mappedBytes =>
          rw [hsum] at hrun
          exact .inl ⟨_, _, hrun⟩
      | error fault =>
          rw [hsum] at hrun
          obtain ⟨rfl, hexceeds⟩ := Size.add_eq_error_iff.1 hsum
          refine .inr (.inr ⟨_, hrun, ?_⟩)
          exact
            { granted := hgranted
              source := rfl
              regions := hattached.regions
              nodes := hattached.nodes_eq
              length := by simpa using hattached.length
              segments := by
                show segments.toNat = memory.regions.size
                rw [hsegments, hattached.regions, Array.size_push, hf.segments]
              mapped := rfl
              exceeds := by
                show 2 ^ 64 ≤ (memory.regions.toList.map UInt64.toNat).sum
                rw [hattached.regions]
                simpa [← hf.mapped] using hexceeds }

theorem ensureMapped_cases (hf : h.Formed hs) :
    (∃ h', ensureMapped h = .ok () h') ∨
      ∃ cause h', ensureMapped h = .error (.refused cause) h' := by
  rw [ensureMapped, run_bind, run_get]
  dsimp only
  split
  · rename_i hempty
    obtain rfl := (isEmpty_iff hf).1 hempty
    rw [run_discard]
    rcases addSegment_cases hf h.config.long with ⟨first, h', hrun⟩ | ⟨h', hrun⟩ | ⟨h', -, hover⟩
    · exact .inl ⟨h', by rw [hrun]⟩
    · exact .inr ⟨_, h', by rw [hrun]⟩
    · exact (hf.not_overrun hover).elim
  · exact .inl ⟨h, rfl⟩

theorem chooseBlock_cases (hf : h.Formed hs) (size : UInt64) :
    (∃ a h', chooseBlock size h = .ok a h') ∨
      (∃ cause h', chooseBlock size h = .error (.refused cause) h') ∨
      ∃ len h', chooseBlock size h = .error (.faulted .addOverflow) h' ∧ Overrun h hs len h' := by
  rw [chooseBlock, run_bind, findFree_eq hf]
  cases hs.find? (fits h.memory size) with
  | some a => exact .inl ⟨a, h, rfl⟩
  | none =>
      simp only [run_bind, run_get]
      cases hlen : segmentLength size h.config.segmentSize with
      | error cause => exact .inr (.inl ⟨cause, h, rfl⟩)
      | ok len =>
          rcases addSegment_cases hf (segmentLength_long hlen) with
            ⟨first, h', hrun⟩ | ⟨h', hrun⟩ | ⟨h', hrun, hover⟩
          · exact .inl ⟨first, h', hrun⟩
          · exact .inr (.inl ⟨_, h', hrun⟩)
          · exact .inr (.inr ⟨len, h', hrun, hover⟩)

/-- A request is served or refused, or the length of a segment mapped for it does not
fit into the sum. -/
theorem acquire_cases (hf : h.Formed hs) (size : UInt64) :
    (∃ r h', acquire size h = .ok r h') ∨
      (∃ cause h', acquire size h = .error (.refused cause) h') ∨
      ∃ mid hs₁ len h', acquire size h = .error (.faulted .addOverflow) h' ∧
        Grown h hs mid hs₁ ∧ Overrun mid hs₁ len h' := by
  unfold acquire
  split
  · exact .inl ⟨none, h, rfl⟩
  · rcases ensureMapped_cases hf with ⟨h₁, hmapped⟩ | ⟨cause, h', hrefused⟩
    · obtain ⟨hs₁, hgrown⟩ := ensureMapped_grown hf hmapped
      rw [run_bind, hmapped]
      rcases chooseBlock_cases hgrown.formed size with
        ⟨a, mid, hchosen⟩ | ⟨cause, h', hrefused⟩ | ⟨len, h', hfault, hover⟩
      · obtain ⟨hs', hgrown', -⟩ := chooseBlock_grown hgrown.formed hchosen
        obtain ⟨h', htaken⟩ := exists_takeBlock hgrown'.formed a size
        simp only [run_bind, hchosen, htaken]
        exact .inl ⟨_, h', rfl⟩
      · simp only [run_bind, hrefused]
        exact .inr (.inl ⟨cause, h', rfl⟩)
      · simp only [run_bind, hfault]
        exact .inr (.inr ⟨h₁, hs₁, len, h', rfl, hgrown, hover⟩)
    · rw [run_bind, hrefused]
      exact .inr (.inl ⟨cause, h', rfl⟩)

end Heap

end CountedHeap
