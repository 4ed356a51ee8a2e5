import CountedHeap.Proofs.Outcomes
import CountedHeap.Proofs.Runs

namespace CountedHeap.Heap

variable {σ α β : Type} {h h' : Heap σ} {hs : List Place} {size len : UInt64} {call : Call}

/-- All is counted but the length of the last segment. -/
structure Uncounted (h : Heap σ) : Prop where
  length : ∃ hs, h.chain.nodes h.memory = .ok hs ∧ h.chain.length.toNat = hs.length
  segments : h.segments.toNat = h.memory.regions.size
  mapped : ∃ len, h.memory.regions.back? = some len ∧
    h.mappedBytes.toNat + len.toNat = h.totalLength

variable [PageSource σ]

theorem Overrun.uncounted (hover : Overrun h hs len h') (hf : h.Formed hs) : h'.Uncounted where
  length := ⟨_, hover.nodes, by simpa using hover.length⟩
  segments := hover.segments
  mapped := by
    refine ⟨len, ?_, ?_⟩
    · rw [hover.regions, Array.back?_push]
    · rw [hover.mapped, hf.mapped, totalLength, hover.regions, Array.toList_push, List.map_append,
        List.sum_append, List.map_singleton, List.sum_singleton]

theorem exists_mapped_bind {x : HeapM σ α} {f : α → HeapM σ β}
    (hx : ∃ asked, Mapped h asked (final (x h)))
    (hf : ∀ a mid, x h = .ok a mid → ∃ asked, Mapped mid asked (final (f a mid))) :
    ∃ asked, Mapped h asked (final ((x >>= f) h)) := by
  obtain ⟨asked, hmapped⟩ := hx
  rw [run_bind]
  cases hrun : x h with
  | ok a mid =>
      rw [hrun] at hmapped
      obtain ⟨more, hmore⟩ := hf a mid hrun
      exact ⟨asked ++ more, hmapped.trans hmore⟩
  | error failure h' =>
      rw [hrun] at hmapped
      exact ⟨asked, hmapped⟩

theorem addSegment_mapped (hf : h.Formed hs) (hlong : 24 < len.toNat) :
    Mapped h [len] (final (addSegment len h)) := by
  cases hgranted : (PageSource.ask h.source len).1.granted with
  | false =>
      rw [addSegment_of_denied hlong hgranted]
      refine ⟨rfl, ?_⟩
      rw [PageSource.granted, hgranted]
      simp [final, turnedDown, PageSource.granted]
  | true =>
      obtain ⟨chain, memory, segments, log, hattached, -, hrun⟩ :=
        addSegment_of_granted hf hlong hgranted
      rw [hrun]
      cases Size.add h.mappedBytes len with
      | ok sum => exact .of_push hgranted rfl hattached.regions
      | error fault => exact .of_push hgranted rfl hattached.regions

theorem ensureMapped_mapped (hf : h.Formed hs) :
    ∃ asked, Mapped h asked (final (ensureMapped h)) := by
  rw [ensureMapped, run_bind, run_get]
  dsimp only
  split
  · have hmapped := addSegment_mapped hf h.config.long
    refine ⟨[h.config.segmentSize], ?_⟩
    rw [run_discard]
    cases hrun : addSegment h.config.segmentSize h <;> rw [hrun] at hmapped <;> exact hmapped
  · exact ⟨[], .of_same rfl rfl⟩

theorem chooseBlock_mapped (hf : h.Formed hs) (size : UInt64) :
    ∃ asked, Mapped h asked (final (chooseBlock size h)) := by
  rw [chooseBlock, run_bind, findFree_eq hf]
  cases hs.find? (fits h.memory size) with
  | some a => exact ⟨[], .of_same rfl rfl⟩
  | none =>
      simp only [run_bind, run_get]
      cases hlen : segmentLength size h.config.segmentSize with
      | error cause => exact ⟨[], .of_same rfl rfl⟩
      | ok len =>
          exact ⟨[len], addSegment_mapped hf (segmentLength_long hlen)⟩

theorem acquire_mapped (hf : h.Formed hs) (size : UInt64) :
    ∃ asked, Mapped h asked (final (acquire size h)) := by
  unfold acquire
  split
  · exact ⟨[], .of_same rfl rfl⟩
  · rename_i hsize
    apply exists_mapped_bind (ensureMapped_mapped hf)
    intro u h₁ hmapped
    obtain ⟨hs₁, hgrown⟩ := ensureMapped_grown hf hmapped
    apply exists_mapped_bind (chooseBlock_mapped hgrown.formed size)
    intro a mid hchosen
    obtain ⟨hs', hgrown', hfind⟩ := chooseBlock_grown hgrown.formed hchosen
    obtain ⟨h', htake⟩ := exists_takeBlock hgrown'.formed a size
    obtain ⟨-, hs₂, htaken⟩ := takeBlock_eq_ok hgrown'.formed (List.mem_of_find?_eq_some hfind)
      (toNat_pos_of_ne_zero hsize) htake
    refine ⟨[], ?_⟩
    rw [run_bind, htake]
    exact .of_same htaken.source htaken.regions

theorem request_mapped (hf : h.Formed hs) (hcall : call.isRequest = true) :
    ∃ asked, Mapped h asked (final (perform call h)) := by
  cases call with
  | acquire size => exact acquire_mapped hf size
  | duplicate origin initialized total =>
      cases origin with
      | none => exact ⟨[], .of_same rfl rfl⟩
      | some origin =>
          apply exists_mapped_bind (acquire_mapped hf total)
          intro r mid _
          cases r with
          | none => exact ⟨[], .of_same rfl rfl⟩
          | some copy => exact ⟨[], .of_same rfl (by simp [final])⟩
  | retain _ | release _ | releaseClosure _ | write _ _ _ => cases hcall

omit [PageSource σ] in
theorem permits_of_isRequest (h : Heap σ) (hcall : call.isRequest = true) : h.Permits call := by
  cases call with
  | acquire _ | duplicate _ _ _ => trivial
  | retain _ | release _ | releaseClosure _ | write _ _ _ => cases hcall

theorem request_cases (hf : h.Formed hs) (hcall : call.isRequest = true) :
    (∃ r h', h.Answers call r h') ∨
      ∃ mid hs₁ len h', perform call h = .error (.faulted .addOverflow) h' ∧ Grown h hs mid hs₁ ∧
        Overrun mid hs₁ len h' := by
  cases call with
  | acquire size =>
      rcases acquire_cases hf size with ⟨r, h', hok⟩ | ⟨cause, h', hrefused⟩ | hfault
      · exact .inl ⟨r, h', answer?_eq_some_iff.2 (.inl hok)⟩
      · exact .inl ⟨none, h', answer?_eq_some_iff.2 (.inr ⟨rfl, cause, hrefused⟩)⟩
      · exact .inr hfault
  | duplicate origin initialized total =>
      cases origin with
      | none => exact .inl ⟨none, h, rfl⟩
      | some origin =>
          unfold Answers
          rw [perform, duplicate, run_bind]
          rcases acquire_cases hf total with
            ⟨r, mid, hok⟩ | ⟨cause, h', hrefused⟩ | ⟨mid, hs₁, len, h', hfault, hgrown, hover⟩
          · rw [hok]
            cases r with
            | none => exact .inl ⟨none, mid, rfl⟩
            | some copy => exact .inl ⟨some copy, _, rfl⟩
          · rw [hrefused]
            exact .inl ⟨none, h', rfl⟩
          · rw [hfault]
            exact .inr ⟨mid, hs₁, len, h', rfl, hgrown, hover⟩
  | retain _ | release _ | releaseClosure _ | write _ _ _ => cases hcall

/-- A request fails a check exactly when a segment that it maps brings the sum of all lengths to `2
^ 64`. The check is then the one that adds this length, and all else is counted by then. -/
theorem request_faults_iff_lengths_overflow (config : Config) (source : σ)
    {trace : List (Call × Option Place)} (hreach : Run (empty config source) trace h)
    (hcall : call.isRequest = true) :
    ∃ asked, Mapped h asked (final (perform call h)) ∧ h.totalLength < 2 ^ 64 ∧
      ((∃ fault, outcome (perform call h) = .error (.faulted fault)) ↔
        2 ^ 64 ≤ (final (perform call h)).totalLength) ∧
      ∀ failure, outcome (perform call h) = .error failure → (∃ cause, failure = .refused cause) ∨
        failure = .faulted .addOverflow ∧ (final (perform call h)).Uncounted := by
  obtain ⟨hs, hf, -⟩ := hreach.formed (formed_empty config source)
  obtain ⟨asked, hmapped⟩ := request_mapped hf hcall
  refine ⟨asked, hmapped, hf.totalLength_lt, ?_⟩
  rcases request_cases hf hcall with ⟨r, h', hanswer⟩ | ⟨mid, hs₁, len, h', hfault, hgrown, hover⟩
  · obtain ⟨hs', hf', -⟩ := hanswer.formed hf (h.permits_of_isRequest hcall)
    rcases answer?_eq_some_iff.1 hanswer with hok | ⟨-, cause, hrefused⟩
    · rw [hok]
      simpa [outcome, final] using hf'.totalLength_lt
    · rw [hrefused]
      simpa [outcome, final] using hf'.totalLength_lt
  · rw [hfault]
    constructor
    · exact ⟨fun _ => hover.exceeds, fun _ => ⟨_, rfl⟩⟩
    · intro failure hfailure
      cases hfailure
      exact .inr ⟨rfl, hover.uncounted hgrown.formed⟩

section Huge

/-- A source that grants every length. -/
def endlessPages : Ration :=
  ⟨[], none, none, true, 0⟩

def hugeCalls : List (Call × Option Place) :=
  [(.acquire 1, some ⟨0, 24⟩)]

/-- One segment takes half of all lengths. -/
def hugeHeap : Heap Ration :=
  afterAll (empty (.ofSegmentSize (2 ^ 63)) endlessPages) hugeCalls

theorem hugeCalls_run : Run (empty (.ofSegmentSize (2 ^ 63)) endlessPages) hugeCalls hugeHeap :=
  .of_plays (by decide +kernel)

/-- A second segment of this length brings the sum to `2 ^ 64` itself. -/
theorem hugeHeap_faults :
    outcome (perform (.acquire (2 ^ 63 - 24)) hugeHeap) = .error (.faulted .addOverflow) ∧
      2 ^ 64 ≤ (final (perform (.acquire (2 ^ 63 - 24)) hugeHeap)).totalLength ∧
      (final (perform (.acquire (2 ^ 63 - 24)) hugeHeap)).Uncounted := by
  have hcall : (Call.acquire (2 ^ 63 - 24)).isRequest = true := rfl
  obtain ⟨asked, -, -, hiff, hcause⟩ := request_faults_iff_lengths_overflow _ _ hugeCalls_run hcall
  have hfault :
      outcome (perform (.acquire (2 ^ 63 - 24)) hugeHeap) = .error (.faulted .addOverflow) := by
    decide +kernel
  rcases hcause _ hfault with ⟨cause, hrefused⟩ | ⟨-, huncounted⟩
  · cases hrefused
  · exact ⟨hfault, hiff.1 ⟨_, hfault⟩, huncounted⟩

end Huge

end CountedHeap.Heap
