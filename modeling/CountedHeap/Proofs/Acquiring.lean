import CountedHeap.Proofs.Taking

namespace CountedHeap.Heap

variable {σ : Type} {h h' : Heap σ} {hs : List Place} {size : UInt64}

/-- The heap has at most more segments; the blocks that were there keep everything but a link. -/
structure Grown (h : Heap σ) (hs : List Place) (h' : Heap σ) (hs' : List Place) : Prop where
  formed : h'.Formed hs'
  before : hs <+: hs'
  kept : ∀ a ∈ hs, h.memory.Keeps h'.memory a
  cells : Set.EqOn h'.memory.cell h.memory.cell (Memory.headers hs')ᶜ
  config : h'.config = h.config

theorem Grown.refl (hf : h.Formed hs) : Grown h hs h hs :=
  ⟨hf, List.prefix_rfl, fun a _ => .refl _ a, Set.eqOn_refl _ _, rfl⟩

theorem Grown.trans {mid : Heap σ} {hs₁ hs' : List Place} (hfirst : Grown h hs mid hs₁)
    (hsecond : Grown mid hs₁ h' hs') : Grown h hs h' hs' where
  formed := hsecond.formed
  before := hfirst.before.trans hsecond.before
  kept := fun a ha => (hfirst.kept a ha).trans (hsecond.kept a (hfirst.before.subset ha))
  cells := hsecond.cells.trans (hfirst.cells.mono
    (Set.compl_subset_compl.2 (Memory.headers_mono hsecond.before.subset)))
  config := hsecond.config.trans hfirst.config

theorem Grown.of_refused {source : σ} {log : Array Event} (hf : h.Formed hs) :
    Grown h hs { h with source, log } hs :=
  ⟨hf.congr rfl rfl rfl rfl (fun _ _ => rfl) fun _ _ => rfl, List.prefix_rfl, fun a _ => .refl _ a,
    Set.eqOn_refl _ _, rfl⟩

theorem isEmpty_iff (hf : h.Formed hs) : h.chain.isEmpty = true ↔ hs = [] := by
  rw [Chain.isEmpty, beq_iff_eq, ← UInt64.toNat_inj, hf.length]
  exact List.length_eq_zero_iff

theorem findFree_eq (hf : h.Formed hs) (size : UInt64) :
    findFree size h = .ok (hs.find? (fits h.memory size)) h := by
  rw [findFree, run_bind, run_get]
  dsimp only
  rw [hf.find?_eq, run_check_ok]

theorem splitBlock_ne_refused {a : Place} {cause : Refusal} :
    splitBlock a size h ≠ .error (.refused cause) h' := by
  simp only [splitBlock, ne_eq, bind_eq_error_iff, check_eq_error_iff, run_getMemory,
    run_updateMemory, run_record, run_get, run_setChain, reduceCtorEq, false_and, and_false,
    exists_false, or_false, not_false_eq_true]

theorem takeBlock_ne_refused {a : Place} {cause : Refusal} :
    takeBlock a size h ≠ .error (.refused cause) h' := by
  intro hrun
  rw [takeBlock, run_bind, run_getMemory] at hrun
  dsimp only at hrun
  split at hrun
  · simp only [bind_eq_error_iff, splitBlock_ne_refused, run_updateMemory, run_pure, reduceCtorEq,
      and_false, exists_false, or_false] at hrun
  · cases hrun

/-- A request that was served: the heap grew to `mid`, and the first free block that
fits was handed out. -/
structure Served (h : Heap σ) (hs : List Place) (size : UInt64) (mid : Heap σ) (hs₁ : List Place)
    (a : Place) (h' : Heap σ) (hs' : List Place) : Prop where
  grown : Grown h hs mid hs₁
  chosen : hs₁.find? (fits mid.memory size) = some a
  taken : Taken mid hs₁ a size h' hs'

/-- A block was handed out. It was free or not there before, it did not get larger, and the others
keep everything but a link. -/
structure Issued (h : Heap σ) (hs : List Place) (a : Place) (h' : Heap σ) (hs' : List Place) :
    Prop where
  formed : h'.Formed hs'
  sublist : hs.Sublist hs'
  mem : a ∈ hs'
  unused : a ∈ hs → h.memory.refcount a = 0
  shrunk : a ∈ hs → h'.memory.size a ≤ h.memory.size a
  count : h'.memory.refcount a = 1
  kept : ∀ b ∈ hs, b ≠ a → h.memory.Keeps h'.memory b

namespace Served

variable {mid : Heap σ} {hs₁ hs' : List Place} {a : Place}

theorem mem (hserved : Served h hs size mid hs₁ a h' hs') : a ∈ hs₁ :=
  List.mem_of_find?_eq_some hserved.chosen

theorem fits (hserved : Served h hs size mid hs₁ a h' hs') :
    mid.memory.refcount a = 0 ∧ size ≤ mid.memory.size a := by
  have hfits := List.find?_some hserved.chosen
  simpa [Heap.fits, Memory.isFree] using hfits

theorem size_le (hserved : Served h hs size mid hs₁ a h' hs') : size ≤ h'.memory.size a :=
  hserved.taken.handed.size_le hserved.fits.2

/-- A request writes nothing but headers of blocks that are there afterwards. -/
theorem cells (hserved : Served h hs size mid hs₁ a h' hs') :
    Set.EqOn h'.memory.cell h.memory.cell (Memory.headers hs')ᶜ :=
  (hserved.taken.handed.cells hserved.mem).trans (hserved.grown.cells.mono
    (Set.compl_subset_compl.2 (Memory.headers_mono hserved.taken.handed.sublist.subset)))

theorem issued (hserved : Served h hs size mid hs₁ a h' hs') : Issued h hs a h' hs' where
  formed := hserved.taken.formed
  sublist := hserved.grown.before.sublist.trans hserved.taken.handed.sublist
  mem := hserved.taken.handed.sublist.subset hserved.mem
  unused := by
    intro ha
    rw [← (hserved.grown.kept a ha).refcount]
    exact hserved.fits.1
  shrunk := by
    intro ha
    rw [← (hserved.grown.kept a ha).size]
    exact hserved.taken.handed.shrunk
  count := hserved.taken.count
  kept := by
    intro b hb hne
    have hmem := hserved.grown.before.subset hb
    have hextent :=
      hserved.grown.formed.laid.untouched hmem hserved.mem hne hserved.taken.handed.eqOn
    exact (hserved.grown.kept b hb).trans (hextent.mono (Memory.body_subset_extent _ b))

end Served

theorem segmentLength_eq_ok {minimum len : UInt64} (h : segmentLength size minimum = .ok len) :
    len.toNat = max (size.toNat + 24) minimum.toNat := by
  unfold segmentLength at h
  split at h
  · rename_i sum hsum
    cases h
    rw [Size.toNat_max, ← Size.add?_eq_some_iff.1 hsum]
    rfl
  · cases h

variable [PageSource σ]

theorem Extends.grown {len : UInt64} {first : Place} (hext : Extends h hs len first h') :
    Grown h hs h' (hs ++ [first]) :=
  ⟨hext.formed, List.prefix_append _ _, hext.kept, hext.cells, hext.config⟩

theorem ensureMapped_eq_ok {u : Unit} (hf : h.Formed hs) (hrun : ensureMapped h = .ok u h') :
    (hs ≠ [] ∧ h' = h) ∨
      (hs = [] ∧ ∃ first, Extends h hs h.config.segmentSize first h') := by
  simp only [ensureMapped, bind_eq_ok_iff, run_get, EStateM.Result.ok.injEq, run_ite] at hrun
  obtain ⟨_, _, ⟨rfl, rfl⟩, hrun⟩ := hrun
  split at hrun
  · rename_i hempty
    rw [run_discard] at hrun
    split at hrun
    · rename_i first mid hadd
      cases hrun
      exact .inr ⟨(isEmpty_iff hf).1 hempty, first, addSegment_eq_ok hf hadd⟩
    · cases hrun
  · rename_i hfilled
    cases hrun
    exact .inl ⟨fun hnil => hfilled ((isEmpty_iff hf).2 hnil), rfl⟩

theorem ensureMapped_grown {u : Unit} (hf : h.Formed hs) (hrun : ensureMapped h = .ok u h') :
    ∃ hs', Grown h hs h' hs' := by
  rcases ensureMapped_eq_ok hf hrun with ⟨-, rfl⟩ | ⟨-, first, hext⟩
  · exact ⟨hs, .refl hf⟩
  · exact ⟨_, hext.grown⟩

theorem chooseBlock_eq_ok {a : Place} (hf : h.Formed hs) (hrun : chooseBlock size h = .ok a h') :
    (hs.find? (fits h.memory size) = some a ∧ h' = h) ∨
      (hs.find? (fits h.memory size) = none ∧
        ∃ len, segmentLength size h.config.segmentSize = .ok len ∧ Extends h hs len a h') := by
  rw [chooseBlock, run_bind, findFree_eq hf] at hrun
  cases hfind : hs.find? (fits h.memory size) with
  | some b =>
    rw [hfind] at hrun
    cases hrun
    exact .inl ⟨rfl, rfl⟩
  | none =>
    rw [hfind] at hrun
    simp only [bind_eq_ok_iff, run_get, EStateM.Result.ok.injEq, orRefuse_eq_ok_iff] at hrun
    obtain ⟨_, _, ⟨rfl, rfl⟩, len, _, ⟨hlen, rfl⟩, hadd⟩ := hrun
    exact .inr ⟨rfl, len, hlen, addSegment_eq_ok hf hadd⟩

theorem Extends.find?_eq {len minimum : UInt64} {first : Place} (hext : Extends h hs len first h')
    (hlen : segmentLength size minimum = .ok len) (hnone : hs.find? (fits h.memory size) = none) :
    (hs ++ [first]).find? (fits h'.memory size) = some first := by
  have hold : hs.find? (fits h'.memory size) = none := by
    rw [List.find?_eq_none] at hnone ⊢
    intro a ha
    have hkept := hext.kept a ha
    rw [fits, Memory.isFree, hkept.size, hkept.refcount]
    exact hnone a ha
  have hnew : fits h'.memory size first = true := by
    have hlong := segmentLength_eq_ok hlen
    have hsize := hext.size
    rw [fits, Memory.isFree, hext.free, Bool.and_eq_true, decide_eq_true_eq, UInt64.le_iff_toNat_le]
    exact ⟨rfl, by omega⟩
  rw [List.find?_append, hold, Option.none_or, List.find?_singleton, if_pos hnew]

theorem chooseBlock_grown {a : Place} (hf : h.Formed hs) (hrun : chooseBlock size h = .ok a h') :
    ∃ hs', Grown h hs h' hs' ∧ hs'.find? (fits h'.memory size) = some a := by
  rcases chooseBlock_eq_ok hf hrun with ⟨hfind, rfl⟩ | ⟨hnone, len, hlen, hext⟩
  · exact ⟨hs, .refl hf, hfind⟩
  · exact ⟨_, hext.grown, hext.find?_eq hlen hnone⟩

/-- A request for some bytes is served step by step. -/
theorem acquire_eq_ok_iff {r : Option Place} (hsize : size ≠ 0) :
    acquire size h = .ok r h' ↔ ∃ h₁ a mid p, ensureMapped h = .ok () h₁ ∧
      chooseBlock size h₁ = .ok a mid ∧ takeBlock a size mid = .ok p h' ∧ r = some p := by
  unfold acquire
  rw [if_neg hsize]
  simp only [bind_eq_ok_iff, run_pure, EStateM.Result.ok.injEq]
  constructor
  · rintro ⟨_, h₁, hmapped, a, mid, hchoose, p, _, htake, rfl, rfl⟩
    exact ⟨h₁, a, mid, p, hmapped, hchoose, htake, rfl⟩
  · rintro ⟨h₁, a, mid, p, hmapped, hchoose, htake, rfl⟩
    exact ⟨(), h₁, hmapped, a, mid, hchoose, p, h', htake, rfl, rfl⟩

theorem toNat_pos_of_ne_zero (hsize : size ≠ 0) : 0 < size.toNat := by
  rw [ne_eq, ← UInt64.toNat_inj] at hsize
  exact Nat.pos_of_ne_zero hsize

theorem acquire_eq_ok {r : Option Place} (hf : h.Formed hs) (hrun : acquire size h = .ok r h') :
    (size = 0 ∧ r = none ∧ h' = h) ∨
      (size ≠ 0 ∧ ∃ mid hs₁ a hs', r = some a.payload ∧ Served h hs size mid hs₁ a h' hs') := by
  by_cases hzero : size = 0
  · unfold acquire at hrun
    rw [if_pos hzero] at hrun
    cases hrun
    exact .inl ⟨hzero, rfl, rfl⟩
  · obtain ⟨h₁, a, mid, p, hmapped, hchoose, htake, rfl⟩ := (acquire_eq_ok_iff hzero).1 hrun
    obtain ⟨hs₀, hgrown⟩ := ensureMapped_grown hf hmapped
    obtain ⟨hs₁, hgrown', hfind⟩ := chooseBlock_grown hgrown.formed hchoose
    obtain ⟨rfl, hs', htaken⟩ := takeBlock_eq_ok hgrown'.formed (List.mem_of_find?_eq_some hfind)
      (toNat_pos_of_ne_zero hzero) htake
    exact .inr ⟨hzero, mid, hs₁, a, hs', rfl, hgrown.trans hgrown', hfind, htaken⟩

theorem ensureMapped_eq_refused {cause : Refusal} (hf : h.Formed hs)
    (hrun : ensureMapped h = .error (.refused cause) h') : Grown h hs h' hs := by
  rw [ensureMapped, run_bind, run_get] at hrun
  dsimp only at hrun
  split at hrun
  · rw [run_discard] at hrun
    split at hrun
    · cases hrun
    · rename_i hadd
      cases hrun
      obtain ⟨-, -, log, rfl⟩ := addSegment_eq_refused hadd
      exact .of_refused hf
  · cases hrun

theorem chooseBlock_eq_refused {cause : Refusal} (hf : h.Formed hs)
    (hrun : chooseBlock size h = .error (.refused cause) h') : Grown h hs h' hs := by
  rw [chooseBlock, run_bind, findFree_eq hf] at hrun
  cases hfind : hs.find? (fits h.memory size) with
  | some b =>
    rw [hfind] at hrun
    cases hrun
  | none =>
    rw [hfind] at hrun
    simp only [bind_eq_error_iff, run_get, EStateM.Result.ok.injEq, reduceCtorEq, false_or,
      orRefuse_eq_ok_iff, orRefuse_eq_error_iff] at hrun
    obtain ⟨_, _, ⟨rfl, rfl⟩, ⟨_, -, -, rfl⟩ | ⟨len, _, ⟨hlen, rfl⟩, hadd⟩⟩ := hrun
    · exact .refl hf
    · obtain ⟨-, -, log, rfl⟩ := addSegment_eq_refused hadd
      exact .of_refused hf

/-- A refused request leaves the blocks alone, though a first segment may have been added. -/
theorem acquire_eq_refused {cause : Refusal} (hf : h.Formed hs)
    (hrun : acquire size h = .error (.refused cause) h') : ∃ hs', Grown h hs h' hs' := by
  unfold acquire at hrun
  split at hrun
  · cases hrun
  · simp only [bind_eq_error_iff, run_pure, reduceCtorEq, and_false, exists_false, or_false,
      takeBlock_ne_refused] at hrun
    rcases hrun with hmapped | ⟨_, mid, hmapped, hchoose⟩
    · exact ⟨hs, ensureMapped_eq_refused hf hmapped⟩
    · obtain ⟨hs₁, hgrown⟩ := ensureMapped_grown hf hmapped
      exact ⟨hs₁, hgrown.trans (chooseBlock_eq_refused hgrown.formed hchoose)⟩

end CountedHeap.Heap
