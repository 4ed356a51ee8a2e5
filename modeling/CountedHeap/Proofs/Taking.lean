import CountedHeap.Heap.Acquire
import CountedHeap.Proofs.Growth

namespace CountedHeap

open Size

/-- The block at `a` is handed out for `size` bytes, which turns the memory `m` with the first list
of blocks into `m'` with the second. -/
inductive Handed (m : Memory) (a : Place) (size : UInt64) (m' : Memory) :
    List Place → List Place → Prop
  | whole {hs : List Place}
      (hsmall : ¬ WorthCutting size (m.size a))
      (hsize : m'.size a = m.size a) (hcells : Set.EqOn m'.cell m.cell (a.span 24)ᶜ) :
      Handed m a size m' hs hs
  | cut {front back : List Place} {rest : Place}
      (hlarge : WorthCutting size (m.size a))
      (hsize : m'.size a = size) (hrest : rest = a.payload + padded size.toNat)
      (hroom : padded size.toNat + 24 + (m'.size rest).toNat = (m.size a).toNat)
      (hfree : m'.refcount rest = 0)
      (hcells : Set.EqOn m'.cell m.cell (a.span 24 ∪ rest.span 24)ᶜ) :
      Handed m a size m' (front ++ a :: back) (front ++ a :: rest :: back)

theorem plan_disjoint {a : Place} {available size : UInt64} {cut : Cut}
    (hcut : Cut.plan a available size = .ok cut) :
    Disjoint (a.span 24) (cut.remainder.span 24) := by
  obtain ⟨-, -, hremainder⟩ := plan_eq_ok_iff.1 hcut
  rw [hremainder, Place.payload, Place.add_add]
  exact Place.disjoint_span_self (by omega)

namespace Memory

variable {m : Memory} {a : Place} {size : UInt64} {cut : Cut}

theorem eqOn_split_setRefcount :
    Set.EqOn ((m.split a size cut).setRefcount a 1).cell m.cell
      (a.span 24 ∪ cut.remainder.span 24)ᶜ := by
  intro q hq
  have hcount : q ∉ (a + 16).span 8 := fun hmem => hq (.inl (Place.span_add_subset (by omega) hmem))
  rw [eqOn_setRefcount _ _ _ hcount, eqOn_split hq]

theorem header_split_setRefcount (hcut : Disjoint (a.span 24) (cut.remainder.span 24)) :
    ((m.split a size cut).setRefcount a 1).header a = ⟨some cut.remainder, size, 1⟩ ∧
      ((m.split a size cut).setRefcount a 1).header cut.remainder = ⟨m.next a, cut.size, 0⟩ := by
  have hkept : (m.split a size cut).header a = ⟨some cut.remainder, size, m.refcount a⟩ :=
    header_split_kept hcut
  have hapart := hcut.symm.mono_right (Place.span_add_subset (by omega : 16 + 8 ≤ 24))
  simp only [header, Header.mk.injEq] at hkept
  constructor
  · rw [header_setRefcount, hkept.1, hkept.2.1]
  · rw [header_congr (eqOn_of_disjoint (eqOn_setRefcount _ _ _) hapart),
      header_split_remainder hcut]

end Memory

namespace Handed

variable {m m' : Memory} {a : Place} {size : UInt64} {hs hs' : List Place}

theorem span_rest_subset {rest : Place} {n used room : Nat} (hrest : rest = a.payload + used)
    (hroom : used + 24 + room = n) : rest.span 24 ⊆ a.span (24 + n) := by
  rw [hrest, Place.payload, Place.add_add]
  exact Place.span_add_subset (by omega)

theorem eqOn (h : Handed m a size m' hs hs') : Set.EqOn m'.cell m.cell (m.extent a)ᶜ := by
  have hheader : a.span 24 ⊆ m.extent a := Place.span_mono (by omega)
  cases h with
  | whole _ _ hcells => exact hcells.mono (Set.compl_subset_compl.2 hheader)
  | cut _ _ hrest hroom _ hcells =>
      exact hcells.mono (Set.compl_subset_compl.2
        (Set.union_subset hheader (span_rest_subset hrest hroom)))

theorem sublist (h : Handed m a size m' hs hs') : hs.Sublist hs' := by
  cases h with
  | whole => exact List.Sublist.refl _
  | cut => exact (List.Sublist.refl _).append ((List.sublist_cons_self _ _).cons_cons _)

theorem cells (h : Handed m a size m' hs hs') (ha : a ∈ hs) :
    Set.EqOn m'.cell m.cell (Memory.headers hs')ᶜ := by
  cases h with
  | whole _ _ hcells => exact hcells.mono (Set.compl_subset_compl.2 fun q hq => ⟨a, ha, hq⟩)
  | cut _ _ _ _ _ hcells =>
      refine hcells.mono (Set.compl_subset_compl.2 (Set.union_subset ?_ ?_))
      · exact fun q hq => ⟨a, by simp, hq⟩
      · exact fun q hq => ⟨_, by simp, hq⟩

theorem size_le (h : Handed m a size m' hs hs') (hsize : size ≤ m.size a) : size ≤ m'.size a := by
  cases h with
  | whole _ hsame _ => rwa [hsame]
  | cut _ hsame _ _ _ _ =>
      rw [hsame]
      exact UInt64.le_refl size

theorem shrunk (h : Handed m a size m' hs hs') : m'.size a ≤ m.size a := by
  cases h with
  | whole _ hsame _ =>
      rw [hsame]
      exact UInt64.le_refl _
  | cut hlarge hsame _ _ _ _ =>
      rw [hsame, UInt64.le_iff_toNat_le]
      have hroom := hlarge.1
      omega

end Handed

namespace Chain

theorem getLast?_insert {front back : List Place} {a b : Place} (ha : a ∉ back) :
    (front ++ a :: b :: back).getLast? =
      if (front ++ a :: back).getLast? = some a then some b else (front ++ a :: back).getLast? := by
  rcases List.eq_nil_or_concat back with rfl | ⟨init, last, rfl⟩
  · simp
  · rw [List.concat_eq_append] at *
    have hne : last ≠ a := by
      rintro rfl
      simp at ha
    have hlast (l : List Place) : (l ++ (init ++ [last])).getLast? = some last := by simp
    have hshort := hlast (front ++ [a])
    have hlong := hlast (front ++ [a, b])
    simp only [List.append_assoc, List.cons_append, List.nil_append] at hshort hlong
    rw [hshort, hlong, if_neg]
    simpa using hne

theorem insertAfter_eq_ok {c c' : Chain} {m : Memory} {previous node : Place}
    (h : c.insertAfter m previous node = .ok c') :
    c'.head = c.head ∧ c'.tail = (if c.tail = some previous then some node else c.tail) ∧
      c.length.toNat + 1 = c'.length.toNat := by
  rw [insertAfter] at h
  split at h
  · cases h
  · simp only [CountedHeap.bind_eq_ok_iff, Size.add_eq_ok_iff] at h
    obtain ⟨length, hlength, h⟩ := h
    cases h
    exact ⟨rfl, rfl, hlength⟩

end Chain

namespace Heap

variable {σ : Type} {h h' : Heap σ} {hs : List Place} {a p : Place} {size : UInt64}

theorem splitBlock_eq_ok {u : Unit} (hrun : splitBlock a size h = .ok u h') :
    ∃ cut chain log, Cut.plan a (h.memory.size a) size = .ok cut ∧
      h.chain.insertAfter (h.memory.split a size cut) a cut.remainder = .ok chain ∧
      h' = { h with memory := h.memory.split a size cut, chain, log } := by
  simp only [splitBlock, bind_eq_ok_iff, check_eq_ok_iff, run_getMemory,
    run_updateMemory, run_record, run_get, run_setChain, EStateM.Result.ok.injEq] at hrun
  obtain ⟨_, _, ⟨rfl, rfl⟩, cut, _, ⟨hcut, rfl⟩, _, _, ⟨_, rfl⟩, _, _, ⟨_, rfl⟩, hrun⟩ := hrun
  obtain ⟨_, _, ⟨rfl, rfl⟩, chain, _, ⟨hchain, rfl⟩, _, rfl⟩ := hrun
  exact ⟨cut, chain, _, hcut, hchain, rfl⟩

theorem takeBlock_cases (hrun : takeBlock a size h = .ok p h') :
    p = a.payload ∧
      ((¬ WorthCutting size (h.memory.size a) ∧
        h' = { h with memory := h.memory.setRefcount a 1 }) ∨
      (WorthCutting size (h.memory.size a) ∧
        ∃ cut chain log, Cut.plan a (h.memory.size a) size = .ok cut ∧
          h.chain.insertAfter (h.memory.split a size cut) a cut.remainder = .ok chain ∧
          h' = { h with memory := (h.memory.split a size cut).setRefcount a 1, chain, log })) := by
  rw [takeBlock, bind_eq_ok_iff] at hrun
  obtain ⟨_, _, ⟨rfl, rfl⟩, hrun⟩ := hrun
  rw [run_ite] at hrun
  split at hrun
  · rename_i hlarge
    simp only [bind_eq_ok_iff, run_updateMemory, run_pure, EStateM.Result.ok.injEq] at hrun
    obtain ⟨_, mid, hsplit, _, _, ⟨_, rfl⟩, rfl, rfl⟩ := hrun
    obtain ⟨cut, chain, log, hcut, hchain, rfl⟩ := splitBlock_eq_ok hsplit
    exact ⟨rfl, .inr ⟨splitThreshold_any_iff.1 hlarge, cut, chain, log, hcut, hchain, rfl⟩⟩
  · rename_i hsmall
    cases hrun
    exact ⟨rfl, .inl ⟨fun hlarge => hsmall (splitThreshold_any_iff.2 hlarge), rfl⟩⟩

/-- The heap `h'` is `h` after the block at `a` was handed out for `size` bytes. -/
structure Taken (h : Heap σ) (hs : List Place) (a : Place) (size : UInt64) (h' : Heap σ)
    (hs' : List Place) : Prop where
  formed : h'.Formed hs'
  handed : Handed h.memory a size h'.memory hs hs'
  count : h'.memory.refcount a = 1
  config : h'.config = h.config
  source : h'.source = h.source
  regions : h'.memory.regions = h.memory.regions

theorem setRefcount_taken (hf : h.Formed hs) (ha : a ∈ hs)
    (hsmall : ¬ WorthCutting size (h.memory.size a)) :
    Taken h hs a size { h with memory := h.memory.setRefcount a 1 } hs := by
  have hheader := h.memory.header_setRefcount a 1
  have hwrite := h.memory.eqOn_setRefcount a 1
  have hcounts : (a + 16).span 8 ⊆ Memory.counts hs := fun q hq => ⟨a, ha, hq⟩
  exact
    { formed := hf.recount (by simp) (hwrite.mono (Set.compl_subset_compl.2 hcounts))
      handed := .whole hsmall (congrArg Header.size hheader)
        (hwrite.mono (Set.compl_subset_compl.2 (Place.span_add_subset (by omega))))
      count := congrArg Header.refcount hheader
      config := rfl
      source := rfl
      regions := by simp }

theorem split_taken {front back : List Place} {cut : Cut} {chain : Chain} {log : Array Event}
    (hf : h.Formed (front ++ a :: back)) (hpos : 0 < size.toNat)
    (hlarge : WorthCutting size (h.memory.size a))
    (hcut : Cut.plan a (h.memory.size a) size = .ok cut)
    (hchain : h.chain.insertAfter (h.memory.split a size cut) a cut.remainder = .ok chain) :
    Taken h (front ++ a :: back) a size
      { h with memory := (h.memory.split a size cut).setRefcount a 1, chain, log }
      (front ++ a :: cut.remainder :: back) := by
  obtain ⟨hroom, hrest, hremainder⟩ := plan_eq_ok_iff.1 hcut
  have hdisjoint := plan_disjoint hcut
  generalize hm : (h.memory.split a size cut).setRefcount a 1 = m
  have hcells : Set.EqOn m.cell h.memory.cell (a.span 24 ∪ cut.remainder.span 24)ᶜ :=
    hm ▸ Memory.eqOn_split_setRefcount
  obtain ⟨hheader, hbehind⟩ : m.header a = ⟨some cut.remainder, size, 1⟩ ∧
      m.header cut.remainder = ⟨h.memory.next a, cut.size, 0⟩ :=
    hm ▸ Memory.header_split_setRefcount hdisjoint
  have hregions : m.regions = h.memory.regions := by simp [← hm]
  have hsize : m.size a = size := congrArg Header.size hheader
  have hsize' : m.size cut.remainder = cut.size := congrArg Header.size hbehind
  have hhanded : Handed h.memory a size m (front ++ a :: back)
      (front ++ a :: cut.remainder :: back) :=
    .cut hlarge hsize hremainder (by rw [hsize', hroom]) (congrArg Header.refcount hbehind) hcells
  have hnodup := List.nodup_cons.1 (List.perm_middle.nodup_iff.1 hf.laid.nodup)
  have hothers : ∀ b ∈ front ++ back, m.header b = h.memory.header b := by
    intro b hb
    have hne : b ≠ a := fun hba => hnodup.1 (hba ▸ hb)
    have hmem : b ∈ front ++ a :: back := by
      rcases List.mem_append.1 hb with hb | hb <;> simp [hb]
    have hextent := hf.laid.untouched hmem (by simp) hne hhanded.eqOn
    exact Memory.header_congr (hextent.mono (Place.span_mono (by omega)))
  obtain ⟨hhead, htail, hlength⟩ := Chain.insertAfter_eq_ok hchain
  refine
    { formed := ?_
      handed := hhanded
      count := congrArg Header.refcount hheader
      config := rfl
      source := rfl
      regions := hregions }
  exact
    { linked := by
        rw [hhead]
        exact hf.linked.insert (congrArg Header.next hheader) (congrArg Header.next hbehind)
          fun b hb => congrArg Header.next (hothers b hb)
      tail := by
        rw [htail, hf.tail, Chain.getLast?_insert fun hmem => hnodup.1 (by simp [hmem])]
      length := by
        rw [← hlength, hf.length]
        simp only [List.length_append, List.length_cons]
        omega
      laid := by
        show m.Laid ⟨0, 0⟩ _ ⟨m.regions.size, 0⟩
        rw [hregions]
        refine hf.laid.split (by rwa [hsize]) (by rw [hsize, hremainder]) ?_ ?_ ?_ hregions
        · rw [hsize, hsize', hroom]
        · rw [hsize']
          omega
        · exact fun b hb => congrArg Header.size (hothers b hb)
      segments := by
        show h.segments.toNat = m.regions.size
        rw [hregions, hf.segments]
      mapped := by
        show h.mappedBytes.toNat = (m.regions.toList.map UInt64.toNat).sum
        rw [hregions, hf.mapped] }

theorem takeBlock_eq_ok (hf : h.Formed hs) (ha : a ∈ hs) (hpos : 0 < size.toNat)
    (hrun : takeBlock a size h = .ok p h') : p = a.payload ∧ ∃ hs', Taken h hs a size h' hs' := by
  obtain ⟨rfl, ⟨hsmall, rfl⟩ | ⟨hlarge, cut, chain, log, hcut, hchain, rfl⟩⟩ := takeBlock_cases hrun
  · exact ⟨rfl, hs, setRefcount_taken hf ha hsmall⟩
  · obtain ⟨front, back, rfl⟩ := List.append_of_mem ha
    exact ⟨rfl, _, split_taken hf hpos hlarge hcut hchain⟩

end Heap

end CountedHeap
