import CountedHeap.Proofs.Formed
import CountedHeap.Proofs.Steps

namespace CountedHeap

namespace Chain

variable {c c' : Chain} {m m' : Memory} {hs : List Place} {node : Place}

theorem append_eq_ok (h : c.append m node = .ok (c', m')) :
    c.length.toNat + 1 = c'.length.toNat ∧ c'.tail = some node ∧
      ((c.tail = none ∧ c'.head = some node ∧ m' = m.setNext node none) ∨
        ∃ tail, c.tail = some tail ∧ c'.head = c.head ∧
          m' = (m.setNext node none).setNext tail (some node)) := by
  simp only [append, CountedHeap.bind_eq_ok_iff, Size.add_eq_ok_iff] at h
  obtain ⟨length, hlength, h⟩ := h
  split at h
  · rename_i tail htail
    cases h
    exact ⟨hlength, rfl, .inr ⟨tail, htail, rfl, rfl⟩⟩
  · rename_i htail
    cases h
    exact ⟨hlength, rfl, .inl ⟨htail, rfl, rfl⟩⟩

theorem regions_append (h : c.append m node = .ok (c', m')) : m'.regions = m.regions := by
  obtain ⟨-, -, ⟨-, -, rfl⟩ | ⟨tail, -, -, rfl⟩⟩ := append_eq_ok h <;> simp

theorem eqOn_append (h : c.append m node = .ok (c', m')) (htail : c.tail = hs.getLast?) :
    Set.EqOn m'.cell m.cell (Memory.links (hs ++ [node]))ᶜ := by
  intro q hq
  have hnode : q ∉ node.span 8 := fun hmem => hq ⟨node, by simp, hmem⟩
  obtain ⟨-, -, ⟨-, -, rfl⟩ | ⟨tail, hlast, -, rfl⟩⟩ := append_eq_ok h
  · exact m.eqOn_setNext _ _ hnode
  · have hmem : tail ∈ hs := List.mem_of_getLast? (htail.symm.trans hlast)
    have htail : q ∉ tail.span 8 := fun hq' => hq ⟨tail, by simp [hmem], hq'⟩
    rw [Memory.eqOn_setNext _ _ _ htail, Memory.eqOn_setNext _ _ _ hnode]

theorem linked_append (h : c.append m node = .ok (c', m')) (hlinked : m.Linked c.head hs none)
    (htail : c.tail = hs.getLast?)
    (hapart : (hs ++ [node]).Pairwise fun a b => Disjoint (a.span 8) (b.span 8)) :
    m'.Linked c'.head (hs ++ [node]) none := by
  have hnone : (m.setNext node none).next node = none :=
    congrArg Header.next (m.header_setNext node none)
  obtain ⟨-, -, ⟨hempty, hhead, rfl⟩ | ⟨tail, hlast, hhead, rfl⟩⟩ := append_eq_ok h
  · have hnil : hs = [] := List.getLast?_eq_none_iff.1 (htail.symm.trans hempty)
    subst hnil
    exact ⟨hhead, hnone⟩
  · obtain ⟨front, rfl⟩ := List.getLast?_eq_some_iff.1 (htail.symm.trans hlast)
    rw [List.pairwise_append, List.pairwise_append] at hapart
    obtain ⟨⟨-, -, hfront⟩, -, hback⟩ := hapart
    have hnode : Disjoint (tail.span 8) (node.span 8) := hback tail (by simp) node (by simp)
    rw [hhead]
    refine hlinked.concat ?_ ?_ ?_
    · exact congrArg Header.next ((m.setNext node none).header_setNext tail (some node))
    · rw [Memory.next_congr (Memory.eqOn_of_disjoint (Memory.eqOn_setNext _ _ _) hnode.symm), hnone]
    · intro a ha
      rw [Memory.next_congr (Memory.eqOn_of_disjoint (Memory.eqOn_setNext _ _ _)
          (hfront a ha tail (by simp))),
        Memory.next_congr (Memory.eqOn_of_disjoint (Memory.eqOn_setNext _ _ _)
          (hback a (by simp [ha]) node (by simp)))]

end Chain

namespace Memory

/-- The memory with a fresh segment, which holds one free block that is not linked yet. -/
def withSegment (m : Memory) (len : UInt64) : Memory :=
  (m.grant len).setHeader m.nextBase ⟨none, len - headerSize, 0⟩

section Segment

variable {m : Memory} {len : UInt64} {hs : List Place}

theorem regions_withSegment : (m.withSegment len).regions = m.regions.push len := by
  simp [withSegment, grant]

theorem header_withSegment :
    (m.withSegment len).header m.nextBase = ⟨none, len - headerSize, 0⟩ :=
  header_setHeader _ _ _

theorem Laid.untouched_withSegment (hlaid : m.Laid ⟨0, 0⟩ hs m.nextBase) {a : Place} (ha : a ∈ hs) :
    Set.EqOn (m.withSegment len).cell m.cell (m.extent a) :=
  hlaid.untouched_of_next ha ((m.grant len).eqOn_setHeader _ _)

theorem toNat_size_withSegment (hlen : 24 < len.toNat) :
    ((m.withSegment len).size m.nextBase).toNat + 24 = len.toNat := by
  have hsize : (m.withSegment len).size m.nextBase = len - headerSize :=
    congrArg Header.size header_withSegment
  have hle : headerSize ≤ len := UInt64.le_iff_toNat_le.2 (Nat.le_of_lt hlen)
  rw [hsize, UInt64.toNat_sub_of_le _ _ hle]
  exact Nat.sub_add_cancel (Nat.le_of_lt hlen)

theorem Laid.withSegment (hlaid : m.Laid ⟨0, 0⟩ hs m.nextBase) (hlen : 24 < len.toNat) :
    (m.withSegment len).Laid ⟨0, 0⟩ (hs ++ [m.nextBase]) (m.withSegment len).nextBase := by
  have hsize := toNat_size_withSegment (m := m) hlen
  have hkept : (m.withSegment len).Laid ⟨0, 0⟩ hs m.nextBase := by
    apply hlaid.congr
    · intro a ha
      exact size_congr ((hlaid.untouched_withSegment ha).mono
        (Place.span_add_subset (by omega)))
    · intro k len' hk
      obtain ⟨hlt, rfl⟩ := Array.getElem?_eq_some_iff.1 hk
      rw [regions_withSegment, Array.getElem?_push_lt hlt]
  have hregion : (m.withSegment len).regions[m.nextBase.segment]? = some len := by
    rw [regions_withSegment]
    exact Array.getElem?_push_size
  refine hkept.append (.last (by omega) hregion ?_ ?_)
  · show (0 : Int) + 24 + ((m.withSegment len).size m.nextBase).toNat = len.toNat
    omega
  · rw [nextBase, nextBase, regions_withSegment, Array.size_push]
    exact .nil _

end Segment

end Memory

namespace Heap

variable {σ : Type} [PageSource σ] {h h' : Heap σ} {hs : List Place} {len : UInt64} {first : Place}

omit [PageSource σ] in
theorem countSegment_eq_ok {u : Unit} (hrun : countSegment len h = .ok u h') :
    ∃ segments mappedBytes, h' = { h with segments, mappedBytes } ∧
      segments.toNat = h.segments.toNat + 1 ∧
      mappedBytes.toNat = h.mappedBytes.toNat + len.toNat := by
  simp only [countSegment, bind_eq_ok_iff, check_eq_ok_iff, run_get, run_modify,
    EStateM.Result.ok.injEq, Size.add_eq_ok_iff] at hrun
  obtain ⟨_, _, ⟨rfl, rfl⟩, segments, _, ⟨hsegments, rfl⟩, _, _, ⟨_, rfl⟩, hrun⟩ := hrun
  obtain ⟨_, _, ⟨rfl, rfl⟩, mappedBytes, _, ⟨hmapped, rfl⟩, _, rfl⟩ := hrun
  exact ⟨segments, mappedBytes, rfl, hsegments.symm, hmapped.symm⟩

theorem mapSegment_eq (len : UInt64) (h : Heap σ) :
    mapSegment len h =
      let reply := (PageSource.ask h.source len).1
      let source := (PageSource.ask h.source len).2
      let base := h.memory.nextBase
      if len ≤ headerSize then .error (.faulted .segmentTooShort) h
      else if reply.granted then
        .ok base { h with
          source
          memory := (h.memory.grant len).setHeader base ⟨none, len - headerSize, 0⟩
          log := if reply.fromSystem then h.log.push (.pagesMapped base len) else h.log }
      else
        .error (.refused (.mapFailed len)) { h with
          source
          log := if reply.fromSystem then h.log.push (.pagesRefused len) else h.log } := by
  rw [mapSegment]
  by_cases hshort : len ≤ headerSize
  · simp only [if_pos hshort]
    rfl
  · have hroom : Size.subtract len headerSize = .ok (len - headerSize) := by
      have hle : headerSize ≤ len := by
        rw [UInt64.le_iff_toNat_le] at hshort ⊢
        omega
      rw [Size.subtract_eq_ok_iff, UInt64.toNat_sub_of_le _ _ hle]
      rw [UInt64.le_iff_toNat_le] at hle
      omega
    rw [hroom]
    simp only [if_neg hshort]
    rcases hask : PageSource.ask h.source len with ⟨⟨granted, fromSystem⟩, source⟩
    cases granted <;> cases fromSystem <;> simp [hask]

theorem mapSegment_eq_ok (hrun : mapSegment len h = .ok first h') :
    24 < len.toNat ∧ (PageSource.ask h.source len).1.granted ∧ first = h.memory.nextBase ∧
      ∃ log, h' = { h with
        source := (PageSource.ask h.source len).2
        memory := (h.memory.grant len).setHeader h.memory.nextBase ⟨none, len - headerSize, 0⟩
        log } := by
  rw [mapSegment_eq] at hrun
  dsimp only at hrun
  split at hrun
  · cases hrun
  · rename_i hlong
    split at hrun
    · rename_i hgranted
      cases hrun
      rw [UInt64.le_iff_toNat_le] at hlong
      exact ⟨Nat.lt_of_not_le hlong, hgranted, rfl, _, rfl⟩
    · cases hrun

theorem mapSegment_eq_refused {cause : Refusal}
    (hrun : mapSegment len h = .error (.refused cause) h') :
    (PageSource.ask h.source len).1.granted = false ∧ cause = .mapFailed len ∧
      ∃ log, h' = { h with source := (PageSource.ask h.source len).2, log } := by
  rw [mapSegment_eq] at hrun
  dsimp only at hrun
  split at hrun
  · cases hrun
  · split at hrun
    · cases hrun
    · rename_i hdenied
      cases hrun
      exact ⟨by simpa using hdenied, rfl, _, rfl⟩

/-- The heap `h'` is `h` with one more segment, whose free block is `first`. -/
structure Extends (h : Heap σ) (hs : List Place) (len : UInt64) (first : Place) (h' : Heap σ) :
    Prop where
  formed : h'.Formed (hs ++ [first])
  base : first = h.memory.nextBase
  granted : (PageSource.ask h.source len).1.granted
  source : h'.source = (PageSource.ask h.source len).2
  config : h'.config = h.config
  regions : h'.memory.regions = h.memory.regions.push len
  free : h'.memory.refcount first = 0
  size : (h'.memory.size first).toNat + 24 = len.toNat
  kept : ∀ a ∈ hs, h.memory.Keeps h'.memory a
  cells : Set.EqOn h'.memory.cell h.memory.cell (Memory.headers (hs ++ [first]))ᶜ

/-- The chain and the memory once the free block of a new segment is linked behind all others. -/
structure Attached (h : Heap σ) (hs : List Place) (len : UInt64) (chain : Chain) (memory : Memory) :
    Prop where
  linked : memory.Linked chain.head (hs ++ [h.memory.nextBase]) none
  tail : chain.tail = (hs ++ [h.memory.nextBase]).getLast?
  length : chain.length.toNat = (hs ++ [h.memory.nextBase]).length
  laid : memory.Laid ⟨0, 0⟩ (hs ++ [h.memory.nextBase]) memory.nextBase
  regions : memory.regions = h.memory.regions.push len
  free : memory.refcount h.memory.nextBase = 0
  size : (memory.size h.memory.nextBase).toNat + 24 = len.toNat
  kept : ∀ a ∈ hs, h.memory.Keeps memory a
  cells : Set.EqOn memory.cell h.memory.cell (Memory.headers (hs ++ [h.memory.nextBase]))ᶜ

omit [PageSource σ] in
theorem Attached.nodes_eq {chain : Chain} {memory : Memory}
    (hattached : Attached h hs len chain memory) :
    chain.nodes memory = .ok (hs ++ [h.memory.nextBase]) := by
  rw [Chain.nodes, Chain.start, hattached.length, Cursor.toList_eq hattached.linked]

omit [PageSource σ] in
theorem append_attached {chain : Chain} {memory : Memory} (hf : h.Formed hs)
    (hlong : 24 < len.toNat)
    (happend : h.chain.append (h.memory.withSegment len) h.memory.nextBase = .ok (chain, memory)) :
    Attached h hs len chain memory := by
  have hlaid := hf.laid.withSegment hlong
  have hapart : (hs ++ [h.memory.nextBase]).Pairwise fun a b => Disjoint (a.span 8) (b.span 8) :=
    hlaid.pairwise_disjoint.imp fun hab =>
      hab.mono (Place.span_mono (by omega)) (Place.span_mono (by omega))
  have hlinked : (h.memory.withSegment len).Linked h.chain.head hs none :=
    hf.linked.congr fun a ha =>
      Memory.next_congr ((hf.laid.untouched_withSegment ha).mono (Place.span_mono (by omega)))
  obtain ⟨hlength, htail, -⟩ := Chain.append_eq_ok happend
  have hkept : ∀ a ∈ hs ++ [h.memory.nextBase], (h.memory.withSegment len).Keeps memory a :=
    fun a ha => hlaid.keeps_of_links ha (Chain.eqOn_append happend hf.tail)
  have hfirst := hkept h.memory.nextBase (by simp)
  refine
    { linked := Chain.linked_append happend hlinked hf.tail hapart
      tail := by rw [htail, List.getLast?_concat]
      length := by rw [← hlength, hf.length, List.length_append, List.length_singleton]
      laid := ?_
      regions := (Chain.regions_append happend).trans Memory.regions_withSegment
      free := ?_
      size := ?_
      kept := ?_
      cells := ?_ }
  · show memory.Laid ⟨0, 0⟩ _ ⟨memory.regions.size, 0⟩
    rw [Chain.regions_append happend]
    exact hlaid.congr (fun a ha => (hkept a ha).size)
      fun k len => Chain.regions_append happend ▸ id
  · rw [hfirst.refcount]
    exact congrArg Header.refcount Memory.header_withSegment
  · rw [hfirst.size]
    exact Memory.toNat_size_withSegment hlong
  · intro a ha
    have hsame : h.memory.Keeps (h.memory.withSegment len) a :=
      (hf.laid.untouched_withSegment ha).mono (h.memory.body_subset_extent a)
    exact hsame.trans (hkept a (by simp [ha]))
  · have hfresh :
        Set.EqOn (h.memory.withSegment len).cell h.memory.cell (h.memory.nextBase.span 24)ᶜ :=
      (h.memory.grant len).eqOn_setHeader _ _
    have hnode : h.memory.nextBase.span 24 ⊆ Memory.headers (hs ++ [h.memory.nextBase]) :=
      fun q hq => ⟨_, by simp, hq⟩
    exact ((Chain.eqOn_append happend hf.tail).mono
      (Set.compl_subset_compl.2 (Memory.links_subset_headers _))).trans
      (hfresh.mono (Set.compl_subset_compl.2 hnode))

theorem addSegment_eq_ok (hf : h.Formed hs) (hrun : addSegment len h = .ok first h') :
    Extends h hs len first h' := by
  simp only [addSegment, bind_eq_ok_iff, check_eq_ok_iff, run_get, run_setMemory, run_setChain,
    run_record, run_pure, EStateM.Result.ok.injEq] at hrun
  obtain ⟨base, h₁, hmap, _, _, ⟨rfl, rfl⟩, ⟨chain, memory⟩, _, ⟨happend, rfl⟩, hrun⟩ := hrun
  obtain ⟨_, _, ⟨_, rfl⟩, _, _, ⟨_, rfl⟩, _, h₂, hcount, hrun⟩ := hrun
  obtain ⟨_, _, ⟨rfl, rfl⟩, _, _, ⟨_, rfl⟩, rfl, rfl⟩ := hrun
  obtain ⟨hlong, hgranted, rfl, log, rfl⟩ := mapSegment_eq_ok hmap
  obtain ⟨segments, mappedBytes, rfl, hsegments, hmapped⟩ := countSegment_eq_ok hcount
  have hattached := append_attached hf hlong happend
  refine
    { formed := ?_
      base := rfl
      granted := hgranted
      source := rfl
      config := rfl
      regions := hattached.regions
      free := hattached.free
      size := hattached.size
      kept := hattached.kept
      cells := hattached.cells }
  exact
    { linked := hattached.linked
      tail := hattached.tail
      length := hattached.length
      laid := hattached.laid
      segments := by
        show segments.toNat = memory.regions.size
        rw [hsegments, hattached.regions, Array.size_push, hf.segments]
      mapped := by
        show mappedBytes.toNat = (memory.regions.toList.map UInt64.toNat).sum
        rw [hmapped, hattached.regions, hf.mapped]
        simp }

theorem addSegment_eq_refused {cause : Refusal}
    (hrun : addSegment len h = .error (.refused cause) h') :
    (PageSource.ask h.source len).1.granted = false ∧ cause = .mapFailed len ∧
      ∃ log, h' = { h with source := (PageSource.ask h.source len).2, log } := by
  simp only [addSegment, countSegment, bind_eq_error_iff, check_eq_error_iff, run_get, run_modify,
    run_setMemory, run_setChain, run_record, run_pure, reduceCtorEq, false_and, and_false,
    exists_false, or_false] at hrun
  exact mapSegment_eq_refused hrun

end Heap

end CountedHeap
