import CountedHeap.Heap.Count
import CountedHeap.Proofs.FirstFit

/-!
Doing a batch of requests again. Requests cut free blocks up and append new ones, and never touch a
block that is in use. So once the blocks of a batch are given back, every block in front of the one
that a request got is still in use or still too small, and that block needs no second cut. Main
statement: the same batch then gets the same blocks and leaves the same heap.
-/

namespace CountedHeap

/-- The block, without its references if it is one of these. -/
def BlockInfo.freed (ps : List Place) (b : BlockInfo) : BlockInfo :=
  if b.payload ∈ ps then { b with refcount := 0 } else b

/-- The second list is the first with free blocks cut into pieces. -/
inductive Divided : List BlockInfo → List BlockInfo → Prop
  | nil : Divided [] []
  | used {b : BlockInfo} {bs cs : List BlockInfo} (hused : b.refcount ≠ 0) (hrest : Divided bs cs) :
      Divided (b :: bs) (b :: cs)
  | free {b : BlockInfo} {pieces bs cs : List BlockInfo} (hfree : b.refcount = 0)
      (hpieces : ∀ c ∈ pieces, c.size ≤ b.size) (hrest : Divided bs cs) :
      Divided (b :: bs) (pieces ++ cs)

namespace Divided

variable {bs cs more rest : List BlockInfo} {b : BlockInfo} {size : UInt64}

theorem refl (bs : List BlockInfo) : Divided bs bs := by
  induction bs with
  | nil => exact .nil
  | cons b bs ih =>
      by_cases hfree : b.refcount = 0
      · show Divided (b :: bs) ([b] ++ bs)
        exact .free hfree (by simp) ih
      · exact .used hfree ih

theorem append (hbs : Divided bs cs) (hmore : Divided more rest) :
    Divided (bs ++ more) (cs ++ rest) := by
  induction hbs with
  | nil => exact hmore
  | used hused _ ih => exact .used hused ih
  | free hfree hpieces _ ih =>
      rw [List.append_assoc]
      exact .free hfree hpieces ih

theorem of_append (h : Divided (bs ++ more) rest) :
    ∃ cs ds, rest = cs ++ ds ∧ Divided bs cs ∧ Divided more ds := by
  induction bs generalizing rest with
  | nil => exact ⟨[], rest, rfl, .nil, h⟩
  | cons b bs ih =>
      cases h with
      | used hused hrest =>
          obtain ⟨cs, ds, rfl, hcs, hds⟩ := ih hrest
          exact ⟨b :: cs, ds, rfl, .used hused hcs, hds⟩
      | @free _ pieces _ _ hfree hpieces hrest =>
          obtain ⟨cs, ds, rfl, hcs, hds⟩ := ih hrest
          exact ⟨pieces ++ cs, ds, (List.append_assoc _ _ _).symm, .free hfree hpieces hcs, hds⟩

theorem of_used (h : Divided (b :: bs) rest) (hused : b.refcount ≠ 0) :
    ∃ cs, rest = b :: cs ∧ Divided bs cs := by
  cases h with
  | used _ hrest => exact ⟨_, rfl, hrest⟩
  | free hfree _ _ => exact (hused hfree).elim

theorem size_le (h : Divided bs cs) (hbound : ∀ b ∈ bs, b.size ≤ size) :
    ∀ c ∈ cs, c.size ≤ size := by
  induction h with
  | nil => exact hbound
  | used hused _ ih =>
      rw [List.forall_mem_cons] at hbound ⊢
      exact ⟨hbound.1, ih hbound.2⟩
  | free hfree hpieces _ ih =>
      rw [List.forall_mem_cons] at hbound
      rw [List.forall_mem_append]
      exact ⟨fun c hc => UInt64.le_trans (hpieces c hc) hbound.1, ih hbound.2⟩

theorem not_fits (h : Divided bs cs) (hbs : ∀ b ∈ bs, ¬ b.Fits size) : ∀ c ∈ cs, ¬ c.Fits size := by
  induction h with
  | nil => exact hbs
  | used hused _ ih =>
      rw [List.forall_mem_cons] at hbs ⊢
      exact ⟨hbs.1, ih hbs.2⟩
  | free hfree hpieces _ ih =>
      rw [List.forall_mem_cons] at hbs
      rw [List.forall_mem_append]
      refine ⟨?_, ih hbs.2⟩
      rintro c hc ⟨-, hsize⟩
      exact hbs.1 ⟨hfree, UInt64.le_trans hsize (hpieces c hc)⟩

end Divided

namespace BlockInfo

variable {ps qs rs : List Place} {bs cs : List BlockInfo} {b : BlockInfo}

@[simp] theorem payload_freed : (b.freed ps).payload = b.payload := by
  unfold freed
  split <;> rfl

theorem freed_of_mem (h : b.payload ∈ ps) : b.freed ps = { b with refcount := 0 } :=
  if_pos h

theorem freed_of_not_mem (h : b.payload ∉ ps) : b.freed ps = b :=
  if_neg h

theorem refcount_freed_le (b : BlockInfo) : (b.freed ps).refcount.toNat ≤ b.refcount.toNat := by
  unfold freed
  split
  · exact Nat.zero_le _
  · exact Nat.le_refl _

theorem freed_congr (h : ∀ p, p ∈ ps ↔ p ∈ qs) : b.freed ps = b.freed qs := by
  simp only [freed, h]

theorem map_freed_nil : bs.map (freed []) = bs :=
  (List.map_congr_left fun _ _ => freed_of_not_mem List.not_mem_nil).trans (List.map_id bs)

theorem freed_freed : (b.freed ps).freed qs = b.freed (ps ++ qs) := by
  simp only [freed, List.mem_append]
  grind

theorem map_freed_freed (h : ∀ p, p ∈ ps ++ qs ↔ p ∈ rs) :
    (bs.map (freed ps)).map (freed qs) = bs.map (freed rs) := by
  rw [List.map_map]
  exact List.map_congr_left fun b _ => freed_freed.trans (freed_congr h)

theorem map_payload_freed : (bs.map (freed ps)).map payload = bs.map payload := by
  rw [List.map_map]
  exact List.map_congr_left fun b _ => payload_freed

theorem mem_of_mem_freed (h : b ∈ bs.map (freed ps)) (hused : b.refcount ≠ 0) : b ∈ bs := by
  obtain ⟨c, hc, rfl⟩ := List.mem_map.1 h
  by_cases hp : c.payload ∈ ps
  · rw [freed_of_mem hp] at hused
    exact (hused rfl).elim
  · rwa [freed_of_not_mem hp]

theorem map_freed_middle (hnodup : ((bs ++ b :: cs).map payload).Nodup) :
    (bs ++ b :: cs).map (freed [b.payload]) = bs ++ { b with refcount := 0 } :: cs := by
  rw [List.map_append, List.map_cons, List.nodup_middle, List.nodup_cons, List.mem_append,
    not_or] at hnodup
  have hothers {part : List BlockInfo} (hpart : b.payload ∉ part.map payload) :
      part.map (freed [b.payload]) = part := by
    calc
      part.map (freed [b.payload]) = part.map id := by
        apply List.map_congr_left
        intro c hc
        apply freed_of_not_mem
        rw [List.mem_singleton]
        intro heq
        exact hpart (heq ▸ List.mem_map_of_mem hc)
      _ = part := List.map_id part
  rw [List.map_append, List.map_cons, freed_of_mem List.mem_cons_self, hothers hnodup.1.1,
    hothers hnodup.1.2]

end BlockInfo

section Refit

variable {size : UInt64} {bs bs' cs more : List BlockInfo} {b : BlockInfo} {p : Place}

theorem BlockInfo.exists_handOut (hb : b.Fits size) :
    ∃ piece rest, b.handOut size = piece :: rest ∧ piece.payload = b.payload ∧ piece.refcount = 1 ∧
      size ≤ piece.size ∧ ¬ WorthCutting size piece.size ∧
        ∀ c ∈ piece :: rest, c.size ≤ b.size := by
  by_cases hlarge : WorthCutting size b.size
  · refine ⟨_, _, handOut_cut hlarge, rfl, rfl, UInt64.le_refl size, ?_, ?_⟩
    · rintro ⟨hdouble, -⟩
      simp only at hdouble
      omega
    · rw [List.forall_mem_cons, List.forall_mem_singleton]
      refine ⟨hb.2, ?_⟩
      have hlt := b.size.toNat_lt
      rw [UInt64.le_iff_toNat_le, UInt64.toNat_ofNat_of_lt' (by rw [UInt64.size]; omega)]
      omega
  · refine ⟨_, _, handOut_whole hlarge, rfl, rfl, hb.2, hlarge, ?_⟩
    rw [List.forall_mem_singleton]
    exact UInt64.le_refl _

/-- When the block of a request is freed again, after others have cut up what was free, the same
request takes it back and changes nothing else. -/
theorem Divided.refit (hfit : firstFit size bs = some (p, bs'))
    (hdivided : Divided (bs' ++ more) cs) (hnodup : (cs.map BlockInfo.payload).Nodup) :
    Divided (bs ++ more) (cs.map (.freed [p])) ∧
      firstFit size (cs.map (.freed [p])) = some (p, cs) ∧
      ∃ b ∈ cs, b.payload = p ∧ b.refcount = 1 := by
  obtain ⟨front, b, back, rfl, hfront, hb, rfl, rfl⟩ := exists_of_firstFit hfit
  obtain ⟨piece, rest, hpieces, hpayload, hcount, hroom, hwhole, hsmaller⟩ :=
    BlockInfo.exists_handOut hb
  have hused : piece.refcount ≠ 0 := by
    rw [hcount]
    decide
  rw [hpieces, List.append_assoc, List.append_assoc, List.cons_append] at hdivided
  -- In front of the block there are only pieces of what was in front of it before. It has not been
  -- cut since, as it was in use, and the pieces behind it come from what it was cut from.
  obtain ⟨front', behind, rfl, hfront', hbehind⟩ := hdivided.of_append
  obtain ⟨behind, rfl, hrest⟩ := hbehind.of_used hused
  obtain ⟨rest', back', rfl, hrest', hback⟩ := hrest.of_append
  rw [← hpayload, BlockInfo.map_freed_middle hnodup]
  refine ⟨?_, ?_, piece, by simp, rfl, hcount⟩
  · rw [List.append_assoc, List.cons_append]
    have hpiece : ∀ c ∈ { piece with refcount := 0 } :: rest', c.size ≤ b.size := by
      rw [List.forall_mem_cons] at hsmaller ⊢
      exact ⟨hsmaller.1, hrest'.size_le hsmaller.2⟩
    exact hfront'.append (.free hb.1 hpiece hback)
  · have hfits : ({ piece with refcount := 0 } : BlockInfo).Fits size := ⟨rfl, hroom⟩
    have hagain : ({ piece with refcount := 0 } : BlockInfo).handOut size = [piece] :=
      (BlockInfo.handOut_whole hwhole).trans (by rw [← hcount])
    rw [firstFit_of_fits (hfront'.not_fits hfront) hfits, hagain, List.append_assoc]
    rfl

end Refit

namespace Heap

variable {σ : Type} {h h' : Heap σ} {hs : List Place} {bs bs' : List BlockInfo} {p : Place}
  {size : UInt64}

/-- The heap is well formed and has these blocks. -/
def Shows (h : Heap σ) (bs : List BlockInfo) : Prop :=
  ∃ hs, h.Formed hs ∧ hs.map h.memory.info = bs

theorem Shows.blocks_eq (hshows : h.Shows bs) : h.blocks = .ok bs := by
  obtain ⟨hs, hf, rfl⟩ := hshows
  exact hf.blocks_eq

theorem Shows.nodup (hshows : h.Shows bs) : (bs.map BlockInfo.payload).Nodup := by
  obtain ⟨hs, hf, rfl⟩ := hshows
  rw [List.map_map]
  apply hf.laid.nodup.map
  intro a b hab
  exact Place.payload_inj.1 hab

theorem Shows.totals_eq (hshows : h.Shows bs) (hshows' : h'.Shows bs')
    (hregions : h'.memory.regions = h.memory.regions) :
    h'.segments = h.segments ∧ h'.mappedBytes = h.mappedBytes := by
  obtain ⟨hs, hf, -⟩ := hshows
  obtain ⟨hs', hf', -⟩ := hshows'
  constructor
  · rw [← UInt64.toNat_inj, hf'.segments, hf.segments, hregions]
  · rw [← UInt64.toNat_inj, hf'.mapped, hf.mapped, hregions]

theorem map_info_freed {m m' : Memory} {a : Place}
    (hself : m'.info a = { m.info a with refcount := 0 })
    (hothers : ∀ b ∈ hs, b ≠ a → m'.info b = m.info b) :
    hs.map m'.info = (hs.map m.info).map (.freed [a.payload]) := by
  rw [List.map_map]
  apply List.map_congr_left
  intro b hb
  rcases eq_or_ne b a with rfl | hne
  · rw [hself]
    exact (BlockInfo.freed_of_mem List.mem_cons_self).symm
  · have hpayload : (m.info b).payload ∉ [a.payload] := by
      rw [List.mem_singleton]
      exact fun heq => hne (Place.payload_inj.1 heq)
    rw [hothers b hb hne]
    exact (BlockInfo.freed_of_not_mem hpayload).symm

theorem release_frees (hshows : h.Shows bs) {b : BlockInfo} (hb : b ∈ bs)
    (hcount : b.refcount.toNat ≤ 1) :
    ∃ m, release b.payload h = .ok () { h with memory := m } ∧ m.regions = h.memory.regions ∧
      Shows { h with memory := m } (bs.map (.freed [b.payload])) := by
  obtain ⟨hs, hf, rfl⟩ := hshows
  obtain ⟨a, ha, rfl⟩ := List.mem_map.1 hb
  have hrun := hf.release_eq (p := a.payload) (by rwa [Place.header_payload])
  rw [Place.header_payload] at hrun
  refine ⟨_, hrun, ?_⟩
  by_cases hfree : h.memory.refcount a = 0
  · rw [if_pos hfree]
    refine ⟨rfl, hs, hf, map_info_freed ?_ fun _ _ _ => rfl⟩
    rw [← hfree]
    rfl
  · rw [if_neg hfree]
    have hm := (Memory.Recounted.refl h.memory hs).addRefcount ha (-1)
    refine ⟨hm.regions, hs, hf.recount hm.regions hm.cells, map_info_freed ?_ ?_⟩
    · have hsize := congrArg Header.size (h.memory.header_addRefcount a (-1))
      have hlast : (h.memory.addRefcount a (-1)).refcount a = 0 := by
        rw [← UInt64.toNat_inj, UInt64.toNat_zero] at hfree ⊢
        have hcount : (h.memory.refcount a).toNat ≤ 1 := hcount
        exact h.memory.toNat_refcount_addRefcount a (by omega) (by omega)
      rw [Memory.info, hlast]
      exact congrArg (BlockInfo.mk a.payload · 0) hsize
    · intro b hb hne
      apply hf.info_of_ne ha hb hne
      exact (h.memory.eqOn_addRefcount a (-1)).mono
        (Set.compl_subset_compl.2 (Place.span_add_subset (by omega)))

theorem release_all (hshows : h.Shows bs) (ps : List Place)
    (hps : ∀ p ∈ ps, ∃ b ∈ bs, b.payload = p ∧ b.refcount.toNat ≤ 1) :
    ∃ m, ps.forM release h = .ok () { h with memory := m } ∧ m.regions = h.memory.regions ∧
      Shows { h with memory := m } (bs.map (.freed ps)) := by
  induction ps generalizing h bs with
  | nil => exact ⟨h.memory, rfl, rfl, by rwa [BlockInfo.map_freed_nil]⟩
  | cons p ps ih =>
      rw [List.forall_mem_cons] at hps
      obtain ⟨⟨b, hb, rfl, hcount⟩, hps⟩ := hps
      obtain ⟨m, hrun, hregions, hfreed⟩ := release_frees hshows hb hcount
      have hrest : ∀ p ∈ ps, ∃ c ∈ bs.map (BlockInfo.freed [b.payload]),
          c.payload = p ∧ c.refcount.toNat ≤ 1 := by
        intro p hp
        obtain ⟨c, hc, hpayload, hcount⟩ := hps p hp
        exact ⟨_, List.mem_map_of_mem hc, by simpa using hpayload,
          Nat.le_trans c.refcount_freed_le hcount⟩
      obtain ⟨m', hrun', hregions', hfreed'⟩ := ih hfreed hrest
      refine ⟨m', ?_, hregions'.trans hregions, ?_⟩
      · show (release b.payload >>= fun _ => ps.forM release) h = _
        rw [run_bind, hrun]
        exact hrun'
      · rwa [BlockInfo.map_freed_freed fun p => .rfl] at hfreed'

variable [PageSource σ]

theorem Mapped.regions_eq (hmapped : Mapped h [] h') : h'.memory.regions = h.memory.regions := by
  have hregions := hmapped.regions
  rw [PageSource.granted, List.append_nil] at hregions
  exact Array.toList_inj.1 hregions

theorem acquire_of_firstFit (hshows : h.Shows bs) (hsize : size ≠ 0)
    (hfit : firstFit size bs = some (p, bs')) :
    ∃ h', acquire size h = .ok (some p) h' ∧ h'.Shows bs' ∧ Mapped h [] h' := by
  obtain ⟨hs, hf, rfl⟩ := hshows
  obtain ⟨front, b, back, hsplit, -, hb, -, -⟩ := exists_of_firstFit hfit
  obtain ⟨c, hc, hcfits⟩ := exists_fits_iff.1 ⟨b, by rw [hsplit]; simp, hb⟩
  obtain ⟨a, hfind⟩ := Option.isSome_iff_exists.1 (List.find?_isSome.2 ⟨c, hc, hcfits⟩)
  have hempty : h.chain.isEmpty ≠ true := fun hempty => by
    rw [(isEmpty_iff hf).1 hempty] at hc
    cases hc
  have hmapped : ensureMapped h = .ok () h := by
    rw [ensureMapped, run_bind, run_get]
    dsimp only
    rw [if_neg hempty]
    rfl
  have hchosen : chooseBlock size h = .ok a h := by
    rw [chooseBlock, run_bind, findFree_eq hf, hfind]
    rfl
  obtain ⟨h', htake⟩ := exists_takeBlock hf a size
  obtain ⟨-, hs', htaken⟩ := takeBlock_eq_ok hf (List.mem_of_find?_eq_some hfind)
    (toNat_pos_of_ne_zero hsize) htake
  rw [htaken.firstFit_eq hf hfind] at hfit
  cases hfit
  exact ⟨h', (acquire_eq_ok_iff hsize).2 ⟨h, a, h, _, hmapped, hchosen, htake, rfl⟩,
    ⟨hs', htaken.formed, rfl⟩, .of_same htaken.source htaken.regions⟩

theorem acquire_all {h₁ : Heap σ} {sizes : List UInt64} {ps : List Place} (hshows : h.Shows bs)
    (hrun : sizes.mapM acquire h = .ok (ps.map some) h₁) :
    ∃ bs₁ news, h₁.Shows bs₁ ∧ Divided (bs ++ news) (bs₁.map (.freed ps)) ∧
      (∀ p ∈ ps, ∃ b ∈ bs₁, b.payload = p ∧ b.refcount = 1) ∧
      ∀ h₂ : Heap σ, h₂.Shows (bs₁.map (.freed ps)) →
        ∃ h₃, sizes.mapM acquire h₂ = .ok (ps.map some) h₃ ∧ h₃.Shows bs₁ ∧ Mapped h₂ [] h₃ := by
  induction sizes generalizing h bs ps with
  | nil =>
      obtain ⟨hps, rfl⟩ : [] = ps.map some ∧ h = h₁ := by simpa using hrun
      obtain rfl : ps = [] := List.map_eq_nil_iff.1 hps.symm
      refine ⟨bs, [], hshows, ?_, by simp, ?_⟩
      · rw [List.append_nil, BlockInfo.map_freed_nil]
        exact .refl bs
      · intro h₂ hshows₂
        rw [BlockInfo.map_freed_nil] at hshows₂
        exact ⟨h₂, rfl, hshows₂, .of_same rfl rfl⟩
  | cons size sizes ih =>
      rw [List.mapM_cons] at hrun
      obtain ⟨r, mid, hfirst, hrun⟩ := bind_eq_ok_iff.1 hrun
      obtain ⟨rs, last, hrest, hrun⟩ := bind_eq_ok_iff.1 hrun
      obtain ⟨hps, rfl⟩ : r :: rs = ps.map some ∧ last = h₁ := by simpa using hrun
      obtain ⟨p, ps, rfl, rfl, rfl⟩ := List.map_eq_cons_iff.1 hps.symm
      have hsize : size ≠ 0 := by
        rintro rfl
        cases hfirst
      obtain ⟨hs, hf, rfl⟩ := hshows
      obtain ⟨first, own, stocked, hs₁, hs', -, -, hstocked, -, hf', hfit⟩ :=
        acquire_firstFit hf hfirst
      rw [hstocked.blocks] at hfit
      -- The second run of the rest starts from the last heap with the blocks of the rest
      -- free, so the second run of this request has to lead there from the heap where its
      -- block is free as well.
      obtain ⟨bs₁, news, hshows₁, hdivided, hcounts, hagain⟩ := ih ⟨hs', hf', rfl⟩ hrest
      have hnodup : ((bs₁.map (BlockInfo.freed ps)).map BlockInfo.payload).Nodup := by
        rw [BlockInfo.map_payload_freed]
        exact hshows₁.nodup
      obtain ⟨hdivided', hrefit, b, hb, hpayload, hcount⟩ := hdivided.refit hfit hnodup
      have hfreed : (bs₁.map (BlockInfo.freed ps)).map (BlockInfo.freed [p]) =
          bs₁.map (BlockInfo.freed (p :: ps)) := by
        apply BlockInfo.map_freed_freed
        intro q
        rw [List.mem_append, List.mem_singleton, List.mem_cons, or_comm]
      rw [hfreed, List.append_assoc] at hdivided'
      rw [hfreed] at hrefit
      refine ⟨bs₁, _, hshows₁, hdivided', ?_, ?_⟩
      · rw [List.forall_mem_cons]
        have hused : b.refcount ≠ 0 := by
          rw [hcount]
          decide
        exact ⟨⟨b, BlockInfo.mem_of_mem_freed hb hused, hpayload, hcount⟩, hcounts⟩
      · intro h₂ hshows₂
        obtain ⟨mid₂, hfirst₂, hmid₂, hmapped⟩ := acquire_of_firstFit hshows₂ hsize hrefit
        obtain ⟨h₃, hrest₃, hshows₃, hmapped'⟩ := hagain mid₂ hmid₂
        refine ⟨h₃, ?_, hshows₃, hmapped.trans hmapped'⟩
        rw [List.mapM_cons, run_bind, hfirst₂]
        simp only [run_bind, hrest₃]
        rfl

/-- A batch of requests that was served can be given back, in any order, and done again. It gets the
same blocks, asks for no pages, and leaves the heap as it was after the first time. -/
theorem batch_replays (config : Config) (source : σ) {trace : List (Call × Option Place)}
    {h₁ : Heap σ}
    {sizes : List UInt64} {ps order : List Place} (hreach : Run (empty config source) trace h)
    (hrun : sizes.mapM acquire h = .ok (ps.map some) h₁) (horder : order.Perm ps) :
    ∃ h₂ h₃ bs, order.forM release h₁ = .ok () h₂ ∧ sizes.mapM acquire h₂ = .ok (ps.map some) h₃ ∧
      h₂.source = h₁.source ∧ h₃.source = h₁.source ∧ h₃.memory.regions = h₁.memory.regions ∧
      h₁.blocks = .ok bs ∧ h₃.blocks = .ok bs ∧ h₃.segments = h₁.segments ∧
      h₃.mappedBytes = h₁.mappedBytes := by
  obtain ⟨hs, hf, -⟩ := hreach.formed (formed_empty config source)
  obtain ⟨bs, news, hshows, -, hcounts, hagain⟩ := acquire_all ⟨hs, hf, rfl⟩ hrun
  have hlive : ∀ p ∈ order, ∃ b ∈ bs, b.payload = p ∧ b.refcount.toNat ≤ 1 := by
    intro p hp
    obtain ⟨b, hb, hpayload, hcount⟩ := hcounts p (horder.subset hp)
    exact ⟨b, hb, hpayload, by rw [hcount]; decide⟩
  obtain ⟨m, hreleased, hregions, hfreed⟩ := release_all hshows order hlive
  rw [List.map_congr_left fun b _ => BlockInfo.freed_congr fun p => horder.mem_iff] at hfreed
  obtain ⟨h₃, hrun₃, hshows₃, hmapped⟩ := hagain _ hfreed
  have hregions₃ := hmapped.regions_eq.trans hregions
  obtain ⟨hsegments, hbytes⟩ := hshows.totals_eq hshows₃ hregions₃
  exact ⟨_, h₃, bs, hreleased, hrun₃, rfl, hmapped.source, hregions₃, hshows.blocks_eq,
    hshows₃.blocks_eq, hsegments, hbytes⟩

section Batch

/-- These requests reuse a block and get two new segments, one of which is cut twice. -/
def batch : List UInt64 :=
  [8, 100, 20, 40]

def batchHeap : Heap (Recorded SystemPages) :=
  final (batch.mapM acquire reusedHeap)

theorem batchHeap_replays :
    ∃ h₂ h₃ bs,
      [⟨1, 24⟩, ⟨2, 72⟩, ⟨0, 24⟩, ⟨2, 24⟩].forM release batchHeap = .ok () h₂ ∧
      batch.mapM acquire h₂ = .ok ([⟨0, 24⟩, ⟨1, 24⟩, ⟨2, 24⟩, ⟨2, 72⟩].map some) h₃ ∧
      h₂.source = batchHeap.source ∧ h₃.source = batchHeap.source ∧
      h₃.memory.regions = batchHeap.memory.regions ∧ batchHeap.blocks = .ok bs ∧
        h₃.blocks = .ok bs ∧
      h₃.segments = batchHeap.segments ∧ h₃.mappedBytes = batchHeap.mappedBytes :=
  batch_replays _ _ reusedCalls_run (eq_ok_of_outcome (by decide +kernel)) (by decide)

end Batch

end Heap

end CountedHeap
