import CountedHeap.Heap.Duplicate
import CountedHeap.Proofs.Acquiring

namespace CountedHeap

namespace Memory

variable {m m' : Memory} {p q a b : Place} {hs : List Place}

theorem eqOn_header_of_payload {n : Nat} (h : Set.EqOn m'.cell m.cell (a.payload.span n)ᶜ) :
    Set.EqOn m'.cell m.cell (a.span 24) :=
  eqOn_of_disjoint h (Place.disjoint_span_self (by omega))

theorem payload_subset_extent (m : Memory) (a : Place) :
    a.payload.span (m.size a).toNat ⊆ m.extent a :=
  Place.span_add_subset (by omega)

theorem Laid.header_eq_of_payload (hlaid : m.Laid p hs q) (ha : a ∈ hs) (hb : b ∈ hs)
    (h : Set.EqOn m'.cell m.cell (b.payload.span (m.size b).toNat)ᶜ) :
    m'.header a = m.header a := by
  rcases eq_or_ne a b with rfl | hne
  · exact header_congr (eqOn_header_of_payload h)
  · have hextent := hlaid.untouched ha hb hne
      (h.mono (Set.compl_subset_compl.2 (m.payload_subset_extent b)))
    exact header_congr (hextent.mono (Place.span_mono (by omega)))

end Memory

theorem Origin.eqOn_copy (origin : Origin) (target : Place) (n : Nat) (m : Memory) :
    Set.EqOn (origin.copy target n m).cell m.cell (target.span n)ᶜ := by
  cases origin with
  | outside cells => exact m.eqOn_store target n _
  | inside p => exact m.eqOn_store target n _

@[simp] theorem Origin.regions_copy (origin : Origin) (target : Place) (n : Nat) (m : Memory) :
    (origin.copy target n m).regions = m.regions := by
  cases origin with
  | outside cells => exact m.regions_store target n _
  | inside p => exact m.regions_store target n _

namespace Heap

variable {σ : Type} {h h' : Heap σ} {hs hs' : List Place} {a : Place} {m : Memory}

theorem Formed.rewrite (hf : h.Formed hs) (ha : a ∈ hs) (hregions : m.regions = h.memory.regions)
    (hcells : Set.EqOn m.cell h.memory.cell (a.payload.span (h.memory.size a).toNat)ᶜ) :
    { h with memory := m }.Formed hs := by
  refine hf.congr rfl rfl rfl hregions ?_ ?_
  · intro b hb
    exact congrArg Header.next (hf.laid.header_eq_of_payload hb ha hcells)
  · intro b hb
    exact congrArg Header.size (hf.laid.header_eq_of_payload hb ha hcells)

theorem Issued.rewrite (hissued : Issued h hs a h' hs')
    (hregions : m.regions = h'.memory.regions)
    (hcells : Set.EqOn m.cell h'.memory.cell (a.payload.span (h'.memory.size a).toNat)ᶜ) :
    Issued h hs a { h' with memory := m } hs' where
  formed := hissued.formed.rewrite hissued.mem hregions hcells
  sublist := hissued.sublist
  mem := hissued.mem
  unused := hissued.unused
  shrunk := by
    intro ha
    have hsize : m.size a = h'.memory.size a := congrArg Header.size
      (hissued.formed.laid.header_eq_of_payload hissued.mem hissued.mem hcells)
    rw [hsize]
    exact hissued.shrunk ha
  count := by
    rw [← hissued.count]
    exact congrArg Header.refcount
      (hissued.formed.laid.header_eq_of_payload hissued.mem hissued.mem hcells)
  kept := by
    intro b hb hne
    have hextent := hissued.formed.laid.untouched (hissued.sublist.subset hb) hissued.mem hne
      (hcells.mono (Set.compl_subset_compl.2 (h'.memory.payload_subset_extent a)))
    exact (hissued.kept b hb hne).trans (hextent.mono (h'.memory.body_subset_extent b))

/-- The memory after a copy to `target`: the copied bytes, and zeros up to `total` bytes. -/
def copied (origin : Origin) (initialized total : UInt64) (target : Place) (m : Memory) : Memory :=
  let copied := min initialized total
  (origin.copy target copied.toNat m).store (target + copied.toNat) (total - copied).toNat
    fun _ => .byte 0

theorem eqOn_copied (origin : Origin) (initialized total : UInt64) (target : Place) (m : Memory) :
    Set.EqOn (copied origin initialized total target m).cell m.cell (target.span total.toNat)ᶜ := by
  have hle : min initialized total ≤ total := Std.min_le_right
  have hsum := UInt64.toNat_sub_of_le _ _ hle
  rw [UInt64.le_iff_toNat_le] at hle
  intro q hq
  have hfront : q ∉ target.span (min initialized total).toNat := fun hmem =>
    hq (Place.span_mono hle hmem)
  have hback :
      q ∉ (target + (min initialized total).toNat).span (total - min initialized total).toNat :=
    fun hmem => hq (Place.span_add_subset (by omega) hmem)
  rw [copied, Memory.eqOn_store _ _ _ _ hback, origin.eqOn_copy _ _ _ hfront]

@[simp] theorem regions_copied (origin : Origin) (initialized total : UInt64) (target : Place)
    (m : Memory) : (copied origin initialized total target m).regions = m.regions := by
  simp [copied]

theorem Served.issued_copied {mid taken : Heap σ} {hs₁ : List Place} {source : Origin}
    {initialized total : UInt64}
    (hserved : Served h hs total mid hs₁ a taken hs') :
    Issued h hs a
      { taken with memory := copied source initialized total a.payload taken.memory } hs' := by
  refine hserved.issued.rewrite (by simp) ?_
  have hroom := UInt64.le_iff_toNat_le.1 hserved.size_le
  exact (eqOn_copied source initialized total a.payload taken.memory).mono
    (Set.compl_subset_compl.2 (Place.span_mono hroom))

variable [PageSource σ] {origin : Option Origin} {initialized total : UInt64}

theorem duplicate_eq_ok {r : Option Place} (hf : h.Formed hs)
    (hrun : duplicate origin initialized total h = .ok r h') :
    ((origin = none ∨ total = 0) ∧ r = none ∧ h' = h) ∨
      ∃ source mid taken hs₁ a hs', origin = some source ∧ r = some a.payload ∧
        Served h hs total mid hs₁ a taken hs' ∧
        h' = { taken with memory := copied source initialized total a.payload taken.memory } := by
  cases origin with
  | none =>
    cases hrun
    exact .inl ⟨.inl rfl, rfl, rfl⟩
  | some source =>
    rw [duplicate, bind_eq_ok_iff] at hrun
    obtain ⟨given, taken, hacquire, hrun⟩ := hrun
    rcases acquire_eq_ok hf hacquire with ⟨hzero, rfl, rfl⟩ | ⟨-, mid, hs₁, a, hs', rfl, hserved⟩
    · cases hrun
      exact .inl ⟨.inr hzero, rfl, rfl⟩
    · cases hrun
      exact .inr ⟨source, mid, taken, hs₁, a, hs', rfl, rfl, hserved, rfl⟩

theorem duplicate_eq_refused {cause : Refusal} (hf : h.Formed hs)
    (hrun : duplicate origin initialized total h = .error (.refused cause) h') :
    ∃ hs', Grown h hs h' hs' := by
  cases origin with
  | none => cases hrun
  | some source =>
    rw [duplicate, bind_eq_error_iff] at hrun
    rcases hrun with hacquire | ⟨given, taken, -, hrun⟩
    · exact acquire_eq_refused hf hacquire
    · cases given with
      | none => cases hrun
      | some copy => cases hrun

end Heap

end CountedHeap
