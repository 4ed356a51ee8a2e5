import CountedHeap.Proofs.Persistence

/-!
Copies of bytes that may lie in the heap. The request for the copy may hand out the block that is
copied from, and may cut it, before a byte is read. Main statement: the copy has the bytes that were
there before the call nevertheless, unless they lie where the header of the remainder went. All else
is as the request alone leaves it.
-/

namespace CountedHeap

theorem Memory.cell_store_add (m : Memory) (p : Place) {i n : Nat} (f : Nat → Cell) (hi : i < n) :
    (m.store p n f).cell (p + i) = f i := by
  have hindex : ((p + i).offset - p.offset).toNat = i := by
    rw [Place.add_offset]
    omega
  rw [cell_store, if_pos, hindex]
  exact Place.add_mem_span hi

namespace Origin

variable {m m' : Memory}

/-- The cell of the origin with this index. -/
def cell (m : Memory) : Origin → Nat → Cell
  | .outside cells, i => cells[i]?.getD (.byte 0)
  | .inside q, i => m.cell (q + i)

/-- The places of the heap that a copy of `n` bytes reads. -/
def reads : Origin → Nat → Set Place
  | .outside _, _ => ∅
  | .inside q, n => q.span n

theorem copy_eq (origin : Origin) (target : Place) (n : Nat) (m : Memory) :
    origin.copy target n m = m.store target n (origin.cell m) := by
  cases origin <;> rfl

theorem cell_congr {origin : Origin} {i n : Nat} (h : Set.EqOn m'.cell m.cell (origin.reads n))
    (hi : i < n) : origin.cell m' i = origin.cell m i := by
  cases origin with
  | outside cells => rfl
  | inside q => exact h (Place.add_mem_span hi)

end Origin

namespace Heap

section Copied

variable {origin : Origin} {initialized total : UInt64} {target : Place} {m : Memory} {i : Nat}

theorem cell_copied_of_lt (hi : i < (min initialized total).toNat) :
    (copied origin initialized total target m).cell (target + i) = origin.cell m i := by
  have hfront : target + i ∉ (target + (min initialized total).toNat).span
      (total - min initialized total).toNat :=
    Set.disjoint_left.1 (Place.disjoint_span_self (Nat.le_refl _)) (Place.add_mem_span hi)
  rw [copied, Memory.eqOn_store _ _ _ _ hfront, origin.copy_eq, Memory.cell_store_add _ _ _ hi]

theorem cell_copied_of_le (hlow : (min initialized total).toNat ≤ i) (hhigh : i < total.toNat) :
    (copied origin initialized total target m).cell (target + i) = .byte 0 := by
  have hle : min initialized total ≤ total := Std.min_le_right
  have hlength := UInt64.toNat_sub_of_le _ _ hle
  obtain ⟨k, rfl⟩ := Nat.exists_eq_add_of_le hlow
  rw [copied, ← Place.add_add]
  exact Memory.cell_store_add _ _ _ (by omega)

end Copied

variable {σ : Type} {h mid taken : Heap σ} {hs hs₁ hs' : List Place} {a p q x rest : Place}
  {offset n : Nat} {size : UInt64} {origin : Origin}

/-- The `n` bytes from `q` on lie in the payload at `x`, `offset` bytes behind its start. -/
structure Within (h : Heap σ) (n : Nat) (x : Place) (offset : Nat) (q : Place) : Prop where
  named : h.Names x
  place : q = x + offset
  room : offset + n ≤ (h.memory.size x.header).toNat

/-- The origin has `n` bytes, outside of the heap or in the payload of a block, live or free. -/
def Supplies (h : Heap σ) (n : Nat) : Origin → Prop
  | .outside cells => n ≤ cells.size
  | .inside q => ∃ x offset, h.Within n x offset q

/-- The block that was handed out at `p` was cut: the header at `rest` comes
behind it and is new. -/
structure CutOff (h : Heap σ) (p : Place) (taken : Heap σ) (rest : Place) : Prop where
  behind : taken.memory.next p.header = some rest
  fresh : ¬ h.Names rest.payload

namespace Within

theorem mem (hwithin : h.Within n x offset q) (hf : h.Formed hs) : x.header ∈ hs :=
  hf.names_iff.1 hwithin.named

theorem subset_payload (hwithin : h.Within n x offset q) :
    q.span n ⊆ x.header.payload.span (h.memory.size x.header).toNat := by
  rw [hwithin.place, x.payload_header]
  exact Place.span_add_subset hwithin.room

theorem disjoint_headers (hwithin : h.Within n x offset q) (hf : h.Formed hs)
    (hgrown : Grown h hs mid hs₁) : Disjoint (q.span n) (Memory.headers hs₁) := by
  have hmem := hwithin.mem hf
  have hapart := hgrown.formed.laid.disjoint_payload_headers (hgrown.before.subset hmem)
  rw [(hgrown.kept _ hmem).size] at hapart
  exact hapart.mono_left hwithin.subset_payload

end Within

namespace Served

/-- What comes behind the block that is handed out was there already, or it is cut
off from this block. -/
theorem next_cases (hserved : Served h hs size mid hs₁ a taken hs')
    (hnext : taken.memory.next a = some rest) :
    rest ∈ hs₁ ∨ rest = a.payload + Size.padded size.toNat ∧
      rest.span 24 ⊆ mid.memory.extent a := by
  have hlinked := hserved.taken.formed.linked
  cases hserved.taken.handed with
  | whole => exact .inl (hlinked.mem_of_next hserved.mem hnext)
  | @cut front back node _ _ hnode hroom _ _ =>
      obtain rfl : node = rest := Option.some.inj (hlinked.next_eq.symm.trans hnext)
      exact .inr ⟨hnode, Handed.span_rest_subset hnode hroom⟩

theorem cutOff (hserved : Served h hs size mid hs₁ a taken hs') (hf : h.Formed hs)
    (hmem : rest ∈ hs') (hnew : rest ∉ hs₁) : h.CutOff a.payload taken rest := by
  have hlinked := hserved.taken.formed.linked
  cases hserved.taken.handed with
  | whole => exact (hnew hmem).elim
  | @cut front back node _ _ _ _ _ _ =>
      obtain rfl : rest = node := by
        simp only [List.mem_append, List.mem_cons] at hmem hnew
        tauto
      constructor
      · rw [Place.header_payload]
        exact hlinked.next_eq
      · rw [hf.names_iff, Place.header_payload]
        exact fun hold => hnew (hserved.grown.before.subset hold)

/-- A remainder never lies where the bytes of a live block are, nor where a payload is read from its
first byte on. -/
theorem disjoint_cutOff (hserved : Served h hs size mid hs₁ a taken hs') (hf : h.Formed hs)
    (hwithin : h.Within n x offset q) (hle : n ≤ size.toNat)
    (hsafe : h.memory.refcount x.header ≠ 0 ∨ offset = 0) (hcut : h.CutOff a.payload taken rest) :
    Disjoint (q.span n) (rest.span 24) := by
  have hnext := hcut.behind
  rw [Place.header_payload] at hnext
  have hmem := hwithin.mem hf
  rcases hserved.next_cases hnext with hrest | ⟨rfl, hrest⟩
  · have hheader : rest.span 24 ⊆ Memory.headers hs₁ := fun y hy => ⟨rest, hrest, hy⟩
    exact (hwithin.disjoint_headers hf hserved.grown).mono_right hheader
  rcases eq_or_ne x.header a with rfl | hne
  · rcases hsafe with hlive | rfl
    · exact (hlive (hserved.issued.unused hmem)).elim
    · have hstart : q = x.header.payload := by
        rw [hwithin.place, x.payload_header]
        exact congrArg (Place.mk x.segment) (Int.add_zero _)
      rw [hstart]
      exact Place.disjoint_span_self (hle.trans (Size.le_padded _))
  · have hapart :=
      hserved.grown.formed.laid.disjoint (hserved.grown.before.subset hmem) hserved.mem hne
    refine hapart.mono ?_ hrest
    rw [Memory.extent, (hserved.grown.kept _ hmem).size]
    exact hwithin.subset_payload.trans (h.memory.payload_subset_extent _)

/-- The bytes that are read are as before, unless the header of a remainder lies there. -/
theorem eqOn_reads (hserved : Served h hs size mid hs₁ a taken hs') (hf : h.Formed hs)
    (hsupplies : h.Supplies n origin)
    (hclear : ∀ rest, h.CutOff a.payload taken rest → Disjoint (origin.reads n) (rest.span 24)) :
    Set.EqOn taken.memory.cell h.memory.cell (origin.reads n) := by
  cases origin with
  | outside cells => exact Set.eqOn_empty _ _
  | inside q =>
      obtain ⟨x, offset, hwithin⟩ := hsupplies
      apply Memory.eqOn_of_disjoint hserved.cells
      rw [Set.disjoint_right]
      rintro y ⟨b, hb, hy⟩
      by_cases hold : b ∈ hs₁
      · exact Set.disjoint_right.1 (hwithin.disjoint_headers hf hserved.grown) ⟨b, hold, hy⟩
      · exact Set.disjoint_right.1 (hclear b (hserved.cutOff hf hb hold)) hy

end Served

variable [PageSource σ] {initialized total : UInt64}

theorem duplicate_of_acquire (hacquire : acquire total h = .ok (some p) taken) :
    duplicate (some origin) initialized total h = .ok (some p)
      { taken with memory := copied origin initialized total p taken.memory } := by
  rw [duplicate, run_bind, hacquire]
  rfl

/-- A copy has the bytes of its origin as they were before the call, and zeros behind them, even
where it is made in the block that they lie in. No other payload byte changes, and all else is as
after the request for the block. The bytes must not lie where the request wrote the header of a
remainder, as those of a live block and those from the start of a payload on never do. -/
theorem duplicate_copies_old_bytes (config : Config) (source : σ)
    {trace : List (Call × Except Failure (Option Place))}
    (hhistory : History (empty config source) trace h)
    (hsupplies : h.Supplies (min initialized total).toNat origin)
    (hacquire : acquire total h = .ok (some p) taken) :
    (∀ x offset q, origin = .inside q → h.Within (min initialized total).toNat x offset q →
      h.memory.refcount x.header ≠ 0 ∨ offset = 0 → ∀ rest, h.CutOff p taken rest →
        Disjoint (origin.reads (min initialized total).toNat) (rest.span 24)) ∧
      ((∀ rest, h.CutOff p taken rest →
          Disjoint (origin.reads (min initialized total).toNat) (rest.span 24)) →
        ∃ m hs', duplicate (some origin) initialized total h = .ok (some p)
          { taken with memory := m } ∧
          taken.chain.nodes taken.memory = .ok hs' ∧ taken.chain.nodes m = .ok hs' ∧
          m.regions = taken.memory.regions ∧ (∀ b ∈ hs', m.header b = taken.memory.header b) ∧
          (∀ i < (min initialized total).toNat, m.cell (p + i) = origin.cell h.memory i) ∧
          (∀ i, (min initialized total).toNat ≤ i → i < total.toNat → m.cell (p + i) = .byte 0) ∧
          ∀ b ∈ hs', ∀ q ∈ b.payload.span (m.size b).toNat, q ∉ p.span total.toNat →
            m.cell q = h.memory.cell q) := by
  obtain ⟨hs, hpersists⟩ := hhistory.persists (formed_empty config source)
  have hf := hpersists.formed
  obtain ⟨-, hnone, -⟩ | ⟨-, mid, hs₁, a, hs', hplace, hserved⟩ := acquire_eq_ok hf hacquire
  · cases hnone
  cases hplace
  constructor
  · rintro x offset q rfl hwithin hsafe rest hcut
    have hle : min initialized total ≤ total := Std.min_le_right
    exact hserved.disjoint_cutOff hf hwithin (UInt64.le_iff_toNat_le.1 hle) hsafe hcut
  · intro hclear
    have hreads := hserved.eqOn_reads hf hsupplies hclear
    have hcells := eqOn_copied origin initialized total a.payload taken.memory
    have hroom := UInt64.le_iff_toNat_le.1 hserved.size_le
    have hlaid := hserved.taken.formed.laid
    have hheader : ∀ b ∈ hs', (copied origin initialized total a.payload taken.memory).header b =
        taken.memory.header b := fun b hb =>
      hlaid.header_eq_of_payload hb hserved.issued.mem
        (hcells.mono (Set.compl_subset_compl.2 (Place.span_mono hroom)))
    refine ⟨_, hs', duplicate_of_acquire hacquire, hserved.taken.formed.nodes_eq,
      hserved.issued_copied.formed.nodes_eq, by simp, hheader, ?_, ?_, ?_⟩
    · intro i hi
      rw [cell_copied_of_lt hi]
      exact Origin.cell_congr hreads hi
    · intro i hlow hhigh
      exact cell_copied_of_le hlow hhigh
    · intro b hb q hq hout
      have hsize :
          (copied origin initialized total a.payload taken.memory).size b = taken.memory.size b :=
        congrArg Header.size (hheader b hb)
      rw [hsize] at hq
      rw [hcells hout]
      exact hserved.cells (Set.disjoint_left.1 (hlaid.disjoint_payload_headers hb) hq)

/-- A closure that was built outside of the heap is one in the copy. -/
example :
    let cells := [Word.function ⟨1⟩, .number 3].flatMap fun w => (List.range 8).map w.cell
    (final (duplicate (some (.outside cells.toArray)) 16 16
      (empty (.ofSegmentSize 200) (⟨⟩ : SystemPages)))).memory.captures ⟨0, 24⟩ = [.number 3] := by
  decide +kernel

section Overlap

def deadCalls : List (Call × Except Failure (Option Place)) :=
  [(.acquire 80, .ok (some ⟨0, 24⟩)),
    (.write ⟨0, 24⟩ 0 ((List.range 24).map fun i => .byte (UInt8.ofNat (i + 1))), .ok none),
    (.release ⟨0, 24⟩, .ok none)]

/-- One free block, which has the numbers from 1 to 24 in its payload. -/
def deadHeap : Heap SystemPages :=
  deadCalls.foldl (fun h step => final (perform step.1 h)) (empty (.ofSegmentSize 200) ⟨⟩)

theorem deadHeap_history : History (empty (.ofSegmentSize 200) ⟨⟩) deadCalls deadHeap := by
  refine .cons trivial (by decide +kernel) (by simp) ?_
  refine .cons (permits_of_checks (by decide +kernel)) (by decide +kernel) (by simp) ?_
  exact .cons (permits_of_checks (by decide +kernel)) (by decide +kernel) (by simp) (.nil _)

/-- The block is handed out again for 24 bytes and cut. -/
def revivedHeap : Heap SystemPages :=
  final (acquire 24 deadHeap)

/-- Bytes of the free block are copied to its start, over themselves, and the remainder begins
right behind them. -/
theorem deadHeap_duplicated :
    deadHeap.CutOff ⟨0, 24⟩ revivedHeap ⟨0, 48⟩ ∧
      ∃ m, duplicate (some (.inside ⟨0, 32⟩)) 16 24 deadHeap =
          .ok (some ⟨0, 24⟩) { revivedHeap with memory := m } ∧
        (∀ i < 16, m.cell (Place.mk 0 24 + i) = .byte (UInt8.ofNat (i + 9))) ∧
        ∀ i, 16 ≤ i → i < 24 → m.cell (Place.mk 0 24 + i) = .byte 0 := by
  have hacquire : acquire 24 deadHeap = .ok (some ⟨0, 24⟩) revivedHeap :=
    eq_ok_of_outcome (by decide +kernel)
  have hnext : revivedHeap.memory.next ⟨0, 0⟩ = some ⟨0, 48⟩ := by decide +kernel
  have hsupplies : deadHeap.Supplies (min (16 : UInt64) 24).toNat (.inside ⟨0, 32⟩) :=
    ⟨⟨0, 24⟩, 8, by decide +kernel, rfl, by decide +kernel⟩
  have hbytes :
      ∀ i < 16, deadHeap.memory.cell (Place.mk 0 32 + i) = .byte (UInt8.ofNat (i + 9)) := by
    decide +kernel
  refine ⟨⟨hnext, by decide +kernel⟩, ?_⟩
  obtain ⟨-, hcopies⟩ := duplicate_copies_old_bytes _ _ deadHeap_history hsupplies hacquire
  obtain ⟨m, _, hrun, -, -, -, -, hfront, hback, -⟩ := hcopies <| by
    intro rest hcut
    obtain rfl : ⟨0, 48⟩ = rest := Option.some.inj (hnext.symm.trans hcut.behind)
    exact Place.disjoint_span (n := 16) fun _ => .inl (by decide)
  exact ⟨m, hrun, fun i hi => (hfront i hi).trans (hbytes i hi), hback⟩

end Overlap

end Heap

end CountedHeap
