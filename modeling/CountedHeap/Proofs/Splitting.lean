import CountedHeap.Block.Arena
import CountedHeap.Proofs.Tiling

namespace CountedHeap

open Size

namespace Memory

variable {m m' : Memory} {len : Nat} {p : Place} {hs : List Place}

theorem Linked.follow_eq {start : Option Place} (h : m.Linked start hs none) :
    m.follow hs.length start = hs := by
  induction hs generalizing start with
  | nil => rfl
  | cons a hs ih =>
      obtain ⟨rfl, hrest⟩ := h
      rw [List.length_cons, follow, ih hrest]

theorem tiles_cons_iff {a : Place} :
    m.Tiles len p (a :: hs) ↔
      a = p ∧ (hs = [] ∧ a.payload.offset + (m.size a).toNat = len ∨
        m.Tiles len (a.payload + padded (m.size a).toNat) hs) := by
  cases hs with
  | nil => simp [Tiles]
  | cons b rest => simp [Tiles]

namespace Tiles

theorem congr (h : m.Tiles len p hs) (hsizes : ∀ a ∈ hs, m'.size a = m.size a) :
    m'.Tiles len p hs := by
  induction hs generalizing p with
  | nil => exact h
  | cons a hs ih =>
      rw [tiles_cons_iff, hsizes a (by simp)]
      obtain ⟨rfl, hend | hrest⟩ := tiles_cons_iff.1 h
      · exact ⟨rfl, .inl hend⟩
      · exact ⟨rfl, .inr (ih hrest fun b hb => hsizes b (by simp [hb]))⟩

theorem aligned (h : m.Tiles len p hs) (hp : p.offset % 8 = 0) : ∀ a ∈ hs, a.offset % 8 = 0 := by
  induction hs generalizing p with
  | nil => simp
  | cons a hs ih =>
      obtain ⟨rfl, ⟨rfl, -⟩ | hrest⟩ := tiles_cons_iff.1 h
      · simpa using hp
      · refine List.forall_mem_cons.2 ⟨hp, ih hrest ?_⟩
        simp only [Place.payload, Place.add_offset, padded]
        omega

theorem isChain (h : m.Tiles len p hs) :
    hs.IsChain fun a b => b.payload = a.payload + padded (m.size a).toNat + 24 := by
  induction hs generalizing p with
  | nil => exact .nil
  | cons a hs ih =>
      obtain ⟨rfl, ⟨rfl, -⟩ | hrest⟩ := tiles_cons_iff.1 h
      · exact .singleton _
      · cases hs with
        | nil => exact .singleton _
        | cons b rest =>
            obtain ⟨rfl, -⟩ := tiles_cons_iff.1 hrest
            exact .cons_cons rfl (ih hrest)

theorem exists_last (h : m.Tiles len p hs) :
    ∃ a, hs.getLast? = some a ∧ a.payload.offset + (m.size a).toNat = len := by
  induction hs generalizing p with
  | nil => exact h.elim
  | cons a hs ih =>
      obtain ⟨rfl, ⟨rfl, hend⟩ | hrest⟩ := tiles_cons_iff.1 h
      · exact ⟨a, rfl, hend⟩
      · obtain ⟨last, hlast, hend⟩ := ih hrest
        exact ⟨last, by rw [List.getLast?_cons, hlast]; rfl, hend⟩

theorem precedes (h : m.Tiles len p hs) : ∀ a ∈ hs, p.Precedes a := by
  induction hs generalizing p with
  | nil => simp
  | cons a hs ih =>
      obtain ⟨rfl, ⟨rfl, -⟩ | hrest⟩ := tiles_cons_iff.1 h
      · simpa using Place.Precedes.refl a
      · refine List.forall_mem_cons.2 ⟨.refl a, fun b hb => .trans ?_ (ih hrest b hb)⟩
        exact .inr ⟨rfl, by simp only [Place.payload, Place.add_offset]; omega⟩

theorem pairwise_disjoint (h : m.Tiles len p hs) :
    hs.Pairwise fun a b => Disjoint (m.extent a) (m.extent b) := by
  induction hs generalizing p with
  | nil => exact .nil
  | cons a hs ih =>
      obtain ⟨rfl, ⟨rfl, -⟩ | hrest⟩ := tiles_cons_iff.1 h
      · exact List.pairwise_singleton _ _
      · refine .cons (fun b hb => ?_) (ih hrest)
        have hbehind :
            (a + (24 + (m.size a).toNat)).Precedes (a.payload + padded (m.size a).toNat) :=
          .inr ⟨rfl, by simp only [Place.payload, Place.add_offset, padded]; omega⟩
        exact (hbehind.trans (hrest.precedes b hb)).disjoint_span _

/-- The two parts of a block fill the room of the whole. -/
theorem split {front back : List Place} {h rest : Place}
    (htiles : m.Tiles len p (front ++ h :: back))
    (hrest : rest = h.payload + padded (m'.size h).toNat)
    (hroom : padded (m'.size h).toNat + 24 + (m'.size rest).toNat = (m.size h).toNat)
    (hsizes : ∀ a ∈ front ++ back, m'.size a = m.size a) :
    m'.Tiles len p (front ++ h :: rest :: back) := by
  induction front generalizing p with
  | nil =>
      obtain ⟨rfl, hback⟩ := tiles_cons_iff.1 htiles
      refine tiles_cons_iff.2 ⟨rfl, .inr ?_⟩
      rw [← hrest]
      refine tiles_cons_iff.2 ⟨rfl, ?_⟩
      rcases hback with ⟨rfl, hend⟩ | hback
      · have hoffset :
            rest.offset = h.payload.offset + padded (m'.size h).toNat := by rw [hrest]; rfl
        refine .inl ⟨rfl, ?_⟩
        rw [Place.payload, Place.add_offset]
        omega
      · have hnext :
            rest.payload + padded (m'.size rest).toNat = h.payload + padded (m.size h).toNat := by
          rw [← hroom, Place.payload, hrest, Place.add_add, Place.add_add, ← hrest]
          unfold padded
          congr 1
          omega
        rw [hnext]
        exact .inr (hback.congr hsizes)
  | cons a front ih =>
      obtain ⟨rfl, ⟨hnil, -⟩ | htail⟩ := tiles_cons_iff.1 htiles
      · simp at hnil
      · refine tiles_cons_iff.2 ⟨rfl, .inr ?_⟩
        rw [hsizes a (by simp)]
        exact ih htail fun b hb => hsizes b (List.mem_cons_of_mem a hb)

end Tiles

/-- A split writes into the block that it splits only. -/
theorem header_split_apart {a b : Place} {size : UInt64} {cut : Cut}
    (hcut : Cut.plan a (m.size a) size = .ok cut) (hapart : Disjoint (m.extent b) (m.extent a)) :
    (m.split a size cut).header b = m.header b := by
  obtain ⟨hroom, -, hrest⟩ := plan_eq_ok_iff.1 hcut
  have hwritten : a.span 24 ∪ cut.remainder.span 24 ⊆ m.extent a :=
    Set.union_subset (Place.span_mono (by omega)) (Handed.span_rest_subset hrest hroom)
  have hheader : b.span 24 ⊆ m.extent b := Place.span_mono (by omega)
  exact header_congr (eqOn_of_disjoint m.eqOn_split (hapart.mono hheader hwritten))

end Memory

namespace Arena

variable {a : Arena} {total : UInt64} {hs : List Place} {index : Nat} {size : UInt64}

/-- The sizes of the blocks, in the order of their links. -/
def sizes (a : Arena) : List UInt64 :=
  a.headers.map a.memory.size

/-- The arena once a split was tried. -/
def attempt (a : Arena) (s : Nat × UInt64) : Arena :=
  match split s.1 s.2 a with
  | .ok _ b => b
  | .error _ b => b

/-- The arena once these splits were tried, each on what the ones before it left. -/
def attemptAll (a : Arena) (splits : List (Nat × UInt64)) : Arena :=
  splits.foldl attempt a

/-- The blocks of the arena are free and fill the place of one block of `total` bytes. -/
structure Tiled (a : Arena) (total : UInt64) : Prop where
  linked : a.memory.Linked (some origin) a.headers none
  first : a.headers.head? = some origin
  free : ∀ h ∈ a.headers, a.memory.isFree h = true
  aligned : ∀ h ∈ a.headers, h.isAligned = true
  header_payload : ∀ h ∈ a.headers, h.payload.header = h
  adjacent :
    a.headers.IsChain fun h k => k.payload = h.payload + padded (a.memory.size h).toNat + 24
  last : ∃ h, a.headers.getLast? = some h ∧
    h.payload.offset + (a.memory.size h).toNat = 24 + total.toNat

/-- Memory and count of the arena hold the blocks `hs`. -/
structure Formed (a : Arena) (total : UInt64) (hs : List Place) : Prop where
  linked : a.memory.Linked (some origin) hs none
  count : a.count = hs.length
  tiles : a.memory.Tiles (24 + total.toNat) origin hs
  free : ∀ h ∈ hs, a.memory.refcount h = 0

theorem formed_ofBlock (total : UInt64) : (ofBlock total).Formed total [origin] := by
  have hheader : (ofBlock total).memory.header origin = ⟨none, total, 0⟩ :=
    Memory.header_setHeader _ _ _
  simp only [Memory.header, Header.mk.injEq] at hheader
  obtain ⟨hnext, hsize, hcount⟩ := hheader
  exact
    { linked := ⟨rfl, hnext⟩
      count := rfl
      tiles := ⟨rfl, by rw [hsize]; rfl⟩
      free := by simpa using hcount }

namespace Formed

theorem headers_eq (h : a.Formed total hs) : a.headers = hs := by
  rw [headers, h.count, h.linked.follow_eq]

theorem tiled (h : a.Formed total hs) : a.Tiled total := by
  have hheaders := h.headers_eq
  exact
    { linked := hheaders ▸ h.linked
      first := by rw [hheaders, ← h.linked.start_eq]
      free := by simpa [hheaders, Memory.isFree] using h.free
      aligned := by simpa [hheaders, Place.isAligned] using h.tiles.aligned rfl
      header_payload := fun p _ => p.header_payload
      adjacent := hheaders ▸ h.tiles.isChain
      last := by simpa [hheaders] using h.tiles.exists_last }

variable {front back : List Place} {p : Place} {cut : Cut}

/-- All that a split writes: the header of the block and that of the remainder. -/
theorem header_split (h : a.Formed total (front ++ p :: back))
    (hcut : Cut.plan p (a.memory.size p) size = .ok cut) :
    (a.memory.split p size cut).header p = ⟨some cut.remainder, size, a.memory.refcount p⟩ ∧
      (a.memory.split p size cut).header cut.remainder = ⟨a.memory.next p, cut.size, 0⟩ ∧
      ∀ q ∈ front ++ back, (a.memory.split p size cut).header q = a.memory.header q := by
  refine ⟨Memory.header_split_kept (plan_disjoint hcut),
    Memory.header_split_remainder (plan_disjoint hcut), ?_⟩
  intro q hq
  apply Memory.header_split_apart hcut
  obtain ⟨-, hback, hcross⟩ := List.pairwise_append.1 h.tiles.pairwise_disjoint
  rcases List.mem_append.1 hq with hq | hq
  · exact hcross q hq p (by simp)
  · exact ((List.pairwise_cons.1 hback).1 q hq).symm

theorem split (h : a.Formed total (front ++ p :: back))
    (hcut : Cut.plan p (a.memory.size p) size = .ok cut) :
    Formed ⟨a.memory.split p size cut, a.count + 1⟩ total
      (front ++ p :: cut.remainder :: back) := by
  obtain ⟨hroom, -, hplace⟩ := plan_eq_ok_iff.1 hcut
  obtain ⟨hkept, hrest, hothers⟩ := h.header_split hcut
  have hsize : (a.memory.split p size cut).size p = size := congrArg Header.size hkept
  have hsize' : (a.memory.split p size cut).size cut.remainder = cut.size :=
    congrArg Header.size hrest
  exact
    { linked := h.linked.insert (congrArg Header.next hkept) (congrArg Header.next hrest)
        fun q hq => congrArg Header.next (hothers q hq)
      count := by
        rw [h.count]
        simp only [List.length_append, List.length_cons]
        omega
      tiles := h.tiles.split (by rw [hsize, hplace]) (by rw [hsize, hsize', hroom])
        fun q hq => congrArg Header.size (hothers q hq)
      free := by
        intro q hq
        have hcases : q ∈ front ++ back ∨ q = p ∨ q = cut.remainder := by
          simp only [List.mem_append, List.mem_cons] at hq ⊢
          tauto
        rcases hcases with hq | rfl | rfl
        · have hmem : q ∈ front ++ p :: back :=
            List.perm_middle.mem_iff.2 (List.mem_cons_of_mem p hq)
          exact (congrArg Header.refcount (hothers q hq)).trans (h.free q hmem)
        · exact (congrArg Header.refcount hkept).trans (h.free q (by simp))
        · exact congrArg Header.refcount hrest }

theorem sizes_split (h : a.Formed total (front ++ p :: back))
    (hcut : Cut.plan p (a.memory.size p) size = .ok cut) :
    sizes ⟨a.memory.split p size cut, a.count + 1⟩ =
      front.map a.memory.size ++ size :: cut.size :: back.map a.memory.size := by
  obtain ⟨hkept, hrest, hothers⟩ := h.header_split hcut
  have hsize : (a.memory.split p size cut).size p = size := congrArg Header.size hkept
  have hsize' : (a.memory.split p size cut).size cut.remainder = cut.size :=
    congrArg Header.size hrest
  have hsizes :
      (front ++ back).map (a.memory.split p size cut).size = (front ++ back).map a.memory.size :=
    List.map_congr_left fun q hq => congrArg Header.size (hothers q hq)
  rw [List.map_append, List.map_append] at hsizes
  obtain ⟨hfront, hback⟩ := List.append_inj hsizes (by simp)
  rw [sizes, (h.split hcut).headers_eq]
  simp only [List.map_append, List.map_cons, hfront, hback, hsize, hsize']

end Formed

theorem split_eq (a : Arena) (index : Nat) (size : UInt64) :
    split index size a =
      match a.headers[index]? with
      | some h =>
        match Cut.plan h (a.memory.size h) size with
        | .ok cut => .ok () ⟨a.memory.split h size cut, a.count + 1⟩
        | .error fault => .error fault a
      | none => .error (.indexOutOfBounds index a.headers.length) a := by
  simp only [split, bind, EStateM.bind, get, getThe, MonadStateOf.get, EStateM.get]
  cases a.headers[index]? with
  | none => rfl
  | some h =>
      simp only
      cases Cut.plan h (a.memory.size h) size with
      | ok cut => rfl
      | error fault => rfl

theorem Formed.parts (h : a.Formed total hs) {p : Place} (hp : a.headers[index]? = some p) :
    a.Formed total (a.headers.take index ++ p :: a.headers.drop (index + 1)) := by
  obtain ⟨hlt, hget⟩ := List.getElem?_eq_some_iff.1 hp
  rw [← hget, List.getElem_cons_drop, List.take_append_drop, h.headers_eq]
  exact h

theorem Formed.attempt (h : a.Formed total hs) (s : Nat × UInt64) :
    ∃ hs', (a.attempt s).Formed total hs' := by
  rw [Arena.attempt, split_eq]
  cases hp : a.headers[s.1]? with
  | none => exact ⟨hs, h⟩
  | some p =>
      cases hcut : Cut.plan p (a.memory.size p) s.2 with
      | error fault => simpa [hcut] using ⟨hs, h⟩
      | ok cut => simpa [hcut] using ⟨_, (h.parts hp).split hcut⟩

theorem Formed.attemptAll (h : a.Formed total hs) (splits : List (Nat × UInt64)) :
    ∃ hs', (a.attemptAll splits).Formed total hs' := by
  induction splits generalizing a hs with
  | nil => exact ⟨hs, h⟩
  | cons s splits ih =>
      obtain ⟨hs', h'⟩ := h.attempt s
      exact ih h'

/-- What a split of the block at `index`, which has `available` bytes, comes to. -/
structure SplitsExactly (a : Arena) (total : UInt64) (index : Nat) (size available : UInt64) :
    Prop where
  accepted : (∃ b, split index size a = .ok () b) ↔ padded size.toNat + 32 ≤ available.toNat
  divided : ∀ b, split index size a = .ok () b → b.Tiled total ∧
    ∃ rest : UInt64, padded size.toNat + 24 + rest.toNat = available.toNat ∧
      b.sizes = a.sizes.take index ++ size :: rest :: a.sizes.drop (index + 1)
  rejected : available.toNat < padded size.toNat + 32 → split index size a =
    .error (if padded size.toNat + 32 < 2 ^ 64 then .blockTooSmallToSplit else .addOverflow) a

theorem Formed.splitsExactly (h : a.Formed total hs) {available : UInt64}
    (hsize : a.sizes[index]? = some available) : a.SplitsExactly total index size available := by
  rw [sizes, List.getElem?_map, Option.map_eq_some_iff] at hsize
  obtain ⟨p, hp, rfl⟩ := hsize
  have hparts := h.parts hp
  have hsplit := split_eq a index size
  rw [hp] at hsplit
  by_cases hroom : padded size.toNat + 32 ≤ (a.memory.size p).toNat
  · obtain ⟨cut, hcut⟩ := exists_plan (h := p) hroom
    obtain ⟨hsum, -, -⟩ := plan_eq_ok_iff.1 hcut
    simp only [hcut] at hsplit
    refine ⟨iff_of_true ⟨_, hsplit⟩ hroom, ?_, fun hsmall => absurd hroom (Nat.not_le_of_lt hsmall)⟩
    intro b hb
    rw [hsplit, EStateM.Result.ok.injEq] at hb
    obtain ⟨-, rfl⟩ := hb
    refine ⟨(hparts.split hcut).tiled, cut.size, hsum, ?_⟩
    rw [hparts.sizes_split hcut, sizes, List.map_take, List.map_drop]
  · have hsmall := Nat.lt_of_not_le hroom
    have hplan := plan_of_small (h := p) hsmall
    simp only [hplan] at hsplit
    have hfails : ∀ b, Arena.split index size a ≠ .ok () b := by
      intro b hb
      rw [hsplit] at hb
      cases hb
    exact ⟨iff_of_false (fun ⟨b, hb⟩ => hfails b hb) hroom, fun b hb => absurd hb (hfails b),
      fun _ => hsplit⟩

/-- Whatever splits were tried on a block of `total` bytes, at any of its parts and for any size,
the blocks tile it, and the next split goes through exactly when there is room for it. -/
theorem splits_tile_block (total : UInt64) (splits : List (Nat × UInt64)) :
    ((ofBlock total).attemptAll splits).Tiled total ∧
      ∀ (index : Nat) (size available : UInt64),
        ((ofBlock total).attemptAll splits).sizes[index]? = some available →
          ((ofBlock total).attemptAll splits).SplitsExactly total index size available := by
  obtain ⟨hs, h⟩ := (formed_ofBlock total).attemptAll splits
  exact ⟨h.tiled, fun index size available hsize => h.splitsExactly hsize⟩

/-- A block is split for no bytes, its remainder for ten; a third split finds no room. -/
def emptyFirst : Arena :=
  (ofBlock 100).attemptAll [(0, 0), (1, 10), (1, 9)]

theorem emptyFirst_splits :
    emptyFirst.sizes = [0, 10, 36] ∧ ∃ b, split 2 0 emptyFirst = .ok () b ∧ b.Tiled 100 ∧
      b.sizes = [0, 10, 0, 12] := by
  have hsizes : emptyFirst.sizes = [0, 10, 36] := by decide +kernel
  have hexact : emptyFirst.SplitsExactly 100 2 0 36 :=
    (splits_tile_block 100 [(0, 0), (1, 10), (1, 9)]).2 2 0 36 (congrArg (·[2]?) hsizes)
  obtain ⟨b, hb⟩ := hexact.accepted.2 (by decide)
  obtain ⟨htiled, rest, hrest, hdivided⟩ := hexact.divided b hb
  have htwelve : rest = 12 := by
    apply UInt64.toNat.inj
    exact Nat.add_left_cancel (hrest : 24 + rest.toNat = 24 + 12)
  refine ⟨hsizes, b, hb, htiled, ?_⟩
  rw [hdivided, hsizes, htwelve]
  rfl

end Arena

end CountedHeap
