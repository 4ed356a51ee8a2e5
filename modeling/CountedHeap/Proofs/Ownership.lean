import CountedHeap.Proofs.Runs

namespace CountedHeap

/-- The block that a call names. -/
def Call.target : Call → Option Place
  | .retain p => some p
  | .release p => some p
  | .write p _ _ => some p
  | _ => none

theorem Memory.eqOn_write_write {m m' : Memory} {s : Set Place} (p : Place)
    (offset : Nat) (cells : List Cell) (h : Set.EqOn m'.cell m.cell s) :
    Set.EqOn (m'.write p offset cells).cell (m.write p offset cells).cell s := by
  intro q hq
  rw [Memory.write, Memory.write, Memory.cell_store, Memory.cell_store, h hq]

namespace Heap

/-- How often these calls take a reference to a block. -/
def retains (b : Place) (trace : List (Call × Option Place)) : Nat :=
  trace.countP fun step => step.1 = .retain b

/-- How often these calls give one up. -/
def releases (b : Place) (trace : List (Call × Option Place)) : Nat :=
  trace.countP fun step => step.1 = .release b

/-- What a call writes to a block. -/
def rewrite (b : Place) (m : Memory) : Call → Memory
  | .write p offset cells => if p = b then m.write p offset cells else m
  | _ => m

/-- The memory changed by the writes that name a block, and by nothing else. -/
def rewritten (b : Place) (trace : List (Call × Option Place)) (m : Memory) : Memory :=
  trace.foldl (fun m step => rewrite b m step.1) m

section Traces

variable {b : Place} {trace : List (Call × Option Place)} {call : Call} {r : Option Place}

theorem retains_concat : retains b (trace ++ [(call, r)]) =
    retains b trace + if call = .retain b then 1 else 0 := by
  simp [retains, List.countP_append, List.countP_singleton]

theorem releases_concat : releases b (trace ++ [(call, r)]) =
    releases b trace + if call = .release b then 1 else 0 := by
  simp [releases, List.countP_append, List.countP_singleton]

theorem rewritten_concat (m : Memory) :
    rewritten b (trace ++ [(call, r)]) m = rewrite b (rewritten b trace m) call := by
  simp [rewritten]

theorem rewrite_of_target_ne (hcall : call.target ≠ some b) (m : Memory) :
    rewrite b m call = m := by
  cases call with
  | write p offset cells =>
      have hne : p ≠ b := fun heq => hcall (congrArg some heq)
      rw [rewrite, if_neg hne]
  | acquire _ | duplicate _ _ _ | retain _ | release _ | releaseClosure _ => rfl

end Traces

variable {σ : Type} {h h' : Heap σ} {hs hs' : List Place} {b : Place}

/-- The block `b`, which had its header and payload in `m` when it was handed out,
after some calls. -/
structure Owned (m : Memory) (b : Place) (trace : List (Call × Option Place)) (h : Heap σ)
    (hs : List Place) : Prop where
  formed : h.Formed hs
  mem : b.header ∈ hs
  count : (h.memory.refcount b.header).toNat + releases b trace = 1 + retains b trace
  size : h.memory.size b.header = m.size b.header
  payload : Set.EqOn h.memory.cell (rewritten b trace m).cell (b.span (m.size b.header).toNat)

namespace Owned

variable {m : Memory} {trace : List (Call × Option Place)} {call : Call} {r : Option Place}

theorem keep (hown : Owned m b trace h hs) (hcall : call.target ≠ some b) (hf : h'.Formed hs')
    (hmem : b.header ∈ hs') (hkeeps : h.memory.Keeps h'.memory b.header) :
    Owned m b (trace ++ [(call, r)]) h' hs' where
  formed := hf
  mem := hmem
  count := by
    have hretain : call ≠ .retain b := by
      rintro rfl
      exact hcall rfl
    have hrelease : call ≠ .release b := by
      rintro rfl
      exact hcall rfl
    rw [retains_concat, releases_concat, if_neg hretain, if_neg hrelease, hkeeps.refcount]
    exact hown.count
  size := by rw [hkeeps.size, hown.size]
  payload := by
    have hpayload := hkeeps.payload
    rw [Place.payload_header, hown.size] at hpayload
    rw [rewritten_concat, rewrite_of_target_ne hcall]
    exact hpayload.trans hown.payload

theorem recount (hown : Owned m b trace h hs) {d : Int} {n : Nat}
    (hcall : call = .retain b ∨ call = .release b)
    (hn : (h.memory.refcount b.header).toNat + d = n) (hlt : n < 2 ^ 64)
    (hcount : n + releases b (trace ++ [(call, r)]) = 1 + retains b (trace ++ [(call, r)])) :
    Owned m b (trace ++ [(call, r)]) { h with memory := h.memory.addRefcount b.header d } hs := by
  have hm := (Memory.Recounted.refl h.memory hs).addRefcount hown.mem d
  have hsize := congrArg Header.size (h.memory.header_addRefcount b.header d)
  have hrewrite : rewrite b (rewritten b trace m) call = rewritten b trace m := by
    rcases hcall with rfl | rfl <;> rfl
  refine
    { formed := hown.formed.recount hm.regions hm.cells
      mem := hown.mem
      count := ?_
      size := hsize.trans hown.size
      payload := ?_ }
  · rw [h.memory.toNat_refcount_addRefcount b.header hn hlt, hcount]
  · have hpayload := hm.payload hown.formed.laid hown.mem
    rw [Place.payload_header, hown.size] at hpayload
    rw [rewritten_concat, hrewrite]
    exact hpayload.trans hown.payload

theorem keep_of_eqOn (hown : Owned m b trace h hs) {p : Place} {m' : Memory} (hp : p.header ∈ hs)
    (hne : p ≠ b) (hcells : Set.EqOn m'.cell h.memory.cell (h.memory.extent p.header)ᶜ) :
    h.memory.Keeps m' b.header := by
  have hheader : b.header ≠ p.header := fun heq => hne (Place.header_inj.1 heq).symm
  exact (hown.formed.laid.untouched hown.mem hp hheader hcells).mono
    (h.memory.body_subset_extent b.header)

theorem keep_addRefcount (hown : Owned m b trace h hs) {p : Place} (hp : p.header ∈ hs)
    (hne : p ≠ b) (hcall : call.target ≠ some b) (d : Int) :
    Owned m b (trace ++ [(call, r)]) { h with memory := h.memory.addRefcount p.header d } hs := by
  have hm := (Memory.Recounted.refl h.memory hs).addRefcount hp d
  refine hown.keep hcall (hown.formed.recount hm.regions hm.cells) hown.mem ?_
  refine hown.keep_of_eqOn hp hne ((h.memory.eqOn_addRefcount p.header d).mono ?_)
  exact Set.compl_subset_compl.2 (Place.span_add_subset (by omega))

variable [PageSource σ]

theorem request (hown : Owned m b trace h hs) (hlive : releases b trace ≤ retains b trace)
    (hcall : call.isRequest = true) (hanswer : h.Answers call r h') :
    ∃ hs', Owned m b (trace ++ [(call, r)]) h' hs' ∧
      ∀ p, r = some p → p ≠ b ∧ p.header ∈ hs' := by
  have htarget : call.target ≠ some b := by
    cases call <;> simp_all [Call.isRequest, Call.target]
  rcases hanswer.request hown.formed hcall with ⟨rfl, hs', hgrown⟩ | ⟨a, hs', rfl, hissued⟩
  · refine ⟨hs', hown.keep htarget hgrown.formed (hgrown.before.subset hown.mem)
      (hgrown.kept _ hown.mem), ?_⟩
    intro p hp
    cases hp
  · have hne : b.header ≠ a := by
      rintro rfl
      have hcount := hown.count
      rw [hissued.unused hown.mem, UInt64.toNat_zero] at hcount
      omega
    refine ⟨hs', hown.keep htarget hissued.formed (hissued.sublist.subset hown.mem)
      (hissued.kept _ hown.mem hne), ?_⟩
    rintro p ⟨⟩
    rw [Place.header_payload]
    refine ⟨?_, hissued.mem⟩
    rintro rfl
    exact hne a.header_payload

theorem retain (hown : Owned m b trace h hs) {p : Place} (hp : p.header ∈ hs)
    (hanswer : h.Answers (.retain p) r h') : Owned m b (trace ++ [(.retain p, r)]) h' hs := by
  obtain ⟨-, hlt, rfl⟩ := hanswer.retain hown.formed hp
  by_cases hpb : p = b
  · subst hpb
    refine hown.recount (.inl rfl) (by rfl) hlt ?_
    have hcount := hown.count
    simp only [retains_concat, releases_concat, if_true, reduceCtorEq, if_false]
    omega
  · have htarget : (Call.retain p).target ≠ some b := fun htarget => hpb (Option.some.inj htarget)
    exact hown.keep_addRefcount hp hpb htarget 1

theorem release (hown : Owned m b trace h hs)
    (hlive : releases b trace ≤ retains b trace) {p : Place}
    (hp : p.header ∈ hs) (hanswer : h.Answers (.release p) r h') :
    Owned m b (trace ++ [(.release p, r)]) h' hs := by
  obtain ⟨-, rfl⟩ := hanswer.release hown.formed hp
  by_cases hpb : p = b
  · subst hpb
    have hcount := hown.count
    have hpos : h.memory.refcount p.header ≠ 0 := by
      intro hzero
      rw [hzero, UInt64.toNat_zero] at hcount
      omega
    have hlt := (h.memory.refcount p.header).toNat_lt
    obtain ⟨n, hn⟩ : ∃ n, (h.memory.refcount p.header).toNat = n + 1 :=
      ⟨(h.memory.refcount p.header).toNat - 1, by omega⟩
    rw [if_neg hpos]
    refine hown.recount (.inr rfl) (by rw [hn]; omega) (by omega : n < 2 ^ 64) ?_
    simp only [retains_concat, releases_concat, if_true, reduceCtorEq, if_false]
    omega
  · have htarget : (Call.release p).target ≠ some b := fun htarget => hpb (Option.some.inj htarget)
    split
    · exact hown.keep htarget hown.formed hown.mem (.refl _ _)
    · exact hown.keep_addRefcount hp hpb htarget (-1)

theorem write (hown : Owned m b trace h hs) {p : Place} (hp : p.header ∈ hs) {offset : Nat}
    {cells : List Cell} (hroom : offset + cells.length ≤ (h.memory.size p.header).toNat)
    (hanswer : h.Answers (.write p offset cells) r h') :
    Owned m b (trace ++ [(.write p offset cells, r)]) h' hs := by
  obtain ⟨-, rfl⟩ := hanswer.write
  have hregions := h.memory.regions_write p offset cells
  have hcells : Set.EqOn (h.memory.write p offset cells).cell h.memory.cell
      (p.header.payload.span (h.memory.size p.header).toNat)ᶜ := by
    rw [Place.payload_header]
    exact h.memory.eqOn_write p hroom
  have hf := hown.formed.rewrite hp hregions hcells
  by_cases hpb : p = b
  · subst hpb
    have hheader := hown.formed.laid.header_eq_of_payload hp hp hcells
    refine
      { formed := hf
        mem := hp
        count := ?_
        size := (congrArg Header.size hheader).trans hown.size
        payload := ?_ }
    · have hcount :
          (h.memory.write p offset cells).refcount p.header = h.memory.refcount p.header :=
        congrArg Header.refcount hheader
      rw [hcount]
      simpa only [retains_concat, releases_concat, reduceCtorEq, if_false,
        Nat.add_zero] using hown.count
    · rw [rewritten_concat, rewrite, if_pos rfl]
      exact Memory.eqOn_write_write p offset cells hown.payload
  · have htarget : (Call.write p offset cells).target ≠ some b := fun htarget =>
      hpb (Option.some.inj htarget)
    refine hown.keep htarget hf hown.mem (hown.keep_of_eqOn hp hpb (hcells.mono ?_))
    exact Set.compl_subset_compl.2 (h.memory.payload_subset_extent p.header)

theorem step (hown : Owned m b trace h hs) (hlive : releases b trace ≤ retains b trace)
    (hcall : ∀ w, call ≠ .releaseClosure w) (hpermits : h.Permits call)
    (hanswer : h.Answers call r h') : ∃ hs', Owned m b (trace ++ [(call, r)]) h' hs' := by
  have hrequest (hcall : call.isRequest = true) :
      ∃ hs', Owned m b (trace ++ [(call, r)]) h' hs' := by
    obtain ⟨hs', hown', -⟩ := hown.request hlive hcall hanswer
    exact ⟨hs', hown'⟩
  cases call with
  | acquire size => exact hrequest rfl
  | duplicate origin initialized total => exact hrequest rfl
  | retain p => exact ⟨hs, hown.retain (hown.formed.names_iff.1 hpermits) hanswer⟩
  | release p => exact ⟨hs, hown.release hlive (hown.formed.names_iff.1 hpermits) hanswer⟩
  | releaseClosure w => exact (hcall w rfl).elim
  | write p offset cells =>
      obtain ⟨hnames, hroom⟩ := hpermits
      exact ⟨hs, hown.write (hown.formed.names_iff.1 hnames) hroom hanswer⟩

theorem run {rest : List (Call × Option Place)} (hown : Owned m b trace h hs) (hrun : Run h rest h')
    (hcalls : ∀ step ∈ rest, ∀ w, step.1 ≠ .releaseClosure w)
    (hlive : ∀ front, front <+: rest → releases b (trace ++ front) ≤ retains b (trace ++ front)) :
    ∃ hs', Owned m b (trace ++ rest) h' hs' := by
  induction hrun generalizing trace hs with
  | nil h => exact ⟨hs, by rwa [List.append_nil]⟩
  | @cons h mid h' call r rest hpermits hanswer _ ih =>
      have hnow := hlive [] List.nil_prefix
      rw [List.append_nil] at hnow
      obtain ⟨hs₁, hown₁⟩ := hown.step hnow (hcalls _ List.mem_cons_self) hpermits hanswer
      have hassoc (l : List (Call × Option Place)) :
          trace ++ [(call, r)] ++ l = trace ++ (call, r) :: l := by
        rw [List.append_assoc, List.singleton_append]
      rw [← hassoc]
      refine ih hown₁ (fun step hstep => hcalls step (List.mem_cons_of_mem _ hstep)) ?_
      intro front hfront
      rw [hassoc]
      exact hlive _ (List.cons_prefix_cons.2 ⟨rfl, hfront⟩)

end Owned

theorem Issued.owned {a : Place} (hissued : Issued h hs a h' hs') :
    Owned h'.memory a.payload [] h' hs' where
  formed := hissued.formed
  mem := by
    rw [Place.header_payload]
    exact hissued.mem
  count := by
    rw [Place.header_payload, hissued.count]
    rfl
  size := rfl
  payload := Set.eqOn_refl _ _

section Queries

theorem Formed.refcount_eq (hf : h.Formed hs) (hb : b.header ∈ hs) :
    refcount b h = .ok (h.memory.refcount b.header) h := by
  rw [refcount, run_bind, hf.headerOf_eq hb]
  rfl

theorem Formed.isUnique_eq (hf : h.Formed hs) (hb : b.header ∈ hs) :
    isUnique b h = .ok (h.memory.refcount b.header == 1) h := by
  rw [isUnique, run_bind, hf.refcount_eq hb]
  rfl

theorem Formed.disjoint_payload (hf : h.Formed hs) {p : Place} (hp : p.header ∈ hs)
    (hb : b.header ∈ hs) (hne : p ≠ b) :
    Disjoint (p.span (h.memory.size p.header).toNat) (b.span (h.memory.size b.header).toNat) := by
  have hapart := (hf.laid.disjoint hp hb fun heq => hne (Place.header_inj.1 heq)).mono
    (h.memory.payload_subset_extent p.header) (h.memory.payload_subset_extent b.header)
  rwa [Place.payload_header, Place.payload_header] at hapart

theorem Formed.usableSize_eq (hf : h.Formed hs) (hb : b.header ∈ hs) :
    usableSize b h = .ok (h.memory.size b.header) h := by
  rw [usableSize, run_bind, hf.headerOf_eq hb]
  rfl

end Queries

variable [PageSource σ]

theorem Answers.isRequest {call : Call} {p : Place} (hanswer : h.Answers call (some p) h') :
    call.isRequest = true := by
  have hok : perform call h = .ok (some p) h' := by
    simpa using answer?_eq_some_iff.1 hanswer
  cases call with
  | acquire _ | duplicate _ _ _ => rfl
  | retain _ | release _ | releaseClosure _ | write _ _ _ =>
      rw [perform, bind_eq_ok_iff] at hok
      obtain ⟨_, _, -, hok⟩ := hok
      cases hok

/-- From the call that hands a block out on, as long as the calls that name it have not given up
more references than they took: the count is what these calls say, no request is answered with the
block or with bytes of it, and the size in its header stays, and so do its bytes but for the writes
that name it. -/
theorem live_block_is_owned (config : Config) (source : σ) {h₀ h₁ : Heap σ}
    {before trace : List (Call × Option Place)} {request : Call}
    (hbefore : Run (empty config source) before h₀) (hgiven : h₀.Answers request (some b) h₁)
    (hrun : Run h₁ trace h) (hcalls : ∀ step ∈ trace, ∀ w, step.1 ≠ .releaseClosure w)
    (hlive : ∀ front, front <+: trace → releases b front ≤ retains b front) :
    (∃ count, refcount b h = .ok count h ∧ count.toNat = 1 + retains b trace - releases b trace) ∧
      isUnique b h = .ok (decide (retains b trace = releases b trace)) h ∧
      ∃ size, h₁.memory.size b.header = size ∧ h.memory.size b.header = size ∧
        usableSize b h₁ = .ok size h₁ ∧ usableSize b h = .ok size h ∧
        (∀ i, i < size.toNat → h.memory.cell (b + i) = (rewritten b trace h₁.memory).cell (b + i)) ∧
        ∀ call p h', h.Answers call (some p) h' →
          p ≠ b ∧ ∃ n, h'.memory.size p.header = n ∧ usableSize p h' = .ok n h' ∧
            Disjoint (p.span n.toNat) (b.span size.toNat) := by
  obtain ⟨hs₀, hf₀, -⟩ := hbefore.formed (formed_empty config source)
  obtain ⟨hs₁, hgiven₁⟩ : ∃ hs₁, Owned h₁.memory b [] h₁ hs₁ := by
    rcases hgiven.request hf₀ hgiven.isRequest with ⟨hnone, -⟩ | ⟨a, hs₁, hsome, hissued⟩
    · cases hnone
    · cases hsome
      exact ⟨hs₁, hissued.owned⟩
  obtain ⟨hs, hown⟩ := hgiven₁.run hrun hcalls hlive
  rw [List.nil_append] at hown
  have hnow := hlive trace List.prefix_rfl
  have hcount := hown.count
  refine ⟨⟨_, hown.formed.refcount_eq hown.mem, by omega⟩, ?_, h₁.memory.size b.header, rfl,
    hown.size, hgiven₁.formed.usableSize_eq hgiven₁.mem, ?_, ?_, ?_⟩
  · rw [hown.formed.isUnique_eq hown.mem]
    congr 1
    rw [Bool.eq_iff_iff, beq_iff_eq, decide_eq_true_eq, ← UInt64.toNat_inj, UInt64.toNat_one]
    omega
  · rw [hown.formed.usableSize_eq hown.mem, hown.size]
  · intro i hi
    exact hown.payload (Place.add_mem_span hi)
  · intro call p h' hanswer
    obtain ⟨hs', hown', hp⟩ := hown.request hnow hanswer.isRequest hanswer
    obtain ⟨hne, hmem⟩ := hp p rfl
    refine ⟨hne, _, rfl, hown'.formed.usableSize_eq hmem, ?_⟩
    rw [← hown'.size]
    exact hown'.formed.disjoint_payload hmem hown'.mem hne

section SharedBlock

def firstCalls : List (Call × Option Place) :=
  [(.acquire 20, some ⟨0, 24⟩), (.release ⟨0, 24⟩, none)]

def firstHeap : Heap SystemPages :=
  afterAll (empty (.ofSegmentSize 200) ⟨⟩) firstCalls

def sharedBlock : Place := ⟨0, 72⟩

def givenHeap : Heap SystemPages :=
  firstHeap.after (.acquire 24)

/-- The block is shared, written to and given up once. The block before it is written to through the
old pointer, and handed out again. -/
def sharedCalls : List (Call × Option Place) :=
  [(.retain sharedBlock, none), (.write ⟨0, 24⟩ 16 (List.replicate 4 (.byte 7)), none),
    (.write sharedBlock 3 [.byte 1, .byte 2], none), (.release sharedBlock, none),
    (.acquire 8, some ⟨0, 24⟩)]

def sharedHeap : Heap SystemPages :=
  afterAll givenHeap sharedCalls

theorem firstCalls_run : Run (empty (.ofSegmentSize 200) ⟨⟩) firstCalls firstHeap :=
  .of_plays (by decide +kernel)

theorem sharedCalls_run : Run givenHeap sharedCalls sharedHeap :=
  .of_plays (by decide +kernel)

theorem sharedCalls_live (front : List (Call × Option Place)) (hfront : front <+: sharedCalls) :
    releases sharedBlock front ≤ retains sharedBlock front := by
  have hall : ∀ n : Fin 6, releases sharedBlock (sharedCalls.take n) ≤
      retains sharedBlock (sharedCalls.take n) := by decide
  rw [List.prefix_iff_eq_take.1 hfront]
  exact hall ⟨front.length, Nat.lt_succ_of_le hfront.length_le⟩

theorem sharedHeap_owned :
    (∃ count, refcount sharedBlock sharedHeap = .ok count sharedHeap ∧
        count.toNat = 1 + retains sharedBlock sharedCalls - releases sharedBlock sharedCalls) ∧
      isUnique sharedBlock sharedHeap = .ok
        (decide (retains sharedBlock sharedCalls = releases sharedBlock sharedCalls)) sharedHeap ∧
      ∃ size, givenHeap.memory.size sharedBlock.header = size ∧
        sharedHeap.memory.size sharedBlock.header = size ∧
        usableSize sharedBlock givenHeap = .ok size givenHeap ∧
        usableSize sharedBlock sharedHeap = .ok size sharedHeap ∧
        (∀ i, i < size.toNat → sharedHeap.memory.cell (sharedBlock + i) =
          (rewritten sharedBlock sharedCalls givenHeap.memory).cell (sharedBlock + i)) ∧
        ∀ call p h', sharedHeap.Answers call (some p) h' →
          p ≠ sharedBlock ∧ ∃ n, h'.memory.size p.header = n ∧ usableSize p h' = .ok n h' ∧
            Disjoint (p.span n.toNat) (sharedBlock.span size.toNat) := by
  have hgiven : firstHeap.Answers (.acquire 24) (some sharedBlock) givenHeap :=
    .after (by decide +kernel)
  have hcalls : ∀ step ∈ sharedCalls, ∀ w, step.1 ≠ .releaseClosure w := by
    simp [sharedCalls]
  exact live_block_is_owned _ _ firstCalls_run hgiven sharedCalls_run hcalls sharedCalls_live

end SharedBlock

end Heap

end CountedHeap
