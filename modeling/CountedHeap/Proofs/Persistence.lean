import CountedHeap.Proofs.Faults

namespace CountedHeap.Heap

variable {σ : Type} [PageSource σ]

/-- Calls that a program may make one after the other, with what they come to. It goes on after
every outcome but a fault. -/
inductive History : Heap σ → List (Call × Except Failure (Option Place)) → Heap σ → Prop
  | nil (h : Heap σ) : History h [] h
  | cons {h h' : Heap σ} {call : Call} {result : Except Failure (Option Place)}
      {rest : List (Call × Except Failure (Option Place))} (hpermits : h.Permits call)
      (hresult : outcome (perform call h) = result)
      (hgoes : ∀ fault, result ≠ .error (.faulted fault))
      (hrest : History (final (perform call h)) rest h') : History h ((call, result) :: rest) h'

variable {h mid h' : Heap σ} {hs hs₁ hs' : List Place} {call : Call}
  {result : Except Failure (Option Place)} {r : Option Place}
  {front back trace : List (Call × Except Failure (Option Place))}

theorem History.append (hfront : History h front mid) (hback : History mid back h') :
    History h (front ++ back) h' := by
  induction hfront with
  | nil _ => exact hback
  | cons hpermits hresult hgoes _ ih => exact .cons hpermits hresult hgoes (ih hback)

/-- What is left of the blocks after a history. -/
structure Persists (h : Heap σ) (hs : List Place)
    (trace : List (Call × Except Failure (Option Place)))
    (h' : Heap σ) (hs' : List Place) : Prop where
  formed : h'.Formed hs'
  sublist : hs.Sublist hs'
  shrunk : ∀ a ∈ hs, h'.memory.size a ≤ h.memory.size a
  resized : ∀ a ∈ hs, h'.memory.size a ≠ h.memory.size a → ∃ front call back mid,
    trace = front ++ (call, .ok (some a.payload)) :: back ∧ call.isRequest = true ∧
      History h front mid ∧ mid.memory.refcount a = 0
  named : ∀ step ∈ trace, ∀ p, step.2 = .ok (some p) → p.header ∈ hs'

namespace Persists

theorem refl (hf : h.Formed hs) : Persists h hs [] h hs where
  formed := hf
  sublist := .refl hs
  shrunk := fun _ _ => UInt64.le_refl _
  resized := fun _ _ hne => (hne rfl).elim
  named := fun _ hstep => nomatch hstep

theorem trans (hfirst : Persists h hs front mid hs₁) (hhistory : History h front mid)
    (hsecond : Persists mid hs₁ back h' hs') : Persists h hs (front ++ back) h' hs' where
  formed := hsecond.formed
  sublist := hfirst.sublist.trans hsecond.sublist
  shrunk := fun a ha =>
    UInt64.le_trans (hsecond.shrunk a (hfirst.sublist.subset ha)) (hfirst.shrunk a ha)
  resized := by
    intro a ha hne
    -- The block was resized in the first part or, if it was not, in the second.
    by_cases hsame : mid.memory.size a = h.memory.size a
    · rw [← hsame] at hne
      obtain ⟨before, call, after, heap, rfl, hcall, hbefore, hfree⟩ :=
        hsecond.resized a (hfirst.sublist.subset ha) hne
      exact ⟨front ++ before, call, after, heap, (List.append_assoc _ _ _).symm, hcall,
        hhistory.append hbefore, hfree⟩
    · obtain ⟨before, call, after, heap, rfl, hcall, hbefore, hfree⟩ := hfirst.resized a ha hsame
      exact ⟨before, call, after ++ back, heap, by rw [List.append_assoc, List.cons_append], hcall,
        hbefore, hfree⟩
  named := by
    intro step hstep p hp
    rcases List.mem_append.1 hstep with hstep | hstep
    · exact hsecond.sublist.subset (hfirst.named step hstep p hp)
    · exact hsecond.named step hstep p hp

theorem of_sizes (hf : h'.Formed hs') (hsub : hs.Sublist hs')
    (hsizes : ∀ a ∈ hs, h'.memory.size a = h.memory.size a) (hnone : ∀ p, result ≠ .ok (some p)) :
    Persists h hs [(call, result)] h' hs' where
  formed := hf
  sublist := hsub
  shrunk := fun a ha => by
    rw [hsizes a ha]
    exact UInt64.le_refl _
  resized := fun a ha hne => (hne (hsizes a ha)).elim
  named := by
    intro step hstep p hp
    cases List.mem_singleton.1 hstep
    exact (hnone p hp).elim

theorem of_issued {a : Place} (hissued : Issued h hs a h' hs') (hcall : call.isRequest = true) :
    Persists h hs [(call, .ok (some a.payload))] h' hs' where
  formed := hissued.formed
  sublist := hissued.sublist
  shrunk := by
    intro b hb
    rcases eq_or_ne b a with rfl | hne
    · exact hissued.shrunk hb
    · rw [(hissued.kept b hb hne).size]
      exact UInt64.le_refl _
  resized := by
    intro b hb hresized
    rcases eq_or_ne b a with rfl | hne
    · exact ⟨[], call, [], h, rfl, hcall, .nil h, hissued.unused hb⟩
    · exact (hresized (hissued.kept b hb hne).size).elim
  named := by
    intro step hstep p hp
    cases List.mem_singleton.1 hstep
    cases hp
    rw [Place.header_payload]
    exact hissued.mem

end Persists

theorem Answers.final_eq (hanswer : h.Answers call r h') : final (perform call h) = h' := by
  rcases answer?_eq_some_iff.1 hanswer with hok | ⟨-, cause, hrefused⟩
  · rw [hok]
    rfl
  · rw [hrefused]
    rfl

theorem Answers.outcome_eq_iff {p : Place} (hanswer : h.Answers call r h') :
    outcome (perform call h) = .ok (some p) ↔ r = some p := by
  rcases answer?_eq_some_iff.1 hanswer with hok | ⟨rfl, cause, hrefused⟩
  · rw [hok]
    simp [outcome]
  · rw [hrefused]
    simp [outcome]

theorem request_persists (hf : h.Formed hs) (hcall : call.isRequest = true)
    (hgoes : ∀ fault, outcome (perform call h) ≠ .error (.faulted fault)) :
    ∃ hs', Persists h hs [(call, outcome (perform call h))] (final (perform call h)) hs' := by
  rcases request_cases hf hcall with ⟨r, h', hanswer⟩ | ⟨mid, hs₁, len, h', hfault, -, -⟩
  · rw [hanswer.final_eq]
    rcases hanswer.request hf hcall with ⟨rfl, hs', hgrown⟩ | ⟨a, hs', rfl, hissued⟩
    · refine ⟨hs', .of_sizes hgrown.formed hgrown.before.sublist ?_ ?_⟩
      · intro a ha
        exact (hgrown.kept a ha).size
      · intro p hp
        cases hanswer.outcome_eq_iff.1 hp
    · rw [hanswer.outcome_eq_iff.2 rfl]
      exact ⟨hs', .of_issued hissued hcall⟩
  · rw [hfault] at hgoes
    exact (hgoes _ rfl).elim

theorem recounted_persists {m : Memory} (log : Array Event) (hf : h.Formed hs)
    (hm : h.memory.Recounted hs m) (hnone : ∀ p, result ≠ .ok (some p)) :
    Persists h hs [(call, result)] { h with memory := m, log } hs := by
  have hf' := hf.recount hm.regions hm.cells
  refine .of_sizes (hf'.congr rfl rfl rfl rfl (fun _ _ => rfl) fun _ _ => rfl) (.refl hs) ?_ hnone
  intro a ha
  exact hm.size hf.laid ha

theorem retain_persists {p : Place} (hf : h.Formed hs) (hp : p.header ∈ hs)
    (hgoes : ∀ fault, outcome (perform (.retain p) h) ≠ .error (.faulted fault)) :
    Persists h hs [(.retain p, outcome (perform (.retain p) h))]
      (final (perform (.retain p) h)) hs := by
  simp only [perform, run_bind, hf.retain_eq hp] at hgoes ⊢
  cases hsum : Size.add (h.memory.refcount p.header) 1 with
  | ok sum =>
      have hm := (Memory.Recounted.refl h.memory hs).addRefcount hp 1
      exact recounted_persists h.log hf hm (by simp [outcome])
  | error fault =>
      rw [hsum] at hgoes
      exact (hgoes fault rfl).elim

theorem release_persists {p : Place} (hf : h.Formed hs) (hp : p.header ∈ hs) :
    Persists h hs [(.release p, outcome (perform (.release p) h))]
      (final (perform (.release p) h)) hs := by
  simp only [perform, run_bind, hf.release_eq hp, run_pure]
  have hm : h.memory.Recounted hs (if h.memory.refcount p.header = 0 then h.memory
      else h.memory.addRefcount p.header (-1)) := by
    split
    · exact .refl _ _
    · exact (Memory.Recounted.refl h.memory hs).addRefcount hp (-1)
  exact recounted_persists h.log hf hm (by simp [outcome])

theorem releaseClosure_persists {w : Word} (hf : h.Formed hs) (hw : h.memory.Releasable hs w) :
    Persists h hs [(.releaseClosure w, outcome (perform (.releaseClosure w) h))]
      (final (perform (.releaseClosure w) h)) hs := by
  obtain ⟨m, log, hm, hrun | ⟨failure, hrun⟩⟩ := releaseClosure_recounted hf hw
  · simp only [perform, run_bind, hrun, run_pure]
    exact recounted_persists log hf hm (by simp [outcome])
  · simp only [perform, run_bind, hrun]
    exact recounted_persists log hf hm (by simp [outcome])

theorem write_persists {p : Place} {offset : Nat} {cells : List Cell} (hf : h.Formed hs)
    (hp : p.header ∈ hs) (hroom : offset + cells.length ≤ (h.memory.size p.header).toNat) :
    Persists h hs [(.write p offset cells, outcome (perform (.write p offset cells) h))]
      (final (perform (.write p offset cells) h)) hs := by
  have hcells : Set.EqOn (h.memory.write p offset cells).cell h.memory.cell
      (p.header.payload.span (h.memory.size p.header).toNat)ᶜ := by
    rw [Place.payload_header]
    exact h.memory.eqOn_write p hroom
  refine .of_sizes (hf.rewrite hp (h.memory.regions_write _ _ _) hcells) (.refl hs) ?_
    (by simp [outcome, perform])
  intro a ha
  exact congrArg Header.size (hf.laid.header_eq_of_payload ha hp hcells)

theorem step_persists (hf : h.Formed hs) (hpermits : h.Permits call)
    (hgoes : ∀ fault, outcome (perform call h) ≠ .error (.faulted fault)) :
    ∃ hs', Persists h hs [(call, outcome (perform call h))] (final (perform call h)) hs' := by
  cases call with
  | acquire size => exact request_persists hf rfl hgoes
  | duplicate origin initialized total => exact request_persists hf rfl hgoes
  | retain p => exact ⟨hs, retain_persists hf (hf.names_iff.1 hpermits) hgoes⟩
  | release p => exact ⟨hs, release_persists hf (hf.names_iff.1 hpermits)⟩
  | releaseClosure w =>
      obtain ⟨nodes, hnodes, hw⟩ := hpermits
      obtain rfl := hf.unique hnodes
      exact ⟨_, releaseClosure_persists hf hw⟩
  | write p offset cells =>
      obtain ⟨hnames, hroom⟩ := hpermits
      exact ⟨hs, write_persists hf (hf.names_iff.1 hnames) hroom⟩

theorem History.persists (hhistory : History h trace h') (hf : h.Formed hs) :
    ∃ hs', Persists h hs trace h' hs' := by
  induction hhistory generalizing hs with
  | nil h => exact ⟨hs, .refl hf⟩
  | cons hpermits hresult hgoes _ ih =>
      subst hresult
      obtain ⟨hs₁, hstep⟩ := step_persists hf hpermits hgoes
      obtain ⟨hs', hrest⟩ := ih hstep.formed
      exact ⟨hs', hstep.trans (.cons hpermits rfl hgoes (.nil _)) hrest⟩

/-- Blocks are never moved, merged or lost. From any heap that a history leads to, a further one
keeps the blocks and their order. No block gets larger, and one that gets smaller is handed out on
the way, at a time when it is free. Every pointer that was ever handed out names a block. -/
theorem blocks_persist (config : Config) (source : σ)
    {before : List (Call × Except Failure (Option Place))}
    (hbefore : History (empty config source) before h) (hhistory : History h trace h') :
    ∃ hs hs', h.chain.nodes h.memory = .ok hs ∧ h'.chain.nodes h'.memory = .ok hs' ∧
      hs.Sublist hs' ∧
      (∀ a ∈ hs, h'.memory.size a ≤ h.memory.size a ∧
        (h'.memory.size a ≠ h.memory.size a → ∃ front call back mid,
          trace = front ++ (call, .ok (some a.payload)) :: back ∧ call.isRequest = true ∧
            History h front mid ∧ mid.memory.refcount a = 0)) ∧
      ∀ step ∈ before ++ trace, ∀ p, step.2 = .ok (some p) →
        ∃ a ∈ hs', p = a.payload ∧ headerOf p h' = .ok a h' := by
  obtain ⟨hs, hfirst⟩ := hbefore.persists (formed_empty config source)
  obtain ⟨hs', hsecond⟩ := hhistory.persists hfirst.formed
  refine ⟨hs, hs', hfirst.formed.nodes_eq, hsecond.formed.nodes_eq, hsecond.sublist, ?_, ?_⟩
  · intro a ha
    exact ⟨hsecond.shrunk a ha, hsecond.resized a ha⟩
  · intro step hstep p hp
    have hmem := (hfirst.trans hbefore hsecond).named step hstep p hp
    exact ⟨p.header, hmem, p.payload_header.symm, hsecond.formed.headerOf_eq hmem⟩

section Stale

def staleHeap : Heap SystemPages :=
  final (perform (.acquire 80) (empty (.ofSegmentSize 200) ⟨⟩))

/-- A closure is given back once and once more, a request is refused, and then the block is handed
out again and cut. -/
def staleCalls : List (Call × Except Failure (Option Place)) :=
  [(.write ⟨0, 24⟩ 0 ((List.range 8).map (Word.function ⟨0⟩).cell), .ok none),
    (.release ⟨0, 24⟩, .ok none),
    (.releaseClosure (.ofPlace ⟨0, 24⟩), .error (.aborted (.doubleRelease ⟨0, 24⟩))),
    (.acquire 0xffffffffffffffff, .error (.refused (.sizeOverflow 0xffffffffffffffff))),
    (.acquire 8, .ok (some ⟨0, 24⟩))]

def cutHeap : Heap SystemPages :=
  staleCalls.foldl (fun h step => final (perform step.1 h)) staleHeap

theorem staleHeap_history :
    History (empty (.ofSegmentSize 200) ⟨⟩) [(.acquire 80, .ok (some ⟨0, 24⟩))] staleHeap :=
  .cons trivial (by decide +kernel) (by simp) (.nil _)

theorem staleCalls_history : History staleHeap staleCalls cutHeap := by
  refine .cons (permits_of_checks (by decide +kernel)) (by decide +kernel) (by simp) ?_
  refine .cons (permits_of_checks (by decide +kernel)) (by decide +kernel) (by simp) ?_
  refine .cons ⟨[⟨0, 0⟩], by decide +kernel, ?_⟩ (by decide +kernel) (by simp) ?_
  · exact .of_places (S := {⟨0, 24⟩}) (by decide) (by decide +kernel)
  refine .cons trivial (by decide +kernel) (by simp) ?_
  exact .cons trivial (by decide +kernel) (by simp) (.nil _)

theorem cutHeap_persists :
    cutHeap.memory.size ⟨0, 0⟩ < staleHeap.memory.size ⟨0, 0⟩ ∧
      ∃ hs hs', staleHeap.chain.nodes staleHeap.memory = .ok hs ∧
        cutHeap.chain.nodes cutHeap.memory = .ok hs' ∧ hs.Sublist hs' ∧
        (∀ a ∈ hs, cutHeap.memory.size a ≤ staleHeap.memory.size a ∧
          (cutHeap.memory.size a ≠ staleHeap.memory.size a → ∃ front call back mid,
            staleCalls = front ++ (call, .ok (some a.payload)) :: back ∧ call.isRequest = true ∧
              History staleHeap front mid ∧ mid.memory.refcount a = 0)) ∧
        ∀ step ∈ [(.acquire 80, .ok (some ⟨0, 24⟩))] ++ staleCalls, ∀ p, step.2 = .ok (some p) →
          ∃ a ∈ hs', p = a.payload ∧ headerOf p cutHeap = .ok a cutHeap :=
  ⟨by decide +kernel, blocks_persist _ _ staleHeap_history staleCalls_history⟩

end Stale

end CountedHeap.Heap
