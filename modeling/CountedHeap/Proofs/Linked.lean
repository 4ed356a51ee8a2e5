import CountedHeap.Chain.Basic

namespace CountedHeap

namespace Memory

/-- The links lead from `start` through these blocks to `stop`. -/
def Linked (m : Memory) : Option Place → List Place → Option Place → Prop
  | start, [], stop => start = stop
  | start, h :: hs, stop => start = some h ∧ m.Linked (m.next h) hs stop

namespace Linked

variable {m m' : Memory} {start stop : Option Place} {hs ks : List Place}

theorem append_iff :
    m.Linked start (hs ++ ks) stop ↔ ∃ mid, m.Linked start hs mid ∧ m.Linked mid ks stop := by
  induction hs generalizing start with
  | nil =>
      constructor
      · intro h
        exact ⟨start, rfl, h⟩
      · rintro ⟨mid, rfl, h⟩
        exact h
  | cons a hs ih =>
      constructor
      · rintro ⟨rfl, h⟩
        obtain ⟨mid, hhs, hks⟩ := ih.1 h
        exact ⟨mid, ⟨rfl, hhs⟩, hks⟩
      · rintro ⟨mid, ⟨rfl, hhs⟩, hks⟩
        exact ⟨rfl, ih.2 ⟨mid, hhs, hks⟩⟩

theorem congr (h : m.Linked start hs stop) (hnext : ∀ a ∈ hs, m'.next a = m.next a) :
    m'.Linked start hs stop := by
  induction hs generalizing start with
  | nil => exact h
  | cons a hs ih =>
      obtain ⟨rfl, hrest⟩ := h
      refine ⟨rfl, ?_⟩
      rw [hnext a (by simp)]
      exact ih hrest fun b hb => hnext b (by simp [hb])

theorem insert {h node : Place} (hlinked : m.Linked start (hs ++ h :: ks) stop)
    (hh : m'.next h = some node) (hnode : m'.next node = m.next h)
    (hnext : ∀ a ∈ hs ++ ks, m'.next a = m.next a) :
    m'.Linked start (hs ++ h :: node :: ks) stop := by
  obtain ⟨mid, hfront, rfl, hback⟩ := append_iff.1 hlinked
  refine append_iff.2 ⟨some h, hfront.congr fun a ha => hnext a (by simp [ha]), rfl, hh, ?_⟩
  rw [hnode]
  exact hback.congr fun a ha => hnext a (by simp [ha])

theorem concat {last node : Place} (hlinked : m.Linked start (hs ++ [last]) none)
    (hlast : m'.next last = some node) (hnode : m'.next node = none)
    (hnext : ∀ a ∈ hs, m'.next a = m.next a) :
    m'.Linked start (hs ++ [last] ++ [node]) none := by
  obtain ⟨mid, hfront, rfl, -⟩ := append_iff.1 hlinked
  rw [List.append_assoc]
  exact append_iff.2 ⟨some last, hfront.congr hnext, rfl, hlast, hnode⟩

theorem start_eq (h : m.Linked start hs none) : start = hs.head? := by
  cases hs with
  | nil => exact h
  | cons a hs => exact h.1

theorem next_eq {a b : Place} (h : m.Linked start (hs ++ a :: b :: ks) stop) :
    m.next a = some b := by
  obtain ⟨_, -, -, hnext, -⟩ := append_iff.1 h
  exact hnext

theorem mem_of_next {a b : Place} (h : m.Linked start hs none) (ha : a ∈ hs)
    (hnext : m.next a = some b) : b ∈ hs := by
  obtain ⟨front, back, rfl⟩ := List.append_of_mem ha
  obtain ⟨_, -, -, hback⟩ := append_iff.1 h
  have hb : b ∈ back := List.mem_of_head? (hback.start_eq.symm.trans hnext)
  simp [hb]

end Linked

end Memory

namespace Cursor

variable {m : Memory} {start : Option Place} {hs : List Place}

theorem take_eq (h : m.Linked start hs none) {n : Nat} (hn : hs.length ≤ n) (k : Nat) :
    take m k ⟨start, n⟩ = .ok (hs.take k, ⟨(hs.drop k).head?, n - min k hs.length⟩) := by
  induction k generalizing start hs n with
  | zero =>
      rw [h.start_eq]
      simp [take]
  | succ k ih =>
      cases hs with
      | nil =>
          cases h
          rfl
      | cons a hs =>
          obtain ⟨rfl, hrest⟩ := h
          obtain ⟨n, rfl⟩ := Nat.exists_eq_add_of_le' (Nat.le_trans (by simp) hn : 1 ≤ n)
          have htail : take m k ⟨m.next a, n⟩ =
              .ok (hs.take k, ⟨(hs.drop k).head?, n - min k hs.length⟩) :=
            ih hrest (Nat.le_of_succ_le_succ hn)
          have hstep : take m (k + 1) ⟨some a, n + 1⟩ =
              (do let rest ← take m k ⟨m.next a, n⟩
                  return (a :: rest.1, rest.2)) := rfl
          rw [hstep, htail]
          simp only [List.take_succ_cons, List.drop_succ_cons, List.length_cons,
            Nat.add_min_add_right, Nat.add_sub_add_right]
          rfl

theorem toList_eq (h : m.Linked start hs none) : toList m ⟨start, hs.length⟩ = .ok hs := by
  have htake := take_eq h (Nat.le_refl _) (hs.length + 1)
  rw [List.take_of_length_le (by omega)] at htake
  show (do return (← take m (hs.length + 1) ⟨start, hs.length⟩).1) = _
  rw [htake]
  rfl

theorem search_eq (h : m.Linked start hs none) {n : Nat} (hn : hs.length ≤ n)
    (test : Place → Bool) : search m test n start = .ok (hs.find? test) := by
  induction hs generalizing start n with
  | nil =>
      cases h
      cases n <;> rfl
  | cons a hs ih =>
      obtain ⟨rfl, hrest⟩ := h
      obtain ⟨n, rfl⟩ := Nat.exists_eq_add_of_le' (Nat.le_trans (by simp) hn : 1 ≤ n)
      rw [search, List.find?_cons, ih hrest (Nat.le_of_succ_le_succ hn)]
      cases test a <;> rfl

end Cursor

end CountedHeap
