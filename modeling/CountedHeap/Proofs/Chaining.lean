import CountedHeap.Chain.Edit
import CountedHeap.Proofs.Outcomes

namespace CountedHeap

/-- The link of a node at `p` shares no byte with those of the nodes `ns`. -/
def Apart (ns : List Place) (p : Place) : Prop :=
  ∀ a ∈ ns, Disjoint (a.span 8) (p.span 8)

/-- What is done with a chain and its memory: a node is linked at the end, or between a member and
its next, or something else is written, or a segment is mapped. -/
inductive Action where
  | append (node : Place)
  | insertAfter (previous node : Place)
  | write (p : Place) (w : Word)
  | grant (len : UInt64)

def putAfter (previous node : Place) : List Place → List Place
  | [] => []
  | a :: ns => if a = previous then a :: node :: ns else a :: putAfter previous node ns

namespace Action

/-- The node to be linked is not linked yet, what it is linked after is a member, and no link of a
member is overwritten. -/
def Permitted (ns : List Place) : Action → Prop
  | append node => Apart ns node
  | insertAfter previous node => previous ∈ ns ∧ Apart ns node
  | write p _ => Apart ns p
  | grant _ => True

/-- The list once the action is done. -/
def arrange (ns : List Place) : Action → List Place
  | append node => ns ++ [node]
  | insertAfter previous node => putAfter previous node ns
  | write _ _ => ns
  | grant _ => ns

def AllPermitted : List Place → List Action → Prop
  | _, [] => True
  | ns, action :: rest => action.Permitted ns ∧ AllPermitted (action.arrange ns) rest

end Action

def arrangeAll (ns : List Place) (actions : List Action) : List Place :=
  actions.foldl Action.arrange ns

section Lists

variable {ns front back : List Place} {previous node : Place}

theorem putAfter_append (hfront : previous ∉ front) :
    putAfter previous node (front ++ previous :: back) = front ++ previous :: node :: back := by
  induction front with
  | nil => exact if_pos rfl
  | cons a front ih =>
      rw [List.mem_cons, not_or] at hfront
      rw [List.cons_append, putAfter, if_neg (Ne.symm hfront.1), ih hfront.2]
      rfl

theorem putAfter_perm (node : Place) (hprevious : previous ∈ ns) :
    (putAfter previous node ns).Perm (node :: ns) := by
  induction ns with
  | nil => cases hprevious
  | cons a ns ih =>
      rw [putAfter]
      split
      · exact .swap node a ns
      · rename_i hne
        have hmem : previous ∈ ns := (List.mem_cons.1 hprevious).resolve_left (Ne.symm hne)
        exact ((ih hmem).cons a).trans (.swap node a ns)

theorem le_length_arrange {action : Action} (haction : action.Permitted ns) :
    ns.length ≤ (action.arrange ns).length := by
  cases action with
  | append node => simp [Action.arrange]
  | insertAfter previous node =>
      rw [Action.arrange, (putAfter_perm node haction.1).length_eq]
      simp
  | write p w => simp [Action.arrange]
  | grant len => simp [Action.arrange]

theorem le_length_arrangeAll {actions : List Action} (hactions : Action.AllPermitted ns actions) :
    ns.length ≤ (arrangeAll ns actions).length := by
  induction actions generalizing ns with
  | nil => exact Nat.le_refl _
  | cons action rest ih => exact (le_length_arrange hactions.1).trans (ih hactions.2)

theorem Action.allPermitted_append {actions rest : List Action} :
    AllPermitted ns (actions ++ rest) ↔
      AllPermitted ns actions ∧ AllPermitted (arrangeAll ns actions) rest := by
  induction actions generalizing ns with
  | nil => exact (iff_of_eq (true_and _)).symm
  | cons action actions ih =>
      rw [List.cons_append, AllPermitted, AllPermitted, ih, and_assoc]
      rfl

end Lists

namespace Chain

variable {c : Chain} {m : Memory} {previous node : Place}

theorem append_of_full (hfull : 2 ^ 64 ≤ c.length.toNat + 1) :
    c.append m node = .error .addOverflow := by
  have hadd : Size.add c.length 1 = .error .addOverflow := Size.add_eq_error_iff.2 ⟨rfl, hfull⟩
  unfold append
  rw [hadd]
  rfl

theorem insertAfter_of_full (hnext : m.next previous = some node)
    (hfull : 2 ^ 64 ≤ c.length.toNat + 1) :
    c.insertAfter m previous node = .error .addOverflow := by
  have hadd : Size.add c.length 1 = .error .addOverflow := Size.add_eq_error_iff.2 ⟨rfl, hfull⟩
  unfold insertAfter
  rw [if_neg (not_not_intro hnext), hadd]
  rfl

end Chain

namespace Memory

/-- The memory once `node` is linked between `previous` and its next. -/
def between (m : Memory) (previous node : Place) : Memory :=
  (m.setNext node (m.next previous)).setNext previous (some node)

section Between

variable (m : Memory) {previous node a : Place}

theorem next_setNext_same (p : Place) (next : Option Place) : (m.setNext p next).next p = next :=
  congrArg Header.next (m.header_setNext p next)

theorem next_setNext_apart {p : Place} (next : Option Place)
    (hapart : Disjoint (a.span 8) (p.span 8)) :
    (m.setNext p next).next a = m.next a :=
  next_congr (eqOn_of_disjoint (m.eqOn_setNext p next) hapart)

theorem next_between_previous : (m.between previous node).next previous = some node :=
  next_setNext_same _ _ _

theorem next_between_node (hapart : Disjoint (previous.span 8) (node.span 8)) :
    (m.between previous node).next node = m.next previous := by
  rw [between, next_setNext_apart _ _ hapart.symm, next_setNext_same]

theorem next_between_apart (hprevious : Disjoint (a.span 8) (previous.span 8))
    (hnode : Disjoint (a.span 8) (node.span 8)) : (m.between previous node).next a = m.next a := by
  rw [between, next_setNext_apart _ _ hprevious, next_setNext_apart _ _ hnode]

theorem Linked.between {m : Memory} {start stop : Option Place} {front back : List Place}
    (h : m.Linked start (front ++ previous :: back) stop)
    (hapart : (front ++ previous :: back).Pairwise fun a b => Disjoint (a.span 8) (b.span 8))
    (hnode : Apart (front ++ previous :: back) node) :
    (m.between previous node).Linked start (front ++ previous :: node :: back) stop := by
  obtain ⟨-, hback, hcross⟩ := List.pairwise_append.1 hapart
  refine h.insert m.next_between_previous (m.next_between_node (hnode previous (by simp))) ?_
  intro a ha
  rcases List.mem_append.1 ha with ha | ha
  · exact m.next_between_apart (hcross a ha previous (by simp)) (hnode a (by simp [ha]))
  · exact m.next_between_apart ((List.pairwise_cons.1 hback).1 a ha).symm (hnode a (by simp [ha]))

end Between

end Memory

namespace NodeList

/-- Links with the operations of the chain; the link that `insertAfter` expects
is written before. -/
def act (l : NodeList) : Action → Except Fault NodeList
  | .append node => do
    let (chain, memory) ← l.chain.append l.memory node
    return ⟨memory, chain⟩
  | .insertAfter previous node => do
    let memory := l.memory.between previous node
    return ⟨memory, ← l.chain.insertAfter memory previous node⟩
  | .write p w => return ⟨l.memory.setWord p w, l.chain⟩
  | .grant len => return ⟨l.memory.grant len, l.chain⟩

/-- Chain and memory hold the list `ns`. -/
structure Holds (l : NodeList) (ns : List Place) : Prop where
  linked : l.memory.Linked l.chain.head ns none
  tail : l.chain.tail = ns.getLast?
  length : l.chain.length.toNat = ns.length
  apart : ns.Pairwise fun a b => Disjoint (a.span 8) (b.span 8)

/-- The chain shows itself as the list `ns`. -/
structure Represents (l : NodeList) (ns : List Place) : Prop where
  nodes : l.chain.nodes l.memory = .ok ns
  nodup : ns.Nodup
  length : l.chain.length.toNat = ns.length
  isEmpty : l.chain.isEmpty = true ↔ ns = []
  tail : l.chain.tail = ns.getLast?
  append : ∀ node, Apart ns node → ns.length + 1 < 2 ^ 64 →
    ∃ l', l.act (.append node) = .ok l' ∧ l'.chain.nodes l'.memory = .ok (ns ++ [node])
  take : ∀ k, ∃ c, l.chain.start.take l.memory k = .ok (ns.take k, c) ∧
    c.current = (ns.drop k).head? ∧
    c.sizeHint = (ns.length - min k ns.length, some (ns.length - min k ns.length))
  ends : ∃ c, l.chain.start.take l.memory ns.length = .ok (ns, c) ∧ c.next l.memory = .ok none

variable {l : NodeList} {ns : List Place} {previous node : Place}

namespace Holds

theorem empty (m : Memory) : Holds ⟨m, .empty⟩ [] where
  linked := rfl
  tail := rfl
  length := rfl
  apart := .nil

theorem nodup (h : l.Holds ns) : ns.Nodup := by
  refine h.apart.imp ?_
  rintro a _ hapart rfl
  exact Set.disjoint_left.1 hapart (Place.add_mem_span (by omega : 0 < 8))
    (Place.add_mem_span (by omega))

theorem start_eq (h : l.Holds ns) : l.chain.start = ⟨l.chain.head, ns.length⟩ := by
  rw [Chain.start, h.length]

theorem nodes_eq (h : l.Holds ns) : l.chain.nodes l.memory = .ok ns := by
  rw [Chain.nodes, h.start_eq, Cursor.toList_eq h.linked]

theorem act_append (h : l.Holds ns) (hnode : Apart ns node) (hlength : ns.length + 1 < 2 ^ 64) :
    ∃ l', l.act (.append node) = .ok l' ∧ l'.Holds (ns ++ [node]) := by
  obtain ⟨c, m, happend⟩ : ∃ c m, l.chain.append l.memory node = .ok (c, m) :=
    Chain.exists_append (h.length ▸ hlength)
  obtain ⟨hcount, htail, -⟩ := Chain.append_eq_ok happend
  have hapart : (ns ++ [node]).Pairwise fun a b => Disjoint (a.span 8) (b.span 8) := by
    rw [List.pairwise_append]
    exact ⟨h.apart, List.pairwise_singleton _ _, fun a ha b hb =>
      List.mem_singleton.1 hb ▸ hnode a ha⟩
  refine ⟨⟨m, c⟩, ?_, Chain.linked_append happend h.linked h.tail hapart, ?_, ?_, hapart⟩
  · rw [act, happend]
    rfl
  · rw [htail, List.getLast?_concat]
  · rw [← hcount, h.length, List.length_append]
    rfl

theorem act_insertAfter (h : l.Holds ns) (hprevious : previous ∈ ns) (hnode : Apart ns node)
    (hlength : ns.length + 1 < 2 ^ 64) :
    ∃ l', l.act (.insertAfter previous node) = .ok l' ∧ l'.Holds (putAfter previous node ns) := by
  have hperm := putAfter_perm node hprevious
  obtain ⟨c, hinsert⟩ :
      ∃ c, l.chain.insertAfter (l.memory.between previous node) previous node = .ok c :=
    Chain.exists_insertAfter l.memory.next_between_previous (h.length ▸ hlength)
  obtain ⟨hhead, htail, hcount⟩ := Chain.insertAfter_eq_ok hinsert
  obtain ⟨front, back, rfl⟩ := List.append_of_mem hprevious
  obtain ⟨hfront, hnot⟩ : previous ∉ front ∧ previous ∉ back := by
    have hnodup := h.nodup
    rw [List.nodup_middle, List.nodup_cons, List.mem_append, not_or] at hnodup
    exact hnodup.1
  refine ⟨⟨l.memory.between previous node, c⟩, ?_, ?_, ?_, ?_, ?_⟩
  · rw [act, hinsert]
    rfl
  · show Memory.Linked _ c.head _ none
    rw [hhead, putAfter_append hfront]
    exact h.linked.between h.apart hnode
  · show c.tail = _
    rw [htail, h.tail, putAfter_append hfront, Chain.getLast?_insert hnot]
  · rw [← hcount, h.length, hperm.length_eq]
    rfl
  · rw [hperm.pairwise_iff fun hapart => hapart.symm, List.pairwise_cons]
    exact ⟨fun a ha => (hnode a ha).symm, h.apart⟩

/-- Memory that is no link of a member may change. -/
theorem congr {m : Memory} (h : l.Holds ns)
    (hcells : Set.EqOn m.cell l.memory.cell (Memory.links ns)) :
    Holds ⟨m, l.chain⟩ ns where
  linked := by
    apply h.linked.congr
    intro a ha
    exact Memory.next_congr fun q hq => hcells ⟨a, ha, hq⟩
  tail := h.tail
  length := h.length
  apart := h.apart

theorem setWord (h : l.Holds ns) {p : Place} (hp : Apart ns p) (w : Word) :
    Holds ⟨l.memory.setWord p w, l.chain⟩ ns := by
  apply h.congr
  rintro q ⟨a, ha, hq⟩
  exact l.memory.eqOn_setWord p w (Set.disjoint_left.1 (hp a ha) hq)

theorem act (h : l.Holds ns) {action : Action} (haction : action.Permitted ns)
    (hlength : (action.arrange ns).length < 2 ^ 64) :
    ∃ l', l.act action = .ok l' ∧ l'.Holds (action.arrange ns) := by
  cases action with
  | append node =>
      rw [Action.arrange, List.length_append] at hlength
      exact h.act_append haction hlength
  | insertAfter previous node =>
      rw [Action.arrange, (putAfter_perm node haction.1).length_eq] at hlength
      exact h.act_insertAfter haction.1 haction.2 hlength
  | write p w => exact ⟨_, rfl, h.setWord haction w⟩
  | grant len => exact ⟨_, rfl, h.congr fun _ _ => rfl⟩

theorem act_of_full (h : l.Holds ns) {action : Action} (haction : action.Permitted ns)
    (hfull : 2 ^ 64 ≤ (action.arrange ns).length) : l.act action = .error .addOverflow := by
  have hword : ns.length < 2 ^ 64 := h.length ▸ l.chain.length.toNat_lt
  cases action with
  | append node =>
      rw [Action.arrange, List.length_append, ← h.length] at hfull
      rw [NodeList.act, Chain.append_of_full hfull]
      rfl
  | insertAfter previous node =>
      rw [Action.arrange, (putAfter_perm node haction.1).length_eq, List.length_cons,
        ← h.length] at hfull
      rw [NodeList.act, Chain.insertAfter_of_full l.memory.next_between_previous hfull]
      rfl
  | write p w => exact absurd hword (Nat.not_lt_of_le hfull)
  | grant len => exact absurd hword (Nat.not_lt_of_le hfull)

theorem acts {actions : List Action} (h : l.Holds ns) (hactions : Action.AllPermitted ns actions) :
    ((arrangeAll ns actions).length < 2 ^ 64 →
        ∃ l', actions.foldlM NodeList.act l = .ok l' ∧ l'.Holds (arrangeAll ns actions)) ∧
      (2 ^ 64 ≤ (arrangeAll ns actions).length →
        actions.foldlM NodeList.act l = .error .addOverflow) := by
  induction actions generalizing l ns with
  | nil =>
      have hword : ns.length < 2 ^ 64 := h.length ▸ l.chain.length.toNat_lt
      exact ⟨fun _ => ⟨l, rfl, h⟩, fun hfull => absurd hword (Nat.not_lt_of_le hfull)⟩
  | cons action rest ih =>
      obtain ⟨haction, hrest⟩ := hactions
      rw [List.foldlM_cons]
      by_cases hlength : (action.arrange ns).length < 2 ^ 64
      · obtain ⟨l', hact, h'⟩ := h.act haction hlength
        rw [hact]
        exact ih h' hrest
      · -- the list never gets shorter, so its length does not fit in the end either
        have hfull : 2 ^ 64 ≤ (action.arrange ns).length := Nat.le_of_not_lt hlength
        rw [h.act_of_full haction hfull]
        refine ⟨fun hfits => ?_, fun _ => rfl⟩
        exact absurd ((le_length_arrangeAll hrest).trans_lt hfits) hlength

theorem isEmpty_iff (h : l.Holds ns) : l.chain.isEmpty = true ↔ ns = [] := by
  rw [Chain.isEmpty, beq_iff_eq, ← UInt64.toNat_inj, h.length]
  exact List.length_eq_zero_iff

theorem represents (h : l.Holds ns) : l.Represents ns where
  nodes := h.nodes_eq
  nodup := h.nodup
  length := h.length
  isEmpty := h.isEmpty_iff
  tail := h.tail
  append node hnode hlength := by
    obtain ⟨l', hact, h'⟩ := h.act_append hnode hlength
    exact ⟨l', hact, h'.nodes_eq⟩
  take k := by
    rw [h.start_eq, Cursor.take_eq h.linked (Nat.le_refl _)]
    exact ⟨_, rfl, rfl, rfl⟩
  ends := by
    rw [h.start_eq, Cursor.take_eq h.linked (Nat.le_refl _), List.take_length, List.drop_length]
    exact ⟨_, rfl, rfl⟩

end Holds

section Edits

/-- A node without a next is written into a segment of its own. -/
def creation (node : Place) (size : UInt64) : List Action :=
  [.grant headerSize, .write node (.ofLink none), .write (node + 8) (.number size),
    .write (node + 16) (.number 0)]

/-- The actions of an edit when there are `n` nodes. -/
def Edit.actions (n : Nat) : Edit → List Action
  | .append size => creation ⟨n, 0⟩ size ++ [.append ⟨n, 0⟩]
  | .insertAfter index size => creation ⟨n, 0⟩ size ++ [.insertAfter ⟨index, 0⟩ ⟨n, 0⟩]

def Edit.Valid (n : Nat) : Edit → Prop
  | .append _ => True
  | .insertAfter index _ => index < n

instance (n : Nat) : (e : Edit) → Decidable (e.Valid n)
  | .append _ => inferInstanceAs (Decidable True)
  | .insertAfter index _ => inferInstanceAs (Decidable (index < n))

theorem acts_creation (l : NodeList) (size : UInt64) (action : Action) :
    (creation l.memory.nextBase size ++ [action]).foldlM act l =
      act ⟨create l.memory size, l.chain⟩ action := by
  have hcreated :
      (creation l.memory.nextBase size).foldlM act l = .ok ⟨create l.memory size, l.chain⟩ := rfl
  rw [List.foldlM_append, hcreated]
  exact bind_pure (act ⟨create l.memory size, l.chain⟩ action)

theorem edit_eq_acts (l : NodeList) {e : Edit} (he : e.Valid l.memory.regions.size) :
    l.edit e = (e.actions l.memory.regions.size).foldlM act l := by
  cases e with
  | append size =>
      rw [edit, Edit.actions, ← Memory.nextBase, acts_creation, act]
  | insertAfter index size =>
      have hplace : l.place index = .ok ⟨index, 0⟩ := if_pos he
      rw [edit, hplace, Edit.actions, ← Memory.nextBase, acts_creation, act]
      simp only [bind, Except.bind, Memory.between]

theorem regions_edit {l l' : NodeList} {e : Edit} (hedit : l.edit e = .ok l') :
    l'.memory.regions.size = l.memory.regions.size + 1 := by
  cases e with
  | append size =>
      simp only [edit, CountedHeap.bind_eq_ok_iff] at hedit
      obtain ⟨⟨c, m⟩, happend, hedit⟩ := hedit
      cases hedit
      simp [Chain.regions_append happend, create, Memory.grant]
  | insertAfter index size =>
      simp only [edit, CountedHeap.bind_eq_ok_iff] at hedit
      obtain ⟨previous, -, c, -, hedit⟩ := hedit
      cases hedit
      simp [create, Memory.grant]

def editActions : Nat → List Edit → List Action
  | _, [] => []
  | n, e :: es => e.actions n ++ editActions (n + 1) es

def Edit.AllValid : Nat → List Edit → Prop
  | _, [] => True
  | n, e :: es => e.Valid n ∧ AllValid (n + 1) es

instance Edit.decidableAllValid : (n : Nat) → (es : List Edit) → Decidable (AllValid n es)
  | _, [] => inferInstanceAs (Decidable True)
  | n, e :: es =>
    have := decidableAllValid (n + 1) es
    inferInstanceAs (Decidable (e.Valid n ∧ AllValid (n + 1) es))

theorem edits_eq_acts (l : NodeList) {es : List Edit}
    (hes : Edit.AllValid l.memory.regions.size es) :
    es.foldlM edit l = (editActions l.memory.regions.size es).foldlM act l := by
  induction es generalizing l with
  | nil => rfl
  | cons e es ih =>
      rw [editActions, List.foldlM_cons, List.foldlM_append, ← l.edit_eq_acts hes.1]
      cases hedit : l.edit e with
      | error fault => rfl
      | ok l' =>
          have hvalid := hes.2
          rw [← regions_edit hedit] at hvalid ⊢
          exact ih l' hvalid

/-- The nodes are those that were created as the first `n`. -/
def Numbered (n : Nat) (ns : List Place) : Prop :=
  ∀ a, a ∈ ns ↔ ∃ k < n, a = ⟨k, 0⟩

namespace Numbered

variable {n : Nat}

theorem nil : Numbered 0 [] := by
  intro a
  simp

theorem apart (hns : Numbered n ns) (offset : Int) : Apart ns ⟨n, offset⟩ := by
  intro a ha
  obtain ⟨k, hk, rfl⟩ := (hns a).1 ha
  exact Place.disjoint_span fun hsame => absurd hsame hk.ne

theorem succ {ns' : List Place} (hns : Numbered n ns) (hperm : ns'.Perm (⟨n, 0⟩ :: ns)) :
    Numbered (n + 1) ns' := by
  intro a
  rw [hperm.mem_iff, List.mem_cons, hns a]
  constructor
  · rintro (rfl | ⟨k, hk, rfl⟩)
    · exact ⟨n, Nat.lt_succ_self n, rfl⟩
    · exact ⟨k, Nat.lt_succ_of_lt hk, rfl⟩
  · rintro ⟨k, hk, rfl⟩
    rcases Nat.lt_succ_iff_lt_or_eq.1 hk with hlt | rfl
    · exact .inr ⟨k, hlt, rfl⟩
    · exact .inl rfl

theorem permitted_creation (hns : Numbered n ns) (size : UInt64) {action : Action}
    (haction : action.Permitted ns) : Action.AllPermitted ns (creation ⟨n, 0⟩ size ++ [action]) :=
  ⟨trivial, hns.apart 0, hns.apart _, hns.apart _, haction, trivial⟩

theorem permitted_edit (hns : Numbered n ns) {e : Edit} (he : e.Valid n) :
    Action.AllPermitted ns (e.actions n) ∧ Numbered (n + 1) (arrangeAll ns (e.actions n)) := by
  cases e with
  | append size =>
      exact ⟨hns.permitted_creation size (hns.apart 0), hns.succ (List.perm_append_singleton _ _)⟩
  | insertAfter index size =>
      have hmem : ⟨index, 0⟩ ∈ ns := (hns _).2 ⟨index, he, rfl⟩
      exact ⟨hns.permitted_creation size ⟨hmem, hns.apart 0⟩, hns.succ (putAfter_perm _ hmem)⟩

theorem permitted_edits (hns : Numbered n ns) {es : List Edit} (hes : Edit.AllValid n es) :
    Action.AllPermitted ns (editActions n es) := by
  induction es generalizing n ns with
  | nil => trivial
  | cons e es ih =>
      obtain ⟨hpermitted, hnext⟩ := hns.permitted_edit hes.1
      exact Action.allPermitted_append.2 ⟨hpermitted, ih hnext hes.2⟩

end Numbered

end Edits

/-- Nodes that are linked at the end or after members make up a chain that is, at every time, the
list in which each was put at the end or right after that member. Linking fails if and only if the
length no longer fits. -/
theorem chain_represents_arrangement (m : Memory) (actions : List Action)
    (hactions : Action.AllPermitted [] actions) :
    ((arrangeAll [] actions).length < 2 ^ 64 →
        ∃ l, actions.foldlM act ⟨m, .empty⟩ = .ok l ∧ l.Represents (arrangeAll [] actions)) ∧
      (2 ^ 64 ≤ (arrangeAll [] actions).length →
        actions.foldlM act ⟨m, .empty⟩ = .error .addOverflow) := by
  obtain ⟨hfits, hfull⟩ := (Holds.empty m).acts hactions
  refine ⟨fun hlength => ?_, hfull⟩
  obtain ⟨l, hdone, hl⟩ := hfits hlength
  exact ⟨l, hdone, hl.represents⟩

/-- Of five nodes the third and the fourth are linked after the first two. -/
def fiveEdits : List Edit :=
  [.append 8, .append 16, .insertAfter 0 24, .insertAfter 1 32, .append 40]

theorem fiveEdits_represented :
    ∃ l, fiveEdits.foldlM edit empty = .ok l ∧
      l.Represents [⟨0, 0⟩, ⟨2, 0⟩, ⟨1, 0⟩, ⟨3, 0⟩, ⟨4, 0⟩] := by
  have hvalid : Edit.AllValid 0 fiveEdits := by decide
  have hlist : arrangeAll [] (editActions 0 fiveEdits) =
      [⟨0, 0⟩, ⟨2, 0⟩, ⟨1, 0⟩, ⟨3, 0⟩, ⟨4, 0⟩] := by decide
  obtain ⟨hfits, -⟩ :=
    chain_represents_arrangement .empty (editActions 0 fiveEdits)
      (Numbered.nil.permitted_edits hvalid)
  rw [hlist] at hfits
  rw [edits_eq_acts empty hvalid]
  exact hfits (by decide)

end NodeList

end CountedHeap
