import Mathlib.Data.Finset.Card
import Mathlib.Order.Interval.Finset.Nat
import Metamath.Search.Session

/-!
# The goals of a session as a tree

The goals of a session form a tree: each goal knows the goal it was created for and counts those of
its own subgoals that are not settled. Nothing records which subgoals these are, so this module
says it. A goal is waiting if it is on the agenda or still counts a subgoal, and the count of each
goal is the number of its waiting subgoals.

The agenda is the list of open goals, and while a goal is being settled also that goal. Settling
takes a goal off the agenda and one off the count of the goal above it; if that was the last one,
the goal above takes its place on the agenda. So one description of the tree holds before, during
and after.

The tree also carries the reason why a goal is proved. A sound goal with subgoals follows from the
subgoals it waits for, because all others have been proved by then.
-/

namespace Metamath.Search

/-- A goal is waiting if it is on the agenda or counts a subgoal that is not settled. -/
def Waiting (nodes : Array Node) (agenda : List Nat) (id : Nat) : Prop :=
  id ∈ agenda ∨ ∃ node : Node, nodes[id]? = some node ∧ 0 < node.pending

/-- A goal waits for another one that was created for it and is waiting itself. -/
def WaitsFor (nodes : Array Node) (agenda : List Nat) (id child : Nat) : Prop :=
  (∃ node : Node, nodes[child]? = some node ∧ node.parent = some id) ∧
    Waiting nodes agenda child

/-- The agenda lists goals without subgoals to wait for, subgoals come after the goals they were
created for, and each goal counts the subgoals it waits for. -/
structure Consistent (nodes : Array Node) (agenda : List Nat) : Prop where
  nodup : agenda.Nodup
  agenda_pending : ∀ id ∈ agenda, ∃ node : Node, nodes[id]? = some node ∧ node.pending = 0
  parent_lt : ∀ (id : Nat) (node : Node) (above : Nat),
    nodes[id]? = some node → node.parent = some above → above < id
  pending_eq : ∀ (id : Nat) (node : Node), nodes[id]? = some node → ∃ waiting : Finset Nat,
    (∀ child, child ∈ waiting ↔ WaitsFor nodes agenda id child) ∧ waiting.card = node.pending

/-- Every sound goal with subgoals to wait for has the property `D` as soon as these have it. -/
def Justified (D : Statement → Prop) (nodes : Array Node) (agenda : List Nat) : Prop :=
  ∀ (id : Nat) (node : Node), nodes[id]? = some node → 0 < node.pending → node.sound →
    (∀ (child : Nat) (below : Node), WaitsFor nodes agenda id child →
      nodes[child]? = some below → D below.statement) →
    D node.statement

/-- A goal and its place in the tree, apart from what changes when subgoals are settled. -/
def Node.place (node : Node) : Statement × Option Nat :=
  (node.statement, node.parent)

theorem eq_root_of_getElem? {root node : Node} {id : Nat} (hnode : #[root][id]? = some node) :
    id = 0 ∧ node = root := by
  obtain ⟨hlt, heq⟩ := Array.getElem?_eq_some_iff.mp hnode
  obtain rfl : id = 0 := Nat.lt_one_iff.mp hlt
  exact ⟨rfl, heq.symm⟩

/-- A tree that is a single open goal. -/
theorem consistent_root (statement : Statement) :
    Consistent #[⟨statement, 0, none, true⟩] [0] := by
  refine ⟨List.nodup_singleton 0, fun id hid => ?_, fun id node above hnode habove => ?_,
    fun id node hnode => ?_⟩
  · obtain rfl := List.mem_singleton.mp hid
    exact ⟨_, rfl, rfl⟩
  · obtain ⟨-, rfl⟩ := eq_root_of_getElem? hnode
    cases habove
  · obtain ⟨-, rfl⟩ := eq_root_of_getElem? hnode
    refine ⟨∅, fun child => iff_of_false (Finset.notMem_empty child) ?_, rfl⟩
    rintro ⟨⟨below, hbelow, hparent⟩, -⟩
    obtain ⟨-, rfl⟩ := eq_root_of_getElem? hbelow
    cases hparent

theorem justified_root (D : Statement → Prop) (statement : Statement) :
    Justified D #[⟨statement, 0, none, true⟩] [0] := by
  intro id node hnode hpositive
  obtain ⟨-, rfl⟩ := eq_root_of_getElem? hnode
  exact absurd hpositive (Nat.lt_irrefl 0)

section Settling

variable {D : Statement → Prop} {nodes : Array Node} {agenda : List Nat} {id : Nat} {node : Node}

/-- A goal on the agenda counts nothing. -/
theorem Consistent.pending_of_mem (htree : Consistent nodes agenda) (hid : id ∈ agenda)
    (hnode : nodes[id]? = some node) : node.pending = 0 := by
  obtain ⟨found, hfound, hpending⟩ := htree.agenda_pending id hid
  cases hnode.symm.trans hfound
  exact hpending

/-- A goal that counts nothing waits for nothing. -/
theorem Consistent.not_waitsFor (htree : Consistent nodes agenda) (hnode : nodes[id]? = some node)
    (hpending : node.pending = 0) (child : Nat) : ¬ WaitsFor nodes agenda id child := by
  obtain ⟨waiting, hwaiting, hcard⟩ := htree.pending_eq id node hnode
  rw [hpending, Finset.card_eq_zero] at hcard
  intro hchild
  have hmem := (hwaiting child).mpr hchild
  rw [hcard] at hmem
  exact absurd hmem (Finset.notMem_empty child)

/-- The goal above a goal on the agenda counts at least that one. -/
theorem Consistent.pending_pos_of_child (htree : Consistent nodes agenda) (hid : id ∈ agenda)
    (hnode : nodes[id]? = some node) {parent : Nat} {above : Node}
    (hparent : node.parent = some parent) (habove : nodes[parent]? = some above) :
    0 < above.pending := by
  by_contra hzero
  exact htree.not_waitsFor habove (Nat.eq_zero_of_not_pos hzero) id
    ⟨⟨node, hnode, hparent⟩, .inl hid⟩

/-- What taking a goal off the agenda has to do: all goals keep their places, exactly that goal
stops waiting, and the goal above it counts one less. -/
structure Retires (nodes : Array Node) (agenda : List Nat) (id : Nat) (nodes' : Array Node)
    (agenda' : List Nat) : Prop where
  place : ∀ i : Nat, nodes'[i]?.map Node.place = nodes[i]?.map Node.place
  waiting : ∀ i, Waiting nodes' agenda' i ↔ Waiting nodes agenda i ∧ i ≠ id
  pending : ∀ (i : Nat) (before after : Node), nodes[i]? = some before → nodes'[i]? = some after →
    (before.pending = after.pending + 1 ∧ WaitsFor nodes agenda i id) ∨
      (before.pending = after.pending ∧ ¬ WaitsFor nodes agenda i id)

namespace Retires

variable {nodes' : Array Node} {agenda' : List Nat}
  (hretires : Retires nodes agenda id nodes' agenda')
include hretires

theorem exists_before {i : Nat} {after : Node} (hafter : nodes'[i]? = some after) :
    ∃ before : Node, nodes[i]? = some before ∧ before.statement = after.statement ∧
      before.parent = after.parent := by
  have hplace := hretires.place i
  rw [hafter] at hplace
  obtain ⟨before, hbefore, heq⟩ := Option.map_eq_some_iff.mp hplace.symm
  exact ⟨before, hbefore, congrArg Prod.fst heq, congrArg Prod.snd heq⟩

theorem exists_after {i : Nat} {before : Node} (hbefore : nodes[i]? = some before) :
    ∃ after : Node, nodes'[i]? = some after ∧ before.statement = after.statement ∧
      before.parent = after.parent := by
  have hplace := hretires.place i
  rw [hbefore] at hplace
  obtain ⟨after, hafter, heq⟩ := Option.map_eq_some_iff.mp hplace
  exact ⟨after, hafter, (congrArg Prod.fst heq).symm, (congrArg Prod.snd heq).symm⟩

theorem waitsFor_iff (i child : Nat) :
    WaitsFor nodes' agenda' i child ↔ WaitsFor nodes agenda i child ∧ child ≠ id := by
  have hparent : (∃ node : Node, nodes'[child]? = some node ∧ node.parent = some i) ↔
      ∃ node : Node, nodes[child]? = some node ∧ node.parent = some i := by
    refine ⟨fun ⟨after, hafter, habove⟩ => ?_, fun ⟨before, hbefore, habove⟩ => ?_⟩
    · obtain ⟨before, hbefore, -, heq⟩ := hretires.exists_before hafter
      exact ⟨before, hbefore, heq.trans habove⟩
    · obtain ⟨after, hafter, -, heq⟩ := hretires.exists_after hbefore
      exact ⟨after, hafter, heq.symm.trans habove⟩
  rw [WaitsFor, WaitsFor, hparent, hretires.waiting, and_assoc]

/-- The tree stays consistent. -/
theorem consistent (htree : Consistent nodes agenda) (hnodup : agenda'.Nodup)
    (hagenda : ∀ i ∈ agenda', ∃ node : Node, nodes'[i]? = some node ∧ node.pending = 0) :
    Consistent nodes' agenda' := by
  refine ⟨hnodup, hagenda, fun i after above hafter habove => ?_, fun i after hafter => ?_⟩
  · obtain ⟨before, hbefore, -, heq⟩ := hretires.exists_before hafter
    exact htree.parent_lt i before above hbefore (heq.trans habove)
  · obtain ⟨before, hbefore, -, -⟩ := hretires.exists_before hafter
    obtain ⟨waiting, hwaiting, hcard⟩ := htree.pending_eq i before hbefore
    refine ⟨waiting.erase id, fun child => ?_, ?_⟩
    · rw [Finset.mem_erase, hwaiting, hretires.waitsFor_iff, and_comm]
    · rcases hretires.pending i before after hbefore hafter with ⟨hless, hwaits⟩ | ⟨hsame, hwaits⟩
      · rw [Finset.card_erase_of_mem ((hwaiting id).mpr hwaits), hcard, hless]
        rfl
      · rw [Finset.erase_eq_of_notMem (fun hmem => hwaits ((hwaiting id).mp hmem)), hcard, hsame]

/-- A goal follows from the subgoals it still waits for, if the one that is settled has been
proved or has spoilt its soundness. -/
theorem derive (hjustified : Justified D nodes agenda) (hnode : nodes[id]? = some node)
    {i : Nat} {before after : Node} (hbefore : nodes[i]? = some before)
    (hafter : nodes'[i]? = some after) (hpending : 0 < before.pending) (hsound : before.sound)
    (hproved : WaitsFor nodes agenda i id → D node.statement)
    (hwaiting : ∀ (child : Nat) (below : Node), WaitsFor nodes' agenda' i child →
      nodes'[child]? = some below → D below.statement) :
    D after.statement := by
  obtain ⟨found, hfound, hstatement, -⟩ := hretires.exists_before hafter
  cases hbefore.symm.trans hfound
  rw [← hstatement]
  refine hjustified i before hbefore hpending hsound fun child below hchild hbelow => ?_
  by_cases hid : child = id
  · subst hid
    cases hnode.symm.trans hbelow
    exact hproved hchild
  · obtain ⟨below', hbelow', heq, -⟩ := hretires.exists_after hbelow
    rw [heq]
    exact hwaiting child below' ((hretires.waitsFor_iff i child).mpr ⟨hchild, hid⟩) hbelow'

end Retires

variable {rest : List Nat}

/-- A goal that was created for no other one is settled by taking it off the agenda. -/
theorem Consistent.retires_root (htree : Consistent nodes (id :: rest))
    (hnode : nodes[id]? = some node) (hroot : node.parent = none) :
    Retires nodes (id :: rest) id nodes rest := by
  have hnotmem : id ∉ rest := (List.nodup_cons.mp htree.nodup).1
  have hpending := htree.pending_of_mem List.mem_cons_self hnode
  refine ⟨fun i => rfl, fun i => ?_, fun i before after hbefore hafter => ?_⟩
  · by_cases hi : i = id
    · subst hi
      simp [Waiting, hnotmem, hnode, hpending]
    · simp [Waiting, hi]
  · cases hbefore.symm.trans hafter
    refine .inr ⟨rfl, fun hwaits => ?_⟩
    obtain ⟨found, hfound, hparent⟩ := hwaits.1
    cases hnode.symm.trans hfound
    rw [hroot] at hparent
    cases hparent

/-- Any other goal is settled by telling the goal above it. If that was the last subgoal the goal
above waited for, it is the next one to be settled. -/
theorem Consistent.retires_child (htree : Consistent nodes (id :: rest))
    (hnode : nodes[id]? = some node) {parent : Nat} {above : Node}
    (hparent : node.parent = some parent) (habove : nodes[parent]? = some above) :
    Retires nodes (id :: rest) id (nodes.modify parent (·.settleChild node.sound))
      (if above.pending = 1 then parent :: rest else rest) := by
  have hnotmem : id ∉ rest := (List.nodup_cons.mp htree.nodup).1
  have hpending := htree.pending_of_mem List.mem_cons_self hnode
  have hcounts := htree.pending_pos_of_child List.mem_cons_self hnode hparent habove
  have hne : parent ≠ id := (htree.parent_lt id node parent hnode hparent).ne
  refine ⟨fun i => ?_, fun i => ?_, fun i before after hbefore hafter => ?_⟩
  · rw [Array.getElem?_modify]
    split
    · rw [Option.map_map]
      rfl
    · rfl
  · by_cases hi : i = parent
    · -- the goal above waits on, be it for a subgoal or to be settled itself
      subst hi
      have hafter : Waiting (nodes.modify i (·.settleChild node.sound))
          (if above.pending = 1 then i :: rest else rest) i := by
        by_cases hone : above.pending = 1
        · rw [if_pos hone]
          exact .inl List.mem_cons_self
        · refine .inr ⟨above.settleChild node.sound, ?_, ?_⟩
          · rw [Array.getElem?_modify, if_pos rfl, habove]
            rfl
          · simp only [Node.settleChild]
            omega
      exact iff_of_true hafter ⟨.inr ⟨above, habove, hcounts⟩, hne⟩
    · have hsame : (nodes.modify parent (·.settleChild node.sound))[i]? = nodes[i]? := by
        rw [Array.getElem?_modify, if_neg (Ne.symm hi)]
      have hagenda : i ∈ (if above.pending = 1 then parent :: rest else rest) ↔ i ∈ rest := by
        split <;> simp [hi]
      rw [Waiting, Waiting, hsame, hagenda]
      by_cases hid : i = id
      · subst hid
        simp [hnotmem, hnode, hpending]
      · simp [hid]
  · rw [Array.getElem?_modify] at hafter
    split at hafter
    · rename_i hi
      subst hi
      cases habove.symm.trans hbefore
      rw [habove] at hafter
      cases hafter
      refine .inl ⟨?_, ⟨node, hnode, hparent⟩, .inl List.mem_cons_self⟩
      simp only [Node.settleChild]
      omega
    · rename_i hi
      cases hbefore.symm.trans hafter
      refine .inr ⟨rfl, fun hwaits => ?_⟩
      obtain ⟨found, hfound, hother⟩ := hwaits.1
      cases hnode.symm.trans hfound
      exact hi (Option.some.inj (hparent.symm.trans hother))

/-- A goal above that is still sound was sound before, and what has been settled is sound. -/
theorem sound_of_settleChild (hnode : nodes[id]? = some node) {parent : Nat}
    (hparent : node.parent = some parent) {i : Nat} {before after : Node}
    (hbefore : nodes[i]? = some before)
    (hafter : (nodes.modify parent (·.settleChild node.sound))[i]? = some after)
    (hsound : after.sound) :
    before.sound ∧ (WaitsFor nodes agenda i id → node.sound) := by
  rw [Array.getElem?_modify, hbefore] at hafter
  split at hafter
  · cases hafter
    obtain ⟨habove, hbelow⟩ := Bool.and_eq_true_iff.mp hsound
    exact ⟨habove, fun _ => hbelow⟩
  · rename_i hi
    cases hafter
    refine ⟨hsound, fun hwaits => ?_⟩
    obtain ⟨found, hfound, hother⟩ := hwaits.1
    cases hnode.symm.trans hfound
    exact absurd (Option.some.inj (hparent.symm.trans hother)) hi

/-- The agenda after a subgoal is settled has no goal with subgoals to wait for. -/
theorem Consistent.settleChild (htree : Consistent nodes (id :: rest))
    (hnode : nodes[id]? = some node) {parent : Nat} {above : Node}
    (hparent : node.parent = some parent) (habove : nodes[parent]? = some above) :
    Consistent (nodes.modify parent (·.settleChild node.sound))
      (if above.pending = 1 then parent :: rest else rest) := by
  have hcounts := htree.pending_pos_of_child List.mem_cons_self hnode hparent habove
  have hrest : rest.Nodup := (List.nodup_cons.mp htree.nodup).2
  have hnotmem : parent ∉ rest := by
    intro hmem
    have hzero := htree.pending_of_mem (List.mem_cons_of_mem _ hmem) habove
    omega
  have hkept : ∀ i ∈ rest, ∃ other : Node,
      (nodes.modify parent (·.settleChild node.sound))[i]? = some other ∧ other.pending = 0 := by
    intro i hi
    rw [Array.getElem?_modify, if_neg fun heq : parent = i => hnotmem (heq ▸ hi)]
    exact htree.agenda_pending i (List.mem_cons_of_mem _ hi)
  refine (htree.retires_child hnode hparent habove).consistent htree ?_ ?_
  · split
    · exact List.nodup_cons.mpr ⟨hnotmem, hrest⟩
    · exact hrest
  · split
    · rename_i hone
      refine List.forall_mem_cons.mpr ⟨⟨above.settleChild node.sound, ?_, ?_⟩, hkept⟩
      · rw [Array.getElem?_modify, if_pos rfl, habove]
        rfl
      · simp only [Node.settleChild]
        omega
    · exact hkept

section

variable (htree : Consistent nodes (id :: rest)) (hjustified : Justified D nodes (id :: rest))
  (hnode : nodes[id]? = some node) {parent : Nat} {above : Node}
  (hparent : node.parent = some parent) (habove : nodes[parent]? = some above)
  (hid : node.sound → D node.statement)
include htree hjustified hnode hparent habove hid

theorem Consistent.derive_settleChild {i : Nat} {before after : Node}
    (hbefore : nodes[i]? = some before)
    (hafter : (nodes.modify parent (·.settleChild node.sound))[i]? = some after)
    (hpositive : 0 < before.pending) (hsound : after.sound)
    (hwaiting : ∀ (child : Nat) (below : Node),
      WaitsFor (nodes.modify parent (·.settleChild node.sound))
        (if above.pending = 1 then parent :: rest else rest) i child →
      (nodes.modify parent (·.settleChild node.sound))[child]? = some below →
      D below.statement) : D after.statement := by
  obtain ⟨hbeforeSound, hnodeSound⟩ := sound_of_settleChild hnode hparent hbefore hafter hsound
  exact (htree.retires_child hnode hparent habove).derive hjustified hnode hbefore hafter hpositive
    hbeforeSound (fun hwaits => hid (hnodeSound hwaits)) hwaiting

theorem Consistent.justified_settleChild :
    Justified D (nodes.modify parent (·.settleChild node.sound))
      (if above.pending = 1 then parent :: rest else rest) := by
  have hretires := htree.retires_child hnode hparent habove
  intro i after hafter hpositive hsound hwaiting
  obtain ⟨before, hbefore, -, -⟩ := hretires.exists_before hafter
  refine htree.derive_settleChild hjustified hnode hparent habove hid hbefore hafter ?_ hsound
    hwaiting
  rcases hretires.pending i before after hbefore hafter with ⟨hmore, -⟩ | ⟨hsame, -⟩ <;> omega

/-- The goal above follows as soon as its last subgoal is settled. -/
theorem Consistent.derive_parent (hone : above.pending = 1) {after : Node}
    (hafter : (nodes.modify parent (·.settleChild node.sound))[parent]? = some after)
    (hsound : after.sound) : D after.statement := by
  have htree' := htree.settleChild hnode hparent habove
  have hzero : after.pending = 0 := by
    rw [if_pos hone] at htree'
    exact htree'.pending_of_mem List.mem_cons_self hafter
  refine htree.derive_settleChild hjustified hnode hparent habove hid habove hafter (by omega)
    hsound fun child below hchild _ => ?_
  exact absurd hchild (htree'.not_waitsFor hafter hzero child)

end

end Settling

section Expanding

variable {D : Statement → Prop} {nodes : Array Node} {target : Nat} {node : Node} {tail : List Nat}
  {defers : Bool} {subgoals : List Statement}

/-- The agenda after its first goal has got subgoals. Without subgoals it is to be settled. -/
def expandAgenda (nodes : Array Node) (target : Nat) (subgoals : List Statement)
    (tail : List Nat) : List Nat :=
  if subgoals.isEmpty then target :: tail else subgoalIds nodes subgoals ++ tail

theorem mem_subgoalIds {id : Nat} :
    id ∈ subgoalIds nodes subgoals ↔
      id ∈ Finset.Ico nodes.size (nodes.size + subgoals.length) := by
  simp only [subgoalIds, List.mem_reverse, List.mem_map, List.mem_range, Finset.mem_Ico]
  refine ⟨?_, fun ⟨hfirst, hlast⟩ => ⟨id - nodes.size, by omega, by omega⟩⟩
  rintro ⟨k, hk, rfl⟩
  omega

theorem getElem?_expandNodes_eq_some_iff (hnode : nodes[target]? = some node) {id : Nat}
    {after : Node} :
    (expandNodes nodes target defers subgoals)[id]? = some after ↔
      (id = target ∧ after = node.expand defers subgoals) ∨
      (id ≠ target ∧ nodes[id]? = some after) ∨
      ∃ goal, nodes.size ≤ id ∧ subgoals[id - nodes.size]? = some goal ∧
        after = ⟨goal, 0, some target, true⟩ := by
  obtain ⟨htarget, -⟩ := Array.getElem?_eq_some_iff.mp hnode
  rw [expandNodes, Array.getElem?_append, Array.size_modify]
  by_cases hsize : id < nodes.size
  · rw [if_pos hsize, Array.getElem?_modify]
    by_cases hid : target = id
    · subst hid
      rw [if_pos rfl, hnode]
      simp [Nat.not_le.mpr hsize, eq_comm]
    · simp [hid, Ne.symm hid, hsize]
  · have hne : id ≠ target := by omega
    rw [if_neg hsize]
    simp [hne, Nat.le_of_not_lt hsize, eq_comm]

section

variable (htree : Consistent nodes (target :: tail)) (hnode : nodes[target]? = some node)
include htree hnode

theorem Consistent.waiting_expand (id : Nat) :
    Waiting (expandNodes nodes target defers subgoals)
        (expandAgenda nodes target subgoals tail) id ↔
      Waiting nodes (target :: tail) id ∨
        id ∈ Finset.Ico nodes.size (nodes.size + subgoals.length) := by
  by_cases hid : id = target
  · -- the goal itself waits on, be it for a subgoal or to be settled
    subst hid
    refine iff_of_true ?_ (.inl (.inl List.mem_cons_self))
    by_cases hempty : subgoals.isEmpty
    · rw [expandAgenda, if_pos hempty]
      exact .inl List.mem_cons_self
    · refine .inr ⟨node.expand defers subgoals, ?_, ?_⟩
      · exact (getElem?_expandNodes_eq_some_iff hnode).mpr (.inl ⟨rfl, rfl⟩)
      · exact List.length_pos_iff.mpr fun hnil => hempty (List.isEmpty_iff.mpr hnil)
  · have hagenda : id ∈ expandAgenda nodes target subgoals tail ↔
        id ∈ target :: tail ∨ id ∈ Finset.Ico nodes.size (nodes.size + subgoals.length) := by
      rw [expandAgenda, ← mem_subgoalIds]
      split
      · rename_i hempty
        simp [List.isEmpty_iff.mp hempty, subgoalIds]
      · simp [hid, or_comm]
    have hpending : (∃ after : Node,
        (expandNodes nodes target defers subgoals)[id]? = some after ∧ 0 < after.pending) ↔
        ∃ before : Node, nodes[id]? = some before ∧ 0 < before.pending := by
      simp only [getElem?_expandNodes_eq_some_iff hnode]
      refine ⟨?_, fun ⟨before, hbefore, hpos⟩ => ⟨before, .inr (.inl ⟨hid, hbefore⟩), hpos⟩⟩
      rintro ⟨after, ⟨heq, -⟩ | ⟨-, hbefore⟩ | ⟨goal, -, -, rfl⟩, hpos⟩
      · exact absurd heq hid
      · exact ⟨after, hbefore, hpos⟩
      · exact absurd hpos (Nat.lt_irrefl 0)
    rw [Waiting, Waiting, hagenda, hpending, or_right_comm]

theorem Consistent.waitsFor_expand (id child : Nat) :
    WaitsFor (expandNodes nodes target defers subgoals)
        (expandAgenda nodes target subgoals tail) id child ↔
      WaitsFor nodes (target :: tail) id child ∨
        (id = target ∧ child ∈ Finset.Ico nodes.size (nodes.size + subgoals.length)) := by
  have hparent : (∃ after : Node,
      (expandNodes nodes target defers subgoals)[child]? = some after ∧ after.parent = some id) ↔
      (∃ before : Node, nodes[child]? = some before ∧ before.parent = some id) ∨
        (id = target ∧ child ∈ Finset.Ico nodes.size (nodes.size + subgoals.length)) := by
    simp only [getElem?_expandNodes_eq_some_iff hnode]
    refine ⟨?_, ?_⟩
    · rintro ⟨after, ⟨rfl, rfl⟩ | ⟨-, hbefore⟩ | ⟨goal, hfirst, hgoal, rfl⟩, habove⟩
      · exact .inl ⟨node, hnode, habove⟩
      · exact .inl ⟨after, hbefore, habove⟩
      · obtain ⟨hlast, -⟩ := List.getElem?_eq_some_iff.mp hgoal
        refine .inr ⟨(Option.some.inj habove).symm, Finset.mem_Ico.mpr ⟨hfirst, ?_⟩⟩
        omega
    · rintro (⟨before, hbefore, habove⟩ | ⟨rfl, hchild⟩)
      · by_cases hid : child = target
        · subst hid
          cases hnode.symm.trans hbefore
          exact ⟨_, .inl ⟨rfl, rfl⟩, habove⟩
        · exact ⟨before, .inr (.inl ⟨hid, hbefore⟩), habove⟩
      · obtain ⟨hfirst, hlast⟩ := Finset.mem_Ico.mp hchild
        exact ⟨_, .inr (.inr ⟨subgoals[child - nodes.size], hfirst,
          List.getElem?_eq_getElem (by omega), rfl⟩), rfl⟩
  have hnew : (∃ before : Node, nodes[child]? = some before ∧ before.parent = some id) →
      child ∉ Finset.Ico nodes.size (nodes.size + subgoals.length) := by
    rintro ⟨before, hbefore, -⟩ hchild
    obtain ⟨hsize, -⟩ := Array.getElem?_eq_some_iff.mp hbefore
    have hfirst := (Finset.mem_Ico.mp hchild).1
    omega
  rw [WaitsFor, WaitsFor, hparent, htree.waiting_expand hnode]
  refine ⟨?_, ?_⟩
  · rintro ⟨hold | hsubgoal, hwaiting⟩
    · exact .inl ⟨hold, hwaiting.resolve_right (hnew hold)⟩
    · exact .inr hsubgoal
  · rintro (⟨hold, hwaiting⟩ | hsubgoal)
    · exact ⟨.inl hold, .inl hwaiting⟩
    · exact ⟨.inr hsubgoal, .inr hsubgoal.2⟩

/-- The tree stays consistent when its first open goal gets subgoals. -/
theorem Consistent.expand :
    Consistent (expandNodes nodes target defers subgoals)
      (expandAgenda nodes target subgoals tail) := by
  obtain ⟨htargetSize, -⟩ := Array.getElem?_eq_some_iff.mp hnode
  have hpending := htree.pending_of_mem List.mem_cons_self hnode
  have hlt : ∀ id ∈ target :: tail, id < nodes.size := by
    intro id hid
    obtain ⟨found, hfound, -⟩ := htree.agenda_pending id hid
    exact (Array.getElem?_eq_some_iff.mp hfound).1
  have htail : ∀ id ∈ tail, ∃ after : Node,
      (expandNodes nodes target defers subgoals)[id]? = some after ∧ after.pending = 0 := by
    intro id hid
    obtain ⟨found, hfound, hzero⟩ := htree.agenda_pending id (List.mem_cons_of_mem _ hid)
    have hne : id ≠ target := fun heq => (List.nodup_cons.mp htree.nodup).1 (heq ▸ hid)
    exact ⟨found, (getElem?_expandNodes_eq_some_iff hnode).mpr (.inr (.inl ⟨hne, hfound⟩)), hzero⟩
  refine ⟨?_, ?_, ?_, ?_⟩
  · rw [expandAgenda]
    split
    · exact htree.nodup
    · refine List.Nodup.append ?_ (List.nodup_cons.mp htree.nodup).2 fun id hnew hold => ?_
      · exact List.nodup_reverse.mpr
          (List.nodup_range.map fun first second heq => Nat.add_left_cancel heq)
      · have hfirst := (Finset.mem_Ico.mp (mem_subgoalIds.mp hnew)).1
        have hsize := hlt id (List.mem_cons_of_mem _ hold)
        omega
  · rw [expandAgenda]
    split
    · rename_i hempty
      refine List.forall_mem_cons.mpr ⟨⟨_, (getElem?_expandNodes_eq_some_iff hnode).mpr
        (.inl ⟨rfl, rfl⟩), ?_⟩, htail⟩
      rw [Node.expand, List.isEmpty_iff.mp hempty]
      rfl
    · refine fun id hid => (List.mem_append.mp hid).elim (fun hnew => ?_) (htail id)
      obtain ⟨hfirst, hlast⟩ := Finset.mem_Ico.mp (mem_subgoalIds.mp hnew)
      exact ⟨_, (getElem?_expandNodes_eq_some_iff hnode).mpr (.inr (.inr
        ⟨subgoals[id - nodes.size], hfirst, List.getElem?_eq_getElem (by omega), rfl⟩)), rfl⟩
  · intro id after above hafter habove
    rcases (getElem?_expandNodes_eq_some_iff hnode).mp hafter with
      ⟨rfl, rfl⟩ | ⟨-, hbefore⟩ | ⟨goal, hfirst, -, rfl⟩
    · exact htree.parent_lt id node above hnode habove
    · exact htree.parent_lt id after above hbefore habove
    · cases habove
      omega
  · intro id after hafter
    simp only [htree.waitsFor_expand hnode]
    rcases (getElem?_expandNodes_eq_some_iff hnode).mp hafter with
      ⟨rfl, rfl⟩ | ⟨hne, hbefore⟩ | ⟨goal, hfirst, -, rfl⟩
    · refine ⟨Finset.Ico nodes.size (nodes.size + subgoals.length), fun child => ?_, ?_⟩
      · simp [htree.not_waitsFor hnode hpending child]
      · rw [Nat.card_Ico, Nat.add_sub_cancel_left]
        rfl
    · obtain ⟨waiting, hwaiting, hcard⟩ := htree.pending_eq id after hbefore
      exact ⟨waiting, fun child => by simp [hwaiting child, hne], hcard⟩
    · -- a new goal is nobody's parent
      refine ⟨∅, fun child => iff_of_false (Finset.notMem_empty child) ?_, rfl⟩
      rintro (⟨⟨before, hbefore, habove⟩, -⟩ | ⟨rfl, -⟩)
      · have hless := htree.parent_lt child before id hbefore habove
        obtain ⟨hsize, -⟩ := Array.getElem?_eq_some_iff.mp hbefore
        omega
      · omega

/-- So does the reason why a goal with subgoals is proved, if it follows from its subgoals. -/
theorem Consistent.justified_expand (hjustified : Justified D nodes (target :: tail))
    (hrule : defers = false → (∀ goal ∈ subgoals, D goal) → D node.statement) :
    Justified D (expandNodes nodes target defers subgoals)
      (expandAgenda nodes target subgoals tail) := by
  intro id after hafter hpositive hsound hwaiting
  simp only [htree.waitsFor_expand hnode] at hwaiting
  rcases (getElem?_expandNodes_eq_some_iff hnode).mp hafter with
    ⟨rfl, rfl⟩ | ⟨hne, hbefore⟩ | ⟨goal, -, -, rfl⟩
  · have hdefers : defers = false := by
      simpa using (Bool.and_eq_true_iff.mp hsound).2
    refine hrule hdefers fun goal hgoal => ?_
    obtain ⟨k, hk, rfl⟩ := List.getElem_of_mem hgoal
    refine hwaiting (nodes.size + k) ⟨subgoals[k], 0, some id, true⟩
      (.inr ⟨rfl, Finset.mem_Ico.mpr (by omega)⟩) ?_
    refine (getElem?_expandNodes_eq_some_iff hnode).mpr
      (.inr (.inr ⟨subgoals[k], by omega, ?_, rfl⟩))
    rw [Nat.add_sub_cancel_left, List.getElem?_eq_getElem hk]
  · refine hjustified id after hbefore hpositive hsound fun child below hchild hbelow => ?_
    by_cases htarget : child = target
    · subst htarget
      cases hnode.symm.trans hbelow
      exact hwaiting child (node.expand defers subgoals) (.inl hchild)
        ((getElem?_expandNodes_eq_some_iff hnode).mpr (.inl ⟨rfl, rfl⟩))
    · exact hwaiting child below (.inl hchild)
        ((getElem?_expandNodes_eq_some_iff hnode).mpr (.inr (.inl ⟨htarget, hbelow⟩)))
  · exact absurd hpositive (Nat.lt_irrefl 0)

end

end Expanding

namespace Session

variable {session : Session} {id : Nat} {node : Node}

theorem settle_of_root (hnode : session.nodes[id]? = some node) (hroot : node.parent = none) :
    session.settle id = session.record node := by
  rw [settle]
  simp only [hnode, hroot]

theorem settle_of_child (hnode : session.nodes[id]? = some node) {parent : Nat} {above : Node}
    (hparent : node.parent = some parent) (habove : session.nodes[parent]? = some above)
    (hlt : parent < id) :
    session.settle id =
      if 0 < above.pending - 1 then session.report node parent
      else (session.report node parent).settle parent := by
  have hcount : ((session.report node parent).nodes[parent]?.map Node.pending).getD 1 =
      above.pending - 1 := by
    rw [report, Array.getElem?_modify, if_pos rfl, habove]
    rfl
  rw [settle]
  simp only [hnode, hparent, hcount, gt_iff_lt, if_pos hlt]

/-- What settling a goal achieves: only the tree and the proved goals change, no goal changes its
place, and the tree is that of the rest of the agenda. -/
structure Settles (session : Session) (rest : List Nat) (result : Session) : Prop where
  frame : result = { session with nodes := result.nodes, proved := result.proved }
  place : ∀ i : Nat, result.nodes[i]?.map Node.place = session.nodes[i]?.map Node.place
  consistent : Consistent result.nodes rest

theorem Settles.goals_eq {rest : List Nat} {result : Session}
    (hsettles : Settles session rest result) : result.goals = session.goals := by
  rw [hsettles.frame]

theorem Settles.status_eq {rest : List Nat} {result : Session}
    (hsettles : Settles session rest result) : result.status = session.status := by
  rw [hsettles.frame]

/-- In addition, everything proved has the property `D`. -/
structure SettlesSoundly (D : Statement → Prop) (session : Session) (rest : List Nat)
    (result : Session) : Prop extends Settles session rest result where
  justified : Justified D result.nodes rest
  proved : ∀ statement, result.proved.contains statement → D statement

theorem of_contains_insert_proved {D : Statement → Prop} {proved : Std.TreeSet Statement}
    (hproved : ∀ statement, proved.contains statement → D statement)
    (hnode : node.sound → D node.statement) (statement : Statement)
    (hcontains : (if node.sound then proved.insert node.statement else proved).contains
      statement) : D statement := by
  split at hcontains
  · rename_i hsound
    rw [Std.TreeSet.contains_insert, Bool.or_eq_true, beq_iff_eq,
      Std.LawfulEqOrd.compare_eq_iff_eq] at hcontains
    rcases hcontains with rfl | hold
    · exact hnode hsound
    · exact hproved statement hold
  · exact hproved statement hcontains

/-- A goal with all its subgoals settled can be settled itself, if it has the property `D` or is
not sound. -/
theorem settle_settlesSoundly {D : Statement → Prop} {rest : List Nat}
    (htree : Consistent session.nodes (id :: rest))
    (hjustified : Justified D session.nodes (id :: rest))
    (hproved : ∀ statement, session.proved.contains statement → D statement)
    (hid : ∀ node : Node, session.nodes[id]? = some node → node.sound → D node.statement) :
    SettlesSoundly D session rest (session.settle id) := by
  -- the goal above is created earlier, so its number is smaller
  induction id using Nat.strong_induction_on generalizing session with
  | _ id ih =>
    obtain ⟨node, hnode, hpending⟩ := htree.agenda_pending id List.mem_cons_self
    have hrest : rest.Nodup := (List.nodup_cons.mp htree.nodup).2
    have hinsert := of_contains_insert_proved hproved (hid node hnode)
    cases hparent : node.parent with
    | none =>
      have hretires := htree.retires_root hnode hparent
      rw [settle_of_root hnode hparent]
      refine ⟨⟨rfl, fun i => rfl, ?_⟩, ?_, hinsert⟩
      · exact hretires.consistent htree hrest fun i hi =>
          htree.agenda_pending i (List.mem_cons_of_mem _ hi)
      · intro i before hbefore hcounts hsound hwaiting
        exact hretires.derive hjustified hnode hbefore hbefore hcounts hsound
          (fun hwaits => absurd hwaits.1 (by simp [hnode, hparent])) hwaiting
    | some parent =>
      have hlt : parent < id := htree.parent_lt id node parent hnode hparent
      obtain ⟨above, habove⟩ : ∃ above : Node, session.nodes[parent]? = some above := by
        obtain ⟨hsize, -⟩ := Array.getElem?_eq_some_iff.mp hnode
        exact ⟨_, Array.getElem?_eq_getElem (hlt.trans hsize)⟩
      have hcounts := htree.pending_pos_of_child List.mem_cons_self hnode hparent habove
      have hplace := (htree.retires_child hnode hparent habove).place
      have htree' := htree.settleChild hnode hparent habove
      have hjustified' :=
        htree.justified_settleChild hjustified hnode hparent habove (hid node hnode)
      rw [settle_of_child hnode hparent habove hlt]
      by_cases hone : above.pending = 1
      · rw [if_pos hone] at htree' hjustified'
        have hsettles := @ih parent hlt (session.report node parent) htree' hjustified' hinsert
          fun after => htree.derive_parent hjustified hnode hparent habove (hid node hnode) hone
        simp only [hone, Nat.sub_self, Nat.lt_irrefl, if_false]
        exact { hsettles with place := fun i => (hsettles.place i).trans (hplace i) }
      · rw [if_neg hone] at htree' hjustified'
        have hmore : 0 < above.pending - 1 := by omega
        simp only [hmore, if_true]
        exact ⟨⟨rfl, hplace, htree'⟩, hjustified', hinsert⟩

end Session

end Metamath.Search
