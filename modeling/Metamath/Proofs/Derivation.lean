import Metamath.Proofs.Replay

/-!
# Normal proofs and derivations

A normal proof is a list of labels, but what it stands for is a tree. Its leaves are hypotheses of
the theorem, and each inner node applies an assertion to the statements of its children. The list
is what remains of the tree if the labels are written children first and everything else is left
out.

Nothing is lost in this: a normal proof is accepted exactly if it is the list of a derivation of
the theorem's conclusion, and no other tree has the same list. The reason is that a label alone
tells how many subtrees its node has, so the tree can be grown again from the list, one label at a
time, by the same stack discipline by which a proof is replayed.
-/

namespace Metamath

namespace Proof

/-- A tree of labelled statements. -/
inductive Tree where
  | node (label : Symbol) (statement : Statement) (children : List Tree)

namespace Tree

/-- The statement at the root. -/
def statement : Tree → Statement
  | node _ statement _ => statement

/-- The labels of a tree, those of the children before that of the root. -/
def postorder : Tree → List Symbol
  | node label _ children => children.flatMap postorder ++ [label]

end Tree

namespace Context

/-- A tree derives its statement from the hypotheses of the theorem. A leaf is an active hypothesis
with its recorded statement. An inner node has one child for each hypothesis of an assertion, and
some substitution makes the children's statements these hypotheses. -/
inductive Derives (context : Context) : Tree → Prop
  | hypothesis {label : Symbol} {statement : Statement}
      (hentry : context.labels.get? label = some (.floating statement) ∨
        context.labels.get? label = some (.essential statement))
      (hactive : context.environment.isHypothesis label) :
      Derives context (.node label statement [])
  | assertion {label : Symbol} {assertion : Assertion} {σ : Substitution} {children : List Tree}
      (hentry : context.labels.get? label = some (.axiomatic assertion) ∨
        context.labels.get? label = some (.provable assertion))
      (hchildren : ∀ child ∈ children, Derives context child)
      (hfits : assertion.Fits context.environment σ (children.map Tree.statement)) :
      Derives context (.node label (σ.apply assertion.conclusion) children)


variable {context : Context}

/-- The list of a derivation is a subproof of its statement. -/
theorem Derives.yields {tree : Tree} (hderives : context.Derives tree) :
    context.Yields tree.postorder tree.statement := by
  induction hderives with
  | hypothesis hentry hactive =>
    rw [Tree.postorder]
    exact yields_hypothesis (step_eq_hypothesis_iff.mpr ⟨hentry, hactive⟩)
  | @assertion label assertion σ children hentry hchildren hfits ih =>
    have hsubproofs : List.Forall₂ context.Yields
        (children.map Tree.postorder) (children.map Tree.statement) := by
      rw [List.forall₂_map_left_iff, List.forall₂_map_right_iff, List.forall₂_same]
      exact ih
    have hlength : (children.map Tree.statement).length = assertion.arity := by
      rw [hfits.entries_eq, Assertion.length_hypotheses]
    rw [Tree.postorder, List.flatMap_def]
    exact yields_assertion (step_eq_assertion_iff.mpr hentry) hsubproofs hlength
      (conclude_of_fits hfits)

/-- One step of a replay is one step of growing a forest: if the entries of the stack are the
statements of derivations, then so they are after the step, and the list of the forest has got the
label of the step at its end. -/
theorem exists_forest_of_advance (hwell : context.labels.WellFormed) {forest : List Tree}
    (hforest : ∀ tree ∈ forest, context.Derives tree) {label : Symbol} {result : Stack Statement}
    (hadvance : context.advance (Stack.empty.pushAll (forest.map Tree.statement)) label =
      .ok result) :
    ∃ grown : List Tree, (∀ tree ∈ grown, context.Derives tree) ∧
      result = Stack.empty.pushAll (grown.map Tree.statement) ∧
      grown.flatMap Tree.postorder = forest.flatMap Tree.postorder ++ [label] := by
  obtain ⟨step, hstep, hperform⟩ := advance_eq_ok_iff.mp hadvance
  cases step with
  | hypothesis statement =>
    obtain ⟨hentry, hactive⟩ := step_eq_hypothesis_iff.mp hstep
    cases hperform
    refine ⟨forest ++ [.node label statement []], ?_, ?_, ?_⟩
    · intro tree htree
      rcases List.mem_append.mp htree with hold | hnew
      · exact hforest tree hold
      · rw [List.mem_singleton.mp hnew]
        exact .hypothesis hentry hactive
    · rw [List.map_append, Stack.pushAll_append]
      rfl
    · simp [Tree.postorder]
  | assertion assertion =>
    have hentry := step_eq_assertion_iff.mp hstep
    obtain ⟨base, args, conclusion, hlength, hstack, hconclude, rfl⟩ :=
      perform_assertion_eq_ok_iff.mp hperform
    -- the topmost trees are the ones whose statements the step consumes
    have hsplit : forest.map Tree.statement = base.toList ++ args := by
      simpa using congrArg Stack.toList hstack
    obtain ⟨kept, children, rfl, hkept, rfl⟩ := List.map_eq_append_iff.mp hsplit
    obtain ⟨σ, hfits, rfl⟩ := fits_of_conclude (hwell label assertion hentry) hlength hconclude
    refine ⟨kept ++ [.node label (σ.apply assertion.conclusion) children], ?_, ?_, ?_⟩
    · intro tree htree
      rcases List.mem_append.mp htree with hold | hnew
      · exact hforest tree (List.mem_append_left _ hold)
      · rw [List.mem_singleton.mp hnew]
        exact .assertion hentry (fun child hchild => hforest child (List.mem_append_right _ hchild))
          hfits
    · rw [List.map_append, Stack.pushAll_append, hkept, ← Stack.eq_pushAll_toList]
      rfl
    · simp [Tree.postorder]

/-- A replay that starts with the statements of a forest of derivations ends with the statements of
such a forest, whose list continues that of the first one by the proof. -/
theorem exists_forest_of_replay (hwell : context.labels.WellFormed) {proof : List Symbol}
    {forest : List Tree} (hforest : ∀ tree ∈ forest, context.Derives tree)
    {result : Stack Statement}
    (hreplay : proof.foldlM context.advance (Stack.empty.pushAll (forest.map Tree.statement)) =
      .ok result) :
    ∃ grown : List Tree, (∀ tree ∈ grown, context.Derives tree) ∧
      result = Stack.empty.pushAll (grown.map Tree.statement) ∧
      grown.flatMap Tree.postorder = forest.flatMap Tree.postorder ++ proof := by
  induction proof generalizing forest with
  | nil =>
    cases hreplay
    exact ⟨forest, hforest, rfl, by rw [List.append_nil]⟩
  | cons label rest ih =>
    rw [List.foldlM_cons, bind_eq_ok_iff] at hreplay
    obtain ⟨middle, hadvance, hrest⟩ := hreplay
    obtain ⟨larger, hlarger, rfl, hlist⟩ := exists_forest_of_advance hwell hforest hadvance
    obtain ⟨grown, hgrown, hresult, hgrownList⟩ := ih hlarger hrest
    refine ⟨grown, hgrown, hresult, ?_⟩
    rw [hgrownList, hlist, List.append_assoc, List.singleton_append]

/-- Grow a forest by a node with the given label. Its children are as many of the latest trees as
the label asks for. -/
def grow (context : Context) (forest : Stack Tree) (label : Symbol) : Stack Tree :=
  match context.step label with
  | .ok (.hypothesis statement) => forest.push (.node label statement [])
  | .ok (.assertion assertion) =>
    match forest.args? assertion.arity with
    | some children =>
      match conclude context.environment assertion (children.map Tree.statement) with
      | .ok statement => (forest.pop assertion.arity).push (.node label statement children)
      | .error _ => forest
    | none => forest
  | .error _ => forest

/-- A derivation can be grown from its list. -/
theorem Derives.foldl_grow {tree : Tree} (hderives : context.Derives tree) :
    ∀ forest : Stack Tree, tree.postorder.foldl context.grow forest = forest.push tree := by
  induction hderives with
  | hypothesis hentry hactive =>
    intro forest
    simp [Tree.postorder, grow, step_eq_hypothesis_iff.mpr ⟨hentry, hactive⟩]
  | @assertion label assertion σ children hentry hchildren hfits ih =>
    intro forest
    -- by induction on a part of the children, for the other hypothesis is about each child
    have hall : ∀ (trees : List Tree) (forest : Stack Tree), (∀ tree ∈ trees, tree ∈ children) →
        (trees.flatMap Tree.postorder).foldl context.grow forest = forest.pushAll trees := by
      intro trees
      induction trees with
      | nil => exact fun forest _ => rfl
      | cons first rest ihrest =>
        intro forest hmem
        rw [List.forall_mem_cons] at hmem
        rw [List.flatMap_cons, List.foldl_append, ih first hmem.1, ihrest _ hmem.2,
          Stack.pushAll_cons]
    have hlength : children.length = assertion.arity := by
      rw [← List.length_map Tree.statement, hfits.entries_eq, Assertion.length_hypotheses]
    rw [Tree.postorder, List.foldl_append, hall children forest fun _ h => h]
    simp only [List.foldl_cons, List.foldl_nil, grow, step_eq_assertion_iff.mpr hentry,
      Stack.args?_eq_some_iff.mpr ⟨hlength, forest, rfl⟩, conclude_of_fits hfits]
    rw [← hlength, Stack.pop_pushAll]

/-- Derivations with the same list are the same. -/
theorem Derives.eq_of_postorder_eq {first second : Tree} (hfirst : context.Derives first)
    (hsecond : context.Derives second) (hlist : first.postorder = second.postorder) :
    first = second := by
  have hgrown := hfirst.foldl_grow Stack.empty
  rw [hlist, hsecond.foldl_grow Stack.empty] at hgrown
  simpa [Stack.push] using hgrown.symm

theorem replayNormal_eq_ok_singleton_iff (hwell : context.labels.WellFormed)
    {proof : List Symbol} {conclusion : Statement} :
    context.replayNormal proof = .ok ⟨[conclusion]⟩ ↔
      ∃ tree, context.Derives tree ∧ tree.postorder = proof ∧ tree.statement = conclusion := by
  refine ⟨?_, ?_⟩
  · intro hreplay
    have hstart : proof.foldlM context.advance
        (Stack.empty.pushAll (([] : List Tree).map Tree.statement)) = .ok ⟨[conclusion]⟩ := hreplay
    obtain ⟨grown, hgrown, hresult, hlist⟩ := exists_forest_of_replay hwell (by simp) hstart
    have hone : grown.map Tree.statement = [conclusion] := by
      have hentries := congrArg Stack.toList hresult
      rw [Stack.toList_pushAll] at hentries
      exact hentries.symm
    obtain ⟨tree, rfl, hstatement⟩ := List.map_eq_singleton_iff.mp hone
    exact ⟨tree, hgrown tree (List.mem_singleton_self tree), by simpa using hlist, hstatement⟩
  · rintro ⟨tree, hderives, rfl, rfl⟩
    exact hderives.yields Stack.empty

/-- A proof that is not compressed is accepted exactly if it is the list of a derivation of the
conclusion, and then of one derivation only. -/
theorem verify_normal_iff_existsUnique_derivation (hwell : context.labels.WellFormed)
    (floating : List Typing) (essential : List Statement) (conclusion : Statement)
    (proof : List Symbol) (hnonempty : proof ≠ []) (hnormal : proof.head? ≠ some "(") :
    (context.verify floating essential conclusion proof = .ok () ↔
      ∃ tree, context.Derives tree ∧ tree.postorder = proof ∧ tree.statement = conclusion) ∧
    ∀ first second, context.Derives first → context.Derives second →
      first.postorder = proof → second.postorder = proof → first = second := by
  refine ⟨?_, ?_⟩
  · rw [verify_eq_ok_iff, replay_of_head?_ne hnonempty hnormal]
    exact replayNormal_eq_ok_singleton_iff hwell
  · intro first second hfirst hsecond hlist hlist'
    exact hfirst.eq_of_postorder_eq hsecond (hlist.trans hlist'.symm)

theorem exists_derivation_at_disjointPlace :
    disjointPlace.labels.WellFormed ∧
    ∃ tree, disjointPlace.Derives tree ∧
      tree.postorder = ["wph", "wps", "wps", "wi", "ax-dj"] ∧
      tree.statement = ["|-", "(", "ph", "->", "(", "ps", "->", "ps", ")", ")"] ∧
      ∀ other, disjointPlace.Derives other →
        other.postorder = ["wph", "wps", "wps", "wi", "ax-dj"] → other = tree := by
  have hwell : disjointPlace.labels.WellFormed :=
    LabelTable.wellFormed_of_forall_mem (by decide +kernel)
  obtain ⟨hiff, hunique⟩ := verify_normal_iff_existsUnique_derivation hwell [] []
    ["|-", "(", "ph", "->", "(", "ps", "->", "ps", ")", ")"]
    ["wph", "wps", "wps", "wi", "ax-dj"] (by decide) (by decide)
  obtain ⟨tree, hderives, hlist, hstatement⟩ := hiff.mp (by decide +kernel)
  exact ⟨hwell, tree, hderives, hlist, hstatement,
    fun other hother hotherList => hunique other tree hother hderives hotherList hlist⟩

end Context

end Proof

end Metamath
