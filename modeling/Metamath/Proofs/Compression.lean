import Metamath.Proofs.Code
import Metamath.Proofs.Replay

/-!
# Compressed and normal proofs

A compressed proof is a normal proof in shorthand. Written out, each number of a label becomes the
label, and each number of a saved statement becomes the whole subproof that once produced it; the
instruction to save disappears. In the other direction, a normal proof is put into shorthand by
listing its labels once and writing the number of each label in the place of the label.

Both ways lead to the same stack. On the way out this rests on subproofs: what was saved was pushed
by some piece of the proof, and that piece pushes it again, whatever lies on the stack by then. So
along with the stack one has to keep, for each of its entries, the labels that produced it.

The way out says nothing about a proof that leaves no statement, because a normal proof is never
empty, nor about one whose first label is an opening parenthesis, because a normal proof that
starts with this label would be taken for a compressed one.
-/

namespace Metamath

/-- A function that succeeds on every element of a list can be mapped over it. -/
theorem exists_mapM_eq_ok {ε α β : Type} {f : α → Except ε β} {R : α → β → Prop} {list : List α}
    (hlist : ∀ a ∈ list, ∃ b, f a = .ok b ∧ R a b) :
    ∃ results, list.mapM f = .ok results ∧ List.Forall₂ R list results := by
  induction list with
  | nil => exact ⟨[], rfl, .nil⟩
  | cons a rest ih =>
    rw [List.forall_mem_cons] at hlist
    obtain ⟨b, hb, hRb⟩ := hlist.1
    obtain ⟨bs, hbs, hRbs⟩ := ih hlist.2
    refine ⟨b :: bs, ?_, .cons hRb hRbs⟩
    rw [mapM_eq_ok_iff] at hbs ⊢
    exact .cons hb hbs

namespace Proof

/-- A compressed proof that is being written out. -/
structure Expansion where
  /-- the labels that have been written -/
  written : List Symbol
  /-- the labels that produced each entry of the stack -/
  subproofs : Stack (List Symbol)
  /-- the labels that produced each saved statement -/
  saved : Array (List Symbol)

/-- Nothing has been written. -/
def Expansion.empty : Expansion := ⟨[], .empty, #[]⟩

namespace Context

variable {context : Context}

/-- The number of entries that the step of a label consumes. -/
def arity (context : Context) (label : Symbol) : Nat :=
  match context.labels.get? label with
  | some (.axiomatic assertion) | some (.provable assertion) => assertion.arity
  | _ => 0

/-- Write out an instruction of a compressed proof that numbers the given labels. -/
def expandCode? (context : Context) (labels : List Symbol) (expansion : Expansion) :
    Code → Option Expansion
  | .save =>
    expansion.subproofs.top?.map fun subproof =>
      { expansion with saved := expansion.saved.push subproof }
  | .index number =>
    match labels[number]? with
    | some label =>
      (expansion.subproofs.args? (context.arity label)).map fun args =>
        { expansion with
          written := expansion.written ++ [label]
          subproofs :=
            (expansion.subproofs.pop (context.arity label)).push (args.flatten ++ [label]) }
    | none =>
      expansion.saved[number - labels.length]?.map fun subproof =>
        { expansion with
          written := expansion.written ++ subproof
          subproofs := expansion.subproofs.push subproof }

/-- Write out a compressed proof, given without its opening parenthesis. -/
def expand? (context : Context) (floating : List Typing) (essential : List Statement)
    (proof : List Symbol) : Option (List Symbol) := do
  let (block, digits) ← cutAt? ")" proof
  let implicit ← (context.implicitLabels floating essential).toOption
  let codes ← (Code.decode digits).toOption
  let expansion ← codes.foldlM (context.expandCode? (implicit ++ block)) .empty
  return expansion.written

/-- Everything that an expansion knows about a replay: the labels it keeps for an entry are a
subproof of it, and what has been written are the subproofs of the entries one after another. -/
structure Tracks (context : Context) (expansion : Expansion) (memory : Memory) : Prop where
  stack : List.Forall₂ context.Yields expansion.subproofs.toList memory.stack.toList
  saved : List.Forall₂ context.Yields expansion.saved.toList memory.saved.toList
  written : expansion.written = expansion.subproofs.toList.flatten

theorem tracks_empty : context.Tracks .empty .empty :=
  ⟨.nil, .nil, rfl⟩

/-- What an expansion keeps for the topmost entries of a stack are its own topmost entries. -/
theorem exists_subproofs_of_pushAll {subproofs : Stack (List Symbol)} {base : Stack Statement}
    {args : List Statement}
    (hstack : List.Forall₂ context.Yields subproofs.toList (base.pushAll args).toList) :
    ∃ (lower : Stack (List Symbol)) (upper : List (List Symbol)),
      subproofs = lower.pushAll upper ∧ List.Forall₂ context.Yields lower.toList base.toList ∧
        List.Forall₂ context.Yields upper args := by
  rw [Stack.toList_pushAll] at hstack
  refine ⟨.ofList (subproofs.toList.take base.toList.length),
    subproofs.toList.drop base.toList.length, ?_, ?_, ?_⟩
  · apply Stack.toList_injective
    rw [Stack.toList_pushAll, Stack.toList_ofList, List.take_append_drop]
  · rw [Stack.toList_ofList]
    exact List.forall₂_take_append _ _ _ hstack
  · exact List.forall₂_drop_append _ _ _ hstack

/-- Performing the step of a label and writing the label go together. -/
theorem Tracks.label {label : Symbol} {step : Step} {expansion : Expansion} {memory : Memory}
    {stack : Stack Statement} (hstep : context.step label = .ok step)
    (htracks : context.Tracks expansion memory)
    (hperform : context.perform step memory.stack = .ok stack) :
    ∃ args, expansion.subproofs.args? (context.arity label) = some args ∧
      context.Tracks
        { expansion with
          written := expansion.written ++ [label]
          subproofs :=
            (expansion.subproofs.pop (context.arity label)).push (args.flatten ++ [label]) }
        { memory with stack } := by
  cases step with
  | hypothesis statement =>
    have harity : context.arity label = 0 := by
      obtain ⟨hentry | hentry, -⟩ := step_eq_hypothesis_iff.mp hstep <;> rw [arity, hentry]
    cases hperform
    rw [harity]
    refine ⟨[], rfl, ?_, htracks.saved, ?_⟩
    · rw [Stack.toList_push, Stack.toList_push]
      exact List.rel_append htracks.stack (.cons (yields_hypothesis hstep) .nil)
    · rw [htracks.written, Stack.toList_push, List.flatten_append]
      rfl
  | assertion assertion =>
    have harity : context.arity label = assertion.arity := by
      rcases step_eq_assertion_iff.mp hstep with hentry | hentry <;> rw [arity, hentry]
    obtain ⟨base, args, conclusion, hlength, hstack, hconclude, rfl⟩ :=
      perform_assertion_eq_ok_iff.mp hperform
    -- the subproofs of the consumed entries and the label are a subproof of the new entry
    have hentries := htracks.stack
    rw [hstack] at hentries
    obtain ⟨lower, upper, hsubproofs, hlower, hupper⟩ := exists_subproofs_of_pushAll hentries
    have hupperLength : upper.length = assertion.arity := hupper.length_eq.trans hlength
    rw [harity, htracks.written, hsubproofs, ← hupperLength, Stack.pop_pushAll]
    refine ⟨upper, Stack.args?_eq_some_iff.mpr ⟨rfl, lower, rfl⟩, ?_, htracks.saved, ?_⟩
    · rw [Stack.toList_push, Stack.toList_push]
      exact List.rel_append hlower
        (.cons (yields_assertion hstep hupper hlength hconclude) .nil)
    · simp [Stack.toList_push, Stack.toList_pushAll]

/-- An instruction that can be executed can be written out. -/
theorem Tracks.execute {labels : List Symbol} {steps : List Step} {expansion : Expansion}
    {memory result : Memory} {code : Code}
    (hsteps : List.Forall₂ (fun label step => context.step label = .ok step) labels steps)
    (htracks : context.Tracks expansion memory)
    (hexecute : context.execute steps.toArray memory code = .ok result) :
    ∃ next, context.expandCode? labels expansion code = some next ∧
      context.Tracks next result := by
  cases code with
  | save =>
    simp only [Context.execute] at hexecute
    split at hexecute
    · rename_i top htop
      cases hexecute
      obtain ⟨base, hstack⟩ := Stack.top?_eq_some_iff.mp htop
      have hentries := htracks.stack
      rw [hstack, ← Stack.pushAll_singleton] at hentries
      obtain ⟨lower, upper, hsubproofs, -, hupper⟩ := exists_subproofs_of_pushAll hentries
      obtain ⟨subproof, rest, hyields, hrest, rfl⟩ := List.forall₂_cons_right_iff.mp hupper
      cases hrest
      rw [Stack.pushAll_singleton] at hsubproofs
      refine ⟨{ expansion with saved := expansion.saved.push subproof }, ?_, htracks.stack, ?_,
        htracks.written⟩
      · rw [expandCode?, Stack.top?_eq_some_iff.mpr ⟨lower, hsubproofs⟩]
        rfl
      · rw [Array.toList_push, Array.toList_push]
        exact List.rel_append htracks.saved (.cons hyields .nil)
    · cases hexecute
  | index number =>
    simp only [Context.execute, List.getElem?_toArray, List.size_toArray] at hexecute
    obtain ⟨hlabel, hnone⟩ | ⟨label, step, hlabel, hsome, hstep⟩ := forall₂_getElem? hsteps number
    · -- a number beyond the labels refers to a saved statement
      simp only [hnone, ← hsteps.length_eq] at hexecute
      split at hexecute
      · rename_i statement hsaved
        cases hexecute
        rw [← Array.getElem?_toList] at hsaved
        obtain ⟨-, hnosaved⟩ | ⟨subproof, _, hsubproof, hfound, hyields⟩ :=
          forall₂_getElem? htracks.saved (number - labels.length)
        · rw [hnosaved] at hsaved
          cases hsaved
        · cases hfound.symm.trans hsaved
          rw [Array.getElem?_toList] at hsubproof
          refine ⟨{ expansion with
            written := expansion.written ++ subproof
            subproofs := expansion.subproofs.push subproof }, ?_, ?_, htracks.saved, ?_⟩
          · simp only [expandCode?, hlabel, hsubproof, Option.map_some]
          · rw [Stack.toList_push, Stack.toList_push]
            exact List.rel_append htracks.stack (.cons hyields .nil)
          · simp [htracks.written]
      · cases hexecute
    · simp only [hsome] at hexecute
      obtain ⟨stack, hperform, rfl⟩ := map_eq_ok_iff.mp hexecute
      obtain ⟨args, hargs, hnext⟩ := htracks.label hstep hperform
      refine ⟨_, ?_, hnext⟩
      simp only [expandCode?, hlabel, hargs, Option.map_some]

/-- A sequence of instructions that can be executed can be written out. -/
theorem Tracks.run {labels : List Symbol} {steps : List Step} {expansion : Expansion}
    {memory result : Memory} {codes : List Code}
    (hsteps : List.Forall₂ (fun label step => context.step label = .ok step) labels steps)
    (htracks : context.Tracks expansion memory)
    (hrun : codes.foldlM (context.execute steps.toArray) memory = .ok result) :
    ∃ final, codes.foldlM (context.expandCode? labels) expansion = some final ∧
      context.Tracks final result := by
  induction codes generalizing expansion memory with
  | nil =>
    cases hrun
    exact ⟨expansion, rfl, htracks⟩
  | cons code rest ih =>
    rw [List.foldlM_cons, bind_eq_ok_iff] at hrun
    obtain ⟨middle, hexecute, hrest⟩ := hrun
    obtain ⟨next, hnext, hmiddle⟩ := htracks.execute hsteps hexecute
    obtain ⟨final, hfinal, hresult⟩ := ih hmiddle hrest
    refine ⟨final, ?_, hresult⟩
    rw [List.foldlM_cons, hnext]
    exact hfinal

/-- The labels that an expansion has written replay to the stack that it tracks. -/
theorem Tracks.replayNormal {expansion : Expansion} {memory : Memory}
    (htracks : context.Tracks expansion memory) :
    context.replayNormal expansion.written = .ok memory.stack := by
  rw [Context.replayNormal, htracks.written, foldlM_flatten_of_yields htracks.stack,
    ← Stack.eq_pushAll_toList]

/-- A compressed proof that leaves some statement can be written out, and what is written replays
to the same stack. -/
theorem exists_expansion {floating : List Typing} {essential : List Statement}
    {proof : List Symbol} {stack : Stack Statement}
    (hreplay : context.replayCompressed floating essential proof = .ok stack)
    (hnonempty : stack ≠ .empty) :
    ∃ normal, context.expand? floating essential proof = some normal ∧ normal ≠ [] ∧
      context.replayNormal normal = .ok stack := by
  obtain ⟨block, digits, implicit, steps, codes, memory, hcut, himplicit, hsteps, hcodes, hrun,
    rfl⟩ := replayCompressed_eq_ok_iff.mp hreplay
  obtain ⟨final, hfinal, htracks⟩ := tracks_empty.run hsteps hrun
  have hwritten := htracks.replayNormal
  refine ⟨final.written, ?_, fun hnil => ?_, hwritten⟩
  · simp [expand?, hcut, himplicit, hcodes, hfinal, Except.toOption]
  · rw [hnil] at hwritten
    exact hnonempty (Except.ok.inj hwritten).symm

/-- Every label of a normal proof that can be replayed stands for a step. -/
theorem exists_step_of_replay {proof : List Symbol} {start result : Stack Statement}
    (hreplay : proof.foldlM context.advance start = .ok result) :
    ∀ label ∈ proof, ∃ step, context.step label = .ok step := by
  induction proof generalizing start with
  | nil => simp
  | cons first rest ih =>
    rw [List.foldlM_cons, bind_eq_ok_iff] at hreplay
    obtain ⟨middle, hadvance, hrest⟩ := hreplay
    obtain ⟨step, hstep, -⟩ := advance_eq_ok_iff.mp hadvance
    exact List.forall_mem_cons.mpr ⟨⟨step, hstep⟩, ih hrest⟩

/-- Executing the numbers of labels is performing their steps. -/
theorem foldlM_execute_idxOf {labels proof : List Symbol} {steps : List Step}
    {start result : Stack Statement} {saved : Array Statement}
    (hsteps : List.Forall₂ (fun label step => context.step label = .ok step) labels steps)
    (hlabels : ∀ label ∈ proof, label ∈ labels)
    (hreplay : proof.foldlM context.advance start = .ok result) :
    (proof.map fun label => Code.index (labels.idxOf label)).foldlM
      (context.execute steps.toArray) ⟨start, saved⟩ = .ok ⟨result, saved⟩ := by
  induction proof generalizing start with
  | nil =>
    cases hreplay
    rfl
  | cons label rest ih =>
    rw [List.foldlM_cons, bind_eq_ok_iff] at hreplay
    obtain ⟨middle, hadvance, hrest⟩ := hreplay
    obtain ⟨step, hstep, hperform⟩ := advance_eq_ok_iff.mp hadvance
    rw [List.forall_mem_cons] at hlabels
    have hexecute : context.execute steps.toArray ⟨start, saved⟩
        (.index (labels.idxOf label)) = .ok ⟨middle, saved⟩ := by
      obtain ⟨hnone, -⟩ | ⟨found, resolved, hfound, hresolved, hfoundStep⟩ :=
        forall₂_getElem? hsteps (labels.idxOf label)
      · rw [List.getElem?_idxOf hlabels.1] at hnone
        cases hnone
      · rw [List.getElem?_idxOf hlabels.1] at hfound
        cases hfound
        cases hstep.symm.trans hfoundStep
        simp only [execute, List.getElem?_toArray, hresolved, hperform]
        rfl
    rw [List.map_cons, List.foldlM_cons, hexecute]
    exact ih hlabels.2 hrest

/-- The label exists and stands for a step. -/
def Resolves (context : Context) (label? : Option Symbol) : Prop :=
  ∃ label step, label? = some label ∧ context.step label = .ok step

theorem exists_labels {α : Type} {hypotheses : List α} {label? : α → Option Symbol}
    {R : α → Symbol → Prop} (error : α → Error)
    (hlabels : ∀ a ∈ hypotheses, ∃ label, label? a = some label ∧ R a label) :
    ∃ labels, (hypotheses.mapM fun a =>
        (match label? a with
        | some label => .ok label
        | none => .error (error a) : Except Error Symbol)) = .ok labels ∧
      List.Forall₂ R hypotheses labels := by
  apply exists_mapM_eq_ok
  intro a ha
  obtain ⟨label, hlabel, hR⟩ := hlabels a ha
  exact ⟨label, by rw [hlabel], hR⟩

/-- The labels of the hypotheses are those that the environment gives, in order. -/
theorem exists_implicitLabels_forall₂ {floating : List Typing} {essential : List Statement}
    {R : Statement → Symbol → Prop}
    (hfloating : ∀ typing ∈ floating, ∃ label,
      context.environment.floatingLabel? typing.var = some label ∧ R typing.statement label)
    (hessential : ∀ statement ∈ essential, ∃ label,
      context.environment.essentialLabel? statement = some label ∧ R statement label) :
    ∃ implicit, context.implicitLabels floating essential = .ok implicit ∧
      List.Forall₂ R (floating.map Typing.statement ++ essential) implicit := by
  obtain ⟨floatingLabels, hfloatingLabels, hfloatingForall⟩ := exists_labels
    (fun typing => .unlabelledHypothesis typing.var) hfloating
  obtain ⟨essentialLabels, hessentialLabels, hessentialForall⟩ := exists_labels
    (fun statement => .unlabelledHypothesis (Statement.text statement)) hessential
  refine ⟨floatingLabels ++ essentialLabels, ?_, ?_⟩
  · exact bind_eq_ok_iff.mpr ⟨_, hfloatingLabels, bind_eq_ok_iff.mpr ⟨_, hessentialLabels, rfl⟩⟩
  · exact List.rel_append (List.forall₂_map_left_iff.mpr hfloatingForall) hessentialForall

theorem exists_implicitLabels {floating : List Typing} {essential : List Statement}
    (hfloating : ∀ typing ∈ floating,
      context.Resolves (context.environment.floatingLabel? typing.var))
    (hessential : ∀ statement ∈ essential,
      context.Resolves (context.environment.essentialLabel? statement)) :
    ∃ implicit, context.implicitLabels floating essential = .ok implicit ∧
      ∀ label ∈ implicit, ∃ step, context.step label = .ok step := by
  have hresolved : ∀ {label?}, context.Resolves label? → ∃ label, label? = some label ∧
      ∃ step, context.step label = .ok step :=
    fun ⟨label, step, hlabel, hstep⟩ => ⟨label, hlabel, step, hstep⟩
  obtain ⟨implicit, himplicit, hforall⟩ := exists_implicitLabels_forall₂
    (R := fun _ label => ∃ step, context.step label = .ok step)
    (fun typing htyping => hresolved (hfloating typing htyping))
    fun statement hstatement => hresolved (hessential statement hstatement)
  refine ⟨implicit, himplicit, fun label hlabel => ?_⟩
  obtain ⟨i, hi⟩ := List.getElem?_of_mem hlabel
  rcases forall₂_getElem? hforall i with ⟨-, hnone⟩ | ⟨_, _, -, hsome, hstep⟩
  · cases hi.symm.trans hnone
  · cases hi.symm.trans hsome
    exact hstep

/-- The block and the digits put a normal proof into shorthand, given the labels that need not be
listed. The block lists the other labels of the proof, in any order. The digits write the number of
each label of the proof in turn, cut into words at any places. -/
structure Compresses (implicit proof block : List Symbol) (digits : List String) : Prop where
  mem_block : ∀ label, label ∈ block ↔ label ∈ proof ∧ label ∉ implicit
  digits_eq : digits.flatMap String.toList =
    proof.flatMap fun label => Code.encode (.index ((implicit ++ block).idxOf label))

theorem replayCompressed_of_compresses {floating : List Typing} {essential : List Statement}
    {implicit proof block : List Symbol} {digits : List String} {stack : Stack Statement}
    (hreplay : context.replayNormal proof = .ok stack)
    (himplicit : context.implicitLabels floating essential = .ok implicit)
    (hresolved : ∀ label ∈ implicit, ∃ step, context.step label = .ok step)
    (hclosing : ")" ∉ proof) (hbound : (implicit ++ block).length < 2 ^ 64)
    (hcompresses : Compresses implicit proof block digits) :
    context.replayCompressed floating essential (block ++ ")" :: digits) = .ok stack := by
  have hblock : ")" ∉ block := fun hmem => hclosing ((hcompresses.mem_block _).mp hmem).1
  have hlabels : ∀ label ∈ proof, label ∈ implicit ++ block := by
    intro label hlabel
    by_cases hknown : label ∈ implicit
    · exact List.mem_append_left _ hknown
    · exact List.mem_append_right _ ((hcompresses.mem_block label).mpr ⟨hlabel, hknown⟩)
  -- all steps are looked up before the first is performed, those of unused labels included
  have hfound : ∀ label ∈ implicit ++ block, ∃ step, context.step label = .ok step ∧ True := by
    intro label hlabel
    obtain ⟨step, hstep⟩ : ∃ step, context.step label = .ok step := by
      rcases List.mem_append.mp hlabel with hmem | hmem
      · exact hresolved label hmem
      · exact exists_step_of_replay hreplay label ((hcompresses.mem_block label).mp hmem).1
    exact ⟨step, hstep, trivial⟩
  obtain ⟨steps, hsteps, -⟩ := exists_mapM_eq_ok (R := fun _ _ => True) hfound
  rw [mapM_eq_ok_iff] at hsteps
  have hcodes : Code.decode digits =
      .ok (proof.map fun label => Code.index ((implicit ++ block).idxOf label)) := by
    apply Code.decode_of_flatMap_encode
    · intro number hnumber
      obtain ⟨label, hlabel, hcode⟩ := List.mem_map.mp hnumber
      cases hcode
      have hindex := List.idxOf_lt_length_of_mem (hlabels label hlabel)
      rw [Code.maxNumber]
      omega
    · rw [hcompresses.digits_eq, List.flatMap_map]
  exact replayCompressed_eq_ok_iff.mpr ⟨block, digits, implicit, steps, _, ⟨stack, #[]⟩,
    cutAt?_append hblock digits, himplicit, hsteps, hcodes,
    foldlM_execute_idxOf hsteps hlabels hreplay, rfl⟩

/-- A compressed proof that leaves some statement can be written out as a normal proof that leaves
the same stack, unless its first label is an opening parenthesis. A normal proof that can be
replayed leaves the same stack in shorthand, provided that the hypotheses of the theorem have
labels, that no label is a closing parenthesis, and that the labels can be numbered. -/
theorem compressed_normal_interchangeable (context : Context) (floating : List Typing)
    (essential : List Statement) :
    (∀ (proof : List Symbol) (stack : Stack Statement),
      context.replay floating essential ("(" :: proof) = .ok stack → stack ≠ .empty →
      ∃ normal, context.expand? floating essential proof = some normal ∧
        (normal.head? ≠ some "(" → context.replay floating essential normal = .ok stack)) ∧
    ∀ (proof : List Symbol) (stack : Stack Statement),
      context.replay floating essential proof = .ok stack → proof.head? ≠ some "(" →
      (∀ typing ∈ floating, context.Resolves (context.environment.floatingLabel? typing.var)) →
      (∀ statement ∈ essential,
        context.Resolves (context.environment.essentialLabel? statement)) →
      ")" ∉ proof →
      ∃ implicit, context.implicitLabels floating essential = .ok implicit ∧
        ∀ (block : List Symbol) (digits : List String), (implicit ++ block).length < 2 ^ 64 →
          Compresses implicit proof block digits →
          context.replay floating essential ("(" :: block ++ ")" :: digits) = .ok stack := by
  refine ⟨fun proof stack hreplay hnonempty => ?_,
    fun proof stack hreplay hnormal hfloating hessential hclosing => ?_⟩
  · rw [replay, if_pos rfl] at hreplay
    obtain ⟨normal, hexpand, hnotnil, hnormal⟩ := exists_expansion hreplay hnonempty
    refine ⟨normal, hexpand, fun hhead => ?_⟩
    rw [replay_of_head?_ne hnotnil hhead]
    exact hnormal
  · obtain ⟨implicit, himplicit, hresolved⟩ := exists_implicitLabels hfloating hessential
    refine ⟨implicit, himplicit, fun block digits hbound hcompresses => ?_⟩
    have hnotnil : proof ≠ [] := by
      rintro rfl
      cases hreplay
    rw [replay_of_head?_ne hnotnil hnormal] at hreplay
    rw [List.cons_append, replay, if_pos rfl]
    exact replayCompressed_of_compresses hreplay himplicit hresolved hclosing hbound hcompresses

theorem interchangeable_at_disjointPlace :
    let floating : List Typing := [⟨"wff", "ph"⟩, ⟨"wff", "ps"⟩]
    let normal := ["wph", "wps", "wi", "wph", "wps", "wi", "wi"]
    let stack : Stack Statement :=
      ⟨[["wff", "(", "(", "ph", "->", "ps", ")", "->", "(", "ph", "->", "ps", ")", ")"]]⟩
    disjointPlace.replay floating [] ["(", "wi", ")", "ABCZ", "DC"] = .ok stack ∧
    disjointPlace.expand? floating [] ["wi", ")", "ABCZ", "DC"] = some normal ∧
    disjointPlace.replay floating [] normal = .ok stack ∧
    disjointPlace.replay floating [] ["(", "wi", ")", "ABCA", "BCC"] = .ok stack := by
  intro floating normal stack
  obtain ⟨hout, hin⟩ := compressed_normal_interchangeable disjointPlace floating []
  have hcompressed : disjointPlace.replay floating [] ["(", "wi", ")", "ABCZ", "DC"] = .ok stack :=
    by decide +kernel
  have hexpand : disjointPlace.expand? floating [] ["wi", ")", "ABCZ", "DC"] = some normal := by
    decide +kernel
  have hnormal : disjointPlace.replay floating [] normal = .ok stack := by
    obtain ⟨_, hwritten, hreplay⟩ := hout _ _ hcompressed (by decide)
    cases hexpand.symm.trans hwritten
    exact hreplay (by decide)
  refine ⟨hcompressed, hexpand, hnormal, ?_⟩
  have hresolves : ∀ typing ∈ floating,
      disjointPlace.Resolves (disjointPlace.environment.floatingLabel? typing.var) := by
    intro typing htyping
    rcases List.mem_pair.mp htyping with rfl | rfl
    · exact ⟨"wph", .hypothesis ["wff", "ph"], by decide +kernel, by decide +kernel⟩
    · exact ⟨"wps", .hypothesis ["wff", "ps"], by decide +kernel, by decide +kernel⟩
  obtain ⟨implicit, himplicit, hreplay⟩ :=
    hin normal stack hnormal (by decide) hresolves (by simp) (by decide)
  have hlabels : disjointPlace.implicitLabels floating [] = .ok ["wph", "wps"] := by decide +kernel
  cases hlabels.symm.trans himplicit
  refine hreplay ["wi"] ["ABCA", "BCC"] (by decide) ⟨fun label => ?_, ?_⟩
  · simp only [normal, List.mem_cons, List.not_mem_nil, or_false]
    refine ⟨?_, by tauto⟩
    rintro rfl
    decide
  · decide +kernel

end Context

end Proof

end Metamath
