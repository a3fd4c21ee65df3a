import Mathlib.Data.List.Forall2
import Metamath.Proof.Replay
import Metamath.Proofs.Label

/-!
# What a replay does

A proof step does not look below the entries it consumes, so a piece of a normal proof that leaves
one statement on the empty stack leaves that statement on every stack. Such a piece is a subproof
of the statement. This module says how subproofs are put together, which is all that is needed to
relate proofs to trees and to move pieces of proofs from one place to another.

The other fact about replays is the one to reason about what they prove: whatever holds of the
hypotheses of a theorem and survives the application of assertions holds of every statement that a
replay leaves, be the proof normal or compressed.
-/

namespace Metamath

section Sequences

variable {ε α β : Type}

/-- Lists are mapped by a function that may fail exactly if it succeeds on each of their elements.
-/
theorem mapM_eq_ok_iff {f : α → Except ε β} {list : List α} {results : List β} :
    list.mapM f = .ok results ↔ List.Forall₂ (fun a b => f a = .ok b) list results := by
  induction list generalizing results with
  | nil =>
    rw [List.mapM_nil, List.forall₂_nil_left_iff]
    refine ⟨?_, ?_⟩
    · intro hresults
      cases hresults
      rfl
    · rintro rfl
      rfl
  | cons a rest ih =>
    rw [List.mapM_cons, List.forall₂_cons_left_iff, bind_eq_ok_iff]
    refine ⟨?_, ?_⟩
    · rintro ⟨b, hb, hrest⟩
      obtain ⟨bs, hbs, hresults⟩ := bind_eq_ok_iff.mp hrest
      cases hresults
      exact ⟨b, bs, hb, ih.mp hbs, rfl⟩
    · rintro ⟨b, bs, hb, hbs, rfl⟩
      exact ⟨b, hb, bind_eq_ok_iff.mpr ⟨bs, ih.mpr hbs, rfl⟩⟩

/-- Lists that correspond element by element correspond at each position. -/
theorem forall₂_getElem? {R : α → β → Prop} {first : List α} {second : List β}
    (hforall : List.Forall₂ R first second) (i : Nat) :
    (first[i]? = none ∧ second[i]? = none) ∨
      ∃ a b, first[i]? = some a ∧ second[i]? = some b ∧ R a b := by
  induction hforall generalizing i with
  | nil => exact .inl ⟨rfl, rfl⟩
  | cons hhead _ ih =>
    cases i with
    | zero => exact .inr ⟨_, _, rfl, rfl, hhead⟩
    | succ i => exact ih i

theorem exists_of_forall₂_of_mem {R : α → β → Prop} {first : List α} {second : List β} {a : α}
    (hforall : List.Forall₂ R first second) (hmem : a ∈ first) : ∃ b ∈ second, R a b := by
  induction hforall with
  | nil => cases hmem
  | @cons head other _ rest hhead _ ih =>
    rcases List.mem_cons.mp hmem with rfl | hlater
    · exact ⟨other, List.mem_cons_self, hhead⟩
    · obtain ⟨b, hb, hrelated⟩ := ih hlater
      exact ⟨b, List.mem_cons_of_mem other hb, hrelated⟩

/-- What every step of a run preserves is preserved by the run. -/
theorem foldlM_invariant {f : β → α → Except ε β} {P : β → Prop} {list : List α}
    (hstep : ∀ state a state', P state → f state a = .ok state' → P state')
    {start final : β} (hstart : P start) (hrun : list.foldlM f start = .ok final) : P final := by
  induction list generalizing start with
  | nil =>
    cases hrun
    exact hstart
  | cons a rest ih =>
    rw [List.foldlM_cons, bind_eq_ok_iff] at hrun
    obtain ⟨middle, hfirst, hrest⟩ := hrun
    exact ih (hstep start a middle hstart hfirst) hrest

/-- A sequence of steps can be repeated by other steps that do the same in all states that have a
property, if the first steps lead from such states to such states. -/
theorem foldlM_mono {f g : β → α → Except ε β} {P : β → Prop}
    (hstep : ∀ state a state', P state → f state a = .ok state' →
      P state' ∧ g state a = .ok state')
    {list : List α} {start final : β} (hstart : P start) (hrun : list.foldlM f start = .ok final) :
    list.foldlM g start = .ok final := by
  induction list generalizing start with
  | nil => exact hrun
  | cons a rest ih =>
    rw [List.foldlM_cons, bind_eq_ok_iff] at hrun ⊢
    obtain ⟨middle, hfirst, hrest⟩ := hrun
    obtain ⟨hmiddle, hsame⟩ := hstep start a middle hstart hfirst
    exact ⟨middle, hsame, ih hmiddle hrest⟩

theorem mapM_mono {f g : α → Except ε β} {list : List α} {results : List β}
    (hmono : ∀ a b, f a = .ok b → g a = .ok b) (hmap : list.mapM f = .ok results) :
    list.mapM g = .ok results := by
  rw [mapM_eq_ok_iff] at hmap ⊢
  exact hmap.imp hmono

/-- A computation fails for no other reasons than the given ones. -/
def FailsOnly (P : ε → Prop) : Except ε α → Prop
  | .ok _ => True
  | .error error => P error

variable {P : ε → Prop}

theorem FailsOnly.of_eq_error {result : Except ε α} (hfails : FailsOnly P result) {error : ε}
    (herror : result = .error error) : P error := by
  rw [herror] at hfails
  exact hfails

theorem FailsOnly.bind {first : Except ε α} {second : α → Except ε β}
    (hfirst : FailsOnly P first) (hsecond : ∀ a, FailsOnly P (second a)) :
    FailsOnly P (first >>= second) := by
  cases first with
  | error error => exact hfirst
  | ok a => exact hsecond a

theorem FailsOnly.map {first : Except ε α} (hfirst : FailsOnly P first) (f : α → β) :
    FailsOnly P (first.map f) := by
  cases first with
  | error error => exact hfirst
  | ok a => trivial

theorem failsOnly_mapM {f : α → Except ε β} {list : List α}
    (hf : ∀ a ∈ list, FailsOnly P (f a)) : FailsOnly P (list.mapM f) := by
  induction list with
  | nil => trivial
  | cons a rest ih =>
    rw [List.mapM_cons]
    obtain ⟨hfirst, hrest⟩ := List.forall_mem_cons.mp hf
    exact hfirst.bind fun _ => (ih hrest).bind fun _ => trivial

theorem failsOnly_foldlM {f : β → α → Except ε β} (hf : ∀ state a, FailsOnly P (f state a))
    (list : List α) (start : β) : FailsOnly P (list.foldlM f start) := by
  induction list generalizing start with
  | nil => trivial
  | cons a rest ih =>
    rw [List.foldlM_cons]
    exact (hf start a).bind ih

end Sequences

namespace Proof.Context

variable {context : Context} {label : Symbol}

theorem advance_eq_ok_iff {stack result : Stack Statement} :
    context.advance stack label = .ok result ↔
      ∃ step, context.step label = .ok step ∧ context.perform step stack = .ok result :=
  bind_eq_ok_iff

/-- The labels are a subproof of the statement: replayed on any stack, they push it. -/
def Yields (context : Context) (labels : List Symbol) (statement : Statement) : Prop :=
  ∀ stack, labels.foldlM context.advance stack = .ok (stack.push statement)

theorem yields_hypothesis {statement : Statement}
    (hstep : context.step label = .ok (.hypothesis statement)) :
    context.Yields [label] statement := by
  intro stack
  rw [List.foldlM_cons, bind_eq_ok_iff]
  exact ⟨stack.push statement, advance_eq_ok_iff.mpr ⟨_, hstep, rfl⟩, rfl⟩

/-- Subproofs one after another push their statements one after another. -/
theorem foldlM_flatten_of_yields {subproofs : List (List Symbol)} {statements : List Statement}
    (hyields : List.Forall₂ context.Yields subproofs statements) (stack : Stack Statement) :
    subproofs.flatten.foldlM context.advance stack = .ok (stack.pushAll statements) := by
  induction hyields generalizing stack with
  | nil => rfl
  | cons hfirst _ ih =>
    rw [List.flatten_cons, List.foldlM_append, hfirst stack, Stack.pushAll_cons]
    exact ih _

/-- Subproofs of the hypotheses of an assertion, followed by its label, are a subproof of what
follows from the hypotheses. -/
theorem yields_assertion {assertion : Assertion} {subproofs : List (List Symbol)}
    {args : List Statement} {conclusion : Statement}
    (hstep : context.step label = .ok (.assertion assertion))
    (hyields : List.Forall₂ context.Yields subproofs args)
    (hlength : args.length = assertion.arity)
    (hconclude : conclude context.environment assertion args = .ok conclusion) :
    context.Yields (subproofs.flatten ++ [label]) conclusion := by
  intro stack
  have hadvance : context.advance (stack.pushAll args) label = .ok (stack.push conclusion) :=
    advance_eq_ok_iff.mpr ⟨_, hstep,
      perform_assertion_eq_ok_iff.mpr ⟨stack, args, conclusion, hlength, rfl, hconclude, rfl⟩⟩
  rw [List.foldlM_append, foldlM_flatten_of_yields hyields]
  exact bind_eq_ok_iff.mpr ⟨_, rfl, bind_eq_ok_iff.mpr ⟨_, hadvance, rfl⟩⟩

/-- Everything that a compressed proof is made of, if it can be replayed. -/
theorem replayCompressed_eq_ok_iff {floating : List Typing} {essential : List Statement}
    {proof : List Symbol} {stack : Stack Statement} :
    context.replayCompressed floating essential proof = .ok stack ↔
      ∃ block digits implicit steps codes memory,
        cutAt? ")" proof = some (block, digits) ∧
        context.implicitLabels floating essential = .ok implicit ∧
        List.Forall₂ (fun label step => context.step label = .ok step) (implicit ++ block) steps ∧
        Code.decode digits = .ok codes ∧
        codes.foldlM (context.execute steps.toArray) .empty = .ok memory ∧
        memory.stack = stack := by
  rw [replayCompressed, decompress]
  cases cutAt? ")" proof with
  | none => simp [bind, Except.bind]
  | some parts =>
    obtain ⟨block, digits⟩ := parts
    simp only [bind_eq_ok_iff, ← mapM_eq_ok_iff]
    refine ⟨?_, ?_⟩
    · rintro ⟨_, ⟨implicit, himplicit, steps, hsteps, codes, hcodes, hparts⟩, memory, hrun, hstack⟩
      cases hparts
      cases hstack
      exact ⟨block, digits, implicit, steps, codes, memory, rfl, himplicit, hsteps, hcodes, hrun,
        rfl⟩
    · rintro ⟨_, _, implicit, steps, codes, memory, hcut, himplicit, hsteps, hcodes, hrun, rfl⟩
      cases hcut
      exact ⟨_, ⟨implicit, himplicit, steps, hsteps, codes, hcodes, rfl⟩, memory, hrun, rfl⟩

/-- A proof that does not start with an opening parenthesis is replayed as a normal one. -/
theorem replay_of_head?_ne {floating : List Typing} {essential : List Statement}
    {proof : List Symbol} (hnonempty : proof ≠ []) (hnormal : proof.head? ≠ some "(") :
    context.replay floating essential proof = context.replayNormal proof := by
  obtain ⟨label, rest, rfl⟩ := List.exists_cons_of_ne_nil hnonempty
  have hlabel : label ≠ "(" := by simpa using hnormal
  rw [replay, if_neg hlabel]

theorem verify_eq_ok_iff {floating : List Typing} {essential : List Statement}
    {conclusion : Statement} {proof : List Symbol} :
    context.verify floating essential conclusion proof = .ok () ↔
      context.replay floating essential proof = .ok ⟨[conclusion]⟩ := by
  rw [verify, bind_eq_ok_iff]
  refine ⟨?_, ?_⟩
  · rintro ⟨⟨entries⟩, hreplay, hcompare⟩
    split at hcompare
    · cases hcompare
    · rename_i entry hentries
      split at hcompare
      · rename_i hentry
        subst hentry
        cases hentries
        exact hreplay
      · cases hcompare
    · cases hcompare
  · intro hreplay
    exact ⟨_, hreplay, by simp⟩

/-- A property of statements that hypotheses of the theorem have and that every application of an
assertion hands on from the arguments to the result. -/
structure Preserves (context : Context) (P : Statement → Prop) : Prop where
  hypothesis : ∀ label statement, context.step label = .ok (.hypothesis statement) → P statement
  assertion : ∀ label assertion args conclusion,
    context.step label = .ok (.assertion assertion) → args.length = assertion.arity →
    (∀ statement ∈ args, P statement) →
    conclude context.environment assertion args = .ok conclusion → P conclusion

namespace Preserves

variable {P : Statement → Prop} (hP : context.Preserves P)
include hP

theorem perform {step : Step} {stack result : Stack Statement}
    (hstep : context.step label = .ok step) (hstack : ∀ statement ∈ stack.entries, P statement)
    (hperform : context.perform step stack = .ok result) :
    ∀ statement ∈ result.entries, P statement := by
  cases step with
  | hypothesis statement =>
    cases hperform
    exact List.forall_mem_cons.mpr ⟨hP.hypothesis label statement hstep, hstack⟩
  | assertion assertion =>
    obtain ⟨base, args, conclusion, hlength, rfl, hconclude, rfl⟩ :=
      perform_assertion_eq_ok_iff.mp hperform
    simp only [Stack.pushAll, List.mem_append, List.mem_reverse] at hstack
    have hargs : ∀ statement ∈ args, P statement := fun s hs => hstack s (.inl hs)
    have hbase : ∀ statement ∈ base.entries, P statement := fun s hs => hstack s (.inr hs)
    exact List.forall_mem_cons.mpr
      ⟨hP.assertion label assertion args conclusion hstep hlength hargs hconclude, hbase⟩

/-- An instruction of a compressed proof handles only statements with the property, also those it
saves and brings back. -/
theorem execute {labels : List Symbol} {steps : List Step} {memory result : Memory} {code : Code}
    (hsteps : List.Forall₂ (fun label step => context.step label = .ok step) labels steps)
    (hstack : ∀ statement ∈ memory.stack.entries, P statement)
    (hsaved : ∀ statement ∈ memory.saved, P statement)
    (hexecute : context.execute steps.toArray memory code = .ok result) :
    (∀ statement ∈ result.stack.entries, P statement) ∧
      ∀ statement ∈ result.saved, P statement := by
  cases code with
  | save =>
    simp only [Context.execute] at hexecute
    split at hexecute
    · rename_i top htop
      cases hexecute
      refine ⟨hstack, fun statement hmem => ?_⟩
      rcases Array.mem_push.mp hmem with hold | rfl
      · exact hsaved statement hold
      · exact hstack statement (List.mem_of_head? htop)
    · cases hexecute
  | index number =>
    simp only [Context.execute] at hexecute
    split at hexecute
    · rename_i step hlookup
      obtain ⟨stack, hperform, rfl⟩ := map_eq_ok_iff.mp hexecute
      rw [List.getElem?_toArray] at hlookup
      obtain ⟨-, hnone⟩ | ⟨label, _, -, hsome, hstep⟩ := forall₂_getElem? hsteps number
      · rw [hnone] at hlookup
        cases hlookup
      · cases hsome.symm.trans hlookup
        exact ⟨hP.perform hstep hstack hperform, hsaved⟩
    · split at hexecute
      · rename_i statement hlookup
        cases hexecute
        exact ⟨List.forall_mem_cons.mpr ⟨hsaved _ (Array.mem_of_getElem? hlookup), hstack⟩, hsaved⟩
      · cases hexecute

/-- Every statement that a replay leaves has the property. -/
theorem replay {floating : List Typing} {essential : List Statement} {proof : List Symbol}
    {stack : Stack Statement}
    (hreplay : context.replay floating essential proof = .ok stack) :
    ∀ statement ∈ stack.entries, P statement := by
  cases proof with
  | nil => cases hreplay
  | cons first rest =>
    rw [Context.replay] at hreplay
    split at hreplay
    · obtain ⟨block, digits, implicit, steps, codes, memory, -, -, hsteps, -, hrun, rfl⟩ :=
        replayCompressed_eq_ok_iff.mp hreplay
      -- the saved statements belong to the invariant, for a later instruction may push one of them
      have hinvariant := foldlM_invariant
        (P := fun memory : Memory => (∀ statement ∈ memory.stack.entries, P statement) ∧
          ∀ statement ∈ memory.saved, P statement)
        (fun memory code result hmemory hexecute =>
          hP.execute hsteps hmemory.1 hmemory.2 hexecute)
        ⟨by simp [Memory.empty, Stack.empty], by simp [Memory.empty]⟩ hrun
      exact hinvariant.1
    · apply foldlM_invariant
        (P := fun stack : Stack Statement => ∀ statement ∈ stack.entries, P statement)
        (fun stack label result hstack hadvance => ?_) (by simp [Stack.empty]) hreplay
      obtain ⟨step, hstep, hperform⟩ := advance_eq_ok_iff.mp hadvance
      exact hP.perform hstep hstack hperform

/-- A theorem whose proof is accepted has the property. -/
theorem verify {floating : List Typing} {essential : List Statement} {conclusion : Statement}
    {proof : List Symbol}
    (hverify : context.verify floating essential conclusion proof = .ok ()) : P conclusion :=
  hP.replay (verify_eq_ok_iff.mp hverify) conclusion (List.mem_singleton_self conclusion)

end Preserves

/-- A place where `ph` and `ps` are active and disjoint, with an axiom that is about disjoint
variables only. -/
def disjointPlace : Context where
  labels := .ofList
    [("wph", .floating ["wff", "ph"]), ("wps", .floating ["wff", "ps"]),
      ("wi", .axiomatic
        ⟨[], [⟨"wff", "ph"⟩, ⟨"wff", "ps"⟩], [], ["wff", "(", "ph", "->", "ps", ")"]⟩),
      ("ax-dj", .axiomatic
        ⟨[("ph", "ps")], [⟨"wff", "ph"⟩, ⟨"wff", "ps"⟩], [], ["|-", "(", "ph", "->", "ps", ")"]⟩)]
  environment :=
    (((((Environment.empty.addVariable "ph").addVariable "ps").addFloating "ph" "wph").addFloating
      "ps" "wps").addDisjoint ["ph", "ps"])

end Proof.Context

end Metamath
